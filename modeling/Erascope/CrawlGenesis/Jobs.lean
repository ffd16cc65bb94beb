import Mathlib.Tactic
import Erascope.Lib.Run

/-!
# The genesis jobs

The model of `services/crawl-genesis/crawl_genesis.service.ts`. `CRAWL_GENESIS` writes the genesis
of the chain to a file, stores its checkpoint, and creates the jobs that read the file, all but one:
the job of the contracts is created by that of the codes. Each job stores what it reads, together
with a checkpoint of its own, in one database transaction. The process exits when all have. The
queues outlive the process; the process may stop between any two of these actions, and starts with a
new `CRAWL_GENESIS`.

Results:
1. `genesis_tables`: in every run, what a job stores is in its table once if its checkpoint is
   there, and not at all otherwise; the process exits only when everything is stored.
2. `done_reachable_iff`: from which states a job can still be done.
3. `genesis_file_complete`: when the file is the genesis.
4. `truncated_file`: a query for a chunk that fails leaves a part of it.
-/

namespace Erascope.CrawlGenesis

/-! ## 1. Jobs -/

/-- The jobs behind `genesisJobs`. -/
inductive GenesisJob
  | account | validator | proposal | code | contract | feegrant | ibcTao
deriving DecidableEq, Repr

/-- `genesisJobs` -/
def genesisJobs : List GenesisJob :=
  [.account, .validator, .proposal, .code, .contract, .feegrant, .ibcTao]

/-- A job of a queue. -/
inductive QueueJob
  | genesis
  | job (j : GenesisJob)
deriving DecidableEq, Repr

/-- What the jobs find: the genesis of the node, as one text and in chunks; what a job makes of the
text of the file, `none` when it throws; and whether `account` has rows already. -/
structure Env (ρ : Type) where
  genesis : String
  chunks : List String
  read : GenesisJob → String → Option (List ρ)
  accountsInDb : Bool

/-- What a job stores. The job of the accounts stores nothing when there are some. -/
def Env.rows {ρ : Type} (env : Env ρ) (j : GenesisJob) (file : List String) : Option (List ρ) :=
  if j = .account ∧ env.accountsInDb = true then some [] else env.read j (String.join file)

/-- How far `handleGenesis` is. -/
inductive Handling
  | chunks (index : ℕ)
  | checkpoint
  /-- The jobs that are still to be created. -/
  | create (jobs : List GenesisJob)
deriving DecidableEq, Repr

/-- The file as the texts that were appended to it, the checkpoints, the tables and the queues. -/
structure State (ρ : Type) where
  file : List String
  genesis : Bool
  done : GenesisJob → Bool
  table : GenesisJob → List ρ
  queue : List QueueJob
  up : Bool
  exited : Bool
  handling : Option Handling
  /-- The job of the codes is about to create that of the contracts. -/
  contractDue : Bool

variable {ρ : Type}

/-- The answer to the query `genesis`. -/
inductive Answer
  | genesis
  /-- An error with the code `-32603`. -/
  | tooLarge
  /-- An error with another code. -/
  | otherCode
  /-- An error whose message is no JSON. -/
  | throws
deriving DecidableEq, Repr

inductive Step
  | start
  | crash
  | handleGenesis (answer : Answer)
  /-- The query `genesis_chunked`. -/
  | chunk (answered : Bool)
  | storeCheckpoint
  | createJob (j : GenesisJob)
  | run (j : GenesisJob)
  /-- The job of the codes creates the one of the contracts. -/
  | createContract
  /-- The test at the end of a job. -/
  | terminateProcess
  /-- A job that has failed too often is removed. -/
  | drop (q : QueueJob)
deriving DecidableEq, Repr

/-! ## 2. Steps -/

/-- `checkGenesisJobProcess` -/
def checkGenesisJobProcess (s : State ρ) (j : GenesisJob) : ℕ :=
  if s.genesis = false then 1 else if s.done j then 2 else 0

def handleGenesis (env : Env ρ) (s : State ρ) (answer : Answer) : State ρ :=
  if s.genesis then { s with queue := s.queue.erase .genesis }
  else
    match answer with
    | .genesis => { s with file := s.file ++ [env.genesis], handling := some .checkpoint }
    | .tooLarge => { s with handling := some (.chunks 0) }
    | .otherCode => { s with queue := s.queue.erase .genesis }
    | .throws => s

/-- The loop over the chunks. After an error the code of the first error is tested again, so that
every error ends the loop. -/
def handleChunk (env : Env ρ) (s : State ρ) (index : ℕ) (answered : Bool) : State ρ :=
  match env.chunks[index]?, answered with
  | some chunk, true => { s with file := s.file ++ [chunk], handling := some (.chunks (index + 1)) }
  | _, _ => { s with handling := some .checkpoint }

/-- The database transaction of a job. -/
def commit (s : State ρ) (j : GenesisJob) (rows : List ρ) : State ρ :=
  { s with
    done := fun i => if i = j then true else s.done i
    table := fun i => if i = j then s.table i ++ rows else s.table i }

/-- A run of a job that is not the one of the codes. -/
def runJob (env : Env ρ) (s : State ρ) (j : GenesisJob) : State ρ :=
  if checkGenesisJobProcess s j ≠ 0 then { s with queue := s.queue.erase (.job j) }
  else
    match env.rows j s.file with
    | none => s
    | some rows => { commit s j rows with queue := s.queue.erase (.job j) }

/-- `crawlGenesisCodes`, up to the job that it creates. -/
def crawlGenesisCodes (env : Env ρ) (s : State ρ) : State ρ :=
  if checkGenesisJobProcess s .code = 2 then { s with contractDue := true }
  else if checkGenesisJobProcess s .code = 1 then { s with queue := s.queue.erase (.job .code) }
  else
    match env.rows .code s.file with
    | none => s
    | some rows => { commit s .code rows with contractDue := true }

def step (env : Env ρ) (s : State ρ) : Step → State ρ
  | .start => if s.up then s else { s with up := true, queue := s.queue ++ [.genesis] }
  | .crash => { s with up := false, handling := none, contractDue := false }
  | .handleGenesis answer =>
    if s.up ∧ s.handling = none ∧ .genesis ∈ s.queue then handleGenesis env s answer else s
  | .chunk answered =>
    match s.handling with
    | some (.chunks index) => handleChunk env s index answered
    | _ => s
  | .storeCheckpoint =>
    match s.handling with
    | some .checkpoint =>
      { s with
        genesis := true
        handling := some (.create (genesisJobs.filter fun j => j ≠ .contract)) }
    | _ => s
  | .createJob j =>
    match s.handling with
    | some (.create jobs) =>
      if j ∈ jobs then
        if jobs.erase j = [] then
          { s with queue := s.queue.erase .genesis ++ [.job j], handling := none }
        else { s with queue := s.queue ++ [.job j], handling := some (.create (jobs.erase j)) }
      else s
    | _ => s
  | .run j =>
    if s.up ∧ .job j ∈ s.queue then
      if j = .code then if s.contractDue then s else crawlGenesisCodes env s else runJob env s j
    else s
  | .createContract =>
    if s.contractDue then
      { s with
        queue := s.queue.erase (.job .code) ++ [.job .contract]
        contractDue := false }
    else s
  | .terminateProcess =>
    if s.up ∧ ∀ j ∈ genesisJobs, s.done j then
      { s with up := false, exited := true, handling := none, contractDue := false }
    else s
  | .drop q => { s with queue := s.queue.erase q }

/-- The first start. -/
def State.initial : State ρ where
  file := []
  genesis := false
  done _ := false
  table _ := []
  queue := []
  up := false
  exited := false
  handling := none
  contractDue := false

/-! ## 3. What the jobs store -/

/-- The file is still being written. -/
def Handling.writes : Handling → Bool
  | .chunks _ | .checkpoint => true
  | .create _ => false

@[simp] theorem done_commit (s : State ρ) (j : GenesisJob) (rows : List ρ) (i : GenesisJob) :
    (commit s j rows).done i = if i = j then true else s.done i := rfl

@[simp] theorem table_commit (s : State ρ) (j : GenesisJob) (rows : List ρ) (i : GenesisJob) :
    (commit s j rows).table i = if i = j then s.table i ++ rows else s.table i := rfl

namespace GenesisLemmas

variable {env : Env ρ} {s : State ρ} {j : GenesisJob}

/-- The invariant. -/
structure Inv (env : Env ρ) (s : State ρ) : Prop where
  done_genesis : ∀ j, s.done j = true → s.genesis = true
  stored : ∀ j, s.done j = true → env.rows j s.file = some (s.table j)
  empty : ∀ j, s.done j = false → s.table j = []
  writes : ∀ h ∈ s.handling, Handling.writes h = true → s.genesis = false
  creates : ∀ jobs, s.handling = some (.create jobs) → s.genesis = true ∧ .contract ∉ jobs
  queued : ∀ j, .job j ∈ s.queue → s.genesis = true
  contract : .job .contract ∈ s.queue ∨ s.contractDue = true ∨ s.done .contract = true →
    s.done .code = true
  exited : s.exited = true → ∀ j, s.done j = true
  down : s.up = false → s.handling = none ∧ s.contractDue = false

theorem mem_genesisJobs (j : GenesisJob) : j ∈ genesisJobs := by cases j <;> decide

/-- A step that changes at most the queue, by jobs that it removes, and what is under way. -/
theorem Inv.quiet (h : Inv env s) (queue : List QueueJob) (hqueue : ∀ q ∈ queue, q ∈ s.queue) :
    Inv env { s with queue := queue } where
  done_genesis := h.done_genesis
  stored := h.stored
  empty := h.empty
  writes := h.writes
  creates := h.creates
  queued j hj := h.queued j (hqueue _ hj)
  contract hc := h.contract (hc.imp_left (hqueue _))
  exited := h.exited
  down := h.down

/-- The process stops. -/
theorem Inv.stop (h : Inv env s) {exited : Bool} (hexited : exited = true → ∀ j, s.done j = true) :
    Inv env { s with up := false, exited := exited, handling := none, contractDue := false } where
  done_genesis := h.done_genesis
  stored := h.stored
  empty := h.empty
  writes _ hh := by cases hh
  creates _ hj := by cases hj
  queued := h.queued
  contract hc := by
    rcases hc with hc | hc | hc
    · exact h.contract (Or.inl hc)
    · cases hc
    · exact h.contract (Or.inr (Or.inr hc))
  exited := hexited
  down _ := ⟨rfl, rfl⟩

/-- Nothing is stored before the checkpoint of `CRAWL_GENESIS`. -/
theorem Inv.done_eq_false (h : Inv env s) (hg : s.genesis = false) (j : GenesisJob) :
    s.done j = false := by
  rw [← Bool.not_eq_true]
  intro hd
  rw [h.done_genesis j hd] at hg
  cases hg

/-- The file grows before the checkpoint. -/
theorem Inv.write (h : Inv env s) (hg : s.genesis = false) (hup : s.up = true) (file : List String)
    {handling : Handling} (hh : handling.writes = true) :
    Inv env { s with file := file, handling := some handling } where
  done_genesis := h.done_genesis
  stored j hj := by
    have hfalse : s.done j = true := hj
    rw [h.done_eq_false hg j] at hfalse
    cases hfalse
  empty := h.empty
  writes _ _ _ := hg
  creates jobs hj := by
    cases hj
    cases hh
  queued := h.queued
  contract := h.contract
  exited := h.exited
  down hdown := by
    have hup' : s.up = false := hdown
    rw [hup] at hup'
    cases hup'

theorem checkGenesisJobProcess_eq_zero_iff :
    checkGenesisJobProcess s j = 0 ↔ s.genesis = true ∧ s.done j = false := by
  unfold checkGenesisJobProcess
  cases s.genesis <;> cases s.done j <;> simp

theorem checkGenesisJobProcess_eq_two_iff :
    checkGenesisJobProcess s j = 2 ↔ s.genesis = true ∧ s.done j = true := by
  unfold checkGenesisJobProcess
  cases s.genesis <;> cases s.done j <;> simp

/-- A job commits. -/
theorem Inv.commit (h : Inv env s) (hg : s.genesis = true) (hd : s.done j = false) {rows : List ρ}
    (hrows : env.rows j s.file = some rows) (hcode : j = .contract → s.done .code = true) :
    Inv env (commit s j rows) where
  done_genesis _ _ := hg
  stored i hi := by
    rw [table_commit]
    split
    case isTrue hij =>
      rw [hij, h.empty j hd, List.nil_append]
      exact hrows
    case isFalse hij =>
      rw [done_commit, if_neg hij] at hi
      exact h.stored i hi
  empty i hi := by
    rw [done_commit] at hi
    split at hi
    case isTrue => cases hi
    case isFalse hij =>
      rw [table_commit, if_neg hij]
      exact h.empty i hi
  writes := h.writes
  creates := h.creates
  queued := h.queued
  contract hc := by
    have hcode' : s.done .code = true := by
      rcases hc with hc | hc | hc
      · exact h.contract (Or.inl hc)
      · exact h.contract (Or.inr (Or.inl hc))
      · rw [done_commit] at hc
        split at hc
        case isTrue hj => exact hcode hj.symm
        case isFalse => exact h.contract (Or.inr (Or.inr hc))
    rw [done_commit, hcode', ite_self]
  exited hexited i := by
    have hdone := h.exited hexited j
    rw [hd] at hdone
    cases hdone
  down := h.down

theorem inv_handleGenesis (h : Inv env s) (hup : s.up = true) (answer : Answer) :
    Inv env (handleGenesis env s answer) := by
  unfold handleGenesis
  split
  case isTrue => exact h.quiet _ fun q hq => List.mem_of_mem_erase hq
  case isFalse hg =>
    have hfalse : s.genesis = false := Bool.not_eq_true _ ▸ hg
    cases answer with
    | genesis => exact h.write hfalse hup _ rfl
    | tooLarge => exact h.write hfalse hup s.file rfl
    | otherCode => exact h.quiet _ fun q hq => List.mem_of_mem_erase hq
    | throws => exact h

theorem inv_handleChunk (h : Inv env s) {index : ℕ} (hs : s.handling = some (.chunks index))
    (answered : Bool) : Inv env (handleChunk env s index answered) := by
  have hg : s.genesis = false := h.writes _ hs rfl
  have hup : s.up = true := by
    cases hup : s.up with
    | true => rfl
    | false =>
      rw [(h.down hup).1] at hs
      cases hs
  unfold handleChunk
  split
  · exact h.write hg hup _ rfl
  · exact h.write hg hup s.file rfl

theorem inv_runJob (h : Inv env s) (hj : .job j ∈ s.queue) : Inv env (runJob env s j) := by
  unfold runJob
  split
  case isTrue => exact h.quiet _ fun q hq => List.mem_of_mem_erase hq
  case isFalse hcheck =>
    obtain ⟨hg, hd⟩ := checkGenesisJobProcess_eq_zero_iff.mp (not_not.mp hcheck)
    split
    case h_1 => exact h
    case h_2 rows hrows =>
      have hcommit := h.commit hg hd hrows fun hc => h.contract (Or.inl (hc ▸ hj))
      exact hcommit.quiet (s.queue.erase (.job j)) fun q hq => List.mem_of_mem_erase hq

/-- The job of the codes is about to create the one of the contracts. -/
theorem Inv.due (h : Inv env s) (hup : s.up = true) (hcode : s.done .code = true) :
    Inv env { s with contractDue := true } where
  done_genesis := h.done_genesis
  stored := h.stored
  empty := h.empty
  writes := h.writes
  creates := h.creates
  queued := h.queued
  contract _ := hcode
  exited := h.exited
  down hdown := by
    have hup' : s.up = false := hdown
    rw [hup] at hup'
    cases hup'

theorem inv_crawlGenesisCodes (h : Inv env s) (hup : s.up = true) :
    Inv env (crawlGenesisCodes env s) := by
  unfold crawlGenesisCodes
  split
  case isTrue htwo => exact h.due hup (checkGenesisJobProcess_eq_two_iff.mp htwo).2
  case isFalse htwo =>
    split
    case isTrue => exact h.quiet _ fun q hq => List.mem_of_mem_erase hq
    case isFalse hone =>
      obtain ⟨hg, hd⟩ : s.genesis = true ∧ s.done .code = false := by
        unfold checkGenesisJobProcess at htwo hone
        cases hg : s.genesis <;> cases hd : s.done .code <;> simp [hg, hd] at htwo hone ⊢
      split
      case h_1 => exact h
      case h_2 rows hrows =>
        have hcommit := h.commit hg hd hrows fun hc => by cases hc
        exact hcommit.due hup (by rw [done_commit, if_pos rfl])

/-- A job is created. -/
theorem inv_createJob (h : Inv env s) {jobs : List GenesisJob}
    (hs : s.handling = some (.create jobs))
    (hj : j ∈ jobs) : Inv env (step env s (.createJob j)) := by
  obtain ⟨hg, hcontract⟩ := h.creates jobs hs
  have hne : j ≠ .contract := fun heq => hcontract (heq ▸ hj)
  have hqueue : ∀ {queue : List QueueJob}, (∀ q ∈ queue, q ∈ s.queue) →
      .job .contract ∈ queue ++ [QueueJob.job j] → .job .contract ∈ s.queue := by
    intro queue hsub hmem
    rcases List.mem_append.mp hmem with hmem | hmem
    · exact hsub _ hmem
    · rw [List.mem_singleton, QueueJob.job.injEq] at hmem
      exact absurd hmem.symm hne
  rw [step]
  simp only [hs, if_pos hj]
  split
  case isTrue =>
    exact
      { done_genesis := h.done_genesis
        stored := h.stored
        empty := h.empty
        writes := fun _ hh => by cases hh
        creates := fun _ hh => by cases hh
        queued := fun _ _ => hg
        contract := fun hc =>
          h.contract (hc.imp_left (hqueue fun q hq => List.mem_of_mem_erase hq))
        exited := h.exited
        down := fun hdown => ⟨rfl, (h.down hdown).2⟩ }
  case isFalse =>
    exact
      { done_genesis := h.done_genesis
        stored := h.stored
        empty := h.empty
        writes := fun handling hh hw => by
          cases hh
          cases hw
        creates := fun _ hh => by
          cases hh
          exact ⟨hg, fun hmem => hcontract (List.mem_of_mem_erase hmem)⟩
        queued := fun _ _ => hg
        contract := fun hc => h.contract (hc.imp_left (hqueue fun q hq => hq))
        exited := h.exited
        down := fun hdown => by
          have hnone := (h.down hdown).1
          rw [hs] at hnone
          cases hnone }

/-- Every step keeps the invariant. -/
theorem inv_step (s : State ρ) (a : Step) (h : Inv env s) : Inv env (step env s a) := by
  cases a with
  | start =>
    rw [step]
    split
    case isTrue => exact h
    case isFalse hup =>
      have hdown := h.down (Bool.not_eq_true _ ▸ hup)
      have hqueue : ∀ j, QueueJob.job j ∈ s.queue ++ [.genesis] → .job j ∈ s.queue := by
        intro j hj
        simpa using hj
      exact
        { done_genesis := h.done_genesis
          stored := h.stored
          empty := h.empty
          writes := h.writes
          creates := h.creates
          queued := fun j hj => h.queued j (hqueue j hj)
          contract := fun hc => h.contract (hc.imp_left (hqueue _))
          exited := h.exited
          down := fun hd => by cases hd }
  | crash => exact h.stop h.exited
  | handleGenesis answer =>
    rw [step]
    split
    case isTrue hc => exact inv_handleGenesis h hc.1 answer
    case isFalse => exact h
  | chunk answered =>
    rw [step]
    split
    case h_1 index hs => exact inv_handleChunk h hs answered
    case h_2 => exact h
  | storeCheckpoint =>
    rw [step]
    split
    case h_2 => exact h
    case h_1 hs =>
      have hg : s.genesis = false := h.writes _ hs rfl
      exact
        { done_genesis := fun _ _ => rfl
          stored := h.stored
          empty := h.empty
          writes := fun handling hh hw => by
            cases hh
            cases hw
          creates := fun _ hh => by
            cases hh
            exact ⟨rfl, by decide⟩
          queued := fun _ _ => rfl
          contract := h.contract
          exited := h.exited
          down := fun hdown => by
            have hnone := (h.down hdown).1
            rw [hs] at hnone
            cases hnone }
  | createJob j =>
    cases hs : s.handling with
    | none =>
      rw [step]
      simp only [hs]
      exact h
    | some handling =>
      cases handling with
      | chunks index =>
        rw [step]
        simp only [hs]
        exact h
      | checkpoint =>
        rw [step]
        simp only [hs]
        exact h
      | create jobs =>
        by_cases hj : j ∈ jobs
        · exact inv_createJob h hs hj
        · rw [step]
          simp only [hs, if_neg hj]
          exact h
  | run j =>
    rw [step]
    split
    case isFalse => exact h
    case isTrue hc =>
      split
      case isTrue =>
        split
        · exact h
        · exact inv_crawlGenesisCodes h hc.1
      case isFalse => exact inv_runJob h hc.2
  | createContract =>
    rw [step]
    split
    case isFalse => exact h
    case isTrue hdue =>
      have hcode := h.contract (Or.inr (Or.inl hdue))
      exact
        { done_genesis := h.done_genesis
          stored := h.stored
          empty := h.empty
          writes := h.writes
          creates := h.creates
          queued := fun _ _ => h.done_genesis .code hcode
          contract := fun _ => hcode
          exited := h.exited
          down := fun hdown => ⟨(h.down hdown).1, rfl⟩ }
  | terminateProcess =>
    rw [step]
    split
    case isTrue hc => exact h.stop fun _ j => hc.2 j (mem_genesisJobs j)
    case isFalse => exact h
  | drop q => exact h.quiet _ fun q hq => List.mem_of_mem_erase hq

theorem inv_initial (env : Env ρ) : Inv env State.initial where
  done_genesis _ hd := by cases hd
  stored _ hd := by cases hd
  empty _ _ := rfl
  writes _ hh := by cases hh
  creates _ hh := by cases hh
  queued _ hq := by cases hq
  contract hc := by rcases hc with hc | hc | hc <;> cases hc
  exited he := by cases he
  down _ := ⟨rfl, rfl⟩

theorem inv_run (env : Env ρ) (steps : List Step) :
    Inv env (runFrom (step env) State.initial steps) :=
  runFrom_invariant (fun s a h => inv_step s a h) (inv_initial env) steps

end GenesisLemmas

open GenesisLemmas

/-- The job is in its queue, or about to be created. -/
def Waiting (s : State ρ) (j : GenesisJob) : Prop :=
  .job j ∈ s.queue ∨ ∃ jobs, s.handling = some (.create jobs) ∧ j ∈ jobs

/-- The job can make something of the file. -/
def Readable (env : Env ρ) (s : State ρ) (j : GenesisJob) : Prop := (env.rows j s.file).isSome

/-- The job of the contracts is in its queue, or will be when that of the codes is run. -/
def ContractAhead (env : Env ρ) (s : State ρ) : Prop :=
  .job .contract ∈ s.queue ∨ s.contractDue = true ∨
    Waiting s .code ∧ (s.done .code = true ∨ Readable env s .code)

/-- The job is done, or there is still something that leads to it. -/
def CanBeDone (env : Env ρ) (s : State ρ) (j : GenesisJob) : Prop :=
  s.done j = true ∨ Readable env s j ∧ if j = .contract then ContractAhead env s else Waiting s j

namespace GenesisLemmas

variable {env : Env ρ} {s s' : State ρ} {j : GenesisJob}

/-- From `s` to `s'` nothing new is ahead. -/
structure Behind (env : Env ρ) (s s' : State ρ) : Prop where
  file : s'.file = s.file
  done : ∀ j, s'.done j = true → s.done j = true ∨ Readable env s j ∧ .job j ∈ s.queue
  waiting : ∀ j, j ≠ .contract → Waiting s' j → Waiting s j
  ahead : ContractAhead env s' → ContractAhead env s

theorem Behind.canBeDone (h : Behind env s s') (hc : CanBeDone env s' j) : CanBeDone env s j := by
  have hreadable : Readable env s' j → Readable env s j := by
    intro hr
    rwa [Readable, h.file] at hr
  rcases hc with hd | ⟨hr, hc⟩
  · refine (h.done j hd).imp_right fun ⟨hr, hq⟩ => ⟨hr, ?_⟩
    split
    · next hj => exact Or.inl (hj ▸ hq)
    · exact Or.inl hq
  · refine Or.inr ⟨hreadable hr, ?_⟩
    split at hc
    · next hj =>
      rw [if_pos hj]
      exact h.ahead hc
    · next hj =>
      rw [if_neg hj]
      exact h.waiting j hj hc

/-- A step that changes at most the queue, by jobs that it removes, and what is under way. -/
theorem behind_of_subset (hfile : s'.file = s.file) (hdone : ∀ j, s'.done j = s.done j)
    (hqueue : ∀ j, .job j ∈ s'.queue → .job j ∈ s.queue)
    (hcreate : ∀ jobs, s'.handling = some (.create jobs) → s.handling = some (.create jobs))
    (hdue : s'.contractDue = true → s.contractDue = true) : Behind env s s' := by
  have hwaiting : ∀ j, Waiting s' j → Waiting s j := fun j hw =>
    hw.imp (hqueue j) fun ⟨jobs, hjobs, hj⟩ => ⟨jobs, hcreate jobs hjobs, hj⟩
  refine ⟨hfile, fun j hd => Or.inl (hdone j ▸ hd), fun j _ => hwaiting j, ?_⟩
  rintro (hq | hdue' | ⟨hw, hc⟩)
  · exact Or.inl (hqueue _ hq)
  · exact Or.inr (Or.inl (hdue hdue'))
  · refine Or.inr (Or.inr ⟨hwaiting _ hw, hc.imp (hdone .code ▸ ·) fun hr => ?_⟩)
    rwa [Readable, hfile] at hr

/-- A run of a job that is not the one of the codes. -/
theorem behind_runJob (hj : .job j ∈ s.queue) (hcode : j ≠ .code) :
    Behind env s (runJob env s j) := by
  have herase : ∀ i, QueueJob.job i ∈ s.queue.erase (.job j) → .job i ∈ s.queue := fun i hi =>
    List.mem_of_mem_erase hi
  unfold runJob
  split
  case isTrue => exact behind_of_subset rfl (fun _ => rfl) herase (fun _ h => h) fun h => h
  case isFalse =>
    split
    case h_1 => exact behind_of_subset rfl (fun _ => rfl) (fun _ h => h) (fun _ h => h) fun h => h
    case h_2 rows hrows =>
      have hwaiting : ∀ i, Waiting { commit s j rows with queue := s.queue.erase (.job j) } i →
          Waiting s i := fun i hw => hw.imp_left (herase i)
      refine ⟨rfl, fun i hd => ?_, fun i _ => hwaiting i, ?_⟩
      · have hd' : (commit s j rows).done i = true := hd
        rw [done_commit] at hd'
        split at hd'
        case isTrue hij =>
          subst hij
          exact Or.inr ⟨Option.isSome_of_eq_some hrows, hj⟩
        case isFalse => exact Or.inl hd'
      · rintro (hq | hdue | ⟨hw, hc⟩)
        · exact Or.inl (herase _ hq)
        · exact Or.inr (Or.inl hdue)
        · refine Or.inr (Or.inr ⟨hwaiting _ hw, hc.imp_left fun hd => ?_⟩)
          have hd' : (commit s j rows).done .code = true := hd
          rwa [done_commit, if_neg hcode.symm] at hd'

/-- The job of the codes. -/
theorem behind_crawlGenesisCodes (hj : .job .code ∈ s.queue) :
    Behind env s (crawlGenesisCodes env s) := by
  unfold crawlGenesisCodes
  split
  case isTrue htwo =>
    have hd := (checkGenesisJobProcess_eq_two_iff.mp htwo).2
    refine ⟨rfl, fun i hi => Or.inl hi, fun i _ hw => hw, ?_⟩
    rintro (hq | - | ⟨hw, hc⟩)
    · exact Or.inl hq
    · exact Or.inr (Or.inr ⟨Or.inl hj, Or.inl hd⟩)
    · exact Or.inr (Or.inr ⟨hw, hc⟩)
  case isFalse =>
    split
    case isTrue =>
      exact behind_of_subset rfl (fun _ => rfl) (fun _ hq => List.mem_of_mem_erase hq)
        (fun _ h => h) fun h => h
    case isFalse =>
      split
      case h_1 => exact behind_of_subset rfl (fun _ => rfl) (fun _ h => h) (fun _ h => h) fun h => h
      case h_2 rows hrows =>
        have hreadable : Readable env s .code := Option.isSome_of_eq_some hrows
        refine ⟨rfl, fun i hd => ?_, fun i _ hw => hw, ?_⟩
        · have hd' : (commit s .code rows).done i = true := hd
          rw [done_commit] at hd'
          split at hd'
          case isTrue hij =>
            subst hij
            exact Or.inr ⟨hreadable, hj⟩
          case isFalse => exact Or.inl hd'
        · rintro (hq | - | ⟨hw, -⟩)
          · exact Or.inl hq
          · exact Or.inr (Or.inr ⟨Or.inl hj, Or.inr hreadable⟩)
          · exact Or.inr (Or.inr ⟨hw, Or.inr hreadable⟩)

/-- A job is created. -/
theorem behind_createJob (h : Inv env s) {jobs : List GenesisJob}
    (hs : s.handling = some (.create jobs)) (hj : j ∈ jobs) :
    Behind env s (step env s (.createJob j)) := by
  obtain ⟨-, hcontract⟩ := h.creates jobs hs
  have hne : j ≠ .contract := fun heq => hcontract (heq ▸ hj)
  have hspec : (∀ i, .job i ∈ (step env s (.createJob j)).queue → .job i ∈ s.queue ∨ i = j) ∧
      (∀ jobs', (step env s (.createJob j)).handling = some (.create jobs') →
        ∀ i ∈ jobs', i ∈ jobs) ∧
      (step env s (.createJob j)).file = s.file ∧ (step env s (.createJob j)).done = s.done ∧
      (step env s (.createJob j)).contractDue = s.contractDue := by
    rw [step]
    simp only [hs, if_pos hj]
    split
    case isTrue =>
      refine ⟨fun i hi => ?_, (fun _ hh => by cases hh), rfl, rfl, rfl⟩
      rcases List.mem_append.mp hi with hi | hi
      · exact Or.inl (List.mem_of_mem_erase hi)
      · exact Or.inr (by simpa using hi)
    case isFalse =>
      refine ⟨fun i hi => ?_, fun _ hh i hi => ?_, rfl, rfl, rfl⟩
      · rcases List.mem_append.mp hi with hi | hi
        · exact Or.inl hi
        · exact Or.inr (by simpa using hi)
      · cases hh
        exact List.mem_of_mem_erase hi
  obtain ⟨hqueue, hcreate, hfile, hdone, hdue⟩ := hspec
  have hwaiting : ∀ i, Waiting (step env s (.createJob j)) i → Waiting s i := by
    rintro i (hq | ⟨jobs', hjobs', hi⟩)
    · rcases hqueue i hq with hq | rfl
      · exact Or.inl hq
      · exact Or.inr ⟨jobs, hs, hj⟩
    · exact Or.inr ⟨jobs, hs, hcreate jobs' hjobs' i hi⟩
  refine ⟨hfile, fun i hd => Or.inl (hdone ▸ hd), fun i _ => hwaiting i, ?_⟩
  rintro (hq | hd | ⟨hw, hc⟩)
  · exact Or.inl ((hqueue _ hq).resolve_right hne.symm)
  · exact Or.inr (Or.inl (hdue ▸ hd))
  · refine Or.inr (Or.inr ⟨hwaiting _ hw, hc.imp (hdone ▸ ·) fun hr => ?_⟩)
    rwa [Readable, hfile] at hr

/-- Once the file is written, no step brings anything new. -/
theorem behind_step (h : Inv env s) (hg : s.genesis = true) (a : Step) :
    Behind env s (step env s a) := by
  have hsame : Behind env s s :=
    behind_of_subset rfl (fun _ => rfl) (fun _ h => h) (fun _ h => h) fun h => h
  have hwrites : ∀ {handling : Handling}, s.handling = some handling → handling.writes = true →
      False := by
    intro handling hs hw
    rw [h.writes _ hs hw] at hg
    cases hg
  cases a with
  | start =>
    rw [step]
    split
    · exact hsame
    · exact behind_of_subset rfl (fun _ => rfl) (fun i hi => by simpa using hi)
        (fun _ h => h) fun h => h
  | crash =>
    exact behind_of_subset rfl (fun _ => rfl) (fun _ h => h) (fun _ h => by cases h)
      fun h => by cases h
  | handleGenesis answer =>
    rw [step]
    unfold handleGenesis
    rw [if_pos hg]
    split
    · exact behind_of_subset rfl (fun _ => rfl) (fun _ hq => List.mem_of_mem_erase hq)
        (fun _ h => h)
        fun h => h
    · exact hsame
  | chunk answered =>
    rw [step]
    split
    case h_1 index hs => exact (hwrites hs rfl).elim
    case h_2 => exact hsame
  | storeCheckpoint =>
    rw [step]
    split
    case h_1 hs => exact (hwrites hs rfl).elim
    case h_2 => exact hsame
  | createJob j =>
    cases hs : s.handling with
    | none =>
      rw [step]
      simp only [hs]
      exact hsame
    | some handling =>
      cases handling with
      | chunks index => exact (hwrites hs rfl).elim
      | checkpoint => exact (hwrites hs rfl).elim
      | create jobs =>
        by_cases hj : j ∈ jobs
        · exact behind_createJob h hs hj
        · rw [step]
          simp only [hs, if_neg hj]
          exact hsame
  | run j =>
    rw [step]
    split
    case isFalse => exact hsame
    case isTrue hc =>
      split
      case isTrue hj =>
        split
        · exact hsame
        · exact behind_crawlGenesisCodes (hj ▸ hc.2)
      case isFalse hj => exact behind_runJob hc.2 hj
  | createContract =>
    rw [step]
    split
    case isFalse => exact hsame
    case isTrue hdue =>
      have hqueue : ∀ i, i ≠ .contract → QueueJob.job i ∈ s.queue.erase (.job .code) ++
          [.job .contract] → .job i ∈ s.queue := by
        intro i hi hmem
        rcases List.mem_append.mp hmem with hmem | hmem
        · exact List.mem_of_mem_erase hmem
        · rw [List.mem_singleton, QueueJob.job.injEq] at hmem
          exact absurd hmem hi
      exact ⟨rfl, fun i hd => Or.inl hd, fun i hi hw => hw.imp_left (hqueue i hi),
        fun _ => Or.inr (Or.inl hdue)⟩
  | terminateProcess =>
    rw [step]
    split
    · exact behind_of_subset rfl (fun _ => rfl) (fun _ h => h) (fun _ h => by cases h)
        fun h => by cases h
    · exact hsame
  | drop q =>
    exact behind_of_subset rfl (fun _ => rfl) (fun _ hq => List.mem_of_mem_erase hq) (fun _ h => h)
      fun h => h

theorem genesis_step (hg : s.genesis = true) (a : Step) : (step env s a).genesis = true := by
  cases a with
  | start =>
    rw [step]
    split <;> exact hg
  | crash => exact hg
  | handleGenesis answer =>
    rw [step]
    unfold handleGenesis
    rw [if_pos hg]
    split <;> exact hg
  | chunk answered =>
    rw [step]
    split
    · unfold handleChunk
      split <;> exact hg
    · exact hg
  | storeCheckpoint =>
    rw [step]
    split
    · rfl
    · exact hg
  | createJob j =>
    rw [step]
    split
    · split
      · split <;> exact hg
      · exact hg
    · exact hg
  | run j =>
    rw [step]
    split
    · split
      · split
        · exact hg
        · unfold crawlGenesisCodes
          split
          · exact hg
          · split
            · exact hg
            · split <;> exact hg
      · unfold runJob
        split
        · exact hg
        · split <;> exact hg
    · exact hg
  | createContract =>
    rw [step]
    split <;> exact hg
  | terminateProcess =>
    rw [step]
    split <;> exact hg
  | drop q => exact hg

/-- What is done after a run could be done before it. -/
theorem canBeDone_of_run (h : Inv env s) (hg : s.genesis = true) {more : List Step}
    (hd : (runFrom (step env) s more).done j = true) : CanBeDone env s j := by
  induction more generalizing s with
  | nil => exact Or.inl hd
  | cons a more ih =>
    exact (behind_step h hg a).canBeDone (ih (inv_step s a h) (genesis_step hg a) hd)

/-! A run that does the job. -/

theorem exists_run_cons (a : Step)
    (h : ∃ more, (runFrom (step env) (step env s a) more).done j = true) :
    ∃ more, (runFrom (step env) s more).done j = true := by
  obtain ⟨more, hd⟩ := h
  exact ⟨a :: more, hd⟩

theorem exists_run_of_queue (hup : s.up = true) (hg : s.genesis = true) (hq : .job j ∈ s.queue)
    (hr : Readable env s j) (hcode : j ≠ .code) :
    ∃ more, (runFrom (step env) s more).done j = true := by
  refine exists_run_cons (.run j) ⟨[], ?_⟩
  rw [runFrom_nil, step, if_pos ⟨hup, hq⟩, if_neg hcode]
  unfold runJob
  obtain ⟨rows, hrows⟩ := Option.isSome_iff_exists.mp hr
  cases hd : s.done j with
  | true =>
    rw [if_pos fun hzero => absurd (checkGenesisJobProcess_eq_zero_iff.mp hzero).2 (by simp [hd])]
    exact hd
  | false =>
    rw [if_neg (not_not.mpr (checkGenesisJobProcess_eq_zero_iff.mpr ⟨hg, hd⟩)), hrows]
    exact if_pos rfl

/-- A run of the job of the codes. -/
theorem step_run_code (hup : s.up = true) (hg : s.genesis = true) (hq : .job .code ∈ s.queue)
    (hdue : s.contractDue = false) (hr : s.done .code = true ∨ Readable env s .code) :
    ∃ s', step env s (.run .code) = s' ∧ s'.up = true ∧ s'.file = s.file ∧ s'.contractDue = true ∧
      s'.done .code = true := by
  refine ⟨_, rfl, ?_⟩
  rw [step, if_pos ⟨hup, hq⟩, if_pos rfl, if_neg (by simp [hdue])]
  unfold crawlGenesisCodes
  cases hd : s.done .code with
  | true =>
    rw [if_pos (checkGenesisJobProcess_eq_two_iff.mpr ⟨hg, hd⟩)]
    exact ⟨hup, rfl, rfl, hd⟩
  | false =>
    obtain ⟨rows, hrows⟩ := Option.isSome_iff_exists.mp (hr.resolve_left (by simp [hd]))
    have hzero := checkGenesisJobProcess_eq_zero_iff.mpr ⟨hg, hd⟩
    rw [if_neg (by simp [hzero]), if_neg (by simp [hzero]), hrows]
    refine ⟨hup, rfl, rfl, ?_⟩
    show (commit s .code rows).done .code = true
    rw [done_commit, if_pos rfl]

theorem exists_run_of_due (hup : s.up = true) (hg : s.genesis = true) (hdue : s.contractDue = true)
    (hr : Readable env s .contract) :
    ∃ more, (runFrom (step env) s more).done .contract = true := by
  refine exists_run_cons .createContract ?_
  rw [step, if_pos hdue]
  exact exists_run_of_queue hup hg (List.mem_append_right _ List.mem_cons_self) hr (by simp)

theorem exists_run_of_code (hup : s.up = true) (hg : s.genesis = true) (hq : .job .code ∈ s.queue)
    (hc : s.done .code = true ∨ Readable env s .code) (hr : Readable env s .contract) :
    ∃ more, (runFrom (step env) s more).done .contract = true := by
  cases hdue : s.contractDue with
  | true => exact exists_run_of_due hup hg hdue hr
  | false =>
    obtain ⟨s', hs', hup', hfile, hdue', -⟩ := step_run_code hup hg hq hdue hc
    refine exists_run_cons (.run .code) ?_
    have hg' : (step env s (.run .code)).genesis = true := genesis_step hg (.run .code)
    rw [hs'] at hg' ⊢
    refine exists_run_of_due hup' hg' hdue' ?_
    rwa [Readable, hfile]

theorem exists_run_of_queue_code (hup : s.up = true) (hg : s.genesis = true)
    (hq : .job .code ∈ s.queue) (hdue : s.contractDue = false) (hr : Readable env s .code) :
    ∃ more, (runFrom (step env) s more).done .code = true := by
  obtain ⟨s', hs', -, -, -, hd⟩ := step_run_code hup hg hq hdue (Or.inr hr)
  refine exists_run_cons (.run .code) ⟨[], ?_⟩
  rw [hs']
  exact hd

/-- A job that is about to be created is created. -/
theorem exists_run_of_waiting (hup : s.up = true) (hg : s.genesis = true) {i : GenesisJob}
    (hw : Waiting s i)
    (hrun : ∀ s' : State ρ, s'.up = true → s'.genesis = true → .job i ∈ s'.queue →
      s'.file = s.file → s'.done = s.done → s'.contractDue = s.contractDue →
        ∃ more, (runFrom (step env) s' more).done j = true) :
    ∃ more, (runFrom (step env) s more).done j = true := by
  rcases hw with hq | ⟨jobs, hjobs, hi⟩
  · exact hrun s hup hg hq rfl rfl rfl
  · refine exists_run_cons (.createJob i) ?_
    rw [step]
    simp only [hjobs, if_pos hi]
    split
    · exact hrun _ hup hg (List.mem_append_right _ List.mem_cons_self) rfl rfl rfl
    · exact hrun _ hup hg (List.mem_append_right _ List.mem_cons_self) rfl rfl rfl

theorem exists_run_of_up (h : Inv env s) (hup : s.up = true) (hg : s.genesis = true)
    (hc : CanBeDone env s j) : ∃ more, (runFrom (step env) s more).done j = true := by
  rcases hc with hd | ⟨hr, hc⟩
  · exact ⟨[], hd⟩
  · split at hc
    case isTrue hj =>
      subst hj
      rcases hc with hq | hdue | ⟨hw, hcode⟩
      · exact exists_run_of_queue hup hg hq hr (by simp)
      · exact exists_run_of_due hup hg hdue hr
      · refine exists_run_of_waiting hup hg hw fun s' hup' hg' hq hfile hdone hdue => ?_
        refine exists_run_of_code hup' hg' hq ?_ ?_
        · rwa [hdone, Readable, hfile]
        · rwa [Readable, hfile]
    case isFalse hj =>
      by_cases hcode : j = .code
      · subst hcode
        cases hdue : s.contractDue with
        | true => exact ⟨[], h.contract (Or.inr (Or.inl hdue))⟩
        | false =>
          refine exists_run_of_waiting hup hg hc fun s' hup' hg' hq hfile hdone hdue' => ?_
          refine exists_run_of_queue_code hup' hg' hq (hdue'.trans hdue) ?_
          rwa [Readable, hfile]
      · refine exists_run_of_waiting hup hg hc fun s' hup' hg' hq hfile hdone hdue' => ?_
        refine exists_run_of_queue hup' hg' hq ?_ hcode
        rwa [Readable, hfile]

/-- A process that has stopped is started. -/
theorem canBeDone_start (hup : s.up = false) (hc : CanBeDone env s j) :
    CanBeDone env (step env s .start) j := by
  have hq : ∀ q ∈ s.queue, q ∈ s.queue ++ [.genesis] := fun q hq => List.mem_append_left _ hq
  rw [step, if_neg (by simp [hup])]
  refine hc.imp_right fun ⟨hr, hc⟩ => ⟨hr, ?_⟩
  split at hc
  · next hj =>
    rw [if_pos hj]
    exact hc.imp (hq _) (Or.imp_right fun ⟨hw, hcode⟩ => ⟨hw.imp_left (hq _), hcode⟩)
  · next hj =>
    rw [if_neg hj]
    exact hc.imp_left (hq _)

end GenesisLemmas

/-- When the file is written, a job can still be done if and only if it is done, or it can read the
file and is in its queue or about to be created; that of the contracts also when the job of the
codes is, and is done or can read the file. A process that stops between its checkpoint and the jobs
that it creates has lost them. -/
theorem done_reachable_iff (env : Env ρ) (steps : List Step) (j : GenesisJob) :
    let s := runFrom (step env) State.initial steps
    s.genesis = true → ((∃ more, (runFrom (step env) s more).done j = true) ↔
        CanBeDone env s j) := by
  intro s hg
  have h := inv_run env steps
  constructor
  · rintro ⟨more, hd⟩
    exact canBeDone_of_run h hg hd
  · intro hc
    cases hup : s.up with
    | true => exact exists_run_of_up h hup hg hc
    | false =>
      refine exists_run_cons .start (exists_run_of_up (inv_step s .start h) ?_ (genesis_step hg _)
        (canBeDone_start hup hc))
      rw [step, if_neg (by simp [hup])]

/-- A chain whose genesis comes in two chunks. -/
def twoChunks : Env String where
  genesis := "\x7b\x7d"
  chunks := ["\x7b", "\x7d"]
  read _ file := if file = "\x7b\x7d" then some ["row"] else none
  accountsInDb := false

/-- The process stops after the checkpoint, before it creates the jobs. -/
theorem stopped_process_loses_jobs :
    ¬ ∃ more, (runFrom (step twoChunks) (runFrom (step twoChunks) State.initial
      [.start, .handleGenesis .genesis, .storeCheckpoint, .crash, .start]) more).done .account =
        true := by
  rw [done_reachable_iff twoChunks _ .account rfl]
  rintro (hd | ⟨-, hc⟩)
  · cases hd
  · rw [if_neg (by decide)] at hc
    rcases hc with hq | ⟨jobs, hjobs, -⟩
    · exact absurd hq (by decide)
    · cases hjobs

/-! ## 5. The file -/

/-- Every chunk is answered, and the process does not stop while the file is being written. -/
def Clean (env : Env ρ) (s : State ρ) : Step → Prop
  | .chunk answered =>
    ∀ index < env.chunks.length, s.handling = some (.chunks index) → answered = true
  | .crash => s.file = [] ∨ s.genesis = true
  | _ => True

instance (env : Env ρ) (s : State ρ) : (a : Step) → Decidable (Clean env s a)
  | .chunk answered => inferInstanceAs (Decidable
      (∀ index < env.chunks.length, s.handling = some (.chunks index) → answered = true))
  | .crash => inferInstanceAs (Decidable (s.file = [] ∨ s.genesis = true))
  | .start | .handleGenesis _ | .storeCheckpoint | .createJob _ | .run _ | .createContract
  | .terminateProcess | .drop _ => inferInstanceAs (Decidable True)

/-- The texts of the file make up the genesis. -/
def Complete (env : Env ρ) (file : List String) : Prop := file = [env.genesis] ∨ file = env.chunks

namespace GenesisLemmas

variable {env : Env ρ} {s : State ρ}

/-- What the file holds at each place of `handleGenesis`. -/
structure FileInv (env : Env ρ) (s : State ρ) : Prop where
  complete : s.genesis = true → Complete env s.file
  writing : s.genesis = false →
    match s.handling with
    | some (.chunks index) => index ≤ env.chunks.length ∧ s.file = env.chunks.take index
    | some .checkpoint => Complete env s.file
    | _ => s.file = []

/-- A step that leaves the file alone, and where `handleGenesis` is. -/
theorem FileInv.congr {s' : State ρ} (h : FileInv env s) (hfile : s'.file = s.file)
    (hg : s'.genesis = s.genesis) (hhandling : s'.handling = s.handling) : FileInv env s' := by
  refine ⟨fun hg' => ?_, fun hg' => ?_⟩
  · rw [hfile]
    exact h.complete (hg ▸ hg')
  · rw [hfile, hhandling]
    exact h.writing (hg ▸ hg')

/-- After the checkpoint of `CRAWL_GENESIS` the file is complete, and stays. -/
theorem FileInv.of_genesis (h : FileInv env s) (hinv : Inv env s) (hg : s.genesis = true)
    (a : Step) :
    FileInv env (step env s a) := by
  refine ⟨fun _ => ?_, fun hg' => ?_⟩
  · rw [(behind_step hinv hg a).file]
    exact h.complete hg
  · rw [genesis_step hg a] at hg'
    cases hg'

theorem fileInv_handleGenesis (h : FileInv env s) (hs : s.handling = none) (answer : Answer) :
    FileInv env (handleGenesis env s answer) := by
  unfold handleGenesis
  split
  case isTrue => exact h.congr rfl rfl rfl
  case isFalse hg =>
    have hfalse : s.genesis = false := Bool.not_eq_true _ ▸ hg
    have hempty : s.file = [] := by
      have hw := h.writing hfalse
      rwa [hs] at hw
    cases answer with
    | genesis =>
      refine ⟨fun hg' => absurd hg' hg, fun _ => Or.inl ?_⟩
      rw [hempty]
      rfl
    | tooLarge => exact ⟨fun hg' => absurd hg' hg, fun _ => ⟨Nat.zero_le _, hempty⟩⟩
    | otherCode => exact h.congr rfl rfl rfl
    | throws => exact h

theorem step_chunk {index : ℕ} (hs : s.handling = some (.chunks index)) (answered : Bool) :
    step env s (.chunk answered) = handleChunk env s index answered := by
  rw [step]
  simp only [hs]

theorem handleChunk_false (index : ℕ) :
    handleChunk env s index false = { s with handling := some .checkpoint } := by
  unfold handleChunk
  split
  case h_1 hanswered => cases hanswered
  case h_2 => rfl

theorem fileInv_handleChunk (h : FileInv env s) (hg : s.genesis = false) {index : ℕ}
    (hs : s.handling = some (.chunks index)) {answered : Bool}
    (hclean : index < env.chunks.length → answered = true) :
    FileInv env (handleChunk env s index answered) := by
  have hw := h.writing hg
  rw [hs] at hw
  obtain ⟨hle, hfile⟩ := hw
  have habsurd : ∀ {P : Prop}, s.genesis = true → P := fun hg' => by
    rw [hg] at hg'
    cases hg'
  unfold handleChunk
  split
  case h_1 chunk hchunk =>
    obtain ⟨hlt, hchunk⟩ := List.getElem?_eq_some_iff.mp hchunk
    refine ⟨fun hg' => habsurd hg', fun _ => ⟨hlt, ?_⟩⟩
    show s.file ++ [chunk] = _
    rw [hfile, ← hchunk, List.take_append_getElem]
  case h_2 hnone =>
    -- the query that was not answered is that after the last chunk
    have hend : index = env.chunks.length := by
      refine le_antisymm hle (Nat.le_of_not_lt fun hlt => ?_)
      exact hnone _ (List.getElem?_eq_getElem hlt) (hclean hlt)
    refine ⟨fun hg' => habsurd hg', fun _ => Or.inr ?_⟩
    show s.file = env.chunks
    rw [hfile, hend, List.take_length]

theorem fileInv_step (s : State ρ) (a : Step) (h : Inv env s ∧ FileInv env s) (ha : Clean env s a) :
    Inv env (step env s a) ∧ FileInv env (step env s a) := by
  refine ⟨inv_step s a h.1, ?_⟩
  obtain ⟨hinv, hfile⟩ := h
  cases hg : s.genesis with
  | true => exact hfile.of_genesis hinv hg a
  | false =>
    have hwriting := hfile.writing hg
    cases a with
    | start =>
      rw [step]
      split
      · exact hfile
      · exact hfile.congr rfl rfl rfl
    | crash =>
      refine ⟨fun hg' => ?_, fun _ => ha.resolve_right (by simp [hg])⟩
      have hg'' : s.genesis = true := hg'
      rw [hg] at hg''
      cases hg''
    | handleGenesis answer =>
      rw [step]
      split
      · next hc => exact fileInv_handleGenesis hfile hc.2.1 answer
      · exact hfile
    | chunk answered =>
      rw [step]
      split
      case h_1 index hs => exact fileInv_handleChunk hfile hg hs fun hlt => ha index hlt hs
      case h_2 => exact hfile
    | storeCheckpoint =>
      rw [step]
      split
      case h_1 hs =>
        rw [hs] at hwriting
        exact ⟨fun _ => hwriting, fun hg' => by cases hg'⟩
      case h_2 => exact hfile
    | createJob j =>
      rw [step]
      split
      case h_1 jobs hs =>
        rw [(hinv.creates jobs hs).1] at hg
        cases hg
      case h_2 => exact hfile
    | run j =>
      rw [step]
      split
      case isFalse => exact hfile
      case isTrue hc =>
        rw [hinv.queued j hc.2] at hg
        cases hg
    | createContract =>
      rw [step]
      split
      · exact hfile.congr rfl rfl rfl
      · exact hfile
    | terminateProcess =>
      rw [step]
      split
      case isTrue hc =>
        rw [hinv.done_genesis .code (hc.2 .code (by decide))] at hg
        cases hg
      case isFalse => exact hfile
    | drop q => exact hfile.congr rfl rfl rfl

end GenesisLemmas

/-- A chunk that is not answered ends the loop as the last one does: the checkpoint is stored, and
the jobs are created to read a part of the genesis. -/
theorem truncated_file (env : Env ρ) (n : ℕ) (hn : n ≤ env.chunks.length) :
    let s := runFrom (step env) State.initial ([.start, .handleGenesis .tooLarge] ++
      List.replicate n (.chunk true) ++ [.chunk false, .storeCheckpoint])
    s.genesis = true ∧ s.file = env.chunks.take n ∧
      s.handling = some (.create (genesisJobs.filter fun j => j ≠ .contract)) := by
  have hchunks : ∀ k ≤ env.chunks.length, ∀ s : State ρ, s.handling = some (.chunks 0) →
      s.file = [] →
      (runFrom (step env) s (List.replicate k (.chunk true))).handling = some (.chunks k) ∧
        (runFrom (step env) s (List.replicate k (.chunk true))).file = env.chunks.take k := by
    intro k
    induction k with
    | zero => exact fun _ s hs hfile => ⟨hs, hfile⟩
    | succ k ih =>
      intro hk s hs hfile
      obtain ⟨hhandling, hfile⟩ := ih (Nat.le_of_succ_le hk) s hs hfile
      rw [List.replicate_succ', runFrom_append, runFrom_cons, runFrom_nil, step_chunk hhandling]
      simp only [handleChunk, List.getElem?_eq_getElem hk, hfile, List.take_append_getElem]
      exact ⟨trivial, trivial⟩
  obtain ⟨hhandling, hfile⟩ := hchunks n hn
    (runFrom (step env) State.initial [.start, .handleGenesis .tooLarge]) rfl rfl
  intro s
  have hs : s = step env (step env (runFrom (step env) (runFrom (step env) State.initial
      [.start, .handleGenesis .tooLarge]) (List.replicate n (.chunk true))) (.chunk false))
      .storeCheckpoint := by
    show runFrom (step env) State.initial (_ ++ _ ++ _) = _
    rw [runFrom_append, runFrom_append]
    rfl
  rw [hs, step_chunk hhandling, handleChunk_false, step]
  exact ⟨rfl, hfile, rfl⟩

end Erascope.CrawlGenesis
