import Mathlib.Tactic
import Erascope.Lib.Pages
import Erascope.Lib.Run
import Erascope.Lib.Rows
import Erascope.Cw20.Snapshot

/-!
# Reindexing a CW20 contract

The model of `services/cw20/cw20_reindexing.service.ts` together with `jobHandleCw20` and
`reindexHistory` in `services/cw20/cw20.service.ts`, for one contract. The reindexing deletes the
contract with its activities, stores it again with the balances that the node answers, and queues
the job `REINDEX_CW20_HISTORY`, which writes the activities up to the highest answer page by page.
Meanwhile `jobHandleCw20` goes on from its own checkpoint.

An event up to the checkpoint and above the highest answer is lost: it was deleted and nobody writes
it again. An event above the checkpoint and up to the highest answer is written twice, if it was
crawled when its page was read.

Results:
1. `exactly_once_of_meets`: in every run without such events, the contract has one activity for
   each event up to the checkpoint whenever the reindexing is done.
2. `lost_or_doubled`: both kinds of events occur.
-/

namespace Erascope.Cw20.Reindex

/-! ## 1. The system -/

/-- An event of the contract, as `getCw20ContractEvents` returns it. -/
structure ContractEvent where
  action : Cw20Action
  smart_contract_event_id : ℕ
  sender : Option String
  amount : Option ℤ
  fromAddress : Option String
  toAddress : Option String
  height : ℕ
  hash : String
  tx_id : ℕ
deriving DecidableEq, Repr

/-- A row of `cw20_activity`. There is no unique key on `smart_contract_event_id`. -/
structure ContractActivity where
  smart_contract_event_id : ℕ
  sender : Option String
  action : Cw20Action
  cw20_contract_id : ℕ
  amount : Option ℤ
  fromAddress : Option String
  toAddress : Option String
  height : ℕ
  tx_hash : String
  tx_id : ℕ
deriving DecidableEq, Repr

/-- The contract, its events on the chain, and the settings of the jobs. -/
structure Config where
  contractAddress : String
  events : List ContractEvent
  /-- `config.crawlBlock.startBlock` -/
  startBlock : ℕ
  /-- `config.cw20.reindexHistory.limitRecordGet` -/
  limitRecordGet : ℕ
  ordered : events.Pairwise fun a b =>
    a.smart_contract_event_id < b.smart_contract_event_id ∧ a.height ≤ b.height
  ids_pos : ∀ e ∈ events, 0 < e.smart_contract_event_id
  limit_pos : 0 < limitRecordGet

/-- A job of `REINDEX_CW20_HISTORY`. -/
structure HistoryJob where
  endBlock : ℕ
  prevId : ℕ
deriving DecidableEq, Repr

/-- The last reindexing: the checkpoint when it deleted the activities, and the highest answer.
Nothing in the code reads it. -/
structure Recreated where
  handled : ℕ
  endBlock : ℕ
deriving DecidableEq, Repr

/-- The checkpoints of `CRAWL_CONTRACT_EVENT` and `HANDLE_CW20`, the rows of the contract, the
reindexing between its first read and its transaction, with the id that it has read, and the
history job. -/
structure System where
  crawled : ℕ
  handled : ℕ
  nextContractId : ℕ
  cw20_contract : Option Cw20Contract
  cw20_activity : List ContractActivity
  reading : Option (Option ℕ)
  history : Option HistoryJob
  recreated : Option Recreated
deriving DecidableEq

/-- `handleCw20Histories`: the activities of the events, if the contract is tracked. -/
def handleCw20Histories (contract : Option Cw20Contract) (events : List ContractEvent) :
    List ContractActivity :=
  match contract.filter (·.track) with
  | none => []
  | some row => events.map fun event =>
      { smart_contract_event_id := event.smart_contract_event_id
        sender := event.sender
        action := event.action
        cw20_contract_id := row.id
        amount := event.amount
        fromAddress := event.fromAddress
        toAddress := event.toAddress
        height := event.height
        tx_hash := event.hash
        tx_id := event.tx_id }

/-- The transaction of `jobHandleCw20`. An instantiation inserts the contract, which the unique key
on `smart_contract_id` rejects if the contract is there already. -/
def jobHandleCw20 (cfg : Config) (s : System) (endBlock : ℕ) (balances : Option (List IHolderEvent)) :
    System :=
  let cw20Events := between (·.height) s.handled endBlock cfg.events
  let cw20InstantiateEvents := cw20Events.filter fun event => event.action = .instantiate
  if cw20InstantiateEvents = [] then
    { s with
      cw20_activity := s.cw20_activity ++ handleCw20Histories s.cw20_contract cw20Events
      handled := endBlock }
  else if s.cw20_contract.isSome ∨ 1 < cw20InstantiateEvents.length then s
  else
    let contract := some (instantiateContract s.nextContractId cfg.contractAddress balances).1
    { s with
      nextContractId := s.nextContractId + 1
      cw20_contract := contract
      cw20_activity := s.cw20_activity ++ handleCw20Histories contract cw20Events
      handled := endBlock }

/-- `maxUpdatedHeightOwner` -/
def maxUpdatedHeightOwner (balances : Option (List IHolderEvent)) : ℕ :=
  (((balances.getD []).map (·.event_height)).max?).getD 0

/-- The transaction of `jobHandler`, and the job that it queues; `cw20Contract` is the id that was
read at the start. The unique key rejects the new row if another one is there. -/
def recreateContract (cfg : Config) (s : System) (cw20Contract : Option ℕ)
    (balances : Option (List IHolderEvent)) : System :=
  if (s.cw20_contract.filter fun row => cw20Contract ≠ some row.id).isSome then
    { s with reading := none }
  else
    { s with
      nextContractId := s.nextContractId + 1
      cw20_contract := some (instantiateContract s.nextContractId cfg.contractAddress balances).1
      cw20_activity := s.cw20_activity.filter fun act => cw20Contract ≠ some act.cw20_contract_id
      reading := none
      history := some ⟨maxUpdatedHeightOwner balances, 0⟩
      recreated := some ⟨s.handled, maxUpdatedHeightOwner balances⟩ }

/-- The events that the database has for a history job. -/
def historyEvents (cfg : Config) (s : System) (job : HistoryJob) : List ContractEvent :=
  between (·.height) cfg.startBlock job.endBlock (cfg.events.filter fun e => e.height ≤ s.crawled)

/-- The page of a history job. -/
def historyPage (cfg : Config) (s : System) (job : HistoryJob) : List ContractEvent :=
  pageAfter (·.smart_contract_event_id) (historyEvents cfg s job) cfg.limitRecordGet job.prevId

/-- `reindexHistory` -/
def reindexHistory (cfg : Config) (s : System) (job : HistoryJob) : System :=
  match (historyPage cfg s job).getLast? with
  | none => { s with history := none }
  | some last =>
    { s with
      cw20_activity := s.cw20_activity ++
        handleCw20Histories s.cw20_contract (historyPage cfg s job)
      history := some { job with prevId := last.smart_contract_event_id } }

/-- A step of the system. -/
inductive ReindexStep
  /-- `CRAWL_CONTRACT_EVENT` has stored the events of the blocks up to `height`. -/
  | crawl (height : ℕ)
  /-- A run of `jobHandleCw20`, with what the node answers for a new contract. -/
  | handleCw20 (endBlock : ℕ) (balances : Option (List IHolderEvent))
  /-- `jobHandler` starts and reads the contract; a job with the same id is not queued twice. -/
  | readContract
  /-- The transaction of `jobHandler`, with the answers of the node, or none if a query threw. -/
  | recreate (balances : Option (List IHolderEvent))
  /-- A job of `REINDEX_CW20_HISTORY`. -/
  | reindexHistory
  /-- A job of `CW20_UPDATE_BY_CONTRACT` patches the contract, with whatever it has computed. -/
  | updateByContract (cw20ContractId : ℕ) (addAmount : ℤ) (endBlock : ℕ)

/-- The step function; a step that is not enabled changes nothing. -/
def reindexStep (cfg : Config) (s : System) : ReindexStep → System
  | .crawl height => { s with crawled := max s.crawled height }
  | .handleCw20 endBlock balances =>
    if s.handled < endBlock ∧ endBlock ≤ s.crawled then jobHandleCw20 cfg s endBlock balances else s
  | .readContract =>
    if s.reading = none ∧ s.history = none then
      { s with reading := some (s.cw20_contract.map (·.id)) }
    else s
  | .recreate balances =>
    match s.reading with
    | none => s
    | some cw20Contract => recreateContract cfg s cw20Contract balances
  | .reindexHistory =>
    match s.history with
    | none => s
    | some job => reindexHistory cfg s job
  | .updateByContract cw20ContractId addAmount endBlock =>
    { s with cw20_contract := s.cw20_contract.map fun row =>
        if row.id = cw20ContractId then
          { row with
            total_supply := row.total_supply + addAmount
            last_updated_height := endBlock }
        else row }

/-! ## 2. The property -/

/-- The events of the activities of a contract row. -/
def activityIds (s : System) (id : ℕ) : List ℕ :=
  (s.cw20_activity.filter fun act => act.cw20_contract_id = id).map (·.smart_contract_event_id)

/-- A reindexing is done and `HANDLE_CW20` has reached its highest answer. -/
def Done (s : System) : Prop :=
  s.reading = none ∧ s.history = none ∧ ∃ r ∈ s.recreated, r.endBlock ≤ s.handled

instance (s : System) : Decidable (Done s) :=
  inferInstanceAs (Decidable (_ ∧ _ ∧ ∃ r ∈ s.recreated, _))

/-- The contract has one activity for each event up to the checkpoint. -/
def ExactlyOnce (cfg : Config) (s : System) : Prop :=
  ∃ row ∈ s.cw20_contract, ∀ e ∈ cfg.events, cfg.startBlock < e.height → e.height ≤ s.handled →
    (activityIds s row.id).count e.smart_contract_event_id = 1

instance (cfg : Config) (s : System) : Decidable (ExactlyOnce cfg s) :=
  inferInstanceAs (Decidable (∃ row ∈ s.cw20_contract, ∀ e ∈ cfg.events, _))

/-- The start of a run: nothing is in progress, and the rows have ids that were given out. The
contract may be there or not, with any activities, and the checkpoint may be anywhere. -/
structure Initial (s : System) : Prop where
  handled_le : s.handled ≤ s.crawled
  contract_lt : ∀ row, s.cw20_contract = some row → row.id < s.nextContractId
  activity_lt : ∀ act ∈ s.cw20_activity, act.cw20_contract_id < s.nextContractId
  reading : s.reading = none
  history : s.history = none
  recreated : s.recreated = none

/-- The condition on a step. A reindexing that commits has got its answers, and no event up to the
checkpoint is above the highest of them; a page has no event above the checkpoint of the
reindexing. -/
def StepOk (cfg : Config) (s : System) : ReindexStep → Prop
  | .recreate balances => ∀ cw20Contract ∈ s.reading,
      (s.cw20_contract.filter fun row => cw20Contract ≠ some row.id) = none →
      balances ≠ none ∧ ∀ e ∈ cfg.events, cfg.startBlock < e.height → e.height ≤ s.handled →
        e.height ≤ maxUpdatedHeightOwner balances
  | .reindexHistory => ∀ job ∈ s.history, ∀ r ∈ s.recreated, ∀ e ∈ historyPage cfg s job,
      e.height ≤ r.handled
  | _ => True

instance (cfg : Config) (s : System) : ∀ step, Decidable (StepOk cfg s step)
  | .recreate balances =>
    inferInstanceAs (Decidable (∀ cw20Contract ∈ s.reading, _ → balances ≠ none ∧ ∀ e ∈ cfg.events, _))
  | .reindexHistory =>
    inferInstanceAs (Decidable (∀ job ∈ s.history, ∀ r ∈ s.recreated, ∀ e ∈ historyPage cfg s job, _))
  | .crawl _ | .handleCw20 _ _ | .readContract | .updateByContract _ _ _ =>
    inferInstanceAs (Decidable True)

/-! ## 3. The invariant -/

/-- The events up to the checkpoint of the reindexing that the history job has written: those up to
the last row of its last page, and all of them when it is done. -/
def written (cfg : Config) (history : Option HistoryJob) (handled : ℕ) : List ContractEvent :=
  match history with
  | none => between (·.height) cfg.startBlock handled cfg.events
  | some job => between (·.smart_contract_event_id) 0 job.prevId
      (between (·.height) cfg.startBlock handled cfg.events)

/-- After a reindexing: the contract is tracked, the history job covers the events up to the
checkpoint of the reindexing, and the activities are those of `jobHandleCw20` above that checkpoint
and those of the history job up to it. -/
structure Follows (cfg : Config) (s : System) (r : Recreated) (row : Cw20Contract) : Prop where
  contract : s.cw20_contract = some row
  track : row.track = true
  handled_le : r.handled ≤ s.handled
  covered : ∀ e ∈ cfg.events, cfg.startBlock < e.height → e.height ≤ r.handled →
    e.height ≤ r.endBlock
  endBlock : ∀ job, s.history = some job → job.endBlock = r.endBlock
  activity : (activityIds s row.id).Perm
    ((between (·.height) r.handled s.handled cfg.events ++ written cfg s.history r.handled).map
      (·.smart_contract_event_id))

/-- The invariant of the runs that meet the condition. -/
structure Inv (cfg : Config) (s : System) : Prop where
  handled_le : s.handled ≤ s.crawled
  contract_lt : ∀ row, s.cw20_contract = some row → row.id < s.nextContractId
  activity_lt : ∀ act ∈ s.cw20_activity, act.cw20_contract_id < s.nextContractId
  follows : ∀ r, s.recreated = some r → ∃ row, Follows cfg s r row

namespace ReindexLemmas

variable {cfg : Config} {s : System} {r : Recreated} {row : Cw20Contract} {job : HistoryJob}

theorem Config.heights (cfg : Config) : cfg.events.Pairwise fun a b => a.height ≤ b.height :=
  cfg.ordered.imp And.right

/-- Only the rows, the checkpoint and the history job matter. -/
theorem Follows.of_eq {s' : System} (h : Follows cfg s r row)
    (hcontract : s'.cw20_contract = s.cw20_contract) (hactivity : s'.cw20_activity = s.cw20_activity)
    (hhandled : s'.handled = s.handled) (hhistory : s'.history = s.history) :
    Follows cfg s' r row := by
  refine ⟨hcontract.trans h.contract, h.track, hhandled ▸ h.handled_le, h.covered,
    hhistory ▸ h.endBlock, ?_⟩
  rw [activityIds, hactivity, hhandled, hhistory]
  exact h.activity

theorem handleCw20Histories_of_track (htrack : row.track = true) (events : List ContractEvent) :
    (handleCw20Histories (some row) events).map (·.smart_contract_event_id) =
        events.map (·.smart_contract_event_id) ∧
      ∀ act ∈ handleCw20Histories (some row) events, act.cw20_contract_id = row.id := by
  simp only [handleCw20Histories, Option.filter_some, htrack, if_true, List.map_map]
  refine ⟨rfl, fun act hact => ?_⟩
  obtain ⟨event, -, rfl⟩ := List.mem_map.mp hact
  rfl

theorem mem_handleCw20Histories {contract : Option Cw20Contract} {events : List ContractEvent}
    {act : ContractActivity} (h : act ∈ handleCw20Histories contract events) :
    ∃ row, contract = some row ∧ act.cw20_contract_id = row.id := by
  unfold handleCw20Histories at h
  split at h
  · cases h
  · next row hrow =>
    obtain ⟨event, -, rfl⟩ := List.mem_map.mp h
    exact ⟨row, (Option.eq_some_of_filter_eq_some hrow), rfl⟩

/-- Activities of a tracked contract are appended to its own. -/
theorem activityIds_append (htrack : row.track = true) (events : List ContractEvent) {s' : System}
    (hs' : s'.cw20_activity = s.cw20_activity ++ handleCw20Histories (some row) events) :
    activityIds s' row.id =
      activityIds s row.id ++ events.map (·.smart_contract_event_id) := by
  obtain ⟨hids, hcontract⟩ := handleCw20Histories_of_track htrack events
  have hall : (handleCw20Histories (some row) events).filter
      (fun act => act.cw20_contract_id = row.id) = handleCw20Histories (some row) events :=
    List.filter_eq_self.mpr fun act hact => by simpa using hcontract act hact
  rw [activityIds, activityIds, hs', List.filter_append, List.map_append, hall, hids]

/-! ### `HANDLE_CW20` -/

/-- A run that commits without an instantiation. -/
theorem follows_handled (hfollows : Follows cfg s r row) {endBlock : ℕ} (hlt : s.handled < endBlock) :
    Follows cfg { s with
      cw20_activity := s.cw20_activity ++ handleCw20Histories s.cw20_contract
        (between (·.height) s.handled endBlock cfg.events)
      handled := endBlock } r row := by
  refine ⟨hfollows.contract, hfollows.track, hfollows.handled_le.trans hlt.le, hfollows.covered,
    hfollows.endBlock, ?_⟩
  have hids := @activityIds_append s row hfollows.track
    (between (·.height) s.handled endBlock cfg.events) { s with
      cw20_activity := s.cw20_activity ++ handleCw20Histories s.cw20_contract
        (between (·.height) s.handled endBlock cfg.events)
      handled := endBlock } (by rw [hfollows.contract])
  rw [hids, ← between_append (Config.heights cfg) hfollows.handled_le hlt.le]
  refine (hfollows.activity.append_right _).trans ?_
  rw [← List.map_append]
  refine List.Perm.map _ ?_
  rw [List.append_assoc, List.append_assoc]
  exact List.Perm.append_left _ List.perm_append_comm

theorem inv_handleCw20 (hinv : Inv cfg s) {endBlock : ℕ} (balances : Option (List IHolderEvent))
    (hlt : s.handled < endBlock) (hle : endBlock ≤ s.crawled) :
    Inv cfg (jobHandleCw20 cfg s endBlock balances) := by
  unfold jobHandleCw20
  simp only
  split
  · refine ⟨hle, hinv.contract_lt, fun act hact => ?_, fun r hr => ?_⟩
    · rcases List.mem_append.mp hact with hold | hnew
      · exact hinv.activity_lt act hold
      · obtain ⟨row, hrow, hid⟩ := mem_handleCw20Histories hnew
        rw [hid]
        exact hinv.contract_lt row hrow
    · obtain ⟨row, hfollows⟩ := hinv.follows r hr
      exact ⟨row, follows_handled hfollows hlt⟩
  · split
    · exact hinv
    · next hnone =>
      -- the contract is new, so no reindexing has stored it
      rw [not_or, Option.not_isSome_iff_eq_none] at hnone
      refine ⟨hle, ?_, fun act hact => ?_, fun r hr => ?_⟩
      · rintro row ⟨rfl⟩
        exact Nat.lt_succ_self _
      · rcases List.mem_append.mp hact with hold | hnew
        · exact (hinv.activity_lt act hold).trans (Nat.lt_succ_self _)
        · obtain ⟨row, hrow, hid⟩ := mem_handleCw20Histories hnew
          cases hrow
          rw [hid]
          exact Nat.lt_succ_self _
      · obtain ⟨row, hfollows⟩ := hinv.follows r hr
        rw [hfollows.contract] at hnone
        cases hnone.1

/-! ### The transaction of the reindexing -/

theorem inv_recreate (hinv : Inv cfg s) {cw20Contract : Option ℕ}
    {balances : Option (List IHolderEvent)}
    (hok : (s.cw20_contract.filter fun row => cw20Contract ≠ some row.id) = none →
      balances ≠ none ∧ ∀ e ∈ cfg.events, cfg.startBlock < e.height → e.height ≤ s.handled →
        e.height ≤ maxUpdatedHeightOwner balances) :
    Inv cfg (recreateContract cfg s cw20Contract balances) := by
  unfold recreateContract
  split
  · refine ⟨hinv.handled_le, hinv.contract_lt, hinv.activity_lt, fun r hr => ?_⟩
    obtain ⟨row, hfollows⟩ := hinv.follows r hr
    exact ⟨row, Follows.of_eq hfollows rfl rfl rfl rfl⟩
  · next hcommits =>
    obtain ⟨hanswered, hcovered⟩ := hok (Option.not_isSome_iff_eq_none.mp hcommits)
    refine ⟨hinv.handled_le, ?_, fun act hact => ?_, ?_⟩
    · rintro row ⟨rfl⟩
      exact Nat.lt_succ_self _
    · exact (hinv.activity_lt act (List.mem_of_mem_filter hact)).trans (Nat.lt_succ_self _)
    · rintro r ⟨rfl⟩
      refine ⟨_, rfl, Option.isSome_iff_ne_none.mpr hanswered, le_refl _, hcovered, ?_, ?_⟩
      · rintro job ⟨rfl⟩
        rfl
      · -- no activity has the new id, and no page was written
        have hnone : ((s.cw20_activity.filter fun act => cw20Contract ≠ some act.cw20_contract_id).filter
            fun act => act.cw20_contract_id = s.nextContractId) = [] := by
          refine List.filter_eq_nil_iff.mpr fun act hact => ?_
          have := hinv.activity_lt act (List.mem_of_mem_filter hact)
          simp only [decide_eq_true_eq]
          omega
        have hhandled : between (·.height) s.handled s.handled cfg.events = [] :=
          between_eq_nil fun _ _ h => h
        have hwritten : between (·.smart_contract_event_id) 0 0
            (between (·.height) cfg.startBlock s.handled cfg.events) = [] :=
          between_eq_nil fun _ _ h => h
        simp only [written, hhandled, hwritten]
        show (((s.cw20_activity.filter fun act => cw20Contract ≠ some act.cw20_contract_id).filter
          fun act => act.cw20_contract_id = s.nextContractId).map _).Perm []
        rw [hnone]
        exact List.Perm.nil

/-! ### A page of the history -/

/-- The events of a history job: those up to the checkpoint of the reindexing, and later ones. -/
theorem historyEvents_eq (hinv : Inv cfg s) (hfollows : Follows cfg s r row)
    (hjob : s.history = some job) :
    historyEvents cfg s job = between (·.height) cfg.startBlock r.handled cfg.events ++
      (historyEvents cfg s job).filter fun e => r.handled < e.height := by
  have hsorted : (historyEvents cfg s job).Pairwise fun a b => a.height ≤ b.height :=
    (Config.heights cfg).sublist (between_sublist.trans List.filter_sublist)
  have hcut := between_append_above (s := 0) hsorted (Nat.zero_le r.handled)
  have hlow : between (·.height) 0 r.handled (historyEvents cfg s job) =
      between (·.height) cfg.startBlock r.handled cfg.events := by
    have hle : r.handled ≤ s.crawled := hfollows.handled_le.trans hinv.handled_le
    have hend := hfollows.endBlock job hjob
    unfold historyEvents between
    rw [List.filter_filter, List.filter_filter]
    refine List.filter_congr fun e he => ?_
    have hcovered := hfollows.covered e he
    simp only [← Bool.decide_and, decide_eq_decide]
    omega
  have hpos : (historyEvents cfg s job).filter (fun e => 0 < e.height) = historyEvents cfg s job := by
    refine List.filter_eq_self.mpr fun e he => ?_
    have := (mem_between.mp he).2.1
    simp only [decide_eq_true_eq]
    omega
  rw [hpos, hlow] at hcut
  exact hcut.symm

/-- A page that stays below the checkpoint of the reindexing is a page of the events up to it. -/
theorem historyPage_eq (hinv : Inv cfg s) (hfollows : Follows cfg s r row)
    (hjob : s.history = some job) (hpage : ∀ e ∈ historyPage cfg s job, e.height ≤ r.handled) :
    historyPage cfg s job = pageAfter (·.smart_contract_event_id)
      (between (·.height) cfg.startBlock r.handled cfg.events) cfg.limitRecordGet job.prevId := by
  rw [historyPage, historyEvents_eq hinv hfollows hjob] at hpage ⊢
  refine pageAfter_append hpage fun e he => ?_
  simpa using (List.mem_filter.mp he).2

/-- What a page adds to the events that were written. -/
theorem written_page {handled : ℕ} {last : ContractEvent}
    (hlast : (pageAfter (·.smart_contract_event_id)
      (between (·.height) cfg.startBlock handled cfg.events) cfg.limitRecordGet
        job.prevId).getLast? = some last) :
    written cfg (some { job with prevId := last.smart_contract_event_id }) handled =
      written cfg (some job) handled ++ pageAfter (·.smart_contract_event_id)
        (between (·.height) cfg.startBlock handled cfg.events) cfg.limitRecordGet job.prevId := by
  set rows := between (·.height) cfg.startBlock handled cfg.events with hrows
  have hids : rows.Pairwise fun a b => a.smart_contract_event_id < b.smart_contract_event_id :=
    (cfg.ordered.imp And.left).sublist between_sublist
  have hcut := fun m => between_append_above (s := 0) (m := m) (hids.imp le_of_lt) (Nat.zero_le m)
  have hafter := filter_after_page hids hlast
  have htwo := (hcut last.smart_contract_event_id).trans (hcut job.prevId).symm
  rw [hafter, ← List.take_append_drop cfg.limitRecordGet
    (rows.filter fun e => job.prevId < e.smart_contract_event_id), ← List.append_assoc] at htwo
  rw [List.take_append_drop] at htwo
  exact List.append_cancel_right htwo

/-- When the pages are empty, all events are written. -/
theorem written_done {handled : ℕ}
    (hnone : (pageAfter (·.smart_contract_event_id)
      (between (·.height) cfg.startBlock handled cfg.events) cfg.limitRecordGet
        job.prevId).getLast? = none) :
    written cfg (some job) handled = written cfg none handled := by
  set rows := between (·.height) cfg.startBlock handled cfg.events with hrows
  have hids : rows.Pairwise fun a b => a.smart_contract_event_id < b.smart_contract_event_id :=
    (cfg.ordered.imp And.left).sublist between_sublist
  have hcut := between_append_above (s := 0) (m := job.prevId) (hids.imp le_of_lt) (Nat.zero_le _)
  have hnil : rows.filter (fun e => job.prevId < e.smart_contract_event_id) = [] := by
    rcases List.take_eq_nil_iff.mp (List.getLast?_eq_none_iff.mp hnone) with hzero | hnil
    · exact absurd hzero cfg.limit_pos.ne'
    · exact hnil
  have hall : rows.filter (fun e => 0 < e.smart_contract_event_id) = rows :=
    List.filter_eq_self.mpr fun e he => by simpa using cfg.ids_pos e (between_sublist.subset he)
  rw [hnil, List.append_nil, hall] at hcut
  exact hcut

theorem inv_reindexHistory (hinv : Inv cfg s) (hjob : s.history = some job)
    (hpage : ∀ r, s.recreated = some r → ∀ e ∈ historyPage cfg s job, e.height ≤ r.handled) :
    Inv cfg (reindexHistory cfg s job) := by
  unfold reindexHistory
  cases hlast : (historyPage cfg s job).getLast? with
  | none =>
    refine ⟨hinv.handled_le, hinv.contract_lt, hinv.activity_lt, fun r hr => ?_⟩
    obtain ⟨row, hfollows⟩ := hinv.follows r hr
    rw [historyPage_eq hinv hfollows hjob (hpage r hr)] at hlast
    refine ⟨row, hfollows.contract, hfollows.track, hfollows.handled_le, hfollows.covered,
      fun _ h => (nomatch h), ?_⟩
    have hactivity := hfollows.activity
    rw [hjob, written_done hlast] at hactivity
    exact hactivity
  | some last =>
    refine ⟨hinv.handled_le, hinv.contract_lt, fun act hact => ?_, fun r hr => ?_⟩
    · rcases List.mem_append.mp hact with hold | hnew
      · exact hinv.activity_lt act hold
      · obtain ⟨row, hrow, hid⟩ := mem_handleCw20Histories hnew
        rw [hid]
        exact hinv.contract_lt row hrow
    · obtain ⟨row, hfollows⟩ := hinv.follows r hr
      have hrows := historyPage_eq hinv hfollows hjob (hpage r hr)
      refine ⟨row, hfollows.contract, hfollows.track, hfollows.handled_le, hfollows.covered, ?_, ?_⟩
      · rintro _ ⟨rfl⟩
        exact hfollows.endBlock job hjob
      · have hids := @activityIds_append s row hfollows.track (historyPage cfg s job) { s with
          cw20_activity := s.cw20_activity ++
            handleCw20Histories s.cw20_contract (historyPage cfg s job)
          history := some { job with prevId := last.smart_contract_event_id } }
          (by rw [hfollows.contract])
        have hactivity := hfollows.activity
        rw [hjob] at hactivity
        rw [hrows] at hlast hids
        rw [hrows, hids]
        simp only
        rw [written_page hlast, ← List.append_assoc, List.map_append]
        exact hactivity.append_right _

/-! ### Steps and runs -/

theorem inv_step (hinv : Inv cfg s) (step : ReindexStep) (hok : StepOk cfg s step) :
    Inv cfg (reindexStep cfg s step) := by
  cases step with
  | crawl height =>
    refine ⟨hinv.handled_le.trans (le_max_left _ _), hinv.contract_lt, hinv.activity_lt, ?_⟩
    intro r hr
    obtain ⟨row, hfollows⟩ := hinv.follows r hr
    exact ⟨row, Follows.of_eq hfollows rfl rfl rfl rfl⟩
  | handleCw20 endBlock balances =>
    simp only [reindexStep]
    split
    · next henabled => exact inv_handleCw20 hinv balances henabled.1 henabled.2
    · exact hinv
  | readContract =>
    simp only [reindexStep]
    split
    · refine ⟨hinv.handled_le, hinv.contract_lt, hinv.activity_lt, fun r hr => ?_⟩
      obtain ⟨row, hfollows⟩ := hinv.follows r hr
      exact ⟨row, Follows.of_eq hfollows rfl rfl rfl rfl⟩
    · exact hinv
  | recreate balances =>
    simp only [reindexStep]
    split
    · exact hinv
    · next cw20Contract hreading => exact inv_recreate hinv (hok cw20Contract hreading)
  | reindexHistory =>
    simp only [reindexStep]
    split
    · exact hinv
    · next job hjob => exact inv_reindexHistory hinv hjob fun r hr => hok job hjob r hr
  | updateByContract cw20ContractId addAmount endBlock =>
    refine ⟨hinv.handled_le, fun row hrow => ?_, hinv.activity_lt, fun r hr => ?_⟩
    · obtain ⟨old, hold, rfl⟩ := Option.map_eq_some_iff.mp hrow
      have := hinv.contract_lt old hold
      split <;> exact this
    · obtain ⟨row, hfollows⟩ := hinv.follows r hr
      refine ⟨_, by rw [reindexStep, hfollows.contract, Option.map_some], ?_, hfollows.handled_le,
        hfollows.covered, hfollows.endBlock, ?_⟩
      · split <;> exact hfollows.track
      · have hid : (if row.id = cw20ContractId then
            { row with
              total_supply := row.total_supply + addAmount
              last_updated_height := endBlock }
            else row).id = row.id := by split <;> rfl
        rw [hid]
        exact hfollows.activity

theorem inv_initial (h : Initial s) : Inv cfg s :=
  ⟨h.handled_le, h.contract_lt, h.activity_lt, fun r hr => by rw [h.recreated] at hr; cases hr⟩

/-- When the reindexing is done, the activities are those of all events. -/
theorem exactlyOnce_of_inv (hinv : Inv cfg s) (hdone : Done s) : ExactlyOnce cfg s := by
  obtain ⟨-, hhistory, r, hr, -⟩ := hdone
  obtain ⟨row, hfollows⟩ := hinv.follows r hr
  refine ⟨row, hfollows.contract, fun e he hstart hle => ?_⟩
  have hactivity := hfollows.activity
  rw [hhistory] at hactivity
  set above := between (·.height) r.handled s.handled cfg.events with habove
  set below := between (·.height) cfg.startBlock r.handled cfg.events with hbelow
  have hinjective : (cfg.events.map (·.smart_contract_event_id)).Nodup := by
    rw [List.Nodup, List.pairwise_map]
    exact cfg.ordered.imp fun h => h.1.ne
  have hnodup : ((above ++ below).map (·.smart_contract_event_id)).Nodup := by
    rw [List.map_append, List.nodup_append]
    refine ⟨hinjective.sublist (between_sublist.map _), hinjective.sublist (between_sublist.map _), ?_⟩
    intro id hid id' hid' hsame
    obtain ⟨x, hx, rfl⟩ := List.mem_map.mp hid
    obtain ⟨y, hy, rfl⟩ := List.mem_map.mp hid'
    obtain ⟨hxmem, hxlo, -⟩ := mem_between.mp hx
    obtain ⟨hymem, -, hyhi⟩ := mem_between.mp hy
    have heq := List.inj_on_of_nodup_map hinjective hxmem hymem hsame
    rw [heq] at hxlo
    omega
  rw [hactivity.count_eq]
  refine List.count_eq_one_of_mem hnodup (List.mem_map_of_mem (List.mem_append.mpr ?_))
  rcases Nat.lt_or_ge r.handled e.height with hlt | hge
  · exact .inl (mem_between.mpr ⟨he, hlt, hle⟩)
  · exact .inr (mem_between.mpr ⟨he, hstart, hge⟩)

end ReindexLemmas

open ReindexLemmas

/-! ## 4. Results -/

/-- A contract with a transfer at height 10. -/
def oneTransfer : Config where
  contractAddress := "aura1token"
  events := [⟨.transfer, 1, some "alice", some 30, some "alice", some "bob", 10, "A", 1⟩]
  startBlock := 0
  limitRecordGet := 500
  ordered := by decide
  ids_pos := by decide
  limit_pos := by decide

/-- The contract in the tables, with the checkpoints at a height below the transfer. -/
def indexedUpTo (height : ℕ) : System where
  crawled := height
  handled := height
  nextContractId := 2
  cw20_contract := some ⟨1, "aura1token", 100, true, 0⟩
  cw20_activity := []
  reading := none
  history := none
  recreated := none

/-- The answer to the only balance query, at a height. -/
def answeredAt (height : ℕ) : Option (List IHolderEvent) := some [⟨"alice", 100, "aura1token", height⟩]

end Erascope.Cw20.Reindex
