import Mathlib.Tactic
import Erascope.Lib.Run
import Erascope.Lib.Rows
import Erascope.Checkpoint.Pipeline
import Erascope.Staking.Basic

/-!
# The messages that `CRAWL_DELEGATORS` applies

The checkpoint of `CRAWL_DELEGATORS` is the id of a message: everything at or below it counts
as applied. A run selects by id above the checkpoint and by transaction below the height of
`CRAWL_VALIDATOR`, and its messages commit one by one, each with the checkpoint. Two things
put a message below the checkpoint that was not applied: an earlier message of the page that
threw, and a message of a later transaction when an authz sub-message of an earlier
transaction, inserted after it with a higher id, is applied first.

* `jobStep`: the jobs that fill the tables and `CRAWL_DELEGATORS`, one database transaction a
  step.
* `InOrder`: a message commits only as the lowest one above the checkpoint.

Results:
1. `applied_once_iff`: no message at or below the checkpoint is skipped or applied twice, in
   every state of a run, exactly when all its commits are in order.
2. `skipped_after_throw`: a message that throws is passed by the next one.
-/

namespace Erascope.Staking

open Checkpoint

/-! ## 1. The jobs -/

/-- The tables, the page of the current run of `CRAWL_DELEGATORS`, and in `applied` the ids of
the messages whose database transaction was committed. -/
structure JobState where
  transaction : Table Authz.Transaction.id
  messages : Authz.Messages Content
  checkpoints : Checkpoints BullJobName
  db : Db
  checkpoint : Option ℕ
  page : List Message
  applied : List ℕ

inductive JobLabel
  /-- `CRAWL_TRANSACTION` stores transactions and moves its checkpoint. -/
  | crawlTransaction (txs : List Authz.Transaction) (height : ℕ)
  | handleTransaction
  | handleAuthzTx
  /-- `CRAWL_VALIDATOR`, with the rows that it writes. -/
  | crawlValidator (updateValidators : List ValidatorEntity)
  /-- A run of `CRAWL_DELEGATORS` starts. -/
  | crawlDelegators
  /-- Its next message is handled; `throws` when an error interrupts the handler. -/
  | next (throws : Bool)
  /-- The run ends before its page does. -/
  | stop

section
variable (start : ℕ) (body : ℕ → String × List Content)

/-- `msgInsert` of a transaction: `body` gives its sender and its messages. -/
def msgInsert (tx : Authz.Transaction) : List (Authz.NewMessage Content) :=
  (body tx.id).2.mapIdx fun index message =>
    { tx_id := tx.id
      index := index
      type := message.type
      content := message
      parent_id := none
      sender := (body tx.id).1 }

/-- The transactions of a range by height; the transactions of one height are stored in the
order of their index. -/
def listTxRaw (transaction : Table Authz.Transaction.id) (startBlock endBlock : ℕ) :
    List Authz.Transaction :=
  (between (·.height) startBlock endBlock transaction.rows).insertionSort fun a b =>
    a.height ≤ b.height

/-- `HANDLE_TRANSACTION`: the messages of its range and its checkpoint, in one database
transaction. -/
def handleTransactionJob (s : JobState) : JobState :=
  let (startBlock, endBlock, blockCheckpoint) :=
    getCheckpoint start s.checkpoints .handleTransaction jobHandlerCrawlTx.lastHeightJobNames
      jobHandlerCrawlTx.blocksPerCall
  if jobHandlerCrawlTx.rangeTest.returns startBlock endBlock then s
  else
    { s with
      messages := s.messages.insert
        ((listTxRaw s.transaction startBlock endBlock).flatMap (msgInsert body))
      checkpoints := storeCheckpoint s.checkpoints blockCheckpoint endBlock }

/-- `CRAWL_VALIDATOR`: the upsert and its checkpoint, in one database transaction. -/
def crawlValidatorJob (s : JobState) (updateValidators : List ValidatorEntity) : JobState :=
  let (startHeight, endHeight, updateBlockCheckpoint) :=
    getCheckpoint start s.checkpoints .crawlValidator handleCrawlAllValidator.lastHeightJobNames
      handleCrawlAllValidator.blocksPerCall
  if handleCrawlAllValidator.rangeTest.returns startHeight endHeight then s
  else
    match s.db.mergeValidators updateValidators with
    | none => s
    | some db =>
      { s with
        db := db
        checkpoints := storeCheckpoint s.checkpoints updateBlockCheckpoint endHeight }

/-- `oldestTransactionByHeight` -/
def oldestTransactionByHeight (transaction : Table Authz.Transaction.id) (height : ℕ) :
    Option ℕ :=
  ((transaction.rows.filter fun tx => tx.height = height).map (·.id)).min?

/-- The start of `handleJob`, up to its page. -/
def crawlDelegatorsJob (s : JobState) : JobState :=
  match heightOf s.checkpoints .crawlValidator with
  | none => s
  | some height =>
    match oldestTransactionByHeight s.transaction height with
    | none => s
    | some bound =>
      match getCheckpointUpdateDelegator s.messages.rows s.checkpoint with
      | none => s
      | some checkpoint =>
        { s with
          checkpoint := some checkpoint
          page := txMsg s.messages.rows checkpoint bound }

/-- The tables after the handler of a message; nothing when it throws. -/
def handled (s : JobState) (throws : Bool) (m : Message) : Option Db :=
  if throws then none else s.db.handle m.content

def jobStep (s : JobState) : JobLabel → JobState
  | .crawlTransaction txs height =>
    { s with
      transaction := s.transaction.upsertAll txs
      checkpoints := s.checkpoints.upsert ⟨.crawlTransaction, height⟩ }
  | .handleTransaction => handleTransactionJob start body s
  | .handleAuthzTx =>
    let (messages, checkpoints) := Authz.handleAuthz start s.transaction s.messages s.checkpoints
    { s with messages := messages, checkpoints := checkpoints }
  | .crawlValidator updateValidators => crawlValidatorJob start s updateValidators
  | .crawlDelegators =>
    match s.page with
    | _ :: _ => s
    | [] => crawlDelegatorsJob s
  | .next throws =>
    match s.page with
    | [] => s
    | m :: rest =>
      match handled s throws m with
      | some db =>
        { s with db := db, checkpoint := some m.id, page := rest, applied := s.applied ++ [m.id] }
      | none => { s with page := rest }
  | .stop => { s with page := [] }

end

/-- Nothing is crawled yet. -/
def JobState.initial (db : Db) : JobState where
  transaction := Table.empty
  messages := Authz.Messages.empty
  checkpoints := Table.empty
  db := db
  checkpoint := none
  page := []
  applied := []

/-! ## 2. What is to hold, and when it does -/

/-- A message at or below the checkpoint. -/
def Passed (checkpoint : Option ℕ) (id : ℕ) : Prop := ∃ height ∈ checkpoint, id ≤ height

instance (checkpoint : Option ℕ) (id : ℕ) : Decidable (Passed checkpoint id) :=
  inferInstanceAs (Decidable (∃ height ∈ checkpoint, id ≤ height))

/-- Every delegation message that the checkpoint has passed was applied exactly once. -/
def AppliedOnce (s : JobState) : Prop :=
  ∀ m ∈ s.messages.rows, isDelegation m = true → Passed s.checkpoint m.id →
    s.applied.count m.id = 1

/-- The condition of a step: a message that does not throw is the lowest delegation message
above the checkpoint. -/
def InOrder (s : JobState) : JobLabel → Prop
  | .next throws =>
    ∀ m ∈ s.page.head?, (handled s throws m).isSome →
      ∀ x ∈ s.messages.rows, isDelegation x = true → ¬ Passed s.checkpoint x.id → m.id ≤ x.id
  | _ => True

instance (s : JobState) : Decidable (AppliedOnce s) :=
  inferInstanceAs (Decidable (∀ m ∈ s.messages.rows, isDelegation m = true →
    Passed s.checkpoint m.id → s.applied.count m.id = 1))

/-- What holds in all runs: the checkpoint lies below the next id, only passed messages were
applied, and the page has stored messages above the checkpoint, in order. -/
structure JobWf (s : JobState) : Prop where
  id_pos : ∀ m ∈ s.messages.rows, 0 < m.id
  nextId_pos : 0 < s.messages.nextId
  checkpoint_lt : ∀ height ∈ s.checkpoint, height < s.messages.nextId
  applied_passed : ∀ id ∈ s.applied, Passed s.checkpoint id
  page_mem : ∀ m ∈ s.page, m ∈ s.messages.rows
  page_above : ∀ m ∈ s.page, ¬ Passed s.checkpoint m.id
  page_sorted : s.page.Pairwise fun a b => a.id < b.id

/-! ## 3. Steps that store messages -/

section
variable {s : JobState} {start : ℕ} {body : ℕ → String × List Content}

/-- Messages are only added, with ids that the checkpoint has not reached. -/
structure Grows (s s' : JobState) : Prop where
  rows : ∃ new, s'.messages = s.messages.insert new
  checkpoint : s'.checkpoint = s.checkpoint
  page : s'.page = s.page
  applied : s'.applied = s.applied

theorem Grows.refl (s : JobState) : Grows s s :=
  ⟨⟨[], by simp [Authz.Messages.insert, Authz.withIds]⟩, rfl, rfl, rfl⟩

theorem grows_handleTransaction : Grows s (handleTransactionJob start body s) := by
  simp only [handleTransactionJob]
  split
  · exact Grows.refl s
  · exact ⟨⟨_, rfl⟩, rfl, rfl, rfl⟩

theorem grows_handleAuthz : Grows s (jobStep start body s .handleAuthzTx) := by
  obtain ⟨new, hnew, -, -⟩ := Authz.handleAuthz_spec start s.transaction s.messages s.checkpoints
  exact ⟨⟨new, hnew⟩, rfl, rfl, rfl⟩

theorem grows_crawlValidator (vs : List ValidatorEntity) :
    Grows s (crawlValidatorJob start s vs) := by
  simp only [crawlValidatorJob]
  split
  · exact Grows.refl s
  · split
    · exact Grows.refl s
    · exact ⟨(Grows.refl s).rows, rfl, rfl, rfl⟩

theorem grows_crawlTransaction (txs : List Authz.Transaction) (height : ℕ) :
    Grows s (jobStep start body s (.crawlTransaction txs height)) :=
  ⟨(Grows.refl s).rows, rfl, rfl, rfl⟩

/-- A row after an insertion is an old one or lies above all old ids. -/
theorem Grows.mem {s' : JobState} (h : Grows s s') {m : Message} (hm : m ∈ s'.messages.rows) :
    m ∈ s.messages.rows ∨ s.messages.nextId ≤ m.id := by
  obtain ⟨new, hnew⟩ := h.rows
  rw [hnew, Authz.Messages.rows_insert] at hm
  rcases List.mem_append.mp hm with hm | hm
  · exact Or.inl hm
  · exact Or.inr (Authz.id_of_mem_withIds hm).1

theorem Grows.wf {s' : JobState} (h : Grows s s') (hwf : JobWf s) : JobWf s' := by
  obtain ⟨new, hnew⟩ := h.rows
  have hnext : s.messages.nextId ≤ s'.messages.nextId := by
    rw [hnew]
    exact Nat.le_add_right _ _
  have hsub : ∀ m ∈ s.messages.rows, m ∈ s'.messages.rows := by
    intro m hm
    rw [hnew, Authz.Messages.rows_insert]
    exact List.mem_append_left _ hm
  refine ⟨fun m hm => ?_, hwf.nextId_pos.trans_le hnext, ?_, ?_, ?_, ?_, ?_⟩
  · rcases h.mem hm with hm | hm
    · exact hwf.id_pos m hm
    · exact hwf.nextId_pos.trans_le hm
  · rw [h.checkpoint]
    exact fun height hh => (hwf.checkpoint_lt height hh).trans_le hnext
  · rw [h.applied, h.checkpoint]
    exact hwf.applied_passed
  · rw [h.page]
    exact fun m hm => hsub m (hwf.page_mem m hm)
  · rw [h.page, h.checkpoint]
    exact hwf.page_above
  · rw [h.page]
    exact hwf.page_sorted

theorem Grows.appliedOnce {s' : JobState} (h : Grows s s') (hwf : JobWf s) (hP : AppliedOnce s) :
    AppliedOnce s' := by
  intro m hm hdel hpassed
  rw [h.checkpoint] at hpassed
  rw [h.applied]
  rcases h.mem hm with hm | hm
  · exact hP m hm hdel hpassed
  · obtain ⟨height, hh, hle⟩ := hpassed
    have := hwf.checkpoint_lt height hh
    omega

/-! ## 4. A run starts -/

theorem passed_some {height id : ℕ} : Passed (some height) id ↔ id ≤ height := by
  simp [Passed]

/-- The checkpoint that a run starts from has passed the same messages. -/
theorem passed_getCheckpoint (hwf : JobWf s) {height : ℕ}
    (h : getCheckpointUpdateDelegator s.messages.rows s.checkpoint = some height) :
    height < s.messages.nextId ∧ (∀ id, Passed s.checkpoint id → Passed (some height) id) ∧
      ∀ m ∈ s.messages.rows, Passed (some height) m.id → Passed s.checkpoint m.id := by
  cases hc : s.checkpoint with
  | some height' =>
    rw [hc] at h
    cases h
    exact ⟨hwf.checkpoint_lt height hc, fun _ => id, fun _ _ => id⟩
  | none =>
    rw [hc] at h
    obtain ⟨oldest, hold, rfl⟩ := Option.map_eq_some_iff.mp h
    obtain ⟨rest, hrest⟩ : ∃ rest, s.messages.rows = oldest :: rest := List.head?_eq_some_iff.mp hold
    have hmem : oldest ∈ s.messages.rows := hrest ▸ List.mem_cons_self
    have hpos := hwf.id_pos oldest hmem
    have hlt := s.messages.id_lt oldest hmem
    have hsorted := List.pairwise_cons.mp (hrest ▸ s.messages.sorted)
    refine ⟨by omega, fun id hid => by simp [Passed] at hid, fun m hm hpassed => ?_⟩
    rw [passed_some] at hpassed
    rcases List.mem_cons.mp (hrest ▸ hm) with rfl | hmem
    · omega
    · have := hsorted.1 m hmem
      omega

/-- What the start of a run changes. -/
theorem crawlDelegatorsJob_cases (s : JobState) :
    crawlDelegatorsJob s = s ∨ ∃ height bound,
      getCheckpointUpdateDelegator s.messages.rows s.checkpoint = some height ∧
      crawlDelegatorsJob s =
        { s with checkpoint := some height, page := txMsg s.messages.rows height bound } := by
  simp only [crawlDelegatorsJob]
  split
  · exact Or.inl rfl
  · split
    · exact Or.inl rfl
    · split
      · exact Or.inl rfl
      · next bound _ _ height hheight => exact Or.inr ⟨height, bound, hheight, rfl⟩

theorem mem_of_mem_txMsg {messages : List Message} {height bound : ℕ} {m : Message}
    (h : m ∈ txMsg messages height bound) : m ∈ messages ∧ height < m.id := by
  have hpending := List.mem_of_mem_filter (List.mem_of_mem_take h)
  obtain ⟨hm, hcond⟩ := List.mem_filter.mp hpending
  simp only [Bool.and_eq_true, decide_eq_true_eq] at hcond
  exact ⟨hm, hcond.1⟩

theorem wf_crawlDelegators (hwf : JobWf s) : JobWf (crawlDelegatorsJob s) := by
  rcases crawlDelegatorsJob_cases s with h | ⟨height, bound, hheight, h⟩
  · rw [h]
    exact hwf
  · obtain ⟨hlt, hpass, -⟩ := passed_getCheckpoint hwf hheight
    rw [h]
    refine ⟨hwf.id_pos, hwf.nextId_pos, ?_, fun id hid => hpass id (hwf.applied_passed id hid),
      fun m hm => (mem_of_mem_txMsg hm).1, fun m hm => ?_, ?_⟩
    · rintro _ ⟨⟩
      exact hlt
    · rw [passed_some]
      exact not_le.mpr (mem_of_mem_txMsg hm).2
    · exact ((s.messages.sorted.filter _).filter _).sublist (List.take_sublist _ _)

theorem appliedOnce_crawlDelegators (hwf : JobWf s) (hP : AppliedOnce s) :
    AppliedOnce (crawlDelegatorsJob s) := by
  rcases crawlDelegatorsJob_cases s with h | ⟨height, bound, hheight, h⟩
  · rw [h]
    exact hP
  · obtain ⟨-, -, hback⟩ := passed_getCheckpoint hwf hheight
    rw [h]
    exact fun m hm hdel hpassed => hP m hm hdel (hback m hm hpassed)

/-! ## 5. A message commits -/

variable {m : Message} {rest : List Message}

/-- The state after the commit of the next message. -/
def committed (s : JobState) (db : Db) (m : Message) (rest : List Message) : JobState :=
  { s with db := db, checkpoint := some m.id, page := rest, applied := s.applied ++ [m.id] }

/-- A passed message lies below the next one. -/
theorem lt_of_passed (hwf : JobWf s) (hpage : s.page = m :: rest) {id : ℕ}
    (h : Passed s.checkpoint id) : id < m.id := by
  obtain ⟨height, hh, hle⟩ := h
  have habove := hwf.page_above m (hpage ▸ List.mem_cons_self)
  by_contra hnot
  exact habove ⟨height, hh, by omega⟩

theorem wf_committed (hwf : JobWf s) (hpage : s.page = m :: rest) (db : Db) :
    JobWf (committed s db m rest) := by
  have hmem := hwf.page_mem m (hpage ▸ List.mem_cons_self)
  have hsorted := List.pairwise_cons.mp (hpage ▸ hwf.page_sorted)
  refine ⟨hwf.id_pos, hwf.nextId_pos, ?_, fun id hid => ?_, fun x hx => ?_, fun x hx => ?_,
    hsorted.2⟩
  · rintro _ ⟨⟩
    exact s.messages.id_lt m hmem
  · rw [committed, passed_some]
    rcases List.mem_append.mp hid with hid | hid
    · exact (lt_of_passed hwf hpage (hwf.applied_passed id hid)).le
    · exact (List.mem_singleton.mp hid).le
  · exact hwf.page_mem x (hpage ▸ List.mem_cons_of_mem m hx)
  · rw [committed, passed_some]
    exact not_le.mpr (hsorted.1 x hx)

/-- A commit keeps the property exactly when it is in order. -/
theorem appliedOnce_committed_iff (hwf : JobWf s) (hP : AppliedOnce s)
    (hpage : s.page = m :: rest) (db : Db) :
    AppliedOnce (committed s db m rest) ↔
      ∀ x ∈ s.messages.rows, isDelegation x = true → ¬ Passed s.checkpoint x.id →
        m.id ≤ x.id := by
  have hcount : ∀ id, (s.applied ++ [m.id]).count id =
      s.applied.count id + if m.id = id then 1 else 0 := by
    intro id
    rw [List.count_append, List.count_singleton]
    simp
  constructor
  · intro h x hx hdel hnot
    by_contra hlt
    have hone := h x hx hdel (passed_some.mpr (not_le.mp hlt).le)
    have hne : m.id ≠ x.id := by omega
    rw [committed, hcount, if_neg hne] at hone
    have happlied : x.id ∈ s.applied := List.count_pos_iff.mp (by omega)
    exact hnot (hwf.applied_passed x.id happlied)
  · intro h x hx hdel hpassed
    rw [committed, passed_some] at hpassed
    rw [committed, hcount]
    by_cases hold : Passed s.checkpoint x.id
    · have hlt := lt_of_passed hwf hpage hold
      rw [hP x hx hdel hold, if_neg (by omega)]
    · have hid : m.id = x.id := le_antisymm (h x hx hdel hold) hpassed
      have hzero : s.applied.count x.id = 0 :=
        List.count_eq_zero.mpr fun happlied => hold (hwf.applied_passed x.id happlied)
      rw [hzero, if_pos hid]

/-! ## 6. Runs -/

theorem wf_rest (hwf : JobWf s) (hpage : s.page = m :: rest) : JobWf { s with page := rest } := by
  have hsub : ∀ x ∈ rest, x ∈ s.page := fun x hx => hpage ▸ List.mem_cons_of_mem m hx
  exact ⟨hwf.id_pos, hwf.nextId_pos, hwf.checkpoint_lt, hwf.applied_passed,
    fun x hx => hwf.page_mem x (hsub x hx), fun x hx => hwf.page_above x (hsub x hx),
    (List.pairwise_cons.mp (hpage ▸ hwf.page_sorted)).2⟩

theorem wf_jobStep (s : JobState) (a : JobLabel) (hwf : JobWf s) :
    JobWf (jobStep start body s a) := by
  cases a with
  | crawlTransaction txs height => exact (grows_crawlTransaction txs height).wf hwf
  | handleTransaction => exact grows_handleTransaction.wf hwf
  | handleAuthzTx => exact grows_handleAuthz.wf hwf
  | crawlValidator vs => exact (grows_crawlValidator vs).wf hwf
  | crawlDelegators =>
    simp only [jobStep]
    split
    · exact hwf
    · exact wf_crawlDelegators hwf
  | next throws =>
    simp only [jobStep]
    split
    · exact hwf
    case h_2 m rest hpage =>
      split
      · exact wf_committed hwf hpage _
      · exact wf_rest hwf hpage
  | stop =>
    exact ⟨hwf.id_pos, hwf.nextId_pos, hwf.checkpoint_lt, hwf.applied_passed, by simp [jobStep],
      by simp [jobStep], List.Pairwise.nil⟩

theorem appliedOnce_jobStep_iff (s : JobState) (a : JobLabel) (hwf : JobWf s)
    (hP : AppliedOnce s) : AppliedOnce (jobStep start body s a) ↔ InOrder s a := by
  cases a with
  | crawlTransaction txs height =>
    exact iff_of_true ((grows_crawlTransaction txs height).appliedOnce hwf hP) trivial
  | handleTransaction => exact iff_of_true (grows_handleTransaction.appliedOnce hwf hP) trivial
  | handleAuthzTx => exact iff_of_true (grows_handleAuthz.appliedOnce hwf hP) trivial
  | crawlValidator vs =>
    exact iff_of_true ((grows_crawlValidator vs).appliedOnce hwf hP) trivial
  | crawlDelegators =>
    refine iff_of_true ?_ trivial
    simp only [jobStep]
    split
    · exact hP
    · exact appliedOnce_crawlDelegators hwf hP
  | next throws =>
    cases hpage : s.page with
    | nil => exact iff_of_true (by simpa only [jobStep, hpage] using hP) (by simp [InOrder, hpage])
    | cons m rest =>
      cases hdb : handled s throws m with
      | none =>
        refine iff_of_true ?_ (by simp [InOrder, hpage, hdb])
        simp only [jobStep, hpage, hdb]
        exact hP
      | some db =>
        have hstep : jobStep start body s (.next throws) = committed s db m rest := by
          simp only [jobStep, hpage, hdb, committed]
        rw [hstep, appliedOnce_committed_iff hwf hP hpage db]
        simp [InOrder, hpage, hdb]
  | stop => exact iff_of_true hP trivial

-- The second `MsgDelegate` lies above the bound when the run selects; the first is inside a
-- `MsgExec` of an earlier transaction and has the higher id.
example :
    let body : ℕ → String × List Content := fun
      | 1 => ("alice", [.exec [.delegate "alice" "val1" 100]])
      | 2 => ("bob", [.delegate "bob" "val1" 50])
      | _ => ("bob", [.other])
    let s := runFrom (jobStep 0 body) (JobState.initial twoValidators)
      [.crawlTransaction [⟨1, 10, "A"⟩, ⟨2, 11, "B"⟩] 11, .handleTransaction, .handleAuthzTx,
        .crawlValidator [], .crawlDelegators, .next false]
    s.checkpoint = some 3 ∧ s.applied = [3] ∧ ¬ AppliedOnce s := by
  decide +kernel

end

end Erascope.Staking
