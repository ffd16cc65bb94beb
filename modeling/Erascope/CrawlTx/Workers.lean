import Mathlib.Tactic
import Erascope.Lib.Run
import Erascope.Checkpoint.Pipeline
import Erascope.CrawlTx.Related

/-!
# Concurrent workers of `jobHandlerCrawlTx`

Any number of workers run `jobHandlerCrawlTx` of `services/crawl-tx/crawl_tx.service.ts`. A
run reads the checkpoints, reads the transactions of its range, and commits the rows of these
transactions together with the new checkpoint in one database transaction. The steps of the
workers interleave freely, with each other and with the commits of `jobCrawlTx`, which
appends the transactions. The checkpoint is written without a look at the value it replaces.

Results:
1. `exactly_once_iff`: in a run, every transaction up to the checkpoint has its rows exactly
   once and no other has any, in every state, if and only if no commit finds a transaction
   with rows between the `startBlock` it read and the height stored when it commits.
2. `rows_inserted_twice`: two workers that read the same range both insert its rows.
-/

namespace Erascope.CrawlTx

open Checkpoint

/-! ## 1. The system -/

/-- The tables that the job reads and writes. -/
structure Db where
  transaction : Table Transaction.id
  event : List Event
  transaction_message : List TransactionMessage
  block_checkpoint : Checkpoints BullJobName

/-- Where a run of `jobHandlerCrawlTx` stands, with the values it has read. -/
inductive Worker
  | idle
  | ranged (startBlock endBlock : ℕ) (blockCheckpoint : BlockCheckpoint BullJobName)
  | fetched (startBlock endBlock : ℕ) (blockCheckpoint : BlockCheckpoint BullJobName)
      (listTxRaw : List Transaction)

/-- The database and the workers. -/
structure System where
  db : Db
  worker : ℕ → Worker

/-- A step of the system. -/
inductive WorkerStep
  /-- The worker starts a run and calls `getCheckpoint`. -/
  | getCheckpoint (w : ℕ)
  /-- The worker reads the transactions of its range. -/
  | readTransactions (w : ℕ)
  /-- The worker commits its database transaction. -/
  | commit (w : ℕ)
  /-- The run of the worker ends with an error. -/
  | fail (w : ℕ)
  /-- `jobCrawlTx` commits the transactions of the blocks up to `endBlock`. -/
  | crawlTx (txs : Table Transaction.id) (endBlock : ℕ)

section
variable (registry : ChainRegistry) (startBlock : ℕ)

/-- The height up to which `jobCrawlTx` has stored the transactions. -/
def crawled (db : Db) : ℕ := startHeight startBlock db.block_checkpoint .crawlTransaction

/-- The `HANDLE_TRANSACTION` checkpoint. -/
def handled (db : Db) : ℕ := startHeight startBlock db.block_checkpoint .handleTransaction

/-- `orderBy('height', 'asc').orderBy('index', 'asc')` -/
def before (a b : Transaction) : Prop := a.height < b.height ∨ (a.height = b.height ∧ a.index ≤ b.index)

instance : DecidableRel before := fun a b =>
  inferInstanceAs (Decidable (a.height < b.height ∨ (a.height = b.height ∧ a.index ≤ b.index)))

/-- The query of `jobHandlerCrawlTx` for the transactions of a range. -/
def listTxRaw (db : Db) (start endBlock : ℕ) : List Transaction :=
  (between (·.height) start endBlock db.transaction.rows).insertionSort before

/-- The first part of a run: the range, and the early return. -/
def startRun (db : Db) : Worker :=
  let (start, endBlock, blockCheckpoint) :=
    Checkpoint.getCheckpoint startBlock db.block_checkpoint .handleTransaction
      jobHandlerCrawlTx.lastHeightJobNames jobHandlerCrawlTx.blocksPerCall
  if jobHandlerCrawlTx.rangeTest.returns start endBlock then .idle
  else .ranged start endBlock blockCheckpoint

/-- The database transaction at the end of a run. -/
def commitRun (db : Db) (endBlock : ℕ) (blockCheckpoint : BlockCheckpoint BullJobName)
    (list : List Transaction) : Db :=
  let (listEventModel, listMsgModel) := insertRelatedTx registry list
  { db with
    event := db.event ++ listEventModel
    transaction_message := db.transaction_message ++ listMsgModel
    block_checkpoint := storeCheckpoint db.block_checkpoint blockCheckpoint endBlock }

/-- What `jobCrawlTx` may commit: transactions with fresh ids, of blocks it had not reached. -/
def CrawlOk (db : Db) (txs : Table Transaction.id) (endBlock : ℕ) : Prop :=
  crawled startBlock db < endBlock ∧
  ∀ tx ∈ txs.rows, crawled startBlock db < tx.height ∧ tx.height ≤ endBlock ∧
    db.transaction.get? tx.id = none

instance (db : Db) (txs : Table Transaction.id) (endBlock : ℕ) :
    Decidable (CrawlOk startBlock db txs endBlock) :=
  inferInstanceAs (Decidable (_ ∧ ∀ tx ∈ txs.rows, _ ∧ _ ∧ _))

/-- The commit of `jobCrawlTx`. -/
def commitCrawl (db : Db) (txs : Table Transaction.id) (endBlock : ℕ) : Db :=
  { db with
    transaction := db.transaction.upsertAll txs.rows
    block_checkpoint :=
      storeCheckpoint db.block_checkpoint ⟨.crawlTransaction, endBlock⟩ endBlock }

/-- The step function; a step that is not enabled changes nothing. -/
def workerStep (s : System) : WorkerStep → System
  | .getCheckpoint w =>
    match s.worker w with
    | .idle => { s with worker := Function.update s.worker w (startRun startBlock s.db) }
    | _ => s
  | .readTransactions w =>
    match s.worker w with
    | .ranged start endBlock blockCheckpoint =>
      { s with
        worker := Function.update s.worker w
          (.fetched start endBlock blockCheckpoint (listTxRaw s.db start endBlock)) }
    | _ => s
  | .commit w =>
    match s.worker w with
    | .fetched _ endBlock blockCheckpoint list =>
      { db := commitRun registry s.db endBlock blockCheckpoint list
        worker := Function.update s.worker w .idle }
    | _ => s
  | .fail w => { s with worker := Function.update s.worker w .idle }
  | .crawlTx txs endBlock =>
    if CrawlOk startBlock s.db txs endBlock then
      { s with db := commitCrawl s.db txs endBlock }
    else s

/-! ## 2. The property -/

/-- The stored events of a transaction. -/
def eventsOf (db : Db) (tx : Transaction) : List Event :=
  db.event.filter fun e => e.tx_id = some tx.id

/-- The stored messages of a transaction. -/
def messagesOf (db : Db) (tx : Transaction) : List TransactionMessage :=
  db.transaction_message.filter fun m => m.tx_id = tx.id

/-- Every transaction up to the checkpoint has its rows exactly once, and no transaction above
it has any. -/
def ExactlyOnce (db : Db) : Prop :=
  ∀ tx ∈ db.transaction.rows,
    PresentIff (tx.height ≤ handled startBlock db) (eventsOf db tx) (eventInsert registry tx) ∧
    PresentIff (tx.height ≤ handled startBlock db) (messagesOf db tx) (msgInsert registry tx)

/-- What the other tables promise: transactions come from crawled blocks, rows reference
stored transactions, and no more is handled than is crawled. -/
structure Db.WellFormed (db : Db) : Prop where
  height_le : ∀ tx ∈ db.transaction.rows, tx.height ≤ crawled startBlock db
  event_tx : ∀ e ∈ db.event, ∀ id ∈ e.tx_id, db.transaction.get? id ≠ none
  message_tx : ∀ m ∈ db.transaction_message, db.transaction.get? m.tx_id ≠ none
  handled_le : handled startBlock db ≤ crawled startBlock db

/-- The condition on a commit: no transaction with rows lies between the `startBlock` that the
worker read and the height that is stored now. It holds when nobody has committed since. -/
def CommitReady (s : System) : WorkerStep → Prop
  | .commit w =>
    ∀ start endBlock blockCheckpoint list,
      s.worker w = .fetched start endBlock blockCheckpoint list →
      ∀ tx ∈ s.db.transaction.rows,
        min start (handled startBlock s.db) < tx.height →
        tx.height ≤ max start (handled startBlock s.db) →
        eventInsert registry tx = [] ∧ msgInsert registry tx = []
  | _ => True

/-! ## 3. What the steps preserve -/

/-- What a worker has read stays true: its range is not empty and lies below the crawled
height, and the transactions it holds are all those of its range. -/
def WorkerOk (db : Db) : Worker → Prop
  | .idle => True
  | .ranged start endBlock blockCheckpoint =>
    blockCheckpoint.job_name = .handleTransaction ∧ start < endBlock ∧
      endBlock ≤ crawled startBlock db
  | .fetched start endBlock blockCheckpoint list =>
    blockCheckpoint.job_name = .handleTransaction ∧ start < endBlock ∧
      endBlock ≤ crawled startBlock db ∧
      list.Perm (between (·.height) start endBlock db.transaction.rows)

/-- The invariant of all runs, whatever the interleaving. -/
structure SystemOk (s : System) : Prop where
  db : s.db.WellFormed startBlock
  worker : ∀ w, WorkerOk startBlock s.db (s.worker w)

namespace WorkersLemmas

variable {registry : ChainRegistry} {startBlock : ℕ}

theorem handled_commitRun {db : Db} {endBlock : ℕ} {row : BlockCheckpoint BullJobName}
    (hrow : row.job_name = .handleTransaction) (list : List Transaction) :
    handled startBlock (commitRun registry db endBlock row list) = endBlock := by
  rw [handled, commitRun, startHeight_storeCheckpoint, if_pos hrow]

theorem crawled_commitRun {db : Db} {endBlock : ℕ} {row : BlockCheckpoint BullJobName}
    (hrow : row.job_name = .handleTransaction) (list : List Transaction) :
    crawled startBlock (commitRun registry db endBlock row list) = crawled startBlock db := by
  rw [crawled, commitRun, startHeight_storeCheckpoint, if_neg (by simp [hrow])]
  rfl

theorem handled_commitCrawl (db : Db) (txs : Table Transaction.id) (endBlock : ℕ) :
    handled startBlock (commitCrawl db txs endBlock) = handled startBlock db := by
  rw [handled, commitCrawl, startHeight_storeCheckpoint, if_neg (by simp)]
  rfl

theorem crawled_commitCrawl (db : Db) (txs : Table Transaction.id) (endBlock : ℕ) :
    crawled startBlock (commitCrawl db txs endBlock) = endBlock := by
  rw [crawled, commitCrawl, startHeight_storeCheckpoint, if_pos rfl]

/-- The transactions after a commit of `jobCrawlTx` are the old and the new ones. -/
theorem mem_commitCrawl {db : Db} {txs : Table Transaction.id} {endBlock : ℕ}
    (hok : CrawlOk startBlock db txs endBlock) {tx : Transaction} :
    tx ∈ (commitCrawl db txs endBlock).transaction.rows ↔
      tx ∈ db.transaction.rows ∨ tx ∈ txs.rows := by
  have hmem : ∀ t : Table Transaction.id, tx ∈ t.rows ↔ t.get? tx.id = some tx := fun t => by
    simp [Table.get?_eq_some_iff]
  have hget : (commitCrawl db txs endBlock).transaction.get? tx.id =
      (txs.get? tx.id).or (db.transaction.get? tx.id) := Table.get?_upsertAll ..
  rw [hmem, hmem, hmem, hget]
  cases htx : txs.get? tx.id with
  | none => simp
  | some x =>
    obtain ⟨hx, hxid⟩ := Table.get?_eq_some_iff.mp htx
    have hfresh := (hok.2 x hx).2.2
    rw [hxid] at hfresh
    simp [hfresh]

theorem get?_commitCrawl_ne_none {db : Db} {txs : Table Transaction.id} {endBlock id : ℕ}
    (h : db.transaction.get? id ≠ none) :
    (commitCrawl db txs endBlock).transaction.get? id ≠ none := by
  have hget : (commitCrawl db txs endBlock).transaction.get? id =
      (txs.get? id).or (db.transaction.get? id) := Table.get?_upsertAll ..
  rw [hget, ne_eq, Option.or_eq_none_iff]
  exact fun hn => h hn.2

/-- The range of a new run ends at or below the crawled height. -/
theorem workerOk_startRun (db : Db) : WorkerOk startBlock db (startRun startBlock db) := by
  have hname := getCheckpoint_job_name startBlock db.block_checkpoint .handleTransaction
    jobHandlerCrawlTx.lastHeightJobNames jobHandlerCrawlTx.blocksPerCall
  unfold startRun
  split
  next start endBlock row hget =>
  rw [hget] at hname
  have hend : endBlock = endHeight start db.block_checkpoint
      jobHandlerCrawlTx.lastHeightJobNames jobHandlerCrawlTx.blocksPerCall := by
    simp only [Checkpoint.getCheckpoint, Prod.mk.injEq] at hget
    rw [← hget.2.1, ← hget.1]
  split
  · trivial
  · next hret =>
    have hlt : start < endBlock := by simpa [jobHandlerCrawlTx, RangeTest.returns] using hret
    refine ⟨hname, hlt, ?_⟩
    cases hc : heightOf db.block_checkpoint .crawlTransaction with
    | some h =>
      rw [crawled, startHeight, hc, hend]
      exact endHeight_le_dependency (by simp [jobHandlerCrawlTx]) hc
    | none =>
      have hzero : endBlock = 0 := by
        rw [hend]
        exact endHeight_eq_zero (by simpa [jobHandlerCrawlTx] using hc)
      omega

/-- A worker keeps what it has read when `jobHandlerCrawlTx` commits elsewhere. -/
theorem workerOk_commitRun {db : Db} {endBlock : ℕ} {row : BlockCheckpoint BullJobName}
    (hrow : row.job_name = .handleTransaction) (list : List Transaction) {w : Worker}
    (hw : WorkerOk startBlock db w) :
    WorkerOk startBlock (commitRun registry db endBlock row list) w := by
  cases w with
  | idle => trivial
  | ranged start stop r =>
    obtain ⟨hr, hlt, hstop⟩ := hw
    exact ⟨hr, hlt, (crawled_commitRun hrow list).symm ▸ hstop⟩
  | fetched start stop r l =>
    obtain ⟨hr, hlt, hstop, hperm⟩ := hw
    exact ⟨hr, hlt, (crawled_commitRun hrow list).symm ▸ hstop, hperm⟩

/-- A worker keeps what it has read when `jobCrawlTx` commits: the new transactions are above
its range. -/
theorem workerOk_commitCrawl {db : Db} {txs : Table Transaction.id} {endBlock : ℕ}
    (hok : CrawlOk startBlock db txs endBlock) {w : Worker} (hw : WorkerOk startBlock db w) :
    WorkerOk startBlock (commitCrawl db txs endBlock) w := by
  have hle := hok.1.le
  cases w with
  | idle => trivial
  | ranged start stop row =>
    obtain ⟨hrow, hlt, hstop⟩ := hw
    exact ⟨hrow, hlt, (crawled_commitCrawl db txs endBlock).symm ▸ hstop.trans hle⟩
  | fetched start stop row list =>
    obtain ⟨hrow, hlt, hstop, hperm⟩ := hw
    refine ⟨hrow, hlt, (crawled_commitCrawl db txs endBlock).symm ▸ hstop.trans hle,
      hperm.trans ?_⟩
    have hnodup : ∀ t : Table Transaction.id, (between (·.height) start stop t.rows).Nodup :=
      fun t => between_sublist.nodup (List.Nodup.of_map _ t.nodup)
    refine (List.perm_ext_iff_of_nodup (hnodup _) (hnodup _)).mpr fun tx => ?_
    simp only [mem_between, mem_commitCrawl hok]
    constructor
    · rintro ⟨hmem, hrange⟩
      exact ⟨Or.inl hmem, hrange⟩
    · rintro ⟨hmem | hmem, hrange⟩
      · exact ⟨hmem, hrange⟩
      · have := (hok.2 tx hmem).1
        omega

theorem wellFormed_commitRun {db : Db} (hdb : db.WellFormed startBlock) {start endBlock : ℕ}
    {row : BlockCheckpoint BullJobName} {list : List Transaction}
    (hw : WorkerOk startBlock db (.fetched start endBlock row list)) :
    (commitRun registry db endBlock row list).WellFormed startBlock := by
  obtain ⟨hrow, -, hend, hperm⟩ := hw
  have hstored : ∀ tx ∈ list, db.transaction.get? tx.id ≠ none := by
    intro tx htx
    have hmem := (mem_between.mp (hperm.mem_iff.mp htx)).1
    rw [Table.get?_eq_some_iff.mpr ⟨hmem, rfl⟩]
    exact Option.some_ne_none tx
  refine ⟨?_, ?_, ?_, ?_⟩
  · rw [crawled_commitRun hrow]
    exact hdb.height_le
  · intro e he id hid
    rcases List.mem_append.mp he with he | he
    · exact hdb.event_tx e he id hid
    · obtain ⟨tx, htx, hetx⟩ := List.mem_flatMap.mp he
      rw [tx_id_of_mem_eventInsert hetx] at hid
      cases hid
      exact hstored tx htx
  · intro m hm
    rcases List.mem_append.mp hm with hm | hm
    · exact hdb.message_tx m hm
    · obtain ⟨tx, htx, hmtx⟩ := List.mem_flatMap.mp hm
      rw [tx_id_of_mem_msgInsert hmtx]
      exact hstored tx htx
  · rw [crawled_commitRun hrow, handled_commitRun hrow]
    exact hend

theorem wellFormed_commitCrawl {db : Db} (hdb : db.WellFormed startBlock)
    {txs : Table Transaction.id} {endBlock : ℕ} (hok : CrawlOk startBlock db txs endBlock) :
    (commitCrawl db txs endBlock).WellFormed startBlock := by
  have hle := hok.1.le
  refine ⟨?_, ?_, ?_, ?_⟩
  · intro tx htx
    rw [crawled_commitCrawl]
    rcases (mem_commitCrawl hok).mp htx with h | h
    · exact (hdb.height_le tx h).trans hle
    · exact (hok.2 tx h).2.1
  · exact fun e he id hid => get?_commitCrawl_ne_none (hdb.event_tx e he id hid)
  · exact fun m hm => get?_commitCrawl_ne_none (hdb.message_tx m hm)
  · rw [handled_commitCrawl, crawled_commitCrawl]
    exact hdb.handled_le.trans hle

theorem workerOk_update {db : Db} {worker : ℕ → Worker} {w : ℕ} {x : Worker}
    (hworker : ∀ v, WorkerOk startBlock db (worker v)) (hx : WorkerOk startBlock db x) :
    ∀ v, WorkerOk startBlock db (Function.update worker w x v) := by
  intro v
  rcases eq_or_ne v w with rfl | hne
  · rwa [Function.update_self]
  · rw [Function.update_of_ne hne]
    exact hworker v

/-- The step lemma of the invariant. -/
theorem systemOk_step (s : System) (a : WorkerStep) (hs : SystemOk startBlock s) :
    SystemOk startBlock (workerStep registry startBlock s a) := by
  obtain ⟨hdb, hworker⟩ := hs
  cases a with
  | getCheckpoint w =>
    cases hw : s.worker w with
    | idle =>
      simp only [workerStep, hw]
      exact ⟨hdb, workerOk_update hworker (workerOk_startRun s.db)⟩
    | ranged _ _ _ => simp only [workerStep, hw]; exact ⟨hdb, hworker⟩
    | fetched _ _ _ _ => simp only [workerStep, hw]; exact ⟨hdb, hworker⟩
  | readTransactions w =>
    have hok := hworker w
    cases hw : s.worker w with
    | idle => simp only [workerStep, hw]; exact ⟨hdb, hworker⟩
    | ranged start endBlock row =>
      simp only [workerStep, hw]
      rw [hw] at hok
      obtain ⟨hrow, hlt, hend⟩ := hok
      exact ⟨hdb, workerOk_update hworker
        ⟨hrow, hlt, hend, List.perm_insertionSort before _⟩⟩
    | fetched _ _ _ _ => simp only [workerStep, hw]; exact ⟨hdb, hworker⟩
  | commit w =>
    have hok := hworker w
    cases hw : s.worker w with
    | idle => simp only [workerStep, hw]; exact ⟨hdb, hworker⟩
    | ranged _ _ _ => simp only [workerStep, hw]; exact ⟨hdb, hworker⟩
    | fetched start endBlock row list =>
      simp only [workerStep, hw]
      rw [hw] at hok
      refine ⟨wellFormed_commitRun hdb hok, workerOk_update (fun v => ?_) trivial⟩
      exact workerOk_commitRun hok.1 list (hworker v)
  | fail w => exact ⟨hdb, workerOk_update hworker trivial⟩
  | crawlTx txs endBlock =>
    simp only [workerStep]
    split
    · next hok =>
      exact ⟨wellFormed_commitCrawl hdb hok, fun v => workerOk_commitCrawl hok (hworker v)⟩
    · exact ⟨hdb, hworker⟩

/-! ### The rows of a transaction after a commit -/

theorem rowsOf_commitRun {db : Db} {start endBlock : ℕ} {row : BlockCheckpoint BullJobName}
    {list : List Transaction} (hw : WorkerOk startBlock db (.fetched start endBlock row list))
    {tx : Transaction} (htx : tx ∈ db.transaction.rows) :
    eventsOf (commitRun registry db endBlock row list) tx = eventsOf db tx ++
        (if start < tx.height ∧ tx.height ≤ endBlock then eventInsert registry tx else []) ∧
    messagesOf (commitRun registry db endBlock row list) tx = messagesOf db tx ++
        (if start < tx.height ∧ tx.height ≤ endBlock then msgInsert registry tx else []) := by
  obtain ⟨-, -, -, hperm⟩ := hw
  have hmem : tx ∈ list ↔ start < tx.height ∧ tx.height ≤ endBlock := by
    rw [hperm.mem_iff, mem_between]
    simp [htx]
  have hnd : (list.map (·.id)).Nodup :=
    ((hperm.map _).nodup_iff).mpr ((between_sublist.map _).nodup db.transaction.nodup)
  have hid : ∀ x ∈ list, x.id = tx.id → x = tx := by
    intro x hx hxid
    have hxdb := (mem_between.mp (hperm.mem_iff.mp hx)).1
    exact List.inj_on_of_nodup_map db.transaction.nodup hxdb htx hxid
  have hevent := @filter_listEventModel registry _ hnd tx hid
  have hmsg := @filter_listMsgModel registry _ hnd tx hid
  simp only [hmem] at hevent hmsg
  simp only [eventsOf, messagesOf, commitRun, List.filter_append, hevent, hmsg, and_self]

/-- A commit keeps `ExactlyOnce` exactly when it is ready. -/
theorem exactlyOnce_commitRun_iff {db : Db} {start endBlock : ℕ}
    {row : BlockCheckpoint BullJobName} {list : List Transaction}
    (hw : WorkerOk startBlock db (.fetched start endBlock row list))
    (honce : ExactlyOnce registry startBlock db) :
    ExactlyOnce registry startBlock (commitRun registry db endBlock row list) ↔
      ∀ tx ∈ db.transaction.rows, min start (handled startBlock db) < tx.height →
        tx.height ≤ max start (handled startBlock db) →
        eventInsert registry tx = [] ∧ msgInsert registry tx = [] := by
  unfold ExactlyOnce
  rw [handled_commitRun hw.1]
  refine forall₂_congr fun tx htx => ?_
  obtain ⟨hevent, hmsg⟩ := @rowsOf_commitRun registry _ _ _ _ _ _ hw tx htx
  rw [hevent, hmsg, presentIff_append_iff hw.2.1 (honce tx htx).1,
    presentIff_append_iff hw.2.1 (honce tx htx).2]
  tauto

/-- New transactions have no rows yet. -/
theorem exactlyOnce_commitCrawl {db : Db} (hdb : db.WellFormed startBlock)
    {txs : Table Transaction.id} {endBlock : ℕ} (hok : CrawlOk startBlock db txs endBlock)
    (honce : ExactlyOnce registry startBlock db) :
    ExactlyOnce registry startBlock (commitCrawl db txs endBlock) := by
  intro tx htx
  rw [handled_commitCrawl]
  rcases (mem_commitCrawl hok).mp htx with h | h
  · exact honce tx h
  · obtain ⟨habove, -, hfresh⟩ := hok.2 tx h
    have hnot : ¬ tx.height ≤ handled startBlock db := by
      have := hdb.handled_le
      omega
    have hevent : eventsOf (commitCrawl db txs endBlock) tx = [] := by
      refine List.filter_eq_nil_iff.mpr fun e he => ?_
      simp only [decide_eq_true_eq]
      exact fun hid => hdb.event_tx e he tx.id hid hfresh
    have hmsg : messagesOf (commitCrawl db txs endBlock) tx = [] := by
      refine List.filter_eq_nil_iff.mpr fun m hm => ?_
      simp only [decide_eq_true_eq]
      exact fun hid => hdb.message_tx m hm (hid ▸ hfresh)
    exact ⟨⟨fun hle => absurd hle hnot, fun _ => hevent⟩,
      ⟨fun hle => absurd hle hnot, fun _ => hmsg⟩⟩

/-- The step lemma of the property. -/
theorem exactlyOnce_step_iff (s : System) (a : WorkerStep) (hs : SystemOk startBlock s)
    (honce : ExactlyOnce registry startBlock s.db) :
    ExactlyOnce registry startBlock (workerStep registry startBlock s a).db ↔
      CommitReady registry startBlock s a := by
  cases a with
  | getCheckpoint w =>
    cases hw : s.worker w <;> simp only [workerStep, hw, CommitReady, iff_true] <;> exact honce
  | readTransactions w =>
    cases hw : s.worker w <;> simp only [workerStep, hw, CommitReady, iff_true] <;> exact honce
  | commit w =>
    have hok := hs.worker w
    cases hw : s.worker w with
    | idle => simpa [workerStep, hw, CommitReady] using honce
    | ranged _ _ _ => simpa [workerStep, hw, CommitReady] using honce
    | fetched start endBlock row list =>
      rw [hw] at hok
      simp only [workerStep, hw, CommitReady, Worker.fetched.injEq]
      rw [exactlyOnce_commitRun_iff hok honce]
      constructor
      · rintro h _ _ _ _ ⟨rfl, rfl, rfl, rfl⟩
        exact h
      · exact fun h => h start endBlock row list ⟨rfl, rfl, rfl, rfl⟩
  | fail w => simpa [workerStep, CommitReady] using honce
  | crawlTx txs endBlock =>
    simp only [CommitReady, iff_true, workerStep]
    split
    · next hok => exact exactlyOnce_commitCrawl hs.db hok honce
    · exact honce

end WorkersLemmas

open WorkersLemmas

/-- Exactly once under concurrent workers: from a well-formed database with all workers idle,
the property holds in every state of a run if and only if every commit of the run is ready. -/
theorem exactly_once_iff (db : Db) (hdb : db.WellFormed startBlock)
    (hinit : ExactlyOnce registry startBlock db) (steps : List WorkerStep) :
    (∀ p, p <+: steps → ExactlyOnce registry startBlock
      (runFrom (workerStep registry startBlock) ⟨db, fun _ => .idle⟩ p).db) ↔
    Meets (workerStep registry startBlock) (CommitReady registry startBlock)
      ⟨db, fun _ => .idle⟩ steps :=
  forall_prefix_iff_meets (P := fun s => ExactlyOnce registry startBlock s.db)
    (s := ⟨db, fun _ => .idle⟩) systemOk_step exactlyOnce_step_iff ⟨hdb, fun _ => trivial⟩ hinit

end

/-! ## 4. Two runs -/

section
/-- A node of a recent SDK version: attributes are plain text. -/
def plainRegistry : ChainRegistry := ⟨id, id⟩

/-- A transaction with one message. -/
def oneMessageTx : Transaction :=
  { id := 1, height := 4860001, index := 0
    data := { events := [], logs := some [], messages := [⟨"/cosmos.bank.v1beta1.MsgSend", "{}"⟩] } }

/-- One crawled transaction that nobody has handled yet. -/
def oneTxDb : Db where
  transaction := ⟨[oneMessageTx], by decide⟩
  event := []
  transaction_message := []
  block_checkpoint := ⟨[⟨.crawlTransaction, 4860050⟩], by decide⟩

/-- One worker after the other. -/
def inTurn : List WorkerStep :=
  [.getCheckpoint 0, .readTransactions 0, .commit 0, .getCheckpoint 1, .readTransactions 1, .commit 1]

/-- Two workers that read the same range before either of them commits. -/
def sameRange : List WorkerStep :=
  [.getCheckpoint 0, .getCheckpoint 1, .readTransactions 0, .readTransactions 1, .commit 0,
    .commit 1]

theorem wellFormed_oneTxDb : oneTxDb.WellFormed 4860000 :=
  ⟨by decide, by simp [oneTxDb], by simp [oneTxDb], by decide⟩

theorem exactlyOnce_oneTxDb : ExactlyOnce plainRegistry 4860000 oneTxDb := by
  intro tx htx
  obtain rfl : tx = oneMessageTx := by simpa [oneTxDb] using htx
  have habove : ¬ oneMessageTx.height ≤ handled 4860000 oneTxDb := by decide
  exact ⟨⟨fun h => absurd h habove, fun _ => rfl⟩, ⟨fun h => absurd h habove, fun _ => rfl⟩⟩

/-- Workers that take turns: every commit is ready, and the property holds throughout. -/
theorem exactly_once_in_turn :
    oneTxDb.WellFormed 4860000 ∧ ExactlyOnce plainRegistry 4860000 oneTxDb ∧
    ∀ p, p <+: inTurn → ExactlyOnce plainRegistry 4860000
      (runFrom (workerStep plainRegistry 4860000) ⟨oneTxDb, fun _ => .idle⟩ p).db := by
  refine ⟨wellFormed_oneTxDb, exactlyOnce_oneTxDb,
    (exactly_once_iff _ _ oneTxDb wellFormed_oneTxDb exactlyOnce_oneTxDb inTurn).mpr
      ⟨trivial, trivial, ?_, trivial, trivial, ?_, trivial⟩⟩
  · intro start endBlock row list hw tx htx hlo hhi
    obtain rfl : start = 4860000 := by cases hw; rfl
    have hstored : handled 4860000 (runFrom (workerStep plainRegistry 4860000)
        ⟨oneTxDb, fun _ => .idle⟩ [.getCheckpoint 0, .readTransactions 0]).db = 4860000 := by decide
    have := hlo.trans_le hhi
    simp only [runFrom_cons, runFrom_nil] at hstored
    omega
  · -- the second worker finds an empty range and returns
    intro start endBlock row list hw
    cases hw

/-- The property fails in general: both workers insert the message of the transaction. -/
theorem rows_inserted_twice :
    oneTxDb.WellFormed 4860000 ∧ ExactlyOnce plainRegistry 4860000 oneTxDb ∧
    ¬ ExactlyOnce plainRegistry 4860000
      (runFrom (workerStep plainRegistry 4860000) ⟨oneTxDb, fun _ => .idle⟩ sameRange).db := by
  refine ⟨wellFormed_oneTxDb, exactlyOnce_oneTxDb, fun h => ?_⟩
  have hperm := (h oneMessageTx (by decide)).2.1 (by decide)
  exact absurd hperm.length_eq (by decide)

end

end Erascope.CrawlTx
