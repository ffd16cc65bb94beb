import Mathlib.Tactic
import Erascope.Lib.Rows
import Erascope.Checkpoint.Pipeline

/-!
# Messages and their sub-messages

The table `transaction_message` as `HANDLE_TRANSACTION` and `HANDLE_AUTHZ_TX` fill it. The
first inserts the messages of a transaction with their index; the second
(`services/crawl-tx/handle_authz_tx.service.ts`) inserts the messages inside every
`MsgExec`, with their own index, the id of the `MsgExec` as `parent_id` and the same
transaction. Ids come from the sequence of the table, so a row that is inserted later has a
higher id.

* `Messages`: the table with its sequence; the order of the ids is a field.
* `Messages.insert`: an insertion gives the next ids in order.
* `handleAuthz`: one run of `HANDLE_AUTHZ_TX`.
-/

namespace Erascope.Authz

open Checkpoint

/-! ## 1. Rows -/

/-- What the jobs read of the content of a message: its `@type` and, for a `MsgExec`, `msgs`. -/
class MessageContent (C : Type) where
  type : C → String
  msgs : C → List C

/-- A message before it has an id. -/
structure NewMessage (C : Type) where
  tx_id : ℕ
  index : ℕ
  type : String
  content : C
  parent_id : Option ℕ
  sender : String

/-- A row of `transaction_message`. -/
structure TransactionMessage (C : Type) extends NewMessage C where
  id : ℕ

/-- A row of `transaction`. -/
structure Transaction where
  id : ℕ
  height : ℕ
  hash : String
deriving DecidableEq, Repr

/-- The table `transaction_message` with the sequence of its ids. -/
structure Messages (C : Type) where
  rows : List (TransactionMessage C)
  nextId : ℕ
  id_lt : ∀ m ∈ rows, m.id < nextId
  sorted : rows.Pairwise fun a b => a.id < b.id

section
variable {C : Type}

/-- The rows of `new` with the ids `n, n + 1, ...` -/
def withIds : ℕ → List (NewMessage C) → List (TransactionMessage C)
  | _, [] => []
  | n, m :: ms => { m with id := n } :: withIds (n + 1) ms

theorem id_of_mem_withIds {n : ℕ} {new : List (NewMessage C)} {m : TransactionMessage C}
    (h : m ∈ withIds n new) : n ≤ m.id ∧ m.id < n + new.length := by
  induction new generalizing n with
  | nil => cases h
  | cons x xs ih =>
    rcases List.mem_cons.mp h with rfl | h
    · simp
    · have := ih h
      simp only [List.length_cons]
      omega

theorem sorted_withIds (n : ℕ) (new : List (NewMessage C)) :
    (withIds n new).Pairwise fun a b => a.id < b.id := by
  induction new generalizing n with
  | nil => exact List.Pairwise.nil
  | cons x xs ih =>
    refine List.pairwise_cons.mpr ⟨fun m hm => ?_, ih (n + 1)⟩
    exact (id_of_mem_withIds hm).1

/-- Numbering keeps the rest of each row. -/
theorem map_withIds (n : ℕ) (new : List (NewMessage C)) :
    (withIds n new).map (·.toNewMessage) = new := by
  induction new generalizing n with
  | nil => rfl
  | cons x xs ih => rw [withIds, List.map_cons, ih]

theorem mem_of_mem_withIds {n : ℕ} {new : List (NewMessage C)} {m : TransactionMessage C}
    (h : m ∈ withIds n new) : m.toNewMessage ∈ new := by
  rw [← map_withIds n new]
  exact List.mem_map_of_mem h

/-- The table without rows. -/
def Messages.empty : Messages C := ⟨[], 1, by simp, List.Pairwise.nil⟩

/-- `TransactionMessage.query().insert(new)` -/
def Messages.insert (t : Messages C) (new : List (NewMessage C)) : Messages C where
  rows := t.rows ++ withIds t.nextId new
  nextId := t.nextId + new.length
  id_lt := by
    intro m hm
    rcases List.mem_append.mp hm with hm | hm
    · have := t.id_lt m hm
      omega
    · exact (id_of_mem_withIds hm).2
  sorted := by
    refine List.pairwise_append.mpr ⟨t.sorted, sorted_withIds _ _, fun a ha b hb => ?_⟩
    exact lt_of_lt_of_le (t.id_lt a ha) (id_of_mem_withIds hb).1

@[simp] theorem Messages.rows_insert (t : Messages C) (new : List (NewMessage C)) :
    (t.insert new).rows = t.rows ++ withIds t.nextId new := rfl

/-- The id determines the row. -/
theorem Messages.eq_of_id_eq {t : Messages C} {a b : TransactionMessage C} (ha : a ∈ t.rows)
    (hb : b ∈ t.rows) (h : a.id = b.id) : a = b := by
  have hnd : (t.rows.map (·.id)).Nodup := List.pairwise_map.mpr (t.sorted.imp fun h => ne_of_lt h)
  exact List.inj_on_of_nodup_map hnd ha hb h

/-! ## 2. `HANDLE_AUTHZ_TX` -/

/-- `MSG_TYPE.MSG_AUTHZ_EXEC` -/
def msgAuthzExec : String := "/cosmos.authz.v1beta1.MsgExec"

variable [MessageContent C]

/-- The sub-messages of a `MsgExec`. -/
def subMessages (txMsg : TransactionMessage C) : List (NewMessage C) :=
  (MessageContent.msgs txMsg.content).mapIdx fun index msg =>
    { tx_id := txMsg.tx_id
      index := index
      type := MessageContent.type msg
      content := msg
      parent_id := some txMsg.id
      sender := txMsg.sender }

/-- The height that `joinRelated('transaction')` finds for a message. -/
def heightOfMessage (transaction : Table Transaction.id) (txMsg : TransactionMessage C) : Option ℕ :=
  (transaction.get? txMsg.tx_id).map (·.height)

/-- The query of `handleJob`: the `MsgExec` of a range that are no sub-messages themselves. -/
def listTxMsgs (transaction : Table Transaction.id) (t : Messages C) (startBlock endBlock : ℕ) :
    List (TransactionMessage C) :=
  t.rows.filter fun m =>
    decide (∃ h ∈ heightOfMessage transaction m, startBlock < h ∧ h ≤ endBlock) &&
      decide (m.type = msgAuthzExec) && decide (m.parent_id = none)

/-- `listSubTxAuthz` -/
def listSubTxAuthz (transaction : Table Transaction.id) (t : Messages C)
    (startBlock endBlock : ℕ) : List (NewMessage C) :=
  (listTxMsgs transaction t startBlock endBlock).flatMap subMessages

/-- `handleJob`: the sub-messages of the range and the checkpoint, in one transaction. -/
def handleAuthz (start : ℕ) (transaction : Table Transaction.id) (t : Messages C)
    (checkpoints : Checkpoints BullJobName) : Messages C × Checkpoints BullJobName :=
  let (startBlock, endBlock, blockCheckpoint) :=
    getCheckpoint start checkpoints .handleAuthzTx handleAuthzTx.lastHeightJobNames
      handleAuthzTx.blocksPerCall
  if handleAuthzTx.rangeTest.returns startBlock endBlock then (t, checkpoints)
  else
    (t.insert (listSubTxAuthz transaction t startBlock endBlock),
      storeCheckpoint checkpoints blockCheckpoint endBlock)

theorem parent_of_mem_subMessages {txMsg : TransactionMessage C} {m : NewMessage C}
    (h : m ∈ subMessages txMsg) : m.parent_id = some txMsg.id ∧ m.tx_id = txMsg.tx_id := by
  simp only [subMessages, List.mem_mapIdx] at h
  obtain ⟨i, hi, rfl⟩ := h
  exact ⟨rfl, rfl⟩

/-- A sub-message belongs to the transaction of a stored message. -/
theorem of_mem_listSubTxAuthz {transaction : Table Transaction.id} {t : Messages C}
    {startBlock endBlock : ℕ} {m : NewMessage C}
    (h : m ∈ listSubTxAuthz transaction t startBlock endBlock) :
    ∃ p ∈ t.rows, m.parent_id = some p.id ∧ m.tx_id = p.tx_id := by
  obtain ⟨p, hp, hm⟩ := List.mem_flatMap.mp h
  exact ⟨p, List.mem_of_mem_filter hp, parent_of_mem_subMessages hm⟩

/-- A run adds sub-messages only, and writes no checkpoint but its own. -/
theorem handleAuthz_spec (start : ℕ) (transaction : Table Transaction.id) (t : Messages C)
    (checkpoints : Checkpoints BullJobName) :
    ∃ new : List (NewMessage C), (handleAuthz start transaction t checkpoints).1 = t.insert new ∧
      (∀ m ∈ new, ∃ p ∈ t.rows, m.parent_id = some p.id ∧ m.tx_id = p.tx_id) ∧
      ∀ j, j ≠ .handleAuthzTx →
        heightOf (handleAuthz start transaction t checkpoints).2 j = heightOf checkpoints j := by
  have hname := getCheckpoint_job_name start checkpoints .handleAuthzTx
    handleAuthzTx.lastHeightJobNames handleAuthzTx.blocksPerCall
  simp only [handleAuthz]
  split
  · refine ⟨[], ?_, by simp, fun _ _ => rfl⟩
    simp [Messages.insert, withIds]
  · refine ⟨_, rfl, fun m hm => of_mem_listSubTxAuthz hm, fun j hj => ?_⟩
    rw [storeCheckpoint, heightOf_upsert, if_neg]
    intro h
    exact hj (h.symm.trans hname)

end

end Erascope.Authz
