import Mathlib.Tactic
import Erascope.Lib.Rows
import Erascope.Lib.Table

/-!
# Decoding transactions again

The job `redecodeTxByType` (`services/job/redecode_tx.service.ts`) decodes the raw bytes of every
transaction that has a message of a type, and patches `transaction_message.content`. A page of
transactions is read without an order, and the next page begins behind the id of the last row of
this one. A message is patched by transaction and index, which a sub-message of `MsgExec`, stored
with a `parent_id` and an index of its own, shares with a message of the transaction.

* `redecodeTxByType`: the loop, for any answers to its query.
* `Law`: the messages of the transactions are decoded again, and nothing else is touched.

Result: `redecode_iff`, the tables for which the law holds whatever the query answers.
-/

namespace Erascope.Redecode

/-! ## 1. The tables -/

/-- `transaction.data`, as far as the job reads it. -/
structure Data (C : Type) where
  linkS3 : Option String
  /-- `tx_response.tx` -/
  tx : Option String
  /-- `tx.body.messages`; absent without a `tx.body` -/
  messages : Option (List C)

/-- A row of `transaction`, with the columns that the job does not read as one. -/
structure Transaction (C K : Type) where
  id : ℕ
  /-- the column is a `SERIAL` -/
  id_pos : 0 < id
  data : Option (Data C)
  columns : K

/-- A row of `transaction_message`. -/
structure TransactionMessage (C K : Type) where
  tx_id : ℕ
  index : ℕ
  type : String
  parent_id : Option ℕ
  content : C
  columns : K

structure Db (C K : Type) where
  transactions : Table (Transaction.id (C := C) (K := K))
  messages : List (TransactionMessage C K)

/-- What the job calls: the file of a link, `decodeTxRaw(fromBase64(..)).body.messages`, and the
chain registry with the keys in camel case. `none` stands for an error. -/
structure Env (C Any : Type) where
  fetch : String → Option (Data C)
  decodeTxRaw : String → Option (List Any)
  decodeMsg : Any → Option C

section
variable {C K Any : Type}

/-! ## 2. The job -/

/-- The transactions above `currentId` with a message of the type. -/
def matching (type : String) (currentId : ℕ) (db : Db C K) : List (Transaction C K) :=
  db.transactions.rows.filter fun tx =>
    decide (currentId < tx.id) && db.messages.any fun m => m.tx_id = tx.id ∧ m.type = type

/-- `tx.data`, from S3 when it has a link. -/
def loadData (env : Env C Any) (tx : Transaction C K) : Option (Data C) := do
  let data ← tx.data
  match truthy data.linkS3 with
  | none => some data
  | some link => env.fetch link

/-- `messages` of a transaction; the messages of `tx.body` must be there to be overwritten. -/
def decodeTx (env : Env C Any) (tx : Transaction C K) : Option (List C) := do
  let data ← loadData env tx
  let raw ← data.tx
  let messages ← (← env.decodeTxRaw raw).mapM env.decodeMsg
  let _ ← data.messages
  return messages

/-- `Transaction.query().patch({ data: tx.data }).where({ id: tx.id }).transacting(trx)`; with a link
the file is uploaded instead. -/
def patchTx (tx : Transaction C K) (messages : List C)
    (trx : Table (Transaction.id (C := C) (K := K))) : Table (Transaction.id (C := C) (K := K)) :=
  match tx.data with
  | none => trx
  | some data =>
    match truthy data.linkS3 with
    | some _ => trx
    | none =>
      trx.mapRows (fun row =>
        if row.id = tx.id then
          { row with data := some { data with messages := some messages } }
        else row) fun row => by split <;> rfl

/-- `TransactionMessage.query().patch({ content: msg }).where({ tx_id: tx.id, index })` -/
def patchContent (tx_id index : ℕ) (msg : C) (rows : List (TransactionMessage C K)) :
    List (TransactionMessage C K) :=
  rows.map fun m => if m.tx_id = tx_id ∧ m.index = index then { m with content := msg } else m

/-- The patches of the messages of a transaction. -/
def patchMessages (tx_id : ℕ) (messages : List C) (rows : List (TransactionMessage C K)) :
    List (TransactionMessage C K) :=
  messages.zipIdx.foldl (fun rows x => patchContent tx_id x.2 x.1 rows) rows

/-- The job at work. `db` is what other connections see: the query runs there, and the patches of
messages are not part of the transaction. `trx` is the table `transaction` in the transaction. -/
structure Work (C K : Type) where
  db : Db C K
  trx : Table (Transaction.id (C := C) (K := K))

/-- The patches of a transaction and its messages. -/
def patchDecoded (w : Work C K) (decoded : Transaction C K × List C) : Work C K where
  db := { w.db with messages := patchMessages decoded.1.id decoded.2 w.db.messages }
  trx := patchTx decoded.1 decoded.2 w.trx

/-- A page: all of it is decoded before anything is patched. -/
def redecodePage (env : Env C Any) (txOnDB : List (Transaction C K)) (w : Work C K) :
    Option (Work C K) := do
  let decoded ← txOnDB.mapM fun tx => (decodeTx env tx).map fun messages => (tx, messages)
  return decoded.foldl patchDecoded w

/-- The loop of `redecodeTxByType`, as far as `fuel` pages get. `answer` is the order in which the
database returns the rows of the `i`-th query. After an error the transaction is rolled back. -/
def redecodeLoop (env : Env C Any) (type : String) (limit : ℕ)
    (answer : ℕ → List (Transaction C K) → List (Transaction C K)) :
    ℕ → ℕ → ℕ → Work C K → Except (Db C K) (Option (Db C K))
  | 0, _, _, _ => .ok none
  | fuel + 1, i, currentId, w =>
    let txOnDB := (answer i (matching type currentId w.db)).take limit
    match txOnDB.getLast? with
    | none => .ok (some { w.db with transactions := w.trx })
    | some last =>
      match redecodePage env txOnDB w with
      | none => .error w.db
      | some w => redecodeLoop env type limit answer fuel (i + 1) last.id w

/-- `redecodeTxByType` -/
def redecodeTxByType (env : Env C Any) (type : String) (limit : ℕ)
    (answer : ℕ → List (Transaction C K) → List (Transaction C K)) (fuel : ℕ) (db : Db C K) :
    Except (Db C K) (Option (Db C K)) :=
  redecodeLoop env type limit answer fuel 0 0 ⟨db, db.transactions⟩

/-! ## 3. The law -/

/-- The message as the decoding of its transaction has it at its index. -/
def redecoded (env : Env C Any) (db : Db C K) (m : TransactionMessage C K) :
    TransactionMessage C K :=
  match (db.transactions.get? m.tx_id).bind (decodeTx env) with
  | none => m
  | some messages => { m with content := messages[m.index]?.getD m.content }

/-- The transaction has a message of the type. -/
def Matches (type : String) (db : Db C K) (tx_id : ℕ) : Prop :=
  ∃ tx ∈ db.transactions.rows, tx.id = tx_id ∧ ∃ m ∈ db.messages, m.tx_id = tx_id ∧ m.type = type

/-- A transaction without the messages in its `data`. -/
def Transaction.frame (tx : Transaction C K) : Transaction C K :=
  { tx with data := tx.data.map fun data => { data with messages := none } }

open Classical in
/-- What the job is for: the messages of the transactions with a message of the type are decoded
again. The other rows of `transaction_message` stay, and so does all of `transaction` but the
messages that `data` repeats. -/
def Law (env : Env C Any) (type : String) (db db' : Db C K) : Prop :=
  db'.messages = db.messages.map (fun m =>
      if m.parent_id = none ∧ Matches type db m.tx_id then redecoded env db m else m) ∧
    db'.transactions.rows.map Transaction.frame = db.transactions.rows.map Transaction.frame ∧
    ∀ tx ∈ db.transactions.rows, ¬ Matches type db tx.id → tx ∈ db'.transactions.rows

/-- An order for every query. -/
def Orders (answer : ℕ → List (Transaction C K) → List (Transaction C K)) : Prop :=
  ∀ i rows, (answer i rows).Perm rows

/-- Whatever its queries answer, the job ends, and has done what it is for. -/
def Redecodes (env : Env C Any) (type : String) (limit : ℕ) (db : Db C K) : Prop :=
  ∀ answer, Orders answer → ∃ fuel db',
    redecodeTxByType env type limit answer fuel db = .ok (some db') ∧ Law env type db db'

/-- The tables on which the job does what it is for: what it decodes can be decoded, each
sub-message it meets is at an index without a message or equals it already, and a transaction that
it may leave out is decoded already. -/
structure Decodes (env : Env C Any) (type : String) (limit : ℕ) (db : Db C K) : Prop where
  decodable : ∀ tx ∈ db.transactions.rows, Matches type db tx.id → decodeTx env tx ≠ none
  subMessages : ∀ m ∈ db.messages, Matches type db m.tx_id → m.parent_id ≠ none →
    redecoded env db m = m
  reached : (matching type 0 db).length ≤ limit ∨
    ∀ m ∈ db.messages, Matches type db m.tx_id → m.parent_id = none →
      (∃ last, Matches type db last ∧ m.tx_id < last) → redecoded env db m = m

/-! ## 4. A page -/

namespace RedecodeLemmas

variable {env : Env C Any} {type : String} {limit : ℕ} {db : Db C K}
  {answer : ℕ → List (Transaction C K) → List (Transaction C K)}

/-- The patches of the messages of a transaction, in one go. -/
theorem foldl_patchContent (tx_id k : ℕ) (messages : List C)
    (rows : List (TransactionMessage C K)) :
    (messages.zipIdx k).foldl (fun rows x => patchContent tx_id x.2 x.1 rows) rows =
      rows.map fun m => if m.tx_id = tx_id ∧ k ≤ m.index then
        { m with content := messages[m.index - k]?.getD m.content } else m := by
  induction messages generalizing k rows with
  | nil =>
    simp only [List.zipIdx_nil, List.foldl_nil, List.getElem?_nil, Option.getD_none, ite_self]
    exact (List.map_id' rows).symm
  | cons msg messages ih =>
    rw [List.zipIdx_cons, List.foldl_cons, ih, patchContent, List.map_map]
    refine List.map_congr_left fun m _ => ?_
    obtain ⟨tx_id', index, type, parent_id, content, columns⟩ := m
    simp only [Function.comp_apply]
    rcases Nat.lt_trichotomy index k with hlt | rfl | hgt
    · rw [if_neg (by omega : ¬ (tx_id' = tx_id ∧ index = k))]
      simp only [show ¬ k ≤ index by omega, show ¬ k + 1 ≤ index by omega, and_false, if_false]
    · by_cases htx : tx_id' = tx_id
      · simp [htx]
      · simp [htx]
    · rw [if_neg (by omega : ¬ (tx_id' = tx_id ∧ index = k))]
      simp only [show k ≤ index by omega, show k + 1 ≤ index by omega, and_true]
      rw [show index - k = (index - (k + 1)) + 1 by omega, List.getElem?_cons_succ]

theorem patchMessages_eq (tx_id : ℕ) (messages : List C) (rows : List (TransactionMessage C K)) :
    patchMessages tx_id messages rows = rows.map fun m => if m.tx_id = tx_id then
      { m with content := messages[m.index]?.getD m.content } else m := by
  rw [patchMessages, foldl_patchContent]
  simp

/-- A row of `transaction` after the job has met it. -/
def patched (env : Env C Any) (tx : Transaction C K) : Transaction C K :=
  match decodeTx env tx, tx.data with
  | some messages, some data =>
    if (truthy data.linkS3).isSome then tx
    else { tx with data := some { data with messages := some messages } }
  | _, _ => tx

theorem patched_id (tx : Transaction C K) : (patched env tx).id = tx.id := by
  unfold patched
  split
  · split <;> rfl
  · rfl

/-- The job at work after it has met the transactions `ids`. -/
def visited (env : Env C Any) (db : Db C K) (ids : List ℕ) : Work C K where
  db :=
    { db with messages := db.messages.map fun m => if m.tx_id ∈ ids then redecoded env db m else m }
  trx := db.transactions.mapRows
    (fun tx => if tx.id ∈ ids then patched env tx else tx) fun tx => by
      split
      · exact patched_id tx
      · rfl

theorem work_ext {w w' : Work C K} (hdb : w.db.transactions = w'.db.transactions)
    (hmessages : w.db.messages = w'.db.messages) (htrx : w.trx.rows = w'.trx.rows) : w = w' := by
  obtain ⟨⟨t, ms⟩, ⟨rows, hnodup⟩⟩ := w
  obtain ⟨⟨t', ms'⟩, ⟨rows', hnodup'⟩⟩ := w'
  obtain rfl : t = t' := hdb
  obtain rfl : ms = ms' := hmessages
  obtain rfl : rows = rows' := htrx
  rfl

theorem visited_nil : visited env db [] = ⟨db, db.transactions⟩ := by
  refine work_ext rfl ?_ ?_
  · show db.messages.map (fun m => if m.tx_id ∈ [] then redecoded env db m else m) = db.messages
    simp
  · show db.transactions.rows.map (fun tx => if tx.id ∈ [] then patched env tx else tx) = _
    simp

theorem eq_of_id {tx tx' : Transaction C K} (h : tx ∈ db.transactions.rows)
    (h' : tx' ∈ db.transactions.rows) (hid : tx.id = tx'.id) : tx = tx' := by
  have hget := Table.get?_eq_some_iff.mpr ⟨h, hid⟩
  rw [Table.get?_eq_some_iff.mpr ⟨h', rfl⟩] at hget
  exact (Option.some.inj hget).symm

theorem redecoded_eq {tx : Transaction C K} {messages : List C} (htx : tx ∈ db.transactions.rows)
    (hdecode : decodeTx env tx = some messages) {m : TransactionMessage C K}
    (hm : m.tx_id = tx.id) :
    redecoded env db m = { m with content := messages[m.index]?.getD m.content } := by
  rw [redecoded, hm, Table.get?_eq_some_iff.mpr ⟨htx, rfl⟩, Option.bind_some, hdecode]

theorem map_eq_self {α : Type} {f : α → α} {l : List α} (h : ∀ a ∈ l, f a = a) : l.map f = l :=
  (List.map_congr_left h).trans (List.map_id' l)

theorem patchTx_rows {tx : Transaction C K} {messages : List C}
    {trx : Table (Transaction.id (C := C) (K := K))}
    (hdecode : decodeTx env tx = some messages)
    (hsame : ∀ row ∈ trx.rows, row.id = tx.id → row = tx ∨ row = patched env tx) :
    (patchTx tx messages trx).rows =
      trx.rows.map fun row => if row.id = tx.id then patched env tx else row := by
  obtain ⟨data, hdata⟩ : ∃ data, tx.data = some data := by
    cases hd : tx.data with
    | none => simp [decodeTx, loadData, hd] at hdecode
    | some data => exact ⟨data, rfl⟩
  unfold patchTx
  simp only [hdata]
  cases hlink : truthy data.linkS3 with
  | some link =>
    have hself : patched env tx = tx := by simp [patched, hdecode, hdata, hlink]
    rw [hself]
    refine (map_eq_self fun row hrow => ?_).symm
    split
    case isTrue hid =>
      rcases hsame row hrow hid with heq | heq
      · exact heq.symm
      · exact hself.symm.trans heq.symm
    case isFalse => rfl
  | none =>
    have hnew : patched env tx =
        { tx with data := some { data with messages := some messages } } := by
      simp [patched, hdecode, hdata, hlink]
    refine List.map_congr_left fun row hrow => ?_
    split
    case isTrue hid => rcases hsame row hrow hid with rfl | rfl <;> rw [hnew]
    case isFalse => rfl

/-- A transaction more that the job has met. -/
theorem patchDecoded_visited {ids : List ℕ} {tx : Transaction C K} {messages : List C}
    (htx : tx ∈ db.transactions.rows) (hdecode : decodeTx env tx = some messages) :
    patchDecoded (visited env db ids) (tx, messages) = visited env db (ids ++ [tx.id]) := by
  refine work_ext rfl ?_ ?_
  · show patchMessages tx.id messages
        (db.messages.map fun m => if m.tx_id ∈ ids then redecoded env db m else m) =
      db.messages.map fun m => if m.tx_id ∈ ids ++ [tx.id] then redecoded env db m else m
    rw [patchMessages_eq, List.map_map]
    refine List.map_congr_left fun m _ => ?_
    have htx_id : (redecoded env db m).tx_id = m.tx_id ∧
        (redecoded env db m).index = m.index := by
      unfold redecoded
      split <;> exact ⟨rfl, rfl⟩
    simp only [Function.comp_apply, List.mem_append, List.mem_singleton]
    by_cases hm : m.tx_id = tx.id
    · have hnew := redecoded_eq htx hdecode hm
      by_cases hids : m.tx_id ∈ ids
      · rw [if_pos hids, if_pos (htx_id.1.trans hm), if_pos (.inl hids), hnew]
        simp only
        cases messages[m.index]? <;> rfl
      · rw [if_neg hids, if_pos hm, if_pos (.inr hm), hnew]
    · by_cases hids : m.tx_id ∈ ids
      · rw [if_pos hids, if_neg (fun h => hm (htx_id.1.symm.trans h)), if_pos (.inl hids)]
      · rw [if_neg hids, if_neg hm, if_neg (by simp [hids, hm])]
  · show (patchTx tx messages (visited env db ids).trx).rows =
      db.transactions.rows.map fun row => if row.id ∈ ids ++ [tx.id] then patched env row else row
    have hrows : (visited env db ids).trx.rows =
        db.transactions.rows.map fun row => if row.id ∈ ids then patched env row else row := rfl
    rw [patchTx_rows hdecode, hrows, List.map_map]
    · refine List.map_congr_left fun row hrow => ?_
      simp only [Function.comp_apply, List.mem_append, List.mem_singleton]
      by_cases hid : row.id = tx.id
      · obtain rfl := eq_of_id hrow htx hid
        have hid' : (if row.id ∈ ids then patched env row else row).id = row.id := by
          split
          · exact patched_id row
          · rfl
        rw [if_pos hid', if_pos (.inr rfl)]
      · by_cases hids : row.id ∈ ids
        · rw [if_pos hids, if_neg (by rwa [patched_id]), if_pos (.inl hids)]
        · rw [if_neg hids, if_neg hid, if_neg (by simp [hids, hid])]
    · intro row hrow hid
      rw [hrows] at hrow
      obtain ⟨row', hrow', rfl⟩ := List.mem_map.mp hrow
      split at hid
      case isTrue hids =>
        rw [patched_id] at hid
        obtain rfl := eq_of_id hrow' htx hid
        exact .inr (if_pos hids)
      case isFalse hids =>
        obtain rfl := eq_of_id hrow' htx hid
        exact .inl (if_neg hids)

theorem mapM_decodeTx {page : List (Transaction C K)}
    (hpage : ∀ tx ∈ page, decodeTx env tx ≠ none) :
    (page.mapM fun tx => (decodeTx env tx).map fun messages => (tx, messages)) =
      some (page.map fun tx => (tx, (decodeTx env tx).getD [])) := by
  induction page with
  | nil => rfl
  | cons tx page ih =>
    obtain ⟨messages, hm⟩ := Option.ne_none_iff_exists'.mp (hpage tx List.mem_cons_self)
    rw [List.mapM_cons, ih fun tx htx => hpage tx (List.mem_cons_of_mem _ htx), hm]
    simp [hm]

theorem redecodePage_visited {ids : List ℕ} {page : List (Transaction C K)}
    (hpage : ∀ tx ∈ page, tx ∈ db.transactions.rows ∧ decodeTx env tx ≠ none) :
    redecodePage env page (visited env db ids) =
      some (visited env db (ids ++ page.map Transaction.id)) := by
  rw [redecodePage, mapM_decodeTx fun tx htx => (hpage tx htx).2]
  show some ((page.map fun tx => (tx, (decodeTx env tx).getD [])).foldl patchDecoded
    (visited env db ids)) = _
  congr 1
  induction page generalizing ids with
  | nil => simp
  | cons tx page ih =>
    obtain ⟨hrow, hdecode⟩ := hpage tx List.mem_cons_self
    obtain ⟨messages, hm⟩ := Option.ne_none_iff_exists'.mp hdecode
    have hstep := @patchDecoded_visited C K Any env db ids tx messages hrow hm
    rw [List.map_cons, List.foldl_cons, hm, Option.getD_some, hstep,
      ih fun tx htx => hpage tx (List.mem_cons_of_mem _ htx), List.append_assoc]
    rfl

theorem redecodePage_none {w : Work C K} {page : List (Transaction C K)} {tx : Transaction C K}
    (htx : tx ∈ page) (hdecode : decodeTx env tx = none) : redecodePage env page w = none := by
  have hnone : (page.mapM fun tx => (decodeTx env tx).map fun messages => (tx, messages)) =
      none := by
    induction page with
    | nil => cases htx
    | cons tx' page ih =>
      rw [List.mapM_cons]
      rcases List.mem_cons.mp htx with rfl | htx
      · rw [hdecode]
        rfl
      · rw [ih htx]
        cases decodeTx env tx' <;> rfl
  rw [redecodePage, hnone]
  rfl

/-! ## 5. The loop -/

theorem matching_visited (ids : List ℕ) (currentId : ℕ) :
    matching type currentId (visited env db ids).db = matching type currentId db := by
  refine List.filter_congr fun tx _ => ?_
  congr 1
  show (db.messages.map fun m => if m.tx_id ∈ ids then redecoded env db m else m).any _ = _
  rw [List.any_map]
  congr 1
  funext m
  have hcolumns : (redecoded env db m).tx_id = m.tx_id ∧ (redecoded env db m).type = m.type := by
    unfold redecoded
    split <;> exact ⟨rfl, rfl⟩
  simp only [Function.comp_apply]
  split
  · rw [hcolumns.1, hcolumns.2]
  · rfl

theorem mem_matching {currentId : ℕ} {tx : Transaction C K} :
    tx ∈ matching type currentId db ↔
      tx ∈ db.transactions.rows ∧ currentId < tx.id ∧ Matches type db tx.id := by
  simp only [matching, List.mem_filter, Bool.and_eq_true, decide_eq_true_eq, List.any_eq_true]
  constructor
  · rintro ⟨hrow, hlt, m, hm, hid, htype⟩
    exact ⟨hrow, hlt, tx, hrow, rfl, m, hm, hid, htype⟩
  · rintro ⟨hrow, hlt, tx', hrow', hid', m, hm, hid, htype⟩
    exact ⟨hrow, hlt, m, hm, hid, htype⟩

theorem matches_of_mem {currentId : ℕ} {tx : Transaction C K}
    (h : tx ∈ matching type currentId db) : Matches type db tx.id := (mem_matching.mp h).2.2

/-- The rows behind a row of the page. -/
theorem length_matching_lt {currentId : ℕ} {last : Transaction C K}
    (hlast : last ∈ matching type currentId db) :
    (matching type last.id db).length < (matching type currentId db).length := by
  have hlt := (mem_matching.mp hlast).2.1
  have hsub : matching type last.id db =
      (matching type currentId db).filter fun tx => decide (last.id < tx.id) := by
    rw [matching, matching, List.filter_filter]
    refine List.filter_congr fun tx _ => ?_
    by_cases h : last.id < tx.id
    · simp [h, hlt.trans h]
    · simp [h]
  rw [hsub]
  refine List.length_filter_lt_length_iff_exists.mpr ⟨last, hlast, by simp⟩

/-- What the job commits after it has met the transactions `ids`. -/
def finished (env : Env C Any) (db : Db C K) (ids : List ℕ) : Db C K :=
  { (visited env db ids).db with transactions := (visited env db ids).trx }

/-- A page and what the loop does with it. -/
theorem redecodeLoop_succ (fuel i currentId : ℕ) (ids : List ℕ)
    (hdecode : ∀ tx ∈ matching type currentId db, decodeTx env tx ≠ none)
    (horders : Orders answer) :
    redecodeLoop env type limit answer (fuel + 1) i currentId (visited env db ids) =
      match ((answer i (matching type currentId db)).take limit).getLast? with
      | none => .ok (some (finished env db ids))
      | some last => redecodeLoop env type limit answer fuel (i + 1) last.id
          (visited env db
            (ids ++ ((answer i (matching type currentId db)).take limit).map Transaction.id)) := by
  rw [redecodeLoop, matching_visited]
  have hpage : ∀ tx ∈ (answer i (matching type currentId db)).take limit,
      tx ∈ db.transactions.rows ∧ decodeTx env tx ≠ none := by
    intro tx htx
    have hmem := (horders i _).mem_iff.mp (List.mem_of_mem_take htx)
    exact ⟨(mem_matching.mp hmem).1, hdecode tx hmem⟩
  cases hlast : ((answer i (matching type currentId db)).take limit).getLast? with
  | none => rfl
  | some last =>
    simp only
    rw [redecodePage_visited hpage]

/-- The loop ends. It has met the first page, and the last transaction of all. -/
theorem redecodeLoop_spec (hlimit : 0 < limit) (horders : Orders answer) {fuel i currentId : ℕ}
    {ids : List ℕ}
    (hdecode : ∀ tx ∈ matching type currentId db, decodeTx env tx ≠ none)
    (hfuel : (matching type currentId db).length < fuel) :
    ∃ ids', redecodeLoop env type limit answer fuel i currentId (visited env db ids) =
        .ok (some (finished env db ids')) ∧
      (∀ x ∈ ids, x ∈ ids') ∧ (∀ x ∈ ids', x ∈ ids ∨ Matches type db x) ∧
      (∀ tx ∈ (answer i (matching type currentId db)).take limit, tx.id ∈ ids') ∧
      ∀ tx ∈ matching type currentId db,
        (∀ u ∈ matching type currentId db, u.id ≤ tx.id) → tx.id ∈ ids' := by
  induction fuel generalizing i currentId ids with
  | zero => exact absurd hfuel (Nat.not_lt_zero _)
  | succ fuel ih =>
    have hperm := horders i (matching type currentId db)
    rw [redecodeLoop_succ _ _ _ _ hdecode horders]
    set page := (answer i (matching type currentId db)).take limit with hpage
    cases hlast : page.getLast? with
    | none =>
      have hnil : page = [] := List.getLast?_eq_none_iff.mp hlast
      have hempty : matching type currentId db = [] := by
        rcases List.take_eq_nil_iff.mp (hpage.symm.trans hnil) with hzero | hnone
        · omega
        · rw [hnone] at hperm
          exact List.nil_perm.mp hperm
      refine ⟨ids, rfl, fun x hx => hx, fun x hx => .inl hx, ?_, ?_⟩
      · rw [hnil]
        simp
      · rw [hempty]
        simp
    | some last =>
      have hmem : ∀ tx ∈ page, tx ∈ matching type currentId db := fun tx htx =>
        hperm.mem_iff.mp (List.mem_of_mem_take htx)
      have hlastmem : last ∈ page := List.mem_of_getLast? hlast
      have hlow := (mem_matching.mp (hmem last hlastmem)).2.1
      have hbehind : ∀ tx ∈ matching type last.id db, tx ∈ matching type currentId db := by
        intro tx htx
        obtain ⟨hrow, hlt, hmatch⟩ := mem_matching.mp htx
        exact mem_matching.mpr ⟨hrow, hlow.trans hlt, hmatch⟩
      have hshort := length_matching_lt (hmem last hlastmem)
      obtain ⟨ids', hrun, hkeep, honly, -, hmax⟩ :=
        @ih (i + 1) last.id (ids ++ page.map Transaction.id)
          (fun tx htx => hdecode tx (hbehind tx htx)) (by omega)
      have hmet : ∀ tx ∈ page, tx.id ∈ ids' := fun tx htx =>
        hkeep _ (List.mem_append_right _ (List.mem_map_of_mem htx))
      refine ⟨ids', hrun, fun x hx => hkeep x (List.mem_append_left _ hx), ?_, hmet, ?_⟩
      · intro x hx
        rcases honly x hx with hx | hx
        · rcases List.mem_append.mp hx with hx | hx
          · exact .inl hx
          · obtain ⟨tx, htx, rfl⟩ := List.mem_map.mp hx
            exact .inr (matches_of_mem (hmem tx htx))
        · exact .inr hx
      · intro tx htx htop
        -- the last transaction is on the page as its last row, or still to come
        rcases (htop last (hmem last hlastmem)).lt_or_eq with hlt | heq
        · obtain ⟨hrow, -, hmatch⟩ := mem_matching.mp htx
          refine hmax tx (mem_matching.mpr ⟨hrow, hlt, hmatch⟩) fun u hu => ?_
          exact htop u (hbehind u hu)
        · exact heq ▸ hmet last hlastmem

/-! ## 6. The law of what was met -/

theorem frame_patched (tx : Transaction C K) : (patched env tx).frame = tx.frame := by
  unfold patched
  split
  case h_1 messages data _ hdata =>
    split
    · rfl
    · simp [Transaction.frame, hdata]
  case h_2 => rfl

open Classical in
theorem law_finished {ids : List ℕ} (hids : ∀ x ∈ ids, Matches type db x) :
    Law env type db (finished env db ids) ↔
      ∀ m ∈ db.messages, (if m.tx_id ∈ ids then redecoded env db m else m) =
        if m.parent_id = none ∧ Matches type db m.tx_id then redecoded env db m else m := by
  have hmessages : (finished env db ids).messages =
      db.messages.map fun m => if m.tx_id ∈ ids then redecoded env db m else m := rfl
  have hrows : (finished env db ids).transactions.rows =
      db.transactions.rows.map fun tx => if tx.id ∈ ids then patched env tx else tx := rfl
  rw [Law, hmessages, hrows, List.map_inj_left, and_iff_left]
  constructor
  · rw [List.map_map]
    refine List.map_congr_left fun tx _ => ?_
    simp only [Function.comp_apply]
    split
    · exact frame_patched tx
    · rfl
  · intro tx htx hnot
    refine List.mem_map.mpr ⟨tx, htx, if_neg fun hmem => hnot (hids _ hmem)⟩

/-! ## 7. Orders that go wrong -/

theorem redecodeLoop_mono {fuel fuel' i currentId : ℕ} {w : Work C K} {out : Db C K}
    (h : redecodeLoop env type limit answer fuel i currentId w = .ok (some out))
    (hle : fuel ≤ fuel') :
    redecodeLoop env type limit answer fuel' i currentId w = .ok (some out) := by
  induction fuel generalizing fuel' i currentId w with
  | zero => cases h
  | succ fuel ih =>
    obtain ⟨fuel', rfl⟩ : ∃ n, fuel' = n + 1 := Nat.exists_eq_succ_of_ne_zero (by omega)
    rw [redecodeLoop] at h ⊢
    cases hlast : ((answer i (matching type currentId w.db)).take limit).getLast? with
    | none =>
      simp only [hlast] at h ⊢
      exact h
    | some last =>
      simp only [hlast] at h ⊢
      cases hpage : redecodePage env ((answer i (matching type currentId w.db)).take limit) w with
      | none => rw [hpage] at h; cases h
      | some w' =>
        rw [hpage] at h
        exact ih h (by omega)

theorem law_of_run {ids : List ℕ} {fuel : ℕ} (h : Redecodes env type limit db)
    (horders : Orders answer)
    (hrun : redecodeTxByType env type limit answer fuel db = .ok (some (finished env db ids))) :
    Law env type db (finished env db ids) := by
  obtain ⟨fuel', db', hrun', hlaw⟩ := h answer horders
  have hlong := redecodeLoop_mono hrun (Nat.le_max_left fuel fuel')
  have hlong' := redecodeLoop_mono hrun' (Nat.le_max_right fuel fuel')
  rw [hlong] at hlong'
  obtain rfl : finished env db ids = db' := by simpa using hlong'
  exact hlaw

open Classical in
/-- The order that puts one transaction first. -/
noncomputable def inFront (tx : Transaction C K) (_ : ℕ) (rows : List (Transaction C K)) :
    List (Transaction C K) :=
  if tx ∈ rows then tx :: rows.erase tx else rows

theorem orders_inFront (tx : Transaction C K) : Orders (inFront tx) := by
  classical
  intro i rows
  unfold inFront
  split
  case isTrue h => exact (List.perm_cons_erase h).symm
  case isFalse => exact List.Perm.refl _

theorem mem_page_inFront (hlimit : 0 < limit) {tx : Transaction C K} {i : ℕ}
    {rows : List (Transaction C K)} (h : tx ∈ rows) : tx ∈ (inFront tx i rows).take limit := by
  obtain ⟨n, rfl⟩ := Nat.exists_eq_succ_of_ne_zero hlimit.ne'
  rw [inFront, if_pos h, List.take_succ_cons]
  exact List.mem_cons_self

theorem decodable_of_redecodes (hlimit : 0 < limit) (h : Redecodes env type limit db)
    {tx : Transaction C K} (htx : tx ∈ db.transactions.rows) (hmatch : Matches type db tx.id) :
    decodeTx env tx ≠ none := by
  intro hnone
  obtain ⟨fuel, db', hrun, -⟩ := h _ (orders_inFront tx)
  cases fuel with
  | zero => cases hrun
  | succ fuel =>
    have hmem : tx ∈ matching type 0 db := mem_matching.mpr ⟨htx, tx.id_pos, hmatch⟩
    have hpage := mem_page_inFront (i := 0) hlimit hmem
    rw [redecodeTxByType, redecodeLoop] at hrun
    cases hlast : ((inFront tx 0 (matching type 0 db)).take limit).getLast? with
    | none =>
      rw [List.getLast?_eq_none_iff.mp hlast] at hpage
      cases hpage
    | some last =>
      simp only [hlast, redecodePage_none hpage hnone] at hrun
      cases hrun

theorem subMessages_of_redecodes (hlimit : 0 < limit) (h : Redecodes env type limit db)
    {m : TransactionMessage C K} (hm : m ∈ db.messages) (hmatch : Matches type db m.tx_id)
    (hparent : m.parent_id ≠ none) : redecoded env db m = m := by
  obtain ⟨tx, htx, hid, -⟩ := id hmatch
  have hmem : tx ∈ matching type 0 db := mem_matching.mpr ⟨htx, tx.id_pos, hid ▸ hmatch⟩
  have hdecode : ∀ tx ∈ matching type 0 db, decodeTx env tx ≠ none := fun tx htx =>
    decodable_of_redecodes hlimit h (mem_matching.mp htx).1 (matches_of_mem htx)
  obtain ⟨ids, hrun, -, honly, hfirst, -⟩ :=
    @redecodeLoop_spec C K Any env type limit db _ hlimit (orders_inFront tx) _ 0 0 [] hdecode
      (Nat.lt_succ_self _)
  rw [visited_nil] at hrun
  have hids : ∀ x ∈ ids, Matches type db x := fun x hx => by simpa using honly x hx
  have hlaw := (law_finished hids).mp (law_of_run h (orders_inFront tx) hrun) m hm
  have hvisited : m.tx_id ∈ ids := hid ▸ hfirst tx (mem_page_inFront hlimit hmem)
  rwa [if_pos hvisited, if_neg fun hp => hparent hp.1] at hlaw

/-- The order of a first page that leaves `tx` out and ends with the last transaction. -/
theorem exists_order_without (hlimit : 0 < limit) {rows : List (Transaction C K)}
    {tx last : Transaction C K} (hlong : limit < rows.length) (htx : tx ∈ rows)
    (hlast : last ∈ rows) (hne : last ≠ tx) :
    ∃ page rest, (page ++ last :: (rest ++ [tx])).Perm rows ∧ page.length + 1 = limit := by
  classical
  have hlast' : last ∈ rows.erase tx := (List.mem_erase_of_ne hne).mpr hlast
  have hperm : rows.Perm (tx :: last :: (rows.erase tx).erase last) :=
    (List.perm_cons_erase htx).trans ((List.perm_cons_erase hlast').cons tx)
  generalize (rows.erase tx).erase last = others at hperm
  have hlength := hperm.length_eq
  simp only [List.length_cons] at hlength
  refine ⟨others.take (limit - 1), others.drop (limit - 1), ?_, ?_⟩
  · refine List.Perm.trans ?_ hperm.symm
    calc others.take (limit - 1) ++ last :: (others.drop (limit - 1) ++ [tx])
      _ |>.Perm (last :: (others.take (limit - 1) ++ (others.drop (limit - 1) ++ [tx]))) :=
        List.perm_middle
      _ |>.Perm (last :: (others ++ [tx])) := by
        rw [← List.append_assoc, List.take_append_drop]
      _ |>.Perm (tx :: last :: others) :=
        ((List.perm_append_singleton tx others).cons last).trans (List.Perm.swap tx last others)
  · rw [List.length_take]
    omega

theorem reached_of_redecodes (hlimit : 0 < limit) (h : Redecodes env type limit db)
    (hlong : limit < (matching type 0 db).length) {m : TransactionMessage C K}
    (hm : m ∈ db.messages) (hmatch : Matches type db m.tx_id) (hparent : m.parent_id = none)
    (hlater : ∃ last, Matches type db last ∧ m.tx_id < last) : redecoded env db m = m := by
  classical
  obtain ⟨tx, htx, hid, -⟩ := id hmatch
  have hmem : tx ∈ matching type 0 db := mem_matching.mpr ⟨htx, tx.id_pos, hid ▸ hmatch⟩
  have hdecode : ∀ currentId, ∀ tx ∈ matching type currentId db, decodeTx env tx ≠ none :=
    fun _ tx htx => decodable_of_redecodes hlimit h (mem_matching.mp htx).1 (matches_of_mem htx)
  have hsome : (matching type 0 db : Multiset (Transaction C K)) ≠ 0 :=
    fun hnil => List.ne_nil_of_mem hmem (Multiset.coe_eq_zero _ |>.mp hnil)
  obtain ⟨top, htop, hmax⟩ : ∃ top ∈ matching type 0 db, ∀ u ∈ matching type 0 db, u.id ≤ top.id :=
    Multiset.exists_max_image Transaction.id hsome
  have hbelow : tx.id < top.id := by
    obtain ⟨last, ⟨u, hu, rfl, hmatch'⟩, hlt⟩ := hlater
    have hu' : u ∈ matching type 0 db :=
      mem_matching.mpr ⟨hu, u.id_pos, u, hu, rfl, hmatch'⟩
    exact hid ▸ hlt.trans_le (hmax u hu')
  obtain ⟨page, rest, hperm, hlength⟩ := exists_order_without hlimit hlong hmem htop
    (fun heq => absurd hbelow (heq ▸ lt_irrefl _))
  let answer : ℕ → List (Transaction C K) → List (Transaction C K) := fun _ rows =>
    if rows = matching type 0 db then page ++ top :: (rest ++ [tx]) else rows
  have horders : Orders answer := by
    intro i rows
    show (if rows = matching type 0 db then page ++ top :: (rest ++ [tx]) else rows).Perm rows
    split
    case isTrue heq => exact heq ▸ hperm
    case isFalse => exact List.Perm.refl _
  have hfirst : (answer 0 (matching type 0 db)).take limit = page ++ [top] := by
    show (if matching type 0 db = matching type 0 db then page ++ top :: (rest ++ [tx])
      else matching type 0 db).take limit = _
    rw [if_pos rfl, ← hlength, List.take_length_add_append]
    rfl
  have hend : matching type top.id db = [] := by
    refine List.eq_nil_iff_forall_not_mem.mpr fun u hu => ?_
    obtain ⟨hrow, hlt, hmatch'⟩ := mem_matching.mp hu
    have := hmax u (mem_matching.mpr ⟨hrow, u.id_pos, hmatch'⟩)
    omega
  -- the first page ends with the last transaction, and the second one is empty
  have hrun : redecodeTxByType env type limit answer 2 db =
      .ok (some (finished env db ((page ++ [top]).map Transaction.id))) := by
    rw [redecodeTxByType, ← visited_nil, redecodeLoop_succ _ _ _ _ (hdecode 0) horders, hfirst,
      List.getLast?_concat]
    simp only
    rw [redecodeLoop_succ _ _ _ _ (hdecode top.id) horders, hend,
      List.perm_nil.mp (horders 1 []), List.take_nil]
    rfl
  have hnodup : ((page ++ top :: (rest ++ [tx])).map Transaction.id).Nodup := by
    refine (hperm.map Transaction.id).nodup_iff.mpr ?_
    exact (List.filter_sublist.map Transaction.id).nodup db.transactions.nodup
  have hout : m.tx_id ∉ (page ++ [top]).map Transaction.id := by
    rw [show page ++ top :: (rest ++ [tx]) = (page ++ [top]) ++ (rest ++ [tx]) by simp,
      List.map_append] at hnodup
    intro hin
    refine (List.nodup_append.mp hnodup).2.2 _ hin _ ?_ rfl
    rw [List.map_append]
    exact List.mem_append_right _ (by simp [hid])
  have hids : ∀ x ∈ (page ++ [top]).map Transaction.id, Matches type db x := by
    intro x hx
    obtain ⟨u, hu, rfl⟩ := List.mem_map.mp hx
    refine @matches_of_mem C K type db 0 u (hperm.mem_iff.mp ?_)
    rcases List.mem_append.mp hu with hu | hu
    · exact List.mem_append_left _ hu
    · rw [List.mem_singleton.mp hu]
      simp
  have hlaw := (law_finished hids).mp (law_of_run h horders hrun) m hm
  rwa [if_neg hout, if_pos ⟨hparent, hmatch⟩, eq_comm] at hlaw

theorem redecodes_of_decodes (hlimit : 0 < limit) (h : Decodes env type limit db) :
    Redecodes env type limit db := by
  intro answer horders
  have hdecode : ∀ tx ∈ matching type 0 db, decodeTx env tx ≠ none := fun tx htx =>
    h.decodable tx (mem_matching.mp htx).1 (matches_of_mem htx)
  obtain ⟨ids, hrun, -, honly, hfirst, hmax⟩ :=
    @redecodeLoop_spec C K Any env type limit db _ hlimit horders _ 0 0 [] hdecode
      (Nat.lt_succ_self _)
  rw [visited_nil] at hrun
  have hids : ∀ x ∈ ids, Matches type db x := fun x hx => by simpa using honly x hx
  refine ⟨_, _, hrun, (law_finished hids).mpr fun m hm => ?_⟩
  by_cases hmatch : Matches type db m.tx_id
  · by_cases hmet : m.tx_id ∈ ids
    · rw [if_pos hmet]
      by_cases hparent : m.parent_id = none
      · rw [if_pos ⟨hparent, hmatch⟩]
      · rw [if_neg fun hp => hparent hp.1, h.subMessages m hm hmatch hparent]
    · rw [if_neg hmet]
      by_cases hparent : m.parent_id = none
      · rw [if_pos ⟨hparent, hmatch⟩]
        obtain ⟨tx, htx, hid, -⟩ := id hmatch
        have hmem : tx ∈ matching type 0 db :=
          mem_matching.mpr ⟨htx, tx.id_pos, hid ▸ hmatch⟩
        rcases h.reached with hshort | hdecoded
        · -- all transactions are on the first page
          refine absurd (hid ▸ hfirst tx ?_) hmet
          rw [List.take_of_length_le ((horders 0 _).length_eq.le.trans hshort)]
          exact (horders 0 _).mem_iff.mpr hmem
        · refine (hdecoded m hm hmatch hparent ?_).symm
          by_contra hlast
          refine hmet (hid ▸ hmax tx hmem fun u hu => ?_)
          by_contra hlt
          exact hlast ⟨u.id, matches_of_mem hu, hid ▸ not_le.mp hlt⟩
      · rw [if_neg fun hp => hparent hp.1]
  · rw [if_neg fun hin => hmatch (hids _ hin), if_neg fun hp => hmatch hp.2]

end RedecodeLemmas

open RedecodeLemmas

/-! ## The result -/

/-- The job does what it is for, whatever its queries answer, exactly on these tables. -/
theorem redecode_iff {env : Env C Any} {type : String} {limit : ℕ} {db : Db C K}
    (hlimit : 0 < limit) : Redecodes env type limit db ↔ Decodes env type limit db := by
  constructor
  · intro h
    refine ⟨fun tx htx => decodable_of_redecodes hlimit h htx,
      fun m hm => subMessages_of_redecodes hlimit h hm, ?_⟩
    rcases Nat.lt_or_ge limit (matching type 0 db).length with hlong | hshort
    · exact .inr fun m hm => reached_of_redecodes hlimit h hlong hm
    · exact .inl hshort
  · exact redecodes_of_decodes hlimit

end

/-- A decoder that reads one message, its text. -/
def plainEnv : Env String String := ⟨fun _ => none, fun raw => some [raw], some⟩

/-- A transaction with one message, a `MsgExec`, and the sub-message that it executes. -/
def execDb : Db String Unit where
  transactions := ⟨[⟨1, by decide, some ⟨none, some "exec", some ["exec"]⟩, ()⟩], by decide⟩
  messages :=
    [⟨1, 0, "/cosmos.authz.v1beta1.MsgExec", none, "exec", ()⟩,
      ⟨1, 0, "/cosmos.bank.v1beta1.MsgSend", some 1, "send", ()⟩]

theorem redecode_iff_execDb :
    Redecodes plainEnv "/cosmos.gov.v1beta1.MsgVote" 100 execDb ↔
      Decodes plainEnv "/cosmos.gov.v1beta1.MsgVote" 100 execDb :=
  redecode_iff (by decide)

/-- The sub-message gets the content of the message with its index. -/
theorem subMessage_overwritten :
    ¬ Redecodes plainEnv "/cosmos.authz.v1beta1.MsgExec" 100 execDb := by
  intro h
  have hsub := RedecodeLemmas.subMessages_of_redecodes (by decide) h
    (m := ⟨1, 0, "/cosmos.bank.v1beta1.MsgSend", some 1, "send", ()⟩) (by simp [execDb])
    ⟨_, List.mem_cons_self, rfl, _, List.mem_cons_self, rfl, rfl⟩ (by simp)
  have hcontent := congrArg TransactionMessage.content hsub
  exact absurd hcontent (by decide)

end Erascope.Redecode
