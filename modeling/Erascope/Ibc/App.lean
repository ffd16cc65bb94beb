import Mathlib.Tactic
import Erascope.Lib.Run
import Erascope.Lib.Rows
import Erascope.Lib.Fold
import Erascope.CrawlTx.Authz

/-!
# IBC messages

The model of `services/ibc/crawl_ibc_app.service.ts`. A run takes the packet events of its
range, joins each with its message on the columns `(tx_id, tx_msg_index)` and
`(tx_id, index)`, and inserts one row of `ibc_message` for every row of the join.
`HANDLE_AUTHZ_TX` works on the same transactions in no fixed order and inserts sub-messages,
whose `index` counts from `0` inside their `MsgExec`, with the same `tx_id`.

A run of `CRAWL_IBC_APP` reads in two steps and commits in a third; the other jobs may commit
between them. There is one runner.

Results:
1. `one_row_per_event_iff`: in a run, every packet event of a transaction up to the checkpoint
   has exactly one row, for its top-level message, in every state, if and only if no commit of
   `CRAWL_IBC_APP` holds an event that was joined with a sub-message.
2. `rows_for_sub_message`: a transaction with a `MsgExec` whose packet gets a second row.
-/

namespace Erascope.Ibc

open Checkpoint Authz

/-! ## 1. Rows -/

/-- A row of `event_attribute`. -/
structure EventAttribute where
  key : String
  value : Option String
deriving DecidableEq, Repr

/-- A row of `event` with its attributes; `tx_id` is null for the events of a block. -/
structure Event where
  id : ℕ
  tx_id : Option ℕ
  tx_msg_index : Option ℕ
  type : String
  block_height : ℕ
  attributes : List EventAttribute
deriving DecidableEq, Repr

/-- A row of `ibc_message`. Row ids are fresh and nothing reads them here. -/
structure IbcMessage where
  transaction_message_id : ℕ
  src_channel_id : String
  src_port_id : String
  dst_channel_id : String
  dst_port_id : String
  type : String
  sequence : ℕ
  sequence_key : String
  data : Option String
  tx_hash : String
deriving DecidableEq, Repr

/-- `IbcMessage.EVENT_TYPE` -/
def sendPacket : String := "send_packet"
@[inherit_doc sendPacket] def recvPacket : String := "recv_packet"
@[inherit_doc sendPacket] def acknowledgePacket : String := "acknowledge_packet"
@[inherit_doc sendPacket] def timeoutPacket : String := "timeout_packet"

/-- The types that `crawlIbcApp` selects. -/
def packetTypes : List String := [acknowledgePacket, recvPacket, sendPacket, timeoutPacket]

/-! ## 2. `handleIbcMessage` -/

/-- The functions of the libraries: `fromUtf8(fromHex(text))`, which can throw, and the
conversion of a text to a number by the validator. -/
structure Codec where
  fromHexUtf8 : String → Option String
  toNumber : String → Option ℕ

/-- `getAttributeFrom`: `none` is `undefined`, `some none` is `null`. -/
def getAttributeFrom (attributes : List EventAttribute) (key : String) : Option (Option String) :=
  (attributes.find? (·.key = key)).map (·.value)

/-- The text of a value inside a template string. -/
def text : Option (Option String) → String
  | none => "undefined"
  | some none => "null"
  | some (some s) => s

/-- `sequence_key` -/
def sequenceKey (srcChannel srcPort dstChannel dstPort sequence : Option (Option String)) :
    String :=
  text srcChannel ++ "." ++ text srcPort ++ "." ++ text dstChannel ++ "." ++ text dstPort ++ "." ++
    text sequence

/-- A required column of type `string`: a missing value is an error, null becomes `''`. -/
def requiredString : Option (Option String) → Option String
  | none => none
  | some value => some (value.getD "")

/-- A required column of type `number`: null becomes `0`. -/
def requiredNumber (codec : Codec) : Option (Option String) → Option ℕ
  | none => none
  | some none => some 0
  | some (some s) => codec.toNumber s

/-- `dataHex ? fromUtf8(fromHex(dataHex)) : null` -/
def decodeData (codec : Codec) (dataHex : Option (Option String)) : Option (Option String) :=
  match truthy dataHex.join with
  | none => some none
  | some hex => (codec.fromHexUtf8 hex).map some

/-- A row of the query of `crawlIbcApp`: an event with the columns of its message. -/
structure JoinedEvent where
  event : Event
  message_id : ℕ
  tx_hash : String
deriving DecidableEq, Repr

/-- The row of one event; `none` when `fromJson` or the decoding throws. -/
def ibcMessage (codec : Codec) (joined : JoinedEvent) : Option IbcMessage := do
  let attr := getAttributeFrom joined.event.attributes
  let srcChannel := attr "packet_src_channel"
  let srcPort := attr "packet_src_port"
  let dstChannel := attr "packet_dst_channel"
  let dstPort := attr "packet_dst_port"
  let sequence := attr "packet_sequence"
  let data ← decodeData codec (attr "packet_data_hex")
  let src_channel_id ← requiredString srcChannel
  let src_port_id ← requiredString srcPort
  let dst_channel_id ← requiredString dstChannel
  let dst_port_id ← requiredString dstPort
  let number ← requiredNumber codec sequence
  return {
    transaction_message_id := joined.message_id
    src_channel_id := src_channel_id
    src_port_id := src_port_id
    dst_channel_id := dst_channel_id
    dst_port_id := dst_port_id
    type := joined.event.type
    sequence := number
    sequence_key := sequenceKey srcChannel srcPort dstChannel dstPort sequence
    data := data
    tx_hash := joined.tx_hash }

/-- `handleIbcMessage`: the rows to insert, if no event throws. -/
def handleIbcMessage (codec : Codec) (events : List JoinedEvent) : Option (List IbcMessage) :=
  events.mapM (ibcMessage codec)

/-! ## 3. The query -/

/-- The tables that the jobs read and write. -/
structure Db (C : Type) where
  transaction : Table Transaction.id
  transaction_message : Messages C
  event : List Event
  ibc_message : List IbcMessage
  block_checkpoint : Checkpoints BullJobName

section
variable {C : Type}

/-- The condition of the relation `message` of `models/event.ts`. -/
def Matches (e : Event) (m : TransactionMessage C) : Prop :=
  e.tx_id = some m.tx_id ∧ e.tx_msg_index = some m.index

instance (e : Event) (m : TransactionMessage C) : Decidable (Matches e m) :=
  inferInstanceAs (Decidable (_ ∧ _))

/-- `joinRelated('message.transaction')` for one event. -/
def joinMessage (transaction : Table Transaction.id) (messages : List (TransactionMessage C))
    (e : Event) : List JoinedEvent :=
  (messages.filter fun m => Matches e m).filterMap fun m =>
    (transaction.get? m.tx_id).map fun tx => ⟨e, m.id, tx.hash⟩

/-- The packet events of a range. -/
def packetEvents (event : List Event) (startHeight endHeight : ℕ) : List Event :=
  between (·.block_height) startHeight endHeight (event.filter fun e => e.type ∈ packetTypes)

/-- The query of `crawlIbcApp`. -/
def queryEvents (db : Db C) (startHeight endHeight : ℕ) : List JoinedEvent :=
  ((packetEvents db.event startHeight endHeight).insertionSort fun a b => a.id ≤ b.id).flatMap
    (joinMessage db.transaction db.transaction_message.rows)

/-! ## 4. The system -/

/-- Where the run of `CRAWL_IBC_APP` stands, with the values it has read. -/
inductive AppRun
  | idle
  | ranged (startHeight endHeight : ℕ) (updateBlockCheckpoint : BlockCheckpoint BullJobName)
  | fetched (endHeight : ℕ) (updateBlockCheckpoint : BlockCheckpoint BullJobName)
      (events : List JoinedEvent)

/-- The database and the run of `CRAWL_IBC_APP`. -/
structure System (C : Type) where
  db : Db C
  run : AppRun

/-- What `HANDLE_TRANSACTION` commits: transactions with their messages and the events of the
blocks up to `endBlock`. -/
structure Batch (C : Type) where
  transaction : Table Transaction.id
  messages : List (NewMessage C)
  event : List Event
  endBlock : ℕ

/-- A step of the system. -/
inductive AppStep (C : Type)
  | handleTransaction (batch : Batch C)
  /-- A run of `CRAWL_IBC_TAO`, as far as the checkpoint goes. -/
  | crawlIbcTao
  | handleAuthz
  /-- `CRAWL_IBC_APP` calls `getCheckpoint`. -/
  | getCheckpoint
  /-- `CRAWL_IBC_APP` reads the events of its range. -/
  | readEvents
  /-- `CRAWL_IBC_APP` commits its database transaction, or an event throws. -/
  | commit
  /-- The run of `CRAWL_IBC_APP` ends with an error. -/
  | fail

variable (codec : Codec) (startBlock : ℕ)

/-- The `HANDLE_TRANSACTION` checkpoint. -/
def handled (db : Db C) : ℕ := startHeight startBlock db.block_checkpoint .handleTransaction

/-- The `CRAWL_IBC_APP` checkpoint. -/
def reached (db : Db C) : ℕ := startHeight startBlock db.block_checkpoint .crawlIbcApp

/-- What the chain and `HANDLE_TRANSACTION` promise of a batch: it follows the heights handled
before, its transactions are new, its messages are top-level ones with different indices, and
a packet event of a transaction carries the index of one of the messages. -/
def BatchOk (db : Db C) (batch : Batch C) : Prop :=
  handled startBlock db < batch.endBlock ∧
  (∀ tx ∈ batch.transaction.rows, db.transaction.get? tx.id = none) ∧
  (∀ m ∈ batch.messages, m.parent_id = none ∧ batch.transaction.get? m.tx_id ≠ none) ∧
  (batch.messages.map fun m => (m.tx_id, m.index)).Nodup ∧
  (∀ e ∈ batch.event, handled startBlock db < e.block_height ∧ e.block_height ≤ batch.endBlock) ∧
  ∀ e ∈ batch.event, e.type ∈ packetTypes → e.tx_id ≠ none →
    ∃ m ∈ batch.messages, e.tx_id = some m.tx_id ∧ e.tx_msg_index = some m.index

instance (db : Db C) (batch : Batch C) : Decidable (BatchOk startBlock db batch) :=
  inferInstanceAs (Decidable (_ ∧ _ ∧ _ ∧ _ ∧ _ ∧ _))

/-- The commit of `HANDLE_TRANSACTION`. -/
def commitBatch (db : Db C) (batch : Batch C) : Db C :=
  { db with
    transaction := db.transaction.upsertAll batch.transaction.rows
    transaction_message := db.transaction_message.insert batch.messages
    event := db.event ++ batch.event
    block_checkpoint :=
      storeCheckpoint db.block_checkpoint ⟨.handleTransaction, batch.endBlock⟩ batch.endBlock }

/-- The first part of a run of `CRAWL_IBC_APP`. -/
def startRun (db : Db C) : AppRun :=
  let (start, endHeight, updateBlockCheckpoint) :=
    Checkpoint.getCheckpoint startBlock db.block_checkpoint .crawlIbcApp
      crawlIbcApp.lastHeightJobNames crawlIbcApp.blocksPerCall
  if crawlIbcApp.rangeTest.returns start endHeight then .idle
  else .ranged start endHeight updateBlockCheckpoint

/-- The database transaction at the end of a run; a throw rolls it back. -/
def commitRun (db : Db C) (endHeight : ℕ) (updateBlockCheckpoint : BlockCheckpoint BullJobName)
    (events : List JoinedEvent) : Db C :=
  match handleIbcMessage codec events with
  | none => db
  | some ibcMessages =>
    { db with
      ibc_message := db.ibc_message ++ ibcMessages
      block_checkpoint := storeCheckpoint db.block_checkpoint updateBlockCheckpoint endHeight }

variable [MessageContent C]

/-- The step function; a step that is not enabled changes nothing. -/
def appStep (s : System C) : AppStep C → System C
  | .handleTransaction batch =>
    if BatchOk startBlock s.db batch then { s with db := commitBatch s.db batch } else s
  | .crawlIbcTao =>
    { s with db := { s.db with
        block_checkpoint :=
          runJob startBlock .crawlIbcTao Checkpoint.crawlIbcTao s.db.block_checkpoint } }
  | .handleAuthz =>
    let (messages, checkpoints) :=
      Authz.handleAuthz startBlock s.db.transaction s.db.transaction_message s.db.block_checkpoint
    { s with db := { s.db with transaction_message := messages, block_checkpoint := checkpoints } }
  | .getCheckpoint =>
    match s.run with
    | .idle => { s with run := startRun startBlock s.db }
    | _ => s
  | .readEvents =>
    match s.run with
    | .ranged start endHeight updateBlockCheckpoint =>
      { s with run := .fetched endHeight updateBlockCheckpoint (queryEvents s.db start endHeight) }
    | _ => s
  | .commit =>
    match s.run with
    | .fetched endHeight updateBlockCheckpoint events =>
      { db := commitRun codec s.db endHeight updateBlockCheckpoint events, run := .idle }
    | _ => s
  | .fail => { s with run := .idle }

/-- The system before the first run. -/
def System.initial : System C where
  db := ⟨Table.empty, Messages.empty, [], [], Table.empty⟩
  run := .idle

/-! ## 5. The property -/

/-- The top-level message of an event. -/
def topMessage (db : Db C) (e : Event) : Option (TransactionMessage C) :=
  db.transaction_message.rows.find? fun m => decide (m.parent_id = none) && decide (Matches e m)

/-- The event with the columns of its top-level message. -/
def topJoined (db : Db C) (e : Event) : Option JoinedEvent :=
  (topMessage db e).bind fun m =>
    (db.transaction.get? m.tx_id).map fun tx => ⟨e, m.id, tx.hash⟩

/-- The packet events of transactions up to `height`. -/
def txPacketEvents (db : Db C) (height : ℕ) : List Event :=
  (db.event.filter fun e => e.type ∈ packetTypes).filter fun e =>
    decide (e.tx_id ≠ none) && decide (e.block_height ≤ height)

/-- One row per packet event up to the checkpoint, for its top-level message, and no other. -/
def OneRowPerEvent (db : Db C) : Prop :=
  (db.ibc_message.map some).Perm
    ((txPacketEvents db (reached startBlock db)).map fun e =>
      (topJoined db e).bind (ibcMessage codec))

instance (db : Db C) : Decidable (OneRowPerEvent codec startBlock db) :=
  inferInstanceAs (Decidable (List.Perm _ _))

/-- The row that an event was joined with is a top-level message. -/
def JoinedTop (db : Db C) (joined : JoinedEvent) : Prop :=
  ∃ m ∈ db.transaction_message.rows, m.id = joined.message_id ∧ m.parent_id = none

instance (db : Db C) (joined : JoinedEvent) : Decidable (JoinedTop db joined) :=
  inferInstanceAs (Decidable (∃ m ∈ _, _ ∧ _))

/-- The condition on a commit: when it does not throw, no event that it holds was joined with
a sub-message. -/
def CommitReady (s : System C) : AppStep C → Prop
  | .commit =>
    ∀ endHeight updateBlockCheckpoint events,
      s.run = .fetched endHeight updateBlockCheckpoint events →
      handleIbcMessage codec events ≠ none →
      ∀ joined ∈ events, JoinedTop s.db joined
  | _ => True

/-! ## 6. What the steps preserve -/

/-- What the tables promise. -/
structure DbOk (db : Db C) : Prop where
  message_tx : ∀ m ∈ db.transaction_message.rows, db.transaction.get? m.tx_id ≠ none
  top_nodup : ((db.transaction_message.rows.filter fun m => m.parent_id = none).map
    fun m => (m.tx_id, m.index)).Nodup
  event_le : ∀ e ∈ db.event, e.block_height ≤ handled startBlock db
  event_top : ∀ e ∈ db.event, e.type ∈ packetTypes → e.tx_id ≠ none →
    ∃ m ∈ db.transaction_message.rows, m.parent_id = none ∧ Matches e m
  reached_le : reached startBlock db ≤ handled startBlock db
  tao_le : ∀ h, heightOf db.block_checkpoint .crawlIbcTao = some h → h ≤ handled startBlock db

/-- What the run has read stays true. It read the messages `messages`, among them the
top-level message of each event that it holds. -/
def RunOk (db : Db C) : AppRun → Prop
  | .idle => True
  | .ranged start endHeight updateBlockCheckpoint =>
    updateBlockCheckpoint.job_name = .crawlIbcApp ∧ start = reached startBlock db ∧
      start ≤ endHeight ∧ endHeight ≤ handled startBlock db
  | .fetched endHeight updateBlockCheckpoint events =>
    updateBlockCheckpoint.job_name = .crawlIbcApp ∧ reached startBlock db ≤ endHeight ∧
      endHeight ≤ handled startBlock db ∧
      ∃ messages, messages <+: db.transaction_message.rows ∧
        (∀ e ∈ packetEvents db.event (reached startBlock db) endHeight, e.tx_id ≠ none →
          ∃ m ∈ messages, m.parent_id = none ∧ Matches e m) ∧
        events.Perm ((packetEvents db.event (reached startBlock db) endHeight).flatMap
          (joinMessage db.transaction messages))

/-- The invariant of all runs. -/
structure SystemOk (s : System C) : Prop where
  db : DbOk startBlock s.db
  run : RunOk startBlock s.db s.run

namespace AppLemmas

omit [MessageContent C]

variable {codec : Codec} {startBlock : ℕ}

/-! ### The join -/

/-- An event with the columns of a message. -/
def joinedWith (transaction : Table Transaction.id) (e : Event) (m : TransactionMessage C) :
    JoinedEvent :=
  ⟨e, m.id, ((transaction.get? m.tx_id).map (·.hash)).getD ""⟩

theorem joinMessage_eq {transaction : Table Transaction.id}
    {messages : List (TransactionMessage C)} (e : Event)
    (htx : ∀ m ∈ messages, transaction.get? m.tx_id ≠ none) :
    joinMessage transaction messages e =
      (messages.filter fun m => Matches e m).map (joinedWith transaction e) := by
  rw [joinMessage, ← List.filterMap_eq_map]
  refine List.filterMap_congr fun m hm => ?_
  obtain ⟨tx, hget⟩ := Option.ne_none_iff_exists'.mp (htx m (List.mem_of_mem_filter hm))
  simp [joinedWith, hget]

theorem joinedTop_iff {db : Db C} {e : Event} {m : TransactionMessage C}
    (hm : m ∈ db.transaction_message.rows) :
    JoinedTop db (joinedWith db.transaction e m) ↔ m.parent_id = none := by
  constructor
  · rintro ⟨m', hm', hid, hparent⟩
    rwa [Messages.eq_of_id_eq hm hm' hid.symm]
  · exact fun h => ⟨m, hm, rfl, h⟩

/-- Of the messages that match an event, one is top-level. -/
theorem filter_top {db : Db C} (hdb : DbOk startBlock db) {messages : List (TransactionMessage C)}
    (hsub : messages.Sublist db.transaction_message.rows) {e : Event} {m : TransactionMessage C}
    (hm : m ∈ messages) (htop : m.parent_id = none) (hmatch : Matches e m) :
    (messages.filter fun m => Matches e m).filter (fun m => m.parent_id = none) = [m] := by
  have hnd : ((messages.filter fun m => m.parent_id = none).map
      fun m => (m.tx_id, m.index)).Nodup :=
    ((hsub.filter _).map _).nodup hdb.top_nodup
  have hmem : m ∈ messages.filter fun m => m.parent_id = none :=
    List.mem_filter.mpr ⟨hm, by simpa using htop⟩
  rw [← filter_key_eq hnd hmem, List.filter_filter, List.filter_filter]
  refine List.filter_congr fun x _ => ?_
  have hkey : Matches e x ↔ (x.tx_id, x.index) = (m.tx_id, m.index) := by
    simp only [Matches, hmatch.1, hmatch.2, Option.some.injEq, Prod.mk.injEq]
    exact ⟨fun h => ⟨h.1.symm, h.2.symm⟩, fun h => ⟨h.1.symm, h.2.symm⟩⟩
  rw [Bool.and_comm, decide_eq_decide.mpr hkey]

theorem topJoined_eq {db : Db C} (hdb : DbOk startBlock db) {e : Event} {m : TransactionMessage C}
    (hm : m ∈ db.transaction_message.rows) (htop : m.parent_id = none) (hmatch : Matches e m) :
    topJoined db e = some (joinedWith db.transaction e m) := by
  have hfind : topMessage db e = some m := by
    rw [topMessage, ← List.head?_filter, ← List.filter_filter,
      filter_top hdb (List.Sublist.refl _) hm htop hmatch, List.head?_cons]
  obtain ⟨tx, hget⟩ := Option.ne_none_iff_exists'.mp (hdb.message_tx m hm)
  simp [topJoined, hfind, hget, joinedWith]

/-- An event joined with top-level messages only is joined once. -/
theorem joinMessage_eq_top {db : Db C} (hdb : DbOk startBlock db)
    {messages : List (TransactionMessage C)} (hsub : messages.Sublist db.transaction_message.rows)
    {e : Event} {m : TransactionMessage C} (hm : m ∈ messages) (htop : m.parent_id = none)
    (hmatch : Matches e m)
    (hall : ∀ joined ∈ joinMessage db.transaction messages e, JoinedTop db joined) :
    joinMessage db.transaction messages e = [joinedWith db.transaction e m] := by
  have htx : ∀ m ∈ messages, db.transaction.get? m.tx_id ≠ none :=
    fun m hm => hdb.message_tx m (hsub.subset hm)
  rw [joinMessage_eq e htx] at hall ⊢
  have hself : (messages.filter fun m => Matches e m).filter (fun m => m.parent_id = none) =
      messages.filter fun m => Matches e m := by
    rw [List.filter_eq_self]
    intro x hx
    have hxm := hsub.subset (List.mem_of_mem_filter hx)
    simpa using (joinedTop_iff hxm).mp (hall _ (List.mem_map_of_mem hx))
  rw [← hself, filter_top hdb hsub hm htop hmatch, List.map_cons, List.map_nil]

/-- An event that is joined once is joined with its top-level message. -/
theorem joinedTop_of_length {db : Db C} (hdb : DbOk startBlock db)
    {messages : List (TransactionMessage C)} (hsub : messages.Sublist db.transaction_message.rows)
    {e : Event} {m : TransactionMessage C} (hm : m ∈ messages) (htop : m.parent_id = none)
    (hmatch : Matches e m) (hlen : (joinMessage db.transaction messages e).length ≤ 1) :
    ∀ joined ∈ joinMessage db.transaction messages e, JoinedTop db joined := by
  have htx : ∀ m ∈ messages, db.transaction.get? m.tx_id ≠ none :=
    fun m hm => hdb.message_tx m (hsub.subset hm)
  rw [joinMessage_eq e htx] at hlen ⊢
  rw [List.length_map] at hlen
  have hfilter := filter_top hdb hsub hm htop hmatch
  have heq : messages.filter (fun m => Matches e m) = [m] := by
    rw [← hfilter]
    refine (List.Sublist.eq_of_length_le List.filter_sublist ?_).symm
    rw [hfilter]
    exact hlen
  intro joined hj
  rw [heq, List.map_cons, List.map_nil, List.mem_singleton] at hj
  subst hj
  exact (joinedTop_iff (hsub.subset hm)).mpr htop

/-! ### The rows of a commit -/

/-- Every element gives at least `g` rows; as many as in all means `g` from each. -/
theorem length_flatMap_eq {α β : Type} {f : α → List β} {g : α → ℕ} {l : List α}
    (hle : ∀ a ∈ l, g a ≤ (f a).length) (hlen : (l.flatMap f).length ≤ (l.map g).sum) :
    ∀ a ∈ l, (f a).length ≤ g a := by
  induction l with
  | nil => simp
  | cons x xs ih =>
    have hge : (xs.map g).sum ≤ (xs.flatMap f).length := by
      rw [List.length_flatMap]
      exact List.sum_le_sum fun a ha => hle a (List.mem_cons_of_mem x ha)
    rw [List.flatMap_cons, List.length_append, List.map_cons, List.sum_cons] at hlen
    have hx := hle x List.mem_cons_self
    intro a ha
    rcases List.mem_cons.mp ha with rfl | ha
    · omega
    · exact ih (fun a ha => hle a (List.mem_cons_of_mem x ha)) (by omega) a ha

/-- Null matches nothing. -/
theorem joinMessage_of_null {transaction : Table Transaction.id}
    {messages : List (TransactionMessage C)} {e : Event} (he : e.tx_id = none) :
    joinMessage transaction messages e = [] := by
  have hnone : messages.filter (fun m => Matches e m) = [] := by
    rw [List.filter_eq_nil_iff]
    intro m _
    simp [Matches, he]
  rw [joinMessage, hnone, List.filterMap_nil]

section
variable {db : Db C} {messages : List (TransactionMessage C)} {R : List Event}
  (hdb : DbOk startBlock db) (hsub : messages.Sublist db.transaction_message.rows)
  (htop : ∀ e ∈ R, e.tx_id ≠ none → ∃ m ∈ messages, m.parent_id = none ∧ Matches e m)
include hdb hsub htop

/-- The join of events with their top-level messages only. -/
theorem flatMap_joinMessage
    (hall : ∀ joined ∈ R.flatMap (joinMessage db.transaction messages), JoinedTop db joined) :
    (R.flatMap (joinMessage db.transaction messages)).map (ibcMessage codec) =
      (R.filter fun e => e.tx_id ≠ none).map fun e =>
        (topJoined db e).bind (ibcMessage codec) := by
  induction R with
  | nil => rfl
  | cons e R ih =>
    rw [List.flatMap_cons] at hall ⊢
    have hrest := ih (fun e he => htop e (List.mem_cons_of_mem _ he))
      (fun j hj => hall j (List.mem_append_right _ hj))
    by_cases he : e.tx_id = none
    · rw [joinMessage_of_null he, List.nil_append, hrest,
        List.filter_cons_of_neg (by simpa using he)]
    · obtain ⟨m, hm, hparent, hmatch⟩ := htop e List.mem_cons_self he
      rw [joinMessage_eq_top hdb hsub hm hparent hmatch
          fun j hj => hall j (List.mem_append_left _ hj),
        List.filter_cons_of_pos (by simpa using he), List.map_cons, List.map_append, hrest,
        topJoined_eq hdb (hsub.subset hm) hparent hmatch]
      rfl

/-- As many rows as events means that no event was joined with a sub-message. -/
theorem joinedTop_of_length_flatMap
    (hlen : (R.flatMap (joinMessage db.transaction messages)).length =
      (R.filter fun e => e.tx_id ≠ none).length) :
    ∀ joined ∈ R.flatMap (joinMessage db.transaction messages), JoinedTop db joined := by
  have hcount : (R.filter fun e => e.tx_id ≠ none).length =
      (R.map fun e => if e.tx_id ≠ none then 1 else 0).sum := by
    rw [List.sum_map_ite]
    simp
  have hle : ∀ e ∈ R, (if e.tx_id ≠ none then 1 else 0) ≤
      (joinMessage db.transaction messages e).length := by
    intro e he
    split
    · next hid =>
      obtain ⟨m, hm, hparent, hmatch⟩ := htop e he hid
      rw [joinMessage_eq e fun m hm => hdb.message_tx m (hsub.subset hm), List.length_map]
      exact List.length_pos_of_mem (List.mem_filter.mpr ⟨hm, by simpa using hmatch⟩)
    · exact Nat.zero_le _
  have hone := length_flatMap_eq hle (hlen.trans hcount).le
  intro joined hj
  obtain ⟨e, he, hj⟩ := List.mem_flatMap.mp hj
  by_cases hid : e.tx_id = none
  · rw [joinMessage_of_null hid] at hj
    cases hj
  · obtain ⟨m, hm, hparent, hmatch⟩ := htop e he hid
    have hlen' := hone e he
    rw [if_pos hid] at hlen'
    exact joinedTop_of_length hdb hsub hm hparent hmatch hlen' joined hj

end

/-! ### What the other jobs leave as it is -/

/-- `db'` comes from `db` by a commit of another job: it adds messages, and events above the
handled height. -/
structure Extends (startBlock : ℕ) (db db' : Db C) : Prop where
  ibc_eq : db'.ibc_message = db.ibc_message
  reached_eq : reached startBlock db' = reached startBlock db
  handled_le : handled startBlock db ≤ handled startBlock db'
  messages : db.transaction_message.rows <+: db'.transaction_message.rows
  event : ∃ new, db'.event = db.event ++ new ∧
    ∀ e ∈ new, handled startBlock db < e.block_height
  transaction : ∀ m ∈ db.transaction_message.rows,
    db'.transaction.get? m.tx_id = db.transaction.get? m.tx_id

variable {db db' : Db C}

theorem Extends.packetEvents_eq (h : Extends startBlock db db') {start endHeight : ℕ}
    (hend : endHeight ≤ handled startBlock db) :
    packetEvents db'.event start endHeight = packetEvents db.event start endHeight := by
  obtain ⟨new, heq, hnew⟩ := h.event
  have hnil : between (·.block_height) start endHeight
      (new.filter fun e => e.type ∈ packetTypes) = [] := by
    refine between_eq_nil fun e he _ => ?_
    exact lt_of_le_of_lt hend (hnew e (List.mem_of_mem_filter he))
  rw [packetEvents, heq, List.filter_append, between_append_rows, hnil, List.append_nil,
    packetEvents]

theorem Extends.txPacketEvents_eq (h : Extends startBlock db db') {height : ℕ}
    (hheight : height ≤ handled startBlock db) :
    txPacketEvents db' height = txPacketEvents db height := by
  obtain ⟨new, heq, hnew⟩ := h.event
  have hnil : (new.filter fun e => e.type ∈ packetTypes).filter (fun e =>
      decide (e.tx_id ≠ none) && decide (e.block_height ≤ height)) = [] := by
    rw [List.filter_eq_nil_iff]
    intro e he
    have := hnew e (List.mem_of_mem_filter he)
    simp only [Bool.and_eq_true, decide_eq_true_eq, not_and]
    omega
  rw [txPacketEvents, heq, List.filter_append, List.filter_append, hnil, List.append_nil,
    txPacketEvents]

/-- What the run has read stays true. -/
theorem RunOk.mono {run : AppRun} (hrun : RunOk startBlock db run)
    (h : Extends startBlock db db') : RunOk startBlock db' run := by
  cases run with
  | idle => trivial
  | ranged start endHeight row =>
    obtain ⟨hrow, rfl, hle, hend⟩ := hrun
    exact ⟨hrow, h.reached_eq.symm, hle, hend.trans h.handled_le⟩
  | fetched endHeight row events =>
    obtain ⟨hrow, hle, hend, messages, hpre, htop, hperm⟩ := hrun
    refine ⟨hrow, h.reached_eq ▸ hle, hend.trans h.handled_le, messages, hpre.trans h.messages,
      ?_, ?_⟩
    · rw [h.reached_eq, h.packetEvents_eq hend]
      exact htop
    · rw [h.reached_eq, h.packetEvents_eq hend]
      have hjoin : joinMessage db'.transaction messages = joinMessage db.transaction messages := by
        funext e
        refine List.filterMap_congr fun m hm => ?_
        rw [h.transaction m (hpre.subset (List.mem_of_mem_filter hm))]
      rw [hjoin]
      exact hperm

/-- The rows that are there stay the right ones. -/
theorem OneRowPerEvent.mono (hP : OneRowPerEvent codec startBlock db) (hdb : DbOk startBlock db)
    (hdb' : DbOk startBlock db') (h : Extends startBlock db db') :
    OneRowPerEvent codec startBlock db' := by
  have hmap : ∀ e ∈ txPacketEvents db (reached startBlock db), topJoined db' e = topJoined db e := by
    intro e he
    simp only [txPacketEvents, List.mem_filter, Bool.and_eq_true, decide_eq_true_eq] at he
    obtain ⟨⟨hmem, htype⟩, hid, -⟩ := he
    obtain ⟨m, hm, htop, hmatch⟩ := hdb.event_top e hmem htype hid
    rw [topJoined_eq hdb hm htop hmatch, topJoined_eq hdb' (h.messages.subset hm) htop hmatch,
      joinedWith, joinedWith, h.transaction m hm]
  have hrows : ((txPacketEvents db (reached startBlock db)).map fun e =>
      (topJoined db' e).bind (ibcMessage codec)) =
      (txPacketEvents db (reached startBlock db)).map fun e =>
        (topJoined db e).bind (ibcMessage codec) :=
    List.map_congr_left fun e he => by rw [hmap e he]
  rw [OneRowPerEvent, h.ibc_eq, h.reached_eq, h.txPacketEvents_eq hdb.reached_le, hrows]
  exact hP

theorem startHeight_eq_of_heightOf {t t' : Checkpoints BullJobName} {j : BullJobName}
    (h : heightOf t' j = heightOf t j) : startHeight startBlock t' j = startHeight startBlock t j := by
  rw [startHeight, startHeight, h]

/-- `HANDLE_TRANSACTION` -/
theorem commitBatch_extends (hdb : DbOk startBlock db) {batch : Batch C}
    (hok : BatchOk startBlock db batch) : Extends startBlock db (commitBatch db batch) where
  ibc_eq := rfl
  reached_eq := by rw [reached, commitBatch, startHeight_storeCheckpoint, if_neg (by simp), reached]
  handled_le := by
    rw [handled, handled, commitBatch, startHeight_storeCheckpoint, if_pos rfl]
    exact hok.1.le
  messages := List.prefix_append _ _
  event := ⟨batch.event, rfl, fun e he => (hok.2.2.2.2.1 e he).1⟩
  transaction := by
    intro m hm
    refine Table.get?_upsertAll_of_ne fun tx htx hid => ?_
    exact hdb.message_tx m hm (hid ▸ hok.2.1 tx htx)

theorem commitBatch_ok (hdb : DbOk startBlock db) {batch : Batch C}
    (hok : BatchOk startBlock db batch) : DbOk startBlock (commitBatch db batch) := by
  have hext := commitBatch_extends hdb hok
  obtain ⟨hlt, hfresh, hmsg, hnd, hevent, htop⟩ := hok
  have hget : ∀ id, (commitBatch db batch).transaction.get? id =
      (batch.transaction.get? id).or (db.transaction.get? id) := fun id => Table.get?_upsertAll ..
  have hhandled : handled startBlock (commitBatch db batch) = batch.endBlock := by
    rw [handled, commitBatch, startHeight_storeCheckpoint, if_pos rfl]
  refine ⟨?_, ?_, ?_, ?_, ?_, ?_⟩
  · intro m hm
    rw [hget, ne_eq, Option.or_eq_none_iff, not_and_or]
    rcases List.mem_append.mp hm with hm | hm
    · exact .inr (hdb.message_tx m hm)
    · exact .inl (hmsg m.toNewMessage (mem_of_mem_withIds hm)).2
  · have hall : (withIds db.transaction_message.nextId batch.messages).filter
        (fun m => m.parent_id = none) = withIds db.transaction_message.nextId batch.messages := by
      rw [List.filter_eq_self]
      intro m hm
      simpa using (hmsg m.toNewMessage (mem_of_mem_withIds hm)).1
    have hkeys : (withIds db.transaction_message.nextId batch.messages).map
        (fun m => (m.tx_id, m.index)) = batch.messages.map fun m => (m.tx_id, m.index) := by
      conv_rhs => rw [← map_withIds db.transaction_message.nextId batch.messages, List.map_map]
      rfl
    show (((db.transaction_message.rows ++ _).filter _).map _).Nodup
    rw [List.filter_append, List.map_append, hall, hkeys]
    refine List.nodup_append.mpr ⟨hdb.top_nodup, hnd, ?_⟩
    -- the transactions of the new messages are not in the old table
    rintro _ ha _ hb rfl
    obtain ⟨m, hm, hkey⟩ := List.mem_map.mp ha
    obtain ⟨m', hm', hkey'⟩ := List.mem_map.mp hb
    have htx : m'.tx_id = m.tx_id := congrArg Prod.fst (hkey'.trans hkey.symm)
    obtain ⟨tx, hget'⟩ := Option.ne_none_iff_exists'.mp (hmsg m' hm').2
    obtain ⟨hmem, hid⟩ := Table.get?_eq_some_iff.mp hget'
    refine hdb.message_tx m (List.mem_of_mem_filter hm) ?_
    rw [← htx, ← hid]
    exact hfresh tx hmem
  · intro e he
    rw [hhandled]
    rcases List.mem_append.mp he with he | he
    · exact (hdb.event_le e he).trans hlt.le
    · exact (hevent e he).2
  · intro e he htype hid
    rcases List.mem_append.mp he with he | he
    · obtain ⟨m, hm, hparent, hmatch⟩ := hdb.event_top e he htype hid
      exact ⟨m, hext.messages.subset hm, hparent, hmatch⟩
    · obtain ⟨m, hm, hmatch⟩ := htop e he htype hid
      rw [← map_withIds db.transaction_message.nextId batch.messages] at hm
      obtain ⟨row, hrow, rfl⟩ := List.mem_map.mp hm
      exact ⟨row, List.mem_append_right _ hrow, (hmsg _ (mem_of_mem_withIds hrow)).1, hmatch⟩
  · rw [hext.reached_eq]
    exact hdb.reached_le.trans hext.handled_le
  · intro h hh
    refine le_trans (hdb.tao_le h ?_) hext.handled_le
    rw [commitBatch, storeCheckpoint, heightOf_upsert, if_neg (by simp)] at hh
    exact hh

/-- `CRAWL_IBC_TAO` does not pass `HANDLE_TRANSACTION`. -/
theorem crawlIbcTao_ok (hdb : DbOk startBlock db) :
    let db' := { db with
      block_checkpoint := runJob startBlock .crawlIbcTao Checkpoint.crawlIbcTao db.block_checkpoint }
    DbOk startBlock db' ∧ Extends startBlock db db' := by
  have hother : ∀ j, j ≠ .crawlIbcTao →
      heightOf (runJob startBlock .crawlIbcTao Checkpoint.crawlIbcTao db.block_checkpoint) j =
        heightOf db.block_checkpoint j := by
    intro j hj
    rw [PipelineLemmas.heightOf_runJob, if_neg]
    exact fun h => hj h.2.symm
  have hext : Extends startBlock db { db with
      block_checkpoint :=
        runJob startBlock .crawlIbcTao Checkpoint.crawlIbcTao db.block_checkpoint } :=
    { ibc_eq := rfl
      reached_eq := startHeight_eq_of_heightOf (hother _ (by simp))
      handled_le := (startHeight_eq_of_heightOf (hother _ (by simp))).ge
      messages := List.prefix_refl _
      event := ⟨[], (List.append_nil _).symm, by simp⟩
      transaction := fun _ _ => rfl }
  refine ⟨⟨hdb.message_tx, hdb.top_nodup, ?_, hdb.event_top, ?_, ?_⟩, hext⟩
  · exact fun e he => (hdb.event_le e he).trans hext.handled_le
  · exact hext.reached_eq ▸ hdb.reached_le.trans hext.handled_le
  · intro h hh
    refine le_trans ?_ hext.handled_le
    rw [PipelineLemmas.heightOf_runJob] at hh
    split at hh
    · cases hh
      refine endHeight_singleton_le fun m hm => ?_
      rw [handled, startHeight, hm, Option.getD_some]
    · exact hdb.tao_le h hh

/-- `HANDLE_AUTHZ_TX` adds sub-messages. -/
theorem handleAuthz_ok [MessageContent C] (hdb : DbOk startBlock db) :
    let out := Authz.handleAuthz startBlock db.transaction db.transaction_message
      db.block_checkpoint
    let db' := { db with transaction_message := out.1, block_checkpoint := out.2 }
    DbOk startBlock db' ∧ Extends startBlock db db' := by
  obtain ⟨new, hnew, hparent, hother⟩ := handleAuthz_spec startBlock db.transaction
    db.transaction_message db.block_checkpoint
  intro out db'
  have hrows : db'.transaction_message.rows =
      db.transaction_message.rows ++ withIds db.transaction_message.nextId new := by
    show out.1.rows = _
    rw [hnew, Messages.rows_insert]
  have hsub : ∀ m ∈ withIds db.transaction_message.nextId new,
      ∃ p ∈ db.transaction_message.rows, m.parent_id = some p.id ∧ m.tx_id = p.tx_id :=
    fun m hm => hparent m.toNewMessage (mem_of_mem_withIds hm)
  have hext : Extends startBlock db db' :=
    { ibc_eq := rfl
      reached_eq := startHeight_eq_of_heightOf (hother _ (by simp))
      handled_le := (startHeight_eq_of_heightOf (hother _ (by simp))).ge
      messages := hrows ▸ List.prefix_append _ _
      event := ⟨[], (List.append_nil _).symm, by simp⟩
      transaction := fun _ _ => rfl }
  refine ⟨⟨?_, ?_, ?_, ?_, ?_, ?_⟩, hext⟩
  · intro m hm
    rw [hrows] at hm
    rcases List.mem_append.mp hm with hm | hm
    · exact hdb.message_tx m hm
    · obtain ⟨p, hp, -, htx⟩ := hsub m hm
      rw [htx]
      exact hdb.message_tx p hp
  · have hnone : (withIds db.transaction_message.nextId new).filter
        (fun m => m.parent_id = none) = [] := by
      rw [List.filter_eq_nil_iff]
      intro m hm
      obtain ⟨p, -, hp, -⟩ := hsub m hm
      simp [hp]
    rw [hrows, List.filter_append, hnone, List.append_nil]
    exact hdb.top_nodup
  · exact fun e he => (hdb.event_le e he).trans hext.handled_le
  · intro e he htype hid
    obtain ⟨m, hm, htop, hmatch⟩ := hdb.event_top e he htype hid
    exact ⟨m, hext.messages.subset hm, htop, hmatch⟩
  · exact hext.reached_eq ▸ hdb.reached_le.trans hext.handled_le
  · intro h hh
    exact (hdb.tao_le h ((hother _ (by simp)).symm.trans hh)).trans hext.handled_le

/-! ### `CRAWL_IBC_APP` -/

theorem startRun_ok (hdb : DbOk startBlock db) : RunOk startBlock db (startRun startBlock db) := by
  have hname := getCheckpoint_job_name startBlock db.block_checkpoint .crawlIbcApp
    crawlIbcApp.lastHeightJobNames crawlIbcApp.blocksPerCall
  simp only [startRun]
  split
  · trivial
  · next hret =>
    refine ⟨hname, rfl, by simpa [crawlIbcApp, RangeTest.returns] using hret, ?_⟩
    show endHeight (startHeight startBlock db.block_checkpoint .crawlIbcApp) db.block_checkpoint
      [.crawlIbcTao] crawlIbcApp.blocksPerCall ≤ _
    exact endHeight_singleton_le hdb.tao_le

theorem fetched_ok (hdb : DbOk startBlock db) {start endHeight : ℕ}
    {row : BlockCheckpoint BullJobName}
    (hrun : RunOk startBlock db (.ranged start endHeight row)) :
    RunOk startBlock db (.fetched endHeight row (queryEvents db start endHeight)) := by
  obtain ⟨hrow, rfl, hle, hend⟩ := hrun
  refine ⟨hrow, hle, hend, db.transaction_message.rows, List.prefix_refl _, ?_, ?_⟩
  · intro e he hid
    obtain ⟨hmem, htype⟩ := List.mem_filter.mp (mem_between.mp he).1
    exact hdb.event_top e hmem (by simpa using htype) hid
  · exact (List.perm_insertionSort _ _).flatMap_right _

/-- The packet events up to a height, cut at a lower one. -/
theorem txPacketEvents_perm (db : Db C) {low high : ℕ} (h : low ≤ high) :
    (txPacketEvents db low ++
      (packetEvents db.event low high).filter fun e => e.tx_id ≠ none).Perm
        (txPacketEvents db high) := by
  have hsplit := List.filter_append_perm (fun e => decide (e.block_height ≤ low))
    (txPacketEvents db high)
  have hlow : (txPacketEvents db high).filter (fun e => decide (e.block_height ≤ low)) =
      txPacketEvents db low := by
    rw [txPacketEvents, List.filter_filter, txPacketEvents]
    refine List.filter_congr fun e _ => ?_
    by_cases hid : e.tx_id = none
    · simp [hid]
    · simp only [ne_eq, hid, not_false_eq_true, decide_true, Bool.true_and, ← Bool.decide_and,
        decide_eq_decide]
      omega
  have hhigh : (txPacketEvents db high).filter (fun e => !decide (e.block_height ≤ low)) =
      (packetEvents db.event low high).filter fun e => e.tx_id ≠ none := by
    simp only [txPacketEvents, packetEvents, between, List.filter_filter]
    refine List.filter_congr fun e _ => ?_
    by_cases hid : e.tx_id = none
    · simp [hid]
    · simp [hid, Bool.decide_and, ← decide_not, Bool.and_assoc]
  rwa [hlow, hhigh] at hsplit

theorem reached_commit {endHeight : ℕ} {row : BlockCheckpoint BullJobName}
    (hrow : row.job_name = .crawlIbcApp) {events : List JoinedEvent} {rows : List IbcMessage}
    (hrows : handleIbcMessage codec events = some rows) :
    reached startBlock (commitRun codec db endHeight row events) = endHeight := by
  rw [reached, commitRun, hrows]
  show startHeight startBlock (storeCheckpoint _ _ _) _ = _
  rw [startHeight_storeCheckpoint, if_pos hrow]

theorem handled_commit {endHeight : ℕ} {row : BlockCheckpoint BullJobName}
    (hrow : row.job_name = .crawlIbcApp) (events : List JoinedEvent) :
    handled startBlock (commitRun codec db endHeight row events) = handled startBlock db := by
  simp only [handled, commitRun]
  split
  · rfl
  · rw [startHeight_storeCheckpoint, if_neg (by simp [hrow])]

/-- A commit keeps what the tables promise. -/
theorem commitRun_ok (hdb : DbOk startBlock db) {endHeight : ℕ} {row : BlockCheckpoint BullJobName}
    {events : List JoinedEvent} (hrun : RunOk startBlock db (.fetched endHeight row events)) :
    DbOk startBlock (commitRun codec db endHeight row events) := by
  obtain ⟨hrow, hle, hend, -⟩ := hrun
  have hhandled : handled startBlock (commitRun codec db endHeight row events) =
      handled startBlock db := handled_commit hrow events
  cases hrows : handleIbcMessage codec events with
  | none =>
    simp only [commitRun, hrows]
    exact hdb
  | some rows =>
    have hreached : reached startBlock (commitRun codec db endHeight row events) = endHeight :=
      reached_commit hrow hrows
    simp only [commitRun, hrows] at hhandled hreached ⊢
    refine ⟨hdb.message_tx, hdb.top_nodup, ?_, hdb.event_top, ?_, ?_⟩
    · exact fun e he => hhandled ▸ hdb.event_le e he
    · rw [hreached, hhandled]
      exact hend
    · intro h hh
      rw [storeCheckpoint, heightOf_upsert, if_neg (by simp [hrow])] at hh
      exact hhandled ▸ hdb.tao_le h hh

/-- The exact effect of a commit on the property. -/
theorem commitRun_iff (hdb : DbOk startBlock db) {endHeight : ℕ}
    {row : BlockCheckpoint BullJobName} {events : List JoinedEvent}
    (hrun : RunOk startBlock db (.fetched endHeight row events))
    (hP : OneRowPerEvent codec startBlock db) {rows : List IbcMessage}
    (hrows : handleIbcMessage codec events = some rows) :
    OneRowPerEvent codec startBlock (commitRun codec db endHeight row events) ↔
      ∀ joined ∈ events, JoinedTop db joined := by
  obtain ⟨hrow, hle, -, messages, hpre, htop, hperm⟩ := hrun
  have hreached : reached startBlock (commitRun codec db endHeight row events) = endHeight :=
    reached_commit hrow hrows
  have hmap : rows.map some = events.map (ibcMessage codec) := (map_eq_of_mapM hrows).symm
  have hsplit := (txPacketEvents_perm db hle).map fun e => (topJoined db e).bind (ibcMessage codec)
  rw [List.map_append] at hsplit
  -- the commit appends the rows of the range to those that are there
  have hiff : OneRowPerEvent codec startBlock (commitRun codec db endHeight row events) ↔
      (events.map (ibcMessage codec)).Perm
        (((packetEvents db.event (reached startBlock db) endHeight).filter
          fun e => e.tx_id ≠ none).map fun e => (topJoined db e).bind (ibcMessage codec)) := by
    rw [OneRowPerEvent, hreached]
    simp only [commitRun, hrows, List.map_append, hmap]
    show List.Perm _ ((txPacketEvents db endHeight).map fun e =>
      (topJoined db e).bind (ibcMessage codec)) ↔ _
    constructor
    · intro h
      have hcut := (h.trans hsplit.symm).trans (List.Perm.append_right _ hP.symm)
      exact (List.perm_append_left_iff (db.ibc_message.map some)).mp hcut
    · intro h
      exact ((h.append_left (db.ibc_message.map some)).trans (List.Perm.append_right _ hP)).trans hsplit
  have hmem : ∀ joined, joined ∈ events ↔ joined ∈
      (packetEvents db.event (reached startBlock db) endHeight).flatMap
        (joinMessage db.transaction messages) := fun _ => hperm.mem_iff
  rw [hiff]
  simp only [hmem]
  constructor
  · intro h
    refine joinedTop_of_length_flatMap hdb hpre.sublist htop ?_
    have hlen := h.length_eq
    rw [List.length_map, List.length_map] at hlen
    exact hperm.length_eq.symm.trans hlen
  · intro hall
    rw [← flatMap_joinMessage hdb hpre.sublist htop hall]
    exact hperm.map _

/-! ### The steps -/

variable [MessageContent C]

theorem appStep_ok (s : System C) (a : AppStep C) (hs : SystemOk startBlock s) :
    SystemOk startBlock (appStep codec startBlock s a) := by
  cases a with
  | handleTransaction batch =>
    simp only [appStep]
    split
    case isFalse => exact hs
    case isTrue hok =>
      exact ⟨commitBatch_ok hs.db hok, RunOk.mono hs.run (commitBatch_extends hs.db hok)⟩
  | crawlIbcTao =>
    obtain ⟨hdb, hext⟩ := crawlIbcTao_ok hs.db
    exact ⟨hdb, RunOk.mono hs.run hext⟩
  | handleAuthz =>
    obtain ⟨hdb, hext⟩ := handleAuthz_ok hs.db
    exact ⟨hdb, RunOk.mono hs.run hext⟩
  | getCheckpoint =>
    simp only [appStep]
    split
    · exact ⟨hs.db, startRun_ok hs.db⟩
    · exact hs
  | readEvents =>
    simp only [appStep]
    split
    case h_2 => exact hs
    case h_1 start endHeight row hrun =>
      have hr := hs.run
      rw [hrun] at hr
      exact ⟨hs.db, fetched_ok hs.db hr⟩
  | commit =>
    simp only [appStep]
    split
    case h_2 => exact hs
    case h_1 endHeight row events hrun =>
      have hr := hs.run
      rw [hrun] at hr
      exact ⟨commitRun_ok hs.db hr, trivial⟩
  | fail => exact ⟨hs.db, trivial⟩

/-- A step keeps the property if and only if it meets the condition. -/
theorem appStep_iff (s : System C) (a : AppStep C) (hs : SystemOk startBlock s)
    (hP : OneRowPerEvent codec startBlock s.db) :
    OneRowPerEvent codec startBlock (appStep codec startBlock s a).db ↔ CommitReady codec s a := by
  cases a with
  | handleTransaction batch =>
    refine iff_of_true ?_ trivial
    simp only [appStep]
    split
    case isFalse => exact hP
    case isTrue hok =>
      exact OneRowPerEvent.mono hP hs.db (commitBatch_ok hs.db hok) (commitBatch_extends hs.db hok)
  | crawlIbcTao =>
    obtain ⟨hdb, hext⟩ := crawlIbcTao_ok hs.db
    exact iff_of_true (OneRowPerEvent.mono hP hs.db hdb hext) trivial
  | handleAuthz =>
    obtain ⟨hdb, hext⟩ := handleAuthz_ok hs.db
    exact iff_of_true (OneRowPerEvent.mono hP hs.db hdb hext) trivial
  | getCheckpoint =>
    refine iff_of_true ?_ trivial
    simp only [appStep]
    split
    · exact hP
    · exact hP
  | readEvents =>
    refine iff_of_true ?_ trivial
    simp only [appStep]
    split
    · exact hP
    · exact hP
  | fail => exact iff_of_true hP trivial
  | commit =>
    have hr := hs.run
    simp only [appStep, CommitReady]
    cases hrun : s.run with
    | idle => simpa using hP
    | ranged start endHeight row => simpa using hP
    | fetched endHeight row events =>
      rw [hrun] at hr
      cases hrows : handleIbcMessage codec events with
      | none =>
        refine iff_of_true ?_ fun _ _ _ heq hne => ?_
        · simpa only [commitRun, hrows] using hP
        · cases heq
          exact absurd hrows hne
      | some rows =>
        rw [commitRun_iff hs.db hr hP hrows]
        constructor
        · rintro hall _ _ _ heq -
          cases heq
          exact hall
        · intro h
          exact h _ _ _ rfl (by simp [hrows])

omit [MessageContent C] in
theorem initial_ok : SystemOk startBlock (System.initial : System C) where
  run := trivial
  db :=
    { message_tx := fun _ h => by cases h
      top_nodup := List.nodup_nil
      event_le := fun _ h => by cases h
      event_top := fun _ h => by cases h
      reached_le := le_refl _
      tao_le := fun _ h => by simp [System.initial] at h }

end AppLemmas

open AppLemmas

/-! ## 7. The result -/

/-- Exactly when there is one row per packet event: the commits of `CRAWL_IBC_APP` hold no
event that was joined with a sub-message. -/
theorem one_row_per_event_iff (steps : List (AppStep C)) :
    (∀ p, p <+: steps →
      OneRowPerEvent codec startBlock (runFrom (appStep codec startBlock) System.initial p).db) ↔
    Meets (appStep codec startBlock) (CommitReady codec) (System.initial : System C) steps := by
  have hinit : OneRowPerEvent codec startBlock (System.initial : System C).db := List.Perm.refl _
  exact @forall_prefix_iff_meets _ _ _ _ _ (fun s => OneRowPerEvent codec startBlock s.db)
    appStep_ok appStep_iff _ _ initial_ok hinit

end

/-! ## 8. A packet sent from a `MsgExec` -/

/-- Messages, one level deep. -/
inductive Msg
  | plain (type : String)
  | exec (types : List String)
deriving DecidableEq

instance : MessageContent Msg where
  type
    | .plain type => type
    | .exec _ => msgAuthzExec
  msgs
    | .plain _ => []
    | .exec types => types.map .plain

/-- The block of height 1: one transaction with one `MsgExec`, which contains one transfer. -/
def execBatch : Batch Msg where
  transaction := ⟨[⟨1, 1, "A0"⟩], by decide⟩
  messages := [⟨1, 0, msgAuthzExec, .exec ["/ibc.applications.transfer.v1.MsgTransfer"], none, "a"⟩]
  event :=
    [{ id := 1
       tx_id := some 1
       tx_msg_index := some 0
       type := sendPacket
       block_height := 1
       attributes :=
        [⟨"packet_src_channel", some "channel-0"⟩, ⟨"packet_src_port", some "transfer"⟩,
          ⟨"packet_dst_channel", some "channel-1"⟩, ⟨"packet_dst_port", some "transfer"⟩,
          ⟨"packet_sequence", some "7"⟩] }]
  endBlock := 1

/-- The number in the example. -/
def sevenCodec : Codec where
  fromHexUtf8 _ := none
  toNumber s := if s = "7" then some 7 else none

/-- When `HANDLE_AUTHZ_TX` runs before `CRAWL_IBC_APP`, the one packet event of the transaction
gets a row for the `MsgExec` and one for the transfer inside it. -/
theorem rows_for_sub_message :
    let steps : List (AppStep Msg) :=
      [.handleTransaction execBatch, .crawlIbcTao, .handleAuthz, .getCheckpoint, .readEvents, .commit]
    let db := (runFrom (appStep sevenCodec 0) System.initial steps).db
    reached 0 db = 1 ∧ (txPacketEvents db 1).length = 1 ∧
      db.ibc_message.map (·.transaction_message_id) = [1, 2] ∧
      ¬ OneRowPerEvent sevenCodec 0 db := by
  decide +kernel

end Erascope.Ibc
