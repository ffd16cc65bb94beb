import Mathlib.Tactic
import Erascope.Lib.Rows
import Erascope.Lib.Fold
import Erascope.Ibc.App

/-!
# The status of ICS20 transfers

The model of `services/ibc/crawl_ibc_ics20.service.ts`. A run takes the IBC messages of its
range in four passes: the sends become rows with the status `ongoing`, the receipts become
rows of their own, and the acknowledgements and timeouts look up the row of their send through
`sequence_key` and set its status and finish time. All passes and the checkpoint are one
database transaction; a pass that throws leaves everything as it was.

The index starts at `startBlock`, so an acknowledgement can belong to a send that was never
indexed. `updateOriginSendStatus` then writes to a property of `undefined`.

Results:
1. `statuses_iff`: for a consistent history and any ranges, all runs succeed and every send
   row carries the outcome of its own packet, if and only if no packet that is settled in the
   ranges was sent at or before `startBlock`.
2. `settled_before_index`: a transfer sent before `startBlock` blocks the job.
-/

namespace Erascope.Ibc.Ics20

open Checkpoint

/-! ## 1. Rows -/

/-- `IbcMessage.EVENT_TYPE` -/
inductive PacketType
  | sendPacket | recvPacket | acknowledgePacket | timeoutPacket
deriving DecidableEq, Repr

/-- `IbcIcs20.STATUS_TYPE` -/
inductive Status
  | ongoing | ackSuccess | ackError | timeout
deriving DecidableEq, Repr

/-- An event of a message, with its attributes. -/
structure MessageEvent where
  type : String
  attributes : List EventAttribute
deriving DecidableEq, Repr

/-- The fields of `ibc_message.data` that the job reads. -/
structure PacketData where
  sender : Option String
  receiver : Option String
  amount : Option String
  denom : Option String
  memo : Option String
deriving DecidableEq, Repr

/-- A row of `ibc_message`, joined with its message, the events of the message and the
transaction. -/
structure IbcMessage where
  id : ℕ
  type : PacketType
  src_channel_id : String
  src_port_id : String
  dst_channel_id : String
  dst_port_id : String
  sequence : String
  data : PacketData
  message_id : ℕ
  events : List MessageEvent
  height : ℕ
  timestamp : String
deriving DecidableEq, Repr

/-- The key that `handleIbcMessage` stores with the message. -/
def IbcMessage.sequence_key (m : IbcMessage) : String :=
  sequenceKey (some (some m.src_channel_id)) (some (some m.src_port_id))
    (some (some m.dst_channel_id)) (some (some m.dst_port_id)) (some (some m.sequence))

/-- A row of `ibc_ics20` before it has an id. -/
structure NewIcs20 where
  ibc_message_id : ℕ
  sender : Option String
  receiver : String
  amount : String
  denom : String
  memo : Option String
  channel_id : String
  status : Status
  sequence_key : String
  type : PacketType
  start_time : Option String
  finish_time : Option String
deriving DecidableEq, Repr

/-- A row of `ibc_ics20`. -/
structure IbcIcs20 extends NewIcs20 where
  id : ℕ
deriving DecidableEq, Repr

/-- The tables that the job reads and writes. -/
structure Db where
  ibc_message : List IbcMessage
  ibc_ics20 : Table IbcIcs20.id
  block_checkpoint : Checkpoints BullJobName

/-- What ends a run. -/
inductive Ics20Error
  /-- `fromJson` misses a required property. -/
  | validation (id : ℕ)
  | recvEvents (id : ℕ)
  | recvDenom (id : ℕ)
  | ackEvents (id : ℕ)
  /-- A write to a property of `undefined`. -/
  | undefinedRow
  /-- The unique key on `ibc_message_id`. -/
  | uniqueMessage (id : ℕ)
deriving DecidableEq, Repr

/-- The texts of the errors that the job throws itself. -/
def Ics20Error.text : Ics20Error → Option String
  | .recvEvents id => some s!"Recv ibc hasn't emmitted events: {id}"
  | .recvDenom id => some s!"Recv ibc hasn't emit denom: {id}"
  | .ackEvents id => some s!"Ack ibc hasn't emmitted enough events: {id}"
  | _ => none

/-! ## 2. Reading and inserting -/

/-- `config.crawlIbcIcs20.port` -/
def ics20Port : String := "transfer"

/-- The messages of a range that satisfy `p`, `orderBy('message.id')`. -/
def query (p : IbcMessage → Bool) (rows : List IbcMessage) (startHeight endHeight : ℕ) :
    List IbcMessage :=
  (between (·.height) startHeight endHeight (rows.filter p)).insertionSort
    fun a b => a.message_id ≤ b.message_id

/-- The next value of the sequence of `ibc_ics20`. -/
def nextId (t : Table IbcIcs20.id) : ℕ := (t.rows.map (·.id)).foldr max 0 + 1

/-- The insertion of one row; `ibc_message_id` is unique. -/
def insertOne (t : Table IbcIcs20.id) (new : NewIcs20) : Except Ics20Error (Table IbcIcs20.id) :=
  if new.ibc_message_id ∈ t.rows.map (·.ibc_message_id) then
    .error (.uniqueMessage new.ibc_message_id)
  else .ok (t.upsert { new with id := nextId t })

/-- `IbcIcs20.query().insert(ibcIcs20s)` -/
def insertAll (t : Table IbcIcs20.id) (news : List NewIcs20) :
    Except Ics20Error (Table IbcIcs20.id) :=
  news.foldlM insertOne t

/-- A property that the schema requires. -/
def require (id : ℕ) : Option String → Except Ics20Error String
  | some s => .ok s
  | none => .error (.validation id)

/-! ## 3. The four passes -/

/-- `EVENT_TYPE.FUNGIBLE_TOKEN_PACKET` -/
def fungibleTokenPacket : String := "fungible_token_packet"

/-- `EVENT_TYPE.DENOM_TRACE` -/
def denomTrace : String := "denomination_trace"

def isSend (m : IbcMessage) : Bool :=
  decide (m.src_port_id = ics20Port) && decide (m.type = .sendPacket)

def isRecv (m : IbcMessage) : Bool :=
  decide (m.dst_port_id = ics20Port) && decide (m.type = .recvPacket)

def isAck (m : IbcMessage) : Bool :=
  decide (m.src_port_id = ics20Port) && decide (m.type = .acknowledgePacket)

def isTimeout (m : IbcMessage) : Bool :=
  decide (m.src_port_id = ics20Port) && decide (m.type = .timeoutPacket)

/-- The row of a send. -/
def sendRow (m : IbcMessage) : Except Ics20Error NewIcs20 := do
  let receiver ← require m.id m.data.receiver
  let amount ← require m.id m.data.amount
  let denom ← require m.id m.data.denom
  return {
    ibc_message_id := m.id
    sender := m.data.sender
    receiver := receiver
    amount := amount
    denom := denom
    memo := m.data.memo
    channel_id := m.src_channel_id
    status := .ongoing
    sequence_key := m.sequence_key
    type := m.type
    start_time := some m.timestamp
    finish_time := none }

def handleIcs20Send (rows : List IbcMessage) (startHeight endHeight : ℕ) (t : Table IbcIcs20.id) :
    Except Ics20Error (Table IbcIcs20.id) := do
  let ibcIcs20s ← (query isSend rows startHeight endHeight).mapM sendRow
  insertAll t ibcIcs20s

/-- `parseDenom` -/
def parseDenom (denom : String) (isSource : Bool) (dstPort dstChannel : String) : String :=
  if isSource then "/".intercalate ((denom.splitOn "/").drop 2)
  else dstPort ++ "/" ++ dstChannel ++ "/" ++ denom

/-- The row of a receipt. A null attribute is stored as the empty text. -/
def recvRow (m : IbcMessage) : Except Ics20Error NewIcs20 := do
  match m.events.find? (·.type = fungibleTokenPacket) with
  | none => throw (.recvEvents m.id)
  | some recvEvent =>
    let attr := getAttributeFrom recvEvent.attributes
    match attr "denom" with
    | none => throw (.recvDenom m.id)
    | some originalDenom =>
      let isSource := (m.events.find? (·.type = denomTrace)).isNone
      let receiver ← require m.id (requiredString (attr "receiver"))
      let amount ← require m.id (requiredString (attr "amount"))
      return {
        ibc_message_id := m.id
        sender := (attr "sender").join
        receiver := receiver
        amount := amount
        denom := parseDenom (originalDenom.getD "") isSource m.dst_port_id m.dst_channel_id
        memo := (attr "memo").join
        channel_id := m.dst_channel_id
        status := if attr "success" = some (some "true") then .ackSuccess else .ackError
        sequence_key := m.sequence_key
        type := m.type
        start_time := none
        finish_time := some m.timestamp }

def handleIcs20Recv (rows : List IbcMessage) (startHeight endHeight : ℕ) (t : Table IbcIcs20.id) :
    Except Ics20Error (Table IbcIcs20.id) := do
  let ibcIcs20s ← (query isRecv rows startHeight endHeight).mapM recvRow
  insertAll t ibcIcs20s

/-- The send rows with the keys of `msgs`. -/
def stored (msgs : List IbcMessage) (t : Table IbcIcs20.id) : List IbcIcs20 :=
  t.rows.filter fun r =>
    decide (r.sequence_key ∈ msgs.map (·.sequence_key)) && decide (r.type = .sendPacket)

/-- The rows by `sequence_key`. -/
abbrev Keyed := Table fun r : IbcIcs20 => r.sequence_key

/-- `_.keyBy(rows, 'sequence_key')`: a later row of one key replaces an earlier one. -/
def keyBy (rows : List IbcIcs20) : Keyed := Table.upsertAll Table.empty rows

/-- `ibcIcs20sKeyBy[msg.sequence_key].finish_time = ...; ....status = type` -/
def setStatus (status : Status) (keyed : Keyed) (msg : IbcMessage) : Except Ics20Error Keyed :=
  match keyed.get? msg.sequence_key with
  | none => .error .undefinedRow
  | some row =>
    .ok (keyed.upsert { row with finish_time := some msg.timestamp, status := status })

def updateOriginSendStatus (msgs : List IbcMessage) (status : Status) (t : Table IbcIcs20.id) :
    Except Ics20Error (Table IbcIcs20.id) := do
  let ibcIcs20sKeyBy ← msgs.foldlM (setStatus status) (keyBy (stored msgs t))
  return t.upsertAll ibcIcs20sKeyBy.rows

/-- `message.events(selectIcs20Event)` of an acknowledgement. -/
def ackEvents (ack : IbcMessage) : List MessageEvent :=
  ack.events.filter (·.type = fungibleTokenPacket)

/-- Whether the second event of an acknowledgement carries `success`. -/
def ackSuccess (ack : IbcMessage) : Except Ics20Error Bool :=
  match ackEvents ack with
  | [_, event] => .ok (getAttributeFrom event.attributes "success").isSome
  | _ => .error (.ackEvents ack.id)

/-- `Array.prototype.filter` with a predicate that can throw. -/
def filterThrow {α ε : Type} (p : α → Except ε Bool) : List α → Except ε (List α)
  | [] => .ok []
  | a :: as => do
    let keep ← p a
    let rest ← filterThrow p as
    return if keep then a :: rest else rest

def handleIcs20Ack (rows : List IbcMessage) (startHeight endHeight : ℕ) (t : Table IbcIcs20.id) :
    Except Ics20Error (Table IbcIcs20.id) := do
  let ics20Acks := query isAck rows startHeight endHeight
  let acksSuccess ← filterThrow ackSuccess ics20Acks
  let t ← updateOriginSendStatus acksSuccess .ackSuccess t
  let acksError ← filterThrow (fun ack => return !(← ackSuccess ack)) ics20Acks
  updateOriginSendStatus acksError .ackError t

def handleIcs20Timeout (rows : List IbcMessage) (startHeight endHeight : ℕ)
    (t : Table IbcIcs20.id) : Except Ics20Error (Table IbcIcs20.id) :=
  updateOriginSendStatus (query isTimeout rows startHeight endHeight) .timeout t

/-- The height from which the next run starts. -/
def reached (startBlock : ℕ) (db : Db) : ℕ :=
  startHeight startBlock db.block_checkpoint .crawlIbcIcs20

/-- A run up to `endHeight`, which `getCheckpoint` takes from `CRAWL_IBC_APP`: the messages of
all heights up to it are stored. -/
def crawlIbcIcs20 (startBlock : ℕ) (db : Db) (endHeight : ℕ) : Except Ics20Error Db := do
  let start := reached startBlock db
  if endHeight < start then return db
  let t ← handleIcs20Send db.ibc_message start endHeight db.ibc_ics20
  let t ← handleIcs20Recv db.ibc_message start endHeight t
  let t ← handleIcs20Ack db.ibc_message start endHeight t
  let t ← handleIcs20Timeout db.ibc_message start endHeight t
  let updateBlockCheckpoint : BlockCheckpoint BullJobName := ⟨.crawlIbcIcs20, start⟩
  return { db with
    ibc_ics20 := t
    block_checkpoint := storeCheckpoint db.block_checkpoint updateBlockCheckpoint endHeight }

/-- The index of a history from `startBlock` on: its messages above `startBlock`. -/
def initialDb (startBlock : ℕ) (history : List IbcMessage) : Db where
  ibc_message := history.filter fun m => startBlock < m.height
  ibc_ics20 := Table.empty
  block_checkpoint := Table.empty

/-- The runs up to the heights `ends`, one after the other. -/
def crawlAll (startBlock : ℕ) (history : List IbcMessage) (ends : List ℕ) :
    Except Ics20Error Db :=
  ends.foldlM (crawlIbcIcs20 startBlock) (initialDb startBlock history)

/-! ## 4. Histories -/

/-- A packet on the ICS20 port, by its source channel and sequence. -/
def packet (m : IbcMessage) : String × String := (m.src_channel_id, m.sequence)

/-- The ICS20 sends of a history. -/
def sends (history : List IbcMessage) : List IbcMessage := history.filter isSend

/-- The acknowledgements and timeouts of ICS20 packets. -/
def settlements (history : List IbcMessage) : List IbcMessage :=
  history.filter fun m => isAck m || isTimeout m

/-- What IBC promises: a packet is sent once, is acknowledged or timed out at most once, after
it was sent and on this chain, and a channel has one counterparty. The events and the packet
data are those of ibc-go. -/
structure Consistent (history : List IbcMessage) : Prop where
  id_nodup : (history.map (·.id)).Nodup
  channel_id : ∀ m ∈ history, '.' ∉ m.src_channel_id.toList
  counterparty : ∀ m ∈ history, ∀ m' ∈ history, m.src_port_id = ics20Port →
    m'.src_port_id = ics20Port → m.src_channel_id = m'.src_channel_id →
    m.dst_channel_id = m'.dst_channel_id ∧ m.dst_port_id = m'.dst_port_id
  send_nodup : ((sends history).map packet).Nodup
  settle_nodup : ((settlements history).map packet).Nodup
  settle_send : ∀ a ∈ settlements history, ∃ m ∈ sends history,
    packet m = packet a ∧ m.height ≤ a.height
  send_data : ∀ m ∈ sends history,
    m.data.receiver ≠ none ∧ m.data.amount ≠ none ∧ m.data.denom ≠ none
  recv_event : ∀ m ∈ history, isRecv m = true → ∃ r, recvRow m = .ok r
  ack_events : ∀ m ∈ history, isAck m = true → (ackEvents m).length = 2

/-- The row of a send while its packet is on the way. -/
def sendContent (m : IbcMessage) : NewIcs20 where
  ibc_message_id := m.id
  sender := m.data.sender
  receiver := m.data.receiver.getD ""
  amount := m.data.amount.getD ""
  denom := m.data.denom.getD ""
  memo := m.data.memo
  channel_id := m.src_channel_id
  status := .ongoing
  sequence_key := m.sequence_key
  type := m.type
  start_time := some m.timestamp
  finish_time := none

/-- The row of a receipt. -/
def recvContent (m : IbcMessage) : NewIcs20 :=
  match recvRow m with
  | .ok r => r
  | .error _ => sendContent m

/-- The acknowledgement or timeout of the packet of a send. -/
def settlement (history : List IbcMessage) (m : IbcMessage) : Option IbcMessage :=
  (settlements history).find? fun a => packet a = packet m

/-- What an acknowledgement or a timeout says about the transfer. -/
def settleStatus (a : IbcMessage) : Status :=
  if isTimeout a then .timeout
  else if ackSuccess a = .ok true then .ackSuccess
  else .ackError

/-- The row of a send when the chain has reached `height`. -/
def expected (history : List IbcMessage) (height : ℕ) (m : IbcMessage) : NewIcs20 :=
  match (settlement history m).filter (·.height ≤ height) with
  | none => sendContent m
  | some a => { sendContent m with status := settleStatus a, finish_time := some a.timestamp }

/-- The stored rows without their ids. -/
def contents (t : Table IbcIcs20.id) : List NewIcs20 := t.rows.map (·.toNewIcs20)

/-- The send rows are those of the sends indexed so far, each with the outcome of its own
packet. -/
def StatusesRight (startBlock : ℕ) (history : List IbcMessage) (db : Db) : Prop :=
  ((contents db.ibc_ics20).filter (·.type = .sendPacket)).Perm
    ((between (·.height) startBlock (reached startBlock db) (sends history)).map
      (expected history (reached startBlock db)))

namespace Ics20Lemmas

/-! ### Keys -/

/-- Two texts that agree up to their first `a` agree before it. -/
theorem prefix_eq_of_append_cons_eq {α : Type} {a : α} {u v : List α} :
    ∀ {x y : List α}, a ∉ x → a ∉ y → x ++ a :: u = y ++ a :: v → x = y
  | [], [], _, _, _ => rfl
  | [], c :: y, _, hy, h => by
    rw [List.nil_append, List.cons_append, List.cons.injEq] at h
    exact absurd (h.1 ▸ List.mem_cons_self) hy
  | b :: x, [], hx, _, h => by
    rw [List.nil_append, List.cons_append, List.cons.injEq] at h
    exact absurd (h.1 ▸ List.mem_cons_self) hx
  | b :: x, c :: y, hx, hy, h => by
    rw [List.cons_append, List.cons_append, List.cons.injEq] at h
    rw [List.mem_cons, not_or] at hx hy
    rw [h.1, prefix_eq_of_append_cons_eq hx.2 hy.2 h.2]

/-- Messages of the ICS20 port with one key belong to one packet. -/
theorem sequence_key_eq_iff {history : List IbcMessage} (hH : Consistent history)
    {m m' : IbcMessage} (hm : m ∈ history) (hm' : m' ∈ history) (hp : m.src_port_id = ics20Port)
    (hp' : m'.src_port_id = ics20Port) :
    m.sequence_key = m'.sequence_key ↔ packet m = packet m' := by
  simp only [IbcMessage.sequence_key, sequenceKey, text, packet, Prod.mk.injEq, hp, hp']
  constructor
  · intro h
    have hlist := congrArg String.toList h
    have hdot : ".".toList = ['.'] := rfl
    simp only [String.toList_append, List.append_assoc, hdot, List.cons_append,
      List.nil_append] at hlist
    -- the channel ends at the first dot, and determines all but the sequence
    have hc : m.src_channel_id = m'.src_channel_id := String.toList_inj.mp
      (prefix_eq_of_append_cons_eq (hH.channel_id m hm) (hH.channel_id m' hm') hlist)
    obtain ⟨hdc, hdp⟩ := hH.counterparty m hm m' hm' hp hp' hc
    refine ⟨hc, String.toList_inj.mp ?_⟩
    simpa [hc, hdc, hdp] using hlist
  · rintro ⟨hc, hs⟩
    obtain ⟨hdc, hdp⟩ := hH.counterparty m hm m' hm' hp hp' hc
    rw [hc, hs, hdc, hdp]

/-! ### Lists of results -/

theorem filterThrow_ok {α ε : Type} {p : α → Except ε Bool} {q : α → Bool} {l : List α}
    (h : ∀ a ∈ l, p a = .ok (q a)) : filterThrow p l = .ok (l.filter q) := by
  induction l with
  | nil => rfl
  | cons a l ih =>
    rw [filterThrow, h a List.mem_cons_self, ih fun a ha => h a (List.mem_cons_of_mem _ ha),
      List.filter_cons]
    rfl

/-! ### Inserting -/

theorem get?_nextId (t : Table IbcIcs20.id) : t.get? (nextId t) = none := by
  rw [Table.get?_eq_none_iff]
  intro r hr hid
  have hle : ∀ {l : List ℕ} {n : ℕ}, n ∈ l → n ≤ l.foldr max 0 := by
    intro l n hn
    induction l with
    | nil => cases hn
    | cons x xs ih =>
      rcases List.mem_cons.mp hn with rfl | hn
      · exact le_max_left _ _
      · exact (ih hn).trans (le_max_right _ _)
  have := hle (List.mem_map_of_mem (f := (·.id)) hr)
  rw [hid, nextId] at this
  omega

theorem insertAll_ok {t : Table IbcIcs20.id} {news : List NewIcs20}
    (hnd : (((contents t) ++ news).map (·.ibc_message_id)).Nodup) :
    ∃ t', insertAll t news = .ok t' ∧ contents t' = contents t ++ news := by
  induction news generalizing t with
  | nil => exact ⟨t, rfl, (List.append_nil _).symm⟩
  | cons new news ih =>
    have hcontents : contents (t.upsert { new with id := nextId t }) = contents t ++ [new] := by
      have hrows : (t.upsert { new with id := nextId t }).rows =
          t.rows ++ [{ new with id := nextId t }] :=
        Table.rows_upsert_new (get?_nextId t)
      rw [contents, hrows, List.map_append]
      rfl
    have hfresh : new.ibc_message_id ∉ t.rows.map (·.ibc_message_id) := by
      rw [List.map_append, List.map_cons, contents, List.map_map] at hnd
      exact fun hmem => (List.nodup_append.mp hnd).2.2 _ hmem _ List.mem_cons_self rfl
    obtain ⟨t', ht', hc⟩ := @ih (t.upsert { new with id := nextId t }) (by
      rw [hcontents, List.append_assoc]
      exact hnd)
    refine ⟨t', ?_, ?_⟩
    · rw [insertAll, List.foldlM_cons, insertOne, if_neg hfresh]
      exact ht'
    · rw [hc, hcontents, List.append_assoc]
      rfl

/-! ### `updateOriginSendStatus` -/

/-- What the messages `msgs` do to a row. -/
def settle (msgs : List IbcMessage) (status : Status) (n : NewIcs20) : NewIcs20 :=
  if n.type = .sendPacket then
    match msgs.find? (·.sequence_key = n.sequence_key) with
    | some a => { n with finish_time := some a.timestamp, status := status }
    | none => n
  else n

/-- `settle` on a stored row. -/
def settleRow (msgs : List IbcMessage) (status : Status) (r : IbcIcs20) : IbcIcs20 :=
  { settle msgs status r.toNewIcs20 with id := r.id }

variable {msgs : List IbcMessage} {status : Status}

theorem settleRow_id (r : IbcIcs20) : (settleRow msgs status r).id = r.id := rfl

@[simp] theorem settle_type (n : NewIcs20) : (settle msgs status n).type = n.type := by
  unfold settle
  split
  · split <;> rfl
  · rfl

@[simp] theorem settle_sequence_key (n : NewIcs20) :
    (settle msgs status n).sequence_key = n.sequence_key := by
  unfold settle
  split
  · split <;> rfl
  · rfl

theorem settle_of_not_mem {n : NewIcs20}
    (h : n.sequence_key ∉ msgs.map (·.sequence_key)) : settle msgs status n = n := by
  have hnone : msgs.find? (·.sequence_key = n.sequence_key) = none := by
    rw [List.find?_eq_none]
    intro a ha
    have hne : a.sequence_key ≠ n.sequence_key := fun he => h (List.mem_map.mpr ⟨a, ha, he⟩)
    simpa using hne
  rw [settle, hnone]
  split <;> rfl

/-- The loop over the messages, when every key has a row. -/
theorem foldlM_setStatus_ok {d : Keyed}
    (hnd : (msgs.map (·.sequence_key)).Nodup) (hsend : ∀ r ∈ d.rows, r.type = .sendPacket)
    (hall : ∀ a ∈ msgs, d.get? a.sequence_key ≠ none) :
    ∃ d', msgs.foldlM (setStatus status) d = .ok d' ∧
      ∀ k, d'.get? k = (d.get? k).map (settleRow msgs status) := by
  induction msgs generalizing d with
  | nil =>
    refine ⟨d, rfl, fun k => ?_⟩
    have hid : settleRow [] status = id := by
      funext r
      simp [settleRow, settle]
    rw [hid, Option.map_id]
    rfl
  | cons a as ih =>
    rw [List.map_cons, List.nodup_cons] at hnd
    obtain ⟨row, hrow⟩ := Option.ne_none_iff_exists'.mp (hall a List.mem_cons_self)
    have hkey : row.sequence_key = a.sequence_key := by simpa using Table.key_of_get? hrow
    have htype : row.type = .sendPacket := hsend row (Table.mem_of_get? hrow)
    let row' : IbcIcs20 := { row with finish_time := some a.timestamp, status := status }
    have hstep : setStatus status d a = .ok (d.upsert row') := by rw [setStatus, hrow]
    have hget : ∀ k, (d.upsert row').get? k = if a.sequence_key = k then some row' else d.get? k := by
      intro k
      rw [Table.get?_upsert, ← hkey]
    obtain ⟨d', hfold, hd'⟩ := @ih (d.upsert row') hnd.2 (by
      intro r hr
      have hr' := hget r.sequence_key
      rw [Table.get?_eq_some_iff.mpr ⟨hr, rfl⟩] at hr'
      split at hr'
      · cases hr'
        exact htype
      · exact hsend r (Table.mem_of_get? hr'.symm)) (by
      intro b hb
      rw [hget]
      split
      · simp
      · exact hall b (List.mem_cons_of_mem a hb))
    refine ⟨d', ?_, fun k => ?_⟩
    · rw [List.foldlM_cons, hstep]
      exact hfold
    · rw [hd', hget]
      by_cases hk : a.sequence_key = k
      · -- the row of `a` is written now and not again
        subst hk
        have hlast : settleRow as status row' = row' := by
          rw [settleRow, settle_of_not_mem]
          show row.sequence_key ∉ _
          rw [hkey]
          exact hnd.1
        have hfirst : settleRow (a :: as) status row = row' := by
          simp [settleRow, settle, htype, hkey, row']
        rw [if_pos rfl, hrow, Option.map_some, Option.map_some, hlast, hfirst]
      · rw [if_neg hk]
        cases hr : d.get? k with
        | none => rfl
        | some r =>
          have hrk : r.sequence_key = k := by simpa using Table.key_of_get? hr
          simp [settleRow, settle, hrk, hk]

/-- The loop succeeds only when every key has a row. -/
theorem get?_of_foldlM_setStatus {d d' : Keyed}
    (h : msgs.foldlM (setStatus status) d = .ok d') :
    ∀ a ∈ msgs, d.get? a.sequence_key ≠ none := by
  induction msgs generalizing d with
  | nil => simp
  | cons a as ih =>
    obtain ⟨d₁, h₁, h₂⟩ := foldlM_cons_ok h
    simp only [setStatus] at h₁
    split at h₁
    case h_1 => cases h₁
    case h_2 row hrow =>
      cases h₁
      intro b hb
      rcases List.mem_cons.mp hb with rfl | hb
      · simp [hrow]
      · have hb' := ih h₂ b hb
        rw [Table.get?_upsert] at hb'
        split at hb'
        · next heq =>
          have hkey : row.sequence_key = a.sequence_key := by simpa using Table.key_of_get? hrow
          rw [← heq]
          show d.get? row.sequence_key ≠ none
          rw [hkey, hrow]
          simp
        · exact hb'

/-- The keys of the send rows. -/
def sendKeys (rows : List NewIcs20) : List String :=
  (rows.filter (·.type = .sendPacket)).map (·.sequence_key)

theorem mem_stored {t : Table IbcIcs20.id} {r : IbcIcs20} :
    r ∈ stored msgs t ↔
      r ∈ t.rows ∧ r.sequence_key ∈ msgs.map (·.sequence_key) ∧ r.type = .sendPacket := by
  simp only [stored, List.mem_filter, Bool.and_eq_true, decide_eq_true_eq]

theorem stored_nodup {t : Table IbcIcs20.id} (hkeys : (sendKeys (contents t)).Nodup) :
    ((stored msgs t).map fun r : IbcIcs20 => r.sequence_key).Nodup := by
  have hall : ((t.rows.filter fun r => r.type = .sendPacket).map
      fun r : IbcIcs20 => r.sequence_key) = sendKeys (contents t) := by
    simp only [sendKeys, contents, List.filter_map, List.map_map]
    rfl
  rw [← hall] at hkeys
  have hsub : (stored msgs t).Sublist (t.rows.filter fun r => r.type = .sendPacket) := by
    rw [stored, ← List.filter_filter]
    exact List.filter_sublist
  exact (hsub.map _).nodup hkeys

/-- The dictionary of `updateOriginSendStatus`. -/
theorem get?_keyBy {t : Table IbcIcs20.id} (hkeys : (sendKeys (contents t)).Nodup) (k : String)
    (r : IbcIcs20) :
    (keyBy (stored msgs t)).get? k = some r ↔ r ∈ stored msgs t ∧ r.sequence_key = k := by
  have hget := Table.get?_upsertAll Table.empty ⟨stored msgs t, stored_nodup hkeys⟩ k
  rw [keyBy, hget, Table.get?_empty, Option.or_none, Table.get?_eq_some_iff]

theorem mem_sendKeys {t : Table IbcIcs20.id} {k : String} :
    k ∈ sendKeys (contents t) ↔ ∃ r ∈ t.rows, r.type = .sendPacket ∧ r.sequence_key = k := by
  simp only [sendKeys, contents, List.mem_map, List.mem_filter, decide_eq_true_eq]
  constructor
  · rintro ⟨_, ⟨⟨r, hr, rfl⟩, htype⟩, hkey⟩
    exact ⟨r, hr, htype, hkey⟩
  · rintro ⟨r, hr, htype, hkey⟩
    exact ⟨_, ⟨⟨r, hr, rfl⟩, htype⟩, hkey⟩

/-- Writing the changed rows back by their ids. -/
theorem get?_writeBack {t : Table IbcIcs20.id} {d : Keyed} (hkeys : (sendKeys (contents t)).Nodup)
    (hd : ∀ k, d.get? k = ((keyBy (stored msgs t)).get? k).map (settleRow msgs status)) (id : ℕ) :
    (t.upsertAll d.rows).get? id = (t.get? id).map (settleRow msgs status) := by
  have hmem : ∀ r', r' ∈ d.rows ↔ ∃ r ∈ stored msgs t, r' = settleRow msgs status r := by
    intro r'
    have hiff : r' ∈ d.rows ↔ d.get? r'.sequence_key = some r' := by
      rw [Table.get?_eq_some_iff]
      exact ⟨fun h => ⟨h, rfl⟩, fun h => h.1⟩
    rw [hiff, hd, Option.map_eq_some_iff]
    constructor
    · rintro ⟨r, hr, rfl⟩
      exact ⟨r, ((get?_keyBy hkeys _ r).mp hr).1, rfl⟩
    · rintro ⟨r, hr, rfl⟩
      refine ⟨r, (get?_keyBy hkeys _ r).mpr ⟨hr, ?_⟩, rfl⟩
      exact (settle_sequence_key r.toNewIcs20).symm
  have hsame : ∀ r ∈ t.rows, ∀ r' ∈ d.rows, r'.id = r.id →
      r ∈ stored msgs t ∧ r' = settleRow msgs status r := by
    intro r hr r' hr' hid
    obtain ⟨r₀, hr₀, rfl⟩ := (hmem r').mp hr'
    have heq : r₀ = r := List.inj_on_of_nodup_map t.nodup (mem_stored.mp hr₀).1 hr hid
    subst heq
    exact ⟨hr₀, rfl⟩
  cases hget : t.get? id with
  | none =>
    rw [Table.get?_upsertAll_of_ne, hget]
    · rfl
    · intro r' hr' hid
      obtain ⟨r₀, hr₀, rfl⟩ := (hmem r').mp hr'
      exact Table.get?_eq_none_iff.mp hget r₀ (mem_stored.mp hr₀).1 hid
  | some r =>
    obtain ⟨hr, rfl⟩ := Table.get?_eq_some_iff.mp hget
    rw [Option.map_some]
    by_cases hst : r ∈ stored msgs t
    · exact Table.get?_upsertAll_of_mem ((hmem _).mpr ⟨r, hst, rfl⟩)
        fun r' hr' hid => (hsame r hr r' hr' hid).2
    · have hkeep : settleRow msgs status r = r := by
        have hcases : r.sequence_key ∉ msgs.map (·.sequence_key) ∨ r.type ≠ .sendPacket := by
          rw [← not_and_or]
          exact fun h => hst (mem_stored.mpr ⟨hr, h⟩)
        rcases hcases with hkey | htype
        · rw [settleRow, settle_of_not_mem hkey]
        · rw [settleRow, settle, if_neg htype]
      rw [Table.get?_upsertAll_of_ne fun r' hr' hid => hst (hsame r hr r' hr' hid).1, hget, hkeep]

/-- `updateOriginSendStatus` when every message has its send row. -/
theorem updateOriginSendStatus_ok {t : Table IbcIcs20.id}
    (hkeys : (sendKeys (contents t)).Nodup) (hnd : (msgs.map (·.sequence_key)).Nodup)
    (hall : ∀ a ∈ msgs, a.sequence_key ∈ sendKeys (contents t)) :
    ∃ t', updateOriginSendStatus msgs status t = .ok t' ∧
      (contents t').Perm ((contents t).map (settle msgs status)) := by
  have hsend : ∀ r ∈ (keyBy (stored msgs t)).rows, r.type = .sendPacket := by
    intro r hr
    have hget : (keyBy (stored msgs t)).get? r.sequence_key = some r :=
      Table.get?_eq_some_iff.mpr ⟨hr, rfl⟩
    exact (mem_stored.mp ((get?_keyBy hkeys _ r).mp hget).1).2.2
  have hrow : ∀ a ∈ msgs, (keyBy (stored msgs t)).get? a.sequence_key ≠ none := by
    intro a ha
    obtain ⟨r, hr, htype, hkey⟩ := mem_sendKeys.mp (hall a ha)
    have hmem : r ∈ stored msgs t := mem_stored.mpr ⟨hr, hkey ▸ List.mem_map_of_mem ha, htype⟩
    rw [(get?_keyBy hkeys a.sequence_key r).mpr ⟨hmem, hkey⟩]
    exact Option.some_ne_none r
  obtain ⟨d, hfold, hd⟩ := @foldlM_setStatus_ok msgs status _ hnd hsend hrow
  refine ⟨t.upsertAll d.rows, ?_, ?_⟩
  · rw [updateOriginSendStatus, hfold]
    rfl
  · have hperm : (t.upsertAll d.rows).rows.Perm
        (t.mapRows (settleRow msgs status) settleRow_id).rows :=
      Table.perm_of_get?_eq fun id => by rw [get?_writeBack hkeys hd, Table.get?_mapRows]
    refine (hperm.map _).trans ?_
    simp only [Table.mapRows, contents, List.map_map]
    exact List.Perm.refl _

/-- `updateOriginSendStatus` succeeds only when every message has its send row. -/
theorem mem_sendKeys_of_update {t t' : Table IbcIcs20.id} (hkeys : (sendKeys (contents t)).Nodup)
    (h : updateOriginSendStatus msgs status t = .ok t') :
    ∀ a ∈ msgs, a.sequence_key ∈ sendKeys (contents t) := by
  obtain ⟨d, hfold, -⟩ := bind_ok h
  intro a ha
  obtain ⟨r, hr⟩ := Option.ne_none_iff_exists'.mp (get?_of_foldlM_setStatus hfold a ha)
  obtain ⟨hmem, hkey⟩ := (get?_keyBy hkeys _ r).mp hr
  exact mem_sendKeys.mpr ⟨r, (mem_stored.mp hmem).1, (mem_stored.mp hmem).2.2, hkey⟩

/-! ### The rows of a table by their messages -/

section
variable {history : List IbcMessage} {startBlock : ℕ}

theorem sendRow_eq {m : IbcMessage} (hH : Consistent history) (hm : m ∈ sends history) :
    sendRow m = .ok (sendContent m) := by
  obtain ⟨h₁, h₂, h₃⟩ := hH.send_data m hm
  obtain ⟨receiver, hr⟩ := Option.ne_none_iff_exists'.mp h₁
  obtain ⟨amount, ha⟩ := Option.ne_none_iff_exists'.mp h₂
  obtain ⟨denom, hd⟩ := Option.ne_none_iff_exists'.mp h₃
  rw [sendRow, sendContent, hr, ha, hd]
  rfl

theorem recvRow_eq {m : IbcMessage} (hH : Consistent history) (hm : m ∈ history)
    (hr : isRecv m = true) : recvRow m = .ok (recvContent m) := by
  obtain ⟨r, hrow⟩ := hH.recv_event m hm hr
  rw [recvContent, hrow]

/-- A receipt row is about its message. -/
theorem recvContent_fields (m : IbcMessage) :
    (recvContent m).ibc_message_id = m.id ∧ (recvContent m).type = m.type := by
  rw [recvContent]
  split
  case h_2 => exact ⟨rfl, rfl⟩
  case h_1 r hr =>
    simp only [recvRow] at hr
    split at hr
    case h_1 => cases hr
    case h_2 =>
      split at hr
      case h_1 => cases hr
      case h_2 =>
        obtain ⟨receiver, -, hr⟩ := bind_ok hr
        obtain ⟨amount, -, hr⟩ := bind_ok hr
        cases hr
        exact ⟨rfl, rfl⟩

theorem expected_fields (height : ℕ) (m : IbcMessage) :
    (expected history height m).ibc_message_id = m.id ∧
      (expected history height m).type = m.type ∧
      (expected history height m).sequence_key = m.sequence_key := by
  rw [expected]
  split
  · exact ⟨rfl, rfl, rfl⟩
  · exact ⟨rfl, rfl, rfl⟩

/-- The table has the rows `f m` of the sends `m`, and the rows of the receipts. -/
def View (t : Table IbcIcs20.id) (S R : List IbcMessage) (f : IbcMessage → NewIcs20) : Prop :=
  (contents t).Perm (S.map f ++ R.map recvContent)

/-- `f` gives the row of a send, whatever its status. -/
def SendRowOf (f : IbcMessage → NewIcs20) : Prop :=
  ∀ m, (f m).type = m.type ∧ (f m).sequence_key = m.sequence_key

theorem SendRowOf.settle {f : IbcMessage → NewIcs20} (hf : SendRowOf f) :
    SendRowOf fun m => settle msgs status (f m) := by
  intro m
  rw [settle_type, settle_sequence_key]
  exact hf m

theorem sendKeys_of_view {t : Table IbcIcs20.id} {S R : List IbcMessage}
    {f : IbcMessage → NewIcs20} (hf : SendRowOf f) (hS : ∀ m ∈ S, m.type = .sendPacket)
    (hR : ∀ m ∈ R, m.type = .recvPacket) (hv : View t S R f) :
    (sendKeys (contents t)).Perm (S.map (·.sequence_key)) := by
  have hperm := (hv.filter (·.type = .sendPacket)).map (·.sequence_key)
  have hsends : (S.map f).filter (·.type = .sendPacket) = S.map f := by
    rw [List.filter_eq_self]
    intro n hn
    obtain ⟨m, hm, rfl⟩ := List.mem_map.mp hn
    simpa [(hf m).1] using hS m hm
  have hrecvs : (R.map recvContent).filter (·.type = .sendPacket) = [] := by
    rw [List.filter_eq_nil_iff]
    intro n hn
    obtain ⟨m, hm, rfl⟩ := List.mem_map.mp hn
    simp [(recvContent_fields m).2, hR m hm]
  rw [List.filter_append, hsends, hrecvs, List.append_nil, List.map_map] at hperm
  refine hperm.trans (List.Perm.of_eq (List.map_congr_left fun m _ => ?_))
  exact (hf m).2

/-- A pass over messages on the rows of the sends. -/
theorem update_view {t : Table IbcIcs20.id} {S R : List IbcMessage} {f : IbcMessage → NewIcs20}
    (hf : SendRowOf f) (hS : ∀ m ∈ S, m.type = .sendPacket) (hR : ∀ m ∈ R, m.type = .recvPacket)
    (hnd : (S.map (·.sequence_key)).Nodup) (hmsgs : (msgs.map (·.sequence_key)).Nodup)
    (hv : View t S R f) :
    ((∀ a ∈ msgs, a.sequence_key ∈ S.map (·.sequence_key)) →
      ∃ t', updateOriginSendStatus msgs status t = .ok t' ∧
        View t' S R fun m => settle msgs status (f m)) ∧
    ∀ t', updateOriginSendStatus msgs status t = .ok t' →
      ∀ a ∈ msgs, a.sequence_key ∈ S.map (·.sequence_key) := by
  have hkeys := sendKeys_of_view hf hS hR hv
  have hnodup : (sendKeys (contents t)).Nodup := hkeys.nodup_iff.mpr hnd
  constructor
  · intro hall
    obtain ⟨t', hok, hperm⟩ := updateOriginSendStatus_ok hnodup hmsgs
      fun a ha => hkeys.mem_iff.mpr (hall a ha)
    refine ⟨t', hok, hperm.trans ?_⟩
    have hrecv : R.map (settle msgs status ∘ recvContent) = R.map recvContent := by
      refine List.map_congr_left fun m hm => ?_
      have htype : (recvContent m).type ≠ .sendPacket := by
        rw [(recvContent_fields m).2, hR m hm]
        decide
      rw [Function.comp_apply, settle, if_neg htype]
    have hmap := hv.map (settle msgs status)
    rw [List.map_append, List.map_map, List.map_map, hrecv] at hmap
    exact hmap
  · intro t' h a ha
    exact hkeys.mem_iff.mp (mem_sendKeys_of_update hnodup h a ha)

/-! ### Settlements -/

theorem mem_sends {m : IbcMessage} :
    m ∈ sends history ↔ m ∈ history ∧ m.src_port_id = ics20Port ∧ m.type = .sendPacket := by
  simp [sends, isSend]

theorem mem_settlements {a : IbcMessage} :
    a ∈ settlements history ↔ a ∈ history ∧ (isAck a = true ∨ isTimeout a = true) := by
  simp [settlements]

theorem port_of_settlement {a : IbcMessage} (ha : a ∈ settlements history) :
    a.src_port_id = ics20Port := by
  rcases (mem_settlements.mp ha).2 with h | h
  · simp only [isAck, Bool.and_eq_true, decide_eq_true_eq] at h
    exact h.1
  · simp only [isTimeout, Bool.and_eq_true, decide_eq_true_eq] at h
    exact h.1

theorem key_eq_iff_of_settlement (hH : Consistent history) {a m : IbcMessage}
    (ha : a ∈ settlements history) (hm : m ∈ sends history) :
    a.sequence_key = m.sequence_key ↔ packet a = packet m :=
  sequence_key_eq_iff hH (mem_settlements.mp ha).1 (mem_sends.mp hm).1 (port_of_settlement ha)
    (mem_sends.mp hm).2.1

/-- A packet is settled once. -/
theorem settlement_unique (hH : Consistent history) {a b : IbcMessage}
    (ha : a ∈ settlements history) (hb : b ∈ settlements history) (h : packet a = packet b) :
    a = b :=
  List.inj_on_of_nodup_map hH.settle_nodup ha hb h

theorem settlement_eq_some_iff (hH : Consistent history) {a m : IbcMessage} :
    settlement history m = some a ↔ a ∈ settlements history ∧ packet a = packet m := by
  constructor
  · intro h
    exact ⟨List.mem_of_find?_eq_some h, by simpa using List.find?_some h⟩
  · rintro ⟨ha, hp⟩
    cases h : settlement history m with
    | none =>
      have := List.find?_eq_none.mp h a ha
      simp [hp] at this
    | some b =>
      have hb : packet b = packet m := by simpa using List.find?_some h
      rw [settlement_unique hH ha (List.mem_of_find?_eq_some h) (hp.trans hb.symm)]

/-- Among settlements, the key of a send finds the settlement of its packet. -/
theorem find?_settlement (hH : Consistent history) (hmsgs : ∀ a ∈ msgs, a ∈ settlements history)
    {m : IbcMessage} (hm : m ∈ sends history) :
    msgs.find? (·.sequence_key = m.sequence_key) =
      (settlement history m).filter (· ∈ msgs) := by
  ext a
  rw [Option.filter_eq_some_iff, settlement_eq_some_iff hH]
  constructor
  · intro h
    have ha := List.mem_of_find?_eq_some h
    have hkey : a.sequence_key = m.sequence_key := by simpa using List.find?_some h
    exact ⟨⟨hmsgs a ha, (key_eq_iff_of_settlement hH (hmsgs a ha) hm).mp hkey⟩, by simpa using ha⟩
  · rintro ⟨⟨hset, hp⟩, ha⟩
    have ha : a ∈ msgs := by simpa using ha
    cases h : msgs.find? (·.sequence_key = m.sequence_key) with
    | none =>
      have := List.find?_eq_none.mp h a ha
      simp [(key_eq_iff_of_settlement hH hset hm).mpr hp] at this
    | some b =>
      have hb := List.mem_of_find?_eq_some h
      have hkey : b.sequence_key = m.sequence_key := by simpa using List.find?_some h
      have hpb := (key_eq_iff_of_settlement hH (hmsgs b hb) hm).mp hkey
      rw [settlement_unique hH (hmsgs b hb) hset (hpb.trans hp.symm)]

/-- A pass that has the settlement of the packet sets the row. -/
theorem settle_hit (hH : Consistent history) (hmsgs : ∀ a ∈ msgs, a ∈ settlements history)
    {m a : IbcMessage} (hm : m ∈ sends history) (ha : settlement history m = some a)
    (hmem : a ∈ msgs) {n : NewIcs20} (htype : n.type = m.type)
    (hkey : n.sequence_key = m.sequence_key) :
    settle msgs status n = { n with finish_time := some a.timestamp, status := status } := by
  rw [settle, if_pos (htype.trans (mem_sends.mp hm).2.2), hkey, find?_settlement hH hmsgs hm, ha,
    Option.filter_some_pos (by simpa using hmem)]

/-- A pass that does not have it leaves the row. -/
theorem settle_miss (hH : Consistent history) (hmsgs : ∀ a ∈ msgs, a ∈ settlements history)
    {m : IbcMessage} (hm : m ∈ sends history) (ha : ∀ a ∈ settlement history m, a ∉ msgs)
    {n : NewIcs20} (hkey : n.sequence_key = m.sequence_key) : settle msgs status n = n := by
  refine settle_of_not_mem fun hin => ?_
  obtain ⟨a, hmem, hak⟩ := List.mem_map.mp hin
  have hp := (key_eq_iff_of_settlement hH (hmsgs a hmem) hm).mp (hak.trans hkey)
  exact ha a ((settlement_eq_some_iff hH).mpr ⟨hmsgs a hmem, hp⟩) hmem

theorem expected_hit {m a : IbcMessage} {height : ℕ} (ha : settlement history m = some a)
    (hle : a.height ≤ height) :
    expected history height m =
      { sendContent m with status := settleStatus a, finish_time := some a.timestamp } := by
  rw [expected, ha, Option.filter_some_pos (by simpa using hle)]

theorem expected_miss {m : IbcMessage} {height : ℕ}
    (ha : ∀ a ∈ settlement history m, height < a.height) :
    expected history height m = sendContent m := by
  have hnone : (settlement history m).filter (·.height ≤ height) = none := by
    rw [Option.filter_eq_none_iff]
    intro a hmem
    simpa using ha a hmem
  rw [expected, hnone]

theorem not_isAck_and_isTimeout {a : IbcMessage} (hack : isAck a = true)
    (htime : isTimeout a = true) : False := by
  simp only [isAck, isTimeout, Bool.and_eq_true, decide_eq_true_eq] at hack htime
  have htype := hack.2.symm.trans htime.2
  cases htype

/-- A range without the settlement of a send changes nothing for it. -/
theorem expected_of_not_between {low high : ℕ} (hle : low ≤ high) {m : IbcMessage}
    (hout : ∀ a ∈ settlement history m, ¬ (low < a.height ∧ a.height ≤ high)) :
    expected history low m = expected history high m := by
  by_cases hdone : ∃ a ∈ settlement history m, a.height ≤ low
  · obtain ⟨a, ha, hlow⟩ := hdone
    rw [expected_hit ha hlow, expected_hit ha (hlow.trans hle)]
  · have hlow : ∀ a ∈ settlement history m, low < a.height :=
      fun a ha => not_le.mp fun h => hdone ⟨a, ha, h⟩
    rw [expected_miss hlow, expected_miss fun a ha => ?_]
    exact not_le.mp fun h => hout a ha ⟨hlow a ha, h⟩

/-- The three passes over the settlements of a range bring a row from `low` to `high`. -/
theorem settle_range (hH : Consistent history) {low high : ℕ} (hle : low ≤ high)
    {M₁ M₂ M₃ : List IbcMessage}
    (h₁ : ∀ a, a ∈ M₁ ↔ a ∈ history ∧ isAck a = true ∧ ackSuccess a = .ok true ∧
      low < a.height ∧ a.height ≤ high)
    (h₂ : ∀ a, a ∈ M₂ ↔ a ∈ history ∧ isAck a = true ∧ ackSuccess a ≠ .ok true ∧
      low < a.height ∧ a.height ≤ high)
    (h₃ : ∀ a, a ∈ M₃ ↔ a ∈ history ∧ isTimeout a = true ∧ low < a.height ∧ a.height ≤ high)
    {m : IbcMessage} (hm : m ∈ sends history) :
    settle M₃ .timeout (settle M₂ .ackError (settle M₁ .ackSuccess (expected history low m))) =
      expected history high m := by
  have hs₁ : ∀ a ∈ M₁, a ∈ settlements history := fun a ha =>
    mem_settlements.mpr ⟨((h₁ a).mp ha).1, .inl ((h₁ a).mp ha).2.1⟩
  have hs₂ : ∀ a ∈ M₂, a ∈ settlements history := fun a ha =>
    mem_settlements.mpr ⟨((h₂ a).mp ha).1, .inl ((h₂ a).mp ha).2.1⟩
  have hs₃ : ∀ a ∈ M₃, a ∈ settlements history := fun a ha =>
    mem_settlements.mpr ⟨((h₃ a).mp ha).1, .inr ((h₃ a).mp ha).2.1⟩
  obtain ⟨-, htype, hkey⟩ := @expected_fields history low m
  by_cases hnew : ∃ a ∈ settlement history m, low < a.height ∧ a.height ≤ high
  · -- the settlement is in the range: one of the passes has it
    obtain ⟨a, ha, hrange⟩ := hnew
    have hset : settlement history m = some a := ha
    have hnotin : ∀ {M : List IbcMessage}, a ∉ M → ∀ b ∈ settlement history m, b ∉ M := by
      intro M hM b hb
      rw [hset] at hb
      cases hb
      exact hM
    obtain ⟨hin, hkind⟩ := mem_settlements.mp ((settlement_eq_some_iff hH).mp hset).1
    have hold : expected history low m = sendContent m := expected_miss fun b hb => by
      rw [hset] at hb
      cases hb
      exact hrange.1
    rw [hold] at htype hkey ⊢
    rw [expected_hit hset hrange.2]
    rcases hkind with hack | htime
    · have htime : ¬ isTimeout a = true := fun h => not_isAck_and_isTimeout hack h
      have hm₃ : a ∉ M₃ := fun h => htime ((h₃ a).mp h).2.1
      by_cases hsucc : ackSuccess a = .ok true
      · have hm₁ : a ∈ M₁ := (h₁ a).mpr ⟨hin, hack, hsucc, hrange⟩
        have hm₂ : a ∉ M₂ := fun h => ((h₂ a).mp h).2.2.1 hsucc
        rw [settle_hit hH hs₁ hm hset hm₁ htype hkey,
          settle_miss hH hs₂ hm (hnotin hm₂) (by exact hkey),
          settle_miss hH hs₃ hm (hnotin hm₃) (by exact hkey), settleStatus, if_neg htime,
          if_pos hsucc]
      · have hm₁ : a ∉ M₁ := fun h => hsucc ((h₁ a).mp h).2.2.1
        have hm₂ : a ∈ M₂ := (h₂ a).mpr ⟨hin, hack, hsucc, hrange⟩
        rw [settle_miss hH hs₁ hm (hnotin hm₁) hkey, settle_hit hH hs₂ hm hset hm₂ htype hkey,
          settle_miss hH hs₃ hm (hnotin hm₃) (by exact hkey), settleStatus, if_neg htime,
          if_neg hsucc]
    · have hack : ¬ isAck a = true := fun h => not_isAck_and_isTimeout h htime
      have hm₁ : a ∉ M₁ := fun h => hack ((h₁ a).mp h).2.1
      have hm₂ : a ∉ M₂ := fun h => hack ((h₂ a).mp h).2.1
      have hm₃ : a ∈ M₃ := (h₃ a).mpr ⟨hin, htime, hrange⟩
      rw [settle_miss hH hs₁ hm (hnotin hm₁) hkey, settle_miss hH hs₂ hm (hnotin hm₂) hkey,
        settle_hit hH hs₃ hm hset hm₃ htype hkey, settleStatus, if_pos htime]
  · -- the settlement was there before, or is still to come
    have hout : ∀ a ∈ settlement history m, ¬ (low < a.height ∧ a.height ≤ high) :=
      fun a ha h => hnew ⟨a, ha, h⟩
    rw [settle_miss hH hs₁ hm (fun a ha h => hout a ha ((h₁ a).mp h).2.2.2) hkey,
      settle_miss hH hs₂ hm (fun a ha h => hout a ha ((h₂ a).mp h).2.2.2) hkey,
      settle_miss hH hs₃ hm (fun a ha h => hout a ha ((h₃ a).mp h).2.2) hkey]
    exact expected_of_not_between hle hout

/-! ### A run -/

/-- The messages of a history above `startBlock`. -/
def indexed (startBlock : ℕ) (history : List IbcMessage) : List IbcMessage :=
  history.filter fun m => startBlock < m.height

theorem query_perm (p : IbcMessage → Bool) {low high : ℕ} (hle : startBlock ≤ low) :
    (query p (indexed startBlock history) low high).Perm
      (between (·.height) low high (history.filter p)) := by
  refine (List.perm_insertionSort _ _).trans (List.Perm.of_eq ?_)
  rw [indexed, List.filter_filter, between, between, List.filter_filter, List.filter_filter]
  refine List.filter_congr fun m _ => ?_
  by_cases hm : low < m.height
  · simp [hm, lt_of_le_of_lt hle hm]
  · simp [hm]

theorem mem_query {p : IbcMessage → Bool} {low high : ℕ} (hle : startBlock ≤ low) {m : IbcMessage} :
    m ∈ query p (indexed startBlock history) low high ↔
      m ∈ history ∧ p m = true ∧ low < m.height ∧ m.height ≤ high := by
  rw [(query_perm p hle).mem_iff, mem_between, List.mem_filter, and_assoc]

/-- The ICS20 receipts of a history. -/
def recvs (history : List IbcMessage) : List IbcMessage := history.filter isRecv

/-- What the tables hold when the heights up to the checkpoint are indexed. -/
structure Indexed (startBlock : ℕ) (history : List IbcMessage) (db : Db) : Prop where
  messages : db.ibc_message = indexed startBlock history
  start_le : startBlock ≤ reached startBlock db
  view : View db.ibc_ics20
    (between (·.height) startBlock (reached startBlock db) (sends history))
    (between (·.height) startBlock (reached startBlock db) (recvs history))
    (expected history (reached startBlock db))

/-- Two parts of a history without a common message have different ids. -/
theorem nodup_ids_append (hH : Consistent history) {A B : List IbcMessage}
    (hA : ∀ m ∈ A, m ∈ history) (hB : ∀ m ∈ B, m ∈ history) (hndA : (A.map (·.id)).Nodup)
    (hndB : (B.map (·.id)).Nodup) (hdis : ∀ m ∈ A, m ∉ B) : ((A ++ B).map (·.id)).Nodup := by
  rw [List.map_append]
  refine List.nodup_append.mpr ⟨hndA, hndB, ?_⟩
  intro i hi j hj hij
  obtain ⟨a, ha, rfl⟩ := List.mem_map.mp hi
  obtain ⟨b, hb, rfl⟩ := List.mem_map.mp hj
  have heq : a = b := List.inj_on_of_nodup_map hH.id_nodup (hA a ha) (hB b hb) hij
  exact hdis a ha (heq ▸ hb)

theorem nodup_ids_between (hH : Consistent history) (p : IbcMessage → Bool) (low high : ℕ) :
    ((between (·.height) low high (history.filter p)).map (·.id)).Nodup :=
  ((between_sublist.trans List.filter_sublist).map _).nodup hH.id_nodup

theorem mem_of_mem_between {p : IbcMessage → Bool} {low high : ℕ} {m : IbcMessage}
    (hm : m ∈ between (·.height) low high (history.filter p)) : m ∈ history :=
  List.mem_of_mem_filter (mem_between.mp hm).1

/-- The ids of the messages behind the rows of a table. -/
theorem ids_of_view {t : Table IbcIcs20.id} {S R : List IbcMessage} {f : IbcMessage → NewIcs20}
    (hf : ∀ m, (f m).ibc_message_id = m.id) (hv : View t S R f) :
    ((contents t).map (·.ibc_message_id)).Perm ((S ++ R).map (·.id)) := by
  have hmap := hv.map (·.ibc_message_id)
  rw [List.map_append, List.map_map, List.map_map] at hmap
  rw [List.map_append]
  refine hmap.trans (List.Perm.of_eq ?_)
  simp only [Function.comp_def, hf, recvContent_fields]

theorem isSend_isRecv {m : IbcMessage} (hs : isSend m = true) : isRecv m = false := by
  simp only [isSend, isRecv, Bool.and_eq_true, decide_eq_true_eq, Bool.and_eq_false_imp,
    decide_eq_false_iff_not] at hs ⊢
  rintro - hr
  simp [hs.2] at hr

/-- A send above `low` is not settled up to `low`. -/
theorem expected_of_lt (hH : Consistent history) {low : ℕ} {m : IbcMessage}
    (hm : m ∈ sends history) (hlt : low < m.height) :
    expected history low m = sendContent m := by
  refine expected_miss fun a ha => ?_
  obtain ⟨hset, hp⟩ := (settlement_eq_some_iff hH).mp ha
  obtain ⟨m', hm', hp', hle⟩ := hH.settle_send a hset
  have heq : m' = m := List.inj_on_of_nodup_map hH.send_nodup hm' hm (hp'.trans hp)
  subst heq
  exact lt_of_lt_of_le hlt hle

/-- The rows of a range join those of the range before it. -/
theorem perm_ranges {A B : List IbcMessage} {f : IbcMessage → NewIcs20} {low high : ℕ}
    (hlow : startBlock ≤ low) (hle : low ≤ high) :
    ((((between (·.height) startBlock low A).map f ++
        (between (·.height) startBlock low B).map recvContent) ++
          (between (·.height) low high A).map f) ++
          (between (·.height) low high B).map recvContent).Perm
      ((between (·.height) startBlock high A).map f ++
        (between (·.height) startBlock high B).map recvContent) := by
  have hgap : ∀ {rows : List IbcMessage}, ∀ r ∈ rows, ¬ (high < r.height ∧ r.height ≤ low) :=
    fun r _ h => by omega
  have hA := (between_append_perm hlow (@hgap A)).map f
  have hB := (between_append_perm hlow (@hgap B)).map recvContent
  rw [List.map_append] at hA hB
  refine List.Perm.trans ?_ (hA.append hB)
  rw [← Multiset.coe_eq_coe]
  simp only [← Multiset.coe_add]
  abel

theorem nodup_sends_recvs (hH : Consistent history) (low high : ℕ) :
    ((between (·.height) low high (sends history) ++
      between (·.height) low high (recvs history)).map (·.id)).Nodup := by
  refine nodup_ids_append hH (fun m => mem_of_mem_between) (fun m => mem_of_mem_between)
    (nodup_ids_between hH _ _ _) (nodup_ids_between hH _ _ _) fun m hs hr => ?_
  have hsend := (List.mem_filter.mp (mem_between.mp hs).1).2
  have hrecv := (List.mem_filter.mp (mem_between.mp hr).1).2
  rw [isSend_isRecv hsend] at hrecv
  cases hrecv

/-- The passes over the sends and the receipts of a range. -/
theorem insert_passes (hH : Consistent history) {t : Table IbcIcs20.id} {low high : ℕ}
    (hlow : startBlock ≤ low) (hle : low ≤ high)
    (hv : View t (between (·.height) startBlock low (sends history))
      (between (·.height) startBlock low (recvs history)) (expected history low)) :
    ∃ t₁ t₂, handleIcs20Send (indexed startBlock history) low high t = .ok t₁ ∧
      handleIcs20Recv (indexed startBlock history) low high t₁ = .ok t₂ ∧
      View t₂ (between (·.height) startBlock high (sends history))
        (between (·.height) startBlock high (recvs history)) (expected history low) := by
  have hqs : (query isSend (indexed startBlock history) low high).Perm
      (between (·.height) low high (sends history)) := query_perm isSend hlow
  have hqr : (query isRecv (indexed startBlock history) low high).Perm
      (between (·.height) low high (recvs history)) := query_perm isRecv hlow
  have hids := ids_of_view (fun m => (expected_fields low m).1) hv
  -- the messages of the range have ids that no row has
  have hall : ((contents t ++ ((query isSend (indexed startBlock history) low high).map sendContent ++
      (query isRecv (indexed startBlock history) low high).map recvContent)).map
        (·.ibc_message_id)).Nodup := by
    have hnodup := nodup_ids_append hH
      (fun m hm => (List.mem_append.mp hm).elim mem_of_mem_between mem_of_mem_between)
      (fun m hm => (List.mem_append.mp hm).elim mem_of_mem_between mem_of_mem_between)
      (nodup_sends_recvs hH startBlock low) (nodup_sends_recvs hH low high) (by
        intro m h₁ h₂
        have hm₁ : m.height ≤ low :=
          (List.mem_append.mp h₁).elim (fun h => (mem_between.mp h).2.2) fun h => (mem_between.mp h).2.2
        have hm₂ : low < m.height :=
          (List.mem_append.mp h₂).elim (fun h => (mem_between.mp h).2.1) fun h => (mem_between.mp h).2.1
        omega)
    rw [List.map_append] at hnodup ⊢
    refine (List.Perm.nodup_iff ?_).mp hnodup
    refine hids.symm.append ?_
    rw [List.map_append, List.map_append, List.map_map, List.map_map]
    simp only [Function.comp_def, recvContent_fields]
    exact (hqs.symm.map _).append (hqr.symm.map _)
  rw [← List.append_assoc] at hall
  obtain ⟨t₁, ht₁, hc₁⟩ := insertAll_ok (by
    rw [List.map_append] at hall
    exact (List.nodup_append.mp hall).1)
  obtain ⟨t₂, ht₂, hc₂⟩ := @insertAll_ok t₁ ((query isRecv (indexed startBlock history) low high).map
    recvContent) (by rwa [hc₁])
  refine ⟨t₁, t₂, ?_, ?_, ?_⟩
  · rw [handleIcs20Send, mapM_ok fun m hm => sendRow_eq hH ?_]
    · exact ht₁
    · exact (mem_between.mp (hqs.mem_iff.mp hm)).1
  · rw [handleIcs20Recv, mapM_ok fun m hm => recvRow_eq hH ?_ ?_]
    · exact ht₂
    · exact ((mem_query hlow).mp hm).1
    · exact ((mem_query hlow).mp hm).2.1
  · have hsc : (between (·.height) low high (sends history)).map sendContent =
        (between (·.height) low high (sends history)).map (expected history low) :=
      List.map_congr_left fun m hm =>
        (expected_of_lt hH (mem_between.mp hm).1 (mem_between.mp hm).2.1).symm
    rw [View, hc₂, hc₁]
    refine List.Perm.trans ?_ (perm_ranges hlow hle)
    refine List.Perm.append (List.Perm.append hv ?_) (hqr.map _)
    rw [← hsc]
    exact hqs.map _

/-- The packet of a message was sent above `startBlock`. -/
def SentIn (startBlock : ℕ) (history : List IbcMessage) (a : IbcMessage) : Prop :=
  ∃ m ∈ sends history, packet m = packet a ∧ startBlock < m.height

theorem key_mem_iff (hH : Consistent history) {high : ℕ} {a : IbcMessage}
    (ha : a ∈ settlements history) (hhigh : a.height ≤ high) :
    a.sequence_key ∈ (between (·.height) startBlock high (sends history)).map (·.sequence_key) ↔
      SentIn startBlock history a := by
  constructor
  · intro h
    obtain ⟨m, hm, hkey⟩ := List.mem_map.mp h
    obtain ⟨hsend, hlt, -⟩ := mem_between.mp hm
    exact ⟨m, hsend, ((key_eq_iff_of_settlement hH ha hsend).mp hkey.symm).symm, hlt⟩
  · rintro ⟨m, hm, hp, hlt⟩
    obtain ⟨m', hm', hp', hle⟩ := hH.settle_send a ha
    have heq : m' = m := List.inj_on_of_nodup_map hH.send_nodup hm' hm (hp'.trans hp.symm)
    subst heq
    refine List.mem_map.mpr ⟨m', mem_between.mpr ⟨hm, hlt, hle.trans hhigh⟩, ?_⟩
    exact ((key_eq_iff_of_settlement hH ha hm).mpr hp.symm).symm

/-- Different packets have different keys. -/
theorem keys_nodup (hH : Consistent history) {l : List IbcMessage} (hl : ∀ m ∈ l, m ∈ history)
    (hport : ∀ m ∈ l, m.src_port_id = ics20Port) (hnd : (l.map packet).Nodup) :
    (l.map (·.sequence_key)).Nodup := by
  rw [List.Nodup, List.pairwise_map] at hnd ⊢
  refine hnd.imp_of_mem fun {a b} ha hb hne hkey => hne ?_
  exact (sequence_key_eq_iff hH (hl a ha) (hl b hb) (hport a ha) (hport b hb)).mp hkey

theorem sends_keys_nodup (hH : Consistent history) (low high : ℕ) :
    ((between (·.height) low high (sends history)).map (·.sequence_key)).Nodup := by
  refine keys_nodup hH (fun m => mem_of_mem_between) (fun m hm => ?_)
    ((between_sublist.map _).nodup hH.send_nodup)
  exact (mem_sends.mp (mem_between.mp hm).1).2.1

/-- The settlements that a pass reads have different keys. -/
theorem query_keys_nodup (hH : Consistent history) {p : IbcMessage → Bool} {low high : ℕ}
    (hlow : startBlock ≤ low) (hp : ∀ m, p m = true → isAck m = true ∨ isTimeout m = true)
    (q : IbcMessage → Bool) :
    (((query p (indexed startBlock history) low high).filter q).map (·.sequence_key)).Nodup := by
  have hsub : (history.filter p).Sublist (settlements history) := by
    have hfilter : history.filter p = (settlements history).filter p := by
      rw [settlements, List.filter_filter]
      refine List.filter_congr fun m _ => ?_
      cases hm : p m with
      | false => rfl
      | true => simpa using hp m hm
    rw [hfilter]
    exact List.filter_sublist
  have hset : ∀ m ∈ query p (indexed startBlock history) low high, m ∈ settlements history :=
    fun m hm => mem_settlements.mpr
      ⟨((mem_query hlow).mp hm).1, hp m ((mem_query hlow).mp hm).2.1⟩
  have hnd : ((query p (indexed startBlock history) low high).map packet).Nodup := by
    rw [((query_perm p hlow).map packet).nodup_iff]
    exact ((between_sublist.trans hsub).map _).nodup hH.settle_nodup
  refine keys_nodup hH (fun m hm => ?_) (fun m hm => ?_) ((List.filter_sublist.map _).nodup hnd)
  · exact (mem_settlements.mp (hset m (List.mem_of_mem_filter hm))).1
  · exact port_of_settlement (hset m (List.mem_of_mem_filter hm))

theorem ackSuccess_ok (hH : Consistent history) {a : IbcMessage} (ha : a ∈ history)
    (hack : isAck a = true) : ackSuccess a = .ok (decide (ackSuccess a = .ok true)) := by
  have hlen := hH.ack_events a ha hack
  have hok : ∃ b, ackSuccess a = .ok b := by
    obtain ⟨e₁, e₂, heq⟩ := List.length_eq_two.mp hlen
    rw [ackSuccess, heq]
    exact ⟨_, rfl⟩
  obtain ⟨b, hb⟩ := hok
  cases b with
  | false => simp [hb]
  | true => simp [hb]

/-- The acknowledgements that the job takes for successful. -/
def acksSuccess (startBlock : ℕ) (history : List IbcMessage) (low high : ℕ) : List IbcMessage :=
  (query isAck (indexed startBlock history) low high).filter fun a => ackSuccess a = .ok true

/-- The other acknowledgements. -/
def acksError (startBlock : ℕ) (history : List IbcMessage) (low high : ℕ) : List IbcMessage :=
  (query isAck (indexed startBlock history) low high).filter fun a => !decide (ackSuccess a = .ok true)

theorem handleIcs20Ack_eq (hH : Consistent history) {low high : ℕ} (hlow : startBlock ≤ low)
    (t : Table IbcIcs20.id) :
    handleIcs20Ack (indexed startBlock history) low high t = (do
      let t ← updateOriginSendStatus (acksSuccess startBlock history low high) .ackSuccess t
      updateOriginSendStatus (acksError startBlock history low high) .ackError t) := by
  have hmem : ∀ a ∈ query isAck (indexed startBlock history) low high,
      ackSuccess a = .ok (decide (ackSuccess a = .ok true)) := fun a ha =>
    ackSuccess_ok hH ((mem_query hlow).mp ha).1 ((mem_query hlow).mp ha).2.1
  have hsuccess := filterThrow_ok hmem
  have herror : filterThrow (fun ack => do return !(← ackSuccess ack))
      (query isAck (indexed startBlock history) low high) =
      .ok (acksError startBlock history low high) := by
    refine filterThrow_ok fun a ha => ?_
    exact congrArg (fun x : Except Ics20Error Bool => x >>= fun b => pure !b) (hmem a ha)
  rw [handleIcs20Ack, hsuccess, herror]
  rfl

theorem mem_acksSuccess {low high : ℕ} (hlow : startBlock ≤ low) {a : IbcMessage} :
    a ∈ acksSuccess startBlock history low high ↔
      a ∈ history ∧ isAck a = true ∧ ackSuccess a = .ok true ∧ low < a.height ∧ a.height ≤ high := by
  rw [acksSuccess, List.mem_filter, mem_query hlow, decide_eq_true_eq]
  tauto

theorem mem_acksError {low high : ℕ} (hlow : startBlock ≤ low) {a : IbcMessage} :
    a ∈ acksError startBlock history low high ↔
      a ∈ history ∧ isAck a = true ∧ ackSuccess a ≠ .ok true ∧ low < a.height ∧ a.height ≤ high := by
  rw [acksError, List.mem_filter, mem_query hlow, Bool.not_eq_true', decide_eq_false_iff_not]
  tauto

/-- The three passes of a range are over its settlements. -/
theorem settled_in_range {low high : ℕ} (hlow : startBlock ≤ low) {a : IbcMessage} :
    (a ∈ acksSuccess startBlock history low high ∨ a ∈ acksError startBlock history low high ∨
        a ∈ query isTimeout (indexed startBlock history) low high) ↔
      a ∈ settlements history ∧ low < a.height ∧ a.height ≤ high := by
  rw [mem_acksSuccess hlow, mem_acksError hlow, mem_query hlow, mem_settlements]
  constructor
  · rintro (⟨hin, hack, -, hrange⟩ | ⟨hin, hack, -, hrange⟩ | ⟨hin, htime, hrange⟩)
    · exact ⟨⟨hin, .inl hack⟩, hrange⟩
    · exact ⟨⟨hin, .inl hack⟩, hrange⟩
    · exact ⟨⟨hin, .inr htime⟩, hrange⟩
  · rintro ⟨⟨hin, hack | htime⟩, hrange⟩
    · by_cases hsucc : ackSuccess a = .ok true
      · exact .inl ⟨hin, hack, hsucc, hrange⟩
      · exact .inr (.inl ⟨hin, hack, hsucc, hrange⟩)
    · exact .inr (.inr ⟨hin, htime, hrange⟩)

/-- A pass over the rows of the sends and receipts up to `high`. -/
theorem update_range (hH : Consistent history) {t : Table IbcIcs20.id} {high : ℕ}
    {f : IbcMessage → NewIcs20} (hf : SendRowOf f)
    (hmsgs : (msgs.map (·.sequence_key)).Nodup)
    (hv : View t (between (·.height) startBlock high (sends history))
      (between (·.height) startBlock high (recvs history)) f) :
    ((∀ a ∈ msgs, a.sequence_key ∈
        (between (·.height) startBlock high (sends history)).map (·.sequence_key)) →
      ∃ t', updateOriginSendStatus msgs status t = .ok t' ∧
        View t' (between (·.height) startBlock high (sends history))
          (between (·.height) startBlock high (recvs history)) fun m => settle msgs status (f m)) ∧
    ∀ t', updateOriginSendStatus msgs status t = .ok t' → ∀ a ∈ msgs, a.sequence_key ∈
      (between (·.height) startBlock high (sends history)).map (·.sequence_key) := by
  refine update_view hf (fun m hm => ?_) (fun m hm => ?_)
    (sends_keys_nodup hH startBlock high) hmsgs hv
  · exact (mem_sends.mp (mem_between.mp hm).1).2.2
  · have hrecv := (List.mem_filter.mp (mem_between.mp hm).1).2
    simp only [isRecv, Bool.and_eq_true, decide_eq_true_eq] at hrecv
    exact hrecv.2

/-- The passes over the acknowledgements and the timeouts of a range succeed exactly when the
packets of the range were all sent above `startBlock`. -/
theorem settle_passes (hH : Consistent history) {t : Table IbcIcs20.id} {low high : ℕ}
    (hlow : startBlock ≤ low) (hle : low ≤ high)
    (hv : View t (between (·.height) startBlock high (sends history))
      (between (·.height) startBlock high (recvs history)) (expected history low)) :
    ((∀ a ∈ settlements history, low < a.height → a.height ≤ high → SentIn startBlock history a) →
      ∃ t₁ t₂, handleIcs20Ack (indexed startBlock history) low high t = .ok t₁ ∧
        handleIcs20Timeout (indexed startBlock history) low high t₁ = .ok t₂ ∧
        View t₂ (between (·.height) startBlock high (sends history))
          (between (·.height) startBlock high (recvs history)) (expected history high)) ∧
    ∀ t₁ t₂, handleIcs20Ack (indexed startBlock history) low high t = .ok t₁ →
      handleIcs20Timeout (indexed startBlock history) low high t₁ = .ok t₂ →
      ∀ a ∈ settlements history, low < a.height → a.height ≤ high →
        SentIn startBlock history a := by
  have hf : SendRowOf (expected history low) := fun m => (expected_fields low m).2
  have hnd₁ : ((acksSuccess startBlock history low high).map (·.sequence_key)).Nodup :=
    query_keys_nodup hH hlow (fun m hm => Or.inl hm) _
  have hnd₂ : ((acksError startBlock history low high).map (·.sequence_key)).Nodup :=
    query_keys_nodup hH hlow (fun m hm => Or.inl hm) _
  have hnd₃ : ((query isTimeout (indexed startBlock history) low high).map
      (·.sequence_key)).Nodup := by
    simpa using query_keys_nodup hH hlow (fun m hm => Or.inr hm) fun _ => true
  rw [handleIcs20Ack_eq hH hlow]
  constructor
  · intro hall
    have hkey : ∀ a, a ∈ settlements history ∧ low < a.height ∧ a.height ≤ high →
        a.sequence_key ∈ (between (·.height) startBlock high (sends history)).map
          (·.sequence_key) :=
      fun a ⟨ha, hlt, hhigh⟩ => (key_mem_iff hH ha hhigh).mpr (hall a ha hlt hhigh)
    obtain ⟨ta, hta, hva⟩ := (update_range hH hf hnd₁ hv).1
      fun a ha => hkey a ((settled_in_range hlow).mp (.inl ha))
    obtain ⟨tb, htb, hvb⟩ := (update_range hH hf.settle hnd₂ hva).1
      fun a ha => hkey a ((settled_in_range hlow).mp (.inr (.inl ha)))
    obtain ⟨tc, htc, hvc⟩ := (update_range hH hf.settle.settle hnd₃ hvb).1
      fun a ha => hkey a ((settled_in_range hlow).mp (.inr (.inr ha)))
    refine ⟨tb, tc, ?_, htc, hvc.trans (List.Perm.of_eq ?_)⟩
    · rw [hta]
      exact htb
    · congr 1
      refine List.map_congr_left fun m hm => ?_
      exact settle_range hH hle (fun a => mem_acksSuccess hlow) (fun a => mem_acksError hlow)
        (fun a => mem_query hlow) (mem_between.mp hm).1
  · intro t₁ t₂ hack htime a ha hlt hhigh
    obtain ⟨ta, hta, htb⟩ := bind_ok hack
    -- each pass that succeeds has found the rows of its messages
    have hview₁ := @update_range _ .ackSuccess _ _ hH _ _ _ hf hnd₁ hv
    have hk₁ := hview₁.2 ta hta
    obtain ⟨ta', hta', hva⟩ := hview₁.1 hk₁
    obtain rfl : ta = ta' := Except.ok.inj (hta.symm.trans hta')
    have hview₂ := @update_range _ .ackError _ _ hH _ _ _ hf.settle hnd₂ hva
    have hk₂ := hview₂.2 t₁ htb
    obtain ⟨tb', htb', hvb⟩ := hview₂.1 hk₂
    obtain rfl : t₁ = tb' := Except.ok.inj (htb.symm.trans htb')
    have hk₃ := (@update_range _ .timeout _ _ hH _ _ _ hf.settle.settle hnd₃ hvb).2 t₂ htime
    refine (key_mem_iff hH ha hhigh).mp ?_
    rcases (settled_in_range hlow).mpr ⟨ha, hlt, hhigh⟩ with hin | hin | hin
    · exact hk₁ a hin
    · exact hk₂ a hin
    · exact hk₃ a hin

/-! ### All runs -/

theorem reached_store {db : Db} {t : Table IbcIcs20.id} {height high : ℕ} :
    reached startBlock { db with
      ibc_ics20 := t
      block_checkpoint := storeCheckpoint db.block_checkpoint ⟨.crawlIbcIcs20, height⟩ high } =
      high := by
  rw [reached, startHeight_storeCheckpoint, if_pos rfl]

/-- One run. -/
theorem crawl_step (hH : Consistent history) {db : Db} (hdb : Indexed startBlock history db)
    (high : ℕ) :
    ((∀ a ∈ settlements history, reached startBlock db < a.height → a.height ≤ high →
        SentIn startBlock history a) →
      ∃ db', crawlIbcIcs20 startBlock db high = .ok db') ∧
    ∀ db', crawlIbcIcs20 startBlock db high = .ok db' →
      Indexed startBlock history db' ∧ reached startBlock db' = max (reached startBlock db) high ∧
      ∀ a ∈ settlements history, reached startBlock db < a.height → a.height ≤ high →
        SentIn startBlock history a := by
  by_cases hlt : high < reached startBlock db
  · have hrun : crawlIbcIcs20 startBlock db high = .ok db := by
      rw [crawlIbcIcs20, if_pos hlt]
      rfl
    rw [hrun]
    refine ⟨fun _ => ⟨db, rfl⟩, fun db' h => ?_⟩
    cases h
    refine ⟨hdb, (max_eq_left hlt.le).symm, fun a _ h₁ h₂ => ?_⟩
    omega
  · have hle : reached startBlock db ≤ high := not_lt.mp hlt
    obtain ⟨t₁, t₂, hsend, hrecv, hv⟩ := insert_passes hH hdb.start_le hle hdb.view
    obtain ⟨hok, hcond⟩ := settle_passes hH hdb.start_le hle hv
    have hrun : crawlIbcIcs20 startBlock db high = (do
        let t ← handleIcs20Ack (indexed startBlock history) (reached startBlock db) high t₂
        let t ← handleIcs20Timeout (indexed startBlock history) (reached startBlock db) high t
        return { db with
          ibc_ics20 := t
          block_checkpoint := storeCheckpoint db.block_checkpoint
            ⟨.crawlIbcIcs20, reached startBlock db⟩ high }) := by
      rw [crawlIbcIcs20, if_neg hlt]
      simp only [hdb.messages, hsend, ok_bind, hrecv]
    constructor
    · intro hall
      obtain ⟨ta, tb, hack, htime, -⟩ := hok hall
      rw [hrun, hack, ok_bind, htime]
      exact ⟨_, rfl⟩
    · intro db' h
      rw [hrun] at h
      obtain ⟨ta, hack, h⟩ := bind_ok h
      obtain ⟨tb, htime, h⟩ := bind_ok h
      cases h
      have hall := hcond ta tb hack htime
      obtain ⟨ta', tb', hack', htime', hview⟩ := hok hall
      obtain rfl : ta = ta' := Except.ok.inj (hack.symm.trans hack')
      obtain rfl : tb = tb' := Except.ok.inj (htime.symm.trans htime')
      refine ⟨⟨hdb.messages, ?_, ?_⟩, ?_, hall⟩
      · rw [reached_store]
        exact hdb.start_le.trans hle
      · rw [reached_store]
        exact hview
      · rw [reached_store, max_eq_right hle]

/-- The runs up to the heights `ends`. -/
theorem crawl_run (hH : Consistent history) (ends : List ℕ) {db : Db}
    (hdb : Indexed startBlock history db) :
    ((∀ a ∈ settlements history, reached startBlock db < a.height →
        a.height ≤ ends.foldl max (reached startBlock db) → SentIn startBlock history a) →
      ∃ db', ends.foldlM (crawlIbcIcs20 startBlock) db = .ok db') ∧
    ∀ db', ends.foldlM (crawlIbcIcs20 startBlock) db = .ok db' →
      Indexed startBlock history db' ∧
      reached startBlock db' = ends.foldl max (reached startBlock db) ∧
      ∀ a ∈ settlements history, reached startBlock db < a.height →
        a.height ≤ ends.foldl max (reached startBlock db) → SentIn startBlock history a := by
  induction ends generalizing db with
  | nil =>
    refine ⟨fun _ => ⟨db, rfl⟩, fun db' h => ?_⟩
    cases h
    refine ⟨hdb, rfl, fun a _ h₁ h₂ => ?_⟩
    exact absurd h₂ (not_le.mpr h₁)
  | cons high ends ih =>
    obtain ⟨hok, hcond⟩ := crawl_step hH hdb high
    have hmono : ∀ (l : List ℕ) (n : ℕ), n ≤ l.foldl max n := by
      intro l
      induction l with
      | nil => exact fun n => le_refl n
      | cons x xs ih => exact fun n => (le_max_left n x).trans (ih (max n x))
    rw [List.foldl_cons]
    constructor
    · intro hall
      obtain ⟨db₁, h₁⟩ := hok fun a ha hlt hhigh => hall a ha hlt
        (hhigh.trans ((le_max_right _ _).trans (hmono ends _)))
      obtain ⟨hdb₁, hreached, -⟩ := hcond db₁ h₁
      obtain ⟨db', h'⟩ := (ih hdb₁).1 fun a ha hlt hhigh => hall a ha
        (lt_of_le_of_lt ((le_max_left _ _).trans hreached.ge) hlt) (hreached ▸ hhigh)
      refine ⟨db', ?_⟩
      rw [List.foldlM_cons, h₁]
      exact h'
    · intro db' h
      obtain ⟨db₁, h₁, h₂⟩ := foldlM_cons_ok h
      obtain ⟨hdb₁, hreached, hfirst⟩ := hcond db₁ h₁
      obtain ⟨hdb', hreached', hrest⟩ := (ih hdb₁).2 db' h₂
      rw [hreached] at hreached' hrest
      refine ⟨hdb', hreached', fun a ha hlt hhigh => ?_⟩
      by_cases hin : a.height ≤ high
      · exact hfirst a ha hlt hin
      · exact hrest a ha (max_lt hlt (not_le.mp hin)) hhigh

theorem indexed_initial (startBlock : ℕ) (history : List IbcMessage) :
    Indexed startBlock history (initialDb startBlock history) where
  messages := rfl
  start_le := le_refl _
  view := by
    have hnil : ∀ rows : List IbcMessage,
        between (·.height) startBlock (reached startBlock (initialDb startBlock history)) rows = [] :=
      fun rows => between_eq_nil fun _ _ h => h
    rw [hnil, hnil]
    exact List.Perm.refl _

/-- The send rows of a table. -/
theorem statusesRight_of_indexed {db : Db} (hdb : Indexed startBlock history db) :
    StatusesRight startBlock history db := by
  have hperm := hdb.view.filter (·.type = .sendPacket)
  have hsends : ∀ n ∈ (between (·.height) startBlock (reached startBlock db) (sends history)).map
      (expected history (reached startBlock db)), decide (n.type = .sendPacket) = true := by
    intro n hn
    obtain ⟨m, hm, rfl⟩ := List.mem_map.mp hn
    simp [(expected_fields _ m).2.1, (mem_sends.mp (mem_between.mp hm).1).2.2]
  have hrecvs : ∀ n ∈ (between (·.height) startBlock (reached startBlock db) (recvs history)).map
      recvContent, ¬ decide (n.type = .sendPacket) = true := by
    intro n hn
    obtain ⟨m, hm, rfl⟩ := List.mem_map.mp hn
    have hrecv := (List.mem_filter.mp (mem_between.mp hm).1).2
    simp only [isRecv, Bool.and_eq_true, decide_eq_true_eq] at hrecv
    simp [(recvContent_fields m).2, hrecv.2]
  rw [List.filter_append, List.filter_eq_self.mpr hsends, List.filter_eq_nil_iff.mpr hrecvs,
    List.append_nil] at hperm
  exact hperm

end

end Ics20Lemmas

open Ics20Lemmas

/-! ## 5. The result -/

/-- A transfer of height 5 and its acknowledgement of height 15. -/
def sendAt5 : IbcMessage where
  id := 1
  type := .sendPacket
  src_channel_id := "channel-0"
  src_port_id := "transfer"
  dst_channel_id := "channel-1"
  dst_port_id := "transfer"
  sequence := "7"
  data := ⟨some "a", some "b", some "10", some "uaura", none⟩
  message_id := 1
  events := []
  height := 5
  timestamp := "t5"

@[inherit_doc sendAt5] def ackAt15 : IbcMessage :=
  { sendAt5 with
    id := 2
    type := .acknowledgePacket
    message_id := 2
    events := [⟨fungibleTokenPacket, []⟩, ⟨fungibleTokenPacket, [⟨"success", some "01"⟩]⟩]
    height := 15
    timestamp := "t15" }

theorem consistent_example : Consistent [sendAt5, ackAt15] where
  id_nodup := by decide
  channel_id := by decide +kernel
  counterparty := by decide
  send_nodup := by decide
  settle_nodup := by decide
  settle_send := by decide
  send_data := by decide
  recv_event := by
    intro m hm hr
    have hnone : ∀ m ∈ [sendAt5, ackAt15], isRecv m = false := by decide
    rw [hnone m hm] at hr
    cases hr
  ack_events := by decide

end Erascope.Ibc.Ics20
