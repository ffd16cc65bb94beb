import Mathlib.Tactic
import Erascope.Lib.Rows

/-!
# The rows of a transaction

The model of `insertRelatedTx` in `services/crawl-tx/crawl_tx.service.ts`: from a stored
transaction it builds the rows of `event` (with their attributes) and of
`transaction_message`. `config.handleTransaction.saveRawLog` is set, so `data` is the decoded
transaction.

`filter_listEventModel` and `filter_listMsgModel` are what the worker model needs: among the
rows built for a batch, those of one transaction are exactly the ones built for it alone.
-/

namespace Erascope.CrawlTx

/-! ## 1. Decoded transactions -/

/-- An attribute of an event as the node returns it. -/
structure RawAttribute where
  key : Option String
  value : Option String
deriving DecidableEq, Repr

/-- An event of `tx_response.events` or of a log. -/
structure RawEvent where
  type : String
  attributes : Option (List RawAttribute)
  msg_index : Option ℕ
deriving DecidableEq, Repr

/-- An entry of `tx.body.messages`; `content` is the message itself. -/
structure RawMessage where
  type : String
  content : String
deriving DecidableEq, Repr

/-- The parts of `tx.data` that the job reads. `logs` is missing for a failed transaction;
each log is given by its events. -/
structure TxData where
  events : List RawEvent
  logs : Option (List (List RawEvent))
  messages : List RawMessage
deriving DecidableEq, Repr

/-- A row of `transaction`. -/
structure Transaction where
  id : ℕ
  height : ℕ
  index : ℕ
  data : TxData
deriving DecidableEq, Repr

/-- The two functions of the chain registry that depend on the version of the SDK: the
identity from v0.46 on, base64 before. -/
structure ChainRegistry where
  encodeAttribute : String → String
  decodeAttribute : String → String

/-! ## 2. Rows -/

/-- `Event.SOURCE` -/
inductive EventSource
  | beginBlockEvent | endBlockEvent | txEvent
deriving DecidableEq, Repr

/-- A row of `event_attribute`, nested in its event. -/
structure EventAttribute where
  tx_id : ℕ
  block_height : ℕ
  index : ℕ
  composite_key : Option String
  key : Option String
  value : Option String
deriving DecidableEq, Repr

/-- A row of `event`; `tx_id` is null for the events of a block. Row ids are fresh and nothing
reads them here, so they are left out. -/
structure Event where
  tx_id : Option ℕ
  tx_msg_index : Option ℕ
  type : String
  attributes : Option (List EventAttribute)
  block_height : ℕ
  source : EventSource
deriving DecidableEq, Repr

/-- A row of `transaction_message`. -/
structure TransactionMessage where
  tx_id : ℕ
  sender : String
  index : ℕ
  type : String
  content : String
deriving DecidableEq, Repr

/-! ## 3. Building the rows -/

/-- `config.handleTransaction.lastEventsTypeTx` -/
def lastEventsTypeTx : List String := ["tx", "ethereum_tx"]

/-- The loop of `createListEventWithMsgIndex`: it copies events up to the last one of the
types that close the transaction's own events. -/
def takeTxEvents (reachLastEventTypeTx : Bool) : List RawEvent → List RawEvent
  | [] => []
  | event :: events =>
    let isTxEvent := lastEventsTypeTx.contains event.type
    let reach := reachLastEventTypeTx || isTxEvent
    if reach && !isTxEvent then [] else event :: takeTxEvents reach events

/-- `createListEventWithMsgIndex` -/
def createListEventWithMsgIndex (tx : TxData) : List RawEvent :=
  match tx.logs with
  | none => []
  | some logs =>
    takeTxEvents false tx.events ++
      (logs.mapIdx fun index log => log.map fun event => { event with msg_index := some index }).flatten

/-- The search of `_findAttribute`: the first event of the type that has the attribute. It is
`none` when a `TypeError` ends it, which an event of the type without attributes causes. -/
def findEvent (eventType attributeKey : String) : List RawEvent → Option (Option (List RawAttribute))
  | [] => some none
  | event :: events =>
    if event.type = eventType then
      match event.attributes with
      | none => none
      | some attributes =>
        if attributes.any (fun a => a.key = some attributeKey) then some (some attributes)
        else findEvent eventType attributeKey events
    else findEvent eventType attributeKey events

/-- `_findAttribute`; `none` when it throws. -/
def findAttribute (events : List RawEvent) (eventType attributeKey : String) : Option String := do
  let foundEvent ← findEvent eventType attributeKey events
  let attributes ← foundEvent
  let foundAttribute ← attributes.find? fun a => a.key = some attributeKey
  truthy foundAttribute.value

/-- The sender of the messages of a transaction, empty when the lookup throws. -/
def senderOf (registry : ChainRegistry) (tx : TxData) : String :=
  ((findAttribute tx.events "message" (registry.encodeAttribute "sender")).map
    registry.decodeAttribute).getD ""

section
variable (registry : ChainRegistry)

/-- The attribute rows of an event. -/
def attributeInsert (tx : Transaction) (event : RawEvent) (index : ℕ) (attr : RawAttribute) :
    EventAttribute where
  tx_id := tx.id
  block_height := tx.height
  index := index
  composite_key :=
    (truthy attr.key).map fun key => event.type ++ "." ++ registry.decodeAttribute key
  key := (truthy attr.key).map registry.decodeAttribute
  value := (truthy attr.value).map registry.decodeAttribute

/-- `eventInsert`: the event rows of a transaction. -/
def eventInsert (tx : Transaction) : List Event :=
  (createListEventWithMsgIndex tx.data).map fun event =>
    { tx_id := some tx.id
      tx_msg_index := event.msg_index
      type := event.type
      attributes := event.attributes.map (·.mapIdx (attributeInsert registry tx event))
      block_height := tx.height
      source := .txEvent }

/-- `msgInsert`: the message rows of a transaction. -/
def msgInsert (tx : Transaction) : List TransactionMessage :=
  tx.data.messages.mapIdx fun index message =>
    { tx_id := tx.id
      sender := senderOf registry tx.data
      index := index
      type := message.type
      content := message.content }

/-- `insertRelatedTx`: the rows it inserts for a batch of transactions. -/
def insertRelatedTx (listDecodedTx : List Transaction) : List Event × List TransactionMessage :=
  (listDecodedTx.flatMap (eventInsert registry), listDecodedTx.flatMap (msgInsert registry))

/-! ## 4. The rows of one transaction in a batch -/

variable {registry}

theorem tx_id_of_mem_eventInsert {tx : Transaction} {event : Event}
    (h : event ∈ eventInsert registry tx) : event.tx_id = some tx.id := by
  obtain ⟨raw, -, rfl⟩ := List.mem_map.mp h
  rfl

theorem tx_id_of_mem_msgInsert {tx : Transaction} {msg : TransactionMessage}
    (h : msg ∈ msgInsert registry tx) : msg.tx_id = tx.id := by
  obtain ⟨i, hi, rfl⟩ := List.mem_mapIdx.mp h
  rfl

theorem filter_listEventModel {list : List Transaction} (hnd : (list.map (·.id)).Nodup)
    (tx : Transaction) (hid : ∀ x ∈ list, x.id = tx.id → x = tx) :
    (insertRelatedTx registry list).1.filter (fun e => e.tx_id = some tx.id) =
      if tx ∈ list then eventInsert registry tx else [] := by
  have hnd' : (list.map fun x => some x.id).Nodup := by
    simpa [Function.comp_def] using hnd.map (Option.some_injective ℕ)
  have hchild : ∀ x ∈ list, ∀ e ∈ eventInsert registry x, e.tx_id = some x.id :=
    fun x _ e he => tx_id_of_mem_eventInsert he
  split
  · next hmem => exact filter_flatMap_of_mem hchild hnd' hmem
  · next hmem =>
    refine filter_flatMap_of_not_mem hchild fun hk => hmem ?_
    obtain ⟨x, hx, hxid⟩ := List.mem_map.mp hk
    exact hid x hx (Option.some.inj hxid) ▸ hx

theorem filter_listMsgModel {list : List Transaction} (hnd : (list.map (·.id)).Nodup)
    (tx : Transaction) (hid : ∀ x ∈ list, x.id = tx.id → x = tx) :
    (insertRelatedTx registry list).2.filter (fun m => m.tx_id = tx.id) =
      if tx ∈ list then msgInsert registry tx else [] := by
  have hchild : ∀ x ∈ list, ∀ m ∈ msgInsert registry x, m.tx_id = x.id :=
    fun x _ m hm => tx_id_of_mem_msgInsert hm
  split
  · next hmem => exact filter_flatMap_of_mem hchild hnd hmem
  · next hmem =>
    refine filter_flatMap_of_not_mem hchild fun hk => hmem ?_
    obtain ⟨x, hx, hxid⟩ := List.mem_map.mp hk
    exact hid x hx hxid ▸ hx

end

end Erascope.CrawlTx
