import Mathlib.Tactic
import Erascope.CrawlTx.Related

/-!
# Transaction-level and message-level events

The raw event list of a transaction is its own events followed by those of its messages, and the
logs hold the second part again, message by message. `createListEventWithMsgIndex` takes the
message-level events from the logs and the transaction-level ones from the raw list. It looks for
the end of the latter with a latch: from the first event of a type in `lastEventsTypeTx` on, the
first event of another type ends the scan.

Results:
1. `split_events_iff`: the events of the transaction and of its logs are returned, each once and in
   order, if and only if no event of another type follows one of these types among the
   transaction's own.
2. `event_between_tx_events`: an event between two `tx` events is lost, with the second of them.
-/

namespace Erascope.CrawlTx

/-! ## 1. The two parts -/

/-- An event of a type that closes the transaction's own events. -/
def isTxEvent (event : RawEvent) : Bool := lastEventsTypeTx.contains event.type

/-- The raw events of `tx` are `own`, which end with a closing type, and then those of the
messages, which are also in `logs`. The node sends raw events without an index. -/
structure Parts (tx : TxData) (own : List RawEvent) (logs : List (List RawEvent)) : Prop where
  tx_logs : tx.logs = some logs
  last : ∃ event ∈ own.getLast?, isTxEvent event = true
  raw : ∃ messages, tx.events = own ++ messages ∧ (∀ event ∈ messages, isTxEvent event = false) ∧
    messages.map (·.type) = logs.flatten.map (·.type)
  index : ∀ event ∈ own, event.msg_index = none

/-- Every event of every log, with the index of its log. -/
def logEvents (logs : List (List RawEvent)) : List RawEvent :=
  logs.zipIdx.flatMap fun x => x.1.map fun event => { event with msg_index := some x.2 }

namespace SplitLemmas

/-! ### The latch -/

theorem takeTxEvents_cons (reach : Bool) (event : RawEvent) (events : List RawEvent) :
    takeTxEvents reach (event :: events) =
      if isTxEvent event then event :: takeTxEvents true events
      else if reach then [] else event :: takeTxEvents false events := by
  rw [takeTxEvents, isTxEvent]
  by_cases h : lastEventsTypeTx.contains event.type = true
  · simp only [h, Bool.or_true, Bool.not_true, Bool.and_false, Bool.false_eq_true, if_false, if_true]
  · rw [Bool.not_eq_true] at h
    simp only [h, Bool.or_false, Bool.not_false, Bool.and_true, Bool.false_eq_true, if_false]
    cases reach <;> rfl

/-- In what is taken, a closing type is followed by closing types only. -/
theorem takeTxEvents_sorted (reach : Bool) (events : List RawEvent) :
    (takeTxEvents reach events).Pairwise (fun a b => isTxEvent a = true → isTxEvent b = true) ∧
      (reach = true → ∀ event ∈ takeTxEvents reach events, isTxEvent event = true) := by
  induction events generalizing reach with
  | nil => exact ⟨List.Pairwise.nil, fun _ event h => absurd h List.not_mem_nil⟩
  | cons event events ih =>
    rw [takeTxEvents_cons]
    cases hevent : isTxEvent event with
    | true =>
      obtain ⟨hsorted, hall⟩ := ih true
      rw [if_pos rfl]
      refine ⟨List.pairwise_cons.mpr ⟨fun b hb _ => hall rfl b hb, hsorted⟩, fun _ b hb => ?_⟩
      rcases List.mem_cons.mp hb with rfl | hb
      · exact hevent
      · exact hall rfl b hb
    | false =>
      rw [if_neg Bool.false_ne_true]
      cases reach with
      | true => exact ⟨List.Pairwise.nil, fun _ event h => absurd h List.not_mem_nil⟩
      | false =>
        refine ⟨List.pairwise_cons.mpr ⟨fun b _ h => ?_, (ih false).1⟩, fun h => by cases h⟩
        rw [hevent] at h
        cases h

/-- Before an event that does not close, the latch has no effect. -/
theorem takeTxEvents_append {own rest : List RawEvent}
    (hsorted : own.Pairwise fun a b => isTxEvent a = true → isTxEvent b = true)
    (hlast : ∃ event ∈ own.getLast?, isTxEvent event = true)
    (hrest : ∀ event ∈ rest, isTxEvent event = false) (reach : Bool)
    (hreach : reach = true → ∀ event ∈ own, isTxEvent event = true) :
    takeTxEvents reach (own ++ rest) = own := by
  induction own generalizing reach with
  | nil =>
    obtain ⟨event, hmem, -⟩ := hlast
    cases hmem
  | cons event own ih =>
    obtain ⟨hfirst, hsorted⟩ := List.pairwise_cons.mp hsorted
    rw [List.cons_append, takeTxEvents_cons]
    -- the last event is `event` itself, or that of the rest
    cases own with
    | nil =>
      obtain ⟨e, hmem, he⟩ := hlast
      obtain rfl : event = e := by simpa using hmem
      have htake : takeTxEvents true rest = [] := by
        cases rest with
        | nil => rfl
        | cons r rest =>
          rw [takeTxEvents_cons, if_neg (by simp [hrest r List.mem_cons_self]), if_pos rfl]
      rw [if_pos he, List.nil_append, htake]
    | cons e own =>
      have hlast' : ∃ event ∈ (e :: own).getLast?, isTxEvent event = true := by
        simpa [List.getLast?_cons_cons] using hlast
      cases hevent : isTxEvent event with
      | true =>
        rw [if_pos rfl, ih hsorted hlast' true fun _ b hb => hfirst b hb hevent]
      | false =>
        cases reach with
        | true => exact absurd (hreach rfl event List.mem_cons_self) (by simp [hevent])
        | false =>
          rw [if_neg Bool.false_ne_true, if_neg Bool.false_ne_true,
            ih hsorted hlast' false fun h => by cases h]

theorem mapIdx_logs (logs : List (List RawEvent)) :
    (logs.mapIdx fun index log =>
      log.map fun event => { event with msg_index := some index }).flatten = logEvents logs := by
  rw [List.mapIdx_eq_zipIdx_map, logEvents, List.flatMap_def]

theorem map_no_index {own : List RawEvent} (h : ∀ event ∈ own, event.msg_index = none) :
    (own.map fun event => { event with msg_index := none }) = own := by
  conv_rhs => rw [← List.map_id own]
  refine List.map_congr_left fun event hevent => ?_
  cases event
  cases h _ hevent
  rfl

end SplitLemmas

open SplitLemmas

/-! ## 2. The result -/

/-- The events are split correctly exactly when the closing types stand together. -/
theorem split_events_iff {tx : TxData} {own : List RawEvent} {logs : List (List RawEvent)}
    (h : Parts tx own logs) :
    createListEventWithMsgIndex tx =
        (own.map fun event => { event with msg_index := none }) ++ logEvents logs ↔
      own.Pairwise fun a b => isTxEvent a = true → isTxEvent b = true := by
  obtain ⟨messages, hraw, hmessages, -⟩ := h.raw
  rw [createListEventWithMsgIndex, h.tx_logs, hraw, map_no_index h.index]
  simp only [mapIdx_logs]
  constructor
  · intro heq
    rw [← List.append_cancel_right heq]
    exact (takeTxEvents_sorted false _).1
  · intro hsorted
    rw [takeTxEvents_append hsorted h.last hmessages false fun hf => by cases hf]

/-- A raw event without attributes. -/
def rawEvent (type : String) : RawEvent := ⟨type, some [], none⟩

/-- The ante handler's events and one message. -/
def simpleTx : TxData where
  events := [rawEvent "coin_spent", rawEvent "tx", rawEvent "tx", rawEvent "message"]
  logs := some [[rawEvent "message"]]
  messages := [⟨"/cosmos.bank.v1beta1.MsgSend", ""⟩]

theorem parts_simpleTx :
    Parts simpleTx [rawEvent "coin_spent", rawEvent "tx", rawEvent "tx"] [[rawEvent "message"]] where
  tx_logs := rfl
  last := by decide
  raw := ⟨[rawEvent "message"], rfl, by decide, by decide⟩
  index := by decide

/-- Its two parts are found. -/
theorem split_events_simpleTx :
    Parts simpleTx [rawEvent "coin_spent", rawEvent "tx", rawEvent "tx"] [[rawEvent "message"]] ∧
    createListEventWithMsgIndex simpleTx =
      [rawEvent "coin_spent", rawEvent "tx", rawEvent "tx"].map
        (fun event => { event with msg_index := none }) ++ logEvents [[rawEvent "message"]] :=
  ⟨parts_simpleTx, (split_events_iff parts_simpleTx).mpr (by decide)⟩

/-- A fee event stands between two `tx` events. -/
def feeBetween : TxData where
  events := [rawEvent "tx", rawEvent "use_feegrant", rawEvent "tx", rawEvent "message"]
  logs := some [[rawEvent "message"]]
  messages := [⟨"/cosmos.bank.v1beta1.MsgSend", ""⟩]

/-- It is lost, and so is the second `tx` event. -/
theorem event_between_tx_events :
    Parts feeBetween [rawEvent "tx", rawEvent "use_feegrant", rawEvent "tx"]
      [[rawEvent "message"]] ∧
    createListEventWithMsgIndex feeBetween = [rawEvent "tx"] ++ logEvents [[rawEvent "message"]] ∧
    createListEventWithMsgIndex feeBetween ≠
      [rawEvent "tx", rawEvent "use_feegrant", rawEvent "tx"].map
        (fun event => { event with msg_index := none }) ++ logEvents [[rawEvent "message"]] := by
  refine ⟨⟨rfl, by decide, ⟨[rawEvent "message"], rfl, by decide, by decide⟩, by decide⟩, ?_, ?_⟩
  · decide
  · decide

end Erascope.CrawlTx
