import Mathlib.Tactic
import Erascope.Lib.Rows
import Erascope.Lib.Fold
import Erascope.Feegrants.Basic

/-!
# The fee grants of a range of transactions

`getFeegrantEvents` on what transactions leave in the tables. A grant or a revocation is a message,
at the top of a transaction or inside a `MsgExec`; the event has the index of the message at the
top. A use, and what the chain does when it uses a grant, has no index.

The query joins an event with the message of its transaction and index. `insertRelatedTx` stores
the messages at the top; `HANDLE_AUTHZ_TX` adds those inside a `MsgExec`, with their index
in the `MsgExec`, so that an event may join several rows, and the query keeps any of them.

Results:
1. `getFeegrantEvents_ok`: when a run completes, and what its histories are.
2. `feegrant_extraction_iff`: every answer of the query gives the histories of the transactions
   exactly when a use pays some fee, a grant that ends in a transaction is used in it, and every
   message that a grant may join has an allowance. `grant_inside_exec`: a grant in a `MsgExec`.
-/

namespace Erascope.Feegrants.Extract

/-! ## 1. Transactions -/

/-- The content of a message. -/
inductive Msg
  | grantAllowance (granter grantee : String) (allowance : Allowance)
  | revokeAllowance (granter grantee : String)
  | exec (msgs : List Msg)
  | other

/-- `message.allowance` -/
def Msg.allowance : Msg → Option Allowance
  | .grantAllowance _ _ allowance => some allowance
  | .revokeAllowance _ _ | .exec _ | .other => none

/-- What a message does to a grant. -/
inductive Effect
  | granted (granter grantee : String)
  | revoked (granter grantee : String)

mutual
/-- The effects of a message, in order. -/
def Msg.effects : Msg → List Effect
  | .grantAllowance granter grantee _ => [.granted granter grantee]
  | .revokeAllowance granter grantee => [.revoked granter grantee]
  | .exec msgs => Msg.allEffects msgs
  | .other => []

def Msg.allEffects : List Msg → List Effect
  | [] => []
  | msg :: msgs => msg.effects ++ Msg.allEffects msgs
end

/-- A transaction. `use`, `update` and `revocation` are the granter and the grantee of the grant
that pays the fee, of the grant that is stored again, and of the grant that is used up or has
expired; they stay when the messages fail. -/
structure ChainTx where
  id : ℕ
  height : ℕ
  code : ℕ
  fee : List Coin
  msgs : List Msg
  use : Option (String × String)
  update : Option (String × String)
  revocation : Option (String × String)

/-- The stored transactions. -/
structure Chain where
  txs : List ChainTx
  id_nodup : (txs.map (·.id)).Nodup

/-! ## 2. Rows -/

/-- A row of `event` with its attributes and its transaction. -/
structure Event where
  type : EventType
  tx_msg_index : Option ℕ
  attributes : List EventAttribute
  transaction : Transaction
deriving DecidableEq, Repr

/-- A row of `transaction_message`. -/
structure MessageRow where
  tx_id : ℕ
  index : ℕ
  content : Msg

namespace ChainTx

/-- An event of a transaction about a granter and a grantee. -/
def event (tx : ChainTx) (type : EventType) (tx_msg_index : Option ℕ) (parties : String × String) :
    Event :=
  { type := type
    tx_msg_index := tx_msg_index
    attributes := [⟨.granter, parties.1⟩, ⟨.grantee, parties.2⟩]
    transaction := ⟨tx.id, tx.height, some tx.fee⟩ }

/-- The effects of the messages, with the index of the message at the top. -/
def effects (tx : ChainTx) : List (Effect × ℕ) :=
  if tx.code = 0 then tx.msgs.zipIdx.flatMap fun m => m.1.effects.map fun x => (x, m.2) else []

/-- The event of an effect. -/
def effectEvent (tx : ChainTx) : Effect × ℕ → Event
  | (.granted granter grantee, i) => tx.event .setFeegrant (some i) (granter, grantee)
  | (.revoked granter grantee, i) => tx.event .revokeFeegrant (some i) (granter, grantee)

/-- The events of a transaction. -/
def events (tx : ChainTx) : List Event :=
  (tx.use.map (tx.event .useFeegrant none)).toList ++
    (tx.update.map (tx.event .setFeegrant none)).toList ++
    (tx.revocation.map (tx.event .revokeFeegrant none)).toList ++
    tx.effects.map tx.effectEvent

/-- The rows that `insertRelatedTx` inserts. -/
def messageRows (tx : ChainTx) : List MessageRow :=
  tx.msgs.mapIdx fun index content => ⟨tx.id, index, content⟩

/-- The rows that `HANDLE_AUTHZ_TX` inserts. -/
def subMessageRows (tx : ChainTx) : List MessageRow :=
  tx.msgs.flatMap fun msg =>
    match msg with
    | .exec msgs => msgs.mapIdx fun index content => ⟨tx.id, index, content⟩
    | .grantAllowance _ _ _ | .revokeAllowance _ _ | .other => []

end ChainTx

/-- The table `transaction_message` when `HANDLE_AUTHZ_TX` is at the height `handled`. -/
def Chain.messageRows (c : Chain) (handled : ℕ) : List MessageRow :=
  c.txs.flatMap ChainTx.messageRows ++
    (c.txs.filter fun tx => tx.height ≤ handled).flatMap ChainTx.subMessageRows

/-- The events that the query selects. -/
def Chain.rangeEvents (c : Chain) (startBlock endBlock : ℕ) : List Event :=
  between (·.transaction.height) startBlock endBlock (c.txs.flatMap ChainTx.events)

/-! ## 3. `getFeegrantEvents` -/

/-- An event with the content of the message that it is joined with. -/
structure JoinedEvent extends Event where
  message : Option Msg

/-- The relation `message` of an event. -/
def MessageRow.joins (row : MessageRow) (event : Event) : Bool :=
  row.tx_id = event.transaction.id && some row.index = event.tx_msg_index

/-- The event is joined with one of the rows that it may be joined with, if there is one. -/
def Joined (rows : List MessageRow) (e : JoinedEvent) : Prop :=
  match e.message with
  | none => ∀ row ∈ rows, row.joins e.toEvent = false
  | some content => ∃ row ∈ rows, row.joins e.toEvent = true ∧ row.content = content

/-- What the query may return: the events in any order. -/
structure Answer (rows : List MessageRow) (events : List Event) (answer : List JoinedEvent) :
    Prop where
  perm : (answer.map (·.toEvent)).Perm events
  joined : ∀ e ∈ answer, Joined rows e

/-- The answer that joins every event with the first row. -/
def joinFirst (rows : List MessageRow) (events : List Event) : List JoinedEvent :=
  events.map fun event => ⟨event, (rows.find? (·.joins event)).map (·.content)⟩

/-- What ends a run. -/
inductive ExtractError
  /-- The `TypeError` of reading `@type` of a message without `allowance`. -/
  | noAllowance (txId : ℕ)
  | feegrant (e : FeegrantError)
deriving DecidableEq, Repr

/-- The event as `getCreateFeegrantInfo` leaves it: with the allowance of its message. -/
def JoinedEvent.toFeegrantEvent (e : JoinedEvent) : FeegrantEvent :=
  { type := e.type
    tx_msg_index := e.tx_msg_index
    attributes := e.attributes
    transaction := e.transaction
    message := e.message.bind Msg.allowance }

/-- Whether `getCreateFeegrantInfo` finds an allowance in the message of a new grant. -/
def JoinedEvent.hasAllowance (e : JoinedEvent) : Bool :=
  match e.type, e.message with
  | .setFeegrant, some content => content.allowance.isSome
  | _, _ => true

/-- The body of the first loop. -/
def useHistory (newHistories : List FeegrantHistory) (e : JoinedEvent) :
    Except ExtractError (List FeegrantHistory) :=
  (Feegrants.useHistory newHistories e.toFeegrantEvent).mapError .feegrant

/-- The body of the second loop. -/
def grantOrRevoke (st : List Feegrant × List FeegrantHistory) (e : JoinedEvent) :
    Except ExtractError (List Feegrant × List FeegrantHistory) :=
  if e.hasAllowance then (Feegrants.grantOrRevoke st e.toFeegrantEvent).mapError .feegrant
  else .error (.noAllowance e.transaction.id)

/-- `getFeegrantEvents`, for an answer of the query. -/
def getFeegrantEvents (feegrantEvents : List JoinedEvent) :
    Except ExtractError (List Feegrant × List FeegrantHistory) := do
  let uses ← feegrantEvents.foldlM useHistory []
  let (newFeegrants, newHistories) ← feegrantEvents.foldlM grantOrRevoke ([], uses)
  return (newFeegrants, newHistories.insertionSort fun a b => a.tx_id ≤ b.tx_id)

/-! ## 4. What a range should give -/

/-- What a history says: an action of a transaction on the grant of a granter and a grantee. -/
structure Entry where
  tx_id : ℕ
  action : FeegrantAction
  granter : String
  grantee : String
deriving DecidableEq, Repr

def entryOf (h : FeegrantHistory) : Entry := ⟨h.tx_id, h.action, h.granter, h.grantee⟩

namespace ChainTx

/-- The entry of an effect: a creation or a revocation. -/
def effectEntry (tx : ChainTx) : Effect × ℕ → Entry
  | (.granted granter grantee, _) => ⟨tx.id, .create, granter, grantee⟩
  | (.revoked granter grantee, _) => ⟨tx.id, .revoke, granter, grantee⟩

/-- The entry of a use: a use-up if the transaction revokes the grant of the same parties. -/
def useEntry (tx : ChainTx) (parties : String × String) : Entry :=
  ⟨tx.id, if tx.revocation = some parties then .useUp else .use, parties.1, parties.2⟩

/-- The entries of a transaction. -/
def entries (tx : ChainTx) : List Entry :=
  (tx.use.map tx.useEntry).toList ++ tx.effects.map tx.effectEntry

end ChainTx

/-- The run completes, with one history for each entry. -/
def Extracted (txs : List ChainTx)
    (result : Except ExtractError (List Feegrant × List FeegrantHistory)) : Prop :=
  ∃ newFeegrants newHistories, result = .ok (newFeegrants, newHistories) ∧
    (newHistories.map entryOf).Perm (txs.flatMap ChainTx.entries)

/-! ## 5. The histories of a run -/

namespace Event

/-- The transaction, the granter and the grantee of an event. -/
def key (e : Event) : ℕ × String × String :=
  (e.transaction.id, (getAttributeFrom e.attributes .granter).getD "",
    (getAttributeFrom e.attributes .grantee).getD "")

def entry (e : Event) (action : FeegrantAction) : Entry :=
  ⟨e.key.1, action, e.key.2.1, e.key.2.2⟩

/-- What the first loop pushes. -/
def use? (e : Event) : Option Entry :=
  match e.type with
  | .useFeegrant => some (e.entry .use)
  | .setFeegrant | .revokeFeegrant => none

/-- What the second loop pushes. -/
def new? (e : Event) : Option Entry :=
  match e.type, e.tx_msg_index with
  | .setFeegrant, some _ => some (e.entry .create)
  | .revokeFeegrant, some _ => some (e.entry .revoke)
  | _, _ => none

/-- The use that the second loop turns into a use-up. -/
def ended? (e : Event) : Option (ℕ × String × String) :=
  match e.type, e.tx_msg_index with
  | .revokeFeegrant, none => some e.key
  | _, _ => none

end Event

/-- A use has a fee. -/
def Event.HasFee (e : Event) : Prop :=
  e.type = .useFeegrant → ∃ fee fees, e.transaction.fee = some (fee :: fees)

/-- The key of a use. -/
def Entry.useKey (x : Entry) : Option (ℕ × String × String) :=
  if x.action = .use then some (x.tx_id, x.granter, x.grantee) else none

/-- The uses among some entries. -/
def useKeys (xs : List Entry) : List (ℕ × String × String) := xs.filterMap Entry.useKey

/-- What the transactions do to grants, by `f`, with their ids. -/
def keysOf (f : ChainTx → Option (String × String)) (txs : List ChainTx) :
    List (ℕ × String × String) :=
  txs.filterMap fun tx => (f tx).map fun parties => (tx.id, parties)

/-- A use that has ended is a use-up. -/
def mark (ended : List (ℕ × String × String)) (x : Entry) : Entry :=
  if x.action = .use ∧ (x.tx_id, x.granter, x.grantee) ∈ ended then { x with action := .useUp }
  else x

/-- An event as it is stored: with its parties, and joined with a message if it has an index. -/
structure WellFormed (e : JoinedEvent) : Prop where
  granter : getAttributeFrom e.attributes .granter = some e.key.2.1
  grantee : getAttributeFrom e.attributes .grantee = some e.key.2.2
  message : e.message.isSome ↔ e.tx_msg_index.isSome

/-- The messages of a transaction can be stored as grants: a use pays some fee, a grant that ends is
used in the transaction, and what an event of a new grant may be joined with has an allowance. -/
structure ChainTx.Extractable (tx : ChainTx) (rows : List MessageRow) : Prop where
  fee : tx.use.isSome → tx.fee ≠ []
  used : ∀ parties, tx.revocation = some parties → tx.use = some parties
  allowance : ∀ event ∈ tx.events, event.type = .setFeegrant → ∀ row ∈ rows,
    row.joins event = true → row.content.allowance.isSome

namespace ExtractLemmas

variable {e : JoinedEvent} {es : List JoinedEvent} {ended : List (ℕ × String × String)}
  {k : ℕ × String × String} {x : Entry} {xs : List Entry}

theorem useKey_eq_some_iff :
    x.useKey = some k ↔ x.action = .use ∧ (x.tx_id, x.granter, x.grantee) = k := by
  simp [Entry.useKey]

theorem filterMap_cons_append {α β : Type} (f : α → Option β) (a : α) (as : List α) :
    (a :: as).filterMap f = (f a).toList ++ as.filterMap f := by
  rw [List.filterMap_cons]
  cases f a <;> rfl

theorem mark_nil : mark [] x = x := by simp [mark]

theorem mark_mark (ended' : List (ℕ × String × String)) :
    mark ended' (mark ended x) = mark (ended ++ ended') x := by
  obtain ⟨tx_id, action, granter, grantee⟩ := x
  simp only [mark, List.mem_append]
  split
  · next h => simp [h.1, h.2]
  · next h =>
    have hiff : (action = .use ∧ ((tx_id, granter, grantee) ∈ ended ∨
        (tx_id, granter, grantee) ∈ ended')) ↔
          (action = .use ∧ (tx_id, granter, grantee) ∈ ended') := by tauto
    simp only [hiff]

/-- An entry that is not an ended use stays. -/
theorem mark_of_useKey (h : ∀ k ∈ ended, x.useKey ≠ some k) : mark ended x = x := by
  refine if_neg fun ⟨haction, hmem⟩ => ?_
  exact h _ hmem (useKey_eq_some_iff.mpr ⟨haction, rfl⟩)

theorem map_mark_of_notMem (h : k ∉ useKeys xs) : xs.map (mark [k]) = xs := by
  have hself : ∀ x ∈ xs, mark [k] x = id x := fun x hx => mark_of_useKey fun k' hk' hkey => by
    rw [List.mem_singleton.mp hk'] at hkey
    exact h (List.mem_filterMap.mpr ⟨x, hx, hkey⟩)
  rw [List.map_congr_left hself, List.map_id]

/-- The uses that are left are those that have not ended. -/
theorem useKeys_map_mark (ended : List (ℕ × String × String)) (xs : List Entry) :
    useKeys (xs.map (mark ended)) = (useKeys xs).filter fun k => k ∉ ended := by
  induction xs with
  | nil => rfl
  | cons x xs ih =>
    obtain ⟨tx_id, action, granter, grantee⟩ := x
    simp only [useKeys, List.map_cons] at ih ⊢
    by_cases huse : action = .use
    · subst huse
      by_cases hmem : (tx_id, granter, grantee) ∈ ended
      · simp [mark, Entry.useKey, hmem, ih]
      · simp [mark, Entry.useKey, hmem, ih]
    · simp [mark, Entry.useKey, huse, ih]

theorem useKeys_append (xs ys : List Entry) : useKeys (xs ++ ys) = useKeys xs ++ useKeys ys :=
  List.filterMap_append

theorem useKeys_new? (event : Event) : useKeys event.new?.toList = [] := by
  unfold Event.new?
  split <;> rfl

/-- The uses after one event of the second loop. -/
theorem useKeys_step (event : Event) (xs : List Entry) :
    useKeys (xs.map (mark event.ended?.toList) ++ event.new?.toList) =
      (useKeys xs).filter fun k => k ∉ event.ended?.toList := by
  rw [useKeys_append, useKeys_new?, List.append_nil, useKeys_map_mark]

theorem isUseOf_iff (he : WellFormed e) (h : FeegrantHistory) :
    isUseOf e.toFeegrantEvent h = true ↔ (entryOf h).useKey = some e.key := by
  have hkey : e.key = (e.transaction.id, e.key.2.1, e.key.2.2) := rfl
  rw [useKey_eq_some_iff, hkey]
  simp only [isUseOf, Bool.and_eq_true, decide_eq_true_eq, and_assoc]
  simp only [JoinedEvent.toFeegrantEvent, he.granter, he.grantee, entryOf, Option.some.injEq,
    Prod.mk.injEq]

/-- `findIndex` finds a use, and the only one. -/
theorem markUseUp_ok (he : WellFormed e) {hs hs' : List FeegrantHistory}
    (h : markUseUp e.toFeegrantEvent hs = .ok hs') :
    e.key ∈ useKeys (hs.map entryOf) ∧ ((useKeys (hs.map entryOf)).Nodup →
      hs'.map entryOf = (hs.map entryOf).map (mark [e.key])) := by
  induction hs generalizing hs' with
  | nil => cases h
  | cons u hs ih =>
    rw [markUseUp] at h
    split at h
    · next huse =>
      cases h
      have hkey := (isUseOf_iff he u).mp huse
      have hkeys : useKeys ((u :: hs).map entryOf) = e.key :: useKeys (hs.map entryOf) :=
        List.filterMap_cons_some hkey
      rw [hkeys]
      refine ⟨List.mem_cons_self, fun hnodup => ?_⟩
      have hnotMem := (List.nodup_cons.mp hnodup).1
      obtain ⟨haction, hu⟩ := useKey_eq_some_iff.mp hkey
      rw [List.map_cons, List.map_cons, List.map_cons, map_mark_of_notMem hnotMem]
      simp only [mark, haction, hu, List.mem_singleton, and_self, if_true]
      rfl
    · next huse =>
      have hkey : (entryOf u).useKey ≠ some e.key := fun hkey => huse ((isUseOf_iff he u).mpr hkey)
      cases hrest : markUseUp e.toFeegrantEvent hs with
      | error err =>
        rw [hrest] at h
        cases h
      | ok rest =>
        rw [hrest] at h
        cases h
        obtain ⟨hmem, hmark⟩ := ih hrest
        have hsub : (useKeys (hs.map entryOf)).Sublist (useKeys ((u :: hs).map entryOf)) :=
          (List.sublist_cons_self _ _).filterMap _
        refine ⟨hsub.subset hmem, fun hnodup => ?_⟩
        have hu : mark [e.key] (entryOf u) = entryOf u := mark_of_useKey (by simpa using hkey)
        rw [List.map_cons, hmark (hnodup.sublist hsub), List.map_cons, List.map_cons, hu]

theorem exists_markUseUp (he : WellFormed e) {hs : List FeegrantHistory}
    (h : e.key ∈ useKeys (hs.map entryOf)) :
    ∃ hs', markUseUp e.toFeegrantEvent hs = .ok hs' := by
  induction hs with
  | nil => cases h
  | cons u hs ih =>
    rw [markUseUp]
    split
    · exact ⟨_, rfl⟩
    · next huse =>
      have hkey : (entryOf u).useKey ≠ some e.key := fun hkey => huse ((isUseOf_iff he u).mpr hkey)
      obtain ⟨u', hu', hkey'⟩ := List.mem_filterMap.mp h
      rcases List.mem_cons.mp hu' with rfl | hu'
      · exact absurd hkey' hkey
      · obtain ⟨rest, hrest⟩ := ih (List.mem_filterMap.mpr ⟨u', hu', hkey'⟩)
        exact ⟨u :: rest, by rw [hrest]; rfl⟩

theorem partiesOf_ok (he : WellFormed e) :
    partiesOf e.toFeegrantEvent = .ok (e.key.2.1, e.key.2.2) := by
  simp only [partiesOf, JoinedEvent.toFeegrantEvent, he.granter, he.grantee]

/-! ### The first loop -/

theorem useHistory_of_ne (h : e.type ≠ .useFeegrant) (hs : List FeegrantHistory) :
    useHistory hs e = .ok hs := by
  have htype : e.toFeegrantEvent.type = e.type := rfl
  unfold useHistory Feegrants.useHistory
  rw [htype]
  cases hcase : e.type with
  | useFeegrant => exact absurd hcase h
  | setFeegrant => rfl
  | revokeFeegrant => rfl

theorem use?_of_ne {event : Event} (h : event.type ≠ .useFeegrant) : event.use? = none := by
  unfold Event.use?
  split
  · next htype => exact absurd htype h
  · rfl
  · rfl

theorem useHistory_ok (he : WellFormed e) {hs hs' : List FeegrantHistory}
    (h : useHistory hs e = .ok hs') :
    e.HasFee ∧ hs'.map entryOf = hs.map entryOf ++ e.use?.toList := by
  by_cases htype : e.type = .useFeegrant
  · have htype' : e.toFeegrantEvent.type = .useFeegrant := htype
    unfold useHistory Feegrants.useHistory at h
    rw [htype'] at h
    simp only at h
    split at h
    · next fee fees hfee =>
      rw [partiesOf_ok he] at h
      cases h
      refine ⟨fun _ => ⟨fee, fees, hfee⟩, ?_⟩
      rw [List.map_append, Event.use?, htype]
      rfl
    · cases h
  · rw [useHistory_of_ne htype] at h
    cases h
    rw [use?_of_ne htype]
    exact ⟨fun huse => absurd huse htype, by simp⟩

theorem exists_useHistory (he : WellFormed e) (hfee : e.HasFee) (hs : List FeegrantHistory) :
    ∃ hs', useHistory hs e = .ok hs' := by
  by_cases htype : e.type = .useFeegrant
  · obtain ⟨fee, fees, hfees⟩ := hfee htype
    have htype' : e.toFeegrantEvent.type = .useFeegrant := htype
    have hfees' : e.toFeegrantEvent.transaction.fee = some (fee :: fees) := hfees
    unfold useHistory Feegrants.useHistory
    rw [htype']
    simp only [hfees']
    rw [partiesOf_ok he]
    exact ⟨_, rfl⟩
  · exact ⟨hs, useHistory_of_ne htype hs⟩

theorem foldlM_useHistory_ok (hes : ∀ e ∈ es, WellFormed e) {hs hs' : List FeegrantHistory}
    (h : es.foldlM useHistory hs = .ok hs') :
    (∀ e ∈ es, e.HasFee) ∧
      hs'.map entryOf = hs.map entryOf ++ es.filterMap fun e => e.use? := by
  induction es generalizing hs with
  | nil =>
    cases h
    simp
  | cons e es ih =>
    obtain ⟨mid, hmid, hrest⟩ := foldlM_cons_ok h
    obtain ⟨hfee, hentry⟩ := useHistory_ok (hes e List.mem_cons_self) hmid
    obtain ⟨hfees, hentries⟩ := ih (fun e' he' => hes e' (List.mem_cons_of_mem e he')) hrest
    refine ⟨List.forall_mem_cons.mpr ⟨hfee, hfees⟩, ?_⟩
    rw [hentries, hentry, List.append_assoc, filterMap_cons_append]

theorem exists_foldlM_useHistory (hes : ∀ e ∈ es, WellFormed e) (hfee : ∀ e ∈ es, e.HasFee)
    (hs : List FeegrantHistory) : ∃ hs', es.foldlM useHistory hs = .ok hs' := by
  induction es generalizing hs with
  | nil => exact ⟨hs, rfl⟩
  | cons e es ih =>
    obtain ⟨mid, hmid⟩ := exists_useHistory (hes e List.mem_cons_self) (hfee e List.mem_cons_self) hs
    rw [List.foldlM_cons, hmid, ok_bind]
    exact ih (fun e' he' => hes e' (List.mem_cons_of_mem e he'))
      (fun e' he' => hfee e' (List.mem_cons_of_mem e he')) mid

/-! ### The second loop -/

/-- An event that is not a revocation without an index pushes what it should. -/
theorem grantOrRevoke_of_ended?_none (he : WellFormed e) (hended : e.ended? = none)
    (hallowance : e.hasAllowance = true) (st : List Feegrant × List FeegrantHistory) :
    ∃ st', grantOrRevoke st e = .ok st' ∧
      st'.2.map entryOf = st.2.map entryOf ++ e.new?.toList := by
  have htype : e.toFeegrantEvent.type = e.type := rfl
  have hindex : e.toFeegrantEvent.tx_msg_index = e.tx_msg_index := rfl
  have hmessage : e.toFeegrantEvent.message = e.message.bind Msg.allowance := rfl
  rw [grantOrRevoke, if_pos hallowance, Feegrants.grantOrRevoke, htype, hindex, hmessage]
  cases hcase : e.type with
  | useFeegrant => exact ⟨st, rfl, by simp [Event.new?, hcase]⟩
  | setFeegrant =>
    cases hmsg : e.message with
    | none =>
      have hnone : e.tx_msg_index = none := by
        have hiff := he.message
        rw [hmsg] at hiff
        simpa using hiff
      exact ⟨st, rfl, by simp [Event.new?, hcase, hnone]⟩
    | some content =>
      have hsome : e.tx_msg_index.isSome := he.message.mp (by rw [hmsg]; rfl)
      obtain ⟨i, hi⟩ := Option.isSome_iff_exists.mp hsome
      rw [JoinedEvent.hasAllowance, hcase, hmsg] at hallowance
      obtain ⟨allowance, hal⟩ := Option.isSome_iff_exists.mp hallowance
      simp only [Option.bind_some, hal]
      rw [partiesOf_ok he]
      refine ⟨_, rfl, ?_⟩
      rw [List.map_append, Event.new?, hcase, hi]
      rfl
  | revokeFeegrant =>
    cases hi : e.tx_msg_index with
    | none =>
      rw [Event.ended?, hcase, hi] at hended
      cases hended
    | some i =>
      simp only
      rw [partiesOf_ok he]
      refine ⟨_, rfl, ?_⟩
      rw [List.map_append, Event.new?, hcase, hi]
      rfl

theorem of_ended?_eq_some {event : Event} (h : event.ended? = some k) :
    event.type = .revokeFeegrant ∧ event.tx_msg_index = none ∧ event.key = k := by
  unfold Event.ended? at h
  split at h
  · next htype hindex => exact ⟨htype, hindex, Option.some.inj h⟩
  · cases h

theorem hasAllowance_of_ne (h : e.type ≠ .setFeegrant) : e.hasAllowance = true := by
  unfold JoinedEvent.hasAllowance
  split
  · next htype _ => exact absurd htype h
  · rfl

/-- A revocation without an index is `findIndex` and an assignment. -/
theorem grantOrRevoke_of_ended?_some (hended : e.ended? = some k)
    (st : List Feegrant × List FeegrantHistory) :
    grantOrRevoke st e =
      (markUseUp e.toFeegrantEvent st.2 >>= fun hs => .ok (st.1, hs)).mapError .feegrant := by
  obtain ⟨htype, hindex, -⟩ := of_ended?_eq_some hended
  have htype' : e.toFeegrantEvent.type = .revokeFeegrant := htype
  have hindex' : e.toFeegrantEvent.tx_msg_index = none := hindex
  have hallowance : e.hasAllowance = true := hasAllowance_of_ne (by rw [htype]; decide)
  rw [grantOrRevoke, if_pos hallowance, Feegrants.grantOrRevoke, htype', hindex']
  rfl

theorem new?_of_ended? {event : Event} (h : event.ended? = some k) : event.new? = none := by
  obtain ⟨htype, hindex, -⟩ := of_ended?_eq_some h
  rw [Event.new?, htype, hindex]

theorem grantOrRevoke_ok (he : WellFormed e) {st st' : List Feegrant × List FeegrantHistory}
    (hnodup : (useKeys (st.2.map entryOf)).Nodup) (h : grantOrRevoke st e = .ok st') :
    e.hasAllowance = true ∧ (∀ k ∈ e.ended?, k ∈ useKeys (st.2.map entryOf)) ∧
      st'.2.map entryOf = (st.2.map entryOf).map (mark e.ended?.toList) ++ e.new?.toList := by
  have hallowance : e.hasAllowance = true := by
    rw [grantOrRevoke] at h
    split at h
    · assumption
    · cases h
  refine ⟨hallowance, ?_⟩
  cases hended : e.ended? with
  | none =>
    obtain ⟨mid, hmid, hentries⟩ := grantOrRevoke_of_ended?_none he hended hallowance st
    rw [h] at hmid
    cases hmid
    refine ⟨by simp, ?_⟩
    have hself : mark ([] : List (ℕ × String × String)) = id := funext fun _ => mark_nil
    rw [hentries, Option.toList_none, hself, List.map_id]
  | some k =>
    obtain ⟨-, -, rfl⟩ := of_ended?_eq_some hended
    rw [grantOrRevoke_of_ended?_some hended] at h
    cases hmark : markUseUp e.toFeegrantEvent st.2 with
    | error err =>
      rw [hmark] at h
      cases h
    | ok hs =>
      rw [hmark] at h
      cases h
      obtain ⟨hmem, hentries⟩ := markUseUp_ok he hmark
      rw [new?_of_ended? hended, Option.toList_none, List.append_nil]
      refine ⟨fun k hk => ?_, hentries hnodup⟩
      cases hk
      exact hmem

theorem exists_grantOrRevoke (he : WellFormed e) (hallowance : e.hasAllowance = true)
    {st : List Feegrant × List FeegrantHistory}
    (hused : ∀ k ∈ e.ended?, k ∈ useKeys (st.2.map entryOf)) :
    ∃ st', grantOrRevoke st e = .ok st' := by
  cases hended : e.ended? with
  | none =>
    obtain ⟨st', hst', -⟩ := grantOrRevoke_of_ended?_none he hended hallowance st
    exact ⟨st', hst'⟩
  | some k =>
    obtain ⟨-, -, rfl⟩ := of_ended?_eq_some hended
    obtain ⟨hs, hhs⟩ := exists_markUseUp he (hused _ hended)
    rw [grantOrRevoke_of_ended?_some hended, hhs]
    exact ⟨_, rfl⟩

/-- What the second loop has done when it completes. -/
theorem foldlM_grantOrRevoke_ok (hes : ∀ e ∈ es, WellFormed e)
    {st st' : List Feegrant × List FeegrantHistory}
    (hnodup : (useKeys (st.2.map entryOf)).Nodup) (h : es.foldlM grantOrRevoke st = .ok st') :
    (∀ e ∈ es, e.hasAllowance = true) ∧
      (∀ k ∈ es.filterMap fun e => e.ended?, k ∈ useKeys (st.2.map entryOf)) ∧
      st'.2.map entryOf = (st.2.map entryOf).map (mark (es.filterMap fun e => e.ended?)) ++
        es.filterMap fun e => e.new? := by
  induction es generalizing st with
  | nil =>
    cases h
    simp [mark_nil]
  | cons e es ih =>
    obtain ⟨mid, hmid, hrest⟩ := foldlM_cons_ok h
    obtain ⟨hallowance, hused, hentries⟩ := grantOrRevoke_ok (hes e List.mem_cons_self) hnodup hmid
    have hkeys : useKeys (mid.2.map entryOf) =
        (useKeys (st.2.map entryOf)).filter fun k => k ∉ e.ended?.toList := by
      rw [hentries, useKeys_step]
    obtain ⟨hallowances, hused', hentries'⟩ :=
      ih (fun e' he' => hes e' (List.mem_cons_of_mem e he')) (hkeys ▸ hnodup.filter _) hrest
    refine ⟨List.forall_mem_cons.mpr ⟨hallowance, hallowances⟩, fun k hk => ?_, ?_⟩
    · obtain ⟨e', he', hk'⟩ := List.mem_filterMap.mp hk
      rcases List.mem_cons.mp he' with rfl | he'
      · exact hused k hk'
      · have hmem := hused' k (List.mem_filterMap.mpr ⟨e', he', hk'⟩)
        rw [hkeys] at hmem
        exact List.mem_of_mem_filter hmem
    · rw [hentries', hentries, List.map_append, List.map_map]
      -- what the event pushes is not a use
      have hnew : e.new?.toList.map (mark (es.filterMap fun e => e.ended?)) = e.new?.toList := by
        have hself : ∀ x ∈ e.new?.toList, mark (es.filterMap fun e => e.ended?) x = id x := by
          intro x hx
          refine mark_of_useKey fun k _ hkey => ?_
          have hmem : k ∈ useKeys e.new?.toList := List.mem_filterMap.mpr ⟨x, hx, hkey⟩
          rw [useKeys_new?] at hmem
          cases hmem
        rw [List.map_congr_left hself, List.map_id]
      have hmark : mark (es.filterMap fun e => e.ended?) ∘ mark e.ended?.toList =
          mark ((e :: es).filterMap fun e => e.ended?) := by
        funext x
        rw [Function.comp_apply, mark_mark, filterMap_cons_append]
      rw [hnew, hmark, List.append_assoc, filterMap_cons_append fun e : JoinedEvent => e.new?]

theorem exists_foldlM_grantOrRevoke (hes : ∀ e ∈ es, WellFormed e)
    (hallowance : ∀ e ∈ es, e.hasAllowance = true) (hended : (es.filterMap fun e => e.ended?).Nodup)
    {st : List Feegrant × List FeegrantHistory} (hnodup : (useKeys (st.2.map entryOf)).Nodup)
    (hused : ∀ k ∈ es.filterMap fun e => e.ended?, k ∈ useKeys (st.2.map entryOf)) :
    ∃ st', es.foldlM grantOrRevoke st = .ok st' := by
  induction es generalizing st with
  | nil => exact ⟨st, rfl⟩
  | cons e es ih =>
    have he := hes e List.mem_cons_self
    rw [filterMap_cons_append] at hended hused
    obtain ⟨mid, hmid⟩ := exists_grantOrRevoke he (hallowance e List.mem_cons_self)
      fun k hk => hused k (List.mem_append_left _ (Option.mem_toList.mpr hk))
    obtain ⟨-, -, hentries⟩ := grantOrRevoke_ok he hnodup hmid
    have hkeys : useKeys (mid.2.map entryOf) =
        (useKeys (st.2.map entryOf)).filter fun k => k ∉ e.ended?.toList := by
      rw [hentries, useKeys_step]
    obtain ⟨-, hended', hdisjoint⟩ := List.nodup_append.mp hended
    rw [List.foldlM_cons, hmid, ok_bind]
    refine ih (fun e' he' => hes e' (List.mem_cons_of_mem e he'))
      (fun e' he' => hallowance e' (List.mem_cons_of_mem e he')) hended' (hkeys ▸ hnodup.filter _)
      fun k hk => ?_
    rw [hkeys, List.mem_filter]
    refine ⟨hused k (List.mem_append_right _ hk), ?_⟩
    simpa using fun hk' => hdisjoint k hk' k hk rfl

/-! ### A run -/

/-- When a run completes, and what its histories are. -/
theorem getFeegrantEvents_ok (hes : ∀ e ∈ es, WellFormed e)
    (hnodup : (useKeys (es.filterMap fun e => e.use?)).Nodup) {newFeegrants : List Feegrant}
    {newHistories : List FeegrantHistory}
    (h : getFeegrantEvents es = .ok (newFeegrants, newHistories)) :
    (∀ e ∈ es, e.HasFee) ∧ (∀ e ∈ es, e.hasAllowance = true) ∧
      (∀ k ∈ es.filterMap fun e => e.ended?, k ∈ useKeys (es.filterMap fun e => e.use?)) ∧
      (newHistories.map entryOf).Perm
        ((es.filterMap fun e => e.use?).map (mark (es.filterMap fun e => e.ended?)) ++
          es.filterMap fun e => e.new?) := by
  obtain ⟨uses, huses, h⟩ := bind_ok h
  obtain ⟨st, hst, h⟩ := bind_ok h
  cases h
  obtain ⟨hfee, hentries⟩ := foldlM_useHistory_ok hes huses
  rw [List.map_nil, List.nil_append] at hentries
  obtain ⟨hallowance, hused, hentries'⟩ :=
    foldlM_grantOrRevoke_ok hes (by simpa only [hentries] using hnodup) hst
  simp only [hentries] at hused hentries'
  refine ⟨hfee, hallowance, hused, ?_⟩
  rw [← hentries']
  exact (List.perm_insertionSort _ _).map _

theorem exists_getFeegrantEvents (hes : ∀ e ∈ es, WellFormed e)
    (hnodup : (useKeys (es.filterMap fun e => e.use?)).Nodup)
    (hended : (es.filterMap fun e => e.ended?).Nodup) (hfee : ∀ e ∈ es, e.HasFee)
    (hallowance : ∀ e ∈ es, e.hasAllowance = true)
    (hused : ∀ k ∈ es.filterMap fun e => e.ended?, k ∈ useKeys (es.filterMap fun e => e.use?)) :
    ∃ newFeegrants newHistories, getFeegrantEvents es = .ok (newFeegrants, newHistories) := by
  obtain ⟨uses, huses⟩ := exists_foldlM_useHistory hes hfee []
  obtain ⟨-, hentries⟩ := foldlM_useHistory_ok hes huses
  rw [List.map_nil, List.nil_append] at hentries
  rw [← hentries] at hnodup hused
  have hsecond : ∃ st', es.foldlM grantOrRevoke (([] : List Feegrant), uses) = .ok st' :=
    exists_foldlM_grantOrRevoke hes hallowance hended hnodup hused
  obtain ⟨st', hst'⟩ := hsecond
  refine ⟨st'.1, st'.2.insertionSort fun a b => a.tx_id ≤ b.tx_id, ?_⟩
  rw [getFeegrantEvents, huses, ok_bind, hst', ok_bind]
  rfl

/-! ### The events of a range -/

variable {c : Chain} {tx : ChainTx} {txs : List ChainTx} {startBlock endBlock handled : ℕ}
  {event : Event}

@[simp] theorem tx_msg_index_event (type : EventType) (i : Option ℕ) (parties : String × String) :
    (tx.event type i parties).tx_msg_index = i := rfl

@[simp] theorem transaction_event (type : EventType) (i : Option ℕ) (parties : String × String) :
    (tx.event type i parties).transaction = ⟨tx.id, tx.height, some tx.fee⟩ := rfl

theorem filterMap_use?_events (tx : ChainTx) : tx.events.filterMap Event.use? =
    (tx.use.map fun p => (⟨tx.id, .use, p.1, p.2⟩ : Entry)).toList := by
  have heffects : (tx.effects.map tx.effectEvent).filterMap Event.use? = [] := by
    rw [List.filterMap_map, List.filterMap_eq_nil_iff]
    rintro ⟨effect, i⟩ -
    cases effect <;> rfl
  rw [ChainTx.events, List.filterMap_append, heffects]
  cases tx.use <;> cases tx.update <;> cases tx.revocation <;> rfl

theorem filterMap_ended?_events (tx : ChainTx) : tx.events.filterMap Event.ended? =
    (tx.revocation.map fun p => (tx.id, p)).toList := by
  have heffects : (tx.effects.map tx.effectEvent).filterMap Event.ended? = [] := by
    rw [List.filterMap_map, List.filterMap_eq_nil_iff]
    rintro ⟨effect, i⟩ -
    cases effect <;> rfl
  rw [ChainTx.events, List.filterMap_append, heffects]
  cases tx.use <;> cases tx.update <;> cases tx.revocation <;> rfl

theorem filterMap_new?_events (tx : ChainTx) : tx.events.filterMap Event.new? =
    tx.effects.map tx.effectEntry := by
  have heffects : (tx.effects.map tx.effectEvent).filterMap Event.new? =
      tx.effects.map tx.effectEntry := by
    rw [List.filterMap_map, ← List.filterMap_eq_map]
    refine List.filterMap_congr ?_
    rintro ⟨effect, i⟩ -
    cases effect <;> rfl
  rw [ChainTx.events, List.filterMap_append, heffects]
  cases tx.use <;> cases tx.update <;> cases tx.revocation <;> rfl

theorem exists_of_mem_effects {x : Effect × ℕ} (h : x ∈ tx.effects) :
    ∃ msg, tx.msgs[x.2]? = some msg := by
  rw [ChainTx.effects] at h
  split at h
  · obtain ⟨m, hm, hx⟩ := List.mem_flatMap.mp h
    obtain ⟨effect, -, rfl⟩ := List.mem_map.mp hx
    exact ⟨m.1, List.mem_zipIdx_iff_getElem?.mp hm⟩
  · cases h

/-- An event has its parties, and an index only if there is a message at this index. -/
theorem of_mem_events (h : event ∈ tx.events) :
    (∃ type i parties, event = tx.event type i parties) ∧
      ∀ i, event.tx_msg_index = some i → ∃ msg, tx.msgs[i]? = some msg := by
  simp only [ChainTx.events, List.mem_append, Option.mem_toList, Option.map_eq_some_iff,
    List.mem_map] at h
  rcases h with ((⟨p, -, rfl⟩ | ⟨p, -, rfl⟩) | ⟨p, -, rfl⟩) | ⟨⟨effect, i⟩, heffect, rfl⟩
  · exact ⟨⟨_, _, _, rfl⟩, fun i hi => nomatch hi⟩
  · exact ⟨⟨_, _, _, rfl⟩, fun i hi => nomatch hi⟩
  · exact ⟨⟨_, _, _, rfl⟩, fun i hi => nomatch hi⟩
  · have hmsg := exists_of_mem_effects heffect
    cases effect with
    | granted granter grantee =>
      refine ⟨⟨_, _, _, rfl⟩, fun j hj => ?_⟩
      cases hj
      exact hmsg
    | revoked granter grantee =>
      refine ⟨⟨_, _, _, rfl⟩, fun j hj => ?_⟩
      cases hj
      exact hmsg

theorem rangeEvents_eq (c : Chain) (startBlock endBlock : ℕ) : c.rangeEvents startBlock endBlock =
    (between (·.height) startBlock endBlock c.txs).flatMap ChainTx.events := by
  refine between_flatMap fun tx event hevent => ?_
  obtain ⟨⟨type, i, parties, rfl⟩, -⟩ := of_mem_events hevent
  rfl

/-- An event with an index joins the row of its message. -/
theorem exists_joins (htx : tx ∈ c.txs) (hevent : event ∈ tx.events) {i : ℕ}
    (hi : event.tx_msg_index = some i) : ∃ row ∈ c.messageRows handled, row.joins event = true := by
  obtain ⟨⟨type, j, parties, rfl⟩, hindex⟩ := of_mem_events hevent
  obtain ⟨msg, hmsg⟩ := hindex i hi
  obtain ⟨hlt, hget⟩ := List.getElem?_eq_some_iff.mp hmsg
  refine ⟨⟨tx.id, i, msg⟩, List.mem_append_left _ (List.mem_flatMap.mpr ⟨tx, htx, ?_⟩), ?_⟩
  · exact List.mem_mapIdx.mpr ⟨i, hlt, by rw [hget]⟩
  · rw [tx_msg_index_event] at hi
    simp [MessageRow.joins, hi]

theorem wellFormed (htx : tx ∈ c.txs) (hevent : e.toEvent ∈ tx.events)
    (hjoined : Joined (c.messageRows handled) e) : WellFormed e := by
  obtain ⟨⟨type, i, parties, heq⟩, -⟩ := of_mem_events hevent
  refine ⟨?_, ?_, ?_⟩
  · show getAttributeFrom e.toEvent.attributes .granter = some e.toEvent.key.2.1
    rw [heq]
    rfl
  · show getAttributeFrom e.toEvent.attributes .grantee = some e.toEvent.key.2.2
    rw [heq]
    rfl
  · unfold Joined at hjoined
    cases hmsg : e.message with
    | none =>
      rw [hmsg] at hjoined
      cases hi : e.tx_msg_index with
      | none => rfl
      | some i =>
        obtain ⟨row, hrow, hjoins⟩ := exists_joins htx hevent hi
        have hnot := hjoined row hrow
        rw [hjoins] at hnot
        cases hnot
    | some content =>
      rw [hmsg] at hjoined
      obtain ⟨row, -, hjoins, -⟩ := hjoined
      simp only [MessageRow.joins, Bool.and_eq_true, decide_eq_true_eq] at hjoins
      rw [← hjoins.2]
      rfl

/-! ### The keys of a range -/

theorem filterMap_ended?_flatMap (txs : List ChainTx) :
    (txs.flatMap ChainTx.events).filterMap Event.ended? = keysOf (·.revocation) txs := by
  rw [List.filterMap_flatMap, keysOf, List.filterMap_eq_flatMap_toList]
  simp only [filterMap_ended?_events]

theorem useKeys_flatMap (txs : List ChainTx) :
    useKeys ((txs.flatMap ChainTx.events).filterMap Event.use?) = keysOf (·.use) txs := by
  rw [List.filterMap_flatMap, useKeys, List.filterMap_flatMap, keysOf,
    List.filterMap_eq_flatMap_toList]
  refine List.flatMap_congr fun tx _ => ?_
  rw [filterMap_use?_events]
  cases tx.use <;> rfl

theorem nodup_keysOf (f : ChainTx → Option (String × String)) (h : (txs.map (·.id)).Nodup) :
    (keysOf f txs).Nodup := by
  rw [keysOf, List.nodup_iff_pairwise_ne, List.pairwise_filterMap]
  refine (List.pairwise_map.mp h).imp fun hne k hk k' hk' heq => hne ?_
  obtain ⟨p, -, rfl⟩ := Option.map_eq_some_iff.mp hk
  obtain ⟨p', -, rfl⟩ := Option.map_eq_some_iff.mp hk'
  exact congrArg Prod.fst heq

theorem mem_keysOf_iff {f : ChainTx → Option (String × String)} (h : (txs.map (·.id)).Nodup)
    (htx : tx ∈ txs) {parties : String × String} :
    (tx.id, parties) ∈ keysOf f txs ↔ f tx = some parties := by
  constructor
  · intro hmem
    obtain ⟨tx', htx', hk⟩ := List.mem_filterMap.mp hmem
    obtain ⟨p, hp, heq⟩ := Option.map_eq_some_iff.mp hk
    obtain ⟨hid, rfl⟩ := Prod.mk.inj heq
    rwa [List.inj_on_of_nodup_map h htx' htx hid] at hp
  · intro hf
    exact List.mem_filterMap.mpr ⟨tx, htx, by rw [hf]; rfl⟩

/-- The histories of the events are the entries of the transactions. -/
theorem entries_perm (h : (txs.map (·.id)).Nodup) :
    (((txs.flatMap ChainTx.events).filterMap Event.use?).map (mark (keysOf (·.revocation) txs)) ++
      (txs.flatMap ChainTx.events).filterMap Event.new?).Perm (txs.flatMap ChainTx.entries) := by
  have huse : ((txs.flatMap ChainTx.events).filterMap Event.use?).map
      (mark (keysOf (·.revocation) txs)) =
        txs.flatMap fun tx => (tx.use.map tx.useEntry).toList := by
    rw [List.filterMap_flatMap, List.map_flatMap]
    refine List.flatMap_congr fun tx htx => ?_
    rw [filterMap_use?_events]
    cases tx.use with
    | none => rfl
    | some p =>
      have hiff := @mem_keysOf_iff tx txs (·.revocation) h htx p
      simp [mark, ChainTx.useEntry, hiff]
      split <;> rfl
  have hnew : (txs.flatMap ChainTx.events).filterMap Event.new? =
      txs.flatMap fun tx => tx.effects.map tx.effectEntry := by
    rw [List.filterMap_flatMap]
    simp only [filterMap_new?_events]
  rw [huse, hnew]
  exact List.flatMap_append_perm txs _ _

/-! ### Answers -/

theorem answer_joinFirst {rows rows' : List MessageRow} (h : ∀ row, row ∈ rows' ↔ row ∈ rows)
    (events : List Event) : Answer rows events (joinFirst rows' events) := by
  refine ⟨?_, fun e he => ?_⟩
  · rw [joinFirst, List.map_map]
    exact List.Perm.of_eq (List.map_id events)
  · obtain ⟨event, -, rfl⟩ := List.mem_map.mp he
    unfold Joined
    cases hfind : rows'.find? (·.joins event) with
    | none =>
      intro row hrow
      simpa using List.find?_eq_none.mp hfind row ((h row).mpr hrow)
    | some row =>
      have hjoins : row.joins event = true := by simpa using List.find?_some hfind
      exact ⟨row, (h row).mp (List.mem_of_find?_eq_some hfind), hjoins, rfl⟩

theorem mem_rangeEvents {rows : List MessageRow} {answer : List JoinedEvent}
    (h : Answer rows (c.rangeEvents startBlock endBlock) answer) (he : e ∈ answer) :
    ∃ tx ∈ between (·.height) startBlock endBlock c.txs, e.toEvent ∈ tx.events := by
  have hmem := h.perm.mem_iff.mp (List.mem_map_of_mem he)
  rw [rangeEvents_eq] at hmem
  exact List.mem_flatMap.mp hmem

theorem exists_mem_answer {rows : List MessageRow} {answer : List JoinedEvent}
    (h : Answer rows (c.rangeEvents startBlock endBlock) answer)
    (htx : tx ∈ between (·.height) startBlock endBlock c.txs) (hevent : event ∈ tx.events) :
    ∃ e ∈ answer, e.toEvent = event := by
  have hmem : event ∈ c.rangeEvents startBlock endBlock := by
    rw [rangeEvents_eq]
    exact List.mem_flatMap.mpr ⟨tx, htx, hevent⟩
  exact List.mem_map.mp (h.perm.mem_iff.mpr hmem)

variable {rows : List MessageRow} {answer : List JoinedEvent}

theorem filterMap_answer_perm (h : Answer rows (c.rangeEvents startBlock endBlock) answer)
    {β : Type} (f : Event → Option β) : (answer.filterMap fun e => f e.toEvent).Perm
      (((between (·.height) startBlock endBlock c.txs).flatMap ChainTx.events).filterMap f) := by
  have hperm := h.perm.filterMap f
  rwa [List.filterMap_map, rangeEvents_eq] at hperm

theorem ended?_answer_perm (h : Answer rows (c.rangeEvents startBlock endBlock) answer) :
    (answer.filterMap fun e => e.ended?).Perm
      (keysOf (·.revocation) (between (·.height) startBlock endBlock c.txs)) := by
  rw [← filterMap_ended?_flatMap]
  exact filterMap_answer_perm h Event.ended?

theorem useKeys_answer_perm (h : Answer rows (c.rangeEvents startBlock endBlock) answer) :
    (useKeys (answer.filterMap fun e => e.use?)).Perm
      (keysOf (·.use) (between (·.height) startBlock endBlock c.txs)) := by
  rw [← useKeys_flatMap]
  exact (filterMap_answer_perm h Event.use?).filterMap _

theorem mark_perm {ended' : List (ℕ × String × String)} (h : ended.Perm ended') :
    mark ended = mark ended' := by
  funext x
  simp only [mark, h.mem_iff]

theorem wellFormed_of_mem_answer
    (h : Answer (c.messageRows handled) (c.rangeEvents startBlock endBlock) answer) :
    ∀ e ∈ answer, WellFormed e := by
  intro e he
  obtain ⟨tx, htx, hevent⟩ := mem_rangeEvents h he
  exact wellFormed (mem_between.mp htx).1 hevent (h.joined e he)

theorem nodup_range (c : Chain) (startBlock endBlock : ℕ) :
    ((between (·.height) startBlock endBlock c.txs).map (·.id)).Nodup :=
  c.id_nodup.sublist (between_sublist.map _)

/-- What an answer says when the run over it completes. -/
theorem extractable_of_ok
    (h : Answer (c.messageRows handled) (c.rangeEvents startBlock endBlock) answer)
    {newFeegrants : List Feegrant} {newHistories : List FeegrantHistory}
    (hok : getFeegrantEvents answer = .ok (newFeegrants, newHistories))
    (htx : tx ∈ between (·.height) startBlock endBlock c.txs) :
    (tx.use.isSome → tx.fee ≠ []) ∧ (∀ parties, tx.revocation = some parties →
      tx.use = some parties) ∧ ∀ e ∈ answer, e.hasAllowance = true := by
  have hid := nodup_range c startBlock endBlock
  have hkeys := useKeys_answer_perm h
  obtain ⟨hfee, hallowance, hused, -⟩ := getFeegrantEvents_ok (wellFormed_of_mem_answer h)
    (hkeys.nodup_iff.mpr (nodup_keysOf _ hid)) hok
  refine ⟨fun huse hnil => ?_, fun parties hrevocation => ?_, hallowance⟩
  · obtain ⟨p, hp⟩ := Option.isSome_iff_exists.mp huse
    have hevent : tx.event .useFeegrant none p ∈ tx.events := by simp [ChainTx.events, hp]
    obtain ⟨e, he, heq⟩ := exists_mem_answer h htx hevent
    obtain ⟨fee, fees, hfees⟩ := hfee e he (by rw [heq]; rfl)
    rw [heq, transaction_event, hnil] at hfees
    cases hfees
  · have hmem : (tx.id, parties) ∈ answer.filterMap fun e => e.ended? :=
      (ended?_answer_perm h).mem_iff.mpr ((mem_keysOf_iff hid htx).mpr hrevocation)
    exact (mem_keysOf_iff hid htx).mp (hkeys.mem_iff.mp (hused _ hmem))

/-- The run over an answer of extractable transactions completes, with their entries. -/
theorem extracted_of_extractable
    (hall : ∀ tx ∈ between (·.height) startBlock endBlock c.txs,
      tx.Extractable (c.messageRows handled))
    (h : Answer (c.messageRows handled) (c.rangeEvents startBlock endBlock) answer) :
    Extracted (between (·.height) startBlock endBlock c.txs) (getFeegrantEvents answer) := by
  have hid := nodup_range c startBlock endBlock
  have hes := wellFormed_of_mem_answer h
  have hkeys := useKeys_answer_perm h
  have hended := ended?_answer_perm h
  have hnodup := hkeys.nodup_iff.mpr (nodup_keysOf _ hid)
  have hfee : ∀ e ∈ answer, e.HasFee := by
    intro e he huse
    obtain ⟨tx, htx, hevent⟩ := mem_rangeEvents h he
    obtain ⟨⟨type, i, parties, heq⟩, -⟩ := of_mem_events hevent
    have hkey : e.toEvent.use? = some ⟨tx.id, .use, parties.1, parties.2⟩ := by
      rw [Event.use?, huse, heq]
      rfl
    have hmem : (⟨tx.id, .use, parties.1, parties.2⟩ : Entry) ∈
        tx.events.filterMap Event.use? := List.mem_filterMap.mpr ⟨_, hevent, hkey⟩
    rw [filterMap_use?_events, Option.mem_toList, Option.map_eq_some_iff] at hmem
    obtain ⟨p, hp, -⟩ := hmem
    obtain ⟨fee, fees, hfees⟩ := List.exists_cons_of_ne_nil ((hall tx htx).fee (by rw [hp]; rfl))
    exact ⟨fee, fees, by rw [heq, transaction_event, hfees]⟩
  have hallowance : ∀ e ∈ answer, e.hasAllowance = true := by
    intro e he
    obtain ⟨tx, htx, hevent⟩ := mem_rangeEvents h he
    unfold JoinedEvent.hasAllowance
    split
    · next content htype hmsg =>
      have hjoined := h.joined e he
      unfold Joined at hjoined
      rw [hmsg] at hjoined
      obtain ⟨row, hrow, hjoins, rfl⟩ := hjoined
      exact (hall tx htx).allowance _ hevent htype row hrow hjoins
    · rfl
  have hused : ∀ k ∈ answer.filterMap fun e => e.ended?,
      k ∈ useKeys (answer.filterMap fun e => e.use?) := by
    intro k hk
    obtain ⟨tx, htx, hkey⟩ := List.mem_filterMap.mp (hended.mem_iff.mp hk)
    obtain ⟨p, hp, rfl⟩ := Option.map_eq_some_iff.mp hkey
    exact hkeys.mem_iff.mpr ((mem_keysOf_iff hid htx).mpr ((hall tx htx).used p hp))
  obtain ⟨newFeegrants, newHistories, hok⟩ := exists_getFeegrantEvents hes hnodup
    (hended.nodup_iff.mpr (nodup_keysOf _ hid)) hfee hallowance hused
  obtain ⟨-, -, -, hperm⟩ := getFeegrantEvents_ok hes hnodup hok
  refine ⟨newFeegrants, newHistories, hok, hperm.trans ?_⟩
  rw [mark_perm hended]
  exact (((filterMap_answer_perm h Event.use?).map _).append
    (filterMap_answer_perm h Event.new?)).trans (entries_perm hid)

end ExtractLemmas

open ExtractLemmas

/-! ## The result -/

/-- A grant inside a `MsgExec`. -/
def execChain : Chain where
  txs := [
    { id := 1
      height := 5
      code := 0
      fee := [⟨100, "uaura"⟩]
      msgs := [.exec [.grantAllowance "aura1" "aura2" (.basicAllowance ⟨[⟨1000, "uaura"⟩], none⟩)]]
      use := none
      update := none
      revocation := none }]
  id_nodup := List.nodup_singleton 1

end Erascope.Feegrants.Extract
