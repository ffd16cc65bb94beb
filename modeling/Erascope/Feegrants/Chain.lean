import Mathlib.Tactic
import Erascope.Feegrants.Basic

/-!
# Fee grants on the chain

What the events mean. A chain makes, uses, uses up and revokes grants; between one granter and
one grantee at most one grant is alive. `chainGrants` is the state of every grant that was ever
made, `historyOf` the history that the service should store for an operation.

Results:
1. `getFeegrantEvents_eventsOf`: the events of consistent operations give the grants and, up to
   order, the histories of these operations.
2. `chainOk`: when no transaction uses or revokes a grant and then makes a new one for the
   same granter and grantee, every grant is what the histories say whose newest grant it is.
-/

namespace Erascope.Feegrants

open FeegrantLemmas

/-! ## 1. Operations -/

/-- What the chain does to a grant. -/
inductive OperationKind
  /-- A message makes a grant. -/
  | set (allowance : Allowance)
  /-- The grant is stored again when it was used: an event without a message. -/
  | update
  /-- The grant pays the fee of the transaction, and may be used up by it. -/
  | use (usedUp : Bool)
  /-- A message revokes the grant. -/
  | revoke
deriving DecidableEq, Repr

/-- An operation, with its transaction and the index of its message. -/
structure Operation where
  transaction : Transaction
  tx_msg_index : ℕ
  granter : String
  grantee : String
  kind : OperationKind
deriving DecidableEq, Repr

namespace Operation

/-- The event of an operation. -/
def event (op : Operation) (type : EventType) (tx_msg_index : Option ℕ)
    (message : Option Allowance) : FeegrantEvent :=
  { type := type
    tx_msg_index := tx_msg_index
    attributes := [⟨.granter, op.granter⟩, ⟨.grantee, op.grantee⟩]
    transaction := op.transaction
    message := message }

/-- The events of an operation; a grant that is used up is revoked without a message. -/
def events (op : Operation) : List FeegrantEvent :=
  match op.kind with
  | .set allowance => [op.event .setFeegrant (some op.tx_msg_index) (some allowance)]
  | .update => [op.event .setFeegrant none none]
  | .use false => [op.event .useFeegrant none none]
  | .use true => [op.event .revokeFeegrant none none, op.event .useFeegrant none none]
  | .revoke => [op.event .revokeFeegrant (some op.tx_msg_index) none]

/-- The fee that a use pays: one coin. -/
def fee (op : Operation) : ℤ :=
  ((op.transaction.fee.bind (·.head?)).map (·.amount)).getD 0

def isUse (op : Operation) : Bool :=
  match op.kind with
  | .use _ => true
  | _ => false

def isSet (op : Operation) : Bool :=
  match op.kind with
  | .set _ => true
  | _ => false

def parties (op : Operation) : String × String := (op.granter, op.grantee)

end Operation

/-! ## 2. The grants on the chain -/

/-- A grant on the chain: what is left of its limit, how it stands, and what ended it. -/
structure ChainGrant where
  granter : String
  grantee : String
  init_tx_id : ℕ
  spend_limit : Option ℤ
  status : FeegrantStatus
  revoke_tx_id : Option ℕ
deriving DecidableEq, Repr

/-- The grant between the parties of an operation that is alive. -/
def ChainGrant.isAlive (g : ChainGrant) (op : Operation) : Bool :=
  g.granter = op.granter && g.grantee = op.grantee && g.status = .available

/-- One operation. -/
def chainStep (grants : List ChainGrant) (op : Operation) : List ChainGrant :=
  match op.kind with
  | .set allowance => grants ++ [
      { granter := op.granter
        grantee := op.grantee
        init_tx_id := op.transaction.id
        spend_limit := (getCreateFeegrantInfo allowance).spend_limit
        status := .available
        revoke_tx_id := none }]
  | .update => grants
  | .use usedUp => grants.map fun g =>
      if g.isAlive op then
        { g with
          spend_limit := g.spend_limit.map (· - op.fee)
          status := if usedUp then .useUp else .available
          revoke_tx_id := if usedUp then some op.transaction.id else none }
      else g
  | .revoke => grants.map fun g =>
      if g.isAlive op then
        { g with status := .revoked, revoke_tx_id := some op.transaction.id }
      else g

/-- All grants after some operations, in the order in which they were made. -/
def chainGrants (ops : List Operation) : List ChainGrant := ops.foldl chainStep []

/-- The chain makes a grant only where none is alive, and acts on one only where one is. -/
def Allowed (grants : List ChainGrant) (op : Operation) : Prop :=
  (op.isSet = true → ∀ g ∈ grants, g.isAlive op = false) ∧
    (op.isSet = false → ∃ g ∈ grants, g.isAlive op = true)

instance (grants : List ChainGrant) (op : Operation) : Decidable (Allowed grants op) :=
  inferInstanceAs (Decidable (_ ∧ _))

/-- Every operation is allowed after those before it. -/
def AllAllowed : List ChainGrant → List Operation → Prop
  | _, [] => True
  | grants, op :: ops => Allowed grants op ∧ AllAllowed (chainStep grants op) ops

instance AllAllowed.decidable : ∀ grants ops, Decidable (AllAllowed grants ops)
  | _, [] => inferInstanceAs (Decidable True)
  | grants, op :: ops =>
    have := AllAllowed.decidable (chainStep grants op) ops
    inferInstanceAs (Decidable (Allowed grants op ∧ AllAllowed (chainStep grants op) ops))

/-- One operation before another: transactions come in the order of their ids and heights, and a
transaction pays its fee once. -/
def Before (a b : Operation) : Prop :=
  a.transaction.id ≤ b.transaction.id ∧ a.transaction.height ≤ b.transaction.height ∧
    (a.transaction.id = b.transaction.id → a.transaction = b.transaction ∧
      ¬ (a.isUse = true ∧ b.isUse = true))

instance (a b : Operation) : Decidable (Before a b) := inferInstanceAs (Decidable (_ ∧ _ ∧ _))

/-- A history of the chain, from its first block on; a use pays with one coin. -/
structure Consistent (ops : List Operation) : Prop where
  start : ∀ op ∈ ops, 0 < op.transaction.height
  order : ops.Pairwise Before
  allowed : AllAllowed [] ops
  fee : ∀ op ∈ ops, op.isUse = true → ∃ coin, op.transaction.fee = some [coin]

/-- No transaction uses, revokes or makes a grant and then makes a new one for the same
parties. -/
def Separate (ops : List Operation) : Prop :=
  ops.Pairwise fun a b => ¬ (a.kind ≠ .update ∧ b.isSet = true ∧ a.parties = b.parties ∧
    a.transaction.id = b.transaction.id)

instance (ops : List Operation) : Decidable (Separate ops) :=
  inferInstanceAs (Decidable (ops.Pairwise _))

/-! ## 3. The rows of an operation -/

/-- The row of `feegrant` for an operation. -/
def Operation.newFeegrant (op : Operation) : Option Feegrant :=
  match op.kind with
  | .set allowance => some
      { init_tx_id := some op.transaction.id
        revoke_tx_id := none
        granter := op.granter
        grantee := op.grantee
        type := (getCreateFeegrantInfo allowance).type
        expiration := (getCreateFeegrantInfo allowance).expiration
        status := .available
        spend_limit := (getCreateFeegrantInfo allowance).spend_limit
        denom := (getCreateFeegrantInfo allowance).denom }
  | .update | .use _ | .revoke => none

/-- A history of an operation that no run has processed. -/
def Operation.history (op : Operation) (action : FeegrantAction) (amount : Option ℤ)
    (denom : Option String) : FeegrantHistory :=
  { tx_id := op.transaction.id
    feegrant_id := none
    action := action
    amount := amount
    granter := op.granter
    grantee := op.grantee
    denom := denom
    processed := false }

/-- The history of a use, before it is known to be the last one. -/
def Operation.useHistory? (op : Operation) : Option FeegrantHistory :=
  match op.kind, op.transaction.fee with
  | .use _, some (coin :: _) => some (op.history .use (some coin.amount) (some coin.denom))
  | _, _ => none

/-- The history of an operation. -/
def Operation.historyOf (op : Operation) : Option FeegrantHistory :=
  match op.kind with
  | .set allowance =>
    some (op.history .create (getCreateFeegrantInfo allowance).spend_limit
      (getCreateFeegrantInfo allowance).denom)
  | .update => none
  | .use usedUp => op.useHistory?.map fun h =>
      { h with action := if usedUp then .useUp else .use }
  | .revoke => some (op.history .revoke none none)

/-! ## 4. The events of a range -/

namespace FeegrantLemmas

variable {op : Operation} {ops : List Operation}

/-- The histories that the second loop appends. -/
def pushed (op : Operation) : Option FeegrantHistory := if op.isUse then none else op.historyOf

/-- The final histories of the uses. -/
def useFinal (op : Operation) : Option FeegrantHistory := if op.isUse then op.historyOf else none

theorem useHistory_events (hfee : op.isUse = true → ∃ coin, op.transaction.fee = some [coin])
    (hs : List FeegrantHistory) :
    op.events.foldlM useHistory hs = .ok (hs ++ op.useHistory?.toList) := by
  obtain ⟨tx, i, granter, grantee, kind⟩ := op
  cases kind with
  | set allowance => simp [Operation.events, Operation.event, useHistory, Operation.useHistory?]
  | update => simp [Operation.events, Operation.event, useHistory, Operation.useHistory?]
  | revoke => simp [Operation.events, Operation.event, useHistory, Operation.useHistory?]
  | use usedUp =>
    obtain ⟨coin, hcoin⟩ := hfee rfl
    simp only at hcoin
    have hparties : ∀ kind, partiesOf (Operation.event ⟨tx, i, granter, grantee, kind⟩ .useFeegrant
        none none) = .ok (granter, grantee) := fun _ => rfl
    cases usedUp with
    | false =>
      simp only [Operation.events, List.foldlM_cons, List.foldlM_nil, useHistory, hparties]
      simp [Operation.event, Operation.useHistory?, hcoin, Operation.history]
    | true =>
      simp only [Operation.events, List.foldlM_cons, List.foldlM_nil, useHistory, hparties]
      simp [Operation.event, Operation.useHistory?, hcoin, Operation.history]
      rfl

theorem foldlM_useHistory (hfee : ∀ op ∈ ops, op.isUse = true →
    ∃ coin, op.transaction.fee = some [coin]) (hs : List FeegrantHistory) :
    (ops.flatMap (·.events)).foldlM useHistory hs =
      .ok (hs ++ ops.filterMap (·.useHistory?)) := by
  induction ops generalizing hs with
  | nil => simp; rfl
  | cons op ops ih =>
    rw [List.flatMap_cons, List.foldlM_append, useHistory_events (hfee op List.mem_cons_self)]
    rw [ok_bind, ih fun op' hop' => hfee op' (List.mem_cons_of_mem op hop')]
    cases h : op.useHistory? <;> simp [h]

theorem markUseUp_append {e : FeegrantEvent} {us rest : List FeegrantHistory} {h : FeegrantHistory}
    (hus : ∀ u ∈ us, isUseOf e u = false) (hh : isUseOf e h = true) :
    markUseUp e (us ++ h :: rest) = .ok (us ++ { h with action := .useUp } :: rest) := by
  induction us with
  | nil => simp [markUseUp, hh]
  | cons u us ih =>
    rw [List.cons_append, markUseUp, hus u List.mem_cons_self, if_neg (by simp),
      ih fun u' hu' => hus u' (List.mem_cons_of_mem u hu')]
    rfl

/-- What the second loop does to one operation: `us` are the uses before it, `raw` those after
it. -/
theorem grantOrRevoke_events (hfee : op.isUse = true → ∃ coin, op.transaction.fee = some [coin])
    {us raw ps : List FeegrantHistory} {fs : List Feegrant}
    (hus : op.isUse = true → ∀ u ∈ us, u.tx_id ≠ op.transaction.id) :
    op.events.foldlM grantOrRevoke (fs, us ++ (op.useHistory?.toList ++ raw) ++ ps) =
      .ok (fs ++ op.newFeegrant.toList,
        (us ++ (useFinal op).toList) ++ raw ++ (ps ++ (pushed op).toList)) := by
  obtain ⟨tx, i, granter, grantee, kind⟩ := op
  cases kind with
  | set allowance =>
    simp [Operation.events, Operation.event, grantOrRevoke, Operation.useHistory?, useFinal, pushed,
      Operation.isUse, Operation.newFeegrant, Operation.historyOf, Operation.history, partiesOf,
      getAttributeFrom]
  | update =>
    simp [Operation.events, Operation.event, grantOrRevoke, Operation.useHistory?, useFinal, pushed,
      Operation.isUse, Operation.newFeegrant, Operation.historyOf]
  | revoke =>
    simp [Operation.events, Operation.event, grantOrRevoke, Operation.useHistory?, useFinal, pushed,
      Operation.isUse, Operation.newFeegrant, Operation.historyOf, Operation.history, partiesOf,
      getAttributeFrom]
  | use usedUp =>
    obtain ⟨coin, hcoin⟩ := hfee rfl
    simp only at hcoin
    cases usedUp with
    | false =>
      simp [Operation.events, Operation.event, grantOrRevoke, Operation.useHistory?, useFinal, pushed,
        Operation.isUse, Operation.newFeegrant, Operation.historyOf, Operation.history, hcoin]
    | true =>
      -- the use that ends is the only one of its transaction
      have hne : ∀ u ∈ us, isUseOf (Operation.event ⟨tx, i, granter, grantee, .use true⟩
          .revokeFeegrant none none) u = false := by
        intro u hu
        have htx := hus rfl u hu
        simp only [Operation.event, isUseOf] at htx ⊢
        simp [htx]
      have hmark := @markUseUp_append (Operation.event ⟨tx, i, granter, grantee, .use true⟩
        .revokeFeegrant none none) us (raw ++ ps) (Operation.history
          ⟨tx, i, granter, grantee, .use true⟩ .use (some coin.amount) (some coin.denom)) hne
        (by simp [isUseOf, Operation.event, Operation.history, getAttributeFrom])
      simp only [Operation.event] at hmark
      simp [Operation.events, Operation.event, grantOrRevoke, Operation.useHistory?, useFinal, pushed,
        Operation.isUse, Operation.newFeegrant, Operation.historyOf, hcoin, hmark]
      rfl

theorem tx_id_of_useFinal {h : FeegrantHistory} (hh : useFinal op = some h) :
    op.isUse = true ∧ h.tx_id = op.transaction.id := by
  unfold useFinal at hh
  split at hh
  · next huse =>
    refine ⟨huse, ?_⟩
    obtain ⟨tx, i, granter, grantee, kind⟩ := op
    cases kind with
    | use usedUp =>
      simp only [Operation.historyOf, Operation.useHistory?, Option.map_eq_some_iff] at hh
      obtain ⟨u, hu, rfl⟩ := hh
      split at hu
      · cases hu
        rfl
      · cases hu
    | set allowance => cases huse
    | update => cases huse
    | revoke => cases huse
  · cases hh

theorem foldlM_grantOrRevoke (hord : ops.Pairwise Before)
    (hfee : ∀ op ∈ ops, op.isUse = true → ∃ coin, op.transaction.fee = some [coin])
    {us ps : List FeegrantHistory} {fs : List Feegrant}
    (hus : ∀ op ∈ ops, op.isUse = true → ∀ u ∈ us, u.tx_id ≠ op.transaction.id) :
    (ops.flatMap (·.events)).foldlM grantOrRevoke
        (fs, us ++ ops.filterMap (·.useHistory?) ++ ps) =
      .ok (fs ++ ops.filterMap (·.newFeegrant),
        us ++ ops.filterMap useFinal ++ (ps ++ ops.filterMap pushed)) := by
  induction ops generalizing us ps fs with
  | nil => simp; rfl
  | cons op ops ih =>
    obtain ⟨hbefore, hord⟩ := List.pairwise_cons.mp hord
    have hcons : ∀ {β : Type} (f : Operation → Option β),
        (op :: ops).filterMap f = (f op).toList ++ ops.filterMap f := by
      intro β f
      cases h : f op <;> simp [h]
    rw [List.flatMap_cons, List.foldlM_append, hcons, hcons, hcons, hcons,
      grantOrRevoke_events (hfee op List.mem_cons_self) (hus op List.mem_cons_self), ok_bind]
    have hus' : ∀ op' ∈ ops, op'.isUse = true → ∀ u ∈ us ++ (useFinal op).toList,
        u.tx_id ≠ op'.transaction.id := by
      intro op' hop' huse' u hu
      rcases List.mem_append.mp hu with hu | hu
      · exact hus op' (List.mem_cons_of_mem op hop') huse' u hu
      · obtain ⟨huse, htx⟩ := tx_id_of_useFinal (Option.mem_toList.mp hu)
        rw [htx]
        exact fun heq => ((hbefore op' hop').2.2 heq).2 ⟨huse, huse'⟩
    rw [ih hord (fun op' hop' => hfee op' (List.mem_cons_of_mem op hop')) hus']
    simp [List.append_assoc]

theorem filterMap_historyOf_perm (ops : List Operation) :
    (ops.filterMap useFinal ++ ops.filterMap pushed).Perm (ops.filterMap (·.historyOf)) := by
  induction ops with
  | nil => exact List.Perm.refl _
  | cons op ops ih =>
    simp only [List.filterMap_cons, useFinal, pushed]
    cases huse : op.isUse with
    | true =>
      cases op.historyOf with
      | none => simpa [useFinal, pushed] using ih
      | some h => exact (ih.cons h)
    | false =>
      cases op.historyOf with
      | none => simpa [useFinal, pushed] using ih
      | some h => exact List.perm_middle.trans (ih.cons h)

end FeegrantLemmas

open FeegrantLemmas

/-- The events of consistent operations give their grants, and their histories up to order. -/
theorem getFeegrantEvents_eventsOf {ops : List Operation} (hord : ops.Pairwise Before)
    (hfee : ∀ op ∈ ops, op.isUse = true → ∃ coin, op.transaction.fee = some [coin]) :
    ∃ histories, getFeegrantEvents (ops.flatMap (·.events)) =
        .ok (ops.filterMap (·.newFeegrant), histories) ∧
      histories.Perm (ops.filterMap (·.historyOf)) := by
  have huses := foldlM_useHistory hfee []
  have hgrants := @foldlM_grantOrRevoke ops hord hfee [] [] [] (fun _ _ _ u hu => nomatch hu)
  simp only [List.nil_append, List.append_nil] at huses hgrants
  refine ⟨(ops.filterMap useFinal ++ ops.filterMap pushed).insertionSort
      fun a b => a.tx_id ≤ b.tx_id, ?_,
    (List.perm_insertionSort _ _).trans (filterMap_historyOf_perm ops)⟩
  rw [getFeegrantEvents, huses, ok_bind, hgrants]
  rfl

/-! ## 5. A grant and its histories -/

/-- The fee that a history charges. -/
def FeegrantHistory.charge (h : FeegrantHistory) : ℤ :=
  match h.action with
  | .use | .useUp => h.amount.getD 0
  | .create | .revoke => 0

/-- The status that a history ends a grant with. -/
def FeegrantHistory.ending (h : FeegrantHistory) : Option FeegrantStatus :=
  match h.action with
  | .revoke => some .revoked
  | .useUp => some .useUp
  | .create | .use => none

/-- The histories that end a grant. -/
def endings (hs : List FeegrantHistory) : List FeegrantHistory := hs.filter (·.ending.isSome)

/-- A grant after some histories. -/
def settle (g : Feegrant) (hs : List FeegrantHistory) : Feegrant :=
  { g with
    spend_limit := g.spend_limit.map (· - (hs.map (·.charge)).sum)
    status := ((endings hs).getLast?.bind (·.ending)).getD .available
    revoke_tx_id := (endings hs).getLast?.map (·.tx_id) }

/-- A row as a grant on the chain. -/
def Feegrant.view (g : Feegrant) : ChainGrant :=
  { granter := g.granter
    grantee := g.grantee
    init_tx_id := g.init_tx_id.getD 0
    spend_limit := g.spend_limit
    status := g.status
    revoke_tx_id := g.revoke_tx_id }

/-- The grants that operations make, as they are first stored. -/
def grantRows (ops : List Operation) : List Feegrant := ops.filterMap (·.newFeegrant)

/-- The histories of operations. -/
def histories (ops : List Operation) : List FeegrantHistory := ops.filterMap (·.historyOf)

/-- The grant of a history: the newest one of its parties that is not younger. -/
def ownerOf (feegrants : List Feegrant) (h : FeegrantHistory) : Option ℕ :=
  newest (isSuspicious h) feegrants

/-- The histories of the grant at a position. -/
def owned (feegrants : List Feegrant) (i : ℕ) (hs : List FeegrantHistory) : List FeegrantHistory :=
  hs.filter fun h => ownerOf feegrants h = some i

namespace FeegrantLemmas

variable {op : Operation} {ops : List Operation} {g : Feegrant} {hs : List FeegrantHistory}

theorem endings_append (hs hs' : List FeegrantHistory) :
    endings (hs ++ hs') = endings hs ++ endings hs' := List.filter_append ..

/-- A grant is alive as long as no history has ended it. -/
theorem status_settle_iff : (settle g hs).status = .available ↔ endings hs = [] := by
  constructor
  · intro h
    by_contra hne
    obtain ⟨e, he⟩ := Option.isSome_iff_exists.mp (List.getLast?_isSome.mpr hne)
    obtain ⟨status, hstatus⟩ := Option.isSome_iff_exists.mp
      (List.mem_filter.mp (List.mem_of_getLast? he)).2
    simp only [settle, he, Option.bind_some, hstatus, Option.getD_some] at h
    subst h
    cases ha : e.action <;> simp [FeegrantHistory.ending, ha] at hstatus
  · intro h
    simp [settle, h]

/-- One more history for a grant that is alive. -/
theorem settle_append_of_alive {hs' : List FeegrantHistory} (h : endings hs = []) :
    settle g (hs ++ hs') =
      { g with
        spend_limit := (settle g hs).spend_limit.map (· - (hs'.map (·.charge)).sum)
        status := ((endings hs').getLast?.bind (·.ending)).getD .available
        revoke_tx_id := (endings hs').getLast?.map (·.tx_id) } := by
  simp only [settle, endings_append, h, List.nil_append, List.map_append, List.sum_append,
    Option.map_map]
  congr 2
  funext x
  simp only [Function.comp_apply]
  ring

/-- Histories that neither charge nor end change nothing. -/
theorem settle_append_of_neutral {hs' : List FeegrantHistory}
    (h : ∀ e ∈ hs', e.action = .create) : settle g (hs ++ hs') = settle g hs := by
  have hend : endings hs' = [] := by
    rw [endings, List.filter_eq_nil_iff]
    intro e he
    simp [FeegrantHistory.ending, h e he]
  have hsum : (hs'.map (·.charge)).sum = 0 := by
    refine List.sum_eq_zero fun x hx => ?_
    obtain ⟨e, he, rfl⟩ := List.mem_map.mp hx
    simp [FeegrantHistory.charge, h e he]
  simp only [settle, endings_append, hend, List.append_nil, List.map_append, List.sum_append, hsum,
    add_zero]

/-- The order does not matter for histories of which at most one ends the grant. -/
theorem settle_perm {hs' : List FeegrantHistory} (h : hs.Perm hs')
    (hone : (endings hs').length ≤ 1) : settle g hs = settle g hs' := by
  have hends : endings hs = endings hs' := by
    have hperm : (endings hs).Perm (endings hs') := h.filter _
    cases hcase : endings hs' with
    | nil =>
      rw [hcase] at hperm
      exact hperm.eq_nil
    | cons e es =>
      rw [hcase] at hperm hone
      obtain rfl : es = [] := List.length_eq_zero_iff.mp (by simpa using hone)
      exact List.perm_singleton.mp hperm
  simp only [settle, hends, (h.map (·.charge)).sum_eq]

/-! ### The operations one by one -/

theorem chainGrants_concat (ops : List Operation) (op : Operation) :
    chainGrants (ops ++ [op]) = chainStep (chainGrants ops) op := List.foldl_concat ..

theorem grantRows_append (ops ops' : List Operation) :
    grantRows (ops ++ ops') = grantRows ops ++ grantRows ops' := List.filterMap_append ..

theorem histories_append (ops ops' : List Operation) :
    histories (ops ++ ops') = histories ops ++ histories ops' := List.filterMap_append ..

theorem owned_append (fs : List Feegrant) (i : ℕ) (hs hs' : List FeegrantHistory) :
    owned fs i (hs ++ hs') = owned fs i hs ++ owned fs i hs' := List.filter_append ..

theorem allAllowed_append {grants : List ChainGrant} {ops ops' : List Operation} :
    AllAllowed grants (ops ++ ops') ↔
      AllAllowed grants ops ∧ AllAllowed (ops.foldl chainStep grants) ops' := by
  induction ops generalizing grants with
  | nil => simp [AllAllowed]
  | cons op ops ih => simp [AllAllowed, ih, and_assoc]

theorem consistent_append {ops ops' : List Operation} (h : Consistent (ops ++ ops')) :
    Consistent ops :=
  ⟨fun op hop => h.start op (List.mem_append_left _ hop), (List.pairwise_append.mp h.order).1,
    (allAllowed_append.mp h.allowed).1, fun op hop => h.fee op (List.mem_append_left _ hop)⟩

theorem newFeegrant_fields {r : Feegrant} (h : op.newFeegrant = some r) :
    op.isSet = true ∧ r.init_tx_id = some op.transaction.id ∧ r.granter = op.granter ∧
      r.grantee = op.grantee ∧ r.status = .available ∧ r.revoke_tx_id = none := by
  obtain ⟨tx, i, granter, grantee, kind⟩ := op
  cases kind with
  | set allowance =>
    cases h
    exact ⟨rfl, rfl, rfl, rfl, rfl, rfl⟩
  | update => cases h
  | use usedUp => cases h
  | revoke => cases h

theorem historyOf_fields {h : FeegrantHistory} (hh : op.historyOf = some h) :
    op.kind ≠ .update ∧ h.tx_id = op.transaction.id ∧ h.granter = op.granter ∧
      h.grantee = op.grantee := by
  obtain ⟨tx, i, granter, grantee, kind⟩ := op
  cases kind with
  | set allowance =>
    cases hh
    exact ⟨by simp, rfl, rfl, rfl⟩
  | update => cases hh
  | revoke =>
    cases hh
    exact ⟨by simp, rfl, rfl, rfl⟩
  | use usedUp =>
    simp only [Operation.historyOf, Operation.useHistory?, Option.map_eq_some_iff] at hh
    obtain ⟨u, hu, rfl⟩ := hh
    split at hu
    · cases hu
      exact ⟨by simp, rfl, rfl, rfl⟩
    · cases hu

/-- The rows of operations, and their histories, come from the operations. -/
theorem mem_grantRows {r : Feegrant} (h : r ∈ grantRows ops) :
    ∃ op ∈ ops, op.newFeegrant = some r := List.mem_filterMap.mp h

theorem mem_histories {h : FeegrantHistory} (hh : h ∈ histories ops) :
    ∃ op ∈ ops, op.historyOf = some h := List.mem_filterMap.mp hh

theorem initOrder_grantRows (hord : ops.Pairwise Before) : InitOrder (grantRows ops) := by
  refine List.Pairwise.filterMap _ (fun a b hab r hr r' hr' => ?_) hord
  rw [(newFeegrant_fields hr).2.1, (newFeegrant_fields hr').2.1]
  exact hab.1

theorem isSuspicious_iff {h : FeegrantHistory} {r : Feegrant} : isSuspicious h r = true ↔
    r.grantee = h.grantee ∧ r.granter = h.granter ∧ r.init_tx_id.getD 0 ≤ h.tx_id := by
  simp [isSuspicious, and_assoc]

/-- A later grant of the same parties in another transaction is younger than a history. -/
theorem not_isSuspicious_of_later {a b : Operation} {h : FeegrantHistory} {r : Feegrant}
    (hab : Before a b)
    (hsep : ¬ (a.kind ≠ .update ∧ b.isSet = true ∧ a.parties = b.parties ∧
      a.transaction.id = b.transaction.id))
    (hh : a.historyOf = some h) (hr : b.newFeegrant = some r) : isSuspicious h r = false := by
  obtain ⟨hkind, htx, hgranter, hgrantee⟩ := historyOf_fields hh
  obtain ⟨hset, hinit, hrgranter, hrgrantee, -⟩ := newFeegrant_fields hr
  rw [Bool.eq_false_iff, ne_eq, isSuspicious_iff]
  rintro ⟨hge, hgr, hle⟩
  rw [hinit, Option.getD_some, htx] at hle
  refine hsep ⟨hkind, hset, ?_, le_antisymm hab.1 hle⟩
  rw [Operation.parties, Operation.parties, ← hgranter, ← hgrantee, ← hgr, ← hge, hrgranter,
    hrgrantee]

/-- Operations in other transactions, or for other parties, leave the owners of the histories as
they are. -/
theorem ownerOf_append {ops' : List Operation} (hord : (ops ++ ops').Pairwise Before)
    (hsep : Separate (ops ++ ops')) {h : FeegrantHistory} (hh : h ∈ histories ops) :
    ownerOf (grantRows (ops ++ ops')) h = ownerOf (grantRows ops) h := by
  obtain ⟨a, ha, hah⟩ := mem_histories hh
  have hordl := initOrder_grantRows (List.pairwise_append.mp hord).1
  rw [ownerOf, ownerOf, newest_eq_lastIdx (initOrder_grantRows hord), newest_eq_lastIdx hordl,
    grantRows_append]
  refine lastIdx_append fun r hr => ?_
  obtain ⟨b, hb, hbr⟩ := mem_grantRows hr
  exact not_isSuspicious_of_later ((List.pairwise_append.mp hord).2.2 a ha b hb)
    ((List.pairwise_append.mp hsep).2.2 a ha b hb) hah hbr

theorem owned_append_rows {ops' : List Operation} (hord : (ops ++ ops').Pairwise Before)
    (hsep : Separate (ops ++ ops')) (i : ℕ) :
    owned (grantRows (ops ++ ops')) i (histories ops) = owned (grantRows ops) i (histories ops) :=
  List.filter_congr fun h hh => by rw [ownerOf_append hord hsep hh]

/-- What an operation does that acts on a grant: one history, which says the same. -/
structure ActsBy (op : Operation) (h : FeegrantHistory) (act : ChainGrant → ChainGrant) : Prop where
  history : op.historyOf = some h
  step : ∀ grants, chainStep grants op = grants.map fun g => if g.isAlive op then act g else g
  row : op.newFeegrant = none
  settles : ∀ g hs, endings hs = [] → (settle g (hs ++ [h])).view = act (settle g hs).view
  parties : ∀ g, (act g).granter = g.granter ∧ (act g).grantee = g.grantee

theorem exists_actsBy (hset : op.isSet = false) (hupdate : op.kind ≠ .update)
    (hfee : op.isUse = true → ∃ coin, op.transaction.fee = some [coin]) :
    ∃ h act, ActsBy op h act := by
  obtain ⟨tx, i, granter, grantee, kind⟩ := op
  cases kind with
  | set allowance => cases hset
  | update => exact absurd rfl hupdate
  | revoke =>
    refine ⟨_, _, rfl, fun _ => rfl, rfl, fun g hs hends => ?_, fun _ => ⟨rfl, rfl⟩⟩
    rw [settle_append_of_alive hends]
    simp [Feegrant.view, settle, endings, Operation.history, FeegrantHistory.ending,
      FeegrantHistory.charge, Function.comp_def]
  | use usedUp =>
    obtain ⟨coin, hcoin⟩ := hfee rfl
    simp only at hcoin
    refine ⟨Operation.history ⟨tx, i, granter, grantee, .use usedUp⟩
      (if usedUp then .useUp else .use) (some coin.amount) (some coin.denom), _, ?_,
      fun _ => rfl, rfl, fun g hs hends => ?_, fun _ => ⟨rfl, rfl⟩⟩
    · simp [Operation.historyOf, Operation.useHistory?, hcoin, Operation.history]
    · rw [settle_append_of_alive hends]
      cases usedUp <;>
        simp [Feegrant.view, settle, endings, Operation.history, FeegrantHistory.ending,
          FeegrantHistory.charge, Operation.fee, hcoin, Function.comp_def]

/-- The grants on the chain, read off the histories. -/
structure ChainOk (ops : List Operation) : Prop where
  grants : ∀ i : ℕ, (chainGrants ops)[i]? = (grantRows ops)[i]?.map fun g =>
    (settle g (owned (grantRows ops) i (histories ops))).view
  once : ∀ i : ℕ, (endings (owned (grantRows ops) i (histories ops))).length ≤ 1
  last : ∀ (i j : ℕ) (g g' : ChainGrant), i < j → (chainGrants ops)[i]? = some g →
    (chainGrants ops)[j]? = some g' → g.status = .available →
    ¬ (g'.granter = g.granter ∧ g'.grantee = g.grantee)

theorem length_eq_of_getElem? {α β : Type} {l : List α} {l' : List β} {f : ℕ → β → α}
    (h : ∀ i : ℕ, l[i]? = l'[i]?.map (f i)) : l.length = l'.length := by
  have hnone : ∀ i : ℕ, l[i]? = none ↔ l'[i]? = none := by
    intro i
    rw [h, Option.map_eq_none_iff]
  refine le_antisymm ?_ ?_
  · exact List.getElem?_eq_none_iff.mp ((hnone _).mpr (List.getElem?_eq_none_iff.mpr le_rfl))
  · exact List.getElem?_eq_none_iff.mp ((hnone _).mp (List.getElem?_eq_none_iff.mpr le_rfl))

theorem grantRows_concat (op : Operation) :
    grantRows (ops ++ [op]) = grantRows ops ++ op.newFeegrant.toList := by
  rw [grantRows_append]
  cases hr : op.newFeegrant <;> simp [grantRows, hr]

theorem histories_concat (op : Operation) :
    histories (ops ++ [op]) = histories ops ++ op.historyOf.toList := by
  rw [histories_append]
  cases he : op.historyOf <;> simp [histories, he]

/-- No history belongs to a row that does not exist. -/
theorem owned_eq_nil {rows : List Feegrant} {i : ℕ} (hi : rows.length ≤ i) (hord : InitOrder rows)
    (hs : List FeegrantHistory) : owned rows i hs = [] := by
  rw [owned, List.filter_eq_nil_iff]
  intro x hx howner
  have hown : lastIdx (isSuspicious x) rows = some i := by
    rw [← newest_eq_lastIdx hord]
    exact of_decide_eq_true howner
  obtain ⟨⟨y, hy, -⟩, -⟩ := lastIdx_eq_some_iff.mp hown
  rw [List.getElem?_eq_none hi] at hy
  cases hy

theorem settle_nil {op : Operation} {r : Feegrant} (hr : op.newFeegrant = some r) :
    settle r [] = r := by
  obtain ⟨-, -, -, -, hstatus, hrevoke⟩ := newFeegrant_fields hr
  obtain ⟨_, _, _, _, _, _, _, limit, _⟩ := r
  simp only at hstatus hrevoke
  subst hstatus hrevoke
  cases limit <;> simp [settle, endings]

theorem isAlive_iff {g : ChainGrant} : g.isAlive op = true ↔
    g.granter = op.granter ∧ g.grantee = op.grantee ∧ g.status = .available := by
  simp [ChainGrant.isAlive, and_assoc]

/-- Of the grants that are alive for the parties of an operation there is one only. -/
theorem ChainOk.alive_unique (h : ChainOk ops) {i j : ℕ} {g g' : ChainGrant}
    (hg : (chainGrants ops)[i]? = some g) (hg' : (chainGrants ops)[j]? = some g')
    (halive : g.isAlive op = true) (halive' : g'.isAlive op = true) : j = i := by
  obtain ⟨hgranter, hgrantee, hstatus⟩ := isAlive_iff.mp halive
  obtain ⟨hgranter', hgrantee', hstatus'⟩ := isAlive_iff.mp halive'
  rcases Nat.lt_trichotomy j i with hlt | heq | hgt
  · exact absurd ⟨hgranter.trans hgranter'.symm, hgrantee.trans hgrantee'.symm⟩
      (h.last j i g' g hlt hg' hg hstatus')
  · exact heq
  · exact absurd ⟨hgranter'.trans hgranter.symm, hgrantee'.trans hgrantee.symm⟩
      (h.last i j g g' hgt hg hg' hstatus)

theorem chainOk_set (h : ChainOk ops) (hc : Consistent (ops ++ [op])) (hsep : Separate (ops ++ [op]))
    (hset : op.isSet = true) : ChainOk (ops ++ [op]) := by
  have hallowed : ∀ g ∈ chainGrants ops, g.isAlive op = false :=
    ((allAllowed_append.mp hc.allowed).2).1.1 hset
  obtain ⟨r, e, hr, he, hcreate, hgrants⟩ : ∃ r e, op.newFeegrant = some r ∧
      op.historyOf = some e ∧ e.action = .create ∧
      chainGrants (ops ++ [op]) = chainGrants ops ++ [r.view] := by
    rw [chainGrants_concat]
    obtain ⟨tx, i, granter, grantee, kind⟩ := op
    cases kind with
    | set allowance => exact ⟨_, _, rfl, rfl, rfl, rfl⟩
    | update => cases hset
    | use usedUp => cases hset
    | revoke => cases hset
  have hrows : grantRows (ops ++ [op]) = grantRows ops ++ [r] := by
    rw [grantRows_concat, hr, Option.toList_some]
  have howned : ∀ i, ∃ more, (∀ x ∈ more, x.action = .create) ∧
      owned (grantRows (ops ++ [op])) i (histories (ops ++ [op])) =
        owned (grantRows ops) i (histories ops) ++ more := by
    intro i
    refine ⟨owned (grantRows (ops ++ [op])) i [e], fun x hx => ?_, ?_⟩
    · rw [List.mem_singleton.mp (List.mem_of_mem_filter hx)]
      exact hcreate
    · rw [histories_concat, he, Option.toList_some, owned_append, owned_append_rows hc.order hsep]
  refine ⟨fun i => ?_, fun i => ?_, fun i j g g' hij hg hg' halive => ?_⟩
  · obtain ⟨more, hmore, heq⟩ := howned i
    rw [heq, hgrants, hrows, List.getElem?_append, List.getElem?_append,
      length_eq_of_getElem? h.grants]
    simp only [settle_append_of_neutral hmore]
    split
    · exact h.grants i
    · next hi =>
      -- the new grant has no history but its creation
      rw [owned_eq_nil (not_lt.mp hi) (initOrder_grantRows (consistent_append hc).order)]
      cases hsub : i - (grantRows ops).length with
      | zero => simp [settle_nil hr]
      | succ n => simp
  · obtain ⟨more, hmore, heq⟩ := howned i
    have hend : endings more = [] := by
      rw [endings, List.filter_eq_nil_iff]
      intro x hx
      simp [FeegrantHistory.ending, hmore x hx]
    rw [heq, endings_append, hend, List.append_nil]
    exact h.once i
  · rw [hgrants] at hg hg'
    rcases getElem?_concat_eq_some_iff.mp hg' with hg' | ⟨rfl, rfl⟩
    · obtain ⟨hj, -⟩ := List.getElem?_eq_some_iff.mp hg'
      rw [List.getElem?_append_left (hij.trans hj)] at hg
      exact h.last i j g g' hij hg hg' halive
    · -- no older grant of the parties is alive when a new one is made
      rw [List.getElem?_append_left hij] at hg
      obtain ⟨-, -, hgranter, hgrantee, -⟩ := newFeegrant_fields hr
      have hdead := hallowed g (List.mem_of_getElem? hg)
      rintro ⟨hgr, hge⟩
      simp only [Feegrant.view, hgranter, hgrantee] at hgr hge
      simp [ChainGrant.isAlive, hgr, hge, halive] at hdead

/-- An operation on a grant belongs to the grant that is alive. -/
theorem ownerOf_alive (h : ChainOk ops) (hc : Consistent (ops ++ [op])) {e : FeegrantHistory}
    (he : op.historyOf = some e) {i : ℕ} {g : ChainGrant} (hg : (chainGrants ops)[i]? = some g)
    (halive : g.isAlive op = true) : ownerOf (grantRows ops) e = some i := by
  obtain ⟨hgranter, hgrantee, hstatus⟩ := isAlive_iff.mp halive
  obtain ⟨-, htx, hegranter, hegrantee⟩ := historyOf_fields he
  have hord := (List.pairwise_append.mp hc.order)
  -- every grant is older than the operation
  have hold : ∀ r ∈ grantRows ops, r.init_tx_id.getD 0 ≤ e.tx_id := by
    intro r hr
    obtain ⟨a, ha, har⟩ := mem_grantRows hr
    rw [(newFeegrant_fields har).2.1, htx]
    exact (hord.2.2 a ha op (by simp)).1
  have hview : ∀ (j : ℕ) (r : Feegrant), (grantRows ops)[j]? = some r → ∃ g,
      (chainGrants ops)[j]? = some g ∧ g.granter = r.granter ∧ g.grantee = r.grantee := by
    intro j r hr
    refine ⟨_, (h.grants j).trans (by rw [hr, Option.map_some]), rfl, rfl⟩
  rw [ownerOf, newest_eq_lastIdx (initOrder_grantRows hord.1), lastIdx_eq_some_iff]
  refine ⟨?_, fun j r hij hr => ?_⟩
  · rw [h.grants, Option.map_eq_some_iff] at hg
    obtain ⟨r, hr, rfl⟩ := hg
    exact ⟨r, hr, isSuspicious_iff.mpr ⟨hgrantee.trans hegrantee.symm,
      hgranter.trans hegranter.symm, hold r (List.mem_of_getElem? hr)⟩⟩
  · obtain ⟨g', hg', hg'r, hg'e⟩ := hview j r hr
    rw [Bool.eq_false_iff, ne_eq, isSuspicious_iff]
    rintro ⟨hge, hgr, -⟩
    refine h.last i j g g' hij hg hg' hstatus ⟨?_, ?_⟩
    · rw [hg'r, hgr, hegranter, hgranter]
    · rw [hg'e, hge, hegrantee, hgrantee]

theorem chainOk_act (h : ChainOk ops) (hc : Consistent (ops ++ [op])) (hset : op.isSet = false)
    {e : FeegrantHistory} {act : ChainGrant → ChainGrant} (hact : ActsBy op e act) :
    ChainOk (ops ++ [op]) := by
  obtain ⟨g, hgmem, halive⟩ : ∃ g ∈ chainGrants ops, g.isAlive op = true :=
    ((allAllowed_append.mp hc.allowed).2).1.2 hset
  obtain ⟨i, hg⟩ := List.mem_iff_getElem?.mp hgmem
  have howner := ownerOf_alive h hc hact.history hg halive
  obtain ⟨-, -, hstatus⟩ := isAlive_iff.mp halive
  have hrows : grantRows (ops ++ [op]) = grantRows ops := by
    rw [grantRows_concat, hact.row, Option.toList_none, List.append_nil]
  have hhist : histories (ops ++ [op]) = histories ops ++ [e] := by
    rw [histories_concat, hact.history, Option.toList_some]
  have howned : ∀ j, owned (grantRows ops) j (histories ops ++ [e]) =
      owned (grantRows ops) j (histories ops) ++ if j = i then [e] else [] := by
    intro j
    rw [owned_append]
    congr 1
    by_cases hj : j = i
    · simp [owned, howner, hj]
    · simp [owned, howner, hj, Ne.symm hj]
  -- the grant at `i` is the only one that is alive for the parties
  have honly : ∀ j g', (chainGrants ops)[j]? = some g' → (g'.isAlive op = true ↔ j = i) := by
    intro j g' hg'
    constructor
    · exact h.alive_unique hg hg' halive
    · rintro rfl
      cases hg.symm.trans hg'
      exact halive
  have hends : endings (owned (grantRows ops) i (histories ops)) = [] := by
    rw [h.grants, Option.map_eq_some_iff] at hg
    obtain ⟨r, hr, rfl⟩ := hg
    exact (@status_settle_iff r _).mp hstatus
  have hgrants : ∀ j, (chainGrants (ops ++ [op]))[j]? =
      (chainGrants ops)[j]?.map fun g => if j = i then act g else g := by
    intro j
    rw [chainGrants_concat, hact.step, List.getElem?_map]
    cases hj : (chainGrants ops)[j]? with
    | none => rfl
    | some g' =>
      simp only [Option.map_some, honly j g' hj]
  refine ⟨fun j => ?_, fun j => ?_, fun j k g' g'' hjk hg' hg'' hstatus' => ?_⟩
  · rw [hgrants, hrows, hhist, howned, h.grants, Option.map_map]
    refine congrArg (Option.map · _) (funext fun r => ?_)
    by_cases hj : j = i
    · subst hj
      simp only [Function.comp_apply, if_true]
      exact (hact.settles r _ hends).symm
    · simp [hj]
  · rw [hrows, hhist, howned]
    by_cases hj : j = i
    · subst hj
      rw [if_pos rfl, endings_append, hends, List.nil_append]
      exact (List.length_filter_le _ _).trans le_rfl
    · rw [if_neg hj, List.append_nil]
      exact h.once j
  · -- acting on a grant changes no parties and wakes none
    rw [hgrants, Option.map_eq_some_iff] at hg' hg''
    obtain ⟨x, hx, rfl⟩ := hg'
    obtain ⟨y, hy, rfl⟩ := hg''
    have hparties : ∀ k z, (if k = i then act z else z).granter = z.granter ∧
        (if k = i then act z else z).grantee = z.grantee := by
      intro k z
      split
      · exact hact.parties z
      · exact ⟨rfl, rfl⟩
    rw [(hparties k y).1, (hparties k y).2, (hparties j x).1, (hparties j x).2]
    by_cases hj : j = i
    · subst hj
      cases hg.symm.trans hx
      exact h.last j k g y hjk hg hy hstatus
    · rw [if_neg hj] at hstatus'
      exact h.last j k x y hjk hx hy hstatus'

theorem chainOk (hc : Consistent ops) (hsep : Separate ops) : ChainOk ops := by
  induction ops using List.reverseRecOn with
  | nil =>
    refine ⟨fun i => by simp [chainGrants, grantRows], fun i => by simp [owned, histories, endings],
      fun i j g g' _ hg => by simp [chainGrants] at hg⟩
  | append_singleton ops op ih =>
    have hok := ih (consistent_append hc) (List.pairwise_append.mp hsep).1
    cases hset : op.isSet with
    | true => exact chainOk_set hok hc hsep hset
    | false =>
      by_cases hupdate : op.kind = .update
      · have hstep : chainGrants (ops ++ [op]) = chainGrants ops := by
          rw [chainGrants_concat]
          simp [chainStep, hupdate]
        have hrows : grantRows (ops ++ [op]) = grantRows ops := by
          rw [grantRows_concat]
          simp [Operation.newFeegrant, hupdate]
        have hhist : histories (ops ++ [op]) = histories ops := by
          rw [histories_concat]
          simp [Operation.historyOf, hupdate]
        constructor
        · rw [hstep, hrows, hhist]
          exact hok.grants
        · rw [hrows, hhist]
          exact hok.once
        · rw [hstep]
          exact hok.last
      · obtain ⟨e, act, hact⟩ := exists_actsBy hset hupdate (hc.fee op (by simp))
        exact chainOk_act hok hc hset hact

end FeegrantLemmas

end Erascope.Feegrants
