import Mathlib.Tactic
import Erascope.Lib.Rows
import Erascope.Lib.Fold

/-!
# Fee grants

The model of `services/feegrant/feegrant.service.ts` and `update_feegrant.service.ts`.
`getFeegrantEvents` turns the events of a range into new grants and unprocessed histories. The
update job takes any unprocessed histories, attaches each to the newest grant of its granter and
grantee that is still available and not younger than the history, and applies them.

* `getFeegrantEvents`, `handleFeegrant`: storing a range.
* `attach`: the grant that a history is attached to.
* `updateFeegrant`, `updateJob`: applying a batch of histories.
-/

namespace Erascope.Feegrants

/-! ## 1. Events -/

/-- The event types that the service reads. -/
inductive EventType
  | useFeegrant | setFeegrant | revokeFeegrant
deriving DecidableEq, Repr

/-- The entries of `EventAttribute.ATTRIBUTE_KEY` that the service reads, or any other key. -/
inductive AttributeKey
  | granter | grantee
  | other (key : String)
deriving DecidableEq, Repr

/-- A row of `event_attribute`. -/
structure EventAttribute where
  key : AttributeKey
  value : String
deriving DecidableEq, Repr

/-- An amount of a denom. -/
structure Coin where
  amount : ℤ
  denom : String
deriving DecidableEq, Repr

/-- The fields of a basic allowance. -/
structure BasicAllowance where
  spend_limit : List Coin
  expiration : Option String
deriving DecidableEq, Repr

/-- The allowance in the content of a message. `other` stands for the types that carry another
allowance, as `AllowedMsgAllowance` does. -/
inductive Allowance
  | basicAllowance (basic : BasicAllowance)
  | periodicAllowance (basic : BasicAllowance)
  | other (type : String) (allowance : Allowance)
deriving DecidableEq, Repr

/-- The two types at which `getCreateFeegrantInfo` stops. -/
inductive AllowanceType
  | basicAllowance | periodicAllowance
deriving DecidableEq, Repr

/-- The columns of a transaction that the service selects. -/
structure Transaction where
  id : ℕ
  height : ℕ
  fee : Option (List Coin)
deriving DecidableEq, Repr

/-- A row of `event`, joined with its attributes, its transaction and its message. -/
structure FeegrantEvent where
  type : EventType
  tx_msg_index : Option ℕ
  attributes : List EventAttribute
  transaction : Transaction
  message : Option Allowance
deriving DecidableEq, Repr

/-- `getAttributeFrom` -/
def getAttributeFrom (listAttributes : List EventAttribute) (attributeType : AttributeKey) :
    Option String :=
  (listAttributes.find? fun attr => attr.key = attributeType).map (·.value)

/-! ## 2. Rows -/

/-- `FEEGRANT_ACTION` -/
inductive FeegrantAction
  | create | revoke | use | useUp
deriving DecidableEq, Repr

/-- `FEEGRANT_STATUS`, without `Fail`, which nothing sets. -/
inductive FeegrantStatus
  | available | useUp | revoked
deriving DecidableEq, Repr

/-- A row of `feegrant`; its position in the table stands for its id. -/
structure Feegrant where
  init_tx_id : Option ℕ
  revoke_tx_id : Option ℕ
  granter : String
  grantee : String
  type : AllowanceType
  expiration : Option String
  status : FeegrantStatus
  spend_limit : Option ℤ
  denom : Option String
deriving DecidableEq, Repr

/-- A row of `feegrant_history`; its position in the table stands for its id. -/
structure FeegrantHistory where
  tx_id : ℕ
  feegrant_id : Option ℕ
  action : FeegrantAction
  amount : Option ℤ
  granter : String
  grantee : String
  denom : Option String
  processed : Bool
deriving DecidableEq, Repr

/-- What ends a run. -/
inductive FeegrantError
  /-- `Transaction ${id} not found fee`, or the `TypeError` of an empty one. -/
  | feeNotFound (txId : ℕ)
  /-- `fromJson` of a row without a granter or a grantee. -/
  | invalidRow
  /-- The `TypeError` of setting the action of `newHistories[-1]`. -/
  | useNotFound
  /-- `Use feegrant but not found fee` and `Use up feegrant but not found fee` -/
  | amountNotFound
deriving DecidableEq, Repr

/-! ## 3. Storing a range -/

/-- What `getCreateFeegrantInfo` returns. -/
structure CreateFeegrantInfo where
  type : AllowanceType
  spend_limit : Option ℤ
  denom : Option String
  expiration : Option String
deriving DecidableEq, Repr

/-- `getCreateFeegrantInfo`: the innermost allowance, and its first coin. -/
def getCreateFeegrantInfo : Allowance → CreateFeegrantInfo
  | .other _ allowance => getCreateFeegrantInfo allowance
  | .basicAllowance basic =>
    { type := .basicAllowance
      spend_limit := basic.spend_limit.head?.map (·.amount)
      denom := basic.spend_limit.head?.map (·.denom)
      expiration := basic.expiration }
  | .periodicAllowance basic =>
    { type := .periodicAllowance
      spend_limit := basic.spend_limit.head?.map (·.amount)
      denom := basic.spend_limit.head?.map (·.denom)
      expiration := basic.expiration }

/-- The granter and the grantee of an event; `fromJson` refuses a row without them. -/
def partiesOf (e : FeegrantEvent) : Except FeegrantError (String × String) :=
  match getAttributeFrom e.attributes .granter, getAttributeFrom e.attributes .grantee with
  | some granter, some grantee => .ok (granter, grantee)
  | _, _ => .error .invalidRow

/-- The histories of the uses, the first loop of `getFeegrantEvents`. -/
def useHistory (newHistories : List FeegrantHistory) (e : FeegrantEvent) :
    Except FeegrantError (List FeegrantHistory) :=
  match e.type with
  | .useFeegrant =>
    match e.transaction.fee with
    | some (fee :: _) => do
      let (granter, grantee) ← partiesOf e
      return newHistories ++ [
        { tx_id := e.transaction.id
          feegrant_id := none
          action := .use
          amount := some fee.amount
          granter := granter
          grantee := grantee
          denom := some fee.denom
          processed := false }]
    | _ => .error (.feeNotFound e.transaction.id)
  | .setFeegrant | .revokeFeegrant => .ok newHistories

/-- Whether a history is the use that an event without `tx_msg_index` ends. -/
def isUseOf (e : FeegrantEvent) (h : FeegrantHistory) : Bool :=
  h.action = .use && h.tx_id = e.transaction.id &&
    some h.granter = getAttributeFrom e.attributes .granter &&
    some h.grantee = getAttributeFrom e.attributes .grantee

/-- `newHistories[index].action = USE_UP`, for the first use of the event. -/
def markUseUp (e : FeegrantEvent) : List FeegrantHistory → Except FeegrantError (List FeegrantHistory)
  | [] => .error .useNotFound
  | h :: hs =>
    if isUseOf e h then .ok ({ h with action := .useUp } :: hs)
    else (markUseUp e hs).map (h :: ·)

/-- The body of the second loop of `getFeegrantEvents`. -/
def grantOrRevoke (st : List Feegrant × List FeegrantHistory) (e : FeegrantEvent) :
    Except FeegrantError (List Feegrant × List FeegrantHistory) :=
  match e.type with
  | .useFeegrant => .ok st
  | .setFeegrant =>
    match e.message with
    | none => .ok st
    | some allowance => do
      let (granter, grantee) ← partiesOf e
      let info := getCreateFeegrantInfo allowance
      return (st.1 ++ [
          { init_tx_id := some e.transaction.id
            revoke_tx_id := none
            granter := granter
            grantee := grantee
            type := info.type
            expiration := info.expiration
            status := .available
            spend_limit := info.spend_limit
            denom := info.denom }],
        st.2 ++ [
          { tx_id := e.transaction.id
            feegrant_id := none
            action := .create
            amount := info.spend_limit
            granter := granter
            grantee := grantee
            denom := info.denom
            processed := false }])
  | .revokeFeegrant =>
    match e.tx_msg_index with
    | some _ => do
      let (granter, grantee) ← partiesOf e
      return (st.1, st.2 ++ [
        { tx_id := e.transaction.id
          feegrant_id := none
          action := .revoke
          amount := none
          granter := granter
          grantee := grantee
          denom := none
          processed := false }])
    | none => do
      let newHistories ← markUseUp e st.2
      return (st.1, newHistories)

/-- `getFeegrantEvents`, for the events of a range. -/
def getFeegrantEvents (feegrantEvents : List FeegrantEvent) :
    Except FeegrantError (List Feegrant × List FeegrantHistory) := do
  let uses ← feegrantEvents.foldlM useHistory []
  let (newFeegrants, newHistories) ← feegrantEvents.foldlM grantOrRevoke ([], uses)
  return (newFeegrants, newHistories.insertionSort fun a b => a.tx_id ≤ b.tx_id)

/-- The two tables, in id order. -/
structure Db where
  feegrant : List Feegrant
  feegrant_history : List FeegrantHistory
deriving DecidableEq, Repr

/-- `jobHandler` of `HANDLE_FEEGRANT`, for a range. -/
def handleFeegrant (events : List FeegrantEvent) (db : Db) (startBlock endBlock : ℕ) :
    Except FeegrantError Db := do
  let (newFeegrants, newHistories) ←
    getFeegrantEvents (between (·.transaction.height) startBlock endBlock events)
  return ⟨db.feegrant ++ newFeegrants, db.feegrant_history ++ newHistories⟩

/-! ## 4. Applying histories -/

/-- `x.granter`, `x.grantee` and `(x?.init_tx_id || 0) <= e.tx_id` -/
def isSuspicious (e : FeegrantHistory) (x : Feegrant) : Bool :=
  x.grantee = e.grantee && x.granter = e.granter && x.init_tx_id.getD 0 ≤ e.tx_id

/-- The step of `reduce`: the greater `init_tx_id`, and of two equal ones the later row. -/
def newerOf (prev : Option (Feegrant × ℕ)) (current : Feegrant × ℕ) : Option (Feegrant × ℕ) :=
  match prev with
  | none => some current
  | some prev =>
    if prev.1.init_tx_id.getD 0 > current.1.init_tx_id.getD 0 then some prev else some current

/-- The position of the newest row among those that satisfy `p`: `filter`, then `reduce`. -/
def newest (p : Feegrant → Bool) (feegrants : List Feegrant) : Option ℕ :=
  ((feegrants.zipIdx.filter fun x => p x.1).foldl newerOf none).map (·.2)

/-- The grant that a history is attached to: the newest available one of its granter and grantee
that is not younger. -/
def attach (feegrants : List Feegrant) (e : FeegrantHistory) : Option ℕ :=
  newest (fun x => x.status = .available && isSuspicious e x) feegrants

/-- `IUpdateFeegrant` -/
structure UpdateFeegrant where
  amount : ℤ
  status : FeegrantStatus
deriving DecidableEq, Repr

/-- One history in the loop over `mapUpdate`. -/
def addUpdate (update : UpdateFeegrant) (e : FeegrantHistory) :
    Except FeegrantError UpdateFeegrant :=
  match e.action with
  | .create => .ok update
  | .use =>
    match e.amount with
    | some amount => .ok { update with amount := update.amount + amount }
    | none => .error .amountNotFound
  | .revoke => .ok { update with status := .revoked }
  | .useUp =>
    match e.amount with
    | some amount => .ok { amount := update.amount + amount, status := .useUp }
    | none => .error .amountNotFound

/-- The histories of the batch that are attached to a grant, without the creations. -/
def historiesOf (id : ℕ) (feegrantHistories : List FeegrantHistory) : List FeegrantHistory :=
  feegrantHistories.filter fun e => e.feegrant_id = some id ∧ e.action ≠ .create

/-- The patches of one grant: the entry of `mapUpdate`, and then `listRevoke` in order. -/
def patchFeegrant (feegrantHistories : List FeegrantHistory) (row : Feegrant) (id : ℕ) :
    Except FeegrantError Feegrant :=
  let histories := historiesOf id feegrantHistories
  if histories.isEmpty then .ok row
  else do
    let updateData ← histories.foldlM addUpdate { amount := 0, status := .available }
    let listRevoke := histories.filter fun e => e.action = .revoke ∨ e.action = .useUp
    return { row with
      spend_limit := row.spend_limit.map (· - updateData.amount)
      status := updateData.status
      revoke_tx_id := (listRevoke.getLast?.map (·.tx_id)).or row.revoke_tx_id }

/-- `updateFeegrant` -/
def updateFeegrant (feegrantHistories : List FeegrantHistory) (feegrants : List Feegrant) :
    Except FeegrantError (List Feegrant) :=
  feegrants.zipIdx.mapM fun x => patchFeegrant feegrantHistories x.1 x.2

/-- `jobHandler` of `UPDATE_FEEGRANT`, for the histories at the positions that the query of
unprocessed ones returns. -/
def updateJob (db : Db) (unprocessFeegrantHistories : List ℕ) : Except FeegrantError Db := do
  let attached := unprocessFeegrantHistories.filterMap fun id =>
    db.feegrant_history[id]?.map fun e =>
      { e with feegrant_id := attach db.feegrant e, processed := true }
  let feegrant ← updateFeegrant attached db.feegrant
  return {
    feegrant := feegrant
    feegrant_history := db.feegrant_history.mapIdx fun id e =>
      if id ∈ unprocessFeegrantHistories then
        { e with feegrant_id := (attach db.feegrant e).or e.feegrant_id, processed := true }
      else e }

/-! ## 5. The newest grant -/

/-- The position of the last row that satisfies `p`. -/
def lastIdx (p : Feegrant → Bool) (feegrants : List Feegrant) : Option ℕ :=
  (feegrants.zipIdx.filter fun x => p x.1).getLast?.map (·.2)

/-- Grants are stored in the order of their transactions. -/
def InitOrder (feegrants : List Feegrant) : Prop :=
  feegrants.Pairwise fun x y => x.init_tx_id.getD 0 ≤ y.init_tx_id.getD 0

namespace FeegrantLemmas

variable {p q : Feegrant → Bool} {feegrants : List Feegrant}

/-- In the order of their transactions the newest grant is the last one. -/
theorem newest_eq_lastIdx (h : InitOrder feegrants) : newest p feegrants = lastIdx p feegrants := by
  unfold newest lastIdx
  have hsort : (feegrants.zipIdx.filter fun x => p x.1).Pairwise
      fun x y => x.1.init_tx_id.getD 0 ≤ y.1.init_tx_id.getD 0 := by
    refine List.Pairwise.filter _ ?_
    rw [InitOrder, ← List.zipIdx_map_fst 0 feegrants, List.pairwise_map] at h
    exact h
  generalize (feegrants.zipIdx.filter fun x => p x.1) = l at hsort ⊢
  congr 1
  -- from any row that is not younger than the others, the fold ends at the last one
  have hfold : ∀ prev : Option (Feegrant × ℕ),
      (∀ x, prev = some x → ∀ y ∈ l, x.1.init_tx_id.getD 0 ≤ y.1.init_tx_id.getD 0) →
      l.foldl newerOf prev = l.getLast?.or prev := by
    induction l with
    | nil => intro prev _; rfl
    | cons x l ih =>
      intro prev hprev
      obtain ⟨hx, hl⟩ := List.pairwise_cons.mp hsort
      have hstep : newerOf prev x = some x := by
        cases prev with
        | none => rfl
        | some prev => exact if_neg (not_lt.mpr (hprev prev rfl x List.mem_cons_self))
      rw [List.foldl_cons, hstep, ih hl (some x) fun y hy => Option.some.inj hy ▸ hx,
        List.getLast?_cons]
      cases hlast : l.getLast? <;> rfl
  have hnone : l.foldl newerOf none = l.getLast?.or none := hfold none fun x hx => nomatch hx
  rw [hnone, Option.or_none]

theorem lastIdx_concat (feegrants : List Feegrant) (x : Feegrant) :
    lastIdx p (feegrants ++ [x]) =
      if p x then some feegrants.length else lastIdx p feegrants := by
  unfold lastIdx
  rw [List.zipIdx_append, List.filter_append]
  cases hp : p x <;> simp [hp]

theorem getElem?_concat_eq_some_iff {α : Type} {l : List α} {x y : α} {i : ℕ} :
    (l ++ [y])[i]? = some x ↔ l[i]? = some x ∨ (i = l.length ∧ y = x) := by
  rcases Nat.lt_trichotomy i l.length with hlt | rfl | hgt
  · simp [List.getElem?_append_left hlt, hlt.ne]
  · simp
  · rw [List.getElem?_eq_none (by simp; omega), List.getElem?_eq_none hgt.le]
    simp [hgt.ne']

theorem lastIdx_eq_some_iff {i : ℕ} : lastIdx p feegrants = some i ↔
    (∃ x, feegrants[i]? = some x ∧ p x = true) ∧
      ∀ j x, i < j → feegrants[j]? = some x → p x = false := by
  induction feegrants using List.reverseRecOn generalizing i with
  | nil => simp [lastIdx]
  | append_singleton feegrants y ih =>
    rw [lastIdx_concat]
    cases hp : p y with
    | true =>
      simp only [if_true, Option.some.injEq]
      constructor
      · rintro rfl
        refine ⟨⟨y, by simp, hp⟩, fun j x hj hx => ?_⟩
        rcases getElem?_concat_eq_some_iff.mp hx with hx | ⟨rfl, -⟩
        · obtain ⟨hlt, -⟩ := List.getElem?_eq_some_iff.mp hx
          exact absurd hj hlt.asymm
        · exact absurd hj (lt_irrefl _)
      · rintro ⟨⟨x, hx, -⟩, hlast⟩
        rcases getElem?_concat_eq_some_iff.mp hx with hx | ⟨rfl, -⟩
        · obtain ⟨hlt, -⟩ := List.getElem?_eq_some_iff.mp hx
          have hy := hlast feegrants.length y hlt (by simp)
          rw [hp] at hy
          cases hy
        · rfl
    | false =>
      simp only [Bool.false_eq_true, if_false, ih]
      constructor
      · rintro ⟨⟨x, hx, hpx⟩, hlast⟩
        refine ⟨⟨x, getElem?_concat_eq_some_iff.mpr (.inl hx), hpx⟩, fun j z hj hz => ?_⟩
        rcases getElem?_concat_eq_some_iff.mp hz with hz | ⟨-, rfl⟩
        · exact hlast j z hj hz
        · exact hp
      · rintro ⟨⟨x, hx, hpx⟩, hlast⟩
        rcases getElem?_concat_eq_some_iff.mp hx with hx | ⟨-, rfl⟩
        · exact ⟨⟨x, hx, hpx⟩, fun j z hj hz =>
            hlast j z hj (getElem?_concat_eq_some_iff.mpr (.inl hz))⟩
        · rw [hp] at hpx
          cases hpx

/-- A stronger test that the last row passes finds the same row. -/
theorem lastIdx_of_imp {i : ℕ} {x : Feegrant} (h : lastIdx p feegrants = some i)
    (hx : feegrants[i]? = some x) (hqx : q x = true) (hqp : ∀ y, q y = true → p y = true) :
    lastIdx q feegrants = some i := by
  obtain ⟨-, hlast⟩ := lastIdx_eq_some_iff.mp h
  refine lastIdx_eq_some_iff.mpr ⟨⟨x, hx, hqx⟩, fun j y hj hy => ?_⟩
  cases hq : q y with
  | false => rfl
  | true =>
    have hp := hlast j y hj hy
    rw [hqp y hq] at hp
    cases hp

/-- Rows that fail the test do not matter at the end. -/
theorem lastIdx_append {more : List Feegrant} (h : ∀ x ∈ more, p x = false) :
    lastIdx p (feegrants ++ more) = lastIdx p feegrants := by
  induction more using List.reverseRecOn with
  | nil => simp
  | append_singleton more x ih =>
    rw [← List.append_assoc, lastIdx_concat, h x (by simp), if_neg (by simp)]
    exact ih fun y hy => h y (by simp [hy])

end FeegrantLemmas

end Erascope.Feegrants
