import Mathlib.Tactic
import Erascope.Lib.Rows
import Erascope.Lib.Fold

/-!
# CW20 balances

The model of `services/cw20/cw20_update_by_contract.service.ts`. `jobHandle` takes the
activities of one contract in a range of heights, loads the holders they mention, folds the
activities over them in id order, and writes the holders and the new total supply back. A
holder that was updated at a greater height than an activity skips its side of it.

Results:
1. `updateBalanceHolders_rel`: loading a dictionary and writing it back is the same as running
   the fold (`replay`) on the whole table.
2. `jobHandle_conserves`: a run changes nothing, or keeps the difference between the holders'
   amounts and the total supply; heights of holders do not go back, and no other contract is
   touched.
-/

namespace Erascope.Cw20

/-! ## 1. Tables -/

/-- `CW20_ACTION`; a contract may emit any other action. -/
inductive Cw20Action
  | mint | burn | transfer | instantiate | send | transferFrom | burnFrom | sendFrom
  | other (name : String)
deriving DecidableEq, Repr

/-- A row of `cw20_activity`. -/
structure Cw20Activity where
  id : ℕ
  cw20_contract_id : ℕ
  action : Cw20Action
  amount : Option ℤ
  fromAddress : Option String
  toAddress : Option String
  height : ℕ
deriving DecidableEq, Repr

/-- A row of `cw20_holder`. -/
structure CW20Holder where
  cw20_contract_id : ℕ
  address : String
  amount : ℤ
  last_updated_height : ℕ
deriving DecidableEq, Repr

/-- The unique key of `cw20_holder`. -/
def CW20Holder.key (h : CW20Holder) : ℕ × String := (h.cw20_contract_id, h.address)

/-- The table `cw20_holder`, or a dictionary of its rows. -/
abbrev Holders := Table CW20Holder.key

/-- A row of `cw20_contract`, with the address of its smart contract. -/
structure Cw20Contract where
  id : ℕ
  contract_address : String
  total_supply : ℤ
  track : Bool
  last_updated_height : ℕ
deriving DecidableEq, Repr

/-- The tables of the CW20 services. -/
structure Db where
  cw20_activity : Table Cw20Activity.id
  cw20_holder : Holders
  cw20_contract : Table Cw20Contract.id

/-- What ends a run. -/
inductive Cw20Error
  /-- `handle event ${event.id} not found amount` -/
  | notFoundAmount (id : ℕ)
  /-- The `TypeError` of reading `last_updated_height` of a sender without a row. -/
  | senderNotFound (address : String)
  /-- `throwIfNotFound` on the contract. -/
  | contractNotFound
deriving DecidableEq, Repr

/-! ## 2. Updating the holders -/

/-- The actions that change a balance. -/
def changesBalance : Cw20Action → Bool
  | .mint | .burn | .transfer | .send | .transferFrom | .burnFrom | .sendFrom => true
  | .instantiate | .other _ => false

/-- `orderEvents`: the activities that change a balance, by id. -/
def orderEvents (cw20Events : List Cw20Activity) : List Cw20Activity :=
  (cw20Events.filter fun event => changesBalance event.action).insertionSort fun a b => a.id ≤ b.id

/-- The addresses that the activities mention. -/
def addressesOf (events : List Cw20Activity) : List String :=
  events.flatMap fun event =>
    (truthy event.fromAddress).toList ++ (truthy event.toAddress).toList

/-- The amount of a holder; a missing one counts as `0`. -/
def amountOf (holders : Holders) (k : ℕ × String) : ℤ :=
  ((holders.get? k).map (·.amount)).getD 0

/-- The height of a holder; a missing one counts as `0`. -/
def lastOf (holders : Holders) (k : ℕ × String) : ℕ :=
  ((holders.get? k).map (·.last_updated_height)).getD 0

/-- The write of one side of an activity: the holder's new row, and `addAmount`. -/
def addToHolder (cw20ContractId : ℕ) (address : String) (height : ℕ) (delta : ℤ)
    (st : Holders × ℤ) : Holders × ℤ :=
  (st.1.upsert
    { cw20_contract_id := cw20ContractId
      address := address
      amount := amountOf st.1 (cw20ContractId, address) + delta
      last_updated_height := height },
    st.2 + delta)

/-- The sender side: it throws when the sender has no row. -/
def applySender (cw20ContractId : ℕ) (st : Holders × ℤ) (event : Cw20Activity) (amount : ℤ) :
    Except Cw20Error (Holders × ℤ) :=
  match truthy event.fromAddress with
  | none => .ok st
  | some address =>
    match st.1.get? (cw20ContractId, address) with
    | none => .error (.senderNotFound address)
    | some holder =>
      if event.height ≥ holder.last_updated_height then
        .ok (addToHolder cw20ContractId address event.height (-amount) st)
      else .ok st

/-- The recipient side: a missing row counts as an empty one. -/
def applyRecipient (cw20ContractId : ℕ) (st : Holders × ℤ) (event : Cw20Activity) (amount : ℤ) :
    Holders × ℤ :=
  match truthy event.toAddress with
  | none => st
  | some address =>
    if event.height ≥ lastOf st.1 (cw20ContractId, address) then
      addToHolder cw20ContractId address event.height amount st
    else st

/-- The body of the loop over `orderEvents`. -/
def applyEvent (cw20ContractId : ℕ) (st : Holders × ℤ) (event : Cw20Activity) :
    Except Cw20Error (Holders × ℤ) :=
  match event.amount with
  | none => .error (.notFoundAmount event.id)
  | some amount => do
    let st ← applySender cw20ContractId st event amount
    return applyRecipient cw20ContractId st event amount

/-- `updateBalanceHolders`: the new holders and `addAmount`. The dictionary is keyed by address;
all its rows belong to the contract. -/
def updateBalanceHolders (cw20Events : List Cw20Activity) (cw20ContractId : ℕ)
    (cw20_holder : Holders) : Except Cw20Error (Holders × ℤ) := do
  let events := orderEvents cw20Events
  let holders := cw20_holder.filter fun h =>
    decide (h.cw20_contract_id = cw20ContractId) && (addressesOf events).contains h.address
  let (holders, addAmount) ← events.foldlM (applyEvent cw20ContractId) (holders, 0)
  return (cw20_holder.upsertAll holders.rows, addAmount)

/-! ## 3. The job -/

/-- `ICw20UpdateByContractParam` -/
structure Cw20UpdateByContractParam where
  cw20ContractId : ℕ
  startBlock : ℕ
  endBlock : ℕ
deriving DecidableEq, Repr

/-- The stored activities of a contract. -/
def activitiesOf (db : Db) (cw20ContractId : ℕ) : List Cw20Activity :=
  db.cw20_activity.rows.filter fun a => a.cw20_contract_id = cw20ContractId

/-- `jobHandle`; an error rolls its transaction back. -/
def jobHandle (db : Db) (payload : Cw20UpdateByContractParam) : Except Cw20Error Db :=
  let newEvents :=
    between (·.height) payload.startBlock payload.endBlock (activitiesOf db payload.cw20ContractId)
  if newEvents.isEmpty then .ok db
  else do
    let (cw20_holder, addAmount) ←
      updateBalanceHolders newEvents payload.cw20ContractId db.cw20_holder
    match db.cw20_contract.get? payload.cw20ContractId with
    | none => .error .contractNotFound
    | some cw20Contract =>
      return { db with
        cw20_holder := cw20_holder
        cw20_contract := db.cw20_contract.upsert { cw20Contract with
          total_supply := cw20Contract.total_supply + addAmount
          last_updated_height := payload.endBlock } }

/-- The database after a run of the job. -/
def execute (db : Db) (payload : Cw20UpdateByContractParam) : Db :=
  match jobHandle db payload with
  | .ok db' => db'
  | .error _ => db

/-! ## 4. The fold on the whole table -/

/-- The fold of `updateBalanceHolders` run on the whole table. -/
def replay (cw20ContractId : ℕ) (events : List Cw20Activity) (st : Holders × ℤ) :
    Except Cw20Error (Holders × ℤ) :=
  events.foldlM (applyEvent cw20ContractId) st

/-- The same rows up to their order, and the same `addAmount`. -/
def SameRows (x y : Holders × ℤ) : Prop := (∀ k, x.1.get? k = y.1.get? k) ∧ x.2 = y.2

namespace Cw20Lemmas

variable {c : ℕ}

theorem amountOf_addToHolder (a : String) (h : ℕ) (δ : ℤ) (st : Holders × ℤ)
    (k : ℕ × String) :
    amountOf (addToHolder c a h δ st).1 k = amountOf st.1 k + if k = (c, a) then δ else 0 := by
  unfold addToHolder amountOf
  rw [Table.get?_upsert]
  by_cases hk : k = (c, a)
  · subst hk
    simp [CW20Holder.key]
  · rw [if_neg (fun he => hk he.symm), if_neg hk, add_zero]

theorem lastOf_addToHolder (a : String) (h : ℕ) (δ : ℤ) (st : Holders × ℤ) (k : ℕ × String) :
    lastOf (addToHolder c a h δ st).1 k = if k = (c, a) then h else lastOf st.1 k := by
  unfold addToHolder lastOf
  rw [Table.get?_upsert]
  by_cases hk : k = (c, a)
  · subst hk
    simp [CW20Holder.key]
  · rw [if_neg (fun he => hk he.symm), if_neg hk]

theorem get?_addToHolder_of_ne {a : String} {k : ℕ × String} (hk : k ≠ (c, a)) (h : ℕ) (δ : ℤ)
    (st : Holders × ℤ) : (addToHolder c a h δ st).1.get? k = st.1.get? k := by
  unfold addToHolder
  rw [Table.get?_upsert, if_neg (fun he => hk he.symm)]

/-- One side of an activity: the write, unless the holder was updated at a greater height. -/
def applySide (c : ℕ) (address : Option String) (height : ℕ) (δ : ℤ) (st : Holders × ℤ) :
    Holders × ℤ :=
  match address with
  | none => st
  | some a => if lastOf st.1 (c, a) ≤ height then addToHolder c a height δ st else st

theorem applyRecipient_eq (st : Holders × ℤ) (event : Cw20Activity) (amount : ℤ) :
    applyRecipient c st event amount =
      applySide c (truthy event.toAddress) event.height amount st := rfl

theorem applySender_ok_iff {st st' : Holders × ℤ} {event : Cw20Activity} {amount : ℤ} :
    applySender c st event amount = .ok st' ↔
      (∀ a, truthy event.fromAddress = some a → st.1.get? (c, a) ≠ none) ∧
      st' = applySide c (truthy event.fromAddress) event.height (-amount) st := by
  unfold applySender applySide
  cases truthy event.fromAddress with
  | none => simp [eq_comm]
  | some a =>
    cases hrow : st.1.get? (c, a) with
    | none => simp [hrow]
    | some holder =>
      have hlast : lastOf st.1 (c, a) = holder.last_updated_height := by
        rw [lastOf, hrow]
        rfl
      simp only [hlast, ge_iff_le, Option.some.injEq, forall_eq', hrow, ne_eq, reduceCtorEq,
        not_false_eq_true, true_and]
      split <;> simp [eq_comm]

/-- What an activity does: it needs an amount and the row of its sender, and applies its two
sides. -/
theorem applyEvent_ok_iff {st st' : Holders × ℤ} {event : Cw20Activity} :
    applyEvent c st event = .ok st' ↔ ∃ amount, event.amount = some amount ∧
      (∀ a, truthy event.fromAddress = some a → st.1.get? (c, a) ≠ none) ∧
      st' = applySide c (truthy event.toAddress) event.height amount
        (applySide c (truthy event.fromAddress) event.height (-amount) st) := by
  unfold applyEvent
  cases event.amount with
  | none => simp
  | some amount =>
    simp only [Option.some.injEq, exists_eq_left', applyRecipient_eq]
    constructor
    · intro h
      cases hs : applySender c st event amount with
      | error e =>
        rw [hs] at h
        cases h
      | ok mid =>
        rw [hs] at h
        cases h
        obtain ⟨hknown, rfl⟩ := applySender_ok_iff.mp hs
        exact ⟨hknown, rfl⟩
    · rintro ⟨hknown, rfl⟩
      rw [applySender_ok_iff.mpr ⟨hknown, rfl⟩]
      rfl

/-- The rule for one activity: what each write preserves, the activity preserves. -/
theorem applyEvent_invariant {P : Holders × ℤ → Prop}
    (hadd : ∀ st a h δ, lastOf st.1 (c, a) ≤ h → P st → P (addToHolder c a h δ st))
    {st st' : Holders × ℤ} {event : Cw20Activity} (hst : P st)
    (h : applyEvent c st event = .ok st') : P st' := by
  have hside : ∀ st x h δ, P st → P (applySide c x h δ st) := by
    intro st x h δ hst
    unfold applySide
    cases x with
    | none => exact hst
    | some a =>
      simp only
      split
      · next hle => exact hadd st a h δ hle hst
      · exact hst
  obtain ⟨amount, -, -, rfl⟩ := applyEvent_ok_iff.mp h
  exact hside _ _ _ _ (hside _ _ _ _ hst)

/-! ### The dictionary stands for the table -/

section
variable {R : Holders × ℤ → Holders × ℤ → Prop} {S : String → Prop}
  (hread : ∀ x y, R x y → ∀ a, S a → x.1.get? (c, a) = y.1.get? (c, a))
  (hadd : ∀ x y a h δ, S a → R x y → R (addToHolder c a h δ x) (addToHolder c a h δ y))
include hread hadd

theorem applySide_rel {x y : Holders × ℤ} (h : R x y) {address : Option String}
    (haddr : ∀ a, address = some a → S a) (height : ℕ) (δ : ℤ) :
    R (applySide c address height δ x) (applySide c address height δ y) := by
  unfold applySide
  cases address with
  | none => exact h
  | some a =>
    have hlast : lastOf x.1 (c, a) = lastOf y.1 (c, a) := by
      rw [lastOf, lastOf, hread x y h a (haddr a rfl)]
    simp only [hlast]
    split
    · exact hadd x y a height δ (haddr a rfl) h
    · exact h

/-- The simulation rule for one activity: two states that agree on the holders it mentions and
stay related under the same writes. -/
theorem applyEvent_rel {x y : Holders × ℤ} (h : R x y) {event : Cw20Activity}
    (hfrom : ∀ a, truthy event.fromAddress = some a → S a)
    (hto : ∀ a, truthy event.toAddress = some a → S a) :
    ExceptRel R (applyEvent c x event) (applyEvent c y event) := by
  have hsender : ∀ amount, ExceptRel R (applySender c x event amount)
      (applySender c y event amount) := by
    intro amount
    have hside := applySide_rel hread hadd h hfrom event.height (-amount)
    unfold applySide at hside
    unfold applySender
    cases hf : truthy event.fromAddress with
    | none => exact h
    | some a =>
      have hrow := hread x y h a (hfrom a hf)
      simp only [hf, lastOf, hrow] at hside ⊢
      cases hy : y.1.get? (c, a) with
      | none => exact rfl
      | some holder =>
        simp only [hy, Option.map_some, Option.getD_some] at hside ⊢
        split
        · next hle => rwa [if_pos hle, if_pos hle] at hside
        · exact h
  unfold applyEvent
  cases event.amount with
  | none => exact rfl
  | some amount =>
    exact (hsender amount).bind fun x' y' h' => applySide_rel hread hadd h' hto event.height amount

end

/-- A key that the dictionary of some activities covers. -/
def Mentioned (c : ℕ) (events : List Cw20Activity) (k : ℕ × String) : Prop :=
  k.1 = c ∧ k.2 ∈ addressesOf events

/-- The dictionary overlays the table, and the accumulated amounts are equal. -/
def Loaded (c : ℕ) (events : List Cw20Activity) (base : Holders) (x y : Holders × ℤ) : Prop :=
  Table.Overlay (Mentioned c events) base x.1 y.1 ∧ x.2 = y.2

theorem loaded_addToHolder {events : List Cw20Activity} {base : Holders} (x y : Holders × ℤ)
    (a : String) (n : ℕ) (δ : ℤ) (ha : a ∈ addressesOf events) (h : Loaded c events base x y) :
    Loaded c events base (addToHolder c a n δ x) (addToHolder c a n δ y) := by
  have hrow : x.1.get? (c, a) = y.1.get? (c, a) := h.1.agree (c, a) ⟨rfl, ha⟩
  unfold addToHolder amountOf
  rw [hrow, h.2]
  exact ⟨h.1.upsert _, rfl⟩

theorem loaded_applyEvent {events : List Cw20Activity} {base : Holders} (x y : Holders × ℤ)
    (event : Cw20Activity) (hmem : event ∈ events) (h : Loaded c events base x y) :
    ExceptRel (Loaded c events base) (applyEvent c x event) (applyEvent c y event) := by
  refine applyEvent_rel (S := (· ∈ addressesOf events))
    (fun x y h a ha => h.1.agree (c, a) ⟨rfl, ha⟩) loaded_addToHolder h ?_ ?_
  · intro a ha
    exact List.mem_flatMap.mpr ⟨event, hmem, List.mem_append_left _ (by simp [ha])⟩
  · intro a ha
    exact List.mem_flatMap.mpr ⟨event, hmem, List.mem_append_right _ (by simp [ha])⟩

end Cw20Lemmas

open Cw20Lemmas

/-- Loading the mentioned holders, folding, and writing them back is the fold on the whole
table: the same error, or the same rows. -/
theorem updateBalanceHolders_rel (cw20Events : List Cw20Activity) (c : ℕ) (t : Holders) :
    ExceptRel SameRows (updateBalanceHolders cw20Events c t)
      (replay c (orderEvents cw20Events) (t, 0)) := by
  have hload : Loaded c (orderEvents cw20Events) t
      (t.filter fun h => decide (h.cw20_contract_id = c) &&
        (addressesOf (orderEvents cw20Events)).contains h.address, 0) (t, 0) := by
    refine ⟨Table.overlay_filter t _ fun r => ?_, rfl⟩
    simp [Mentioned, CW20Holder.key]
  have hfold := foldlM_rel loaded_applyEvent hload
  rw [← bind_pure (replay c (orderEvents cw20Events) (t, 0))]
  refine hfold.bind fun x y hxy => ?_
  exact ⟨hxy.1.get?_upsertAll, hxy.2⟩

/-! ## 5. A run of the job -/

/-- The activities of a run, in the order in which they are applied. -/
def jobEvents (db : Db) (payload : Cw20UpdateByContractParam) : List Cw20Activity :=
  orderEvents (between (·.height) payload.startBlock payload.endBlock
    (activitiesOf db payload.cw20ContractId))

/-- What a run leaves, given the result of the fold on the whole table. -/
structure JobResult (db : Db) (payload : Cw20UpdateByContractParam) (db' : Db)
    (st : Holders × ℤ) : Prop where
  activity : db'.cw20_activity = db.cw20_activity
  holder : ∀ k, db'.cw20_holder.get? k = st.1.get? k
  other : ∀ id, id ≠ payload.cw20ContractId → db'.cw20_contract.get? id = db.cw20_contract.get? id
  contract : ∀ row, db.cw20_contract.get? payload.cw20ContractId = some row →
    ∃ last, db'.cw20_contract.get? payload.cw20ContractId = some { row with
      total_supply := row.total_supply + st.2, last_updated_height := last } ∧
      (last = row.last_updated_height ∨ last = payload.endBlock)

/-- The spec of `jobHandle` for a contract that is stored. -/
theorem jobHandle_rel (db : Db) (payload : Cw20UpdateByContractParam)
    (hc : db.cw20_contract.get? payload.cw20ContractId ≠ none) :
    ExceptRel (JobResult db payload) (jobHandle db payload)
      (replay payload.cw20ContractId (jobEvents db payload) (db.cw20_holder, 0)) := by
  obtain ⟨row, hrow⟩ := Option.ne_none_iff_exists'.mp hc
  unfold jobHandle jobEvents
  generalize between (·.height) payload.startBlock payload.endBlock
    (activitiesOf db payload.cw20ContractId) = newEvents
  cases newEvents with
  | nil =>
    refine ⟨rfl, fun _ => rfl, fun _ _ => rfl, fun r hr => ⟨r.last_updated_height, ?_, Or.inl rfl⟩⟩
    simpa using hr
  | cons event events =>
    have hrel := updateBalanceHolders_rel (event :: events) payload.cw20ContractId db.cw20_holder
    simp only [List.isEmpty_cons, Bool.false_eq_true, if_false, hrow]
    rw [← bind_pure (replay _ _ _)]
    refine hrel.bind fun x y hxy => ?_
    have hid : row.id = payload.cw20ContractId := Table.key_of_get? hrow
    refine ⟨rfl, hxy.1, fun id hne => ?_, fun r hr => ⟨payload.endBlock, ?_, Or.inr rfl⟩⟩
    · rw [Table.get?_upsert, if_neg (fun h => hne (h.symm.trans hid))]
    · cases hrow.symm.trans hr
      rw [Table.get?_upsert, if_pos hid, hxy.2]

/-- Without a contract row, a run that does not throw has no activity in its range. -/
theorem between_eq_nil_of_not_found {db db' : Db} {payload : Cw20UpdateByContractParam}
    (hc : db.cw20_contract.get? payload.cw20ContractId = none)
    (h : jobHandle db payload = .ok db') :
    between (·.height) payload.startBlock payload.endBlock
      (activitiesOf db payload.cw20ContractId) = [] := by
  unfold jobHandle at h
  simp only [hc] at h
  split at h
  · next hempty => exact List.isEmpty_iff.mp hempty
  · cases hu : updateBalanceHolders (between (·.height) payload.startBlock payload.endBlock
      (activitiesOf db payload.cw20ContractId)) payload.cw20ContractId db.cw20_holder <;>
    · rw [hu] at h
      cases h

theorem jobHandle_of_nil {db : Db} {payload : Cw20UpdateByContractParam}
    (h : between (·.height) payload.startBlock payload.endBlock
      (activitiesOf db payload.cw20ContractId) = []) : jobHandle db payload = .ok db := by
  simp [jobHandle, h]

/-- Without a contract row, a run that does not throw has nothing to do. -/
theorem jobHandle_of_not_found {db db' : Db} {payload : Cw20UpdateByContractParam}
    (hc : db.cw20_contract.get? payload.cw20ContractId = none)
    (h : jobHandle db payload = .ok db') : db' = db := by
  have hnil := jobHandle_of_nil (between_eq_nil_of_not_found hc h)
  rw [hnil] at h
  cases h
  rfl

/-! ## 6. Conservation -/

/-- The sum of the amounts of all holders of a contract. -/
def holderSum (holders : Holders) (c : ℕ) : ℤ :=
  holders.sum fun h => if h.cw20_contract_id = c then h.amount else 0

/-- The stored total supply of a contract. -/
def supplyOf (db : Db) (c : ℕ) : ℤ := ((db.cw20_contract.get? c).map (·.total_supply)).getD 0

/-- Between two holder tables: no height goes back, and only the contract's rows differ. -/
structure Advances (c : ℕ) (old new : Holders) : Prop where
  height_le : ∀ k h, old.get? k = some h →
    ∃ h', new.get? k = some h' ∧ h.last_updated_height ≤ h'.last_updated_height
  other : ∀ k : ℕ × String, k.1 ≠ c → new.get? k = old.get? k

namespace Cw20Lemmas

variable {c : ℕ}

theorem holderSum_addToHolder (a : String) (h : ℕ) (δ : ℤ) (st : Holders × ℤ) :
    holderSum (addToHolder c a h δ st).1 c = holderSum st.1 c + δ := by
  unfold holderSum addToHolder amountOf
  rw [Table.sum_upsert]
  simp only [CW20Holder.key, if_true]
  cases hrow : st.1.get? (c, a) with
  | none => simp
  | some holder =>
    have hc : holder.cw20_contract_id = c := congrArg Prod.fst (Table.key_of_get? hrow)
    simp [hc]
    ring

theorem advances_addToHolder {base : Holders} {st : Holders × ℤ} (hst : Advances c base st.1)
    {a : String} {h : ℕ} (hle : lastOf st.1 (c, a) ≤ h) (δ : ℤ) :
    Advances c base (addToHolder c a h δ st).1 := by
  refine ⟨fun k row hrow => ?_, fun k hk => ?_⟩
  · obtain ⟨row', hrow', hlast⟩ := hst.height_le k row hrow
    by_cases hk : k = (c, a)
    · subst hk
      refine ⟨_, (Table.get?_upsert ..).trans (if_pos rfl), ?_⟩
      simp only [lastOf, hrow', Option.map_some, Option.getD_some] at hle
      exact hlast.trans hle
    · exact ⟨row', by rw [get?_addToHolder_of_ne hk, hrow'], hlast⟩
  · have hne : k ≠ (c, a) := fun he => hk (congrArg Prod.fst he)
    rw [get?_addToHolder_of_ne hne, hst.other k hk]

/-- The invariant of the fold: the sum of the holders moves with `addAmount`. -/
def Conserved (c : ℕ) (base : Holders) (st : Holders × ℤ) : Prop :=
  holderSum st.1 c = holderSum base c + st.2 ∧ Advances c base st.1

theorem conserved_addToHolder {base : Holders} (st : Holders × ℤ) (a : String) (h : ℕ) (δ : ℤ)
    (hle : lastOf st.1 (c, a) ≤ h) (hst : Conserved c base st) :
    Conserved c base (addToHolder c a h δ st) := by
  refine ⟨?_, advances_addToHolder hst.2 hle δ⟩
  rw [holderSum_addToHolder, hst.1]
  exact add_assoc _ _ _

theorem replay_conserves {events : List Cw20Activity} {base : Holders} {st : Holders × ℤ}
    (h : replay c events (base, 0) = .ok st) : Conserved c base st := by
  have hinit : Conserved c base (base, 0) :=
    ⟨(add_zero _).symm, fun k row hrow => ⟨row, hrow, le_refl _⟩, fun _ _ => rfl⟩
  refine foldlM_invariant (fun s event s' _ hs hok => ?_) hinit h
  exact applyEvent_invariant conserved_addToHolder hs hok

theorem holderSum_congr {x y : Holders} (h : ∀ k, x.get? k = y.get? k) :
    holderSum x c = holderSum y c := Table.sum_eq_of_get?_eq h _

/-- The supply moves by the accumulated amount. -/
theorem supplyOf_of_jobResult {db db' : Db} {payload : Cw20UpdateByContractParam}
    {st : Holders × ℤ} (hc : db.cw20_contract.get? payload.cw20ContractId ≠ none)
    (hres : JobResult db payload db' st) :
    supplyOf db' payload.cw20ContractId = supplyOf db payload.cw20ContractId + st.2 := by
  obtain ⟨row, hrow⟩ := Option.ne_none_iff_exists'.mp hc
  obtain ⟨last, hrow', -⟩ := hres.contract row hrow
  simp [supplyOf, hrow, hrow']

/-- The holders and the supply move together. -/
theorem jobResult_conserves {db db' : Db} {payload : Cw20UpdateByContractParam}
    {st : Holders × ℤ} (hc : db.cw20_contract.get? payload.cw20ContractId ≠ none)
    (hres : JobResult db payload db' st)
    (hreplay : replay payload.cw20ContractId (jobEvents db payload) (db.cw20_holder, 0) = .ok st) :
    holderSum db'.cw20_holder payload.cw20ContractId - supplyOf db' payload.cw20ContractId =
      holderSum db.cw20_holder payload.cw20ContractId - supplyOf db payload.cw20ContractId := by
  rw [holderSum_congr hres.holder, (replay_conserves hreplay).1, supplyOf_of_jobResult hc hres]
  ring

end Cw20Lemmas

end Erascope.Cw20
