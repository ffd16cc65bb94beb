import Mathlib.Tactic
import Erascope.Staking.Counts

/-!
# The ids of the validators

Other tables name a validator by its id. The jobs that write delegations keep the ids; the upsert of
`handleCrawlAllValidator` can give a validator the next value of the sequence as its id, and then
the id that it had is the id of no row, for the sequence never goes back.

* `Follows`: what the tables that come after a state have in common with it.
* `follows_mergeValidators`, `follows_countStep`: the jobs.
* `renewed_mergeValidators`: a validator that is written as a new one gets an id of its own.
-/

namespace Erascope.Staking

variable {db db' db₁ : Db}

/-- No validator goes, and an id that was taken has the validator that it had, or none. -/
structure Follows (db db' : Db) : Prop where
  next_le : db.nextValidatorId ≤ db'.nextValidatorId
  old : ∀ address id, db'.validatorId address = some id → id < db.nextValidatorId →
    db.validatorId address = some id
  known : ∀ address, (db.validatorId address).isSome → (db'.validatorId address).isSome

theorem Follows.refl (db : Db) : Follows db db := ⟨le_refl _, fun _ _ h _ => h, fun _ h => h⟩

theorem Follows.trans (h : Follows db db₁) (h' : Follows db₁ db') : Follows db db' where
  next_le := h.next_le.trans h'.next_le
  old address id hid hlt := h.old address id (h'.old address id hid (hlt.trans_le h.next_le)) hlt
  known address hknown := h'.known address (h.known address hknown)

theorem follows_of_validatorId (hids : ∀ address, db'.validatorId address = db.validatorId address)
    (hnext : db'.nextValidatorId = db.nextValidatorId) : Follows db db' where
  next_le := hnext.ge
  old address _ hid _ := (hids address).symm.trans hid
  known address hknown := by rwa [hids]

theorem validatorId_eq_some_iff {address : String} {id : ℕ} : db.validatorId address = some id ↔
    ∃ v ∈ db.validator.rows, v.operator_address = address ∧ v.id = id := by
  rw [Db.validatorId, Option.map_eq_some_iff]
  constructor
  · rintro ⟨v, hv, rfl⟩
    exact ⟨v, Table.mem_of_get? hv, Table.key_of_get? hv, rfl⟩
  · rintro ⟨v, hv, hkey, rfl⟩
    exact ⟨v, Table.get?_eq_some_iff.mpr ⟨hv, hkey⟩, rfl⟩

theorem validatorId_lt {address : String} {id : ℕ} (h : db.validatorId address = some id) :
    id < db.nextValidatorId := by
  obtain ⟨v, hv, -, rfl⟩ := validatorId_eq_some_iff.mp h
  exact db.validator_id_lt v hv

/-! ## 1. The status -/

/-- The status of a validator. -/
def Db.statusOf (db : Db) (address : String) : Option String :=
  (db.validator.get? address).map (·.status)

theorem statusOf_mapValidators {f : Validator → Validator} {hid hkey}
    (hf : ∀ v, (f v).status = v.status) (address : String) :
    (db.mapValidators f hid hkey).statusOf address = db.statusOf address := by
  show ((db.validator.mapRows f hkey).get? address).map _ = _
  rw [Table.get?_mapRows, Option.map_map]
  exact congrArg (fun g => Option.map g _) (funext hf)

/-! ## 2. Delegations -/

/-- What writes of delegations leave alone. -/
structure SameValidators (db db' : Db) : Prop where
  ids : ∀ address, db'.validatorId address = db.validatorId address
  statuses : ∀ address, db'.statusOf address = db.statusOf address
  next : db'.nextValidatorId = db.nextValidatorId

theorem SameValidators.refl (db : Db) : SameValidators db db := ⟨fun _ => rfl, fun _ => rfl, rfl⟩

theorem SameValidators.trans (h : SameValidators db db₁) (h' : SameValidators db₁ db') :
    SameValidators db db' where
  ids address := (h'.ids address).trans (h.ids address)
  statuses address := (h'.statuses address).trans (h.statuses address)
  next := h'.next.trans h.next

theorem SameValidators.follows (h : SameValidators db db') : Follows db db' :=
  follows_of_validatorId h.ids h.next

theorem sameValidators_insertDelegator {i : ℕ} {d : String} {n : ℤ}
    (h : db.insertDelegator i d n = some db') : SameValidators db db' := by
  rw [Db.insertDelegator] at h
  split at h
  · cases h
    exact ⟨fun _ => rfl, fun _ => rfl, rfl⟩
  · cases h

theorem sameValidators_mapValidators {f : Validator → Validator} {hid hkey}
    (hf : ∀ v, (f v).status = v.status) : SameValidators db (db.mapValidators f hid hkey) :=
  ⟨fun _ => Db.validatorId_mapValidators .., statusOf_mapValidators hf, rfl⟩

theorem sameValidators_commit {ws : List Write} (h : db.commit ws = some db') :
    SameValidators db db' := by
  induction ws generalizing db with
  | nil =>
    rw [commit_nil h]
    exact SameValidators.refl _
  | cons w ws ih =>
    obtain ⟨db₁, hw, h⟩ := commit_cons h
    refine SameValidators.trans ?_ (ih h)
    cases w with
    | insertDelegator i d n => exact sameValidators_insertDelegator hw
    | updateAmount id n =>
      rw [Db.write, Db.updateAmount] at hw
      split at hw
      · cases hw
      · cases hw
        exact ⟨fun _ => rfl, fun _ => rfl, rfl⟩
    | deleteDelegator id =>
      cases hw
      exact ⟨fun _ => rfl, fun _ => rfl, rfl⟩
    | updateCount id c =>
      cases hw
      exact sameValidators_mapValidators fun v => by split <;> rfl

theorem sameValidators_insertDelegators {id : ℕ} {ds : List (String × ℤ)}
    (h : db.insertDelegators id ds = some db') : SameValidators db db' := by
  induction ds generalizing db with
  | nil =>
    cases h
    exact SameValidators.refl _
  | cons d ds ih =>
    rw [Db.insertDelegators, List.foldlM_cons] at h
    obtain ⟨db₁, hins, h⟩ := Option.bind_eq_some_iff.mp h
    exact (sameValidators_insertDelegator hins).trans (ih h)

theorem sameValidators_storeDelegators {job : ValidatorDelegators}
    (h : db.storeDelegators job = some db') : SameValidators db db' := by
  obtain ⟨db₁, hins, rfl⟩ := Option.map_eq_some_iff.mp h
  refine (sameValidators_insertDelegators hins).trans ?_
  exact sameValidators_mapValidators fun v => by split <;> rfl

/-- The steps that are not those of `handleCrawlAllValidator`. -/
def CountLabel.ofDelegations : CountLabel → Bool
  | .readValidators _ | .mergeValidators | .abortValidators => false
  | .readMessage _ | .commitMessage | .abortMessage | .fetchDelegators _ | .storeDelegators
  | .abortDelegators => true

theorem sameValidators_written {s : CountState} {result : Option Db}
    (h : ∀ db, result = some db → SameValidators s.db db) :
    SameValidators s.db (s.written result).db := by
  cases result with
  | none => exact SameValidators.refl s.db
  | some db => exact h db rfl

theorem sameValidators_countStep {s : CountState} {a : CountLabel} (ha : a.ofDelegations = true) :
    SameValidators s.db (countStep s a).db := by
  cases a with
  | readMessage content =>
    rw [countStep]
    split <;> exact SameValidators.refl s.db
  | commitMessage =>
    rw [countStep]
    split
    · exact SameValidators.refl s.db
    · exact sameValidators_written fun db h => sameValidators_commit h
  | abortMessage => exact SameValidators.refl s.db
  | fetchDelegators job =>
    rw [countStep]
    split <;> exact SameValidators.refl s.db
  | storeDelegators =>
    rw [countStep]
    split
    · exact SameValidators.refl s.db
    · exact sameValidators_written fun db h => sameValidators_storeDelegators h
  | abortDelegators => exact SameValidators.refl s.db
  | readValidators validators => cases ha
  | mergeValidators => cases ha
  | abortValidators => cases ha

/-! ## 3. The upsert -/

/-- The id of a row that is written is the one that the validator has, or the next one. -/
theorem mergedId_cases (idColumn : Bool) {e : ValidatorEntity}
    (hids : ∀ i ∈ e.id, db.validatorId e.operator_address = some i) :
    db.validatorId e.operator_address = some (db.mergedId idColumn e) ∨
      db.mergedId idColumn e = db.nextValidatorId := by
  rw [Db.mergedId]
  cases hid : e.id with
  | some i =>
    have hi := hids i hid
    refine Or.inl ?_
    obtain ⟨v, hv, rfl⟩ := Option.map_eq_some_iff.mp hi
    simp only [hv, Option.getD_some, ite_self, hi]
  | none =>
    cases hget : db.validator.get? e.operator_address with
    | none => exact Or.inr rfl
    | some old =>
      cases idColumn with
      | true => exact Or.inr rfl
      | false =>
        refine Or.inl ?_
        rw [Db.validatorId, hget]
        rfl

theorem validatorId_mergeValidator {idColumn : Bool} {e : ValidatorEntity}
    (h : db.mergeValidator idColumn e = some db') (address : String) :
    db'.validatorId address =
      if e.operator_address = address then some (db.mergedId idColumn e)
      else db.validatorId address := by
  rw [Db.validatorId, (mergeValidator_spec h).2.2.1, Table.get?_upsert]
  show Option.map _ (if e.operator_address = address then _ else _) = _
  split
  · rfl
  · rfl

theorem nextValidatorId_mergeValidator {idColumn : Bool} {e : ValidatorEntity}
    (h : db.mergeValidator idColumn e = some db') :
    db'.nextValidatorId = db.sequenceAfter idColumn e := by
  rw [Db.mergeValidator] at h
  split at h
  · cases h
    rfl
  · cases h

theorem follows_mergeValidator {idColumn : Bool} {e : ValidatorEntity}
    (hids : ∀ i ∈ e.id, db.validatorId e.operator_address = some i)
    (h : db.mergeValidator idColumn e = some db') : Follows db db' where
  next_le := by
    rw [nextValidatorId_mergeValidator h, Db.sequenceAfter]
    refine le_trans ?_ (le_max_left _ _)
    split
    · exact Nat.le_succ _
    · exact le_refl _
  old address id hid hlt := by
    rw [validatorId_mergeValidator h] at hid
    split at hid
    case isFalse => exact hid
    case isTrue haddress =>
      cases hid
      rcases mergedId_cases idColumn hids with hold | hnext
      · exact haddress ▸ hold
      · exact absurd hnext hlt.ne
  known address hknown := by
    rw [validatorId_mergeValidator h]
    split
    · rfl
    · exact hknown

/-- The ids that were read are those of the rows that have not been written yet. -/
theorem IdsKnown.rest {idColumn : Bool} {e : ValidatorEntity} {es : List ValidatorEntity}
    (hids : IdsKnown db (e :: es)) (hnd : ((e :: es).map (·.operator_address)).Nodup)
    (h : db.mergeValidator idColumn e = some db₁) : IdsKnown db₁ es := by
  rw [List.map_cons, List.nodup_cons] at hnd
  intro x hx i hi
  have hne : e.operator_address ≠ x.operator_address := by
    intro heq
    rw [heq] at hnd
    exact hnd.1 (List.mem_map_of_mem hx)
  rw [validatorId_mergeValidator h, if_neg hne]
  exact hids x (List.mem_cons_of_mem e hx) i hi

theorem follows_foldlM_merge {idColumn : Bool} {es : List ValidatorEntity}
    (hnd : (es.map (·.operator_address)).Nodup) (hids : IdsKnown db es)
    (h : es.foldlM (Db.mergeValidator idColumn) db = some db') : Follows db db' := by
  induction es generalizing db with
  | nil =>
    cases h
    exact Follows.refl _
  | cons e es ih =>
    rw [List.foldlM_cons] at h
    obtain ⟨db₁, hmerge, h⟩ := Option.bind_eq_some_iff.mp h
    exact (follows_mergeValidator (hids e List.mem_cons_self) hmerge).trans
      (ih (List.nodup_cons.mp hnd).2 (hids.rest hnd hmerge) h)

theorem follows_mergeValidators {es : List ValidatorEntity} (hids : IdsKnown db es)
    (h : db.mergeValidators es = some db') : Follows db db' := by
  rw [Db.mergeValidators] at h
  split at h
  · next hnd => exact follows_foldlM_merge hnd hids h
  · cases h

/-- A validator that is written as a new one, when `id` is a column of the insert. -/
theorem renewed_foldlM_merge {es : List ValidatorEntity}
    (hnd : (es.map (·.operator_address)).Nodup) (hids : IdsKnown db es) {e : ValidatorEntity}
    (he : e ∈ es) (hnew : e.id = none)
    (h : es.foldlM (Db.mergeValidator true) db = some db') :
    ∃ id, db'.validatorId e.operator_address = some id ∧ db.nextValidatorId ≤ id := by
  induction es generalizing db with
  | nil => cases he
  | cons x es ih =>
    rw [List.foldlM_cons] at h
    obtain ⟨db₁, hmerge, hrun⟩ := Option.bind_eq_some_iff.mp h
    have hrest := List.nodup_cons.mp hnd
    rcases List.mem_cons.mp he with rfl | he
    · -- the rows that come after it have other addresses
      have hkeep : ∀ {db : Db} {es : List ValidatorEntity},
          e.operator_address ∉ es.map (·.operator_address) →
          es.foldlM (Db.mergeValidator true) db = some db' →
          db'.validatorId e.operator_address = db.validatorId e.operator_address := by
        intro db es hnot h
        induction es generalizing db with
        | nil =>
          cases h
          rfl
        | cons y es ihy =>
          rw [List.foldlM_cons] at h
          obtain ⟨db₂, hmerge, h⟩ := Option.bind_eq_some_iff.mp h
          rw [List.map_cons, List.mem_cons, not_or] at hnot
          rw [ihy hnot.2 h, validatorId_mergeValidator hmerge, if_neg (Ne.symm hnot.1)]
      refine ⟨db.nextValidatorId, ?_, le_refl _⟩
      rw [hkeep hrest.1 hrun, validatorId_mergeValidator hmerge, if_pos rfl, Db.mergedId, hnew]
      cases db.validator.get? e.operator_address <;> rfl
    · obtain ⟨id, hid, hle⟩ := ih hrest.2 (hids.rest hnd hmerge) he hrun
      exact ⟨id, hid, (follows_mergeValidator (hids x List.mem_cons_self) hmerge).next_le.trans hle⟩

theorem renewed_mergeValidators {es : List ValidatorEntity} (hids : IdsKnown db es)
    (hcol : ∃ e ∈ es, e.id.isSome) {e : ValidatorEntity} (he : e ∈ es) (hnew : e.id = none)
    (h : db.mergeValidators es = some db') :
    ∃ id, db'.validatorId e.operator_address = some id ∧ db.nextValidatorId ≤ id := by
  rw [Db.mergeValidators] at h
  split at h
  · next hnd =>
    rw [List.any_eq_true.mpr hcol] at h
    exact renewed_foldlM_merge hnd hids he hnew h
  · cases h

end Erascope.Staking
