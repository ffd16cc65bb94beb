import Mathlib.Tactic
import Erascope.Lib.Run
import Erascope.Staking.Basic

/-!
# The number of delegators

`validator.delegators_count` is written by three jobs that do not wait for each other.
`CRAWL_DELEGATORS` reads a validator and writes its count plus or minus one.
`handleJobCrawlValidatorDelegators` asks a node for the delegations of a validator and writes
their number. `handleCrawlAllValidator` reads whole rows, asks a node, and writes whole rows
back; a validator that was marked `UNRECOGNIZED` is not among the rows that it reads, so when
it is on chain again it is written as a new one, with the count `0`.

* `countStep`: the three jobs; what a job reads and what it writes are two steps.
* `Current`: what was read still holds for the counts that are written.

Results:
1. `counts_match`: in every run whose writes are current, every `delegators_count` is the
   number of rows.
2. `count_overwritten`: a whole row that was read before a delegation and is written after it.
-/

namespace Erascope.Staking

/-! ## 1. `handleCrawlAllValidator` -/

/-- `Validator.STATUS.UNRECOGNIZED` -/
def unrecognized : String := "UNRECOGNIZED"

/-- A validator as the node lists it. -/
structure OnchainValidator where
  operator_address : String
  status : String
deriving DecidableEq, Repr

/-- `Validator.createNewValidator` -/
def createNewValidator (validator : OnchainValidator) : ValidatorEntity where
  id := none
  operator_address := validator.operator_address
  status := validator.status
  delegators_count := 0
  delegators_last_height := 0

/-- A row that was read, with a new status. -/
def Validator.withStatus (v : Validator) (status : String) : ValidatorEntity where
  id := some v.id
  operator_address := v.operator_address
  status := status
  delegators_count := v.delegators_count
  delegators_last_height := v.delegators_last_height

/-- `getFullInfoValidators`: `validators` is the answer of the node. -/
def getFullInfoValidators (db : Db) (validators : List OnchainValidator) : List ValidatorEntity :=
  let validatorInDB := db.validator.rows.filter fun v => v.status ≠ unrecognized
  let onchain := validators.map fun validator =>
    match validatorInDB.find? fun v => v.operator_address = validator.operator_address with
    | none => createNewValidator validator
    | some foundValidator => foundValidator.withStatus validator.status
  let notOnchain := validatorInDB.filter fun v =>
    validators.all fun validator => validator.operator_address ≠ v.operator_address
  onchain ++ notOnchain.map fun v => v.withStatus unrecognized

/-! ## 2. `handleJobCrawlValidatorDelegators` -/

/-- A job of `CRAWL_VALIDATOR_DELEGATORS` with the delegations that the node answered. -/
structure ValidatorDelegators where
  id : ℕ
  height : ℕ
  delegators : List (String × ℤ)
deriving DecidableEq, Repr

/-- `batchInsert` -/
def Db.insertDelegators (db : Db) (id : ℕ) (delegators : List (String × ℤ)) : Option Db :=
  delegators.foldlM (fun db d => db.insertDelegator id d.1 d.2) db

/-- `patch({ delegators_count, delegators_last_height }).where('id', id)` -/
def Db.patchValidator (db : Db) (id : ℕ) (count : ℤ) (height : ℕ) : Db :=
  db.mapValidators
    (fun v => if v.id = id then
      { v with delegators_count := count, delegators_last_height := height } else v)
    (fun v => by split <;> rfl) (fun v => by split <;> rfl)

/-- The transaction of `handleJobCrawlValidatorDelegators`. -/
def Db.storeDelegators (db : Db) (job : ValidatorDelegators) : Option Db :=
  (db.insertDelegators job.id job.delegators).map fun db =>
    db.patchValidator job.id job.delegators.length job.height

/-! ## 3. The three jobs -/

/-- The tables, and what each job has read and not yet written. -/
structure CountState where
  db : Db
  message : Option (Content × Reads)
  delegators : Option ValidatorDelegators
  validators : Option (List ValidatorEntity)

inductive CountLabel
  /-- `CRAWL_DELEGATORS`: the reads of a message. -/
  | readMessage (content : Content)
  /-- Its database transaction. -/
  | commitMessage
  /-- An error: it is rolled back. -/
  | abortMessage
  /-- `handleJobCrawlValidatorDelegators` has the answer of the node. -/
  | fetchDelegators (job : ValidatorDelegators)
  | storeDelegators
  | abortDelegators
  /-- `handleCrawlAllValidator`: the rows are read. -/
  | readValidators (validators : List OnchainValidator)
  | mergeValidators
  | abortValidators

/-- A write that fails leaves the tables as they are. -/
def CountState.written (s : CountState) (db : Option Db) : CountState := { s with db := db.getD s.db }

def countStep (s : CountState) : CountLabel → CountState
  | .readMessage content =>
    match s.message with
    | some _ => s
    | none => { s with message := some (content, s.db.reads content) }
  | .commitMessage =>
    match s.message with
    | none => s
    | some (content, reads) =>
      { s.written (s.db.commit (writes content reads)) with message := none }
  | .abortMessage => { s with message := none }
  | .fetchDelegators job =>
    match s.delegators with
    | some _ => s
    | none => { s with delegators := some job }
  | .storeDelegators =>
    match s.delegators with
    | none => s
    | some job => { s.written (s.db.storeDelegators job) with delegators := none }
  | .abortDelegators => { s with delegators := none }
  | .readValidators validators =>
    match s.validators with
    | some _ => s
    | none => { s with validators := some (getFullInfoValidators s.db validators) }
  | .mergeValidators =>
    match s.validators with
    | none => s
    | some updateValidators =>
      { s.written (s.db.mergeValidators updateValidators) with validators := none }
  | .abortValidators => { s with validators := none }

/-- No job is running. -/
def CountState.initial (db : Db) : CountState := ⟨db, none, none, none⟩

/-! ## 4. What is to hold, and when it does -/

/-- The number of `delegator` rows of a validator. -/
def Db.rowCount (db : Db) (validator_id : ℕ) : ℕ :=
  db.delegator.rows.countP fun r => r.validator_id = validator_id

/-- Every `delegators_count` is the number of rows. -/
def CountsOk (db : Db) : Prop :=
  ∀ v ∈ db.validator.rows, v.delegators_count = db.rowCount v.id

/-- The count that was read is still the count of the validator. -/
def CountIs (db : Db) (r : Read) : Prop :=
  ∀ v ∈ db.validator.rows, v.id = r.validator.id →
    v.delegators_count = r.validator.delegators_count

/-- The row that is to be inserted is there by now: the insert fails. -/
def Conflicts (db : Db) (r : Read) (d : String) : Prop :=
  r.delegator = none ∧ (db.delegator.get? (r.validator.id, d)).isSome

/-- Adding an amount writes a count only with a new row. -/
def AddCurrent (db : Db) (r : Read) : Prop := r.delegator = none → CountIs db r

/-- Taking an amount writes a count only when nothing remains. -/
def RemoveCurrent (db : Db) (r : Read) (amount : ℤ) : Prop :=
  ∀ x ∈ r.delegator, x.amount - amount ≤ 0 → CountIs db r

/-- The counts that the message writes are current, or its insert fails. -/
def MessageCurrent (db : Db) (content : Content) (reads : Reads) : Prop :=
  match content with
  | .delegate d _ _ => ∀ r ∈ reads.dst, Conflicts db r d ∨ AddCurrent db r
  | .cancelUndelegate d _ _ => ∀ r ∈ reads.dst, Conflicts db r d ∨ AddCurrent db r
  | .undelegate _ _ amount => ∀ r ∈ reads.src, RemoveCurrent db r amount
  | .redelegate d _ _ amount => ∀ src ∈ reads.src, ∀ dst ∈ reads.dst,
      Conflicts db dst d ∨ (RemoveCurrent db src amount ∧ AddCurrent db dst)
  | .exec _ => True
  | .other => True

/-- The validator has no rows yet, or one of the new rows is there already and the insert
fails. -/
def DelegatorsCurrent (db : Db) (job : ValidatorDelegators) : Prop :=
  db.rowCount job.id = 0 ∨ ∃ d ∈ job.delegators, (db.delegator.get? (job.id, d.1)).isSome

/-- A validator that is written as a new one has a row with delegators, and some other row is
written with its id: the upsert would change the id of a row that is referenced, and fails. -/
def MergeRefused (db : Db) (updateValidators : List ValidatorEntity) : Prop :=
  (∃ e ∈ updateValidators, e.id.isSome) ∧ ∃ e ∈ updateValidators, e.id = none ∧
    ∃ v ∈ db.validator.rows, v.operator_address = e.operator_address ∧ db.rowCount v.id ≠ 0

/-- The counts of the rows that were read are the counts of the table, and no validator that
is written as a new one has delegators. -/
def Fresh (db : Db) (updateValidators : List ValidatorEntity) : Prop :=
  ∀ e ∈ updateValidators, ∀ v ∈ db.validator.rows, v.operator_address = e.operator_address →
    (e.id.isSome → v.delegators_count = e.delegators_count) ∧ (e.id = none → db.rowCount v.id = 0)

/-- The upsert fails, or the counts that it writes are current. -/
def ValidatorsCurrent (db : Db) (updateValidators : List ValidatorEntity) : Prop :=
  MergeRefused db updateValidators ∨ Fresh db updateValidators

/-- The condition of a step. -/
def Current (s : CountState) : CountLabel → Prop
  | .commitMessage => ∀ m ∈ s.message, MessageCurrent s.db m.1 m.2
  | .storeDelegators => ∀ job ∈ s.delegators, DelegatorsCurrent s.db job
  | .mergeValidators => ∀ vs ∈ s.validators, ValidatorsCurrent s.db vs
  | _ => True

section
variable (db : Db)

instance : Decidable (CountsOk db) :=
  inferInstanceAs (Decidable (∀ v ∈ db.validator.rows, v.delegators_count = db.rowCount v.id))

instance (r : Read) : Decidable (CountIs db r) :=
  inferInstanceAs (Decidable (∀ v ∈ db.validator.rows, v.id = r.validator.id →
    v.delegators_count = r.validator.delegators_count))

instance (r : Read) (d : String) : Decidable (Conflicts db r d) :=
  inferInstanceAs (Decidable (_ ∧ _))

instance (r : Read) : Decidable (AddCurrent db r) := inferInstanceAs (Decidable (_ → _))

instance (r : Read) (amount : ℤ) : Decidable (RemoveCurrent db r amount) :=
  inferInstanceAs (Decidable (∀ x ∈ r.delegator, x.amount - amount ≤ 0 → CountIs db r))

instance (reads : Reads) : (content : Content) → Decidable (MessageCurrent db content reads)
  | .delegate d _ _ =>
    inferInstanceAs (Decidable (∀ r ∈ reads.dst, Conflicts db r d ∨ AddCurrent db r))
  | .cancelUndelegate d _ _ =>
    inferInstanceAs (Decidable (∀ r ∈ reads.dst, Conflicts db r d ∨ AddCurrent db r))
  | .undelegate _ _ amount =>
    inferInstanceAs (Decidable (∀ r ∈ reads.src, RemoveCurrent db r amount))
  | .redelegate d _ _ amount =>
    inferInstanceAs (Decidable (∀ src ∈ reads.src, ∀ dst ∈ reads.dst,
      Conflicts db dst d ∨ (RemoveCurrent db src amount ∧ AddCurrent db dst)))
  | .exec _ => inferInstanceAs (Decidable True)
  | .other => inferInstanceAs (Decidable True)

instance (job : ValidatorDelegators) : Decidable (DelegatorsCurrent db job) :=
  inferInstanceAs (Decidable (db.rowCount job.id = 0 ∨
    ∃ d ∈ job.delegators, (db.delegator.get? (job.id, d.1)).isSome))

instance (es : List ValidatorEntity) : Decidable (MergeRefused db es) :=
  inferInstanceAs (Decidable ((∃ e ∈ es, e.id.isSome) ∧ ∃ e ∈ es, e.id = none ∧
    ∃ v ∈ db.validator.rows, v.operator_address = e.operator_address ∧ db.rowCount v.id ≠ 0))

instance (es : List ValidatorEntity) : Decidable (Fresh db es) :=
  inferInstanceAs (Decidable (∀ e ∈ es, ∀ v ∈ db.validator.rows,
    v.operator_address = e.operator_address →
      (e.id.isSome → v.delegators_count = e.delegators_count) ∧
      (e.id = none → db.rowCount v.id = 0)))

instance (es : List ValidatorEntity) : Decidable (ValidatorsCurrent db es) :=
  inferInstanceAs (Decidable (MergeRefused db es ∨ Fresh db es))

end

instance (s : CountState) : (a : CountLabel) → Decidable (Current s a)
  | .commitMessage => inferInstanceAs (Decidable (∀ m ∈ s.message, MessageCurrent s.db m.1 m.2))
  | .storeDelegators =>
    inferInstanceAs (Decidable (∀ job ∈ s.delegators, DelegatorsCurrent s.db job))
  | .mergeValidators =>
    inferInstanceAs (Decidable (∀ vs ∈ s.validators, ValidatorsCurrent s.db vs))
  | .readMessage _ | .abortMessage | .fetchDelegators _ | .abortDelegators | .readValidators _
  | .abortValidators => inferInstanceAs (Decidable True)

/-! ## 5. Counts after a write -/

section
variable {db db' : Db}

theorem rowCount_insertDelegator {i : ℕ} {d : String} {n : ℤ}
    (h : db.insertDelegator i d n = some db') (j : ℕ) :
    db'.rowCount j = db.rowCount j + if i = j then 1 else 0 := by
  obtain ⟨hnew, -, hdel⟩ := Db.insertDelegator_spec h
  rw [Db.rowCount, hdel, Table.rows_upsert_new hnew, List.countP_append, Db.rowCount]
  simp [List.countP_cons]

theorem rowCount_updateAmount {id : ℕ} {n : ℤ} (h : db.updateAmount id n = some db') (j : ℕ) :
    db'.rowCount j = db.rowCount j := by
  rw [Db.rowCount, (Db.updateAmount_spec h).2, Table.mapRows, List.countP_map, Db.rowCount]
  congr 1
  funext r
  simp

theorem rowCount_deleteDelegator {y : Delegator} (hy : y ∈ db.delegator.rows) (j : ℕ) :
    (db.deleteDelegator y.id).rowCount j + (if y.validator_id = j then 1 else 0) =
      db.rowCount j := by
  have hsplit := List.countP_eq_countP_filter_add db.delegator.rows
    (fun r => decide (r.validator_id = j)) (fun r => decide (r.id ≠ y.id))
  have hone : db.delegator.rows.filter (fun r => !decide (r.id ≠ y.id)) = [y] := by
    have : db.delegator.rows.filter (fun r => r.id = y.id) = [y] := filter_key_eq db.delegator_ids hy
    simpa using this
  rw [hone] at hsplit
  simp only [List.countP_cons, List.countP_nil, decide_eq_true_eq, zero_add] at hsplit
  exact hsplit.symm

/-- New values in the rows of `validator`. -/
theorem counts_mapValidators {f : Validator → Validator} {hid hkey}
    (h : ∀ v ∈ db.validator.rows, (f v).delegators_count = db.rowCount v.id) :
    CountsOk (db.mapValidators f hid hkey) := by
  intro w hw
  obtain ⟨v, hv, rfl⟩ := List.mem_map.mp hw
  rw [hid]
  exact h v hv

theorem counts_updateCount {i : ℕ} {c : ℤ}
    (hother : ∀ v ∈ db.validator.rows, v.id ≠ i → v.delegators_count = db.rowCount v.id)
    (hself : ∀ v ∈ db.validator.rows, v.id = i → c = db.rowCount i) :
    CountsOk (db.updateCount i c) := by
  refine counts_mapValidators fun v hv => ?_
  by_cases hi : v.id = i
  · rw [if_pos hi, hi]
    exact hself v hv hi
  · rw [if_neg hi]
    exact hother v hv hi

theorem counts_updateAmount {id : ℕ} {n : ℤ} (hok : CountsOk db)
    (h : db.updateAmount id n = some db') : CountsOk db' := by
  intro v hv
  rw [(Db.updateAmount_spec h).1] at hv
  rw [rowCount_updateAmount h]
  exact hok v hv

/-- What a commit of one write, and of two, leaves. -/
theorem commit_cons {w : Write} {ws : List Write} (h : db.commit (w :: ws) = some db') :
    ∃ db₁, db.write w = some db₁ ∧ db₁.commit ws = some db' := by
  rw [Db.commit, List.foldlM_cons] at h
  exact Option.bind_eq_some_iff.mp h

theorem commit_nil (h : db.commit [] = some db') : db' = db := by
  simpa [Db.commit] using h.symm

theorem counts_addAmount {r : Read} {d : String} {n : ℤ} (hok : CountsOk db)
    (hcur : AddCurrent db r) (h : db.commit (addAmount r d n) = some db') : CountsOk db' := by
  unfold addAmount at h
  cases hr : r.delegator with
  | none =>
    rw [hr] at h
    obtain ⟨db₁, hins, h⟩ := commit_cons h
    obtain ⟨db₂, hcount, h⟩ := commit_cons h
    obtain rfl := commit_nil h
    cases hcount
    have hrows := rowCount_insertDelegator hins
    have hval : db₁.validator = db.validator := (Db.insertDelegator_spec hins).2.1
    refine counts_updateCount (fun v hv hne => ?_) fun v hv hid => ?_
    · rw [hval] at hv
      rw [hrows, if_neg (Ne.symm hne), hok v hv, Nat.add_zero]
    · rw [hval] at hv
      rw [hrows, if_pos rfl, ← hcur hr v hv hid, hok v hv, hid]
      push_cast
      rfl
  | some x =>
    rw [hr] at h
    obtain ⟨db₁, hup, h⟩ := commit_cons h
    obtain rfl := commit_nil h
    exact counts_updateAmount hok hup

/-- What taking an amount away leaves: no row to take from, a smaller amount, or no row. -/
theorem removeAmount_cases {r : Read} {n : ℤ} (h : db.commit (removeAmount r n) = some db') :
    (r.delegator = none ∧ db' = db) ∨
      ∃ x, r.delegator = some x ∧ (db.updateAmount x.id (x.amount - n) = some db' ∨
        (x.amount - n ≤ 0 ∧ db' = (db.deleteDelegator x.id).updateCount r.validator.id
          (r.validator.delegators_count - 1))) := by
  unfold removeAmount at h
  cases hr : r.delegator with
  | none =>
    rw [hr] at h
    exact .inl ⟨rfl, commit_nil h⟩
  | some x =>
    rw [hr] at h
    refine .inr ⟨x, rfl, ?_⟩
    rcases lt_or_ge 0 (x.amount - n) with hpos | hle
    · simp only [gt_iff_lt, hpos, if_true] at h
      obtain ⟨db₁, hup, h⟩ := commit_cons h
      obtain rfl := commit_nil h
      exact .inl hup
    · simp only [gt_iff_lt, not_lt.mpr hle, if_false] at h
      obtain ⟨db₁, hdel, h⟩ := commit_cons h
      obtain ⟨db₂, hcount, h⟩ := commit_cons h
      obtain rfl := commit_nil h
      cases hdel
      cases hcount
      exact .inr ⟨hle, rfl⟩

theorem counts_removeAmount {r : Read} {n : ℤ} (hok : CountsOk db)
    (hcur : RemoveCurrent db r n)
    (hrow : ∀ x ∈ r.delegator, ∃ y ∈ db.delegator.rows,
      y.id = x.id ∧ y.validator_id = r.validator.id)
    (h : db.commit (removeAmount r n) = some db') : CountsOk db' := by
  obtain ⟨-, rfl⟩ | ⟨x, hr, hup | ⟨hle, rfl⟩⟩ := removeAmount_cases h
  · exact hok
  · exact counts_updateAmount hok hup
  · obtain ⟨y, hy, hyid, hyval⟩ := hrow x hr
    rw [← hyid]
    have hrows := rowCount_deleteDelegator hy
    have hcount := hcur x hr hle
    refine counts_updateCount (fun v hv hne => ?_) fun v hv hid => ?_
    · have hrow := hrows v.id
      rw [hyval, if_neg (Ne.symm hne), Nat.add_zero] at hrow
      rw [hrow]
      exact hok v hv
    · have hrow := hrows r.validator.id
      have hread := hcount v hv hid
      have hvok := hok v hv
      rw [hyval, if_pos rfl] at hrow
      rw [hid] at hvok
      omega

/-! ## 6. A message -/

/-- What holds of the reads of a message until it is committed: only this job deletes rows, and
the two reads of a redelegation are taken together. -/
structure ReadsOk (db : Db) (reads : Reads) : Prop where
  src : ∀ r ∈ reads.src, ∀ x ∈ r.delegator, ∃ y ∈ db.delegator.rows,
    y.id = x.id ∧ y.validator_id = r.validator.id
  same : ∀ src ∈ reads.src, ∀ dst ∈ reads.dst, src.validator.id = dst.validator.id →
    src.delegator = dst.delegator

/-- An insert of a row that is there. -/
theorem addAmount_conflict {r : Read} {d : String} {n : ℤ} (h : Conflicts db r d) :
    db.commit (addAmount r d n) = none := by
  obtain ⟨hnone, hsome⟩ := h
  have hins : db.insertDelegator r.validator.id d n = none := by
    refine dif_neg fun hc => ?_
    rw [hc.2.1] at hsome
    cases hsome
  simp [addAmount, hnone, Db.commit, Db.write, hins]

/-- Taking an amount touches one validator. -/
theorem removeAmount_frame {r : Read} {n : ℤ}
    (hrow : ∀ x ∈ r.delegator, ∃ y ∈ db.delegator.rows,
      y.id = x.id ∧ y.validator_id = r.validator.id)
    (h : db.commit (removeAmount r n) = some db') :
    (∀ v ∈ db'.validator.rows, v.id ≠ r.validator.id → v ∈ db.validator.rows) ∧
      ∀ k : ℕ × String, k.1 ≠ r.validator.id → (db.delegator.get? k).isSome →
        (db'.delegator.get? k).isSome := by
  obtain ⟨-, rfl⟩ | ⟨x, hr, hup | ⟨-, rfl⟩⟩ := removeAmount_cases h
  · exact ⟨fun v hv _ => hv, fun k _ hk => hk⟩
  · obtain ⟨hval, hdel⟩ := Db.updateAmount_spec hup
    refine ⟨fun v hv _ => hval ▸ hv, fun k _ hk => ?_⟩
    rw [hdel, Table.get?_mapRows, Option.isSome_map]
    exact hk
  · obtain ⟨y, hy, hyid, hyval⟩ := hrow x hr
    refine ⟨fun v hv hne => ?_, fun k hne hk => ?_⟩
    · obtain ⟨w, hw, rfl⟩ := List.mem_map.mp hv
      by_cases hid : w.id = r.validator.id
      · rw [if_pos hid] at hne
        exact absurd hid hne
      · rw [if_neg hid]
        exact hw
    · obtain ⟨z, hz⟩ := Option.isSome_iff_exists.mp hk
      have hkey : z.validator_id = k.1 := congrArg Prod.fst (Table.key_of_get? hz)
      have hzid : z.id ≠ x.id := by
        intro hzx
        obtain rfl := Db.delegator_eq_of_id_eq (Table.mem_of_get? hz) hy (hzx.trans hyid.symm)
        exact hne (hkey.symm.trans hyval)
      rw [Db.delegator_updateCount, Db.deleteDelegator, Table.get?_filter, hz]
      simp [Option.filter, hzid]

theorem counts_delegate {reads : Option Read} (hok : CountsOk db) {d : String} {n : ℤ}
    (hcur : ∀ r ∈ reads, Conflicts db r d ∨ AddCurrent db r)
    (h : db.commit (handleDelegateTxMsg reads d n) = some db') : CountsOk db' := by
  cases reads with
  | none =>
    obtain rfl := commit_nil h
    exact hok
  | some r =>
    rw [handleDelegateTxMsg] at h
    rcases hcur r rfl with hconf | hcur
    · rw [addAmount_conflict hconf] at h
      cases h
    · exact counts_addAmount hok hcur h

/-- A redelegation between two validators that were read. -/
theorem counts_redelegate {src dst : Read} {d : String} {n : ℤ} (hok : CountsOk db)
    (hsrc : ∀ x ∈ src.delegator, ∃ y ∈ db.delegator.rows,
      y.id = x.id ∧ y.validator_id = src.validator.id)
    (hsame : src.validator.id = dst.validator.id → src.delegator = dst.delegator)
    (hcur : Conflicts db dst d ∨ RemoveCurrent db src n ∧ AddCurrent db dst)
    (h : db.commit (removeAmount src n ++ addAmount dst d n) = some db') : CountsOk db' := by
  rw [Db.commit, List.foldlM_append] at h
  obtain ⟨db₁, hremove, hadd⟩ := Option.bind_eq_some_iff.mp h
  obtain ⟨hval, hget⟩ := removeAmount_frame hsrc hremove
  -- with one validator only, a read without a row is a read without a row on both sides
  have hunchanged : src.validator.id = dst.validator.id → dst.delegator = none → db₁ = db := by
    intro hid hnone
    rw [removeAmount, (hsame hid).trans hnone] at hremove
    exact commit_nil hremove
  rcases hcur with ⟨hnone, hsome⟩ | ⟨hrem, hcur⟩
  · have hconf : Conflicts db₁ dst d := by
      refine ⟨hnone, ?_⟩
      by_cases hid : src.validator.id = dst.validator.id
      · rw [hunchanged hid hnone]
        exact hsome
      · exact hget _ (Ne.symm hid) hsome
    have hfail := addAmount_conflict (n := n) hconf
    rw [Db.commit] at hfail
    rw [hfail] at hadd
    cases hadd
  · have hok₁ := counts_removeAmount hok hrem hsrc hremove
    refine counts_addAmount hok₁ (fun hnone => ?_) hadd
    by_cases hid : src.validator.id = dst.validator.id
    · rw [hunchanged hid hnone]
      exact hcur hnone
    · intro w hw hwid
      exact hcur hnone w (hval w hw (fun h => hid (h.symm.trans hwid))) hwid

/-- The commit of a message whose counts are current. -/
theorem counts_commit {content : Content} {reads : Reads} (hok : CountsOk db)
    (hreads : ReadsOk db reads) (hcur : MessageCurrent db content reads)
    (h : db.commit (writes content reads) = some db') : CountsOk db' := by
  cases content with
  | delegate d v n => exact counts_delegate hok hcur h
  | cancelUndelegate d v n => exact counts_delegate hok hcur h
  | undelegate d v n =>
    cases hr : reads.src with
    | none =>
      rw [writes, hr] at h
      obtain rfl := commit_nil h
      exact hok
    | some r =>
      rw [writes, hr, handleUnDelegateTxMsg] at h
      exact counts_removeAmount hok (hcur r hr) (hreads.src r hr) h
  | redelegate d v v' n =>
    cases hs : reads.src with
    | none =>
      rw [writes, hs, handleReDelegateTxMsg] at h
      · obtain rfl := commit_nil h
        exact hok
      · rintro _ _ ⟨⟩
    | some src =>
      cases hd : reads.dst with
      | none =>
        rw [writes, hs, hd, handleReDelegateTxMsg] at h
        · obtain rfl := commit_nil h
          exact hok
        · rintro _ _ _ ⟨⟩
      | some dst =>
        rw [writes, hs, hd, handleReDelegateTxMsg] at h
        exact counts_redelegate hok (hreads.src src hs) (hreads.same src hs dst hd)
          (hcur src hs dst hd) h
  | exec msgs =>
    obtain rfl := commit_nil h
    exact hok
  | other =>
    obtain rfl := commit_nil h
    exact hok

theorem validatorId_commit {ws : List Write} (h : db.commit ws = some db') (v : String) :
    db'.validatorId v = db.validatorId v := by
  induction ws generalizing db with
  | nil => rw [commit_nil h]
  | cons w ws ih =>
    obtain ⟨db₁, hw, h⟩ := commit_cons h
    rw [ih h]
    cases w with
    | insertDelegator i d n =>
      rw [Db.validatorId, (Db.insertDelegator_spec hw).2.1, Db.validatorId]
    | updateAmount id n => rw [Db.validatorId, (Db.updateAmount_spec hw).1, Db.validatorId]
    | deleteDelegator id =>
      cases hw
      rfl
    | updateCount id c =>
      cases hw
      exact Db.validatorId_updateCount ..

theorem readsOk_reads (db : Db) (content : Content) : ReadsOk db (db.reads content) := by
  have hread : ∀ {v d r}, db.read v d = some r → ∀ x ∈ r.delegator, ∃ y ∈ db.delegator.rows,
      y.id = x.id ∧ y.validator_id = r.validator.id := by
    intro v d r hr x hx
    have hget := (Db.holds_of_read hr).1.delegator.trans hx
    exact ⟨x, Table.mem_of_get? hget, rfl, congrArg Prod.fst (Table.key_of_get? hget)⟩
  have hnone : ∀ reads : Reads, reads.src = none → ReadsOk db reads := fun reads h =>
    ⟨by simp [h], by simp [h]⟩
  cases content with
  | redelegate d src dst n =>
    refine ⟨fun r hr => hread hr, fun r hr r' hr' hid => ?_⟩
    rw [← (Db.holds_of_read hr).1.delegator, ← (Db.holds_of_read hr').1.delegator, hid]
  | undelegate d v n =>
    refine ⟨fun r hr => hread hr, ?_⟩
    rintro r _ r' ⟨⟩
  | delegate d v n => exact hnone _ rfl
  | cancelUndelegate d v n => exact hnone _ rfl
  | exec msgs => exact hnone _ rfl
  | other => exact hnone _ rfl

/-! ## 7. The delegations of a validator -/

theorem insertDelegators_spec {id : ℕ} {ds : List (String × ℤ)}
    (h : db.insertDelegators id ds = some db') :
    db'.validator = db.validator ∧
      (∀ j, db'.rowCount j = db.rowCount j + if id = j then ds.length else 0) ∧
      (∀ d ∈ ds, db.delegator.get? (id, d.1) = none) ∧
      ∀ y ∈ db.delegator.rows, y ∈ db'.delegator.rows := by
  induction ds generalizing db with
  | nil =>
    have hdb : db = db' := by simpa [Db.insertDelegators] using h
    subst hdb
    exact ⟨rfl, fun j => by simp, by simp, fun y hy => hy⟩
  | cons d ds ih =>
    rw [Db.insertDelegators, List.foldlM_cons] at h
    obtain ⟨db₁, hins, h⟩ := Option.bind_eq_some_iff.mp h
    obtain ⟨hval, hrows, hnew, hkeep⟩ := ih h
    obtain ⟨hfree, hval₁, hdel⟩ := Db.insertDelegator_spec hins
    have hget := Db.get?_insertDelegator hins
    refine ⟨hval.trans hval₁, fun j => ?_, fun x hx => ?_, fun y hy => hkeep y ?_⟩
    · rw [hrows, rowCount_insertDelegator hins, List.length_cons]
      split <;> omega
    · rcases List.mem_cons.mp hx with rfl | hx
      · exact hfree
      · have hnone := hnew x hx
        rw [hget] at hnone
        by_cases hkey : (id, d.1) = (id, x.1)
        · rw [if_pos hkey] at hnone
          cases hnone
        · rwa [if_neg hkey] at hnone
    · rw [hdel, Table.rows_upsert_new hfree]
      exact List.mem_append_left _ hy

theorem counts_storeDelegators {job : ValidatorDelegators} (hok : CountsOk db)
    (hcur : DelegatorsCurrent db job) (h : db.storeDelegators job = some db') : CountsOk db' := by
  obtain ⟨db₁, hins, rfl⟩ := Option.map_eq_some_iff.mp h
  obtain ⟨hval, hrows, hnew, -⟩ := insertDelegators_spec hins
  have hzero : db.rowCount job.id = 0 := by
    rcases hcur with hzero | ⟨d, hd, hsome⟩
    · exact hzero
    · rw [hnew d hd] at hsome
      cases hsome
  refine counts_mapValidators fun v hv => ?_
  rw [hval] at hv
  by_cases hid : v.id = job.id
  · rw [if_pos hid, hrows, hid, if_pos rfl, hzero, Nat.zero_add]
  · rw [if_neg hid, hrows, if_neg (Ne.symm hid), Nat.add_zero]
    exact hok v hv

/-! ## 8. The upsert of the validators -/

/-- The rows that were read still have their ids. -/
def IdsKnown (db : Db) (es : List ValidatorEntity) : Prop :=
  ∀ e ∈ es, ∀ i ∈ e.id, db.validatorId e.operator_address = some i

theorem mergeValidator_spec {idColumn : Bool} {e : ValidatorEntity}
    (h : db.mergeValidator idColumn e = some db') :
    db.PrimaryKeyOk idColumn e ∧ db.ForeignKeyOk idColumn e ∧
      db'.validator = db.validator.upsert (db.mergedRow idColumn e) ∧
      db'.delegator = db.delegator := by
  rw [Db.mergeValidator] at h
  split at h
  · next hc =>
    cases h
    exact ⟨hc.1, hc.2, rfl, rfl⟩
  · cases h

/-- Rows of other validators stay. -/
theorem mem_mergeValidator {idColumn : Bool} {e : ValidatorEntity}
    (h : db.mergeValidator idColumn e = some db') {v : Validator}
    (hne : v.operator_address ≠ e.operator_address) :
    v ∈ db'.validator.rows ↔ v ∈ db.validator.rows := by
  rw [(mergeValidator_spec h).2.2.1, Table.mem_rows_upsert]
  constructor
  · rintro (rfl | ⟨hv, _⟩)
    · exact absurd rfl hne
    · exact hv
  · exact fun hv => Or.inr ⟨hv, hne⟩

theorem rowCount_mergeValidator {idColumn : Bool} {e : ValidatorEntity}
    (h : db.mergeValidator idColumn e = some db') (j : ℕ) : db'.rowCount j = db.rowCount j := by
  rw [Db.rowCount, (mergeValidator_spec h).2.2.2, Db.rowCount]

theorem rowCount_pos_iff {i : ℕ} :
    db.rowCount i ≠ 0 ↔ ∃ r ∈ db.delegator.rows, r.validator_id = i := by
  rw [← Nat.pos_iff_ne_zero, Db.rowCount, List.countP_pos_iff]
  simp

/-- An id of no other row, and of no row before, has no delegators. -/
theorem rowCount_eq_zero {i : ℕ} (h : ∀ v ∈ db.validator.rows, v.id ≠ i) : db.rowCount i = 0 := by
  by_contra hne
  obtain ⟨r, hr, rfl⟩ := rowCount_pos_iff.mp hne
  obtain ⟨v, hv, hid⟩ := db.foreign r hr
  exact h v hv hid

/-- One row of the upsert. -/
theorem counts_mergeValidator {idColumn : Bool} {e : ValidatorEntity} (hok : CountsOk db)
    (hcol : e.id.isSome → idColumn = true) (hnew : e.id = none → e.delegators_count = 0)
    (hids : IdsKnown db [e]) (hfresh : Fresh db [e])
    (h : db.mergeValidator idColumn e = some db') : CountsOk db' := by
  obtain ⟨hpk, -, hval, -⟩ := mergeValidator_spec h
  intro w hw
  rw [rowCount_mergeValidator h]
  rw [hval, Table.mem_rows_upsert] at hw
  rcases hw with rfl | ⟨hw, _⟩
  · show e.delegators_count = db.rowCount (db.mergedId idColumn e)
    cases hid : e.id with
    | some i =>
      have hknown := hids e List.mem_cons_self i hid
      obtain ⟨v, hv, rfl⟩ := Option.map_eq_some_iff.mp hknown
      have hkey := Table.key_of_get? hv
      have hmem := Table.mem_of_get? hv
      have hcount := (hfresh e List.mem_cons_self v hmem hkey).1 (by simp [hid])
      have hmerged : db.mergedId idColumn e = v.id := by
        simp [Db.mergedId, hv, hcol (by simp [hid]), hid]
      rw [hmerged, ← hcount]
      exact hok v hmem
    | none =>
      rw [hnew hid]
      suffices hzero : db.rowCount (db.mergedId idColumn e) = 0 by
        rw [hzero]
        rfl
      by_cases hsame : ∃ v ∈ db.validator.rows, v.id = db.mergedId idColumn e
      · obtain ⟨v, hv, hvid⟩ := hsame
        have hkey : v.operator_address = e.operator_address := by
          by_contra hne
          exact hpk v hv hne hvid
        rw [← hvid]
        exact (hfresh e List.mem_cons_self v hv hkey).2 hid
      · exact rowCount_eq_zero fun v hv hvid => hsame ⟨v, hv, hvid⟩
  · exact hok w hw

theorem counts_foldlM_merge {idColumn : Bool} {es : List ValidatorEntity} (hok : CountsOk db)
    (hnd : (es.map (·.operator_address)).Nodup) (hcol : ∀ e ∈ es, e.id.isSome → idColumn = true)
    (hnew : ∀ e ∈ es, e.id = none → e.delegators_count = 0) (hids : IdsKnown db es)
    (hfresh : Fresh db es) (h : es.foldlM (Db.mergeValidator idColumn) db = some db') :
    CountsOk db' := by
  induction es generalizing db with
  | nil =>
    have hdb : db = db' := by simpa using h
    exact hdb ▸ hok
  | cons e es ih =>
    rw [List.foldlM_cons] at h
    obtain ⟨db₁, hmerge, h⟩ := Option.bind_eq_some_iff.mp h
    rw [List.map_cons, List.nodup_cons] at hnd
    have hne : ∀ x ∈ es, ∀ v : Validator, v.operator_address = x.operator_address →
        v.operator_address ≠ e.operator_address := by
      intro x hx v hv heq
      exact hnd.1 (heq ▸ hv ▸ List.mem_map_of_mem hx)
    have hone := List.mem_cons_self (a := e) (l := es)
    refine ih ?_ hnd.2 (fun x hx => hcol x (List.mem_cons_of_mem e hx))
      (fun x hx => hnew x (List.mem_cons_of_mem e hx)) ?_ ?_ h
    · refine counts_mergeValidator hok (hcol e hone) (hnew e hone) ?_ ?_ hmerge
      · exact fun x hx => hids x (List.mem_singleton.mp hx ▸ hone)
      · exact fun x hx => hfresh x (List.mem_singleton.mp hx ▸ hone)
    · intro x hx i hi
      obtain ⟨v, hv, hvi⟩ :=
        Option.map_eq_some_iff.mp (hids x (List.mem_cons_of_mem e hx) i hi)
      have hkey := Table.key_of_get? hv
      have hmem := (mem_mergeValidator hmerge (hne x hx v hkey)).mpr (Table.mem_of_get? hv)
      rw [Db.validatorId, Table.get?_eq_some_iff.mpr ⟨hmem, hkey⟩, Option.map_some, hvi]
    · intro x hx v hv hkey
      rw [mem_mergeValidator hmerge (hne x hx v hkey)] at hv
      rw [rowCount_mergeValidator hmerge]
      exact hfresh x (List.mem_cons_of_mem e hx) v hv hkey

/-- The id of a row with delegators cannot be replaced by a new one. -/
theorem mergeValidator_refused {e : ValidatorEntity} {v : Validator}
    (hid : e.id = none) (hv : v ∈ db.validator.rows)
    (hkey : v.operator_address = e.operator_address) (hrows : db.rowCount v.id ≠ 0) :
    db.mergeValidator true e = none := by
  refine dif_neg fun hc => ?_
  obtain ⟨r, hr, hrid⟩ := rowCount_pos_iff.mp hrows
  have hget : db.validator.get? e.operator_address = some v :=
    Table.get?_eq_some_iff.mpr ⟨hv, hkey⟩
  have hmerged : db.mergedId true e = db.nextValidatorId := by simp [Db.mergedId, hget, hid]
  have hlt := db.validator_id_lt v hv
  exact hc.2 v hv hkey (by omega) r hr hrid

theorem foldlM_merge_refused {es : List ValidatorEntity} {e : ValidatorEntity} {v : Validator}
    (hnd : (es.map (·.operator_address)).Nodup) (he : e ∈ es) (hid : e.id = none)
    (hv : v ∈ db.validator.rows) (hkey : v.operator_address = e.operator_address)
    (hrows : db.rowCount v.id ≠ 0) : es.foldlM (Db.mergeValidator true) db = none := by
  induction es generalizing db with
  | nil => cases he
  | cons x es ih =>
    rw [List.map_cons, List.nodup_cons] at hnd
    rw [List.foldlM_cons]
    rcases List.mem_cons.mp he with rfl | he
    · rw [mergeValidator_refused hid hv hkey hrows]
      rfl
    · cases hmerge : db.mergeValidator true x with
      | none => rfl
      | some db₁ =>
        have hne : v.operator_address ≠ x.operator_address := fun heq =>
          hnd.1 (heq ▸ hkey ▸ List.mem_map_of_mem he)
        exact ih hnd.2 he ((mem_mergeValidator hmerge hne).mpr hv)
          ((rowCount_mergeValidator hmerge v.id).symm ▸ hrows)

/-- The upsert of rows whose counts are current. -/
theorem counts_mergeValidators {es : List ValidatorEntity} (hok : CountsOk db)
    (hnew : ∀ e ∈ es, e.id = none → e.delegators_count = 0) (hids : IdsKnown db es)
    (hcur : ValidatorsCurrent db es) (h : db.mergeValidators es = some db') : CountsOk db' := by
  rw [Db.mergeValidators] at h
  split at h
  · next hnd =>
    rcases hcur with ⟨⟨e', he', hsome⟩, e, he, hid, v, hv, hkey, hrows⟩ | hfresh
    · have hcol : (es.any fun e => e.id.isSome) = true := List.any_eq_true.mpr ⟨e', he', hsome⟩
      rw [hcol, foldlM_merge_refused hnd he hid hv hkey hrows] at h
      cases h
    · refine counts_foldlM_merge hok hnd (fun e he hsome => ?_) hnew hids hfresh h
      exact List.any_eq_true.mpr ⟨e, he, hsome⟩
  · cases h

theorem delegator_foldlM_merge {idColumn : Bool} {es : List ValidatorEntity}
    (h : es.foldlM (Db.mergeValidator idColumn) db = some db') : db'.delegator = db.delegator := by
  induction es generalizing db with
  | nil =>
    have hdb : db = db' := by simpa using h
    rw [hdb]
  | cons e es ih =>
    rw [List.foldlM_cons] at h
    obtain ⟨db₁, hmerge, h⟩ := Option.bind_eq_some_iff.mp h
    rw [ih h, (mergeValidator_spec hmerge).2.2.2]

theorem delegator_mergeValidators {es : List ValidatorEntity}
    (h : db.mergeValidators es = some db') : db'.delegator = db.delegator := by
  rw [Db.mergeValidators] at h
  split at h
  · exact delegator_foldlM_merge h
  · cases h

/-- What `getFullInfoValidators` gives: rows with their ids, and new ones with the count `0`. -/
theorem getFullInfoValidators_spec (db : Db) (validators : List OnchainValidator) :
    IdsKnown db (getFullInfoValidators db validators) ∧
      ∀ e ∈ getFullInfoValidators db validators, e.id = none → e.delegators_count = 0 := by
  have hrow : ∀ v ∈ db.validator.rows, ∀ status : String,
      db.validatorId (v.withStatus status).operator_address = some v.id := by
    intro v hv status
    show db.validatorId v.operator_address = some v.id
    rw [Db.validatorId, Table.get?_eq_some_iff.mpr ⟨hv, rfl⟩, Option.map_some]
  have hcases : ∀ e ∈ getFullInfoValidators db validators,
      (∃ v ∈ db.validator.rows, ∃ status, e = v.withStatus status) ∨
        ∃ validator, e = createNewValidator validator := by
    intro e he
    simp only [getFullInfoValidators] at he
    rcases List.mem_append.mp he with he | he
    · obtain ⟨validator, -, rfl⟩ := List.mem_map.mp he
      split
      · exact Or.inr ⟨validator, rfl⟩
      · next found hfound =>
        have hmem := List.mem_of_mem_filter (List.mem_of_find?_eq_some hfound)
        exact Or.inl ⟨found, hmem, validator.status, rfl⟩
    · obtain ⟨v, hv, rfl⟩ := List.mem_map.mp he
      exact Or.inl ⟨v, List.mem_of_mem_filter (List.mem_of_mem_filter hv), unrecognized, rfl⟩
  constructor
  · intro e he i hi
    rcases hcases e he with ⟨v, hv, status, rfl⟩ | ⟨validator, rfl⟩
    · cases hi
      exact hrow v hv status
    · cases hi
  · intro e he hid
    rcases hcases e he with ⟨v, hv, status, rfl⟩ | ⟨validator, rfl⟩
    · cases hid
    · rfl

/-! ## 9. Runs -/

/-- What holds of the data that the jobs have read. -/
structure CountWf (s : CountState) : Prop where
  message : ∀ m ∈ s.message, ReadsOk s.db m.2
  ids : ∀ es ∈ s.validators, IdsKnown s.db es
  created : ∀ es ∈ s.validators, ∀ e ∈ es, e.id = none → e.delegators_count = 0

theorem ReadsOk.of_rows {reads : Reads} (h : ReadsOk db reads)
    (hkeep : ∀ y ∈ db.delegator.rows, y ∈ db'.delegator.rows) : ReadsOk db' reads := by
  refine ⟨fun r hr x hx => ?_, h.same⟩
  obtain ⟨y, hy, hyx⟩ := h.src r hr x hx
  exact ⟨y, hkeep y hy, hyx⟩

theorem IdsKnown.of_validatorId {es : List ValidatorEntity} (h : IdsKnown db es)
    (hids : ∀ v, db'.validatorId v = db.validatorId v) : IdsKnown db' es :=
  fun e he i hi => (hids _).trans (h e he i hi)

theorem storeDelegators_keeps {job : ValidatorDelegators}
    (h : db.storeDelegators job = some db') :
    (∀ y ∈ db.delegator.rows, y ∈ db'.delegator.rows) ∧
      ∀ v, db'.validatorId v = db.validatorId v := by
  obtain ⟨db₁, hins, rfl⟩ := Option.map_eq_some_iff.mp h
  obtain ⟨hval, -, -, hkeep⟩ := insertDelegators_spec hins
  refine ⟨hkeep, fun v => ?_⟩
  rw [Db.patchValidator, Db.validatorId_mapValidators, Db.validatorId, hval, Db.validatorId]

/-- The invariant of runs whose writes are current. -/
def CountInv (s : CountState) : Prop := CountsOk s.db ∧ CountWf s

variable {s : CountState}

theorem countInv_commitMessage {content : Content} {reads : Reads} (h : CountInv s)
    (hm : s.message = some (content, reads)) (hcur : MessageCurrent s.db content reads) :
    CountInv { s.written (s.db.commit (writes content reads)) with message := none } := by
  obtain ⟨hok, hwf⟩ := h
  cases hc : s.db.commit (writes content reads) with
  | none => exact ⟨hok, ⟨by simp, hwf.ids, hwf.created⟩⟩
  | some db =>
    refine ⟨counts_commit hok (hwf.message _ hm) hcur hc, ⟨by simp, ?_, hwf.created⟩⟩
    exact fun es hes => (hwf.ids es hes).of_validatorId (validatorId_commit hc)

theorem countInv_storeDelegators {job : ValidatorDelegators} (h : CountInv s)
    (hcur : DelegatorsCurrent s.db job) :
    CountInv { s.written (s.db.storeDelegators job) with delegators := none } := by
  obtain ⟨hok, hwf⟩ := h
  cases hc : s.db.storeDelegators job with
  | none => exact ⟨hok, ⟨hwf.message, hwf.ids, hwf.created⟩⟩
  | some db =>
    obtain ⟨hrows, hids⟩ := storeDelegators_keeps hc
    exact ⟨counts_storeDelegators hok hcur hc,
      ⟨fun m hm => (hwf.message m hm).of_rows hrows,
        fun es hes => (hwf.ids es hes).of_validatorId hids, hwf.created⟩⟩

theorem countInv_mergeValidators {es : List ValidatorEntity} (h : CountInv s)
    (hes : s.validators = some es) (hcur : ValidatorsCurrent s.db es) :
    CountInv { s.written (s.db.mergeValidators es) with validators := none } := by
  obtain ⟨hok, hwf⟩ := h
  cases hc : s.db.mergeValidators es with
  | none => exact ⟨hok, ⟨hwf.message, by simp, by simp⟩⟩
  | some db =>
    refine ⟨counts_mergeValidators hok (hwf.created es hes) (hwf.ids es hes) hcur hc,
      ⟨fun m hm => (hwf.message m hm).of_rows fun y hy => ?_, by simp, by simp⟩⟩
    exact delegator_mergeValidators hc ▸ hy

theorem countInv_step {a : CountLabel} (h : CountInv s) (hcur : Current s a) :
    CountInv (countStep s a) := by
  obtain ⟨hok, hwf⟩ := h
  cases a with
  | readMessage content =>
    simp only [countStep]
    split
    · exact ⟨hok, hwf⟩
    · refine ⟨hok, ⟨?_, hwf.ids, hwf.created⟩⟩
      rintro _ ⟨⟩
      exact readsOk_reads s.db content
  | commitMessage =>
    simp only [countStep]
    split
    · exact ⟨hok, hwf⟩
    case h_2 content reads hm => exact countInv_commitMessage ⟨hok, hwf⟩ hm (hcur _ hm)
  | abortMessage => exact ⟨hok, ⟨by simp [countStep], hwf.ids, hwf.created⟩⟩
  | fetchDelegators job =>
    simp only [countStep]
    split
    · exact ⟨hok, hwf⟩
    · exact ⟨hok, ⟨hwf.message, hwf.ids, hwf.created⟩⟩
  | storeDelegators =>
    simp only [countStep]
    split
    · exact ⟨hok, hwf⟩
    case h_2 job hjob => exact countInv_storeDelegators ⟨hok, hwf⟩ (hcur job hjob)
  | abortDelegators => exact ⟨hok, ⟨hwf.message, hwf.ids, hwf.created⟩⟩
  | readValidators validators =>
    simp only [countStep]
    split
    · exact ⟨hok, hwf⟩
    · obtain ⟨hids, hnew⟩ := getFullInfoValidators_spec s.db validators
      refine ⟨hok, ⟨hwf.message, ?_, ?_⟩⟩
      · rintro _ ⟨⟩
        exact hids
      · rintro _ ⟨⟩
        exact hnew
  | mergeValidators =>
    simp only [countStep]
    split
    · exact ⟨hok, hwf⟩
    case h_2 es hes => exact countInv_mergeValidators ⟨hok, hwf⟩ hes (hcur es hes)
  | abortValidators => exact ⟨hok, ⟨hwf.message, by simp [countStep], by simp [countStep]⟩⟩

/-- In every run of the three jobs whose writes are current, every `delegators_count` is the
number of `delegator` rows of the validator. -/
theorem counts_match (db : Db) (hdb : CountsOk db) (as : List CountLabel)
    (has : Meets countStep Current (CountState.initial db) as) :
    CountsOk (runFrom countStep (CountState.initial db) as).db := by
  have hinit : CountInv (CountState.initial db) :=
    ⟨hdb, ⟨by simp [CountState.initial], by simp [CountState.initial],
      by simp [CountState.initial]⟩⟩
  exact (Meets.invariant (fun _ _ => countInv_step) has hinit).1

/-- A delegation and then an upsert of whole rows. -/
theorem counts_match_in_turn :
    let as : List CountLabel :=
      [.readMessage (.delegate "alice" "val1" 100), .commitMessage,
        .readValidators [⟨"val1", "BOND_STATUS_BONDED"⟩], .mergeValidators]
    CountsOk twoValidators ∧ Meets countStep Current (CountState.initial twoValidators) as ∧
      CountsOk (runFrom countStep (CountState.initial twoValidators) as).db := by
  intro as
  have hdb : CountsOk twoValidators := by decide +kernel
  have has : Meets countStep Current (CountState.initial twoValidators) as := by decide +kernel
  exact ⟨hdb, has, counts_match twoValidators hdb as has⟩

/-- The rows are read, a delegation is committed, and the rows are written back. -/
theorem count_overwritten :
    let s := runFrom countStep (CountState.initial twoValidators)
      [.readValidators [⟨"val1", "BOND_STATUS_BONDED"⟩, ⟨"val2", "BOND_STATUS_BONDED"⟩],
        .readMessage (.delegate "alice" "val1" 100), .commitMessage, .mergeValidators]
    CountsOk twoValidators ∧ s.message = none ∧ s.delegators = none ∧ s.validators = none ∧
      (s.db.validator.get? "val1").map (·.delegators_count) = some 0 ∧ s.db.rowCount 1 = 1 ∧
      ¬ CountsOk s.db := by
  intro s
  have hmessage : s.message.isNone = true := by decide +kernel
  exact ⟨by decide +kernel, Option.isNone_iff_eq_none.mp hmessage, by decide +kernel,
    by decide +kernel, by decide +kernel, by decide +kernel, by decide +kernel⟩

end

end Erascope.Staking
