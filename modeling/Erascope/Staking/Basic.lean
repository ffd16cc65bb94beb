import Mathlib.Tactic
import Erascope.Lib.Table
import Erascope.Lib.Fold
import Erascope.CrawlTx.Authz

/-!
# Delegations

The tables `validator` and `delegator` and the handlers of
`services/crawl-validator/crawl_delegators.service.ts`. A handler reads the validators of a
message and the rows of its delegator, and only then writes, in the database transaction of
the message: `writes` is what it writes, a function of what it has read.

* `Db`: the tables with their constraints (primary keys, unique keys, the foreign key from
  `delegator.validator_id` to `validator.id`) as fields.
* `Db.commit`: the writes of one transaction; a violated constraint undoes all of them.
* `Db.mergeValidators`: the upsert of `handleCrawlAllValidator`.
-/

namespace Erascope.Staking

/-! ## 1. Rows -/

/-- A row of `validator`, with the columns that the jobs use. -/
structure Validator where
  id : ℕ
  operator_address : String
  status : String
  delegators_count : ℤ
  delegators_last_height : ℕ
deriving DecidableEq, Repr

/-- A row of `delegator`. -/
structure Delegator where
  id : ℕ
  validator_id : ℕ
  delegator_address : String
  amount : ℤ
deriving DecidableEq, Repr

/-- `table.unique(['validator_id', 'delegator_address'])` -/
def Delegator.key (r : Delegator) : ℕ × String := (r.validator_id, r.delegator_address)

/-- The row after an update of the amount in the row `id`. -/
def Delegator.withAmount (id : ℕ) (amount : ℤ) (r : Delegator) : Delegator :=
  if r.id = id then { r with amount := amount } else r

@[simp] theorem Delegator.key_withAmount (id : ℕ) (amount : ℤ) (r : Delegator) :
    (r.withAmount id amount).key = r.key := by
  unfold withAmount
  split <;> rfl

@[simp] theorem Delegator.id_withAmount (id : ℕ) (amount : ℤ) (r : Delegator) :
    (r.withAmount id amount).id = r.id := by
  unfold withAmount
  split <;> rfl

@[simp] theorem Delegator.validator_id_withAmount (id : ℕ) (amount : ℤ) (r : Delegator) :
    (r.withAmount id amount).validator_id = r.validator_id := by
  unfold withAmount
  split <;> rfl

/-- The content of a message. `other` stands for every type that no job here looks at. -/
inductive Content
  | delegate (delegator_address validator_address : String) (amount : ℤ)
  | redelegate (delegator_address validator_src_address validator_dst_address : String) (amount : ℤ)
  | undelegate (delegator_address validator_address : String) (amount : ℤ)
  | cancelUndelegate (delegator_address validator_address : String) (amount : ℤ)
  | exec (msgs : List Content)
  | other

/-- The `@type` of a message (`MSG_TYPE`). -/
def Content.type : Content → String
  | .delegate .. => "/cosmos.staking.v1beta1.MsgDelegate"
  | .redelegate .. => "/cosmos.staking.v1beta1.MsgBeginRedelegate"
  | .undelegate .. => "/cosmos.staking.v1beta1.MsgUndelegate"
  | .cancelUndelegate .. => "/cosmos.staking.v1beta1.MsgCancelUnbondingDelegation"
  | .exec _ => Authz.msgAuthzExec
  | .other => ""

instance : Authz.MessageContent Content where
  type := Content.type
  msgs
    | .exec msgs => msgs
    | _ => []

/-- The list of `whereIn('type', ...)` in `handleJob`. -/
def delegationTypes : List String :=
  ["/cosmos.staking.v1beta1.MsgDelegate",
    "/cosmos.staking.v1beta1.MsgBeginRedelegate",
    "/cosmos.staking.v1beta1.MsgUndelegate",
    "/cosmos.staking.v1beta1.MsgCancelUnbondingDelegation"]

/-! ## 2. The tables -/

/-- `decimal(30, 0)`: a value with more digits is refused. -/
def fits (amount : ℤ) : Bool := decide (-10 ^ 30 < amount ∧ amount < 10 ^ 30)

/-- The tables with their constraints. -/
structure Db where
  validator : Table Validator.operator_address
  delegator : Table Delegator.key
  nextValidatorId : ℕ
  nextDelegatorId : ℕ
  validator_ids : (validator.rows.map (·.id)).Nodup
  validator_id_lt : ∀ v ∈ validator.rows, v.id < nextValidatorId
  delegator_ids : (delegator.rows.map (·.id)).Nodup
  delegator_id_lt : ∀ r ∈ delegator.rows, r.id < nextDelegatorId
  foreign : ∀ r ∈ delegator.rows, ∃ v ∈ validator.rows, v.id = r.validator_id
  amount_fits : ∀ r ∈ delegator.rows, fits r.amount = true

/-- Two validators, no delegator. -/
def twoValidators : Db where
  validator := ⟨[⟨1, "val1", "BOND_STATUS_BONDED", 0, 0⟩, ⟨2, "val2", "BOND_STATUS_BONDED", 0, 0⟩],
    by decide⟩
  delegator := Table.empty
  nextValidatorId := 3
  nextDelegatorId := 1
  validator_ids := by decide
  validator_id_lt := by decide
  delegator_ids := by decide
  delegator_id_lt := by simp [Table.empty]
  foreign := by simp [Table.empty]
  amount_fits := by simp [Table.empty]

namespace Db

/-- `insert` into `delegator`; it fails when a constraint is violated. -/
def insertDelegator (db : Db) (validator_id : ℕ) (delegator_address : String) (amount : ℤ) :
    Option Db :=
  if h : (∃ v ∈ db.validator.rows, v.id = validator_id) ∧
      db.delegator.get? (validator_id, delegator_address) = none ∧ fits amount = true then
    some
      { db with
        delegator := db.delegator.upsert
          ⟨db.nextDelegatorId, validator_id, delegator_address, amount⟩
        nextDelegatorId := db.nextDelegatorId + 1
        delegator_ids := by
          refine Table.nodup_map_rows_upsert db.delegator_ids fun x hx _ => ?_
          exact (db.delegator_id_lt x hx).ne
        delegator_id_lt := by
          intro r hr
          rcases Table.mem_rows_upsert.mp hr with rfl | ⟨hr, _⟩
          · exact Nat.lt_succ_self _
          · exact (db.delegator_id_lt r hr).trans (Nat.lt_succ_self _)
        foreign := by
          intro r hr
          rcases Table.mem_rows_upsert.mp hr with rfl | ⟨hr, _⟩
          · exact h.1
          · exact db.foreign r hr
        amount_fits := by
          intro r hr
          rcases Table.mem_rows_upsert.mp hr with rfl | ⟨hr, _⟩
          · exact h.2.2
          · exact db.amount_fits r hr }
  else none

/-- `update({ amount }).where({ id })` on `delegator`. -/
def updateAmount (db : Db) (id : ℕ) (amount : ℤ) : Option Db :=
  if h : (∃ r ∈ db.delegator.rows, r.id = id) ∧ fits amount = false then none
  else
    some
      { db with
        delegator := db.delegator.mapRows (Delegator.withAmount id amount)
          (Delegator.key_withAmount id amount)
        delegator_ids := by
          simpa only [Table.mapRows, List.map_map, Function.comp_def, Delegator.id_withAmount]
            using db.delegator_ids
        delegator_id_lt := by
          intro r hr
          obtain ⟨x, hx, rfl⟩ := List.mem_map.mp hr
          rw [Delegator.id_withAmount]
          exact db.delegator_id_lt x hx
        foreign := by
          intro r hr
          obtain ⟨x, hx, rfl⟩ := List.mem_map.mp hr
          rw [Delegator.validator_id_withAmount]
          exact db.foreign x hx
        amount_fits := by
          intro r hr
          obtain ⟨x, hx, rfl⟩ := List.mem_map.mp hr
          by_cases hid : x.id = id
          · rw [Delegator.withAmount, if_pos hid]
            exact Bool.not_eq_false _ ▸ fun hn => h ⟨⟨x, hx, hid⟩, hn⟩
          · rw [Delegator.withAmount, if_neg hid]
            exact db.amount_fits x hx }

/-- `delete().where({ id })` on `delegator`. -/
def deleteDelegator (db : Db) (id : ℕ) : Db :=
  { db with
    delegator := db.delegator.filter fun r => r.id ≠ id
    delegator_ids := (List.filter_sublist.map _).nodup db.delegator_ids
    delegator_id_lt := fun r hr => db.delegator_id_lt r (List.mem_of_mem_filter hr)
    foreign := fun r hr => db.foreign r (List.mem_of_mem_filter hr)
    amount_fits := fun r hr => db.amount_fits r (List.mem_of_mem_filter hr) }

/-- An update of the rows of `validator` that changes neither their ids nor their addresses. -/
def mapValidators (db : Db) (f : Validator → Validator) (hid : ∀ v, (f v).id = v.id)
    (hkey : ∀ v, (f v).operator_address = v.operator_address) : Db :=
  { db with
    validator := db.validator.mapRows f hkey
    validator_ids := by
      simpa only [Table.mapRows, List.map_map, Function.comp_def, hid] using db.validator_ids
    validator_id_lt := by
      intro v hv
      obtain ⟨w, hw, rfl⟩ := List.mem_map.mp hv
      rw [hid]
      exact db.validator_id_lt w hw
    foreign := by
      intro r hr
      obtain ⟨v, hv, hvr⟩ := db.foreign r hr
      exact ⟨f v, List.mem_map_of_mem hv, (hid v).trans hvr⟩ }

/-- `update({ delegators_count }).where({ id })` on `validator`. -/
def updateCount (db : Db) (id : ℕ) (count : ℤ) : Db :=
  db.mapValidators (fun v => if v.id = id then { v with delegators_count := count } else v)
    (fun v => by split <;> rfl) (fun v => by split <;> rfl)

end Db

/-! ## 3. The writes of a message -/

/-- A write inside the database transaction of a message. -/
inductive Write
  | insertDelegator (validator_id : ℕ) (delegator_address : String) (amount : ℤ)
  | updateAmount (id : ℕ) (amount : ℤ)
  | deleteDelegator (id : ℕ)
  | updateCount (id : ℕ) (count : ℤ)
deriving DecidableEq, Repr

def Db.write (db : Db) : Write → Option Db
  | .insertDelegator validator_id delegator_address amount =>
    db.insertDelegator validator_id delegator_address amount
  | .updateAmount id amount => db.updateAmount id amount
  | .deleteDelegator id => some (db.deleteDelegator id)
  | .updateCount id count => some (db.updateCount id count)

/-- The writes of one transaction; the first that fails rolls it back. -/
def Db.commit (db : Db) (ws : List Write) : Option Db := ws.foldlM Db.write db

/-- What a handler reads for one validator: its row, and the row of the delegator. -/
structure Read where
  validator : Validator
  delegator : Option Delegator
deriving DecidableEq, Repr

/-- The amount in the row of the delegator, `0` when there is none. -/
def Read.amount (r : Read) : ℤ := (r.delegator.map (·.amount)).getD 0

/-- `Validator.query().findOne('operator_address', ..)`, then
`Delegator.query().findOne({ delegator_address, validator_id })`. -/
def Db.read (db : Db) (validator_address delegator_address : String) : Option Read :=
  (db.validator.get? validator_address).map fun validator =>
    { validator := validator
      delegator := db.delegator.get? (validator.id, delegator_address) }

/-- The part of a handler that adds an amount: a new row and its validator's count, or the
sum. -/
def addAmount (r : Read) (delegator_address : String) (amount : ℤ) : List Write :=
  match r.delegator with
  | none =>
    [.insertDelegator r.validator.id delegator_address amount,
      .updateCount r.validator.id (r.validator.delegators_count + 1)]
  | some delegator => [.updateAmount delegator.id (delegator.amount + amount)]

/-- The part of a handler that takes an amount away: the row goes when nothing remains. -/
def removeAmount (r : Read) (amount : ℤ) : List Write :=
  match r.delegator with
  | none => []
  | some delegator =>
    if delegator.amount - amount > 0 then
      [.updateAmount delegator.id (delegator.amount - amount)]
    else
      [.deleteDelegator delegator.id,
        .updateCount r.validator.id (r.validator.delegators_count - 1)]

def handleDelegateTxMsg (read : Option Read) (delegator_address : String) (amount : ℤ) :
    List Write :=
  match read with
  | none => []
  | some r => addAmount r delegator_address amount

def handleReDelegateTxMsg (readSrc readDst : Option Read) (delegator_address : String)
    (amount : ℤ) : List Write :=
  match readSrc, readDst with
  | some src, some dst => removeAmount src amount ++ addAmount dst delegator_address amount
  | _, _ => []

def handleUnDelegateTxMsg (read : Option Read) (amount : ℤ) : List Write :=
  match read with
  | none => []
  | some r => removeAmount r amount

/-- What the handler of a message reads before it writes. -/
structure Reads where
  src : Option Read
  dst : Option Read
deriving DecidableEq, Repr

def Db.reads (db : Db) : Content → Reads
  | .delegate d v _ => ⟨none, db.read v d⟩
  | .redelegate d src dst _ => ⟨db.read src d, db.read dst d⟩
  | .undelegate d v _ => ⟨db.read v d, none⟩
  | .cancelUndelegate d v _ => ⟨none, db.read v d⟩
  | .exec _ => ⟨none, none⟩
  | .other => ⟨none, none⟩

/-- The `switch` of `handleJob` over the type of the message. -/
def writes (content : Content) (reads : Reads) : List Write :=
  match content with
  | .delegate d _ amount => handleDelegateTxMsg reads.dst d amount
  | .redelegate d _ _ amount => handleReDelegateTxMsg reads.src reads.dst d amount
  | .undelegate _ _ amount => handleUnDelegateTxMsg reads.src amount
  | .cancelUndelegate d _ amount => handleDelegateTxMsg reads.dst d amount
  | .exec _ => []
  | .other => []

/-- A message handled with nothing in between its reads and its writes. -/
def Db.handle (db : Db) (content : Content) : Option Db :=
  db.commit (writes content (db.reads content))

/-! ## 4. The query of `handleJob` -/

/-- A row of `transaction_message`. -/
abbrev Message := Authz.TransactionMessage Content

/-- `config.crawlDelegators.txMsgPageLimit` -/
def txMsgPageLimit : ℕ := 100

/-- `getCheckpointUpdateDelegator`; it throws when there is no message. -/
def getCheckpointUpdateDelegator (messages : List Message) (checkpoint : Option ℕ) :
    Option ℕ :=
  match checkpoint with
  | some height => some height
  | none => messages.head?.map fun oldest => oldest.id - 1

/-- A message of one of the four types. -/
def isDelegation (m : Message) : Bool := delegationTypes.contains m.type

/-- The messages above the checkpoint, in order. -/
def pending (messages : List Message) (height : ℕ) : List Message :=
  messages.filter fun m => decide (height < m.id) && isDelegation m

/-- The query `txMsg` of `handleJob`. -/
def txMsg (messages : List Message) (height bound : ℕ) : List Message :=
  ((pending messages height).filter fun m => m.tx_id < bound).take txMsgPageLimit

/-! ## 5. The upsert of the validators -/

/-- An element of `updateValidators`: a row that was read and changed, with its id, or the
result of `createNewValidator`, without one. -/
structure ValidatorEntity where
  id : Option ℕ
  operator_address : String
  status : String
  delegators_count : ℤ
  delegators_last_height : ℕ
deriving DecidableEq, Repr

/-- The id that the row of `v` gets. A missing id is the next value of the sequence; the
merge writes it over the id of an existing row only when `id` is a column of the insert. -/
def Db.mergedId (db : Db) (idColumn : Bool) (v : ValidatorEntity) : ℕ :=
  let excluded := v.id.getD db.nextValidatorId
  match db.validator.get? v.operator_address with
  | none => excluded
  | some old => if idColumn then excluded else old.id

/-- The primary key: no other row has the id. -/
def Db.PrimaryKeyOk (db : Db) (idColumn : Bool) (v : ValidatorEntity) : Prop :=
  ∀ w ∈ db.validator.rows, w.operator_address ≠ v.operator_address → w.id ≠ db.mergedId idColumn v

/-- The foreign key of `delegator`: the id of a row that has delegators does not change. -/
def Db.ForeignKeyOk (db : Db) (idColumn : Bool) (v : ValidatorEntity) : Prop :=
  ∀ old ∈ db.validator.rows, old.operator_address = v.operator_address →
    old.id ≠ db.mergedId idColumn v → ∀ r ∈ db.delegator.rows, r.validator_id ≠ old.id

instance (db : Db) (idColumn : Bool) (v : ValidatorEntity) :
    Decidable (db.PrimaryKeyOk idColumn v) :=
  inferInstanceAs (Decidable (∀ w ∈ db.validator.rows, w.operator_address ≠ v.operator_address →
    w.id ≠ db.mergedId idColumn v))

instance (db : Db) (idColumn : Bool) (v : ValidatorEntity) :
    Decidable (db.ForeignKeyOk idColumn v) :=
  inferInstanceAs (Decidable (∀ old ∈ db.validator.rows,
    old.operator_address = v.operator_address → old.id ≠ db.mergedId idColumn v →
      ∀ r ∈ db.delegator.rows, r.validator_id ≠ old.id))

/-- The row that `v` becomes. -/
def Db.mergedRow (db : Db) (idColumn : Bool) (v : ValidatorEntity) : Validator where
  id := db.mergedId idColumn v
  operator_address := v.operator_address
  status := v.status
  delegators_count := v.delegators_count
  delegators_last_height := v.delegators_last_height

/-- The sequence of the ids after the row of `v`: a missing id takes a value, also when the row
exists. An id that is given was read from the table, so the maximum changes nothing then. -/
def Db.sequenceAfter (db : Db) (idColumn : Bool) (v : ValidatorEntity) : ℕ :=
  max (if v.id = none then db.nextValidatorId + 1 else db.nextValidatorId)
    (db.mergedId idColumn v + 1)

/-- One row of `insert(..).onConflict('operator_address').merge()`. -/
def Db.mergeValidator (idColumn : Bool) (db : Db) (v : ValidatorEntity) : Option Db :=
  if h : db.PrimaryKeyOk idColumn v ∧ db.ForeignKeyOk idColumn v then
    some
      { db with
        validator := db.validator.upsert (db.mergedRow idColumn v)
        nextValidatorId := db.sequenceAfter idColumn v
        validator_ids := Table.nodup_map_rows_upsert db.validator_ids h.1
        validator_id_lt := by
          intro w hw
          rcases Table.mem_rows_upsert.mp hw with rfl | ⟨hw, _⟩
          · exact lt_of_lt_of_le (Nat.lt_succ_self _) (le_max_right _ _)
          · refine lt_of_lt_of_le (db.validator_id_lt w hw) (le_trans ?_ (le_max_left _ _))
            split
            · exact Nat.le_succ _
            · exact le_rfl
        foreign := by
          intro r hr
          obtain ⟨w, hw, hwr⟩ := db.foreign r hr
          by_cases hkey : w.operator_address = v.operator_address
          · refine ⟨db.mergedRow idColumn v, Table.mem_rows_upsert.mpr (Or.inl rfl), ?_⟩
            by_contra hne
            exact h.2 w hw hkey (fun heq => hne (heq.symm.trans hwr)) r hr hwr.symm
          · exact ⟨w, Table.mem_rows_upsert.mpr (Or.inr ⟨hw, hkey⟩), hwr⟩ }
  else none

/-- The upsert of `updateValidators`, one statement: `id` is a column of the insert when one
of the rows has it, and no row may be written twice. -/
def Db.mergeValidators (db : Db) (updateValidators : List ValidatorEntity) : Option Db :=
  if (updateValidators.map (·.operator_address)).Nodup then
    updateValidators.foldlM (Db.mergeValidator (updateValidators.any fun v => v.id.isSome)) db
  else none

/-! ## 6. Amounts after a write -/

namespace Db

/-- The amount in the row of a delegator, if there is one. -/
def amount (db : Db) (validator_id : ℕ) (delegator_address : String) : Option ℤ :=
  (db.delegator.get? (validator_id, delegator_address)).map (·.amount)

/-- The id of a validator. -/
def validatorId (db : Db) (validator_address : String) : Option ℕ :=
  (db.validator.get? validator_address).map (·.id)

variable {db db' : Db}

theorem delegator_eq_of_id_eq {a b : Delegator} (ha : a ∈ db.delegator.rows)
    (hb : b ∈ db.delegator.rows) (h : a.id = b.id) : a = b :=
  List.inj_on_of_nodup_map db.delegator_ids ha hb h

theorem validator_eq_of_id_eq {a b : Validator} (ha : a ∈ db.validator.rows)
    (hb : b ∈ db.validator.rows) (h : a.id = b.id) : a = b :=
  List.inj_on_of_nodup_map db.validator_ids ha hb h

/-- A row that was read by its key is the one that a write by its id changes. -/
theorem id_eq_iff {x y : Delegator} {k k' : ℕ × String} (hx : db.delegator.get? k = some x)
    (hy : db.delegator.get? k' = some y) : y.id = x.id ↔ k = k' := by
  constructor
  · intro h
    obtain rfl := delegator_eq_of_id_eq (Table.mem_of_get? hy) (Table.mem_of_get? hx) h
    exact (Table.key_of_get? hx).symm.trans (Table.key_of_get? hy)
  · rintro rfl
    rw [hx] at hy
    cases hy
    rfl

theorem insertDelegator_spec {i : ℕ} {d : String} {n : ℤ} (h : db.insertDelegator i d n = some db') :
    db.delegator.get? (i, d) = none ∧ db'.validator = db.validator ∧
      db'.delegator = db.delegator.upsert ⟨db.nextDelegatorId, i, d, n⟩ := by
  rw [insertDelegator] at h
  split at h
  · next hc =>
    cases h
    exact ⟨hc.2.1, rfl, rfl⟩
  · cases h

theorem updateAmount_spec {id : ℕ} {n : ℤ} (h : db.updateAmount id n = some db') :
    db'.validator = db.validator ∧
      db'.delegator = db.delegator.mapRows (Delegator.withAmount id n)
        (Delegator.key_withAmount id n) := by
  rw [updateAmount] at h
  split at h
  · cases h
  · cases h
    exact ⟨rfl, rfl⟩

theorem get?_insertDelegator {i : ℕ} {d : String} {n : ℤ}
    (h : db.insertDelegator i d n = some db') (k : ℕ × String) :
    db'.delegator.get? k =
      if (i, d) = k then some ⟨db.nextDelegatorId, i, d, n⟩ else db.delegator.get? k := by
  obtain ⟨_, _, hdel⟩ := insertDelegator_spec h
  rw [hdel, Table.get?_upsert]
  rfl

theorem get?_updateAmount {x : Delegator} {k : ℕ × String} {n : ℤ}
    (hx : db.delegator.get? k = some x) (h : db.updateAmount x.id n = some db')
    (k' : ℕ × String) :
    db'.delegator.get? k' = if k = k' then some { x with amount := n } else db.delegator.get? k' := by
  rw [(updateAmount_spec h).2, Table.get?_mapRows]
  by_cases hk : k = k'
  · rw [if_pos hk, ← hk, hx, Option.map_some, Delegator.withAmount, if_pos rfl]
  · rw [if_neg hk]
    cases hy : db.delegator.get? k' with
    | none => rfl
    | some y =>
      have hid : y.id ≠ x.id := fun h => hk ((id_eq_iff hx hy).mp h)
      rw [Option.map_some, Delegator.withAmount, if_neg hid]

theorem get?_deleteDelegator {x : Delegator} {k : ℕ × String}
    (hx : db.delegator.get? k = some x) (k' : ℕ × String) :
    (db.deleteDelegator x.id).delegator.get? k' =
      if k = k' then none else db.delegator.get? k' := by
  rw [deleteDelegator, Table.get?_filter]
  cases hy : db.delegator.get? k' with
  | none => simp
  | some y =>
    by_cases hk : k = k'
    · simp [Option.filter, (id_eq_iff hx hy).mpr hk, hk]
    · have hid : y.id ≠ x.id := fun h => hk ((id_eq_iff hx hy).mp h)
      simp [Option.filter, hid, hk]

@[simp] theorem delegator_updateCount (db : Db) (id : ℕ) (count : ℤ) :
    (db.updateCount id count).delegator = db.delegator := rfl

theorem validatorId_mapValidators (db : Db) (f : Validator → Validator) (hid hkey) (v : String) :
    (db.mapValidators f hid hkey).validatorId v = db.validatorId v := by
  simp only [validatorId, mapValidators, Table.get?_mapRows, Option.map_map, Function.comp_def, hid]

@[simp] theorem validatorId_updateCount (db : Db) (id : ℕ) (count : ℤ) (v : String) :
    (db.updateCount id count).validatorId v = db.validatorId v :=
  validatorId_mapValidators ..

theorem validatorId_injective {v v' : String} {i : ℕ} (h : db.validatorId v = some i)
    (h' : db.validatorId v' = some i) : v = v' := by
  obtain ⟨w, hw, rfl⟩ := Option.map_eq_some_iff.mp h
  obtain ⟨w', hw', hid⟩ := Option.map_eq_some_iff.mp h'
  obtain rfl := validator_eq_of_id_eq (Table.mem_of_get? hw') (Table.mem_of_get? hw) hid
  exact (Table.key_of_get? hw).symm.trans (Table.key_of_get? hw')

/-- The rows that a handler has read are still the ones of the tables. -/
structure Holds (db : Db) (delegator_address : String) (r : Read) : Prop where
  validator : ∃ v, db.validatorId v = some r.validator.id
  delegator : db.delegator.get? (r.validator.id, delegator_address) = r.delegator

theorem holds_of_read {v d : String} {r : Read} (h : db.read v d = some r) :
    db.Holds d r ∧ db.validatorId v = some r.validator.id := by
  obtain ⟨w, hw, rfl⟩ := Option.map_eq_some_iff.mp h
  have hid : db.validatorId v = some w.id := by rw [validatorId, hw, Option.map_some]
  exact ⟨⟨⟨v, hid⟩, rfl⟩, hid⟩

/-- Adding to what was read: the row of the delegator has the sum, all other rows stay. -/
theorem commit_addAmount {d : String} {r : Read} {n : ℤ} (h : db.Holds d r)
    (hfit : fits (r.amount + n) = true) :
    ∃ db', db.commit (addAmount r d n) = some db' ∧
      (∀ v, db'.validatorId v = db.validatorId v) ∧
      (∀ k, k ≠ (r.validator.id, d) → db'.delegator.get? k = db.delegator.get? k) ∧
      db'.amount r.validator.id d = some (r.amount + n) := by
  obtain ⟨⟨v, hv⟩, hdel⟩ := h
  cases hr : r.delegator with
  | none =>
    obtain ⟨w, hw, hwid⟩ := Option.map_eq_some_iff.mp hv
    have hamount : r.amount + n = n := by simp [Read.amount, hr]
    rw [hamount] at hfit ⊢
    have hok : (∃ w ∈ db.validator.rows, w.id = r.validator.id) ∧
        db.delegator.get? (r.validator.id, d) = none ∧ fits n = true :=
      ⟨⟨w, Table.mem_of_get? hw, hwid⟩, hdel.trans hr, hfit⟩
    obtain ⟨db₁, hins⟩ : ∃ db₁, db.insertDelegator r.validator.id d n = some db₁ :=
      ⟨_, dif_pos hok⟩
    have hval : db₁.validator = db.validator := (insertDelegator_spec hins).2.1
    refine ⟨db₁.updateCount r.validator.id (r.validator.delegators_count + 1), ?_, ?_, ?_, ?_⟩
    · simp [commit, addAmount, hr, Db.write, hins]
    · intro v
      rw [validatorId_updateCount, validatorId, hval, validatorId]
    · intro k hk
      rw [delegator_updateCount, get?_insertDelegator hins, if_neg hk.symm]
    · rw [amount, delegator_updateCount, get?_insertDelegator hins, if_pos rfl, Option.map_some]
  | some x =>
    have hamount : r.amount = x.amount := by simp [Read.amount, hr]
    rw [hr] at hdel
    rw [hamount] at hfit ⊢
    obtain ⟨db₁, hup⟩ : ∃ db₁, db.updateAmount x.id (x.amount + n) = some db₁ :=
      ⟨_, dif_neg fun hc => by simp [hfit] at hc⟩
    refine ⟨db₁, ?_, ?_, ?_, ?_⟩
    · simp [commit, addAmount, hr, Db.write, hup]
    · intro v
      rw [validatorId, (updateAmount_spec hup).1, validatorId]
    · intro k hk
      rw [get?_updateAmount hdel hup, if_neg hk.symm]
    · rw [amount, get?_updateAmount hdel hup, if_pos rfl, Option.map_some]

/-- What is left of the row of a delegator. -/
def remainingRow (r : Read) (n : ℤ) : Option Delegator :=
  r.delegator.bind fun x => if 0 < x.amount - n then some { x with amount := x.amount - n } else none

/-- Taking from what was read: the row has what remains, or goes; all other rows stay. -/
theorem commit_removeAmount {d : String} {r : Read} {n : ℤ} (h : db.Holds d r)
    (hfit : 0 < r.amount - n → fits (r.amount - n) = true) :
    ∃ db', db.commit (removeAmount r n) = some db' ∧
      (∀ v, db'.validatorId v = db.validatorId v) ∧
      (∀ k, k ≠ (r.validator.id, d) → db'.delegator.get? k = db.delegator.get? k) ∧
      db'.delegator.get? (r.validator.id, d) = remainingRow r n := by
  obtain ⟨-, hdel⟩ := h
  cases hr : r.delegator with
  | none =>
    refine ⟨db, ?_, fun v => rfl, fun k _ => rfl, ?_⟩
    · simp [commit, removeAmount, hr]
    · simp [remainingRow, hdel, hr]
  | some x =>
    have hamount : r.amount = x.amount := by simp [Read.amount, hr]
    rw [hr] at hdel
    rw [hamount] at hfit
    by_cases hpos : 0 < x.amount - n
    · obtain ⟨db₁, hup⟩ : ∃ db₁, db.updateAmount x.id (x.amount - n) = some db₁ :=
        ⟨_, dif_neg fun hc => by simp [hfit hpos] at hc⟩
      refine ⟨db₁, ?_, ?_, ?_, ?_⟩
      · simp only [commit, removeAmount, hr, gt_iff_lt, hpos, if_true]
        simp [Db.write, hup]
      · intro v
        rw [validatorId, (updateAmount_spec hup).1, validatorId]
      · intro k hk
        rw [get?_updateAmount hdel hup, if_neg hk.symm]
      · rw [get?_updateAmount hdel hup, if_pos rfl, remainingRow, hr, Option.bind_some, if_pos hpos]
    · refine ⟨(db.deleteDelegator x.id).updateCount r.validator.id
        (r.validator.delegators_count - 1), ?_, ?_, ?_, ?_⟩
      · simp only [commit, removeAmount, hr, gt_iff_lt, hpos, if_false]
        simp [Db.write]
      · intro v
        rw [validatorId_updateCount]
        rfl
      · intro k hk
        rw [delegator_updateCount, get?_deleteDelegator hdel, if_neg hk.symm]
      · rw [delegator_updateCount, get?_deleteDelegator hdel, if_pos rfl, remainingRow, hr,
          Option.bind_some, if_neg hpos]

end Db

end Erascope.Staking
