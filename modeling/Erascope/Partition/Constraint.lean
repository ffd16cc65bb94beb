import Mathlib.Tactic
import Erascope.Lib.Run
import Erascope.Lib.Table

/-!
# Constraints on the partitions of `event`

The table `event` is partitioned by id. `createEventConstraint`
(`services/job/create_constraint_in_event_partition.service.ts`) attaches a CHECK to a
partition with the lowest `tx_id` and `block_height` it finds there, and, once the last id of
the partition is used, with the highest ones too. Two jobs insert into the partitions, with
ids of one sequence: `CRAWL_BLOCK` the events of blocks, without a transaction, and
`HANDLE_TRANSACTION` those of transactions, at heights that `CRAWL_BLOCK` has passed before.

* `Constraint.check`: the CHECK, in the three-valued logic of SQL.
* `partitionStep`: inserts of the two jobs, and runs of `createEventConstraint`, which read
  the partition and then alter it.

Results:
1. `inserts_accepted`: no insert is rejected in a run where every constraint that is attached
   while its partition still fills starts at or below the height of `HANDLE_TRANSACTION`.
2. `late_event_rejected`: a partition that begins with the events of a block, ahead of
   `HANDLE_TRANSACTION`.
-/

namespace Erascope.EventPartition

/-! ## 1. The CHECK -/

/-- A row of `event`, with the columns that the constraint uses. -/
structure Event where
  id : ℕ
  tx_id : Option ℕ
  block_height : ℕ
deriving DecidableEq, Repr

/-- A condition of SQL; `none` is `NULL`. -/
abbrev SqlBool := Option Bool

/-- `a >= b` -/
def sqlGe (a b : Option ℕ) : SqlBool := do return decide ((← b) ≤ (← a))

/-- `a <= b` -/
def sqlLe (a b : Option ℕ) : SqlBool := sqlGe b a

/-- `a AND b`: false when one side is, `NULL` when it depends on a `NULL`. -/
def sqlAnd : SqlBool → SqlBool → SqlBool
  | some false, _ => some false
  | _, some false => some false
  | some true, some true => some true
  | _, _ => none

/-- The bounds of a constraint; `null` in the text of a bound is `NULL`. -/
structure Bounds where
  fromTxId : Option ℕ
  toTxId : Option ℕ
  fromHeight : Option ℕ
  toHeight : Option ℕ
deriving DecidableEq, Repr

/-- `checkConstraint` of `createConstraint` -/
def Bounds.check (b : Bounds) (e : Event) : SqlBool :=
  match b.toTxId with
  | none => sqlAnd (sqlGe e.tx_id b.fromTxId) (sqlGe (some e.block_height) b.fromHeight)
  | some _ =>
    sqlAnd (sqlAnd (sqlAnd (sqlGe e.tx_id b.fromTxId) (sqlLe e.tx_id b.toTxId))
      (sqlGe (some e.block_height) b.fromHeight)) (sqlLe (some e.block_height) b.toHeight)

/-- A CHECK rejects a row only when it is false. -/
def Bounds.Passes (b : Bounds) (e : Event) : Prop := b.check e ≠ some false

instance (b : Bounds) (e : Event) : Decidable (b.Passes e) :=
  inferInstanceAs (Decidable (b.check e ≠ some false))

theorem sqlAnd_ne_false {a b : SqlBool} (ha : a ≠ some false) (hb : b ≠ some false) :
    sqlAnd a b ≠ some false := by
  rcases a with _ | _ | _ <;> rcases b with _ | _ | _ <;> simp_all [sqlAnd]

theorem sqlGe_ne_false {a b : Option ℕ} (h : ∀ x ∈ a, ∀ y ∈ b, y ≤ x) :
    sqlGe a b ≠ some false := by
  rcases a with _ | x <;> rcases b with _ | y <;> simp_all [sqlGe]

/-! ## 2. Partitions -/

/-- A partition: the ids from `fromId` up to, and without, `toId`. -/
structure Partition where
  name : String
  fromId : ℕ
  toId : ℕ
deriving DecidableEq, Repr

def Partition.Contains (p : Partition) (id : ℕ) : Prop := p.fromId ≤ id ∧ id < p.toId

instance (p : Partition) (id : ℕ) : Decidable (p.Contains id) :=
  inferInstanceAs (Decidable (_ ∧ _))

/-- `insertionStatus` -/
inductive InsertionStatus
  | empty | done | inserting
deriving DecidableEq, Repr

/-- The constraint of a partition: `status` is the last part of its name. -/
structure Constraint where
  partition : Partition
  status : InsertionStatus
  bounds : Bounds
deriving DecidableEq, Repr

/-- The rows of a partition. -/
def rowsOf (events : List Event) (p : Partition) : List Event :=
  events.filter fun e => p.Contains e.id

/-- `getPartitionInsertionInfo` -/
def getPartitionInsertionInfo (events : List Event) (p : Partition) : InsertionStatus :=
  match ((rowsOf events p).map (·.id)).max? with
  | none => .empty
  | some latest => if p.toId - 1 = latest then .done else .inserting

/-- `getMaxMinTxIdAndBlhByPartition` -/
def getMaxMinTxIdAndBlhByPartition (events : List Event) (p : Partition) : Bounds :=
  let tx_ids := (rowsOf events p).filterMap (·.tx_id)
  let heights := (rowsOf events p).map (·.block_height)
  { fromTxId := tx_ids.min?
    toTxId := tx_ids.max?
    fromHeight := heights.min?
    toHeight := heights.max? }

/-- `prepareConstrainInformation`: the bounds of the constraint to create, if there is one. The
current constraint of a partition that is done is dropped first. -/
def prepareConstrainInformation (events : List Event) (p : Partition)
    (insertionStatus : InsertionStatus) (current : Option Constraint) : Option Bounds :=
  match insertionStatus with
  | .empty => none
  | .inserting =>
    if current.isSome then none
    else
      some { getMaxMinTxIdAndBlhByPartition events p with toTxId := none, toHeight := none }
  | .done =>
    if current.map (·.status) = some .done then none
    else some (getMaxMinTxIdAndBlhByPartition events p)

/-- The constraint that `createConstraint` adds. -/
def newConstraint (p : Partition) (b : Bounds) : Constraint where
  partition := p
  status := if b.toTxId = none then .inserting else .done
  bounds := b

/-! ## 3. The jobs -/

/-- The table, the sequence of its ids, where the two producers are, the constraints, and what
the current run of `createEventConstraint` is about to create. -/
structure State where
  events : List Event
  nextId : ℕ
  /-- The height of the block whose events `CRAWL_BLOCK` inserts. -/
  blockHeight : ℕ
  /-- The transaction whose events `HANDLE_TRANSACTION` inserts. -/
  txId : ℕ
  txHeight : ℕ
  constraints : Table Constraint.partition
  pending : Option (Partition × Bounds)

inductive Label
  /-- `CRAWL_BLOCK` comes to a later block. -/
  | nextBlock (height : ℕ)
  /-- It inserts an event. -/
  | blockEvent
  /-- `HANDLE_TRANSACTION` comes to a later transaction. -/
  | nextTransaction (id height : ℕ)
  /-- It inserts an event. -/
  | txEvent
  /-- An insert that was rolled back has used an id. -/
  | skipId
  /-- `createEventConstraint` reads the partition. -/
  | prepare (p : Partition)
  /-- It alters the partition. -/
  | alter
deriving DecidableEq, Repr

/-- The row that a step inserts. -/
def newEvent (s : State) : Label → Option Event
  | .blockEvent => some ⟨s.nextId, none, s.blockHeight⟩
  | .txEvent => some ⟨s.nextId, some s.txId, s.txHeight⟩
  | _ => none

/-- The row satisfies the CHECK of its partition. -/
def Accepted (s : State) (e : Event) : Prop :=
  ∀ c ∈ s.constraints.rows, c.partition.Contains e.id → c.bounds.Passes e

instance (s : State) (e : Event) : Decidable (Accepted s e) :=
  inferInstanceAs (Decidable (∀ c ∈ s.constraints.rows, c.partition.Contains e.id →
    c.bounds.Passes e))

/-- An insert; a rejected row has used its id. -/
def insertEvent (s : State) (e : Event) : State :=
  { s with
    events := if Accepted s e then s.events ++ [e] else s.events
    nextId := s.nextId + 1 }

/-- `createConstraint`: the constraint is validated against the rows of the partition, in one
transaction with the drop of the old one. -/
def createConstraint (s : State) (p : Partition) (b : Bounds) : State :=
  if ∀ e ∈ rowsOf s.events p, b.Passes e then
    { s with constraints := s.constraints.upsert (newConstraint p b), pending := none }
  else { s with pending := none }

def partitionStep (s : State) : Label → State
  | .nextBlock height => if s.blockHeight ≤ height then { s with blockHeight := height } else s
  | .blockEvent => insertEvent s ⟨s.nextId, none, s.blockHeight⟩
  | .nextTransaction id height =>
    -- ids follow the heights, and no transaction is handled before its block is crawled
    if s.txId ≤ id ∧ s.txHeight ≤ height ∧ height ≤ s.blockHeight then
      { s with txId := id, txHeight := height }
    else s
  | .txEvent => insertEvent s ⟨s.nextId, some s.txId, s.txHeight⟩
  | .skipId => { s with nextId := s.nextId + 1 }
  | .prepare p =>
    let insertionStatus := getPartitionInsertionInfo s.events p
    { s with
      pending := (prepareConstrainInformation s.events p insertionStatus
        (s.constraints.get? p)).map fun b => (p, b) }
  | .alter =>
    match s.pending with
    | none => s
    | some (p, b) => createConstraint s p b

/-- Nothing is inserted yet: `CRAWL_BLOCK` and `HANDLE_TRANSACTION` are anywhere, the second at
or below the first. -/
def State.initial (nextId blockHeight txId txHeight : ℕ) : State where
  events := []
  nextId := nextId
  blockHeight := blockHeight
  txId := txId
  txHeight := txHeight
  constraints := Table.empty
  pending := none

/-! ## 4. What is to hold, and when it does -/

/-- The row that a step inserts is accepted. -/
def StepAccepted (s : State) (a : Label) : Prop := ∀ e ∈ newEvent s a, Accepted s e

/-- The condition of a step: a constraint is attached when its partition is full, or its lowest
height is at or below the height of `HANDLE_TRANSACTION`. -/
def NotAhead (s : State) : Label → Prop
  | .alter => ∀ q ∈ s.pending, q.1.toId ≤ s.nextId ∨ ∀ height ∈ q.2.fromHeight, height ≤ s.txHeight
  | _ => True

instance (s : State) : (a : Label) → Decidable (NotAhead s a)
  | .alter =>
    inferInstanceAs (Decidable (∀ q ∈ s.pending,
      q.1.toId ≤ s.nextId ∨ ∀ height ∈ q.2.fromHeight, height ≤ s.txHeight))
  | .nextBlock _ | .blockEvent | .nextTransaction _ _ | .txEvent | .skipId | .prepare _ =>
    inferInstanceAs (Decidable True)

instance (s : State) (a : Label) : Decidable (StepAccepted s a) :=
  inferInstanceAs (Decidable (∀ e ∈ newEvent s a, Accepted s e))

/-! ## 5. Proof -/

section
variable {s : State}

/-- The lower bounds are at or below what the producers insert from now on. -/
structure Below (txId blockHeight : ℕ) (b : Bounds) : Prop where
  toTxId : b.toTxId = none
  tx : ∀ id ∈ b.fromTxId, id ≤ txId
  block : ∀ height ∈ b.fromHeight, height ≤ blockHeight

/-- The invariant: the rows lie behind the producers; a partition that still fills has a
constraint without upper bounds, and so has the one that is prepared. -/
structure Inv (s : State) : Prop where
  heights : s.txHeight ≤ s.blockHeight
  id_lt : ∀ e ∈ s.events, e.id < s.nextId
  tx_le : ∀ e ∈ s.events, ∀ id ∈ e.tx_id, id ≤ s.txId
  height_le : ∀ e ∈ s.events, e.block_height ≤ s.blockHeight
  attached : ∀ c ∈ s.constraints.rows, c.partition.toId ≤ s.nextId ∨
    (Below s.txId s.blockHeight c.bounds ∧ ∀ height ∈ c.bounds.fromHeight, height ≤ s.txHeight)
  prepared : ∀ q ∈ s.pending, q.1.toId ≤ s.nextId ∨ Below s.txId s.blockHeight q.2

/-- Where the producers are only moves on. -/
structure Moves (s s' : State) : Prop where
  nextId : s.nextId ≤ s'.nextId
  txId : s.txId ≤ s'.txId
  txHeight : s.txHeight ≤ s'.txHeight
  blockHeight : s.blockHeight ≤ s'.blockHeight

theorem Below.mono {s' : State} {b : Bounds} (h : Below s.txId s.blockHeight b)
    (hm : Moves s s') : Below s'.txId s'.blockHeight b :=
  ⟨h.toTxId, fun id hid => (h.tx id hid).trans hm.txId,
    fun height hh => (h.block height hh).trans hm.blockHeight⟩

theorem Inv.attached_mono {s' : State} (h : Inv s) (hm : Moves s s') :
    ∀ c ∈ s.constraints.rows, c.partition.toId ≤ s'.nextId ∨
      (Below s'.txId s'.blockHeight c.bounds ∧ ∀ height ∈ c.bounds.fromHeight, height ≤ s'.txHeight) := by
  intro c hc
  rcases h.attached c hc with hfull | ⟨hbelow, hheight⟩
  · exact Or.inl (hfull.trans hm.nextId)
  · exact Or.inr ⟨hbelow.mono hm, fun height hh => (hheight height hh).trans hm.txHeight⟩

theorem Inv.prepared_mono {s' : State} (h : Inv s) (hm : Moves s s') :
    ∀ q ∈ s.pending, q.1.toId ≤ s'.nextId ∨ Below s'.txId s'.blockHeight q.2 := by
  intro q hq
  rcases h.prepared q hq with hfull | hbelow
  · exact Or.inl (hfull.trans hm.nextId)
  · exact Or.inr (hbelow.mono hm)

/-- A row at the producers passes bounds that lie below them. -/
theorem passes_of_below {b : Bounds} {e : Event} (h : Below s.txId s.blockHeight b)
    (htx : ∀ id ∈ e.tx_id, id = s.txId)
    (hheight : ∀ height ∈ b.fromHeight, height ≤ e.block_height) : b.Passes e := by
  rw [Bounds.Passes, Bounds.check, h.toTxId]
  refine sqlAnd_ne_false (sqlGe_ne_false fun id hid id' hid' => ?_)
    (sqlGe_ne_false fun height hh height' hh' => ?_)
  · rw [htx id hid]
    exact h.tx id' hid'
  · cases hh
    exact hheight height' hh'

/-- Every insert is accepted. -/
theorem Inv.accepted (h : Inv s) (a : Label) : StepAccepted s a := by
  have hcheck : ∀ e : Event, e.id = s.nextId → (∀ id ∈ e.tx_id, id = s.txId) →
      (s.txHeight ≤ e.block_height) → Accepted s e := by
    intro e hid htx hheight c hc hin
    rcases h.attached c hc with hfull | ⟨hbelow, hle⟩
    · have := hin.2
      omega
    · exact passes_of_below hbelow htx fun height hh => (hle height hh).trans hheight
  intro e he
  cases a with
  | blockEvent =>
    cases he
    exact hcheck _ rfl (by simp) h.heights
  | txEvent =>
    cases he
    exact hcheck _ rfl (by simp) le_rfl
  | nextBlock height => cases he
  | nextTransaction id height => cases he
  | skipId => cases he
  | prepare p => cases he
  | alter => cases he

theorem inv_insertEvent (h : Inv s) {e : Event} (hid : e.id = s.nextId)
    (htx : ∀ id ∈ e.tx_id, id ≤ s.txId) (hheight : e.block_height ≤ s.blockHeight) :
    Inv (insertEvent s e) := by
  have hmoves : Moves s (insertEvent s e) := ⟨Nat.le_succ _, le_rfl, le_rfl, le_rfl⟩
  have hmem : ∀ x ∈ (insertEvent s e).events, x ∈ s.events ∨ x = e := by
    intro x hx
    simp only [insertEvent] at hx
    split at hx
    · simpa using hx
    · exact Or.inl hx
  refine ⟨h.heights, fun x hx => ?_, fun x hx => ?_, fun x hx => ?_, h.attached_mono hmoves,
    h.prepared_mono hmoves⟩
  · rcases hmem x hx with hx | rfl
    · exact (h.id_lt x hx).trans (Nat.lt_succ_self _)
    · exact hid ▸ Nat.lt_succ_self _
  · rcases hmem x hx with hx | rfl
    · exact h.tx_le x hx
    · exact htx
  · rcases hmem x hx with hx | rfl
    · exact h.height_le x hx
    · exact hheight

/-- What is prepared: a partition whose last id is used, or lower bounds of its rows. -/
theorem prepared_below (h : Inv s) {p : Partition} {b : Bounds}
    (hb : prepareConstrainInformation s.events p (getPartitionInsertionInfo s.events p)
      (s.constraints.get? p) = some b) : p.toId ≤ s.nextId ∨ Below s.txId s.blockHeight b := by
  have hrow : ∀ e ∈ rowsOf s.events p, e ∈ s.events := fun e he => List.mem_of_mem_filter he
  cases hstatus : getPartitionInsertionInfo s.events p with
  | empty =>
    rw [hstatus] at hb
    cases hb
  | done =>
    left
    simp only [getPartitionInsertionInfo] at hstatus
    split at hstatus
    · cases hstatus
    case h_2 latest hlatest =>
      split at hstatus
      · next hlast =>
        obtain ⟨e, he, rfl⟩ := List.mem_map.mp (List.max?_mem hlatest)
        have := h.id_lt e (hrow e he)
        omega
      · cases hstatus
  | inserting =>
    right
    rw [hstatus] at hb
    simp only [prepareConstrainInformation] at hb
    split at hb
    · cases hb
    · cases hb
      refine ⟨rfl, fun id hid => ?_, fun height hh => ?_⟩
      · obtain ⟨e, he, htx⟩ := List.mem_filterMap.mp (List.min?_mem hid)
        exact h.tx_le e (hrow e he) id htx
      · obtain ⟨e, he, rfl⟩ := List.mem_map.mp (List.min?_mem hh)
        exact h.height_le e (hrow e he)

theorem inv_createConstraint (h : Inv s) {p : Partition} {b : Bounds}
    (hpending : s.pending = some (p, b))
    (hcond : p.toId ≤ s.nextId ∨ ∀ height ∈ b.fromHeight, height ≤ s.txHeight) :
    Inv (createConstraint s p b) := by
  unfold createConstraint
  split
  · refine ⟨h.heights, h.id_lt, h.tx_le, h.height_le, fun c hc => ?_, by simp⟩
    rcases Table.mem_rows_upsert.mp hc with rfl | ⟨hc, _⟩
    · rcases h.prepared (p, b) hpending with hfull | hbelow
      · exact Or.inl hfull
      · rcases hcond with hfull | hheight
        · exact Or.inl hfull
        · exact Or.inr ⟨hbelow, hheight⟩
    · exact h.attached c hc
  · exact ⟨h.heights, h.id_lt, h.tx_le, h.height_le, h.attached, by simp⟩

theorem inv_step {a : Label} (h : Inv s) (hcond : NotAhead s a) : Inv (partitionStep s a) := by
  cases a with
  | nextBlock height =>
    simp only [partitionStep]
    split
    · next hle =>
      have hmoves : Moves s { s with blockHeight := height } := ⟨le_rfl, le_rfl, le_rfl, hle⟩
      exact ⟨h.heights.trans hle, h.id_lt, h.tx_le, fun e he => (h.height_le e he).trans hle,
        h.attached_mono hmoves, h.prepared_mono hmoves⟩
    · exact h
  | blockEvent => exact inv_insertEvent h rfl (by simp) le_rfl
  | nextTransaction id height =>
    simp only [partitionStep]
    split
    · next hle =>
      have hmoves : Moves s { s with txId := id, txHeight := height } :=
        ⟨le_rfl, hle.1, hle.2.1, le_rfl⟩
      exact ⟨hle.2.2, h.id_lt, fun e he i hi => (h.tx_le e he i hi).trans hle.1, h.height_le,
        h.attached_mono hmoves, h.prepared_mono hmoves⟩
    · exact h
  | txEvent => exact inv_insertEvent h rfl (by simp) h.heights
  | skipId =>
    have hmoves : Moves s { s with nextId := s.nextId + 1 } :=
      ⟨Nat.le_succ _, le_rfl, le_rfl, le_rfl⟩
    exact ⟨h.heights, fun e he => (h.id_lt e he).trans (Nat.lt_succ_self _), h.tx_le, h.height_le,
      h.attached_mono hmoves, h.prepared_mono hmoves⟩
  | prepare p =>
    refine ⟨h.heights, h.id_lt, h.tx_le, h.height_le, h.attached, fun q hq => ?_⟩
    obtain ⟨b, hb, rfl⟩ := Option.map_eq_some_iff.mp hq
    exact prepared_below h hb
  | alter =>
    simp only [partitionStep]
    split
    · exact h
    case h_2 p b hpending => exact inv_createConstraint h hpending (hcond (p, b) hpending)

/-- In every run where no constraint is attached to a partition that still fills with a lowest
height above that of `HANDLE_TRANSACTION`, every insert satisfies the CHECK of its partition. -/
theorem inserts_accepted (nextId blockHeight txId txHeight : ℕ) (hheights : txHeight ≤ blockHeight)
    (as : List Label)
    (has : Meets partitionStep NotAhead (State.initial nextId blockHeight txId txHeight) as) :
    Meets partitionStep StepAccepted (State.initial nextId blockHeight txId txHeight) as := by
  have hinit : Inv (State.initial nextId blockHeight txId txHeight) :=
    ⟨hheights, by simp [State.initial], by simp [State.initial], by simp [State.initial],
      by simp [State.initial, Table.empty], by simp [State.initial]⟩
  exact has.imp (fun _ _ => inv_step) (fun _ a h _ => h.accepted a) hinit

/-- The events of the blocks 5 and 6 come first, then a constraint, then the events of a
transaction of block 6. -/
theorem inserts_accepted_in_step :
    let as : List Label := [.blockEvent, .nextBlock 6, .blockEvent, .prepare ⟨"event_0", 0, 100⟩,
      .nextTransaction 2 6, .alter, .txEvent, .blockEvent]
    5 ≤ 5 ∧ Meets partitionStep NotAhead (State.initial 1 5 1 5) as ∧
      Meets partitionStep StepAccepted (State.initial 1 5 1 5) as := by
  intro as
  have has : Meets partitionStep NotAhead (State.initial 1 5 1 5) as := by decide +kernel
  exact ⟨le_rfl, has, inserts_accepted 1 5 1 5 le_rfl as has⟩

/-- `CRAWL_BLOCK` is at height 10 and `HANDLE_TRANSACTION` at height 5 when the partition gets
its first row and its constraint. -/
theorem late_event_rejected :
    let as : List Label := [.blockEvent, .prepare ⟨"event_0", 0, 100⟩, .alter]
    let s := runFrom partitionStep (State.initial 1 10 1 5) as
    s.constraints.get? ⟨"event_0", 0, 100⟩ =
        some ⟨⟨"event_0", 0, 100⟩, .inserting, ⟨none, none, some 10, none⟩⟩ ∧
      newEvent s .txEvent = some ⟨2, some 1, 5⟩ ∧
      ¬ Meets partitionStep StepAccepted (State.initial 1 10 1 5) (as ++ [.txEvent]) := by
  decide +kernel

end

end Erascope.EventPartition
