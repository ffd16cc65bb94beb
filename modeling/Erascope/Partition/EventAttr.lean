import Mathlib.Tactic
import Erascope.Lib.Ranges
import Erascope.Lib.Run

/-!
# Creating the partitions of `event_attribute`

The model of `services/job/create_event_attr_partition.service.ts`. A check job queues the range
behind the checkpoint `JOB_CREATE_EVENT_ATTR_PARTITION`, possibly several times. The job that
creates a partition runs `CREATE TABLE` and `ATTACH PARTITION` in a transaction; the update of the
checkpoint is not part of it, and commits by itself before the partition does.

* `step`: any interleaving of the statements of any number of jobs, with errors and crashes at every
  point. A name that an open transaction has created makes the next `CREATE TABLE` wait, and so does
  the lock of an attached partition the next `ATTACH PARTITION`.
* `Covered`: the partitions follow one another up to the checkpoint.

Results:
1. `covered_iff`: the runs in which the partitions are covered, in every state, and in every state
   where no job is between its update and its commit.
2. `covered_between`: what holds while a job is between the two.
-/

namespace Erascope.EventAttrPartition

/-! ## 1. Jobs -/

/-- The payload of `JOB_CREATE_EVENT_ATTR_PARTITION`. -/
structure Payload where
  startBlock : ℕ
  endBlock : ℕ
deriving DecidableEq, Repr

def Payload.range (p : Payload) : Range := ⟨p.startBlock, p.endBlock⟩

/-- The name of the table of a range. -/
def tableName (r : Range) : String := r.name "event_attribute_partition"

/-- How far a run of `jobCreateEventAttrPartition` has come: the last statement that is done. -/
inductive Phase
  | begun | created | attached | updated
deriving DecidableEq, Repr

/-- The transaction has created a table. -/
def Phase.hasTable : Phase → Bool
  | .begun => false
  | _ => true

/-- The transaction holds the lock that `ATTACH PARTITION` takes on `event_attribute`. -/
def Phase.hasLock : Phase → Bool
  | .attached | .updated => true
  | _ => false

/-- A run of `jobCreateEventAttrPartition` before its commit. -/
structure Job where
  payload : Payload
  phase : Phase
deriving DecidableEq, Repr

/-- `config.jobCheckNeedCreateEventAttributePartition` -/
structure Config where
  range : ℕ
  step : ℕ
  step_pos : 0 < step

/-- What is committed, the payloads that were queued, and the job each worker is at. -/
structure State (W : Type) where
  partitions : List Range
  eventAttrPartitionCheckpoint : ℕ
  blockHeightCrawledCheckpoint : Option ℕ
  queue : List Payload
  job : W → Option Job

inductive Label (W : Type)
  /-- `CRAWL_BLOCK` stores its height. -/
  | crawl (height : ℕ)
  /-- A run of `jobCheckIfNeedCreateEventAttrPartition`. -/
  | check
  /-- A worker begins with a payload, which may have been taken before. -/
  | start (w : W) (payload : Payload)
  | createTable (w : W)
  | attachPartition (w : W)
  | updateCheckpoint (w : W)
  | commit (w : W)
  /-- A statement or the commit fails, or the worker crashes: the transaction is rolled back. -/
  | fail (w : W)

section
variable {W : Type} [DecidableEq W]

/-- Worker `w` goes on with the job `j`, or with none. -/
def State.set (s : State W) (w : W) (j : Option Job) : State W :=
  { s with job := Function.update s.job w j }

/-- A table with the name of the payload is committed. -/
def State.TableExists (s : State W) (p : Payload) : Prop :=
  ∃ r ∈ s.partitions, tableName r = tableName p.range

/-- A transaction has created a table with the name of the payload. -/
def State.TableOpen (s : State W) (p : Payload) : Prop :=
  ∃ v : W, (s.job v).any (fun j => j.phase.hasTable && tableName j.payload.range = tableName p.range)

/-- A transaction holds the lock on `event_attribute`. -/
def State.Locked (s : State W) : Prop := ∃ v : W, (s.job v).any fun j => j.phase.hasLock

instance (s : State W) (p : Payload) : Decidable (s.TableExists p) :=
  inferInstanceAs (Decidable (∃ _ ∈ _, _))

instance [Fintype W] (s : State W) (p : Payload) : Decidable (s.TableOpen p) :=
  inferInstanceAs (Decidable (∃ _, _))

instance [Fintype W] (s : State W) : Decidable s.Locked := inferInstanceAs (Decidable (∃ _, _))

/-- `jobCheckIfNeedCreateEventAttrPartition` -/
def checkIfNeedCreate (config : Config) (s : State W) : State W :=
  match s.blockHeightCrawledCheckpoint with
  | none => s
  | some height =>
    if s.eventAttrPartitionCheckpoint ≤ height + config.range then
      { s with queue := s.queue ++
          [⟨s.eventAttrPartitionCheckpoint, s.eventAttrPartitionCheckpoint + config.step⟩] }
    else s

/-- The step function. A statement that has to wait changes nothing. -/
def step [Fintype W] (config : Config) (s : State W) : Label W → State W
  | .crawl height => { s with blockHeightCrawledCheckpoint := some height }
  | .check => checkIfNeedCreate config s
  | .start w payload =>
    match s.job w with
    | none => if payload ∈ s.queue then s.set w (some ⟨payload, .begun⟩) else s
    | some _ => s
  | .createTable w =>
    match s.job w with
    | some ⟨payload, .begun⟩ =>
      -- creating a table that exists fails; one that is not committed yet is waited for
      if s.TableExists payload then s.set w none
      else if s.TableOpen payload then s
      else s.set w (some ⟨payload, .created⟩)
    | _ => s
  | .attachPartition w =>
    match s.job w with
    | some ⟨payload, .created⟩ =>
      if s.Locked then s
      else if ∃ r ∈ s.partitions, r.Overlaps payload.range then s.set w none
      else s.set w (some ⟨payload, .attached⟩)
    | _ => s
  | .updateCheckpoint w =>
    match s.job w with
    | some ⟨payload, .attached⟩ =>
      { s.set w (some ⟨payload, .updated⟩) with eventAttrPartitionCheckpoint := payload.endBlock }
    | _ => s
  | .commit w =>
    match s.job w with
    | some ⟨payload, .updated⟩ =>
      { s.set w none with partitions := s.partitions ++ [payload.range] }
    | _ => s
  | .fail w => s.set w none

/-! ## 2. Coverage -/

/-- The partitions are disjoint and contiguous from `start`, and reach the checkpoint. -/
def Covered (start : ℕ) (s : State W) : Prop :=
  Tiles start s.partitions s.eventAttrPartitionCheckpoint

omit [DecidableEq W] in
/-- No two partitions overlap, and each block below the checkpoint has one. -/
theorem blocks_of_covered {start : ℕ} {s : State W} (h : Covered start s) :
    (s.partitions.Pairwise fun r r' => ¬ r.Overlaps r') ∧
      ∀ x, start ≤ x → x < s.eventAttrPartitionCheckpoint →
        ∃ r, (s.partitions.filter fun r => r.Contains x) = [r] :=
  ⟨h.disjoint, fun _ hstart hend => h.filter_contains hstart hend⟩

/-- No job is between its update of the checkpoint and its commit. -/
def AtRest (s : State W) : Prop := ∀ w p, s.job w ≠ some ⟨p, .updated⟩

/-- A job gets to its update of the checkpoint. -/
def Updates (s : State W) (a : Label W) : Prop :=
  ∃ w p, a = .updateCheckpoint w ∧ s.job w = some ⟨p, .attached⟩

/-- A job crashes, or its commit fails, after its update of the checkpoint. -/
def FailsAfterUpdate (s : State W) (a : Label W) : Prop :=
  ∃ w p, a = .fail w ∧ s.job w = some ⟨p, .updated⟩

/-- A state before any job: the partitions reach the checkpoint. -/
structure Initial (start : ℕ) (s : State W) : Prop where
  covered : Covered start s
  queue : s.queue = []
  job : ∀ w, s.job w = none

/-! ## 3. The invariant -/

/-- A payload of the run: its partition is there, or begins where the partitions end, or where the
checkpoint is. -/
def Known (config : Config) (h : ℕ) (s : State W) (p : Payload) : Prop :=
  p.endBlock = p.startBlock + config.step ∧
    (p.range ∈ s.partitions ∨ p.startBlock = h ∨ p.startBlock = s.eventAttrPartitionCheckpoint)

/-- The states of a run in which no transaction failed after its update; the committed partitions
reach `h`. -/
structure Inv (config : Config) (start h : ℕ) (s : State W) : Prop where
  tiles : Tiles start s.partitions h
  checkpoint : AtRest s ∧ s.eventAttrPartitionCheckpoint = h ∨
    ∃ w p, s.job w = some ⟨p, .updated⟩ ∧ s.eventAttrPartitionCheckpoint = p.endBlock
  queued : ∀ p ∈ s.queue, Known config h s p
  running : ∀ w j, s.job w = some j → Known config h s j.payload
  table : ∀ w v j j', s.job w = some j → s.job v = some j' → j.phase.hasTable → j'.phase.hasTable →
    j.payload = j'.payload → w = v
  fresh : ∀ w j, s.job w = some j → j.phase.hasTable → j.payload.range ∉ s.partitions
  lock : ∀ w v j j', s.job w = some j → s.job v = some j' → j.phase.hasLock → j'.phase.hasLock →
    w = v
  next : ∀ w j, s.job w = some j → j.phase.hasLock → j.payload.startBlock = h

namespace EventAttrLemmas

variable {config : Config} {start h : ℕ} {s : State W}

theorem range_injective {p q : Payload} (h : p.range = q.range) : p = q := by
  obtain ⟨a, b⟩ := p
  obtain ⟨a', b'⟩ := q
  obtain ⟨rfl, rfl⟩ := Range.mk.inj h
  rfl

omit [DecidableEq W] in
theorem tableExists_iff {p : Payload} : s.TableExists p ↔ p.range ∈ s.partitions := by
  constructor
  · rintro ⟨r, hr, hname⟩
    exact Range.name_injective hname ▸ hr
  · exact fun hr => ⟨_, hr, rfl⟩

omit [DecidableEq W] in
theorem tableOpen_iff {p : Payload} :
    s.TableOpen p ↔ ∃ v j, s.job v = some j ∧ j.phase.hasTable ∧ j.payload = p := by
  simp only [State.TableOpen, Option.any_eq_true, Bool.and_eq_true, decide_eq_true_eq]
  constructor
  · rintro ⟨v, j, hj, htable, hname⟩
    exact ⟨v, j, hj, htable, range_injective (Range.name_injective hname)⟩
  · rintro ⟨v, j, hj, htable, rfl⟩
    exact ⟨v, j, hj, htable, rfl⟩

omit [DecidableEq W] in
theorem locked_iff : s.Locked ↔ ∃ v j, s.job v = some j ∧ j.phase.hasLock := by
  simp only [State.Locked, Option.any_eq_true]

theorem job_set (w v : W) (x : Option Job) :
    (s.set w x).job v = if v = w then x else s.job v := Function.update_apply ..

/-- A job that may take the place of another one. -/
structure Admitted (config : Config) (h : ℕ) (s : State W) (w : W) (j : Job) : Prop where
  known : Known config h s j.payload
  notUpdated : j.phase ≠ .updated
  table : j.phase.hasTable → j.payload.range ∉ s.partitions ∧
    ∀ v j', v ≠ w → s.job v = some j' → j'.phase.hasTable → j.payload ≠ j'.payload
  lock : j.phase.hasLock → j.payload.startBlock = h ∧
    ∀ v j', v ≠ w → s.job v = some j' → j'.phase.hasLock → False

/-- A worker whose transaction has not updated the checkpoint goes on. -/
theorem inv_set (hinv : Inv config start h s) {w : W} (hw : ∀ p, s.job w ≠ some ⟨p, .updated⟩)
    {x : Option Job} (hx : ∀ j, x = some j → Admitted config h s w j) :
    Inv config start h (s.set w x) := by
  refine ⟨hinv.tiles, ?_, hinv.queued, ?_, ?_, ?_, ?_, ?_⟩
  · rcases hinv.checkpoint with ⟨hrest, hcheck⟩ | ⟨v, p, hv, hcheck⟩
    · refine .inl ⟨fun v p hv => ?_, hcheck⟩
      rw [job_set] at hv
      split at hv
      · exact (hx _ hv).notUpdated rfl
      · exact hrest v p hv
    · refine .inr ⟨v, p, ?_, hcheck⟩
      rw [job_set, if_neg]
      · exact hv
      · rintro rfl
        exact hw p hv
  · intro v j hv
    rw [job_set] at hv
    split at hv
    · exact (hx j hv).known
    · exact hinv.running v j hv
  · intro v v' j j' hv hv' ht ht' hp
    rw [job_set] at hv hv'
    split at hv <;> split at hv'
    case isTrue.isTrue hvw hvw' => rw [hvw, hvw']
    case isTrue.isFalse hvw hvw' => exact absurd hp (((hx j hv).table ht).2 v' j' hvw' hv' ht')
    case isFalse.isTrue hvw hvw' =>
      exact absurd hp.symm (((hx j' hv').table ht').2 v j hvw hv ht)
    case isFalse.isFalse => exact hinv.table v v' j j' hv hv' ht ht' hp
  · intro v j hv ht
    rw [job_set] at hv
    split at hv
    · exact ((hx j hv).table ht).1
    · exact hinv.fresh v j hv ht
  · intro v v' j j' hv hv' hl hl'
    rw [job_set] at hv hv'
    split at hv <;> split at hv'
    case isTrue.isTrue hvw hvw' => rw [hvw, hvw']
    case isTrue.isFalse hvw hvw' => exact (((hx j hv).lock hl).2 v' j' hvw' hv' hl').elim
    case isFalse.isTrue hvw hvw' => exact (((hx j' hv').lock hl').2 v j hvw hv hl).elim
    case isFalse.isFalse => exact hinv.lock v v' j j' hv hv' hl hl'
  · intro v j hv hl
    rw [job_set] at hv
    split at hv
    · exact ((hx j hv).lock hl).1
    · exact hinv.next v j hv hl

theorem inv_drop (hinv : Inv config start h s) {w : W} (hw : ∀ p, s.job w ≠ some ⟨p, .updated⟩) :
    Inv config start h (s.set w none) :=
  inv_set hinv hw fun j hj => by cases hj

omit [DecidableEq W] in
theorem inv_check (hinv : Inv config start h s) :
    Inv config start h (checkIfNeedCreate config s) := by
  unfold checkIfNeedCreate
  split
  · exact hinv
  · split
    · refine ⟨hinv.tiles, hinv.checkpoint, ?_, hinv.running, hinv.table, hinv.fresh, hinv.lock,
        hinv.next⟩
      intro p hp
      rcases List.mem_append.mp hp with hp | hp
      · exact hinv.queued p hp
      · rw [List.mem_singleton.mp hp]
        exact ⟨rfl, .inr (.inr rfl)⟩
    · exact hinv

theorem inv_start (hinv : Inv config start h s) {w : W} {p : Payload} (hw : s.job w = none)
    (hp : p ∈ s.queue) : Inv config start h (s.set w (some ⟨p, .begun⟩)) := by
  refine inv_set hinv (by simp [hw]) ?_
  rintro j ⟨⟩
  exact ⟨hinv.queued p hp, by simp, fun ht => by simp [Phase.hasTable] at ht,
    fun hl => by simp [Phase.hasLock] at hl⟩

theorem inv_created (hinv : Inv config start h s) {w : W} {p : Payload}
    (hw : s.job w = some ⟨p, .begun⟩) (hnew : ¬ s.TableExists p) (hfree : ¬ s.TableOpen p) :
    Inv config start h (s.set w (some ⟨p, .created⟩)) := by
  refine inv_set hinv (by simp [hw]) ?_
  rintro j ⟨⟩
  have hknown : Known config h s p := hinv.running w ⟨p, .begun⟩ hw
  refine ⟨hknown, by simp, fun _ => ⟨fun hr => hnew (tableExists_iff.mpr hr), ?_⟩,
    fun hl => by simp [Phase.hasLock] at hl⟩
  rintro v j' - hv ht rfl
  exact hfree (tableOpen_iff.mpr ⟨v, j', hv, ht, rfl⟩)

/-- A table that gets its lock begins where the partitions end. -/
theorem inv_attached (hinv : Inv config start h s) {w : W} {p : Payload}
    (hw : s.job w = some ⟨p, .created⟩) (hfree : ¬ s.Locked) :
    Inv config start h (s.set w (some ⟨p, .attached⟩)) := by
  have hunlocked : ∀ v j, s.job v = some j → ¬ j.phase.hasLock := fun v j hv hl =>
    hfree (locked_iff.mpr ⟨v, j, hv, hl⟩)
  refine inv_set hinv (by simp [hw]) ?_
  rintro j ⟨⟩
  have hknown : Known config h s p := hinv.running w ⟨p, .created⟩ hw
  have hnew : p.range ∉ s.partitions := hinv.fresh w ⟨p, .created⟩ hw rfl
  refine ⟨hknown, by simp, fun _ => ⟨hnew, ?_⟩, fun _ => ⟨?_, ?_⟩⟩
  · intro v j' hne hv ht heq
    exact hne (hinv.table v w j' ⟨p, .created⟩ hv hw ht rfl heq.symm)
  · have hcheck : s.eventAttrPartitionCheckpoint = h := by
      rcases hinv.checkpoint with ⟨-, hcheck⟩ | ⟨v, q, hv, -⟩
      · exact hcheck
      · exact absurd rfl (hunlocked v _ hv)
    rcases hknown.2 with hold | hnext | hnext
    · exact absurd hold hnew
    · exact hnext
    · exact hnext.trans hcheck
  · intro v j' _ hv hl
    exact hunlocked v j' hv hl

omit [DecidableEq W] in
/-- A job that has attached its table finds the checkpoint at the end of the partitions. -/
theorem checkpoint_of_attached (hinv : Inv config start h s) {w : W} {p : Payload}
    (hw : s.job w = some ⟨p, .attached⟩) : s.eventAttrPartitionCheckpoint = h := by
  rcases hinv.checkpoint with ⟨-, hcheck⟩ | ⟨v, q, hv, -⟩
  · exact hcheck
  · obtain rfl := hinv.lock v w _ _ hv hw rfl rfl
    rw [hw] at hv
    cases hv

omit [DecidableEq W] in
theorem checkpoint_of_updated (hinv : Inv config start h s) {w : W} {p : Payload}
    (hw : s.job w = some ⟨p, .updated⟩) : s.eventAttrPartitionCheckpoint = p.endBlock := by
  rcases hinv.checkpoint with ⟨hrest, -⟩ | ⟨v, q, hv, hcheck⟩
  · exact absurd hw (hrest w p)
  · obtain rfl := hinv.lock v w _ _ hv hw rfl rfl
    rw [hw] at hv
    cases hv
    exact hcheck

theorem inv_updated (hinv : Inv config start h s) {w : W} {p : Payload}
    (hw : s.job w = some ⟨p, .attached⟩) :
    Inv config start h
      { s.set w (some ⟨p, .updated⟩) with eventAttrPartitionCheckpoint := p.endBlock } := by
  have hcheck := checkpoint_of_attached hinv hw
  have hknown : ∀ q, Known config h s q → Known config h
      { s.set w (some ⟨p, .updated⟩) with eventAttrPartitionCheckpoint := p.endBlock } q := by
    rintro q ⟨hstep, hold | hnext | hnext⟩
    · exact ⟨hstep, .inl hold⟩
    · exact ⟨hstep, .inr (.inl hnext)⟩
    · exact ⟨hstep, .inr (.inl (hnext.trans hcheck))⟩
  -- whatever is true of the job of each worker stays true: the payload is the same, and so are
  -- the table and the lock
  have hsame : ∀ v j, (s.set w (some ⟨p, .updated⟩)).job v = some j → ∃ j', s.job v = some j' ∧
      j'.payload = j.payload ∧ j'.phase.hasTable = j.phase.hasTable ∧
        j'.phase.hasLock = j.phase.hasLock := by
    intro v j hv
    rw [job_set] at hv
    split at hv
    case isTrue hvw =>
      cases hv
      exact ⟨⟨p, .attached⟩, hvw ▸ hw, rfl, rfl, rfl⟩
    case isFalse => exact ⟨j, hv, rfl, rfl, rfl⟩
  refine ⟨hinv.tiles, .inr ⟨w, p, ?_, rfl⟩, fun q hq => hknown q (hinv.queued q hq), ?_, ?_, ?_, ?_,
    ?_⟩
  · exact (job_set w w _).trans (if_pos rfl)
  · intro v j hv
    obtain ⟨j', hv', hp, -, -⟩ := hsame v j hv
    exact hp ▸ hknown _ (hinv.running v j' hv')
  · intro v v' j j' hv hv' ht ht' hp
    obtain ⟨i, hi, hpi, hti, -⟩ := hsame v j hv
    obtain ⟨i', hi', hpi', hti', -⟩ := hsame v' j' hv'
    exact hinv.table v v' i i' hi hi' (hti ▸ ht) (hti' ▸ ht') (by rw [hpi, hpi', hp])
  · intro v j hv ht
    obtain ⟨i, hi, hpi, hti, -⟩ := hsame v j hv
    exact hpi ▸ hinv.fresh v i hi (hti ▸ ht)
  · intro v v' j j' hv hv' hl hl'
    obtain ⟨i, hi, -, -, hli⟩ := hsame v j hv
    obtain ⟨i', hi', -, -, hli'⟩ := hsame v' j' hv'
    exact hinv.lock v v' i i' hi hi' (hli ▸ hl) (hli' ▸ hl')
  · intro v j hv hl
    obtain ⟨i, hi, hpi, -, hli⟩ := hsame v j hv
    exact hpi ▸ hinv.next v i hi (hli ▸ hl)

/-- The commit of a job that has updated the checkpoint. -/
theorem inv_commit (hinv : Inv config start h s) {w : W} {p : Payload}
    (hw : s.job w = some ⟨p, .updated⟩) :
    Inv config start p.endBlock
      { s.set w none with partitions := s.partitions ++ [p.range] } := by
  have hnext : p.startBlock = h := hinv.next w _ hw rfl
  have hstep : p.endBlock = p.startBlock + config.step := (hinv.running w _ hw).1
  have hcheck := checkpoint_of_updated hinv hw
  have hknown : ∀ q, Known config h s q → Known config p.endBlock
      { s.set w none with partitions := s.partitions ++ [p.range] } q := by
    rintro q ⟨hq, hold | hend | hend⟩
    · exact ⟨hq, .inl (List.mem_append_left _ hold)⟩
    · refine ⟨hq, .inl (List.mem_append_right _ (List.mem_singleton.mpr ?_))⟩
      rw [Payload.range, Payload.range, hq, hend, hstep, hnext]
    · exact ⟨hq, .inr (.inl (hend.trans hcheck))⟩
  have hother : ∀ v j, (s.set w none).job v = some j → v ≠ w ∧ s.job v = some j := by
    intro v j hv
    rw [job_set] at hv
    split at hv
    · cases hv
    · exact ⟨‹_›, hv⟩
  have hunlocked : ∀ v j, (s.set w none).job v = some j → ¬ j.phase.hasLock := by
    intro v j hv hl
    obtain ⟨hne, hv⟩ := hother v j hv
    exact hne (hinv.lock v w j _ hv hw hl rfl)
  refine ⟨?_, .inl ⟨fun v q hv => hunlocked v _ hv rfl, hcheck⟩,
    fun q hq => hknown q (hinv.queued q hq), ?_, ?_, ?_, ?_, ?_⟩
  · have hpos := config.step_pos
    have htiles : Tiles start s.partitions p.range.low :=
      (congrArg (Tiles start s.partitions) hnext).mpr hinv.tiles
    refine htiles.concat ?_
    show p.startBlock < p.endBlock
    omega
  · intro v j hv
    exact hknown _ (hinv.running v j (hother v j hv).2)
  · intro v v' j j' hv hv' ht ht' hp
    exact hinv.table v v' j j' (hother v j hv).2 (hother v' j' hv').2 ht ht' hp
  · intro v j hv ht hmem
    obtain ⟨hne, hv⟩ := hother v j hv
    rcases List.mem_append.mp hmem with hmem | hmem
    · exact hinv.fresh v j hv ht hmem
    · have hsame := range_injective (List.mem_singleton.mp hmem)
      exact hne (hinv.table v w j _ hv hw ht rfl hsame)
  · intro v v' j j' hv _ hl _
    exact absurd hl (hunlocked v j hv)
  · intro v j hv hl
    exact absurd hl (hunlocked v j hv)

omit [DecidableEq W] in
theorem covered_of_atRest (hinv : Inv config start h s) (hrest : AtRest s) : Covered start s := by
  rcases hinv.checkpoint with ⟨-, hcheck⟩ | ⟨w, p, hw, -⟩
  · exact (congrArg (Tiles start s.partitions) hcheck).mpr hinv.tiles
  · exact absurd hw (hrest w p)

omit [DecidableEq W] in
theorem inv_initial (hinit : Initial start s) :
    Inv config start s.eventAttrPartitionCheckpoint s := by
  have hnone : ∀ w j, s.job w ≠ some j := fun w j hw => by rw [hinit.job w] at hw; cases hw
  refine ⟨hinit.covered, .inl ⟨fun w p => hnone w _, rfl⟩, ?_, ?_, ?_, ?_, ?_, ?_⟩
  · rw [hinit.queue]
    simp
  · exact fun w j hw => absurd hw (hnone w j)
  · exact fun w v j j' hw => absurd hw (hnone w j)
  · exact fun w j hw => absurd hw (hnone w j)
  · exact fun w v j j' hw => absurd hw (hnone w j)
  · exact fun w j hw => absurd hw (hnone w j)

/-! ## 4. Steps -/

variable [Fintype W]

/-- A step after which no transaction has failed behind its update keeps the invariant. -/
theorem inv_step (hinv : Inv config start h s) {a : Label W} (ha : ¬ FailsAfterUpdate s a) :
    ∃ h', Inv config start h' (step config s a) := by
  cases a with
  | crawl height =>
    exact ⟨h, hinv.tiles, hinv.checkpoint, hinv.queued, hinv.running, hinv.table, hinv.fresh,
      hinv.lock, hinv.next⟩
  | check => exact ⟨h, inv_check hinv⟩
  | start w p =>
    rw [step]
    split
    case h_1 hw =>
      split
      · exact ⟨h, inv_start hinv hw ‹_›⟩
      · exact ⟨h, hinv⟩
    case h_2 => exact ⟨h, hinv⟩
  | createTable w =>
    rw [step]
    split
    case h_1 p hw =>
      split
      · exact ⟨h, inv_drop hinv (by simp [hw])⟩
      · split
        · exact ⟨h, hinv⟩
        · exact ⟨h, inv_created hinv hw ‹_› ‹_›⟩
    case h_2 => exact ⟨h, hinv⟩
  | attachPartition w =>
    rw [step]
    split
    case h_1 p hw =>
      split
      · exact ⟨h, hinv⟩
      · split
        · exact ⟨h, inv_drop hinv (by simp [hw])⟩
        · exact ⟨h, inv_attached hinv hw ‹_›⟩
    case h_2 => exact ⟨h, hinv⟩
  | updateCheckpoint w =>
    rw [step]
    split
    case h_1 p hw => exact ⟨h, inv_updated hinv hw⟩
    case h_2 => exact ⟨h, hinv⟩
  | commit w =>
    rw [step]
    split
    case h_1 p hw => exact ⟨p.endBlock, inv_commit hinv hw⟩
    case h_2 => exact ⟨h, hinv⟩
  | fail w => exact ⟨h, inv_drop hinv fun p hw => ha ⟨w, p, rfl, hw⟩⟩

/-- The update of the checkpoint, before its commit. -/
theorem not_covered_of_updated (hinv : Inv config start h s) {w : W} {p : Payload}
    (hw : s.job w = some ⟨p, .attached⟩) : ¬ Covered start (step config s (.updateCheckpoint w)) := by
  intro hcovered
  simp only [step, hw] at hcovered
  have hend : h = p.endBlock := hinv.tiles.high_unique hcovered
  have hnext : p.startBlock = h := hinv.next w _ hw rfl
  have hstep : p.endBlock = p.startBlock + config.step := (hinv.running w _ hw).1
  have := config.step_pos
  omega

/-- A failure after the update leaves the checkpoint ahead of the partitions. -/
theorem not_covered_of_fails (hinv : Inv config start h s) {a : Label W}
    (ha : FailsAfterUpdate s a) :
    AtRest (step config s a) ∧ ¬ Covered start (step config s a) := by
  obtain ⟨w, p, rfl, hw⟩ := ha
  have hnext : p.startBlock = h := hinv.next w _ hw rfl
  have hstep : p.endBlock = p.startBlock + config.step := (hinv.running w _ hw).1
  refine ⟨fun v q hv => ?_, fun hcovered => ?_⟩
  · have hv' : (s.set w none).job v = some ⟨q, .updated⟩ := hv
    rw [job_set] at hv'
    split at hv'
    · cases hv'
    · exact absurd (hinv.lock v w _ _ hv' hw rfl rfl) ‹_›
  · have hcheck := checkpoint_of_updated hinv hw
    have hend : h = s.eventAttrPartitionCheckpoint := hinv.tiles.high_unique hcovered
    have := config.step_pos
    omega

omit [Fintype W] in
theorem atRest_set {w : W} {x : Option Job} (hrest : AtRest s)
    (hx : ∀ p, x ≠ some ⟨p, .updated⟩) : AtRest (s.set w x) := by
  intro v p hv
  rw [job_set] at hv
  split at hv
  · exact hx p hv
  · exact hrest v p hv

theorem atRest_step (hrest : AtRest s) {a : Label W} (ha : ¬ Updates s a) :
    AtRest (step config s a) := by
  cases a with
  | crawl height => exact hrest
  | check =>
    simp only [step, checkIfNeedCreate]
    split
    · exact hrest
    · split <;> exact hrest
  | start w p =>
    rw [step]
    split
    · split
      · exact atRest_set hrest (by simp)
      · exact hrest
    · exact hrest
  | createTable w =>
    rw [step]
    split
    · split
      · exact atRest_set hrest (by simp)
      · split
        · exact hrest
        · exact atRest_set hrest (by simp)
    · exact hrest
  | attachPartition w =>
    rw [step]
    split
    · split
      · exact hrest
      · split
        · exact atRest_set hrest (by simp)
        · exact atRest_set hrest (by simp)
    · exact hrest
  | updateCheckpoint w =>
    rw [step]
    split
    case h_1 p hw => exact absurd ⟨w, p, rfl, hw⟩ ha
    case h_2 => exact hrest
  | commit w =>
    rw [step]
    split
    case h_1 p hw => exact absurd hw (hrest w p)
    case h_2 => exact hrest
  | fail w => exact atRest_set hrest (by simp)

end EventAttrLemmas

open EventAttrLemmas

variable [Fintype W] {config : Config} {start : ℕ} {s : State W}

/-! ## The results -/

/-- The partitions reach the checkpoint in every state of a run exactly when no job gets to its
update, which is visible before its partition is. They reach it in every state where no job is
between its update and its commit exactly when no transaction fails there. -/
theorem covered_iff (hinit : Initial start s) (as : List (Label W)) :
    ((∀ p, p <+: as → Covered start (runFrom (step config) s p)) ↔
      Meets (step config) (fun s a => ¬ Updates s a) s as) ∧
    ((∀ p, p <+: as → AtRest (runFrom (step config) s p) →
        Covered start (runFrom (step config) s p)) ↔
      Meets (step config) (fun s a => ¬ FailsAfterUpdate s a) s as) := by
  have hinv : Inv config start s.eventAttrPartitionCheckpoint s := inv_initial hinit
  constructor
  · have hresting : (∃ h, Inv config start h s) ∧ AtRest s := by
      refine ⟨⟨_, hinv⟩, fun w p hw => ?_⟩
      rw [hinit.job w] at hw
      cases hw
    refine @forall_prefix_iff_meets_of_inv _ _ _ _
      (fun s => (∃ h, Inv config start h s) ∧ AtRest s) _ ?_ ?_ ?_ _ _ hresting
    · rintro s ⟨⟨h, hinv⟩, hrest⟩
      exact covered_of_atRest hinv hrest
    · rintro s a ⟨⟨h, hinv⟩, hrest⟩ ha
      refine ⟨inv_step hinv ?_, atRest_step hrest ha⟩
      rintro ⟨w, p, rfl, hw⟩
      exact hrest w p hw
    · rintro s a ⟨⟨h, hinv⟩, -⟩ ha
      obtain ⟨w, p, rfl, hw⟩ := not_not.mp ha
      exact not_covered_of_updated hinv hw
  · refine @forall_prefix_iff_meets_of_inv _ _ _ _ (fun s => ∃ h, Inv config start h s)
      (fun s => AtRest s → Covered start s) ?_ ?_ ?_ _ _ ⟨_, hinv⟩
    · rintro s ⟨h, hinv⟩
      exact covered_of_atRest hinv
    · rintro s a ⟨h, hinv⟩ ha
      exact inv_step hinv ha
    · rintro s a ⟨h, hinv⟩ ha hcovered
      obtain ⟨hrest, hnot⟩ := not_covered_of_fails hinv (not_not.mp ha)
      exact hnot (hcovered hrest)

/-- While a job is between its update and its commit, the partitions reach its `startBlock` and the
checkpoint is its `endBlock`. -/
theorem covered_between (hinit : Initial start s) {as : List (Label W)}
    (h : Meets (step config) (fun s a => ¬ FailsAfterUpdate s a) s as) {w : W} {p : Payload}
    (hw : (runFrom (step config) s as).job w = some ⟨p, .updated⟩) :
    Tiles start (runFrom (step config) s as).partitions p.startBlock ∧
      (runFrom (step config) s as).eventAttrPartitionCheckpoint = p.endBlock := by
  obtain ⟨h', hinv⟩ : ∃ h, Inv config start h (runFrom (step config) s as) := by
    refine @Meets.invariant _ _ _ _ (fun s => ∃ h, Inv config start h s) ?_ _ _ h
      ⟨_, inv_initial hinit⟩
    rintro s a ⟨_, hinv⟩ ha
    exact inv_step hinv ha
  have hnext : p.startBlock = h' := hinv.next w _ hw rfl
  exact ⟨hnext ▸ hinv.tiles, checkpoint_of_updated hinv hw⟩

end

/-- The values of `config.json` for a small range. -/
def smallConfig : Config := ⟨5, 10, Nat.succ_pos 9⟩

/-- One partition, and a crawler near its end; one worker. -/
def onePartition : State Unit := ⟨[⟨0, 10⟩], 10, some 7, [], fun _ => none⟩

theorem initial_onePartition : Initial 0 onePartition :=
  ⟨⟨[⟨0, 10⟩], List.Perm.refl _, rfl, by decide, rfl⟩, rfl, fun _ => rfl⟩

/-- A job creates the partition behind the checkpoint, updates the checkpoint and crashes. -/
def crashAfterUpdate : List (Label Unit) :=
  [.check, .start () ⟨10, 20⟩, .createTable (), .attachPartition (), .updateCheckpoint (), .fail ()]

theorem covered_iff_onePartition :
    (∀ p, p <+: crashAfterUpdate.take 4 →
        Covered 0 (runFrom (step smallConfig) onePartition p)) ↔
      Meets (step smallConfig) (fun s a => ¬ Updates s a) onePartition (crashAfterUpdate.take 4) :=
  (covered_iff initial_onePartition _).1

/-- After the crash the checkpoint is at 20, and the partitions end at 10. -/
theorem checkpoint_ahead :
    AtRest (runFrom (step smallConfig) onePartition crashAfterUpdate) ∧
      ¬ Covered 0 (runFrom (step smallConfig) onePartition crashAfterUpdate) := by
  have hlast : (runFrom (step smallConfig) onePartition crashAfterUpdate).partitions = [⟨0, 10⟩] ∧
      (runFrom (step smallConfig) onePartition crashAfterUpdate).eventAttrPartitionCheckpoint = 20 ∧
      (runFrom (step smallConfig) onePartition crashAfterUpdate).job () = none := by
    decide
  obtain ⟨hpartitions, hcheckpoint, hjob⟩ := hlast
  refine ⟨fun w p hw => ?_, fun hcovered => ?_⟩
  · rw [hjob] at hw
    cases hw
  · rw [Covered, hpartitions, hcheckpoint] at hcovered
    have hten : Tiles 0 [⟨0, 10⟩] 10 := ⟨_, List.Perm.refl _, rfl, by decide, rfl⟩
    exact absurd (hten.high_unique hcovered) (by decide)

end Erascope.EventAttrPartition
