import Mathlib.Tactic
import Erascope.Lib.Decimal
import Erascope.Lib.Number
import Erascope.Lib.Ranges
import Erascope.Lib.Run

/-!
# The next partition of `event`

The model of `services/job/create_event_partition.service.ts`. When the latest id is in the second
half of its partition, the job creates the partition behind it, unless a partition with that name is
there. The number of the partition goes through a quotient of BigNumber, rounded to 20 decimal
places, and a double.

* `createPartitionName_eq`: the roundings do not matter below `2 ^ 53`.
* `jobStep`: inserts, and executions of the job.

Results:
1. `next_partition_ready`: every insert finds one partition, and no execution fails, when the
   partitions are ahead at the start or the run begins with an execution.
2. `end_of_partition_unready`: partitions up to the end of that of the latest id are not enough.
-/

namespace Erascope.NextPartition

open Number

/-! ## 1. The job -/

/-- `config.migrationEventToPartition.step` -/
structure Config where
  step : ℕ
  step_pos : 0 < step
  step_even : 2 ∣ step

/-- The value of `step` as a number. -/
def Config.number (config : Config) : ℕ := toDouble config.step

/-- `BigNumber(step)`: a number is read by its text. -/
def Config.big (config : Config) : ℕ := printed config.number

/-- `step / 2`, as `lt` reads it. -/
def Config.half (config : Config) : ℕ := printed (config.number / 2)

/-- The table `event`: the ids of its rows, and its partitions. -/
structure State where
  ids : List ℕ
  partitions : List Range
deriving DecidableEq, Repr

def partitionName (r : Range) : String := r.name "event_partition"

/-- `createPartitionName` -/
def createPartitionName (config : Config) (partitions : List Range) (latestEvent : Option ℕ) :
    Option Range :=
  match latestEvent with
  | none => none
  | some id =>
    if id % config.big < config.half then none
    else
      let stepMultiple := reprinted (⌊nearest (divDecimal id config.big)⌋₊ + 1)
      let minEventIdForNewPartition := config.big * stepMultiple
      let maxEventIdForNewPartition := minEventIdForNewPartition + config.big
      let partition : Range := ⟨minEventIdForNewPartition, maxEventIdForNewPartition⟩
      if ∃ r ∈ partitions, partitionName r = partitionName partition then none else some partition

/-- `createPartitionByPartitionInfo`; it fails when the table exists or the range overlaps. -/
def createPartitionByPartitionInfo (partitions : List Range) (partitionInfo : Range) :
    Option (List Range) :=
  if ∃ r ∈ partitions, partitionName r = partitionName partitionInfo ∨ r.Overlaps partitionInfo then
    none
  else some (partitions ++ [partitionInfo])

/-- `jobCreateEventPartition`; `none` is an error. -/
def jobCreateEventPartition (config : Config) (s : State) : Option State :=
  match createPartitionName config s.partitions s.ids.max? with
  | none => some s
  | some partitionInfo =>
    (createPartitionByPartitionInfo s.partitions partitionInfo).map fun partitions =>
      { s with partitions := partitions }

inductive Label
  | insert (id : ℕ)
  | execute
deriving DecidableEq, Repr

/-- The latest id; `0` before the first insert. -/
def State.latest (s : State) : ℕ := s.ids.max?.getD 0

/-- A run, with the latest id at its start or at the last execution. -/
structure Run where
  state : State
  latest : ℕ
deriving DecidableEq, Repr

/-- A row finds its partition, or the insert fails. -/
def insertEvent (id : ℕ) (s : State) : State :=
  if ∃ r ∈ s.partitions, r.Contains id then { s with ids := id :: s.ids } else s

/-- The step function; an execution that fails changes nothing. -/
def jobStep (config : Config) (run : Run) : Label → Run
  | .insert id => { run with state := insertEvent id run.state }
  | .execute =>
    { state := (jobCreateEventPartition config run.state).getD run.state
      latest := run.state.latest }

/-! ## 2. The law -/

/-- The partitions `[0, step), [step, 2 * step), ...` -/
def firstPartitions (step n : ℕ) : List Range :=
  (List.range n).map fun k => ⟨k * step, (k + 1) * step⟩

/-- A start: partitions from `0` that cover every id up to the end of the partition of the latest
one. -/
structure Starts (config : Config) (s : State) : Prop where
  partitions : ∃ n, s.partitions = firstPartitions config.step n ∧ s.latest < n * config.step
  small : ∀ id ∈ s.ids, id < 2 ^ 53

/-- The latest id grows by less than `step / 2` between two executions. -/
def Limited (config : Config) (run : Run) : Label → Prop
  | .insert id => id < 2 ^ 53 ∧ id < run.latest + config.step / 2
  | .execute => True

/-- An insert finds exactly one partition, and an execution creates what it wants to. -/
def Succeeds (config : Config) (run : Run) : Label → Prop
  | .insert id => ∃ r, (run.state.partitions.filter fun r => r.Contains id) = [r]
  | .execute => (jobCreateEventPartition config run.state).isSome

/-- The partitions cover every id that can be inserted before the first execution. -/
def Ahead (config : Config) (s : State) : Prop :=
  ∀ id < s.latest + config.step / 2, ∃ r ∈ s.partitions, r.Contains id

/-! ## 3. The roundings -/

namespace NextLemmas

variable {config : Config} {s : State} {n : ℕ}

/-- Either the step is read as it is, or it is out of reach. -/
theorem step_cases (config : Config) :
    config.big = config.step ∧ config.half = config.step / 2 ∨
      2 ^ 53 ≤ config.step / 2 ∧ 2 ^ 53 ≤ config.big ∧ 2 ^ 53 ≤ config.half := by
  rcases Nat.lt_or_ge config.step (2 ^ 54) with hlt | hge
  · refine .inl ?_
    have hnumber : config.number = config.step := toDouble_of_even hlt config.step_even
    rw [Config.big, Config.half, hnumber]
    exact ⟨printed_of_even hlt config.step_even, printed_of_lt (by omega)⟩
  · refine .inr ⟨by omega, ?_, ?_⟩
    · have hnumber : 2 ^ 54 ≤ config.number := le_toDouble_pow (by decide) hge
      exact le_printed (by omega)
    · have hnumber : 2 ^ 54 ≤ config.number := le_toDouble_pow (by decide) hge
      exact le_printed (by omega)

/-- The partition that the job looks for when the latest id is `id`. -/
def nextRange (config : Config) (id : ℕ) : Range :=
  ⟨(id / config.step + 1) * config.step, (id / config.step + 2) * config.step⟩

/-- The roundings do not matter. -/
theorem createPartitionName_eq {partitions : List Range} {id : ℕ} (hid : id < 2 ^ 53) :
    createPartitionName config partitions (some id) =
      if id % config.step < config.step / 2 then none
      else if nextRange config id ∈ partitions then none
      else some (nextRange config id) := by
  have hpos := config.step_pos
  rcases step_cases config with ⟨hbig, hhalf⟩ | ⟨hstep, hbig, hhalf⟩
  · simp only [createPartitionName, hbig, hhalf]
    split
    case isTrue => rfl
    case isFalse hsecond =>
      have hnear : config.step ≤ 2 * (id % config.step) := by
        have := config.step_even
        omega
      have hmultiple : reprinted (⌊nearest (divDecimal id config.step)⌋₊ + 1) =
          id / config.step + 1 := by
        rw [floor_nearest_divDecimal hid hpos hnear]
        refine reprinted_of_lt ?_
        have htwo : 2 ≤ config.step := Nat.le_of_dvd hpos config.step_even
        have hle : id / config.step ≤ id / 2 := Nat.div_le_div_left htwo (by decide)
        omega
      have hrange : (⟨config.step * (id / config.step + 1),
          config.step * (id / config.step + 1) + config.step⟩ : Range) = nextRange config id := by
        rw [nextRange, Range.mk.injEq]
        constructor <;> ring
      have hname : (∃ r ∈ partitions, partitionName r = partitionName (nextRange config id)) ↔
          nextRange config id ∈ partitions := by
        constructor
        · rintro ⟨r, hr, heq⟩
          exact Range.name_injective heq ▸ hr
        · exact fun hr => ⟨_, hr, rfl⟩
      simp only [hmultiple, hrange, hname]
  · have hfirst : id % config.step < config.step / 2 :=
      lt_of_le_of_lt (Nat.mod_le _ _) (hid.trans_le hstep)
    have hread : id % config.big < config.half :=
      lt_of_le_of_lt (Nat.mod_le _ _) (hid.trans_le hhalf)
    rw [if_pos hfirst, createPartitionName, if_pos hread]

/-! ## 4. The partitions -/

theorem firstPartitions_succ (step n : ℕ) :
    firstPartitions step (n + 1) = firstPartitions step n ++ [⟨n * step, (n + 1) * step⟩] := by
  rw [firstPartitions, List.range_succ, List.map_append]
  rfl

theorem consecutive_firstPartitions {step : ℕ} (hstep : 0 < step) (n : ℕ) :
    Consecutive 0 (firstPartitions step n) (n * step) := by
  induction n with
  | zero => exact (Nat.zero_mul step).symm
  | succ n ih =>
    rw [firstPartitions_succ]
    exact consecutive_concat.mpr ⟨ih, by show n * step < (n + 1) * step; nlinarith, rfl⟩

theorem nextRange_mem {id : ℕ} :
    nextRange config id ∈ firstPartitions config.step n ↔ id / config.step + 1 < n := by
  have hpos := config.step_pos
  simp only [firstPartitions, List.mem_map, List.mem_range, nextRange, Range.mk.injEq]
  constructor
  · rintro ⟨k, hk, hlow, -⟩
    rwa [Nat.eq_of_mul_eq_mul_right hpos hlow] at hk
  · exact fun h => ⟨_, h, rfl, rfl⟩

/-- The quotient of an id below the end of the partitions. -/
theorem div_lt_of_lt {id : ℕ} (h : id < n * config.step) : id / config.step < n :=
  (Nat.div_lt_iff_lt_mul config.step_pos).mpr h

/-- In the first half of its partition an id is half a step from the end of it, and with a partition
more it is so in any case. -/
theorem ahead_of_first_half {id : ℕ} (h : id < n * config.step)
    (hfirst : id % config.step < config.step / 2) :
    id + config.step / 2 ≤ n * config.step := by
  have hle : (id / config.step + 1) * config.step ≤ n * config.step :=
    Nat.mul_le_mul_right _ (div_lt_of_lt h)
  have hsplit := Nat.div_add_mod id config.step
  have hcomm : (id / config.step + 1) * config.step =
      config.step * (id / config.step) + config.step := by ring
  omega

theorem ahead_of_next {id : ℕ} (h : id / config.step + 1 < n) :
    id + config.step / 2 ≤ n * config.step := by
  have hle : (id / config.step + 2) * config.step ≤ n * config.step :=
    Nat.mul_le_mul_right _ h
  have hmod := Nat.mod_lt id config.step_pos
  have hsplit := Nat.div_add_mod id config.step
  have hcomm : (id / config.step + 2) * config.step =
      config.step * (id / config.step) + 2 * config.step := by ring
  omega

/-! ## 5. The invariant -/

/-- The partitions of a run; `reach` is where they end. -/
structure Inv (config : Config) (n : ℕ) (run : Run) : Prop where
  partitions : run.state.partitions = firstPartitions config.step n
  latest : run.state.latest < n * config.step
  small : ∀ id ∈ run.state.ids, id < 2 ^ 53
  ahead : run.latest + config.step / 2 ≤ n * config.step

theorem latest_cons (id : ℕ) (s : State) :
    ({ s with ids := id :: s.ids } : State).latest = max id s.latest := by
  simp only [State.latest, List.max?_cons]
  cases s.ids.max? with
  | none => simp
  | some m => simp

/-- The partition behind the last one is new. -/
theorem create_next : createPartitionByPartitionInfo (firstPartitions config.step n)
    ⟨n * config.step, (n + 1) * config.step⟩ = some (firstPartitions config.step (n + 1)) := by
  rw [createPartitionByPartitionInfo, firstPartitions_succ, if_neg]
  rintro ⟨r, hr, hbad⟩
  have hbounds := (consecutive_firstPartitions config.step_pos n).bounds hr
  rcases hbad with hname | hoverlap
  · obtain rfl := Range.name_injective hname
    exact absurd (hbounds.2.1.trans_le hbounds.2.2) (lt_irrefl _)
  · exact absurd hoverlap.2 (not_lt.mpr hbounds.2.2)

/-- What an execution does: at its end the partitions are half a step ahead of the latest id. -/
theorem execute_spec (hpartitions : s.partitions = firstPartitions config.step n)
    (hlatest : s.latest < n * config.step) (hsmall : ∀ id ∈ s.ids, id < 2 ^ 53) :
    ∃ n', jobCreateEventPartition config s = some ⟨s.ids, firstPartitions config.step n'⟩ ∧
      n ≤ n' ∧ s.latest + config.step / 2 ≤ n' * config.step := by
  have hsame : s = ⟨s.ids, firstPartitions config.step n⟩ := by rw [← hpartitions]
  cases hmax : s.ids.max? with
  | none =>
    have hzero : s.latest = 0 := by rw [State.latest, hmax]; rfl
    refine ⟨n, ?_, le_refl n, ahead_of_first_half hlatest ?_⟩
    · rw [jobCreateEventPartition, hmax, createPartitionName]
      exact congrArg some hsame
    · have hpos := config.step_pos
      have heven := config.step_even
      rw [hzero, Nat.zero_mod]
      omega
  | some id =>
    have hid : s.latest = id := by rw [State.latest, hmax]; rfl
    have hbound : id < 2 ^ 53 := hsmall id (List.max?_mem hmax)
    rw [hid] at hlatest ⊢
    rw [jobCreateEventPartition, hmax, hpartitions, createPartitionName_eq hbound]
    by_cases hfirst : id % config.step < config.step / 2
    · rw [if_pos hfirst]
      exact ⟨n, congrArg some hsame, le_refl n, ahead_of_first_half hlatest hfirst⟩
    · rw [if_neg hfirst]
      by_cases hthere : nextRange config id ∈ firstPartitions config.step n
      · rw [if_pos hthere]
        exact ⟨n, congrArg some hsame, le_refl n, ahead_of_next (nextRange_mem.mp hthere)⟩
      · rw [if_neg hthere]
        have hlast : id / config.step + 1 = n := by
          have hlt := div_lt_of_lt hlatest
          have hnot := mt nextRange_mem.mpr hthere
          omega
        have hrange : nextRange config id = ⟨n * config.step, (n + 1) * config.step⟩ := by
          rw [nextRange, ← hlast]
        refine ⟨n + 1, ?_, Nat.le_succ n, ahead_of_next (by omega)⟩
        simp only [hrange, create_next, Option.map_some]

/-- An execution, from partitions that cover the latest id. -/
theorem inv_execute {run : Run} (hpartitions : run.state.partitions = firstPartitions config.step n)
    (hlatest : run.state.latest < n * config.step) (hsmall : ∀ id ∈ run.state.ids, id < 2 ^ 53) :
    Succeeds config run .execute ∧ ∃ n', Inv config n' (jobStep config run .execute) := by
  obtain ⟨n', hjob, hle, hahead⟩ := execute_spec hpartitions hlatest hsmall
  refine ⟨by rw [Succeeds, hjob]; rfl, n', ?_⟩
  rw [jobStep, hjob, Option.getD_some]
  exact ⟨rfl, hlatest.trans_le (Nat.mul_le_mul_right _ hle), hsmall, hahead⟩

theorem inv_insert {run : Run} (hinv : Inv config n run) {id : ℕ}
    (hlimit : Limited config run (.insert id)) :
    Succeeds config run (.insert id) ∧ Inv config n (jobStep config run (.insert id)) := by
  obtain ⟨hsmall, hnear⟩ := hlimit
  have hin : id < n * config.step := hnear.trans_le hinv.ahead
  obtain ⟨r, hr⟩ := (consecutive_firstPartitions config.step_pos n).filter_contains
    (Nat.zero_le id) hin
  rw [← hinv.partitions] at hr
  have hsome : ∃ r ∈ run.state.partitions, r.Contains id := by
    have hmem : r ∈ run.state.partitions.filter fun r => r.Contains id := by
      rw [hr]
      exact List.mem_singleton_self r
    exact ⟨r, (List.mem_filter.mp hmem).1, by simpa using (List.mem_filter.mp hmem).2⟩
  refine ⟨⟨r, hr⟩, ?_⟩
  rw [jobStep, insertEvent, if_pos hsome]
  refine ⟨hinv.partitions, ?_, ?_, hinv.ahead⟩
  · rw [latest_cons]
    exact max_lt hin hinv.latest
  · intro id' hid'
    rcases List.mem_cons.mp hid' with rfl | hid'
    · exact hsmall
    · exact hinv.small id' hid'

theorem inv_step {run : Run} (hinv : Inv config n run) {a : Label} (hlimit : Limited config run a) :
    Succeeds config run a ∧ ∃ n', Inv config n' (jobStep config run a) := by
  cases a with
  | insert id => exact (inv_insert hinv hlimit).imp_right fun h => ⟨n, h⟩
  | execute => exact inv_execute hinv.partitions hinv.latest hinv.small

/-- A run from a state with the invariant. -/
theorem run_of_inv {run : Run} (hinv : Inv config n run) {as : List Label}
    (hlimits : Meets (jobStep config) (Limited config) run as) :
    Meets (jobStep config) (Succeeds config) run as ∧
      ∀ p, p <+: as →
        ∃ b, Consecutive 0 (runFrom (jobStep config) run p).state.partitions b := by
  have hkeep : ∀ run a, (∃ n, Inv config n run) → Limited config run a →
      ∃ n, Inv config n (jobStep config run a) := fun run a h ha =>
    h.elim fun _ hinv => (inv_step hinv ha).2
  refine ⟨hlimits.imp hkeep (fun run a h ha => h.elim fun _ hinv => (inv_step hinv ha).1)
    ⟨n, hinv⟩, fun p hp => ?_⟩
  obtain ⟨rest, rfl⟩ := hp
  obtain ⟨n', hinv'⟩ := Meets.invariant hkeep (meets_append.mp hlimits).1 ⟨n, hinv⟩
  rw [hinv'.partitions]
  exact ⟨_, consecutive_firstPartitions config.step_pos n'⟩

end NextLemmas

open NextLemmas

/-! ## The result -/

/-- There is always a partition for the next event: every inserted id finds exactly one, the
partitions follow one another, and no execution fails on a partition that exists. The run starts
with partitions that cover what may come before the first execution, or with an execution. -/
theorem next_partition_ready {config : Config} {s : State} (hstart : Starts config s)
    {as : List Label} (hahead : Ahead config s ∨ as.head? = some .execute)
    (hlimits : Meets (jobStep config) (Limited config) ⟨s, s.latest⟩ as) :
    Meets (jobStep config) (Succeeds config) ⟨s, s.latest⟩ as ∧
      ∀ p, p <+: as → ∃ b,
        Consecutive 0 (runFrom (jobStep config) ⟨s, s.latest⟩ p).state.partitions b := by
  obtain ⟨n, hpartitions, hlatest⟩ := hstart.partitions
  rcases hahead with hahead | hfirst
  · refine run_of_inv (n := n) ⟨hpartitions, hlatest, hstart.small, ?_⟩ hlimits
    by_contra hnot
    obtain ⟨r, hr, hcontains⟩ := hahead (n * config.step) (not_le.mp hnot)
    rw [hpartitions] at hr
    have hbounds := (consecutive_firstPartitions config.step_pos n).bounds hr
    exact absurd (hcontains.2.trans_le hbounds.2.2) (lt_irrefl _)
  · obtain ⟨as, rfl⟩ : ∃ rest, as = .execute :: rest := by
      cases as with
      | nil => cases hfirst
      | cons a as => exact ⟨as, by rw [List.head?_cons] at hfirst; rw [Option.some.inj hfirst]⟩
    obtain ⟨hsucceeds, n', hinv⟩ :=
      @inv_execute config n ⟨s, s.latest⟩ hpartitions hlatest hstart.small
    obtain ⟨hrest, hconsecutive⟩ := run_of_inv hinv hlimits.2
    refine ⟨⟨hsucceeds, hrest⟩, fun p hp => ?_⟩
    cases p with
    | nil =>
      refine ⟨n * config.step, ?_⟩
      rw [runFrom_nil, hpartitions]
      exact consecutive_firstPartitions config.step_pos n
    | cons a p =>
      obtain ⟨rfl, htail⟩ := List.cons_prefix_cons.mp hp
      exact hconsecutive p htail

theorem ten_pos : 0 < 10 := Nat.succ_pos 9

theorem ten_even : 2 ∣ 10 := ⟨5, rfl⟩

/-- Partitions of ten ids. -/
def tenIds : Config := ⟨10, ten_pos, ten_even⟩

theorem next_partition_ready_tenIds :
    Meets (jobStep tenIds) (Succeeds tenIds) ⟨⟨[9], firstPartitions 10 1⟩, 9⟩
      [.execute, .insert 10, .insert 13, .execute] := by
  have hstart : Starts tenIds ⟨[9], firstPartitions 10 1⟩ := ⟨⟨1, rfl, by decide⟩, by decide⟩
  have hlimits : Meets (jobStep tenIds) (Limited tenIds) ⟨⟨[9], firstPartitions 10 1⟩, 9⟩
      [.execute, .insert 10, .insert 13, .execute] :=
    ⟨trivial, ⟨by decide, by decide⟩, ⟨by decide, by decide⟩, trivial, trivial⟩
  exact (next_partition_ready hstart (.inr rfl) hlimits).1

/-- The latest id is the last one of its partition, which is the last one: the next id has none. -/
theorem end_of_partition_unready :
    Starts tenIds ⟨[9], firstPartitions 10 1⟩ ∧
      Meets (jobStep tenIds) (Limited tenIds) ⟨⟨[9], firstPartitions 10 1⟩, 9⟩ [.insert 10] ∧
      ¬ Meets (jobStep tenIds) (Succeeds tenIds) ⟨⟨[9], firstPartitions 10 1⟩, 9⟩
        [.insert 10] := by
  refine ⟨⟨⟨1, rfl, by decide⟩, by decide⟩, ⟨⟨by decide, by decide⟩, trivial⟩, ?_⟩
  rintro ⟨⟨r, hr⟩, -⟩
  have hnone : ((firstPartitions 10 1).filter fun r => r.Contains 10) = [] := by decide
  rw [hnone] at hr
  cases hr

end Erascope.NextPartition
