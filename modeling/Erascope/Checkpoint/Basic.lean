import Mathlib.Tactic
import Erascope.Lib.Table

/-!
# Block checkpoints

The model of `models/block_checkpoint.ts`. Every crawling job keeps the height it has
processed in one row of `block_checkpoint`. `getCheckpoint` reads the row of the job and the
lowest row of the jobs it depends on, and gives the range `(startHeight, endHeight]` of the
next run together with the row that the job writes back.

* `endHeight_le_dependency`: the range ends at or below every dependency that has a row.
* `endHeight_eq_zero`: with no dependency row at all the range ends at `0`.
* `endHeight_le_startHeight_iff`: when the range is empty.
-/

namespace Erascope.Checkpoint

/-- A row of `block_checkpoint`. -/
structure BlockCheckpoint (J : Type) where
  job_name : J
  height : ℕ
deriving DecidableEq, Repr

/-- The table `block_checkpoint`; `job_name` is unique. -/
abbrev Checkpoints (J : Type) := Table (BlockCheckpoint.job_name (J := J))

section
variable {J : Type} [DecidableEq J]

/-- The stored height of a job. -/
def heightOf (t : Checkpoints J) (j : J) : Option ℕ := (t.get? j).map (·.height)

/-- The rows that `whereIn('job_name', lastHeightJobNames)` selects, by height; the query
keeps the first of them in ascending order, and only its height is used. -/
def lastHeight (t : Checkpoints J) (lastHeightJobNames : List J) : Option ℕ :=
  ((t.rows.filter fun r => lastHeightJobNames.contains r.job_name).map (·.height)).min?

/-- `startHeight`: the stored height, or `config.crawlBlock.startBlock` on the first run. -/
def startHeight (startBlock : ℕ) (t : Checkpoints J) (jobName : J) : ℕ :=
  (heightOf t jobName).getD startBlock

/-- `endHeight`: it stays `0` when no dependency has a row. `blocksPerCall` is the value of
`config[configName].blocksPerCall`, absent when the caller passes no `configName`. -/
def endHeight (start : ℕ) (t : Checkpoints J) (lastHeightJobNames : List J)
    (blocksPerCall : Option ℕ) : ℕ :=
  match lastHeight t lastHeightJobNames with
  | none => 0
  | some last =>
    match blocksPerCall with
    | some n => min (start + n) last
    | none => last

/-- `BlockCheckpoint.getCheckpoint`. -/
def getCheckpoint (startBlock : ℕ) (t : Checkpoints J) (jobName : J)
    (lastHeightJobNames : List J) (blocksPerCall : Option ℕ) : ℕ × ℕ × BlockCheckpoint J :=
  let start := startHeight startBlock t jobName
  let updateBlockCheckpoint :=
    match t.get? jobName with
    | some row => row
    | none => { job_name := jobName, height := startBlock }
  (start, endHeight start t lastHeightJobNames blocksPerCall, updateBlockCheckpoint)

/-- `updateBlockCheckpoint.height = endHeight`, then insert, on conflict merge. -/
def storeCheckpoint (t : Checkpoints J) (row : BlockCheckpoint J) (height : ℕ) : Checkpoints J :=
  t.upsert { row with height := height }

/-! ## 1. Heights after a write -/

@[simp] theorem heightOf_empty (j : J) : heightOf (Table.empty : Checkpoints J) j = none := rfl

theorem heightOf_upsert (t : Checkpoints J) (row : BlockCheckpoint J) (j : J) :
    heightOf (t.upsert row) j = if row.job_name = j then some row.height else heightOf t j := by
  unfold heightOf
  rw [Table.get?_upsert]
  split <;> rfl

theorem startHeight_storeCheckpoint (startBlock : ℕ) (t : Checkpoints J) (row : BlockCheckpoint J)
    (height : ℕ) (j : J) :
    startHeight startBlock (storeCheckpoint t row height) j =
      if row.job_name = j then height else startHeight startBlock t j := by
  simp only [startHeight, storeCheckpoint, heightOf_upsert]
  split <;> rfl

theorem getCheckpoint_job_name (startBlock : ℕ) (t : Checkpoints J) (j : J) (deps : List J)
    (n : Option ℕ) : (getCheckpoint startBlock t j deps n).2.2.job_name = j := by
  simp only [getCheckpoint]
  cases h : t.get? j with
  | none => rfl
  | some row => exact Table.key_of_get? h

/-! ## 2. The lowest dependency -/

theorem mem_dependency_heights {t : Checkpoints J} {deps : List J} {h : ℕ} :
    h ∈ (t.rows.filter fun r => deps.contains r.job_name).map (·.height) ↔
      ∃ d ∈ deps, heightOf t d = some h := by
  simp only [List.mem_map, List.mem_filter, List.contains_iff_mem, heightOf, Option.map_eq_some_iff,
    Table.get?_eq_some_iff]
  constructor
  · rintro ⟨r, ⟨hr, hd⟩, rfl⟩
    exact ⟨r.job_name, hd, r, ⟨hr, rfl⟩, rfl⟩
  · rintro ⟨d, hd, r, ⟨hr, rfl⟩, rfl⟩
    exact ⟨r, ⟨hr, hd⟩, rfl⟩

theorem lastHeight_eq_none_iff {t : Checkpoints J} {deps : List J} :
    lastHeight t deps = none ↔ ∀ d ∈ deps, heightOf t d = none := by
  rw [lastHeight, List.min?_eq_none_iff, List.eq_nil_iff_forall_not_mem]
  simp only [mem_dependency_heights, not_exists, not_and]
  constructor
  · intro h d hd
    rw [Option.eq_none_iff_forall_ne_some]
    exact fun n => h n d hd
  · intro h n d hd
    rw [h d hd]
    simp

theorem lastHeight_eq_some_iff {t : Checkpoints J} {deps : List J} {m : ℕ} :
    lastHeight t deps = some m ↔
      (∃ d ∈ deps, heightOf t d = some m) ∧ ∀ d ∈ deps, ∀ h, heightOf t d = some h → m ≤ h := by
  rw [lastHeight, List.min?_eq_some_iff]
  simp only [mem_dependency_heights]
  constructor
  · rintro ⟨hm, hle⟩
    exact ⟨hm, fun d hd h hh => hle h ⟨d, hd, hh⟩⟩
  · rintro ⟨hm, hle⟩
    exact ⟨hm, fun h ⟨d, hd, hh⟩ => hle d hd h hh⟩

/-! ## 3. The range -/

theorem endHeight_eq_zero {start : ℕ} {t : Checkpoints J} {deps : List J} {n : Option ℕ}
    (h : ∀ d ∈ deps, heightOf t d = none) : endHeight start t deps n = 0 := by
  rw [endHeight, lastHeight_eq_none_iff.mpr h]

theorem endHeight_of_lastHeight {start : ℕ} {t : Checkpoints J} {deps : List J} {n : Option ℕ}
    {m : ℕ} (h : lastHeight t deps = some m) :
    endHeight start t deps n = (n.map fun k => min (start + k) m).getD m := by
  rw [endHeight, h]
  cases n <;> rfl

theorem endHeight_le_dependency {start : ℕ} {t : Checkpoints J} {deps : List J} {n : Option ℕ}
    {d : J} {h : ℕ} (hd : d ∈ deps) (hh : heightOf t d = some h) :
    endHeight start t deps n ≤ h := by
  cases hl : lastHeight t deps with
  | none => simp [lastHeight_eq_none_iff.mp hl d hd] at hh
  | some m =>
    have hm : m ≤ h := (lastHeight_eq_some_iff.mp hl).2 d hd h hh
    rw [endHeight_of_lastHeight hl]
    cases n with
    | none => exact hm
    | some k => exact (Nat.min_le_right _ _).trans hm

/-- The range of a job with one dependency ends below what bounds the dependency. -/
theorem endHeight_singleton_le {start : ℕ} {t : Checkpoints J} {d : J} {n : Option ℕ} {b : ℕ}
    (h : ∀ m, heightOf t d = some m → m ≤ b) : endHeight start t [d] n ≤ b := by
  cases hd : heightOf t d with
  | some m => exact (endHeight_le_dependency List.mem_cons_self hd).trans (h m hd)
  | none =>
    rw [endHeight_eq_zero (by simpa using hd)]
    exact Nat.zero_le b

/-- The range is empty exactly when no dependency has a row or one of them is at or below the
start of the range. -/
theorem endHeight_le_startHeight_iff {start : ℕ} {t : Checkpoints J} {deps : List J}
    {n : Option ℕ} (hn : n ≠ some 0) :
    endHeight start t deps n ≤ start ↔
      (∀ d ∈ deps, heightOf t d = none) ∨ ∃ d ∈ deps, ∃ h, heightOf t d = some h ∧ h ≤ start := by
  cases hl : lastHeight t deps with
  | none =>
    have hnone := lastHeight_eq_none_iff.mp hl
    rw [endHeight_eq_zero hnone]
    exact ⟨fun _ => Or.inl hnone, fun _ => Nat.zero_le _⟩
  | some m =>
    obtain ⟨⟨d, hd, hm⟩, hle⟩ := lastHeight_eq_some_iff.mp hl
    constructor
    · intro h
      refine Or.inr ⟨d, hd, m, hm, ?_⟩
      rw [endHeight_of_lastHeight hl] at h
      cases n with
      | none => exact h
      | some k =>
        have hk : k ≠ 0 := fun h0 => hn (h0 ▸ rfl)
        simp only [Option.map_some, Option.getD_some] at h
        omega
    · rintro (hnone | ⟨d', hd', h', hh', hs⟩)
      · simp [hnone d hd] at hm
      · exact (endHeight_le_dependency hd' hh').trans hs

end

end Erascope.Checkpoint
