import Mathlib.Tactic
import Erascope.Checkpoint.Pipeline

/-!
# Jobs behind `HANDLE_TRANSACTION`

A job that depends, directly or through others, on `HANDLE_TRANSACTION` alone stays behind it.
`names` is a list of jobs with everything they depend on.
-/

namespace Erascope.Checkpoint

/-- The rows of the jobs `names` are at most at the height `b`. -/
def Below (names : List BullJobName) (b : ℕ) (t : Checkpoints BullJobName) : Prop :=
  ∀ j ∈ names, ∀ h, heightOf t j = some h → h ≤ b

/-- The height up to which `HANDLE_TRANSACTION` has stored the transactions and their events. -/
def handledHeight (startBlock : ℕ) (t : Checkpoints BullJobName) : ℕ :=
  startHeight startBlock t .handleTransaction

/-- `endHeight` of the next run of a job. -/
def rangeEnd (startBlock : ℕ) (j : BullJobName) (job : Job) (t : Checkpoints BullJobName) : ℕ :=
  endHeight (startHeight startBlock t j) t job.lastHeightJobNames job.blocksPerCall

/-- What `HANDLE_TRANSACTION` leaves: its row is not below the first block, and the jobs `names` are
behind it. -/
structure Behind (names : List BullJobName) (startBlock : ℕ) (t : Checkpoints BullJobName) :
    Prop where
  start_le : startBlock ≤ handledHeight startBlock t
  below : Below names (handledHeight startBlock t) t

variable {names : List BullJobName} {b startBlock : ℕ} {t : Checkpoints BullJobName}

theorem endHeight_le_of_below (h : Below names b t) {deps : List BullJobName}
    (hdeps : ∀ d ∈ deps, d ∈ names) (start : ℕ) (n : Option ℕ) : endHeight start t deps n ≤ b := by
  cases hlast : lastHeight t deps with
  | none =>
    rw [endHeight, hlast]
    exact Nat.zero_le b
  | some m =>
    obtain ⟨⟨d, hd, hm⟩, -⟩ := lastHeight_eq_some_iff.mp hlast
    exact (endHeight_le_dependency hd hm).trans (h d (hdeps d hd) m hm)

/-- A run of a job leaves the other rows alone. -/
theorem heightOf_runJob_of_ne {j x : BullJobName} (job : Job) (h : j ≠ x) :
    heightOf (runJob startBlock j job t) x = heightOf t x := by
  rw [PipelineLemmas.heightOf_runJob, if_neg]
  exact fun hx => h hx.2

theorem startHeight_congr {t' : Checkpoints BullJobName} {j : BullJobName}
    (h : heightOf t' j = heightOf t j) :
    startHeight startBlock t' j = startHeight startBlock t j := by
  rw [startHeight, startHeight, h]

/-- Where a job is after a run. -/
theorem startHeight_runJob (startBlock : ℕ) (j : BullJobName) (job : Job)
    (t : Checkpoints BullJobName) : startHeight startBlock (runJob startBlock j job t) j =
      if job.rangeTest.returns (startHeight startBlock t j) (rangeEnd startBlock j job t) then
        startHeight startBlock t j
      else rangeEnd startBlock j job t := by
  rw [startHeight, PipelineLemmas.heightOf_runJob]
  cases hret : job.rangeTest.returns (startHeight startBlock t j) (rangeEnd startBlock j job t) with
  | true =>
    rw [if_neg fun h => Bool.false_ne_true (h.1.symm.trans hret)]
    rfl
  | false =>
    rw [if_pos ⟨hret, rfl⟩]
    rfl

/-- A run of a job whose dependencies are among `names`. -/
theorem Below.runJob (h : Below names b t) (j : BullJobName) {job : Job}
    (hdeps : ∀ d ∈ job.lastHeightJobNames, d ∈ names) :
    Below names b (runJob startBlock j job t) := by
  intro x hx n hn
  rw [PipelineLemmas.heightOf_runJob] at hn
  split at hn
  · rw [← Option.some.inj hn]
    exact endHeight_le_of_below h hdeps _ _
  · exact h x hx n hn

/-- A job whose dependencies are among `names` does not pass `HANDLE_TRANSACTION`. -/
theorem Behind.rangeEnd_le (h : Behind names startBlock t) (j : BullJobName) {job : Job}
    (hdeps : ∀ d ∈ job.lastHeightJobNames, d ∈ names) :
    rangeEnd startBlock j job t ≤ handledHeight startBlock t :=
  endHeight_le_of_below h.below hdeps _ _

theorem handledHeight_storeCheckpoint_of_ne {j : BullJobName} (hj : j ≠ .handleTransaction)
    (n : ℕ) :
    handledHeight startBlock (storeCheckpoint t ⟨j, n⟩ n) = handledHeight startBlock t := by
  rw [handledHeight, startHeight_storeCheckpoint, if_neg hj]
  rfl

/-- Another job commits a range that it has read before. -/
theorem Behind.store (h : Behind names startBlock t) {j : BullJobName}
    (hj : j ≠ .handleTransaction) {n : ℕ} (hn : n ≤ handledHeight startBlock t) :
    Behind names startBlock (storeCheckpoint t ⟨j, n⟩ n) := by
  refine ⟨?_, ?_⟩
  · rw [handledHeight_storeCheckpoint_of_ne hj]
    exact h.start_le
  · rw [handledHeight_storeCheckpoint_of_ne hj]
    intro x hx m hm
    rw [storeCheckpoint, heightOf_upsert] at hm
    split at hm
    · exact Option.some.inj hm ▸ hn
    · exact h.below x hx m hm

theorem Behind.runJob (h : Behind names startBlock t) {j : BullJobName} {job : Job}
    (hj : j ≠ .handleTransaction) (hdeps : ∀ d ∈ job.lastHeightJobNames, d ∈ names) :
    Behind names startBlock (runJob startBlock j job t) := by
  have heq : handledHeight startBlock (Checkpoint.runJob startBlock j job t) =
      handledHeight startBlock t := startHeight_congr (heightOf_runJob_of_ne job hj)
  refine ⟨?_, ?_⟩
  · rw [heq]
    exact h.start_le
  · rw [heq]
    exact h.below.runJob j hdeps

/-- `HANDLE_TRANSACTION` commits the blocks up to `endBlock`. -/
theorem Behind.handleTransaction (h : Behind names startBlock t) {endBlock : ℕ}
    (hlt : handledHeight startBlock t < endBlock) :
    Behind names startBlock (storeCheckpoint t ⟨.handleTransaction, endBlock⟩ endBlock) := by
  have heq : handledHeight startBlock (storeCheckpoint t ⟨.handleTransaction, endBlock⟩ endBlock) =
      endBlock := by
    rw [handledHeight, startHeight_storeCheckpoint, if_pos rfl]
  refine ⟨?_, ?_⟩
  · rw [heq]
    exact h.start_le.trans hlt.le
  · rw [heq]
    intro j hj n hn
    rw [storeCheckpoint, heightOf_upsert] at hn
    split at hn
    · exact (Option.some.inj hn).ge
    · exact (h.below j hj n hn).trans hlt.le

theorem behind_empty (names : List BullJobName) (startBlock : ℕ) :
    Behind names startBlock Table.empty :=
  ⟨le_refl _, fun _ _ _ h => by cases h⟩

/-- Where the jobs are. -/
theorem Behind.startHeight_le (h : Behind names startBlock t) {j : BullJobName} (hj : j ∈ names) :
    startHeight startBlock t j ≤ handledHeight startBlock t := by
  cases hn : heightOf t j with
  | none =>
    rw [startHeight, hn]
    exact h.start_le
  | some n =>
    rw [startHeight, hn]
    exact h.below j hj n hn

end Erascope.Checkpoint
