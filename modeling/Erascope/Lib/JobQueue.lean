import Mathlib.Tactic

/-!
# Queues of jobs with ids

A queue with one worker, whose jobs have ids. An id that the queue holds is not added again: neither
when its job waits, nor when it runs, nor when it failed and is among the failed jobs that the queue
keeps. A job that has completed leaves the queue. `π` is what the worker has done of its job.
-/

namespace Erascope

/-- The jobs that wait, in the order in which they start, the job that runs, and the failed jobs
that are kept, the last one first. No id waits twice or waits while it runs. -/
structure JobQueue (ι π : Type) where
  waiting : List ι
  active : Option (ι × π)
  failed : List ι
  nodup : ((active.map (·.1)).toList ++ waiting).Nodup

namespace JobQueue

variable {ι π : Type}

/-- The queue without jobs. -/
def empty : JobQueue ι π := ⟨[], none, [], List.nodup_nil⟩

/-- The job `id` runs and the worker is at `p`. -/
def Runs (q : JobQueue ι π) (id : ι) (p : π) : Prop := q.active = some (id, p)

/-- The job `id` waits or runs. -/
def Due (q : JobQueue ι π) (id : ι) : Prop := id ∈ q.waiting ∨ ∃ p, q.Runs id p

/-! ## 1. Operations -/

/-- The ids of the job that runs and of those that wait. -/
theorem mem_ids_iff {q : JobQueue ι π} {id : ι} :
    id ∈ (q.active.map (·.1)).toList ++ q.waiting ↔ q.Due id := by
  rw [List.mem_append, or_comm, Option.mem_toList, Option.map_eq_some_iff, Due]
  refine or_congr_right ⟨?_, ?_⟩
  · rintro ⟨⟨i, p⟩, hp, rfl⟩
    exact ⟨p, hp⟩
  · rintro ⟨p, hp⟩
    exact ⟨(id, p), hp, rfl⟩

section
variable [DecidableEq ι]

/-- The queue holds a job with this id. -/
def holds (q : JobQueue ι π) (id : ι) : Bool :=
  q.waiting.contains id || (q.active.map (·.1)) == some id || q.failed.contains id

theorem holds_eq_true_iff {q : JobQueue ι π} {id : ι} :
    q.holds id = true ↔ q.Due id ∨ id ∈ q.failed := by
  have hactive : (q.active.map (·.1)) = some id ↔ ∃ p, q.Runs id p := by
    constructor
    · intro h
      obtain ⟨⟨i, p⟩, hp, rfl⟩ := Option.map_eq_some_iff.mp h
      exact ⟨p, hp⟩
    · rintro ⟨p, hp⟩
      rw [hp]
      rfl
  simp only [holds, Bool.or_eq_true, List.contains_iff_mem, beq_iff_eq, hactive, Due]

instance (q : JobQueue ι π) (id : ι) : Decidable (q.Due id) := decidable_of_iff _ mem_ids_iff

/-- `add` -/
def add (q : JobQueue ι π) (id : ι) : JobQueue ι π :=
  if h : q.holds id then q
  else {
    waiting := q.waiting ++ [id]
    active := q.active
    failed := q.failed
    nodup := by
      rw [← List.append_assoc]
      refine q.nodup.append (List.nodup_singleton id) ?_
      rw [List.disjoint_singleton, mem_ids_iff]
      exact fun hdue => h (holds_eq_true_iff.mpr (Or.inl hdue)) }

end

/-- The worker takes the next job. -/
def take (q : JobQueue ι π) (start : π) : JobQueue ι π :=
  match h : q.waiting with
  | [] => q
  | id :: rest =>
    match hactive : q.active with
    | some _ => q
    | none => ⟨rest, some (id, start), q.failed, by simpa [h, hactive] using q.nodup⟩

/-- The worker gets on with its job. -/
def progress (q : JobQueue ι π) (p : π) : JobQueue ι π where
  waiting := q.waiting
  active := q.active.map fun a => (a.1, p)
  failed := q.failed
  nodup := by
    rw [Option.map_map]
    exact q.nodup

/-- The job has completed and is removed. -/
def complete (q : JobQueue ι π) : JobQueue ι π :=
  ⟨q.waiting, none, q.failed, (List.nodup_append.mp q.nodup).2.1⟩

/-- The job has thrown; the queue keeps the last `count` failed jobs. -/
def fail (q : JobQueue ι π) (count : ℕ) : JobQueue ι π where
  waiting := q.waiting
  active := none
  failed := ((q.active.map (·.1)).toList ++ q.failed).take count
  nodup := (List.nodup_append.mp q.nodup).2.1

/-- The worker is gone: its job waits again. -/
def stall (q : JobQueue ι π) : JobQueue ι π :=
  ⟨(q.active.map (·.1)).toList ++ q.waiting, none, q.failed, q.nodup⟩

/-! ## 2. What the operations keep -/

section
variable {q : JobQueue ι π} {id : ι} {p : π}

theorem not_mem_waiting_of_runs (h : q.Runs id p) : id ∉ q.waiting := by
  have hnd := q.nodup
  rw [h] at hnd
  exact (List.nodup_cons.mp hnd).1

theorem Runs.unique {id' : ι} {p' : π} (h : q.Runs id p) (h' : q.Runs id' p') :
    id = id' ∧ p = p' := by
  rw [Runs, h] at h'
  exact Prod.mk.inj (Option.some.inj h')

section
variable [DecidableEq ι]

@[simp] theorem active_add (q : JobQueue ι π) (id : ι) : (q.add id).active = q.active := by
  unfold add
  split <;> rfl

theorem runs_add {id' : ι} : (q.add id).Runs id' p ↔ q.Runs id' p := by
  rw [Runs, active_add, Runs]

theorem mem_waiting_add {id' : ι} (h : id' ∈ q.waiting) : id' ∈ (q.add id).waiting := by
  unfold add
  split
  · exact h
  · exact List.mem_append_left _ h

/-- An id that the queue does not run and does not keep as failed waits once it was added. -/
theorem mem_waiting_add_self (hrun : ∀ p, ¬ q.Runs id p) (hfailed : id ∉ q.failed) :
    id ∈ (q.add id).waiting := by
  unfold add
  split
  case isTrue h =>
    rcases holds_eq_true_iff.mp h with (hwait | ⟨p, hp⟩) | h
    · exact hwait
    · exact absurd hp (hrun p)
    · exact absurd h hfailed
  case isFalse => exact List.mem_append_right _ (List.mem_singleton_self id)

/-- An id that runs is not added. -/
theorem add_of_runs (h : q.Runs id p) : q.add id = q :=
  dif_pos (holds_eq_true_iff.mpr (Or.inl (Or.inr ⟨p, h⟩)))

end

/-- Either the worker has started the first job that waits, or nothing happens. -/
theorem take_cases (q : JobQueue ι π) (start : π) :
    (∃ id rest, q.active = none ∧ q.waiting = id :: rest ∧ (q.take start).waiting = rest ∧
      (q.take start).active = some (id, start)) ∨ q.take start = q := by
  unfold take
  split
  case h_1 => exact Or.inr rfl
  case h_2 id rest h =>
    split
    case h_1 => exact Or.inr rfl
    case h_2 hactive => exact Or.inl ⟨id, rest, hactive, h, rfl, rfl⟩

theorem runs_of_take {start : π} (h : (q.take start).Runs id p) : q.Runs id p ∨ p = start := by
  rcases q.take_cases start with ⟨i, rest, -, -, -, hactive⟩ | htake
  · rw [Runs, hactive] at h
    cases h
    exact Or.inr rfl
  · exact Or.inl (htake ▸ h)

/-- A job that waits waits or starts when the worker takes one. -/
theorem waiting_or_runs_take {start : π} (h : id ∈ q.waiting) :
    id ∈ (q.take start).waiting ∨ (q.take start).Runs id start := by
  rcases q.take_cases start with ⟨i, rest, -, hwaiting, hrest, hactive⟩ | htake
  · rw [hwaiting] at h
    rcases List.mem_cons.mp h with rfl | h
    · exact Or.inr hactive
    · exact Or.inl (hrest ▸ h)
  · rw [htake]
    exact Or.inl h

theorem runs_take {start : π} (h : q.Runs id p) : (q.take start).Runs id p := by
  rcases q.take_cases start with ⟨i, rest, hactive, -⟩ | htake
  · rw [Runs, hactive] at h
    cases h
  · rw [htake]
    exact h

theorem runs_progress {p' : π} (h : q.Runs id p) : (q.progress p').Runs id p' := by
  show q.active.map (fun a => (a.1, p')) = some (id, p')
  rw [h]
  rfl

theorem not_runs_complete (q : JobQueue ι π) (id : ι) (p : π) : ¬ q.complete.Runs id p := nofun

theorem mem_waiting_stall (h : q.Due id) : id ∈ q.stall.waiting := by
  rcases h with hwait | ⟨p, hp⟩
  · exact List.mem_append_right _ hwait
  · refine List.mem_append_left _ ?_
    rw [hp]
    exact List.mem_singleton_self id

end

end JobQueue

end Erascope
