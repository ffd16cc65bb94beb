import Mathlib.Tactic

/-!
# Runs of a machine

A machine is a function `step : σ → α → σ`: the label says which component moves and what
the environment answers, and a label that is not enabled leaves the state as it is. A run is
a list of labels. `Meets` says that every step of a run satisfies a condition on the label
and the state before it; `Meets.invariant` is the induction rule for such runs.
-/

namespace Erascope

variable {σ α : Type}

/-- The state after the labels `as`. -/
def runFrom (step : σ → α → σ) (s : σ) (as : List α) : σ := as.foldl step s

/-- Every step of the run satisfies `cond` in the state before it. -/
def Meets (step : σ → α → σ) (cond : σ → α → Prop) : σ → List α → Prop
  | _, [] => True
  | s, a :: as => cond s a ∧ Meets step cond (step s a) as

instance Meets.decidable (step : σ → α → σ) (cond : σ → α → Prop)
    [∀ s a, Decidable (cond s a)] : ∀ s as, Decidable (Meets step cond s as)
  | _, [] => inferInstanceAs (Decidable True)
  | s, a :: as =>
    have := Meets.decidable step cond (step s a) as
    inferInstanceAs (Decidable (cond s a ∧ Meets step cond (step s a) as))

@[simp] theorem runFrom_nil (step : σ → α → σ) (s : σ) : runFrom step s [] = s := rfl

@[simp] theorem runFrom_cons (step : σ → α → σ) (s : σ) (a : α) (as : List α) :
    runFrom step s (a :: as) = runFrom step (step s a) as := rfl

@[simp] theorem runFrom_append (step : σ → α → σ) (s : σ) (as bs : List α) :
    runFrom step s (as ++ bs) = runFrom step (runFrom step s as) bs := List.foldl_append ..

/-- What every step preserves holds in every state of a run. -/
theorem runFrom_invariant {step : σ → α → σ} {Inv : σ → Prop}
    (hstep : ∀ s a, Inv s → Inv (step s a)) {s : σ} (hs : Inv s) (as : List α) :
    Inv (runFrom step s as) := by
  induction as generalizing s with
  | nil => exact hs
  | cons a as ih => exact ih (hstep s a hs)

/-- The invariant rule: what a step that meets the condition preserves holds in every state
of a run whose steps all meet it. -/
theorem Meets.invariant {step : σ → α → σ} {cond : σ → α → Prop} {Inv : σ → Prop}
    (hstep : ∀ s a, Inv s → cond s a → Inv (step s a)) {s : σ} {as : List α}
    (h : Meets step cond s as) (hs : Inv s) : Inv (runFrom step s as) := by
  induction as generalizing s with
  | nil => exact hs
  | cons a as ih => exact ih h.2 (hstep s a hs h.1)

theorem meets_append {step : σ → α → σ} {cond : σ → α → Prop} {s : σ} {as bs : List α} :
    Meets step cond s (as ++ bs) ↔
      Meets step cond s as ∧ Meets step cond (runFrom step s as) bs := by
  induction as generalizing s with
  | nil => simp [Meets]
  | cons a as ih => simp [Meets, ih, and_assoc]

/-- Along a run whose steps meet a condition, so does every consequence of the condition in the
states of the invariant. -/
theorem Meets.imp {step : σ → α → σ} {cond cond' : σ → α → Prop} {Inv : σ → Prop}
    (hstep : ∀ s a, Inv s → cond s a → Inv (step s a))
    (himp : ∀ s a, Inv s → cond s a → cond' s a) {s : σ} {as : List α}
    (h : Meets step cond s as) (hs : Inv s) : Meets step cond' s as := by
  induction as generalizing s with
  | nil => exact h
  | cons a as ih => exact ⟨himp s a hs h.1, ih h.2 (hstep s a hs h.1)⟩

/-- The exact rule: when a step keeps `P` if and only if it meets the condition, `P` holds in
every state of a run if and only if every step meets it. `Wf` is an invariant of all runs. -/
theorem forall_prefix_iff_meets {step : σ → α → σ} {cond : σ → α → Prop} {Wf P : σ → Prop}
    (hwf : ∀ s a, Wf s → Wf (step s a))
    (hstep : ∀ s a, Wf s → P s → (P (step s a) ↔ cond s a)) {as : List α} :
    ∀ {s : σ}, Wf s → P s → ((∀ p, p <+: as → P (runFrom step s p)) ↔ Meets step cond s as) := by
  induction as with
  | nil =>
    intro s _ hP
    simpa [List.prefix_nil, Meets] using hP
  | cons a as ih =>
    intro s hs hP
    constructor
    · intro h
      have hfirst : P (step s a) := h [a] (List.prefix_append [a] as)
      refine ⟨(hstep s a hs hP).mp hfirst, (ih (hwf s a hs) hfirst).mp fun p hp => ?_⟩
      exact h (a :: p) (List.cons_prefix_cons.mpr ⟨rfl, hp⟩)
    · rintro ⟨hcond, hrest⟩ p hp
      have hfirst : P (step s a) := (hstep s a hs hP).mpr hcond
      cases p with
      | nil => exact hP
      | cons b p =>
        obtain ⟨rfl, htail⟩ := List.cons_prefix_cons.mp hp
        exact (ih (hwf s b hs) hfirst).mpr hrest p htail

/-- The exact rule with an invariant of its own: the steps that meet the condition keep `Inv`, which
implies `P`, and any other step ends in a state without `P`. -/
theorem forall_prefix_iff_meets_of_inv {step : σ → α → σ} {cond : σ → α → Prop} {Inv P : σ → Prop}
    (hP : ∀ s, Inv s → P s) (hkeep : ∀ s a, Inv s → cond s a → Inv (step s a))
    (hbreak : ∀ s a, Inv s → ¬ cond s a → ¬ P (step s a)) {as : List α} :
    ∀ {s : σ}, Inv s → ((∀ p, p <+: as → P (runFrom step s p)) ↔ Meets step cond s as) := by
  induction as with
  | nil =>
    intro s hs
    simpa [List.prefix_nil, Meets] using hP s hs
  | cons a as ih =>
    intro s hs
    constructor
    · intro h
      have hcond : cond s a := by
        by_contra hnot
        exact hbreak s a hs hnot (h [a] (List.prefix_append [a] as))
      refine ⟨hcond, (ih (hkeep s a hs hcond)).mp fun p hp => ?_⟩
      exact h (a :: p) (List.cons_prefix_cons.mpr ⟨rfl, hp⟩)
    · rintro ⟨hcond, hrest⟩ p hp
      cases p with
      | nil => exact hP s hs
      | cons b p =>
        obtain ⟨rfl, htail⟩ := List.cons_prefix_cons.mp hp
        exact (ih (hkeep s b hs hcond)).mpr hrest p htail

/-- The exact rule for what cannot be repaired: when a step keeps `P` if and only if it meets the
condition, and no step brings `P` back, `P` holds at the end of a run if and only if every step
meets it. -/
theorem runFrom_iff_meets {step : σ → α → σ} {cond : σ → α → Prop} {Wf P : σ → Prop}
    (hwf : ∀ s a, Wf s → Wf (step s a))
    (hstep : ∀ s a, Wf s → P s → (P (step s a) ↔ cond s a))
    (hlost : ∀ s a, Wf s → P (step s a) → P s) {as : List α} :
    ∀ {s : σ}, Wf s → P s → (P (runFrom step s as) ↔ Meets step cond s as) := by
  have hback : ∀ {as : List α} {s : σ}, Wf s → P (runFrom step s as) → P s := by
    intro as
    induction as with
    | nil => intro s _ hP; exact hP
    | cons a as ih => intro s hs hP; exact hlost s a hs (ih (hwf s a hs) hP)
  induction as with
  | nil => intro s _ hP; exact iff_of_true hP trivial
  | cons a as ih =>
    intro s hs hP
    constructor
    · intro h
      have hnext : P (step s a) := hback (hwf s a hs) h
      exact ⟨(hstep s a hs hP).mp hnext, (ih (hwf s a hs) hnext).mp h⟩
    · rintro ⟨hcond, hrest⟩
      exact (ih (hwf s a hs) ((hstep s a hs hP).mpr hcond)).mpr hrest

end Erascope
