import Mathlib.Tactic
import Erascope.Lib.Table

/-!
# Folds that may throw

A handler loads the rows it needs into a dictionary, folds its events over the dictionary,
and writes the dictionary back. The fold runs in `Except`; an event that throws ends it.

* `foldlM_invariant`: what a step preserves, the fold preserves.
* `ExceptRel R` relates two computations that throw the same error or give related results;
  `foldlM_rel` is the simulation rule for folds.
* `OkRel R` forgets the errors: both complete, with related results, or both throw.
* `Overlay S base d t`: the dictionary `d`, loaded from `base` for the keys `S`, stands for the
  whole table `t`. A fold that only touches keys of `S` can be run on either (`Overlay.upsert`),
  and writing `d` back to `base` gives `t` (`Overlay.get?_upsertAll`).
-/

namespace Erascope

variable {ε σ τ α : Type}

/-! ## 1. Invariants -/

theorem ok_bind (a : σ) (f : σ → Except ε τ) : ((.ok a : Except ε σ) >>= f) = f a := rfl

/-- A sequence that completes has a first part that completes. -/
theorem bind_ok {x : Except ε σ} {f : σ → Except ε τ} {t : τ} (h : x >>= f = .ok t) :
    ∃ s, x = .ok s ∧ f s = .ok t := by
  cases x with
  | error e => cases h
  | ok s => exact ⟨s, rfl, h⟩

/-- A sequence throws in its first part or in its second. -/
theorem bind_error {x : Except ε σ} {f : σ → Except ε τ} {e : ε} (h : x >>= f = .error e) :
    x = .error e ∨ ∃ s, x = .ok s ∧ f s = .error e := by
  cases x with
  | error e' =>
    cases h
    exact Or.inl rfl
  | ok s => exact Or.inr ⟨s, rfl, h⟩

/-- What a computation throws. -/
def errorOf : Except ε σ → Option ε
  | .ok _ => none
  | .error e => some e

theorem errorOf_eq_some_iff {x : Except ε σ} {e : ε} : errorOf x = some e ↔ x = .error e := by
  cases x <;> simp [errorOf]

theorem foldlM_cons_ok {f : σ → α → Except ε σ} {s s' : σ} {a : α} {as : List α}
    (h : (a :: as).foldlM f s = .ok s') : ∃ m, f s a = .ok m ∧ as.foldlM f m = .ok s' := by
  rw [List.foldlM_cons] at h
  exact bind_ok h

theorem mapM_ok {β : Type} {f : α → Except ε β} {g : α → β} {as : List α}
    (h : ∀ a ∈ as, f a = .ok (g a)) : as.mapM f = .ok (as.map g) := by
  induction as with
  | nil => rfl
  | cons a as ih =>
    rw [List.mapM_cons, h a List.mem_cons_self, ih fun a ha => h a (List.mem_cons_of_mem _ ha)]
    rfl

/-- A map that completes completes on every element. -/
theorem ok_of_mapM_ok {β : Type} {f : α → Except ε β} {as : List α} {bs : List β}
    (h : as.mapM f = .ok bs) : ∀ a ∈ as, ∃ b, f a = .ok b := by
  induction as generalizing bs with
  | nil => simp
  | cons a as ih =>
    rw [List.mapM_cons] at h
    obtain ⟨b, hb, h⟩ := bind_ok h
    obtain ⟨bs', hbs, -⟩ := bind_ok h
    intro a' ha'
    rcases List.mem_cons.mp ha' with rfl | ha'
    · exact ⟨b, hb⟩
    · exact ih hbs a' ha'

/-- A map of options that completes gives the results in order. -/
theorem map_eq_of_mapM {β : Type} {f : α → Option β} {l : List α} {out : List β}
    (h : l.mapM f = some out) : l.map f = out.map some := by
  induction l generalizing out with
  | nil =>
    cases h
    rfl
  | cons a l ih =>
    simp only [List.mapM_cons, Option.bind_eq_bind, Option.bind_eq_some_iff] at h
    obtain ⟨b, hb, bs, hbs, hout⟩ := h
    cases hout
    rw [List.map_cons, List.map_cons, hb, ih hbs]

theorem mapM_some {β : Type} {f : α → Option β} {g : α → β} {l : List α}
    (h : ∀ a ∈ l, f a = some (g a)) : l.mapM f = some (l.map g) := by
  induction l with
  | nil => rfl
  | cons a l ih =>
    rw [List.mapM_cons, h a List.mem_cons_self, ih fun x hx => h x (List.mem_cons_of_mem a hx)]
    rfl

theorem mapM_eq_some_iff {β : Type} {f : α → Option β} {l : List α} {out : List β} :
    l.mapM f = some out ↔ l.map f = out.map some := by
  refine ⟨map_eq_of_mapM, fun h => ?_⟩
  induction l generalizing out with
  | nil =>
    rw [List.map_nil, eq_comm, List.map_eq_nil_iff] at h
    rw [h]
    rfl
  | cons a l ih =>
    cases out with
    | nil => cases h
    | cons b out =>
      obtain ⟨hb, hout⟩ := List.cons_eq_cons.mp h
      rw [List.mapM_cons, hb, ih hout]
      rfl

/-- What holds of the results of a map of options, in order. -/
theorem map_of_map_some {β γ : Type} {f : α → Option β} {g : β → γ} {k : α → γ} {l : List α}
    {out : List β} (h : l.map f = out.map some)
    (hg : ∀ a ∈ l, ∀ b, f a = some b → g b = k a) : out.map g = l.map k := by
  induction l generalizing out with
  | nil =>
    rw [List.map_nil, eq_comm, List.map_eq_nil_iff] at h
    rw [h]
    rfl
  | cons a l ih =>
    cases out with
    | nil => cases h
    | cons b out =>
      obtain ⟨hb, hout⟩ := List.cons_eq_cons.mp h
      rw [List.map_cons, List.map_cons, hg a List.mem_cons_self b hb,
        ih hout fun x hx => hg x (List.mem_cons_of_mem a hx)]

theorem exists_mapM_some {β : Type} {f : α → Option β} {l : List α}
    (h : ∀ a ∈ l, (f a).isSome) : ∃ out, l.mapM f = some out := by
  induction l with
  | nil => exact ⟨[], rfl⟩
  | cons a l ih =>
    obtain ⟨b, hb⟩ := Option.isSome_iff_exists.mp (h a List.mem_cons_self)
    obtain ⟨bs, hbs⟩ := ih fun x hx => h x (List.mem_cons_of_mem a hx)
    refine ⟨b :: bs, ?_⟩
    rw [List.mapM_cons, hb, hbs]
    rfl

theorem foldlM_invariant {f : σ → α → Except ε σ} {P : σ → Prop} {as : List α}
    (hstep : ∀ s a s', a ∈ as → P s → f s a = .ok s' → P s') {s s' : σ} (hs : P s)
    (h : as.foldlM f s = .ok s') : P s' := by
  induction as generalizing s with
  | nil =>
    cases h
    exact hs
  | cons a as ih =>
    obtain ⟨m, hm, hrest⟩ := foldlM_cons_ok h
    exact ih (fun s a' s' ha => hstep s a' s' (List.mem_cons_of_mem a ha))
      (hstep s a m List.mem_cons_self hs hm) hrest

/-! ## 2. Simulation -/

/-- The same error, or results related by `R`. -/
def ExceptRel (R : σ → τ → Prop) : Except ε σ → Except ε τ → Prop
  | .ok s, .ok t => R s t
  | .error e, .error e' => e = e'
  | _, _ => False

theorem ExceptRel.bind {σ' τ' : Type} {R : σ → τ → Prop} {R' : σ' → τ' → Prop}
    {x : Except ε σ} {y : Except ε τ} (h : ExceptRel R x y) {f : σ → Except ε σ'}
    {g : τ → Except ε τ'} (hfg : ∀ s t, R s t → ExceptRel R' (f s) (g t)) :
    ExceptRel R' (x >>= f) (y >>= g) := by
  cases x with
  | ok s =>
    cases y with
    | ok t => exact hfg s t h
    | error e => exact h.elim
  | error e =>
    cases y with
    | ok t => exact h.elim
    | error e' => exact h

theorem ExceptRel.of_ok {R : σ → τ → Prop} {y : Except ε τ} {s : σ}
    (h : ExceptRel R (.ok s : Except ε σ) y) : ∃ t, y = .ok t ∧ R s t := by
  cases y with
  | ok t => exact ⟨t, rfl, h⟩
  | error e => exact h.elim

theorem ExceptRel.of_error {R : σ → τ → Prop} {y : Except ε τ} {e : ε}
    (h : ExceptRel R (.error e : Except ε σ) y) : y = .error e := by
  cases y with
  | ok t => exact h.elim
  | error e' => exact congrArg _ (Eq.symm h)

theorem ExceptRel.of_ok_right {R : σ → τ → Prop} {x : Except ε σ} {t : τ}
    (h : ExceptRel R x (.ok t : Except ε τ)) : ∃ s, x = .ok s ∧ R s t := by
  cases x with
  | ok s => exact ⟨s, rfl, h⟩
  | error e => exact h.elim

/-- The left side goes on without throwing. -/
theorem ExceptRel.bind_left {σ' : Type} {R : σ → τ → Prop} {S : σ' → τ → Prop}
    {x : Except ε σ} {y : Except ε τ} (h : ExceptRel R x y) {f : σ → Except ε σ'}
    (hf : ∀ s t, R s t → ExceptRel S (f s) (.ok t)) : ExceptRel S (x >>= f) y := by
  cases x with
  | ok s =>
    obtain ⟨t, rfl, ht⟩ := h.of_ok
    exact hf s t ht
  | error e =>
    cases h.of_error
    exact rfl

theorem ExceptRel.trans {υ : Type} {R : σ → τ → Prop} {R' : τ → υ → Prop} {R'' : σ → υ → Prop}
    {x : Except ε σ} {y : Except ε τ} {z : Except ε υ}
    (hR : ∀ s t u, R s t → R' t u → R'' s u) (h : ExceptRel R x y) (h' : ExceptRel R' y z) :
    ExceptRel R'' x z := by
  cases x with
  | ok s =>
    obtain ⟨t, rfl, ht⟩ := h.of_ok
    obtain ⟨u, rfl, hu⟩ := h'.of_ok
    exact hR s t u ht hu
  | error e =>
    cases h.of_error
    cases h'.of_error
    exact rfl

theorem foldlM_rel {R : σ → τ → Prop} {f : σ → α → Except ε σ} {g : τ → α → Except ε τ}
    {as : List α} (hstep : ∀ s t a, a ∈ as → R s t → ExceptRel R (f s a) (g t a)) {s : σ} {t : τ}
    (h : R s t) : ExceptRel R (as.foldlM f s) (as.foldlM g t) := by
  induction as generalizing s t with
  | nil => exact h
  | cons a as ih =>
    rw [List.foldlM_cons, List.foldlM_cons]
    refine (hstep s t a List.mem_cons_self h).bind fun s' t' h' => ?_
    exact ih (fun s t a' ha => hstep s t a' (List.mem_cons_of_mem a ha)) h'

/-- Both complete, with results related by `R`, or both throw. -/
def OkRel (R : σ → τ → Prop) : Except ε σ → Except ε τ → Prop
  | .ok s, .ok t => R s t
  | .error _, .error _ => True
  | _, _ => False

theorem ExceptRel.okRel {R : σ → τ → Prop} {x : Except ε σ} {y : Except ε τ}
    (h : ExceptRel R x y) : OkRel R x y := by
  cases x with
  | ok s =>
    obtain ⟨t, rfl, ht⟩ := h.of_ok
    exact ht
  | error e =>
    cases h.of_error
    exact trivial

theorem OkRel.of_ok {R : σ → τ → Prop} {y : Except ε τ} {s : σ}
    (h : OkRel R (.ok s : Except ε σ) y) : ∃ t, y = .ok t ∧ R s t := by
  cases y with
  | ok t => exact ⟨t, rfl, h⟩
  | error e => exact h.elim

theorem OkRel.of_ok_right {R : σ → τ → Prop} {x : Except ε σ} {t : τ}
    (h : OkRel R x (.ok t : Except ε τ)) : ∃ s, x = .ok s ∧ R s t := by
  cases x with
  | ok s => exact ⟨s, rfl, h⟩
  | error e => exact h.elim

theorem okRel_of_imp {R : σ → τ → Prop} {x : Except ε σ} {y : Except ε τ}
    (hxy : ∀ s, x = .ok s → ∃ t, y = .ok t ∧ R s t)
    (hyx : ∀ t, y = .ok t → ∃ s, x = .ok s) : OkRel R x y := by
  cases x with
  | ok s =>
    obtain ⟨t, rfl, ht⟩ := hxy s rfl
    exact ht
  | error e =>
    cases y with
    | ok t =>
      obtain ⟨s, hs⟩ := hyx t rfl
      cases hs
    | error e' => exact trivial

theorem OkRel.bind {σ' τ' : Type} {R : σ → τ → Prop} {R' : σ' → τ' → Prop} {x : Except ε σ}
    {y : Except ε τ} (h : OkRel R x y) {f : σ → Except ε σ'} {g : τ → Except ε τ'}
    (hfg : ∀ s t, x = .ok s → R s t → OkRel R' (f s) (g t)) : OkRel R' (x >>= f) (y >>= g) := by
  cases x with
  | ok s =>
    obtain ⟨t, rfl, ht⟩ := h.of_ok
    exact hfg s t rfl ht
  | error e =>
    cases y with
    | ok t => exact h.elim
    | error e' => exact trivial

theorem OkRel.trans {υ : Type} {R : σ → τ → Prop} {R' : τ → υ → Prop} {R'' : σ → υ → Prop}
    {x : Except ε σ} {y : Except ε τ} {z : Except ε υ}
    (hR : ∀ s t u, R s t → R' t u → R'' s u) (h : OkRel R x y) (h' : OkRel R' y z) :
    OkRel R'' x z := by
  cases x with
  | ok s =>
    obtain ⟨t, rfl, ht⟩ := h.of_ok
    obtain ⟨u, rfl, hu⟩ := h'.of_ok
    exact hR s t u ht hu
  | error e =>
    cases y with
    | ok t => exact h.elim
    | error e' =>
      cases z with
      | ok u => exact h'.elim
      | error e'' => exact trivial

/-! ## 3. Loading a dictionary and writing it back -/

namespace Table

variable {κ ρ : Type} [DecidableEq κ] {key : ρ → κ} {S : κ → Prop}

/-- The dictionary `d` agrees with `t` on the keys `S`, and overwriting `base` by `d` gives `t`. -/
structure Overlay (S : κ → Prop) (base d t : Table key) : Prop where
  agree : ∀ k, S k → d.get? k = t.get? k
  merge : ∀ k, t.get? k = (d.get? k).or (base.get? k)

/-- Loading the rows with keys in `S`. -/
theorem overlay_filter (base : Table key) (p : ρ → Bool) (hp : ∀ r, p r = true ↔ S (key r)) :
    Overlay S base (base.filter p) base := by
  refine ⟨fun k hk => ?_, fun k => ?_⟩
  · rw [get?_filter]
    cases h : base.get? k with
    | none => rfl
    | some r => exact Option.filter_some_pos ((hp r).mpr ((key_of_get? h).symm ▸ hk))
  · rw [get?_filter]
    cases h : base.get? k with
    | none => rfl
    | some r => cases hpr : p r <;> simp [Option.filter, hpr]

theorem Overlay.upsert {base d t : Table key} (h : Overlay S base d t) (r : ρ) :
    Overlay S base (d.upsert r) (t.upsert r) := by
  refine ⟨fun k hk => ?_, fun k => ?_⟩
  · rw [get?_upsert, get?_upsert, h.agree k hk]
  · rw [get?_upsert, get?_upsert, h.merge k]
    split <;> rfl

theorem Overlay.get?_upsertAll {base d t : Table key} (h : Overlay S base d t) (k : κ) :
    (base.upsertAll d.rows).get? k = t.get? k := by
  rw [Table.get?_upsertAll, h.merge k]

end Table

end Erascope
