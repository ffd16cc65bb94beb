import Mathlib.Tactic
import Erascope.Lib.Fold

/-!
# Pages by key

A query that is read page by page: each job asks for the rows with a key above that of the last row
it has seen, at most `limit` of them, and queues the next job until a page is empty. For rows in
the order of their keys the chain of jobs is a fold over `pages` (`runChain_pageJob`).
-/

namespace Erascope

variable {ρ σ π ε : Type}

/-! ## 1. The pages of a list -/

/-- At most `n` pages of at most `limit` rows. -/
def pagesAux (limit : ℕ) : ℕ → List ρ → List (List ρ)
  | 0, _ => []
  | n + 1, rows =>
    if rows.isEmpty then [] else rows.take limit :: pagesAux limit n (rows.drop limit)

/-- The pages of a list: `limit` rows each, and the rest on the last one. -/
def pages (limit : ℕ) (rows : List ρ) : List (List ρ) := pagesAux limit rows.length rows

section
variable {limit : ℕ} {rows : List ρ}

@[simp] theorem pages_nil : pages limit ([] : List ρ) = [] := rfl

theorem length_drop_lt (hlimit : 0 < limit) (hne : rows ≠ []) :
    (rows.drop limit).length < rows.length := by
  have := List.length_pos_iff.mpr hne
  rw [List.length_drop]
  omega

theorem pagesAux_eq (hlimit : 0 < limit) {n m : ℕ} (hn : rows.length ≤ n) (hm : rows.length ≤ m) :
    pagesAux limit n rows = pagesAux limit m rows := by
  induction n generalizing m rows with
  | zero =>
    obtain rfl : rows = [] := List.length_eq_zero_iff.mp (Nat.le_zero.mp hn)
    cases m <;> rfl
  | succ n ih =>
    by_cases hrows : rows = []
    · subst hrows
      cases m <;> rfl
    · have hlt := length_drop_lt hlimit hrows
      obtain ⟨m, rfl⟩ : ∃ m', m = m' + 1 :=
        Nat.exists_eq_succ_of_ne_zero fun h => hrows (List.length_eq_zero_iff.mp (by omega))
      have hrest : (rows.drop limit).length ≤ n ∧ (rows.drop limit).length ≤ m := by omega
      rw [pagesAux, pagesAux, ih hrest.1 hrest.2]

theorem pages_of_ne_nil (hlimit : 0 < limit) (hne : rows ≠ []) :
    pages limit rows = rows.take limit :: pages limit (rows.drop limit) := by
  have hlt := length_drop_lt hlimit hne
  obtain ⟨n, hn⟩ : ∃ n, rows.length = n + 1 :=
    Nat.exists_eq_succ_of_ne_zero fun h => hne (List.length_eq_zero_iff.mp h)
  have hle : (rows.drop limit).length ≤ n := by omega
  rw [pages, hn, pagesAux, if_neg (by simpa using hne), pages, pagesAux_eq hlimit hle (le_refl _)]

/-- The pages of a list give the list back. -/
theorem flatten_pages (hlimit : 0 < limit) : (pages limit rows).flatten = rows := by
  induction hlength : rows.length using Nat.strong_induction_on generalizing rows with
  | _ n ih =>
    by_cases hne : rows = []
    · subst hne
      rfl
    · have hlt := length_drop_lt hlimit hne
      rw [pages_of_ne_nil hlimit hne, List.flatten_cons, ih _ (hlength ▸ hlt) rfl,
        List.take_append_drop]

end

/-! ## 2. A chain of jobs -/

/-- The rows of the page after `prevId`. -/
def pageAfter (key : ρ → ℕ) (rows : List ρ) (limit prevId : ℕ) : List ρ :=
  (rows.filter fun r => prevId < key r).take limit

/-- A job that works on a page and queues the job for the next one. -/
def pageJob (key : ρ → ℕ) (rows : List ρ) (limit : ℕ) (work : σ → List ρ → Except ε σ) (s : σ)
    (prevId : ℕ) : Except ε (σ × Option ℕ) :=
  match (pageAfter key rows limit prevId).getLast? with
  | none => .ok (s, none)
  | some last => do
    let s ← work s (pageAfter key rows limit prevId)
    .ok (s, some (key last))

/-- A chain of jobs, as far as `fuel` jobs get: nothing is returned before the chain ends. -/
def runChain (job : σ → π → Except ε (σ × Option π)) : ℕ → σ → π → Except ε (Option σ)
  | 0, _, _ => .ok none
  | fuel + 1, s, p => do
    let (s, next) ← job s p
    match next with
    | none => .ok (some s)
    | some p => runChain job fuel s p

section
variable {key : ρ → ℕ} {rows : List ρ} {limit : ℕ} {work : σ → List ρ → Except ε σ}

/-- A chain that has ended stays ended. -/
theorem runChain_mono {job : σ → π → Except ε (σ × Option π)} {fuel fuel' : ℕ} {s s' : σ} {p : π}
    (h : runChain job fuel s p = .ok (some s')) (hle : fuel ≤ fuel') :
    runChain job fuel' s p = .ok (some s') := by
  induction fuel generalizing fuel' s p with
  | zero => cases h
  | succ fuel ih =>
    obtain ⟨fuel', rfl⟩ : ∃ n, fuel' = n + 1 := Nat.exists_eq_succ_of_ne_zero (by omega)
    rw [runChain] at h ⊢
    obtain ⟨⟨s₁, next⟩, hjob, hrest⟩ := bind_ok h
    rw [hjob, ok_bind]
    cases next with
    | none => exact hrest
    | some p => exact ih hrest (by omega)

/-- What comes after the last row of a page. -/
theorem filter_after_page (hsorted : rows.Pairwise fun a b => key a < key b) {prevId : ℕ} {last : ρ}
    (hlast : (pageAfter key rows limit prevId).getLast? = some last) :
    rows.filter (fun r => key last < key r) = (rows.filter fun r => prevId < key r).drop limit := by
  obtain ⟨init, hinit⟩ := List.getLast?_eq_some_iff.mp hlast
  have hmem : last ∈ rows.filter fun r => prevId < key r := by
    refine List.mem_of_mem_take (i := limit) ?_
    show last ∈ pageAfter key rows limit prevId
    rw [hinit]
    exact List.mem_append_right _ (List.mem_singleton_self last)
  have hprev : prevId < key last := by simpa using (List.mem_filter.mp hmem).2
  have hsub : rows.filter (fun r => key last < key r) =
      (rows.filter fun r => prevId < key r).filter fun r => key last < key r := by
    rw [List.filter_filter]
    refine List.filter_congr fun r _ => ?_
    by_cases hr : key last < key r
    · simp [hr, hprev.trans hr]
    · simp [hr]
  rw [hsub]
  set above := rows.filter fun r => prevId < key r
  have habove : above.Pairwise fun a b => key a < key b := hsorted.sublist List.filter_sublist
  rw [← List.take_append_drop limit above] at habove
  obtain ⟨htake, -, hcross⟩ := List.pairwise_append.mp habove
  have hpage : above.take limit = init ++ [last] := hinit
  -- nothing on the page is above its last row, and everything after the page is
  have hfirst : (above.take limit).filter (fun r => key last < key r) = [] := by
    rw [List.filter_eq_nil_iff]
    intro r hr
    rw [hpage] at hr htake
    rcases List.mem_append.mp hr with hr | hr
    · have := (List.pairwise_append.mp htake).2.2 r hr last (List.mem_singleton_self last)
      simp only [decide_eq_true_eq]
      omega
    · rw [List.mem_singleton.mp hr]
      simp
  have hrest : (above.drop limit).filter (fun r => key last < key r) = above.drop limit := by
    rw [List.filter_eq_self]
    intro r hr
    have hin : last ∈ above.take limit := by
      rw [hpage]
      exact List.mem_append_right _ (List.mem_singleton_self last)
    simpa using hcross last hin r hr
  conv_lhs => rw [← List.take_append_drop limit above]
  rw [List.filter_append, hfirst, hrest, List.nil_append]

/-- A page that ends before the rows `later` does not depend on them. -/
theorem pageAfter_append {p : ρ → Prop} {later : List ρ} {prevId : ℕ}
    (hpage : ∀ r ∈ pageAfter key (rows ++ later) limit prevId, p r) (hlater : ∀ r ∈ later, ¬ p r) :
    pageAfter key (rows ++ later) limit prevId = pageAfter key rows limit prevId := by
  unfold pageAfter at hpage ⊢
  rw [List.filter_append, List.take_append] at hpage ⊢
  have hnone : (later.filter fun r => prevId < key r).take
      (limit - (rows.filter fun r => prevId < key r).length) = [] := by
    refine List.eq_nil_iff_forall_not_mem.mpr fun r hr => ?_
    exact hlater r (List.mem_of_mem_filter (List.mem_of_mem_take hr))
      (hpage r (List.mem_append_right _ hr))
  rw [hnone, List.append_nil]

theorem mem_of_mem_pageAfter {prevId : ℕ} {r : ρ} (h : r ∈ pageAfter key rows limit prevId) :
    r ∈ rows ∧ prevId < key r := by
  simpa using List.mem_filter.mp (List.mem_of_mem_take h)

/-- A page ends with its highest row. -/
theorem le_last_of_mem_pageAfter (hsorted : rows.Pairwise fun a b => key a < key b) {prevId : ℕ}
    {last r : ρ} (hlast : (pageAfter key rows limit prevId).getLast? = some last)
    (hr : r ∈ pageAfter key rows limit prevId) : key r ≤ key last := by
  have hpage : (pageAfter key rows limit prevId).Pairwise fun a b => key a < key b :=
    hsorted.sublist ((List.take_sublist _ _).trans List.filter_sublist)
  obtain ⟨init, hinit⟩ := List.getLast?_eq_some_iff.mp hlast
  rw [hinit] at hpage hr
  rcases List.mem_append.mp hr with hr | hr
  · exact ((List.pairwise_append.mp hpage).2.2 r hr last (List.mem_singleton_self last)).le
  · rw [List.mem_singleton.mp hr]

/-- A page leaves out no row up to its last one. -/
theorem mem_pageAfter_of_le (hsorted : rows.Pairwise fun a b => key a < key b) {prevId : ℕ}
    {last r : ρ} (hlast : (pageAfter key rows limit prevId).getLast? = some last) (hr : r ∈ rows)
    (hlt : prevId < key r) (hle : key r ≤ key last) : r ∈ pageAfter key rows limit prevId := by
  have habove : r ∈ rows.filter fun r => prevId < key r := List.mem_filter.mpr ⟨hr, by simpa using hlt⟩
  rw [← List.take_append_drop limit (rows.filter fun r => prevId < key r)] at habove
  rcases List.mem_append.mp habove with htake | hdrop
  · exact htake
  · rw [← filter_after_page hsorted hlast] at hdrop
    exact absurd (by simpa using (List.mem_filter.mp hdrop).2) (not_lt.mpr hle)

/-- After an empty page there are no rows. -/
theorem le_of_pageAfter_empty (hlimit : 0 < limit) {prevId : ℕ}
    (hempty : (pageAfter key rows limit prevId).getLast? = none) {r : ρ} (hr : r ∈ rows) :
    key r ≤ prevId := by
  refine Nat.le_of_not_lt fun hlt => ?_
  rcases List.take_eq_nil_iff.mp (List.getLast?_eq_none_iff.mp hempty) with hzero | hnil
  · exact hlimit.ne' hzero
  · exact List.filter_eq_nil_iff.mp hnil r hr (by simpa using hlt)

/-- The chain of jobs over rows in the order of their keys is a fold over the pages. -/
theorem runChain_pageJob (hsorted : rows.Pairwise fun a b => key a < key b) (hlimit : 0 < limit)
    {fuel prevId : ℕ} (s : σ) (hfuel : (rows.filter fun r => prevId < key r).length < fuel) :
    runChain (pageJob key rows limit work) fuel s prevId =
      (pages limit (rows.filter fun r => prevId < key r)).foldlM work s >>= fun s => .ok (some s) := by
  induction fuel generalizing s prevId with
  | zero => exact absurd hfuel (Nat.not_lt_zero _)
  | succ fuel ih =>
    rw [runChain, pageJob]
    cases hlast : (pageAfter key rows limit prevId).getLast? with
    | none =>
      have hnil : rows.filter (fun r => prevId < key r) = [] := by
        have htake := List.getLast?_eq_none_iff.mp hlast
        rcases List.take_eq_nil_iff.mp htake with hzero | hnil
        · omega
        · exact hnil
      rw [hnil]
      rfl
    | some last =>
      have hne : rows.filter (fun r => prevId < key r) ≠ [] := by
        intro hnil
        rw [pageAfter, hnil, List.take_nil] at hlast
        cases hlast
      have hlt := length_drop_lt hlimit hne
      rw [← filter_after_page hsorted hlast] at hlt
      rw [pages_of_ne_nil hlimit hne, List.foldlM_cons]
      simp only [bind_assoc]
      refine bind_congr fun s₁ => ?_
      rw [ok_bind, ← filter_after_page hsorted hlast]
      exact ih s₁ (by omega)

/-- What the chain comes to from the first page on. -/
theorem exists_runChain_pageJob (hsorted : rows.Pairwise fun a b => key a < key b)
    (hpos : ∀ r ∈ rows, 0 < key r) (hlimit : 0 < limit) {s s' : σ} :
    (∃ fuel, runChain (pageJob key rows limit work) fuel s 0 = .ok (some s')) ↔
      (pages limit rows).foldlM work s = .ok s' := by
  have hall : rows.filter (fun r => 0 < key r) = rows :=
    List.filter_eq_self.mpr fun r hr => by simpa using hpos r hr
  have hrun := @runChain_pageJob ρ σ ε key rows limit work hsorted hlimit (rows.length + 1) 0 s
    (by rw [hall]; omega)
  rw [hall] at hrun
  constructor
  · rintro ⟨fuel, hfuel⟩
    have hlong := runChain_mono hfuel (Nat.le_add_right fuel (rows.length + 1))
    have hchain := @runChain_pageJob ρ σ ε key rows limit work hsorted hlimit
      (fuel + (rows.length + 1)) 0 s (by rw [hall]; omega)
    rw [hlong, hall] at hchain
    obtain ⟨s₁, hfold, hs₁⟩ := bind_ok hchain.symm
    cases hs₁
    exact hfold
  · intro hfold
    rw [hfold, ok_bind] at hrun
    exact ⟨rows.length + 1, hrun⟩

end

end Erascope
