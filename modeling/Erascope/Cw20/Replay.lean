import Mathlib.Tactic
import Erascope.Cw20.Basic

/-!
# What a replay of activities does

Activities are applied in id order, and on the chain ids follow heights. For such a list the
fold of `updateBalanceHolders` has a closed form: a holder ends with its old amount plus what
the activities from its own height on move (`replay_amount`). The fold goes through exactly
when every activity has an amount and every sender is known when its turn comes
(`replay_ok_iff`).
-/

namespace Erascope.Cw20

open Cw20Lemmas

/-! ## 1. Definitions -/

/-- What an activity adds to the balance of an address. -/
def delta (a : String) (event : Cw20Activity) : ℤ :=
  (if truthy event.toAddress = some a then event.amount.getD 0 else 0) -
    (if truthy event.fromAddress = some a then event.amount.getD 0 else 0)

/-- Every sender is known at the start or a recipient of an earlier activity. -/
def SendersKnown (known : String → Prop) (events : List Cw20Activity) : Prop :=
  ∀ pre event post, events = pre ++ event :: post → ∀ a, truthy event.fromAddress = some a →
    known a ∨ ∃ e ∈ pre, truthy e.toAddress = some a

/-- Ids follow heights: the activities were stored in chain order. -/
def ChainOrder (activities : List Cw20Activity) : Prop :=
  ∀ x ∈ activities, ∀ y ∈ activities, x.id < y.id → x.height ≤ y.height

instance (activities : List Cw20Activity) : Decidable (ChainOrder activities) :=
  inferInstanceAs (Decidable (∀ x ∈ activities, ∀ y ∈ activities, x.id < y.id → x.height ≤ y.height))

/-- The activities of a contract that change a balance. -/
def history (db : Db) (c : ℕ) : List Cw20Activity :=
  (activitiesOf db c).filter fun event => changesBalance event.action

namespace ReplayLemmas

variable {c : ℕ}

/-! ### The order of the activities of a run -/

theorem perm_orderEvents (events : List Cw20Activity) :
    (orderEvents events).Perm (events.filter fun event => changesBalance event.action) :=
  List.perm_insertionSort _ _

theorem perm_jobEvents (db : Db) (payload : Cw20UpdateByContractParam) :
    (jobEvents db payload).Perm (between (·.height) payload.startBlock payload.endBlock
      (history db payload.cw20ContractId)) := by
  refine (perm_orderEvents _).trans ?_
  rw [filter_between]
  exact List.Perm.refl _

theorem pairwise_id_orderEvents (events : List Cw20Activity) :
    (orderEvents events).Pairwise fun x y => x.id ≤ y.id :=
  List.pairwise_insertionSort (fun x y : Cw20Activity => x.id ≤ y.id) _

/-- In chain order, the activities of a run are ordered by height. -/
theorem pairwise_height_orderEvents {events : List Cw20Activity}
    (hnd : (events.map (·.id)).Nodup) (hord : ChainOrder events) :
    (orderEvents events).Pairwise fun x y => x.height ≤ y.height := by
  have hmem : ∀ x ∈ orderEvents events, x ∈ events := fun x hx =>
    List.mem_of_mem_filter ((perm_orderEvents events).mem_iff.mp hx)
  refine (pairwise_id_orderEvents events).imp_of_mem fun hx hy hle => ?_
  rcases Nat.lt_or_eq_of_le hle with hlt | heq
  · exact hord _ (hmem _ hx) _ (hmem _ hy) hlt
  · rw [List.inj_on_of_nodup_map hnd (hmem _ hx) (hmem _ hy) heq]

theorem pairwise_height_jobEvents {db : Db} (payload : Cw20UpdateByContractParam)
    (hord : ChainOrder (activitiesOf db payload.cw20ContractId)) :
    (jobEvents db payload).Pairwise fun x y => x.height ≤ y.height := by
  refine pairwise_height_orderEvents ?_ fun x hx y hy =>
    hord x (mem_between.mp hx).1 y (mem_between.mp hy).1
  exact ((between_sublist.trans List.filter_sublist).map _).nodup db.cw20_activity.nodup

/-- Sorting and cutting commute. -/
theorem jobEvents_eq_between (db : Db) (c s e : ℕ) :
    jobEvents db ⟨c, s, e⟩ = between (·.height) s e (orderEvents (activitiesOf db c)) := by
  have hmem : ∀ x ∈ jobEvents db ⟨c, s, e⟩, x ∈ db.cw20_activity.rows := fun x hx =>
    List.mem_of_mem_filter (List.mem_of_mem_filter
      (mem_between.mp ((perm_jobEvents db ⟨c, s, e⟩).mem_iff.mp hx)).1)
  have hperm : (jobEvents db ⟨c, s, e⟩).Perm
      (between (·.height) s e (orderEvents (activitiesOf db c))) :=
    (perm_jobEvents db ⟨c, s, e⟩).trans ((perm_orderEvents _).symm.filter _)
  refine List.Perm.eq_of_pairwise (fun x y hx hy hxy hyx => ?_) (pairwise_id_orderEvents _)
    ((pairwise_id_orderEvents _).sublist between_sublist) hperm
  exact List.inj_on_of_nodup_map db.cw20_activity.nodup (hmem x hx)
    (hmem y (hperm.mem_iff.mpr hy)) (le_antisymm hxy hyx)

/-- Consecutive ranges apply consecutive activities. -/
theorem jobEvents_append {db : Db} {c s m e : ℕ} (hord : ChainOrder (activitiesOf db c))
    (hsm : s ≤ m) (hme : m ≤ e) :
    jobEvents db ⟨c, s, m⟩ ++ jobEvents db ⟨c, m, e⟩ = jobEvents db ⟨c, s, e⟩ := by
  have hnd : ((activitiesOf db c).map (·.id)).Nodup :=
    (List.filter_sublist.map _).nodup db.cw20_activity.nodup
  rw [jobEvents_eq_between, jobEvents_eq_between, jobEvents_eq_between]
  exact between_append (pairwise_height_orderEvents hnd hord) hsm hme

theorem jobEvents_eq_nil {db : Db} {c s e : ℕ}
    (h : ∀ x ∈ activitiesOf db c, s < x.height → e < x.height) : jobEvents db ⟨c, s, e⟩ = [] := by
  simp only [jobEvents, between_eq_nil h]
  rfl

/-! ### One side, one activity -/

theorem amountOf_applySide (x : Option String) (h : ℕ) (δ : ℤ) (st : Holders × ℤ) (a : String) :
    amountOf (applySide c x h δ st).1 (c, a) = amountOf st.1 (c, a) +
      if lastOf st.1 (c, a) ≤ h then (if x = some a then δ else 0) else 0 := by
  unfold applySide
  cases x with
  | none => simp
  | some b =>
    simp only
    by_cases hb : b = a
    · subst hb
      split
      · rw [amountOf_addToHolder]
        simp
      · simp
    · have hne : ¬ (c, a) = (c, b) := fun he => hb (congrArg Prod.snd he).symm
      split
      · rw [amountOf_addToHolder, if_neg hne]
        simp [hb]
      · simp [hb]

theorem lastOf_applySide (x : Option String) (h : ℕ) (δ : ℤ) (st : Holders × ℤ) (a : String) :
    lastOf (applySide c x h δ st).1 (c, a) =
      if x = some a ∧ lastOf st.1 (c, a) ≤ h then h else lastOf st.1 (c, a) := by
  unfold applySide
  cases x with
  | none => simp
  | some b =>
    simp only
    by_cases hb : b = a
    · subst hb
      split
      · next hle => rw [lastOf_addToHolder, if_pos rfl, if_pos ⟨rfl, hle⟩]
      · next hlt => rw [if_neg (fun h => hlt h.2)]
    · have hne : ¬ (c, a) = (c, b) := fun he => hb (congrArg Prod.snd he).symm
      have hnot : ¬ (some b = some a ∧ lastOf st.1 (c, a) ≤ h) := fun h => hb (Option.some.inj h.1)
      rw [if_neg hnot]
      split
      · rw [lastOf_addToHolder, if_neg hne]
      · rfl

theorem get?_applySide_ne_none_iff (x : Option String) (h : ℕ) (δ : ℤ) (st : Holders × ℤ)
    (a : String) :
    (applySide c x h δ st).1.get? (c, a) ≠ none ↔ st.1.get? (c, a) ≠ none ∨ x = some a := by
  unfold applySide
  cases x with
  | none => simp
  | some b =>
    simp only
    by_cases hb : b = a
    · subst hb
      split
      · simp [addToHolder, CW20Holder.key]
      · next hlt =>
        -- a holder without a row has height `0`, so it is never skipped
        have hrow : st.1.get? (c, b) ≠ none := by
          intro hnone
          simp [lastOf, hnone] at hlt
        simp [hrow]
    · have hne : (c, a) ≠ (c, b) := fun he => hb (congrArg Prod.snd he).symm
      split
      · rw [get?_addToHolder_of_ne hne]
        simp [hb]
      · simp [hb]

/-- The effect of one activity on the amount and the height of a holder. -/
theorem applyEvent_effect {st st' : Holders × ℤ} {event : Cw20Activity}
    (h : applyEvent c st event = .ok st') (a : String) :
    amountOf st'.1 (c, a) = amountOf st.1 (c, a) +
      (if lastOf st.1 (c, a) ≤ event.height then delta a event else 0) ∧
    (lastOf st'.1 (c, a) = lastOf st.1 (c, a) ∨
      lastOf st.1 (c, a) ≤ event.height ∧ lastOf st'.1 (c, a) = event.height) := by
  obtain ⟨amount, hamount, -, rfl⟩ := applyEvent_ok_iff.mp h
  have hlast := @lastOf_applySide c (truthy event.fromAddress) event.height (-amount) st a
  have hmid := @amountOf_applySide c (truthy event.fromAddress) event.height (-amount) st a
  generalize applySide c (truthy event.fromAddress) event.height (-amount) st = mid at hlast hmid
  rw [amountOf_applySide, lastOf_applySide, hmid]
  simp only [delta, hamount, Option.getD_some]
  by_cases hle : lastOf st.1 (c, a) ≤ event.height
  · -- the sender side leaves the height at or below the height of the activity
    have hmidle : lastOf mid.1 (c, a) ≤ event.height := by
      rw [hlast]
      split
      · exact le_refl _
      · exact hle
    simp only [hle, hmidle, and_true, if_true, true_and] at hlast ⊢
    constructor
    · split <;> split <;> ring
    · split
      · exact Or.inr rfl
      · rw [hlast]
        split
        · exact Or.inr rfl
        · exact Or.inl rfl
  · simp only [hle, and_false, if_false, add_zero] at hlast ⊢
    simp [hlast, hle]

/-- The holders with a row after an activity. -/
theorem applyEvent_row {st st' : Holders × ℤ} {event : Cw20Activity}
    (h : applyEvent c st event = .ok st') (a : String) :
    st'.1.get? (c, a) ≠ none ↔ st.1.get? (c, a) ≠ none ∨ truthy event.toAddress = some a := by
  obtain ⟨amount, -, hknown, rfl⟩ := applyEvent_ok_iff.mp h
  rw [get?_applySide_ne_none_iff, get?_applySide_ne_none_iff]
  constructor
  · rintro ((hrow | hfrom) | hto)
    · exact Or.inl hrow
    · exact Or.inl (hknown a hfrom)
    · exact Or.inr hto
  · rintro (hrow | hto)
    · exact Or.inl (Or.inl hrow)
    · exact Or.inr hto

end ReplayLemmas

open ReplayLemmas

/-! ## 2. The closed form -/

/-- A replay in height order: a holder ends with its old amount plus what the activities from
its own height on move. -/
theorem replay_amount {c : ℕ} {events : List Cw20Activity}
    (hsort : events.Pairwise fun x y => x.height ≤ y.height) {st st' : Holders × ℤ}
    (h : replay c events st = .ok st') (a : String) :
    amountOf st'.1 (c, a) = amountOf st.1 (c, a) +
      (events.map fun event =>
        if lastOf st.1 (c, a) ≤ event.height then delta a event else 0).sum := by
  induction events generalizing st with
  | nil =>
    cases h
    simp
  | cons event events ih =>
    obtain ⟨mid, hmid, hrest⟩ := foldlM_cons_ok h
    obtain ⟨hafter, hsort⟩ := List.pairwise_cons.mp hsort
    obtain ⟨hamount, hlast⟩ := applyEvent_effect hmid a
    -- a touched holder stands at the height of this activity, which no later one is below
    have hsame : ∀ e ∈ events, (lastOf mid.1 (c, a) ≤ e.height ↔ lastOf st.1 (c, a) ≤ e.height) := by
      intro e he
      have hle := hafter e he
      rcases hlast with heq | ⟨hst, heq⟩
      · rw [heq]
      · rw [heq]
        exact ⟨fun _ => hst.trans hle, fun _ => hle⟩
    have hcongr : (events.map fun e => if lastOf mid.1 (c, a) ≤ e.height then delta a e else 0) =
        events.map fun e => if lastOf st.1 (c, a) ≤ e.height then delta a e else 0 :=
      List.map_congr_left fun e he => by simp only [hsame e he]
    rw [ih hsort hrest, hamount, hcongr, List.map_cons, List.sum_cons]
    ring

/-! ## 3. Replays from states that agree on the contract -/

/-- The states agree on the rows of the contract, and `addAmount` differs by `k`. -/
def SameContract (c : ℕ) (k : ℤ) (x y : Holders × ℤ) : Prop :=
  (∀ a, x.1.get? (c, a) = y.1.get? (c, a)) ∧ y.2 = x.2 + k

theorem replay_sameContract {c : ℕ} {k : ℤ} (events : List Cw20Activity) {x y : Holders × ℤ}
    (h : SameContract c k x y) :
    ExceptRel (SameContract c k) (replay c events x) (replay c events y) := by
  have hadd : ∀ (x y : Holders × ℤ) (a : String) (n : ℕ) (δ : ℤ), True → SameContract c k x y →
      SameContract c k (addToHolder c a n δ x) (addToHolder c a n δ y) := by
    intro x y a n δ _ h
    have hrow := h.1 a
    refine ⟨fun b => ?_, ?_⟩
    · unfold addToHolder amountOf
      rw [Table.get?_upsert, Table.get?_upsert, hrow, h.1 b]
    · simp only [addToHolder, h.2]
      ring
  refine foldlM_rel (fun x y event _ h => ?_) h
  exact applyEvent_rel (S := fun _ => True) (fun x y h a _ => h.1 a) hadd h
    (fun _ _ => trivial) (fun _ _ => trivial)

theorem replay_append {c : ℕ} {xs ys : List Cw20Activity} {st mid st' : Holders × ℤ}
    (hx : replay c xs st = .ok mid) (hy : replay c ys mid = .ok st') :
    replay c (xs ++ ys) st = .ok st' := by
  unfold replay at hx hy ⊢
  rw [List.foldlM_append, hx]
  exact hy

/-! ## 4. When a replay goes through -/

namespace ReplayLemmas

variable {c : ℕ}

theorem sendersKnown_nil (known : String → Prop) : SendersKnown known [] := by
  intro pre event post h
  simp at h

theorem sendersKnown_cons {known : String → Prop} {event : Cw20Activity}
    {events : List Cw20Activity} :
    SendersKnown known (event :: events) ↔
      (∀ a, truthy event.fromAddress = some a → known a) ∧
      SendersKnown (fun a => known a ∨ truthy event.toAddress = some a) events := by
  constructor
  · intro h
    refine ⟨fun a ha => ?_, fun pre e post heq a ha => ?_⟩
    · simpa using h [] event events rfl a ha
    · rcases h (event :: pre) e post (by rw [heq]; rfl) a ha with hk | ⟨x, hx, hxa⟩
      · exact Or.inl (Or.inl hk)
      · rcases List.mem_cons.mp hx with rfl | hx
        · exact Or.inl (Or.inr hxa)
        · exact Or.inr ⟨x, hx, hxa⟩
  · rintro ⟨hfirst, hrest⟩ pre e post heq a ha
    cases pre with
    | nil =>
      cases heq
      exact Or.inl (hfirst a ha)
    | cons x pre =>
      obtain ⟨rfl, htail⟩ := List.cons.inj heq
      rcases hrest pre e post htail a ha with (hk | hx) | ⟨y, hy, hya⟩
      · exact Or.inl hk
      · exact Or.inr ⟨event, List.mem_cons_self, hx⟩
      · exact Or.inr ⟨y, List.mem_cons_of_mem _ hy, hya⟩

end ReplayLemmas

/-- When a replay goes through: every activity has an amount, and every sender has a row at
the start or received earlier. -/
theorem replay_ok_iff {c : ℕ} {events : List Cw20Activity} (st : Holders × ℤ) :
    (∃ st', replay c events st = .ok st') ↔
      (∀ event ∈ events, event.amount ≠ none) ∧
      SendersKnown (fun a => st.1.get? (c, a) ≠ none) events := by
  induction events generalizing st with
  | nil =>
    refine ⟨fun _ => ⟨by simp, sendersKnown_nil _⟩, fun _ => ⟨st, rfl⟩⟩
  | cons event events ih =>
    have hrows : ∀ mid, applyEvent c st event = .ok mid →
        (fun a => mid.1.get? (c, a) ≠ none) =
          fun a => st.1.get? (c, a) ≠ none ∨ truthy event.toAddress = some a :=
      fun mid hmid => funext fun a => propext (applyEvent_row hmid a)
    rw [sendersKnown_cons, List.forall_mem_cons]
    constructor
    · rintro ⟨st', h⟩
      obtain ⟨mid, hmid, hrest⟩ := foldlM_cons_ok h
      obtain ⟨amount, hamount, hknown, -⟩ := applyEvent_ok_iff.mp hmid
      obtain ⟨hamounts, hsenders⟩ := (ih mid).mp ⟨st', hrest⟩
      rw [hrows mid hmid] at hsenders
      exact ⟨⟨by simp [hamount], hamounts⟩, hknown, hsenders⟩
    · rintro ⟨⟨hamount, hamounts⟩, hknown, hsenders⟩
      obtain ⟨amount, hamount⟩ := Option.ne_none_iff_exists'.mp hamount
      have hmid := applyEvent_ok_iff.mpr ⟨amount, hamount, hknown, rfl⟩
      rw [← hrows _ hmid] at hsenders
      obtain ⟨st', hrest⟩ := (ih _).mpr ⟨hamounts, hsenders⟩
      refine ⟨st', ?_⟩
      rw [replay, List.foldlM_cons, hmid]
      exact hrest

end Erascope.Cw20
