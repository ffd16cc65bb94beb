import Mathlib.Tactic
import Erascope.Statistics.Account

/-!
# The groups of the account statistics

What the answers of the database to a job add up to. An event is one object, with one of its
addresses and one of its texts; a transaction is one object with who pays it.

* `due`: what should be charged for the transactions of a day.

Results:
1. `exists_charge`, `exists_group`: what an answer makes of an event.
2. `expected_eq`: the expected numbers are those of `due`.
3. `statistics_some`, `statistics_none`: the numbers of an answer.
-/

namespace Erascope.AccountStatistics

open AccountLemmas

/-! ## 1. The objects of the groups -/

namespace GroupLemmas

theorem assign_concat (attributes : List Attribute) (a : Attribute) (k : CompositeKey) :
    assign (attributes ++ [a]) k = if k = a.1 then some a.2 else assign attributes k := by
  unfold assign
  rw [List.foldl_concat, Function.update_apply]

theorem mem_of_assign {attributes : List Attribute} {k : CompositeKey} {v : String}
    (h : assign attributes k = some v) : (k, v) ∈ attributes := by
  induction attributes using List.reverseRecOn with
  | nil => cases h
  | append_singleton attributes a ih =>
    rw [assign_concat] at h
    split at h
    case isTrue hk =>
      obtain rfl := Option.some.inj h
      rw [hk]
      exact List.mem_append_right _ (List.mem_singleton_self a)
    case isFalse => exact List.mem_append_left _ (ih h)

theorem isSome_assign {attributes : List Attribute} {k : CompositeKey} {v : String}
    (h : (k, v) ∈ attributes) : (assign attributes k).isSome := by
  induction attributes using List.reverseRecOn with
  | nil => cases h
  | append_singleton attributes a ih =>
    rw [assign_concat]
    split
    · rfl
    · rename_i hk
      rcases List.mem_append.mp h with h | h
      · exact ih h
      · exact absurd (congrArg Prod.fst (List.mem_singleton.mp h)) hk

theorem mem_attributes {e : CoinEvent} {k : CompositeKey} {v : String} :
    (k, v) ∈ e.attributes ↔ (k = e.side.addressKey ∧ ∃ p ∈ e.pairs, v = p.1.text) ∨
      (k = e.side.amountKey ∧ ∃ p ∈ e.pairs, v = p.2) := by
  simp only [CoinEvent.attributes, List.mem_flatMap, List.mem_cons, List.not_mem_nil, or_false,
    Prod.mk.injEq]
  constructor
  · rintro ⟨p, hp, ⟨rfl, rfl⟩ | ⟨rfl, rfl⟩⟩
    · exact Or.inl ⟨rfl, p, hp, rfl⟩
    · exact Or.inr ⟨rfl, p, hp, rfl⟩
  · rintro (⟨rfl, p, hp, rfl⟩ | ⟨rfl, p, hp, rfl⟩)
    · exact ⟨p, hp, Or.inl ⟨rfl, rfl⟩⟩
    · exact ⟨p, hp, Or.inr ⟨rfl, rfl⟩⟩

/-- The object of an event has one of its addresses and one of its texts, not always of the same
pair. -/
theorem exists_pick {g : List Attribute} {e : CoinEvent} (hg : EventGroup g e)
    (hrows : e.attributes ≠ []) :
    ∃ p ∈ e.pairs, ∃ q ∈ e.pairs, assign g e.side.addressKey = some p.1.text ∧
      assign g e.side.amountKey = some q.2 := by
  obtain ⟨p, hp⟩ : ∃ p, p ∈ e.pairs := by
    cases hpairs : e.pairs with
    | nil => exact absurd (by rw [CoinEvent.attributes, hpairs]; rfl) hrows
    | cons p ps => exact ⟨p, List.mem_cons_self⟩
  have hkeys : e.side.addressKey ≠ e.side.amountKey := by cases e.side <;> decide
  obtain ⟨v, hv⟩ := Option.isSome_iff_exists.mp
    (isSome_assign (hg.mem_iff.mpr (mem_attributes.mpr (Or.inl ⟨rfl, p, hp, rfl⟩))))
  obtain ⟨w, hw⟩ := Option.isSome_iff_exists.mp
    (isSome_assign (hg.mem_iff.mpr (mem_attributes.mpr (Or.inr ⟨rfl, p, hp, rfl⟩))))
  rcases mem_attributes.mp (hg.mem_iff.mp (mem_of_assign hv)) with ⟨-, p', hp', rfl⟩ | ⟨h, -⟩
  · rcases mem_attributes.mp (hg.mem_iff.mp (mem_of_assign hw)) with ⟨h, -⟩ | ⟨-, q, hq, rfl⟩
    · exact absurd h.symm hkeys
    · exact ⟨p', hp', q, hq, hv, hw⟩
  · exact absurd h hkeys

theorem assign_other {g : List Attribute} {e : CoinEvent} (hg : EventGroup g e)
    {k : CompositeKey} (haddress : k ≠ e.side.addressKey) (hamount : k ≠ e.side.amountKey) :
    assign g k = none := by
  rw [Option.eq_none_iff_forall_ne_some]
  intro v hv
  rcases mem_attributes.mp (hg.mem_iff.mp (mem_of_assign hv)) with ⟨h, -⟩ | ⟨h, -⟩
  · exact haddress h
  · exact hamount h

theorem plain_group {g : List Attribute} {e : CoinEvent} (hg : EventGroup g e) :
    Plain (assign g) := by
  refine ⟨fun h => ?_, fun h => ?_⟩
  · rcases mem_attributes.mp (hg.mem_iff.mp (mem_of_assign h)) with ⟨-, p, -, hp⟩ | ⟨hk, -⟩
    · exact p.1.ne_empty hp.symm
    · cases hside : e.side <;> rw [hside] at hk <;> cases hk
  · have hnone : assign g .useFeegrantGrantee = none :=
      assign_other hg (by cases e.side <;> decide) (by cases e.side <;> decide)
    rw [hnone] at h
    cases h

/-- The charge of the first coin of a text. -/
def chargeOf (cfg : Config) (e : CoinEvent) (p q : Address × String) : Option Charge :=
  (firstCoin cfg (some q.2)).map fun coin =>
    ⟨p.1.text, inColumn e.side.column (nativeAmount cfg coin)⟩

theorem eventCharge_pick {cfg : Config} {g : List Attribute} {e : CoinEvent}
    (hg : EventGroup g e) {p q : Address × String}
    (hp : assign g e.side.addressKey = some p.1.text)
    (hq : assign g e.side.amountKey = some q.2) :
    eventCharge cfg (assign g) = chargeOf cfg e p q := by
  have htruthy : truthy (some p.1.text) = some p.1.text :=
    truthy_eq fun h => p.1.ne_empty (Option.some.inj h)
  unfold eventCharge
  cases hside : e.side with
  | spent =>
    rw [hside] at hp hq
    have hspender : assign g .coinSpentSpender = some p.1.text := hp
    rw [hspender, htruthy]
    dsimp only
    rw [sideCharge, hq, chargeOf, hside]
  | received =>
    have hnone : assign g .coinSpentSpender = none :=
      assign_other hg (by rw [hside]; decide) (by rw [hside]; decide)
    rw [hside] at hp hq
    have hreceiver : assign g .coinReceivedReceiver = some p.1.text := hp
    have hempty : truthy none = none := rfl
    rw [hnone, hreceiver, htruthy, hempty]
    dsimp only
    rw [sideCharge, hq, chargeOf, hside]

end GroupLemmas

open GroupLemmas

/-- What an answer makes of an event. -/
theorem exists_charge (cfg : Config) {g : List Attribute} {e : CoinEvent} (hg : EventGroup g e)
    (hrows : e.attributes ≠ []) :
    ∃ p ∈ e.pairs, ∃ q ∈ e.pairs, eventCharge cfg (assign g) = chargeOf cfg e p q := by
  obtain ⟨p, hp, q, hq, hpick, hqick⟩ := exists_pick hg hrows
  exact ⟨p, hp, q, hq, eventCharge_pick hg hpick hqick⟩

/-- Any text of an event may be the one that stays. -/
theorem exists_group (cfg : Config) {e : CoinEvent} {q : Address × String} (hq : q ∈ e.pairs) :
    ∃ g, EventGroup g e ∧ ∃ p ∈ e.pairs, eventCharge cfg (assign g) = chargeOf cfg e p q := by
  have hmem : (e.side.amountKey, q.2) ∈ e.attributes :=
    mem_attributes.mpr (Or.inr ⟨rfl, q, hq, rfl⟩)
  have hg : EventGroup
      (e.attributes.erase (e.side.amountKey, q.2) ++ [(e.side.amountKey, q.2)]) e :=
    (List.perm_append_singleton _ _).trans (List.perm_cons_erase hmem).symm
  obtain ⟨p, hp, q', -, hpick, -⟩ := exists_pick hg (List.ne_nil_of_mem hmem)
  refine ⟨_, hg, p, hp, eventCharge_pick hg hpick ?_⟩
  rw [assign_concat, if_pos rfl]

/-! ## 2. What should be charged -/

/-- A charge for each pair of an event. -/
def CoinEvent.charges (cfg : Config) (e : CoinEvent) : List Charge :=
  e.pairs.map fun p => ⟨p.1.text, inColumn e.side.column (nativeSum cfg p.2)⟩

/-- The charge of a transaction that somebody pays. -/
def Tx.feeCharges (t : Tx) : List Charge :=
  (t.paidBy.map fun a =>
    ⟨a.text, fun c => inColumn .tx_sent 1 c + inColumn .gas_used t.gas_used c⟩).toList

/-- The charges of the transactions of a day. -/
def due (cfg : Config) (day : List Tx) : List Charge :=
  (day.flatMap Tx.events).flatMap (CoinEvent.charges cfg) ++ day.flatMap Tx.feeCharges

namespace GroupLemmas

theorem chargeSum_append (xs ys : List Charge) (a : String) (c : Column) :
    chargeSum (xs ++ ys) a c = chargeSum xs a c + chargeSum ys a c := by
  unfold chargeSum
  rw [List.filter_append, List.map_append, List.sum_append]

theorem chargeSum_perm {xs ys : List Charge} (h : xs.Perm ys) (a : String) (c : Column) :
    chargeSum xs a c = chargeSum ys a c :=
  ((h.filter _).map _).sum_eq

theorem chargeSum_flatMap {α : Type} (f : α → List Charge) (xs : List α) (a : String)
    (c : Column) : chargeSum (xs.flatMap f) a c = (xs.map fun x => chargeSum (f x) a c).sum := by
  induction xs with
  | nil => rfl
  | cons x xs ih => rw [List.flatMap_cons, chargeSum_append, ih, List.map_cons, List.sum_cons]

/-- The charges of all addresses together. -/
theorem sum_chargeSum {addresses : Finset String} {xs : List Charge}
    (h : ∀ x ∈ xs, x.address ∈ addresses) (c : Column) :
    ∑ a ∈ addresses, chargeSum xs a c = (xs.map fun x => x.value c).sum := by
  induction xs with
  | nil => exact Finset.sum_eq_zero fun a _ => chargeSum_nil a c
  | cons x xs ih =>
    obtain ⟨hx, hxs⟩ := List.forall_mem_cons.mp h
    rw [List.map_cons, List.sum_cons, ← ih hxs]
    calc ∑ a ∈ addresses, chargeSum (x :: xs) a c
        = ∑ a ∈ addresses, ((if x.address = a then x.value c else 0) + chargeSum xs a c) :=
          Finset.sum_congr rfl fun a _ => chargeSum_cons x xs a c
      _ = x.value c + ∑ a ∈ addresses, chargeSum xs a c := by
          rw [Finset.sum_add_distrib, Finset.sum_ite_eq, if_pos hx]

/-- Charges that are the same for each address are the same together. -/
theorem sum_value_eq {xs ys : List Charge} {c : Column}
    (h : ∀ a, chargeSum xs a c = chargeSum ys a c) :
    (xs.map fun x => x.value c).sum = (ys.map fun x => x.value c).sum := by
  let addresses := ((xs ++ ys).map Charge.address).toFinset
  have hmem : ∀ x ∈ xs ++ ys, x.address ∈ addresses := fun x hx =>
    List.mem_toFinset.mpr (List.mem_map_of_mem hx)
  rw [← sum_chargeSum (fun x hx => hmem x (List.mem_append_left ys hx)) c,
    ← sum_chargeSum (fun y hy => hmem y (List.mem_append_right xs hy)) c]
  exact Finset.sum_congr rfl fun a _ => h a

theorem inColumn_add (column : Column) (m n : ℕ) (c : Column) :
    inColumn column (m + n) c = inColumn column m c + inColumn column n c := by
  unfold inColumn
  split <;> rfl

theorem chargeSum_event (cfg : Config) (e : CoinEvent) (a : String) (c : Column) :
    chargeSum (e.charges cfg) a c = inColumn e.side.column (e.totalOf cfg a) c := by
  unfold CoinEvent.charges CoinEvent.totalOf
  induction e.pairs with
  | nil => cases c <;> cases e.side <;> rfl
  | cons p ps ih =>
    rw [List.map_cons, chargeSum_cons, ih, List.filter_cons]
    by_cases hp : p.1.text = a
    · rw [if_pos hp, if_pos (decide_eq_true hp), List.map_cons, List.sum_cons, inColumn_add]
    · rw [if_neg hp, if_neg (by simpa using hp), zero_add]

theorem chargeSum_fee (t : Tx) (a : String) (c : Column) :
    chargeSum t.feeCharges a c =
      if t.isPaidBy a then inColumn .tx_sent 1 c + inColumn .gas_used t.gas_used c else 0 := by
  unfold Tx.feeCharges Tx.isPaidBy
  cases t.paidBy with
  | none => rfl
  | some b =>
    rw [Option.map_some, Option.toList_some, chargeSum_cons, chargeSum_nil, add_zero]
    by_cases hb : b.text = a <;> simp [hb]

/-- The events are in the columns of their sides. -/
theorem sum_events (cfg : Config) (events : List CoinEvent) (a : String) (c : Column) :
    (events.map fun e => inColumn e.side.column (e.totalOf cfg a) c).sum =
      inColumn .amount_sent
          ((events.filter fun e => e.side = .spent).map (CoinEvent.totalOf cfg a)).sum c +
        inColumn .amount_received
          ((events.filter fun e => e.side = .received).map (CoinEvent.totalOf cfg a)).sum c := by
  induction events with
  | nil => cases c <;> rfl
  | cons e es ih =>
    rw [List.map_cons, List.sum_cons, ih, List.filter_cons, List.filter_cons]
    cases e.side with
    | spent =>
      rw [if_pos (by decide), if_neg (by decide), List.map_cons, List.sum_cons, inColumn_add,
        add_assoc]
      rfl
    | received =>
      rw [if_neg (by decide), if_pos (by decide), List.map_cons, List.sum_cons, inColumn_add,
        add_left_comm]
      rfl

/-- The fees are in two columns. -/
theorem sum_fees (day : List Tx) (a : String) (c : Column) :
    (day.map fun t => if t.isPaidBy a then
      inColumn .tx_sent 1 c + inColumn .gas_used t.gas_used c else 0).sum =
      inColumn .tx_sent (day.filter (Tx.isPaidBy a)).length c +
        inColumn .gas_used ((day.filter (Tx.isPaidBy a)).map Tx.gas_used).sum c := by
  induction day with
  | nil => cases c <;> rfl
  | cons t ts ih =>
    rw [List.map_cons, List.sum_cons, ih, List.filter_cons]
    cases t.isPaidBy a with
    | false => simp
    | true =>
      rw [if_pos rfl, if_pos rfl, List.length_cons, List.map_cons, List.sum_cons, inColumn_add,
        inColumn_add]
      omega

end GroupLemmas

open GroupLemmas

/-- The numbers that a row should have are those that should be charged. -/
theorem expected_eq (cfg : Config) (day : List Tx) (a : String) (c : Column) :
    expected cfg day a c = chargeSum (due cfg day) a c := by
  rw [due, chargeSum_append, chargeSum_flatMap, chargeSum_flatMap]
  simp only [chargeSum_event, chargeSum_fee]
  rw [sum_events, sum_fees]
  cases c <;> simp [expected, sideTotal, inColumn]

/-! ## 3. What an answer adds up to -/

namespace GroupLemmas

theorem assign_eq {attributes : List Attribute} {k : CompositeKey} {o : Option String}
    (h : ∀ v, (k, v) ∈ attributes ↔ o = some v) : assign attributes k = o := by
  refine Option.ext fun v => ⟨fun hv => (h v).mp (mem_of_assign hv), fun hv => ?_⟩
  obtain ⟨w, hw⟩ := Option.isSome_iff_exists.mp (isSome_assign ((h v).mpr hv))
  rwa [Option.some.inj (((h w).mp (mem_of_assign hw)).symm.trans hv)] at hw

theorem mem_feeAttributes {t : Tx} {k : CompositeKey} {v : String} :
    (k, v) ∈ t.feeAttributes ↔
      (k = .txFeePayer ∧ t.fee_payer.map Address.text = some v) ∨
        (k = .useFeegrantGrantee ∧ t.grantee.map Address.text = some v) := by
  unfold Tx.feeAttributes
  cases t.fee_payer <;> cases t.grantee <;>
    simp only [Option.map_none, Option.map_some, Option.toList_none, Option.toList_some,
      List.append_nil, List.nil_append, List.cons_append, List.mem_cons, List.not_mem_nil,
      Prod.mk.injEq, or_false, false_or, Option.some.injEq, reduceCtorEq, and_false, eq_comm]

theorem assign_fee {group : List Attribute × ℕ} {t : Tx} (hg : FeeGroup group t) :
    assign group.1 .useFeegrantGrantee = t.grantee.map Address.text ∧
      assign group.1 .txFeePayer = t.fee_payer.map Address.text := by
  constructor <;> refine assign_eq fun v => ?_ <;>
    rw [hg.1.mem_iff, mem_feeAttributes] <;> simp

theorem plain_fee {group : List Attribute × ℕ} {t : Tx} (hg : FeeGroup group t) :
    Plain (assign group.1) := by
  refine ⟨fun h => ?_, fun h => ?_⟩
  · rcases mem_feeAttributes.mp (hg.1.mem_iff.mp (mem_of_assign h)) with ⟨hk, -⟩ | ⟨hk, -⟩ <;>
      cases hk
  · rw [(assign_fee hg).1] at h
    obtain ⟨a, -, ha⟩ := Option.map_eq_some_iff.mp h
    exact a.ne_empty ha

theorem feeCharges_group {group : List Attribute × ℕ} {t : Tx} (hg : FeeGroup group t)
    (hrows : t.feeAttributes ≠ []) :
    t.feeCharges = [feeCharge (assign group.1, group.2)] := by
  unfold feeCharge addressOfFee
  dsimp only
  rw [(assign_fee hg).1, (assign_fee hg).2, hg.2]
  unfold Tx.feeCharges Tx.paidBy
  unfold Tx.feeAttributes at hrows
  cases hgrantee : t.grantee with
  | some a => rfl
  | none =>
    cases hpayer : t.fee_payer with
    | some a => rfl
    | none => exact absurd (by rw [hgrantee, hpayer]; rfl) hrows

theorem feeCharges_of_no_rows {t : Tx} (h : t.feeAttributes = []) : t.feeCharges = [] := by
  unfold Tx.feeCharges Tx.paidBy
  unfold Tx.feeAttributes at h
  cases hgrantee : t.grantee with
  | some a => simp [hgrantee] at h
  | none =>
    cases hpayer : t.fee_payer with
    | some a => simp [hpayer] at h
    | none => rfl

/-- The terms of rows that have none do not matter. -/
theorem sum_filter_of_zero {α : Type} {f : α → ℕ} {p : α → Prop} [DecidablePred p] {xs : List α}
    (h : ∀ x ∈ xs, ¬p x → f x = 0) : ((xs.filter p).map f).sum = (xs.map f).sum := by
  induction xs with
  | nil => rfl
  | cons x xs ih =>
    obtain ⟨hx, hxs⟩ := List.forall_mem_cons.mp h
    rw [List.map_cons, List.sum_cons, ← ih hxs, List.filter_cons]
    split
    · rfl
    · rename_i hp
      rw [hx (by simpa using hp), zero_add]

theorem chargeSum_fees {read : List Tx} {fees : List (List Attribute × ℕ)}
    (h : Answers FeeGroup (feesWithRows read) fees) (a : String) (c : Column) :
    chargeSum (fees.map fun g => feeCharge (assign g.1, g.2)) a c =
      chargeSum (read.flatMap Tx.feeCharges) a c := by
  obtain ⟨ts, hperm, hgroups⟩ := h
  have hrows : ∀ t ∈ ts, t.feeAttributes ≠ [] := fun t ht =>
    of_decide_eq_true (List.mem_filter.mp (hperm.mem_iff.mp ht)).2
  have hfees : fees.map (fun g => feeCharge (assign g.1, g.2)) = ts.flatMap Tx.feeCharges := by
    clear hperm
    induction hgroups with
    | nil => rfl
    | cons hg _ ih =>
      obtain ⟨ht, hts⟩ := List.forall_mem_cons.mp hrows
      rw [List.map_cons, List.flatMap_cons, ih hts, feeCharges_group hg ht, List.singleton_append]
  rw [hfees, chargeSum_flatMap, chargeSum_flatMap, (hperm.map _).sum_eq]
  refine sum_filter_of_zero fun t _ ht => ?_
  rw [feeCharges_of_no_rows (not_not.mp ht), chargeSum_nil]

/-- The numbers of a job whose texts can be read. -/
theorem statistics_some {cfg : Config} {date : ℤ} {read : List Tx} {answer : Answer}
    (hpossible : Possible read answer) {charges : List Charge}
    (hcharges : List.Forall₂ (fun g y => eventCharge cfg (assign g) = some y)
      answer.dailyEvents charges) :
    ∃ stats, statistics cfg date answer = some stats ∧
      (∀ a c, valueOf stats a c =
        chargeSum charges a c + chargeSum (read.flatMap Tx.feeCharges) a c) ∧
      ∀ r ∈ stats.rows, r.date = date := by
  have hplain : ∀ g ∈ answer.dailyEvents, Plain (assign g) := fun g hg => by
    obtain ⟨es, -, hgroups⟩ := hpossible.events
    obtain ⟨e, -, he⟩ := Paired.exists_right hgroups hg
    exact plain_group he
  have hplain' : ∀ g ∈ answer.feeEvents, Plain (assign g.1) := fun g hg => by
    obtain ⟨ts, -, hgroups⟩ := hpossible.fees
    obtain ⟨t, -, ht⟩ := Paired.exists_right hgroups hg
    exact plain_fee ht
  obtain ⟨stats, hstats, hvalue, hdate⟩ :=
    @value_calculateSpendReceive cfg date _ Table.empty _ hplain hcharges fun r hr => nomatch hr
  obtain ⟨stats', hstats', hvalue', hdate'⟩ := value_calculateGasUsedTxSent hplain' hdate
  refine ⟨stats', by rw [statistics, hstats, Option.bind_some, hstats'], fun a c => ?_, hdate'⟩
  rw [hvalue', hvalue, chargeSum_fees hpossible.fees]
  exact congrArg (· + _) (zero_add _)

/-- A job with a text that cannot be read. -/
theorem statistics_none {cfg : Config} (date : ℤ) {answer : Answer} {g : List Attribute}
    (hg : g ∈ answer.dailyEvents) (h : eventCharge cfg (assign g) = none) :
    statistics cfg date answer = none := by
  rw [statistics, calculateSpendReceive_none date _ hg h, Option.bind_none]

theorem exists_feeGroups (ts : List Tx) : ∃ fees, List.Forall₂ FeeGroup fees ts :=
  ⟨ts.map fun t => (t.feeAttributes, t.gas_used), by
    rw [List.forall₂_map_left_iff, List.forall₂_same]
    exact fun t _ => ⟨.refl _, rfl⟩⟩

theorem exists_eventGroups (es : List CoinEvent) : ∃ groups, List.Forall₂ EventGroup groups es :=
  ⟨es.map CoinEvent.attributes, by
    rw [List.forall₂_map_left_iff, List.forall₂_same]
    exact fun e _ => .refl _⟩

theorem exists_answer (read : List Tx) : ∃ answer, Possible read answer := by
  obtain ⟨groups, hgroups⟩ := exists_eventGroups (eventsWithRows read)
  obtain ⟨fees, hfees⟩ := exists_feeGroups (feesWithRows read)
  exact ⟨⟨groups, fees⟩, ⟨_, .refl _, hgroups⟩, ⟨_, .refl _, hfees⟩⟩

end GroupLemmas

open GroupLemmas

/-- An answer with a group of an event, whichever of its texts is the one that stays. -/
theorem exists_possible (read : List Tx) {e : CoinEvent} (he : e ∈ eventsWithRows read)
    {g : List Attribute} (hg : EventGroup g e) :
    ∃ gs es fees, (e :: es).Perm (eventsWithRows read) ∧ List.Forall₂ EventGroup gs es ∧
      Possible read ⟨g :: gs, fees⟩ := by
  obtain ⟨es, hes⟩ : ∃ es, (e :: es).Perm (eventsWithRows read) := by
    obtain ⟨xs, ys, hsplit⟩ := List.append_of_mem he
    exact ⟨xs ++ ys, hsplit ▸ List.perm_middle.symm⟩
  obtain ⟨gs, hgs⟩ := exists_eventGroups es
  obtain ⟨fees, hfees⟩ := exists_feeGroups (feesWithRows read)
  exact ⟨gs, es, fees, hes, hgs, ⟨e :: es, hes, .cons hg hgs⟩, ⟨_, .refl _, hfees⟩⟩

end Erascope.AccountStatistics
