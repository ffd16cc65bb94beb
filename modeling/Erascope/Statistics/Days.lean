import Mathlib.Tactic
import Erascope.Statistics.Groups

/-!
# The days of the account statistics

The job of a day loses amounts: those of the last transaction, which `tx_id < endTxId` leaves out;
those of all but one address and one text of an event with several pairs, since the attributes
become one object; and those of all coins but the first of a text. A text without coins, or with a
coin that `parseCoins` does not know, makes it throw, and then the day has no rows.

* `DayOk`: none of this happens on a day, or there is nothing to count.

Results:
1. `read_eq`: the job reads all transactions of the day but the last.
2. `day_iff`: the numbers of a day are right exactly when `DayOk` holds.
3. `adds_up_iff`: the same for consecutive days.
-/

namespace Erascope.AccountStatistics

open AccountLemmas GroupLemmas

/-! ## 1. The transactions that are read -/

namespace DaysLemmas

/-- The transactions before a day, those of the day and those after it. -/
theorem exists_split (txs : Transactions) (startTime : ℤ) :
    ∃ before after, txs.rows = before ++ txs.day startTime ++ after ∧
      (∀ t ∈ before, t.timestamp < startTime) ∧ ∀ t ∈ after, startTime + dayMs ≤ t.timestamp := by
  have hsorted : txs.rows.Pairwise fun t u => t.timestamp ≤ u.timestamp :=
    txs.sorted.imp fun h => h.2
  have hday : txs.day startTime =
      (txs.rows.filter fun t => startTime ≤ t.timestamp).filter
        fun t => t.timestamp < startTime + dayMs := by
    rw [List.filter_filter, Transactions.day]
    refine List.filter_congr fun t _ => ?_
    rw [Bool.decide_and, Bool.and_comm]
  refine ⟨txs.rows.filter fun t => t.timestamp < startTime,
    (txs.rows.filter fun t => startTime ≤ t.timestamp).filter
      fun t => startTime + dayMs ≤ t.timestamp, ?_, ?_, ?_⟩
  · rw [hday, List.append_assoc, filter_lt_append (hsorted.filter _), filter_lt_append hsorted]
  · exact fun t ht => of_decide_eq_true (List.mem_filter.mp ht).2
  · exact fun t ht => of_decide_eq_true (List.mem_filter.mp ht).2

theorem mem_day {txs : Transactions} {startTime : ℤ} {t : Tx} (ht : t ∈ txs.day startTime) :
    startTime ≤ t.timestamp ∧ t.timestamp < startTime + dayMs :=
  of_decide_eq_true (List.mem_filter.mp ht).2

/-- The range from the first of some consecutive rows on and before the last. -/
theorem inRange_of_split {txs : Transactions} {before ts after rest : List Tx} {first last : Tx}
    (hrows : txs.rows = before ++ (ts ++ [last]) ++ after) (hfirst : ts ++ [last] = first :: rest) :
    txs.inRange first.id last.id = ts := by
  have hids : txs.rows.Pairwise fun t u => t.id < u.id := txs.sorted.imp fun h => h.1
  rw [hrows] at hids
  obtain ⟨hids, -, hafter⟩ := List.pairwise_append.mp hids
  obtain ⟨-, hmiddle, hbefore⟩ := List.pairwise_append.mp hids
  have hlast : ∀ t ∈ ts, t.id < last.id := fun t ht =>
    (List.pairwise_append.mp hmiddle).2.2 t ht last (List.mem_singleton_self last)
  have hle : ∀ t ∈ ts ++ [last], first.id ≤ t.id := by
    rw [hfirst] at hmiddle ⊢
    intro t ht
    rcases List.mem_cons.mp ht with rfl | ht
    · exact le_rfl
    · exact ((List.pairwise_cons.mp hmiddle).1 t ht).le
  have hfirst_mem : first ∈ ts ++ [last] := hfirst ▸ List.mem_cons_self
  have hlast_mem : last ∈ ts ++ [last] := List.mem_append_right ts (List.mem_singleton_self last)
  rw [Transactions.inRange, hrows, List.filter_append, List.filter_append, List.filter_append]
  have hdrop : before.filter (fun t => first.id ≤ t.id ∧ t.id < last.id) = [] := by
    rw [List.filter_eq_nil_iff]
    intro t ht
    simpa using fun h => absurd (hbefore t ht first hfirst_mem) (not_lt.mpr h)
  have hkeep : ts.filter (fun t => first.id ≤ t.id ∧ t.id < last.id) = ts := by
    rw [List.filter_eq_self]
    exact fun t ht => decide_eq_true ⟨hle t (List.mem_append_left _ ht), hlast t ht⟩
  have hleave : [last].filter (fun t => first.id ≤ t.id ∧ t.id < last.id) = [] := by simp
  have hdrop' : after.filter (fun t => first.id ≤ t.id ∧ t.id < last.id) = [] := by
    rw [List.filter_eq_nil_iff]
    intro t ht
    have := hafter last (List.mem_append_right before hlast_mem) t ht
    simpa using fun _ => this.le
  rw [hdrop, hkeep, hleave, hdrop', List.nil_append, List.append_nil, List.append_nil]

/-- The job of a day with transactions reads all of them but the last. -/
theorem read_of_day {txs : Transactions} {date : ℤ} {ts : List Tx} {last : Tx}
    (hday : txs.day (startOfDay date - dayMs) = ts ++ [last]) : txs.read date = some ts := by
  obtain ⟨before, after, hrows, hbefore, hafter⟩ := exists_split txs (startOfDay date - dayMs)
  rw [sub_add_cancel] at hafter
  obtain ⟨x, rest, hx⟩ : ∃ x rest, ts ++ [last] = x :: rest :=
    List.exists_cons_of_ne_nil (List.concat_ne_nil last ts)
  have hin : ∀ t ∈ ts ++ [last], startOfDay date - dayMs ≤ t.timestamp ∧
      t.timestamp < startOfDay date := fun t ht => by
    have := mem_day (hday ▸ ht)
    rwa [sub_add_cancel] at this
  rw [hday] at hrows
  have hstart : txs.startTx (startOfDay date - dayMs) = some x := by
    have hnone : before.find? (fun t => startOfDay date - dayMs ≤ t.timestamp) = none := by
      rw [List.find?_eq_none]
      intro t ht
      simpa only [decide_eq_true_eq, not_le] using hbefore t ht
    rw [Transactions.startTx, hrows, List.append_assoc, List.find?_append, hnone, Option.none_or,
      hx, List.cons_append]
    exact List.find?_cons_of_pos (decide_eq_true (hin x (hx ▸ List.mem_cons_self)).1)
  have hend : txs.endTx (startOfDay date) = some last := by
    have hfilter : (before ++ (ts ++ [last]) ++ after).filter
        (fun t => t.timestamp < startOfDay date) = before ++ ts ++ [last] := by
      have hdrop : after.filter (fun t => t.timestamp < startOfDay date) = [] := by
        rw [List.filter_eq_nil_iff]
        intro t ht
        simpa using hafter t ht
      rw [List.filter_append, hdrop, List.append_nil, ← List.append_assoc, List.filter_eq_self]
      intro t ht
      rw [List.append_assoc] at ht
      rcases List.mem_append.mp ht with ht | ht
      · have hlt := hbefore t ht
        have hdayMs : 0 < dayMs := by decide
        exact decide_eq_true (by omega)
      · exact decide_eq_true (hin t ht).2
    rw [Transactions.endTx, hrows, hfilter, List.getLast?_concat]
  rw [Transactions.read, hstart, hend, Option.bind_some, Option.map_some,
    inRange_of_split hrows hx]

theorem read_of_day_nil {txs : Transactions} {date : ℤ}
    (hday : txs.day (startOfDay date - dayMs) = []) {read : List Tx}
    (hread : txs.read date = some read) : read = [] := by
  obtain ⟨before, after, hrows, hbefore, hafter⟩ := exists_split txs (startOfDay date - dayMs)
  rw [sub_add_cancel] at hafter
  rw [hday, List.append_nil] at hrows
  obtain ⟨first, hfirst, hread⟩ := Option.bind_eq_some_iff.mp hread
  obtain ⟨last, hlast, rfl⟩ := Option.map_eq_some_iff.mp hread
  have hstart := List.find?_some hfirst
  have hfirst_mem := List.mem_of_find?_eq_some hfirst
  obtain ⟨hlast_mem, hend⟩ := List.mem_filter.mp (List.mem_of_getLast? hlast)
  have hdayMs : 0 < dayMs := by decide
  have hid : last.id < first.id := by
    have hids : txs.rows.Pairwise fun t u => t.id < u.id := txs.sorted.imp fun h => h.1
    rw [hrows] at hids hfirst_mem hlast_mem
    refine (List.pairwise_append.mp hids).2.2 last ?_ first ?_
    · refine (List.mem_append.mp hlast_mem).resolve_right fun h => ?_
      exact absurd (hafter last h) (not_le.mpr (of_decide_eq_true hend))
    · refine (List.mem_append.mp hfirst_mem).resolve_left fun h => ?_
      exact absurd (hbefore first h) (not_lt.mpr (of_decide_eq_true hstart))
  rw [Transactions.inRange, List.filter_eq_nil_iff]
  intro t _
  simp only [decide_eq_true_eq, not_and, not_lt]
  intro h
  exact hid.le.trans h

end DaysLemmas

open DaysLemmas

theorem read_of_ne_nil {txs : Transactions} {date : ℤ}
    (hday : txs.day (startOfDay date - dayMs) ≠ []) :
    txs.read date = some (txs.day (startOfDay date - dayMs)).dropLast :=
  read_of_day (List.dropLast_append_getLast hday).symm

/-- The job reads the transactions of the day but the last. -/
theorem read_eq {txs : Transactions} {date : ℤ} {read : List Tx}
    (hread : txs.read date = some read) :
    read = (txs.day (startOfDay date - dayMs)).dropLast := by
  by_cases hday : txs.day (startOfDay date - dayMs) = []
  · rw [read_of_day_nil hday hread, hday]
    rfl
  · exact Option.some.inj (hread.symm.trans (read_of_ne_nil hday))

/-! ## 2. A day -/

/-- The numbers that a job writes; it writes nothing when it throws. -/
def written (stats : Option AccountStats) (a : String) (c : Column) : ℕ :=
  (stats.map fun s => valueOf s a c).getD 0

/-- The texts of an event can be read, and its native coins are all in the first coin of the only
text. -/
structure EventOk (cfg : Config) (e : CoinEvent) : Prop where
  readable : ∀ p ∈ e.pairs, (firstCoin cfg (some p.2)).isSome
  first : e.total cfg = 0 ∨ ∃ p coin, e.pairs = [p] ∧ firstCoin cfg (some p.2) = some coin ∧
    nativeAmount cfg coin = e.total cfg

/-- A transaction that nobody pays, without native coins. -/
structure Idle (cfg : Config) (t : Tx) : Prop where
  unpaid : t.paidBy = none
  total : ∀ e ∈ t.events, e.total cfg = 0

/-- There is nothing to count on a day; or there is nothing in its last transaction, and the events
of the others are good. -/
def DayOk (cfg : Config) (day : List Tx) : Prop :=
  (∀ t ∈ day, Idle cfg t) ∨
    (∀ t ∈ day.getLast?, Idle cfg t) ∧ ∀ t ∈ day.dropLast, ∀ e ∈ t.events, EventOk cfg e

namespace DaysLemmas

theorem nativeAmount_le {cfg : Config} {text : String} {coin : Coin}
    (h : firstCoin cfg (some text) = some coin) : nativeAmount cfg coin ≤ nativeSum cfg text := by
  obtain ⟨cs, hcs, hhead⟩ := Option.bind_eq_some_iff.mp h
  obtain ⟨rest, rfl⟩ := List.head?_eq_some_iff.mp hhead
  have hcoins := cfg.parse_eq text _ hcs
  rw [nativeSum, ← hcoins, List.filter_cons, nativeAmount]
  by_cases hdenom : coin.denom = cfg.networkDenom
  · rw [if_pos hdenom, if_pos (decide_eq_true hdenom), List.map_cons, List.sum_cons]
    exact Nat.le_add_right _ _
  · rw [if_neg hdenom]
    exact Nat.zero_le _

theorem nativeSum_le_total {cfg : Config} {e : CoinEvent} {p : Address × String}
    (hp : p ∈ e.pairs) : nativeSum cfg p.2 ≤ e.total cfg :=
  List.single_le_sum (fun _ _ => Nat.zero_le _) _ (List.mem_map_of_mem hp)

theorem chargeSum_le_sum (xs : List Charge) (a : String) (c : Column) :
    chargeSum xs a c ≤ (xs.map fun x => x.value c).sum :=
  (List.filter_sublist.map _).sum_le_sum fun _ _ => Nat.zero_le _

theorem inColumn_mono {column : Column} {m n : ℕ} (h : m ≤ n) (c : Column) :
    inColumn column m c ≤ inColumn column n c := by
  unfold inColumn
  split
  · exact h
  · exact le_rfl

theorem inColumn_self (column : Column) (n : ℕ) : inColumn column n column = n := if_pos rfl

theorem sum_charges (cfg : Config) (e : CoinEvent) (c : Column) :
    ((e.charges cfg).map fun x => x.value c).sum = inColumn e.side.column (e.total cfg) c := by
  unfold CoinEvent.charges CoinEvent.total
  induction e.pairs with
  | nil => cases c <;> cases e.side <;> rfl
  | cons p ps ih =>
    rw [List.map_cons, List.map_cons, List.sum_cons, ih, List.map_cons, List.sum_cons,
      inColumn_add]

theorem sum_value_flatMap {α : Type} (f : α → List Charge) (xs : List α) (c : Column) :
    ((xs.flatMap f).map fun x => x.value c).sum =
      (xs.map fun x => ((f x).map fun y => y.value c).sum).sum := by
  induction xs with
  | nil => rfl
  | cons x xs ih =>
    rw [List.flatMap_cons, List.map_append, List.sum_append, ih, List.map_cons, List.sum_cons]

/-- All that should be charged, by events and fees. -/
theorem sum_due (cfg : Config) (day : List Tx) (c : Column) :
    ((due cfg day).map fun x => x.value c).sum =
      ((day.flatMap Tx.events).map fun e => inColumn e.side.column (e.total cfg) c).sum +
        ((day.flatMap Tx.feeCharges).map fun x => x.value c).sum := by
  rw [due, List.map_append, List.sum_append, sum_value_flatMap]
  simp only [sum_charges]

theorem sum_due_append (cfg : Config) (ts us : List Tx) (c : Column) :
    ((due cfg (ts ++ us)).map fun x => x.value c).sum =
      ((due cfg ts).map fun x => x.value c).sum + ((due cfg us).map fun x => x.value c).sum := by
  rw [sum_due, sum_due, sum_due, List.flatMap_append, List.map_append, List.sum_append,
    List.flatMap_append, List.map_append, List.sum_append]
  omega

theorem sum_due_eq_zero {cfg : Config} {day : List Tx} {c : Column} :
    ((due cfg day).map fun x => x.value c).sum = 0 ↔
      (∀ t ∈ day, ∀ e ∈ t.events, inColumn e.side.column (e.total cfg) c = 0) ∧
        ∀ t ∈ day, ∀ y ∈ t.feeCharges, y.value c = 0 := by
  rw [sum_due, Nat.add_eq_zero_iff, List.sum_eq_zero_iff, List.sum_eq_zero_iff,
    List.forall_mem_map, List.forall_mem_map, List.forall_mem_flatMap, List.forall_mem_flatMap]

/-- There is nothing to charge exactly when all transactions are idle. -/
theorem forall_sum_due_eq_zero_iff {cfg : Config} {day : List Tx} :
    (∀ c, ((due cfg day).map fun x => x.value c).sum = 0) ↔ ∀ t ∈ day, Idle cfg t := by
  constructor
  · intro h t ht
    refine ⟨?_, fun e he => ?_⟩
    · cases hpaid : t.paidBy with
      | none => rfl
      | some a =>
        have hfee := (sum_due_eq_zero.mp (h .tx_sent)).2 t ht
        rw [Tx.feeCharges, hpaid] at hfee
        exact absurd (hfee _ (List.mem_singleton_self _)) one_ne_zero
    · rw [← inColumn_self e.side.column (e.total cfg)]
      exact (sum_due_eq_zero.mp (h e.side.column)).1 t ht e he
  · intro h c
    refine sum_due_eq_zero.mpr ⟨fun t ht e he => ?_, fun t ht y hy => ?_⟩
    · rw [(h t ht).total e he]
      exact ite_self 0
    · rw [Tx.feeCharges, (h t ht).unpaid] at hy
      cases hy

end DaysLemmas

/-- A charge that an answer may make of an event. -/
def Picked (cfg : Config) (e : CoinEvent) (y : Charge) : Prop :=
  ∃ p ∈ e.pairs, ∃ q ∈ e.pairs, chargeOf cfg e p q = some y

/-- An answer whose texts can be read: its events, and what it charges for each of them. -/
structure Readable (cfg : Config) (read : List Tx) (answer : Answer) (es : List CoinEvent)
    (charges : List Charge) : Prop where
  events : es.Perm (eventsWithRows read)
  groups : List.Forall₂ EventGroup answer.dailyEvents es
  fees : Answers FeeGroup (feesWithRows read) answer.feeEvents
  charged : List.Forall₂ (fun g y => eventCharge cfg (assign g) = some y) answer.dailyEvents charges

namespace DaysLemmas

variable {cfg : Config} {read : List Tx} {answer : Answer} {es : List CoinEvent}
  {charges : List Charge}

theorem exists_readable (hes : es.Perm (eventsWithRows read))
    (hgroups : List.Forall₂ EventGroup answer.dailyEvents es)
    (hfees : Answers FeeGroup (feesWithRows read) answer.feeEvents)
    (h : ∀ g ∈ answer.dailyEvents, eventCharge cfg (assign g) ≠ none) :
    ∃ charges, Readable cfg read answer es charges := by
  obtain ⟨charges, hcharges⟩ := Paired.exists_forall₂ fun g hg =>
    Option.ne_none_iff_exists'.mp (h g hg)
  exact ⟨charges, hes, hgroups, hfees, hcharges⟩

/-- An answer makes the job throw, or its texts can be read. -/
theorem throws_or_readable (cfg : Config) (h : Possible read answer) :
    (∃ g ∈ answer.dailyEvents, eventCharge cfg (assign g) = none) ∨
      ∃ es charges, Readable cfg read answer es charges := by
  by_cases hnone : ∃ g ∈ answer.dailyEvents, eventCharge cfg (assign g) = none
  · exact Or.inl hnone
  · obtain ⟨es, hes, hgroups⟩ := h.events
    exact Or.inr ⟨es, exists_readable hes hgroups h.fees fun g hg hg' => hnone ⟨g, hg, hg'⟩⟩

theorem picked_of_readable (h : Readable cfg read answer es charges) :
    List.Forall₂ (Picked cfg) es charges := by
  have hrows : ∀ e ∈ es, e.attributes ≠ [] := fun e he =>
    of_decide_eq_true (List.mem_filter.mp (h.events.mem_iff.mp he)).2
  refine ((List.forall₂_and_left _ _).mpr ⟨hrows, Paired.comp h.groups h.charged⟩).imp ?_
  rintro e y ⟨he, g, hg, hy⟩
  obtain ⟨p, hp, q, hq, hcharge⟩ := exists_charge cfg hg he
  exact ⟨p, hp, q, hq, hcharge ▸ hy⟩

theorem picked_le {e : CoinEvent} {y : Charge} (h : Picked cfg e y) (c : Column) :
    y.value c ≤ inColumn e.side.column (e.total cfg) c := by
  obtain ⟨p, -, q, hq, hy⟩ := h
  obtain ⟨coin, hcoin, rfl⟩ := Option.map_eq_some_iff.mp hy
  exact inColumn_mono ((nativeAmount_le hcoin).trans (nativeSum_le_total hq)) c

theorem pairs_eq_nil {e : CoinEvent} (h : e.attributes = []) : e.pairs = [] := by
  cases hpairs : e.pairs with
  | nil => rfl
  | cons p ps =>
    rw [CoinEvent.attributes, hpairs] at h
    cases h

/-- Events without rows do not matter. -/
theorem sum_eventsWithRows (hes : es.Perm (eventsWithRows read)) {f : CoinEvent → ℕ}
    (hf : ∀ e, e.pairs = [] → f e = 0) :
    (es.map f).sum = ((read.flatMap Tx.events).map f).sum := by
  rw [(hes.map f).sum_eq]
  exact sum_filter_of_zero fun e _ he => hf e (pairs_eq_nil (not_not.mp he))

theorem sum_due_read (h : Readable cfg read answer es charges) (c : Column) :
    ((due cfg read).map fun x => x.value c).sum =
      (es.map fun e => inColumn e.side.column (e.total cfg) c).sum +
        ((read.flatMap Tx.feeCharges).map fun x => x.value c).sum := by
  rw [sum_due, sum_eventsWithRows h.events]
  intro e he
  rw [CoinEvent.total, he]
  exact ite_self 0

/-- What a job writes when the texts can be read. -/
theorem written_of_readable (h : Readable cfg read answer es charges) (date : ℤ) (a : String)
    (c : Column) :
    written (statistics cfg date answer) a c =
      chargeSum (charges ++ read.flatMap Tx.feeCharges) a c := by
  obtain ⟨stats, hstats, hvalue, -⟩ := @statistics_some cfg date read answer
    ⟨⟨es, h.events, h.groups⟩, h.fees⟩ charges h.charged
  rw [hstats, written, Option.map_some, Option.getD_some, hvalue, chargeSum_append]

/-- When the numbers of a day are right, the last transaction is idle, and each charge is the total
of its event. -/
theorem of_right {date : ℤ} {last : Tx} (h : Readable cfg read answer es charges)
    (hright : ∀ a c, written (statistics cfg date answer) a c =
      expected cfg (read ++ [last]) a c) :
    Idle cfg last ∧ ∀ c, List.Forall₂
      (fun y (e : CoinEvent) => y.value c = inColumn e.side.column (e.total cfg) c) charges es := by
  have hle : ∀ c, List.Forall₂
      (fun y (e : CoinEvent) => y.value c ≤ inColumn e.side.column (e.total cfg) c) charges es :=
    fun c => ((picked_of_readable h).imp fun e y hy => picked_le hy c).flip
  have hsum : ∀ c, (charges.map fun x => x.value c).sum +
      ((read.flatMap Tx.feeCharges).map fun x => x.value c).sum =
        ((due cfg read).map fun x => x.value c).sum +
          ((due cfg [last]).map fun x => x.value c).sum := by
    intro c
    rw [← sum_due_append, ← List.sum_append, ← List.map_append]
    refine sum_value_eq fun a => ?_
    rw [← written_of_readable h date, hright, expected_eq]
  have hlast : ∀ c, ((due cfg [last]).map fun x => x.value c).sum = 0 ∧
      (charges.map fun x => x.value c).sum =
        (es.map fun e => inColumn e.side.column (e.total cfg) c).sum := by
    intro c
    have hsum := hsum c
    rw [sum_due_read h c] at hsum
    have hle := Paired.sum_le_sum (hle c)
    omega
  exact ⟨forall_sum_due_eq_zero_iff.mp (fun c => (hlast c).1) last (List.mem_singleton_self last),
    fun c => Paired.eq_of_sum_eq (hle c) (hlast c).2⟩

theorem written_of_throws {g : List Attribute} (hg : g ∈ answer.dailyEvents)
    (h : eventCharge cfg (assign g) = none) (date : ℤ) (a : String) (c : Column) :
    written (statistics cfg date answer) a c = 0 := by
  rw [statistics_none date hg h]
  rfl

/-- When nothing is expected, there is nothing to count. -/
theorem idle_of_expected {day : List Tx} (h : ∀ a c, expected cfg day a c = 0) :
    ∀ t ∈ day, Idle cfg t := by
  rw [← forall_sum_due_eq_zero_iff]
  intro c
  refine (@sum_value_eq (due cfg day) [] c fun a => ?_).trans rfl
  rw [← expected_eq, h, chargeSum_nil]

theorem expected_of_idle {day : List Tx} (h : ∀ t ∈ day, Idle cfg t) (a : String) (c : Column) :
    expected cfg day a c = 0 := by
  have hle := chargeSum_le_sum (due cfg day) a c
  rw [forall_sum_due_eq_zero_iff.mpr h c, ← expected_eq] at hle
  exact Nat.le_zero.mp hle

variable {last : Tx} {date : ℤ}

/-- On a day with right numbers and something to count, the job does not throw. -/
theorem not_throws_of_right {day : List Tx} (hcount : ¬∀ t ∈ day, Idle cfg t)
    (hright : ∀ a c, written (statistics cfg date answer) a c = expected cfg day a c) :
    ∀ g ∈ answer.dailyEvents, eventCharge cfg (assign g) ≠ none := by
  intro g hg hnone
  refine hcount (idle_of_expected fun a c => ?_)
  rw [← hright, written_of_throws hg hnone]

/-- On a day with right numbers and something to count, each text of an event has all native coins
of the event in its first coin. -/
theorem first_of_right (hcount : ¬∀ t ∈ read ++ [last], Idle cfg t)
    (hright : ∀ answer, Possible read answer → ∀ a c,
      written (statistics cfg date answer) a c = expected cfg (read ++ [last]) a c)
    {t : Tx} (ht : t ∈ read) {e : CoinEvent} (he : e ∈ t.events) {q : Address × String}
    (hq : q ∈ e.pairs) :
    ∃ coin, firstCoin cfg (some q.2) = some coin ∧ nativeAmount cfg coin = e.total cfg := by
  obtain ⟨g, hg, p, hp, hcharge⟩ := exists_group cfg hq
  have hrows : e.attributes ≠ [] :=
    List.ne_nil_of_mem (mem_attributes.mpr (Or.inr ⟨rfl, q, hq, rfl⟩))
  have hmem : e ∈ eventsWithRows read :=
    List.mem_filter.mpr ⟨List.mem_flatMap.mpr ⟨t, ht, he⟩, decide_eq_true hrows⟩
  obtain ⟨gs, es, fees, hes, hgs, hpossible⟩ := exists_possible read hmem hg
  obtain ⟨charges, hreadable⟩ := @exists_readable cfg read ⟨g :: gs, fees⟩ _ hes (.cons hg hgs)
    hpossible.fees (not_throws_of_right hcount (hright _ hpossible))
  obtain ⟨-, htotal⟩ := of_right hreadable (hright _ hpossible)
  have htotal := htotal e.side.column
  cases hreadable.charged with
  | cons hy _ =>
    rw [hcharge] at hy
    obtain ⟨coin, hcoin, rfl⟩ := Option.map_eq_some_iff.mp hy
    obtain ⟨hvalue, -⟩ := List.forall₂_cons.mp htotal
    dsimp only at hvalue
    rw [inColumn_self, inColumn_self] at hvalue
    exact ⟨coin, hcoin, hvalue⟩

/-- An event whose texts all have the total in their first coins is good. -/
theorem eventOk_of_first {e : CoinEvent}
    (h : ∀ q ∈ e.pairs, ∃ coin, firstCoin cfg (some q.2) = some coin ∧
      nativeAmount cfg coin = e.total cfg) : EventOk cfg e := by
  refine ⟨fun p hp => ?_, ?_⟩
  · obtain ⟨coin, hcoin, -⟩ := h p hp
    rw [hcoin]
    rfl
  · rcases hpairs : e.pairs with - | ⟨p, - | ⟨q, rest⟩⟩
    · left
      rw [CoinEvent.total, hpairs]
      rfl
    · right
      obtain ⟨coin, hcoin, hamount⟩ := h p (hpairs ▸ List.mem_singleton_self p)
      exact ⟨p, coin, rfl, hcoin, hamount⟩
    · left
      -- both texts have the total, and the total has both of them
      obtain ⟨coin, hcoin, hamount⟩ := h p (hpairs ▸ List.mem_cons_self)
      obtain ⟨coin', hcoin', hamount'⟩ :=
        h q (hpairs ▸ List.mem_cons_of_mem p List.mem_cons_self)
      have hp := nativeAmount_le hcoin
      have hq := nativeAmount_le hcoin'
      have htotal : e.total cfg =
          nativeSum cfg p.2 + (nativeSum cfg q.2 + (rest.map fun p => nativeSum cfg p.2).sum) := by
        rw [CoinEvent.total, hpairs]
        rfl
      omega

/-- The charge of a good event. -/
theorem chargeSum_picked {e : CoinEvent} (he : EventOk cfg e) {y : Charge} (hy : Picked cfg e y)
    (a : String) (c : Column) : chargeSum [y] a c = chargeSum (e.charges cfg) a c := by
  rcases he.first with hzero | ⟨p, coin, hpairs, hcoin, hamount⟩
  · have hle := picked_le hy c
    have hle' := chargeSum_le_sum (e.charges cfg) a c
    have hle'' := chargeSum_le_sum [y] a c
    have hnone : inColumn e.side.column 0 c = 0 := ite_self 0
    rw [sum_charges, hzero, hnone] at hle'
    rw [hzero, hnone] at hle
    rw [List.map_singleton, List.sum_singleton] at hle''
    omega
  · obtain ⟨p', hp', q, hq, hy⟩ := hy
    rw [hpairs, List.mem_singleton] at hp' hq
    rw [hp', hq, chargeOf, hcoin, Option.map_some] at hy
    obtain rfl := Option.some.inj hy
    have htotal : e.total cfg = nativeSum cfg p.2 := by
      rw [CoinEvent.total, hpairs]
      rfl
    rw [hamount, htotal, CoinEvent.charges, hpairs]
    rfl

theorem chargeSum_events (hes : ∀ e ∈ es, EventOk cfg e)
    (h : List.Forall₂ (Picked cfg) es charges) (a : String) (c : Column) :
    chargeSum charges a c = (es.map fun e => chargeSum (e.charges cfg) a c).sum := by
  induction h with
  | nil => rfl
  | cons hy _ ih =>
    obtain ⟨he, hes⟩ := List.forall_mem_cons.mp hes
    rw [List.map_cons, List.sum_cons, ← ih hes, ← chargeSum_picked he hy, ← chargeSum_append,
      List.singleton_append]

theorem last_of_right (hcount : ¬∀ t ∈ read ++ [last], Idle cfg t)
    (hright : ∀ answer, Possible read answer → ∀ a c,
      written (statistics cfg date answer) a c = expected cfg (read ++ [last]) a c) :
    Idle cfg last := by
  obtain ⟨answer, hpossible⟩ := exists_answer read
  have hthrows := not_throws_of_right hcount (hright answer hpossible)
  rcases throws_or_readable cfg hpossible with ⟨g, hg, hnone⟩ | ⟨es, charges, hreadable⟩
  · exact absurd hnone (hthrows g hg)
  · exact (of_right hreadable (hright answer hpossible)).1

/-- The numbers of a day with nothing to count. -/
theorem written_of_idle (hidle : ∀ t ∈ read, Idle cfg t) (hpossible : Possible read answer)
    (a : String) (c : Column) : written (statistics cfg date answer) a c = 0 := by
  rcases throws_or_readable cfg hpossible with ⟨g, hg, hnone⟩ | ⟨es, charges, hreadable⟩
  · exact written_of_throws hg hnone date a c
  · have hle := chargeSum_le_sum (charges ++ read.flatMap Tx.feeCharges) a c
    have hsum := forall_sum_due_eq_zero_iff.mpr hidle c
    have hcharges := Paired.sum_le_sum
      (((picked_of_readable hreadable).imp fun e y hy => picked_le hy c).flip)
    rw [sum_due_read hreadable] at hsum
    rw [List.map_append, List.sum_append] at hle
    rw [written_of_readable hreadable]
    omega

/-- The texts of good events can be read. -/
theorem not_throws_of_eventsOk (hok : ∀ t ∈ read, ∀ e ∈ t.events, EventOk cfg e)
    (hpossible : Possible read answer) :
    ∀ g ∈ answer.dailyEvents, eventCharge cfg (assign g) ≠ none := by
  intro g hg hnone
  obtain ⟨es, hes, hgroups⟩ := hpossible.events
  obtain ⟨e, he, hge⟩ := Paired.exists_right hgroups hg
  obtain ⟨hmem, hrows⟩ := List.mem_filter.mp (hes.mem_iff.mp he)
  obtain ⟨t, ht, het⟩ := List.mem_flatMap.mp hmem
  obtain ⟨p, -, q, hq, hcharge⟩ := exists_charge cfg hge (of_decide_eq_true hrows)
  have hcoin := (hok t ht e het).readable q hq
  rw [hnone] at hcharge
  rw [Option.map_eq_none_iff.mp hcharge.symm] at hcoin
  cases hcoin

/-- The numbers of a day with good events. -/
theorem written_of_eventsOk (hok : ∀ t ∈ read, ∀ e ∈ t.events, EventOk cfg e)
    (hpossible : Possible read answer) (a : String) (c : Column) :
    written (statistics cfg date answer) a c = expected cfg read a c := by
  rcases throws_or_readable cfg hpossible with ⟨g, hg, hnone⟩ | ⟨es, charges, hreadable⟩
  · exact absurd hnone (not_throws_of_eventsOk hok hpossible g hg)
  · have hes : ∀ e ∈ es, EventOk cfg e := fun e he => by
      have hmem := (List.mem_filter.mp (hreadable.events.mem_iff.mp he)).1
      obtain ⟨t, ht, het⟩ := List.mem_flatMap.mp hmem
      exact hok t ht e het
    have hnone : ∀ e : CoinEvent, e.pairs = [] → chargeSum (e.charges cfg) a c = 0 := by
      intro e he
      rw [CoinEvent.charges, he]
      rfl
    rw [written_of_readable hreadable, expected_eq, due, chargeSum_append, chargeSum_append,
      chargeSum_events hes (picked_of_readable hreadable),
      sum_eventsWithRows hreadable.events hnone, ← chargeSum_flatMap]

theorem expected_append (ts us : List Tx) (a : String) (c : Column) :
    expected cfg (ts ++ us) a c = expected cfg ts a c + expected cfg us a c := by
  rw [expected_eq, expected_eq, expected_eq, due, due, due, List.flatMap_append,
    List.flatMap_append, List.flatMap_append, ← chargeSum_append]
  refine chargeSum_perm ?_ a c
  rw [List.append_assoc, List.append_assoc]
  refine List.Perm.append_left _ ?_
  rw [← List.append_assoc, ← List.append_assoc]
  exact List.perm_append_comm.append_right _

end DaysLemmas

open DaysLemmas

/-- The numbers of a day are right, whatever the database answers, exactly when the day is good. -/
theorem day_iff (cfg : Config) (date : ℤ) (day : List Tx) :
    (∀ answer, Possible day.dropLast answer → ∀ a c,
      written (statistics cfg date answer) a c = expected cfg day a c) ↔ DayOk cfg day := by
  constructor
  · intro hright
    by_cases hidle : ∀ t ∈ day, Idle cfg t
    · exact Or.inl hidle
    · right
      have hne : day ≠ [] := by
        rintro rfl
        exact hidle fun t ht => nomatch ht
      obtain ⟨read, last, rfl⟩ : ∃ read last, day = read ++ [last] :=
        ⟨_, _, (List.dropLast_append_getLast hne).symm⟩
      rw [List.dropLast_concat] at hright ⊢
      rw [List.getLast?_concat]
      refine ⟨fun t ht => ?_, fun t ht e he => ?_⟩
      · obtain rfl := Option.some.inj ht
        exact last_of_right hidle hright
      · exact eventOk_of_first fun q hq => first_of_right hidle hright ht he hq
  · rintro (hidle | ⟨hlast, hok⟩) answer hpossible a c
    · rw [expected_of_idle hidle]
      exact written_of_idle (fun t ht => hidle t (List.mem_of_mem_dropLast ht)) hpossible a c
    · rcases List.eq_nil_or_concat day with rfl | ⟨read, last, hday⟩
      · exact written_of_eventsOk hok hpossible a c
      · rw [List.concat_eq_append] at hday
        subst hday
        rw [List.dropLast_concat] at hpossible hok
        have hidle : ∀ t ∈ [last], Idle cfg t := fun t ht => by
          obtain rfl := List.mem_singleton.mp ht
          exact hlast t (List.getLast?_concat ..)
        rw [written_of_eventsOk hok hpossible, expected_append, expected_of_idle hidle, add_zero]

/-! ## 3. Consecutive days -/

/-- The date of a job, and the start of the day that it counts. -/
def dayDate (date : ℤ) (i : ℕ) : ℤ := date + i * dayMs

def dayStart (date : ℤ) (i : ℕ) : ℤ := startOfDay (dayDate date i) - dayMs

/-- The jobs of `n` consecutive days. -/
def jobs (cfg : Config) (txs : Transactions) (table : StatTable) (date : ℤ)
    (answers : ℕ → Answer) : ℕ → StatTable
  | 0 => table
  | n + 1 => handleJob cfg txs (jobs cfg txs table date answers n) (dayDate date n) (answers n)

/-- A number in the table; without a row it is zero. -/
def numberAt (table : StatTable) (a : String) (date : ℤ) (c : Column) : ℕ :=
  ((table.get? (a, date)).map fun r => r.value c).getD 0

/-- The answers to a job are possible. -/
def PossibleAt (txs : Transactions) (date : ℤ) (answer : Answer) : Prop :=
  ∀ read, txs.read date = some read → Possible read answer

/-- The numbers of `n` consecutive days are right, and each transaction of these days is in one of
them. -/
structure AddsUp (cfg : Config) (txs : Transactions) (date : ℤ) (n : ℕ) : Prop where
  right : ∀ (table : StatTable) (answers : ℕ → Answer),
    (∀ i < n, ∀ a, table.get? (a, dayStart date i) = none) →
    (∀ i < n, PossibleAt txs (dayDate date i) (answers i)) →
    ∀ i < n, ∀ a c, numberAt (jobs cfg txs table date answers n) a (dayStart date i) c =
      expected cfg (txs.day (dayStart date i)) a c
  once : ∀ t ∈ txs.rows, dayStart date 0 ≤ t.timestamp → t.timestamp < dayStart date n →
    ∃! i, i < n ∧ t ∈ txs.day (dayStart date i)

namespace DaysLemmas

theorem dayStart_eq (date : ℤ) (i : ℕ) : dayStart date i = dayStart date 0 + i * dayMs := by
  have hne : dayMs ≠ 0 := by decide
  unfold dayStart dayDate startOfDay
  rw [Int.add_mul_ediv_right _ _ hne, add_mul, Nat.cast_zero, zero_mul, add_zero]
  omega

theorem dayStart_injective (date : ℤ) : Function.Injective (dayStart date) := by
  intro i j h
  rw [dayStart_eq date i, dayStart_eq date j, add_right_inj] at h
  exact Int.natCast_inj.mp (mul_right_cancel₀ (by decide : dayMs ≠ 0) h)

variable {cfg : Config} {read : List Tx} {answer : Answer} {date : ℤ}

/-- All rows of a job have the date of its day. -/
theorem date_of_statistics {stats : AccountStats} (hpossible : Possible read answer)
    (h : statistics cfg date answer = some stats) : ∀ r ∈ stats.rows, r.date = date := by
  rcases throws_or_readable cfg hpossible with ⟨g, hg, hnone⟩ | ⟨es, charges, hreadable⟩
  · rw [statistics_none date hg hnone] at h
    cases h
  · obtain ⟨stats', hstats', -, hdate⟩ :=
      @statistics_some cfg date read answer hpossible charges hreadable.charged
    rw [h] at hstats'
    exact Option.some.inj hstats' ▸ hdate

/-- The rows that are written. -/
theorem get?_upsertAll_stats (table : StatTable) {stats : AccountStats}
    (hdate : ∀ r ∈ stats.rows, r.date = date) (a : String) (d : ℤ) :
    (table.upsertAll stats.rows).get? (a, d) =
      if d = date then (stats.get? a).or (table.get? (a, d)) else table.get? (a, d) := by
  by_cases hd : d = date
  · rw [if_pos hd]
    cases ha : stats.get? a with
    | some r =>
      obtain ⟨hr, hkey⟩ := Table.get?_eq_some_iff.mp ha
      have hrow : (r.address, r.date) = (a, d) := by rw [hkey, hdate r hr, hd]
      rw [← hrow]
      refine Table.get?_upsertAll_of_mem hr fun r' hr' hkey' => ?_
      have ha' := Table.get?_eq_some_iff.mpr ⟨hr', (congrArg Prod.fst hkey').trans hkey⟩
      exact Option.some.inj (ha'.symm.trans ha)
    | none =>
      refine Table.get?_upsertAll_of_ne fun r hr hkey => ?_
      exact Table.get?_eq_none_iff.mp ha r hr (congrArg Prod.fst hkey)
  · rw [if_neg hd]
    refine Table.get?_upsertAll_of_ne fun r hr hkey => hd ?_
    exact (congrArg Prod.snd hkey).symm.trans (hdate r hr)

variable {txs : Transactions} {table : StatTable}

/-- What a job does to the table: the numbers of its day, and nothing else. -/
theorem handleJob_spec (hpossible : PossibleAt txs date answer)
    (hfree : ∀ a, table.get? (a, startOfDay date - dayMs) = none) :
    (∀ a c, numberAt (handleJob cfg txs table date answer) a (startOfDay date - dayMs) c =
      written ((txs.read date).bind fun _ => statistics cfg (startOfDay date - dayMs) answer) a c) ∧
    ∀ a d, d ≠ startOfDay date - dayMs →
      (handleJob cfg txs table date answer).get? (a, d) = table.get? (a, d) := by
  unfold handleJob
  dsimp only
  have hnone : ∀ a c, numberAt table a (startOfDay date - dayMs) c = 0 := fun a c => by
    rw [numberAt, hfree]
    rfl
  cases hread : txs.read date with
  | none => exact ⟨hnone, fun _ _ _ => rfl⟩
  | some read =>
    rw [Option.bind_some]
    cases hstats : statistics cfg (startOfDay date - dayMs) answer with
    | none => exact ⟨hnone, fun _ _ _ => rfl⟩
    | some stats =>
      have hdate := date_of_statistics (hpossible read hread) hstats
      dsimp only
      rw [if_pos fun r hr => by rw [hdate r hr]; exact hfree _]
      refine ⟨fun a c => ?_, fun a d hd => ?_⟩
      · rw [numberAt, get?_upsertAll_stats table hdate, if_pos rfl, hfree, Option.or_none]
        rfl
      · rw [get?_upsertAll_stats table hdate, if_neg hd]

/-- What the jobs do: each day has the numbers of its own job. -/
theorem jobs_spec {answers : ℕ → Answer} {n : ℕ}
    (hpossible : ∀ i < n, PossibleAt txs (dayDate date i) (answers i))
    (hfree : ∀ i < n, ∀ a, table.get? (a, dayStart date i) = none) :
    (∀ i < n, ∀ a c, numberAt (jobs cfg txs table date answers n) a (dayStart date i) c =
      written ((txs.read (dayDate date i)).bind fun _ =>
        statistics cfg (dayStart date i) (answers i)) a c) ∧
    ∀ a d, (∀ i < n, d ≠ dayStart date i) →
      (jobs cfg txs table date answers n).get? (a, d) = table.get? (a, d) := by
  induction n with
  | zero => exact ⟨fun i hi => absurd hi (Nat.not_lt_zero i), fun _ _ _ => rfl⟩
  | succ n ih =>
    obtain ⟨hnumbers, hother⟩ := ih (fun i hi => hpossible i (Nat.lt_succ_of_lt hi))
      (fun i hi => hfree i (Nat.lt_succ_of_lt hi))
    have hnew : ∀ i < n, dayStart date n ≠ dayStart date i := fun i hi h =>
      absurd (dayStart_injective date h) hi.ne'
    have hfree' : ∀ a, (jobs cfg txs table date answers n).get? (a, dayStart date n) = none :=
      fun a => (hother a _ hnew).trans (hfree n (Nat.lt_succ_self n) a)
    obtain ⟨hjob, hkeep⟩ := @handleJob_spec cfg (answers n) (dayDate date n) txs
      (jobs cfg txs table date answers n) (hpossible n (Nat.lt_succ_self n)) hfree'
    refine ⟨fun i hi a c => ?_, fun a d hd => ?_⟩
    · rcases Nat.lt_succ_iff_lt_or_eq.mp hi with hi | rfl
      · rw [← hnumbers i hi, numberAt, jobs, hkeep a _ (hnew i hi).symm]
        rfl
      · exact hjob a c
    · rw [jobs, hkeep a d (hd n (Nat.lt_succ_self n)),
        hother a d fun i hi => hd i (Nat.lt_succ_of_lt hi)]

theorem exists_possibleAt (txs : Transactions) (date : ℤ) :
    ∃ answer, PossibleAt txs date answer := by
  cases hread : txs.read date with
  | none => exact ⟨⟨[], []⟩, fun read h => by rw [hread] at h; cases h⟩
  | some read =>
    obtain ⟨answer, hpossible⟩ := exists_answer read
    refine ⟨answer, fun read' h => ?_⟩
    obtain rfl := Option.some.inj (hread.symm.trans h)
    exact hpossible

/-- `day_iff` for what the job reads, also when it finds no transactions. -/
theorem written_eq_expected_iff :
    (∀ answer, PossibleAt txs date answer → ∀ a c,
      written ((txs.read date).bind fun _ => statistics cfg (startOfDay date - dayMs) answer) a c =
        expected cfg (txs.day (startOfDay date - dayMs)) a c) ↔
      DayOk cfg (txs.day (startOfDay date - dayMs)) := by
  by_cases hday : txs.day (startOfDay date - dayMs) = []
  · have hidle : ∀ t ∈ txs.day (startOfDay date - dayMs), Idle cfg t := fun t ht => by
      rw [hday] at ht
      cases ht
    refine ⟨fun _ => Or.inl hidle, fun _ answer hpossible a c => ?_⟩
    rw [expected_of_idle hidle]
    cases hread : txs.read date with
    | none => rfl
    | some read =>
      have hnil := read_of_day_nil hday hread
      exact written_of_idle (fun t ht => by rw [hnil] at ht; cases ht) (hpossible read hread) a c
  · have hread := read_of_ne_nil hday
    rw [← day_iff cfg (startOfDay date - dayMs), hread]
    refine forall_congr' fun answer => imp_congr ⟨fun h => h _ hread, fun h read hread' => ?_⟩ .rfl
    rwa [← Option.some.inj (hread.symm.trans hread')]

/-- The days do not overlap and leave no time out. -/
theorem existsUnique_day {t : Tx} (ht : t ∈ txs.rows) {n : ℕ}
    (hstart : dayStart date 0 ≤ t.timestamp) (hend : t.timestamp < dayStart date n) :
    ∃! i, i < n ∧ t ∈ txs.day (dayStart date i) := by
  have hdayMs : (0 : ℤ) < dayMs := by decide
  have hmem : ∀ i : ℕ, t ∈ txs.day (dayStart date i) ↔
      (t.timestamp - dayStart date 0) / dayMs = i := by
    intro i
    rw [Transactions.day, List.mem_filter, decide_eq_true_eq, dayStart_eq date i,
      Int.ediv_eq_iff_of_pos hdayMs]
    constructor
    · rintro ⟨-, hle, hlt⟩
      constructor <;> linarith
    · rintro ⟨hle, hlt⟩
      refine ⟨ht, ?_, ?_⟩ <;> linarith
  have hnonneg : 0 ≤ (t.timestamp - dayStart date 0) / dayMs :=
    Int.ediv_nonneg (sub_nonneg.mpr hstart) hdayMs.le
  have hlt : (t.timestamp - dayStart date 0) / dayMs < n := by
    refine Int.ediv_lt_of_lt_mul hdayMs ?_
    rw [dayStart_eq date n] at hend
    linarith
  obtain ⟨i, hi⟩ := Int.eq_ofNat_of_zero_le hnonneg
  refine ⟨i, ⟨by omega, (hmem i).mpr hi⟩, fun j hj => ?_⟩
  exact Int.natCast_inj.mp (((hmem j).mp hj.2).symm.trans hi)

end DaysLemmas

open DaysLemmas

/-- The numbers of consecutive days are right exactly when each of the days is good. -/
theorem adds_up_iff (cfg : Config) (txs : Transactions) (date : ℤ) (n : ℕ) :
    AddsUp cfg txs date n ↔ ∀ i < n, DayOk cfg (txs.day (dayStart date i)) := by
  constructor
  · intro h i hi
    refine written_eq_expected_iff.mp fun answer hpossible a c => ?_
    choose answers hanswers using fun i => exists_possibleAt txs (dayDate date i)
    have hpossible' : ∀ j < n, PossibleAt txs (dayDate date j)
        (Function.update answers i answer j) := by
      intro j _
      rcases eq_or_ne j i with rfl | hji
      · rwa [Function.update_self]
      · rw [Function.update_of_ne hji]
        exact hanswers j
    have hfree : ∀ j < n, ∀ a, (Table.empty : StatTable).get? (a, dayStart date j) = none :=
      fun _ _ _ => rfl
    have hnumbers := (@jobs_spec cfg date txs Table.empty _ n hpossible' hfree).1 i hi a c
    rw [h.right _ _ hfree hpossible' i hi, Function.update_self] at hnumbers
    exact hnumbers.symm
  · intro h
    refine ⟨fun table answers hfree hpossible i hi a c => ?_,
      fun t ht hstart hend => existsUnique_day ht hstart hend⟩
    rw [(jobs_spec hpossible hfree).1 i hi]
    exact written_eq_expected_iff.mpr (h i hi) _ (hpossible i hi) a c

/-- A day with two transactions: the second is not counted. -/
def twoTxs : Transactions :=
  ⟨[⟨1, 10, 90000, some ⟨"aura1payer", by decide⟩, none, []⟩,
    ⟨2, 20, 70000, some ⟨"aura1payer", by decide⟩, none, []⟩], by decide⟩

def plainConfig : Config := ⟨"uaura", fun _ => none, fun _ => [], fun _ _ h => nomatch h⟩

theorem not_adds_up_twoTxs : ¬AddsUp plainConfig twoTxs dayMs 1 := by
  intro h
  have hanswer : ∀ i < 1, PossibleAt twoTxs (dayDate dayMs i)
      ⟨[], [([(.txFeePayer, "aura1payer")], 90000)]⟩ := by
    intro i hi read hread
    obtain rfl : i = 0 := by omega
    obtain rfl : [⟨1, 10, 90000, some ⟨"aura1payer", by decide⟩, none, []⟩] = read :=
      Option.some.inj hread
    exact ⟨⟨[], .refl _, .nil⟩, ⟨_, .refl _, .cons ⟨.refl _, rfl⟩ .nil⟩⟩
  have hright := h.right Table.empty (fun _ => _) (fun _ _ _ => rfl) hanswer 0 Nat.one_pos
    "aura1payer" .tx_sent
  exact absurd hright (by decide)

end Erascope.AccountStatistics
