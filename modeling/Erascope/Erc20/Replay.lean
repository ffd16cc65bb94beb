import Mathlib.Tactic
import Erascope.Erc20.Pipeline
import Erascope.Erc20.Independence

/-!
# Replaying a contract

The activities of one contract, folded from supply `0`, and what happens when the last part of
them is folded a second time. The handler checks heights only: an activity is refused when the
balance that it touches has moved at a greater height, so a block can be applied twice.

Results:
1. `exists_replayed`: one pass over the activities of a contract completes.
2. `process_twice_agrees_iff`: applying a range a second time gives the tables of one pass exactly
   when the range cancels out (`CancelsOut`).
-/

namespace Erascope.Erc20

/-! ## 1. One pass -/

section
variable (env : Env) (evs : Events) (accounts : Accounts) (x : String)

/-- The activities of the contract in a range, joined with the accounts. -/
def contractActivities (s e : ℕ) : List JoinedActivity :=
  (between Erc20Activity.height s e (contractHistory env evs x)).map (joinAccounts accounts)

/-- A contract with supply `0` and no balances. -/
def emptyLedger : Ledger := ⟨Table.empty, Table.empty.upsert ⟨x, some 0, true, 0⟩⟩

/-- The activities of a range cancel out for every account, and those of one account lie in one
block. -/
structure CancelsOut (s e : ℕ) : Prop where
  net : ∀ account, ((contractActivities env evs accounts x s e).map (received (account, x))).sum =
    ((contractActivities env evs accounts x s e).map (sent (account, x))).sum
  oneBlock : ∀ a ∈ contractActivities env evs accounts x s e,
    ∀ b ∈ contractActivities env evs accounts x s e, ∀ account,
    touches (account, x) a → touches (account, x) b → a.height = b.height

end

namespace ReplayLemmas

open HandlerLemmas ServiceLemmas IndependenceLemmas IndexerLemmas

variable {env : Env} {evs : Events} {accounts : Accounts} {x : String}

theorem contract_of_mem_contractActivities {s e : ℕ} {a : JoinedActivity}
    (h : a ∈ contractActivities env evs accounts x s e) :
    a.erc20_contract_address = x ∧ s < a.height ∧ a.height ≤ e := by
  obtain ⟨r, hr, rfl⟩ := List.mem_map.mp h
  obtain ⟨hmem, hs, he⟩ := mem_between.mp hr
  exact ⟨of_decide_eq_true (List.mem_filter.mp hmem).2, hs, he⟩

theorem pairwise_contractActivities (hchain : ChainOrder evs) (s e : ℕ) :
    (contractActivities env evs accounts x s e).Pairwise fun a b => a.height ≤ b.height := by
  refine List.pairwise_map.mpr (List.Pairwise.sublist between_sublist ?_)
  exact List.Pairwise.sublist List.filter_sublist (pairwise_height hchain _)

theorem contractActivities_append (hchain : ChainOrder evs) {s m e : ℕ} (hsm : s ≤ m)
    (hme : m ≤ e) : contractActivities env evs accounts x s m ++
      contractActivities env evs accounts x m e = contractActivities env evs accounts x s e := by
  rw [contractActivities, contractActivities, ← List.map_append, between_append _ hsm hme]
  · rfl
  · exact List.Pairwise.sublist List.filter_sublist (pairwise_height hchain _)

/-- The height of a balance after activities in order of height. -/
theorem last_foldl_le_iff {k : Option ℕ × String} {acts : List JoinedActivity}
    (hsort : acts.Pairwise fun a b => a.height ≤ b.height) {b : Option AccountBalance}
    (hb : ∀ a ∈ acts, touches k a → (b.map (·.last_updated_height)).getD 0 ≤ a.height) {n : ℕ} :
    ((acts.foldl (bumpBalance k) b).map (·.last_updated_height)).getD 0 ≤ n ↔
      (b.map (·.last_updated_height)).getD 0 ≤ n ∧ ∀ a ∈ acts, touches k a → a.height ≤ n := by
  induction acts generalizing b with
  | nil => simp
  | cons a acts ih =>
    rw [List.pairwise_cons] at hsort
    rw [List.foldl_cons]
    by_cases ht : touches k a
    · have hbump : ((bumpBalance k b a).map (·.last_updated_height)).getD 0 = a.height := by
        rw [bumpBalance, if_pos ht]
        rfl
      rw [ih hsort.2 fun a' ha' _ => hbump ▸ hsort.1 a' ha', hbump]
      constructor
      · rintro ⟨ha, hrest⟩
        refine ⟨(hb a List.mem_cons_self ht).trans ha, fun a' ha' ht' => ?_⟩
        rcases List.mem_cons.mp ha' with rfl | ha'
        · exact ha
        · exact hrest a' ha' ht'
      · rintro ⟨-, hall⟩
        exact ⟨hall a List.mem_cons_self ht,
          fun a' ha' => hall a' (List.mem_cons_of_mem a ha')⟩
    · rw [bumpBalance, if_neg ht, ih hsort.2 fun a' ha' => hb a' (List.mem_cons_of_mem a ha')]
      refine and_congr_right fun _ => ⟨fun hall a' ha' ht' => ?_, fun hall a' ha' =>
        hall a' (List.mem_cons_of_mem a ha')⟩
      rcases List.mem_cons.mp ha' with rfl | ha'
      · exact absurd ht' ht
      · exact hall a' ha' ht'

/-- The row of a balance after activities of one block. -/
theorem foldl_bumpBalance_one_block {k : Option ℕ × String} {h : ℕ} {acts : List JoinedActivity}
    (hone : ∀ a ∈ acts, touches k a → a.height = h) (hex : ∃ a ∈ acts, touches k a)
    (b : Option AccountBalance) :
    acts.foldl (bumpBalance k) b = some
      { account_id := k.1
        denom := k.2
        amount := (b.map (·.amount)).getD 0 +
          ((acts.map (received k)).sum - (acts.map (sent k)).sum)
        last_updated_height := h
        type := .erc20Token } := by
  -- the shape first; the amount follows from what the fold does to amounts
  have hshape : ∃ n, acts.foldl (bumpBalance k) b = some ⟨k.1, k.2, n, h, .erc20Token⟩ := by
    induction acts generalizing b with
    | nil => simp at hex
    | cons a acts ih =>
      rw [List.foldl_cons]
      by_cases hrest : ∃ a' ∈ acts, touches k a'
      · exact ih (fun a' ha' => hone a' (List.mem_cons_of_mem a ha')) hrest _
      · have hnone : ∀ a' ∈ acts, ¬ touches k a' := fun a' ha' ht => hrest ⟨a', ha', ht⟩
        obtain ⟨a', ha', ht⟩ := hex
        rcases List.mem_cons.mp ha' with rfl | ha'
        · rw [foldl_bumpBalance_of_not_touched hnone, bumpBalance, if_pos ht,
            hone a' List.mem_cons_self ht]
          exact ⟨_, rfl⟩
        · exact absurd ht (hnone a' ha')
  obtain ⟨n, hn⟩ := hshape
  have hamount := amount_foldl_bumpBalance k acts b
  rw [hn] at hamount ⊢
  simp only [Option.map_some, Option.getD_some] at hamount
  rw [hamount]

/-- Activities that cancel out in one block leave a balance that has seen them as it is. -/
theorem foldl_bumpBalance_twice {s e : ℕ}
    (hcancel : CancelsOut env evs accounts x s e) (account : Option ℕ) (b : Option AccountBalance) :
    (contractActivities env evs accounts x s e).foldl (bumpBalance (account, x))
        ((contractActivities env evs accounts x s e).foldl (bumpBalance (account, x)) b) =
      (contractActivities env evs accounts x s e).foldl (bumpBalance (account, x)) b := by
  by_cases hex : ∃ a ∈ contractActivities env evs accounts x s e, touches (account, x) a
  · obtain ⟨a, ha, ht⟩ := hex
    have hone : ∀ a' ∈ contractActivities env evs accounts x s e, touches (account, x) a' →
        a'.height = a.height := fun a' ha' ht' => hcancel.oneBlock a' ha' a ha account ht' ht
    rw [foldl_bumpBalance_one_block hone ⟨a, ha, ht⟩ b,
      foldl_bumpBalance_one_block hone ⟨a, ha, ht⟩, hcancel.net account]
    simp
  · have hnone : ∀ a' ∈ contractActivities env evs accounts x s e, ¬ touches (account, x) a' :=
      fun a' ha' ht => hex ⟨a', ha', ht⟩
    rw [foldl_bumpBalance_of_not_touched hnone, foldl_bumpBalance_of_not_touched hnone]

/-- A contract without balances, with supply `0`. -/
structure Clean (x : String) (l : Ledger) : Prop where
  balance : ∀ account, l.accountBalances.get? (account, x) = none
  contract : ∃ c, l.erc20Contracts.get? x = some c ∧ c.track = true ∧ c.total_supply = some 0

/-- A contract after one pass over its activities up to a height. -/
structure Replayed (env : Env) (evs : Events) (accounts : Accounts) (x : String) (h : ℕ)
    (l : Ledger) : Prop where
  balance : ∀ account, l.accountBalances.get? (account, x) =
    (contractActivities env evs accounts x 0 h).foldl (bumpBalance (account, x)) none
  supply : supplyOf l x =
    some (some ((contractActivities env evs accounts x 0 h).map (minted x)).sum)
  track : isTracked l.erc20Contracts x = true

theorem Replayed.sameContract {h : ℕ} {l m : Ledger} (hl : Replayed env evs accounts x h l)
    (hsame : SameContract x m l) : Replayed env evs accounts x h m := by
  refine ⟨fun account => (hsame.balance account).trans (hl.balance account), ?_, ?_⟩
  · rw [supplyOf, hsame.contract]
    exact hl.supply
  · rw [isTracked, hsame.contract]
    exact hl.track

/-- A pass that starts clean. -/
theorem replayed_process {h : ℕ} {l l' : Ledger} (hl : Clean x l)
    (hok : process (contractActivities env evs accounts x 0 h) l = .ok l') :
    Replayed env evs accounts x h l' := by
  obtain ⟨hbalance, hcontract, -⟩ := process_effect hok
  obtain ⟨c, hget, htrack, hsupply⟩ := hl.contract
  refine ⟨fun account => ?_, ?_, ?_⟩
  · rw [hbalance, hl.balance]
  · rw [supplyOf, hcontract, supply_foldl_bumpContract, hget]
    simp [hsupply]
  · rw [(contracts_process hok (SameRows.refl l') x).2]
    simp [isTracked, hget, htrack]

/-- How far ahead the balances are after one pass. -/
theorem Replayed.lastOf_le_iff (hchain : ChainOrder evs) {h : ℕ} {l : Ledger}
    (hl : Replayed env evs accounts x h l) (account : Option ℕ) {n : ℕ} :
    lastOf l (account, x) ≤ n ↔ ∀ a ∈ contractActivities env evs accounts x 0 h,
      touches (account, x) a → a.height ≤ n := by
  rw [lastOf, hl.balance account, last_foldl_le_iff (pairwise_contractActivities hchain 0 h)]
  · simp
  · exact fun a _ _ => Nat.zero_le _

theorem clean_emptyLedger (x : String) : Clean x (emptyLedger x) :=
  ⟨fun _ => rfl, ⟨x, some 0, true, 0⟩, by simp [emptyLedger], rfl, rfl⟩

section
variable (hchain : ChainOrder evs)
  (hamount : ∀ a ∈ contractHistory env evs x, movesTokens a.action → a.amount ≠ none)
include hchain hamount

/-- When a pass over a range completes: no balance is ahead. -/
theorem process_contractActivities_ok_iff {s e : ℕ} {l : Ledger}
    (hx : l.erc20Contracts.get? x ≠ none) :
    (∃ l', process (contractActivities env evs accounts x s e) l = .ok l') ↔
      ∀ a ∈ contractActivities env evs accounts x s e, ∀ account, touches (account, x) a →
        lastOf l (account, x) ≤ a.height := by
  rw [process_ok_iff]
  · refine forall₂_congr fun a ha => ⟨fun h account => h (account, x), fun h k hk => ?_⟩
    have hk2 : k.2 = x := (touches_contract hk).symm.trans (contract_of_mem_contractActivities ha).1
    obtain ⟨account, y⟩ := k
    cases hk2
    exact h account hk
  · refine (pairwise_contractActivities hchain s e).imp ?_
    intro a b hab _
    exact hab
  · intro a ha
    obtain ⟨r, hr, rfl⟩ := List.mem_map.mp ha
    exact hamount r (List.mem_of_mem_filter hr)
  · intro a ha _
    rw [(contract_of_mem_contractActivities ha).1]
    exact hx

/-- A pass that starts clean completes. -/
theorem exists_replayed (h : ℕ) {l : Ledger} (hl : Clean x l) :
    ∃ l', process (contractActivities env evs accounts x 0 h) l = .ok l' ∧
      Replayed env evs accounts x h l' := by
  obtain ⟨c, hget, -⟩ := hl.contract
  have hx : l.erc20Contracts.get? x ≠ none := hget ▸ Option.some_ne_none c
  obtain ⟨l', hl'⟩ : ∃ l', process (contractActivities env evs accounts x 0 h) l = .ok l' := by
    rw [process_contractActivities_ok_iff hchain hamount hx]
    intro a _ account _
    rw [lastOf, hl.balance]
    exact Nat.zero_le _
  exact ⟨l', hl', replayed_process hl hl'⟩

/-- When the activities of a range can be applied a second time. -/
theorem process_twice_ok_iff {b a E : ℕ} (hba : b ≤ a) (haE : a ≤ E) {l : Ledger}
    (hl : Replayed env evs accounts x a l) :
    (∃ l', process (contractActivities env evs accounts x b E) l = .ok l') ↔
      ∀ r ∈ contractActivities env evs accounts x b a,
        ∀ r' ∈ contractActivities env evs accounts x b a, ∀ account,
        touches (account, x) r → touches (account, x) r' → r.height = r'.height := by
  have hx : l.erc20Contracts.get? x ≠ none := fun hnone => by
    have := hl.track
    simp [isTracked, hnone] at this
  rw [process_contractActivities_ok_iff hchain hamount hx]
  simp only [hl.lastOf_le_iff hchain]
  rw [← contractActivities_append hchain hba haE,
    ← contractActivities_append hchain (Nat.zero_le b) hba]
  constructor
  · intro h r hr r' hr' account ht ht'
    have hle : ∀ r ∈ contractActivities env evs accounts x b a,
        ∀ r' ∈ contractActivities env evs accounts x b a,
        touches (account, x) r → touches (account, x) r' → r.height ≤ r'.height :=
      fun r hr r' hr' ht ht' => h r' (List.mem_append_left _ hr') account ht' r
        (List.mem_append_right _ hr) ht
    exact le_antisymm (hle r hr r' hr' ht ht') (hle r' hr' r hr ht' ht)
  · intro h r hr account ht r' hr' ht'
    rcases List.mem_append.mp hr with hr | hr
    · rcases List.mem_append.mp hr' with hr' | hr'
      · exact (contract_of_mem_contractActivities hr').2.2.trans
          (contract_of_mem_contractActivities hr).2.1.le
      · exact (h r' hr' r hr account ht' ht).le
    · have hlow := (contract_of_mem_contractActivities hr).2.1
      rcases List.mem_append.mp hr' with hr' | hr'
      · exact ((contract_of_mem_contractActivities hr').2.2.trans hba).trans hlow.le
      · exact (contract_of_mem_contractActivities hr').2.2.trans hlow.le

/-- Activities that cancel out for every account neither mint nor burn on the whole. -/
theorem minted_eq_zero {b a : ℕ} (hba : b ≤ a)
    (hcancel : CancelsOut env evs accounts x b a) :
    ((contractActivities env evs accounts x b a).map (minted x)).sum = 0 := by
  -- apply the range a second time: the balances stay, so their sum does
  obtain ⟨l, -, hl⟩ := @exists_replayed env evs accounts x hchain hamount a _ (clean_emptyLedger x)
  obtain ⟨l', hl'⟩ := (process_twice_ok_iff hchain hamount hba le_rfl hl).mpr hcancel.oneBlock
  obtain ⟨hbalance, -, hsum⟩ := process_effect hl'
  have hrows : ∀ k, l'.accountBalances.get? k = l.accountBalances.get? k := by
    rintro ⟨account, y⟩
    rw [hbalance]
    by_cases hy : y = x
    · subst hy
      rw [hl.balance, ← contractActivities_append hchain (Nat.zero_le b) hba, List.foldl_append]
      exact foldl_bumpBalance_twice hcancel account _
    · refine foldl_bumpBalance_of_not_touched (fun r hr ht => hy ?_) _
      exact (touches_contract ht).symm.trans (contract_of_mem_contractActivities hr).1
  have hsame : balanceSum l' x = balanceSum l x := Table.sum_eq_of_get?_eq hrows _
  rw [hsum x] at hsame
  exact add_eq_left.mp hsame

end

theorem ofContract_contractActivities (s e : ℕ) :
    ofContract x (contractActivities env evs accounts x s e) =
      contractActivities env evs accounts x s e := by
  refine List.filter_eq_self.mpr fun a ha => ?_
  exact decide_eq_true (contract_of_mem_contractActivities ha).1

/-- A pass over a range depends on the rows of the contract alone. -/
theorem process_contractActivities_same (s e : ℕ) {l m : Ledger} (h : SameContract x l m) :
    ExceptRel (SameContract x) (process (contractActivities env evs accounts x s e) l)
      (process (contractActivities env evs accounts x s e) m) := by
  have hrel := process_sameContract (contractActivities env evs accounts x s e) h
  rwa [ofContract_contractActivities] at hrel

theorem process_contractActivities_append (hchain : ChainOrder evs) {s m e : ℕ} (hsm : s ≤ m)
    (hme : m ≤ e) (l : Ledger) : process (contractActivities env evs accounts x s e) l =
      process (contractActivities env evs accounts x s m) l >>=
        process (contractActivities env evs accounts x m e) := by
  rw [← contractActivities_append hchain hsm hme, process, List.foldlM_append]
  rfl

end ReplayLemmas

open HandlerLemmas ReplayLemmas

/-! ## 2. Results -/

section
variable {env : Env} {evs : Events} {accounts : Accounts} {x : String} (hchain : ChainOrder evs)
  (hamount : ∀ a ∈ contractHistory env evs x, movesTokens a.action → a.amount ≠ none)
include hchain hamount

/-- Going on from `b` over a contract that has been replayed up to `a` gives one pass exactly when
the activities between them cancel out. -/
theorem process_twice_agrees_iff {b a E : ℕ} (hba : b ≤ a) (haE : a ≤ E) {l m : Ledger}
    (hl : Replayed env evs accounts x a l) (hm : Replayed env evs accounts x E m) :
    (∃ l', process (contractActivities env evs accounts x b E) l = .ok l' ∧
      (∀ account, l'.accountBalances.get? (account, x) = m.accountBalances.get? (account, x)) ∧
      supplyOf l' x = supplyOf m x) ↔ CancelsOut env evs accounts x b a := by
  have hcut : contractActivities env evs accounts x 0 E =
      contractActivities env evs accounts x 0 b ++ (contractActivities env evs accounts x b a ++
        contractActivities env evs accounts x a E) := by
    rw [contractActivities_append hchain hba haE,
      contractActivities_append hchain (Nat.zero_le b) (hba.trans haE)]
  constructor
  · rintro ⟨l', hl', hbalances, -⟩
    refine ⟨fun account => ?_, (process_twice_ok_iff hchain hamount hba haE hl).mp ⟨l', hl'⟩⟩
    have hamounts : amountOf l' (account, x) = amountOf m (account, x) := by
      rw [amountOf, hbalances]
      rfl
    rw [amountOf, amountOf, (process_effect hl').1, hm.balance, hcut, hl.balance,
      ← contractActivities_append hchain hba haE,
      ← contractActivities_append hchain (Nat.zero_le b) hba, amount_foldl_bumpBalance,
      amount_foldl_bumpBalance, amount_foldl_bumpBalance] at hamounts
    simp only [List.map_append, List.sum_append] at hamounts
    linarith
  · intro hcancel
    obtain ⟨l', hl'⟩ := (process_twice_ok_iff hchain hamount hba haE hl).mpr hcancel.oneBlock
    obtain ⟨hbalance, hcontract, -⟩ := process_effect hl'
    refine ⟨l', hl', fun account => ?_, ?_⟩
    · rw [hbalance, hl.balance, hm.balance, hcut, ← contractActivities_append hchain hba haE,
        ← contractActivities_append hchain (Nat.zero_le b) hba]
      simp only [List.foldl_append]
      rw [foldl_bumpBalance_twice hcancel]
    · rw [supplyOf, hcontract, supply_foldl_bumpContract]
      show (supplyOf l x).map _ = _
      rw [hl.supply, hm.supply, hcut, ← contractActivities_append hchain hba haE,
        ← contractActivities_append hchain (Nat.zero_le b) hba]
      simp [minted_eq_zero hchain hamount hba hcancel]

end

end Erascope.Erc20
