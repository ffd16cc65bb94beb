import Mathlib.Tactic
import Erascope.Erc20.Replay

/-!
# Runs beside a contract

What the two jobs need so that no run throws, for all contracts but one: `Running` says it of
tables and checkpoints, and the runs keep it. The runs then depend on the remaining contract alone.

Results:
1. `running_run`: the invariant holds in every state that the jobs reach.
2. `run_rows`: the activities of the contract that the runs add.
3. `run_ledger`: when the stored activities of the contract are its history, the runs complete
   exactly when the fold over its activities does.
-/

namespace Erascope.Erc20

/-! ## 1. The invariant -/

/-- The stored activities of the contract. -/
def contractRows (x : String) (db : Db) : List Erc20Activity :=
  db.activities.filter fun a => a.erc20_contract_address = x

/-- The activities that are stored and those of all events. -/
def knownActivities (env : Env) (evs : Events) (db : Db) : List Erc20Activity :=
  db.activities ++ history env evs fun _ => true

/-- What the jobs rely on: the accounts and amounts of the activities are there, a contract that
is converted is registered or can be; and, for the contracts other than `x`, the activities are
stored in order of height up to `HANDLE_ERC20_ACTIVITY` and no balance is ahead of
`HANDLE_ERC20_BALANCE`. -/
structure Running (env : Env) (evs : Events) (info : ContractInfo) (x : String) (st : Indexer) :
    Prop where
  accounts : ∀ a ∈ knownActivities env evs st.db,
    accountOf st.db.accounts a.fromAddress ≠ none ∧ accountOf st.db.accounts a.toAddress ≠ none
  amounts : ∀ a ∈ knownActivities env evs st.db, movesTokens a.action → a.amount ≠ none
  smartContracts : ∀ a ∈ cosmosActivities env evs,
    hasContract st.db.ledger.erc20Contracts a.erc20_contract_address ∨
      info.hasSmartContract a.erc20_contract_address
  sorted : st.db.activities.Pairwise fun a b =>
    a.erc20_contract_address = b.erc20_contract_address → a.erc20_contract_address ≠ x →
      a.height ≤ b.height
  stored : ∀ a ∈ st.db.activities, a.erc20_contract_address ≠ x → a.height ≤ st.activityHeight
  balances : ∀ a ∈ knownActivities env evs st.db, a.erc20_contract_address ≠ x →
    ∀ account, lastOf st.db.ledger (account, a.erc20_contract_address) ≤ st.balanceHeight

/-! ## 2. One run -/

namespace RunningLemmas

open HandlerLemmas ServiceLemmas ActivitiesLemmas IndependenceLemmas IndexerLemmas ReplayLemmas

variable {env : Env} {evs : Events} {info : ContractInfo} {x : String}

theorem mem_history_of_mem {has : String → Bool} {a : Erc20Activity}
    (h : a ∈ history env evs has) : a ∈ history env evs fun _ => true := by
  rw [history, List.mem_insertionSort, List.mem_append] at h ⊢
  refine h.imp_left fun hmem => ?_
  obtain ⟨e, he, hb⟩ := mem_evmActivities.mp hmem
  exact mem_evmActivities.mpr ⟨e, ⟨he.1, rfl⟩, hb⟩

theorem hasContract_of_isTracked {contracts : Contracts} {y : String}
    (h : isTracked contracts y = true) : hasContract contracts y = true := by
  unfold isTracked at h
  unfold hasContract
  cases hget : contracts.get? y with
  | none => simp [hget] at h
  | some c => rfl

/-- The contracts of the activities of a range are registered, or can be. -/
theorem registered_of_mem_history {st : Indexer} (hst : Running env evs info x st)
    {a : Erc20Activity}
    (h : a ∈ history env evs (hasContract st.db.ledger.erc20Contracts)) :
    hasContract st.db.ledger.erc20Contracts a.erc20_contract_address ∨
      info.hasSmartContract a.erc20_contract_address := by
  rw [history, List.mem_insertionSort, List.mem_append] at h
  rcases h with h | h
  · obtain ⟨r, hr, hb⟩ := mem_evmActivities.mp h
    rw [(buildEvmActivity_eq_some hb).2.2.1]
    exact Or.inl hr.2
  · exact hst.smartContracts a h

/-- A run of the activity job completes; of a contract that is registered it adds the activities
and leaves the rest. -/
theorem running_activity (hchain : ChainOrder evs) {st : Indexer}
    (hst : Running env evs info x st) {e : ℕ} (he : st.activityHeight ≤ e) :
    ∃ st', indexerStep env evs info st (.activity e) = .ok st' ∧ Running env evs info x st' ∧
      st'.db.accounts = st.db.accounts ∧ st'.activityHeight = e ∧
      st'.balanceHeight = st.balanceHeight ∧
      (hasContract st.db.ledger.erc20Contracts x = true →
        contractRows x st'.db = contractRows x st.db ++
          between Erc20Activity.height st.activityHeight e (contractHistory env evs x) ∧
        SameContract x st'.db.ledger st.db.ledger) := by
  let acts := buildErc20Activities env evs (hasContract st.db.ledger.erc20Contracts)
    st.activityHeight e none
  have hacts : ∀ a ∈ acts, a ∈ history env evs (hasContract st.db.ledger.erc20Contracts) ∧
      st.activityHeight < a.height ∧ a.height ≤ e := by
    intro a ha
    simp only [acts, buildErc20Activities_eq] at ha
    exact mem_between.mp ha
  obtain ⟨contracts', hmissing⟩ : ∃ contracts',
      handleMissingErc20Contract info acts st.db.ledger.erc20Contracts = .ok contracts' :=
    handleMissingErc20Contract_isOk fun a ha => registered_of_mem_history hst (hacts a ha).1
  have hknown : ∀ a ∈ st.db.activities ++ acts ++ history env evs (fun _ => true),
      a ∈ knownActivities env evs st.db := by
    intro a ha
    rcases List.mem_append.mp ha with ha | ha
    · rcases List.mem_append.mp ha with ha | ha
      · exact List.mem_append_left _ ha
      · exact List.mem_append_right _ (mem_history_of_mem (hacts a ha).1)
    · exact List.mem_append_right _ ha
  refine ⟨⟨⟨st.db.activities ++ acts, ⟨st.db.ledger.accountBalances, contracts'⟩, st.db.accounts⟩,
    e, st.balanceHeight⟩, ?_, ⟨?_, ?_, ?_, ?_, ?_, ?_⟩, rfl, rfl, rfl,
    fun hx => ⟨?_, fun _ => rfl, ?_⟩⟩
  · simp only [indexerStep, handleErc20Activity, acts] at hmissing ⊢
    rw [hmissing]
    rfl
  · exact fun a ha => hst.accounts a (hknown a ha)
  · exact fun a ha => hst.amounts a (hknown a ha)
  · intro a ha
    refine (hst.smartContracts a ha).imp_left fun hhas => ?_
    show (contracts'.get? a.erc20_contract_address).isSome = true
    rw [handleMissingErc20Contract_get? hmissing (Or.inl (Option.isSome_iff_ne_none.mp hhas))]
    exact hhas
  · refine List.pairwise_append.mpr ⟨hst.sorted, ?_, fun a ha b hb _ hax => ?_⟩
    · show (buildErc20Activities env evs _ _ _ none).Pairwise _
      rw [buildErc20Activities_eq]
      refine (List.Pairwise.sublist between_sublist (pairwise_height hchain _)).imp ?_
      intro a b hab _ _
      exact hab
    · exact (hst.stored a ha hax).trans (hacts b hb).2.1.le
  · intro a ha hax
    rcases List.mem_append.mp ha with ha | ha
    · exact (hst.stored a ha hax).trans he
    · exact (hacts a ha).2.2
  · exact fun a ha hax => hst.balances a (hknown a ha) hax
  · show (st.db.activities ++ acts).filter _ = _
    rw [List.filter_append, filter_buildErc20Activities (Or.inl hx)]
    rfl
  · exact handleMissingErc20Contract_get? hmissing (Or.inl (Option.isSome_iff_ne_none.mp hx))

theorem last_foldl_le {k : Option ℕ × String} {acts : List JoinedActivity} {n : ℕ}
    (hacts : ∀ a ∈ acts, touches k a → a.height ≤ n) {b : Option AccountBalance}
    (hb : (b.map (·.last_updated_height)).getD 0 ≤ n) :
    ((acts.foldl (bumpBalance k) b).map (·.last_updated_height)).getD 0 ≤ n := by
  induction acts generalizing b with
  | nil => exact hb
  | cons a acts ih =>
    rw [List.foldl_cons]
    refine ih (fun a' ha' => hacts a' (List.mem_cons_of_mem a ha')) ?_
    unfold bumpBalance
    split
    · next ht => exact hacts a List.mem_cons_self ht
    · exact hb

/-- The activities of a tracked contract that a run of the balance job reads. -/
theorem ofContract_getErc20Activities {db : Db}
    (hx : isTracked db.ledger.erc20Contracts x = true) (s e : ℕ) :
    ofContract x (getErc20Activities db s e none) =
      (between Erc20Activity.height s e (contractRows x db)).map (joinAccounts db.accounts) := by
  rw [ofContract, getErc20Activities, contractRows, List.filter_map, List.filter_filter,
    ← filter_between]
  congr 1
  refine List.filter_congr fun a _ => ?_
  by_cases ha : a.erc20_contract_address = x <;> simp [joinAccounts, ha, hx]

theorem mem_getErc20Activities {db : Db} {s e : ℕ} {a : JoinedActivity}
    (h : a ∈ getErc20Activities db s e none) :
    ∃ r ∈ db.activities, a = joinAccounts db.accounts r ∧ s < r.height ∧ r.height ≤ e ∧
      isTracked db.ledger.erc20Contracts r.erc20_contract_address = true := by
  obtain ⟨r, hr, rfl⟩ := List.mem_map.mp h
  obtain ⟨hbetween, htracked⟩ := List.mem_filter.mp hr
  obtain ⟨hmem, hs, he⟩ := mem_between.mp hbetween
  exact ⟨r, hmem, rfl, hs, he, by simpa using htracked⟩

/-- The other contracts do not stop a run of the balance job. -/
theorem process_others {st : Indexer} (hst : Running env evs info x st) {e : ℕ} {y : String}
    (hy : y ≠ x) :
    ∃ m, process (ofContract y (getErc20Activities st.db st.balanceHeight e none)) st.db.ledger =
      .ok m := by
  have hread : ∀ a ∈ ofContract y (getErc20Activities st.db st.balanceHeight e none),
      a.erc20_contract_address = y ∧ ∃ r ∈ st.db.activities,
        a = joinAccounts st.db.accounts r ∧ st.balanceHeight < r.height ∧ r.height ≤ e ∧
        isTracked st.db.ledger.erc20Contracts r.erc20_contract_address = true := fun a ha =>
    ⟨of_decide_eq_true (List.mem_filter.mp ha).2, mem_getErc20Activities (List.mem_of_mem_filter ha)⟩
  refine (process_ok_iff ?_ (fun a ha => ?_) fun a ha _ => ?_).mpr fun a ha k hk => ?_
  · have hsort : (getErc20Activities st.db st.balanceHeight e none).Pairwise fun a b =>
        a.erc20_contract_address = b.erc20_contract_address → a.erc20_contract_address ≠ x →
          a.height ≤ b.height :=
      List.pairwise_map.mpr (hst.sorted.sublist (List.filter_sublist.trans between_sublist))
    refine (hsort.sublist List.filter_sublist).imp_of_mem fun {a b} ha _ hab hsame => ?_
    exact hab hsame ((hread a ha).1.symm ▸ hy)
  · obtain ⟨-, r, hr, rfl, -⟩ := hread a ha
    exact hst.amounts r (List.mem_append_left _ hr)
  · obtain ⟨-, r, -, rfl, -, -, htracked⟩ := hread a ha
    exact Option.isSome_iff_ne_none.mp (hasContract_of_isTracked htracked)
  · obtain ⟨hax, r, hr, rfl, hlow, -⟩ := hread a ha
    obtain ⟨account, z⟩ := k
    obtain rfl : r.erc20_contract_address = z := touches_contract hk
    exact (hst.balances r (List.mem_append_left _ hr) (hax.symm ▸ hy) account).trans hlow.le

/-- A run of the balance job is the fold on the whole tables. -/
theorem balance_rel {st : Indexer} (hst : Running env evs info x st) (e : ℕ) :
    ExceptRel (fun db' m => SameRows db'.ledger m ∧ db'.activities = st.db.activities ∧
        db'.accounts = st.db.accounts)
      (handleErc20Balance st.db st.balanceHeight e)
      (process (getErc20Activities st.db st.balanceHeight e none) st.db.ledger) := by
  refine handleErc20Balance_rel fun a ha => ?_
  obtain ⟨r, hr, rfl, -⟩ := mem_getErc20Activities ha
  exact hst.accounts r (List.mem_append_left _ hr)

/-- A run of the balance job that completes. -/
theorem running_balance {st st' : Indexer} (hst : Running env evs info x st) {e : ℕ}
    (hbe : st.balanceHeight ≤ e) (hstep : indexerStep env evs info st (.balance e) = .ok st') :
    Running env evs info x st' ∧ st'.db.activities = st.db.activities ∧
      st'.db.accounts = st.db.accounts ∧ st'.activityHeight = st.activityHeight ∧
      st'.balanceHeight = e ∧
      isTracked st'.db.ledger.erc20Contracts x = isTracked st.db.ledger.erc20Contracts x := by
  obtain ⟨db', hdb', hst'⟩ := bind_ok hstep
  cases hst'
  obtain ⟨m, hm, hrows, hacts, haccounts⟩ := (hdb' ▸ balance_rel hst e).of_ok
  have hknown : knownActivities env evs db' = knownActivities env evs st.db := by
    rw [knownActivities, hacts]
    rfl
  refine ⟨⟨?_, ?_, ?_, ?_, ?_, ?_⟩, hacts, haccounts, rfl, rfl, (contracts_process hm hrows x).2⟩
  · rw [hknown, haccounts]
    exact hst.accounts
  · rw [hknown]
    exact hst.amounts
  · intro a ha
    rw [(contracts_process hm hrows a.erc20_contract_address).1]
    exact hst.smartContracts a ha
  · rw [hacts]
    exact hst.sorted
  · rw [hacts]
    exact hst.stored
  · rw [hknown]
    intro a ha hax account
    show lastOf db'.ledger _ ≤ e
    rw [lastOf, hrows.balance, (process_effect hm).1]
    refine last_foldl_le (fun b hb _ => ?_) ((hst.balances a ha hax account).trans hbe)
    obtain ⟨r, -, rfl, -, hle, -⟩ := mem_getErc20Activities hb
    exact hle

/-- A run of the balance job sees a tracked contract alone. -/
theorem balance_contract {st : Indexer} (hst : Running env evs info x st)
    (hx : isTracked st.db.ledger.erc20Contracts x = true) (e : ℕ) :
    OkRel (fun st' m => SameContract x st'.db.ledger m)
      (indexerStep env evs info st (.balance e))
      (process ((between Erc20Activity.height st.balanceHeight e (contractRows x st.db)).map
        (joinAccounts st.db.accounts)) st.db.ledger) := by
  have hrel := balance_rel hst e
  rw [← ofContract_getErc20Activities hx]
  refine okRel_of_imp (fun st' hstep => ?_) fun m hm => ?_
  · obtain ⟨db', hdb', hst'⟩ := bind_ok hstep
    cases hst'
    obtain ⟨m, hm, hrows, -⟩ := (hdb' ▸ hrel).of_ok
    obtain ⟨m', hm', hsame⟩ := process_contract hm x
    exact ⟨m', hm', (hrows.sameContract x).trans hsame⟩
  · obtain ⟨n, hn⟩ : ∃ n, process (getErc20Activities st.db st.balanceHeight e none)
        st.db.ledger = .ok n := by
      refine process_of_contracts fun y => ?_
      by_cases hy : y = x
      · exact hy ▸ ⟨m, hm⟩
      · exact process_others hst hy
    obtain ⟨db', hbal, -⟩ := (hn ▸ hrel).of_ok_right
    refine ⟨{ st with db := db', balanceHeight := e }, ?_⟩
    simp only [indexerStep, hbal]
    rfl

theorem le_activity_of_reaches {σ : List IndexerStep} {a b a' b' : ℕ}
    (h : Reaches a b σ a' b') : a ≤ a' := by
  induction σ generalizing a b with
  | nil => exact h.1.le
  | cons step σ ih =>
    cases step with
    | activity e => exact h.1.trans (ih h.2)
    | balance e => exact ih h.2.2

end RunningLemmas

open ReplayLemmas IndexerLemmas RunningLemmas

/-! ## 3. Results -/

section
variable {env : Env} {evs : Events} {info : ContractInfo} {x : String}

/-- Before the first activity. -/
theorem running_start {db : Db} {startBlock : ℕ} (hacts : db.activities = [])
    (haccounts : ∀ a ∈ history env evs fun _ => true,
      accountOf db.accounts a.fromAddress ≠ none ∧ accountOf db.accounts a.toAddress ≠ none)
    (hamounts : ∀ a ∈ history env evs fun _ => true, movesTokens a.action → a.amount ≠ none)
    (hcontracts : ∀ a ∈ cosmosActivities env evs,
      hasContract db.ledger.erc20Contracts a.erc20_contract_address ∨
        info.hasSmartContract a.erc20_contract_address)
    (hbalances : ∀ a ∈ history env evs fun _ => true, ∀ account,
      db.ledger.accountBalances.get? (account, a.erc20_contract_address) = none) :
    Running env evs info x ⟨db, startBlock, startBlock⟩ := by
  have hknown : knownActivities env evs db = history env evs fun _ => true := by
    rw [knownActivities, hacts, List.nil_append]
  refine ⟨hknown ▸ haccounts, hknown ▸ hamounts, hcontracts, ?_, ?_, ?_⟩
  · rw [hacts]
    exact List.Pairwise.nil
  · rw [hacts]
    exact fun a ha => absurd ha List.not_mem_nil
  · intro a ha _ account
    rw [lastOf, hbalances a (hknown ▸ ha) account]
    exact Nat.zero_le _

/-- In every state that the jobs reach. -/
theorem running_run (hchain : ChainOrder evs) {σ : List IndexerStep} :
    ∀ {st st' : Indexer} {a' b' : ℕ}, Running env evs info x st →
      Reaches st.activityHeight st.balanceHeight σ a' b' →
      runIndexer env evs info σ st = .ok st' →
      Running env evs info x st' ∧ st'.activityHeight = a' ∧ st'.balanceHeight = b' := by
  induction σ with
  | nil =>
    rintro st st' a' b' hst ⟨rfl, rfl⟩ hrun
    cases hrun
    exact ⟨hst, rfl, rfl⟩
  | cons step σ ih =>
    intro st st' a' b' hst hreach hrun
    obtain ⟨st₁, hstep, hrest⟩ := foldlM_cons_ok hrun
    cases step with
    | activity e =>
      obtain ⟨hae, hreach⟩ := hreach
      obtain ⟨st₂, hstep', hst₂, -, hact, hbal, -⟩ :=
        @running_activity _ _ info x hchain st hst e hae
      cases hstep.symm.trans hstep'
      exact ih hst₂ (hact ▸ hbal ▸ hreach) hrest
    | balance e =>
      obtain ⟨hbe, -, hreach⟩ := hreach
      obtain ⟨hst₁, -, -, hact, hbal, -⟩ := running_balance hst hbe hstep
      exact ih hst₁ (hact ▸ hbal ▸ hreach) hrest

/-- The activities of the contract that the runs add. -/
theorem run_rows (hchain : ChainOrder evs) {σ : List IndexerStep} :
    ∀ {st st' : Indexer} {a' b' : ℕ}, Running env evs info x st →
      isTracked st.db.ledger.erc20Contracts x = true →
      Reaches st.activityHeight st.balanceHeight σ a' b' →
      runIndexer env evs info σ st = .ok st' →
      contractRows x st'.db = contractRows x st.db ++
        between Erc20Activity.height st.activityHeight a' (contractHistory env evs x) := by
  induction σ with
  | nil =>
    rintro st st' a' b' - - ⟨rfl, rfl⟩ hrun
    cases hrun
    rw [between_eq_nil fun r _ hr => hr, List.append_nil]
  | cons step σ ih =>
    intro st st' a' b' hst hx hreach hrun
    obtain ⟨st₁, hstep, hrest⟩ := foldlM_cons_ok hrun
    cases step with
    | activity e =>
      obtain ⟨hae, hreach⟩ := hreach
      obtain ⟨st₂, hstep', hst₂, -, hact, hbal, hcontract⟩ :=
        @running_activity _ _ info x hchain st hst e hae
      obtain ⟨hrows, hsame⟩ := hcontract (hasContract_of_isTracked hx)
      cases hstep.symm.trans hstep'
      rw [← hact, ← hbal] at hreach
      have hx₁ : isTracked st₁.db.ledger.erc20Contracts x = true := by
        rw [isTracked, hsame.contract]
        exact hx
      rw [ih hst₂ hx₁ hreach hrest, hrows, List.append_assoc, hact, between_append]
      · exact List.Pairwise.sublist List.filter_sublist (pairwise_height hchain _)
      · exact hae
      · exact hact ▸ le_activity_of_reaches hreach
    | balance e =>
      obtain ⟨hbe, -, hreach⟩ := hreach
      obtain ⟨hst₁, hacts, -, hact, hbal, htracked⟩ := running_balance hst hbe hstep
      rw [← hact, ← hbal] at hreach
      rw [ih hst₁ (htracked.trans hx) hreach hrest, contractRows, hacts, hact]
      rfl

/-- When the stored activities of the contract are its history, the runs complete exactly when
the fold over its activities does, and leave what the fold leaves. -/
theorem run_ledger (hchain : ChainOrder evs) {σ : List IndexerStep} :
    ∀ {st : Indexer} {a' b' : ℕ}, Running env evs info x st →
      isTracked st.db.ledger.erc20Contracts x = true →
      contractRows x st.db =
        between Erc20Activity.height 0 st.activityHeight (contractHistory env evs x) →
      Reaches st.activityHeight st.balanceHeight σ a' b' →
      OkRel (fun st' m => SameContract x st'.db.ledger m) (runIndexer env evs info σ st)
        (process (contractActivities env evs st.db.accounts x st.balanceHeight b')
          st.db.ledger) := by
  induction σ with
  | nil =>
    rintro st a' b' - - - ⟨rfl, rfl⟩
    rw [contractActivities, between_eq_nil fun r _ hr => hr]
    exact ⟨fun _ => rfl, rfl⟩
  | cons step σ ih =>
    intro st a' b' hst hx hrows hreach
    rw [runIndexer, List.foldlM_cons]
    cases step with
    | activity e =>
      obtain ⟨hae, hreach⟩ := hreach
      obtain ⟨st₁, hstep, hst₁, haccounts, hact, hbal, hcontract⟩ :=
        @running_activity _ _ info x hchain st hst e hae
      obtain ⟨hrows₁, hsame⟩ := hcontract (hasContract_of_isTracked hx)
      rw [← hact, ← hbal] at hreach
      have hx₁ : isTracked st₁.db.ledger.erc20Contracts x = true := by
        rw [isTracked, hsame.contract]
        exact hx
      have hhist : contractRows x st₁.db =
          between Erc20Activity.height 0 st₁.activityHeight (contractHistory env evs x) := by
        rw [hrows₁, hrows, hact, between_append _ (Nat.zero_le _) hae]
        exact List.Pairwise.sublist List.filter_sublist (pairwise_height hchain _)
      have hrest := ih hst₁ hx₁ hhist hreach
      rw [haccounts, hbal] at hrest
      rw [hstep]
      exact hrest.trans (fun _ _ _ h h' => h.trans h')
        (process_contractActivities_same st.balanceHeight b' hsame).okRel
    | balance e =>
      obtain ⟨hbe, hea, hreach⟩ := hreach
      have hfirst := balance_contract hst hx e
      rw [hrows, between_between (Nat.zero_le _) hea] at hfirst
      rw [process_contractActivities_append hchain hbe (le_of_reaches hreach)]
      refine hfirst.bind fun st₁ m hstep hsame => ?_
      obtain ⟨hst₁, hacts, haccounts, hact, hbal, htracked⟩ := running_balance hst hbe hstep
      rw [← hact, ← hbal] at hreach
      have hrows₁ : contractRows x st₁.db =
          between Erc20Activity.height 0 st₁.activityHeight (contractHistory env evs x) := by
        rw [contractRows, hacts, hact]
        exact hrows
      have hrest := ih hst₁ (htracked.trans hx) hrows₁ hreach
      rw [haccounts, hbal] at hrest
      exact hrest.trans (fun _ _ _ h h' => h.trans h')
        (process_contractActivities_same e b' hsame).okRel

end

end Erascope.Erc20
