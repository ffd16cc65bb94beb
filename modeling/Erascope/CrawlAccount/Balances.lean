import Mathlib.Tactic
import Erascope.Lib.Table
import Erascope.Erc20.Handler

/-!
# Native balances of accounts

The model of `handleJobAccountBalances` in `services/crawl-account/crawl_account.service.ts`. A job
asks the node for the balances of its addresses, 200 denoms at most, and later resets and
rewrites the native rows of their accounts in one transaction.

* `handleIbcDenom`: the base denoms of an answer.
* `handleJobAccountBalances`: the transaction.
* `get?_of_balance`, `get?_of_no_balance`, `get?_of_not_mem`: what it writes, one row at a time.
-/

namespace Erascope.CrawlAccount

open Erc20 (BalanceType)

/-! ## 1. Rows and answers -/

/-- A row of `account_balance`. -/
structure AccountBalance where
  account_id : ℕ
  denom : String
  amount : ℕ
  base_denom : Option String
  last_updated_height : Option ℕ
  type : BalanceType
deriving DecidableEq, Repr

/-- The unique key `(account_id, denom)`. -/
def AccountBalance.key (b : AccountBalance) : ℕ × String := (b.account_id, b.denom)

/-- The table `account_balance`. -/
abbrev Balances := Table AccountBalance.key

/-- `ICoin` -/
structure ICoin where
  denom : String
  amount : ℕ
  base_denom : Option String
deriving DecidableEq, Repr

/-- The answer about an address, with the height at which the node computed it. -/
structure IAccountBalances where
  address : String
  balances : List ICoin
  last_updated_height : ℕ
deriving DecidableEq, Repr

/-- `handleIbcDenom`: the base denoms of IBC denoms, from the cache or the node; a denom without an
answer ends the job. -/
def handleIbcDenom (denomTrace : String → Option String) (balances : List ICoin) :
    Option (List ICoin) :=
  balances.mapM fun balance =>
    if balance.denom.startsWith "ibc/" then
      (denomTrace balance.denom).map fun base_denom => { balance with base_denom := some base_denom }
    else some balance

/-- `limit` of the pagination. -/
def limit : ℕ := 200

/-! ## 2. The transaction of a job -/

/-- An entry of `listAccountBalance`. -/
structure NewBalance where
  account_id : ℕ
  denom : String
  amount : ℕ
  base_denom : Option String
  last_updated_height : ℕ
deriving DecidableEq, Repr

/-- `resetBalanceList`; `accountIds` are the accounts in the database. -/
def resetBalanceList (accountIds : String → Option ℕ) (accounts : List IAccountBalances) :
    List (ℕ × ℕ) :=
  accounts.filterMap fun account =>
    (accountIds account.address).map (·, account.last_updated_height)

/-- `UPDATE account_balance SET amount = 0, last_updated_height = ...`, for one row. -/
def resetRow (resetBalanceList : List (ℕ × ℕ)) (row : AccountBalance) : AccountBalance :=
  if row.type = .native then
    match resetBalanceList.find? fun temp => temp.1 = row.account_id with
    | some temp => { row with amount := 0, last_updated_height := some temp.2 }
    | none => row
  else row

theorem key_resetRow (resetBalanceList : List (ℕ × ℕ)) (row : AccountBalance) :
    (resetRow resetBalanceList row).key = row.key := by
  unfold resetRow
  split
  · split <;> rfl
  · rfl

/-- `listAccountBalance` -/
def listAccountBalance (accountIds : String → Option ℕ) (accounts : List IAccountBalances) :
    List NewBalance :=
  accounts.flatMap fun account =>
    match accountIds account.address with
    | none => []
    | some accountId => account.balances.map fun balance =>
        { account_id := accountId
          denom := balance.denom
          amount := balance.amount
          base_denom := balance.base_denom
          last_updated_height := account.last_updated_height }

/-- `insert(...).onConflict(['account_id', 'denom']).merge()`, for one entry: the type of an
existing row stays, and so does its base denom when no entry has one. -/
def mergeRow (table : Balances) (withBaseDenom : Bool) (entry : NewBalance) : AccountBalance :=
  match table.get? (entry.account_id, entry.denom) with
  | none =>
    { account_id := entry.account_id
      denom := entry.denom
      amount := entry.amount
      base_denom := entry.base_denom
      last_updated_height := some entry.last_updated_height
      type := .native }
  | some row =>
    { account_id := entry.account_id
      denom := entry.denom
      amount := entry.amount
      base_denom := if withBaseDenom then entry.base_denom else row.base_denom
      last_updated_height := some entry.last_updated_height
      type := row.type }

/-- The transaction of `handleJobAccountBalances`. Without accounts the first statement is not
valid, and an insert may not write a row twice: both roll the transaction back. -/
def handleJobAccountBalances (accountIds : String → Option ℕ) (accounts : List IAccountBalances)
    (table : Balances) : Balances :=
  let reset := resetBalanceList accountIds accounts
  let list := listAccountBalance accountIds accounts
  if reset = [] ∨ ¬ (list.map fun e => (e.account_id, e.denom)).Nodup then table
  else
    let table := table.mapRows (resetRow reset) (key_resetRow reset)
    table.upsertAll (list.map (mergeRow table (list.any (·.base_denom.isSome))))

/-! ## 3. What a transaction writes -/

/-- Account ids are unique. -/
def Injective (accountIds : String → Option ℕ) : Prop :=
  ∀ a b id, accountIds a = some id → accountIds b = some id → a = b

/-- The answers of a job: distinct addresses, and distinct denoms of each. -/
structure Answers (accounts : List IAccountBalances) : Prop where
  addresses : (accounts.map (·.address)).Nodup
  denoms : ∀ account ∈ accounts, (account.balances.map (·.denom)).Nodup

namespace BalanceLemmas

variable {accountIds : String → Option ℕ} {accounts : List IAccountBalances} {table : Balances}
  {account : IAccountBalances} {id : ℕ}

theorem account_unique (hinj : Injective accountIds) (ha : Answers accounts)
    {account' : IAccountBalances} (hmem : account ∈ accounts) (hmem' : account' ∈ accounts)
    (hid : accountIds account.address = some id) (hid' : accountIds account'.address = some id) :
    account' = account :=
  List.inj_on_of_nodup_map ha.addresses hmem' hmem (hinj _ _ id hid' hid)

theorem find?_resetBalanceList (hinj : Injective accountIds) (ha : Answers accounts)
    (hmem : account ∈ accounts) (hid : accountIds account.address = some id) :
    (resetBalanceList accountIds accounts).find? (fun temp => temp.1 = id) =
      some (id, account.last_updated_height) := by
  have hin : (id, account.last_updated_height) ∈ resetBalanceList accountIds accounts :=
    List.mem_filterMap.mpr ⟨account, hmem, by rw [hid, Option.map_some]⟩
  obtain ⟨temp, htemp⟩ : ∃ temp, (resetBalanceList accountIds accounts).find?
      (fun temp => temp.1 = id) = some temp :=
    Option.isSome_iff_exists.mp (List.find?_isSome.mpr ⟨_, hin, by simp⟩)
  obtain ⟨account', hmem', heq⟩ := List.mem_filterMap.mp (List.mem_of_find?_eq_some htemp)
  obtain ⟨id', hid', rfl⟩ := Option.map_eq_some_iff.mp heq
  have hsame := List.find?_some htemp
  obtain rfl : id' = id := of_decide_eq_true hsame
  rw [htemp, account_unique hinj ha hmem hmem' hid hid']

theorem mem_listAccountBalance {entry : NewBalance} :
    entry ∈ listAccountBalance accountIds accounts ↔ ∃ account ∈ accounts,
      accountIds account.address = some entry.account_id ∧ ∃ balance ∈ account.balances,
        entry = ⟨entry.account_id, balance.denom, balance.amount, balance.base_denom,
          account.last_updated_height⟩ := by
  rw [listAccountBalance, List.mem_flatMap]
  refine exists_congr fun account => and_congr_right fun _ => ?_
  cases hid : accountIds account.address with
  | none => simp
  | some id =>
    simp only [List.mem_map, Option.some.injEq]
    constructor
    · rintro ⟨balance, hbalance, rfl⟩
      exact ⟨rfl, balance, hbalance, rfl⟩
    · rintro ⟨rfl, balance, hbalance, heq⟩
      exact ⟨balance, hbalance, heq.symm⟩

theorem nodup_listAccountBalance (hinj : Injective accountIds) (ha : Answers accounts) :
    ((listAccountBalance accountIds accounts).map fun e => (e.account_id, e.denom)).Nodup := by
  rw [listAccountBalance, List.map_flatMap, List.nodup_flatMap]
  refine ⟨fun account hmem => ?_, ?_⟩
  · cases accountIds account.address with
    | none => exact List.nodup_nil
    | some id =>
      have hnodup := (ha.denoms account hmem).map (f := fun d => (id, d)) fun _ _ h =>
        congrArg Prod.snd h
      rw [List.map_map] at hnodup ⊢
      exact hnodup
  · have hpair := List.pairwise_map.mp ha.addresses
    refine hpair.imp_of_mem fun {a b} _ _ hne => ?_
    rw [Function.onFun, List.disjoint_left]
    intro k hka hkb
    -- a key of two accounts would be the same account
    have hid : ∀ (c : IAccountBalances), k ∈ List.map (fun e : NewBalance => (e.account_id, e.denom))
        (match accountIds c.address with
        | none => []
        | some accountId => c.balances.map fun balance =>
            ⟨accountId, balance.denom, balance.amount, balance.base_denom, c.last_updated_height⟩) →
        accountIds c.address = some k.1 := by
      intro c hk
      cases hc : accountIds c.address with
      | none =>
        rw [hc] at hk
        cases hk
      | some id =>
        rw [hc] at hk
        simp only [List.map_map, List.mem_map, Function.comp_apply] at hk
        obtain ⟨balance, -, rfl⟩ := hk
        rfl
    exact hne (hinj _ _ k.1 (hid a hka) (hid b hkb))

@[simp] theorem key_mergeRow (table : Balances) (withBaseDenom : Bool) (entry : NewBalance) :
    (mergeRow table withBaseDenom entry).key = (entry.account_id, entry.denom) := by
  unfold mergeRow
  split <;> rfl

/-- The row of an account that is not in the job stays. -/
theorem get?_of_not_mem (hnot : ∀ account ∈ accounts, accountIds account.address ≠ some id)
    (denom : String) :
    (handleJobAccountBalances accountIds accounts table).get? (id, denom) =
      table.get? (id, denom) := by
  simp only [handleJobAccountBalances]
  split
  · rfl
  · rw [Table.get?_upsertAll_of_ne, Table.get?_mapRows]
    · cases hrow : table.get? (id, denom) with
      | none => rfl
      | some row =>
        have hkey : row.account_id = id := congrArg Prod.fst (Table.key_of_get? hrow)
        have hfind : (resetBalanceList accountIds accounts).find?
            (fun temp => temp.1 = row.account_id) = none := by
          rw [List.find?_eq_none]
          intro temp htemp
          obtain ⟨account, hmem, heq⟩ := List.mem_filterMap.mp htemp
          obtain ⟨id', hid', rfl⟩ := Option.map_eq_some_iff.mp heq
          rw [hkey]
          simp only [decide_eq_true_eq]
          rintro rfl
          exact hnot account hmem hid'
        rw [Option.map_some, resetRow, hfind]
        split <;> rfl
    · intro r hr hkey
      obtain ⟨entry, hentry, rfl⟩ := List.mem_map.mp hr
      obtain ⟨account, hmem, hid, -⟩ := mem_listAccountBalance.mp hentry
      rw [key_mergeRow] at hkey
      exact hnot account hmem (hid.trans (congrArg some (congrArg Prod.fst hkey)))

/-- The rows of an account in the job before the insert. -/
theorem get?_reset (hinj : Injective accountIds) (ha : Answers accounts) (hmem : account ∈ accounts)
    (hid : accountIds account.address = some id) (denom : String) :
    (table.mapRows (resetRow (resetBalanceList accountIds accounts)) (key_resetRow _)).get?
        (id, denom) =
      (table.get? (id, denom)).map fun row =>
        if row.type = .native then
          { row with amount := 0, last_updated_height := some account.last_updated_height }
        else row := by
  rw [Table.get?_mapRows]
  cases hrow : table.get? (id, denom) with
  | none => rfl
  | some row =>
    have hkey : row.account_id = id := congrArg Prod.fst (Table.key_of_get? hrow)
    rw [Option.map_some, Option.map_some, resetRow, hkey,
      find?_resetBalanceList hinj ha hmem hid]

theorem handleJobAccountBalances_eq (hinj : Injective accountIds) (ha : Answers accounts)
    (hmem : account ∈ accounts) (hid : accountIds account.address = some id) :
    ∃ withBaseDenom, handleJobAccountBalances accountIds accounts table =
      (table.mapRows (resetRow (resetBalanceList accountIds accounts)) (key_resetRow _)).upsertAll
        ((listAccountBalance accountIds accounts).map (mergeRow (table.mapRows
          (resetRow (resetBalanceList accountIds accounts)) (key_resetRow _)) withBaseDenom)) := by
  refine ⟨(listAccountBalance accountIds accounts).any (·.base_denom.isSome), ?_⟩
  have hne : resetBalanceList accountIds accounts ≠ [] := by
    intro hnil
    have hfind := find?_resetBalanceList hinj ha hmem hid
    rw [hnil] at hfind
    cases hfind
  have hnodup := nodup_listAccountBalance hinj ha
  simp only [handleJobAccountBalances]
  rw [if_neg]
  rintro (h | h)
  · exact hne h
  · exact h hnodup

/-- A denom of the answer. -/
theorem get?_of_balance (hinj : Injective accountIds) (ha : Answers accounts)
    (hmem : account ∈ accounts) (hid : accountIds account.address = some id) {balance : ICoin}
    (hbalance : balance ∈ account.balances) :
    ∃ row, (handleJobAccountBalances accountIds accounts table).get? (id, balance.denom) = some row ∧
      row.amount = balance.amount ∧
      row.last_updated_height = some account.last_updated_height ∧
      row.type = ((table.get? (id, balance.denom)).map (·.type)).getD .native := by
  obtain ⟨withBaseDenom, heq⟩ :=
    @handleJobAccountBalances_eq accountIds accounts table account id hinj ha hmem hid
  set t := table.mapRows (resetRow (resetBalanceList accountIds accounts)) (key_resetRow _) with ht
  set entry : NewBalance := ⟨id, balance.denom, balance.amount, balance.base_denom,
    account.last_updated_height⟩ with hentry
  have hin : entry ∈ listAccountBalance accountIds accounts :=
    mem_listAccountBalance.mpr ⟨account, hmem, hid, balance, hbalance, rfl⟩
  have honly : ∀ r' ∈ (listAccountBalance accountIds accounts).map (mergeRow t withBaseDenom),
      r'.key = (mergeRow t withBaseDenom entry).key → r' = mergeRow t withBaseDenom entry := by
    intro r' hr' hkey
    obtain ⟨entry', hentry', rfl⟩ := List.mem_map.mp hr'
    rw [key_mergeRow, key_mergeRow] at hkey
    rw [List.inj_on_of_nodup_map (nodup_listAccountBalance hinj ha) hentry' hin hkey]
  have hget := @Table.get?_upsertAll_of_mem _ _ _ _ t _ _ (List.mem_map_of_mem hin) honly
  rw [key_mergeRow] at hget
  have hreset := @get?_reset accountIds accounts table account id hinj ha hmem hid balance.denom
  refine ⟨mergeRow t withBaseDenom entry, by rw [heq]; exact hget, ?_⟩
  rw [mergeRow, ht, hreset]
  cases hrow : table.get? (id, balance.denom) with
  | none => exact ⟨rfl, rfl, rfl⟩
  | some row =>
    refine ⟨rfl, rfl, ?_⟩
    simp only [Option.map_some, Option.getD_some]
    split <;> rfl

/-- A denom that is not in the answer. -/
theorem get?_of_no_balance (hinj : Injective accountIds) (ha : Answers accounts)
    (hmem : account ∈ accounts) (hid : accountIds account.address = some id) {denom : String}
    (hnot : denom ∉ account.balances.map (·.denom)) :
    (handleJobAccountBalances accountIds accounts table).get? (id, denom) =
      (table.get? (id, denom)).map fun row =>
        if row.type = .native then
          { row with amount := 0, last_updated_height := some account.last_updated_height }
        else row := by
  obtain ⟨withBaseDenom, heq⟩ :=
    @handleJobAccountBalances_eq accountIds accounts table account id hinj ha hmem hid
  rw [heq, Table.get?_upsertAll_of_ne, get?_reset hinj ha hmem hid]
  intro r hr hkey
  obtain ⟨entry, hentry, rfl⟩ := List.mem_map.mp hr
  obtain ⟨account', hmem', hid', balance, hbalance, hbal⟩ := mem_listAccountBalance.mp hentry
  rw [key_mergeRow] at hkey
  have hidEq : entry.account_id = id := congrArg Prod.fst hkey
  have hdenom : entry.denom = denom := congrArg Prod.snd hkey
  obtain rfl := account_unique hinj ha hmem hmem' hid (hid'.trans (congrArg some hidEq))
  refine hnot (List.mem_map.mpr ⟨balance, hbalance, ?_⟩)
  rw [← hdenom, hbal]

end BalanceLemmas

end Erascope.CrawlAccount
