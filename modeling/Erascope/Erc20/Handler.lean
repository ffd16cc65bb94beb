import Mathlib.Tactic
import Erascope.Lib.Fold

/-!
# The ERC20 handler

The model of `Erc20Handler.process` in `services/evm/erc20_handler.ts`: a fold of activities
over a dictionary of account balances and a dictionary of contracts. A transfer takes from one
balance and adds to another; the zero address stands for minting and burning, which change the
total supply instead, if the contract has one.

Results:
1. `process_conserves`: wherever the fold completes, the balances of a contract move with its
   total supply, and each balance moves by what its account received and sent.
2. `process_effect`: the closed form of the fold, one row at a time. `process_ok_iff`: the fold
   completes exactly when no balance is ahead of an activity that touches it.
-/

namespace Erascope.Erc20

/-! ## 1. Rows -/

/-- `ERC20_ACTION`, or any other text. -/
inductive Erc20Action
  | transfer | approval | deposit | withdrawal
  | other (name : String)
deriving DecidableEq, Repr

/-- The zero address. -/
def ZERO_ADDRESS : String := "0x0000000000000000000000000000000000000000"

/-- A row of `erc20_activity`. -/
structure Erc20Activity where
  evm_event_id : Option ℕ
  sender : Option String
  action : Erc20Action
  erc20_contract_address : String
  amount : Option ℤ
  fromAddress : Option String
  toAddress : Option String
  height : ℕ
  tx_hash : String
  evm_tx_id : Option ℕ
  cosmos_tx_id : ℕ
  cosmos_event_id : Option ℕ
deriving DecidableEq, Repr

/-- A row of `getErc20Activities`, with the accounts of its two addresses joined. -/
structure JoinedActivity extends Erc20Activity where
  from_account_id : Option ℕ
  to_account_id : Option ℕ
deriving DecidableEq, Repr

/-- `AccountBalance.TYPE` -/
inductive BalanceType
  | native | erc20Token
deriving DecidableEq, Repr

/-- A row of `account_balance`. -/
structure AccountBalance where
  account_id : Option ℕ
  denom : String
  amount : ℤ
  last_updated_height : ℕ
  type : BalanceType
deriving DecidableEq, Repr

/-- The key `{account_id}_{denom}`. -/
def AccountBalance.key (b : AccountBalance) : Option ℕ × String := (b.account_id, b.denom)

/-- The table `account_balance`, or a dictionary of its rows. -/
abbrev Balances := Table AccountBalance.key

/-- A row of `erc20_contract`. -/
structure Erc20Contract where
  address : String
  total_supply : Option ℤ
  track : Bool
  last_updated_height : ℤ
deriving DecidableEq, Repr

/-- The table `erc20_contract`, or a dictionary of its rows. -/
abbrev Contracts := Table Erc20Contract.address

/-- The two dictionaries of an `Erc20Handler`. -/
structure Ledger where
  accountBalances : Balances
  erc20Contracts : Contracts

/-- What ends a run. -/
inductive Erc20Error
  /-- `Erc20 contract not found:${erc20_contract_address}` -/
  | contractNotFound (address : String)
  /-- `Process erc20 balance: fromAccountBalance ${from} was updated` -/
  | fromWasUpdated (address : Option String)
  /-- `Process erc20 balance: toAccountBalance ${to} was updated` -/
  | toWasUpdated (address : Option String)
  /-- The `TypeError` of `BigInt(null)`. -/
  | amountMissing
  /-- `account_balance.account_id` is not nullable. -/
  | accountMissing
  /-- `convertEthAddressToBech32Address` of a null address. -/
  | addressMissing
  /-- `evmSmartContracts[addr].id` of an address without a smart contract. -/
  | smartContractMissing (address : String)
  /-- `throwIfNotFound` of the contract to reindex. -/
  | notFound
  /-- `Missing accounts ${missingAccountsAddress}. You should reindex them` -/
  | missingAccounts
deriving DecidableEq, Repr

/-- The two errors that end in `was updated`. -/
def Erc20Error.isWasUpdated : Erc20Error → Bool
  | .fromWasUpdated _ | .toWasUpdated _ => true
  | _ => false

/-! ## 2. The handler -/

/-- The actions that `process` handles. -/
def movesTokens : Erc20Action → Bool
  | .transfer | .deposit | .withdrawal => true
  | .approval | .other _ => false

/-- One side of a transfer: add `sign * amount` to the balance of an account, unless the balance
was updated at a greater height. -/
def updateBalance (accountId : Option ℕ) (sign : ℤ) (wasUpdated : Erc20Error)
    (activity : JoinedActivity) (l : Ledger) : Except Erc20Error Ledger :=
  let key := (accountId, activity.erc20_contract_address)
  let accountBalance := l.accountBalances.get? key
  if accountBalance.any fun b => activity.height < b.last_updated_height then .error wasUpdated
  else
    match activity.amount with
    | none => .error .amountMissing
    | some amount =>
      .ok { l with
        accountBalances := l.accountBalances.upsert
          { account_id := accountId
            denom := activity.erc20_contract_address
            amount := (accountBalance.map (·.amount)).getD 0 + sign * amount
            last_updated_height := activity.height
            type := .erc20Token } }

/-- The zero address on one side: add `sign * amount` to the total supply, if there is one. -/
def updateSupply (sign : ℤ) (activity : JoinedActivity) (l : Ledger) : Except Erc20Error Ledger :=
  match l.erc20Contracts.get? activity.erc20_contract_address with
  | none => .ok l
  | some erc20Contract =>
    match erc20Contract.total_supply with
    | none => .ok l
    | some supply =>
      match activity.amount with
      | none => .error .amountMissing
      | some amount =>
        .ok { l with
          erc20Contracts := l.erc20Contracts.upsert { erc20Contract with
            total_supply := some (supply + sign * amount)
            last_updated_height := activity.height } }

/-- The address on one side of a transfer: its balance or, for the zero address, the supply. -/
def updateSide (address : Option String) (accountId : Option ℕ) (sign : ℤ)
    (wasUpdated : Erc20Error) (activity : JoinedActivity) (l : Ledger) : Except Erc20Error Ledger :=
  if address ≠ some ZERO_ADDRESS then updateBalance accountId sign wasUpdated activity l
  else updateSupply (-sign) activity l

/-- `handlerErc20Transfer` -/
def handlerErc20Transfer (l : Ledger) (activity : JoinedActivity) : Except Erc20Error Ledger :=
  if l.erc20Contracts.get? activity.erc20_contract_address = none then
    .error (.contractNotFound activity.erc20_contract_address)
  else do
    let l ← updateSide activity.fromAddress activity.from_account_id (-1)
      (.fromWasUpdated activity.fromAddress) activity l
    updateSide activity.toAddress activity.to_account_id 1
      (.toWasUpdated activity.toAddress) activity l

/-- The body of the loop of `process`. -/
def processActivity (l : Ledger) (activity : JoinedActivity) : Except Erc20Error Ledger :=
  if movesTokens activity.action then handlerErc20Transfer l activity else .ok l

/-- `process` -/
def process (erc20Activities : List JoinedActivity) (l : Ledger) : Except Erc20Error Ledger :=
  erc20Activities.foldlM processActivity l

/-! ## 3. What a ledger says -/

/-- The amount of a balance; a missing one counts as `0`. -/
def amountOf (l : Ledger) (k : Option ℕ × String) : ℤ :=
  ((l.accountBalances.get? k).map (·.amount)).getD 0

/-- The height of a balance; a missing one counts as `0`. -/
def lastOf (l : Ledger) (k : Option ℕ × String) : ℕ :=
  ((l.accountBalances.get? k).map (·.last_updated_height)).getD 0

/-- The sum of all balances of a contract. -/
def balanceSum (l : Ledger) (x : String) : ℤ :=
  l.accountBalances.sum fun b => if b.denom = x then b.amount else 0

/-- The total supply of a contract: `none` without a row, `some none` for null. -/
def supplyOf (l : Ledger) (x : String) : Option (Option ℤ) :=
  (l.erc20Contracts.get? x).map (·.total_supply)

/-- The amount of an activity. -/
def value (activity : JoinedActivity) : ℤ := activity.amount.getD 0

/-- The balance that an activity takes from. -/
def debitKey (activity : JoinedActivity) : Option (Option ℕ × String) :=
  if activity.fromAddress ≠ some ZERO_ADDRESS then
    some (activity.from_account_id, activity.erc20_contract_address)
  else none

/-- The balance that an activity adds to. -/
def creditKey (activity : JoinedActivity) : Option (Option ℕ × String) :=
  if activity.toAddress ≠ some ZERO_ADDRESS then
    some (activity.to_account_id, activity.erc20_contract_address)
  else none

/-- What an activity adds to a balance. -/
def received (k : Option ℕ × String) (activity : JoinedActivity) : ℤ :=
  if movesTokens activity.action ∧ creditKey activity = some k then value activity else 0

/-- What an activity takes from a balance. -/
def sent (k : Option ℕ × String) (activity : JoinedActivity) : ℤ :=
  if movesTokens activity.action ∧ debitKey activity = some k then value activity else 0

/-- What an activity mints of a contract, or burns. -/
def minted (x : String) (activity : JoinedActivity) : ℤ :=
  if movesTokens activity.action ∧ activity.erc20_contract_address = x then
    (if activity.fromAddress = some ZERO_ADDRESS then value activity else 0) -
      (if activity.toAddress = some ZERO_ADDRESS then value activity else 0)
  else 0

/-- The activity takes from the balance or adds to it. -/
def touches (k : Option ℕ × String) (activity : JoinedActivity) : Prop :=
  movesTokens activity.action ∧ (debitKey activity = some k ∨ creditKey activity = some k)

instance (k : Option ℕ × String) (activity : JoinedActivity) : Decidable (touches k activity) :=
  inferInstanceAs (Decidable (_ ∧ _))

/-- The row of a balance after an activity. -/
def bumpBalance (k : Option ℕ × String) (b : Option AccountBalance) (activity : JoinedActivity) :
    Option AccountBalance :=
  if touches k activity then
    some
      { account_id := k.1
        denom := k.2
        amount := (b.map (·.amount)).getD 0 + (received k activity - sent k activity)
        last_updated_height := activity.height
        type := .erc20Token }
  else b

/-- Add to a total supply, if there is one. -/
def addSupply (n : ℤ) (height : ℕ) (c : Erc20Contract) : Erc20Contract :=
  match c.total_supply with
  | none => c
  | some supply => { c with total_supply := some (supply + n), last_updated_height := height }

/-- The row of a contract after an activity. -/
def bumpContract (x : String) (c : Option Erc20Contract) (activity : JoinedActivity) :
    Option Erc20Contract :=
  if movesTokens activity.action ∧ activity.erc20_contract_address = x ∧
      (activity.fromAddress = some ZERO_ADDRESS ∨ activity.toAddress = some ZERO_ADDRESS) then
    c.map (addSupply (minted x activity) activity.height)
  else c

/-! ## 4. One activity -/

namespace HandlerLemmas

/-- When a side of a transfer goes through, and what it writes. -/
theorem updateBalance_ok_iff {accountId : Option ℕ} {sign : ℤ} {err : Erc20Error}
    {a : JoinedActivity} {l l' : Ledger} :
    updateBalance accountId sign err a l = .ok l' ↔
      a.amount ≠ none ∧ lastOf l (accountId, a.erc20_contract_address) ≤ a.height ∧
      l' = { l with
        accountBalances := l.accountBalances.upsert
          { account_id := accountId
            denom := a.erc20_contract_address
            amount := amountOf l (accountId, a.erc20_contract_address) + sign * value a
            last_updated_height := a.height
            type := .erc20Token } } := by
  have hany : ((l.accountBalances.get? (accountId, a.erc20_contract_address)).any
      fun b => decide (a.height < b.last_updated_height)) = true ↔
      ¬ lastOf l (accountId, a.erc20_contract_address) ≤ a.height := by
    unfold lastOf
    cases l.accountBalances.get? (accountId, a.erc20_contract_address) <;> simp
  unfold updateBalance
  simp only [hany]
  by_cases hle : lastOf l (accountId, a.erc20_contract_address) ≤ a.height
  · simp only [hle, not_true_eq_false, if_false, true_and]
    cases hamount : a.amount with
    | none => simp
    | some amount => simp [value, hamount, amountOf, eq_comm]
  · simp [hle]

/-- What a side of a transfer does to the balances of a contract together. -/
theorem balanceSum_updateBalance {accountId : Option ℕ} {sign : ℤ} {err : Erc20Error}
    {a : JoinedActivity} {l l' : Ledger} (h : updateBalance accountId sign err a l = .ok l')
    (x : String) :
    balanceSum l' x =
      balanceSum l x + if a.erc20_contract_address = x then sign * value a else 0 := by
  obtain ⟨-, -, rfl⟩ := updateBalance_ok_iff.mp h
  unfold balanceSum
  simp only [Table.sum_upsert, AccountBalance.key]
  cases hrow : l.accountBalances.get? (accountId, a.erc20_contract_address) with
  | none => split <;> simp [amountOf, hrow]
  | some b =>
    have hdenom : b.denom = a.erc20_contract_address := congrArg Prod.snd (Table.key_of_get? hrow)
    by_cases hx : a.erc20_contract_address = x
    · subst hx
      simp only [amountOf, hrow, hdenom, Option.map_some, Option.getD_some, if_true]
      ring
    · simp [hdenom, hx]

theorem get?_updateBalance {accountId : Option ℕ} {sign : ℤ} {err : Erc20Error}
    {a : JoinedActivity} {l l' : Ledger} (h : updateBalance accountId sign err a l = .ok l')
    (k : Option ℕ × String) :
    l'.accountBalances.get? k =
      if (accountId, a.erc20_contract_address) = k then
        some
          { account_id := k.1
            denom := k.2
            amount := amountOf l k + sign * value a
            last_updated_height := a.height
            type := .erc20Token }
      else l.accountBalances.get? k := by
  obtain ⟨-, -, rfl⟩ := updateBalance_ok_iff.mp h
  rw [Table.get?_upsert]
  by_cases hk : (accountId, a.erc20_contract_address) = k
  · subst hk
    simp [AccountBalance.key]
  · rw [if_neg hk]
    exact if_neg hk

theorem erc20Contracts_updateBalance {accountId : Option ℕ} {sign : ℤ} {err : Erc20Error}
    {a : JoinedActivity} {l l' : Ledger} (h : updateBalance accountId sign err a l = .ok l') :
    l'.erc20Contracts = l.erc20Contracts := by
  obtain ⟨-, -, rfl⟩ := updateBalance_ok_iff.mp h
  rfl

/-- When a change of the supply goes through, and what it writes. -/
theorem updateSupply_ok {sign : ℤ} {a : JoinedActivity} {l l' : Ledger}
    (h : updateSupply sign a l = .ok l') :
    l'.accountBalances = l.accountBalances ∧
    ∀ x, l'.erc20Contracts.get? x =
      if a.erc20_contract_address = x then
        (l.erc20Contracts.get? x).map (addSupply (sign * value a) a.height)
      else l.erc20Contracts.get? x := by
  unfold updateSupply at h
  cases hrow : l.erc20Contracts.get? a.erc20_contract_address with
  | none =>
    simp only [hrow, Except.ok.injEq] at h
    subst h
    refine ⟨rfl, fun x => ?_⟩
    split
    · next hx => subst hx; rw [hrow]; rfl
    · rfl
  | some c =>
    have haddr : c.address = a.erc20_contract_address := Table.key_of_get? hrow
    cases hsupply : c.total_supply with
    | none =>
      simp only [hrow, hsupply, Except.ok.injEq] at h
      subst h
      refine ⟨rfl, fun x => ?_⟩
      split
      · next hx =>
        subst hx
        simp [hrow, addSupply, hsupply]
      · rfl
    | some supply =>
      cases hamount : a.amount with
      | none => simp only [hrow, hsupply, hamount, reduceCtorEq] at h
      | some amount =>
        simp only [hrow, hsupply, hamount, Except.ok.injEq] at h
        subst h
        refine ⟨rfl, fun x => ?_⟩
        simp only [Table.get?_upsert, haddr]
        split
        · next hx =>
          subst hx
          simp [hrow, addSupply, hsupply, value, hamount, haddr]
        · rfl

theorem updateSupply_isOk {sign : ℤ} {a : JoinedActivity} {l : Ledger} (h : a.amount ≠ none) :
    ∃ l', updateSupply sign a l = .ok l' := by
  unfold updateSupply
  obtain ⟨amount, hamount⟩ := Option.ne_none_iff_exists'.mp h
  cases l.erc20Contracts.get? a.erc20_contract_address with
  | none => exact ⟨_, rfl⟩
  | some c => cases hs : c.total_supply <;> simp [hs, hamount]

theorem get?_updateSide {address : Option String} {accountId : Option ℕ} {sign : ℤ}
    {err : Erc20Error} {a : JoinedActivity} {l l' : Ledger}
    (h : updateSide address accountId sign err a l = .ok l') (k : Option ℕ × String) :
    l'.accountBalances.get? k =
      if address ≠ some ZERO_ADDRESS ∧ (accountId, a.erc20_contract_address) = k then
        some
          { account_id := k.1
            denom := k.2
            amount := amountOf l k + sign * value a
            last_updated_height := a.height
            type := .erc20Token }
      else l.accountBalances.get? k := by
  unfold updateSide at h
  split at h
  · next hz => simpa only [hz, ne_eq, not_false_eq_true, true_and] using get?_updateBalance h k
  · next hz => simp only [hz, false_and, if_false, (updateSupply_ok h).1]

theorem contract_updateSide {address : Option String} {accountId : Option ℕ} {sign : ℤ}
    {err : Erc20Error} {a : JoinedActivity} {l l' : Ledger}
    (h : updateSide address accountId sign err a l = .ok l') (x : String) :
    l'.erc20Contracts.get? x =
      if address = some ZERO_ADDRESS ∧ a.erc20_contract_address = x then
        (l.erc20Contracts.get? x).map (addSupply (-sign * value a) a.height)
      else l.erc20Contracts.get? x := by
  unfold updateSide at h
  split at h
  · next hz =>
    rw [erc20Contracts_updateBalance h, if_neg (fun hx => hz hx.1)]
  · next hz =>
    rw [(updateSupply_ok h).2 x]
    simp only [not_not.mp hz, true_and]

theorem balanceSum_updateSide {address : Option String} {accountId : Option ℕ} {sign : ℤ}
    {err : Erc20Error} {a : JoinedActivity} {l l' : Ledger}
    (h : updateSide address accountId sign err a l = .ok l') (x : String) :
    balanceSum l' x = balanceSum l x +
      if address ≠ some ZERO_ADDRESS ∧ a.erc20_contract_address = x then sign * value a else 0 := by
  unfold updateSide at h
  split at h
  · next hz => simpa only [hz, ne_eq, not_false_eq_true, true_and] using balanceSum_updateBalance h x
  · next hz =>
    unfold balanceSum
    simp only [hz, false_and, if_false, (updateSupply_ok h).1, add_zero]

theorem updateSide_isOk_iff {address : Option String} {accountId : Option ℕ} {sign : ℤ}
    {err : Erc20Error} {a : JoinedActivity} {l : Ledger} (hamount : a.amount ≠ none) :
    (∃ l', updateSide address accountId sign err a l = .ok l') ↔
      (address ≠ some ZERO_ADDRESS →
        lastOf l (accountId, a.erc20_contract_address) ≤ a.height) := by
  unfold updateSide
  split
  · next hz => simp [updateBalance_ok_iff, hamount, hz]
  · next hz => simp [hz, updateSupply_isOk hamount]

theorem handlerErc20Transfer_ok {a : JoinedActivity} {l l' : Ledger}
    (h : handlerErc20Transfer l a = .ok l') :
    ∃ m, updateSide a.fromAddress a.from_account_id (-1) (.fromWasUpdated a.fromAddress) a l =
        .ok m ∧
      updateSide a.toAddress a.to_account_id 1 (.toWasUpdated a.toAddress) a m = .ok l' := by
  unfold handlerErc20Transfer at h
  split at h
  · cases h
  · exact bind_ok h

theorem addSupply_addSupply (m n : ℤ) (height : ℕ) (c : Erc20Contract) :
    addSupply m height (addSupply n height c) = addSupply (n + m) height c := by
  cases h : c.total_supply <;> simp [addSupply, h, add_assoc]

theorem debitKey_eq_some_iff {a : JoinedActivity} {k : Option ℕ × String} :
    debitKey a = some k ↔
      a.fromAddress ≠ some ZERO_ADDRESS ∧ (a.from_account_id, a.erc20_contract_address) = k := by
  unfold debitKey
  split <;> simp_all

theorem creditKey_eq_some_iff {a : JoinedActivity} {k : Option ℕ × String} :
    creditKey a = some k ↔
      a.toAddress ≠ some ZERO_ADDRESS ∧ (a.to_account_id, a.erc20_contract_address) = k := by
  unfold creditKey
  split <;> simp_all

/-- The balances after one activity. -/
theorem balance_processActivity {a : JoinedActivity} {l l' : Ledger}
    (h : processActivity l a = .ok l') (k : Option ℕ × String) :
    l'.accountBalances.get? k = bumpBalance k (l.accountBalances.get? k) a := by
  unfold processActivity at h
  split at h
  · next hmoves =>
    obtain ⟨m, hfrom, hto⟩ := handlerErc20Transfer_ok h
    have hm := get?_updateSide hfrom k
    have hl := get?_updateSide hto k
    simp only [← debitKey_eq_some_iff] at hm
    simp only [← creditKey_eq_some_iff] at hl
    rw [hl, bumpBalance]
    simp only [touches, received, sent, hmoves, true_and, amountOf, hm]
    -- a self-transfer writes the same row twice
    by_cases hd : debitKey a = some k <;> by_cases hc : creditKey a = some k <;>
      simp [hd, hc]
  · next hmoves =>
    cases h
    simp [bumpBalance, touches, hmoves]

/-- The contracts after one activity. -/
theorem contract_processActivity {a : JoinedActivity} {l l' : Ledger}
    (h : processActivity l a = .ok l') (x : String) :
    l'.erc20Contracts.get? x = bumpContract x (l.erc20Contracts.get? x) a := by
  unfold processActivity at h
  split at h
  · next hmoves =>
    obtain ⟨m, hfrom, hto⟩ := handlerErc20Transfer_ok h
    rw [contract_updateSide hto x, contract_updateSide hfrom x, bumpContract]
    by_cases hx : a.erc20_contract_address = x
    · by_cases hf : a.fromAddress = some ZERO_ADDRESS <;>
        by_cases ht : a.toAddress = some ZERO_ADDRESS <;>
        simp [hx, hf, ht, hmoves, minted, Option.map_map, Function.comp_def, addSupply_addSupply]
    · simp [hx]
  · next hmoves =>
    cases h
    simp [bumpContract, hmoves]

/-- The balances of a contract together, after one activity. -/
theorem balanceSum_processActivity {a : JoinedActivity} {l l' : Ledger}
    (h : processActivity l a = .ok l') (x : String) :
    balanceSum l' x = balanceSum l x + minted x a := by
  unfold processActivity at h
  split at h
  · next hmoves =>
    obtain ⟨m, hfrom, hto⟩ := handlerErc20Transfer_ok h
    rw [balanceSum_updateSide hto x, balanceSum_updateSide hfrom x, minted]
    by_cases hx : a.erc20_contract_address = x
    · by_cases hf : a.fromAddress = some ZERO_ADDRESS <;>
        by_cases ht : a.toAddress = some ZERO_ADDRESS <;> simp [hx, hf, ht, hmoves]
    · simp [hx]
  · next hmoves =>
    cases h
    simp [minted, hmoves]

theorem lastOf_eq {l l' : Ledger} {k : Option ℕ × String} {a : JoinedActivity}
    (h : l'.accountBalances.get? k = bumpBalance k (l.accountBalances.get? k) a) :
    lastOf l' k = if touches k a then a.height else lastOf l k := by
  rw [lastOf, h, bumpBalance]
  split <;> rfl

theorem lastOf_updateSide {address : Option String} {accountId : Option ℕ} {sign : ℤ}
    {err : Erc20Error} {a : JoinedActivity} {l l' : Ledger}
    (h : updateSide address accountId sign err a l = .ok l') (k : Option ℕ × String) :
    lastOf l' k =
      if address ≠ some ZERO_ADDRESS ∧ (accountId, a.erc20_contract_address) = k then a.height
      else lastOf l k := by
  rw [lastOf, get?_updateSide h k]
  split <;> rfl

/-- An activity goes through exactly when no balance it touches is ahead of it. -/
theorem processActivity_isOk_iff {a : JoinedActivity} {l : Ledger}
    (hamount : movesTokens a.action → a.amount ≠ none)
    (hcontract : movesTokens a.action → l.erc20Contracts.get? a.erc20_contract_address ≠ none) :
    (∃ l', processActivity l a = .ok l') ↔ ∀ k, touches k a → lastOf l k ≤ a.height := by
  unfold processActivity
  split
  · next hmoves =>
    constructor
    · rintro ⟨l', h⟩ k ⟨-, htouch⟩
      obtain ⟨m, hfrom, hto⟩ := handlerErc20Transfer_ok h
      by_cases hd : debitKey a = some k
      · obtain ⟨hz, rfl⟩ := debitKey_eq_some_iff.mp hd
        exact (updateSide_isOk_iff (hamount hmoves)).mp ⟨m, hfrom⟩ hz
      · obtain ⟨hz, hk⟩ := creditKey_eq_some_iff.mp (htouch.resolve_left hd)
        have hle := (updateSide_isOk_iff (hamount hmoves)).mp ⟨l', hto⟩ hz
        rw [hk, lastOf_updateSide hfrom, if_neg fun hd' => hd (debitKey_eq_some_iff.mpr hd')] at hle
        exact hle
    · intro hle
      obtain ⟨m, hfrom⟩ : ∃ m, updateSide a.fromAddress a.from_account_id (-1)
          (.fromWasUpdated a.fromAddress) a l = .ok m := by
        refine (updateSide_isOk_iff (hamount hmoves)).mpr fun hz => ?_
        exact hle _ ⟨hmoves, Or.inl (debitKey_eq_some_iff.mpr ⟨hz, rfl⟩)⟩
      obtain ⟨l', hto⟩ : ∃ l', updateSide a.toAddress a.to_account_id 1
          (.toWasUpdated a.toAddress) a m = .ok l' := by
        refine (updateSide_isOk_iff (hamount hmoves)).mpr fun hz => ?_
        rw [lastOf_updateSide hfrom]
        split
        · exact le_refl _
        · exact hle _ ⟨hmoves, Or.inr (creditKey_eq_some_iff.mpr ⟨hz, rfl⟩)⟩
      refine ⟨l', ?_⟩
      rw [handlerErc20Transfer, if_neg (hcontract hmoves), hfrom]
      exact hto
  · next hmoves => simp [touches, hmoves]

end HandlerLemmas

open HandlerLemmas

/-! ## 5. The fold -/

/-- The closed form of the fold: every row is changed by the activities alone. -/
theorem process_effect {acts : List JoinedActivity} {l l' : Ledger} (h : process acts l = .ok l') :
    (∀ k, l'.accountBalances.get? k = acts.foldl (bumpBalance k) (l.accountBalances.get? k)) ∧
    (∀ x, l'.erc20Contracts.get? x = acts.foldl (bumpContract x) (l.erc20Contracts.get? x)) ∧
    ∀ x, balanceSum l' x = balanceSum l x + (acts.map (minted x)).sum := by
  induction acts generalizing l with
  | nil =>
    cases h
    exact ⟨fun _ => rfl, fun _ => rfl, fun _ => (add_zero _).symm⟩
  | cons a acts ih =>
    obtain ⟨m, hm, hrest⟩ := foldlM_cons_ok h
    obtain ⟨hb, hc, hs⟩ := ih hrest
    refine ⟨fun k => ?_, fun x => ?_, fun x => ?_⟩
    · rw [hb, balance_processActivity hm, List.foldl_cons]
    · rw [hc, contract_processActivity hm, List.foldl_cons]
    · rw [hs, balanceSum_processActivity hm, List.map_cons, List.sum_cons, add_assoc]

namespace HandlerLemmas

theorem amount_foldl_bumpBalance (k : Option ℕ × String) (acts : List JoinedActivity)
    (b : Option AccountBalance) :
    ((acts.foldl (bumpBalance k) b).map (·.amount)).getD 0 =
      (b.map (·.amount)).getD 0 + ((acts.map (received k)).sum - (acts.map (sent k)).sum) := by
  induction acts generalizing b with
  | nil => simp
  | cons a acts ih =>
    have hone : ((bumpBalance k b a).map (·.amount)).getD 0 =
        (b.map (·.amount)).getD 0 + (received k a - sent k a) := by
      unfold bumpBalance
      split
      · rfl
      · next ht =>
        have hr : ¬ (movesTokens a.action = true ∧ creditKey a = some k) :=
          fun hr => ht ⟨hr.1, Or.inr hr.2⟩
        have hs : ¬ (movesTokens a.action = true ∧ debitKey a = some k) :=
          fun hs => ht ⟨hs.1, Or.inl hs.2⟩
        simp [received, sent, hr, hs]
    rw [List.foldl_cons, ih, hone]
    simp only [List.map_cons, List.sum_cons]
    ring

theorem supply_foldl_bumpContract (x : String) (acts : List JoinedActivity)
    (c : Option Erc20Contract) :
    (acts.foldl (bumpContract x) c).map (·.total_supply) =
      (c.map (·.total_supply)).map fun s => s.map (· + (acts.map (minted x)).sum) := by
  induction acts generalizing c with
  | nil => cases c <;> simp
  | cons a acts ih =>
    rw [List.foldl_cons, ih, List.map_cons, List.sum_cons]
    unfold bumpContract
    split
    · cases c with
      | none => rfl
      | some c => cases hs : c.total_supply <;> simp [addSupply, hs, add_assoc]
    · next hz =>
      have hm : minted x a = 0 := by
        unfold minted
        split
        · next hmx =>
          rw [if_neg fun h => hz ⟨hmx.1, hmx.2, Or.inl h⟩,
            if_neg fun h => hz ⟨hmx.1, hmx.2, Or.inr h⟩, sub_zero]
        · rfl
      rw [hm, zero_add]

theorem track_foldl_bumpContract (x : String) (acts : List JoinedActivity)
    (c : Option Erc20Contract) :
    (acts.foldl (bumpContract x) c).map (·.track) = c.map (·.track) := by
  induction acts generalizing c with
  | nil => rfl
  | cons a acts ih =>
    rw [List.foldl_cons, ih]
    unfold bumpContract
    split
    · cases c with
      | none => rfl
      | some c => cases hs : c.total_supply <;> simp [addSupply, hs]
    · rfl

theorem bumpContract_ne_none {x : String} {c : Option Erc20Contract} {a : JoinedActivity}
    (h : c ≠ none) : bumpContract x c a ≠ none := by
  obtain ⟨row, rfl⟩ := Option.ne_none_iff_exists'.mp h
  unfold bumpContract
  split <;> simp

theorem touches_contract {a : JoinedActivity} {k : Option ℕ × String} (h : touches k a) :
    a.erc20_contract_address = k.2 := by
  rcases h.2 with hd | hc
  · exact congrArg Prod.snd (debitKey_eq_some_iff.mp hd).2
  · exact congrArg Prod.snd (creditKey_eq_some_iff.mp hc).2

theorem touches_same_contract {a b : JoinedActivity} {k : Option ℕ × String} (ha : touches k a)
    (hb : touches k b) : a.erc20_contract_address = b.erc20_contract_address :=
  (touches_contract ha).trans (touches_contract hb).symm

/-- In order of height, an activity never puts a balance ahead of a later one. -/
theorem lastOf_le_after {a : JoinedActivity} {acts : List JoinedActivity} {l m : Ledger}
    (hsort : ∀ b ∈ acts, a.erc20_contract_address = b.erc20_contract_address → a.height ≤ b.height)
    (hm : processActivity l a = .ok m)
    (hle : ∀ b ∈ acts, ∀ k, touches k b → lastOf l k ≤ b.height) :
    ∀ b ∈ acts, ∀ k, touches k b → lastOf m k ≤ b.height := by
  intro b hb k hk
  rw [lastOf_eq (balance_processActivity hm k)]
  split
  · next htouch => exact hsort b hb (touches_same_contract htouch hk)
  · exact hle b hb k hk

theorem updateSide_error {address : Option String} {accountId : Option ℕ} {sign : ℤ}
    {err e : Erc20Error} {a : JoinedActivity} {l : Ledger}
    (hle : address ≠ some ZERO_ADDRESS →
      lastOf l (accountId, a.erc20_contract_address) ≤ a.height)
    (h : updateSide address accountId sign err a l = .error e) : e.isWasUpdated = false := by
  by_cases hamount : a.amount = none
  · unfold updateSide at h
    split at h
    · next hz =>
      have hlast := hle hz
      unfold updateBalance at h
      simp only [hamount] at h
      unfold lastOf at hlast
      cases hrow : l.accountBalances.get? (accountId, a.erc20_contract_address) with
      | none =>
        simp only [hrow, Option.any_none, Bool.false_eq_true, if_false] at h
        cases h
        rfl
      | some b =>
        simp only [hrow, Option.map_some, Option.getD_some] at hlast
        simp only [hrow, Option.any_some, decide_eq_true_eq, Nat.not_lt.mpr hlast, if_false] at h
        cases h
        rfl
    · unfold updateSupply at h
      simp only [hamount] at h
      split at h
      · cases h
      · split at h
        · cases h
        · cases h
          rfl
  · obtain ⟨l', hok⟩ := (@updateSide_isOk_iff address accountId sign err a l hamount).mpr hle
    cases hok.symm.trans h

/-- An activity that is not behind a balance it touches may be refused, but not for that. -/
theorem processActivity_error {a : JoinedActivity} {l : Ledger} {e : Erc20Error}
    (hle : ∀ k, touches k a → lastOf l k ≤ a.height) (h : processActivity l a = .error e) :
    e.isWasUpdated = false := by
  unfold processActivity at h
  split at h
  · next hmoves =>
    unfold handlerErc20Transfer at h
    split at h
    · cases h
      rfl
    · rcases bind_error h with hfrom | ⟨m, hm, hto⟩
      · refine updateSide_error (fun hz => ?_) hfrom
        exact hle _ ⟨hmoves, Or.inl (debitKey_eq_some_iff.mpr ⟨hz, rfl⟩)⟩
      · refine updateSide_error (fun hz => ?_) hto
        rw [lastOf_updateSide hm]
        split
        · exact le_refl _
        · exact hle _ ⟨hmoves, Or.inr (creditKey_eq_some_iff.mpr ⟨hz, rfl⟩)⟩
  · cases h

theorem process_filter (acts : List JoinedActivity) (l : Ledger) :
    process (acts.filter fun a => movesTokens a.action) l = process acts l := by
  unfold process
  induction acts generalizing l with
  | nil => rfl
  | cons a acts ih =>
    cases hmoves : movesTokens a.action with
    | true =>
      rw [List.filter_cons_of_pos (by simpa using hmoves), List.foldlM_cons, List.foldlM_cons]
      exact congrArg _ (funext ih)
    | false =>
      have hskip : processActivity l a = .ok l := by simp [processActivity, hmoves]
      rw [List.filter_cons_of_neg (by simp [hmoves]), List.foldlM_cons, ih, hskip]
      rfl

end HandlerLemmas

/-- The fold over activities that are ordered by height within each contract completes exactly
when no balance is ahead of an activity that touches it. -/
theorem process_ok_iff {acts : List JoinedActivity} {l : Ledger}
    (hsort : acts.Pairwise fun a b =>
      a.erc20_contract_address = b.erc20_contract_address → a.height ≤ b.height)
    (hamount : ∀ a ∈ acts, movesTokens a.action → a.amount ≠ none)
    (hcontract : ∀ a ∈ acts, movesTokens a.action →
      l.erc20Contracts.get? a.erc20_contract_address ≠ none) :
    (∃ l', process acts l = .ok l') ↔ ∀ a ∈ acts, ∀ k, touches k a → lastOf l k ≤ a.height := by
  induction acts generalizing l with
  | nil =>
    refine iff_of_true ⟨l, rfl⟩ ?_
    simp
  | cons a acts ih =>
    rw [List.pairwise_cons] at hsort
    have hfirst := processActivity_isOk_iff (hamount a List.mem_cons_self)
      (hcontract a List.mem_cons_self)
    -- what the rest sees of the first activity
    have hrest : ∀ m, processActivity l a = .ok m → ((∃ l', process acts m = .ok l') ↔
        ∀ b ∈ acts, ∀ k, touches k b → lastOf m k ≤ b.height) := by
      intro m hm
      refine ih hsort.2 (fun b hb => hamount b (List.mem_cons_of_mem a hb)) fun b hb hmoves => ?_
      rw [contract_processActivity hm]
      exact bumpContract_ne_none (hcontract b (List.mem_cons_of_mem a hb) hmoves)
    constructor
    · rintro ⟨l', h⟩ b hb k hk
      obtain ⟨m, hm, hacts⟩ := foldlM_cons_ok h
      have ha := hfirst.mp ⟨m, hm⟩
      rcases List.mem_cons.mp hb with rfl | hb
      · exact ha k hk
      · have hle := (hrest m hm).mp ⟨l', hacts⟩ b hb k hk
        rw [lastOf_eq (balance_processActivity hm k)] at hle
        split at hle
        · next htouch =>
          exact (ha k htouch).trans (hsort.1 b hb (touches_same_contract htouch hk))
        · exact hle
    · intro hle
      obtain ⟨m, hm⟩ := hfirst.mpr (hle a List.mem_cons_self)
      obtain ⟨l', hl'⟩ := (hrest m hm).mpr
        (lastOf_le_after hsort.1 hm fun b hb => hle b (List.mem_cons_of_mem a hb))
      refine ⟨l', ?_⟩
      rw [process, List.foldlM_cons, hm]
      exact hl'

/-- Whatever ends such a fold, it is not a balance that was updated. -/
theorem process_error {acts : List JoinedActivity} {l : Ledger} {e : Erc20Error}
    (hsort : acts.Pairwise fun a b =>
      a.erc20_contract_address = b.erc20_contract_address → a.height ≤ b.height)
    (hle : ∀ a ∈ acts, ∀ k, touches k a → lastOf l k ≤ a.height)
    (h : process acts l = .error e) : e.isWasUpdated = false := by
  induction acts generalizing l with
  | nil => cases h
  | cons a acts ih =>
    rw [List.pairwise_cons] at hsort
    rw [process, List.foldlM_cons] at h
    rcases bind_error h with hfirst | ⟨m, hm, hrest⟩
    · exact processActivity_error (hle a List.mem_cons_self) hfirst
    · exact ih hsort.2
        (lastOf_le_after hsort.1 hm fun b hb => hle b (List.mem_cons_of_mem a hb)) hrest

/-- Conservation: wherever the fold completes, a total supply that is not null moves with the
balances of its contract, a null one stays null, only transfers, deposits and withdrawals count,
and each balance moves by what its account received and sent. -/
theorem process_conserves {acts : List JoinedActivity} {l l' : Ledger}
    (h : process acts l = .ok l') :
    (∀ x s, supplyOf l x = some (some s) → ∃ s', supplyOf l' x = some (some s') ∧
      balanceSum l' x - balanceSum l x = s' - s) ∧
    (∀ x, supplyOf l x = some none → supplyOf l' x = some none) ∧
    process (acts.filter fun a => movesTokens a.action) l = .ok l' ∧
    ∀ k, amountOf l' k - amountOf l k = (acts.map (received k)).sum - (acts.map (sent k)).sum := by
  obtain ⟨hb, hc, hs⟩ := process_effect h
  have hsupply : ∀ x, supplyOf l' x =
      (supplyOf l x).map fun s => s.map (· + (acts.map (minted x)).sum) := by
    intro x
    rw [supplyOf, hc, supply_foldl_bumpContract]
    rfl
  refine ⟨fun x s hx => ?_, fun x hx => ?_, (process_filter acts l).trans h, fun k => ?_⟩
  · refine ⟨s + (acts.map (minted x)).sum, by rw [hsupply, hx]; rfl, ?_⟩
    rw [hs]
    ring
  · rw [hsupply, hx]
    rfl
  · rw [amountOf, hb, amount_foldl_bumpBalance]
    exact add_sub_cancel_left _ _

/-- A mint, an approval, a transfer to oneself and a burn of part of it, on a contract with a
total supply. -/
theorem process_conserves_mint_and_burn :
    let act := fun (action : Erc20Action) (f t : String) (amount height : ℕ) =>
      ({ evm_event_id := some height, sender := some f, action, erc20_contract_address := "0xa",
         amount := some amount, fromAddress := some f, toAddress := some t, height,
         tx_hash := "h", evm_tx_id := some 1, cosmos_tx_id := height, cosmos_event_id := none,
         from_account_id := some (if f = "0x1" then 1 else 0),
         to_account_id := some (if t = "0x1" then 1 else 0) } : JoinedActivity)
    let acts := [act .transfer ZERO_ADDRESS "0x1" 100 5, act .approval "0x1" "0x2" 40 6,
      act .transfer "0x1" "0x1" 30 7, act .withdrawal "0x1" ZERO_ADDRESS 20 8]
    let l : Ledger := ⟨Table.empty, Table.empty.upsert ⟨"0xa", some 0, true, 1⟩⟩
    ∃ l', process acts l = .ok l' ∧ supplyOf l' "0xa" = some (some 80) ∧
      balanceSum l' "0xa" - balanceSum l "0xa" = 80 - 0 ∧ amountOf l' (some 1, "0xa") = 80 := by
  intro act acts l
  obtain ⟨l', h⟩ : ∃ l', process acts l = .ok l' := ⟨_, rfl⟩
  obtain ⟨hsupply, -, -, hamount⟩ := process_conserves h
  obtain ⟨s', hs', hsum⟩ := hsupply "0xa" 0 rfl
  have hrun : supplyOf l' "0xa" = some (some 80) := by
    cases h
    decide
  cases hs'.symm.trans hrun
  refine ⟨l', h, hrun, hsum, ?_⟩
  have hk := hamount (some 1, "0xa")
  have h0 : amountOf l (some 1, "0xa") = 0 := rfl
  rw [h0, sub_zero] at hk
  rw [hk]
  decide

end Erascope.Erc20
