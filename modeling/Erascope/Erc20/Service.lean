import Mathlib.Tactic
import Erascope.Erc20.Activities

/-!
# The ERC20 jobs

The model of the jobs in `services/evm/erc20.service.ts` as functions of their range:
`handleErc20Activity` stores the activities of a range, `handleErc20Balance` reads them back
joined with the accounts and applies them to the stored balances and contracts. The balances
are loaded into a dictionary, handed to `Erc20Handler.process` and written back.

Results:
1. `updateErc20AccountsBalance_rel`: loading, folding and writing back is the fold on the whole
   tables; `updateErc20AccountsBalance_ok` without an assumption on the accounts.
2. `handleMissingErc20Contract_get?`: contracts that are registered stay as they are.
3. `handleErc20Balance_ok`: what a run of the balance job leaves.
-/

namespace Erascope.Erc20

/-! ## 1. The database -/

/-- A row of `account`. -/
structure Account where
  id : ℕ
  evm_address : String
deriving DecidableEq, Repr

/-- The table `account`; `evm_address` is unique. -/
abbrev Accounts := Table Account.evm_address

/-- The tables of the jobs; `activities` in id order. -/
structure Db where
  activities : List Erc20Activity
  ledger : Ledger
  accounts : Accounts

/-- The id of the account of an address. -/
def accountOf (accounts : Accounts) (address : Option String) : Option ℕ :=
  address.bind fun a => (accounts.get? a).map (·.id)

/-- `leftJoin` with the accounts of `from` and `to`. -/
def joinAccounts (accounts : Accounts) (a : Erc20Activity) : JoinedActivity :=
  { a with
    from_account_id := accountOf accounts a.fromAddress
    to_account_id := accountOf accounts a.toAddress }

/-- `erc20_contract.track` of an address that has a row. -/
def isTracked (contracts : Contracts) (address : String) : Bool :=
  (contracts.get? address).any (·.track)

/-- `getErc20Activities` -/
def getErc20Activities (db : Db) (startBlock endBlock : ℕ) (addresses : Option (List String)) :
    List JoinedActivity :=
  ((between Erc20Activity.height startBlock endBlock db.activities).filter fun a =>
    isTracked db.ledger.erc20Contracts a.erc20_contract_address &&
      addresses.all fun l => l.contains a.erc20_contract_address).map (joinAccounts db.accounts)

/-- The rows of `account_balance` that `updateErc20AccountsBalance` loads: those of an account
with the address of an activity, in the contract of that activity. -/
def isLoaded (accounts : Accounts) (erc20Activities : List JoinedActivity) (b : AccountBalance) :
    Bool :=
  erc20Activities.any fun a => a.erc20_contract_address = b.denom ∧
    (accountOf accounts a.fromAddress = b.account_id ∨
      accountOf accounts a.toAddress = b.account_id)

/-- The two dictionaries that `updateErc20AccountsBalance` loads. -/
def loadLedger (accounts : Accounts) (erc20Activities : List JoinedActivity) (l : Ledger) :
    Ledger :=
  { accountBalances := l.accountBalances.filter (isLoaded accounts erc20Activities)
    erc20Contracts := l.erc20Contracts.filter fun c =>
      erc20Activities.any fun a => a.erc20_contract_address = c.address }

/-- `updateErc20AccountsBalance` -/
def updateErc20AccountsBalance (accounts : Accounts) (erc20Activities : List JoinedActivity)
    (l : Ledger) : Except Erc20Error Ledger :=
  if erc20Activities = [] then .ok l
  else do
    let erc20Handler ← process erc20Activities (loadLedger accounts erc20Activities l)
    if erc20Handler.accountBalances.rows.any fun b => b.account_id = none then
      .error .accountMissing
    else
      .ok ⟨l.accountBalances.upsertAll erc20Handler.accountBalances.rows,
        l.erc20Contracts.upsertAll erc20Handler.erc20Contracts.rows⟩

/-! ## 2. The jobs -/

/-- What the jobs learn about a contract: whether `evm_smart_contract` has a row, and the total
supply that the node answers, if it answers. -/
structure ContractInfo where
  hasSmartContract : String → Bool
  totalSupply : String → Option ℤ

/-- `handleMissingErc20Contract` -/
def handleMissingErc20Contract (info : ContractInfo) (erc20Activities : List Erc20Activity)
    (contracts : Contracts) : Except Erc20Error Contracts :=
  let addresses := (erc20Activities.map (·.erc20_contract_address)).eraseDups
  let missingErc20ContractsAddress := addresses.filter fun addr => contracts.get? addr = none
  match missingErc20ContractsAddress.find? fun addr => !info.hasSmartContract addr with
  | some addr => .error (.smartContractMissing addr)
  | none =>
    .ok (contracts.upsertAll (missingErc20ContractsAddress.map fun addr =>
      { address := addr
        total_supply := info.totalSupply addr
        track := false
        last_updated_height := -1 }))

/-- Whether a contract has a row. -/
def hasContract (contracts : Contracts) (address : String) : Bool := (contracts.get? address).isSome

/-- `handleErc20Activity`, for a range. -/
def handleErc20Activity (env : Env) (evs : Events) (info : ContractInfo) (db : Db)
    (startBlock endBlock : ℕ) : Except Erc20Error Db := do
  let erc20Activities :=
    buildErc20Activities env evs (hasContract db.ledger.erc20Contracts) startBlock endBlock none
  let erc20Contracts ← handleMissingErc20Contract info erc20Activities db.ledger.erc20Contracts
  return { db with
    activities := db.activities ++ erc20Activities
    ledger := { db.ledger with erc20Contracts := erc20Contracts } }

/-- The addresses of activities whose account is not known. -/
def missingAccountsAddress (erc20Activities : List JoinedActivity) : List (Option String) :=
  ((erc20Activities.filter fun e => e.from_account_id = none).map (·.fromAddress)) ++
    (erc20Activities.filter fun e => e.to_account_id = none).map (·.toAddress)

/-- `insertNewAccountAndUpdate` of `handle_address.service.ts`, with the next id. -/
def insertNewAccount (accounts : Accounts) (address : String) : Accounts :=
  match accounts.get? address with
  | some _ => accounts
  | none => accounts.upsert ⟨(accounts.rows.map (·.id)).foldl max 0 + 1, address⟩

/-- The first part of `handleErc20Balance`: missing accounts are created by a call of
`CrawlNewAccountApi`, which commits on its own. -/
def crawlMissingAccounts (db : Db) (startBlock endBlock : ℕ) : Except Erc20Error Db :=
  let missing := missingAccountsAddress (getErc20Activities db startBlock endBlock none)
  if missing.contains none then .error .addressMissing
  else .ok { db with accounts := (missing.filterMap id).foldl insertNewAccount db.accounts }

/-- `handleErc20Balance`, for a range. -/
def handleErc20Balance (db : Db) (startBlock endBlock : ℕ) : Except Erc20Error Db := do
  let db ← crawlMissingAccounts db startBlock endBlock
  let erc20Activities := getErc20Activities db startBlock endBlock none
  let ledger ← updateErc20AccountsBalance db.accounts erc20Activities db.ledger
  return { db with ledger := ledger }

/-! ## 3. Loading and writing back -/

/-- Two ledgers with the same rows. -/
structure SameRows (l m : Ledger) : Prop where
  balance : ∀ k, l.accountBalances.get? k = m.accountBalances.get? k
  contract : ∀ x, l.erc20Contracts.get? x = m.erc20Contracts.get? x

theorem SameRows.refl (l : Ledger) : SameRows l l := ⟨fun _ => rfl, fun _ => rfl⟩

theorem SameRows.symm {l m : Ledger} (h : SameRows l m) : SameRows m l :=
  ⟨fun k => (h.balance k).symm, fun x => (h.contract x).symm⟩

theorem SameRows.trans {l m n : Ledger} (h : SameRows l m) (h' : SameRows m n) : SameRows l n :=
  ⟨fun k => (h.balance k).trans (h'.balance k), fun x => (h.contract x).trans (h'.contract x)⟩

namespace ServiceLemmas

open HandlerLemmas

section
variable {R : Ledger → Ledger → Prop} {a : JoinedActivity}

/-- The simulation rule for one activity: two ledgers that agree on the rows it reads and stay
related under the same writes. -/
theorem processActivity_rel
    (hfrom : ∀ l m, R l m → l.accountBalances.get? (a.from_account_id, a.erc20_contract_address) =
      m.accountBalances.get? (a.from_account_id, a.erc20_contract_address))
    (hto : ∀ l m, R l m → l.accountBalances.get? (a.to_account_id, a.erc20_contract_address) =
      m.accountBalances.get? (a.to_account_id, a.erc20_contract_address))
    (hcontract : ∀ l m, R l m → l.erc20Contracts.get? a.erc20_contract_address =
      m.erc20Contracts.get? a.erc20_contract_address)
    (hbalance : ∀ l m b, R l m → R { l with accountBalances := l.accountBalances.upsert b }
      { m with accountBalances := m.accountBalances.upsert b })
    (hsupply : ∀ l m c, R l m → R { l with erc20Contracts := l.erc20Contracts.upsert c }
      { m with erc20Contracts := m.erc20Contracts.upsert c })
    {l m : Ledger} (h : R l m) : ExceptRel R (processActivity l a) (processActivity m a) := by
  have hside : ∀ (address : Option String) (accountId : Option ℕ) (sign : ℤ) (err : Erc20Error),
      (∀ l m, R l m → l.accountBalances.get? (accountId, a.erc20_contract_address) =
        m.accountBalances.get? (accountId, a.erc20_contract_address)) → ∀ l m, R l m →
      ExceptRel R (updateSide address accountId sign err a l)
        (updateSide address accountId sign err a m) := by
    intro address accountId sign err hread l m h
    unfold updateSide
    split
    · unfold updateBalance
      simp only [hread l m h]
      split
      · exact rfl
      · cases a.amount with
        | none => exact rfl
        | some amount => exact hbalance l m _ h
    · unfold updateSupply
      simp only [hcontract l m h]
      cases m.erc20Contracts.get? a.erc20_contract_address with
      | none => exact h
      | some c =>
        cases hs : c.total_supply with
        | none => simp only [hs]; exact h
        | some supply =>
          cases a.amount with
          | none => simp only [hs]; exact rfl
          | some amount => simp only [hs]; exact hsupply l m _ h
  unfold processActivity
  split
  · unfold handlerErc20Transfer
    rw [hcontract l m h]
    split
    · exact rfl
    · exact (hside _ _ _ _ hfrom l m h).bind fun l' m' h' => hside _ _ _ _ hto l' m' h'
  · exact h

end

/-- The fold depends on the rows alone. -/
theorem process_rel (acts : List JoinedActivity) {l m : Ledger} (h : SameRows l m) :
    ExceptRel SameRows (process acts l) (process acts m) := by
  refine foldlM_rel (fun l m a _ h => ?_) h
  refine processActivity_rel (fun l m h => h.balance _) (fun l m h => h.balance _)
    (fun l m h => h.contract _) (fun l m b h => ⟨fun k => ?_, h.contract⟩)
    (fun l m c h => ⟨h.balance, fun x => ?_⟩) h
  · simp only [Table.get?_upsert, h.balance]
  · simp only [Table.get?_upsert, h.contract]

/-- A balance that the dictionary of some activities covers. -/
def Mentioned (accounts : Accounts) (acts : List JoinedActivity) (k : Option ℕ × String) : Prop :=
  ∃ a ∈ acts, a.erc20_contract_address = k.2 ∧
    (accountOf accounts a.fromAddress = k.1 ∨ accountOf accounts a.toAddress = k.1)

/-- The two dictionaries overlay the tables. -/
structure Loaded (accounts : Accounts) (acts : List JoinedActivity) (base d t : Ledger) : Prop where
  balance : Table.Overlay (Mentioned accounts acts) base.accountBalances d.accountBalances
    t.accountBalances
  contract : Table.Overlay (fun x => ∃ a ∈ acts, a.erc20_contract_address = x)
    base.erc20Contracts d.erc20Contracts t.erc20Contracts

/-- The account ids of the activities are those of the account table. -/
def Joined (accounts : Accounts) (acts : List JoinedActivity) : Prop :=
  ∀ a ∈ acts, a.from_account_id = accountOf accounts a.fromAddress ∧
    a.to_account_id = accountOf accounts a.toAddress

theorem loaded_process {accounts : Accounts} {acts : List JoinedActivity} {base d t : Ledger}
    (hjoin : Joined accounts acts) (h : Loaded accounts acts base d t) :
    ExceptRel (Loaded accounts acts base) (process acts d) (process acts t) := by
  refine foldlM_rel (fun d t a ha h => ?_) h
  obtain ⟨hfrom, hto⟩ := hjoin a ha
  refine processActivity_rel (fun d t h => h.balance.agree _ ⟨a, ha, rfl, ?_⟩)
    (fun d t h => h.balance.agree _ ⟨a, ha, rfl, ?_⟩) (fun d t h => h.contract.agree _ ⟨a, ha, rfl⟩)
    (fun d t b h => ⟨h.balance.upsert b, h.contract⟩)
    (fun d t c h => ⟨h.balance, h.contract.upsert c⟩) h
  · exact Or.inl hfrom.symm
  · exact Or.inr hto.symm

theorem loaded_loadLedger (accounts : Accounts) (acts : List JoinedActivity) (l : Ledger) :
    Loaded accounts acts l (loadLedger accounts acts l) l := by
  refine ⟨Table.overlay_filter _ _ fun b => ?_, Table.overlay_filter _ _ fun c => ?_⟩
  · simp [isLoaded, Mentioned, AccountBalance.key]
  · simp

theorem foldl_bumpBalance_of_not_touched {k : Option ℕ × String} {acts : List JoinedActivity}
    (h : ∀ a ∈ acts, ¬ touches k a) (b : Option AccountBalance) :
    acts.foldl (bumpBalance k) b = b := by
  induction acts generalizing b with
  | nil => rfl
  | cons a acts ih =>
    rw [List.foldl_cons, bumpBalance, if_neg (h a List.mem_cons_self)]
    exact ih (fun a' ha' => h a' (List.mem_cons_of_mem a ha')) b

/-- With all accounts known, no balance without an account is written. -/
theorem no_null_account {accounts : Accounts} {acts : List JoinedActivity} {l d' : Ledger}
    (hjoin : Joined accounts acts)
    (hids : ∀ a ∈ acts, a.from_account_id ≠ none ∧ a.to_account_id ≠ none)
    (h : process acts (loadLedger accounts acts l) = .ok d') :
    ¬ (d'.accountBalances.rows.any fun b => b.account_id = none) = true := by
  intro hany
  obtain ⟨b, hb, hnull⟩ := List.any_eq_true.mp hany
  have hget : d'.accountBalances.get? (none, b.denom) = some b :=
    Table.get?_eq_some_iff.mpr ⟨hb, Prod.ext (of_decide_eq_true hnull) rfl⟩
  have huntouched : ∀ a ∈ acts, ¬ touches (none, b.denom) a := by
    rintro a ha ⟨-, hd | hc⟩
    · exact (hids a ha).1 (congrArg Prod.fst (debitKey_eq_some_iff.mp hd).2)
    · exact (hids a ha).2 (congrArg Prod.fst (creditKey_eq_some_iff.mp hc).2)
  rw [(process_effect h).1, foldl_bumpBalance_of_not_touched huntouched, loadLedger,
    Table.get?_filter, Option.filter_eq_some_iff] at hget
  obtain ⟨a, ha, hmatch⟩ := List.any_eq_true.mp hget.2
  obtain ⟨-, hf | ht⟩ := of_decide_eq_true hmatch
  · exact (hids a ha).1 ((hjoin a ha).1.trans (hf.trans (of_decide_eq_true hnull)))
  · exact (hids a ha).2 ((hjoin a ha).2.trans (ht.trans (of_decide_eq_true hnull)))

end ServiceLemmas

open ServiceLemmas

/-- Loading, folding and writing back is the fold on the whole tables, wherever it completes. -/
theorem updateErc20AccountsBalance_ok {accounts : Accounts} {acts : List JoinedActivity}
    {l l' : Ledger} (hjoin : Joined accounts acts)
    (h : updateErc20AccountsBalance accounts acts l = .ok l') :
    ∃ m, process acts l = .ok m ∧ SameRows l' m := by
  unfold updateErc20AccountsBalance at h
  split at h
  · next hnil =>
    subst hnil
    cases h
    exact ⟨l, rfl, SameRows.refl l⟩
  · obtain ⟨d, hd, hwrite⟩ := bind_ok h
    have hrel := loaded_process hjoin (loaded_loadLedger accounts acts l)
    rw [hd] at hrel
    obtain ⟨m, hm, hover⟩ := hrel.of_ok
    refine ⟨m, hm, ?_⟩
    split at hwrite
    · cases hwrite
    · cases hwrite
      exact ⟨hover.balance.get?_upsertAll, hover.contract.get?_upsertAll⟩

/-- With all accounts known it is the fold on the whole tables: the same error or the same
rows. -/
theorem updateErc20AccountsBalance_rel {accounts : Accounts} {acts : List JoinedActivity}
    {l : Ledger} (hjoin : Joined accounts acts)
    (hids : ∀ a ∈ acts, a.from_account_id ≠ none ∧ a.to_account_id ≠ none) :
    ExceptRel SameRows (updateErc20AccountsBalance accounts acts l) (process acts l) := by
  unfold updateErc20AccountsBalance
  split
  · next hnil =>
    subst hnil
    exact SameRows.refl l
  · have hrel := loaded_process hjoin (loaded_loadLedger accounts acts l)
    cases hx : process acts (loadLedger accounts acts l) with
    | error e =>
      rw [hx] at hrel
      rw [hrel.of_error]
      exact rfl
    | ok d =>
      rw [hx] at hrel
      obtain ⟨m, hm, hover⟩ := hrel.of_ok
      rw [hm]
      show ExceptRel SameRows (if _ then _ else _) (Except.ok m)
      rw [if_neg (no_null_account hjoin hids hx)]
      exact ⟨hover.balance.get?_upsertAll, hover.contract.get?_upsertAll⟩

/-! ## 4. Missing contracts and accounts -/

/-- Contracts that are registered, or that no activity mentions, stay as they are. -/
theorem handleMissingErc20Contract_get? {info : ContractInfo} {acts : List Erc20Activity}
    {contracts contracts' : Contracts}
    (h : handleMissingErc20Contract info acts contracts = .ok contracts') {x : String}
    (hx : contracts.get? x ≠ none ∨ ∀ a ∈ acts, a.erc20_contract_address ≠ x) :
    contracts'.get? x = contracts.get? x := by
  unfold handleMissingErc20Contract at h
  simp only at h
  split at h
  · cases h
  · cases h
    refine Table.get?_upsertAll_of_ne fun r hr => ?_
    obtain ⟨addr, haddr, rfl⟩ := List.mem_map.mp hr
    obtain ⟨hmem, hnone⟩ := List.mem_filter.mp haddr
    rintro rfl
    rcases hx with hx | hx
    · exact hx (of_decide_eq_true hnone)
    · obtain ⟨a, ha, haddr⟩ := List.mem_map.mp (List.mem_eraseDups.mp hmem)
      exact hx a ha haddr

/-- Contracts that are not registered are inserted when they have a smart contract. -/
theorem handleMissingErc20Contract_isOk {info : ContractInfo} {acts : List Erc20Activity}
    {contracts : Contracts}
    (h : ∀ a ∈ acts, hasContract contracts a.erc20_contract_address ∨
      info.hasSmartContract a.erc20_contract_address) :
    ∃ contracts', handleMissingErc20Contract info acts contracts = .ok contracts' := by
  unfold handleMissingErc20Contract
  simp only
  split
  · next addr hfind =>
    obtain ⟨hmem, hnone⟩ := List.mem_filter.mp (List.mem_of_find?_eq_some hfind)
    obtain ⟨a, ha, rfl⟩ := List.mem_map.mp (List.mem_eraseDups.mp hmem)
    rcases h a ha with hhas | hsmart
    · simp [hasContract, of_decide_eq_true hnone] at hhas
    · have := List.find?_some hfind
      simp [hsmart] at this
  · exact ⟨_, rfl⟩

/-- With all contracts registered there is nothing to insert. -/
theorem handleMissingErc20Contract_registered {info : ContractInfo} {acts : List Erc20Activity}
    {contracts : Contracts}
    (h : ∀ a ∈ acts, contracts.get? a.erc20_contract_address ≠ none) :
    handleMissingErc20Contract info acts contracts = .ok contracts := by
  have hnil : ((acts.map (·.erc20_contract_address)).eraseDups.filter
      fun addr => contracts.get? addr = none) = [] := by
    rw [List.filter_eq_nil_iff]
    intro addr haddr
    obtain ⟨a, ha, rfl⟩ := List.mem_map.mp (List.mem_eraseDups.mp haddr)
    simpa using h a ha
  simp only [handleMissingErc20Contract, hnil]
  rfl

theorem joined_getErc20Activities (db : Db) (s e : ℕ) (addresses : Option (List String)) :
    Joined db.accounts (getErc20Activities db s e addresses) := by
  intro a ha
  obtain ⟨r, -, rfl⟩ := List.mem_map.mp ha
  exact ⟨rfl, rfl⟩

theorem missingAccountsAddress_eq_nil {acts : List JoinedActivity}
    (h : ∀ a ∈ acts, a.from_account_id ≠ none ∧ a.to_account_id ≠ none) :
    missingAccountsAddress acts = [] := by
  unfold missingAccountsAddress
  rw [List.append_eq_nil_iff, List.map_eq_nil_iff, List.map_eq_nil_iff, List.filter_eq_nil_iff,
    List.filter_eq_nil_iff]
  exact ⟨fun a ha => by simpa using (h a ha).1, fun a ha => by simpa using (h a ha).2⟩

/-- With all accounts known nothing is crawled. -/
theorem crawlMissingAccounts_known {db : Db} {s e : ℕ}
    (h : ∀ a ∈ getErc20Activities db s e none, a.from_account_id ≠ none ∧ a.to_account_id ≠ none) :
    crawlMissingAccounts db s e = .ok db := by
  simp only [crawlMissingAccounts, missingAccountsAddress_eq_nil h]
  rfl

/-- A run of the balance job folds the activities of its range over the whole tables; before
that it only adds accounts. -/
theorem handleErc20Balance_ok {db db' : Db} {s e : ℕ} (h : handleErc20Balance db s e = .ok db') :
    db'.activities = db.activities ∧ ∃ accounts m,
      process (getErc20Activities { db with accounts := accounts } s e none) db.ledger = .ok m ∧
      SameRows db'.ledger m := by
  obtain ⟨db₁, hcrawl, hrest⟩ := bind_ok h
  obtain ⟨ledger, hupdate, hdb'⟩ := bind_ok hrest
  cases hdb'
  unfold crawlMissingAccounts at hcrawl
  simp only at hcrawl
  split at hcrawl
  · cases hcrawl
  · cases hcrawl
    exact ⟨rfl, _, updateErc20AccountsBalance_ok (joined_getErc20Activities _ s e none) hupdate⟩

/-- With all accounts known a run of the balance job is the fold on the whole tables. -/
theorem handleErc20Balance_rel {db : Db} {s e : ℕ}
    (hids : ∀ a ∈ getErc20Activities db s e none,
      a.from_account_id ≠ none ∧ a.to_account_id ≠ none) :
    ExceptRel (fun db' m => SameRows db'.ledger m ∧ db'.activities = db.activities ∧
        db'.accounts = db.accounts)
      (handleErc20Balance db s e) (process (getErc20Activities db s e none) db.ledger) := by
  have hrun : handleErc20Balance db s e =
      updateErc20AccountsBalance db.accounts (getErc20Activities db s e none) db.ledger >>=
        fun ledger => .ok { db with ledger := ledger } := by
    unfold handleErc20Balance
    rw [crawlMissingAccounts_known hids]
    rfl
  rw [hrun]
  refine (updateErc20AccountsBalance_rel (joined_getErc20Activities db s e none) hids).bind_left
    fun l m h => ?_
  exact ⟨h, rfl, rfl⟩

end Erascope.Erc20
