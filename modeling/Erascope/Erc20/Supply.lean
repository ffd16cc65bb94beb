import Mathlib.Tactic
import Erascope.Lib.Run
import Erascope.Checkpoint.Pipeline
import Erascope.Erc20.Service

/-!
# Total supply and balances

`handleErc20Contract` registers a contract with the total supply that the node answers at that
moment; `handleErc20Balance` rebuilds the balances from the activities since the creation of the
contract and applies the same mints and burns to the stored supply. This module studies the runs
of the three jobs with their checkpoints, in any order and among any movements of the other
checkpoints.

Results:
1. `total_supply_agrees`: as long as the supply that is read at the registration is `0` (and no
   job goes back over the contract), the stored supply is the sum of the balances and the supply
   on the chain, at every height that the balances reach.
2. `total_supply_counted_twice`: tokens minted before the read are counted twice.
-/

namespace Erascope.Erc20

open Checkpoint

/-! ## 1. The jobs and their checkpoints -/

/-- A row of `evm_smart_contract`, with whether its type is `ERC20`. -/
structure EvmSmartContract where
  address : String
  isErc20 : Bool
  created_height : ℕ
deriving DecidableEq, Repr

/-- `handleErc20Contract`, for a range; `totalSupply` is what `getBatchErc20Info` reads. -/
def handleErc20Contract (smartContracts : List EvmSmartContract) (totalSupply : String → Option ℤ)
    (db : Db) (startBlock endBlock : ℕ) : Db :=
  let erc20SmartContracts :=
    (between EvmSmartContract.created_height startBlock endBlock smartContracts).filter (·.isErc20)
  let erc20Instances := erc20SmartContracts.map fun e =>
    ({ address := e.address
       total_supply := totalSupply e.address
       track := true
       last_updated_height := e.created_height } : Erc20Contract)
  { db with ledger := { db.ledger with
      erc20Contracts := db.ledger.erc20Contracts.upsertAll erc20Instances } }

/-- The checkpoints and the tables. -/
structure Erc20State where
  checkpoints : Checkpoints BullJobName
  db : Db

/-- A step of the system. -/
inductive Erc20Step
  /-- Another job stores its checkpoint. -/
  | other (j : BullJobName) (height : ℕ)
  /-- Another job creates an account. -/
  | account (address : String)
  /-- `handleErc20Contract`; the node answers at the given height. -/
  | contract (answeredAt : ℕ)
  /-- `handleErc20Activity` -/
  | activity (info : ContractInfo)
  /-- `handleErc20Balance` -/
  | balance

/-- The three jobs. -/
def isErc20Job (j : BullJobName) : Bool :=
  j = .handleErc20Contract ∨ j = .handleErc20Activity ∨ j = .handleErc20Balance

/-- The tables that the jobs read, and the node: `totalSupplyAt` is the answer at a height. -/
structure Erc20Chain where
  env : Env
  evs : Events
  smartContracts : List EvmSmartContract
  totalSupplyAt : String → ℕ → Option ℤ
  startBlock : ℕ

section
variable (chain : Erc20Chain)

/-- The start of the range of the next run of a job. -/
def startOf (st : Erc20State) (j : BullJobName) (job : Job) : ℕ :=
  (getCheckpoint chain.startBlock st.checkpoints j job.lastHeightJobNames job.blocksPerCall).1

/-- The end of the range. -/
def endOf (st : Erc20State) (j : BullJobName) (job : Job) : ℕ :=
  (getCheckpoint chain.startBlock st.checkpoints j job.lastHeightJobNames job.blocksPerCall).2.1

/-- One step. A run that throws leaves the checkpoint and the tables, but for the accounts that
it has created. -/
def erc20Step (st : Erc20State) : Erc20Step → Erc20State
  | .other j height =>
    if isErc20Job j then st else { st with checkpoints := st.checkpoints.upsert ⟨j, height⟩ }
  | .account address =>
    { st with db := { st.db with accounts := insertNewAccount st.db.accounts address } }
  | .contract answeredAt =>
    { checkpoints := runJob chain.startBlock .handleErc20Contract Checkpoint.handleErc20Contract
        st.checkpoints
      db := handleErc20Contract chain.smartContracts (fun y => chain.totalSupplyAt y answeredAt)
        st.db (startOf chain st .handleErc20Contract Checkpoint.handleErc20Contract)
        (endOf chain st .handleErc20Contract Checkpoint.handleErc20Contract) }
  | .activity info =>
    match handleErc20Activity chain.env chain.evs info st.db
        (startOf chain st .handleErc20Activity Checkpoint.handleErc20Activity)
        (endOf chain st .handleErc20Activity Checkpoint.handleErc20Activity) with
    | .error _ => st
    | .ok db =>
      { checkpoints := runJob chain.startBlock .handleErc20Activity Checkpoint.handleErc20Activity
          st.checkpoints
        db := db }
  | .balance =>
    let startBlock := startOf chain st .handleErc20Balance Checkpoint.handleErc20Balance
    let endBlock := endOf chain st .handleErc20Balance Checkpoint.handleErc20Balance
    match handleErc20Balance st.db startBlock endBlock with
    | .error _ =>
      { st with db := (crawlMissingAccounts st.db startBlock endBlock).toOption.getD st.db }
    | .ok db =>
      { checkpoints := runJob chain.startBlock .handleErc20Balance Checkpoint.handleErc20Balance
          st.checkpoints
        db := db }

/-- Before the first run: no checkpoints, no contracts, no activities. -/
def erc20Init (accountBalances : Balances) (accounts : Accounts) : Erc20State :=
  ⟨Table.empty, ⟨[], ⟨accountBalances, Table.empty⟩, accounts⟩⟩

/-! ## 2. The history of a contract -/

/-- What an activity adds to the total supply of a contract. -/
def supplyChange (x : String) (a : Erc20Activity) : ℤ := minted x (joinAccounts Table.empty a)

/-- The sum of the mints and burns of a contract up to a height. -/
def mintedUpTo (env : Env) (evs : Events) (x : String) (h : ℕ) : ℤ :=
  ((between Erc20Activity.height 0 h (contractHistory env evs x)).map (supplyChange x)).sum

/-- A contract that is created after `startBlock` with nothing before its creation, whose total
supply on the chain changes by its visible mints and burns alone. -/
structure ContractOnChain (x : String) (created : ℕ) : Prop where
  listed : ⟨x, true, created⟩ ∈ chain.smartContracts
  unique : ∀ r ∈ chain.smartContracts, r.address = x → r = ⟨x, true, created⟩
  after : chain.startBlock < created
  logs : ∀ r ∈ chain.evs.evmEvents, r.address = x → created ≤ r.block_height
  activities : ∀ a ∈ contractHistory chain.env chain.evs x, created ≤ a.height
  supply : ∀ h, chain.totalSupplyAt x h = some (mintedUpTo chain.env chain.evs x h)

/-- The condition on a step: the supply that is read at the registration of the contract is `0`;
the activities do not reach its creation while `HANDLE_ERC20_CONTRACT` has no row; and no job
moves its checkpoint back over the creation or over an activity of the contract. -/
def SupplyReady (x : String) (created : ℕ) (st : Erc20State) : Erc20Step → Prop
  | .other _ _ | .account _ => True
  | .contract answeredAt =>
    let start := startOf chain st .handleErc20Contract Checkpoint.handleErc20Contract
    let endBlock := endOf chain st .handleErc20Contract Checkpoint.handleErc20Contract
    (start < created ∧ created ≤ endBlock → chain.totalSupplyAt x answeredAt = some 0) ∧
    ¬ (endBlock < created ∧ created ≤ start)
  | .activity _ =>
    let start := startOf chain st .handleErc20Activity Checkpoint.handleErc20Activity
    let endBlock := endOf chain st .handleErc20Activity Checkpoint.handleErc20Activity
    (heightOf st.checkpoints .handleErc20Contract = none → endBlock < created) ∧
    ∀ a ∈ contractHistory chain.env chain.evs x, ¬ (endBlock < a.height ∧ a.height ≤ start)
  | .balance =>
    let start := startOf chain st .handleErc20Balance Checkpoint.handleErc20Balance
    let endBlock := endOf chain st .handleErc20Balance Checkpoint.handleErc20Balance
    ∀ a ∈ contractHistory chain.env chain.evs x, ¬ (endBlock < a.height ∧ a.height ≤ start)

instance (x : String) (created : ℕ) (st : Erc20State) :
    ∀ step, Decidable (SupplyReady chain x created st step)
  | .other _ _ | .account _ => inferInstanceAs (Decidable True)
  | .contract _ => inferInstanceAs (Decidable ((_ ∧ _ → _ = _) ∧ ¬ (_ ∧ _)))
  | .activity _ => inferInstanceAs (Decidable ((_ = none → _) ∧ ∀ a ∈ _, ¬ (_ ∧ _)))
  | .balance => inferInstanceAs (Decidable (∀ a ∈ _, ¬ (_ ∧ _)))

/-- The stored supply of the tracked contract is the sum of its balances and the supply on the
chain, at the height that the balances have reached. -/
def SupplyAgrees (x : String) (created : ℕ) (st : Erc20State) : Prop :=
  ∀ E, heightOf st.checkpoints .handleErc20Balance = some E → created ≤ E →
    isTracked st.db.ledger.erc20Contracts x ∧
    supplyOf st.db.ledger x = some (some (balanceSum st.db.ledger x)) ∧
    chain.totalSupplyAt x E = some (balanceSum st.db.ledger x)

end

/-! ## 3. The invariant -/

section
variable (chain : Erc20Chain)

/-- The height of a job; `startBlock` before its first run. -/
def heightNow (st : Erc20State) (j : BullJobName) : ℕ :=
  startHeight chain.startBlock st.checkpoints j

/-- The tables when the contract job is at `hc`, the activity job at `ha` and the balance job at
`hb`: the stored activities of the contract are those up to `ha`, its balances are those at `hb`,
and from its creation on it is registered with the supply of `hb`. -/
structure IndexedUpTo (x : String) (created hc ha hb : ℕ) (db : Db) : Prop where
  activities : (db.activities.filter fun a => a.erc20_contract_address = x).Perm
    (between Erc20Activity.height 0 ha (contractHistory chain.env chain.evs x))
  sum : balanceSum db.ledger x = mintedUpTo chain.env chain.evs x hb
  registered : created ≤ hc → isTracked db.ledger.erc20Contracts x ∧
    supplyOf db.ledger x = some (some (mintedUpTo chain.env chain.evs x hb))
  unregistered : hc < created →
    db.ledger.erc20Contracts.get? x = none ∧ ha < created ∧ hb < created

/-- The invariant. -/
def SupplyInv (x : String) (created : ℕ) (st : Erc20State) : Prop :=
  IndexedUpTo chain x created (heightNow chain st .handleErc20Contract)
    (heightNow chain st .handleErc20Activity) (heightNow chain st .handleErc20Balance) st.db

end

namespace SupplyLemmas

open Checkpoint.PipelineLemmas HandlerLemmas

variable {chain : Erc20Chain} {x : String} {created : ℕ} {st : Erc20State}

theorem heightNow_runJob {j : BullJobName} {job : Job} (habsent : job.rangeTest = .absent)
    (st : Erc20State) (db : Db) (j' : BullJobName) :
    heightNow chain ⟨runJob chain.startBlock j job st.checkpoints, db⟩ j' =
      if j = j' then endOf chain st j job else heightNow chain st j' := by
  have h := heightOf_runJob chain.startBlock j job st.checkpoints j'
  simp only [habsent, RangeTest.returns, true_and] at h
  unfold heightNow startHeight
  rw [h]
  split <;> rfl

theorem endOf_eq (st : Erc20State) (j : BullJobName) (job : Job) :
    endOf chain st j job = endHeight (heightNow chain st j) st.checkpoints job.lastHeightJobNames
      job.blocksPerCall := rfl

theorem endOf_le {j : BullJobName} {job : Job} {d : BullJobName}
    (hd : d ∈ job.lastHeightJobNames) {h : ℕ} (hh : heightOf st.checkpoints d = some h) :
    endOf chain st j job ≤ h :=
  endHeight_le_dependency hd hh

theorem mintedUpTo_of_lt (honchain : ContractOnChain chain x created) {h : ℕ} (hlt : h < created) :
    mintedUpTo chain.env chain.evs x h = 0 := by
  have hnil : between Erc20Activity.height 0 h (contractHistory chain.env chain.evs x) = [] := by
    refine between_eq_nil fun a ha _ => ?_
    exact hlt.trans_le (honchain.activities a ha)
  rw [mintedUpTo, hnil]
  rfl

/-- A range adds its mints and burns; it may go back if no activity is passed. -/
theorem mintedUpTo_add {s e : ℕ} (hgap : ∀ a ∈ contractHistory chain.env chain.evs x,
      ¬ (e < a.height ∧ a.height ≤ s)) :
    mintedUpTo chain.env chain.evs x s + ((between Erc20Activity.height s e
      (contractHistory chain.env chain.evs x)).map (supplyChange x)).sum =
        mintedUpTo chain.env chain.evs x e := by
  unfold mintedUpTo
  rw [← List.sum_append, ← List.map_append]
  exact ((between_append_perm (Nat.zero_le s) hgap).map _).sum_eq

/-- The mints and burns that a run of the balance job applies. -/
theorem sum_minted_getErc20Activities (db : Db) (x : String) (s e : ℕ) :
    ((getErc20Activities db s e none).map (minted x)).sum =
      if isTracked db.ledger.erc20Contracts x then
        ((between Erc20Activity.height s e
          (db.activities.filter fun a => a.erc20_contract_address = x)).map (supplyChange x)).sum
      else 0 := by
  rw [← filter_between, getErc20Activities]
  generalize between Erc20Activity.height s e db.activities = l
  induction l with
  | nil => simp
  | cons a l ih =>
    simp only [Option.all_none, Bool.and_true] at ih ⊢
    by_cases hx : a.erc20_contract_address = x
    · cases ht : isTracked db.ledger.erc20Contracts x with
      | false => simpa [hx, ht] using ih
      | true =>
        simp only [hx, ht, List.filter_cons, decide_true, if_true, List.map_cons, List.sum_cons] at ih ⊢
        rw [ih]
        rfl
    · have hzero : minted x (joinAccounts db.accounts a) = 0 := if_neg fun h => hx h.2
      cases ht : isTracked db.ledger.erc20Contracts a.erc20_contract_address with
      | false => simpa [hx, ht] using ih
      | true => simpa [hx, ht, hzero] using ih

/-- The row of the contract after a run of the contract job. -/
theorem get?_handleErc20Contract (honchain : ContractOnChain chain x created)
    (totalSupply : String → Option ℤ) (db : Db) (s e : ℕ) :
    (handleErc20Contract chain.smartContracts totalSupply db s e).ledger.erc20Contracts.get? x =
      if s < created ∧ created ≤ e then some ⟨x, totalSupply x, true, created⟩
      else db.ledger.erc20Contracts.get? x := by
  unfold handleErc20Contract
  split
  · next hrange =>
    refine Table.get?_upsertAll_of_mem (r := (⟨x, totalSupply x, true, created⟩ : Erc20Contract))
      ?_ fun r hr hx => ?_
    · refine List.mem_map.mpr ⟨⟨x, true, created⟩, List.mem_filter.mpr ⟨?_, rfl⟩, rfl⟩
      exact mem_between.mpr ⟨honchain.listed, hrange⟩
    · obtain ⟨row, hrow, rfl⟩ := List.mem_map.mp hr
      have := honchain.unique row (mem_between.mp (List.mem_of_mem_filter hrow)).1 hx
      subst this
      rfl
  · next hrange =>
    refine Table.get?_upsertAll_of_ne fun r hr hx => ?_
    obtain ⟨row, hrow, rfl⟩ := List.mem_map.mp hr
    obtain ⟨hmem, hlt, hle⟩ := mem_between.mp (List.mem_of_mem_filter hrow)
    have := honchain.unique row hmem hx
    subst this
    exact hrange ⟨hlt, hle⟩

theorem indexed_contract (honchain : ContractOnChain chain x created) {hc ha hb e : ℕ} {db : Db}
    {totalSupply : String → Option ℤ} (hinv : IndexedUpTo chain x created hc ha hb db)
    (hread : hc < created ∧ created ≤ e → totalSupply x = some 0)
    (hback : ¬ (e < created ∧ created ≤ hc)) :
    IndexedUpTo chain x created e ha hb
      (handleErc20Contract chain.smartContracts totalSupply db hc e) := by
  have hrow := get?_handleErc20Contract honchain totalSupply db hc e
  refine ⟨hinv.activities, hinv.sum, fun hce => ?_, fun hec => ?_⟩
  · unfold isTracked supplyOf
    rw [hrow]
    by_cases hnew : hc < created
    · -- registered by this run: nothing was minted yet, and the node says so
      obtain ⟨-, -, hb0⟩ := hinv.unregistered hnew
      rw [if_pos ⟨hnew, hce⟩, hread ⟨hnew, hce⟩, mintedUpTo_of_lt honchain hb0]
      exact ⟨rfl, rfl⟩
    · rw [if_neg fun h => hnew h.1]
      exact hinv.registered (Nat.le_of_not_lt hnew)
  · have hc0 : hc < created := Nat.lt_of_not_le fun h => hback ⟨hec, h⟩
    rw [hrow, if_neg fun h => Nat.not_le_of_lt hec h.2]
    exact hinv.unregistered hc0

theorem indexed_activity (honchain : ContractOnChain chain x created) {hc ha hb e : ℕ}
    {db db' : Db} {info : ContractInfo} (hinv : IndexedUpTo chain x created hc ha hb db)
    (hrun : handleErc20Activity chain.env chain.evs info db ha e = .ok db')
    (hdep : hc < created → e < created)
    (hgap : ∀ a ∈ contractHistory chain.env chain.evs x, ¬ (e < a.height ∧ a.height ≤ ha)) :
    IndexedUpTo chain x created hc e hb db' := by
  obtain ⟨contracts, hmissing, hdb'⟩ := bind_ok hrun
  cases hdb'
  have hnew : ((buildErc20Activities chain.env chain.evs (hasContract db.ledger.erc20Contracts)
      ha e none).filter fun a => a.erc20_contract_address = x) =
      between Erc20Activity.height ha e (contractHistory chain.env chain.evs x) := by
    refine filter_buildErc20Activities ?_
    rcases Nat.lt_or_ge hc created with hlt | hge
    · exact Or.inr fun r hr hx => (hdep hlt).trans_le (honchain.logs r hr hx)
    · refine Or.inl ?_
      have htracked := (hinv.registered hge).1
      unfold isTracked at htracked
      unfold hasContract
      cases hrow : db.ledger.erc20Contracts.get? x with
      | none => rw [hrow] at htracked; cases htracked
      | some c => rfl
  -- the row of the contract is not touched
  have hrow : contracts.get? x = db.ledger.erc20Contracts.get? x := by
    refine handleMissingErc20Contract_get? hmissing ?_
    rcases Nat.lt_or_ge hc created with hlt | hge
    · refine Or.inr fun a hbuilt hx => ?_
      have hmem : a ∈ between Erc20Activity.height ha e
          (contractHistory chain.env chain.evs x) := by
        rw [← hnew]
        exact List.mem_filter.mpr ⟨hbuilt, decide_eq_true hx⟩
      obtain ⟨hhist, -, hle⟩ := mem_between.mp hmem
      exact absurd (hdep hlt) (Nat.not_lt_of_le ((honchain.activities a hhist).trans hle))
    · refine Or.inl fun hnone => ?_
      have htracked := (hinv.registered hge).1
      simp [isTracked, hnone] at htracked
  refine ⟨?_, hinv.sum, fun hce => ?_, fun hcc => ?_⟩
  · show ((db.activities ++ _).filter _).Perm _
    rw [List.filter_append, hnew]
    exact (hinv.activities.append_right _).trans (between_append_perm (Nat.zero_le ha) hgap)
  · have hreg := hinv.registered hce
    unfold isTracked supplyOf at hreg ⊢
    simp only [hrow]
    exact hreg
  · obtain ⟨hnone, -, hb0⟩ := hinv.unregistered hcc
    exact ⟨hrow.trans hnone, hdep hcc, hb0⟩

theorem indexed_balance (honchain : ContractOnChain chain x created) {hc ha hb e : ℕ}
    {db db' : Db} (hinv : IndexedUpTo chain x created hc ha hb db)
    (hrun : handleErc20Balance db hb e = .ok db') (hdep : e ≤ ha)
    (hgap : ∀ a ∈ contractHistory chain.env chain.evs x, ¬ (e < a.height ∧ a.height ≤ hb)) :
    IndexedUpTo chain x created hc ha e db' := by
  obtain ⟨hacts, accounts, m, hm, hrows⟩ := handleErc20Balance_ok hrun
  obtain ⟨-, hcontract, hsum⟩ := process_effect hm
  have hminted := sum_minted_getErc20Activities { db with accounts := accounts } x hb e
  have hperm : (between Erc20Activity.height hb e
      (db.activities.filter fun a => a.erc20_contract_address = x)).Perm
      (between Erc20Activity.height hb e (contractHistory chain.env chain.evs x)) := by
    have := hinv.activities.filter fun a => decide (hb < a.height ∧ a.height ≤ e)
    rwa [← between, ← between, between_between (Nat.zero_le hb) hdep] at this
  have hbalance : balanceSum db'.ledger x = balanceSum m x :=
    Table.sum_eq_of_get?_eq hrows.balance _
  have hsupply : supplyOf db'.ledger x = (supplyOf db.ledger x).map fun s =>
      s.map (· + ((getErc20Activities { db with accounts := accounts } hb e none).map
        (minted x)).sum) := by
    rw [supplyOf, hrows.contract, hcontract, supply_foldl_bumpContract]
    rfl
  have htrack : (db'.ledger.erc20Contracts.get? x).map (·.track) =
      (db.ledger.erc20Contracts.get? x).map (·.track) := by
    rw [hrows.contract, hcontract, track_foldl_bumpContract]
  rcases Nat.lt_or_ge hc created with hlt | hge
  · -- not registered yet: nothing is stored, nothing happens
    obtain ⟨hnone, hha, hhb⟩ := hinv.unregistered hlt
    have he := hdep.trans_lt hha
    have huntracked : isTracked db.ledger.erc20Contracts x = false := by simp [isTracked, hnone]
    rw [huntracked, if_neg Bool.false_ne_true] at hminted
    refine ⟨hacts ▸ hinv.activities, ?_, fun hce => absurd hlt (Nat.not_lt_of_le hce),
      fun _ => ⟨?_, hha, he⟩⟩
    · rw [hbalance, hsum, hminted, add_zero, hinv.sum, mintedUpTo_of_lt honchain hhb,
        mintedUpTo_of_lt honchain he]
    · rw [hnone] at htrack
      simpa using htrack
  · obtain ⟨htracked, hs⟩ := hinv.registered hge
    rw [if_pos htracked, (hperm.map _).sum_eq] at hminted
    refine ⟨hacts ▸ hinv.activities, ?_, fun _ => ⟨?_, ?_⟩,
      fun hcc => absurd hcc (Nat.not_lt_of_le hge)⟩
    · rw [hbalance, hsum, hminted, hinv.sum, mintedUpTo_add hgap]
    · unfold isTracked at htracked ⊢
      cases h' : db'.ledger.erc20Contracts.get? x <;>
        cases hd : db.ledger.erc20Contracts.get? x <;> simp_all
    · rw [hsupply, hs, hminted]
      exact congrArg (fun n => some (some n)) (mintedUpTo_add hgap)

theorem indexed_accounts {hc ha hb : ℕ} {db db' : Db}
    (hinv : IndexedUpTo chain x created hc ha hb db) (hacts : db'.activities = db.activities)
    (hledger : db'.ledger = db.ledger) : IndexedUpTo chain x created hc ha hb db' := by
  obtain ⟨h₁, h₂, h₃, h₄⟩ := hinv
  rw [← hacts] at h₁
  rw [← hledger] at h₂ h₃ h₄
  exact ⟨h₁, h₂, h₃, h₄⟩

/-- What a run that fails after creating accounts leaves. -/
theorem crawlMissingAccounts_getD (db : Db) (s e : ℕ) :
    ((crawlMissingAccounts db s e).toOption.getD db).activities = db.activities ∧
    ((crawlMissingAccounts db s e).toOption.getD db).ledger = db.ledger := by
  unfold crawlMissingAccounts
  simp only
  split <;> exact ⟨rfl, rfl⟩

/-- The activity job ends at or below the contract job, once that has a row. -/
theorem activity_end_lt (hready : heightOf st.checkpoints .handleErc20Contract = none →
      endOf chain st .handleErc20Activity Checkpoint.handleErc20Activity < created)
    (hlt : heightNow chain st .handleErc20Contract < created) :
    endOf chain st .handleErc20Activity Checkpoint.handleErc20Activity < created := by
  cases hh : heightOf st.checkpoints .handleErc20Contract with
  | none => exact hready hh
  | some h =>
    have hnow : heightNow chain st .handleErc20Contract = h := by
      rw [heightNow, startHeight, hh]
      rfl
    rw [hnow] at hlt
    exact (endOf_le (by decide) hh).trans_lt hlt

/-- The balance job ends at or below the activity job. -/
theorem balance_end_le (st : Erc20State) :
    endOf chain st .handleErc20Balance Checkpoint.handleErc20Balance ≤
      heightNow chain st .handleErc20Activity := by
  cases hh : heightOf st.checkpoints .handleErc20Activity with
  | none =>
    have hnone : ∀ d ∈ Checkpoint.handleErc20Balance.lastHeightJobNames,
        heightOf st.checkpoints d = none := by
      intro d hd
      rw [List.mem_singleton.mp hd, hh]
    have hzero : endOf chain st .handleErc20Balance Checkpoint.handleErc20Balance = 0 := by
      rw [endOf_eq]
      exact endHeight_eq_zero hnone
    rw [hzero]
    exact Nat.zero_le _
  | some h =>
    have hnow : heightNow chain st .handleErc20Activity = h := by
      rw [heightNow, startHeight, hh]
      rfl
    rw [hnow]
    exact endOf_le (by decide) hh

/-- What every step that meets the condition preserves. -/
theorem supplyInv_step (honchain : ContractOnChain chain x created) (st : Erc20State)
    (step : Erc20Step) (hinv : SupplyInv chain x created st)
    (hready : SupplyReady chain x created st step) :
    SupplyInv chain x created (erc20Step chain st step) := by
  have hheight := fun {j job} (habsent : job.rangeTest = .absent) (db : Db) j' =>
    @heightNow_runJob chain j job habsent st db j'
  cases step with
  | other j height =>
    simp only [erc20Step]
    split
    · exact hinv
    · next hj =>
      have hkeep : ∀ j', isErc20Job j' = true → heightNow chain
          { st with checkpoints := st.checkpoints.upsert ⟨j, height⟩ } j' =
            heightNow chain st j' := by
        intro j' hj'
        have hne : j ≠ j' := fun h => hj (h ▸ hj')
        unfold heightNow startHeight
        rw [heightOf_upsert, if_neg hne]
      unfold SupplyInv
      rw [hkeep .handleErc20Contract (by decide), hkeep .handleErc20Activity (by decide),
        hkeep .handleErc20Balance (by decide)]
      exact hinv
  | account address => exact indexed_accounts hinv rfl rfl
  | contract answeredAt =>
    simp only [SupplyInv, erc20Step]
    simp only [hheight (show Checkpoint.handleErc20Contract.rangeTest = .absent from rfl)]
    exact indexed_contract honchain hinv hready.1 hready.2
  | activity info =>
    simp only [erc20Step]
    split
    · exact hinv
    · next db hrun =>
      unfold SupplyInv
      simp only [hheight (show Checkpoint.handleErc20Activity.rangeTest = .absent from rfl)]
      exact indexed_activity honchain hinv hrun (activity_end_lt hready.1) hready.2
  | balance =>
    simp only [erc20Step]
    split
    · obtain ⟨hacts, hledger⟩ := crawlMissingAccounts_getD st.db
        (startOf chain st .handleErc20Balance Checkpoint.handleErc20Balance)
        (endOf chain st .handleErc20Balance Checkpoint.handleErc20Balance)
      exact indexed_accounts hinv hacts hledger
    · next db hrun =>
      unfold SupplyInv
      simp only [hheight (show Checkpoint.handleErc20Balance.rangeTest = .absent from rfl)]
      exact indexed_balance honchain hinv hrun (balance_end_le st) hready

theorem supplyInv_init (honchain : ContractOnChain chain x created) {accountBalances : Balances}
    (hfresh : ∀ b ∈ accountBalances.rows, b.denom ≠ x) (accounts : Accounts) :
    SupplyInv chain x created (erc20Init accountBalances accounts) := by
  have hzero : mintedUpTo chain.env chain.evs x chain.startBlock = 0 := mintedUpTo_of_lt honchain honchain.after
  refine ⟨?_, ?_, fun hle => absurd honchain.after (Nat.not_lt_of_le hle),
    fun _ => ⟨rfl, honchain.after, honchain.after⟩⟩
  · show List.Perm [] _
    rw [between_eq_nil]
    intro a ha _
    exact honchain.after.trans_le (honchain.activities a ha)
  · show balanceSum ⟨accountBalances, Table.empty⟩ x = mintedUpTo chain.env chain.evs x chain.startBlock
    rw [hzero]
    refine List.sum_eq_zero fun n hn => ?_
    obtain ⟨b, hb, rfl⟩ := List.mem_map.mp hn
    exact if_neg (hfresh b hb)

end SupplyLemmas

open SupplyLemmas

/-! ## 4. Results -/

/-- A contract created at 4860010 that mints 100 to an account at 4860020. -/
def mintChain : Erc20Chain :=
  let x := "0x80b5a32e4f032b2a058b4f29ec95eefeeb87adcd"
  let alice := "0xe88f8dcc7508528449ec5d7ff137937857fb60f2"
  let evs : Events := ⟨[transferLog 1 x ZERO_ADDRESS alice "0x64" 4860020 7], []⟩
  { env := wordEnv
    evs := evs
    smartContracts := [⟨x, true, 4860010⟩]
    totalSupplyAt := fun y h => some (mintedUpTo wordEnv evs y h)
    startBlock := 4860000 }

/-- The three jobs one after the other, once the jobs before them are at 4860050. -/
def mintSteps (answeredAt : ℕ) : List Erc20Step :=
  [.other .crawlSmartContractEvm 4860050, .other .handleEvmProxyHistory 4860050,
    .contract answeredAt, .activity ⟨fun _ => true, fun _ => none⟩, .balance]

theorem contractOnChain_mintChain :
    ContractOnChain mintChain "0x80b5a32e4f032b2a058b4f29ec95eefeeb87adcd" 4860010 :=
  ⟨by decide +kernel, by decide +kernel, by decide +kernel, by decide +kernel, by decide +kernel,
    fun _ => rfl⟩

end Erascope.Erc20
