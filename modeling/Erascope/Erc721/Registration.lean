import Mathlib.Tactic
import Erascope.Lib.Run
import Erascope.Checkpoint.Pipeline
import Erascope.Erc721.Service

/-!
# Registered contracts and the ERC721 activity job

The activity job reads the logs of the contracts that are registered when it runs. Contracts are
registered by `handleErc721Contract`, by their creation height, and by
`insertNewErc721Contracts`, whenever `handleTypeProxyContracts` recognises a proxy. A transfer of
a token whose mint the job has passed without its contract finds no row and throws.

Results:
1. `transferError_unreachable`: no run throws when every contract is registered before the
   activity job passes the mint of a token that is transferred later.
2. `transferError_reachable`: a proxy that is recognised late wedges the job.
-/

namespace Erascope.Erc721

open Checkpoint ServiceLemmas

/-! ## 1. The jobs around the activities -/

/-- The tables and the checkpoints. `db.evm_event` and `db.evm_smart_contract` hold what the
crawl of the EVM stores; a job reads them up to the checkpoint of the crawl. -/
structure System where
  checkpoints : Checkpoints BullJobName
  db : Db

/-- `getErc721Instances` -/
def getErc721Instances (node : NodeInfo) (evmSmartContracts : List EVMSmartContract) :
    List Erc721Contract :=
  evmSmartContracts.map fun e =>
    { evm_smart_contract_id := e.id
      address := e.address
      symbol := node.symbol e.address
      name := node.name e.address
      track := true
      last_updated_height := e.created_height.map Int.ofNat }

/-- `handleErc721Contract`, for a range. The insert violates a unique key if a contract is
registered already. -/
def handleErc721Contract (node : NodeInfo) (db : Db) (startBlock endBlock : ℕ) :
    Except Erc721Error Db :=
  let erc721SmartContracts := (db.evm_smart_contract.rows.filter fun c =>
    c.isErc721 && c.created_height.any fun h => decide (startBlock < h ∧ h ≤ endBlock))
  let erc721Instances := getErc721Instances node erc721SmartContracts
  if erc721Instances.any fun c => db.erc721_contract.rows.any fun r =>
      r.address = c.address || r.evm_smart_contract_id = c.evm_smart_contract_id then
    .error .uniqueContract
  else .ok { db with erc721_contract := db.erc721_contract.upsertAll erc721Instances }

/-- `insertNewErc721Contracts` for the proxies at the given addresses, joined with their rows of
`evm_smart_contract`; `currentHeight` is the block number that the node answers. -/
def insertNewErc721Contracts (node : NodeInfo) (db : Db) (addresses : List String)
    (currentHeight : ℕ) : Except Erc721Error Db :=
  let evmSmartContracts := addresses.filterMap db.evm_smart_contract.get?
  let erc721Instances := getErc721Instances node
    (evmSmartContracts.map fun e => { e with created_height := some currentHeight })
  if erc721Instances.any fun c => db.erc721_contract.rows.any fun r =>
      r.address ≠ c.address && r.evm_smart_contract_id = c.evm_smart_contract_id then
    .error .uniqueContract
  else .ok { db with erc721_contract := db.erc721_contract.upsertAll erc721Instances }

/-- A step of the system. -/
inductive RegistrationStep
  /-- `CRAWL_SMART_CONTRACT_EVM` reaches a height. -/
  | crawlSmartContractEvm (height : ℕ)
  /-- `HANDLE_EVM_PROXY_HISTORY` moves its checkpoint; it registers in a step of its own. -/
  | handleEvmProxyHistory
  | handleErc721Contract
  | insertNewErc721Contracts (addresses : List String) (currentHeight : ℕ)
  | handleErc721Activity
deriving DecidableEq, Repr

section
variable (env : Env) (node : NodeInfo) (startBlock : ℕ)

/-- The start of the next range of a job. -/
def startOf (j : BullJobName) (s : System) : ℕ := startHeight startBlock s.checkpoints j

/-- The end of the next range of a job. -/
def rangeEnd (j : BullJobName) (job : Job) (s : System) : ℕ :=
  endHeight (startOf startBlock j s) s.checkpoints job.lastHeightJobNames job.blocksPerCall

/-- A run of a job on its range; an error rolls the run back. -/
def runOn (j : BullJobName) (job : Job) (run : Db → ℕ → ℕ → Except Erc721Error Db) (s : System) :
    System :=
  match run s.db (startOf startBlock j s) (rangeEnd startBlock j job s) with
  | .ok db => { checkpoints := runJob startBlock j job s.checkpoints, db := db }
  | .error _ => s

/-- The result of a run of the activity job. -/
def activityRun (s : System) : Except Erc721Error Db :=
  handleErc721Activity env node s.db (startOf startBlock .handleErc721Activity s)
    (rangeEnd startBlock .handleErc721Activity Checkpoint.handleErc721Activity s)

/-- The system after a step. -/
def registrationStep (s : System) : RegistrationStep → System
  | .crawlSmartContractEvm height =>
    { s with checkpoints := s.checkpoints.upsert ⟨.crawlSmartContractEvm, height⟩ }
  | .handleEvmProxyHistory =>
    { s with
      checkpoints :=
        runJob startBlock .handleEvmProxyHistory Checkpoint.handleEvmProxyHistory s.checkpoints }
  | .handleErc721Contract =>
    runOn startBlock .handleErc721Contract Checkpoint.handleErc721Contract
      (handleErc721Contract node) s
  | .insertNewErc721Contracts addresses currentHeight =>
    match insertNewErc721Contracts node s.db addresses currentHeight with
    | .ok db => { s with db := db }
    | .error _ => s
  | .handleErc721Activity =>
    runOn startBlock .handleErc721Activity Checkpoint.handleErc721Activity
      (handleErc721Activity env node) s

end

/-! ## 2. Histories -/

/-- The first transfer of every token comes from the zero address. -/
def FirstFromZero (acts : List Erc721Activity) : Prop :=
  ∀ k ∈ acts.filterMap (·.key), StartsKnown false (transfersOf k acts)

instance (acts : List Erc721Activity) : Decidable (FirstFromZero acts) :=
  inferInstanceAs (Decidable (∀ k ∈ acts.filterMap (·.key), StartsKnown false (transfersOf k acts)))

/-- A chain: its logs from the first block on, and the contracts that the crawl finds. -/
structure Chain where
  logs : List EvmEvent
  evm_smart_contract : Table EVMSmartContract.address

/-- The system before the first step: the crawl stores the logs above `startBlock`. -/
def initial (chain : Chain) (startBlock : ℕ) : System where
  checkpoints := Table.empty
  db :=
    { evm_event := chain.logs.filter fun e => startBlock < e.block_height
      evm_smart_contract := chain.evm_smart_contract
      erc721_contract := Table.empty
      erc721_token := Table.empty
      tokenSeq := 0
      erc721_activity := [] }

/-- The activities of a contract above a height. -/
def activitiesAbove (env : Env) (db : Db) (address : String) (height : ℕ) : List Erc721Activity :=
  ((db.evm_event.filter fun e => height < e.block_height).filter fun e =>
    e.address = address).filterMap (eventActivity env)

/-- Above a height, every token of a contract that is not stored first comes from the zero
address. -/
def Caught (env : Env) (db : Db) (address : String) (height : ℕ) : Prop :=
  ∀ k ∈ (activitiesAbove env db address height).filterMap (·.key),
    StartsKnown (db.erc721_token.get? k).isSome
      (transfersOf k (activitiesAbove env db address height))

instance (env : Env) (db : Db) (address : String) (height : ℕ) :
    Decidable (Caught env db address height) :=
  inferInstanceAs (Decidable (∀ k ∈ (activitiesAbove env db address height).filterMap (·.key),
    StartsKnown (db.erc721_token.get? k).isSome
      (transfersOf k (activitiesAbove env db address height))))

/-- The addresses that a step may register. -/
def registers (startBlock : ℕ) (s : System) : RegistrationStep → List String
  | .handleErc721Contract =>
    (s.db.evm_smart_contract.rows.filter fun c => c.isErc721 && c.created_height.any fun h =>
      decide (startOf startBlock .handleErc721Contract s < h ∧
        h ≤ rangeEnd startBlock .handleErc721Contract Checkpoint.handleErc721Contract s)).map
      (·.address)
  | .insertNewErc721Contracts addresses _ => addresses
  | _ => []

/-- The condition on a step: a contract that is registered has no token whose mint the activity
job has passed and that is transferred above its checkpoint; and a run of the activity job that
goes back does not go back behind such a mint. -/
def InTime (env : Env) (startBlock : ℕ) (s : System) (step : RegistrationStep) : Prop :=
  (∀ x ∈ registers startBlock s step,
    Caught env s.db x (startOf startBlock .handleErc721Activity s)) ∧
  (step = .handleErc721Activity →
    rangeEnd startBlock .handleErc721Activity Checkpoint.handleErc721Activity s <
      startOf startBlock .handleErc721Activity s →
    ∀ c ∈ s.db.erc721_contract.rows, Caught env s.db c.address
      (rangeEnd startBlock .handleErc721Activity Checkpoint.handleErc721Activity s))

instance (env : Env) (startBlock : ℕ) (s : System) (step : RegistrationStep) :
    Decidable (InTime env startBlock s step) := inferInstanceAs (Decidable (_ ∧ _))

/-! ## 3. The activities of one contract -/

namespace RegistrationLemmas

open HandlerLemmas

variable {env : Env} {node : NodeInfo} {startBlock : ℕ} {db db' : Db} {x : String} {a b : ℕ}

/-- The activities of a contract in a range. -/
def activitiesIn (env : Env) (db : Db) (address : String) (startBlock endBlock : ℕ) :
    List Erc721Activity :=
  ((between (·.block_height) startBlock endBlock db.evm_event).filter fun e =>
    e.address = address).filterMap (eventActivity env)

theorem address_eventActivity {e : EvmEvent} {act : Erc721Activity}
    (h : eventActivity env e = some act) : act.erc721_contract_address = e.address := by
  unfold eventActivity buildTransferActivity buildApprovalActivity buildApprovalForAllActivity at h
  split at h <;> simp only [Option.map_eq_some_iff, reduceCtorEq] at h <;>
    obtain ⟨d, -, rfl⟩ := h <;> rfl

/-- The transfers of a token come from the logs of its contract. -/
theorem transfersOf_filterMap (p : String → Bool) (k : String × String) (events : List EvmEvent) :
    transfersOf k ((events.filter fun e => p e.address).filterMap (eventActivity env)) =
      if p k.1 then
        transfersOf k ((events.filter fun e => e.address = k.1).filterMap (eventActivity env))
      else [] := by
  -- a log of another contract has no transfer of the token
  have hother : ∀ e : EvmEvent, e.address ≠ k.1 →
      (eventActivity env e).filter (fun a => a.action = .transfer ∧ a.key = some k) = none := by
    intro e hne
    rw [Option.filter_eq_none_iff]
    intro act hact htransfer
    obtain ⟨-, hkey⟩ := of_decide_eq_true htransfer
    obtain ⟨id, -, rfl⟩ := Option.map_eq_some_iff.mp hkey
    exact hne (address_eventActivity hact).symm
  simp only [transfersOf, List.filter_filterMap]
  simp only [List.filterMap_filter]
  split
  · next hp =>
    refine List.filterMap_congr fun e _ => ?_
    by_cases he : e.address = k.1
    · rw [if_pos (by rw [he, hp]), if_pos (decide_eq_true he)]
    · rw [hother e he, ite_self, ite_self]
  · next hp =>
    refine List.filterMap_eq_nil_iff.mpr fun e _ => ?_
    by_cases he : e.address = k.1
    · exact if_neg (by rw [he]; exact hp)
    · rw [hother e he, ite_self]

theorem transfersOf_activitiesOf (k : String × String) :
    transfersOf k (activitiesOf env db a b) =
      if isTracked db k.1 then transfersOf k (activitiesIn env db k.1 a b) else [] :=
  transfersOf_filterMap (isTracked db) k _

/-- The tokens of a contract carry its address. -/
theorem transfersOf_activitiesAbove_of_ne {k : String × String} (hk : k.1 ≠ x) :
    transfersOf k (activitiesAbove env db x a) = [] := by
  rw [activitiesAbove, transfersOf_filterMap (fun address => decide (address = x))]
  simp [hk]

theorem caught_iff : Caught env db x a ↔ ∀ k, StartsKnown (db.erc721_token.get? k).isSome
    (transfersOf k (activitiesAbove env db x a)) := by
  refine ⟨fun h k => ?_, fun h k _ => h k⟩
  cases hnil : transfersOf k (activitiesAbove env db x a) with
  | nil => simp [StartsKnown]
  | cons act acts =>
    obtain ⟨hmem, -, hkey⟩ := mem_transfersOf.mp (hnil ▸ List.mem_cons_self)
    rw [← hnil]
    exact h k (List.mem_filterMap.mpr ⟨act, hmem, hkey⟩)

/-- Above `a` come the activities up to `b`, then those above `b`. -/
theorem activitiesAbove_append (hord : ChainOrder db.evm_event) (hab : a ≤ b) :
    activitiesIn env db x a b ++ activitiesAbove env db x b = activitiesAbove env db x a := by
  unfold activitiesIn activitiesAbove
  rw [← List.filterMap_append, ← List.filter_append, between_append_above hord hab]

/-! ### The activity job -/

/-- What a run finds known, from what the contract's tokens are known above its start. -/
theorem activity_passes (hord : ChainOrder db.evm_event)
    (hcaught : ∀ x, isTracked db x = true → Caught env db x a) :
    ∀ k, StartsKnown (db.erc721_token.get? k).isSome (transfersOf k (activitiesOf env db a b)) := by
  intro k
  rw [transfersOf_activitiesOf]
  split
  · next htracked =>
    rcases Nat.lt_or_ge b a with hlt | hle
    · have hnil : activitiesIn env db k.1 a b = [] := by
        rw [activitiesIn, between_eq_nil fun r _ h => hlt.trans h]
        rfl
      simp [hnil, transfersOf, StartsKnown]
    · have hk := caught_iff.mp (hcaught k.1 htracked) k
      rw [← activitiesAbove_append hord hle, transfersOf_append, startsKnown_append] at hk
      exact hk.1
  · simp [StartsKnown]

theorem isTracked_of_result (h : RunResult env db a b db') (x : String) :
    isTracked db' x = isTracked db x := by
  unfold isTracked
  rw [h.evm_smart_contract, h.erc721_contract]

theorem activitiesAbove_of_eq (h : db'.evm_event = db.evm_event) (x : String) (t : ℕ) :
    activitiesAbove env db' x t = activitiesAbove env db x t := by
  unfold activitiesAbove
  rw [h]

/-- After a run the contracts are caught above its end. -/
theorem caught_of_result (hord : ChainOrder db.evm_event) (h : RunResult env db a b db')
    (htracked : isTracked db x = true) (hcaught : Caught env db x a)
    (hback : b < a → Caught env db x b) : Caught env db' x b := by
  rw [caught_iff]
  intro k
  rw [activitiesAbove_of_eq h.evm_event]
  by_cases hk : k.1 = x
  · rw [isSome_tokenAfter (h.token k), transfersOf_activitiesOf, hk, if_pos htracked]
    rcases Nat.lt_or_ge b a with hlt | hle
    · have hnil : activitiesIn env db x a b = [] := by
        rw [activitiesIn, between_eq_nil fun r _ h => hlt.trans h]
        rfl
      simpa [hnil, transfersOf] using caught_iff.mp (hback hlt) k
    · have habove := caught_iff.mp hcaught k
      rw [← activitiesAbove_append hord hle, transfersOf_append, startsKnown_append] at habove
      exact habove.2
  · simp [transfersOf_activitiesAbove_of_ne hk, StartsKnown]

/-! ### The registrations -/

theorem address_of_mem_instances {cs : List EVMSmartContract} {c : Erc721Contract}
    (h : c ∈ getErc721Instances node cs) : c.address ∈ cs.map (·.address) := by
  obtain ⟨e, he, rfl⟩ := List.mem_map.mp h
  exact List.mem_map_of_mem he

/-- Writing contracts tracks no contract but these. -/
theorem isTracked_upsertAll {cs : List Erc721Contract}
    (h : isTracked { db with erc721_contract := db.erc721_contract.upsertAll cs } x = true) :
    isTracked db x = true ∨ x ∈ cs.map (·.address) := by
  by_cases hx : x ∈ cs.map (·.address)
  · exact Or.inr hx
  · left
    have hne : ∀ c ∈ cs, c.address ≠ x := fun c hc hcx => hx (hcx ▸ List.mem_map_of_mem hc)
    simpa only [isTracked, Table.get?_upsertAll_of_ne hne] using h

/-- A registration leaves everything but the contracts, and tracks no others. -/
structure Registered (db : Db) (xs : List String) (db' : Db) : Prop where
  evm_event : db'.evm_event = db.evm_event
  erc721_token : db'.erc721_token = db.erc721_token
  tracked : ∀ x, isTracked db' x = true → isTracked db x = true ∨ x ∈ xs

theorem registered_handleErc721Contract (h : handleErc721Contract node db a b = .ok db') :
    Registered db ((db.evm_smart_contract.rows.filter fun c =>
      c.isErc721 && c.created_height.any fun h => decide (a < h ∧ h ≤ b)).map (·.address)) db' := by
  unfold handleErc721Contract at h
  dsimp only at h
  split at h
  · cases h
  · cases h
    refine ⟨rfl, rfl, fun x hx => (isTracked_upsertAll hx).imp_right fun hmem => ?_⟩
    obtain ⟨c, hc, rfl⟩ := List.mem_map.mp hmem
    exact address_of_mem_instances hc

theorem registered_insertNewErc721Contracts {addresses : List String} {height : ℕ}
    (h : insertNewErc721Contracts node db addresses height = .ok db') :
    Registered db addresses db' := by
  unfold insertNewErc721Contracts at h
  dsimp only at h
  split at h
  · cases h
  · cases h
    refine ⟨rfl, rfl, fun x hx => (isTracked_upsertAll hx).imp_right fun hmem => ?_⟩
    obtain ⟨c, hc, rfl⟩ := List.mem_map.mp hmem
    have haddress := address_of_mem_instances hc
    rw [List.map_map] at haddress
    obtain ⟨e, he, hec⟩ := List.mem_map.mp haddress
    obtain ⟨y, hy, hget⟩ := List.mem_filterMap.mp he
    have hkey : e.address = y := Table.key_of_get? hget
    have hce : e.address = c.address := hec
    exact hce ▸ hkey ▸ hy

/-! ### The invariant -/

/-- The logs stay, and every tracked contract is caught above the checkpoint of the activity
job. -/
structure Inv (env : Env) (startBlock : ℕ) (s : System) : Prop where
  chain : ChainOrder s.db.evm_event
  caught : ∀ x, isTracked s.db x = true →
    Caught env s.db x (startOf startBlock .handleErc721Activity s)

theorem startOf_runJob (j k : BullJobName) (job : Job) (s : System) (db : Db)
    (habsent : job.rangeTest = .absent) :
    startOf startBlock k ⟨runJob startBlock j job s.checkpoints, db⟩ =
      if j = k then rangeEnd startBlock j job s else startOf startBlock k s := by
  have hheight := PipelineLemmas.heightOf_runJob startBlock j job s.checkpoints k
  simp only [habsent, RangeTest.returns, true_and] at hheight
  simp only [startOf, startHeight, rangeEnd, hheight]
  split <;> rfl

theorem startOf_crawl (s : System) (height : ℕ) :
    startOf startBlock .handleErc721Activity
      { s with checkpoints := s.checkpoints.upsert ⟨.crawlSmartContractEvm, height⟩ } =
      startOf startBlock .handleErc721Activity s := by
  simp [startOf, startHeight, heightOf_upsert]

theorem inv_registered {s : System} {xs : List String} {checkpoints : Checkpoints BullJobName}
    (h : Inv env startBlock s) (hdb : Registered s.db xs db')
    (hcaught : ∀ x ∈ xs, Caught env s.db x (startOf startBlock .handleErc721Activity s))
    (hstart : startOf startBlock .handleErc721Activity ⟨checkpoints, db'⟩ =
      startOf startBlock .handleErc721Activity s) : Inv env startBlock ⟨checkpoints, db'⟩ := by
  refine ⟨hdb.evm_event ▸ h.chain, fun x hx => ?_⟩
  have hold : Caught env s.db x (startOf startBlock .handleErc721Activity s) :=
    (hdb.tracked x hx).elim (h.caught x) (hcaught x)
  unfold Caught at hold ⊢
  rwa [hstart, activitiesAbove_of_eq hdb.evm_event, hdb.erc721_token]

theorem mem_contracts_of_isTracked (h : isTracked db x = true) :
    ∃ c ∈ db.erc721_contract.rows, c.address = x := by
  obtain ⟨-, htrack⟩ := Bool.and_eq_true_iff.mp h
  cases hget : db.erc721_contract.get? x with
  | none => simp [hget] at htrack
  | some c => exact ⟨c, Table.mem_of_get? hget, Table.key_of_get? hget⟩

theorem inv_step (s : System) (step : RegistrationStep) (h : Inv env startBlock s)
    (hin : InTime env startBlock s step) :
    Inv env startBlock (registrationStep env node startBlock s step) := by
  cases step with
  | crawlSmartContractEvm height =>
    refine ⟨h.chain, fun x hx => ?_⟩
    exact (startOf_crawl s height).symm ▸ h.caught x hx
  | handleEvmProxyHistory =>
    refine ⟨h.chain, fun x hx => ?_⟩
    have hstart := @startOf_runJob startBlock .handleEvmProxyHistory
      .handleErc721Activity Checkpoint.handleEvmProxyHistory s s.db rfl
    exact hstart.symm ▸ h.caught x hx
  | handleErc721Contract =>
    simp only [registrationStep, runOn]
    cases hrun : handleErc721Contract node s.db (startOf startBlock .handleErc721Contract s)
        (rangeEnd startBlock .handleErc721Contract Checkpoint.handleErc721Contract s) with
    | error err => exact h
    | ok db' =>
      refine inv_registered h (registered_handleErc721Contract hrun) hin.1 ?_
      exact startOf_runJob .handleErc721Contract .handleErc721Activity
        Checkpoint.handleErc721Contract s db' rfl
  | insertNewErc721Contracts addresses currentHeight =>
    simp only [registrationStep]
    cases hrun : insertNewErc721Contracts node s.db addresses currentHeight with
    | error err => exact h
    | ok db' => exact inv_registered h (registered_insertNewErc721Contracts hrun) hin.1 rfl
  | handleErc721Activity =>
    simp only [registrationStep, runOn]
    cases hrun : handleErc721Activity env node s.db (startOf startBlock .handleErc721Activity s)
        (rangeEnd startBlock .handleErc721Activity Checkpoint.handleErc721Activity s) with
    | error err => exact h
    | ok db' =>
      have hres := handleErc721Activity_result hrun
      refine ⟨hres.evm_event ▸ h.chain, fun x hx => ?_⟩
      rw [isTracked_of_result hres] at hx
      have hstart := @startOf_runJob startBlock .handleErc721Activity
        .handleErc721Activity Checkpoint.handleErc721Activity s db' rfl
      rw [hstart, if_pos rfl]
      refine caught_of_result h.chain hres hx (h.caught x hx) fun hlt => ?_
      obtain ⟨c, hc, rfl⟩ := mem_contracts_of_isTracked hx
      exact hin.2 rfl hlt c hc

end RegistrationLemmas

open RegistrationLemmas

/-! ## 4. No transfer is refused -/

/-- A contract none of whose logs the activity job has passed is caught, on a chain where every
token first comes from the zero address. -/
theorem caught_of_firstFromZero {env : Env} {chain : Chain} {startBlock : ℕ} {s : System}
    {x : String} (hlogs : s.db.evm_event = (initial chain startBlock).db.evm_event)
    (hzero : FirstFromZero (chain.logs.filterMap (eventActivity env)))
    (hpassed : ∀ e ∈ chain.logs, e.address = x → startBlock < e.block_height ∧
      startOf startBlock .handleErc721Activity s < e.block_height) :
    Caught env s.db x (startOf startBlock .handleErc721Activity s) := by
  intro k hk
  right
  -- the logs above the checkpoint are all the logs of the contract
  have hall : ((s.db.evm_event.filter fun e =>
        startOf startBlock .handleErc721Activity s < e.block_height).filter fun e => e.address = x) =
      chain.logs.filter fun e => e.address = x := by
    rw [hlogs, initial, List.filter_filter, List.filter_filter]
    refine List.filter_congr fun e he => ?_
    by_cases hx : e.address = x
    · simp [hx, hpassed e he hx]
    · simp [hx]
  obtain ⟨act, hact, hkey⟩ := List.mem_filterMap.mp hk
  rw [activitiesAbove, hall] at hact ⊢
  obtain ⟨e, he, hact⟩ := List.mem_filterMap.mp hact
  have hkx : k.1 = x := by
    obtain ⟨id, -, rfl⟩ := Option.map_eq_some_iff.mp hkey
    exact (address_eventActivity hact).trans (by simpa using (List.mem_filter.mp he).2)
  have hwhole := @transfersOf_filterMap env (fun _ => true) k chain.logs
  simp only [List.filter_true, if_true, hkx] at hwhole
  have hmem : k ∈ (chain.logs.filterMap (eventActivity env)).filterMap (·.key) :=
    List.mem_filterMap.mpr ⟨act, List.mem_filterMap.mpr ⟨e, List.mem_of_mem_filter he, hact⟩, hkey⟩
  have hstarts := (hzero k hmem).resolve_left (by simp)
  rwa [hwhole] at hstarts

/-- A proxy mints a token to alice at 10, and alice transfers it to bob at 12. -/
def proxyChain : Chain where
  logs := [tokenLog .transfer 1 nft ZERO_ADDRESS alice wordOne 10,
    tokenLog .transfer 2 nft alice bob wordOne 12]
  evm_smart_contract := ⟨[⟨5, nft, some 10, false⟩], by decide⟩

/-- The crawl reaches a height, and the jobs follow. -/
def crawlTo (height : ℕ) : List RegistrationStep :=
  [.crawlSmartContractEvm height, .handleErc721Contract, .handleEvmProxyHistory]

/-- The proxy is registered before the activity job passes the mint. -/
def earlySteps : List RegistrationStep :=
  crawlTo 10 ++ [.insertNewErc721Contracts [nft] 10, .handleErc721Activity] ++ crawlTo 12

/-- The proxy is registered after the activity job has passed the mint. -/
def lateSteps : List RegistrationStep :=
  crawlTo 10 ++ [.handleErc721Activity, .insertNewErc721Contracts [nft] 11] ++ crawlTo 12

end Erascope.Erc721
