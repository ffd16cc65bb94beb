import Mathlib.Tactic
import Erascope.Lib.EventJob
import Erascope.Lib.Run
import Erascope.Checkpoint.Follow
import Erascope.CrawlCosmwasm.SmartContract
import Erascope.Ibc.App

/-!
# Events of contracts

The model of `crawl_contract_event.service.ts` and of `getContractActivities` in
`common/utils/smart_contract.ts`. A run makes a row of every event `wasm` or `instantiate` of its
range, with the id of the contract that the event names. The query of the contracts has no order,
and a contract has one row for each of its versions, so that any of them may be named. A contract
that has no row is crawled on the way; the run then throws nevertheless, for it goes on with the
answer it had.

`HANDLE_TRANSACTION` stores the events, `CRAWL_SMART_CONTRACT` and `HANDLE_MIGRATE_CONTRACT` the
contracts; runs of the jobs alternate in any order.

Results:
1. `contract_events_replay`: in every run the table is the replay of the events up to the
   checkpoint.
2. `jobHandler_commits_iff`: a run commits if and only if every event of its range belongs to a
   transaction and names a contract that has a row.
3. `second_run_commits`: after a run that has crawled what was missing, the next one commits.
4. `stops_before`: an event of a block, which has no transaction, and one whose contract has no row
   are never passed.
-/

namespace Erascope.CrawlCosmwasm.ContractEvent

open Checkpoint
open Ibc (Event EventAttribute getAttributeFrom)

/-! ## 1. Tables -/

/-- A row of `smart_contract_event` with its rows of `smart_contract_event_attribute`. -/
structure SmartContractEvent where
  smart_contract_id : ℕ
  action : Option String
  event_id : ℕ
  index : ℕ
  tx_id : ℕ
  attributes : List (String × String)
deriving DecidableEq, Repr

/-- The tables of the jobs. The position of a contract is its id. -/
structure Db where
  event : List Event
  smart_contract : List SmartContract
  smart_contract_event : List SmartContractEvent
  block_checkpoint : Checkpoints BullJobName

/-- `Event.EVENT_TYPE` -/
def wasm : String := "wasm"
@[inherit_doc wasm] def instantiate : String := "instantiate"

/-- `EventAttribute.ATTRIBUTE_KEY` -/
def contractAddressKey : String := "_contract_address"
@[inherit_doc contractAddressKey] def actionKey : String := "action"

/-! ## 2. The job -/

/-- `IContractMsgInfo` -/
structure IContractMsgInfo where
  contractAddress : Option String
  action : Option String
  attributes : List EventAttribute
  tx : Option ℕ
  event_id : ℕ
  index : ℕ
deriving DecidableEq, Repr

/-- The activity of the event at position `index` of the answer. A value that is missing and the
value null end a run alike. -/
def contractActivity (wasmEvent : Event) (index : ℕ) : IContractMsgInfo where
  contractAddress := (getAttributeFrom wasmEvent.attributes contractAddressKey).join
  action :=
    if wasmEvent.type = instantiate then some instantiate
    else (getAttributeFrom wasmEvent.attributes actionKey).join
  attributes := wasmEvent.attributes
  tx := wasmEvent.tx_id
  event_id := wasmEvent.id
  index := index

/-- The events that `getContractActivities` selects. -/
def wasmEvents (event : List Event) : List Event :=
  event.filter fun e => e.type ∈ [wasm, instantiate]

/-- `getContractActivities` -/
def getContractActivities (event : List Event) (fromBlock toBlock : ℕ) : List IContractMsgInfo :=
  (((between (·.block_height) fromBlock toBlock (wasmEvents event)).insertionSort
    fun a b => a.id ≤ b.id).zipIdx).map fun e => contractActivity e.1 e.2

/-- `getContractByAddress`: the last row of the answer that has the address. -/
def getContractByAddress (smart_contract : List SmartContract)
    (order : AnyOrder (SmartContract × ℕ))
    (addresses : List String) (address : String) : Option ℕ :=
  ((order.order (smart_contract.zipIdx.filter fun c => c.1.address ∈ addresses)).filter
    fun c => c.1.address = address).getLast?.map (·.2)

/-- The row of an activity; `none` when the transaction or the contract is undefined. The validator
turns a value null into `''`. -/
def contractEventRow (contractByAddress : String → Option ℕ) (contractEvent : IContractMsgInfo) :
    Option SmartContractEvent := do
  let address ← contractEvent.contractAddress
  let tx_id ← contractEvent.tx
  let smartContractId ← contractByAddress address
  return {
    smart_contract_id := smartContractId
    action := contractEvent.action
    event_id := contractEvent.event_id
    index := contractEvent.index
    tx_id := tx_id
    attributes := contractEvent.attributes.map fun a => (a.key, a.value.getD "") }

/-- What the node answers about contracts. -/
structure Node where
  contractCw2s : String → Option Cw2
  contractInfos : String → Option ContractInfo

/-- `CrawlMissingContract`: nothing is stored when the insertion fails. -/
def crawlMissingContract (node : Node) (smart_contract : List SmartContract)
    (addresses : List String) : List SmartContract :=
  match insertNewContracts node.contractCw2s node.contractInfos smart_contract
      (addresses.map fun address => ⟨address, "", 0⟩) with
  | .ok table => table
  | .error _ => smart_contract

/-- The addresses without a row, each once. -/
def missingContracts (contractByAddress : String → Option ℕ) (addresses : List String) :
    List String :=
  (addresses.filter fun address => (contractByAddress address).isNone).dedup

/-- The end of a run: the rows and the checkpoint, or nothing. -/
def commitEvents (db : Db) (contractByAddress : String → Option ℕ)
    (contractEvents : List IContractMsgInfo) (checkpoints : Checkpoints BullJobName) : Db :=
  match contractEvents.mapM (contractEventRow contractByAddress) with
  | none => db
  | some rows =>
    { db with
      smart_contract_event := db.smart_contract_event ++ rows
      block_checkpoint := checkpoints }

/-- The rest of a run, for the activities of its range. -/
def handleActivities (order : AnyOrder (SmartContract × ℕ)) (node : Node) (db : Db)
    (contractEvents : List IContractMsgInfo) (checkpoints : Checkpoints BullJobName) : Db :=
  match contractEvents.mapM (·.contractAddress) with
  -- the query of the contracts throws
  | none => db
  | some addresses =>
    let contractByAddress := getContractByAddress db.smart_contract order addresses
    let missing := missingContracts contractByAddress addresses
    let db :=
      if missing.isEmpty then db
      else { db with smart_contract := crawlMissingContract node db.smart_contract missing }
    commitEvents db contractByAddress contractEvents checkpoints

/-- The `CRAWL_CONTRACT_EVENT` checkpoint. -/
def reached (startBlock : ℕ) (db : Db) : ℕ :=
  startHeight startBlock db.block_checkpoint .crawlContractEvent

/-- The end of the range of the next run. -/
def nextEnd (startBlock : ℕ) (db : Db) : ℕ :=
  rangeEnd startBlock .crawlContractEvent crawlContractEvent db.block_checkpoint

/-- `jobHandler` -/
def jobHandler (startBlock : ℕ) (order : AnyOrder (SmartContract × ℕ)) (node : Node) (db : Db) :
    Db :=
  if crawlContractEvent.rangeTest.returns (reached startBlock db) (nextEnd startBlock db) then db
  else
    handleActivities order node db
      (getContractActivities db.event (reached startBlock db) (nextEnd startBlock db))
      (runJob startBlock .crawlContractEvent crawlContractEvent db.block_checkpoint)

/-! ## 3. Runs -/

/-- A commit of one of the jobs. -/
inductive Step
  /-- `HANDLE_TRANSACTION` stores the events of the blocks up to `endBlock`. -/
  | handleTransaction (event : List Event) (endBlock : ℕ)
  | crawlCode
  | crawlSmartContract (node : Node) (contracts : List IInstantiateContracts)
  /-- `HANDLE_MIGRATE_CONTRACT` adds rows and marks the rows `old`. -/
  | handleMigrateContract (new : List SmartContract) (old : SmartContract → Bool)
  | crawlContractEvent (order : AnyOrder (SmartContract × ℕ)) (node : Node)

/-- The events follow the blocks that `HANDLE_TRANSACTION` has handled. -/
def BatchOk (startBlock : ℕ) (db : Db) (event : List Event) (endBlock : ℕ) : Prop :=
  handledHeight startBlock db.block_checkpoint < endBlock ∧
    ∀ e ∈ event, handledHeight startBlock db.block_checkpoint < e.block_height ∧
      e.block_height ≤ endBlock

instance (startBlock : ℕ) (db : Db) (event : List Event) (endBlock : ℕ) :
    Decidable (BatchOk startBlock db event endBlock) :=
  inferInstanceAs (Decidable (_ ∧ ∀ e ∈ event, _ ∧ _))

def step (startBlock : ℕ) (db : Db) : Step → Db
  | .handleTransaction event endBlock =>
    if BatchOk startBlock db event endBlock then
      { db with
        event := db.event ++ event
        block_checkpoint :=
          storeCheckpoint db.block_checkpoint ⟨.handleTransaction, endBlock⟩ endBlock }
    else db
  | .crawlCode =>
    { db with block_checkpoint := runJob startBlock .crawlCode crawlCode db.block_checkpoint }
  | .crawlSmartContract node contracts =>
    match insertNewContracts node.contractCw2s node.contractInfos db.smart_contract contracts with
    | .error _ => db
    | .ok smart_contract =>
      { db with
        smart_contract := smart_contract
        block_checkpoint :=
          runJob startBlock .crawlSmartContract crawlSmartContract db.block_checkpoint }
  | .handleMigrateContract new old =>
    { db with
      smart_contract :=
        db.smart_contract.map (fun c => if old c then { c with status := .migrated } else c) ++
          new }
  | .crawlContractEvent order node => jobHandler startBlock order node db

def Db.initial : Db := ⟨[], [], [], Table.empty⟩

/-! ## 4. The property -/

/-- What a row says, with the contract by its address and without the position of the event. -/
structure EventInfo where
  address : String
  action : Option String
  event_id : ℕ
  tx_id : ℕ
  attributes : List (String × String)
deriving DecidableEq, Repr

/-- A contract has a row. -/
def Known (db : Db) (address : String) : Prop := ∃ c ∈ db.smart_contract, c.address = address

instance (db : Db) (address : String) : Decidable (Known db address) :=
  inferInstanceAs (Decidable (∃ c ∈ db.smart_contract, _))

/-- What a row of an event is to say. -/
def eventInfo (db : Db) (e : Event) : Option EventInfo := do
  let address ← (contractActivity e 0).contractAddress
  let tx_id ← e.tx_id
  if Known db address then
    return {
      address := address
      action := (contractActivity e 0).action
      event_id := e.id
      tx_id := tx_id
      attributes := e.attributes.map fun a => (a.key, a.value.getD "") }
  else none

/-- What a row says. -/
def rowInfo (db : Db) (r : SmartContractEvent) : Option EventInfo :=
  (db.smart_contract[r.smart_contract_id]?).map fun c =>
    { address := c.address
      action := r.action
      event_id := r.event_id
      tx_id := r.tx_id
      attributes := r.attributes }

/-- The job as one that makes a row of each event. -/
def eventJob : EventJob Db Event EventInfo where
  events db := wasmEvents db.event
  height := (·.block_height)
  Row db e info := eventInfo db e = some info

/-- Every event of the range of the next run has a row to come. -/
def AllFine (startBlock : ℕ) (db : Db) : Prop :=
  ∀ e ∈ wasmEvents db.event, reached startBlock db < e.block_height →
    e.block_height ≤ nextEnd startBlock db → (eventInfo db e).isSome

instance (startBlock : ℕ) (db : Db) : Decidable (AllFine startBlock db) :=
  inferInstanceAs (Decidable (∀ e ∈ wasmEvents db.event, _ → _ → _))

/-! ## 5. Rows -/

namespace ContractEventLemmas

variable {startBlock : ℕ} {db db' : Db}

/-- The contracts stay where they are, with their addresses. -/
def ContractsStay (db db' : Db) : Prop :=
  ∀ (i : ℕ) (c : SmartContract), db.smart_contract[i]? = some c →
    ∃ c', db'.smart_contract[i]? = some c' ∧ c'.address = c.address

theorem contractsStay_append (db : Db) (new : List SmartContract) (rows : List SmartContractEvent)
    (event : List Event) (t : Checkpoints BullJobName) :
    ContractsStay db ⟨event, db.smart_contract ++ new, rows, t⟩ := by
  intro i c hc
  have hlt := (List.getElem?_eq_some_iff.mp hc).1
  exact ⟨c, by rw [List.getElem?_append_left hlt]; exact hc, rfl⟩

theorem ContractsStay.known (h : ContractsStay db db') {address : String} (hk : Known db address) :
    Known db' address := by
  obtain ⟨c, hc, rfl⟩ := hk
  obtain ⟨i, hi⟩ := List.mem_iff_getElem?.mp hc
  obtain ⟨c', hc', haddress⟩ := h i c hi
  exact ⟨c', List.mem_of_getElem? hc', haddress⟩

theorem ContractsStay.rowInfo (h : ContractsStay db db') {r : SmartContractEvent} {info : EventInfo}
    (hr : rowInfo db r = some info) : rowInfo db' r = some info := by
  obtain ⟨c, hc, rfl⟩ := Option.map_eq_some_iff.mp hr
  obtain ⟨c', hc', haddress⟩ := h _ c hc
  rw [ContractEvent.rowInfo, hc', Option.map_some, haddress]

/-- When an event has a row. -/
theorem isSome_eventInfo_iff {e : Event} : (eventInfo db e).isSome ↔ e.tx_id ≠ none ∧
    ∃ address, (contractActivity e 0).contractAddress = some address ∧ Known db address := by
  rw [eventInfo]
  cases haddress : (contractActivity e 0).contractAddress with
  | none => simp
  | some address =>
    cases htx : e.tx_id with
    | none => simp
    | some tx_id =>
      by_cases hknown : Known db address
      · simp [hknown]
      · simp [hknown]

theorem ContractsStay.eventInfo (h : ContractsStay db db') {e : Event}
    (he : (eventInfo db e).isSome) : eventInfo db' e = eventInfo db e := by
  obtain ⟨htx, address, haddress, hknown⟩ := isSome_eventInfo_iff.mp he
  obtain ⟨tx_id, htx⟩ := Option.ne_none_iff_exists'.mp htx
  simp only [ContractEvent.eventInfo, haddress, htx, Option.bind_eq_bind, Option.bind_some,
    if_pos hknown, if_pos (h.known hknown)]

/-- What `getContractByAddress` finds is a row with the address, and it finds one if there is
one. -/
theorem getContractByAddress_spec (smart_contract : List SmartContract)
    (order : AnyOrder (SmartContract × ℕ)) {addresses : List String} {address : String}
    (hmem : address ∈ addresses) :
    match getContractByAddress smart_contract order addresses address with
    | some i => ∃ c, smart_contract[i]? = some c ∧ c.address = address
    | none => ∀ c ∈ smart_contract, c.address ≠ address := by
  have hrows : ∀ c : SmartContract × ℕ,
      c ∈ (order.order (smart_contract.zipIdx.filter fun c => c.1.address ∈ addresses)).filter
        (fun c => c.1.address = address) ↔
      smart_contract[c.2]? = some c.1 ∧ c.1.address = address := by
    intro c
    rw [List.mem_filter, (order.perm _).mem_iff, List.mem_filter, List.mem_zipIdx_iff_getElem?]
    simp only [decide_eq_true_eq]
    exact ⟨fun h => ⟨h.1.1, h.2⟩, fun h => ⟨⟨h.1, by rw [h.2]; exact hmem⟩, h.2⟩⟩
  split
  case h_1 i hi =>
    obtain ⟨c, hc, rfl⟩ := Option.map_eq_some_iff.mp hi
    exact ⟨c.1, (hrows c).mp (List.mem_of_getLast? hc)⟩
  case h_2 hi =>
    intro c hc haddress
    obtain ⟨i, hc⟩ := List.mem_iff_getElem?.mp hc
    have hnil := List.getLast?_eq_none_iff.mp (Option.map_eq_none_iff.mp hi)
    exact List.ne_nil_of_mem ((hrows (c, i)).mpr ⟨hc, haddress⟩) hnil

theorem getContractByAddress_isSome_iff (db : Db) (order : AnyOrder (SmartContract × ℕ))
    {addresses : List String} {address : String} (hmem : address ∈ addresses) :
    (getContractByAddress db.smart_contract order addresses address).isSome ↔ Known db address := by
  have hspec := getContractByAddress_spec db.smart_contract order hmem
  cases hi : getContractByAddress db.smart_contract order addresses address with
  | none =>
    rw [hi] at hspec
    exact ⟨fun h => by simp at h, fun ⟨c, hc, haddress⟩ => absurd haddress (hspec c hc)⟩
  | some i =>
    rw [hi] at hspec
    obtain ⟨c, hc, haddress⟩ := hspec
    exact ⟨fun _ => ⟨c, List.mem_of_getElem? hc, haddress⟩, fun _ => rfl⟩

/-- The row of an event says what it is to say. -/
theorem rowInfo_of_row {order : AnyOrder (SmartContract × ℕ)} {addresses : List String} {e : Event}
    {index : ℕ} {r : SmartContractEvent}
    (hmem : ∀ address, (contractActivity e index).contractAddress = some address →
      address ∈ addresses)
    (hr : contractEventRow (getContractByAddress db.smart_contract order addresses)
      (contractActivity e index) = some r) : rowInfo db r = eventInfo db e := by
  simp only [contractEventRow, Option.bind_eq_bind, Option.bind_eq_some_iff] at hr
  obtain ⟨address, haddress, tx_id, htx, i, hi, hr⟩ := hr
  have hspec := getContractByAddress_spec db.smart_contract order (hmem address haddress)
  rw [hi] at hspec
  obtain ⟨c, hc, hcaddress⟩ := hspec
  have hknown : Known db address := ⟨c, List.mem_of_getElem? hc, hcaddress⟩
  have haddress' : (contractActivity e 0).contractAddress = some address := haddress
  have htx' : e.tx_id = some tx_id := htx
  cases hr
  simp only [rowInfo, hc, eventInfo, haddress', htx', Option.map_some, Option.bind_eq_bind,
    Option.bind_some, if_pos hknown, hcaddress]
  rfl

theorem isSome_row_iff {order : AnyOrder (SmartContract × ℕ)} {addresses : List String} {e : Event}
    {index : ℕ} (hmem : ∀ address, (contractActivity e index).contractAddress = some address →
      address ∈ addresses) :
    (contractEventRow (getContractByAddress db.smart_contract order addresses)
      (contractActivity e index)).isSome ↔ (eventInfo db e).isSome := by
  rw [isSome_eventInfo_iff]
  have haddress0 : (contractActivity e 0).contractAddress =
    (contractActivity e index).contractAddress := rfl
  have htx0 : e.tx_id = (contractActivity e index).tx := rfl
  rw [haddress0, htx0, contractEventRow]
  cases haddress : (contractActivity e index).contractAddress with
  | none => simp
  | some address =>
    have hsome := getContractByAddress_isSome_iff db order (hmem address haddress)
    cases htx : (contractActivity e index).tx with
    | none => simp
    | some tx_id =>
      rw [Option.bind_eq_bind, Option.bind_some, Option.bind_eq_bind, Option.bind_some]
      simp only [ne_eq, reduceCtorEq, not_false_eq_true, Option.some.injEq, true_and,
        exists_eq_left']
      rw [← hsome]
      cases getContractByAddress db.smart_contract order addresses address <;> rfl

/-! ## 6. One run -/

/-- The events of the range of the next run, in the order in which the run takes them. -/
def readEvents (startBlock : ℕ) (db : Db) : List Event :=
  (between (·.block_height) (reached startBlock db) (nextEnd startBlock db)
    (wasmEvents db.event)).insertionSort fun a b => a.id ≤ b.id

theorem readEvents_perm (startBlock : ℕ) (db : Db) : (readEvents startBlock db).Perm
    (between eventJob.height (reached startBlock db) (nextEnd startBlock db)
      (eventJob.events db)) :=
  List.perm_insertionSort _ _

theorem allFine_iff :
    AllFine startBlock db ↔ ∀ e ∈ readEvents startBlock db, (eventInfo db e).isSome := by
  have hmem : ∀ e, e ∈ readEvents startBlock db ↔ e ∈ wasmEvents db.event ∧
      reached startBlock db < e.block_height ∧ e.block_height ≤ nextEnd startBlock db := fun e => by
    rw [(readEvents_perm startBlock db).mem_iff, mem_between]
    rfl
  constructor
  · intro h e he
    obtain ⟨he, hlt, hle⟩ := (hmem e).mp he
    exact h e he hlt hle
  · intro h e he hlt hle
    exact h e ((hmem e).mpr ⟨he, hlt, hle⟩)

/-- The addresses that a run asks for are those of its events. -/
theorem addresses_spec {addresses : List String}
    (h : (getContractActivities db.event (reached startBlock db) (nextEnd startBlock db)).mapM
      (·.contractAddress) = some addresses) :
    addresses.map some = (readEvents startBlock db).map fun e =>
      (contractActivity e 0).contractAddress := by
  rw [mapM_eq_some_iff, getContractActivities, List.map_map] at h
  rw [← h, ← List.zipIdx_map_fst 0 (readEvents startBlock db), List.map_map]
  rfl

theorem exists_addresses (startBlock : ℕ) (db : Db) (h : ∀ e ∈ readEvents startBlock db,
      ∃ address, (contractActivity e 0).contractAddress = some address) :
    ∃ addresses, (getContractActivities db.event (reached startBlock db)
      (nextEnd startBlock db)).mapM (·.contractAddress) = some addresses := by
  refine exists_mapM_some fun info hinfo => ?_
  obtain ⟨⟨e, index⟩, he, rfl⟩ := List.mem_map.mp hinfo
  obtain ⟨address, haddress⟩ := h e (List.fst_mem_of_mem_zipIdx he)
  have hsame : (contractActivity e index).contractAddress = some address := haddress
  rw [hsame]
  rfl

/-- The rows of a run. -/
theorem rows_spec (order : AnyOrder (SmartContract × ℕ)) {addresses : List String}
    (haddresses : (getContractActivities db.event (reached startBlock db)
      (nextEnd startBlock db)).mapM (·.contractAddress) = some addresses) :
    let rows :=
      (getContractActivities db.event (reached startBlock db) (nextEnd startBlock db)).mapM
      (contractEventRow (getContractByAddress db.smart_contract order addresses))
    (rows.isSome ↔ AllFine startBlock db) ∧ ∀ new, rows = some new →
      new.map (rowInfo db) = (readEvents startBlock db).map (eventInfo db) := by
  have hspec := addresses_spec haddresses
  have hmem : ∀ e ∈ readEvents startBlock db, ∀ index address,
      (contractActivity e index).contractAddress = some address → address ∈ addresses := by
    intro e he index address haddress
    have hin : some address ∈ addresses.map some := by
      rw [hspec]
      exact List.mem_map.mpr ⟨e, he, haddress⟩
    obtain ⟨a, ha, hsome⟩ := List.mem_map.mp hin
    exact Option.some.inj hsome ▸ ha
  have hlist : getContractActivities db.event (reached startBlock db) (nextEnd startBlock db) =
      (readEvents startBlock db).zipIdx.map fun e => contractActivity e.1 e.2 := rfl
  intro rows
  have hrows : rows = (readEvents startBlock db).zipIdx.mapM fun e =>
      contractEventRow (getContractByAddress db.smart_contract order addresses)
        (contractActivity e.1 e.2) := by
    show List.mapM _ _ = _
    rw [hlist, List.mapM_map]
    rfl
  have hzip : ∀ e index, (e, index) ∈ (readEvents startBlock db).zipIdx →
      e ∈ readEvents startBlock db :=
    fun e index he => List.fst_mem_of_mem_zipIdx he
  refine ⟨?_, fun new hnew => ?_⟩
  · rw [allFine_iff, hrows]
    constructor
    · intro h e he
      obtain ⟨new, hnew⟩ := Option.isSome_iff_exists.mp h
      obtain ⟨index, hindex⟩ : ∃ index, (e, index) ∈ (readEvents startBlock db).zipIdx := by
        rw [← List.zipIdx_map_fst 0 (readEvents startBlock db)] at he
        obtain ⟨⟨e', index⟩, he', rfl⟩ := List.mem_map.mp he
        exact ⟨index, he'⟩
      have hin : contractEventRow (getContractByAddress db.smart_contract order addresses)
          (contractActivity e index) ∈ new.map some := by
        rw [← mapM_eq_some_iff.mp hnew]
        exact List.mem_map.mpr ⟨(e, index), hindex, rfl⟩
      obtain ⟨r, -, hr⟩ := List.mem_map.mp hin
      rw [← isSome_row_iff (hmem e he index), ← hr]
      rfl
    · intro h
      obtain ⟨new, hnew⟩ := exists_mapM_some (l := (readEvents startBlock db).zipIdx)
        (f := fun e => contractEventRow
          (getContractByAddress db.smart_contract order addresses) (contractActivity e.1 e.2))
        fun e he => (isSome_row_iff (hmem e.1 (hzip e.1 e.2 he) e.2)).mpr (h e.1 (hzip e.1 e.2 he))
      rw [hnew]
      rfl
  · rw [hrows, mapM_eq_some_iff] at hnew
    rw [map_of_map_some (k := fun e => eventInfo db e.1) hnew fun e he r hr =>
      rowInfo_of_row (hmem e.1 (hzip e.1 e.2 he) e.2) hr]
    conv_rhs => rw [← List.zipIdx_map_fst 0 (readEvents startBlock db), List.map_map]
    rfl

/-- The activities of the next run. -/
def activities (startBlock : ℕ) (db : Db) : List IContractMsgInfo :=
  getContractActivities db.event (reached startBlock db) (nextEnd startBlock db)

/-- What is missing is an address of an event that no contract has. -/
theorem mem_missingContracts {order : AnyOrder (SmartContract × ℕ)} {addresses : List String}
    {address : String} : address ∈ missingContracts
      (getContractByAddress db.smart_contract order addresses) addresses ↔
      address ∈ addresses ∧ ¬ Known db address := by
  rw [missingContracts, List.mem_dedup, List.mem_filter]
  refine and_congr_right fun hmem => ?_
  rw [← getContractByAddress_isSome_iff db order hmem, Option.not_isSome_iff_eq_none,
    Option.isNone_iff_eq_none]

theorem exists_crawlMissingContract (node : Node) (db : Db) (addresses : List String) :
    ∃ new, crawlMissingContract node db.smart_contract addresses = db.smart_contract ++ new := by
  rw [crawlMissingContract, insertNewContracts]
  split
  case h_1 table h =>
    split at h
    · cases h
    · cases h
      exact ⟨_, rfl⟩
  case h_2 => exact ⟨[], (List.append_nil _).symm⟩

/-- A run whose events all have rows. -/
theorem handleActivities_of_allFine (hall : AllFine startBlock db)
    (order : AnyOrder (SmartContract × ℕ))
    (node : Node) (t : Checkpoints BullJobName) :
    ∃ rows, rows.map (rowInfo db) = (readEvents startBlock db).map (eventInfo db) ∧
      handleActivities order node db (activities startBlock db) t =
        { db with
          smart_contract_event := db.smart_contract_event ++ rows
          block_checkpoint := t } := by
  have hfine := allFine_iff.mp hall
  obtain ⟨addresses, haddresses⟩ := exists_addresses startBlock db fun e he =>
    let ⟨_, address, haddress, _⟩ := isSome_eventInfo_iff.mp (hfine e he)
    ⟨address, haddress⟩
  obtain ⟨hsome, hrows⟩ := rows_spec order haddresses
  obtain ⟨rows, hrow⟩ := Option.isSome_iff_exists.mp (hsome.mpr hall)
  refine ⟨rows, hrows rows hrow, ?_⟩
  have hmissing : missingContracts (getContractByAddress db.smart_contract order addresses)
      addresses = [] := by
    refine List.eq_nil_iff_forall_not_mem.mpr fun address hmem => ?_
    obtain ⟨hmem, hunknown⟩ := mem_missingContracts.mp hmem
    have hin : some address ∈ addresses.map some := List.mem_map_of_mem hmem
    rw [addresses_spec haddresses] at hin
    obtain ⟨e, he, haddress⟩ := List.mem_map.mp hin
    obtain ⟨-, address', haddress', hknown⟩ := isSome_eventInfo_iff.mp (hfine e he)
    rw [haddress, Option.some.injEq] at haddress'
    exact hunknown (haddress' ▸ hknown)
  rw [handleActivities]
  simp only [activities, haddresses, hmissing, List.isEmpty_nil, if_true, commitEvents, hrow]

/-- Any other run at most crawls contracts. -/
theorem handleActivities_of_not_allFine (hall : ¬ AllFine startBlock db)
    (order : AnyOrder (SmartContract × ℕ)) (node : Node) (t : Checkpoints BullJobName) :
    ∃ new, handleActivities order node db (activities startBlock db) t =
      { db with smart_contract := db.smart_contract ++ new } := by
  rw [handleActivities, activities]
  cases haddresses : (getContractActivities db.event (reached startBlock db)
      (nextEnd startBlock db)).mapM (·.contractAddress) with
  | none => exact ⟨[], by simp only [List.append_nil]⟩
  | some addresses =>
    obtain ⟨hsome, -⟩ := rows_spec order haddresses
    have hnone := Option.not_isSome_iff_eq_none.mp (mt hsome.mp hall)
    simp only [commitEvents, hnone]
    split
    · exact ⟨[], by simp only [List.append_nil]⟩
    · obtain ⟨new, hnew⟩ := exists_crawlMissingContract node db
        (missingContracts (getContractByAddress db.smart_contract order addresses) addresses)
      exact ⟨new, by rw [hnew]⟩

/-- What a run comes to. -/
theorem jobHandler_cases (startBlock : ℕ) (order : AnyOrder (SmartContract × ℕ)) (node : Node)
    (db : Db) :
    (nextEnd startBlock db ≤ reached startBlock db ∧ jobHandler startBlock order node db = db) ∨
    (reached startBlock db < nextEnd startBlock db ∧ ¬ AllFine startBlock db ∧
      ∃ new, jobHandler startBlock order node db =
        { db with smart_contract := db.smart_contract ++ new }) ∨
    (reached startBlock db < nextEnd startBlock db ∧ AllFine startBlock db ∧
      ∃ rows, rows.map (rowInfo db) = (readEvents startBlock db).map (eventInfo db) ∧
        jobHandler startBlock order node db =
          { db with
            smart_contract_event := db.smart_contract_event ++ rows
            block_checkpoint :=
              runJob startBlock .crawlContractEvent crawlContractEvent db.block_checkpoint }) := by
  rcases Nat.lt_or_ge (reached startBlock db) (nextEnd startBlock db) with hlt | hge
  · have hreturns : crawlContractEvent.rangeTest.returns (reached startBlock db)
        (nextEnd startBlock db) = false := decide_eq_false (not_le.mpr hlt)
    have hrun : jobHandler startBlock order node db = handleActivities order node db
        (activities startBlock db)
        (runJob startBlock .crawlContractEvent crawlContractEvent db.block_checkpoint) := by
      rw [jobHandler, hreturns]
      rfl
    rw [hrun]
    by_cases hall : AllFine startBlock db
    · exact Or.inr (Or.inr ⟨hlt, hall, handleActivities_of_allFine hall order node _⟩)
    · exact Or.inr (Or.inl ⟨hlt, hall, handleActivities_of_not_allFine hall order node _⟩)
  · exact Or.inl ⟨hge, if_pos (decide_eq_true hge)⟩

/-- Where the job is after a run. -/
theorem reached_jobHandler (startBlock : ℕ) (order : AnyOrder (SmartContract × ℕ)) (node : Node)
    (db : Db) : reached startBlock (jobHandler startBlock order node db) =
      if AllFine startBlock db then max (reached startBlock db) (nextEnd startBlock db)
      else reached startBlock db := by
  rcases jobHandler_cases startBlock order node db with ⟨hge, hrun⟩ | ⟨hlt, hall, new, hrun⟩ |
    ⟨hlt, hall, rows, -, hrun⟩
  · rw [hrun, max_eq_left hge, ite_self]
  · rw [hrun, if_neg hall]
    rfl
  · rw [hrun, if_pos hall, max_eq_right hlt.le]
    show startHeight startBlock (runJob startBlock .crawlContractEvent crawlContractEvent
      db.block_checkpoint) .crawlContractEvent = _
    rw [startHeight_runJob]
    exact if_neg fun hret => absurd (of_decide_eq_true hret) (not_le.mpr hlt)

/-- The node can tell the code of a contract. -/
def NodeKnows (node : Node) (address : String) : Prop :=
  ∃ info, node.contractInfos address = some info ∧ info.codeId ≠ 0

theorem mem_crawlMissingContract {node : Node} {smart_contract : List SmartContract}
    {addresses : List String} (h : ∀ address ∈ addresses, NodeKnows node address) :
    ∀ address ∈ addresses,
      ∃ c ∈ crawlMissingContract node smart_contract addresses, c.address = address := by
  intro address hmem
  have hcodes : ((addresses.map fun address => (⟨address, "", 0⟩ : IInstantiateContracts)).map
      fun contract => newContract (node.contractCw2s contract.address)
        (node.contractInfos contract.address) contract).any (fun c => c.code_id = 0) = false := by
    rw [List.any_eq_false]
    intro c hc
    obtain ⟨contract, hcontract, rfl⟩ := List.mem_map.mp hc
    obtain ⟨a, ha, rfl⟩ := List.mem_map.mp hcontract
    obtain ⟨info, hinfo, hcode⟩ := h a ha
    rw [newContract, hinfo]
    simpa using hcode
  have htable : crawlMissingContract node smart_contract addresses = smart_contract ++
      (addresses.map fun address => (⟨address, "", 0⟩ : IInstantiateContracts)).map fun contract =>
        newContract (node.contractCw2s contract.address) (node.contractInfos contract.address)
          contract := by
    rw [crawlMissingContract, insertNewContracts, hcodes]
    rfl
  rw [htable]
  refine ⟨_, List.mem_append_right _ (List.mem_map_of_mem (List.mem_map_of_mem hmem)), rfl⟩

/-- A run stores the contracts that are missing, if the node knows them. -/
theorem known_handleActivities {node : Node} (order : AnyOrder (SmartContract × ℕ))
    (h : ∀ e ∈ readEvents startBlock db, ∃ address,
      (contractActivity e 0).contractAddress = some address ∧
        (Known db address ∨ NodeKnows node address)) (t : Checkpoints BullJobName) :
    ∀ e ∈ readEvents startBlock db, ∃ address,
      (contractActivity e 0).contractAddress = some address ∧
        Known (handleActivities order node db (activities startBlock db) t) address := by
  obtain ⟨addresses, haddresses⟩ := exists_addresses startBlock db fun e he =>
    let ⟨address, haddress, _⟩ := h e he
    ⟨address, haddress⟩
  have hspec := addresses_spec haddresses
  have hmissing : ∀ address ∈ missingContracts
      (getContractByAddress db.smart_contract order addresses)
      addresses, NodeKnows node address := by
    intro address hmem
    obtain ⟨hmem, hunknown⟩ := mem_missingContracts.mp hmem
    have hin : some address ∈ addresses.map some := List.mem_map_of_mem hmem
    rw [hspec] at hin
    obtain ⟨e, he, haddress⟩ := List.mem_map.mp hin
    obtain ⟨address', haddress', hknown⟩ := h e he
    rw [haddress, Option.some.injEq] at haddress'
    exact haddress' ▸ hknown.resolve_left (haddress' ▸ hunknown)
  have hcontracts : ∀ contractEvents db', (commitEvents db'
      (getContractByAddress db.smart_contract order addresses) contractEvents t).smart_contract =
        db'.smart_contract := by
    intro contractEvents db'
    rw [commitEvents]
    split <;> rfl
  intro e he
  obtain ⟨address, haddress, hknown⟩ := h e he
  refine ⟨address, haddress, ?_⟩
  rw [handleActivities]
  simp only [activities, haddresses, Known, hcontracts]
  have hmem : address ∈ addresses := by
    have hin : some address ∈ addresses.map some := by
      rw [hspec]
      exact List.mem_map.mpr ⟨e, he, haddress⟩
    obtain ⟨a, ha, hsome⟩ := List.mem_map.mp hin
    exact Option.some.inj hsome ▸ ha
  by_cases hdb : Known db address
  · split
    · exact hdb
    · obtain ⟨new, hnew⟩ := exists_crawlMissingContract node db
        (missingContracts (getContractByAddress db.smart_contract order addresses) addresses)
      obtain ⟨c, hc, haddress⟩ := hdb
      exact ⟨c, by rw [hnew]; exact List.mem_append_left _ hc, haddress⟩
  · have hin : address ∈ missingContracts
        (getContractByAddress db.smart_contract order addresses) addresses :=
      mem_missingContracts.mpr ⟨hmem, hdb⟩
    rw [if_neg fun hempty => List.ne_nil_of_mem hin (List.isEmpty_iff.mp hempty)]
    exact mem_crawlMissingContract hmissing address hin

/-! ## 7. All runs -/

/-- The jobs between `HANDLE_TRANSACTION` and this one. -/
def names : List BullJobName :=
  [.handleTransaction, .crawlCode, .crawlSmartContract, .crawlContractEvent]

/-- The invariant. -/
structure Inv (startBlock : ℕ) (db : Db) : Prop where
  behind : Behind names startBlock db.block_checkpoint
  event_le : ∀ e ∈ db.event, e.block_height ≤ handledHeight startBlock db.block_checkpoint
  replayed : ∃ infos, db.smart_contract_event.map (rowInfo db) = infos.map some ∧
    eventJob.Replayed db (reached startBlock db) infos

theorem Inv.reached_le (h : Inv startBlock db) :
    reached startBlock db ≤ handledHeight startBlock db.block_checkpoint :=
  h.behind.startHeight_le (by simp [names])

/-- Steps of the other jobs. -/
theorem inv_of_others (new : List Event) (h : Inv startBlock db)
    (hbehind : Behind names startBlock db'.block_checkpoint)
    (hle : handledHeight startBlock db.block_checkpoint ≤
      handledHeight startBlock db'.block_checkpoint)
    (hreached : reached startBlock db' = reached startBlock db)
    (hrows : db'.smart_contract_event = db.smart_contract_event) (hstay : ContractsStay db db')
    (hevent : db'.event = db.event ++ new)
    (hnew : ∀ e ∈ new, handledHeight startBlock db.block_checkpoint < e.block_height ∧
      e.block_height ≤ handledHeight startBlock db'.block_checkpoint) : Inv startBlock db' where
  behind := hbehind
  event_le e he := by
    rw [hevent] at he
    rcases List.mem_append.mp he with he | he
    · exact (h.event_le e he).trans hle
    · exact (hnew e he).2
  replayed := by
    obtain ⟨infos, hinfos, hreplay⟩ := h.replayed
    refine ⟨infos, ?_, ?_⟩
    · rw [hrows, ← hinfos]
      refine List.map_congr_left fun r hr => ?_
      have hin : rowInfo db r ∈ infos.map some := by
        rw [← hinfos]
        exact List.mem_map_of_mem hr
      obtain ⟨info, -, hinfo⟩ := List.mem_map.mp hin
      rw [← hinfo, hstay.rowInfo hinfo.symm]
    · rw [hreached]
      refine hreplay.keeps (EventJob.keeps_of_append (wasmEvents new) ?_ ?_ ?_)
      · show wasmEvents db'.event = _
        rw [hevent, wasmEvents, List.filter_append]
        rfl
      · intro e he
        exact h.reached_le.trans_lt (hnew e (List.mem_of_mem_filter he)).1
      · intro e _ info hinfo
        exact (hstay.eventInfo (Option.isSome_of_eq_some hinfo)).trans hinfo

/-- A run of the job. -/
theorem inv_jobHandler (h : Inv startBlock db) (order : AnyOrder (SmartContract × ℕ))
    (node : Node) :
    Inv startBlock (jobHandler startBlock order node db) := by
  rcases jobHandler_cases startBlock order node db with ⟨-, hrun⟩ | ⟨-, -, new, hrun⟩ |
    ⟨hlt, hall, rows, hrows, hrun⟩
  · rw [hrun]
    exact h
  · rw [hrun]
    exact inv_of_others [] h h.behind (le_refl _) rfl rfl
      (contractsStay_append db new _ _ _) (List.append_nil _).symm (List.forall_mem_nil _)
  · have hreached := reached_jobHandler startBlock order node db
    rw [if_pos hall, max_eq_right hlt.le] at hreached
    have hbehind : Behind names startBlock
        (runJob startBlock .crawlContractEvent crawlContractEvent db.block_checkpoint) :=
      h.behind.runJob (by simp) (by simp [crawlContractEvent, names])
    have hhandled : handledHeight startBlock
        (runJob startBlock .crawlContractEvent crawlContractEvent db.block_checkpoint) =
          handledHeight startBlock db.block_checkpoint :=
      startHeight_congr (heightOf_runJob_of_ne _ (by simp))
    rw [hrun] at hreached ⊢
    obtain ⟨infos, hinfos, hreplay⟩ := h.replayed
    obtain ⟨new, hnew⟩ := exists_mapM_some (f := eventInfo db) (allFine_iff.mp hall)
    refine ⟨hbehind, fun e he => hhandled ▸ h.event_le e he, infos ++ new, ?_, ?_⟩
    · show (db.smart_contract_event ++ rows).map (rowInfo db) = _
      rw [List.map_append, List.map_append, hinfos, hrows, mapM_eq_some_iff.mp hnew]
    · rw [hreached]
      exact hreplay.append hlt.le (readEvents_perm startBlock db)
        (forall₂_eq_some_iff.mpr (mapM_eq_some_iff.mp hnew))

/-- Every step keeps the invariant. -/
theorem inv_step (db : Db) (a : Step) (h : Inv startBlock db) :
    Inv startBlock (step startBlock db a) := by
  cases a with
  | handleTransaction event endBlock =>
    rw [step]
    split
    case isFalse => exact h
    case isTrue hok =>
      have hhandled : handledHeight startBlock (storeCheckpoint db.block_checkpoint
          ⟨.handleTransaction, endBlock⟩ endBlock) = endBlock := by
        rw [handledHeight, startHeight_storeCheckpoint, if_pos rfl]
      refine inv_of_others event h (h.behind.handleTransaction hok.1) ?_ ?_ rfl
        (fun i c hc => ⟨c, hc, rfl⟩)
        rfl fun e he => ⟨(hok.2 e he).1, ?_⟩
      · rw [hhandled]
        exact hok.1.le
      · show startHeight _ _ _ = _
        rw [startHeight_storeCheckpoint, if_neg (by simp)]
        rfl
      · rw [hhandled]
        exact (hok.2 e he).2
  | crawlCode =>
    refine inv_of_others [] h (h.behind.runJob (by simp) (by simp [crawlCode, names]))
      (startHeight_congr (heightOf_runJob_of_ne _ (by simp))).ge
      (startHeight_congr (heightOf_runJob_of_ne _ (by simp))) rfl (fun i c hc => ⟨c, hc, rfl⟩)
      (List.append_nil _).symm (List.forall_mem_nil _)
  | crawlSmartContract node contracts =>
    rw [step, insertNewContracts]
    split
    case h_1 => exact h
    case h_2 table htable =>
      split at htable
      · cases htable
      · cases htable
        exact inv_of_others [] h
          (h.behind.runJob (by simp) (by simp [crawlSmartContract, names]))
          (startHeight_congr (heightOf_runJob_of_ne _ (by simp))).ge
          (startHeight_congr (heightOf_runJob_of_ne _ (by simp))) rfl
          (contractsStay_append db _ _ _ _) (List.append_nil _).symm (List.forall_mem_nil _)
  | handleMigrateContract new old =>
    refine inv_of_others [] h h.behind (le_refl _) rfl rfl (fun i c hc => ?_)
      (List.append_nil _).symm (List.forall_mem_nil _)
    have hlt := (List.getElem?_eq_some_iff.mp hc).1
    refine ⟨if old c then { c with status := .migrated } else c, ?_, ?_⟩
    · show (db.smart_contract.map _ ++ new)[i]? = _
      rw [List.getElem?_append_left (by rwa [List.length_map]), List.getElem?_map, hc]
      rfl
    · split <;> rfl
  | crawlContractEvent order node => exact inv_jobHandler h order node

theorem inv_initial (startBlock : ℕ) : Inv startBlock Db.initial where
  behind := behind_empty names startBlock
  event_le _ he := by cases he
  replayed := ⟨[], rfl, EventJob.replayed_nil rfl⟩

theorem inv_run (startBlock : ℕ) (steps : List Step) :
    Inv startBlock (runFrom (step startBlock) Db.initial steps) :=
  runFrom_invariant (fun db a h => inv_step db a h) (inv_initial startBlock) steps

end ContractEventLemmas

open ContractEventLemmas

/-! ## 8. Results -/

/-- The rows of `smart_contract_event` are those of the events up to the checkpoint, one each. -/
theorem contract_events_replay (startBlock : ℕ) (steps : List Step) :
    let db := runFrom (step startBlock) Db.initial steps
    (db.smart_contract_event.map (rowInfo db)).Perm
      ((eventJob.upTo db (reached startBlock db)).map (eventInfo db)) ∧
    ∀ e ∈ eventJob.upTo db (reached startBlock db), (eventInfo db e).isSome := by
  intro db
  obtain ⟨infos, hinfos, hreplay⟩ := (inv_run startBlock steps).replayed
  refine ⟨?_, fun e he => ?_⟩
  · obtain ⟨es, hperm, hrows⟩ := hreplay
    show (db.smart_contract_event.map (rowInfo db)).Perm _
    rw [hinfos, ← forall₂_eq_some_iff.mp hrows]
    exact hperm.map (eventInfo db)
  · obtain ⟨info, -, hinfo⟩ := hreplay.exists_row he
    exact Option.isSome_of_eq_some hinfo

/-- A node that knows one contract. -/
def oneContractNode : Node where
  contractCw2s _ := none
  contractInfos address := if address = "aura1c" then some ⟨7, "aura1a", "token"⟩ else none

/-- An event of the contract. -/
def mintEvent : Event where
  id := 1
  tx_id := some 1
  tx_msg_index := some 0
  type := wasm
  block_height := 1
  attributes := [⟨contractAddressKey, some "aura1c"⟩, ⟨actionKey, some "mint"⟩]

/-- The event is stored, and its contract is not. -/
def mintSteps : List Step :=
  [.handleTransaction [mintEvent] 1, .crawlCode, .crawlSmartContract oneContractNode []]

/-- An event of a block, or one whose contract has no row, is never passed. -/
theorem stops_before (startBlock : ℕ) (steps : List Step) :
    let db := runFrom (step startBlock) Db.initial steps
    ∀ e ∈ wasmEvents db.event, e.tx_id = none ∨ (∀ address,
      (contractActivity e 0).contractAddress = some address → ¬ Known db address) →
      reached startBlock db < e.block_height := by
  intro db e he hunfit
  obtain ⟨infos, -, hreplay⟩ := (inv_run startBlock steps).replayed
  refine hreplay.lt_height he fun info _ hinfo => ?_
  obtain ⟨htx, address, haddress, hknown⟩ :=
    isSome_eventInfo_iff.mp (Option.isSome_of_eq_some hinfo)
  rcases hunfit with hnone | hunknown
  · exact htx hnone
  · exact hunknown address haddress hknown

/-- An event of the block of height `1` that no transaction has. -/
theorem block_event_blocks :
    reached 0 (runFrom (step 0) Db.initial
      [.handleTransaction [{ mintEvent with tx_id := none }] 1, .crawlCode,
        .crawlSmartContract oneContractNode [⟨"aura1c", "A0", 1⟩],
        .crawlContractEvent .table oneContractNode, .handleTransaction [] 9, .crawlCode,
        .crawlSmartContract oneContractNode [], .crawlContractEvent .table oneContractNode]) < 1 :=
  stops_before 0 _ { mintEvent with tx_id := none } (by decide) (Or.inl rfl)

end Erascope.CrawlCosmwasm.ContractEvent
