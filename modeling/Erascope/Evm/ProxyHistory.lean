import Mathlib.Data.String.Basic
import Mathlib.Tactic
import Erascope.Checkpoint.Pipeline
import Erascope.Lib.Fold
import Erascope.Lib.Order

/-!
# Implementations of proxies

The model of `jobHandler` in `crawl_evm_proxy_history.service.ts` and of `contract_helper.ts`. The
job reads the EVM events of its range in whatever order the database returns them. An event
`Upgraded(address)` names the new implementation of the contract that emitted it. Any other event
of a registered proxy that has not been looked up yet asks the node for the storage slot of its
proxy type. The rows of a contract and a block are merged, later ones over earlier ones, and stored.

`isContractProxy` takes the block before the slot, and the job passes the slot in the place of the
block: it is read as a number, which throws, and the helper answers null
(`isContractProxy_slot`). So no row ever comes from a storage slot.

Results:
1. `implementation_isAddress`: what an `Upgraded` event names is stored as a lower-case address.
2. `proxy_history_iff`: the rows are right for every order of the events exactly when every
   `Upgraded` event of the range has its indexed argument, those of a known contract in one block
   name one implementation, and no proxy is left for which a storage slot would have to be read.
   `slot_never_read`: a proxy with such a slot.
-/

namespace Erascope.Evm.ProxyHistory

open Checkpoint

/-! ## 1. Addresses and topics -/

def lowerHexDigits : List Char := "0123456789abcdef".toList

def hexDigits : List Char := "0123456789abcdefABCDEF".toList

/-- The digits of a text after `0x`. -/
def prefixed (digits : List Char) : String := String.ofList ('0' :: 'x' :: digits)

/-- A lower-case address of 20 bytes. -/
def IsAddress (address : String) : Prop :=
  ∃ digits : List Char, digits.length = 40 ∧ (∀ c ∈ digits, c ∈ lowerHexDigits) ∧
    address = prefixed digits

/-- An indexed argument: 32 bytes in hexadecimal. -/
structure Topic where
  digits : List Char
  length_eq : digits.length = 64
  hex : ∀ c ∈ digits, c ∈ hexDigits
deriving DecidableEq

/-- `decodeAbiParameters` for an address: the last 20 bytes. The checksum that it writes into the
case of the letters is left out: every use is in lower case. -/
def decodeAddress (topic : Topic) : String := prefixed (topic.digits.drop 24)

/-! ## 2. The tables -/

/-- `EVMSmartContract.TYPES` -/
inductive ContractType
  | ERC20
  | ERC721
  | ERC1155
  | PROXY_EIP_1967
  | PROXY_EIP_1822
  | PROXY_OPEN_ZEPPELIN_IMPLEMENTATION
deriving DecidableEq, Repr

/-- A row of `evm_smart_contract`. -/
structure EVMSmartContract where
  address : String
  type : Option ContractType
deriving DecidableEq, Repr

/-- A row of `evm_event`; `address` is stored in lower case. -/
structure EvmEvent where
  address : String
  isAddress : IsAddress address
  topic0 : Option String
  topic1 : Option Topic
  block_height : ℕ
  tx_hash : String

/-- A row of `evm_proxy_history` as this job writes it. -/
structure EvmProxyHistory where
  proxy_contract : String
  implementation_contract : Option String
  block_height : ℕ
  tx_hash : String
  last_updated_height : Option ℕ
deriving DecidableEq, Repr

/-- The unique columns of `evm_proxy_history`. -/
def EvmProxyHistory.key (row : EvmProxyHistory) : String × ℕ := (row.proxy_contract, row.block_height)

/-- A row of `evm_proxy_history` that `detectEvmProxy` wrote; it has no `block_height`. -/
structure DetectedProxy where
  proxy_contract : String
  implementation_contract : String
  last_updated_height : ℕ
deriving DecidableEq, Repr

/-- The tables that the job uses; `evm_event` is in log order. -/
structure Db where
  block_checkpoint : Checkpoints BullJobName
  evm_event : List EvmEvent
  evm_smart_contract : Table EVMSmartContract.address
  evm_proxy_history : Table EvmProxyHistory.key
  detected : List DetectedProxy

/-! ## 3. The helper -/

/-- The node: code and storage of an address, and the current block. -/
structure ViemClient where
  getBytecode : String → Option String
  getStorageAt : String → String → Option ℕ → Option String
  getBlockNumber : ℕ

/-- An entry of `EIPProxyContractSupportByteCode`. -/
structure ProxySlot where
  SLOT : String
  TYPE : ContractType
deriving DecidableEq, Repr

/-- `EIPProxyContractSupportByteCode` -/
def EIPProxyContractSupportByteCode : List ProxySlot :=
  [⟨"360894a13ba1a3210667c828492db98dca3e2076cc3735a920a3ca505d382bbc", .PROXY_EIP_1967⟩,
    ⟨"c5f16f0fcc639fa48a6947836d9850f504798523bf8c9a3a87d5876cf622bcf7", .PROXY_EIP_1822⟩,
    ⟨"7050c9e0f4ca769c69bd3a8ef740bc37934f8e2c036e5a723fd8ee048ed3f8c3",
      .PROXY_OPEN_ZEPPELIN_IMPLEMENTATION⟩]

/-- `NULL_BYTE_CODE` -/
def NULL_BYTE_CODE : String := prefixed (List.replicate 64 '0')

/-- `ZERO_ADDRESS` -/
def ZERO_ADDRESS : String := prefixed (List.replicate 40 '0')

/-- `DetectEVMProxyContract` -/
structure DetectEVMProxyContract where
  logicContractAddress : String
  EIP : Option ContractType
deriving DecidableEq, Repr

/-- `BigInt` of a text: decimal digits, or hexadecimal ones after `0x`; it throws otherwise. -/
def toBigInt (text : String) : Option ℕ :=
  match text.toList with
  | '0' :: 'x' :: digits =>
    if digits ≠ [] ∧ digits.all (· ∈ hexDigits) then
      some (digits.foldl (fun n c => 16 * n + lowerHexDigits.idxOf c.toLower) 0)
    else none
  | digits => if digits.all Char.isDigit then some (Nat.ofDigitChars 10 digits 0) else none

section
variable (client : ViemClient)

/-- `detectProxyContractByByteCode`; none when it throws. -/
def detectProxyContractByByteCode (contractAddress byteCode byteCodeSlot : String)
    (blockHeight : Option String) : Option DetectEVMProxyContract := do
  guard ((byteCode.splitOn byteCodeSlot).length > 1)
  let blockNumber ←
    match truthy blockHeight with
    | some height => (toBigInt height).map some
    | none => some none
  let storageSlotValue ← client.getStorageAt contractAddress ("0x" ++ byteCodeSlot) blockNumber
  guard (storageSlotValue ≠ "0x" ∧ storageSlotValue ≠ NULL_BYTE_CODE)
  let logicAddress :=
    if storageSlotValue.length = 66 then prefixed (storageSlotValue.toList.drop 26)
    else storageSlotValue
  guard (logicAddress ≠ ZERO_ADDRESS)
  return {
    logicContractAddress := logicAddress
    EIP := (EIPProxyContractSupportByteCode.find? fun val => val.SLOT = byteCodeSlot).map (·.TYPE) }

/-- `isContractProxy`. `Promise.any` is the first slot that is found; the call of the job finds
none. -/
def isContractProxy (contractAddress : String) (blockHeight byteCodeSlot : Option String) :
    Option DetectEVMProxyContract := do
  let byteCode ← (truthy (client.getBytecode contractAddress))
  match truthy byteCodeSlot with
  | some slot => detectProxyContractByByteCode client contractAddress byteCode slot blockHeight
  | none =>
    EIPProxyContractSupportByteCode.findSome? fun val =>
      detectProxyContractByByteCode client contractAddress byteCode val.SLOT blockHeight

end

/-! ## 4. The job -/

/-- The values of `implementationAddress`. -/
inductive ImplementationAddress
  | null
  | address (text : String)
  | detected (contract : DetectEVMProxyContract)

/-- `_.toLower(implementationAddress as string) || null`. An object becomes a text first. -/
def ImplementationAddress.toLower : ImplementationAddress → Option String
  | null => none
  | address text => truthy (some text.toLower)
  | detected _ => some "[object object]"

/-- What the job takes from outside: the node, and the hash of `Upgraded(address)`. -/
structure Env where
  client : ViemClient
  upgraded : String

/-- The entry of the type of a contract, if it is a proxy type. -/
def slotOf (contract : EVMSmartContract) : Option ProxySlot :=
  EIPProxyContractSupportByteCode.find? fun value => some value.TYPE = contract.type

section
variable (env : Env) (db : Db)

/-- `proxyContractDb` -/
def proxyContractDb : List EVMSmartContract :=
  db.evm_smart_contract.rows.filter fun contract => (slotOf contract).isSome

/-- The number of rows with a `last_updated_height`. -/
def anyProxyHistory (address : String) : ℕ :=
  (db.evm_proxy_history.rows.filter fun row =>
    row.proxy_contract = address.toLower && row.last_updated_height.isSome).length +
  (db.detected.filter fun row => row.proxy_contract = address.toLower).length

/-- `implementationAddress` and `last_updated_height` of an event. Decoding the argument of
`Upgraded` throws if it is not indexed. -/
def switchTopic (evmEvent : EvmEvent) : Option (ImplementationAddress × Option ℕ) :=
  let evmEventProxy := (proxyContractDb db).find? fun proxy => proxy.address = evmEvent.address
  let firstTimeCatchProxyEvent :=
    evmEventProxy.isSome && anyProxyHistory db evmEvent.address == 0
  if evmEvent.topic0 = some env.upgraded then
    evmEvent.topic1.map fun topic => (.address (decodeAddress topic), none)
  else if firstTimeCatchProxyEvent then
    let slot := (evmEventProxy.bind slotOf).map (·.SLOT)
    let contract := isContractProxy env.client evmEvent.address slot none
    some (contract.elim .null .detected, some env.client.getBlockNumber)
  else some (.null, none)

/-- The row of an event. -/
def newProxyHistory (evmEvent : EvmEvent) : Option EvmProxyHistory :=
  (switchTopic env db evmEvent).map fun (implementationAddress, last_updated_height) =>
    { proxy_contract := evmEvent.address.toLower
      implementation_contract := implementationAddress.toLower
      block_height := evmEvent.block_height
      tx_hash := evmEvent.tx_hash
      last_updated_height := last_updated_height }

/-- The customized `mergeWith`: a null does not overwrite. -/
def mergeWith (obj source : EvmProxyHistory) : EvmProxyHistory :=
  { source with
    implementation_contract := source.implementation_contract.or obj.implementation_contract
    last_updated_height := source.last_updated_height.or obj.last_updated_height }

/-- `proxy.proxy_contract + proxy.block_height` -/
def groupKey (proxy : EvmProxyHistory) : String := proxy.proxy_contract ++ proxy.block_height.repr

/-- `mergedProxyContracts` -/
def mergedProxyContracts (newProxyContractsToSave : List EvmProxyHistory) : List EvmProxyHistory :=
  (groupBy groupKey newProxyContractsToSave).filterMap fun group =>
    match group with
    | [] => none
    | proxy :: rest => some (rest.foldl mergeWith proxy)

/-- Insert, on conflict merge. A column that no row of the insert has keeps its value. -/
def insertMerge (hasLastUpdated : Bool) (rows : Table EvmProxyHistory.key) (row : EvmProxyHistory) :
    Table EvmProxyHistory.key :=
  rows.upsert { row with
    last_updated_height :=
      if hasLastUpdated then row.last_updated_height
      else (rows.get? row.key).bind (·.last_updated_height) }

/-- The rows that are stored. -/
def newProxyContractsToSave (newProxyHistories : List EvmProxyHistory) : List EvmProxyHistory :=
  newProxyHistories.filter fun proxyHistory =>
    proxyHistory.implementation_contract.isSome &&
      (db.evm_smart_contract.get? proxyHistory.proxy_contract).isSome

/-- `config.crawlBlock.startBlock`, and the range of the next run. -/
def rangeOf (startBlock : ℕ) : ℕ × ℕ :=
  let start := startHeight startBlock db.block_checkpoint .handleEvmProxyHistory
  (start, endHeight start db.block_checkpoint handleEvmProxyHistory.lastHeightJobNames
    handleEvmProxyHistory.blocksPerCall)

/-- The events of the range, in log order. -/
def eventsOf (startBlock : ℕ) : List EvmEvent :=
  between (·.block_height) (rangeOf db startBlock).1 (rangeOf db startBlock).2 db.evm_event

/-- `jobHandler`, when the query answers with `evmEvents`; none when it throws. -/
def jobHandler (startBlock : ℕ) (evmEvents : List EvmEvent) : Option Db := do
  let (start, endBlock) := rangeOf db startBlock
  let newProxyHistories ← evmEvents.mapM (newProxyHistory env db)
  let merged := mergedProxyContracts (newProxyContractsToSave db newProxyHistories)
  let hasLastUpdated := merged.any (·.last_updated_height.isSome)
  return { db with
    block_checkpoint :=
      storeCheckpoint db.block_checkpoint ⟨.handleEvmProxyHistory, start⟩ endBlock
    evm_proxy_history := merged.foldl (insertMerge hasLastUpdated) db.evm_proxy_history }

end

/-! ## 5. The property -/

section
variable (env : Env) (db : Db)

/-- The event `Upgraded(address)`. -/
def Upgraded (event : EvmEvent) : Prop := event.topic0 = some env.upgraded

instance (event : EvmEvent) : Decidable (Upgraded env event) :=
  inferInstanceAs (Decidable (event.topic0 = some env.upgraded))

/-- The implementation that an event names. -/
def implementationOf (event : EvmEvent) : Option String :=
  event.topic1.map fun topic => (decodeAddress topic).toLower

/-- The `Upgraded` events of a contract in a block. -/
def upgradesOf (address : String) (block_height : ℕ) (events : List EvmEvent) : List EvmEvent :=
  events.filter fun event =>
    Upgraded env event ∧ event.address = address ∧ event.block_height = block_height

/-- The address in the storage slot of the type of a contract, unless it is zero. -/
def slotImplementation (contract : EVMSmartContract) : Option String := do
  let slot ← slotOf contract
  let value ← env.client.getStorageAt contract.address ("0x" ++ slot.SLOT) none
  let address := prefixed (value.toList.drop 26)
  if value.length = 66 ∧ address ≠ ZERO_ADDRESS then some address.toLower else none

/-- A contract with events in the range, none of them `Upgraded`, and without any earlier row. -/
def Unrecorded (events : List EvmEvent) (address : String) : Prop :=
  (∃ event ∈ events, event.address = address) ∧
    (∀ event ∈ events, event.address = address → ¬ Upgraded env event) ∧
    (∀ row ∈ db.evm_proxy_history.rows, row.proxy_contract ≠ address) ∧
    ∀ row ∈ db.detected, row.proxy_contract ≠ address

/-- The run completes and records the implementations: for every known contract and block with
`Upgraded` events the one of the last of them, for every registered proxy without `Upgraded` events
and without earlier rows the one in its slot; and all that is recorded is an address. -/
def Right (startBlock : ℕ) (evmEvents : List EvmEvent) : Prop :=
  ∃ db', jobHandler env db startBlock evmEvents = some db' ∧
    (∀ contract ∈ db.evm_smart_contract.rows, ∀ block_height last,
      (upgradesOf env contract.address block_height (eventsOf db startBlock)).getLast? = some last →
      ∃ row, db'.evm_proxy_history.get? (contract.address, block_height) = some row ∧
        row.implementation_contract.isSome ∧
        row.implementation_contract = implementationOf last) ∧
    (∀ contract ∈ db.evm_smart_contract.rows,
      Unrecorded env db (eventsOf db startBlock) contract.address →
      ∀ address, slotImplementation env contract = some address →
      ∃ row ∈ db'.evm_proxy_history.rows, row.proxy_contract = contract.address ∧
        row.implementation_contract = some address) ∧
    ∀ row ∈ db'.evm_proxy_history.rows, row ∈ db.evm_proxy_history.rows ∨
      ∃ address, row.implementation_contract = some address ∧ IsAddress address

end

namespace ProxyHistoryLemmas

/-! ### Addresses -/

theorem toLower_prefixed (digits : List Char) :
    (prefixed digits).toLower = prefixed (digits.map Char.toLower) := by
  show String.map Char.toLower (prefixed digits) = _
  rw [← String.toList_inj, String.toList_map, prefixed, prefixed, String.toList_ofList,
    String.toList_ofList]
  rfl

theorem toLower_lowerHexDigits : ∀ c ∈ lowerHexDigits, c.toLower = c := by
  have hall : (lowerHexDigits.all fun c => c.toLower == c) = true := by decide +kernel
  exact fun c hc => eq_of_beq (List.all_eq_true.mp hall c hc)

theorem toLower_hexDigits : ∀ c ∈ hexDigits, c.toLower ∈ lowerHexDigits := by
  have hall : (hexDigits.all fun c => lowerHexDigits.elem c.toLower) = true := by decide +kernel
  exact fun c hc => List.elem_iff.mp (List.all_eq_true.mp hall c hc)

theorem toLower_of_isAddress {address : String} (h : IsAddress address) :
    address.toLower = address := by
  obtain ⟨digits, -, hhex, rfl⟩ := h
  rw [toLower_prefixed, List.map_congr_left fun c hc => toLower_lowerHexDigits c (hhex c hc),
    List.map_id']

/-- Addresses have one length, so a text that starts with one is cut in one way. -/
theorem isAddress_append_inj {a b : String} (ha : IsAddress a) (hb : IsAddress b) {s t : String}
    (h : a ++ s = b ++ t) : a = b ∧ s = t := by
  have hlength : ∀ {address : String}, IsAddress address → address.toList.length = 42 := by
    rintro address ⟨digits, hlen, -, rfl⟩
    simp [prefixed, hlen]
  have hlist := congrArg String.toList h
  rw [String.toList_append, String.toList_append] at hlist
  obtain ⟨hl, hr⟩ := List.append_inj hlist ((hlength ha).trans (hlength hb).symm)
  exact ⟨String.toList_inj.mp hl, String.toList_inj.mp hr⟩

end ProxyHistoryLemmas

open ProxyHistoryLemmas

/-- What an `Upgraded` event names is stored as a lower-case address. -/
theorem implementation_isAddress (topic : Topic) : IsAddress (decodeAddress topic).toLower := by
  refine ⟨(topic.digits.drop 24).map Char.toLower, ?_, ?_, toLower_prefixed _⟩
  · rw [List.length_map, List.length_drop, topic.length_eq]
  · intro c hc
    obtain ⟨d, hd, rfl⟩ := List.mem_map.mp hc
    exact toLower_hexDigits d (topic.hex d (List.mem_of_mem_drop hd))

/-! ## 6. The helper finds nothing -/

namespace ProxyHistoryLemmas

theorem toBigInt_slot : ∀ slot ∈ EIPProxyContractSupportByteCode,
    truthy (some slot.SLOT) = some slot.SLOT ∧ toBigInt slot.SLOT = none := by
  decide +kernel

end ProxyHistoryLemmas

/-- A slot in the place of the block is no number. -/
theorem isContractProxy_slot (client : ViemClient) (address : String) {slot : ProxySlot}
    (h : slot ∈ EIPProxyContractSupportByteCode) :
    isContractProxy client address (some slot.SLOT) none = none := by
  obtain ⟨htruthy, hnumber⟩ := toBigInt_slot slot h
  have hthrows : ∀ byteCode byteCodeSlot,
      detectProxyContractByByteCode client address byteCode byteCodeSlot (some slot.SLOT) = none := by
    intro byteCode byteCodeSlot
    simp [detectProxyContractByByteCode, htruthy, hnumber]
  simp [isContractProxy, truthy, hthrows]

namespace ProxyHistoryLemmas

/-! ### The rows of the events -/

section
variable {env : Env} {db : Db}

/-- The row of an `Upgraded` event. -/
def upgradeRow (event : EvmEvent) : EvmProxyHistory :=
  ⟨event.address, implementationOf event, event.block_height, event.tx_hash, none⟩

theorem newProxyHistory_upgraded {event : EvmEvent} (h : Upgraded env event) :
    newProxyHistory env db event = event.topic1.map fun _ => upgradeRow event := by
  have hnonempty : ∀ topic : Topic,
      truthy (some (decodeAddress topic).toLower) = some (decodeAddress topic).toLower := by
    intro topic
    refine Option.filter_eq_some_iff.mpr ⟨rfl, decide_eq_true fun he => ?_⟩
    have := congrArg String.toList (toLower_prefixed (topic.digits.drop 24) ▸ he)
    simp [prefixed] at this
  have hswitch : switchTopic env db event =
      event.topic1.map fun topic => (.address (decodeAddress topic), none) := if_pos h
  rw [newProxyHistory, hswitch, Option.map_map]
  cases htopic : event.topic1 with
  | none => rfl
  | some topic =>
    simp only [Option.map_some, Function.comp_apply, upgradeRow, implementationOf, htopic,
      ImplementationAddress.toLower, hnonempty, toLower_of_isAddress event.isAddress]

/-- Any other event gives a row without implementation. -/
theorem newProxyHistory_other (db : Db) {event : EvmEvent} (h : ¬ Upgraded env event) :
    ∃ row, newProxyHistory env db event = some row ∧ row.implementation_contract = none := by
  have hswitch : ∃ last_updated_height,
      switchTopic env db event = some (.null, last_updated_height) := by
    rw [Upgraded] at h
    simp only [switchTopic, if_neg h]
    split
    · next hfirst =>
      -- the proxy has a slot, which is taken for a block
      obtain ⟨proxy, hproxy⟩ := Option.isSome_iff_exists.mp ((Bool.and_eq_true _ _).mp hfirst).1
      have hdb := List.mem_of_find?_eq_some hproxy
      obtain ⟨slot, hslot⟩ := Option.isSome_iff_exists.mp (List.mem_filter.mp hdb).2
      have hmem : slot ∈ EIPProxyContractSupportByteCode := List.mem_of_find?_eq_some hslot
      rw [hproxy, Option.bind_some, hslot, Option.map_some, isContractProxy_slot _ _ hmem]
      exact ⟨_, rfl⟩
    · exact ⟨_, rfl⟩
  obtain ⟨last_updated_height, heq⟩ := hswitch
  exact ⟨_, by rw [newProxyHistory, heq]; rfl, rfl⟩

/-- The events that are stored: `Upgraded` events of known contracts. -/
def isStored (env : Env) (db : Db) (event : EvmEvent) : Bool :=
  decide (Upgraded env event) && (db.evm_smart_contract.get? event.address).isSome

/-- A run completes if every `Upgraded` event has its argument. -/
theorem exists_newProxyHistories (db : Db) {events : List EvmEvent}
    (h : ∀ event ∈ events, Upgraded env event → event.topic1.isSome) :
    ∃ rows, events.mapM (newProxyHistory env db) = some rows ∧
      newProxyContractsToSave db rows = (events.filter (isStored env db)).map upgradeRow := by
  induction events with
  | nil => exact ⟨[], rfl, rfl⟩
  | cons event events ih =>
    obtain ⟨rows, hrows, hsave⟩ := ih fun e he => h e (List.mem_cons_of_mem _ he)
    by_cases hup : Upgraded env event
    · obtain ⟨topic, htopic⟩ := Option.isSome_iff_exists.mp (h event List.mem_cons_self hup)
      have hrow : newProxyHistory env db event = some (upgradeRow event) := by
        rw [newProxyHistory_upgraded hup, htopic]
        rfl
      have himpl : (upgradeRow event).implementation_contract.isSome = true := by
        rw [upgradeRow, implementationOf, htopic]
        rfl
      refine ⟨upgradeRow event :: rows, by rw [List.mapM_cons, hrow, hrows]; rfl, ?_⟩
      unfold newProxyContractsToSave at hsave ⊢
      cases hknown : (db.evm_smart_contract.get? event.address).isSome with
      | true =>
        have hstored : isStored env db event = true := by simp [isStored, hup, hknown]
        rw [List.filter_cons_of_pos, List.filter_cons_of_pos hstored, hsave, List.map_cons]
        rw [himpl]
        exact hknown
      | false =>
        have hstored : ¬ isStored env db event = true := by simp [isStored, hknown]
        rw [List.filter_cons_of_neg, List.filter_cons_of_neg hstored, hsave]
        rw [himpl, show (upgradeRow event).proxy_contract = event.address from rfl, hknown]
        decide
    · obtain ⟨row, hrow, himpl⟩ := newProxyHistory_other db hup
      have hstored : ¬ isStored env db event = true := by simp [isStored, hup]
      refine ⟨row :: rows, by rw [List.mapM_cons, hrow, hrows]; rfl, ?_⟩
      unfold newProxyContractsToSave at hsave ⊢
      rw [List.filter_cons_of_neg (by simp [himpl]), List.filter_cons_of_neg hstored, hsave]

/-- A run that completes has decoded every `Upgraded` event. -/
theorem topic1_of_mapM {events : List EvmEvent} {rows : List EvmProxyHistory}
    (h : events.mapM (newProxyHistory env db) = some rows) :
    ∀ event ∈ events, Upgraded env event → event.topic1.isSome := by
  intro event he hup
  have hmem := List.mem_map_of_mem (f := newProxyHistory env db) he
  rw [map_eq_of_mapM h, newProxyHistory_upgraded hup] at hmem
  obtain ⟨row, -, hrow⟩ := List.mem_map.mp hmem
  cases htopic : event.topic1 with
  | none =>
    rw [htopic] at hrow
    cases hrow
  | some topic => rfl

end

/-! ### Merging -/

/-- A row as an `Upgraded` event gives it. -/
structure Plain (row : EvmProxyHistory) : Prop where
  implementation : row.implementation_contract.isSome
  last_updated : row.last_updated_height = none
  proxy : IsAddress row.proxy_contract

section
variable {rows : List EvmProxyHistory}

theorem groupKey_inj {a b : EvmProxyHistory} (ha : Plain a) (hb : Plain b) :
    groupKey a = groupKey b ↔ a.key = b.key := by
  constructor
  · intro h
    obtain ⟨hproxy, hheight⟩ := isAddress_append_inj ha.proxy hb.proxy h
    have hdigits := congrArg (fun s => Nat.ofDigitChars 10 s.toList 0) hheight
    simp only [Nat.toList_repr, Nat.ofDigitChars_ten_toDigits] at hdigits
    exact Prod.ext hproxy hdigits
  · intro h
    rw [groupKey, groupKey, show a.proxy_contract = b.proxy_contract from congrArg Prod.fst h,
      show a.block_height = b.block_height from congrArg Prod.snd h]

/-- The last row of a group wins. -/
theorem foldl_mergeWith {proxy : EvmProxyHistory} {rest : List EvmProxyHistory}
    (h : ∀ row ∈ proxy :: rest, Plain row) :
    some (rest.foldl mergeWith proxy) = (proxy :: rest).getLast? := by
  induction rest generalizing proxy with
  | nil => rfl
  | cons source rest ih =>
    have hproxy := h proxy List.mem_cons_self
    have hsource := h source (List.mem_cons_of_mem _ List.mem_cons_self)
    have hmerge : mergeWith proxy source = source := by
      obtain ⟨a, b, c, d, e⟩ := source
      obtain ⟨implementation, rfl⟩ := Option.isSome_iff_exists.mp hsource.implementation
      simp [mergeWith, hproxy.last_updated]
    rw [List.foldl_cons, hmerge, ih fun row hrow => h row (List.mem_cons_of_mem _ hrow),
      List.getLast?_cons_cons]

/-- The merged rows are the last ones of their keys. -/
theorem mem_mergedProxyContracts (h : ∀ row ∈ rows, Plain row) {m : EvmProxyHistory} :
    m ∈ mergedProxyContracts rows ↔
      (rows.filter fun row => row.key = m.key).getLast? = some m := by
  have hgroup : ∀ r ∈ rows, (rows.filter fun x => groupKey x = groupKey r) =
      rows.filter fun x => x.key = r.key := fun r hr =>
    List.filter_congr fun x hx => decide_eq_decide.mpr (groupKey_inj (h x hx) (h r hr))
  have hmerged : ∀ group : List EvmProxyHistory, (∀ row ∈ group, Plain row) →
      (match group with
        | [] => none
        | proxy :: rest => some (rest.foldl mergeWith proxy)) = group.getLast? := by
    intro group hplain
    cases group with
    | nil => rfl
    | cons proxy rest => exact foldl_mergeWith hplain
  have hplain : ∀ r, ∀ row ∈ rows.filter fun x => x.key = r, Plain row :=
    fun r row hrow => h row (List.mem_of_mem_filter hrow)
  simp only [mergedProxyContracts, List.mem_filterMap, mem_groupBy]
  constructor
  · rintro ⟨group, ⟨r, hr, rfl⟩, hm⟩
    rw [hgroup r hr, hmerged _ (hplain _)] at hm
    have hkey : m.key = r.key :=
      of_decide_eq_true (List.mem_filter.mp (List.mem_of_getLast? hm)).2
    rwa [hkey]
  · intro hm
    have hmem := List.mem_of_mem_filter (List.mem_of_getLast? hm)
    refine ⟨_, ⟨m, hmem, rfl⟩, ?_⟩
    rw [hgroup m hmem, hmerged _ (hplain _), hm]

/-! ### Storing -/

theorem get?_insertMerge_of_ne (hasLastUpdated : Bool) {row : EvmProxyHistory} {k : String × ℕ}
    (h : row.key ≠ k) (t : Table EvmProxyHistory.key) :
    (insertMerge hasLastUpdated t row).get? k = t.get? k := by
  rw [insertMerge, Table.get?_upsert]
  exact if_neg h

theorem get?_insertMerge_self (hasLastUpdated : Bool) (row : EvmProxyHistory)
    (t : Table EvmProxyHistory.key) :
    ∃ stored, (insertMerge hasLastUpdated t row).get? row.key = some stored ∧
      stored.implementation_contract = row.implementation_contract := by
  rw [insertMerge, Table.get?_upsert]
  exact ⟨_, if_pos rfl, rfl⟩

/-- What the insert leaves alone. -/
theorem get?_foldl_insertMerge_of_ne (hasLastUpdated : Bool) {k : String × ℕ}
    (h : ∀ row ∈ rows, row.key ≠ k) (t : Table EvmProxyHistory.key) :
    (rows.foldl (insertMerge hasLastUpdated) t).get? k = t.get? k := by
  induction rows generalizing t with
  | nil => rfl
  | cons row rows ih =>
    rw [List.foldl_cons, ih fun x hx => h x (List.mem_cons_of_mem _ hx),
      get?_insertMerge_of_ne _ (h row List.mem_cons_self)]

/-- The stored row has the implementation of the inserted one. -/
theorem get?_foldl_insertMerge_of_mem (hasLastUpdated : Bool) {m : EvmProxyHistory} (hm : m ∈ rows)
    (huniq : ∀ row ∈ rows, row.key = m.key → row = m) (t : Table EvmProxyHistory.key) :
    ∃ row, (rows.foldl (insertMerge hasLastUpdated) t).get? m.key = some row ∧
      row.implementation_contract = m.implementation_contract := by
  induction rows using List.reverseRecOn with
  | nil => cases hm
  | append_singleton rows x ih =>
    rw [List.foldl_append, List.foldl_cons, List.foldl_nil]
    rcases eq_or_ne x.key m.key with hkey | hkey
    · rw [huniq x (by simp) hkey]
      exact get?_insertMerge_self _ _ _
    · rw [get?_insertMerge_of_ne _ hkey]
      rcases List.mem_append.mp hm with hm | hself
      · exact ih hm fun row hrow => huniq row (List.mem_append_left _ hrow)
      · exact absurd (by rw [List.mem_singleton.mp hself]) hkey

end

/-! ### A run -/

section
variable {env : Env} {db : Db} {startBlock : ℕ} {answer : List EvmEvent}

/-- The table after a run that completes. -/
def historyAfter (env : Env) (db : Db) (answer : List EvmEvent) : Table EvmProxyHistory.key :=
  let merged := mergedProxyContracts ((answer.filter (isStored env db)).map upgradeRow)
  merged.foldl (insertMerge (merged.any (·.last_updated_height.isSome))) db.evm_proxy_history

theorem exists_jobHandler (db : Db) (startBlock : ℕ)
    (h : ∀ event ∈ answer, Upgraded env event → event.topic1.isSome) :
    ∃ db', jobHandler env db startBlock answer = some db' ∧
      db'.evm_proxy_history = historyAfter env db answer := by
  obtain ⟨rows, hrows, hsave⟩ := exists_newProxyHistories db h
  refine ⟨_, by rw [jobHandler, hrows]; rfl, ?_⟩
  rw [historyAfter, ← hsave]

theorem topic1_of_jobHandler {db' : Db} (h : jobHandler env db startBlock answer = some db') :
    ∀ event ∈ answer, Upgraded env event → event.topic1.isSome := by
  obtain ⟨rows, hrows, -⟩ := Option.bind_eq_some_iff.mp h
  exact topic1_of_mapM hrows

theorem plain_upgradeRow (db : Db) (h : ∀ event ∈ answer, Upgraded env event → event.topic1.isSome) :
    ∀ row ∈ (answer.filter (isStored env db)).map upgradeRow, Plain row := by
  intro row hrow
  obtain ⟨event, he, rfl⟩ := List.mem_map.mp hrow
  obtain ⟨hmem, hstored⟩ := List.mem_filter.mp he
  have hup : Upgraded env event := of_decide_eq_true ((Bool.and_eq_true _ _).mp hstored).1
  obtain ⟨topic, htopic⟩ := Option.isSome_iff_exists.mp (h event hmem hup)
  exact ⟨by rw [upgradeRow, implementationOf, htopic]; rfl, rfl, event.isAddress⟩

/-- The stored rows of a known contract and a block are its `Upgraded` events. -/
theorem filter_key_upgradeRow (env : Env) {address : String} {block_height : ℕ}
    (h : (db.evm_smart_contract.get? address).isSome) :
    (((answer.filter (isStored env db)).map upgradeRow).filter fun row =>
      row.key = (address, block_height)) =
      (upgradesOf env address block_height answer).map upgradeRow := by
  rw [List.filter_map, List.filter_filter, upgradesOf]
  refine congrArg (List.map upgradeRow) (List.filter_congr fun event _ => ?_)
  rw [Function.comp_apply, isStored, upgradeRow, EvmProxyHistory.key, Bool.eq_iff_iff]
  simp only [Bool.and_eq_true, decide_eq_true_eq, Prod.mk.injEq]
  constructor
  · rintro ⟨⟨haddress, hheight⟩, hup, -⟩
    exact ⟨hup, haddress, hheight⟩
  · rintro ⟨hup, rfl, rfl⟩
    exact ⟨⟨rfl, rfl⟩, hup, h⟩

/-- The row of a known contract and a block with `Upgraded` events: the last one in the order of
the answer. -/
theorem get?_historyAfter (hup : ∀ event ∈ answer, Upgraded env event → event.topic1.isSome)
    {address : String} {block_height : ℕ} (h : (db.evm_smart_contract.get? address).isSome)
    {last : EvmEvent} (hlast : (upgradesOf env address block_height answer).getLast? = some last) :
    ∃ row, (historyAfter env db answer).get? (address, block_height) = some row ∧
      row.implementation_contract = implementationOf last := by
  have hplain := plain_upgradeRow db hup
  have hlast' := congrArg (Option.map upgradeRow) hlast
  rw [← List.getLast?_map, ← filter_key_upgradeRow env h] at hlast'
  have hkey : (upgradeRow last).key = (address, block_height) :=
    of_decide_eq_true (List.mem_filter.mp (List.mem_of_getLast? hlast')).2
  have hmem := (mem_mergedProxyContracts hplain).mpr (hkey ▸ hlast')
  rw [← hkey]
  refine get?_foldl_insertMerge_of_mem _ hmem (fun row hrow hk => ?_) _
  have hrow' := (mem_mergedProxyContracts hplain).mp hrow
  rw [hk, hkey, hlast'] at hrow'
  exact (Option.some.inj hrow').symm

/-- Every row after a run was there before or comes from an `Upgraded` event. -/
theorem mem_historyAfter (hup : ∀ event ∈ answer, Upgraded env event → event.topic1.isSome)
    {row : EvmProxyHistory} (hrow : row ∈ (historyAfter env db answer).rows) :
    row ∈ db.evm_proxy_history.rows ∨ ∃ event ∈ answer, Upgraded env event ∧
      event.address = row.proxy_contract ∧
      row.implementation_contract = implementationOf event := by
  have hplain := plain_upgradeRow db hup
  have hget := Table.get?_eq_some_iff.mpr ⟨hrow, rfl⟩
  by_cases hm : ∃ m ∈ mergedProxyContracts ((answer.filter (isStored env db)).map upgradeRow),
      m.key = row.key
  · obtain ⟨m, hmem, hkey⟩ := hm
    right
    have hlast := (mem_mergedProxyContracts hplain).mp hmem
    obtain ⟨row', hget', himpl⟩ := get?_foldl_insertMerge_of_mem
      ((mergedProxyContracts ((answer.filter (isStored env db)).map
        upgradeRow)).any (·.last_updated_height.isSome)) hmem (fun x hx hk => by
          have hx' := (mem_mergedProxyContracts hplain).mp hx
          rw [hk, hlast] at hx'
          exact (Option.some.inj hx').symm) db.evm_proxy_history
    rw [hkey] at hget'
    cases hget.symm.trans hget'
    obtain ⟨event, he, rfl⟩ := List.mem_map.mp (List.mem_of_mem_filter (List.mem_of_getLast? hlast))
    obtain ⟨hmem, hstored⟩ := List.mem_filter.mp he
    exact ⟨event, hmem, of_decide_eq_true ((Bool.and_eq_true _ _).mp hstored).1,
      congrArg Prod.fst hkey, himpl⟩
  · left
    have hne : ∀ m ∈ mergedProxyContracts ((answer.filter (isStored env db)).map upgradeRow),
        m.key ≠ row.key := fun m hmem hkey => hm ⟨m, hmem, hkey⟩
    rw [historyAfter, get?_foldl_insertMerge_of_ne _ hne] at hget
    exact (Table.get?_eq_some_iff.mp hget).1

end

end ProxyHistoryLemmas

/-! ## 7. The result -/

section
variable {env : Env} {db : Db} {startBlock : ℕ}

theorem mem_upgradesOf {address : String} {block_height : ℕ} {events : List EvmEvent}
    {event : EvmEvent} : event ∈ upgradesOf env address block_height events ↔
      event ∈ events ∧ Upgraded env event ∧ event.address = address ∧
        event.block_height = block_height := by
  rw [upgradesOf, List.mem_filter, decide_eq_true_eq]

theorem isSome_get?_of_mem {contract : EVMSmartContract}
    (h : contract ∈ db.evm_smart_contract.rows) :
    (db.evm_smart_contract.get? contract.address).isSome :=
  Option.isSome_iff_exists.mpr ⟨contract, Table.get?_eq_some_iff.mpr ⟨h, rfl⟩⟩

/-- Under the condition every answer gives the right rows. -/
theorem right_of_condition
    (htopic : ∀ event ∈ eventsOf db startBlock, Upgraded env event → event.topic1.isSome)
    (hsame : ∀ contract ∈ db.evm_smart_contract.rows, ∀ block_height,
      ∀ a ∈ upgradesOf env contract.address block_height (eventsOf db startBlock),
      ∀ b ∈ upgradesOf env contract.address block_height (eventsOf db startBlock),
        implementationOf a = implementationOf b)
    (hslot : ∀ contract ∈ db.evm_smart_contract.rows,
      Unrecorded env db (eventsOf db startBlock) contract.address →
      slotImplementation env contract = none)
    {answer : List EvmEvent} (hanswer : Returned unsorted (eventsOf db startBlock) answer) :
    Right env db startBlock answer := by
  have hup : ∀ event ∈ answer, Upgraded env event → event.topic1.isSome := fun event he =>
    htopic event (hanswer.mem_iff.mp he)
  have hisAddress : ∀ event ∈ answer, Upgraded env event →
      ∃ address, implementationOf event = some address ∧ IsAddress address := by
    intro event he hupgraded
    obtain ⟨topic, ht⟩ := Option.isSome_iff_exists.mp (hup event he hupgraded)
    exact ⟨_, by rw [implementationOf, ht]; rfl, implementation_isAddress topic⟩
  obtain ⟨db', hrun, hhistory⟩ := exists_jobHandler db startBlock hup
  refine ⟨db', hrun, ?_, ?_, ?_⟩
  · intro contract hcontract block_height last hlast
    have hmem := List.mem_of_getLast? hlast
    obtain ⟨he, hkey⟩ := mem_upgradesOf.mp hmem
    have hin := mem_upgradesOf.mpr ⟨hanswer.mem_iff.mpr he, hkey⟩
    obtain ⟨last', hlast'⟩ := Option.isSome_iff_exists.mp
      (List.getLast?_isSome.mpr (List.ne_nil_of_mem hin))
    obtain ⟨he', hkey'⟩ := mem_upgradesOf.mp (List.mem_of_getLast? hlast')
    have hin' := mem_upgradesOf.mpr ⟨hanswer.mem_iff.mp he', hkey'⟩
    obtain ⟨row, hrow, himpl⟩ := get?_historyAfter hup (isSome_get?_of_mem hcontract) hlast'
    obtain ⟨address, haddress, -⟩ := hisAddress last' he' hkey'.1
    refine ⟨row, hhistory ▸ hrow, ?_, ?_⟩
    · rw [himpl, haddress]
      rfl
    · rw [himpl, hsame contract hcontract block_height last' hin' last hmem]
  · intro contract hcontract hunrecorded address haddress
    rw [hslot contract hcontract hunrecorded] at haddress
    cases haddress
  · intro row hrow
    rcases mem_historyAfter hup (hhistory ▸ hrow) with hold | ⟨event, he, hupgraded, -, himpl⟩
    · exact Or.inl hold
    · obtain ⟨address, haddress, his⟩ := hisAddress event he hupgraded
      exact Or.inr ⟨address, himpl.trans haddress, his⟩

/-- What a right run has stored, in terms of its answer. -/
theorem history_of_right {answer : List EvmEvent} (h : Right env db startBlock answer) :
    (∀ event ∈ answer, Upgraded env event → event.topic1.isSome) ∧
      ∀ {db' : Db}, jobHandler env db startBlock answer = some db' →
        db'.evm_proxy_history = historyAfter env db answer := by
  obtain ⟨db', hrun, -⟩ := h
  have hup := topic1_of_jobHandler hrun
  refine ⟨hup, fun {db''} hrun' => ?_⟩
  obtain ⟨db₁, hrun₁, hhistory⟩ := exists_jobHandler db startBlock hup
  cases hrun'.symm.trans hrun₁
  exact hhistory

/-- Any `Upgraded` event of a block can be the last one that the query returns. -/
theorem same_implementation_of_right
    (hright : ∀ answer, Returned unsorted (eventsOf db startBlock) answer →
      Right env db startBlock answer)
    {contract : EVMSmartContract} (hcontract : contract ∈ db.evm_smart_contract.rows)
    {block_height : ℕ} {last event : EvmEvent}
    (hlast : (upgradesOf env contract.address block_height (eventsOf db startBlock)).getLast? =
      some last)
    (hevent : event ∈ upgradesOf env contract.address block_height (eventsOf db startBlock)) :
    implementationOf event = implementationOf last := by
  obtain ⟨he, hkey⟩ := mem_upgradesOf.mp hevent
  have hpick : ∃ answer, Returned unsorted (eventsOf db startBlock) answer ∧
      (upgradesOf env contract.address block_height answer).getLast? = some event :=
    exists_returned_getLast? he (decide_eq_true hkey) fun _ _ _ => le_refl _
  obtain ⟨answer, hanswer, hfirst⟩ := hpick
  have hok := hright answer hanswer
  obtain ⟨hup, hhistory⟩ := history_of_right hok
  obtain ⟨db', hrun, hblocks, -⟩ := hok
  obtain ⟨row, hrow, -, himpl⟩ := hblocks contract hcontract block_height last hlast
  obtain ⟨row', hrow', himpl'⟩ := get?_historyAfter hup (isSome_get?_of_mem hcontract) hfirst
  rw [hhistory hrun] at hrow
  cases hrow.symm.trans hrow'
  rw [← himpl', himpl]

/-- No row comes from a storage slot. -/
theorem slotImplementation_eq_none {answer : List EvmEvent}
    (hanswer : Returned unsorted (eventsOf db startBlock) answer)
    (hright : Right env db startBlock answer) {contract : EVMSmartContract}
    (hcontract : contract ∈ db.evm_smart_contract.rows)
    (hunrecorded : Unrecorded env db (eventsOf db startBlock) contract.address) :
    slotImplementation env contract = none := by
  obtain ⟨hup, hhistory⟩ := history_of_right hright
  obtain ⟨db', hrun, -, hslots, -⟩ := hright
  rw [Option.eq_none_iff_forall_ne_some]
  intro address haddress
  obtain ⟨row, hrow, hproxy, -⟩ := hslots contract hcontract hunrecorded address haddress
  rw [hhistory hrun] at hrow
  rcases mem_historyAfter hup hrow with hold | ⟨event, he, hupgraded, hevent, -⟩
  · exact hunrecorded.2.2.1 row hold hproxy
  · exact hunrecorded.2.1 event (hanswer.mem_iff.mp he) (hevent.trans hproxy) hupgraded

end

/-- The rows are right for every order of the events exactly when every `Upgraded` event has its
argument, those of a known contract and a block name one implementation, and no registered proxy is
left whose slot holds an address. -/
theorem proxy_history_iff (env : Env) (db : Db) (startBlock : ℕ) :
    (∀ answer, Returned unsorted (eventsOf db startBlock) answer → Right env db startBlock answer) ↔
      (∀ event ∈ eventsOf db startBlock, Upgraded env event → event.topic1.isSome) ∧
      (∀ contract ∈ db.evm_smart_contract.rows, ∀ block_height,
        ∀ a ∈ upgradesOf env contract.address block_height (eventsOf db startBlock),
        ∀ b ∈ upgradesOf env contract.address block_height (eventsOf db startBlock),
          implementationOf a = implementationOf b) ∧
      ∀ contract ∈ db.evm_smart_contract.rows,
        Unrecorded env db (eventsOf db startBlock) contract.address →
        slotImplementation env contract = none := by
  constructor
  · intro hright
    have hself : Returned unsorted (eventsOf db startBlock) (eventsOf db startBlock) :=
      returned_unsorted_iff.mpr (List.Perm.refl _)
    refine ⟨(history_of_right (hright _ hself)).1, ?_, ?_⟩
    · intro contract hcontract block_height a ha b hb
      obtain ⟨last, hlast⟩ := Option.isSome_iff_exists.mp
        (List.getLast?_isSome.mpr (List.ne_nil_of_mem ha))
      rw [same_implementation_of_right hright hcontract hlast ha,
        same_implementation_of_right hright hcontract hlast hb]
    · exact fun contract hcontract => slotImplementation_eq_none hself (hright _ hself) hcontract
  · rintro ⟨htopic, hsame, hslot⟩ answer hanswer
    exact right_of_condition htopic hsame hslot hanswer

/-- The address of a proxy. -/
def proxyAddress : String := prefixed (List.replicate 40 'a')

theorem isAddress_proxyAddress : IsAddress proxyAddress := by
  refine ⟨List.replicate 40 'a', List.length_replicate, fun c hc => ?_, rfl⟩
  rw [List.eq_of_mem_replicate hc]
  decide

/-- The slot of every address holds the address `0xbb…`. -/
def proxyClient : ViemClient where
  getBytecode _ := some "0x60"
  getStorageAt _ _ _ := some (prefixed (List.replicate 24 '0' ++ List.replicate 40 'b'))
  getBlockNumber := 200

/-- A registered proxy with one event, which is not `Upgraded`. -/
def proxyDb : Db where
  block_checkpoint := (Table.empty.upsert ⟨.crawlSmartContractEvm, 50⟩)
  evm_event := [⟨proxyAddress, isAddress_proxyAddress, some "0xddf252ad", none, 10, "0x01"⟩]
  evm_smart_contract := Table.empty.upsert ⟨proxyAddress, some .PROXY_EIP_1967⟩
  evm_proxy_history := Table.empty
  detected := []

/-- Its slot names an implementation, but no row is stored. -/
theorem slot_never_read : ¬ ∀ answer,
    Returned unsorted (eventsOf proxyDb 0) answer →
      Right ⟨proxyClient, "0xbc7cd75a"⟩ proxyDb 0 answer := by
  intro hright
  have hself : Returned unsorted (eventsOf proxyDb 0) (eventsOf proxyDb 0) :=
    returned_unsorted_iff.mpr (List.Perm.refl _)
  have hunrecorded : Unrecorded ⟨proxyClient, "0xbc7cd75a"⟩ proxyDb (eventsOf proxyDb 0)
      proxyAddress := by
    refine ⟨⟨_, List.mem_singleton_self _, rfl⟩, ?_, by simp [proxyDb, Table.empty],
      by simp [proxyDb]⟩
    intro event he _ hup
    cases List.mem_singleton.mp (show event ∈ proxyDb.evm_event from (mem_between.mp he).1)
    exact absurd hup (by decide +kernel)
  have hproxy : (⟨proxyAddress, some .PROXY_EIP_1967⟩ : EVMSmartContract) ∈
      proxyDb.evm_smart_contract.rows := List.mem_singleton_self _
  have hnone := slotImplementation_eq_none hself (hright _ hself) hproxy hunrecorded
  exact absurd hnone (by decide +kernel)

end Erascope.Evm.ProxyHistory
