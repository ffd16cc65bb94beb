import Mathlib.Tactic
import Erascope.Lib.Rows
import Erascope.Lib.Fold

/-!
# Contracts and their versions

The model of `services/crawl-cosmwasm/crawl_smart_contract.service.ts`. `CRAWL_SMART_CONTRACT`
stores a row for every instantiation, with what the node answers about the contract.
`HANDLE_MIGRATE_CONTRACT` reads the migrations of a range into an object keyed by address, adds
one row for every contract in it that has a latest row, and marks that one as migrated.

* `insertNewContracts`: the rows of instantiated contracts.
* `handleMigrateContract`: the rows of a range of migrations.
* `handleMigrateContract_spec`: what a range does to the rows of one address.
-/

namespace Erascope.CrawlCosmwasm

/-! ## 1. Rows -/

/-- `SmartContract.STATUS` -/
inductive Status
  | latest | migrated
deriving DecidableEq, Repr

/-- A row of `smart_contract`; its position in the table stands for its id. -/
structure SmartContract where
  name : Option String
  address : String
  creator : String
  code_id : ℕ
  status : Status
  label : Option String
  instantiate_hash : String
  instantiate_height : ℕ
  version : Option String
deriving DecidableEq, Repr

/-- What ends a run. -/
inductive ContractError
  /-- `fromJson` of a row whose code id is not a number. -/
  | invalidCodeId
  /-- A row refers to the code 0, which no code has. -/
  | foreignKey
deriving DecidableEq, Repr

/-- The data of a contract under `contract_info`. -/
structure Cw2 where
  contract : String
  name : Option String
  version : String
deriving DecidableEq, Repr

/-- The node's information about a contract. -/
structure ContractInfo where
  codeId : ℕ
  creator : String
  label : String
deriving DecidableEq, Repr

/-! ## 2. Instantiations -/

/-- `IInstantiateContracts` -/
structure IInstantiateContracts where
  address : String
  hash : String
  height : ℕ
deriving DecidableEq, Repr

/-- The row of an instantiated contract, with the answers of the node. -/
def newContract (contractCw2 : Option Cw2) (contractInfo : Option ContractInfo)
    (contract : IInstantiateContracts) : SmartContract :=
  { name := contractCw2.map (·.contract)
    address := contract.address
    creator := (contractInfo.map (·.creator)).getD ""
    code_id := (contractInfo.map (·.codeId)).getD 0
    status := .latest
    label := contractInfo.map (·.label)
    instantiate_hash := contract.hash
    instantiate_height := contract.height
    version := contractCw2.map (·.version) }

/-- `insertNewContracts`: codes that are missing are crawled first, so that only the code 0 has no
row. -/
def insertNewContracts (contractCw2s : String → Option Cw2)
    (contractInfos : String → Option ContractInfo) (table : List SmartContract)
    (contracts : List IInstantiateContracts) : Except ContractError (List SmartContract) :=
  let smartContracts := contracts.map fun contract =>
    newContract (contractCw2s contract.address) (contractInfos contract.address) contract
  if smartContracts.any fun contract => contract.code_id = 0 then .error .foreignKey
  else .ok (table ++ smartContracts)

/-! ## 3. Migrations -/

/-- The entries of `EventAttribute.ATTRIBUTE_KEY` that the job reads, or any other key. -/
inductive AttributeKey
  | contractAddress | codeId
  | other (key : String)
deriving DecidableEq, Repr

/-- The value of an attribute: a text, or the digits of a number, which the validation of a row
turns into the number. -/
inductive AttributeValue
  | text (value : String)
  | number (value : ℕ)
deriving DecidableEq, Repr

/-- The number of a value that is one. -/
def AttributeValue.toNat? : AttributeValue → Option ℕ
  | .text _ => none
  | .number value => some value

/-- The text of a value. -/
def AttributeValue.toText : AttributeValue → String
  | .text value => value
  | .number value => value.repr

/-- A row that the query of migrations returns: an attribute with its event and transaction. -/
structure AttributeRow where
  hash : String
  height : ℕ
  event_id : ℕ
  key : AttributeKey
  value : AttributeValue
deriving DecidableEq, Repr

/-- An entry of `migrateEvents`. -/
structure MigrateEvent where
  address : String
  codeId : Option AttributeValue
  hash : String
  height : ℕ
deriving DecidableEq, Repr

/-- The code id of an event: `resultTx.find(...)?.value`. -/
def codeIdOf (resultTx : List AttributeRow) (event_id : ℕ) : Option AttributeValue :=
  (resultTx.find? fun rs => rs.event_id = event_id && rs.key = .codeId).map (·.value)

/-- The values that the loop stores in `migrateEvents` and `codeContractValues`, in order. -/
def codeContractValues (resultTx : List AttributeRow) : List MigrateEvent :=
  resultTx.filterMap fun res =>
    if res.key = .contractAddress then
      some { address := res.value.toText
             codeId := codeIdOf resultTx res.event_id
             hash := res.hash
             height := res.height }
    else none

/-- `migrateEvents[address]`: a later value replaces an earlier one. -/
def migrateEvents (resultTx : List AttributeRow) (address : String) : Option MigrateEvent :=
  ((codeContractValues resultTx).filter fun e => e.address = address).getLast?

/-- Whether `oldContracts` has a row. -/
def isOld (resultTx : List AttributeRow) (row : SmartContract) : Bool :=
  row.status = .latest && row.address ∈ (codeContractValues resultTx).map (·.address)

/-- The new row of a contract. One whose code no contract has yet gets its name and version from
the node. -/
def migratedRow (contractCw2 : Option Cw2) (codeContract : Option SmartContract)
    (instantiateEvent : MigrateEvent) (code_id : ℕ) (contract : SmartContract) : SmartContract :=
  { name :=
      match codeContract with
      | some codeContract => codeContract.name
      | none => contractCw2.elim (some "") (·.name)
    address := contract.address
    creator := contract.creator
    code_id := code_id
    status := .latest
    label := contract.label
    instantiate_hash := instantiateEvent.hash
    instantiate_height := instantiateEvent.height
    version :=
      match codeContract with
      | some codeContract => codeContract.version
      | none => some (contractCw2.elim "" (·.version)) }

/-- The new row of a contract of `oldContracts`, and whether `codeContractsByKey` has its code. -/
def migrateContract (contractCw2s : String → Option Cw2) (table : List SmartContract)
    (resultTx : List AttributeRow) (contract : SmartContract) :
    Except ContractError (Bool × SmartContract) :=
  let instantiateEvent := migrateEvents resultTx contract.address
  match instantiateEvent, (instantiateEvent.bind (·.codeId)).bind (·.toNat?) with
  | some instantiateEvent, some code_id =>
    let codeContract :=
      (table.filter fun row => some (.number row.code_id) = instantiateEvent.codeId).getLast?
    .ok (codeContract.isSome,
      migratedRow (contractCw2s contract.address) codeContract instantiateEvent code_id contract)
  | _, _ => .error .invalidCodeId

/-- `patch({ status: MIGRATED })` on the rows of `oldContractIds`. -/
def patchOld (resultTx : List AttributeRow) (row : SmartContract) : SmartContract :=
  if isOld resultTx row then { row with status := .migrated } else row

/-- `handleMigrateContract`, for the rows that the query returns. The codes of the migrations are
there, since the job waits for `CRAWL_CODE`. -/
def handleMigrateContract (contractCw2s : String → Option Cw2) (table : List SmartContract)
    (resultTx : List AttributeRow) : Except ContractError (List SmartContract) := do
  let contracts ← (table.filter (isOld resultTx)).mapM
    (migrateContract contractCw2s table resultTx)
  let newContracts := (contracts.filter (·.1)).map (·.2)
  let missingVersionContracts := (contracts.filter (!·.1)).map (·.2)
  return table.map (patchOld resultTx) ++ (newContracts ++ missingVersionContracts)

/-! ## 4. The rows of one address -/

/-- The rows of an address. -/
def rowsOf (table : List SmartContract) (address : String) : List SmartContract :=
  table.filter fun row => row.address = address

/-- The rows that are the latest. -/
def latest (rows : List SmartContract) : List SmartContract :=
  rows.filter fun row => row.status = .latest

/-- Every migration has a code id that is a number. -/
def Readable (resultTx : List AttributeRow) : Prop :=
  ∀ e ∈ codeContractValues resultTx, ∃ code_id : ℕ, e.codeId = some (.number code_id)

/-- The row says what the entry of `migrateEvents` says. -/
def IsVersion (resultTx : List AttributeRow) (row : SmartContract) : Prop :=
  row.status = .latest ∧ ∃ e, migrateEvents resultTx row.address = some e ∧
    e.codeId = some (.number row.code_id) ∧ row.instantiate_hash = e.hash ∧
    row.instantiate_height = e.height

namespace ContractLemmas

variable {contractCw2s : String → Option Cw2} {table : List SmartContract}
  {resultTx : List AttributeRow} {address : String}

theorem rowsOf_append (table table' : List SmartContract) (address : String) :
    rowsOf (table ++ table') address = rowsOf table address ++ rowsOf table' address :=
  List.filter_append ..

theorem latest_append (rows rows' : List SmartContract) :
    latest (rows ++ rows') = latest rows ++ latest rows' := List.filter_append ..

theorem address_of_mem_rowsOf {row : SmartContract} (h : row ∈ rowsOf table address) :
    row.address = address := of_decide_eq_true (List.mem_filter.mp h).2

theorem migrateContract_ok {contract : SmartContract} {e : MigrateEvent} {code_id : ℕ}
    (he : migrateEvents resultTx contract.address = some e) (hcode : e.codeId = some (.number code_id)) :
    ∃ codeContract, migrateContract contractCw2s table resultTx contract =
      .ok (codeContract.isSome,
        migratedRow (contractCw2s contract.address) codeContract e code_id contract) := by
  refine ⟨(table.filter fun row => some (.number row.code_id) = e.codeId).getLast?, ?_⟩
  simp only [migrateContract, he, Option.bind_some, hcode, AttributeValue.toNat?]

theorem mem_of_migrateEvents {e : MigrateEvent} (he : migrateEvents resultTx address = some e) :
    e ∈ codeContractValues resultTx ∧ e.address = address := by
  obtain ⟨hmem, haddress⟩ := List.mem_filter.mp (List.mem_of_getLast? he)
  exact ⟨hmem, of_decide_eq_true haddress⟩

theorem migrateEvents_isSome (h : address ∈ (codeContractValues resultTx).map (·.address)) :
    ∃ e, migrateEvents resultTx address = some e := by
  obtain ⟨e, he, rfl⟩ := List.mem_map.mp h
  have hmem : e ∈ (codeContractValues resultTx).filter fun e' => e'.address = e.address :=
    List.mem_filter.mpr ⟨he, by simp⟩
  exact Option.isSome_iff_exists.mp (List.getLast?_isSome.mpr (List.ne_nil_of_mem hmem))

theorem isOld_iff {row : SmartContract} : isOld resultTx row = true ↔
    row.status = .latest ∧ row.address ∈ (codeContractValues resultTx).map (·.address) := by
  simp [isOld]

/-- Every contract with a migration in the range gets the row of one of them. -/
theorem migrateContract_isVersion (h : Readable resultTx) {contract : SmartContract}
    (hold : isOld resultTx contract = true) :
    ∃ made : Bool × SmartContract, migrateContract contractCw2s table resultTx contract = .ok made ∧
      made.2.address = contract.address ∧ IsVersion resultTx made.2 := by
  obtain ⟨e, he⟩ := migrateEvents_isSome (isOld_iff.mp hold).2
  obtain ⟨code_id, hcode⟩ := h e (mem_of_migrateEvents he).1
  obtain ⟨codeContract, hok⟩ := @migrateContract_ok contractCw2s table resultTx _ _ _ he hcode
  exact ⟨_, hok, rfl, rfl, e, he, hcode, rfl, rfl⟩

end ContractLemmas

open ContractLemmas

/-- What a range of migrations does to the rows of an address: one new row for every latest one, if
there is a migration. -/
theorem handleMigrateContract_spec {resultTx : List AttributeRow} (h : Readable resultTx)
    (contractCw2s : String → Option Cw2) (table : List SmartContract) :
    ∃ table', handleMigrateContract contractCw2s table resultTx = .ok table' ∧
      ∀ address, ∃ made : List SmartContract,
        rowsOf table' address = (rowsOf table address).map (patchOld resultTx) ++ made ∧
        made.length = ((rowsOf table address).filter (isOld resultTx)).length ∧
        ∀ row ∈ made, row.address = address ∧ IsVersion resultTx row := by
  set olds := table.filter (isOld resultTx) with holds
  set make := fun contract =>
    (migrateContract contractCw2s table resultTx contract).toOption.getD (false, contract) with hmake
  have hmade : ∀ contract ∈ olds, migrateContract contractCw2s table resultTx contract =
      .ok (make contract) ∧ (make contract).2.address = contract.address ∧
      IsVersion resultTx (make contract).2 := by
    intro contract hmem
    obtain ⟨made, hok, haddress, hversion⟩ :=
      @migrateContract_isVersion contractCw2s table _ h contract (List.mem_filter.mp hmem).2
    simp only [hmake, hok]
    exact ⟨rfl, haddress, hversion⟩
  set news := ((olds.map make).filter (·.1)).map (·.2) ++ ((olds.map make).filter (!·.1)).map (·.2)
    with hnews
  have hperm : news.Perm (olds.map fun contract => (make contract).2) := by
    rw [hnews, ← List.map_append]
    refine ((List.filter_append_perm _ _).map _).trans (List.Perm.of_eq ?_)
    rw [List.map_map]
    rfl
  refine ⟨table.map (patchOld resultTx) ++ news, ?_, fun address => ⟨rowsOf news address, ?_, ?_, ?_⟩⟩
  · rw [handleMigrateContract, mapM_ok fun contract hmem => (hmade contract hmem).1]
    rfl
  · rw [rowsOf_append]
    congr 1
    rw [rowsOf, rowsOf, List.filter_map]
    refine congrArg _ (List.filter_congr fun row _ => ?_)
    simp only [Function.comp_apply, patchOld]
    split <;> rfl
  · -- the new rows keep the addresses of the old ones
    have hlength : (rowsOf news address).length =
        (olds.filter fun contract => contract.address = address).length := by
      rw [rowsOf, (hperm.filter _).length_eq, List.filter_map, List.length_map]
      refine congrArg _ (List.filter_congr fun contract hmem => ?_)
      simp only [Function.comp_apply, (hmade contract hmem).2.1]
    rw [hlength, holds, rowsOf, List.filter_filter, List.filter_filter]
    refine congrArg _ (List.filter_congr fun contract _ => ?_)
    exact Bool.and_comm ..
  · intro row hrow
    refine ⟨address_of_mem_rowsOf hrow, ?_⟩
    obtain ⟨contract, hmem, rfl⟩ := List.mem_map.mp (hperm.mem_iff.mp (List.mem_of_mem_filter hrow))
    exact (hmade contract hmem).2.2

end Erascope.CrawlCosmwasm
