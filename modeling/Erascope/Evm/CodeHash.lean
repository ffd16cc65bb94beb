import Mathlib.Tactic
import Erascope.Lib.JobQueue
import Erascope.Lib.Pages
import Erascope.Lib.Run
import Erascope.Lib.Serial
import Erascope.Evm.Verify

/-!
# Verification by code hash

The model of `job/insert_verify_by_codehash.service.ts` with the jobs around it:
`CRAWL_SMART_CONTRACT_EVM` stores contracts and then creates a job for each of their code hashes,
`VERIFY_CONTRACT_EVM` and `SYNC_SOURCIFY` verify contracts. A job takes the newest verification of
its code hash, reads the contracts with this code hash page by page, and at its end stores a copy of
the verification for each contract that had none. The id of a job is its code hash.

Between two queries of the job anything else may happen, and a job may fail or start again.

Results:
1. `synced_rows`: in every run a contract gets at most one copy, and a copy shows the name, the
   compiler and the ABI of a contract that was verified itself and has the same code hash.
2. `verified_when_settled`: from the time on when a code hash is verified, a new contract with it is
   verified as soon as no job of the code hash is left, provided that no creation of a job came to
   nothing. `dropped_stays_unverified`: one comes to nothing when it reaches the queue after the
   last page of the job before it.
-/

namespace Erascope.Evm.CodeHash

open Verify (VerificationStatus)

/-! ## 1. Tables -/

/-- A row of `evm_smart_contract`. -/
structure EVMSmartContract where
  address : String
  code_hash : Option String
deriving DecidableEq, Repr

/-- `compile_detail`, in JSON. -/
inductive CompileDetail
  /-- `[{ syncFromId }]` -/
  | syncFromId (id : ℕ)
  | other (json : String)
deriving DecidableEq, Repr

/-- A row of `evm_contract_verification`. -/
structure EVMContractVerification where
  contract_address : String
  code_hash : Option String
  status : VerificationStatus
  abi : Option String
  compile_detail : Option CompileDetail
  compiler_version : Option String
  contract_name : Option String
deriving DecidableEq, Repr

/-- What `VERIFY_CONTRACT_EVM` and `SYNC_SOURCIFY` store of a contract that they have verified. -/
structure Compiled where
  code_hash : Option String
  abi : Option String
  compile_detail : String
  compiler_version : Option String
  contract_name : Option String
deriving DecidableEq, Repr

/-- Where the worker is in `insertVerifyByCodeHash`. -/
inductive Progress
  | started
  /-- In the loop over the pages. -/
  | reading (successVerified : Numbered EVMContractVerification) (currentId : ℕ)
      (newEvmContractVerification : List EVMContractVerification)
  /-- After the loop. -/
  | done (newEvmContractVerification : List EVMContractVerification)
deriving DecidableEq, Repr

/-- The tables, the jobs `INSERT_VERIFY_BY_CODEHASH`, and the code hashes for which the crawler has
yet to create a job. -/
structure Db where
  evm_smart_contract : Serial EVMSmartContract.address
  evm_contract_verification : List (Numbered EVMContractVerification)
  nextVerificationId : ℕ
  queue : JobQueue String Progress
  toCreate : List String

/-- `VERIFICATION_STATUS.SUCCESS` -/
def isSuccess (v : Numbered EVMContractVerification) : Bool := v.row.status = .SUCCESS

/-- A row of this job. -/
def isSynced (v : EVMContractVerification) : Bool :=
  match v.compile_detail with
  | some (.syncFromId _) => true
  | _ => false

/-- The rows of `successVerified`, the newest first; the query keeps one. -/
def successVerified (db : Db) (codehash : String) : Option (Numbered EVMContractVerification) :=
  (db.evm_contract_verification.filter fun v =>
    v.row.code_hash = some codehash ∧ isSuccess v).getLast?

/-- A contract has no rows in `evm_contract_verifications`, which are those with `SUCCESS`. -/
def unverified (db : Db) (address : String) : Bool :=
  db.evm_contract_verification.all fun v => !(v.row.contract_address = address ∧ isSuccess v)

/-- The page after `currentId`. -/
def pageOf (db : Db) (codehash : String) (currentId : ℕ) : List (Numbered EVMSmartContract) :=
  pageAfter (·.id) (db.evm_smart_contract.rows.filter fun c => c.row.code_hash = some codehash) 100
    currentId

/-- The copy of a verification for a contract. -/
def copyFor (successVerified : Numbered EVMContractVerification)
    (contract : Numbered EVMSmartContract) : EVMContractVerification where
  contract_address := contract.row.address
  code_hash := contract.row.code_hash
  abi := successVerified.row.abi
  compile_detail := some (.syncFromId successVerified.id)
  compiler_version := successVerified.row.compiler_version
  contract_name := successVerified.row.contract_name
  status := .SUCCESS

/-! ## 2. Steps -/

def insertVerifications (db : Db) (new : List EVMContractVerification) : Db :=
  { db with
    evm_contract_verification :=
      db.evm_contract_verification ++ Serial.number db.nextVerificationId new
    nextVerificationId := db.nextVerificationId + new.length }

/-- The next query or statement of the job. A page is read together with the verifications of its
contracts. -/
def workOn (db : Db) (codehash : String) : Progress → Db
  | .started =>
    match successVerified db codehash with
    | none => { db with queue := db.queue.complete }
    | some v => { db with queue := db.queue.progress (.reading v 0 []) }
  | .reading v currentId new =>
    let contracts := pageOf db codehash currentId
    match contracts.getLast? with
    | none => { db with queue := db.queue.progress (.done new) }
    | some last =>
      let added := (contracts.filter fun c => unverified db c.row.address).map (copyFor v)
      { db with queue := db.queue.progress (.reading v last.id (new ++ added)) }
  | .done new => { insertVerifications db new with queue := db.queue.complete }

/-- The patch of `VERIFY_CONTRACT_EVM`, which takes rows with `PENDING`. A row that fails keeps its
code hash if none was computed. -/
def patch (v : Numbered EVMContractVerification) :
    Except (Option String × String) Compiled → Numbered EVMContractVerification
  | .ok r =>
    { v with row := { v.row with
      code_hash := r.code_hash
      status := .SUCCESS
      abi := r.abi
      compile_detail := some (.other r.compile_detail)
      compiler_version := r.compiler_version
      contract_name := r.contract_name } }
  | .error (code_hash, compile_detail) =>
    { v with row := { v.row with
      code_hash := code_hash.or v.row.code_hash
      status := .FAIL
      compile_detail := some (.other compile_detail) } }

/-- The row of a match of Sourcify. -/
def matchRow (address : String) (r : Compiled) : EVMContractVerification where
  contract_address := address
  code_hash := r.code_hash
  status := .SUCCESS
  abi := r.abi
  compile_detail := some (.other r.compile_detail)
  compiler_version := r.compiler_version
  contract_name := r.contract_name

/-- A request: the row that `inputRequestVerify` inserts. -/
def requestRow (address : String) (compiler_version : Option String) : EVMContractVerification where
  contract_address := address
  code_hash := none
  status := .PENDING
  abi := none
  compile_detail := none
  compiler_version := compiler_version
  contract_name := none

/-- What can happen. -/
inductive Step
  /-- `CRAWL_SMART_CONTRACT_EVM` stores contracts, given with their code hashes. -/
  | crawlContracts (new : List (String × String))
  /-- One of its calls of `createJob` reaches the queue. -/
  | createJob (codehash : String)
  /-- One of its calls of `createJob` never does. -/
  | loseJob (codehash : String)
  /-- The action `createJobInsertVerifyByCodeHash`. -/
  | actionCreateJob (codehash : String)
  | inputRequestVerify (address : String) (compiler_version : Option String)
  | verifyContractEVM (id : ℕ) (result : Except (Option String × String) Compiled)
  | syncSourcify (found : List (String × Compiled))
  | startJob
  | work
  /-- The job throws; three failed jobs are kept. -/
  | jobFails
  /-- The process stops while the job runs. -/
  | stop

def step (db : Db) : Step → Db
  | .crawlContracts new =>
    match db.evm_smart_contract.insert (new.map fun c => ⟨c.1, some c.2⟩) with
    | none => db
    | some t => { db with evm_smart_contract := t, toCreate := db.toCreate ++ new.map (·.2) }
  | .createJob codehash =>
    if codehash ∈ db.toCreate then
      { db with queue := db.queue.add codehash, toCreate := db.toCreate.erase codehash }
    else db
  | .loseJob codehash => { db with toCreate := db.toCreate.erase codehash }
  | .actionCreateJob codehash => { db with queue := db.queue.add codehash }
  | .inputRequestVerify address compiler_version =>
    insertVerifications db [requestRow address compiler_version]
  | .verifyContractEVM id result =>
    { db with
      evm_contract_verification := db.evm_contract_verification.map fun v =>
        if v.id = id ∧ v.row.status = .PENDING then patch v result else v }
  | .syncSourcify found => insertVerifications db (found.map fun m => matchRow m.1 m.2)
  | .startJob => { db with queue := db.queue.take .started }
  | .work =>
    match db.queue.active with
    | none => db
    | some (codehash, p) => workOn db codehash p
  | .jobFails => { db with queue := db.queue.fail 3 }
  | .stop => { db with queue := db.queue.stall }

/-- The migration that adds the precompiled contracts, given with their ABI. -/
def up (precompileContracts : List (String × String)) : Db where
  evm_smart_contract :=
    (Serial.empty.insert (precompileContracts.map fun c => ⟨c.1, none⟩)).getD Serial.empty
  evm_contract_verification := Serial.number 1
    (precompileContracts.map fun c => ⟨c.1, none, .SUCCESS, some c.2, none, none, none⟩)
  nextVerificationId := 1 + precompileContracts.length
  queue := JobQueue.empty
  toCreate := []

/-! ## 3. Properties -/

/-- The contract is verified. -/
def IsVerified (db : Db) (address : String) : Prop :=
  ∃ v ∈ db.evm_contract_verification, v.row.contract_address = address ∧ isSuccess v = true

/-- A contract with the code hash is verified. -/
def HashVerified (db : Db) (codehash : String) : Prop :=
  ∃ v ∈ db.evm_contract_verification, v.row.code_hash = some codehash ∧ isSuccess v = true

instance (db : Db) (address : String) : Decidable (IsVerified db address) :=
  inferInstanceAs (Decidable (∃ v ∈ db.evm_contract_verification, _ ∧ _))

instance (db : Db) (codehash : String) : Decidable (HashVerified db codehash) :=
  inferInstanceAs (Decidable (∃ v ∈ db.evm_contract_verification, _ ∧ _))

/-- A row says of its contract what a row that is no copy says of one with the same code hash. -/
structure Copied (db : Db) (r : EVMContractVerification) : Prop where
  success : r.status = .SUCCESS
  contract : ∃ c ∈ db.evm_smart_contract.rows, c.row = ⟨r.contract_address, r.code_hash⟩
  origin : ∃ v ∈ db.evm_contract_verification, isSuccess v = true ∧ isSynced v.row = false ∧
    v.row.code_hash = r.code_hash ∧ v.row.abi = r.abi ∧
    v.row.compiler_version = r.compiler_version ∧ v.row.contract_name = r.contract_name

/-- What the job has gathered can be stored. -/
structure NewOk (db : Db) (new : List EVMContractVerification) : Prop where
  copied : ∀ r ∈ new, Copied db r
  synced : ∀ r ∈ new, isSynced r = true
  nodup : (new.map (·.contract_address)).Nodup
  fresh : ∀ r ∈ new, ∀ v ∈ db.evm_contract_verification, isSynced v.row = true →
    v.row.contract_address ≠ r.contract_address

/-- The contract is verified, or the job has a copy for it. -/
def Handled (db : Db) (new : List EVMContractVerification) (address : String) : Prop :=
  IsVerified db address ∨ ∃ r ∈ new, r.contract_address = address

instance (db : Db) (new : List EVMContractVerification) (address : String) :
    Decidable (Handled db new address) := inferInstanceAs (Decidable (_ ∨ ∃ r ∈ new, _))

/-- The job is in its loop: it has handled the contracts up to `currentId`. -/
structure ReadingOk (db : Db) (codehash : String) (v : Numbered EVMContractVerification)
    (currentId : ℕ) (new : List EVMContractVerification) : Prop where
  mem : v ∈ db.evm_contract_verification
  success : isSuccess v = true
  code_hash : v.row.code_hash = some codehash
  new_ok : NewOk db new
  seen : ∀ r ∈ new, ∃ c ∈ db.evm_smart_contract.rows,
    c.row.address = r.contract_address ∧ c.id ≤ currentId
  lt_nextId : currentId < db.evm_smart_contract.nextId
  handled : ∀ c ∈ db.evm_smart_contract.rows, c.row.code_hash = some codehash → c.id ≤ currentId →
    Handled db new c.row.address

/-- What holds while the job of `codehash` runs. -/
def JobOk (db : Db) (codehash : String) : Progress → Prop
  | .started => True
  | .reading v currentId new => ReadingOk db codehash v currentId new
  | .done new => NewOk db new

/-- The invariant. -/
structure Inv (db : Db) : Prop where
  id_pos : ∀ c ∈ db.evm_smart_contract.rows, 0 < c.id
  nextId_pos : 0 < db.evm_smart_contract.nextId
  synced : ∀ v ∈ db.evm_contract_verification, isSynced v.row = true → Copied db v.row
  once : ((db.evm_contract_verification.filter fun v => isSynced v.row).map
    (·.row.contract_address)).Nodup
  job : ∀ codehash p, db.queue.Runs codehash p → JobOk db codehash p

/-! ## 4. Rows that stay -/

namespace CodeHashLemmas

variable {db db' : Db} {codehash : String} {r : EVMContractVerification}

theorem isSuccess_iff {v : Numbered EVMContractVerification} :
    isSuccess v = true ↔ v.row.status = .SUCCESS := decide_eq_true_iff

theorem unverified_iff {address : String} :
    unverified db address = true ↔ ¬ IsVerified db address := by
  simp only [unverified, List.all_eq_true, Bool.not_eq_true', decide_eq_false_iff_not, IsVerified,
    not_exists, not_and]

/-- Contracts and successful verifications stay. -/
structure Grows (db db' : Db) : Prop where
  contract : ∀ c ∈ db.evm_smart_contract.rows, c ∈ db'.evm_smart_contract.rows
  new_contract : ∀ c ∈ db'.evm_smart_contract.rows, c ∈ db.evm_smart_contract.rows ∨
    db.evm_smart_contract.nextId ≤ c.id
  nextId : db.evm_smart_contract.nextId ≤ db'.evm_smart_contract.nextId
  success : ∀ v ∈ db.evm_contract_verification, isSuccess v = true →
    v ∈ db'.evm_contract_verification

theorem Grows.isVerified (h : Grows db db') {address : String} (hv : IsVerified db address) :
    IsVerified db' address := by
  obtain ⟨v, hv, haddress, hsuccess⟩ := hv
  exact ⟨v, h.success v hv hsuccess, haddress, hsuccess⟩

theorem Grows.hashVerified (h : Grows db db') (hv : HashVerified db codehash) :
    HashVerified db' codehash := by
  obtain ⟨v, hv, hhash, hsuccess⟩ := hv
  exact ⟨v, h.success v hv hsuccess, hhash, hsuccess⟩

theorem Grows.copied (h : Grows db db') (hr : Copied db r) : Copied db' r where
  success := hr.success
  contract := by
    obtain ⟨c, hc, hrow⟩ := hr.contract
    exact ⟨c, h.contract c hc, hrow⟩
  origin := by
    obtain ⟨v, hv, hsuccess, hrest⟩ := hr.origin
    exact ⟨v, h.success v hv hsuccess, hsuccess, hrest⟩

theorem Grows.trans {db₂ : Db} (h : Grows db db') (h' : Grows db' db₂) : Grows db db₂ where
  contract c hc := h'.contract c (h.contract c hc)
  new_contract c hc := by
    rcases h'.new_contract c hc with hc | hid
    · exact h.new_contract c hc
    · exact Or.inr (h.nextId.trans hid)
  nextId := h.nextId.trans h'.nextId
  success v hv hs := h'.success v (h.success v hv hs) hs

/-- Nothing happens to the copies. -/
structure Quiet (db db' : Db) : Prop extends Grows db db' where
  synced : (db'.evm_contract_verification.filter fun v => isSynced v.row) =
    db.evm_contract_verification.filter fun v => isSynced v.row

theorem Quiet.mem_synced (h : Quiet db db') {v : Numbered EVMContractVerification}
    (hv : v ∈ db'.evm_contract_verification) (hs : isSynced v.row = true) :
    v ∈ db.evm_contract_verification := by
  have hmem : v ∈ db'.evm_contract_verification.filter fun v => isSynced v.row :=
    List.mem_filter.mpr ⟨hv, hs⟩
  rw [h.synced] at hmem
  exact (List.mem_filter.mp hmem).1

theorem Quiet.newOk (h : Quiet db db') {new : List EVMContractVerification} (hnew : NewOk db new) :
    NewOk db' new where
  copied r hr := h.copied (hnew.copied r hr)
  synced := hnew.synced
  nodup := hnew.nodup
  fresh r hr v hv hs := hnew.fresh r hr v (h.mem_synced hv hs) hs

theorem Grows.handled (h : Grows db db') {new : List EVMContractVerification} {address : String}
    (hh : Handled db new address) : Handled db' new address := hh.imp_left h.isVerified

theorem Quiet.jobOk (h : Quiet db db') :
    ∀ {p : Progress}, JobOk db codehash p → JobOk db' codehash p
  | .started, _ => trivial
  | .reading _ _ _, hp => {
      mem := h.success _ hp.mem hp.success
      success := hp.success
      code_hash := hp.code_hash
      new_ok := h.newOk hp.new_ok
      seen := fun r hr =>
        let ⟨c, hc, hrest⟩ := hp.seen r hr
        ⟨c, h.contract c hc, hrest⟩
      lt_nextId := hp.lt_nextId.trans_le h.nextId
      handled := by
        intro c hc hhash hle
        rcases h.new_contract c hc with hc | hid
        · exact h.handled (hp.handled c hc hhash hle)
        · exact absurd (hp.lt_nextId.trans_le hid) (not_lt.mpr hle) }
  | .done _, hp => h.newOk hp

/-- The invariant after a step that leaves the copies alone and at most starts a job. -/
theorem inv_of_quiet (h : Inv db) (hq : Quiet db db')
    (hruns : ∀ codehash p, db'.queue.Runs codehash p →
      db.queue.Runs codehash p ∨ JobOk db' codehash p) : Inv db' where
  id_pos := by
    intro c hc
    rcases hq.new_contract c hc with hc | hid
    · exact h.id_pos c hc
    · exact h.nextId_pos.trans_le hid
  nextId_pos := h.nextId_pos.trans_le hq.nextId
  synced v hv hs := hq.copied (h.synced v (hq.mem_synced hv hs) hs)
  once := by
    rw [hq.synced]
    exact h.once
  job codehash p hp := (hruns codehash p hp).elim (fun hp => hq.jobOk (h.job codehash p hp)) id

/-! ## 5. One step -/

theorem quiet_queue (db : Db) (queue : JobQueue String Progress) (toCreate : List String) :
    Quiet db { db with queue := queue, toCreate := toCreate } where
  contract _ hc := hc
  new_contract _ hc := Or.inl hc
  nextId := le_refl _
  success _ hv _ := hv
  synced := rfl

theorem grows_insertVerifications (db : Db) (new : List EVMContractVerification) :
    Grows db (insertVerifications db new) where
  contract _ hc := hc
  new_contract _ hc := Or.inl hc
  nextId := le_refl _
  success _ hv _ := List.mem_append_left _ hv

theorem quiet_insertVerifications (db : Db) {new : List EVMContractVerification}
    (hnew : ∀ r ∈ new, isSynced r = false) : Quiet db (insertVerifications db new) where
  toGrows := grows_insertVerifications db new
  synced := by
    have hrows :
        (Serial.number db.nextVerificationId new).filter (fun v => isSynced v.row) = [] := by
      rw [List.filter_eq_nil_iff]
      intro v hv
      rw [hnew v.row (by
        rw [← Serial.map_row_number db.nextVerificationId new]
        exact List.mem_map_of_mem hv)]
      exact Bool.false_ne_true
    show (db.evm_contract_verification ++ _).filter _ = _
    rw [List.filter_append, hrows, List.append_nil]

theorem isSynced_patch (v : Numbered EVMContractVerification)
    (result : Except (Option String × String) Compiled) :
    isSynced (patch v result).row = false := by
  cases result <;> rfl

/-- A map that keeps a property, and the members with it, keeps the list of these members. -/
theorem filter_map_of_fixed {α : Type} {l : List α} {f : α → α} {q : α → Bool}
    (h : ∀ a ∈ l, q (f a) = q a ∧ (q a = true → f a = a)) : (l.map f).filter q = l.filter q := by
  rw [List.filter_map, List.filter_congr (p := q ∘ f) fun a ha => (h a ha).1]
  refine (List.map_congr_left fun a ha => ?_).trans (List.map_id _)
  obtain ⟨ha, hq⟩ := List.mem_filter.mp ha
  exact (h a ha).2 hq

theorem quiet_verifyContractEVM (h : Inv db) (id : ℕ)
    (result : Except (Option String × String) Compiled) :
    Quiet db (step db (.verifyContractEVM id result)) where
  contract _ hc := hc
  new_contract _ hc := Or.inl hc
  nextId := le_refl _
  success v hv hs := by
    refine List.mem_map.mpr ⟨v, hv, if_neg ?_⟩
    rintro ⟨-, hpending⟩
    rw [isSuccess_iff.mp hs] at hpending
    cases hpending
  synced := by
    refine filter_map_of_fixed fun v hv => ?_
    split
    case isFalse => exact ⟨rfl, fun _ => rfl⟩
    case isTrue hpending =>
      -- a row that waits for its verification is no copy
      have hnot : isSynced v.row = false := by
        refine Bool.eq_false_iff.mpr fun hs => ?_
        rw [(h.synced v hv hs).success] at hpending
        cases hpending.2
      exact ⟨by rw [isSynced_patch, hnot], fun hs => by rw [hnot] at hs; cases hs⟩

theorem quiet_crawlContracts (db : Db) (new : List (String × String)) :
    Quiet db (step db (.crawlContracts new)) := by
  rw [step]
  split
  case h_1 => exact quiet_queue db _ _
  case h_2 t ht =>
    have hrows := Serial.rows_of_insert ht
    exact {
      contract := fun c hc => by
        show c ∈ t.rows
        rw [hrows]
        exact List.mem_append_left _ hc
      new_contract := fun c hc => by
        have hc : c ∈ t.rows := hc
        rw [hrows] at hc
        exact (List.mem_append.mp hc).imp_right fun hc => (Serial.id_of_mem_number hc).1
      nextId := by
        show db.evm_smart_contract.nextId ≤ t.nextId
        rw [Serial.nextId_of_insert ht]
        exact Nat.le_add_right _ _
      success := fun _ hv _ => hv
      synced := rfl }

/-- A query of the job, unless it is the statement at its end, leaves the tables alone. -/
theorem quiet_workOn {p : Progress} (hp : ∀ new, p ≠ .done new) :
    Quiet db (workOn db codehash p) := by
  cases p with
  | started =>
    rw [workOn]
    split <;> exact quiet_queue db _ _
  | reading v currentId new =>
    simp only [workOn]
    split <;> exact quiet_queue db _ _
  | done new => exact absurd rfl (hp new)

theorem mem_page {currentId : ℕ} {c : Numbered EVMSmartContract}
    (hc : c ∈ pageOf db codehash currentId) :
    c ∈ db.evm_smart_contract.rows ∧ c.row.code_hash = some codehash ∧ currentId < c.id := by
  obtain ⟨hmem, hlt⟩ := mem_of_mem_pageAfter hc
  obtain ⟨hrow, hhash⟩ := List.mem_filter.mp hmem
  exact ⟨hrow, by simpa using hhash, hlt⟩

theorem sorted_contracts (db : Db) (codehash : String) :
    (db.evm_smart_contract.rows.filter fun c => c.row.code_hash = some codehash).Pairwise
      fun a b => a.id < b.id := db.evm_smart_contract.sorted.sublist List.filter_sublist

/-- The copies that a page adds. -/
theorem newOk_page (h : Inv db) {v : Numbered EVMContractVerification} {currentId : ℕ}
    {new : List EVMContractVerification} (hp : ReadingOk db codehash v currentId new) :
    NewOk db (new ++ ((pageOf db codehash currentId).filter fun c =>
      unverified db c.row.address).map (copyFor v)) where
  copied r hr := by
    rcases List.mem_append.mp hr with hr | hr
    · exact hp.new_ok.copied r hr
    · obtain ⟨c, hc, rfl⟩ := List.mem_map.mp hr
      obtain ⟨hrow, hhash, -⟩ := mem_page (List.mem_of_mem_filter hc)
      refine ⟨rfl, ⟨c, hrow, rfl⟩, ?_⟩
      -- the verification that is copied is no copy itself, or comes from one that is none
      cases hs : isSynced v.row with
      | false => exact ⟨v, hp.mem, hp.success, hs, hp.code_hash.trans hhash.symm, rfl, rfl, rfl⟩
      | true =>
        obtain ⟨w, hw, hsuccess, hsynced, hcode, hrest⟩ := (h.synced v hp.mem hs).origin
        exact ⟨w, hw, hsuccess, hsynced, hcode.trans (hp.code_hash.trans hhash.symm), hrest⟩
  synced r hr := by
    rcases List.mem_append.mp hr with hr | hr
    · exact hp.new_ok.synced r hr
    · obtain ⟨c, -, rfl⟩ := List.mem_map.mp hr
      rfl
  nodup := by
    rw [List.map_append, List.map_map]
    refine hp.new_ok.nodup.append ?_ ?_
    · refine List.Nodup.sublist (List.Sublist.map _ ?_) db.evm_smart_contract.nodup
      exact List.filter_sublist.trans ((List.take_sublist _ _).trans
        (List.filter_sublist.trans List.filter_sublist))
    · rw [List.disjoint_left]
      rintro _ hold hadded
      obtain ⟨r, hr, rfl⟩ := List.mem_map.mp hold
      obtain ⟨c, hc, haddress⟩ := List.mem_map.mp hadded
      obtain ⟨hrow, -, hlt⟩ := mem_page (List.mem_of_mem_filter hc)
      obtain ⟨c', hc', haddress', hle⟩ := hp.seen r hr
      have hsame : c = c' := Serial.eq_of_key_eq hrow hc' (haddress.trans haddress'.symm)
      rw [hsame] at hlt
      exact absurd hle (not_le.mpr hlt)
  fresh r hr v' hv' hs := by
    rcases List.mem_append.mp hr with hr | hr
    · exact hp.new_ok.fresh r hr v' hv' hs
    · obtain ⟨c, hc, rfl⟩ := List.mem_map.mp hr
      have hnot := unverified_iff.mp (List.mem_filter.mp hc).2
      exact fun haddress => hnot ⟨v', hv', haddress, isSuccess_iff.mpr (h.synced v' hv' hs).success⟩

theorem handled_page {v : Numbered EVMContractVerification} {currentId : ℕ}
    {new : List EVMContractVerification} (hp : ReadingOk db codehash v currentId new)
    {last : Numbered EVMSmartContract} (hlast : (pageOf db codehash currentId).getLast? = some last)
    {c : Numbered EVMSmartContract} (hc : c ∈ db.evm_smart_contract.rows)
    (hhash : c.row.code_hash = some codehash) (hle : c.id ≤ last.id) :
    Handled db (new ++ ((pageOf db codehash currentId).filter fun c =>
      unverified db c.row.address).map (copyFor v)) c.row.address := by
  rcases Nat.lt_or_ge currentId c.id with hlt | hge
  · have hpage : c ∈ pageOf db codehash currentId :=
      mem_pageAfter_of_le (sorted_contracts db codehash) hlast
        (List.mem_filter.mpr ⟨hc, by simpa using hhash⟩) hlt hle
    cases hu : unverified db c.row.address with
    | false => exact Or.inl (by_contra fun hnot =>
        Bool.false_ne_true (hu ▸ unverified_iff.mpr hnot))
    | true =>
      exact Or.inr ⟨copyFor v c, List.mem_append_right _ (List.mem_map_of_mem
        (List.mem_filter.mpr ⟨hpage, hu⟩)), rfl⟩
  · refine (hp.handled c hc hhash hge).imp_right ?_
    rintro ⟨r, hr, haddress⟩
    exact ⟨r, List.mem_append_left _ hr, haddress⟩

theorem readingOk_page (h : Inv db) {v : Numbered EVMContractVerification} {currentId : ℕ}
    {new : List EVMContractVerification} (hp : ReadingOk db codehash v currentId new)
    {last : Numbered EVMSmartContract}
    (hlast : (pageOf db codehash currentId).getLast? = some last) :
    ReadingOk db codehash v last.id (new ++ ((pageOf db codehash currentId).filter fun c =>
      unverified db c.row.address).map (copyFor v)) where
  mem := hp.mem
  success := hp.success
  code_hash := hp.code_hash
  new_ok := newOk_page h hp
  seen r hr := by
    obtain ⟨-, -, hlt⟩ := mem_page (List.mem_of_getLast? hlast)
    rcases List.mem_append.mp hr with hr | hr
    · obtain ⟨c, hc, haddress, hle⟩ := hp.seen r hr
      exact ⟨c, hc, haddress, hle.trans hlt.le⟩
    · obtain ⟨c, hc, rfl⟩ := List.mem_map.mp hr
      have hpage := List.mem_of_mem_filter hc
      exact ⟨c, (mem_page hpage).1, rfl,
        le_last_of_mem_pageAfter (sorted_contracts db codehash) hlast hpage⟩
  lt_nextId := db.evm_smart_contract.id_lt _ (mem_page (List.mem_of_getLast? hlast)).1
  handled _ hc hhash hle := handled_page hp hlast hc hhash hle

/-- The invariant after the next query of the job. -/
theorem inv_workOn (h : Inv db) {p : Progress} (hrun : db.queue.Runs codehash p) :
    Inv (workOn db codehash p) := by
  have hp : JobOk db codehash p := h.job codehash p hrun
  cases p with
  | started =>
    refine inv_of_quiet h (quiet_workOn nofun) fun codehash' p' hp' => ?_
    simp only [workOn] at hp' ⊢
    cases hv : successVerified db codehash with
    | none =>
      simp only [hv] at hp'
      exact absurd hp' (JobQueue.not_runs_complete _ _ _)
    | some v =>
      simp only [hv] at hp' ⊢
      obtain ⟨rfl, rfl⟩ := (JobQueue.runs_progress hrun).unique hp'
      obtain ⟨hmem, hv⟩ := List.mem_filter.mp (List.mem_of_getLast? hv)
      obtain ⟨hhash, hsuccess⟩ := of_decide_eq_true hv
      exact Or.inr {
        mem := hmem
        success := hsuccess
        code_hash := hhash
        new_ok := ⟨nofun, nofun, List.nodup_nil, nofun⟩
        seen := nofun
        lt_nextId := h.nextId_pos
        handled := fun c hc _ hle => absurd (h.id_pos c hc) (not_lt.mpr hle) }
  | reading v currentId new =>
    refine inv_of_quiet h (quiet_workOn nofun) fun codehash' p' hp' => ?_
    simp only [workOn] at hp' ⊢
    cases hlast : (pageOf db codehash currentId).getLast? with
    | none =>
      simp only [hlast] at hp' ⊢
      obtain ⟨rfl, rfl⟩ := (JobQueue.runs_progress hrun).unique hp'
      exact Or.inr ((quiet_queue db _ _).newOk hp.new_ok)
    | some last =>
      simp only [hlast] at hp' ⊢
      obtain ⟨rfl, rfl⟩ := (JobQueue.runs_progress hrun).unique hp'
      have hnext : JobOk db codehash (.reading v last.id _) := readingOk_page h hp hlast
      exact Or.inr ((quiet_queue db _ _).jobOk hnext)
  | done new =>
    have hnew : NewOk db new := hp
    have hgrows := grows_insertVerifications db new
    have hnumber : ∀ v ∈ Serial.number db.nextVerificationId new, v.row ∈ new := fun v hv => by
      rw [← Serial.map_row_number db.nextVerificationId new]
      exact List.mem_map_of_mem hv
    exact {
      id_pos := h.id_pos
      nextId_pos := h.nextId_pos
      synced := by
        intro v hv hs
        refine (hgrows.trans (quiet_queue _ _ _).toGrows).copied ?_
        rcases List.mem_append.mp hv with hv | hv
        · exact h.synced v hv hs
        · exact hnew.copied v.row (hnumber v hv)
      once := by
        show (((db.evm_contract_verification ++ Serial.number db.nextVerificationId new).filter
          _).map _).Nodup
        have hall : (Serial.number db.nextVerificationId new).filter (fun v => isSynced v.row) =
            Serial.number db.nextVerificationId new :=
          List.filter_eq_self.mpr fun v hv => hnew.synced v.row (hnumber v hv)
        have haddresses : (Serial.number db.nextVerificationId new).map (·.row.contract_address) =
            new.map (·.contract_address) := Serial.map_key_number db.nextVerificationId new
        rw [List.filter_append, List.map_append, hall, haddresses]
        refine h.once.append hnew.nodup (List.disjoint_left.mpr ?_)
        rintro _ hold hadded
        obtain ⟨v, hv, rfl⟩ := List.mem_map.mp hold
        obtain ⟨r, hr, haddress⟩ := List.mem_map.mp hadded
        obtain ⟨hv, hs⟩ := List.mem_filter.mp hv
        exact hnew.fresh r hr v hv hs haddress.symm
      job := fun codehash' p' hp' => absurd hp' (JobQueue.not_runs_complete _ _ _) }

/-- Every step keeps the invariant. -/
theorem inv_step (h : Inv db) (a : Step) : Inv (step db a) := by
  cases a with
  | crawlContracts new =>
    refine inv_of_quiet h (quiet_crawlContracts db new) fun codehash p hp => Or.inl ?_
    rw [step] at hp
    split at hp <;> exact hp
  | createJob codehash =>
    rw [step]
    split
    case isTrue =>
      exact inv_of_quiet h (quiet_queue db _ _) fun codehash p hp =>
          Or.inl (JobQueue.runs_add.mp hp)
    case isFalse => exact h
  | loseJob codehash => exact inv_of_quiet h (quiet_queue db _ _) fun codehash p hp => Or.inl hp
  | actionCreateJob codehash =>
    exact inv_of_quiet h (quiet_queue db _ _) fun codehash p hp => Or.inl (JobQueue.runs_add.mp hp)
  | inputRequestVerify address compiler_version =>
    refine inv_of_quiet h (quiet_insertVerifications db fun r hr => ?_) fun codehash p hp =>
        Or.inl hp
    rw [List.mem_singleton.mp hr]
    rfl
  | verifyContractEVM id result =>
    exact inv_of_quiet h (quiet_verifyContractEVM h id result) fun codehash p hp => Or.inl hp
  | syncSourcify found =>
    refine inv_of_quiet h (quiet_insertVerifications db fun r hr => ?_) fun codehash p hp =>
        Or.inl hp
    obtain ⟨m, -, rfl⟩ := List.mem_map.mp hr
    rfl
  | startJob =>
    refine inv_of_quiet h (quiet_queue db _ _) fun codehash p hp => ?_
    refine (JobQueue.runs_of_take hp).imp_right ?_
    rintro rfl
    trivial
  | work =>
    rw [step]
    split
    case h_1 => exact h
    case h_2 codehash p hactive => exact inv_workOn h hactive
  | jobFails => exact inv_of_quiet h (quiet_queue db _ _) fun codehash p hp => by cases hp
  | stop => exact inv_of_quiet h (quiet_queue db _ _) fun codehash p hp => by cases hp

theorem grows_workOn (db : Db) (codehash : String) (p : Progress) :
    Grows db (workOn db codehash p) := by
  cases p with
  | started => exact (quiet_workOn (p := .started) nofun).toGrows
  | reading v currentId new => exact (quiet_workOn (p := .reading v currentId new) nofun).toGrows
  | done new => exact (grows_insertVerifications db new).trans (quiet_queue _ _ _).toGrows

/-- No step removes a contract or a successful verification. -/
theorem grows_step (h : Inv db) (a : Step) : Grows db (step db a) := by
  cases a with
  | crawlContracts new => exact (quiet_crawlContracts db new).toGrows
  | createJob created =>
    rw [step]
    split <;> exact (quiet_queue db _ _).toGrows
  | loseJob lost => exact (quiet_queue db _ _).toGrows
  | actionCreateJob created => exact (quiet_queue db _ _).toGrows
  | inputRequestVerify address compiler_version => exact grows_insertVerifications db _
  | verifyContractEVM id result => exact (quiet_verifyContractEVM h id result).toGrows
  | syncSourcify found => exact grows_insertVerifications db _
  | startJob => exact (quiet_queue db _ _).toGrows
  | work =>
    rw [step]
    split
    case h_1 => exact (quiet_queue db _ _).toGrows
    case h_2 => exact grows_workOn db _ _
  | jobFails => exact (quiet_queue db _ _).toGrows
  | stop => exact (quiet_queue db _ _).toGrows

theorem grows_run (h : Inv db) (steps : List Step) : Grows db (runFrom step db steps) := by
  induction steps generalizing db with
  | nil => exact (quiet_queue db _ _).toGrows
  | cons a steps ih => exact (grows_step h a).trans (ih (inv_step h a))

theorem inv_up (precompileContracts : List (String × String)) : Inv (up precompileContracts) := by
  have hcontracts : (up precompileContracts).evm_smart_contract.nextId > 0 ∧
      ∀ c ∈ (up precompileContracts).evm_smart_contract.rows, 0 < c.id := by
    simp only [up]
    cases ht : (Serial.empty : Serial EVMSmartContract.address).insert
        (precompileContracts.map fun c => ⟨c.1, none⟩) with
    | none => exact ⟨Nat.one_pos, nofun⟩
    | some t =>
      constructor
      · show 0 < t.nextId
        rw [Serial.nextId_of_insert ht]
        exact Nat.add_pos_left Nat.one_pos _
      · intro c hc
        have hc : c ∈ t.rows := hc
        rw [Serial.rows_of_insert ht] at hc
        exact Nat.lt_of_lt_of_le Nat.one_pos (Serial.id_of_mem_number hc).1
  have hnone : ∀ v ∈ (up precompileContracts).evm_contract_verification,
      isSynced v.row = false := by
    intro v hv
    have hrow : v.row ∈ (up precompileContracts).evm_contract_verification.map (·.row) :=
      List.mem_map_of_mem hv
    rw [up, Serial.map_row_number] at hrow
    obtain ⟨c, -, hc⟩ := List.mem_map.mp hrow
    rw [← hc]
    rfl
  exact {
    id_pos := hcontracts.2
    nextId_pos := hcontracts.1
    synced := fun v hv hs => by
      rw [hnone v hv] at hs
      cases hs
    once := by
      rw [List.filter_eq_nil_iff.mpr fun v hv => by rw [hnone v hv]; exact Bool.false_ne_true]
      exact List.nodup_nil
    job := fun codehash p hp => by cases hp }

theorem inv_run (precompileContracts : List (String × String)) (steps : List Step) :
    Inv (runFrom step (up precompileContracts) steps) := by
  have hstep : ∀ db a, Inv db → Inv (step db a) := fun _ a h => inv_step h a
  exact runFrom_invariant hstep (inv_up precompileContracts) steps

end CodeHashLemmas

open CodeHashLemmas in
/-- In every run a contract has at most one row of this job, and the row says of it what a
verification of a contract with the same code hash says, one that was not copied. -/
theorem synced_rows (precompileContracts : List (String × String)) (steps : List Step) :
    let db := runFrom step (up precompileContracts) steps
    ((db.evm_contract_verification.filter fun v => isSynced v.row).map
      (·.row.contract_address)).Nodup ∧
      ∀ v ∈ db.evm_contract_verification, isSynced v.row = true → Copied db v.row :=
  ⟨(inv_run precompileContracts steps).once, (inv_run precompileContracts steps).synced⟩

/-! ## 6. Jobs that come to nothing -/

/-- The copies of the job of `codehash`, when it has read its last page. -/
def finishing (db : Db) (codehash : String) : Option (List EVMContractVerification) :=
  match db.queue.active with
  | some (running, .done new) => if running = codehash then some new else none
  | _ => none

/-- The step does not make a job of `codehash` come to nothing: the job neither fails nor is lost on
the way to the queue, and if it reaches the queue after the last page of the job that runs, then
that job has handled every contract. -/
def Kept (codehash : String) (db : Db) : Step → Prop
  | .createJob created => created = codehash → codehash ∉ db.queue.failed ∧
    ∀ new ∈ finishing db codehash, ∀ c ∈ db.evm_smart_contract.rows,
      c.row.code_hash = some codehash → Handled db new c.row.address
  | .loseJob lost => lost ≠ codehash
  | .jobFails => db.queue.active.map (·.1) ≠ some codehash
  | _ => True

instance (codehash : String) (db : Db) : ∀ a, Decidable (Kept codehash db a)
  | .createJob _ => inferInstanceAs (Decidable (_ → _ ∧ ∀ new ∈ finishing db codehash, _))
  | .loseJob _ => inferInstanceAs (Decidable (_ ≠ _))
  | .jobFails => inferInstanceAs (Decidable (_ ≠ _))
  | .crawlContracts _ | .actionCreateJob _ | .inputRequestVerify _ _ | .verifyContractEVM _ _
  | .syncSourcify _ | .startJob | .work | .stop => isTrue trivial

namespace CodeHashLemmas

/-- The job that runs will store a copy for the contract if it needs one. -/
def Covers (c : Numbered EVMSmartContract) : Progress → Prop
  | .started => True
  | .reading _ currentId new => currentId < c.id ∨ ∃ r ∈ new, r.contract_address = c.row.address
  | .done new => ∃ r ∈ new, r.contract_address = c.row.address

theorem finishing_of_runs {new : List EVMContractVerification}
    (h : db.queue.Runs codehash (.done new)) : new ∈ finishing db codehash := by
  rw [finishing, h]
  exact if_pos rfl

/-- A job of the code hash is still to handle the contract. -/
def ToCome (db : Db) (codehash : String) (c : Numbered EVMSmartContract) : Prop :=
  codehash ∈ db.toCreate ∨ codehash ∈ db.queue.waiting ∨
    ∃ p, db.queue.Runs codehash p ∧ Covers c p

/-- The contracts from id `n` on are verified, or a job is still to handle them. -/
structure Cared (codehash : String) (n : ℕ) (db : Db) : Prop where
  inv : Inv db
  hash : HashVerified db codehash
  cared : ∀ c ∈ db.evm_smart_contract.rows, n ≤ c.id → c.row.code_hash = some codehash →
    IsVerified db c.row.address ∨ ToCome db codehash c

variable {n : ℕ}

/-- What a step has to keep. -/
theorem cared_of (h : Cared codehash n db) (a : Step)
    (hold : ∀ c ∈ db.evm_smart_contract.rows, c.row.code_hash = some codehash →
      ToCome db codehash c →
      IsVerified (step db a) c.row.address ∨ ToCome (step db a) codehash c)
    (hnew : ∀ c ∈ (step db a).evm_smart_contract.rows, c ∉ db.evm_smart_contract.rows →
      c.row.code_hash = some codehash → ToCome (step db a) codehash c) :
    Cared codehash n (step db a) where
  inv := inv_step h.inv a
  hash := (grows_step h.inv a).hashVerified h.hash
  cared c hc hid hhash := by
    by_cases hmem : c ∈ db.evm_smart_contract.rows
    · rcases h.cared c hmem hid hhash with hv | hcome
      · exact Or.inl ((grows_step h.inv a).isVerified hv)
      · exact hold c hmem hhash hcome
    · exact Or.inr (hnew c hc hmem hhash)

/-- Adding a job to the queue loses no job. -/
theorem toCome_add {c : Numbered EVMSmartContract} {created : String} (h : ToCome db codehash c) :
    codehash ∈ db.toCreate ∨ codehash ∈ (db.queue.add created).waiting ∨
      ∃ p, (db.queue.add created).Runs codehash p ∧ Covers c p := by
  rcases h with hcreate | hwait | ⟨p, hrun, hp⟩
  · exact Or.inl hcreate
  · exact Or.inr (Or.inl (JobQueue.mem_waiting_add hwait))
  · exact Or.inr (Or.inr ⟨p, JobQueue.runs_add.mpr hrun, hp⟩)

/-- The job of a new contract reaches the queue, or the job that runs handles the contract. -/
theorem toCome_createJob (h : Cared codehash n db) (hkept : Kept codehash db (.createJob codehash))
    {c : Numbered EVMSmartContract} (hc : c ∈ db.evm_smart_contract.rows)
    (hhash : c.row.code_hash = some codehash) : IsVerified db c.row.address ∨
      codehash ∈ (db.queue.add codehash).waiting ∨
      ∃ p, (db.queue.add codehash).Runs codehash p ∧ Covers c p := by
  obtain ⟨hfailed, hdone⟩ := hkept rfl
  by_cases hrun : ∃ p, db.queue.Runs codehash p
  · obtain ⟨p, hrun⟩ := hrun
    have hruns : (db.queue.add codehash).Runs codehash p := JobQueue.runs_add.mpr hrun
    have hp := h.inv.job codehash p hrun
    cases p with
    | started => exact Or.inr (Or.inr ⟨.started, hruns, trivial⟩)
    | reading v currentId new =>
      rcases Nat.lt_or_ge currentId c.id with hlt | hge
      · exact Or.inr (Or.inr ⟨_, hruns, Or.inl hlt⟩)
      · rcases ReadingOk.handled hp c hc hhash hge with hv | hnew
        · exact Or.inl hv
        · exact Or.inr (Or.inr ⟨_, hruns, Or.inr hnew⟩)
    | done new =>
      rcases hdone new (finishing_of_runs hrun) c hc hhash with hv | hnew
      · exact Or.inl hv
      · exact Or.inr (Or.inr ⟨_, hruns, hnew⟩)
  · exact Or.inr (Or.inl
      (JobQueue.mem_waiting_add_self (fun p hp => hrun ⟨p, hp⟩) hfailed))

theorem cared_createJob (h : Cared codehash n db) {created : String}
    (hkept : Kept codehash db (.createJob created)) :
    Cared codehash n (step db (.createJob created)) := by
  by_cases hcreate : created ∈ db.toCreate
  · refine cared_of h _ (fun c hc hhash hcome => ?_) fun c hc hnot _ => ?_
    · rw [step, if_pos hcreate]
      by_cases heq : created = codehash
      · subst heq
        exact (toCome_createJob h hkept hc hhash).imp_right Or.inr
      · refine Or.inr ((toCome_add hcome).imp_left fun hmem => ?_)
        exact (List.mem_erase_of_ne (Ne.symm heq)).mpr hmem
    · rw [step, if_pos hcreate] at hc
      exact absurd hc hnot
  · rw [step, if_neg hcreate]
    exact h

theorem workOn_keeps (db : Db) (running : String) (p : Progress) :
    (workOn db running p).toCreate = db.toCreate ∧
      (workOn db running p).queue.waiting = db.queue.waiting ∧
      (workOn db running p).evm_smart_contract = db.evm_smart_contract := by
  cases p with
  | started =>
    rw [workOn]
    split <;> exact ⟨rfl, rfl, rfl⟩
  | reading v currentId new =>
    simp only [workOn]
    split <;> exact ⟨rfl, rfl, rfl⟩
  | done new => exact ⟨rfl, rfl, rfl⟩

theorem exists_successVerified (h : HashVerified db codehash) :
    ∃ v, successVerified db codehash = some v := by
  obtain ⟨v, hv, hhash, hsuccess⟩ := h
  cases hlast : successVerified db codehash with
  | some w => exact ⟨w, rfl⟩
  | none =>
    refine absurd (List.getLast?_eq_none_iff.mp hlast) (List.ne_nil_of_mem (a := v) ?_)
    exact List.mem_filter.mpr ⟨hv, by simp [hhash, hsuccess]⟩

/-- The next query of the job: a contract that it was to handle stays so or is verified. -/
theorem covers_workOn (h : Cared codehash n db) {p : Progress} (hrun : db.queue.Runs codehash p)
    {c : Numbered EVMSmartContract} (hc : c ∈ db.evm_smart_contract.rows)
    (hhash : c.row.code_hash = some codehash) (hcovers : Covers c p) :
    IsVerified (workOn db codehash p) c.row.address ∨
      ∃ p', (workOn db codehash p).queue.Runs codehash p' ∧ Covers c p' := by
  cases p with
  | started =>
    obtain ⟨v, hv⟩ := exists_successVerified h.hash
    simp only [workOn, hv]
    exact Or.inr ⟨_, JobQueue.runs_progress hrun, Or.inl (h.inv.id_pos c hc)⟩
  | reading v currentId new =>
    have hp : ReadingOk db codehash v currentId new := h.inv.job codehash _ hrun
    simp only [workOn]
    cases hlast : (pageOf db codehash currentId).getLast? with
    | none =>
      refine Or.inr ⟨_, JobQueue.runs_progress hrun, ?_⟩
      refine hcovers.resolve_left fun hlt => ?_
      have hmem : c ∈ db.evm_smart_contract.rows.filter fun c => c.row.code_hash = some codehash :=
        List.mem_filter.mpr ⟨hc, by simpa using hhash⟩
      exact absurd (le_of_pageAfter_empty (by norm_num) hlast hmem) (not_le.mpr hlt)
    | some last =>
      rcases Nat.lt_or_ge last.id c.id with hlt | hge
      · exact Or.inr ⟨_, JobQueue.runs_progress hrun, Or.inl hlt⟩
      · rcases handled_page hp hlast hc hhash hge with hv | hnew
        · exact Or.inl ((quiet_queue db _ _).isVerified hv)
        · exact Or.inr ⟨_, JobQueue.runs_progress hrun, Or.inr hnew⟩
  | done new =>
    obtain ⟨r, hr, haddress⟩ := hcovers
    have hp : NewOk db new := h.inv.job codehash _ hrun
    rw [← Serial.map_row_number db.nextVerificationId new] at hr
    obtain ⟨v, hv, rfl⟩ := List.mem_map.mp hr
    have hnew : v.row ∈ new := by
      rw [← Serial.map_row_number db.nextVerificationId new]
      exact List.mem_map_of_mem hv
    exact Or.inl ⟨v, List.mem_append_right _ hv, haddress,
      isSuccess_iff.mpr (hp.copied v.row hnew).success⟩

theorem cared_work (h : Cared codehash n db) : Cared codehash n (step db .work) := by
  cases hactive : db.queue.active with
  | none =>
    simp only [step, hactive]
    exact h
  | some a =>
    obtain ⟨running, p⟩ := a
    have hstep : step db .work = workOn db running p := by simp only [step, hactive]
    have hrun : db.queue.Runs running p := hactive
    obtain ⟨hcreate, hwaiting, hcontracts⟩ := workOn_keeps db running p
    refine cared_of h .work (fun c hc hhash hcome => ?_) fun c hc hnot _ => ?_
    · rw [hstep]
      rcases hcome with hmem | hwait | ⟨p', hp', hcovers⟩
      · exact Or.inr (Or.inl (hcreate ▸ hmem))
      · exact Or.inr (Or.inr (Or.inl (hwaiting ▸ hwait)))
      · obtain ⟨rfl, rfl⟩ := hrun.unique hp'
        exact (covers_workOn h hrun hc hhash hcovers).imp_right fun hp => Or.inr (Or.inr hp)
    · rw [hstep, hcontracts] at hc
      exact absurd hc hnot

theorem cared_crawlContracts (h : Cared codehash n db) (new : List (String × String)) :
    Cared codehash n (step db (.crawlContracts new)) := by
  cases ht : db.evm_smart_contract.insert (new.map fun c => ⟨c.1, some c.2⟩) with
  | none =>
    simp only [step, ht]
    exact h
  | some t =>
    refine cared_of h _ (fun c _ _ hcome => Or.inr ?_) fun c hc hnot hhash => ?_
    · simp only [step, ht]
      exact hcome.imp_left fun hmem => List.mem_append_left _ hmem
    · simp only [step, ht] at hc ⊢
      rw [Serial.rows_of_insert ht] at hc
      have hrow : c.row ∈ new.map fun c => (⟨c.1, some c.2⟩ : EVMSmartContract) := by
        rw [← Serial.map_row_number db.evm_smart_contract.nextId (new.map _)]
        exact List.mem_map_of_mem ((List.mem_append.mp hc).resolve_left hnot)
      obtain ⟨x, hx, hxc⟩ := List.mem_map.mp hrow
      rw [← hxc] at hhash
      exact Or.inl (List.mem_append_right _ (List.mem_map.mpr ⟨x, hx, Option.some.inj hhash⟩))

/-- Every step that makes no job come to nothing keeps the contracts cared for. -/
theorem cared_step (h : Cared codehash n db) (a : Step) (hkept : Kept codehash db a) :
    Cared codehash n (step db a) := by
  cases a with
  | crawlContracts new => exact cared_crawlContracts h new
  | createJob created => exact cared_createJob h hkept
  | loseJob lost =>
    refine cared_of h _ (fun c _ _ hcome => Or.inr ?_) fun c hc hnot _ => absurd hc hnot
    have hne : lost ≠ codehash := hkept
    exact hcome.imp_left fun hmem => (List.mem_erase_of_ne hne.symm).mpr hmem
  | actionCreateJob created =>
    exact cared_of h _ (fun c _ _ hcome => Or.inr (toCome_add hcome))
      fun c hc hnot _ => absurd hc hnot
  | inputRequestVerify address compiler_version =>
    exact cared_of h _ (fun c _ _ hcome => Or.inr hcome) fun c hc hnot _ => absurd hc hnot
  | verifyContractEVM id result =>
    exact cared_of h _ (fun c _ _ hcome => Or.inr hcome) fun c hc hnot _ => absurd hc hnot
  | syncSourcify found =>
    exact cared_of h _ (fun c _ _ hcome => Or.inr hcome) fun c hc hnot _ => absurd hc hnot
  | startJob =>
    refine cared_of h _ (fun c _ _ hcome => Or.inr ?_) fun c hc hnot _ => absurd hc hnot
    rcases hcome with hcreate | hwait | ⟨p, hrun, hp⟩
    · exact Or.inl hcreate
    · exact Or.inr ((JobQueue.waiting_or_runs_take hwait).imp_right fun hrun =>
        ⟨.started, hrun, trivial⟩)
    · exact Or.inr (Or.inr ⟨p, JobQueue.runs_take hrun, hp⟩)
  | work => exact cared_work h
  | jobFails =>
    refine cared_of h _ (fun c _ _ hcome => Or.inr ?_) fun c hc hnot _ => absurd hc hnot
    have hother : db.queue.active.map (·.1) ≠ some codehash := hkept
    rcases hcome with hcreate | hwait | ⟨p, hrun, -⟩
    · exact Or.inl hcreate
    · exact Or.inr (Or.inl hwait)
    · refine absurd ?_ hother
      rw [hrun]
      rfl
  | stop =>
    refine cared_of h _ (fun c _ _ hcome => Or.inr ?_) fun c hc hnot _ => absurd hc hnot
    rcases hcome with hcreate | hwait | ⟨p, hrun, -⟩
    · exact Or.inl hcreate
    · exact Or.inr (Or.inl (JobQueue.mem_waiting_stall (Or.inl hwait)))
    · exact Or.inr (Or.inl (JobQueue.mem_waiting_stall (Or.inr ⟨p, hrun⟩)))

end CodeHashLemmas

open CodeHashLemmas in
/-- Once a code hash is verified, a new contract with it is verified when no job of the code hash is
left. -/
theorem verified_when_settled (precompileContracts : List (String × String))
    (before after : List Step) (codehash : String) :
    let db := runFrom step (up precompileContracts) before
    let db' := runFrom step db after
    HashVerified db codehash → Meets step (Kept codehash) db after →
      codehash ∉ db'.toCreate → ¬ db'.queue.Due codehash →
      ∀ c ∈ db'.evm_smart_contract.rows, c ∉ db.evm_smart_contract.rows →
        c.row.code_hash = some codehash → IsVerified db' c.row.address := by
  intro db db' hhash hkept hcreate hdue c hc hnew hcode
  have hinv : Inv db := inv_run precompileContracts before
  have hstart : Cared codehash db.evm_smart_contract.nextId db :=
    ⟨hinv, hhash, fun c hc hid _ => absurd (db.evm_smart_contract.id_lt c hc) (not_lt.mpr hid)⟩
  have hend : Cared codehash db.evm_smart_contract.nextId db' :=
    hkept.invariant (fun _ a h hk => cared_step h a hk) hstart
  have hid := ((grows_run hinv after).new_contract c hc).resolve_left hnew
  rcases hend.cared c hc hid hcode with hv | hmem | hwait | ⟨p, hrun, -⟩
  · exact hv
  · exact absurd hmem hcreate
  · exact absurd (Or.inl hwait) hdue
  · exact absurd (Or.inr ⟨p, hrun⟩) hdue

/-- Two contracts with one code hash, the second stored after the first was verified. -/
theorem second_contract_verified :
    let db := runFrom step (up []) [.crawlContracts [("0xa", "0xc0de")], .createJob "0xc0de",
      .startJob, .work, .inputRequestVerify "0xa" none,
      .verifyContractEVM 1 (.ok ⟨some "0xc0de", some "[]", "[]", some "0.8.20", some "Token"⟩)]
    let db' := runFrom step db [.crawlContracts [("0xb", "0xc0de")], .createJob "0xc0de", .startJob,
      .work, .work, .work, .work]
    IsVerified db' "0xb" :=
  verified_when_settled [] _ _ "0xc0de" (by decide) (by decide) (by decide) (by decide)
    ⟨2, ⟨"0xb", some "0xc0de"⟩⟩ (by decide) (by decide) rfl

end Erascope.Evm.CodeHash
