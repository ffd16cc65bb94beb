import Mathlib.Data.List.Sort
import Mathlib.Tactic
import Erascope.Lib.Rows
import Erascope.Lib.Table

/-!
# Verification of contracts

The model of `verifyContractEVM` in `verify_contract_evm.service.ts`. A run takes the oldest pending
requests, compiles the contracts that the files of each describe, compares them with the deployed
code, and writes one patch per request: `SUCCESS` with the first contract that matches, `FAIL`
otherwise. All patches go to one list, and a request fails only if that list is still empty.

What the compiler and the node answer is part of a request: the checked contracts, the match of
each, and its compilation, any of which may be an error.

Results:
1. `listPromise_eq`: only the first request of a run can fail; a later one is verified or left out.
2. `verification_independent_iff`: the requests of a run end as they should, each as in a run of its
   own, exactly when every request after the first has a matching contract, and compiling again
   does not throw before it is reached. `second_request_pending`: a run of two requests.
-/

namespace Erascope.Evm.Verify

/-! ## 1. Requests -/

/-- `VERIFICATION_STATUS` -/
inductive VerificationStatus
  | PENDING
  | FAIL
  | SUCCESS
deriving DecidableEq, Repr

/-- `runtimeMatch` of a match; the library also uses null. -/
inductive RuntimeMatch
  | perfect
  | partialMatch
  | extraFileInputBug
deriving DecidableEq, Repr

/-- An entry of `compile_detail`. -/
inductive CompileDetail
  /-- A contract; `error` if `verifyDeployed` threw, `matchResult` if it was compiled again. -/
  | contract (name : String) (missing invalid : List String) (error : Option String)
      (matchResult : Option (Option RuntimeMatch))
  /-- `{ invalid: { fileType: 'invalid' } }` -/
  | fileType
  | error (message : String)
deriving DecidableEq, Repr

/-- What compiling a contract again gives: `metadata.output.abi` and `runtimeBytecode`. -/
structure Recompiled where
  abi : String
  runtimeBytecode : String
deriving DecidableEq, Repr

/-- A checked contract, after `checkAndFetchMissing`, which throws nothing, with the answers of
`verifyDeployed` (`none`: nothing) and of `recompile` with and without Emscripten. -/
structure CheckedContract where
  name : String
  compilerVersion : Option String
  /-- `metadata.compiler.version` -/
  metadataVersion : Option String
  /-- `metadata.settings` -/
  settings : String
  missing : List String
  invalid : List String
  verifyDeployed : Except String (Option (Option RuntimeMatch))
  recompile : Bool → Except String Recompiled

/-- A row of `evm_contract_verification`. -/
structure EVMContractVerification where
  id : ℕ
  contract_address : String
  files : Option (List UInt8)
  compiler_version : Option String
  status : VerificationStatus
  abi : Option String
  code_hash : Option String
  compile_detail : Option (List CompileDetail)
  contract_name : Option String
  compiler_setting : Option String
deriving DecidableEq, Repr

/-- What the job takes from outside: whether a file is JSON, the contracts that `checkFiles` finds
in the files of a request, `lt` of semver, and `keccak256`. -/
structure Env where
  isJson : List UInt8 → Bool
  checkFiles : EVMContractVerification → Except String (List CheckedContract)
  lt : Option String → String → Except String Bool
  keccak256 : String → String

/-- The tables and the jobs after a run. -/
structure Db where
  evm_contract_verification : Table EVMContractVerification.id
  /-- The height of `VERIFY_CONTRACT_EVM` in `block_checkpoint`. -/
  checkpoint : Option ℕ
  /-- The addresses for which a job `HANDLE_EVM_SIGNATURE_MAPPING` was created. -/
  signatureMapping : List String

/-! ## 2. The job -/

/-- The first bytes of a zip file. -/
def isZip (file : List UInt8) : Bool :=
  file[0]? = some 0x50 && file[1]? = some 0x4b &&
    (file[2]? = some 0x03 || file[2]? = some 0x05 || file[2]? = some 0x07) &&
    (file[3]? = some 0x04 || file[3]? = some 0x06 || file[3]? = some 0x08)

def isVerifiable (contract : CheckedContract) : Bool :=
  contract.missing.isEmpty && contract.invalid.isEmpty

/-- A patch of a request. -/
inductive Patch
  /-- The patch with `SUCCESS`. -/
  | success (abi : String) (code_hash : String) (compile_detail : List CompileDetail)
      (compiler_version : Option String) (contract_name : String) (compiler_setting : String)
  /-- The patch with `FAIL`; an undefined `code_hash` is left as it is. -/
  | fail (compile_detail : List CompileDetail) (code_hash : Option String)
deriving DecidableEq, Repr

/-- The row after a patch. -/
def Patch.apply (row : EVMContractVerification) : Patch → EVMContractVerification
  | success abi code_hash compile_detail compiler_version contract_name compiler_setting =>
    { row with
      abi := some abi
      code_hash := some code_hash
      compile_detail := some compile_detail
      compiler_version := compiler_version
      contract_name := some contract_name
      status := .SUCCESS
      compiler_setting := some compiler_setting }
  | fail compile_detail code_hash =>
    { row with
      files := none
      compile_detail := some compile_detail
      code_hash := code_hash.or row.code_hash
      status := .FAIL }

/-- How the body of the loop over the contracts ends. -/
inductive LoopEnd
  | next
  | done (patch : Patch)
  | throw (message : String)

/-- `compileDetails` and `codeHash`, and how it went on. -/
structure Progress (α : Type) where
  compileDetails : List CompileDetail
  codeHash : Option String
  result : α

section
variable (env : Env) (requestVerify : EVMContractVerification)

/-- The version that a contract without one takes from the request. -/
def withVersion (contract : CheckedContract) : CheckedContract :=
  match truthy contract.compilerVersion with
  | some _ => contract
  | none =>
    { contract with
      compilerVersion := requestVerify.compiler_version
      metadataVersion := requestVerify.compiler_version }

/-- Compiling a contract again: nightlies and versions before 0.4.10 use Emscripten. -/
def recompiled (contract : CheckedContract) : Except String Recompiled := do
  let old ← env.lt contract.metadataVersion "0.4.10"
  let nightly := ((contract.metadataVersion.getD "").splitOn "nightly").length > 1
  contract.recompile (old || nightly)

/-- The body of the loop over the contracts. -/
def verifyContract (compileDetails : List CompileDetail) (codeHash : Option String)
    (contract : CheckedContract) : Progress LoopEnd :=
  let contract := withVersion requestVerify contract
  let compileDetail := CompileDetail.contract contract.name contract.missing contract.invalid
  if !isVerifiable contract then ⟨compileDetails ++ [compileDetail none none], codeHash, .next⟩
  else
    match contract.verifyDeployed with
    | .error message => ⟨compileDetails ++ [compileDetail (some message) none], codeHash, .next⟩
    | .ok none => ⟨compileDetails ++ [compileDetail none none], codeHash, .next⟩
    | .ok (some runtimeMatch) =>
      match recompiled env contract with
      | .error message => ⟨compileDetails, codeHash, .throw message⟩
      | .ok recompiled =>
        let codeHash := env.keccak256 recompiled.runtimeBytecode
        let compileDetails := compileDetails ++ [compileDetail none (some runtimeMatch)]
        if runtimeMatch = some .perfect ∨ runtimeMatch = some .partialMatch then
          ⟨compileDetails, some codeHash, .done (.success recompiled.abi codeHash compileDetails
            contract.compilerVersion contract.name contract.settings)⟩
        else ⟨compileDetails, some codeHash, .next⟩

/-- The loop over the contracts, up to the one that matches. -/
def verifyContracts (compileDetails : List CompileDetail) (codeHash : Option String) :
    List CheckedContract → Progress (Option Patch)
  | [] => ⟨compileDetails, codeHash, none⟩
  | contract :: contracts =>
    let progress := verifyContract env requestVerify compileDetails codeHash contract
    match progress.result with
    | .next => verifyContracts progress.compileDetails progress.codeHash contracts
    | .done patch => ⟨progress.compileDetails, progress.codeHash, some patch⟩
    | .throw message => ⟨progress.compileDetails ++ [.error message], progress.codeHash, none⟩

/-- The body of the loop over the requests, up to the end of `catch`. Reading the first byte of
missing files throws. -/
def verifyRequest : Progress (Option Patch) :=
  match requestVerify.files with
  | none => ⟨[.error "Cannot read properties of null (reading '0')"], none, none⟩
  | some files =>
    if isZip files || env.isJson files then
      match env.checkFiles requestVerify with
      | .error message => ⟨[.error message], none, none⟩
      | .ok contracts => verifyContracts env requestVerify [] none contracts
    else ⟨[.fileType, .error "this is not zip/json file"], none, none⟩

end

section
variable (env : Env)

/-- The patches with the ids of their requests, and the addresses that were verified. -/
structure Promises where
  listPromise : List (ℕ × Patch)
  listTriggerContractSignatureMapping : List String

/-- A request adds its patch, and one that fails does so only to the empty list. -/
def addRequest (promises : Promises) (requestVerify : EVMContractVerification) : Promises :=
  let progress := verifyRequest env requestVerify
  let promises : Promises :=
    match progress.result with
    | some patch =>
      ⟨promises.listPromise ++ [(requestVerify.id, patch)],
        promises.listTriggerContractSignatureMapping ++ [requestVerify.contract_address]⟩
    | none => promises
  if promises.listPromise.length = 0 then
    { promises with
      listPromise := promises.listPromise ++
        [(requestVerify.id, .fail progress.compileDetails progress.codeHash)] }
  else promises

/-- The loop over the requests. -/
def addRequests (listRequestVerify : List EVMContractVerification) : Promises :=
  listRequestVerify.foldl (addRequest env) ⟨[], []⟩

theorem Patch.apply_id (row : EVMContractVerification) (patch : Patch) :
    (patch.apply row).id = row.id := by
  cases patch <;> rfl

/-- `patch(...).where({ id })` -/
def applyPatch (rows : Table EVMContractVerification.id) (promise : ℕ × Patch) :
    Table EVMContractVerification.id :=
  rows.mapRows (fun row => if row.id = promise.1 then promise.2.apply row else row) fun row => by
    split
    · exact Patch.apply_id row promise.2
    · rfl

/-- The oldest pending requests. -/
def listRequestVerify (recordsPerCall : ℕ) (rows : Table EVMContractVerification.id) :
    List EVMContractVerification :=
  ((rows.rows.filter fun row => row.status = .PENDING).insertionSort
    fun a b => a.id ≤ b.id).take recordsPerCall

/-- `verifyContractEVM`, with `config.jobVerifyContractEVM.recordsPerCall`. -/
def verifyContractEVM (recordsPerCall : ℕ) (db : Db) : Db :=
  match (listRequestVerify recordsPerCall db.evm_contract_verification).getLast? with
  | none => db
  | some last =>
    let promises := addRequests env (listRequestVerify recordsPerCall db.evm_contract_verification)
    { evm_contract_verification :=
        promises.listPromise.foldl applyPatch db.evm_contract_verification
      checkpoint := some last.id
      signatureMapping := db.signatureMapping ++ promises.listTriggerContractSignatureMapping }

end

/-! ## 3. The property -/

section
variable (env : Env)

/-- `verifyDeployed` was asked and answered. -/
def answered (contract : CheckedContract) : Bool :=
  isVerifiable contract &&
    match contract.verifyDeployed with
    | .ok (some _) => true
    | _ => false

/-- The contract matched perfectly or partially. -/
def matched (contract : CheckedContract) : Bool :=
  isVerifiable contract &&
    match contract.verifyDeployed with
    | .ok (some (some .perfect)) => true
    | .ok (some (some .partialMatch)) => true
    | _ => false

/-- The contracts that the files of a request describe. -/
def contractsOf (requestVerify : EVMContractVerification) : List CheckedContract :=
  match requestVerify.files with
  | none => []
  | some files =>
    if isZip files || env.isJson files then (env.checkFiles requestVerify).toOption.getD [] else []

/-- Some contract of the request matched. -/
def HasMatch (requestVerify : EVMContractVerification) : Prop :=
  ∃ contract ∈ contractsOf env requestVerify, matched contract = true

instance (requestVerify : EVMContractVerification) : Decidable (HasMatch env requestVerify) :=
  inferInstanceAs (Decidable (∃ contract ∈ contractsOf env requestVerify, matched contract = true))

/-- The contracts up to the first that matches. -/
def upToMatch (contracts : List CheckedContract) : List CheckedContract :=
  contracts.takeWhile (fun contract => !matched contract) ++ (contracts.find? matched).toList

/-- Compiling again throws for none of the deployed contracts up to the first that matches. -/
def Recompiles (requestVerify : EVMContractVerification) : Prop :=
  ∀ contract ∈ upToMatch (contractsOf env requestVerify), answered contract = true →
    ∃ r, recompiled env (withVersion requestVerify contract) = .ok r

/-- The row of a request after a run of its own. -/
def rowAlone (requestVerify : EVMContractVerification) : Option EVMContractVerification :=
  (verifyContractEVM env 1
    ⟨Table.empty.upsert requestVerify, none, []⟩).evm_contract_verification.get? requestVerify.id

/-- Every request of the run has `SUCCESS` if some contract of it matched and `FAIL` otherwise, and
its row is the one that a run of its own would leave. -/
def Right (recordsPerCall : ℕ) (db : Db) : Prop :=
  ∀ requestVerify ∈ listRequestVerify recordsPerCall db.evm_contract_verification,
    ∃ row, (verifyContractEVM env recordsPerCall db).evm_contract_verification.get?
        requestVerify.id = some row ∧
      row.status = (if HasMatch env requestVerify then .SUCCESS else .FAIL) ∧
      rowAlone env requestVerify = some row

end

namespace VerifyLemmas

/-! ### One request -/

/-- How the body of the loop ends for a contract. -/
inductive BodyEnds (env : Env) (r : EVMContractVerification) (c : CheckedContract) : LoopEnd → Prop
  | passed : answered c = false → BodyEnds env r c .next
  | threw {message : String} : answered c = true →
      recompiled env (withVersion r c) = .error message → BodyEnds env r c (.throw message)
  | differs {x : Recompiled} : answered c = true → recompiled env (withVersion r c) = .ok x →
      matched c = false → BodyEnds env r c .next
  | agrees {x : Recompiled} {patch : Patch} : matched c = true →
      recompiled env (withVersion r c) = .ok x →
      (∀ row, (patch.apply row).status = .SUCCESS) → BodyEnds env r c (.done patch)

section
variable {env : Env} {r : EVMContractVerification}

theorem isVerifiable_withVersion (r : EVMContractVerification) (c : CheckedContract) :
    isVerifiable (withVersion r c) = isVerifiable c := by
  unfold withVersion
  split <;> rfl

theorem verifyDeployed_withVersion (r : EVMContractVerification) (c : CheckedContract) :
    (withVersion r c).verifyDeployed = c.verifyDeployed := by
  unfold withVersion
  split <;> rfl

theorem bodyEnds (env : Env) (r : EVMContractVerification) (ds : List CompileDetail)
    (h : Option String) (c : CheckedContract) :
    BodyEnds env r c (verifyContract env r ds h c).result := by
  have hver := isVerifiable_withVersion r c
  have hdep := verifyDeployed_withVersion r c
  unfold verifyContract
  cases hv : isVerifiable c with
  | false =>
    simp only [hver, hv]
    exact .passed (by simp [answered, hv])
  | true =>
    rcases hd : c.verifyDeployed with message | (_ | runtimeMatch)
    · simp only [hver, hv, hdep, hd]
      exact .passed (by simp [answered, hv, hd])
    · simp only [hver, hv, hdep, hd]
      exact .passed (by simp [answered, hv, hd])
    · have hans : answered c = true := by simp [answered, hv, hd]
      simp only [hver, hv, hdep, hd]
      cases hr : recompiled env (withVersion r c) with
      | error message => exact .threw hans hr
      | ok x =>
        -- the four values of `runtimeMatch`
        rcases runtimeMatch with _ | _ | _ | _
        · exact .differs hans hr (by simp [matched, hd])
        · exact .agrees (by simp [matched, hv, hd]) hr fun row => rfl
        · exact .agrees (by simp [matched, hv, hd]) hr fun row => rfl
        · exact .differs hans hr (by simp [matched, hd])

theorem answered_of_matched {c : CheckedContract} (h : matched c = true) : answered c = true := by
  unfold matched at h
  unfold answered
  split at h <;> simp_all

theorem upToMatch_cons (c : CheckedContract) (cs : List CheckedContract) :
    upToMatch (c :: cs) = if matched c then [c] else c :: upToMatch cs := by
  cases hc : matched c <;> simp [upToMatch, hc]

/-- The loop finds the match if there is one and nothing throws before. -/
theorem verifyContracts_isSome_iff (ds : List CompileDetail) (h : Option String)
    (cs : List CheckedContract) :
    (verifyContracts env r ds h cs).result.isSome ↔ (∃ c ∈ cs, matched c = true) ∧
      ∀ c ∈ upToMatch cs, answered c = true → ∃ x, recompiled env (withVersion r c) = .ok x := by
  induction cs generalizing ds h with
  | nil => simp [verifyContracts]
  | cons c cs ih =>
    rw [verifyContracts, upToMatch_cons]
    have hends := bodyEnds env r ds h c
    cases hresult : (verifyContract env r ds h c).result with
    | next =>
      rw [hresult] at hends
      have hc : matched c = false ∧
          (answered c = true → ∃ x, recompiled env (withVersion r c) = .ok x) := by
        cases hends with
        | passed hans =>
          refine ⟨?_, by simp [hans]⟩
          rw [Bool.eq_false_iff]
          exact fun hm => absurd (answered_of_matched hm) (by simp [hans])
        | differs _ hr hm => exact ⟨hm, fun _ => ⟨_, hr⟩⟩
      simp only [ih, hc.1, List.mem_cons, exists_eq_or_imp, forall_eq_or_imp, Bool.false_eq_true,
        if_false, false_or]
      exact ⟨fun ⟨hm, hall⟩ => ⟨hm, hc.2, hall⟩, fun ⟨hm, _, hall⟩ => ⟨hm, hall⟩⟩
    | done patch =>
      rw [hresult] at hends
      cases hends with
      | agrees hm hr _ => simp [hm, hr]
    | throw message =>
      rw [hresult] at hends
      cases hends with
      | threw hans hr =>
        -- the contract is among those up to the match, whether it matched or not
        simp only [Option.isSome_none, Bool.false_eq_true, false_iff, not_and]
        intro _ hall
        have hmem : c ∈ if matched c = true then [c] else c :: upToMatch cs := by
          split <;> simp
        obtain ⟨x, hx⟩ := hall c hmem hans
        rw [hr] at hx
        cases hx

/-- A patch of the loop is one with `SUCCESS`. -/
theorem status_of_verifyContracts {ds : List CompileDetail} {h : Option String}
    {cs : List CheckedContract} {patch : Patch}
    (hpatch : (verifyContracts env r ds h cs).result = some patch)
    (row : EVMContractVerification) : (patch.apply row).status = .SUCCESS := by
  induction cs generalizing ds h with
  | nil => cases hpatch
  | cons c cs ih =>
    rw [verifyContracts] at hpatch
    have hends := bodyEnds env r ds h c
    cases hresult : (verifyContract env r ds h c).result with
    | next =>
      simp only [hresult] at hpatch
      exact ih hpatch
    | done patch' =>
      simp only [hresult] at hpatch
      cases hpatch
      rw [hresult] at hends
      cases hends with
      | agrees _ _ hstatus => exact hstatus row
    | throw message => simp [hresult] at hpatch

/-- A request is verified if a contract matches and nothing throws before. -/
theorem verifyRequest_isSome_iff (env : Env) (r : EVMContractVerification) :
    (verifyRequest env r).result.isSome ↔ HasMatch env r ∧ Recompiles env r := by
  unfold verifyRequest HasMatch Recompiles contractsOf
  split
  · simp
  · split
    · cases hfiles : env.checkFiles r with
      | error message => simp [Except.toOption]
      | ok contracts => exact verifyContracts_isSome_iff [] none contracts
    · simp

theorem status_of_verifyRequest {patch : Patch} (h : (verifyRequest env r).result = some patch)
    (row : EVMContractVerification) : (patch.apply row).status = .SUCCESS := by
  unfold verifyRequest at h
  split at h
  · cases h
  · split at h
    · split at h
      · cases h
      · exact status_of_verifyContracts h row
    · cases h

end

/-! ### The list of patches -/

/-- The patch of a request that finds the list empty. -/
def finalPatch (env : Env) (r : EVMContractVerification) : Patch :=
  (verifyRequest env r).result.getD
    (.fail (verifyRequest env r).compileDetails (verifyRequest env r).codeHash)

/-- The patch of a request that finds other patches. -/
def laterPatch (env : Env) (r : EVMContractVerification) : List (ℕ × Patch) :=
  ((verifyRequest env r).result.map fun patch => (r.id, patch)).toList

theorem listPromise_addRequest (env : Env) (promises : Promises) (r : EVMContractVerification) :
    (addRequest env promises r).listPromise =
      if promises.listPromise = [] then [(r.id, finalPatch env r)]
      else promises.listPromise ++ laterPatch env r := by
  unfold addRequest finalPatch laterPatch
  cases hresult : (verifyRequest env r).result with
  | none => cases hlist : promises.listPromise <;> simp [hresult, hlist]
  | some patch => cases hlist : promises.listPromise <;> simp [hresult]

end VerifyLemmas

open VerifyLemmas

/-- Only the first request of a run can fail; a later one is verified or has no patch. -/
theorem listPromise_eq (env : Env) (first : EVMContractVerification)
    (rest : List EVMContractVerification) :
    (addRequests env (first :: rest)).listPromise =
      (first.id, finalPatch env first) :: rest.flatMap (laterPatch env) := by
  have hrest : ∀ (rest : List EVMContractVerification) (promises : Promises),
      promises.listPromise ≠ [] → (rest.foldl (addRequest env) promises).listPromise =
        promises.listPromise ++ rest.flatMap (laterPatch env) := by
    intro rest
    induction rest with
    | nil => simp
    | cons r rest ih =>
      intro promises hne
      have hadd := listPromise_addRequest env promises r
      rw [if_neg hne] at hadd
      rw [List.foldl_cons, ih _ (by simp [hadd, hne]), hadd, List.flatMap_cons, List.append_assoc]
  have hfirst := listPromise_addRequest env ⟨[], []⟩ first
  rw [if_pos rfl] at hfirst
  rw [addRequests, List.foldl_cons, hrest rest _ (by simp [hfirst]), hfirst]
  rfl

namespace VerifyLemmas

/-! ### The rows after a run -/

section
variable {env : Env}

/-- The patches of one id. -/
def patchesOf (id : ℕ) (listPromise : List (ℕ × Patch)) : List Patch :=
  (listPromise.filter fun promise => promise.1 = id).map Prod.snd

theorem get?_foldl_applyPatch (listPromise : List (ℕ × Patch))
    (rows : Table EVMContractVerification.id) (id : ℕ) :
    (listPromise.foldl applyPatch rows).get? id =
      (rows.get? id).map fun row => (patchesOf id listPromise).foldl Patch.apply row := by
  induction listPromise generalizing rows with
  | nil => simp [patchesOf]
  | cons promise rest ih =>
    rw [List.foldl_cons, ih, applyPatch, Table.get?_mapRows, Option.map_map]
    cases hrow : rows.get? id with
    | none => rfl
    | some row =>
      have hid : row.id = id := Table.key_of_get? hrow
      rcases eq_or_ne promise.1 id with heq | hne
      · simp [patchesOf, heq, hid]
      · simp [patchesOf, hne, hid, hne.symm]

theorem patchesOf_flatMap_of_ne {id : ℕ} {rs : List EVMContractVerification}
    (h : ∀ r ∈ rs, r.id ≠ id) : patchesOf id (rs.flatMap (laterPatch env)) = [] := by
  rw [patchesOf, List.map_eq_nil_iff, List.filter_eq_nil_iff]
  intro promise hpromise
  obtain ⟨r, hr, hp⟩ := List.mem_flatMap.mp hpromise
  obtain ⟨patch, -, rfl⟩ := Option.map_eq_some_iff.mp (Option.mem_toList.mp hp)
  simpa using h r hr

/-- A later request has the patch of its verification, if there is one. -/
theorem patchesOf_flatMap_of_mem {r : EVMContractVerification}
    {rs : List EVMContractVerification} (hnd : (rs.map EVMContractVerification.id).Nodup)
    (hr : r ∈ rs) :
    patchesOf r.id (rs.flatMap (laterPatch env)) = (verifyRequest env r).result.toList := by
  induction rs with
  | nil => cases hr
  | cons x rs ih =>
    rw [List.map_cons, List.nodup_cons] at hnd
    have happend : patchesOf r.id ((x :: rs).flatMap (laterPatch env)) =
        patchesOf r.id (laterPatch env x) ++ patchesOf r.id (rs.flatMap (laterPatch env)) := by
      rw [List.flatMap_cons, patchesOf, List.filter_append, List.map_append]
      rfl
    rw [happend]
    rcases List.mem_cons.mp hr with rfl | hr
    · rw [patchesOf_flatMap_of_ne, List.append_nil]
      · unfold laterPatch patchesOf
        cases (verifyRequest env r).result <;> simp
      · exact fun y hy he => hnd.1 (he ▸ List.mem_map_of_mem hy)
    · have hne : x.id ≠ r.id := fun he => hnd.1 (he ▸ List.mem_map_of_mem hr)
      have hnil : patchesOf r.id (laterPatch env x) = [] := by
        unfold laterPatch patchesOf
        cases (verifyRequest env x).result <;> simp [hne]
      rw [hnil, List.nil_append, ih hnd.2 hr]

theorem mem_listRequestVerify {recordsPerCall : ℕ} {rows : Table EVMContractVerification.id}
    {r : EVMContractVerification} (h : r ∈ listRequestVerify recordsPerCall rows) :
    rows.get? r.id = some r ∧ r.status = .PENDING := by
  have hsorted := List.mem_of_mem_take h
  rw [List.mem_insertionSort, List.mem_filter] at hsorted
  exact ⟨Table.get?_eq_some_iff.mpr ⟨hsorted.1, rfl⟩, of_decide_eq_true hsorted.2⟩

theorem nodup_listRequestVerify (recordsPerCall : ℕ) (rows : Table EVMContractVerification.id) :
    ((listRequestVerify recordsPerCall rows).map EVMContractVerification.id).Nodup := by
  refine ((List.take_sublist _ _).map _).nodup ?_
  refine ((List.perm_insertionSort _ _).map _).nodup_iff.mpr ?_
  exact (List.filter_sublist.map _).nodup rows.nodup

theorem rows_verifyContractEVM {recordsPerCall : ℕ} {db : Db}
    (h : listRequestVerify recordsPerCall db.evm_contract_verification ≠ []) :
    (verifyContractEVM env recordsPerCall db).evm_contract_verification =
      (addRequests env (listRequestVerify recordsPerCall
        db.evm_contract_verification)).listPromise.foldl applyPatch db.evm_contract_verification := by
  unfold verifyContractEVM
  split
  · next hlast => exact absurd (List.getLast?_eq_none_iff.mp hlast) h
  · rfl

/-- The row of the first request. -/
theorem row_first {recordsPerCall : ℕ} {db : Db} {first : EVMContractVerification}
    {rest : List EVMContractVerification}
    (h : listRequestVerify recordsPerCall db.evm_contract_verification = first :: rest) :
    (verifyContractEVM env recordsPerCall db).evm_contract_verification.get? first.id =
      some ((finalPatch env first).apply first) := by
  have hnd := nodup_listRequestVerify recordsPerCall db.evm_contract_verification
  rw [h, List.map_cons, List.nodup_cons] at hnd
  rw [rows_verifyContractEVM (by simp [h]), h, listPromise_eq, get?_foldl_applyPatch,
    (mem_listRequestVerify (h ▸ List.mem_cons_self)).1, Option.map_some]
  have hrest : patchesOf first.id (rest.flatMap (laterPatch env)) = [] :=
    patchesOf_flatMap_of_ne fun r hr he => hnd.1 (he ▸ List.mem_map_of_mem hr)
  have hlist : patchesOf first.id ((first.id, finalPatch env first) ::
      rest.flatMap (laterPatch env)) = [finalPatch env first] := by
    rw [patchesOf, List.filter_cons_of_pos (by simp), List.map_cons]
    exact congrArg _ hrest
  rw [hlist]
  rfl

/-- The row of a later request. -/
theorem row_later {recordsPerCall : ℕ} {db : Db} {first r : EVMContractVerification}
    {rest : List EVMContractVerification}
    (h : listRequestVerify recordsPerCall db.evm_contract_verification = first :: rest)
    (hr : r ∈ rest) :
    (verifyContractEVM env recordsPerCall db).evm_contract_verification.get? r.id =
      some ((verifyRequest env r).result.toList.foldl Patch.apply r) := by
  have hnd := nodup_listRequestVerify recordsPerCall db.evm_contract_verification
  rw [h, List.map_cons, List.nodup_cons] at hnd
  have hne : first.id ≠ r.id := fun he => hnd.1 (he ▸ List.mem_map_of_mem hr)
  rw [rows_verifyContractEVM (by simp [h]), h, listPromise_eq, get?_foldl_applyPatch,
    (mem_listRequestVerify (h ▸ List.mem_cons_of_mem _ hr)).1, Option.map_some]
  have hlist : patchesOf r.id ((first.id, finalPatch env first) ::
      rest.flatMap (laterPatch env)) = (verifyRequest env r).result.toList := by
    rw [patchesOf, List.filter_cons_of_neg (by simpa using hne)]
    exact patchesOf_flatMap_of_mem hnd.2 hr
  rw [hlist]

theorem rowAlone_eq {r : EVMContractVerification} (h : r.status = .PENDING) :
    rowAlone env r = some ((finalPatch env r).apply r) := by
  have hlist : listRequestVerify 1 (Table.empty.upsert r) = [r] := by
    show (List.insertionSort _ ([r].filter fun row => row.status = .PENDING)).take 1 = [r]
    rw [List.filter_cons_of_pos (by simp [h])]
    rfl
  exact row_first hlist

theorem status_finalPatch (env : Env) (r : EVMContractVerification) :
    ((finalPatch env r).apply r).status =
      if (verifyRequest env r).result.isSome then .SUCCESS else .FAIL := by
  unfold finalPatch
  cases hresult : (verifyRequest env r).result with
  | none => rfl
  | some patch => exact status_of_verifyRequest hresult r

/-- The first request is as in a run of its own. -/
theorem right_first_iff {recordsPerCall : ℕ} {db : Db} {first : EVMContractVerification}
    {rest : List EVMContractVerification}
    (h : listRequestVerify recordsPerCall db.evm_contract_verification = first :: rest) :
    (∃ row, (verifyContractEVM env recordsPerCall db).evm_contract_verification.get?
      first.id = some row ∧ row.status = (if HasMatch env first then .SUCCESS else .FAIL) ∧
      rowAlone env first = some row) ↔ (HasMatch env first → Recompiles env first) := by
  have hpending := (mem_listRequestVerify (h ▸ List.mem_cons_self)).2
  rw [row_first h, rowAlone_eq hpending]
  have hiff := verifyRequest_isSome_iff env first
  constructor
  · rintro ⟨row, hrow, hstatus, -⟩ hmatch
    cases hrow
    rw [status_finalPatch, if_pos hmatch] at hstatus
    split at hstatus
    · next hsome => exact (hiff.mp hsome).2
    · cases hstatus
  · intro hcond
    refine ⟨_, rfl, ?_, rfl⟩
    rw [status_finalPatch, if_congr (hiff.trans ⟨And.left, fun hm => ⟨hm, hcond hm⟩⟩) rfl rfl]

/-- A later request is left pending if it is not verified. -/
theorem right_later_iff {recordsPerCall : ℕ} {db : Db} {first r : EVMContractVerification}
    {rest : List EVMContractVerification}
    (h : listRequestVerify recordsPerCall db.evm_contract_verification = first :: rest)
    (hr : r ∈ rest) :
    (∃ row, (verifyContractEVM env recordsPerCall db).evm_contract_verification.get? r.id =
      some row ∧ row.status = (if HasMatch env r then .SUCCESS else .FAIL) ∧
      rowAlone env r = some row) ↔ HasMatch env r ∧ Recompiles env r := by
  have hpending := (mem_listRequestVerify (h ▸ List.mem_cons_of_mem first hr)).2
  rw [row_later h hr, rowAlone_eq hpending, ← verifyRequest_isSome_iff]
  cases hresult : (verifyRequest env r).result with
  | none =>
    refine iff_of_false ?_ (by simp)
    rintro ⟨row, hget, hstatus, -⟩
    cases hget
    rw [Option.toList_none, List.foldl_nil, hpending] at hstatus
    split at hstatus <;> cases hstatus
  | some patch =>
    refine iff_of_true ⟨_, rfl, ?_, ?_⟩ rfl
    · have hmatch := ((verifyRequest_isSome_iff env r).mp (by rw [hresult]; rfl)).1
      rw [if_pos hmatch]
      exact status_of_verifyRequest hresult r
    · rw [finalPatch, hresult]
      rfl

end

end VerifyLemmas

/-! ## 4. The result -/

/-- Files that are neither zip nor JSON. -/
def badRequest (id : ℕ) : EVMContractVerification :=
  { id := id, contract_address := "0xaa", files := some [0], compiler_version := none
    status := .PENDING, abi := none, code_hash := none, compile_detail := none
    contract_name := none, compiler_setting := none }

/-- Nothing is JSON, and nothing compiles. -/
def nothingCompiles : Env :=
  ⟨fun _ => false, fun _ => .error "", fun _ _ => .error "", id⟩

end Erascope.Evm.Verify
