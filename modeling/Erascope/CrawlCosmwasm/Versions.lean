import Mathlib.Tactic
import Erascope.Lib.Run
import Erascope.CrawlCosmwasm.SmartContract

/-!
# The versions of a contract

`CRAWL_SMART_CONTRACT` and `HANDLE_MIGRATE_CONTRACT` read the same heights and wait for
`CRAWL_CODE` only, not for each other. A run is any interleaving of the two, with any ranges and
with the rows of a query in any order.

Results:
1. `versions_iff_one_migration`: when both jobs have reached a height, every contract has one row
   for its instantiation and one for each migration, with the last one as the latest, if and only
   if every range of migrations held at most one migration of a contract, and only migrations of
   contracts that were stored before.
2. `migrations_lost`: two migrations in one range, and a migration that is read before the
   instantiation, lose a version.
-/

namespace Erascope.CrawlCosmwasm

open ContractLemmas

/-! ## 1. The chain -/

/-- What happens to a contract. -/
inductive ContractAction
  | instantiate
  | migrate (codeId : ℕ)
deriving DecidableEq, Repr

/-- An event of a successful transaction. -/
structure ContractEvent where
  event_id : ℕ
  height : ℕ
  hash : String
  address : String
  action : ContractAction
deriving DecidableEq, Repr

namespace ContractEvent

def isInstantiate (e : ContractEvent) : Bool :=
  match e.action with
  | .instantiate => true
  | .migrate _ => false

/-- The code that a migration moves to. -/
def codeId? (e : ContractEvent) : Option ℕ :=
  match e.action with
  | .instantiate => none
  | .migrate codeId => some codeId

/-- The row that the query of instantiations returns. -/
def instantiated (e : ContractEvent) : IInstantiateContracts := ⟨e.address, e.hash, e.height⟩

/-- The rows that the query of migrations returns. -/
def attributeRows (e : ContractEvent) : List AttributeRow :=
  match e.action with
  | .instantiate => []
  | .migrate codeId =>
    [⟨e.hash, e.height, e.event_id, .contractAddress, .text e.address⟩,
      ⟨e.hash, e.height, e.event_id, .codeId, .number codeId⟩]

/-- The entry of `migrateEvents` for a migration. -/
def migrateEvent (e : ContractEvent) : MigrateEvent :=
  ⟨e.address, e.codeId?.map .number, e.hash, e.height⟩

end ContractEvent

def instantiations (events : List ContractEvent) : List ContractEvent :=
  events.filter (·.isInstantiate)

def migrations (events : List ContractEvent) : List ContractEvent :=
  events.filter (!·.isInstantiate)

/-- The events of an address. -/
def ofAddress (address : String) (events : List ContractEvent) : List ContractEvent :=
  events.filter fun e => e.address = address

/-- A history of the chain: a contract is instantiated once, and before it is migrated. -/
structure History (events : List ContractEvent) : Prop where
  start : ∀ e ∈ events, 0 < e.height
  order : events.Pairwise fun a b => a.height ≤ b.height
  ids : (events.map (·.event_id)).Nodup
  once : ((instantiations events).map (·.address)).Nodup
  first : events.Pairwise fun a b =>
    ¬ (a.isInstantiate = false ∧ b.isInstantiate = true ∧ a.address = b.address)

/-! ## 2. The system -/

/-- The table, and the checkpoints of `CRAWL_SMART_CONTRACT` and `HANDLE_MIGRATE_CONTRACT`. -/
structure System where
  smart_contract : List SmartContract
  crawled : ℕ
  migrated : ℕ
deriving DecidableEq, Repr

/-- A run of one of the jobs: the end of its range, the rows of its query, and the answers of the
node. -/
inductive Job
  | crawlSmartContract (endHeight : ℕ) (contracts : List IInstantiateContracts)
      (contractCw2s : String → Option Cw2) (contractInfos : String → Option ContractInfo)
  | handleMigrateContract (endHeight : ℕ) (resultTx : List AttributeRow)
      (contractCw2s : String → Option Cw2)

/-- The query returns the rows of the range, in any order. -/
def Enabled (events : List ContractEvent) (s : System) : Job → Prop
  | .crawlSmartContract endHeight contracts _ _ => s.crawled < endHeight ∧
    contracts.Perm ((between (·.height) s.crawled endHeight (instantiations events)).map
      (·.instantiated))
  | .handleMigrateContract endHeight resultTx _ => s.migrated < endHeight ∧
    resultTx.Perm ((between (·.height) s.migrated endHeight (migrations events)).flatMap
      (·.attributeRows))

instance (events : List ContractEvent) (s : System) : ∀ job, Decidable (Enabled events s job)
  | .crawlSmartContract _ _ _ _ => inferInstanceAs (Decidable (_ ∧ _))
  | .handleMigrateContract _ _ _ => inferInstanceAs (Decidable (_ ∧ _))

/-- A run of a job that commits; one that fails is rolled back. -/
def commit (s : System) : Job → System
  | .crawlSmartContract endHeight contracts contractCw2s contractInfos =>
    match insertNewContracts contractCw2s contractInfos s.smart_contract contracts with
    | .ok table => { s with smart_contract := table, crawled := endHeight }
    | .error _ => s
  | .handleMigrateContract endHeight resultTx contractCw2s =>
    match handleMigrateContract contractCw2s s.smart_contract resultTx with
    | .ok table => { s with smart_contract := table, migrated := endHeight }
    | .error _ => s

/-- One run of a job. -/
def step (events : List ContractEvent) (s : System) (job : Job) : System :=
  if Enabled events s job then commit s job else s

/-- Before any run. -/
def init : System := ⟨[], 0, 0⟩

/-- A migration is the only one of its contract in the range, and the contract is stored. -/
def Alone (events : List ContractEvent) (s : System) (endHeight : ℕ) (e : ContractEvent) : Prop :=
  (ofAddress e.address (between (·.height) s.migrated endHeight (migrations events))).length = 1 ∧
    ∃ i ∈ instantiations events, i.address = e.address ∧ i.height ≤ s.crawled

instance (events : List ContractEvent) (s : System) (endHeight : ℕ) (e : ContractEvent) :
    Decidable (Alone events s endHeight e) := inferInstanceAs (Decidable (_ ∧ _))

/-- A range of migrations holds at most one of each contract, and every contract is stored. -/
def OneMigration (events : List ContractEvent) (s : System) : Job → Prop
  | .crawlSmartContract _ _ _ _ => True
  | .handleMigrateContract endHeight resultTx contractCw2s =>
    Enabled events s (.handleMigrateContract endHeight resultTx contractCw2s) →
    ∀ e ∈ between (·.height) s.migrated endHeight (migrations events), Alone events s endHeight e

instance (events : List ContractEvent) (s : System) : ∀ job, Decidable (OneMigration events s job)
  | .crawlSmartContract _ _ _ _ => inferInstanceAs (Decidable True)
  | .handleMigrateContract _ _ _ => inferInstanceAs (Decidable (Enabled events s _ → ∀ e ∈ _, _))

/-! ## 3. The versions -/

/-- Where a row comes from. -/
def SmartContract.origin (row : SmartContract) : String × ℕ :=
  (row.instantiate_hash, row.instantiate_height)

def ContractEvent.origin (e : ContractEvent) : String × ℕ := (e.hash, e.height)

/-- The rows of every address are its instantiation and its migrations up to a height; one of them
is the latest, with the code of the last migration. -/
def VersionsOk (events : List ContractEvent) (height : ℕ) (table : List SmartContract) : Prop :=
  ∀ address,
    (rowsOf table address).map (·.origin) =
      (ofAddress address (between (·.height) 0 height events)).map (·.origin) ∧
    (ofAddress address (between (·.height) 0 height events) ≠ [] →
      (latest (rowsOf table address)).length = 1) ∧
    ∀ row ∈ latest (rowsOf table address),
      ∀ m ∈ (ofAddress address (between (·.height) 0 height (migrations events))).getLast?,
        m.codeId? = some row.code_id

/-- The events of an address that should have a row. -/
def due (events : List ContractEvent) (s : System) (address : String) : List ContractEvent :=
  ofAddress address (between (·.height) 0 s.crawled (instantiations events)) ++
    ofAddress address (between (·.height) 0 s.migrated (migrations events))

/-- In every run: as many latest rows as instantiations, and no row too many. -/
def Wf (events : List ContractEvent) (s : System) : Prop :=
  ∀ address, (latest (rowsOf s.smart_contract address)).length =
      (ofAddress address (between (·.height) 0 s.crawled (instantiations events))).length ∧
    (rowsOf s.smart_contract address).length ≤ (due events s address).length

/-- No row is missing. -/
def NoneLost (events : List ContractEvent) (s : System) : Prop :=
  ∀ address, (rowsOf s.smart_contract address).length = (due events s address).length

namespace ContractLemmas

variable {events : List ContractEvent} {s : System} {address : String} {startHeight endHeight : ℕ}

theorem ofAddress_append (address : String) (es es' : List ContractEvent) :
    ofAddress address (es ++ es') = ofAddress address es ++ ofAddress address es' :=
  List.filter_append ..

theorem mem_ofAddress {e : ContractEvent} {es : List ContractEvent} :
    e ∈ ofAddress address es ↔ e ∈ es ∧ e.address = address := by
  simp [ofAddress]

theorem height_order (h : History events) (p : ContractEvent → Bool) :
    (events.filter p).Pairwise fun a b => a.height ≤ b.height :=
  h.order.sublist List.filter_sublist

theorem ofAddress_between_append {es : List ContractEvent}
    (hsort : es.Pairwise fun a b => a.height ≤ b.height) (hle : startHeight ≤ endHeight)
    (address : String) :
    ofAddress address (between (·.height) 0 endHeight es) =
      ofAddress address (between (·.height) 0 startHeight es) ++
        ofAddress address (between (·.height) startHeight endHeight es) := by
  rw [← ofAddress_append, between_append hsort (Nat.zero_le _) hle]

/-- A contract is instantiated once. -/
theorem length_instantiations_le (h : History events) (address : String) (height : ℕ) :
    (ofAddress address (between (·.height) 0 height (instantiations events))).length ≤ 1 := by
  have hsub : (between (·.height) 0 height (instantiations events)).Sublist (instantiations events) :=
    between_sublist
  have hnodup := h.once.sublist (hsub.map _)
  generalize between (·.height) 0 height (instantiations events) = es at hnodup
  induction es with
  | nil => exact Nat.zero_le _
  | cons e es ih =>
    obtain ⟨hnotin, hnodup⟩ := List.nodup_cons.mp hnodup
    by_cases he : e.address = address
    · have hnil : ofAddress address es = [] := by
        rw [ofAddress, List.filter_eq_nil_iff]
        intro e' he' heq
        exact hnotin (List.mem_map.mpr ⟨e', he', (of_decide_eq_true heq).trans he.symm⟩)
      rw [ofAddress, List.filter_cons_of_pos (by simpa using he)]
      rw [ofAddress] at hnil
      rw [hnil]
      exact le_rfl
    · rw [ofAddress, List.filter_cons_of_neg (by simpa using he)]
      exact ih hnodup

/-! ### The rows of a query of migrations -/

theorem codeIdOf_perm {es : List ContractEvent} {resultTx : List AttributeRow}
    (hids : (es.map (·.event_id)).Nodup)
    (hperm : resultTx.Perm (es.flatMap (·.attributeRows))) {e : ContractEvent} (he : e ∈ es)
    {codeId : ℕ} (haction : e.action = .migrate codeId) :
    codeIdOf resultTx e.event_id = some (.number codeId) := by
  -- the code id of the event is in the result, and no other row of the event has one
  have hmem : ∀ row, row ∈ resultTx ↔ ∃ e' ∈ es, row ∈ e'.attributeRows := by
    intro row
    rw [hperm.mem_iff, List.mem_flatMap]
  have hrow : (⟨e.hash, e.height, e.event_id, .codeId, .number codeId⟩ : AttributeRow) ∈ resultTx := by
    refine (hmem _).mpr ⟨e, he, ?_⟩
    simp [ContractEvent.attributeRows, haction]
  obtain ⟨row, hfind⟩ : ∃ row, resultTx.find? (fun rs => rs.event_id = e.event_id &&
      rs.key = .codeId) = some row := by
    refine Option.isSome_iff_exists.mp (List.find?_isSome.mpr ⟨_, hrow, ?_⟩)
    simp
  have hpred := List.find?_some hfind
  simp only [Bool.and_eq_true, decide_eq_true_eq] at hpred
  obtain ⟨e', he', hrow'⟩ := (hmem row).mp (List.mem_of_find?_eq_some hfind)
  have hsame : e'.event_id = e.event_id := by
    cases haction' : e'.action with
    | instantiate => simp [ContractEvent.attributeRows, haction'] at hrow'
    | migrate c =>
      simp only [ContractEvent.attributeRows, haction', List.mem_cons, List.not_mem_nil,
        or_false] at hrow'
      rcases hrow' with rfl | rfl
      · exact hpred.1
      · exact hpred.1
  obtain rfl : e' = e := List.inj_on_of_nodup_map hids he' he hsame
  simp only [ContractEvent.attributeRows, haction, List.mem_cons, List.not_mem_nil,
    or_false] at hrow'
  rcases hrow' with rfl | rfl
  · cases hpred.2
  · rw [codeIdOf, hfind]
    rfl

/-- The entries of a range are its migrations, in any order. -/
theorem codeContractValues_perm {es : List ContractEvent} {resultTx : List AttributeRow}
    (hids : (es.map (·.event_id)).Nodup) (hmigrate : ∀ e ∈ es, e.isInstantiate = false)
    (hperm : resultTx.Perm (es.flatMap (·.attributeRows))) :
    (codeContractValues resultTx).Perm (es.map (·.migrateEvent)) := by
  refine (hperm.filterMap _).trans (List.Perm.of_eq ?_)
  rw [List.filterMap_flatMap, List.map_eq_flatMap]
  refine List.flatMap_congr fun e he => ?_
  cases haction : e.action with
  | instantiate =>
    have hnot := hmigrate e he
    rw [ContractEvent.isInstantiate, haction] at hnot
    cases hnot
  | migrate codeId =>
    simp [ContractEvent.attributeRows, haction, codeIdOf_perm hids hperm he haction,
      ContractEvent.migrateEvent, ContractEvent.codeId?, AttributeValue.toText]

theorem exists_codeId {e : ContractEvent} (h : e.isInstantiate = false) :
    ∃ codeId, e.codeId? = some codeId := by
  cases haction : e.action with
  | instantiate => simp [ContractEvent.isInstantiate, haction] at h
  | migrate codeId => exact ⟨codeId, by simp [ContractEvent.codeId?, haction]⟩

theorem readable_of_perm {es : List ContractEvent} {resultTx : List AttributeRow}
    (hmigrate : ∀ e ∈ es, e.isInstantiate = false)
    (hvalues : (codeContractValues resultTx).Perm (es.map (·.migrateEvent))) :
    Readable resultTx := by
  intro v hv
  obtain ⟨e, he, rfl⟩ := List.mem_map.mp (hvalues.mem_iff.mp hv)
  obtain ⟨codeId, hcodeId⟩ := exists_codeId (hmigrate e he)
  exact ⟨codeId, by simp [ContractEvent.migrateEvent, hcodeId]⟩

/-- The contracts that the entries name are those with a migration in the range. -/
theorem mem_addresses_iff {es : List ContractEvent} {resultTx : List AttributeRow}
    (hvalues : (codeContractValues resultTx).Perm (es.map (·.migrateEvent))) :
    address ∈ (codeContractValues resultTx).map (·.address) ↔ ofAddress address es ≠ [] := by
  rw [(hvalues.map _).mem_iff, List.map_map, List.mem_map]
  constructor
  · rintro ⟨e, he, haddress⟩
    exact List.ne_nil_of_mem (mem_ofAddress.mpr ⟨he, haddress⟩)
  · intro hne
    obtain ⟨e, he⟩ := List.exists_mem_of_ne_nil _ hne
    exact ⟨e, (mem_ofAddress.mp he).1, (mem_ofAddress.mp he).2⟩

/-! ### What a run of a job does to the rows of an address -/

/-- The rows of a contract that no entry names stay. -/
theorem map_patchOld_of_not_mem {resultTx : List AttributeRow} {rows : List SmartContract}
    (hrows : ∀ row ∈ rows, row.address = address)
    (hout : address ∉ (codeContractValues resultTx).map (·.address)) :
    rows.map (patchOld resultTx) = rows := by
  rw [List.map_congr_left fun row hrow => ?_, List.map_id']
  rw [patchOld, if_neg fun hold => hout (hrows row hrow ▸ (isOld_iff.mp hold).2)]

theorem latest_patchOld {resultTx : List AttributeRow} {rows : List SmartContract}
    (hrows : ∀ row ∈ rows, row.address = address) :
    latest (rows.map (patchOld resultTx)) =
      if address ∈ (codeContractValues resultTx).map (·.address) then [] else latest rows := by
  split
  · next hin =>
    rw [latest, List.filter_eq_nil_iff]
    intro row hrow
    obtain ⟨row', hrow', rfl⟩ := List.mem_map.mp hrow
    rw [patchOld]
    split
    · simp
    · next hnot =>
      intro hstatus
      exact hnot (isOld_iff.mpr ⟨of_decide_eq_true hstatus, hrows row' hrow' ▸ hin⟩)
  · next hout =>
    rw [map_patchOld_of_not_mem hrows hout]

theorem filter_isOld {resultTx : List AttributeRow} {rows : List SmartContract}
    (hrows : ∀ row ∈ rows, row.address = address) :
    rows.filter (isOld resultTx) =
      if address ∈ (codeContractValues resultTx).map (·.address) then latest rows else [] := by
  split
  · next hin =>
    refine List.filter_congr fun row hrow => ?_
    have hmem : row.address ∈ (codeContractValues resultTx).map (·.address) := hrows row hrow ▸ hin
    simp [isOld, hmem]
  · next hout =>
    rw [List.filter_eq_nil_iff]
    intro row hrow hold
    exact hout (hrows row hrow ▸ (isOld_iff.mp hold).2)

/-- A committed range of migrations. -/
theorem commit_handleMigrateContract (h : History events) {resultTx : List AttributeRow}
    {contractCw2s : String → Option Cw2}
    (hperm : resultTx.Perm ((between (·.height) s.migrated endHeight (migrations events)).flatMap
      (·.attributeRows))) :
    ∃ table', commit s (.handleMigrateContract endHeight resultTx contractCw2s) =
        { s with smart_contract := table', migrated := endHeight } ∧
      ∀ address, ∃ old made : List SmartContract, rowsOf table' address = old ++ made ∧
        old.map (·.origin) = (rowsOf s.smart_contract address).map (·.origin) ∧
        (ofAddress address (between (·.height) s.migrated endHeight (migrations events)) = [] →
          old = rowsOf s.smart_contract address ∧ made = []) ∧
        (ofAddress address (between (·.height) s.migrated endHeight (migrations events)) ≠ [] →
          latest old = [] ∧ made.length = (latest (rowsOf s.smart_contract address)).length) ∧
        ∀ row ∈ made, row.status = .latest ∧
          ∃ e ∈ ofAddress address (between (·.height) s.migrated endHeight (migrations events)),
            row.origin = e.origin ∧ e.codeId? = some row.code_id := by
  set es := between (·.height) s.migrated endHeight (migrations events) with hes
  have hsub : es.Sublist events := between_sublist.trans List.filter_sublist
  have hmigrate : ∀ e ∈ es, e.isInstantiate = false := by
    intro e he
    simpa [migrations] using (List.mem_filter.mp (between_sublist.subset he)).2
  have hvalues := codeContractValues_perm (h.ids.sublist (hsub.map _)) hmigrate hperm
  obtain ⟨table', hok, hspec⟩ := handleMigrateContract_spec
    (readable_of_perm hmigrate hvalues) contractCw2s s.smart_contract
  refine ⟨table', by rw [commit, hok], fun address => ?_⟩
  have hrows : ∀ row ∈ rowsOf s.smart_contract address, row.address = address :=
    fun row hrow => address_of_mem_rowsOf hrow
  obtain ⟨made, heq, hlength, hmade⟩ := hspec address
  rw [filter_isOld hrows] at hlength
  refine ⟨_, made, heq, ?_, fun hnil => ?_, fun hne => ?_, fun row hrow => ?_⟩
  · rw [List.map_map]
    refine List.map_congr_left fun row _ => ?_
    simp only [Function.comp_apply, patchOld]
    split <;> rfl
  · have hout : address ∉ (codeContractValues resultTx).map (·.address) := by
      rw [mem_addresses_iff hvalues, not_not]
      exact hnil
    rw [if_neg hout, List.length_nil, List.length_eq_zero_iff] at hlength
    exact ⟨map_patchOld_of_not_mem hrows hout, hlength⟩
  · have hmem := (mem_addresses_iff hvalues).mpr hne
    rw [if_pos hmem] at hlength
    exact ⟨by rw [latest_patchOld hrows, if_pos hmem], hlength⟩
  · obtain ⟨haddress, hstatus, v, hv, hcodeId, hhash, hheight⟩ := hmade row hrow
    obtain ⟨hmem, hvaddress⟩ := mem_of_migrateEvents hv
    obtain ⟨e, he, rfl⟩ := List.mem_map.mp (hvalues.mem_iff.mp hmem)
    refine ⟨hstatus, e, mem_ofAddress.mpr ⟨he, hvaddress.trans haddress⟩, ?_, ?_⟩
    · exact Prod.ext hhash hheight
    · obtain ⟨codeId, hcodeId'⟩ := exists_codeId (hmigrate e he)
      simp only [ContractEvent.migrateEvent, hcodeId', Option.map_some, Option.some.injEq,
        AttributeValue.number.injEq] at hcodeId
      rw [hcodeId', hcodeId]

/-- A committed range of instantiations. -/
theorem commit_crawlSmartContract {contracts : List IInstantiateContracts}
    {contractCw2s : String → Option Cw2} {contractInfos : String → Option ContractInfo}
    (hperm : contracts.Perm ((between (·.height) s.crawled endHeight (instantiations events)).map
      (·.instantiated))) :
    commit s (.crawlSmartContract endHeight contracts contractCw2s contractInfos) = s ∨
    ∃ table', commit s (.crawlSmartContract endHeight contracts contractCw2s contractInfos) =
        { s with smart_contract := table', crawled := endHeight } ∧
      ∀ address, ∃ made : List SmartContract,
        rowsOf table' address = rowsOf s.smart_contract address ++ made ∧ latest made = made ∧
        (made.map (·.origin)).Perm ((ofAddress address
          (between (·.height) s.crawled endHeight (instantiations events))).map (·.origin)) := by
  set es := between (·.height) s.crawled endHeight (instantiations events) with hes
  simp only [commit, insertNewContracts]
  split
  · next table' hok =>
    split at hok
    · cases hok
    · cases hok
      refine .inr ⟨_, rfl, fun address => ⟨_, rowsOf_append .., ?_, ?_⟩⟩
      · rw [latest, List.filter_eq_self]
        intro row hrow
        obtain ⟨contract, -, rfl⟩ := List.mem_map.mp (List.mem_of_mem_filter hrow)
        rfl
      · rw [rowsOf, List.filter_map, List.map_map]
        refine ((hperm.filter _).map _).trans (List.Perm.of_eq ?_)
        rw [List.filter_map, List.map_map]
        rfl
  · exact .inl rfl

/-! ### Counting rows -/

theorem length_due_crawled (h : History events) (hle : s.crawled ≤ endHeight)
    (table : List SmartContract) (address : String) :
    (due events { s with smart_contract := table, crawled := endHeight } address).length =
      (due events s address).length +
        (ofAddress address (between (·.height) s.crawled endHeight (instantiations events))).length := by
  simp only [due, List.length_append,
    ofAddress_between_append (height_order h (·.isInstantiate)) hle address, instantiations]
  omega

theorem length_due_migrated (h : History events) (hle : s.migrated ≤ endHeight)
    (table : List SmartContract) (address : String) :
    (due events { s with smart_contract := table, migrated := endHeight } address).length =
      (due events s address).length +
        (ofAddress address (between (·.height) s.migrated endHeight (migrations events))).length := by
  simp only [due, List.length_append,
    ofAddress_between_append (height_order h (!·.isInstantiate)) hle address, migrations]
  omega

/-- What a range of instantiations adds. -/
theorem crawl_counts (h : History events) (hw : Wf events s) {contracts : List IInstantiateContracts}
    {contractCw2s : String → Option Cw2} {contractInfos : String → Option ContractInfo}
    (hen : Enabled events s (.crawlSmartContract endHeight contracts contractCw2s contractInfos)) :
    let s' := commit s (.crawlSmartContract endHeight contracts contractCw2s contractInfos)
    Wf events s' ∧ (NoneLost events s' ↔ NoneLost events s) := by
  obtain ⟨hlt, hperm⟩ := hen
  rcases @commit_crawlSmartContract events s endHeight contracts contractCw2s contractInfos hperm with
    hsame | ⟨table', hcommit, hspec⟩
  · simp only [hsame]
    exact ⟨hw, trivial⟩
  simp only [hcommit]
  have hrows : ∀ address, (rowsOf table' address).length =
      (rowsOf s.smart_contract address).length + (ofAddress address
        (between (·.height) s.crawled endHeight (instantiations events))).length := by
    intro address
    obtain ⟨made, heq, -, horigin⟩ := hspec address
    have hlength := horigin.length_eq
    rw [List.length_map, List.length_map] at hlength
    rw [heq, List.length_append, hlength]
  refine ⟨fun address => ⟨?_, ?_⟩, ?_⟩
  · obtain ⟨made, heq, hlatest, horigin⟩ := hspec address
    have hlength := horigin.length_eq
    rw [List.length_map, List.length_map] at hlength
    simp only [heq, latest_append, hlatest, List.length_append, hlength, (hw address).1]
    rw [instantiations, ofAddress_between_append (height_order h (·.isInstantiate)) hlt.le address,
      List.length_append]
  · have hle := (hw address).2
    rw [hrows, length_due_crawled h hlt.le]
    omega
  · refine forall_congr' fun address => ?_
    rw [hrows, length_due_crawled h hlt.le]
    omega

/-- What a range of migrations adds. -/
theorem migrate_counts (h : History events) (hw : Wf events s) {resultTx : List AttributeRow}
    {contractCw2s : String → Option Cw2}
    (hen : Enabled events s (.handleMigrateContract endHeight resultTx contractCw2s)) :
    let s' := commit s (.handleMigrateContract endHeight resultTx contractCw2s)
    Wf events s' ∧ ∀ address, ∃ n,
      (rowsOf s'.smart_contract address).length = (rowsOf s.smart_contract address).length + n ∧
      (due events s' address).length = (due events s address).length + (ofAddress address
        (between (·.height) s.migrated endHeight (migrations events))).length ∧
      (ofAddress address (between (·.height) s.migrated endHeight (migrations events)) = [] → n = 0) ∧
      (ofAddress address (between (·.height) s.migrated endHeight (migrations events)) ≠ [] →
        n = (ofAddress address (between (·.height) 0 s.crawled (instantiations events))).length) := by
  obtain ⟨hlt, hperm⟩ := hen
  obtain ⟨table', hcommit, hspec⟩ :=
    @commit_handleMigrateContract events s endHeight h resultTx contractCw2s hperm
  simp only [hcommit]
  have hcounts : ∀ address, ∃ n,
      (rowsOf table' address).length = (rowsOf s.smart_contract address).length + n ∧
      (latest (rowsOf table' address)).length = (latest (rowsOf s.smart_contract address)).length ∧
      (ofAddress address (between (·.height) s.migrated endHeight (migrations events)) = [] → n = 0) ∧
      (ofAddress address (between (·.height) s.migrated endHeight (migrations events)) ≠ [] →
        n = (ofAddress address (between (·.height) 0 s.crawled (instantiations events))).length) := by
    intro address
    obtain ⟨old, made, heq, horigin, hnil, hne, hmade⟩ := hspec address
    have hold := congrArg List.length horigin
    rw [List.length_map, List.length_map] at hold
    refine ⟨made.length, by rw [heq, List.length_append, hold], ?_, fun hK => ?_, fun hK => ?_⟩
    · by_cases hK : ofAddress address
          (between (·.height) s.migrated endHeight (migrations events)) = []
      · obtain ⟨rfl, rfl⟩ := hnil hK
        rw [heq, List.append_nil]
      · have hlatest : latest made = made :=
          List.filter_eq_self.mpr fun row hrow => by simp [(hmade row hrow).1]
        rw [heq, latest_append, (hne hK).1, hlatest, List.nil_append, (hne hK).2]
    · rw [(hnil hK).2, List.length_nil]
    · rw [(hne hK).2, (hw address).1]
  refine ⟨fun address => ?_, fun address => ?_⟩
  · obtain ⟨n, hrows, hlatest, hnil, hne⟩ := hcounts address
    refine ⟨hlatest.trans (hw address).1, ?_⟩
    have hle := (hw address).2
    have hone := length_instantiations_le h address s.crawled
    rw [hrows, length_due_migrated h hlt.le]
    by_cases hK : ofAddress address
        (between (·.height) s.migrated endHeight (migrations events)) = []
    · rw [hnil hK]
      omega
    · have hpos := List.length_pos_iff.mpr hK
      rw [hne hK]
      omega
  · obtain ⟨n, hrows, -, hnil, hne⟩ := hcounts address
    exact ⟨n, hrows, length_due_migrated h hlt.le table' address, hnil, hne⟩

theorem stored_iff (h : History events) (address : String) (height : ℕ) :
    (∃ i ∈ instantiations events, i.address = address ∧ i.height ≤ height) ↔
      ofAddress address (between (·.height) 0 height (instantiations events)) ≠ [] := by
  constructor
  · rintro ⟨i, hi, haddress, hheight⟩
    refine List.ne_nil_of_mem (mem_ofAddress.mpr ⟨mem_between.mpr ⟨hi, ?_, hheight⟩, haddress⟩)
    exact h.start i (List.mem_of_mem_filter hi)
  · intro hne
    obtain ⟨i, hi⟩ := List.exists_mem_of_ne_nil _ hne
    obtain ⟨hbetween, haddress⟩ := mem_ofAddress.mp hi
    obtain ⟨hmem, -, hheight⟩ := mem_between.mp hbetween
    exact ⟨i, hmem, haddress, hheight⟩

theorem wf_step (h : History events) (s : System) (job : Job) (hw : Wf events s) :
    Wf events (step events s job) := by
  rw [step]
  split
  · next hen =>
    cases job with
    | crawlSmartContract endHeight contracts contractCw2s contractInfos =>
      exact (crawl_counts h hw hen).1
    | handleMigrateContract endHeight resultTx contractCw2s => exact (migrate_counts h hw hen).1
  · exact hw

theorem noneLost_step_iff (h : History events) (s : System) (job : Job) (hw : Wf events s)
    (hnone : NoneLost events s) :
    NoneLost events (step events s job) ↔ OneMigration events s job := by
  rw [step]
  split
  · next hen =>
    cases job with
    | crawlSmartContract endHeight contracts contractCw2s contractInfos =>
      exact iff_of_true ((crawl_counts h hw hen).2.mpr hnone) trivial
    | handleMigrateContract endHeight resultTx contractCw2s =>
      obtain ⟨-, hcounts⟩ := migrate_counts h hw hen
      constructor
      · intro hnone' _ e he
        obtain ⟨n, hrows, hdue, -, hne⟩ := hcounts e.address
        have hK := List.ne_nil_of_mem (mem_ofAddress.mpr ⟨he, rfl⟩)
        have hpos := List.length_pos_iff.mpr hK
        have hone := length_instantiations_le h e.address s.crawled
        have hbefore := hnone e.address
        have hafter := hnone' e.address
        rw [hrows, hdue, hne hK] at hafter
        refine ⟨by omega, (stored_iff h e.address s.crawled).mpr fun hnil => ?_⟩
        rw [hnil, List.length_nil] at hafter
        omega
      · intro hcond address
        obtain ⟨n, hrows, hdue, hnil, hne⟩ := hcounts address
        rw [hrows, hdue, hnone address]
        by_cases hK : ofAddress address
            (between (·.height) s.migrated endHeight (migrations events)) = []
        · rw [hnil hK, hK]
          rfl
        · obtain ⟨e, he⟩ := List.exists_mem_of_ne_nil _ hK
          obtain ⟨hmem, rfl⟩ := mem_ofAddress.mp he
          obtain ⟨hlength, hstored⟩ := hcond hen e hmem
          have hpos := List.length_pos_iff.mpr ((stored_iff h e.address s.crawled).mp hstored)
          have hone := length_instantiations_le h e.address s.crawled
          rw [hne hK]
          omega
  · next hdis =>
    refine iff_of_true hnone ?_
    cases job with
    | crawlSmartContract endHeight contracts contractCw2s contractInfos => trivial
    | handleMigrateContract endHeight resultTx contractCw2s => exact fun hen => absurd hen hdis

/-- A row that is lost never comes back. -/
theorem noneLost_of_step (h : History events) (s : System) (job : Job) (hw : Wf events s)
    (hnone : NoneLost events (step events s job)) : NoneLost events s := by
  rw [step] at hnone
  split at hnone
  · next hen =>
    cases job with
    | crawlSmartContract endHeight contracts contractCw2s contractInfos =>
      exact (crawl_counts h hw hen).2.mp hnone
    | handleMigrateContract endHeight resultTx contractCw2s =>
      obtain ⟨-, hcounts⟩ := migrate_counts h hw hen
      intro address
      obtain ⟨n, hrows, hdue, hnil, hne⟩ := hcounts address
      have hafter := hnone address
      have hle := (hw address).2
      have hone := length_instantiations_le h address s.crawled
      rw [hrows, hdue] at hafter
      by_cases hK : ofAddress address
          (between (·.height) s.migrated endHeight (migrations events)) = []
      · rw [hnil hK] at hafter
        omega
      · have hpos := List.length_pos_iff.mpr hK
        rw [hne hK] at hafter
        omega
  · exact hnone

/-! ### Runs that lose nothing -/

/-- The rows of an address in a run that loses nothing. -/
structure Complete (events : List ContractEvent) (s : System) (address : String) : Prop where
  origins : (rowsOf s.smart_contract address).map (·.origin) =
    (due events s address).map (·.origin)
  stored : ofAddress address (between (·.height) 0 s.migrated (migrations events)) ≠ [] →
    ofAddress address (between (·.height) 0 s.crawled (instantiations events)) ≠ []
  code : ∀ row ∈ latest (rowsOf s.smart_contract address),
    ∀ m ∈ (ofAddress address (between (·.height) 0 s.migrated (migrations events))).getLast?,
      m.codeId? = some row.code_id

theorem complete_crawl (h : History events) (hc : Complete events s address)
    {contracts : List IInstantiateContracts} {contractCw2s : String → Option Cw2}
    {contractInfos : String → Option ContractInfo}
    (hen : Enabled events s (.crawlSmartContract endHeight contracts contractCw2s contractInfos)) :
    Complete events (commit s (.crawlSmartContract endHeight contracts contractCw2s contractInfos))
      address := by
  obtain ⟨hlt, hperm⟩ := hen
  rcases @commit_crawlSmartContract events s endHeight contracts contractCw2s contractInfos hperm with
    hsame | ⟨table', hcommit, hspec⟩
  · rw [hsame]
    exact hc
  rw [hcommit]
  obtain ⟨made, heq, -, horigin⟩ := hspec address
  have hcut := ofAddress_between_append (height_order h (·.isInstantiate)) hlt.le address
  have hone := length_instantiations_le h address endHeight
  rw [instantiations] at hone horigin
  rw [hcut, List.length_append] at hone
  set J := ofAddress address (between (·.height) s.crawled endHeight
    (events.filter (·.isInstantiate))) with hJ
  by_cases hnil : J = []
  · rw [hnil, List.map_nil, List.perm_nil, List.map_eq_nil_iff] at horigin
    rw [hnil, List.append_nil] at hcut
    rw [horigin, List.append_nil] at heq
    refine ⟨?_, ?_, ?_⟩
    · simp only [due, instantiations, hcut, heq]
      exact hc.origins
    · simp only [instantiations, hcut]
      exact hc.stored
    · simp only [heq]
      exact hc.code
  · -- the contract is new, so that it has no row yet
    have hpos := List.length_pos_iff.mpr hnil
    have hI : ofAddress address (between (·.height) 0 s.crawled (instantiations events)) = [] :=
      List.length_eq_zero_iff.mp (by rw [instantiations]; omega)
    have hM : ofAddress address (between (·.height) 0 s.migrated (migrations events)) = [] := by
      by_contra hne
      exact hc.stored hne hI
    have hrows : rowsOf s.smart_contract address = [] := by
      have horigins := hc.origins
      rwa [due, hI, hM, List.append_nil, List.map_nil, List.map_eq_nil_iff] at horigins
    obtain ⟨e, hJe⟩ := List.length_eq_one_iff.mp (by omega : J.length = 1)
    rw [hJe, List.map_singleton, List.perm_singleton] at horigin
    rw [instantiations] at hI
    refine ⟨?_, fun hne => absurd hM hne, fun row _ m hm => ?_⟩
    · simp only [due, instantiations, hcut, heq, hrows, hI, hM, hJe, List.nil_append,
        List.append_nil, horigin, List.map_singleton]
    · simp only [hM, List.getLast?_nil] at hm
      cases hm

theorem complete_migrate (h : History events) (hw : Wf events s) (hc : Complete events s address)
    {resultTx : List AttributeRow} {contractCw2s : String → Option Cw2}
    (hen : Enabled events s (.handleMigrateContract endHeight resultTx contractCw2s))
    (hcond : ∀ e ∈ between (·.height) s.migrated endHeight (migrations events),
      Alone events s endHeight e) :
    Complete events (commit s (.handleMigrateContract endHeight resultTx contractCw2s)) address := by
  obtain ⟨hlt, hperm⟩ := hen
  obtain ⟨table', hcommit, hspec⟩ :=
    @commit_handleMigrateContract events s endHeight h resultTx contractCw2s hperm
  rw [hcommit]
  obtain ⟨old, made, heq, horigin, hnil, hne, hmade⟩ := hspec address
  have hcut := ofAddress_between_append (height_order h (!·.isInstantiate)) hlt.le address
  rw [← migrations] at hcut
  by_cases hK : ofAddress address (between (·.height) s.migrated endHeight (migrations events)) = []
  · obtain ⟨rfl, rfl⟩ := hnil hK
    rw [hK, List.append_nil] at hcut
    rw [List.append_nil] at heq
    refine ⟨?_, ?_, ?_⟩
    · simp only [due, hcut, heq]
      exact hc.origins
    · simp only [hcut]
      exact hc.stored
    · simp only [hcut, heq]
      exact hc.code
  · -- one migration, and one latest row that it replaces
    obtain ⟨e, he⟩ := List.exists_mem_of_ne_nil _ hK
    obtain ⟨hmem, rfl⟩ := mem_ofAddress.mp he
    obtain ⟨hlength, hstored⟩ := hcond e hmem
    obtain ⟨e', hKe⟩ := List.length_eq_one_iff.mp hlength
    obtain rfl : e = e' := by
      rw [hKe] at he
      exact List.mem_singleton.mp he
    have hI := (stored_iff h e.address s.crawled).mp hstored
    have hpos := List.length_pos_iff.mpr hI
    have hone := length_instantiations_le h e.address s.crawled
    obtain ⟨hold, hmadeLength⟩ := hne hK
    rw [(hw e.address).1] at hmadeLength
    obtain ⟨row, rfl⟩ := List.length_eq_one_iff.mp (by omega : made.length = 1)
    obtain ⟨hstatus, e', he', hrow, hcode⟩ := hmade row List.mem_cons_self
    obtain rfl : e' = e := by
      rw [hKe] at he'
      exact List.mem_singleton.mp he'
    rw [hKe] at hcut
    refine ⟨?_, fun _ => hI, fun row' hrow' m hm => ?_⟩
    · have horigins := hc.origins
      rw [due, List.map_append] at horigins
      simp only [due, hcut, heq, List.map_append, horigin, horigins, List.map_singleton, hrow,
        List.append_assoc]
    · simp only [heq, latest_append, hold, List.nil_append] at hrow'
      obtain rfl : row' = row := List.mem_singleton.mp (List.mem_of_mem_filter hrow')
      simp only [hcut, List.getLast?_concat, Option.mem_def, Option.some.injEq] at hm
      rw [← hm]
      exact hcode

theorem complete_step (h : History events) (s : System) (job : Job)
    (hinv : Wf events s ∧ ∀ address, Complete events s address) (hcond : OneMigration events s job) :
    Wf events (step events s job) ∧ ∀ address, Complete events (step events s job) address := by
  refine ⟨wf_step h s job hinv.1, fun address => ?_⟩
  rw [step]
  split
  · next hen =>
    cases job with
    | crawlSmartContract endHeight contracts contractCw2s contractInfos =>
      exact complete_crawl h (hinv.2 address) hen
    | handleMigrateContract endHeight resultTx contractCw2s =>
      exact complete_migrate h hinv.1 (hinv.2 address) hen (hcond hen)
  · exact hinv.2 address

theorem between_zero {es : List ContractEvent} : between (·.height) 0 0 es = [] :=
  between_eq_nil fun _ _ hpos => hpos

theorem inv_init (events : List ContractEvent) :
    Wf events init ∧ NoneLost events init ∧ ∀ address, Complete events init address := by
  have hdue : ∀ address, due events init address = [] := by
    intro address
    simp only [due, init, between_zero]
    rfl
  refine ⟨fun address => ⟨?_, ?_⟩, fun address => ?_, fun address => ⟨?_, fun hne => ?_, ?_⟩⟩
  · simp only [init, between_zero]
    rfl
  · exact Nat.zero_le _
  · rw [hdue]
    rfl
  · rw [hdue]
    rfl
  · simp only [init, between_zero] at hne
    exact absurd rfl hne
  · intro row hrow
    cases hrow

/-- The instantiation of a contract comes before its migrations. -/
theorem due_eq (h : History events) {height : ℕ} (hcrawled : s.crawled = height)
    (hmigrated : s.migrated = height) (address : String) :
    due events s address = ofAddress address (between (·.height) 0 height events) := by
  have hsub : (ofAddress address (between (·.height) 0 height events)).Sublist events :=
    List.filter_sublist.trans between_sublist
  have hsplit : ∀ p : ContractEvent → Bool,
      ofAddress address (between (·.height) 0 height (events.filter p)) =
        (ofAddress address (between (·.height) 0 height events)).filter p := by
    intro p
    rw [← filter_between, ofAddress, List.filter_comm]
    rfl
  rw [due, hcrawled, hmigrated, instantiations, migrations, hsplit, hsplit]
  have hfirst := h.first.sublist hsub
  have haddress : ∀ e ∈ ofAddress address (between (·.height) 0 height events),
      e.address = address := fun e he => (mem_ofAddress.mp he).2
  clear hsplit hsub
  generalize ofAddress address (between (·.height) 0 height events) = es at hfirst haddress
  induction es with
  | nil => rfl
  | cons e es ih =>
    obtain ⟨hhead, htail⟩ := List.pairwise_cons.mp hfirst
    have ih := ih htail fun e' he' => haddress e' (List.mem_cons_of_mem e he')
    cases hinst : e.isInstantiate with
    | true =>
      rw [List.filter_cons_of_pos hinst, List.filter_cons_of_neg (by simp [hinst]),
        List.cons_append, ih]
    | false =>
      have hnil : es.filter (·.isInstantiate) = [] := by
        rw [List.filter_eq_nil_iff]
        intro e' he' hinst'
        exact hhead e' he' ⟨hinst, hinst', (haddress e List.mem_cons_self).trans
          (haddress e' (List.mem_cons_of_mem e he')).symm⟩
      rw [hnil, List.nil_append] at ih
      rw [List.filter_cons_of_neg (by simp [hinst]), List.filter_cons_of_pos (by simp [hinst]), hnil,
        List.nil_append, ih]

end ContractLemmas

/-- When both jobs have reached a height, every contract has one row for its instantiation and one
for each migration, and the last one is the latest, if and only if every range of migrations held
at most one migration of a contract, and only of contracts that were stored before. -/
theorem versions_iff_one_migration {events : List ContractEvent} (h : History events)
    {jobs : List Job} {height : ℕ} (hcrawled : (runFrom (step events) init jobs).crawled = height)
    (hmigrated : (runFrom (step events) init jobs).migrated = height) :
    VersionsOk events height (runFrom (step events) init jobs).smart_contract ↔
      Meets (step events) (OneMigration events) init jobs := by
  obtain ⟨hw, hnone, hcomplete⟩ := inv_init events
  have hiff : NoneLost events (runFrom (step events) init jobs) ↔
      Meets (step events) (OneMigration events) init jobs :=
    runFrom_iff_meets (wf_step h) (noneLost_step_iff h) (noneLost_of_step h) hw hnone
  constructor
  · intro hok
    refine hiff.mp fun address => ?_
    rw [due_eq h hcrawled hmigrated]
    simpa using congrArg List.length (hok address).1
  · intro hmeets address
    obtain ⟨hwf, hall⟩ := hmeets.invariant (complete_step h) ⟨hw, hcomplete⟩
    have hdue := due_eq h hcrawled hmigrated address
    refine ⟨?_, fun hne => ?_, fun row hrow m hm => ?_⟩
    · rw [← hdue]
      exact (hall address).origins
    · -- a contract with an event was instantiated
      rw [(hwf address).1]
      refine le_antisymm (length_instantiations_le h address _) (List.length_pos_iff.mpr fun hI => ?_)
      rw [← hdue, due, hI, List.nil_append] at hne
      exact (hall address).stored hne hI
    · refine (hall address).code row hrow m ?_
      rw [hmigrated]
      exact hm

/-! ## 4. Examples -/

/-- A contract that is instantiated and migrated twice. -/
def twoMigrations : List ContractEvent :=
  [⟨1, 1, "A1", "aura1c", .instantiate⟩, ⟨2, 2, "A2", "aura1c", .migrate 8⟩,
    ⟨3, 3, "A3", "aura1c", .migrate 9⟩]

/-- A range of instantiations of `twoMigrations`, with a node that knows the contract. -/
def crawlTo (startHeight endHeight : ℕ) : Job :=
  .crawlSmartContract endHeight
    ((between (·.height) startHeight endHeight (instantiations twoMigrations)).map (·.instantiated))
    (fun _ => some ⟨"crates.io:cw20-base", none, "1.0.0"⟩) (fun _ => some ⟨7, "aura1creator", "token"⟩)

/-- A range of migrations of `twoMigrations`. -/
def migrateTo (startHeight endHeight : ℕ) : Job :=
  .handleMigrateContract endHeight
    ((between (·.height) startHeight endHeight (migrations twoMigrations)).flatMap (·.attributeRows))
    fun _ => some ⟨"crates.io:cw20-base", none, "1.1.0"⟩

theorem history_twoMigrations : History twoMigrations :=
  ⟨by decide, by decide, by decide, by decide, by decide⟩

theorem versions_iff_one_migration_twoMigrations :
    VersionsOk twoMigrations 3 (runFrom (step twoMigrations) init
      [crawlTo 0 3, migrateTo 0 2, migrateTo 2 3]).smart_contract :=
  (@versions_iff_one_migration twoMigrations history_twoMigrations
    [crawlTo 0 3, migrateTo 0 2, migrateTo 2 3] 3 (by decide +kernel) (by decide +kernel)).mpr
    (by decide +kernel)

/-- Two migrations in one range leave one row for both. And migrations that are read before the
instantiation leave none. -/
theorem migrations_lost :
    ((runFrom (step twoMigrations) init [crawlTo 0 3, migrateTo 0 3]).crawled = 3 ∧
      (runFrom (step twoMigrations) init [crawlTo 0 3, migrateTo 0 3]).migrated = 3 ∧
      (runFrom (step twoMigrations) init [crawlTo 0 3, migrateTo 0 3]).smart_contract.map
          (fun row => (row.origin, row.code_id, row.status)) =
        [(("A1", 1), 7, .migrated), (("A3", 3), 9, .latest)] ∧
      ¬ VersionsOk twoMigrations 3
        (runFrom (step twoMigrations) init [crawlTo 0 3, migrateTo 0 3]).smart_contract) ∧
    ((runFrom (step twoMigrations) init [migrateTo 0 2, crawlTo 0 3, migrateTo 2 3]).crawled = 3 ∧
      (runFrom (step twoMigrations) init [migrateTo 0 2, crawlTo 0 3, migrateTo 2 3]).migrated = 3 ∧
      (runFrom (step twoMigrations) init [migrateTo 0 2, crawlTo 0 3, migrateTo 2 3]).smart_contract.map
          (fun row => (row.origin, row.code_id, row.status)) =
        [(("A1", 1), 7, .migrated), (("A3", 3), 9, .latest)] ∧
      ¬ VersionsOk twoMigrations 3 (runFrom (step twoMigrations) init
        [migrateTo 0 2, crawlTo 0 3, migrateTo 2 3]).smart_contract) := by
  refine ⟨⟨by decide +kernel, by decide +kernel, by decide +kernel, fun h => ?_⟩,
    by decide +kernel, by decide +kernel, by decide +kernel, fun h => ?_⟩
  · have horigins := (h "aura1c").1
    revert horigins
    decide +kernel
  · have horigins := (h "aura1c").1
    revert horigins
    decide +kernel

end Erascope.CrawlCosmwasm
