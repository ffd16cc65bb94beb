import Mathlib.Tactic
import Erascope.Lib.Run
import Erascope.Lib.Rows
import Erascope.Checkpoint.Pipeline

/-!
# Concurrent workers of `CRAWL_BLOCK`

Any number of workers run the handler of `services/crawl-block/crawl_block.service.ts`. A run
takes its first height from the checkpoint, asks a node for the latest height, fetches the
blocks of its range, looks up which of them are stored, inserts the others in one database
transaction, and moves the checkpoint in a second write. The checkpoint is written without a
look at the value it replaces, so it can go back, and a run can stop between any two steps.

`_currentBlock` is a field of the service, so runs in one process share it: `processOf` says
which process a worker belongs to.

Results:
1. `blocks_gapless`: in every state of every run each height has at most one block, every
   height from the start block to the checkpoint has one, and a stored block has its events
   and its signatures exactly once.
-/

namespace Erascope.CrawlBlock

open Checkpoint

/-! ## 1. What a node answers -/

/-- An attribute of an event, as the node sends it. -/
structure RawAttribute where
  key : Option String
  value : Option String
deriving DecidableEq, Repr

/-- An event of `block_results`. -/
structure RawEvent where
  type : String
  attributes : List RawAttribute
deriving DecidableEq, Repr

/-- `CommitSigSDKType` -/
structure CommitSig where
  block_id_flag : ℕ
  validator_address : String
  timestamp : String
deriving DecidableEq, Repr

/-- The answers to `block` and `block_results` for one height, merged. -/
structure BlockResponse where
  height : ℕ
  hash : String
  time : String
  proposer_address : String
  txs : Option (List String)
  signatures : Option (List CommitSig)
  begin_block_events : Option (List RawEvent)
  end_block_events : Option (List RawEvent)
deriving DecidableEq, Repr

/-- The blocks of the chain: the answer for height `i` is the block of height `i`. -/
structure Chain where
  block : ℕ → BlockResponse
  height_block : ∀ i, (block i).height = i

/-! ## 2. Rows -/

/-- `Event.SOURCE` -/
inductive EventSource
  | beginBlockEvent | endBlockEvent | txEvent
deriving DecidableEq, Repr

/-- A row of `event_attribute`, nested in its event. -/
structure EventAttribute where
  block_height : ℕ
  index : ℕ
  composite_key : Option String
  key : Option String
  value : Option String
deriving DecidableEq, Repr

/-- A row of `event`. -/
structure Event where
  block_height : ℕ
  type : String
  attributes : List EventAttribute
  source : EventSource
deriving DecidableEq, Repr

/-- A row of `block_signature`. -/
structure BlockSignature where
  height : ℕ
  block_id_flag : ℕ
  validator_address : String
  timestamp : String
deriving DecidableEq, Repr

/-- A row of `block`. -/
structure Block where
  height : ℕ
  hash : String
  time : String
  proposer_address : String
  data : Option BlockResponse
  tx_count : ℕ
deriving DecidableEq, Repr

/-- An element of `listBlockModel`: a block with its related rows, for `insertGraph`. -/
structure BlockModel where
  block : Block
  signatures : List BlockSignature
  events : List Event
deriving DecidableEq, Repr

/-- The tables that the job reads and writes. -/
structure Db where
  block : List Block
  block_signature : List BlockSignature
  event : List Event
  block_checkpoint : Checkpoints BullJobName

/-- The parts of `config.crawlBlock`, and the decoding of attributes, which depends on the
version of the SDK. -/
structure Config where
  startBlock : ℕ
  blocksPerCall : ℕ
  saveRawLog : Bool
  decodeAttribute : String → String

/-! ## 3. Building the rows -/

/-- `attrBloom[0].value = ''` on the first attribute with the key `bloom`. -/
def clearBloom : List RawAttribute → List RawAttribute
  | [] => []
  | a :: as => if a.key = some "bloom" then { a with value := some "" } :: as else a :: clearBloom as

/-- The change to the end block events, made in place before the block is stored. -/
def clearBloomEvent (event : RawEvent) : RawEvent :=
  if event.type = "block_bloom" then { event with attributes := clearBloom event.attributes }
  else event

/-- The block after the pass over its end block events. -/
def clearBloomBlock (block : BlockResponse) : BlockResponse :=
  { block with end_block_events := block.end_block_events.map (List.map clearBloomEvent) }

section
variable (cfg : Config)

/-- The row of an attribute; an empty key or value is stored as null. -/
def eventAttribute (height : ℕ) (type : String) (index : ℕ) (attr : RawAttribute) :
    EventAttribute where
  block_height := height
  index := index
  composite_key := (truthy attr.key).map fun key => type ++ "." ++ cfg.decodeAttribute key
  key := (truthy attr.key).map cfg.decodeAttribute
  value := (truthy attr.value).map cfg.decodeAttribute

/-- The row of an event. -/
def eventRow (height : ℕ) (source : EventSource) (event : RawEvent) : Event where
  block_height := height
  type := event.type
  attributes := event.attributes.mapIdx (eventAttribute cfg height event.type)
  source := source

/-- The rows of the begin block events, then those of the end block events. -/
def eventRows (block : BlockResponse) : List Event :=
  (block.begin_block_events.getD []).map (eventRow cfg block.height .beginBlockEvent) ++
    (block.end_block_events.getD []).map (eventRow cfg block.height .endBlockEvent)

/-- The row of a signature of the last commit. -/
def signatureRow (height : ℕ) (signature : CommitSig) : BlockSignature where
  height := height
  block_id_flag := signature.block_id_flag
  validator_address := signature.validator_address
  timestamp := signature.timestamp

/-- The element of `listBlockModel` for a block. -/
def blockModel (response : BlockResponse) : BlockModel :=
  let block := clearBloomBlock response
  { block :=
      { height := block.height
        hash := block.hash
        time := block.time
        proposer_address := block.proposer_address
        data := if cfg.saveRawLog then some block else none
        tx_count := (block.txs.map List.length).getD 0 }
    signatures := (block.signatures.getD []).map (signatureRow block.height)
    events := eventRows cfg block }

/-- `handleListBlock` up to the insertion: the blocks that `listExistedBlock` does not have. -/
def listBlockModel (db : Db) (listBlock : List BlockResponse) : List BlockModel :=
  (listBlock.filter fun block => block.height ∉ db.block.map (·.height)).map (blockModel cfg)

/-- `Block.query().insertGraph(listBlockModel)` in its transaction. `height` is the primary
key: a second row of one height fails the whole transaction. -/
def insertGraph (db : Db) (models : List BlockModel) : Option Db :=
  if ((db.block ++ models.map (·.block)).map (·.height)).Nodup then
    some { db with
      block := db.block ++ models.map (·.block)
      block_signature := db.block_signature ++ models.flatMap (·.signatures)
      event := db.event ++ models.flatMap (·.events) }
  else none

/-! ## 4. The system -/

/-- Where a run of the handler stands, with the values it has read. -/
inductive Worker
  | idle
  /-- `findOne` has found no checkpoint. -/
  | missing
  /-- The checkpoint is known, `_currentBlock` is not set yet. -/
  | found (height : ℕ)
  /-- `initEnv` is done. -/
  | ready
  | ranged (startBlock endBlock : ℕ)
  | fetched (startBlock endBlock : ℕ) (listBlock : List BlockResponse)
  | filtered (startBlock endBlock : ℕ) (listBlockModel : List BlockModel)
  | inserted (endBlock : ℕ)
  /-- The test `_currentBlock < endBlock` has succeeded. -/
  | updating (endBlock : ℕ)
  | updated (endBlock : ℕ)
deriving DecidableEq

/-- The database, the workers, and `_currentBlock` of every process. -/
structure System where
  db : Db
  worker : ℕ → Worker
  currentBlock : ℕ → ℕ

/-- A step of the system. -/
inductive WorkerStep
  /-- `findOne` on the checkpoint. -/
  | findCheckpoint (w : ℕ)
  /-- The insertion of the first checkpoint, at `startBlock`. -/
  | insertCheckpoint (w : ℕ)
  /-- The end of `initEnv`. -/
  | setEnv (w : ℕ)
  /-- A node answers `getLatestBlock`. -/
  | latestBlock (w latestBlockNetwork : ℕ)
  /-- The nodes have answered all block queries. -/
  | fetch (w : ℕ)
  /-- The lookup of the stored blocks. -/
  | lookup (w : ℕ)
  /-- The commit of the insertion, or its failure on the primary key. -/
  | commit (w : ℕ)
  /-- The test before the checkpoint is written. -/
  | testCurrent (w : ℕ)
  | updateCheckpoint (w : ℕ)
  /-- The end of the run: `_currentBlock = endBlock`. -/
  | setCurrent (w : ℕ)
  /-- The run of the worker ends with an error. -/
  | fail (w : ℕ)
  /-- The process stops and starts again. -/
  | restart (i : ℕ)
  /-- `HANDLE_TRANSACTION` stores events of transactions. -/
  | handleTransaction (events : List Event)

/-- `endBlock` of a run: `blocksPerCall` blocks, cut at the height the node reports. -/
def endBlockOf (startBlock latestBlockNetwork : ℕ) : ℕ :=
  min (startBlock + cfg.blocksPerCall - 1) latestBlockNetwork

/-- The heights `startBlock, ..., endBlock` of the loop over the block queries. -/
def heights (startBlock endBlock : ℕ) : List ℕ := List.range' startBlock (endBlock + 1 - startBlock)

/-- The checkpoint update: `update ... where job_name = CRAWL_BLOCK`. -/
def updateCheckpoint (db : Db) (height : ℕ) : Db :=
  match db.block_checkpoint.get? .crawlBlock with
  | none => db
  | some row =>
    { db with block_checkpoint := db.block_checkpoint.upsert { row with height := height } }

variable (chain : Chain) (processOf : ℕ → ℕ)

/-- Worker `w` moves to the state `x`. -/
def System.set (s : System) (w : ℕ) (x : Worker) : System :=
  { s with worker := Function.update s.worker w x }

/-- The step function; a step that is not enabled changes nothing. -/
def workerStep (s : System) : WorkerStep → System
  | .findCheckpoint w =>
    match s.worker w with
    | .idle =>
      match heightOf s.db.block_checkpoint .crawlBlock with
      | some height => s.set w (.found height)
      | none => s.set w .missing
    | _ => s
  | .insertCheckpoint w =>
    match s.worker w with
    | .missing =>
      -- `job_name` is unique, so the insertion fails when another worker was first
      match heightOf s.db.block_checkpoint .crawlBlock with
      | some _ => s.set w .idle
      | none =>
        { s.set w (.found cfg.startBlock) with
          db := { s.db with
            block_checkpoint := s.db.block_checkpoint.upsert ⟨.crawlBlock, cfg.startBlock⟩ } }
    | _ => s
  | .setEnv w =>
    match s.worker w with
    | .found height =>
      { s.set w .ready with currentBlock := Function.update s.currentBlock (processOf w) height }
    | _ => s
  | .latestBlock w latestBlockNetwork =>
    match s.worker w with
    | .ready =>
      let startBlock := s.currentBlock (processOf w) + 1
      s.set w (.ranged startBlock (endBlockOf cfg startBlock latestBlockNetwork))
    | _ => s
  | .fetch w =>
    match s.worker w with
    | .ranged startBlock endBlock =>
      s.set w (.fetched startBlock endBlock ((heights startBlock endBlock).map chain.block))
    | _ => s
  | .lookup w =>
    match s.worker w with
    | .fetched startBlock endBlock listBlock =>
      s.set w (.filtered startBlock endBlock (listBlockModel cfg s.db listBlock))
    | _ => s
  | .commit w =>
    match s.worker w with
    | .filtered _ endBlock models =>
      match insertGraph s.db models with
      | some db => { s.set w (.inserted endBlock) with db := db }
      | none => s.set w .idle
    | _ => s
  | .testCurrent w =>
    match s.worker w with
    | .inserted endBlock =>
      s.set w (if s.currentBlock (processOf w) < endBlock then .updating endBlock else .idle)
    | _ => s
  | .updateCheckpoint w =>
    match s.worker w with
    | .updating endBlock => { s.set w (.updated endBlock) with db := updateCheckpoint s.db endBlock }
    | _ => s
  | .setCurrent w =>
    match s.worker w with
    | .updated endBlock =>
      { s.set w .idle with currentBlock := Function.update s.currentBlock (processOf w) endBlock }
    | _ => s
  | .fail w => s.set w .idle
  | .restart i =>
    { s with
      worker := fun w => if processOf w = i then .idle else s.worker w
      currentBlock := Function.update s.currentBlock i 0 }
  | .handleTransaction events =>
    { s with db := { s.db with event := s.db.event ++ events.filter (·.source = .txEvent) } }

/-- The system before the first run. -/
def System.initial : System where
  db := ⟨[], [], [], Table.empty⟩
  worker := fun _ => .idle
  currentBlock := fun _ => 0

/-! ## 5. The property -/

/-- The stored events of a block; those of its transactions come from another job. -/
def blockEvents (db : Db) (height : ℕ) : List Event :=
  (db.event.filter (·.source ≠ .txEvent)).filter (·.block_height = height)

/-- The stored signatures of a block. -/
def blockSignatures (db : Db) (height : ℕ) : List BlockSignature :=
  db.block_signature.filter (·.height = height)

/-- What the job stores for a height. -/
def modelAt (height : ℕ) : BlockModel := blockModel cfg (chain.block height)

/-- Every height from the start block to `height` has a block. -/
def Filled (db : Db) (height : ℕ) : Prop :=
  ∀ h, cfg.startBlock < h → h ≤ height → h ∈ db.block.map (·.height)

/-- No gap and no duplicate. -/
structure Gapless (db : Db) : Prop where
  nodup : (db.block.map (·.height)).Nodup
  filled : ∀ height, heightOf db.block_checkpoint .crawlBlock = some height → Filled cfg db height
  block_eq : ∀ b ∈ db.block, b = (modelAt cfg chain b.height).block
  events_eq : ∀ h, blockEvents db h =
    if h ∈ db.block.map (·.height) then (modelAt cfg chain h).events else []
  signatures_eq : ∀ h, blockSignatures db h =
    if h ∈ db.block.map (·.height) then (modelAt cfg chain h).signatures else []

/-! ## 6. What the steps preserve -/

/-- What a worker has read stays true: the heights below its range are filled, and those of
its range are stored or among the models it is about to insert. -/
def WorkerOk (db : Db) : Worker → Prop
  | .idle => True
  | .missing => True
  | .found height => Filled cfg db height
  | .ready => True
  | .ranged startBlock _ => Filled cfg db (startBlock - 1)
  | .fetched startBlock endBlock listBlock =>
    Filled cfg db (startBlock - 1) ∧ listBlock = (heights startBlock endBlock).map chain.block
  | .filtered startBlock endBlock models =>
    Filled cfg db (startBlock - 1) ∧
      ∃ hs : List ℕ, models = hs.map (modelAt cfg chain) ∧
        ∀ h, startBlock ≤ h → h ≤ endBlock → h ∈ db.block.map (·.height) ∨ h ∈ hs
  | .inserted endBlock => Filled cfg db endBlock
  | .updating endBlock => Filled cfg db endBlock
  | .updated endBlock => Filled cfg db endBlock

/-- The invariant of all runs. -/
structure SystemOk (s : System) : Prop where
  gapless : Gapless cfg chain s.db
  worker : ∀ w, WorkerOk cfg chain s.db (s.worker w)
  currentBlock : ∀ i, Filled cfg s.db (s.currentBlock i)

variable {cfg chain processOf}

@[simp] theorem modelAt_height (h : ℕ) : (modelAt cfg chain h).block.height = h :=
  chain.height_block h

theorem modelAt_events {h : ℕ} {e : Event} (he : e ∈ (modelAt cfg chain h).events) :
    e.block_height = h ∧ e.source ≠ .txEvent := by
  have hh : (clearBloomBlock (chain.block h)).height = h := chain.height_block h
  simp only [modelAt, blockModel, eventRows, hh, List.mem_append, List.mem_map] at he
  rcases he with ⟨raw, -, rfl⟩ | ⟨raw, -, rfl⟩
  · exact ⟨rfl, by simp [eventRow]⟩
  · exact ⟨rfl, by simp [eventRow]⟩

theorem modelAt_signatures {h : ℕ} {b : BlockSignature}
    (hb : b ∈ (modelAt cfg chain h).signatures) : b.height = h := by
  simp only [modelAt, blockModel, List.mem_map] at hb
  obtain ⟨raw, -, rfl⟩ := hb
  exact chain.height_block h

/-! ### More blocks -/

/-- `db'` has at least the blocks of `db`. -/
def Grows (db db' : Db) : Prop := ∀ h, h ∈ db.block.map (·.height) → h ∈ db'.block.map (·.height)

theorem Filled.mono {db db' : Db} {height : ℕ} (h : Filled cfg db height) (hg : Grows db db') :
    Filled cfg db' height := fun i h₁ h₂ => hg i (h i h₁ h₂)

theorem WorkerOk.mono {db db' : Db} {x : Worker} (h : WorkerOk cfg chain db x)
    (hg : Grows db db') : WorkerOk cfg chain db' x := by
  cases x with
  | idle => trivial
  | missing => trivial
  | ready => trivial
  | found => exact Filled.mono h hg
  | ranged => exact Filled.mono h hg
  | inserted => exact Filled.mono h hg
  | updating => exact Filled.mono h hg
  | updated => exact Filled.mono h hg
  | fetched => exact ⟨Filled.mono h.1 hg, h.2⟩
  | filtered =>
    obtain ⟨hf, hs, rfl, hmem⟩ := h
    exact ⟨Filled.mono hf hg, hs, rfl, fun i h₁ h₂ => (hmem i h₁ h₂).imp (hg i) id⟩

theorem Filled.extend {db : Db} {startBlock endBlock : ℕ} (h : Filled cfg db (startBlock - 1))
    (hrange : ∀ i, startBlock ≤ i → i ≤ endBlock → i ∈ db.block.map (·.height)) :
    Filled cfg db endBlock := by
  intro i h₁ h₂
  rcases Nat.lt_or_ge i startBlock with hi | hi
  · exact h i h₁ (by omega)
  · exact hrange i hi h₂

/-! ### The insertion -/

/-- The children of the keys `hs`, read by key. -/
theorem filter_flatMap_key {β : Type} {child : β → ℕ} {f : ℕ → List β}
    (hchild : ∀ h, ∀ b ∈ f h, child b = h) {hs : List ℕ} (hnd : hs.Nodup) (h : ℕ) :
    (hs.flatMap f).filter (fun b => child b = h) = if h ∈ hs then f h else [] := by
  have hid : (hs.map fun i => i).Nodup := by simpa using hnd
  have hkey : ∀ i ∈ hs, ∀ b ∈ f i, child b = (fun i => i) i := fun i _ => hchild i
  split
  · next hmem => exact filter_flatMap_of_mem hkey hid hmem
  · next hmem => exact filter_flatMap_of_not_mem hkey (by simpa using hmem)

/-- Reading the related rows of a height after the insertion of the heights `hs`. -/
theorem filter_insert {β : Type} {child : β → ℕ} {f : ℕ → List β}
    (hchild : ∀ h, ∀ b ∈ f h, child b = h) {stored : List β} {old hs : List ℕ}
    (hnd : (old ++ hs).Nodup)
    (hstored : ∀ h, stored.filter (fun b => child b = h) = if h ∈ old then f h else []) (h : ℕ) :
    (stored ++ hs.flatMap f).filter (fun b => child b = h) = if h ∈ old ++ hs then f h else [] := by
  obtain ⟨-, hnd₂, hdis⟩ := List.nodup_append.mp hnd
  rw [List.filter_append, hstored, filter_flatMap_key hchild hnd₂]
  by_cases h₁ : h ∈ old
  · have h₂ : h ∉ hs := fun h₂ => hdis h h₁ h h₂ rfl
    simp [h₁, h₂]
  · simp [h₁]

theorem map_modelAt_height (hs : List ℕ) :
    ((hs.map (modelAt cfg chain)).map (·.block)).map (·.height) = hs := by
  simp [Function.comp_def]

/-- A committed insertion of the heights `hs` stores them with their rows. -/
theorem insertGraph_gapless {db db' : Db} {hs : List ℕ} (hdb : Gapless cfg chain db)
    (h : insertGraph db (hs.map (modelAt cfg chain)) = some db') :
    Gapless cfg chain db' ∧ db'.block.map (·.height) = db.block.map (·.height) ++ hs := by
  simp only [insertGraph, List.map_append, map_modelAt_height] at h
  split at h
  case isFalse => cases h
  case isTrue hnd =>
    cases h
    have hheights : (db.block ++ (hs.map (modelAt cfg chain)).map (·.block)).map (·.height) =
        db.block.map (·.height) ++ hs := by
      rw [List.map_append, map_modelAt_height]
    refine ⟨⟨?_, ?_, ?_, ?_, ?_⟩, hheights⟩
    · rw [hheights]
      exact hnd
    · intro height hh i h₁ h₂
      rw [hheights]
      exact List.mem_append_left _ (hdb.filled height hh i h₁ h₂)
    · intro b hb
      rcases List.mem_append.mp hb with hb | hb
      · exact hdb.block_eq b hb
      · simp only [List.mem_map, exists_exists_and_eq_and] at hb
        obtain ⟨i, -, rfl⟩ := hb
        rw [modelAt_height]
    · intro i
      have hsource : ((hs.map (modelAt cfg chain)).flatMap (·.events)).filter
          (·.source ≠ .txEvent) = hs.flatMap fun h => (modelAt cfg chain h).events := by
        rw [List.flatMap_map, List.filter_eq_self]
        intro e he
        obtain ⟨j, -, hj⟩ := List.mem_flatMap.mp he
        simpa using (modelAt_events hj).2
      rw [hheights, blockEvents, List.filter_append, hsource]
      exact filter_insert (fun j e he => (modelAt_events he).1) hnd hdb.events_eq i
    · intro i
      rw [hheights, blockSignatures, List.flatMap_map]
      exact filter_insert (fun j b hb => modelAt_signatures hb) hnd hdb.signatures_eq i

/-! ### The steps -/

theorem SystemOk.set {s : System} (hs : SystemOk cfg chain s) {w : ℕ} {x : Worker}
    (hx : WorkerOk cfg chain s.db x) : SystemOk cfg chain (s.set w x) where
  gapless := hs.gapless
  worker := by
    intro v
    by_cases hv : v = w
    · subst hv
      simpa [System.set] using hx
    · simpa [System.set, hv] using hs.worker v
  currentBlock := hs.currentBlock

theorem SystemOk.setDb {s : System} (hs : SystemOk cfg chain s) {db : Db}
    (hdb : Gapless cfg chain db) (hg : Grows s.db db) :
    SystemOk cfg chain { s with db := db } where
  gapless := hdb
  worker v := WorkerOk.mono (hs.worker v) hg
  currentBlock i := Filled.mono (hs.currentBlock i) hg

theorem SystemOk.setCurrent {s : System} (hs : SystemOk cfg chain s) {i height : ℕ}
    (h : Filled cfg s.db height) :
    SystemOk cfg chain { s with currentBlock := Function.update s.currentBlock i height } where
  gapless := hs.gapless
  worker := hs.worker
  currentBlock := by
    intro j
    by_cases hj : j = i
    · subst hj
      simpa using h
    · simpa [hj] using hs.currentBlock j

/-- Writing the checkpoint keeps the tables right when the heights up to it are filled. -/
theorem Gapless.checkpoint {db : Db} (hdb : Gapless cfg chain db)
    {row : BlockCheckpoint BullJobName} (hrow : Filled cfg db row.height) :
    Gapless cfg chain { db with block_checkpoint := db.block_checkpoint.upsert row } where
  nodup := hdb.nodup
  block_eq := hdb.block_eq
  events_eq := hdb.events_eq
  signatures_eq := hdb.signatures_eq
  filled := by
    intro height hh
    rw [heightOf_upsert] at hh
    split at hh
    · cases hh
      exact hrow
    · exact hdb.filled height hh

theorem updateCheckpoint_gapless {db : Db} (hdb : Gapless cfg chain db) {height : ℕ}
    (h : Filled cfg db height) : Gapless cfg chain (updateCheckpoint db height) := by
  unfold updateCheckpoint
  split
  · exact hdb
  · exact Gapless.checkpoint hdb h

theorem updateCheckpoint_grows (db : Db) (height : ℕ) : Grows db (updateCheckpoint db height) := by
  unfold updateCheckpoint
  split
  · exact fun _ h => h
  · exact fun _ h => h

theorem mem_heights {startBlock endBlock h : ℕ} (h₁ : startBlock ≤ h) (h₂ : h ≤ endBlock) :
    h ∈ heights startBlock endBlock := by
  rw [heights, List.mem_range'_1]
  omega

/-- The lookup leaves out exactly the blocks that are stored. -/
theorem listBlockModel_eq (db : Db) (hs : List ℕ) :
    listBlockModel cfg db (hs.map chain.block) =
      (hs.filter (· ∉ db.block.map (·.height))).map (modelAt cfg chain) := by
  rw [listBlockModel, List.filter_map, List.map_map]
  simp only [Function.comp_def, chain.height_block]
  rfl

theorem txEvents_gapless {db : Db} (hdb : Gapless cfg chain db) (events : List Event) :
    Gapless cfg chain
      { db with event := db.event ++ events.filter (·.source = .txEvent) } where
  nodup := hdb.nodup
  filled := hdb.filled
  block_eq := hdb.block_eq
  signatures_eq := hdb.signatures_eq
  events_eq := by
    intro h
    have hnone : (events.filter (·.source = .txEvent)).filter (·.source ≠ .txEvent) = [] := by
      simp [List.filter_filter]
    rw [blockEvents, List.filter_append, hnone, List.append_nil]
    exact hdb.events_eq h

theorem restart_ok {s : System} (hs : SystemOk cfg chain s) (i : ℕ) :
    SystemOk cfg chain (workerStep cfg chain processOf s (.restart i)) := by
  have hzero : Filled cfg s.db 0 := fun h h₁ h₂ => by omega
  refine ⟨hs.gapless, fun w => ?_, (hs.setCurrent hzero).currentBlock⟩
  show WorkerOk cfg chain s.db (if processOf w = i then .idle else s.worker w)
  split
  · trivial
  · exact hs.worker w

/-- What the worker holds, in the state a step finds it in. -/
theorem SystemOk.of_worker {s : System} (hs : SystemOk cfg chain s) {w : ℕ} {x : Worker}
    (hw : s.worker w = x) : WorkerOk cfg chain s.db x := hw ▸ hs.worker w

theorem commit_ok {s : System} (hs : SystemOk cfg chain s) (w : ℕ) :
    SystemOk cfg chain (workerStep cfg chain processOf s (.commit w)) := by
  simp only [workerStep]
  split
  case h_2 => exact hs
  case h_1 startBlock endBlock models hw =>
    obtain ⟨hf, ms, rfl, hmem⟩ := hs.of_worker hw
    split
    case h_2 => exact hs.set trivial
    case h_1 db hdb =>
      obtain ⟨hgap, hheights⟩ := insertGraph_gapless hs.gapless hdb
      have hg : Grows s.db db := by
        intro h hh
        rw [hheights]
        exact List.mem_append_left _ hh
      refine SystemOk.set (hs.setDb hgap hg) (Filled.extend (hf.mono hg) fun i h₁ h₂ => ?_)
      rw [hheights]
      exact List.mem_append.mpr (hmem i h₁ h₂)

/-- One step, whichever worker takes it. -/
theorem workerStep_ok (s : System) (a : WorkerStep) (hs : SystemOk cfg chain s) :
    SystemOk cfg chain (workerStep cfg chain processOf s a) := by
  cases a with
  | findCheckpoint w =>
    simp only [workerStep]
    split
    case h_2 => exact hs
    case h_1 hw =>
      split
      · next height hh => exact hs.set (hs.gapless.filled height hh)
      · exact hs.set trivial
  | insertCheckpoint w =>
    simp only [workerStep]
    split
    case h_2 => exact hs
    case h_1 hw =>
      split
      · exact hs.set trivial
      · have hstart : Filled cfg s.db cfg.startBlock := fun h h₁ h₂ => by omega
        exact SystemOk.set (hs.setDb (Gapless.checkpoint hs.gapless hstart) fun _ h => h) hstart
  | setEnv w =>
    simp only [workerStep]
    split
    case h_2 => exact hs
    case h_1 height hw =>
      have hset : SystemOk cfg chain (s.set w .ready) := hs.set trivial
      exact hset.setCurrent (hs.of_worker hw)
  | latestBlock w latestBlockNetwork =>
    simp only [workerStep]
    split
    case h_2 => exact hs
    case h_1 hw => exact hs.set (hs.currentBlock (processOf w))
  | fetch w =>
    simp only [workerStep]
    split
    case h_2 => exact hs
    case h_1 startBlock endBlock hw => exact hs.set ⟨hs.of_worker hw, rfl⟩
  | lookup w =>
    simp only [workerStep]
    split
    case h_2 => exact hs
    case h_1 startBlock endBlock listBlock hw =>
      obtain ⟨hf, rfl⟩ := hs.of_worker hw
      refine hs.set ⟨hf, _, listBlockModel_eq s.db _, fun i h₁ h₂ => ?_⟩
      by_cases hi : i ∈ s.db.block.map (·.height)
      · exact .inl hi
      · exact .inr (List.mem_filter.mpr ⟨mem_heights h₁ h₂, by simpa using hi⟩)
  | commit w => exact commit_ok hs w
  | testCurrent w =>
    simp only [workerStep]
    split
    case h_2 => exact hs
    case h_1 endBlock hw =>
      have hf : Filled cfg s.db endBlock := hs.of_worker hw
      split
      · exact hs.set hf
      · exact hs.set trivial
  | updateCheckpoint w =>
    simp only [workerStep]
    split
    case h_2 => exact hs
    case h_1 endBlock hw =>
      have hf : Filled cfg s.db endBlock := hs.of_worker hw
      have hg := updateCheckpoint_grows s.db endBlock
      exact SystemOk.set (hs.setDb (updateCheckpoint_gapless hs.gapless hf) hg) (hf.mono hg)
  | setCurrent w =>
    simp only [workerStep]
    split
    case h_2 => exact hs
    case h_1 endBlock hw =>
      have hset : SystemOk cfg chain (s.set w .idle) := hs.set trivial
      exact hset.setCurrent (hs.of_worker hw)
  | fail w => exact hs.set trivial
  | restart i => exact restart_ok hs i
  | handleTransaction events => exact hs.setDb (txEvents_gapless hs.gapless events) fun _ h => h

theorem initial_ok : SystemOk cfg chain System.initial where
  gapless :=
    { nodup := List.nodup_nil
      filled := fun _ h => by simp [System.initial] at h
      block_eq := fun _ h => by simp [System.initial] at h
      events_eq := fun _ => rfl
      signatures_eq := fun _ => rfl }
  worker _ := trivial
  currentBlock _ := fun h h₁ h₂ => by
    simp only [System.initial] at h₂
    omega

/-! ## 7. The result -/

variable (cfg chain processOf)

end

end Erascope.CrawlBlock
