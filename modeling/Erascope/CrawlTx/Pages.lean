import Mathlib.Tactic
import Erascope.Lib.Run
import Erascope.Lib.Rows
import Erascope.Lib.Fold
import Erascope.Checkpoint.Pipeline

/-!
# The transactions of a block

The model of `jobCrawlTx` in `services/crawl-tx/crawl_tx.service.ts`. A run asks a node for the
transactions of every block of its range, page by page, puts the pages of a block together
again and compares their number with `tx_count`. It leaves out the transactions whose hash is
stored already, and inserts the others together with the new checkpoint.

The lookup by hash knows nothing of heights. A transaction that is included in two blocks has
one hash, so it is stored twice when both blocks are in one range and once when they are not.

Results:
1. `flatMap_page`: the pages of a list, whatever their size, give the list back.
2. `stored_once_iff`: in the runs of a single worker, every block up to the checkpoint has its
   transactions exactly once, in every state, if and only if no range holds a transaction
   with the hash of a stored one; and a run that receives a wrong number of transactions
   changes nothing.
3. `repeated_hash_lost`: a transaction of two blocks in two ranges is stored once.
-/

namespace Erascope.CrawlTx.Pages

open Checkpoint

/-! ## 1. Rows -/

/-- A transaction as `tx_search` returns it; `tx` holds its bytes. -/
structure RawTx where
  hash : String
  index : ℕ
  tx : String
  codespace : Option String
  code : Option ℕ
  gas_wanted : Option String
  gas_used : Option String
deriving DecidableEq, Repr

/-- The parts of the decoded bytes that the job stores. -/
structure DecodedTx where
  gas_limit : Option String
  fee : String
  memo : String
deriving DecidableEq, Repr

/-- `parsedTx` -/
structure ParsedTx where
  tx : DecodedTx
  tx_response : RawTx
  timestamp : String
deriving DecidableEq, Repr

/-- A row of `transaction`; the key on `hash` was dropped. Row ids are fresh and nothing reads
them here. -/
structure Transaction where
  index : ℕ
  height : ℕ
  hash : String
  codespace : String
  code : ℕ
  gas_used : String
  gas_wanted : String
  gas_limit : String
  fee : String
  timestamp : String
  data : Option ParsedTx
  memo : String
deriving DecidableEq, Repr

/-- The columns of `block` that the job reads. -/
structure Block where
  height : ℕ
  time : String
  tx_count : ℕ
deriving DecidableEq, Repr

/-- The blocks of the chain. -/
structure Chain where
  time : ℕ → String
  txs : ℕ → List RawTx

/-- `CRAWL_BLOCK` stores the length of `block.data.txs` as `tx_count`. -/
def Chain.block (chain : Chain) (height : ℕ) : Block :=
  ⟨height, chain.time height, (chain.txs height).length⟩

/-- `config.crawlBlock.startBlock`, `config.handleTransaction` and `decodeTxRaw`, which throws
on bytes that are no transaction. -/
structure Config where
  startBlock : ℕ
  txsPerCall : ℕ
  saveRawLog : Bool
  decodeTxRaw : String → Option DecodedTx
  txsPerCall_pos : 0 < txsPerCall

/-- The tables that the job writes. -/
structure Db where
  transaction : List Transaction
  block_checkpoint : Checkpoints BullJobName

/-- What ends a run. -/
inductive CrawlTxError
  /-- `Error in block ...: ... txs found, ... txs expected` -/
  | txCount (height found expected : ℕ)
  | decode (hash : String)
deriving DecidableEq, Repr

/-- The text of the error of `getListRawTx`. -/
def CrawlTxError.text : CrawlTxError → Option String
  | .txCount height found expected =>
    some s!"Error in block {height}: {found} txs found, {expected} txs expected"
  | .decode _ => none

/-! ## 2. `getListRawTx` -/

/-- `Math.ceil(tx_count / txsPerCall)` -/
def totalPages (txCount txsPerCall : ℕ) : ℕ := (txCount + txsPerCall - 1) / txsPerCall

/-- Page `i + 1` of a list. -/
def page {α : Type} (perPage : ℕ) (l : List α) (i : ℕ) : List α := (l.drop (i * perPage)).take perPage

/-- The answers of the nodes in one run: `answers height i` is what page `i + 1` of the
transactions of `height` brings. -/
abbrev Answers := ℕ → ℕ → List RawTx

/-- The blocks of a range, in order of height. -/
def blocks (chain : Chain) (startBlock endBlock : ℕ) : List Block :=
  (List.range' (startBlock + 1) (endBlock - startBlock)).map chain.block

section
variable (cfg : Config) (chain : Chain)

/-- `resultPromises`: the answers to all requests, with the height of each. -/
def resultPromises (answers : Answers) (blocks : List Block) : List (ℕ × List RawTx) :=
  blocks.flatMap fun block =>
    if 0 < block.tx_count then
      (List.range (totalPages block.tx_count cfg.txsPerCall)).map fun i =>
        (block.height, answers block.height i)
    else []

/-- `listTxs` of a block. -/
def listTxs (results : List (ℕ × List RawTx)) (block : Block) : List RawTx :=
  (results.filter fun result => result.1 = block.height).flatMap (·.2)

/-- An element of `listRawTxs`. -/
structure RawBlock where
  txs : List RawTx
  height : ℕ
  timestamp : String
deriving DecidableEq, Repr

/-- The second loop of `getListRawTx` on one block. -/
def rawBlock (results : List (ℕ × List RawTx)) (block : Block) :
    Except CrawlTxError (List RawBlock) :=
  if 0 < block.tx_count then
    let txs := listTxs results block
    if txs.length ≠ block.tx_count then
      .error (.txCount block.height txs.length block.tx_count)
    else .ok [⟨txs, block.height, block.time⟩]
  else .ok []

def getListRawTx (answers : Answers) (startBlock endBlock : ℕ) :
    Except CrawlTxError (List RawBlock) := do
  let blocks := blocks chain startBlock endBlock
  let rawBlocks ← blocks.mapM (rawBlock (resultPromises cfg answers blocks))
  return rawBlocks.flatten

/-! ## 3. `decodeListRawTx` and `insertTxDecoded` -/

/-- The transaction in the format of the LCD. -/
def parseTx (timestamp : String) (tx : RawTx) : Except CrawlTxError ParsedTx :=
  match cfg.decodeTxRaw tx.tx with
  | none => .error (.decode tx.hash)
  | some decoded => .ok ⟨decoded, tx, timestamp⟩

/-- `decodeListRawTx` on one block: transactions with a stored hash are left out. -/
def decodeBlock (db : Db) (block : RawBlock) : Except CrawlTxError (ℕ × String × List ParsedTx) := do
  let listHandleTx ← (block.txs.filter fun tx => tx.hash ∉ db.transaction.map (·.hash)).mapM
    (parseTx cfg block.timestamp)
  return (block.height, block.timestamp, listHandleTx)

def decodeListRawTx (db : Db) (listRawTx : List RawBlock) :
    Except CrawlTxError (List (ℕ × String × List ParsedTx)) :=
  listRawTx.mapM (decodeBlock cfg db)

/-- `txInsert` -/
def txInsert (height : ℕ) (timestamp : String) (tx : ParsedTx) : Transaction where
  index := tx.tx_response.index
  height := height
  hash := tx.tx_response.hash
  codespace := tx.tx_response.codespace.getD ""
  code := tx.tx_response.code.getD 0
  gas_used := tx.tx_response.gas_used.getD "0"
  gas_wanted := tx.tx_response.gas_wanted.getD "0"
  gas_limit := tx.tx.gas_limit.getD "0"
  fee := tx.tx.fee
  timestamp := timestamp
  data := if cfg.saveRawLog then some tx else none
  memo := tx.tx.memo

/-- `listTxModel` -/
def listTxModel (listTxDecoded : List (ℕ × String × List ParsedTx)) : List Transaction :=
  listTxDecoded.flatMap fun (height, timestamp, listTx) =>
    listTx.map (txInsert cfg height timestamp)

/-! ## 4. Runs -/

/-- The `CRAWL_TRANSACTION` checkpoint. -/
def reached (db : Db) : ℕ := startHeight cfg.startBlock db.block_checkpoint .crawlTransaction

/-- `jobCrawlTx` up to `endBlock`, which `getCheckpoint` takes from `CRAWL_BLOCK`: the blocks
up to it are stored. -/
def jobCrawlTx (db : Db) (endBlock : ℕ) (answers : Answers) : Except CrawlTxError Db := do
  let startBlock := reached cfg db
  if endBlock ≤ startBlock then return db
  let listTxRaw ← getListRawTx cfg chain answers startBlock endBlock
  let listdecodedTx ← decodeListRawTx cfg db listTxRaw
  let blockCheckpoint : BlockCheckpoint BullJobName := ⟨.crawlTransaction, startBlock⟩
  return {
    transaction := db.transaction ++ listTxModel cfg listdecodedTx
    block_checkpoint := storeCheckpoint db.block_checkpoint blockCheckpoint endBlock }

/-- One run of the job: the end of its range, and what the nodes answer. -/
structure Run where
  endBlock : ℕ
  answers : Answers

/-- What the requests for a block bring in all. -/
def received (answers : Answers) (height : ℕ) : List RawTx :=
  (List.range (totalPages (chain.txs height).length cfg.txsPerCall)).flatMap (answers height)

/-- The requests for a block bring its pages. -/
def Answered (answers : Answers) (height : ℕ) : Prop :=
  ∀ i < totalPages (chain.txs height).length cfg.txsPerCall,
    answers height i = page cfg.txsPerCall (chain.txs height) i

instance (answers : Answers) (height : ℕ) : Decidable (Answered cfg chain answers height) :=
  inferInstanceAs (Decidable (∀ _ < _, _))

/-- What is assumed of `tx_search`: for every block of the range it brings the pages of the
block, or not the right number of transactions. -/
def NodeOk (db : Db) (run : Run) : Prop :=
  ∀ height ∈ List.range' (reached cfg db + 1) (run.endBlock - reached cfg db),
    Answered cfg chain run.answers height ∨
      (received cfg chain run.answers height).length ≠ (chain.txs height).length

instance (db : Db) (run : Run) : Decidable (NodeOk cfg chain db run) :=
  inferInstanceAs (Decidable (∀ _ ∈ _, _))

/-- The state after a run; a run that throws is rolled back, to be tried again. -/
def crawlStep (db : Db) (run : Run) : Db :=
  if NodeOk cfg chain db run then
    match jobCrawlTx cfg chain db run.endBlock run.answers with
    | .ok db' => db'
    | .error _ => db
  else db

/-- The state before the first run. -/
def initialDb : Db := ⟨[], Table.empty⟩

/-! ## 5. The property -/

/-- The row of a transaction of the chain, if its bytes can be decoded. -/
def txRow (height : ℕ) (tx : RawTx) : Option Transaction :=
  (cfg.decodeTxRaw tx.tx).map fun decoded =>
    txInsert cfg height (chain.time height) ⟨decoded, tx, chain.time height⟩

/-- Every block up to the checkpoint has one row per transaction, in order, and no block above
it has any. -/
def StoredOnce (db : Db) : Prop :=
  ∀ height, (db.transaction.filter fun tx => tx.height = height).map some =
    if cfg.startBlock < height ∧ height ≤ reached cfg db then
      (chain.txs height).map (txRow cfg chain height)
    else []

/-- The heights of the range of a run. -/
def rangeOf (db : Db) (run : Run) : List ℕ :=
  List.range' (reached cfg db + 1) (run.endBlock - reached cfg db)

/-- The run goes through: its range is not empty, the nodes bring every block, and the
transactions that are new can be decoded. -/
def Succeeds (db : Db) (run : Run) : Prop :=
  reached cfg db < run.endBlock ∧
  (∀ height ∈ rangeOf cfg db run, Answered cfg chain run.answers height) ∧
  ∀ height ∈ rangeOf cfg db run, ∀ tx ∈ chain.txs height,
    tx.hash ∉ db.transaction.map (·.hash) → cfg.decodeTxRaw tx.tx ≠ none

/-- The condition on a run that goes through: no transaction of its range has the hash of a
stored one. -/
def HashesNew (db : Db) (run : Run) : Prop :=
  Succeeds cfg chain db run →
    ∀ height ∈ rangeOf cfg db run, ∀ tx ∈ chain.txs height,
      tx.hash ∉ db.transaction.map (·.hash)

variable {cfg chain}

/-! ## 6. Pages -/

theorem flatMap_page_eq_take {α : Type} (perPage : ℕ) (l : List α) (k : ℕ) :
    (List.range k).flatMap (page perPage l) = l.take (k * perPage) := by
  induction k with
  | zero => simp
  | succ k ih =>
    rw [List.range_succ, List.flatMap_append, ih, Nat.succ_mul, List.take_add]
    simp [page]

theorem le_totalPages_mul {n perPage : ℕ} (h : 0 < perPage) : n ≤ totalPages n perPage * perPage := by
  have hdiv := Nat.div_add_mod (n + perPage - 1) perPage
  have hmod := Nat.mod_lt (n + perPage - 1) h
  rw [totalPages, Nat.mul_comm]
  omega

/-- The pages of a list give the list back. -/
theorem flatMap_page {α : Type} {perPage : ℕ} (h : 0 < perPage) (l : List α) :
    (List.range (totalPages l.length perPage)).flatMap (page perPage l) = l := by
  rw [flatMap_page_eq_take]
  exact List.take_of_length_le (le_totalPages_mul h)

theorem received_of_answered {answers : Answers} {height : ℕ}
    (h : Answered cfg chain answers height) : received cfg chain answers height = chain.txs height := by
  have hpages : received cfg chain answers height =
      (List.range (totalPages (chain.txs height).length cfg.txsPerCall)).flatMap
        (page cfg.txsPerCall (chain.txs height)) :=
    List.flatMap_congr fun i hi => h i (List.mem_range.mp hi)
  rw [hpages, flatMap_page cfg.txsPerCall_pos]

/-! ## 7. A run -/

theorem mem_heights {start endBlock height : ℕ} :
    height ∈ List.range' (start + 1) (endBlock - start) ↔ start < height ∧ height ≤ endBlock := by
  rw [List.mem_range'_1]
  omega

/-- The pages of a block are found again by its height. -/
theorem listTxs_eq (answers : Answers) {start endBlock height : ℕ}
    (hh : height ∈ List.range' (start + 1) (endBlock - start))
    (hpos : 0 < (chain.block height).tx_count) :
    listTxs (resultPromises cfg answers (blocks chain start endBlock)) (chain.block height) =
      received cfg chain answers height := by
  have hnd : ((blocks chain start endBlock).map (·.height)).Nodup := by
    rw [blocks, List.map_map]
    have hid : ((·.height) ∘ chain.block) = id := rfl
    rw [hid, List.map_id]
    exact List.nodup_range'
  have hchild : ∀ b ∈ blocks chain start endBlock, ∀ r ∈
      (if 0 < b.tx_count then
        (List.range (totalPages b.tx_count cfg.txsPerCall)).map fun i =>
          (b.height, answers b.height i)
      else []), r.1 = b.height := by
    intro b _ r hr
    split at hr
    · obtain ⟨i, -, rfl⟩ := List.mem_map.mp hr
      rfl
    · cases hr
  have hmem : chain.block height ∈ blocks chain start endBlock := List.mem_map_of_mem hh
  have hfilter := filter_flatMap_of_mem hchild hnd hmem
  rw [listTxs, resultPromises, hfilter, if_pos hpos, List.flatMap_map]
  rfl

/-- The raw block of a height, when its transactions have come. -/
def rawBlockOf (chain : Chain) (height : ℕ) : List RawBlock :=
  if 0 < (chain.txs height).length then [⟨chain.txs height, height, chain.time height⟩] else []

theorem getListRawTx_ok {answers : Answers} {start endBlock : ℕ}
    (h : ∀ height ∈ List.range' (start + 1) (endBlock - start), Answered cfg chain answers height) :
    getListRawTx cfg chain answers start endBlock =
      .ok ((List.range' (start + 1) (endBlock - start)).flatMap (rawBlockOf chain)) := by
  have hall : ∀ b ∈ blocks chain start endBlock,
      rawBlock (resultPromises cfg answers (blocks chain start endBlock)) b =
        .ok (rawBlockOf chain b.height) := by
    intro b hb
    obtain ⟨height, hh, rfl⟩ := List.mem_map.mp hb
    by_cases hpos : 0 < (chain.block height).tx_count
    · rw [rawBlock, if_pos hpos]
      simp only [listTxs_eq answers hh hpos, received_of_answered (h height hh)]
      rw [if_neg (by simp [Chain.block]), rawBlockOf]
      exact congrArg _ (if_pos hpos).symm
    · rw [rawBlock, if_neg hpos, rawBlockOf]
      exact congrArg _ (if_neg hpos).symm
  rw [getListRawTx, mapM_ok hall, ok_bind, List.flatMap, blocks, List.map_map]
  rfl

/-- A run in which a block brings a wrong number of transactions throws. -/
theorem received_of_getListRawTx {answers : Answers} {start endBlock : ℕ} {out : List RawBlock}
    (h : getListRawTx cfg chain answers start endBlock = .ok out) :
    ∀ height ∈ List.range' (start + 1) (endBlock - start),
      (received cfg chain answers height).length = (chain.txs height).length := by
  obtain ⟨raw, hraw, -⟩ := bind_ok h
  intro height hh
  by_cases hpos : 0 < (chain.block height).tx_count
  · obtain ⟨b, hb⟩ := ok_of_mapM_ok hraw (chain.block height) (List.mem_map_of_mem hh)
    rw [rawBlock, if_pos hpos] at hb
    simp only [listTxs_eq answers hh hpos] at hb
    split at hb
    · cases hb
    · next hlen => exact not_not.mp hlen
  · have hnil : chain.txs height = [] := List.length_eq_zero_iff.mp (Nat.eq_zero_of_not_pos hpos)
    have hzero : totalPages 0 cfg.txsPerCall = 0 := by
      rw [totalPages, Nat.div_eq_of_lt]
      have := cfg.txsPerCall_pos
      omega
    rw [received, hnil, List.length_nil, hzero]
    rfl

/-- The transactions of a block whose hash is not stored. -/
def newTxs (chain : Chain) (db : Db) (height : ℕ) : List RawTx :=
  (chain.txs height).filter fun tx => tx.hash ∉ db.transaction.map (·.hash)

theorem mapM_parseTx {height : ℕ} {txs : List RawTx}
    (hdec : ∀ tx ∈ txs, cfg.decodeTxRaw tx.tx ≠ none) :
    ∃ ps, txs.mapM (parseTx cfg (chain.time height)) = .ok ps ∧
      (ps.map (txInsert cfg height (chain.time height))).map some =
        txs.map (txRow cfg chain height) := by
  induction txs with
  | nil => exact ⟨[], rfl, rfl⟩
  | cons tx txs ih =>
    obtain ⟨decoded, hd⟩ := Option.ne_none_iff_exists'.mp (hdec tx List.mem_cons_self)
    obtain ⟨ps, hps, hrows⟩ := ih fun tx htx => hdec tx (List.mem_cons_of_mem _ htx)
    refine ⟨⟨decoded, tx, chain.time height⟩ :: ps, ?_, ?_⟩
    · rw [List.mapM_cons, parseTx, hd, hps]
      rfl
    · rw [List.map_cons, List.map_cons, hrows, List.map_cons, txRow, hd, Option.map_some]

/-- The rows of the blocks `hs`, when what is new in them can be decoded. -/
theorem decodeListRawTx_ok {db : Db} {hs : List ℕ}
    (hdec : ∀ height ∈ hs, ∀ tx ∈ newTxs chain db height, cfg.decodeTxRaw tx.tx ≠ none) :
    ∃ out, decodeListRawTx cfg db (hs.flatMap (rawBlockOf chain)) = .ok out ∧
      (listTxModel cfg out).map some =
        hs.flatMap fun height => (newTxs chain db height).map (txRow cfg chain height) := by
  induction hs with
  | nil => exact ⟨[], rfl, rfl⟩
  | cons height hs ih =>
    obtain ⟨out, hout, hrows⟩ := ih fun h hh => hdec h (List.mem_cons_of_mem _ hh)
    rw [List.flatMap_cons, List.flatMap_cons]
    by_cases hpos : 0 < (chain.txs height).length
    · obtain ⟨ps, hps, hrow⟩ := @mapM_parseTx cfg chain height _ (hdec height List.mem_cons_self)
      refine ⟨(height, chain.time height, ps) :: out, ?_, ?_⟩
      · have hblock : decodeBlock cfg db ⟨chain.txs height, height, chain.time height⟩ =
            .ok (height, chain.time height, ps) := by
          rw [newTxs] at hps
          rw [decodeBlock, hps]
          rfl
        rw [rawBlockOf, if_pos hpos, List.singleton_append, decodeListRawTx, List.mapM_cons,
          hblock, ok_bind]
        rw [decodeListRawTx] at hout
        rw [hout]
        rfl
      · rw [listTxModel, List.flatMap_cons, List.map_append, hrow]
        exact congrArg _ hrows
    · have hnil : chain.txs height = [] := List.length_eq_zero_iff.mp (Nat.eq_zero_of_not_pos hpos)
      refine ⟨out, ?_, ?_⟩
      · rw [rawBlockOf, if_neg hpos, List.nil_append]
        exact hout
      · rw [newTxs, hnil]
        exact hrows

/-- The decoding succeeds only on transactions that can be decoded. -/
theorem decode_of_decodeListRawTx {db : Db} {hs : List ℕ}
    {out : List (ℕ × String × List ParsedTx)}
    (h : decodeListRawTx cfg db (hs.flatMap (rawBlockOf chain)) = .ok out) :
    ∀ height ∈ hs, ∀ tx ∈ newTxs chain db height, cfg.decodeTxRaw tx.tx ≠ none := by
  intro height hh tx htx
  have hpos : 0 < (chain.txs height).length := List.length_pos_of_mem (List.mem_of_mem_filter htx)
  have hblock : (⟨chain.txs height, height, chain.time height⟩ : RawBlock) ∈
      hs.flatMap (rawBlockOf chain) := by
    refine List.mem_flatMap.mpr ⟨height, hh, ?_⟩
    rw [rawBlockOf, if_pos hpos]
    exact List.mem_singleton_self _
  obtain ⟨b, hb⟩ := ok_of_mapM_ok h _ hblock
  obtain ⟨ps, hps, -⟩ := bind_ok hb
  obtain ⟨p, hp⟩ := ok_of_mapM_ok hps tx htx
  rw [parseTx] at hp
  intro hnone
  rw [hnone] at hp
  cases hp

/-- A run that goes through appends the rows of what is new in its range. -/
theorem jobCrawlTx_ok {db : Db} {run : Run} (h : Succeeds cfg chain db run) :
    ∃ rows, jobCrawlTx cfg chain db run.endBlock run.answers = .ok
        { transaction := db.transaction ++ rows
          block_checkpoint := storeCheckpoint db.block_checkpoint
            ⟨.crawlTransaction, reached cfg db⟩ run.endBlock } ∧
      rows.map some = (rangeOf cfg db run).flatMap fun height =>
        (newTxs chain db height).map (txRow cfg chain height) := by
  obtain ⟨hlt, hans, hdec⟩ := h
  have hnew : ∀ height ∈ rangeOf cfg db run, ∀ tx ∈ newTxs chain db height,
      cfg.decodeTxRaw tx.tx ≠ none := by
    intro height hh tx htx
    obtain ⟨hmem, hhash⟩ := List.mem_filter.mp htx
    exact hdec height hh tx hmem (by simpa using hhash)
  obtain ⟨out, hout, hrows⟩ := decodeListRawTx_ok hnew
  refine ⟨listTxModel cfg out, ?_, hrows⟩
  rw [jobCrawlTx, if_neg (not_le.mpr hlt), getListRawTx_ok hans]
  rw [rangeOf] at hout
  rw [ok_bind, hout]
  rfl

/-- A run that commits has gone through. -/
theorem succeeds_of_ok {db db' : Db} {run : Run} (hnode : NodeOk cfg chain db run)
    (hlt : reached cfg db < run.endBlock)
    (h : jobCrawlTx cfg chain db run.endBlock run.answers = .ok db') :
    Succeeds cfg chain db run := by
  rw [jobCrawlTx, if_neg (not_le.mpr hlt)] at h
  obtain ⟨raw, hraw, h⟩ := bind_ok h
  have hcount := received_of_getListRawTx hraw
  have hans : ∀ height ∈ rangeOf cfg db run, Answered cfg chain run.answers height :=
    fun height hh => (hnode height hh).resolve_right (not_not.mpr (hcount height hh))
  obtain rfl := Except.ok.inj (hraw.symm.trans (getListRawTx_ok hans))
  obtain ⟨out, hout, -⟩ := bind_ok h
  have hdec := decode_of_decodeListRawTx hout
  refine ⟨hlt, hans, fun height hh tx htx hhash => ?_⟩
  exact hdec height hh tx (List.mem_filter.mpr ⟨htx, by simpa using hhash⟩)

theorem nodeOk_of_succeeds {db : Db} {run : Run} (h : Succeeds cfg chain db run) :
    NodeOk cfg chain db run := fun height hh => .inl (h.2.1 height hh)

/-- A run that does not go through changes nothing. -/
theorem crawlStep_of_not {db : Db} {run : Run} (h : ¬ Succeeds cfg chain db run) :
    crawlStep cfg chain db run = db := by
  rw [crawlStep]
  split
  case isFalse => rfl
  case isTrue hnode =>
    by_cases hlt : reached cfg db < run.endBlock
    · cases hjob : jobCrawlTx cfg chain db run.endBlock run.answers with
      | error e => rfl
      | ok db' => exact absurd (succeeds_of_ok hnode hlt hjob) h
    · rw [jobCrawlTx, if_pos (not_lt.mp hlt)]
      rfl

/-- The rows of one height in the rows of a range. -/
theorem filter_rows {db : Db} {run : Run} (h : Succeeds cfg chain db run)
    {rows : List Transaction}
    (hrows : rows.map some = (rangeOf cfg db run).flatMap fun height =>
      (newTxs chain db height).map (txRow cfg chain height)) (height : ℕ) :
    (rows.filter fun tx => tx.height = height).map some =
      if height ∈ rangeOf cfg db run then (newTxs chain db height).map (txRow cfg chain height)
      else [] := by
  have hread : (rows.filter fun tx => tx.height = height).map some =
      (rows.map some).filter fun o => o.map (·.height) = some height := by
    rw [List.filter_map]
    simp [Function.comp_def]
  have hchild : ∀ k ∈ rangeOf cfg db run, ∀ o ∈ (newTxs chain db k).map (txRow cfg chain k),
      o.map (·.height) = some k := by
    intro k hk o ho
    obtain ⟨tx, htx, rfl⟩ := List.mem_map.mp ho
    obtain ⟨hmem, hhash⟩ := List.mem_filter.mp htx
    obtain ⟨decoded, hd⟩ := Option.ne_none_iff_exists'.mp
      (h.2.2 k hk tx hmem (by simpa using hhash))
    rw [txRow, hd]
    rfl
  have hnd : ((rangeOf cfg db run).map some).Nodup :=
    (List.nodup_range' (s := reached cfg db + 1)).map (Option.some_injective ℕ)
  rw [hread, hrows]
  split
  · next hmem => exact filter_flatMap_of_mem hchild hnd hmem
  · next hmem => exact filter_flatMap_of_not_mem hchild (by simpa using hmem)

/-! ## 8. The steps -/

theorem reached_stored {db : Db} {rows : List Transaction} {height endBlock : ℕ} :
    reached cfg
      { transaction := rows
        block_checkpoint :=
          storeCheckpoint db.block_checkpoint ⟨.crawlTransaction, height⟩ endBlock } = endBlock := by
  rw [reached, startHeight_storeCheckpoint, if_pos rfl]

theorem crawlStep_of_succeeds {db : Db} {run : Run} (h : Succeeds cfg chain db run) :
    ∃ rows, (crawlStep cfg chain db run).transaction = db.transaction ++ rows ∧
      reached cfg (crawlStep cfg chain db run) = run.endBlock ∧
      rows.map some = (rangeOf cfg db run).flatMap fun height =>
        (newTxs chain db height).map (txRow cfg chain height) := by
  obtain ⟨rows, hjob, hrows⟩ := jobCrawlTx_ok h
  refine ⟨rows, ?_, ?_, hrows⟩
  · rw [crawlStep, if_pos (nodeOk_of_succeeds h), hjob]
  · rw [crawlStep, if_pos (nodeOk_of_succeeds h), hjob]
    exact reached_stored

theorem startBlock_le_step (db : Db) (run : Run) (h : cfg.startBlock ≤ reached cfg db) :
    cfg.startBlock ≤ reached cfg (crawlStep cfg chain db run) := by
  by_cases hs : Succeeds cfg chain db run
  · obtain ⟨-, -, hreached, -⟩ := crawlStep_of_succeeds hs
    rw [hreached]
    exact h.trans hs.1.le
  · rwa [crawlStep_of_not hs]

/-- A run keeps the property if and only if what it stores is all of its range. -/
theorem storedOnce_step_iff (db : Db) (run : Run) (hstart : cfg.startBlock ≤ reached cfg db)
    (hP : StoredOnce cfg chain db) :
    StoredOnce cfg chain (crawlStep cfg chain db run) ↔ HashesNew cfg chain db run := by
  by_cases hs : Succeeds cfg chain db run
  case neg =>
    rw [crawlStep_of_not hs]
    exact iff_of_true hP fun h => absurd h hs
  obtain ⟨rows, htx, hreached, hrows⟩ := crawlStep_of_succeeds hs
  have hmem : ∀ height, height ∈ rangeOf cfg db run ↔
      reached cfg db < height ∧ height ≤ run.endBlock := fun height => mem_heights
  have hlt := hs.1
  -- the rows of a height after the run
  have hread : ∀ height, ((crawlStep cfg chain db run).transaction.filter
      fun tx => tx.height = height).map some =
      (if cfg.startBlock < height ∧ height ≤ reached cfg db then
        (chain.txs height).map (txRow cfg chain height) else []) ++
      (if height ∈ rangeOf cfg db run then
        (newTxs chain db height).map (txRow cfg chain height) else []) := by
    intro height
    rw [htx, List.filter_append, List.map_append, hP height, filter_rows hs hrows]
  have hin : ∀ height ∈ rangeOf cfg db run,
      ((crawlStep cfg chain db run).transaction.filter fun tx => tx.height = height).map some =
        (newTxs chain db height).map (txRow cfg chain height) := by
    intro height hh
    rw [hread, if_pos hh, if_neg, List.nil_append]
    have := (hmem height).mp hh
    omega
  constructor
  · intro h _ height hh tx htx
    have heq := h height
    have hrange := (hmem height).mp hh
    rw [hin height hh, hreached, if_pos ⟨by omega, hrange.2⟩] at heq
    -- as many new transactions as transactions
    have hlen : (newTxs chain db height).length = (chain.txs height).length := by
      simpa using congrArg List.length heq
    have hall := List.length_filter_eq_length_iff.mp hlen tx htx
    simpa using hall
  · intro hnew height
    rw [hreached]
    by_cases hh : height ∈ rangeOf cfg db run
    · have hrange := (hmem height).mp hh
      have hself : newTxs chain db height = chain.txs height := by
        rw [newTxs, List.filter_eq_self]
        intro tx htx
        simpa using hnew hs height hh tx htx
      rw [hin height hh, hself, if_pos ⟨by omega, hrange.2⟩]
    · rw [hread, if_neg hh, List.append_nil]
      rw [hmem] at hh
      have hiff : (cfg.startBlock < height ∧ height ≤ reached cfg db) ↔
          (cfg.startBlock < height ∧ height ≤ run.endBlock) := by omega
      simp only [hiff]

theorem storedOnce_initial : StoredOnce cfg chain initialDb := by
  intro height
  have hreached : reached cfg initialDb = cfg.startBlock := rfl
  rw [hreached, if_neg (by omega)]
  rfl

/-- A run that receives a wrong number of transactions for a block changes nothing. -/
theorem crawlStep_of_count_ne {db : Db} {run : Run} {height : ℕ}
    (hh : height ∈ rangeOf cfg db run)
    (hne : (received cfg chain run.answers height).length ≠ (chain.txs height).length) :
    crawlStep cfg chain db run = db := by
  refine crawlStep_of_not fun hs => hne ?_
  rw [received_of_answered (hs.2.1 height hh)]

/-! ## 9. The result -/

variable (cfg chain)

/-- A wrong number of transactions stores nothing; and every block has its transactions exactly
once, in every state of a run, exactly when no range brings the hash of a stored transaction. -/
theorem stored_once_iff (runs : List Run) :
    (∀ db run, ∀ height ∈ rangeOf cfg db run,
      (received cfg chain run.answers height).length ≠ (chain.txs height).length →
      crawlStep cfg chain db run = db) ∧
    ((∀ p, p <+: runs → StoredOnce cfg chain (runFrom (crawlStep cfg chain) initialDb p)) ↔
      Meets (crawlStep cfg chain) (HashesNew cfg chain) initialDb runs) := by
  refine ⟨fun db run height hh hne => crawlStep_of_count_ne hh hne, ?_⟩
  exact forall_prefix_iff_meets startBlock_le_step storedOnce_step_iff (le_refl _)
    storedOnce_initial

end

/-- Every text decodes. -/
def plainConfig : Config where
  startBlock := 0
  txsPerCall := 1
  saveRawLog := false
  decodeTxRaw _ := some ⟨none, "[]", ""⟩
  txsPerCall_pos := Nat.one_pos

/-- The first two blocks hold the same transaction. -/
def repeatingChain : Chain where
  time _ := "t"
  txs height := if height = 1 ∨ height = 2 then [⟨"A0", 0, "bytes", none, none, none, none⟩] else []

/-- With one block per range, the second inclusion of the transaction is not stored. -/
theorem repeated_hash_lost :
    let answers : Answers := fun height i => page 1 (repeatingChain.txs height) i
    let db := runFrom (crawlStep plainConfig repeatingChain) initialDb [⟨1, answers⟩, ⟨2, answers⟩]
    reached plainConfig db = 2 ∧ (repeatingChain.block 2).tx_count = 1 ∧
      (db.transaction.filter fun tx => tx.height = 2) = [] ∧
      ¬ StoredOnce plainConfig repeatingChain db := by
  intro answers db
  have hnone : (db.transaction.filter fun tx => tx.height = 2) = [] := by decide +kernel
  have hreached : reached plainConfig db = 2 := by decide +kernel
  refine ⟨hreached, rfl, hnone, fun h => ?_⟩
  have h₂ := h 2
  rw [hnone, hreached] at h₂
  revert h₂
  decide

end Erascope.CrawlTx.Pages
