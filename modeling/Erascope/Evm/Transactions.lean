import Mathlib.Logic.Relation
import Mathlib.Tactic
import Erascope.Checkpoint.Pipeline
import Erascope.Lib.Fold
import Erascope.Lib.Order

/-!
# EVM transactions and their events

The model of `handle_tx_evm.service.ts` and `crawl_evm_event.service.ts`. A Cosmos transaction
carries any number of `MsgEthereumTx` messages, each an EVM transaction of its own: it has a hash,
it emits logs, and it may fail in the EVM without failing the Cosmos transaction.
`HANDLE_TRANSACTION_EVM` stores a row per message, `JOB_CRAWL_EVM_EVENT` a row per log. Both look
up what belongs to a message by the id of the Cosmos transaction: the failure (`failedTxIds.find`)
and the row of a log (`keyBy(evmTransactions, 'tx_id')`).

The two jobs run at different times over ranges of their own, from empty tables. A run is any
sequence of their steps and of the job before them; the queries answer in any order that their
`orderBy` leaves open.

Results:
1. `Inv`, `inv_of_reachable`: up to the checkpoint every message has its row, the rows of one
   Cosmos transaction have one status, and that of some failed message of it if there is one.
2. `evm_transactions_iff`: events and statuses belong to the right row in every run exactly when
   the messages of a Cosmos transaction end alike, and one that emits logs comes alone.
   `failed_beside_succeeded`: a transaction with two messages.
-/

namespace Erascope.Evm

open Checkpoint

/-! ## 1. The chain -/

/-- The log of a `txLog` attribute: the value is its JSON text, with `data` in base64. -/
structure TxLog where
  address : String
  topics : List String
  data : List UInt8
  transactionHash : String
  blockHash : String
  transactionIndex : ℕ
deriving DecidableEq, Repr

/-- `content.data` of a message; `data` is stored in base64. -/
structure TxData where
  toAddress : Option String
  gas : Option ℤ
  gas_fee_cap : Option ℤ
  gas_tip_cap : Option ℤ
  data : Option (List UInt8)
  nonce : Option ℤ
  value : Option ℤ
deriving DecidableEq, Repr

/-- `content` of a message. -/
structure Content where
  hash : String
  size : Option String
  fromAddress : Option String
  data : Option TxData
deriving DecidableEq, Repr

/-- A `MsgEthereumTx`: its row in `transaction_message` and what its execution emitted. -/
structure EthereumTx where
  tx_msg_id : ℕ
  sender : Option String
  content : Content
  /-- The value of the attribute `ethereum_tx.ethereumTxFailed`. -/
  failure : Option String
  /-- The row of its `tx_log` event. -/
  event_id : ℕ
  logs : List TxLog
deriving DecidableEq, Repr

/-- A Cosmos transaction with its `MsgEthereumTx` messages. -/
structure CosmosTx where
  id : ℕ
  height : ℕ
  index : ℕ
  msgs : List EthereumTx
deriving DecidableEq, Repr

/-- The transactions that the earlier jobs have stored or will store. A log carries the hash of the
EVM transaction that emitted it, and no EVM transaction is twice in a Cosmos transaction. -/
structure Chain where
  /-- `config.crawlBlock.startBlock` -/
  start : ℕ
  txs : List CosmosTx
  ids : (txs.map CosmosTx.id).Nodup
  msg_ids : ((txs.flatMap CosmosTx.msgs).map EthereumTx.tx_msg_id).Nodup
  heights : ∀ tx ∈ txs, start < tx.height
  hashes : ∀ tx ∈ txs, (tx.msgs.map (·.content.hash)).Nodup
  log_hashes : ∀ tx ∈ txs, ∀ msg ∈ tx.msgs, ∀ log ∈ msg.logs,
    log.transactionHash = msg.content.hash

/-! ## 2. The tables -/

/-- A row of `evm_transaction`. -/
structure EVMTransaction where
  id : ℕ
  height : ℕ
  tx_id : ℕ
  tx_msg_id : ℕ
  hash : String
  size : Option String
  fromAddress : Option String
  toAddress : Option String
  gas : Option ℤ
  gas_fee_cap : Option ℤ
  gas_tip_cap : Option ℤ
  data : Option String
  nonce : Option ℤ
  value : Option ℤ
  index : ℕ
  status : ℕ
  reason : Option String
  contract_address : Option String
deriving DecidableEq, Repr

/-- A row of `evm_event`. -/
structure EvmEvent where
  evm_tx_id : ℕ
  tx_id : ℕ
  address : String
  topic0 : Option String
  topic1 : Option String
  topic2 : Option String
  topic3 : Option String
  data : Option (List UInt8)
  block_height : ℕ
  tx_hash : String
  block_hash : String
  tx_index : ℕ
deriving DecidableEq, Repr

/-- A row of `transaction_message` joined with its transaction. -/
structure TxMsg where
  tx : CosmosTx
  msg : EthereumTx
deriving DecidableEq, Repr

/-- A row of `event_attribute` with the key `ethereum_tx.ethereumTxFailed`. -/
structure FailedAttribute where
  tx_id : ℕ
  block_height : ℕ
  value : String
deriving DecidableEq, Repr

/-- A row of `event_attribute` with the key `txLog`. -/
structure LogAttribute where
  tx_id : ℕ
  event_id : ℕ
  block_height : ℕ
  value : TxLog
deriving DecidableEq, Repr

/-- The tables that the jobs write; `evm_transaction_id_seq` numbers the rows. -/
structure Db where
  block_checkpoint : Checkpoints BullJobName
  evm_transaction : List EVMTransaction
  evm_transaction_id_seq : ℕ
  evm_event : List EvmEvent

/-- The messages of type `MSG_ETHEREUM_TX`. -/
def Chain.txMsgs (chain : Chain) : List TxMsg :=
  chain.txs.flatMap fun tx => tx.msgs.map fun msg => ⟨tx, msg⟩

/-- The attribute of a failed message. -/
def failedAttribute (m : TxMsg) : Option FailedAttribute :=
  m.msg.failure.map fun reason => ⟨m.tx.id, m.tx.height, reason⟩

/-- The attributes of the logs of a message. -/
def logAttributes (m : TxMsg) : List LogAttribute :=
  m.msg.logs.map fun log => ⟨m.tx.id, m.msg.event_id, m.tx.height, log⟩

def Chain.failedAttributes (chain : Chain) : List FailedAttribute :=
  chain.txMsgs.filterMap failedAttribute

def Chain.logAttributes (chain : Chain) : List LogAttribute :=
  chain.txMsgs.flatMap Evm.logAttributes

/-- `orderBy('height', 'asc').orderBy('transaction.id', 'asc')` -/
def TxMsg.rank (m : TxMsg) : ℕ ×ₗ ℕ := toLex (m.tx.height, m.tx.id)

/-! ## 3. The jobs -/

/-- What the jobs take from outside: `convertBech32AddressToEthAddress` for the prefix of the
network, and the `contractAddress` of `viemClient.getTransactionReceipt`. -/
structure Env where
  convertBech32AddressToEthAddress : String → String
  contractAddress : String → Option String

/-- The two hexadecimal digits of each byte. -/
def toHex (bytes : List UInt8) : String :=
  String.ofList (bytes.flatMap fun b => [(b.toNat / 16).digitChar, (b.toNat % 16).digitChar])

section
variable (env : Env)

/-- The sender: `content.from` if it is there, the converted Cosmos address otherwise. -/
def senderOf (m : TxMsg) : Option String :=
  match truthy m.msg.content.fromAddress, truthy m.msg.sender with
  | some address, _ => some address.toLower
  | none, some sender => some (env.convertBech32AddressToEthAddress sender).toLower
  | none, none => m.msg.sender

/-- The row of a message, with the id that the insert gives it. -/
def evmTxOf (failedTxIds : List FailedAttribute) (id : ℕ) (m : TxMsg) : EVMTransaction :=
  let failedTx := failedTxIds.find? fun failedTxId => failedTxId.tx_id = m.tx.id
  let content := m.msg.content
  let toAddress := (truthy (content.data.bind (·.toAddress))).map String.toLower
  { id := id
    height := m.tx.height
    tx_id := m.tx.id
    tx_msg_id := m.msg.tx_msg_id
    hash := content.hash
    size := content.size
    fromAddress := senderOf env m
    toAddress := toAddress
    gas := content.data.bind (·.gas)
    gas_fee_cap := content.data.bind (·.gas_fee_cap)
    gas_tip_cap := content.data.bind (·.gas_tip_cap)
    data := ((content.data.bind (·.data)).filter (· ≠ [])).map toHex
    nonce := content.data.bind (·.nonce)
    value := content.data.bind (·.value)
    index := m.tx.index
    status := if failedTx.isSome then 0 else 1
    reason := failedTx.map (·.value)
    -- only contract creations, which have no `to`, ask for the receipt
    contract_address :=
      if toAddress.isNone then ((truthy (env.contractAddress content.hash)).map String.toLower)
      else none }

/-- `jobHandler` of `HANDLE_TRANSACTION_EVM`, when its queries answer with `txMsgs` and
`failedTxIds`. -/
def handleTransactionEvm (startBlock endBlock : ℕ) (txMsgs : List TxMsg)
    (failedTxIds : List FailedAttribute) (db : Db) : Db :=
  if startBlock ≥ endBlock then db
  else
    { db with
      block_checkpoint :=
        storeCheckpoint db.block_checkpoint ⟨.handleTransactionEvm, startBlock⟩ endBlock
      evm_transaction := db.evm_transaction ++
        txMsgs.mapIdx fun i m => evmTxOf env failedTxIds (db.evm_transaction_id_seq + i) m
      evm_transaction_id_seq := db.evm_transaction_id_seq + txMsgs.length }

end

/-- `_.mapValues(_.keyBy(evmTransactions, 'tx_id'), 'id')`: the last row of a key stays. -/
def mappingEvmTxId (evmTransactions : List EVMTransaction) (tx_id : ℕ) : Option ℕ :=
  ((evmTransactions.filter fun evmTx => evmTx.tx_id = tx_id).getLast?).map (·.id)

/-- The row of a log. `EvmEvent.fromJson` throws when the required `evm_tx_id` is missing. -/
def evmEventOf (evmTransactions : List EVMTransaction) (evmEvent : LogAttribute) :
    Option EvmEvent :=
  (mappingEvmTxId evmTransactions evmEvent.tx_id).map fun evm_tx_id =>
    let valueParse := evmEvent.value
    { evm_tx_id := evm_tx_id
      tx_id := evmEvent.tx_id
      address := valueParse.address.toLower
      topic0 := valueParse.topics[0]?
      topic1 := valueParse.topics[1]?
      topic2 := valueParse.topics[2]?
      topic3 := valueParse.topics[3]?
      data := if valueParse.data = [] then none else some valueParse.data
      block_height := evmEvent.block_height
      tx_hash := valueParse.transactionHash
      block_hash := valueParse.blockHash
      tx_index := valueParse.transactionIndex }

/-- `crawlEvmEventHandler`, when its queries answer with `evmEventAttr` and `evmTransactions`. The
job has no test of the range. -/
def crawlEvmEventHandler (startBlock endBlock : ℕ) (evmEventAttr : List LogAttribute)
    (evmTransactions : List EVMTransaction) (db : Db) : Option Db :=
  let block_checkpoint :=
    storeCheckpoint db.block_checkpoint ⟨.jobCrawlEvmEvent, startBlock⟩ endBlock
  if evmEventAttr.length = 0 then some { db with block_checkpoint := block_checkpoint }
  else do
    let evmEvents ← evmEventAttr.mapM (evmEventOf evmTransactions)
    return { db with
      block_checkpoint := block_checkpoint
      evm_event := db.evm_event ++ evmEvents }

/-! ## 4. Runs -/

section
variable (env : Env) (chain : Chain)

/-- Where the next run of a job starts. -/
def startOf (j : BullJobName) (db : Db) : ℕ := startHeight chain.start db.block_checkpoint j

/-- Where the next run of a job ends. -/
def endOf (j : BullJobName) (job : Job) (db : Db) : ℕ :=
  endHeight (startOf chain j db) db.block_checkpoint job.lastHeightJobNames job.blocksPerCall

/-- A step: the job that stores transactions reaches a height, or one of the two jobs runs. A run
that throws changes nothing. -/
inductive Step : Db → Db → Prop
  | handleTransaction (db : Db) (height : ℕ) :
      Step db { db with
        block_checkpoint := db.block_checkpoint.upsert ⟨.handleTransaction, height⟩ }
  | handleTransactionEvm {db : Db} {s e : ℕ} {txMsgs : List TxMsg}
      {failedTxIds : List FailedAttribute} :
      s = startOf chain .handleTransactionEvm db →
      e = endOf chain .handleTransactionEvm Checkpoint.handleTransactionEvm db →
      Returned TxMsg.rank (between (·.tx.height) s e chain.txMsgs) txMsgs →
      Returned unsorted (between (·.block_height) s e chain.failedAttributes) failedTxIds →
      Step db (handleTransactionEvm env s e txMsgs failedTxIds db)
  | crawlEvmEvent {db db' : Db} {s e : ℕ} {evmEventAttr : List LogAttribute}
      {evmTransactions : List EVMTransaction} :
      s = startOf chain .jobCrawlEvmEvent db →
      e = endOf chain .jobCrawlEvmEvent Checkpoint.crawlEvmEventHandler db →
      Returned LogAttribute.event_id (between (·.block_height) s e chain.logAttributes)
        evmEventAttr →
      Returned unsorted (between (·.height) s e db.evm_transaction) evmTransactions →
      crawlEvmEventHandler s e evmEventAttr evmTransactions db = some db' →
      Step db db'

/-- The tables before the first run. -/
def initialDb : Db := ⟨Table.empty, [], 1, []⟩

/-- The states of all runs. -/
def Reachable (db : Db) : Prop := Relation.ReflTransGen (Step env chain) initialDb db

end

/-! ## 5. The property -/

/-- Every event points to the row with the hash of its log, and a row has status `0` and the
reason of the failure exactly when its own message failed. -/
structure Right (chain : Chain) (db : Db) : Prop where
  events : ∀ event ∈ db.evm_event, ∃ evmTx ∈ db.evm_transaction,
    evmTx.id = event.evm_tx_id ∧ evmTx.hash = event.tx_hash
  statuses : ∀ evmTx ∈ db.evm_transaction, ∃ m ∈ chain.txMsgs, m.msg.tx_msg_id = evmTx.tx_msg_id ∧
    evmTx.status = (if m.msg.failure.isSome then 0 else 1) ∧ evmTx.reason = m.msg.failure

/-- The messages all succeeded, or all failed for one reason. -/
def SameOutcome (tx : CosmosTx) : Prop :=
  ∀ msg ∈ tx.msgs, ∀ msg' ∈ tx.msgs, msg.failure = msg'.failure

/-- A message that emits logs is the only one. -/
def LogsAlone (tx : CosmosTx) : Prop :=
  ∀ msg ∈ tx.msgs, msg.logs ≠ [] → tx.msgs = [msg]

/-! ## 6. The invariant -/

/-- The columns of a row that it takes from its message. -/
structure RowOf (evmTx : EVMTransaction) (m : TxMsg) : Prop where
  height : evmTx.height = m.tx.height
  tx_id : evmTx.tx_id = m.tx.id
  tx_msg_id : evmTx.tx_msg_id = m.msg.tx_msg_id
  hash : evmTx.hash = m.msg.content.hash

/-- The status of a row of `tx`: that of a failed message of `tx`, whichever it belongs to. -/
structure OutcomeIn (evmTx : EVMTransaction) (tx : CosmosTx) : Prop where
  status : evmTx.status = if evmTx.reason.isSome then 0 else 1
  reason : ∃ msg ∈ tx.msgs, msg.failure = evmTx.reason

/-- Up to the checkpoint every message has its row, and the rows of a Cosmos transaction have one
status and one reason. -/
structure Inv (chain : Chain) (db : Db) : Prop where
  sound : ∀ evmTx ∈ db.evm_transaction, ∃ m ∈ chain.txMsgs, RowOf evmTx m ∧
    m.tx.height ≤ startOf chain .handleTransactionEvm db ∧ OutcomeIn evmTx m.tx
  complete : ∀ m ∈ chain.txMsgs, m.tx.height ≤ startOf chain .handleTransactionEvm db →
    ∃ evmTx ∈ db.evm_transaction, RowOf evmTx m
  same : ∀ evmTx ∈ db.evm_transaction, ∀ evmTx' ∈ db.evm_transaction,
    evmTx.tx_id = evmTx'.tx_id → evmTx.reason = evmTx'.reason
  seq : ∀ evmTx ∈ db.evm_transaction, evmTx.id < db.evm_transaction_id_seq
  ids : (db.evm_transaction.map EVMTransaction.id).Nodup

namespace TransactionsLemmas

section
variable {chain : Chain}

theorem mem_txMsgs {m : TxMsg} : m ∈ chain.txMsgs ↔ m.tx ∈ chain.txs ∧ m.msg ∈ m.tx.msgs := by
  simp only [Chain.txMsgs, List.mem_flatMap, List.mem_map]
  constructor
  · rintro ⟨tx, htx, msg, hmsg, rfl⟩
    exact ⟨htx, hmsg⟩
  · rintro ⟨htx, hmsg⟩
    exact ⟨m.tx, htx, m.msg, hmsg, rfl⟩

theorem tx_eq_of_id {m m' : TxMsg} (hm : m ∈ chain.txMsgs) (hm' : m' ∈ chain.txMsgs)
    (h : m.tx.id = m'.tx.id) : m.tx = m'.tx :=
  List.inj_on_of_nodup_map chain.ids (mem_txMsgs.mp hm).1 (mem_txMsgs.mp hm').1 h

/-- A message is determined by its row in `transaction_message`. -/
theorem msg_eq_of_id {m m' : TxMsg} (hm : m ∈ chain.txMsgs) (hm' : m' ∈ chain.txMsgs)
    (h : m.msg.tx_msg_id = m'.msg.tx_msg_id) : m.msg = m'.msg := by
  have hmem : ∀ m ∈ chain.txMsgs, m.msg ∈ chain.txs.flatMap CosmosTx.msgs := fun m hm =>
    List.mem_flatMap.mpr ⟨m.tx, mem_txMsgs.mp hm⟩
  exact List.inj_on_of_nodup_map chain.msg_ids (hmem m hm) (hmem m' hm') h

theorem mem_failedAttributes {a : FailedAttribute} :
    a ∈ chain.failedAttributes ↔ ∃ m ∈ chain.txMsgs, failedAttribute m = some a :=
  List.mem_filterMap

theorem mem_logAttributes {a : LogAttribute} :
    a ∈ chain.logAttributes ↔ ∃ m ∈ chain.txMsgs, ∃ log ∈ m.msg.logs,
      a = ⟨m.tx.id, m.msg.event_id, m.tx.height, log⟩ := by
  simp only [Chain.logAttributes, List.mem_flatMap, logAttributes, List.mem_map, eq_comm]

end

/-! ### The rows of a run of `HANDLE_TRANSACTION_EVM` -/

section
variable {env : Env} {chain : Chain} {s e : ℕ} {failedTxIds : List FailedAttribute}

theorem rowOf_evmTxOf (id : ℕ) (m : TxMsg) : RowOf (evmTxOf env failedTxIds id m) m :=
  ⟨rfl, rfl, rfl, rfl⟩

/-- The reason depends on the Cosmos transaction only. -/
theorem reason_evmTxOf (id : ℕ) (m : TxMsg) : (evmTxOf env failedTxIds id m).reason =
    (failedTxIds.find? fun failedTxId => failedTxId.tx_id = m.tx.id).map (·.value) := rfl

/-- The first failure of the Cosmos transaction is one of its messages'. -/
theorem outcomeIn_evmTxOf {m : TxMsg} (hm : m ∈ chain.txMsgs)
    (hrange : s < m.tx.height ∧ m.tx.height ≤ e)
    (hfailed : Returned unsorted (between (·.block_height) s e chain.failedAttributes) failedTxIds)
    (id : ℕ) : OutcomeIn (evmTxOf env failedTxIds id m) m.tx := by
  constructor
  · rw [reason_evmTxOf, Option.isSome_map]
    rfl
  · rw [reason_evmTxOf]
    cases hfind : failedTxIds.find? fun failedTxId => failedTxId.tx_id = m.tx.id with
    | some failedTx =>
      have hmem := (mem_between.mp (hfailed.mem_iff.mp (List.mem_of_find?_eq_some hfind))).1
      obtain ⟨m', hm', hval⟩ := mem_failedAttributes.mp hmem
      obtain ⟨reason, hreason, rfl⟩ := Option.map_eq_some_iff.mp hval
      have hid : m'.tx.id = m.tx.id := by simpa using List.find?_some hfind
      rw [← tx_eq_of_id hm' hm hid]
      exact ⟨m'.msg, (mem_txMsgs.mp hm').2, hreason⟩
    | none =>
      refine ⟨m.msg, (mem_txMsgs.mp hm).2, ?_⟩
      -- its own failure would have been found
      cases hown : m.msg.failure with
      | none => rfl
      | some reason =>
        have hattr : (⟨m.tx.id, m.tx.height, reason⟩ : FailedAttribute) ∈ failedTxIds := by
          refine hfailed.mem_iff.mpr (mem_between.mpr ⟨?_, hrange⟩)
          exact mem_failedAttributes.mpr ⟨m, hm, by rw [failedAttribute, hown]; rfl⟩
        have hnone := List.find?_eq_none.mp hfind _ hattr
        simp at hnone

end

/-! ### What a step does to the checkpoints -/

section
variable {env : Env} {chain : Chain} {db : Db} {s e : ℕ}

theorem startOf_handleTransaction (height : ℕ) {j : BullJobName} (hj : j ≠ .handleTransaction) :
    startOf chain j { db with
      block_checkpoint := db.block_checkpoint.upsert ⟨.handleTransaction, height⟩ } =
      startOf chain j db := by
  rw [startOf, startHeight, heightOf_upsert, if_neg hj.symm]
  rfl

theorem startOf_handleTransactionEvm {txMsgs : List TxMsg} {failedTxIds : List FailedAttribute}
    (hlt : s < e) (j : BullJobName) :
    startOf chain j (handleTransactionEvm env s e txMsgs failedTxIds db) =
      if .handleTransactionEvm = j then e else startOf chain j db := by
  rw [handleTransactionEvm, if_neg (not_le.mpr hlt)]
  exact startHeight_storeCheckpoint ..

/-- The tables after a run of `JOB_CRAWL_EVM_EVENT`. -/
theorem crawlEvmEventHandler_eq_some {attrs : List LogAttribute} {evmTxs : List EVMTransaction}
    {db' : Db} (h : crawlEvmEventHandler s e attrs evmTxs db = some db') :
    ∃ new : List EvmEvent, attrs.map (evmEventOf evmTxs) = new.map some ∧
      db' = { db with
        block_checkpoint :=
          storeCheckpoint db.block_checkpoint ⟨.jobCrawlEvmEvent, s⟩ e
        evm_event := db.evm_event ++ new } := by
  unfold crawlEvmEventHandler at h
  split at h
  · next hnil =>
    cases h
    refine ⟨[], ?_, ?_⟩
    · rw [List.length_eq_zero_iff.mp hnil]
      rfl
    · rw [List.append_nil]
  · obtain ⟨new, hnew, hdb⟩ := Option.bind_eq_some_iff.mp h
    cases hdb
    exact ⟨new, map_eq_of_mapM hnew, rfl⟩

/-- A run in which every log finds a row does not throw. -/
theorem exists_crawlEvmEventHandler {attrs : List LogAttribute} {evmTxs : List EVMTransaction}
    (h : ∀ a ∈ attrs, (evmEventOf evmTxs a).isSome) (s e : ℕ) (db : Db) :
    ∃ db', crawlEvmEventHandler s e attrs evmTxs db = some db' := by
  unfold crawlEvmEventHandler
  split
  · exact ⟨_, rfl⟩
  · obtain ⟨new, hnew⟩ := exists_mapM_some h
    rw [hnew]
    exact ⟨_, rfl⟩

theorem startOf_crawlEvmEventHandler (chain : Chain) {attrs : List LogAttribute} {evmTxs : List EVMTransaction}
    {db' : Db} (h : crawlEvmEventHandler s e attrs evmTxs db = some db') (j : BullJobName) :
    startOf chain j db' = if .jobCrawlEvmEvent = j then e else startOf chain j db := by
  obtain ⟨new, -, rfl⟩ := crawlEvmEventHandler_eq_some h
  exact startHeight_storeCheckpoint ..

end

/-! ### One step -/

section
variable {env : Env} {chain : Chain} {db db' : Db}

theorem inv_initialDb : Inv chain initialDb where
  sound := by simp [initialDb]
  complete := by
    intro m hm hle
    exact absurd (chain.heights m.tx (mem_txMsgs.mp hm).1) (not_lt.mpr hle)
  same := by simp [initialDb]
  seq := by simp [initialDb]
  ids := List.nodup_nil

/-- The invariant looks at the rows and at where the next run of `HANDLE_TRANSACTION_EVM` starts. -/
theorem inv_congr (h : Inv chain db) (hrows : db'.evm_transaction = db.evm_transaction)
    (hseq : db'.evm_transaction_id_seq = db.evm_transaction_id_seq)
    (hstart : startOf chain .handleTransactionEvm db' = startOf chain .handleTransactionEvm db) :
    Inv chain db' where
  sound := by simpa only [hrows, hstart] using h.sound
  complete := by simpa only [hrows, hstart] using h.complete
  same := by simpa only [hrows] using h.same
  seq := by simpa only [hrows, hseq] using h.seq
  ids := by simpa only [hrows] using h.ids

/-- The new rows of a run, with their messages. -/
theorem mem_newRows {txMsgs : List TxMsg} {failedTxIds : List FailedAttribute} {n : ℕ}
    {evmTx : EVMTransaction} :
    evmTx ∈ txMsgs.mapIdx (fun i m => evmTxOf env failedTxIds (n + i) m) ↔
      ∃ i, ∃ h : i < txMsgs.length, evmTx = evmTxOf env failedTxIds (n + i) txMsgs[i] := by
  simp only [List.mem_mapIdx, eq_comm]

theorem map_id_newRows (txMsgs : List TxMsg) (failedTxIds : List FailedAttribute) (n : ℕ) :
    (txMsgs.mapIdx fun i m => evmTxOf env failedTxIds (n + i) m).map EVMTransaction.id =
      List.range' n txMsgs.length := by
  refine List.ext_getElem (by simp) fun i h₁ h₂ => ?_
  simp [evmTxOf]

/-- What a run inserts. -/
theorem rows_handleTransactionEvm {s e : ℕ} (hlt : s < e) (txMsgs : List TxMsg)
    (failedTxIds : List FailedAttribute) :
    (handleTransactionEvm env s e txMsgs failedTxIds db).evm_transaction =
        db.evm_transaction ++ txMsgs.mapIdx (fun i m =>
          evmTxOf env failedTxIds (db.evm_transaction_id_seq + i) m) ∧
      (handleTransactionEvm env s e txMsgs failedTxIds db).evm_transaction_id_seq =
        db.evm_transaction_id_seq + txMsgs.length := by
  rw [handleTransactionEvm, if_neg (not_le.mpr hlt)]
  exact ⟨rfl, rfl⟩

/-- Rows of an earlier run and of the next one are of different transactions. -/
theorem tx_id_ne_of_inv (h : Inv chain db) {old : EVMTransaction} (hold : old ∈ db.evm_transaction)
    {m : TxMsg} (hm : m ∈ chain.txMsgs)
    (hlt : startOf chain .handleTransactionEvm db < m.tx.height) : old.tx_id ≠ m.tx.id := by
  intro heq
  obtain ⟨m₀, hm₀, hrow, hle, -⟩ := h.sound old hold
  have htx := tx_eq_of_id hm₀ hm (hrow.tx_id ▸ heq)
  rw [htx] at hle
  exact absurd hlt (not_lt.mpr hle)

theorem inv_handleTransactionEvm {s e : ℕ} {txMsgs : List TxMsg}
    {failedTxIds : List FailedAttribute} (hs : s = startOf chain .handleTransactionEvm db)
    (hmsgs : Returned TxMsg.rank (between (·.tx.height) s e chain.txMsgs) txMsgs)
    (hfailed : Returned unsorted (between (·.block_height) s e chain.failedAttributes) failedTxIds)
    (h : Inv chain db) :
    Inv chain (handleTransactionEvm env s e txMsgs failedTxIds db) := by
  rcases Nat.lt_or_ge s e with hlt | hge
  swap
  · rwa [handleTransactionEvm, if_pos hge]
  have hstart : startOf chain .handleTransactionEvm
      (handleTransactionEvm env s e txMsgs failedTxIds db) = e := by
    rw [startOf_handleTransactionEvm hlt, if_pos rfl]
  have hrange : ∀ m ∈ txMsgs, m ∈ chain.txMsgs ∧ s < m.tx.height ∧ m.tx.height ≤ e :=
    fun m hm => mem_between.mp (hmsgs.mem_iff.mp hm)
  obtain ⟨hrows, hseq⟩ := @rows_handleTransactionEvm env db s e hlt txMsgs failedTxIds
  have hapart : ∀ old ∈ db.evm_transaction, ∀ m ∈ txMsgs, old.tx_id ≠ m.tx.id :=
    fun old hold m hm => tx_id_ne_of_inv h hold (hrange m hm).1 (hs ▸ (hrange m hm).2.1)
  constructor
  · intro evmTx hmem
    rw [hrows, List.mem_append] at hmem
    rw [hstart]
    rcases hmem with hold | hnew
    · obtain ⟨m, hm, hrow, hle, hout⟩ := h.sound evmTx hold
      exact ⟨m, hm, hrow, by omega, hout⟩
    · obtain ⟨i, hi, rfl⟩ := mem_newRows.mp hnew
      obtain ⟨hm, hin⟩ := hrange _ (List.getElem_mem hi)
      exact ⟨txMsgs[i], hm, rowOf_evmTxOf _ _, hin.2, outcomeIn_evmTxOf hm hin hfailed _⟩
  · intro m hm hle
    rw [hstart] at hle
    rw [hrows]
    rcases Nat.lt_or_ge s m.tx.height with hin | hbefore
    · obtain ⟨i, hi, hget⟩ :=
        List.getElem_of_mem (hmsgs.mem_iff.mpr (mem_between.mpr ⟨hm, hin, hle⟩))
      refine ⟨_, List.mem_append_right _ (mem_newRows.mpr ⟨i, hi, rfl⟩), ?_⟩
      rw [hget]
      exact rowOf_evmTxOf _ m
    · obtain ⟨evmTx, hmem, hrow⟩ := h.complete m hm (hs ▸ hbefore)
      exact ⟨evmTx, List.mem_append_left _ hmem, hrow⟩
  · intro a ha b hb hid
    rw [hrows, List.mem_append] at ha hb
    rcases ha with ha | ha <;> rcases hb with hb | hb
    · exact h.same a ha b hb hid
    · obtain ⟨i, hi, rfl⟩ := mem_newRows.mp hb
      exact absurd hid (hapart a ha _ (List.getElem_mem hi))
    · obtain ⟨i, hi, rfl⟩ := mem_newRows.mp ha
      exact absurd hid.symm (hapart b hb _ (List.getElem_mem hi))
    · obtain ⟨i, hi, rfl⟩ := mem_newRows.mp ha
      obtain ⟨j, hj, rfl⟩ := mem_newRows.mp hb
      rw [reason_evmTxOf, reason_evmTxOf]
      exact congrArg (fun id => (failedTxIds.find? fun f => f.tx_id = id).map (·.value)) hid
  · intro evmTx hmem
    rw [hrows, List.mem_append] at hmem
    rw [hseq]
    rcases hmem with hold | hnew
    · exact Nat.lt_add_right _ (h.seq evmTx hold)
    · obtain ⟨i, hi, rfl⟩ := mem_newRows.mp hnew
      exact Nat.add_lt_add_left hi _
  · rw [hrows, List.map_append, map_id_newRows]
    refine List.nodup_append.mpr ⟨h.ids, List.nodup_range', ?_⟩
    rintro a ha b hb rfl
    obtain ⟨evmTx, hold, rfl⟩ := List.mem_map.mp ha
    have hlt := h.seq evmTx hold
    have hge := (List.mem_range'_1.mp hb).1
    omega

theorem inv_step (hstep : Step env chain db db') (h : Inv chain db) : Inv chain db' := by
  cases hstep with
  | handleTransaction height => exact inv_congr h rfl rfl (startOf_handleTransaction height (by decide))
  | handleTransactionEvm hs _ hmsgs hfailed => exact inv_handleTransactionEvm hs hmsgs hfailed h
  | crawlEvmEvent _ _ _ _ hrun =>
    have hstart := startOf_crawlEvmEventHandler chain hrun .handleTransactionEvm
    obtain ⟨new, -, rfl⟩ := crawlEvmEventHandler_eq_some hrun
    exact inv_congr h rfl rfl hstart

end

end TransactionsLemmas

open TransactionsLemmas

theorem inv_of_reachable {env : Env} {chain : Chain} {db : Db} (h : Reachable env chain db) :
    Inv chain db := by
  induction h with
  | refl => exact inv_initialDb
  | tail _ hstep ih => exact inv_step hstep ih

namespace TransactionsLemmas

/-! ### The row of a log -/

section
variable {env : Env} {chain : Chain} {db db' : Db} {s e : ℕ}

/-- The event job stays behind the rows. -/
theorem endOf_crawlEvmEvent_le (chain : Chain) (db : Db) :
    endOf chain .jobCrawlEvmEvent Checkpoint.crawlEvmEventHandler db ≤
      startOf chain .handleTransactionEvm db := by
  refine endHeight_singleton_le fun height hheight => ?_
  rw [startOf, startHeight, hheight, Option.getD_some]

theorem mappingEvmTxId_eq_some {evmTxs : List EVMTransaction} {tx_id id : ℕ}
    (h : mappingEvmTxId evmTxs tx_id = some id) :
    ∃ evmTx ∈ evmTxs, evmTx.tx_id = tx_id ∧ evmTx.id = id := by
  obtain ⟨evmTx, hlast, hid⟩ := Option.map_eq_some_iff.mp h
  obtain ⟨hmem, htx⟩ := List.mem_filter.mp (List.mem_of_getLast? hlast)
  exact ⟨evmTx, hmem, of_decide_eq_true htx, hid⟩

/-- A log finds a row of its Cosmos transaction, one of several if there are several. -/
theorem isSome_evmEventOf (hinv : Inv chain db)
    (he : e ≤ startOf chain .handleTransactionEvm db) {evmTxs : List EVMTransaction}
    (htxs : Returned unsorted (between (·.height) s e db.evm_transaction) evmTxs)
    {a : LogAttribute} (ha : a ∈ between (·.block_height) s e chain.logAttributes) :
    (evmEventOf evmTxs a).isSome := by
  obtain ⟨hmem, hrange⟩ := mem_between.mp ha
  obtain ⟨m, hm, log, -, rfl⟩ := mem_logAttributes.mp hmem
  obtain ⟨evmTx, hrow, hof⟩ := hinv.complete m hm (hrange.2.trans he)
  have hin : evmTx ∈ evmTxs := by
    refine htxs.mem_iff.mpr (mem_between.mpr ⟨hrow, ?_⟩)
    rw [hof.height]
    exact hrange
  rw [evmEventOf, Option.isSome_map, mappingEvmTxId, Option.isSome_map, List.getLast?_isSome]
  have hfound : evmTx ∈ evmTxs.filter fun x => x.tx_id = m.tx.id :=
    List.mem_filter.mpr ⟨hin, decide_eq_true hof.tx_id⟩
  exact List.ne_nil_of_mem hfound

/-- If a message that emits logs is the only one of its transaction, its logs find its row. -/
theorem evmEventOf_right (hinv : Inv chain db) (halone : ∀ tx ∈ chain.txs, LogsAlone tx)
    {evmTxs : List EVMTransaction}
    (htxs : Returned unsorted (between (·.height) s e db.evm_transaction) evmTxs)
    {a : LogAttribute} (ha : a ∈ chain.logAttributes) {event : EvmEvent}
    (hevent : evmEventOf evmTxs a = some event) :
    ∃ evmTx ∈ db.evm_transaction, evmTx.id = event.evm_tx_id ∧ evmTx.hash = event.tx_hash := by
  obtain ⟨m, hm, log, hlog, rfl⟩ := mem_logAttributes.mp ha
  obtain ⟨id, hid, rfl⟩ := Option.map_eq_some_iff.mp hevent
  obtain ⟨evmTx, hmem, htx, rfl⟩ := mappingEvmTxId_eq_some hid
  have hrow := (mem_between.mp (htxs.mem_iff.mp hmem)).1
  obtain ⟨m', hm', hof, -⟩ := hinv.sound evmTx hrow
  obtain ⟨hin, hmsg⟩ := mem_txMsgs.mp hm
  -- the row is of a message of the same transaction, which has only one
  have heq : m'.tx = m.tx := tx_eq_of_id hm' hm (hof.tx_id ▸ htx)
  have hmsg' := (mem_txMsgs.mp hm').2
  rw [heq, halone m.tx hin m.msg hmsg (List.ne_nil_of_mem hlog), List.mem_singleton] at hmsg'
  refine ⟨evmTx, hrow, rfl, ?_⟩
  calc evmTx.hash
    _ = m'.msg.content.hash := hof.hash
    _ = m.msg.content.hash := by rw [hmsg']
    _ = log.transactionHash := (chain.log_hashes m.tx hin m.msg hmsg log hlog).symm

/-- A row of another message that the query returns last takes the logs. -/
theorem exists_wrong_event (env : Env) (hinv : Inv chain db)
    (hs : s = startOf chain .jobCrawlEvmEvent db)
    (he : e = endOf chain .jobCrawlEvmEvent Checkpoint.crawlEvmEventHandler db)
    {m m' : TxMsg} (hm : m ∈ chain.txMsgs) (hm' : m' ∈ chain.txMsgs) (htx : m'.tx = m.tx)
    (hrange : s < m.tx.height ∧ m.tx.height ≤ e) {log : TxLog} (hlog : log ∈ m.msg.logs)
    (hne : m'.msg ≠ m.msg) : ∃ db', Step env chain db db' ∧ ¬ Right chain db' := by
  have hle : e ≤ startOf chain .handleTransactionEvm db := he ▸ endOf_crawlEvmEvent_le chain db
  obtain ⟨evmTx', hrow', hof'⟩ := hinv.complete m' hm' (htx ▸ hrange.2.trans hle)
  have hin' : evmTx' ∈ between (·.height) s e db.evm_transaction := by
    refine mem_between.mpr ⟨hrow', ?_⟩
    rw [hof'.height, htx]
    exact hrange
  have hpick : ∃ evmTxs, Returned unsorted (between (·.height) s e db.evm_transaction) evmTxs ∧
      (evmTxs.filter fun x => x.tx_id = m.tx.id).getLast? = some evmTx' :=
    exists_returned_getLast? hin' (decide_eq_true (htx ▸ hof'.tx_id)) fun _ _ _ => le_refl _
  obtain ⟨evmTxs, htxs, hlast⟩ := hpick
  obtain ⟨attrs, hattrs⟩ := exists_returned LogAttribute.event_id
    (between (·.block_height) s e chain.logAttributes)
  obtain ⟨db', hrun⟩ := exists_crawlEvmEventHandler (fun a ha =>
    isSome_evmEventOf hinv hle htxs (hattrs.mem_iff.mp ha)) s e db
  refine ⟨db', .crawlEvmEvent hs he hattrs htxs hrun, fun hright => ?_⟩
  obtain ⟨new, hnew, rfl⟩ := crawlEvmEventHandler_eq_some hrun
  -- the event of the log
  have hattr : (⟨m.tx.id, m.msg.event_id, m.tx.height, log⟩ : LogAttribute) ∈ attrs :=
    hattrs.mem_iff.mpr (mem_between.mpr ⟨mem_logAttributes.mpr ⟨m, hm, log, hlog, rfl⟩, hrange⟩)
  have hevent := List.mem_map_of_mem (f := evmEventOf evmTxs) hattr
  rw [hnew] at hevent
  obtain ⟨event, hevent, heq⟩ := List.mem_map.mp hevent
  have hid : mappingEvmTxId evmTxs m.tx.id = some evmTx'.id := by
    rw [mappingEvmTxId, hlast]
    rfl
  obtain ⟨id, hid', rfl⟩ := Option.map_eq_some_iff.mp heq.symm
  cases hid.symm.trans hid'
  obtain ⟨evmTx, hrow, hids, hhash⟩ := hright.events _ (List.mem_append_right _ hevent)
  cases List.inj_on_of_nodup_map hinv.ids hrow hrow' hids
  -- two messages of one transaction with one hash
  obtain ⟨hin, hmsg⟩ := mem_txMsgs.mp hm
  have hmsg' : m'.msg ∈ m.tx.msgs := htx ▸ (mem_txMsgs.mp hm').2
  refine hne (List.inj_on_of_nodup_map (chain.hashes m.tx hin) hmsg' hmsg ?_)
  calc m'.msg.content.hash
    _ = evmTx'.hash := hof'.hash.symm
    _ = log.transactionHash := hhash
    _ = m.msg.content.hash := chain.log_hashes m.tx hin m.msg hmsg log hlog

end

/-! ### Runs that go far enough -/

section
variable {env : Env} {chain : Chain}

theorem lastHeight_singleton {t : Checkpoints BullJobName} {d : BullJobName} {h : ℕ}
    (hd : heightOf t d = some h) : lastHeight t [d] = some h :=
  lastHeight_eq_some_iff.mpr ⟨⟨d, List.mem_singleton_self d, hd⟩, fun d' hd' h' hh' => by
    rw [List.mem_singleton.mp hd', hd] at hh'
    exact (Option.some.inj hh').le⟩

theorem endOf_handleTransactionEvm (chain : Chain) {db : Db} {h : ℕ}
    (hd : heightOf db.block_checkpoint .handleTransaction = some h) :
    endOf chain .handleTransactionEvm Checkpoint.handleTransactionEvm db =
      min (startOf chain .handleTransactionEvm db + 10000) h :=
  endHeight_of_lastHeight (n := some 10000) (lastHeight_singleton hd)

theorem endOf_crawlEvmEvent {db : Db} (hd : chain.start < startOf chain .handleTransactionEvm db) :
    endOf chain .jobCrawlEvmEvent Checkpoint.crawlEvmEventHandler db =
      min (startOf chain .jobCrawlEvmEvent db + 50) (startOf chain .handleTransactionEvm db) := by
  have hrow : heightOf db.block_checkpoint .handleTransactionEvm =
      some (startOf chain .handleTransactionEvm db) := by
    rw [startOf, startHeight] at hd ⊢
    cases hheight : heightOf db.block_checkpoint .handleTransactionEvm with
    | some height => rfl
    | none =>
      rw [hheight] at hd
      exact absurd hd (lt_irrefl _)
  exact endHeight_of_lastHeight (n := some 50) (lastHeight_singleton hrow)

/-- The rows can be ahead of the events by any height. -/
theorem exists_rows_ahead (env : Env) (chain : Chain) (h : ℕ) : ∃ db, Reachable env chain db ∧
    startOf chain .jobCrawlEvmEvent db = chain.start ∧
    h ≤ startOf chain .handleTransactionEvm db := by
  -- one run after the other until the height is reached
  have hrun : ∀ k : ℕ, ∃ db, Reachable env chain db ∧
      startOf chain .jobCrawlEvmEvent db = chain.start ∧
      heightOf db.block_checkpoint .handleTransaction = some h ∧
      min k h ≤ startOf chain .handleTransactionEvm db := by
    intro k
    induction k with
    | zero =>
      refine ⟨_, .single (.handleTransaction initialDb h), ?_, ?_, by simp⟩
      · rw [startOf_handleTransaction h (by decide)]
        rfl
      · rw [heightOf_upsert, if_pos rfl]
    | succ k ih =>
      obtain ⟨db, hreach, hevent, htx, hle⟩ := ih
      rcases Nat.lt_or_ge (startOf chain .handleTransactionEvm db) h with hlt | hge
      swap
      · exact ⟨db, hreach, hevent, htx, (min_le_right _ _).trans hge⟩
      obtain ⟨txMsgs, hmsgs⟩ := exists_returned TxMsg.rank (between (·.tx.height)
        (startOf chain .handleTransactionEvm db)
        (endOf chain .handleTransactionEvm Checkpoint.handleTransactionEvm db) chain.txMsgs)
      obtain ⟨failedTxIds, hfailed⟩ := exists_returned unsorted (between (·.block_height)
        (startOf chain .handleTransactionEvm db)
        (endOf chain .handleTransactionEvm Checkpoint.handleTransactionEvm db)
        chain.failedAttributes)
      have hend := endOf_handleTransactionEvm chain htx
      have hpos : startOf chain .handleTransactionEvm db <
          endOf chain .handleTransactionEvm Checkpoint.handleTransactionEvm db := by omega
      refine ⟨_, hreach.tail (.handleTransactionEvm rfl rfl hmsgs hfailed), ?_, ?_, ?_⟩
      · rw [startOf_handleTransactionEvm hpos, if_neg (by decide), hevent]
      · rw [handleTransactionEvm, if_neg (not_le.mpr hpos)]
        exact (heightOf_upsert ..).trans ((if_neg (by simp)).trans htx)
      · rw [startOf_handleTransactionEvm hpos, if_pos rfl]
        omega
  obtain ⟨db, hreach, hevent, -, hle⟩ := hrun h
  exact ⟨db, hreach, hevent, by simpa using hle⟩

/-- The next range of the events can be made to hold any height that has its rows. -/
theorem exists_event_range {h : ℕ} (hstart : chain.start < h) (n : ℕ) : ∀ {db : Db},
    Reachable env chain db → h ≤ startOf chain .handleTransactionEvm db →
    startOf chain .jobCrawlEvmEvent db < h → h ≤ startOf chain .jobCrawlEvmEvent db + n →
    ∃ db', Reachable env chain db' ∧ startOf chain .jobCrawlEvmEvent db' < h ∧
      h ≤ endOf chain .jobCrawlEvmEvent Checkpoint.crawlEvmEventHandler db' := by
  induction n with
  | zero =>
    intro db _ _ hlt hle
    omega
  | succ n ih =>
    intro db hreach hrows hlt hle
    have hend := endOf_crawlEvmEvent (hstart.trans_le hrows)
    rcases Nat.lt_or_ge (endOf chain .jobCrawlEvmEvent Checkpoint.crawlEvmEventHandler db) h
      with hbelow | habove
    swap
    · exact ⟨db, hreach, hlt, habove⟩
    obtain ⟨attrs, hattrs⟩ := exists_returned LogAttribute.event_id (between (·.block_height)
      (startOf chain .jobCrawlEvmEvent db)
      (endOf chain .jobCrawlEvmEvent Checkpoint.crawlEvmEventHandler db) chain.logAttributes)
    obtain ⟨evmTxs, htxs⟩ := exists_returned unsorted (between (·.height)
      (startOf chain .jobCrawlEvmEvent db)
      (endOf chain .jobCrawlEvmEvent Checkpoint.crawlEvmEventHandler db) db.evm_transaction)
    obtain ⟨db', hrun⟩ := exists_crawlEvmEventHandler (fun a ha => isSome_evmEventOf
      (inv_of_reachable hreach) (endOf_crawlEvmEvent_le chain db) htxs (hattrs.mem_iff.mp ha))
      (startOf chain .jobCrawlEvmEvent db)
      (endOf chain .jobCrawlEvmEvent Checkpoint.crawlEvmEventHandler db) db
    have hstarts := startOf_crawlEvmEventHandler chain hrun
    have hown := hstarts .jobCrawlEvmEvent
    have hother := hstarts .handleTransactionEvm
    rw [if_pos rfl] at hown
    rw [if_neg (by decide)] at hother
    refine ih (hreach.tail (.crawlEvmEvent rfl rfl hattrs htxs hrun)) ?_ ?_ ?_ <;> omega

end

end TransactionsLemmas

/-! ## 7. The result -/

section
variable {env : Env} {chain : Chain} {db db' : Db}

/-- A list without duplicates that holds `a` and nothing else. -/
theorem eq_singleton_of_nodup {α : Type} {l : List α} {a : α} (hnd : l.Nodup) (ha : a ∈ l)
    (hall : ∀ x ∈ l, x = a) : l = [a] := by
  rw [List.eq_replicate_of_mem hall] at hnd ⊢
  have hle := List.nodup_replicate.mp hnd
  have hpos := List.length_pos_of_mem ha
  rw [show l.length = 1 by omega]
  rfl

/-- A step keeps the events right if a message that emits logs is the only one. -/
theorem events_right_step (hinv : Inv chain db) (halone : ∀ tx ∈ chain.txs, LogsAlone tx)
    (hstep : Step env chain db db')
    (h : ∀ event ∈ db.evm_event, ∃ evmTx ∈ db.evm_transaction,
      evmTx.id = event.evm_tx_id ∧ evmTx.hash = event.tx_hash) :
    ∀ event ∈ db'.evm_event, ∃ evmTx ∈ db'.evm_transaction,
      evmTx.id = event.evm_tx_id ∧ evmTx.hash = event.tx_hash := by
  cases hstep with
  | handleTransaction height => exact h
  | @handleTransactionEvm s e _ _ _ _ _ _ =>
    rcases Nat.lt_or_ge s e with hlt | hge
    · rw [handleTransactionEvm, if_neg (not_le.mpr hlt)]
      intro event hevent
      obtain ⟨evmTx, hmem, hright⟩ := h event hevent
      exact ⟨evmTx, List.mem_append_left _ hmem, hright⟩
    · rwa [handleTransactionEvm, if_pos hge]
  | crawlEvmEvent hs he hattrs htxs hrun =>
    obtain ⟨new, hnew, rfl⟩ := crawlEvmEventHandler_eq_some hrun
    intro event hevent
    rcases List.mem_append.mp hevent with hold | hevent
    · exact h event hold
    · have hmem := List.mem_map_of_mem (f := some) hevent
      rw [← hnew] at hmem
      obtain ⟨a, ha, hof⟩ := List.mem_map.mp hmem
      exact evmEventOf_right hinv halone htxs (mem_between.mp (hattrs.mem_iff.mp ha)).1 hof

/-- When the transactions meet the condition, every run is right. -/
theorem right_of_reachable (hsame : ∀ tx ∈ chain.txs, SameOutcome tx)
    (halone : ∀ tx ∈ chain.txs, LogsAlone tx) (h : Reachable env chain db) : Right chain db := by
  constructor
  · induction h with
    | refl => simp [initialDb]
    | tail hreach hstep ih => exact events_right_step (inv_of_reachable hreach) halone hstep ih
  · intro evmTx hmem
    obtain ⟨m, hm, hof, -, hout⟩ := (inv_of_reachable h).sound evmTx hmem
    obtain ⟨hin, hmsg⟩ := mem_txMsgs.mp hm
    obtain ⟨msg, hmsg', hreason⟩ := hout.reason
    have heq : evmTx.reason = m.msg.failure := by
      rw [← hreason, hsame m.tx hin msg hmsg' m.msg hmsg]
    exact ⟨m, hm, hof.tx_msg_id.symm, heq ▸ hout.status, heq⟩

/-- In a state that has the rows of a transaction, right statuses mean that its messages ended
alike. -/
theorem sameOutcome_of_right (hinv : Inv chain db) (hright : Right chain db)
    {tx : CosmosTx} (htx : tx ∈ chain.txs)
    (hle : tx.height ≤ startOf chain .handleTransactionEvm db) : SameOutcome tx := by
  have hown : ∀ msg ∈ tx.msgs, ∃ evmTx ∈ db.evm_transaction, evmTx.tx_id = tx.id ∧
      evmTx.reason = msg.failure := by
    intro msg hmsg
    have hm : (⟨tx, msg⟩ : TxMsg) ∈ chain.txMsgs := mem_txMsgs.mpr ⟨htx, hmsg⟩
    obtain ⟨evmTx, hmem, hof⟩ := hinv.complete _ hm hle
    obtain ⟨m, hm', hid, -, hreason⟩ := hright.statuses evmTx hmem
    have heq := msg_eq_of_id hm' hm (hid.trans hof.tx_msg_id)
    exact ⟨evmTx, hmem, hof.tx_id, hreason.trans (congrArg EthereumTx.failure heq)⟩
  intro msg hmsg msg' hmsg'
  obtain ⟨evmTx, hmem, hid, hreason⟩ := hown msg hmsg
  obtain ⟨evmTx', hmem', hid', hreason'⟩ := hown msg' hmsg'
  rw [← hreason, ← hreason', hinv.same evmTx hmem evmTx' hmem' (hid.trans hid'.symm)]

/-- If every run is right, a message that emits logs is the only one. -/
theorem logsAlone_of_right (hright : ∀ db, Reachable env chain db → Right chain db)
    {tx : CosmosTx} (htx : tx ∈ chain.txs) : LogsAlone tx := by
  intro msg hmsg hlogs
  refine eq_singleton_of_nodup (List.Nodup.of_map _ (chain.hashes tx htx)) hmsg ?_
  intro msg' hmsg'
  by_contra hne
  obtain ⟨log, hlog⟩ := List.exists_mem_of_ne_nil _ hlogs
  have hstart := chain.heights tx htx
  obtain ⟨db, hreach, hevent, hle⟩ := exists_rows_ahead env chain tx.height
  obtain ⟨db', hreach', hlt, hend⟩ := exists_event_range hstart tx.height hreach hle
    (hevent ▸ hstart) (by omega)
  have hm : (⟨tx, msg⟩ : TxMsg) ∈ chain.txMsgs := mem_txMsgs.mpr ⟨htx, hmsg⟩
  have hm' : (⟨tx, msg'⟩ : TxMsg) ∈ chain.txMsgs := mem_txMsgs.mpr ⟨htx, hmsg'⟩
  obtain ⟨db'', hstep, hwrong⟩ := exists_wrong_event env (inv_of_reachable hreach') rfl rfl hm hm' rfl
    ⟨hlt, hend⟩ hlog hne
  exact hwrong (hright db'' (hreach'.tail hstep))

end

/-- Events and statuses belong to the right row in every run exactly when the messages of a Cosmos
transaction end alike and one that emits logs is alone. -/
theorem evm_transactions_iff (env : Env) (chain : Chain) :
    (∀ db, Reachable env chain db → Right chain db) ↔
      ∀ tx ∈ chain.txs, SameOutcome tx ∧ LogsAlone tx := by
  constructor
  · intro hright tx htx
    obtain ⟨db, hreach, -, hle⟩ := exists_rows_ahead env chain tx.height
    exact ⟨sameOutcome_of_right (inv_of_reachable hreach) (hright db hreach) htx hle,
      logsAlone_of_right hright htx⟩
  · intro hcond db hreach
    exact right_of_reachable (fun tx htx => (hcond tx htx).1) (fun tx htx => (hcond tx htx).2) hreach

/-- A network in which no receipt has a contract address. -/
def noReceipts : Env := ⟨id, fun _ => none⟩

/-- A message with the given id, hash and failure, without logs. -/
def plainMsg (tx_msg_id : ℕ) (hash : String) (failure : Option String) : EthereumTx :=
  { tx_msg_id := tx_msg_id, sender := some "aura1sender", content := ⟨hash, none, none, none⟩
    failure := failure, event_id := tx_msg_id, logs := [] }

/-- A Cosmos transaction with two messages, of which the second is reverted. -/
def batchTx : CosmosTx :=
  { id := 1, height := 100, index := 0
    msgs := [plainMsg 1 "0xaa" none, plainMsg 2 "0xbb" (some "execution reverted")] }

def batchChain : Chain where
  start := 0
  txs := [batchTx]
  ids := by decide
  msg_ids := by decide
  heights := by decide
  hashes := by decide +kernel
  log_hashes := by decide

/-- The message that succeeds gets the status and the reason of the one beside it. -/
theorem failed_beside_succeeded :
    ∃ db, Reachable noReceipts batchChain db ∧ ¬ Right batchChain db := by
  obtain ⟨db, hreach, -, hle⟩ := exists_rows_ahead noReceipts batchChain 100
  refine ⟨db, hreach, fun hright => ?_⟩
  have htx : batchTx ∈ batchChain.txs := List.mem_singleton_self _
  have hsame := sameOutcome_of_right (inv_of_reachable hreach) hright htx hle
    (plainMsg 1 "0xaa" none) (by simp [batchTx])
    (plainMsg 2 "0xbb" (some "execution reverted")) (by simp [batchTx])
  simp [plainMsg] at hsame

end Erascope.Evm
