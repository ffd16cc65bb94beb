import Mathlib.Tactic
import Erascope.Lib.Serial
import Erascope.Ibc.App

/-!
# IBC clients, connections and channels

The model of `services/ibc/crawl_ibc_tao.service.ts`. A run takes the events of its range that
create a client, open a connection, open or close a channel, joins each with its message like
`CRAWL_IBC_APP` does, and writes in one transaction: new clients, then new connections with the
id of their client, then new channels with the id of their connection, then the closed channels.
`HANDLE_AUTHZ_TX` inserts sub-messages, which take part in the join, in no fixed order.

Results:
1. `tables_replay_history`: in every run of the jobs the three tables are what the events up to
   the checkpoint say: one row for each client, connection and channel, with the right reference,
   and a channel is closed when one of its closing events is there.
2. `crawlIbcTao_commits_iff`: a run commits if and only if every event of its range is joined with
   one message, the new clients have a state in their message, and what the others name is known.
3. `crawlIbcTao_blocked`: after a run that throws, nothing is ever written again.
-/

namespace Erascope.Ibc.Tao

open Checkpoint Authz

/-! ## 1. Rows -/

/-- What the job reads of the content of a message: the objects `client_state` and
`consensus_state`, when they are there, and `chain_id` of the first. -/
class ClientContent (C J : Type) where
  client_state : C → Option J
  consensus_state : C → Option J
  chain_id : J → Option (Option String)

/-- A row of `ibc_client` without its id. -/
structure IbcClient (J : Type) where
  client_id : String
  counterparty_chain_id : String
  client_state : J
  consensus_state : J
  client_type : String
deriving DecidableEq, Repr

/-- A row of `ibc_connection` without its id. -/
structure IbcConnection where
  ibc_client_id : ℕ
  connection_id : String
  counterparty_client_id : String
  counterparty_connection_id : String
deriving DecidableEq, Repr

/-- A row of `ibc_channel` without its id. -/
structure IbcChannel where
  ibc_connection_id : ℕ
  channel_id : String
  port_id : String
  counterparty_port_id : String
  counterparty_channel_id : String
  state : String
deriving DecidableEq, Repr

/-- `IbcChannel.STATUS` -/
def statusOpen : String := "OPEN"
@[inherit_doc statusOpen] def statusClose : String := "CLOSE"

/-- The tables; `client_id`, `connection_id` and `channel_id` are unique. -/
structure Db (C J : Type) extends Ibc.Db C where
  ibc_client : Serial (IbcClient.client_id (J := J))
  ibc_connection : Serial IbcConnection.connection_id
  ibc_channel : Serial IbcChannel.channel_id

/-! ## 2. Events -/

/-- `Event.EVENT_TYPE` -/
def createClient : String := "create_client"
@[inherit_doc createClient] def connectionOpenAck : String := "connection_open_ack"
@[inherit_doc createClient] def connectionOpenConfirm : String := "connection_open_confirm"
@[inherit_doc createClient] def channelOpenAck : String := "channel_open_ack"
@[inherit_doc createClient] def channelOpenConfirm : String := "channel_open_confirm"
@[inherit_doc createClient] def channelCloseInit : String := "channel_close_init"
@[inherit_doc createClient] def channelCloseConfirm : String := "channel_close_confirm"
@[inherit_doc createClient] def channelClose : String := "channel_close"

/-- The filters of `crawlIbcTao`. -/
def clientTypes : List String := [createClient]
@[inherit_doc clientTypes] def connectionTypes : List String :=
  [connectionOpenConfirm, connectionOpenAck]
@[inherit_doc clientTypes] def channelTypes : List String := [channelOpenAck, channelOpenConfirm]
@[inherit_doc clientTypes] def closeTypes : List String :=
  [channelClose, channelCloseConfirm, channelCloseInit]

/-- The types that the query selects. -/
def taoTypes : List String :=
  [createClient, connectionOpenAck, connectionOpenConfirm, channelOpenAck, channelOpenConfirm,
    channelCloseInit, channelCloseConfirm, channelClose]

/-- A row of the query: an event with the content of a message. -/
structure JoinedEvent (C : Type) where
  event : Event
  content : C

section
variable {C J : Type}

/-- `joinRelated('message')` for one event. -/
def joinMessage (messages : List (TransactionMessage C)) (e : Event) : List (JoinedEvent C) :=
  (messages.filter fun m => Matches e m).map fun m => ⟨e, m.content⟩

/-- The events of a range. -/
def taoEvents (event : List Event) (startHeight endHeight : ℕ) : List Event :=
  between (·.block_height) startHeight endHeight (event.filter fun e => e.type ∈ taoTypes)

/-- The query of `crawlIbcTao`. -/
def queryEvents (db : Db C J) (startHeight endHeight : ℕ) : List (JoinedEvent C) :=
  ((taoEvents db.event startHeight endHeight).insertionSort fun a b => a.id ≤ b.id).flatMap
    (joinMessage db.transaction_message.rows)

/-- `events.filter(...)` -/
def ofTypes (types : List String) (events : List (JoinedEvent C)) : List (JoinedEvent C) :=
  events.filter fun joined => joined.event.type ∈ types

/-! ## 3. The handlers -/

/-- `getAttributeFrom` of an event. -/
def attr (key : String) (joined : JoinedEvent C) : Option (Option String) :=
  getAttributeFrom joined.event.attributes key

/-- The record of a `create_client` event; `none` when the code throws. -/
def newClient [ClientContent C J] (joined : JoinedEvent C) : Option (IbcClient J) := do
  let client_state ← ClientContent.client_state joined.content
  let client_id ← requiredString (attr "client_id" joined)
  let counterparty_chain_id ← requiredString (ClientContent.chain_id C client_state)
  let consensus_state ← ClientContent.consensus_state joined.content
  let client_type ← requiredString (attr "client_type" joined)
  return { client_id, counterparty_chain_id, client_state, consensus_state, client_type }

/-- `handleNewIbcClient` -/
def handleNewIbcClient [ClientContent C J] (events : List (JoinedEvent C))
    (ibc_client : Serial (IbcClient.client_id (J := J))) :
    Option (Serial (IbcClient.client_id (J := J))) :=
  if events.isEmpty then some ibc_client
  else do
    let newClients ← events.mapM newClient
    ibc_client.insert newClients

/-- `_.keyBy(rows of the values, column)[value].id`: an undefined value among those of the query
is an error of the query, a value without a row an error of the access. -/
def idByKey {ρ : Type} {key : ρ → String} (t : Serial key) (values : List (Option (Option String)))
    (value : Option (Option String)) : Option ℕ :=
  if none ∈ values then none
  else ((t.rows.filter fun r => some (some (key r.row)) ∈ values).find? fun r =>
    key r.row = text value).map (·.id)

/-- The record of an opened connection; `clientIds` are the values of the query of the clients. -/
def newConnection (ibc_client : Serial (IbcClient.client_id (J := J)))
    (clientIds : List (Option (Option String))) (joined : JoinedEvent C) :
    Option IbcConnection := do
  let ibc_client_id ← idByKey ibc_client clientIds (attr "client_id" joined)
  let connection_id ← requiredString (attr "connection_id" joined)
  let counterparty_client_id ← requiredString (attr "counterparty_client_id" joined)
  let counterparty_connection_id ← requiredString (attr "counterparty_connection_id" joined)
  return { ibc_client_id, connection_id, counterparty_client_id, counterparty_connection_id }

/-- `handleNewIbcConnection` -/
def handleNewIbcConnection (events : List (JoinedEvent C))
    (ibc_client : Serial (IbcClient.client_id (J := J)))
    (ibc_connection : Serial IbcConnection.connection_id) :
    Option (Serial IbcConnection.connection_id) :=
  if events.isEmpty then some ibc_connection
  else do
    let newConnections ← events.mapM (newConnection ibc_client (events.map (attr "client_id")))
    ibc_connection.insert newConnections

/-- The record of an opened channel. -/
def newChannel (ibc_connection : Serial IbcConnection.connection_id)
    (connectionIds : List (Option (Option String))) (joined : JoinedEvent C) :
    Option IbcChannel := do
  let ibc_connection_id ← idByKey ibc_connection connectionIds (attr "connection_id" joined)
  let channel_id ← requiredString (attr "channel_id" joined)
  let port_id ← requiredString (attr "port_id" joined)
  let counterparty_port_id ← requiredString (attr "counterparty_port_id" joined)
  let counterparty_channel_id ← requiredString (attr "counterparty_channel_id" joined)
  return { ibc_connection_id, channel_id, port_id, counterparty_port_id, counterparty_channel_id,
           state := statusOpen }

/-- `handleNewIbcChannel` -/
def handleNewIbcChannel (events : List (JoinedEvent C))
    (ibc_connection : Serial IbcConnection.connection_id)
    (ibc_channel : Serial IbcChannel.channel_id) : Option (Serial IbcChannel.channel_id) :=
  if events.isEmpty then some ibc_channel
  else do
    let newChannels ← events.mapM (newChannel ibc_connection (events.map (attr "connection_id")))
    ibc_channel.insert newChannels

/-- `patch({ state: IbcChannel.STATUS.CLOSE })` where the channel is one of `channelIds`. -/
def closeChannels (channelIds : List String) (ibc_channel : Serial IbcChannel.channel_id) :
    Serial IbcChannel.channel_id :=
  ibc_channel.modify
    (fun r => if r.channel_id ∈ channelIds then { r with state := statusClose } else r)
    (fun r => by split <;> rfl)

/-- `handleCloseIbcChannel`: an event without `channelId` is an error. -/
def handleCloseIbcChannel (events : List (JoinedEvent C))
    (ibc_channel : Serial IbcChannel.channel_id) : Option (Serial IbcChannel.channel_id) := do
  let channelIds ← events.mapM fun joined => truthy (attr "channel_id" joined).join
  return closeChannels channelIds ibc_channel

/-! ## 4. The system -/

variable [ClientContent C J] (startBlock : ℕ)

/-- `crawlIbcTao`; `none` when it throws and the transaction is rolled back. -/
def crawlIbcTao (db : Db C J) : Option (Db C J) :=
  let (startHeight, endHeight, updateBlockCheckpoint) :=
    getCheckpoint startBlock db.block_checkpoint .crawlIbcTao
      Checkpoint.crawlIbcTao.lastHeightJobNames Checkpoint.crawlIbcTao.blocksPerCall
  if Checkpoint.crawlIbcTao.rangeTest.returns startHeight endHeight then some db
  else do
    let events := queryEvents db startHeight endHeight
    let ibc_client ← handleNewIbcClient (ofTypes clientTypes events) db.ibc_client
    let ibc_connection ←
      handleNewIbcConnection (ofTypes connectionTypes events) ibc_client db.ibc_connection
    let opened ← handleNewIbcChannel (ofTypes channelTypes events) ibc_connection db.ibc_channel
    let ibc_channel ← handleCloseIbcChannel (ofTypes closeTypes events) opened
    return { db with
      ibc_client, ibc_connection, ibc_channel
      block_checkpoint := storeCheckpoint db.block_checkpoint updateBlockCheckpoint endHeight }

/-- The value of an attribute as a text. -/
def textOf (key : String) (e : Event) : String := text (getAttributeFrom e.attributes key)

/-- The events of transactions that the job is about. -/
def history (event : List Event) : List Event :=
  event.filter fun e => decide (e.type ∈ taoTypes) && decide (e.tx_id ≠ none)

/-- The events of some types. -/
def select (types : List String) (events : List Event) : List Event :=
  events.filter fun e => e.type ∈ types

/-- The attributes of an event of a type. -/
def columns (type : String) : List String :=
  if type ∈ clientTypes then ["client_id", "client_type"]
  else if type ∈ connectionTypes then
    ["client_id", "connection_id", "counterparty_client_id", "counterparty_connection_id"]
  else if type ∈ channelTypes then
    ["connection_id", "channel_id", "port_id", "counterparty_port_id", "counterparty_channel_id"]
  else ["channel_id"]

/-- What the chain promises of its events: they carry their attributes, a client, a connection and
a channel is made once, and not after an event that names it. -/
structure HistoryOk (events : List Event) : Prop where
  columns : ∀ e ∈ events, ∀ key ∈ columns e.type, ((getAttributeFrom e.attributes key).join).isSome
  channel_id : ∀ e ∈ select closeTypes events, textOf "channel_id" e ≠ ""
  clients : ((select clientTypes events).map (textOf "client_id")).Nodup
  connections : ((select connectionTypes events).map (textOf "connection_id")).Nodup
  channels : ((select channelTypes events).map (textOf "channel_id")).Nodup
  client_first : ∀ c ∈ select clientTypes events, ∀ e ∈ select connectionTypes events,
    textOf "client_id" e = textOf "client_id" c → c.block_height ≤ e.block_height
  connection_first : ∀ c ∈ select connectionTypes events, ∀ e ∈ select channelTypes events,
    textOf "connection_id" e = textOf "connection_id" c → c.block_height ≤ e.block_height
  channel_first : ∀ c ∈ select channelTypes events, ∀ e ∈ select closeTypes events,
    textOf "channel_id" e = textOf "channel_id" c → c.block_height ≤ e.block_height

instance (events : List Event) : Decidable (HistoryOk events) :=
  decidable_of_iff (_ ∧ _ ∧ _ ∧ _ ∧ _ ∧ _ ∧ _ ∧ _)
    ⟨fun ⟨a, b, c, d, e, f, g, h⟩ => ⟨a, b, c, d, e, f, g, h⟩,
      fun ⟨a, b, c, d, e, f, g, h⟩ => ⟨a, b, c, d, e, f, g, h⟩⟩

/-- What the chain and `HANDLE_TRANSACTION` promise of a batch, beside what `CRAWL_IBC_APP` relies
on: the events are above `startBlock`, and one of a transaction carries the index of a message. -/
def TaoBatchOk (db : Db C J) (batch : Batch C) : Prop :=
  BatchOk startBlock db.toDb batch ∧ HistoryOk (history (db.event ++ batch.event)) ∧
  ∀ e ∈ history batch.event,
    ∃ m ∈ batch.messages, e.tx_id = some m.tx_id ∧ e.tx_msg_index = some m.index

instance (db : Db C J) (batch : Batch C) : Decidable (TaoBatchOk startBlock db batch) :=
  inferInstanceAs (Decidable (_ ∧ _ ∧ _))

/-- A step of the system. -/
inductive TaoStep (C : Type)
  | handleTransaction (batch : Batch C)
  | handleAuthz
  | crawlIbcTao

variable [MessageContent C]

/-- The step function. A batch that the chain does not promise changes nothing; neither does a run
that throws. -/
def taoStep (db : Db C J) : TaoStep C → Db C J
  | .handleTransaction batch =>
    if TaoBatchOk startBlock db batch then { db with toDb := commitBatch db.toDb batch } else db
  | .handleAuthz =>
    let (messages, checkpoints) :=
      Authz.handleAuthz startBlock db.transaction db.transaction_message db.block_checkpoint
    { db with transaction_message := messages, block_checkpoint := checkpoints }
  | .crawlIbcTao => (crawlIbcTao startBlock db).getD db

/-- The tables before the first run. -/
def Db.initial : Db C J where
  toDb := ⟨Table.empty, Messages.empty, [], [], Table.empty⟩
  ibc_client := Serial.empty
  ibc_connection := Serial.empty
  ibc_channel := Serial.empty

/-! ## 5. The property -/

omit [MessageContent C]

/-- The `CRAWL_IBC_TAO` checkpoint. -/
def taoReached (db : Ibc.Db C) : ℕ := startHeight startBlock db.block_checkpoint .crawlIbcTao

/-- The events up to a height. -/
def upTo (height : ℕ) (events : List Event) : List Event :=
  events.filter fun e => e.block_height ≤ height

/-- The client of a `create_client` event, by its top-level message. -/
def clientOf (db : Ibc.Db C) (e : Event) : Option (IbcClient J) :=
  (topMessage db e).bind fun m => newClient ⟨e, m.content⟩

/-- A connection with the `client_id` that it belongs to. -/
structure ConnectionInfo where
  client_id : String
  connection_id : String
  counterparty_client_id : String
  counterparty_connection_id : String
deriving DecidableEq, Repr

/-- A channel with the `connection_id` that it belongs to. -/
structure ChannelInfo where
  connection_id : String
  channel_id : String
  port_id : String
  counterparty_port_id : String
  counterparty_channel_id : String
  state : String
deriving DecidableEq, Repr

/-- What a row of `ibc_connection` says, its reference resolved. -/
def connectionInfo (ibc_client : Serial (IbcClient.client_id (J := J))) (c : IbcConnection) :
    Option ConnectionInfo :=
  (ibc_client.rowOf c.ibc_client_id).map fun client =>
    ⟨client.client_id, c.connection_id, c.counterparty_client_id, c.counterparty_connection_id⟩

/-- What a row of `ibc_channel` says, its reference resolved. -/
def channelInfo (ibc_connection : Serial IbcConnection.connection_id) (c : IbcChannel) :
    Option ChannelInfo :=
  (ibc_connection.rowOf c.ibc_connection_id).map fun connection =>
    ⟨connection.connection_id, c.channel_id, c.port_id, c.counterparty_port_id,
      c.counterparty_channel_id, c.state⟩

/-- The connection that an event opens. -/
def connectionOf (e : Event) : ConnectionInfo :=
  ⟨textOf "client_id" e, textOf "connection_id" e, textOf "counterparty_client_id" e,
    textOf "counterparty_connection_id" e⟩

/-- The channel that an event opens, when the channels `closed` have been closed. -/
def channelOf (closed : List String) (e : Event) : ChannelInfo :=
  ⟨textOf "connection_id" e, textOf "channel_id" e, textOf "port_id" e,
    textOf "counterparty_port_id" e, textOf "counterparty_channel_id" e,
    if textOf "channel_id" e ∈ closed then statusClose else statusOpen⟩

/-- The channels that the events close. -/
def closedBy (events : List Event) : List String :=
  (select closeTypes events).map (textOf "channel_id")

/-- The three tables are what the events say. -/
structure TablesOk (db : Db C J) (events : List Event) : Prop where
  clients : (db.ibc_client.data.map some).Perm
    ((select clientTypes events).map (clientOf db.toDb))
  connections : (db.ibc_connection.data.map (connectionInfo db.ibc_client)).Perm
    ((select connectionTypes events).map fun e => some (connectionOf e))
  channels : (db.ibc_channel.data.map (channelInfo db.ibc_connection)).Perm
    ((select channelTypes events).map fun e => some (channelOf (closedBy events) e))

/-- What a run needs of an event of its range: one that makes a row is joined with its top-level
message only; a client has its state there; the client of a connection and the connection of a
channel are made by an event that the indexer has. -/
structure Fine (db : Db C J) (e : Event) : Prop where
  alone : e.type ∉ closeTypes →
    ∀ m ∈ db.transaction_message.rows, Matches e m → m.parent_id = none
  client : e.type ∈ clientTypes → (clientOf (J := J) db.toDb e).isSome
  connection : e.type ∈ connectionTypes → ∃ c ∈ select clientTypes (history db.event),
    textOf "client_id" c = textOf "client_id" e
  channel : e.type ∈ channelTypes → ∃ c ∈ select connectionTypes (history db.event),
    textOf "connection_id" c = textOf "connection_id" e

/-- Where the range of the next run ends. -/
def nextEnd (db : Ibc.Db C) : ℕ :=
  endHeight (taoReached startBlock db) db.block_checkpoint
    Checkpoint.crawlIbcTao.lastHeightJobNames Checkpoint.crawlIbcTao.blocksPerCall

/-- The invariant of all runs. -/
structure TaoOk (db : Db C J) : Prop where
  base : DbOk startBlock db.toDb
  start_le : startBlock ≤ handled startBlock db.toDb
  history : HistoryOk (history db.event)
  event_top : ∀ e ∈ Tao.history db.event,
    ∃ m ∈ db.transaction_message.rows, m.parent_id = none ∧ Matches e m
  tables : TablesOk db (upTo (taoReached startBlock db.toDb) (Tao.history db.event))

namespace TaoLemmas

variable {startBlock : ℕ}

/-! ### Attributes -/

omit [ClientContent C J] in
theorem getAttributeFrom_eq {e : Event} {key : String}
    (h : ((getAttributeFrom e.attributes key).join).isSome) :
    getAttributeFrom e.attributes key = some (some (textOf key e)) := by
  rw [textOf]
  cases hget : getAttributeFrom e.attributes key with
  | none =>
    rw [hget] at h
    cases h
  | some value =>
    rw [hget] at h
    cases value with
    | none => cases h
    | some s => rfl

theorem columns_client {type : String} (h : type ∈ clientTypes) :
    columns type = ["client_id", "client_type"] := if_pos h

theorem columns_connection {type : String} (h : type ∈ connectionTypes) :
    columns type =
      ["client_id", "connection_id", "counterparty_client_id", "counterparty_connection_id"] := by
  have hnot : ∀ t ∈ connectionTypes, t ∉ clientTypes := by decide
  rw [columns, if_neg (hnot type h), if_pos h]

theorem columns_channel {type : String} (h : type ∈ channelTypes) :
    columns type = ["connection_id", "channel_id", "port_id", "counterparty_port_id",
      "counterparty_channel_id"] := by
  have hnot : ∀ t ∈ channelTypes, t ∉ clientTypes ∧ t ∉ connectionTypes := by decide
  rw [columns, if_neg (hnot type h).1, if_neg (hnot type h).2, if_pos h]

theorem columns_close {type : String} (h : type ∈ closeTypes) : columns type = ["channel_id"] := by
  have hnot : ∀ t ∈ closeTypes, t ∉ clientTypes ∧ t ∉ connectionTypes ∧ t ∉ channelTypes := by
    decide
  obtain ⟨h1, h2, h3⟩ := hnot type h
  rw [columns, if_neg h1, if_neg h2, if_neg h3]

/-- The event carries the attributes of its type. -/
def HasColumns (e : Event) : Prop :=
  ∀ key ∈ columns e.type, getAttributeFrom e.attributes key = some (some (textOf key e))

theorem HistoryOk.hasColumns {events : List Event} (h : HistoryOk events) {e : Event}
    (he : e ∈ events) : HasColumns e :=
  fun key hkey => getAttributeFrom_eq (h.columns e he key hkey)

/-! ### The access by key -/

theorem idByKey_eq {ρ : Type} {key : ρ → String} {t : Serial key}
    {values : List (Option (Option String))} {k : String}
    (hvalues : ∀ v ∈ values, ∃ s, v = some (some s)) (hk : some (some k) ∈ values) :
    idByKey t values (some (some k)) = t.idOf k := by
  have hnone : none ∉ values := by
    intro h
    obtain ⟨s, hs⟩ := hvalues none h
    cases hs
  rw [idByKey, if_neg hnone, Serial.idOf, List.find?_filter]
  congr 2
  funext r
  rw [text, Bool.eq_iff_iff]
  simp only [decide_eq_true_eq]
  exact ⟨fun h => h.2, fun h => ⟨h ▸ hk, h⟩⟩

/-! ### One event -/

theorem newClient_client_id {joined : JoinedEvent C} (hcol : HasColumns joined.event)
    (htype : joined.event.type ∈ clientTypes) {c : IbcClient J} (h : newClient joined = some c) :
    c.client_id = textOf "client_id" joined.event := by
  have hid : attr "client_id" joined = some (some (textOf "client_id" joined.event)) :=
    hcol _ (by rw [columns_client htype]; simp)
  have hclient_type : attr "client_type" joined = some (some (textOf "client_type" joined.event)) :=
    hcol _ (by rw [columns_client htype]; simp)
  simp only [newClient, hid, hclient_type, requiredString, Option.getD_some, Option.bind_eq_bind,
    Option.bind_some, Option.bind_eq_some_iff] at h
  obtain ⟨state, -, chain, -, consensus, -, h⟩ := h
  rw [← Option.some.inj h]

omit [ClientContent C J] in
theorem newConnection_eq {ibc_client : Serial (IbcClient.client_id (J := J))}
    {clientIds : List (Option (Option String))} {joined : JoinedEvent C}
    (hvalues : ∀ v ∈ clientIds, ∃ s, v = some (some s))
    (hmem : attr "client_id" joined ∈ clientIds) (hcol : HasColumns joined.event)
    (htype : joined.event.type ∈ connectionTypes) :
    newConnection ibc_client clientIds joined =
      (ibc_client.idOf (textOf "client_id" joined.event)).map fun id =>
        ⟨id, textOf "connection_id" joined.event, textOf "counterparty_client_id" joined.event,
          textOf "counterparty_connection_id" joined.event⟩ := by
  have hattr : ∀ key ∈ columns joined.event.type,
      attr key joined = some (some (textOf key joined.event)) := hcol
  rw [columns_connection htype] at hattr
  have hid := hattr "client_id" (by simp)
  rw [hid] at hmem
  rw [newConnection, hid, hattr "connection_id" (by simp),
    hattr "counterparty_client_id" (by simp), hattr "counterparty_connection_id" (by simp),
    idByKey_eq hvalues hmem]
  cases ibc_client.idOf (textOf "client_id" joined.event) <;> rfl

theorem newChannel_eq {ibc_connection : Serial IbcConnection.connection_id}
    {connectionIds : List (Option (Option String))} {joined : JoinedEvent C}
    (hvalues : ∀ v ∈ connectionIds, ∃ s, v = some (some s))
    (hmem : attr "connection_id" joined ∈ connectionIds) (hcol : HasColumns joined.event)
    (htype : joined.event.type ∈ channelTypes) :
    newChannel ibc_connection connectionIds joined =
      (ibc_connection.idOf (textOf "connection_id" joined.event)).map fun id =>
        ⟨id, textOf "channel_id" joined.event, textOf "port_id" joined.event,
          textOf "counterparty_port_id" joined.event,
          textOf "counterparty_channel_id" joined.event, statusOpen⟩ := by
  have hattr : ∀ key ∈ columns joined.event.type,
      attr key joined = some (some (textOf key joined.event)) := hcol
  rw [columns_channel htype] at hattr
  have hid := hattr "connection_id" (by simp)
  rw [hid] at hmem
  rw [newChannel, hid, hattr "channel_id" (by simp), hattr "port_id" (by simp),
    hattr "counterparty_port_id" (by simp), hattr "counterparty_channel_id" (by simp),
    idByKey_eq hvalues hmem]
  cases ibc_connection.idOf (textOf "connection_id" joined.event) <;> rfl

/-! ### The query -/

/-- The events of a range in the order of the query. -/
def rangeEvents (db : Ibc.Db C) (startHeight endHeight : ℕ) : List Event :=
  (between (·.block_height) startHeight endHeight (history db.event)).insertionSort
    fun a b => a.id ≤ b.id

theorem joinMessage_of_null {messages : List (TransactionMessage C)} {e : Event}
    (he : e.tx_id = none) : joinMessage messages e = [] := by
  have hnone : messages.filter (fun m => Matches e m) = [] := by
    rw [List.filter_eq_nil_iff]
    intro m _
    simp [Matches, he]
  rw [joinMessage, hnone, List.map_nil]

omit [ClientContent C J] in
/-- The events of a block drop out of the join. -/
theorem queryEvents_eq (db : Db C J) (startHeight endHeight : ℕ) :
    queryEvents db startHeight endHeight =
      (rangeEvents db.toDb startHeight endHeight).flatMap
        (joinMessage db.transaction_message.rows) := by
  have hrange : rangeEvents db.toDb startHeight endHeight =
      ((taoEvents db.event startHeight endHeight).insertionSort fun a b => a.id ≤ b.id).filter
        fun e => e.tx_id ≠ none := by
    have hkind : between (·.block_height) startHeight endHeight (history db.event) =
        (taoEvents db.event startHeight endHeight).filter fun e => e.tx_id ≠ none := by
      rw [taoEvents, between, between, history, List.filter_filter, List.filter_filter,
        List.filter_filter]
      refine List.filter_congr fun e _ => ?_
      rw [Bool.eq_iff_iff]
      simp only [Bool.and_eq_true, decide_eq_true_eq]
      tauto
    rw [rangeEvents, hkind, insertionSort_filter]
  rw [queryEvents, hrange, flatMap_filter]
  refine List.flatMap_congr fun e _ => ?_
  split
  · rfl
  · next h => exact joinMessage_of_null (by simpa using h)

theorem event_of_mem_joinMessage {messages : List (TransactionMessage C)} {e : Event}
    {joined : JoinedEvent C} (h : joined ∈ joinMessage messages e) : joined.event = e := by
  obtain ⟨m, -, rfl⟩ := List.mem_map.mp h
  rfl

theorem ofTypes_flatMap (types : List String) (messages : List (TransactionMessage C))
    (events : List Event) :
    ofTypes types (events.flatMap (joinMessage messages)) =
      (select types events).flatMap (joinMessage messages) := by
  rw [ofTypes, select, flatMap_filter, List.filter_flatMap]
  refine List.flatMap_congr fun e _ => ?_
  split
  · next h =>
    rw [List.filter_eq_self]
    intro joined hj
    rw [event_of_mem_joinMessage hj]
    exact h
  · next h =>
    rw [List.filter_eq_nil_iff]
    intro joined hj
    rw [event_of_mem_joinMessage hj]
    exact h

/-- An event with the content of its top-level message. -/
def joinedTop (db : Ibc.Db C) (e : Event) : Option (JoinedEvent C) :=
  (topMessage db e).map fun m => ⟨e, m.content⟩

/-- The event is joined with its top-level message only. -/
def Alone (db : Ibc.Db C) (e : Event) : Prop :=
  ∃ joined, joinMessage db.transaction_message.rows e = [joined] ∧ joinedTop db e = some joined

theorem topMessage_eq {db : Ibc.Db C} (hdb : DbOk startBlock db) {e : Event}
    {m : TransactionMessage C} (hm : m ∈ db.transaction_message.rows) (htop : m.parent_id = none)
    (hmatch : Matches e m) : topMessage db e = some m := by
  rw [topMessage, ← List.head?_filter, ← List.filter_filter,
    AppLemmas.filter_top hdb (List.Sublist.refl _) hm htop hmatch, List.head?_cons]

theorem alone_iff {db : Ibc.Db C} (hdb : DbOk startBlock db) {e : Event}
    (htop : ∃ m ∈ db.transaction_message.rows, m.parent_id = none ∧ Matches e m) :
    Alone db e ↔ ∀ m ∈ db.transaction_message.rows, Matches e m → m.parent_id = none := by
  obtain ⟨m, hm, hparent, hmatch⟩ := htop
  have hfilter := AppLemmas.filter_top hdb (List.Sublist.refl _) hm hparent hmatch
  constructor
  · rintro ⟨joined, hone, -⟩ x hx hxm
    -- one row in the join means one message that matches
    have hlen : (db.transaction_message.rows.filter fun m => Matches e m).length = 1 := by
      rw [← List.length_map (f := fun m : TransactionMessage C => (⟨e, m.content⟩ : JoinedEvent C))]
      exact congrArg List.length hone
    obtain ⟨y, hy⟩ := List.length_eq_one_iff.mp hlen
    have hmy : m ∈ [y] := hy ▸ List.mem_filter.mpr ⟨hm, by simpa using hmatch⟩
    have hxy : x ∈ [y] := hy ▸ List.mem_filter.mpr ⟨hx, by simpa using hxm⟩
    rw [List.mem_singleton.mp hxy, ← List.mem_singleton.mp hmy]
    exact hparent
  · intro h
    have hself : db.transaction_message.rows.filter (fun m => Matches e m) = [m] := by
      rw [← hfilter, eq_comm, List.filter_eq_self]
      intro x hx
      obtain ⟨hx, hxm⟩ := List.mem_filter.mp hx
      simpa using h x hx (by simpa using hxm)
    refine ⟨⟨e, m.content⟩, ?_, ?_⟩
    · rw [joinMessage, hself]
      rfl
    · rw [joinedTop, topMessage_eq hdb hm hparent hmatch]
      rfl

/-! ### The handlers on the join -/

section
variable {db : Db C J} {l : List Event}

omit [ClientContent C J] in
/-- What a handler that makes a row of each event does: it completes exactly when every event is
joined with its top-level message only, each has its row, and the rows are new. -/
theorem mapM_insert_iff {ρ : Type} {key : ρ → String} {t t' : Serial key}
    {record : JoinedEvent C → Option ρ} {recordOf : Event → Option ρ} (column : String)
    (htop : ∀ e ∈ l, ∃ joined ∈ joinMessage db.transaction_message.rows e,
      joinedTop db.toDb e = some joined)
    (hrecord : ∀ e ∈ l, ∀ joined, joined ∈ joinMessage db.transaction_message.rows e →
      joinedTop db.toDb e = some joined → record joined = recordOf e)
    (hkey : ∀ e ∈ l, ∀ joined ∈ joinMessage db.transaction_message.rows e, ∀ r,
      record joined = some r → key r = textOf column e) :
    ((l.flatMap (joinMessage db.transaction_message.rows)).mapM record).bind t.insert = some t' ↔
      (∀ e ∈ l, Alone db.toDb e) ∧
        ∃ new, l.map recordOf = new.map some ∧ t.insert new = some t' := by
  have hall : (∀ e ∈ l, Alone db.toDb e) →
      (l.flatMap (joinMessage db.transaction_message.rows)).map record = l.map recordOf := by
    intro halone
    have hmap := flatMap_map_some halone
    have hbind := congrArg (List.map fun joined : Option (JoinedEvent C) => joined.bind record) hmap
    rw [List.map_map, List.map_map] at hbind
    refine Eq.trans hbind (List.map_congr_left fun e he => ?_)
    obtain ⟨joined, hj, hjtop⟩ := htop e he
    rw [Function.comp_apply, hjtop]
    exact hrecord e he joined hj hjtop
  rw [Option.bind_eq_some_iff]
  constructor
  · rintro ⟨new, hnew, ht⟩
    have hmap := map_eq_of_mapM hnew
    have halone : ∀ e ∈ l, Alone db.toDb e := by
      intro e he
      obtain ⟨joined, hj, hjtop⟩ := htop e he
      refine ⟨joined, ?_, hjtop⟩
      have hnd : ((l.flatMap (joinMessage db.transaction_message.rows)).map
          fun joined => (record joined).map key).Nodup := by
        have hcomp : (l.flatMap (joinMessage db.transaction_message.rows)).map
            (fun joined => (record joined).map key) = (new.map key).map some := by
          have h := congrArg (List.map (Option.map key)) hmap
          rw [List.map_map, List.map_map] at h
          rw [List.map_map]
          exact h
        rw [hcomp]
        refine List.Nodup.map (Option.some_injective _) ?_
        exact (List.nodup_append.mp (Serial.exists_insert_iff.mp ⟨t', ht⟩)).2.1
      refine eq_singleton_of_nodup (k := fun e => some (textOf column e)) ?_ hnd he hj
      intro e he joined hj
      have hmem : record joined ∈ new.map some := by
        rw [← hmap]
        exact List.mem_map_of_mem (List.mem_flatMap.mpr ⟨e, he, hj⟩)
      obtain ⟨r, -, hr⟩ := List.mem_map.mp hmem
      rw [← hr, Option.map_some, hkey e he joined hj r hr.symm]
    exact ⟨halone, new, (hall halone).symm.trans hmap, ht⟩
  · rintro ⟨halone, new, hnew, ht⟩
    exact ⟨new, mapM_eq_some_iff.mpr ((hall halone).trans hnew), ht⟩

/-- The handlers skip an empty list, which would insert nothing. -/
theorem ite_isEmpty {α ρ : Type} {key : ρ → String} (events : List α) (record : α → Option ρ)
    (t : Serial key) :
    (if events.isEmpty then some t else (events.mapM record).bind t.insert) =
      (events.mapM record).bind t.insert := by
  cases events with
  | nil => exact (Serial.insert_nil t).symm
  | cons a l => rfl

/-- The row of an opened connection. -/
def connectionRow (ibc_client : Serial (IbcClient.client_id (J := J))) (e : Event) :
    Option IbcConnection :=
  (ibc_client.idOf (textOf "client_id" e)).map fun id =>
    ⟨id, textOf "connection_id" e, textOf "counterparty_client_id" e,
      textOf "counterparty_connection_id" e⟩

/-- The row of an opened channel. -/
def channelRow (ibc_connection : Serial IbcConnection.connection_id) (e : Event) :
    Option IbcChannel :=
  (ibc_connection.idOf (textOf "connection_id" e)).map fun id =>
    ⟨id, textOf "channel_id" e, textOf "port_id" e, textOf "counterparty_port_id" e,
      textOf "counterparty_channel_id" e, statusOpen⟩

omit [ClientContent C J] in
/-- The values that a query by attribute gets are texts. -/
theorem texts_of_hasColumns (db : Db C J) (column : String) (hcol : ∀ e ∈ l, HasColumns e)
    (hcolumn : ∀ e ∈ l, column ∈ columns e.type) :
    ∀ v ∈ (l.flatMap (joinMessage db.transaction_message.rows)).map (attr column),
      ∃ s, v = some (some s) := by
  intro v hv
  obtain ⟨joined, hj, rfl⟩ := List.mem_map.mp hv
  obtain ⟨e, he, hj⟩ := List.mem_flatMap.mp hj
  refine ⟨textOf column e, ?_⟩
  rw [attr, event_of_mem_joinMessage hj]
  exact hcol e he column (hcolumn e he)

variable (htop : ∀ e ∈ l, ∃ joined ∈ joinMessage db.transaction_message.rows e,
    joinedTop db.toDb e = some joined) (hcol : ∀ e ∈ l, HasColumns e)
include htop hcol

theorem handleNewIbcClient_iff {t t' : Serial (IbcClient.client_id (J := J))}
    (htype : ∀ e ∈ l, e.type ∈ clientTypes) :
    handleNewIbcClient (l.flatMap (joinMessage db.transaction_message.rows)) t = some t' ↔
      (∀ e ∈ l, Alone db.toDb e) ∧
        ∃ new, l.map (clientOf db.toDb) = new.map some ∧ t.insert new = some t' := by
  refine Iff.trans (iff_of_eq (congrArg (· = some t') (ite_isEmpty _ newClient t)))
    (mapM_insert_iff "client_id" htop ?_ ?_)
  · intro e he joined hj hjtop
    rw [joinedTop, Option.map_eq_some_iff] at hjtop
    obtain ⟨m, hm, rfl⟩ := hjtop
    rw [clientOf, hm, Option.bind_some]
  · intro e he joined hj c hc
    rw [← event_of_mem_joinMessage hj] at he ⊢
    exact newClient_client_id (hcol _ he) (htype _ he) hc

omit [ClientContent C J] in
theorem handleNewIbcConnection_iff {ibc_client : Serial (IbcClient.client_id (J := J))}
    {t t' : Serial IbcConnection.connection_id} (htype : ∀ e ∈ l, e.type ∈ connectionTypes) :
    handleNewIbcConnection (l.flatMap (joinMessage db.transaction_message.rows)) ibc_client t =
        some t' ↔
      (∀ e ∈ l, Alone db.toDb e) ∧
        ∃ new, l.map (connectionRow ibc_client) = new.map some ∧ t.insert new = some t' := by
  have hvalues := texts_of_hasColumns db "client_id" hcol
    fun e he => by rw [columns_connection (htype e he)]; simp
  have heq : ∀ e ∈ l, ∀ joined ∈ joinMessage db.transaction_message.rows e,
      newConnection ibc_client ((l.flatMap (joinMessage db.transaction_message.rows)).map
        (attr "client_id")) joined = connectionRow ibc_client e := by
    intro e he joined hj
    have hmem := List.mem_map_of_mem (f := attr "client_id") (List.mem_flatMap.mpr ⟨e, he, hj⟩)
    have hevent := event_of_mem_joinMessage hj
    rw [newConnection_eq hvalues hmem (hevent ▸ hcol e he) (hevent ▸ htype e he), hevent]
    rfl
  refine Iff.trans (iff_of_eq (congrArg (· = some t') (ite_isEmpty _ _ t)))
    (mapM_insert_iff "connection_id" htop (fun e he joined hj _ => heq e he joined hj) ?_)
  intro e he joined hj r hr
  rw [heq e he joined hj, connectionRow, Option.map_eq_some_iff] at hr
  obtain ⟨id, -, rfl⟩ := hr
  rfl

omit [ClientContent C J] in
theorem handleNewIbcChannel_iff {ibc_connection : Serial IbcConnection.connection_id}
    {t t' : Serial IbcChannel.channel_id} (htype : ∀ e ∈ l, e.type ∈ channelTypes) :
    handleNewIbcChannel (l.flatMap (joinMessage db.transaction_message.rows)) ibc_connection t =
        some t' ↔
      (∀ e ∈ l, Alone db.toDb e) ∧
        ∃ new, l.map (channelRow ibc_connection) = new.map some ∧ t.insert new = some t' := by
  have hvalues := texts_of_hasColumns db "connection_id" hcol
    fun e he => by rw [columns_channel (htype e he)]; simp
  have heq : ∀ e ∈ l, ∀ joined ∈ joinMessage db.transaction_message.rows e,
      newChannel ibc_connection ((l.flatMap (joinMessage db.transaction_message.rows)).map
        (attr "connection_id")) joined = channelRow ibc_connection e := by
    intro e he joined hj
    have hmem := List.mem_map_of_mem (f := attr "connection_id") (List.mem_flatMap.mpr ⟨e, he, hj⟩)
    have hevent := event_of_mem_joinMessage hj
    rw [newChannel_eq hvalues hmem (hevent ▸ hcol e he) (hevent ▸ htype e he), hevent]
    rfl
  refine Iff.trans (iff_of_eq (congrArg (· = some t') (ite_isEmpty _ _ t)))
    (mapM_insert_iff "channel_id" htop (fun e he joined hj _ => heq e he joined hj) ?_)
  intro e he joined hj r hr
  rw [heq e he joined hj, channelRow, Option.map_eq_some_iff] at hr
  obtain ⟨id, -, rfl⟩ := hr
  rfl

omit [ClientContent C J] htop in
theorem handleCloseIbcChannel_eq {t : Serial IbcChannel.channel_id}
    (htype : ∀ e ∈ l, e.type ∈ closeTypes) (hne : ∀ e ∈ l, textOf "channel_id" e ≠ "") :
    handleCloseIbcChannel (l.flatMap (joinMessage db.transaction_message.rows)) t =
      some (closeChannels ((l.flatMap (joinMessage db.transaction_message.rows)).map fun joined =>
        textOf "channel_id" joined.event) t) := by
  rw [handleCloseIbcChannel, mapM_some (g := fun joined => textOf "channel_id" joined.event)]
  · rfl
  · intro joined hj
    obtain ⟨e, he, hj⟩ := List.mem_flatMap.mp hj
    have hevent := event_of_mem_joinMessage hj
    have hattr := hcol e he "channel_id" (by rw [columns_close (htype e he)]; simp)
    rw [attr, hevent, hattr, Option.join_some, truthy, Option.filter_some, if_pos]
    exact decide_eq_true (hne e he)

end

/-! ### A commit -/

theorem mem_history {event : List Event} {e : Event} :
    e ∈ history event ↔ e ∈ event ∧ e.type ∈ taoTypes ∧ e.tx_id ≠ none := by
  simp only [history, List.mem_filter, Bool.and_eq_true, decide_eq_true_eq]

theorem mem_select {types : List String} {events : List Event} {e : Event} :
    e ∈ select types events ↔ e ∈ events ∧ e.type ∈ types := by
  simp only [select, List.mem_filter, decide_eq_true_eq]

theorem mem_upTo {height : ℕ} {events : List Event} {e : Event} :
    e ∈ upTo height events ↔ e ∈ events ∧ e.block_height ≤ height := by
  simp only [upTo, List.mem_filter, decide_eq_true_eq]

theorem mem_rangeEvents {db : Ibc.Db C} {startHeight endHeight : ℕ} {e : Event} :
    e ∈ rangeEvents db startHeight endHeight ↔
      e ∈ history db.event ∧ startHeight < e.block_height ∧ e.block_height ≤ endHeight := by
  rw [rangeEvents, List.mem_insertionSort, mem_between]

theorem type_cases {e : Event} (he : e.type ∈ taoTypes) (hclose : e.type ∉ closeTypes) :
    e.type ∈ clientTypes ∨ e.type ∈ connectionTypes ∨ e.type ∈ channelTypes := by
  have hall : ∀ t ∈ taoTypes, t ∉ closeTypes →
      t ∈ clientTypes ∨ t ∈ connectionTypes ∨ t ∈ channelTypes := by decide
  exact hall e.type he hclose

theorem not_close {type : String}
    (h : type ∈ clientTypes ∨ type ∈ connectionTypes ∨ type ∈ channelTypes) :
    type ∉ closeTypes := by
  have hall : ∀ t ∈ clientTypes ++ (connectionTypes ++ channelTypes), t ∉ closeTypes := by decide
  exact hall type (by simpa only [List.mem_append] using h)

/-- Which channels are closed depends on the members of the list only. -/
theorem closeChannels_congr {ids ids' : List String} (h : ∀ id, id ∈ ids ↔ id ∈ ids')
    (t : Serial IbcChannel.channel_id) : closeChannels ids t = closeChannels ids' t := by
  have hf : (fun r : IbcChannel =>
      if r.channel_id ∈ ids then { r with state := statusClose } else r) =
      fun r => if r.channel_id ∈ ids' then { r with state := statusClose } else r :=
    funext fun r => if_congr (h r.channel_id) rfl rfl
  simp only [closeChannels, hf]

/-- What a run over the events `R` writes. -/
structure Written (db : Db C J) (R : List Event) (clients : Serial (IbcClient.client_id (J := J)))
    (connections : Serial IbcConnection.connection_id)
    (channels : Serial IbcChannel.channel_id) : Prop where
  alone : ∀ e ∈ R, e.type ∉ closeTypes → Alone db.toDb e
  newClients : ∃ new, (select clientTypes R).map (clientOf db.toDb) = new.map some ∧
    db.ibc_client.insert new = some clients
  newConnections : ∃ new, (select connectionTypes R).map (connectionRow clients) = new.map some ∧
    db.ibc_connection.insert new = some connections
  newChannels : ∃ new opened, (select channelTypes R).map (channelRow connections) = new.map some ∧
    db.ibc_channel.insert new = some opened ∧ channels = closeChannels (closedBy R) opened

section
variable {db : Db C J} (hok : TaoOk startBlock db)
include hok

theorem exists_joined {e : Event} (he : e ∈ history db.event) :
    ∃ joined ∈ joinMessage db.transaction_message.rows e, joinedTop db.toDb e = some joined := by
  obtain ⟨m, hm, hparent, hmatch⟩ := hok.event_top e he
  refine ⟨⟨e, m.content⟩, ?_, ?_⟩
  · exact List.mem_map.mpr ⟨m, List.mem_filter.mpr ⟨hm, by simpa using hmatch⟩, rfl⟩
  · rw [joinedTop, topMessage_eq hok.base hm hparent hmatch]
    rfl

theorem handleClose_eq {R : List Event} (hR : ∀ e ∈ R, e ∈ history db.event)
    (t : Serial IbcChannel.channel_id) :
    handleCloseIbcChannel ((select closeTypes R).flatMap
      (joinMessage db.transaction_message.rows)) t = some (closeChannels (closedBy R) t) := by
  have hmem : ∀ e ∈ select closeTypes R, e ∈ history db.event ∧ e.type ∈ closeTypes :=
    fun e he => ⟨hR e (mem_select.mp he).1, (mem_select.mp he).2⟩
  rw [handleCloseIbcChannel_eq (fun e he => HistoryOk.hasColumns hok.history (hmem e he).1)
    (fun e he => (hmem e he).2)
    fun e he => hok.history.channel_id e (mem_select.mpr (hmem e he))]
  refine congrArg some (closeChannels_congr (fun id => ?_) t)
  simp only [closedBy, List.mem_map, List.mem_flatMap]
  constructor
  · rintro ⟨joined, ⟨e, he, hj⟩, rfl⟩
    exact ⟨e, he, by rw [event_of_mem_joinMessage hj]⟩
  · rintro ⟨e, he, rfl⟩
    obtain ⟨joined, hj, -⟩ := exists_joined hok (hmem e he).1
    exact ⟨joined, ⟨e, he, hj⟩, by rw [event_of_mem_joinMessage hj]⟩

/-- The four handlers together. -/
theorem handlers_iff {startHeight endHeight : ℕ}
    {clients : Serial (IbcClient.client_id (J := J))}
    {connections : Serial IbcConnection.connection_id} {channels : Serial IbcChannel.channel_id} :
    (handleNewIbcClient (ofTypes clientTypes (queryEvents db startHeight endHeight))
        db.ibc_client = some clients ∧
      handleNewIbcConnection (ofTypes connectionTypes (queryEvents db startHeight endHeight))
        clients db.ibc_connection = some connections ∧
      ∃ opened, handleNewIbcChannel (ofTypes channelTypes (queryEvents db startHeight endHeight))
          connections db.ibc_channel = some opened ∧
        handleCloseIbcChannel (ofTypes closeTypes (queryEvents db startHeight endHeight)) opened =
          some channels) ↔
    Written db (rangeEvents db.toDb startHeight endHeight) clients connections channels := by
  set R := rangeEvents db.toDb startHeight endHeight with hR
  have hhistory : ∀ e ∈ R, e ∈ history db.event := fun e he => (mem_rangeEvents.mp he).1
  have htype : ∀ types, ∀ e ∈ select types R, e.type ∈ types :=
    fun types e he => (mem_select.mp he).2
  have htop : ∀ types, ∀ e ∈ select types R, ∃ joined ∈ joinMessage db.transaction_message.rows e,
      joinedTop db.toDb e = some joined :=
    fun types e he => exists_joined hok (hhistory e (mem_select.mp he).1)
  have hcol : ∀ types, ∀ e ∈ select types R, HasColumns e :=
    fun types e he => HistoryOk.hasColumns hok.history (hhistory e (mem_select.mp he).1)
  simp only [queryEvents_eq, ofTypes_flatMap, ← hR, handleClose_eq hok hhistory, Option.some.injEq,
    handleNewIbcClient_iff (htop clientTypes) (hcol clientTypes) (htype clientTypes),
    handleNewIbcConnection_iff (htop connectionTypes) (hcol connectionTypes)
      (htype connectionTypes),
    handleNewIbcChannel_iff (htop channelTypes) (hcol channelTypes) (htype channelTypes)]
  constructor
  · rintro ⟨⟨halone1, h1⟩, ⟨halone2, h2⟩, opened, ⟨halone3, new, hnew, hopened⟩, hclosed⟩
    refine ⟨fun e he hclose => ?_, h1, h2, new, opened, hnew, hopened, hclosed.symm⟩
    rcases type_cases (mem_history.mp (hhistory e he)).2.1 hclose with h | h | h
    · exact halone1 e (mem_select.mpr ⟨he, h⟩)
    · exact halone2 e (mem_select.mpr ⟨he, h⟩)
    · exact halone3 e (mem_select.mpr ⟨he, h⟩)
  · rintro ⟨halone, h1, h2, new, opened, hnew, hopened, hclosed⟩
    refine ⟨⟨fun e he => ?_, h1⟩, ⟨fun e he => ?_, h2⟩, opened,
      ⟨fun e he => ?_, new, hnew, hopened⟩, hclosed.symm⟩
    · exact halone e (mem_select.mp he).1 (not_close (.inl (mem_select.mp he).2))
    · exact halone e (mem_select.mp he).1 (not_close (.inr (.inl (mem_select.mp he).2)))
    · exact halone e (mem_select.mp he).1 (not_close (.inr (.inr (mem_select.mp he).2)))

/-- A run that does not return early. -/
theorem crawlIbcTao_eq_some_iff
    (hle : taoReached startBlock db.toDb ≤ nextEnd startBlock db.toDb) {db' : Db C J} :
    crawlIbcTao startBlock db = some db' ↔ ∃ clients connections channels,
      Written db (rangeEvents db.toDb (taoReached startBlock db.toDb) (nextEnd startBlock db.toDb))
        clients connections channels ∧
      db' = { db with
        ibc_client := clients, ibc_connection := connections, ibc_channel := channels
        block_checkpoint :=
          runJob startBlock .crawlIbcTao Checkpoint.crawlIbcTao db.block_checkpoint } := by
  have hreturns : Checkpoint.crawlIbcTao.rangeTest.returns (taoReached startBlock db.toDb)
      (nextEnd startBlock db.toDb) = false :=
    decide_eq_false (not_lt.mpr hle)
  have hjob : runJob startBlock .crawlIbcTao Checkpoint.crawlIbcTao db.block_checkpoint =
      storeCheckpoint db.block_checkpoint
        (getCheckpoint startBlock db.block_checkpoint .crawlIbcTao
          Checkpoint.crawlIbcTao.lastHeightJobNames Checkpoint.crawlIbcTao.blocksPerCall).2.2
        (nextEnd startBlock db.toDb) := if_neg (ne_true_of_eq_false hreturns)
  have hrun : crawlIbcTao startBlock db = (do
      let events := queryEvents db (taoReached startBlock db.toDb) (nextEnd startBlock db.toDb)
      let ibc_client ← handleNewIbcClient (ofTypes clientTypes events) db.ibc_client
      let ibc_connection ←
        handleNewIbcConnection (ofTypes connectionTypes events) ibc_client db.ibc_connection
      let opened ← handleNewIbcChannel (ofTypes channelTypes events) ibc_connection db.ibc_channel
      let ibc_channel ← handleCloseIbcChannel (ofTypes closeTypes events) opened
      return { db with
        ibc_client, ibc_connection, ibc_channel
        block_checkpoint :=
          runJob startBlock .crawlIbcTao Checkpoint.crawlIbcTao db.block_checkpoint }) := by
    rw [hjob]
    exact if_neg (ne_true_of_eq_false hreturns)
  rw [hrun]
  simp only [Option.bind_eq_bind, Option.bind_eq_some_iff, Option.pure_def, Option.some.injEq,
    ← handlers_iff hok]
  constructor
  · rintro ⟨clients, h1, connections, h2, opened, h3, channels, h4, rfl⟩
    exact ⟨clients, connections, channels, ⟨h1, h2, opened, h3, h4⟩, rfl⟩
  · rintro ⟨clients, connections, channels, ⟨h1, h2, opened, h3, h4⟩, rfl⟩
    exact ⟨clients, h1, connections, h2, opened, h3, channels, h4, rfl⟩

end

/-! ### The tables after a commit -/

theorem select_append (types : List String) (events events' : List Event) :
    select types (events ++ events') = select types events ++ select types events' :=
  List.filter_append ..

theorem select_perm {events events' : List Event} (h : events.Perm events')
    (types : List String) : (select types events).Perm (select types events') := h.filter _

theorem closedBy_append (events events' : List Event) :
    closedBy (events ++ events') = closedBy events ++ closedBy events' := by
  rw [closedBy, select_append, List.map_append]
  rfl

theorem channelOf_congr {closed closed' : List String} (h : ∀ id, id ∈ closed ↔ id ∈ closed')
    (e : Event) : channelOf closed e = channelOf closed' e := by
  rw [channelOf, channelOf, if_congr (h _) rfl rfl]

/-- The order of the events does not matter. -/
theorem TablesOk.perm {db : Db C J} {events events' : List Event} (h : TablesOk db events)
    (hperm : events.Perm events') : TablesOk db events' where
  clients := h.clients.trans ((select_perm hperm _).map _)
  connections := h.connections.trans ((select_perm hperm _).map _)
  channels := by
    refine h.channels.trans (((select_perm hperm _).map _).trans (List.Perm.of_eq ?_))
    refine List.map_congr_left fun e _ => congrArg some (channelOf_congr (fun id => ?_) e)
    exact ((select_perm hperm _).map _).mem_iff

/-- The channel after the channels `closed` have been closed. -/
def closeInfo (closed : List String) (c : ChannelInfo) : ChannelInfo :=
  if c.channel_id ∈ closed then { c with state := statusClose } else c

theorem closeInfo_channelOf (closed closed' : List String) (e : Event) :
    closeInfo closed' (channelOf closed e) = channelOf (closed ++ closed') e := by
  simp only [closeInfo, channelOf, List.mem_append]
  by_cases h : textOf "channel_id" e ∈ closed'
  · simp [h]
  · simp [h]

/-- Closing channels and resolving their references. -/
theorem map_channelInfo_closeChannels (ibc_connection : Serial IbcConnection.connection_id)
    (closed : List String) (t : Serial IbcChannel.channel_id) :
    (closeChannels closed t).data.map (channelInfo ibc_connection) =
      (t.data.map (channelInfo ibc_connection)).map (Option.map (closeInfo closed)) := by
  rw [closeChannels, Serial.data_modify, List.map_map, List.map_map]
  refine List.map_congr_left fun c _ => ?_
  simp only [Function.comp_apply, channelInfo, Option.map_map]
  split
  · next h => exact Option.map_congr fun r _ => by simp [closeInfo, h]
  · next h => exact Option.map_congr fun r _ => by simp [closeInfo, h]

theorem isSome_of_perm {α β : Type} {l : List (Option β)} {as : List α} {k : α → β}
    (h : l.Perm (as.map fun a => some (k a))) : ∀ x ∈ l, x.isSome := by
  intro x hx
  obtain ⟨a, -, rfl⟩ := List.mem_map.mp (h.mem_iff.mp hx)
  rfl

/-- References that could be resolved keep their meaning. -/
theorem map_connectionInfo_of_insert {t t' : Serial (IbcClient.client_id (J := J))}
    {new : List (IbcClient J)} (h : t.insert new = some t') {data : List IbcConnection}
    (hdata : ∀ c ∈ data, (connectionInfo t c).isSome) :
    data.map (connectionInfo t') = data.map (connectionInfo t) := by
  refine List.map_congr_left fun c hc => ?_
  obtain ⟨info, hinfo⟩ := Option.isSome_iff_exists.mp (hdata c hc)
  obtain ⟨client, hclient, -⟩ := Option.map_eq_some_iff.mp hinfo
  rw [connectionInfo, connectionInfo, hclient, Serial.rowOf_of_insert h hclient]

@[inherit_doc map_connectionInfo_of_insert]
theorem map_channelInfo_of_insert {t t' : Serial IbcConnection.connection_id}
    {new : List IbcConnection} (h : t.insert new = some t') {data : List IbcChannel}
    (hdata : ∀ c ∈ data, (channelInfo t c).isSome) :
    data.map (channelInfo t') = data.map (channelInfo t) := by
  refine List.map_congr_left fun c hc => ?_
  obtain ⟨info, hinfo⟩ := Option.isSome_iff_exists.mp (hdata c hc)
  obtain ⟨connection, hconnection, -⟩ := Option.map_eq_some_iff.mp hinfo
  rw [channelInfo, channelInfo, hconnection, Serial.rowOf_of_insert h hconnection]

theorem connectionInfo_connectionRow {t : Serial (IbcClient.client_id (J := J))} {e : Event}
    {c : IbcConnection} (h : connectionRow t e = some c) :
    connectionInfo t c = some (connectionOf e) := by
  obtain ⟨id, hid, rfl⟩ := Option.map_eq_some_iff.mp h
  obtain ⟨client, hclient, hkey⟩ := Serial.rowOf_idOf hid
  rw [connectionInfo, hclient, Option.map_some, hkey]
  rfl

theorem channelInfo_channelRow {t : Serial IbcConnection.connection_id} {e : Event}
    {c : IbcChannel} (h : channelRow t e = some c) :
    channelInfo t c = some (channelOf [] e) := by
  obtain ⟨id, hid, rfl⟩ := Option.map_eq_some_iff.mp h
  obtain ⟨connection, hconnection, hkey⟩ := Serial.rowOf_idOf hid
  rw [channelInfo, hconnection, Option.map_some, hkey]
  rfl

/-- A commit over the events `N` after the events `P`. -/
theorem Written.tablesOk {db : Db C J} {P N : List Event}
    {clients : Serial (IbcClient.client_id (J := J))}
    {connections : Serial IbcConnection.connection_id} {channels : Serial IbcChannel.channel_id}
    (hw : Written db N clients connections channels) (hP : TablesOk db P)
    (hlate : ∀ e ∈ select channelTypes N, textOf "channel_id" e ∉ closedBy P)
    (checkpoints : Checkpoints BullJobName) :
    TablesOk { db with
      ibc_client := clients, ibc_connection := connections, ibc_channel := channels
      block_checkpoint := checkpoints } (P ++ N) := by
  obtain ⟨newClients, hclients, hinsert⟩ := hw.newClients
  obtain ⟨newConnections, hconnections, hinsert'⟩ := hw.newConnections
  obtain ⟨newChannels, opened, hchannels, hopened, rfl⟩ := hw.newChannels
  refine ⟨?_, ?_, ?_⟩
  · show (clients.data.map some).Perm ((select clientTypes (P ++ N)).map (clientOf db.toDb))
    rw [Serial.data_of_insert hinsert, select_append, List.map_append, List.map_append, hclients]
    exact hP.clients.append_right _
  · have hold := map_connectionInfo_of_insert hinsert fun c hc =>
      isSome_of_perm hP.connections _ (List.mem_map_of_mem hc)
    have hnew : newConnections.map (connectionInfo clients) =
        (select connectionTypes N).map fun e => some (connectionOf e) :=
      map_of_map_some hconnections fun e _ c hc => connectionInfo_connectionRow hc
    show (connections.data.map (connectionInfo clients)).Perm _
    rw [Serial.data_of_insert hinsert', select_append, List.map_append, List.map_append, hold, hnew]
    exact hP.connections.append_right _
  · have hold := map_channelInfo_of_insert hinsert' fun c hc =>
      isSome_of_perm hP.channels _ (List.mem_map_of_mem hc)
    have hnew : newChannels.map (channelInfo connections) =
        (select channelTypes N).map fun e => some (channelOf [] e) :=
      map_of_map_some hchannels fun e _ c hc => channelInfo_channelRow hc
    show ((closeChannels (closedBy N) opened).data.map (channelInfo connections)).Perm _
    rw [map_channelInfo_closeChannels, Serial.data_of_insert hopened, List.map_append, hold, hnew,
      List.map_append, select_append, List.map_append, closedBy_append]
    refine List.Perm.append ((hP.channels.map _).trans (List.Perm.of_eq ?_)) (List.Perm.of_eq ?_)
    · rw [List.map_map]
      exact List.map_congr_left fun e _ => congrArg some (closeInfo_channelOf _ _ e)
    · -- a channel that is opened now has not been closed before
      rw [List.map_map]
      refine List.map_congr_left fun e he => congrArg some ?_
      rw [closeInfo_channelOf]
      simp only [channelOf, List.mem_append, hlate e he, List.not_mem_nil, false_or]

/-! ### The unique columns -/

section
variable {db : Db C J} {es : List Event} (htables : TablesOk db es)
include htables

theorem client_keys (hcol : ∀ e ∈ es, HasColumns e) :
    db.ibc_client.keys.Perm ((select clientTypes es).map (textOf "client_id")) := by
  rw [Serial.keys_eq_map_data]
  refine map_perm_of_map_perm htables.clients fun c _ e he hc => ?_
  obtain ⟨hmem, htype⟩ := mem_select.mp he
  obtain ⟨m, -, hm⟩ := Option.bind_eq_some_iff.mp hc.symm
  exact newClient_client_id (hcol e hmem) htype hm

theorem connection_keys :
    db.ibc_connection.keys.Perm ((select connectionTypes es).map (textOf "connection_id")) := by
  rw [Serial.keys_eq_map_data]
  refine map_perm_of_map_perm htables.connections fun c _ e _ hc => ?_
  obtain ⟨client, -, hinfo⟩ := Option.map_eq_some_iff.mp hc
  exact congrArg ConnectionInfo.connection_id hinfo

theorem channel_keys :
    db.ibc_channel.keys.Perm ((select channelTypes es).map (textOf "channel_id")) := by
  rw [Serial.keys_eq_map_data]
  refine map_perm_of_map_perm htables.channels fun c _ e _ hc => ?_
  obtain ⟨connection, -, hinfo⟩ := Option.map_eq_some_iff.mp hc
  exact congrArg ChannelInfo.channel_id hinfo

end

/-! ### When a run commits -/

/-- Cutting the history at the checkpoint. -/
theorem upTo_perm (db : Ibc.Db C) {s e : ℕ} (hle : s ≤ e) :
    (upTo s (history db.event) ++ rangeEvents db s e).Perm (upTo e (history db.event)) := by
  have hsplit := List.filter_append_perm (fun x => decide (x.block_height ≤ s))
    (upTo e (history db.event))
  have hlow : (upTo e (history db.event)).filter (fun x => decide (x.block_height ≤ s)) =
      upTo s (history db.event) := by
    rw [upTo, List.filter_filter]
    refine List.filter_congr fun x _ => ?_
    rw [← Bool.decide_and, decide_eq_decide]
    omega
  have hhigh : (upTo e (history db.event)).filter (fun x => !decide (x.block_height ≤ s)) =
      between (·.block_height) s e (history db.event) := by
    rw [upTo, List.filter_filter, between]
    refine List.filter_congr fun x _ => ?_
    rw [← decide_not, ← Bool.decide_and, decide_eq_decide]
    omega
  rw [hlow, hhigh] at hsplit
  exact ((List.perm_insertionSort _ _).append_left _).trans hsplit

theorem HistoryOk.nodup_upTo {events : List Event} (h : HistoryOk events) (height : ℕ) :
    ((select clientTypes (upTo height events)).map (textOf "client_id")).Nodup ∧
    ((select connectionTypes (upTo height events)).map (textOf "connection_id")).Nodup ∧
    ((select channelTypes (upTo height events)).map (textOf "channel_id")).Nodup := by
  have hsub : ∀ types, (select types (upTo height events)).Sublist (select types events) :=
    fun types => List.Sublist.filter _ List.filter_sublist
  exact ⟨((hsub _).map _).nodup h.clients, ((hsub _).map _).nodup h.connections,
    ((hsub _).map _).nodup h.channels⟩

/-- The rows of events that all have one. -/
theorem exists_map_some {α β : Type} {f : α → Option β} {l : List α}
    (h : ∀ a ∈ l, (f a).isSome) : ∃ out : List β, l.map f = out.map some := by
  obtain ⟨out, hout⟩ := exists_mapM_some h
  exact ⟨out, map_eq_of_mapM hout⟩

theorem isSome_of_map_some {α β : Type} {f : α → Option β} {l : List α} {out : List β}
    (h : l.map f = out.map some) {a : α} (ha : a ∈ l) : (f a).isSome := by
  obtain ⟨b, -, hb⟩ := List.mem_map.mp (h ▸ List.mem_map_of_mem (f := f) ha)
  rw [← hb]
  rfl

theorem connectionRow_isSome_iff {t : Serial (IbcClient.client_id (J := J))} {e : Event} :
    (connectionRow t e).isSome ↔ textOf "client_id" e ∈ t.keys := by
  rw [connectionRow, Option.isSome_map, Option.isSome_iff_exists, Serial.exists_idOf_iff]

theorem channelRow_isSome_iff {t : Serial IbcConnection.connection_id} {e : Event} :
    (channelRow t e).isSome ↔ textOf "connection_id" e ∈ t.keys := by
  rw [channelRow, Option.isSome_map, Option.isSome_iff_exists, Serial.exists_idOf_iff]

/-- The keys of the rows that were there and of the new ones. -/
theorem keys_append_perm (db : Ibc.Db C) {s e : ℕ} (hle : s ≤ e) {types : List String}
    {column : String} {old new : List String}
    (hold : old.Perm ((select types (upTo s (history db.event))).map (textOf column)))
    (hnew : new = (select types (rangeEvents db s e)).map (textOf column)) :
    (old ++ new).Perm ((select types (upTo e (history db.event))).map (textOf column)) := by
  rw [hnew]
  refine (hold.append_right _).trans ?_
  rw [← List.map_append, ← select_append]
  exact (select_perm (upTo_perm db hle) types).map _

theorem mem_map_select_upTo {types : List String} {column k : String} {height : ℕ}
    {events : List Event} :
    k ∈ (select types (upTo height events)).map (textOf column) ↔
      ∃ c ∈ select types events, c.block_height ≤ height ∧ textOf column c = k := by
  simp only [List.mem_map, mem_select, mem_upTo]
  exact ⟨fun ⟨c, ⟨⟨h1, h2⟩, h3⟩, h4⟩ => ⟨c, ⟨h1, h3⟩, h2, h4⟩,
    fun ⟨c, ⟨h1, h3⟩, h2, h4⟩ => ⟨c, ⟨⟨h1, h2⟩, h3⟩, h4⟩⟩

section
variable {db : Db C J} (hok : TaoOk startBlock db) {e : ℕ}
  (hle : taoReached startBlock db.toDb ≤ e)
include hok hle

theorem client_keys_append {new : List (IbcClient J)}
    (hnew : (select clientTypes (rangeEvents db.toDb (taoReached startBlock db.toDb) e)).map
      (clientOf db.toDb) = new.map some) :
    (db.ibc_client.keys ++ new.map IbcClient.client_id).Perm
      ((select clientTypes (upTo e (history db.event))).map (textOf "client_id")) := by
  have hcol : ∀ x ∈ history db.event, HasColumns x :=
    fun x hx => HistoryOk.hasColumns hok.history hx
  refine keys_append_perm db.toDb hle
    (client_keys hok.tables fun x hx => hcol x (mem_upTo.mp hx).1)
    (map_of_map_some hnew fun x hx c hc => ?_)
  obtain ⟨m, -, hm⟩ := Option.bind_eq_some_iff.mp hc
  have hx' := mem_select.mp hx
  exact newClient_client_id (hcol x (mem_rangeEvents.mp hx'.1).1) hx'.2 hm

theorem connection_keys_append {clients : Serial (IbcClient.client_id (J := J))}
    {new : List IbcConnection}
    (hnew : (select connectionTypes (rangeEvents db.toDb (taoReached startBlock db.toDb) e)).map
      (connectionRow clients) = new.map some) :
    (db.ibc_connection.keys ++ new.map IbcConnection.connection_id).Perm
      ((select connectionTypes (upTo e (history db.event))).map (textOf "connection_id")) := by
  refine keys_append_perm db.toDb hle (connection_keys hok.tables)
    (map_of_map_some hnew fun x hx c hc => ?_)
  obtain ⟨id, -, rfl⟩ := Option.map_eq_some_iff.mp hc
  rfl

theorem channel_keys_append {connections : Serial IbcConnection.connection_id}
    {new : List IbcChannel}
    (hnew : (select channelTypes (rangeEvents db.toDb (taoReached startBlock db.toDb) e)).map
      (channelRow connections) = new.map some) :
    (db.ibc_channel.keys ++ new.map IbcChannel.channel_id).Perm
      ((select channelTypes (upTo e (history db.event))).map (textOf "channel_id")) := by
  refine keys_append_perm db.toDb hle (channel_keys hok.tables)
    (map_of_map_some hnew fun x hx c hc => ?_)
  obtain ⟨id, -, rfl⟩ := Option.map_eq_some_iff.mp hc
  rfl

theorem fine_of_written {clients : Serial (IbcClient.client_id (J := J))}
    {connections : Serial IbcConnection.connection_id} {channels : Serial IbcChannel.channel_id}
    (hw : Written db (rangeEvents db.toDb (taoReached startBlock db.toDb) e) clients connections
      channels) :
    ∀ x ∈ rangeEvents db.toDb (taoReached startBlock db.toDb) e, Fine db x := by
  obtain ⟨newClients, hclients, hinsert⟩ := hw.newClients
  obtain ⟨newConnections, hconnections, hinsert'⟩ := hw.newConnections
  obtain ⟨newChannels, opened, hchannels, -, -⟩ := hw.newChannels
  intro x hx
  have hhistory := (mem_rangeEvents.mp hx).1
  refine ⟨fun hclose => ?_, fun htype => ?_, fun htype => ?_, fun htype => ?_⟩
  · exact (alone_iff hok.base (hok.event_top x hhistory)).mp (hw.alone x hx hclose)
  · exact isSome_of_map_some hclients (mem_select.mpr ⟨hx, htype⟩)
  · have hkey := connectionRow_isSome_iff.mp
      (isSome_of_map_some hconnections (mem_select.mpr ⟨hx, htype⟩))
    rw [Serial.keys_of_insert hinsert, (client_keys_append hok hle hclients).mem_iff,
      mem_map_select_upTo] at hkey
    obtain ⟨c, hc, -, hid⟩ := hkey
    exact ⟨c, hc, hid⟩
  · have hkey := channelRow_isSome_iff.mp
      (isSome_of_map_some hchannels (mem_select.mpr ⟨hx, htype⟩))
    rw [Serial.keys_of_insert hinsert', (connection_keys_append hok hle hconnections).mem_iff,
      mem_map_select_upTo] at hkey
    obtain ⟨c, hc, -, hid⟩ := hkey
    exact ⟨c, hc, hid⟩

theorem exists_written
    (hfine : ∀ x ∈ rangeEvents db.toDb (taoReached startBlock db.toDb) e, Fine db x) :
    ∃ clients connections channels,
      Written db (rangeEvents db.toDb (taoReached startBlock db.toDb) e) clients connections
        channels := by
  have hmem : ∀ types, ∀ x ∈ select types
      (rangeEvents db.toDb (taoReached startBlock db.toDb) e),
      x ∈ rangeEvents db.toDb (taoReached startBlock db.toDb) e ∧ x.type ∈ types ∧
        x ∈ history db.event ∧ x.block_height ≤ e := fun types x hx =>
    have hx' := mem_select.mp hx
    have hrange := mem_rangeEvents.mp hx'.1
    ⟨hx'.1, hx'.2, hrange.1, hrange.2.2⟩
  obtain ⟨hnd1, hnd2, hnd3⟩ := HistoryOk.nodup_upTo hok.history e
  -- what a connection or a channel names has been made by the end of the range
  obtain ⟨newClients, hclients⟩ := exists_map_some (f := clientOf (J := J) db.toDb)
    fun x hx => (hfine x (hmem clientTypes x hx).1).client (hmem clientTypes x hx).2.1
  obtain ⟨clients, hinsert⟩ := Serial.exists_insert_iff.mpr
    ((client_keys_append hok hle hclients).nodup_iff.mpr hnd1)
  obtain ⟨newConnections, hconnections⟩ := exists_map_some (f := connectionRow clients)
    (l := select connectionTypes (rangeEvents db.toDb (taoReached startBlock db.toDb) e)) <| by
      intro x hx
      obtain ⟨hrange, htype, hhistory, hheight⟩ := hmem connectionTypes x hx
      obtain ⟨c, hc, hid⟩ := (hfine x hrange).connection htype
      rw [connectionRow_isSome_iff, Serial.keys_of_insert hinsert,
        (client_keys_append hok hle hclients).mem_iff, mem_map_select_upTo]
      have hfirst := hok.history.client_first c hc x (mem_select.mpr ⟨hhistory, htype⟩) hid.symm
      exact ⟨c, hc, hfirst.trans hheight, hid⟩
  obtain ⟨connections, hinsert'⟩ := Serial.exists_insert_iff.mpr
    ((connection_keys_append hok hle hconnections).nodup_iff.mpr hnd2)
  obtain ⟨newChannels, hchannels⟩ := exists_map_some (f := channelRow connections)
    (l := select channelTypes (rangeEvents db.toDb (taoReached startBlock db.toDb) e)) <| by
      intro x hx
      obtain ⟨hrange, htype, hhistory, hheight⟩ := hmem channelTypes x hx
      obtain ⟨c, hc, hid⟩ := (hfine x hrange).channel htype
      rw [channelRow_isSome_iff, Serial.keys_of_insert hinsert',
        (connection_keys_append hok hle hconnections).mem_iff, mem_map_select_upTo]
      have hfirst := hok.history.connection_first c hc x (mem_select.mpr ⟨hhistory, htype⟩) hid.symm
      exact ⟨c, hc, hfirst.trans hheight, hid⟩
  obtain ⟨opened, hopened⟩ := Serial.exists_insert_iff.mpr
    ((channel_keys_append hok hle hchannels).nodup_iff.mpr hnd3)
  refine ⟨clients, connections, _, fun x hx hclose => ?_, ⟨newClients, hclients, hinsert⟩,
    ⟨newConnections, hconnections, hinsert'⟩, newChannels, opened, hchannels, hopened, rfl⟩
  have hhistory := (mem_rangeEvents.mp hx).1
  exact (alone_iff hok.base (hok.event_top x hhistory)).mpr ((hfine x hx).alone hclose)

end

/-! ### The other jobs -/

section
variable {db db' : Db C J} (hok : TaoOk startBlock db)
include hok

theorem taoReached_le : taoReached startBlock db.toDb ≤ handled startBlock db.toDb := by
  rw [taoReached, startHeight]
  cases h : heightOf db.block_checkpoint .crawlIbcTao with
  | none => exact hok.start_le
  | some height => exact hok.base.tao_le height h

variable (hext : AppLemmas.Extends startBlock db.toDb db'.toDb)
include hext

theorem clientOf_of_extends (hbase : DbOk startBlock db'.toDb) {e : Event}
    (he : e ∈ history db.event) : clientOf (J := J) db'.toDb e = clientOf db.toDb e := by
  obtain ⟨m, hm, hparent, hmatch⟩ := hok.event_top e he
  rw [clientOf, clientOf, topMessage_eq hok.base hm hparent hmatch,
    topMessage_eq hbase (hext.messages.subset hm) hparent hmatch]

/-- The events that another job adds are above the checkpoint. -/
theorem upTo_of_extends : upTo (taoReached startBlock db.toDb) (history db'.event) =
    upTo (taoReached startBlock db.toDb) (history db.event) := by
  obtain ⟨new, heq, hnew⟩ := hext.event
  have hnil : upTo (taoReached startBlock db.toDb) (history new) = [] := by
    rw [upTo, List.filter_eq_nil_iff]
    intro e he
    have hlt := hnew e (mem_history.mp he).1
    have hle := taoReached_le hok
    simp only [decide_eq_true_eq]
    omega
  rw [heq, history, List.filter_append, upTo, List.filter_append]
  exact (congrArg (_ ++ ·) hnil).trans (List.append_nil _)

theorem taoOk_of_extends (hbase : DbOk startBlock db'.toDb)
    (hreached : taoReached startBlock db'.toDb = taoReached startBlock db.toDb)
    (hclient : db'.ibc_client = db.ibc_client)
    (hconnection : db'.ibc_connection = db.ibc_connection)
    (hchannel : db'.ibc_channel = db.ibc_channel) (hhistory : HistoryOk (history db'.event))
    (htop : ∀ e ∈ history db'.event,
      ∃ m ∈ db'.transaction_message.rows, m.parent_id = none ∧ Matches e m) :
    TaoOk startBlock db' := by
  refine ⟨hbase, hok.start_le.trans hext.handled_le, hhistory, htop, ?_⟩
  rw [hreached, upTo_of_extends hok hext]
  refine ⟨?_, ?_, ?_⟩
  · have hmap : (select clientTypes (upTo (taoReached startBlock db.toDb) (history db.event))).map
        (clientOf db'.toDb) = (select clientTypes (upTo (taoReached startBlock db.toDb)
          (history db.event))).map (clientOf (J := J) db.toDb) :=
      List.map_congr_left fun e he =>
        clientOf_of_extends hok hext hbase (mem_upTo.mp (mem_select.mp he).1).1
    rw [hclient, hmap]
    exact hok.tables.clients
  · rw [hconnection, hclient]
    exact hok.tables.connections
  · rw [hchannel, hconnection]
    exact hok.tables.channels

/-- What a later state has an event of the range needs is there already. -/
theorem fine_of_extends (hok' : TaoOk startBlock db') {e : Event} (he : e ∈ history db.event)
    (hfine : Fine db' e) : Fine db e := by
  obtain ⟨new, heq, hnew⟩ := hext.event
  have hmem : e ∈ history db'.event := by
    rw [heq, history, List.filter_append]
    exact List.mem_append_left _ he
  have hheight : e.block_height ≤ handled startBlock db.toDb :=
    hok.base.event_le e (mem_history.mp he).1
  -- what `e` names is not made by an event above the handled height
  have hold : ∀ types, ∀ c ∈ select types (history db'.event),
      c.block_height ≤ e.block_height → c ∈ select types (history db.event) := by
    intro types c hc hle
    obtain ⟨hc, htype⟩ := mem_select.mp hc
    rw [heq, history, List.filter_append] at hc
    rcases List.mem_append.mp hc with hc | hc
    · exact mem_select.mpr ⟨hc, htype⟩
    · have hlt := hnew c (mem_history.mp hc).1
      exact absurd (hle.trans hheight) (not_le.mpr hlt)
  refine ⟨fun hclose m hm hmatch => ?_, fun htype => ?_, fun htype => ?_, fun htype => ?_⟩
  · exact hfine.alone hclose m (hext.messages.subset hm) hmatch
  · rw [← clientOf_of_extends hok hext hok'.base he]
    exact hfine.client htype
  · obtain ⟨c, hc, hid⟩ := hfine.connection htype
    have hfirst := hok'.history.client_first c hc e (mem_select.mpr ⟨hmem, htype⟩) hid.symm
    exact ⟨c, hold _ c hc hfirst, hid⟩
  · obtain ⟨c, hc, hid⟩ := hfine.channel htype
    have hfirst := hok'.history.connection_first c hc e (mem_select.mpr ⟨hmem, htype⟩) hid.symm
    exact ⟨c, hold _ c hc hfirst, hid⟩

end

theorem taoReached_eq_of_heightOf {db db' : Ibc.Db C}
    (h : heightOf db'.block_checkpoint .crawlIbcTao = heightOf db.block_checkpoint .crawlIbcTao) :
    taoReached startBlock db' = taoReached startBlock db :=
  AppLemmas.startHeight_eq_of_heightOf h

section
variable {db : Db C J} (hok : TaoOk startBlock db)
include hok

/-- `HANDLE_TRANSACTION` -/
theorem handleTransaction_ok {batch : Batch C} (hbatch : TaoBatchOk startBlock db batch) :
    let db' := { db with toDb := commitBatch db.toDb batch }
    TaoOk startBlock db' ∧ AppLemmas.Extends startBlock db.toDb db'.toDb ∧
      taoReached startBlock db'.toDb = taoReached startBlock db.toDb := by
  intro db'
  obtain ⟨hbase, hhistory, htop⟩ := hbatch
  have hext : AppLemmas.Extends startBlock db.toDb db'.toDb :=
    AppLemmas.commitBatch_extends hok.base hbase
  have hreached : taoReached startBlock db'.toDb = taoReached startBlock db.toDb := by
    refine taoReached_eq_of_heightOf ?_
    show heightOf (storeCheckpoint db.block_checkpoint _ _) _ = _
    rw [storeCheckpoint, heightOf_upsert, if_neg (by simp)]
  refine ⟨taoOk_of_extends hok hext (AppLemmas.commitBatch_ok hok.base hbase) hreached rfl rfl rfl
    hhistory fun e he => ?_, hext, hreached⟩
  have he' : e ∈ history db.event ++ history batch.event := by
    rw [history, history, ← List.filter_append]
    exact he
  rcases List.mem_append.mp he' with he | he
  · obtain ⟨m, hm, hparent, hmatch⟩ := hok.event_top e he
    exact ⟨m, hext.messages.subset hm, hparent, hmatch⟩
  · obtain ⟨m, hm, hmatch⟩ := htop e he
    rw [← map_withIds db.transaction_message.nextId batch.messages] at hm
    obtain ⟨row, hrow, rfl⟩ := List.mem_map.mp hm
    exact ⟨row, List.mem_append_right _ hrow, (hbase.2.2.1 _ (mem_of_mem_withIds hrow)).1, hmatch⟩

/-- `HANDLE_AUTHZ_TX` -/
theorem handleAuthz_ok [MessageContent C] :
    let db' := taoStep startBlock db .handleAuthz
    TaoOk startBlock db' ∧ AppLemmas.Extends startBlock db.toDb db'.toDb ∧
      taoReached startBlock db'.toDb = taoReached startBlock db.toDb := by
  intro db'
  obtain ⟨hbase, hext⟩ := AppLemmas.handleAuthz_ok hok.base
  obtain ⟨-, -, -, hother⟩ := handleAuthz_spec startBlock db.transaction db.transaction_message
    db.block_checkpoint
  have hreached : taoReached startBlock db'.toDb = taoReached startBlock db.toDb :=
    taoReached_eq_of_heightOf (hother _ (by simp))
  refine ⟨taoOk_of_extends hok hext hbase hreached rfl rfl rfl hok.history fun e he => ?_, hext,
    hreached⟩
  obtain ⟨m, hm, hparent, hmatch⟩ := hok.event_top e he
  exact ⟨m, hext.messages.subset hm, hparent, hmatch⟩

omit hok in
/-- A run with nothing to do. -/
theorem crawlIbcTao_of_lt (hlt : nextEnd startBlock db.toDb < taoReached startBlock db.toDb) :
    crawlIbcTao startBlock db = some db := if_pos (decide_eq_true hlt)

/-- A run that commits. -/
theorem crawlIbcTao_ok {db' : Db C J} (hrun : crawlIbcTao startBlock db = some db') :
    TaoOk startBlock db' := by
  rcases Nat.lt_or_ge (nextEnd startBlock db.toDb) (taoReached startBlock db.toDb) with hlt | hle
  · rw [crawlIbcTao_of_lt hlt] at hrun
    rwa [← Option.some.inj hrun]
  obtain ⟨clients, connections, channels, hw, rfl⟩ := (crawlIbcTao_eq_some_iff hok hle).mp hrun
  obtain ⟨hbase, hext⟩ := AppLemmas.crawlIbcTao_ok hok.base
  have hreturns : Checkpoint.crawlIbcTao.rangeTest.returns (taoReached startBlock db.toDb)
      (nextEnd startBlock db.toDb) = false := decide_eq_false (not_lt.mpr hle)
  have hreached : startHeight startBlock
      (runJob startBlock .crawlIbcTao Checkpoint.crawlIbcTao db.block_checkpoint) .crawlIbcTao =
        nextEnd startBlock db.toDb := by
    rw [startHeight, PipelineLemmas.heightOf_runJob, if_pos ⟨hreturns, rfl⟩]
    rfl
  refine ⟨hbase, hok.start_le.trans hext.handled_le, hok.history, hok.event_top, ?_⟩
  rw [taoReached, hreached]
  refine TablesOk.perm (Written.tablesOk hw hok.tables (fun e he hclosed => ?_) _)
    (upTo_perm db.toDb hle)
  -- a channel of the range is not closed before the range
  obtain ⟨c, hc, hid⟩ := List.mem_map.mp hclosed
  obtain ⟨hc, hctype⟩ := mem_select.mp hc
  obtain ⟨hc, hcheight⟩ := mem_upTo.mp hc
  obtain ⟨he, hetype⟩ := mem_select.mp he
  obtain ⟨he, heheight, -⟩ := mem_rangeEvents.mp he
  have hfirst := hok.history.channel_first e (mem_select.mpr ⟨he, hetype⟩) c
    (mem_select.mpr ⟨hc, hctype⟩) hid
  omega

/-- When a run commits. -/
theorem crawlIbcTao_isSome_iff : (crawlIbcTao startBlock db).isSome ↔
    ∀ e ∈ history db.event, taoReached startBlock db.toDb < e.block_height →
      e.block_height ≤ nextEnd startBlock db.toDb → Fine db e := by
  rcases Nat.lt_or_ge (nextEnd startBlock db.toDb) (taoReached startBlock db.toDb) with hlt | hle
  · rw [crawlIbcTao_of_lt hlt]
    exact ⟨fun _ e _ h1 h2 => absurd (h1.trans_le h2) (not_lt.mpr hlt.le), fun _ => rfl⟩
  rw [Option.isSome_iff_exists]
  constructor
  · rintro ⟨db', hrun⟩ e he h1 h2
    obtain ⟨clients, connections, channels, hw, -⟩ := (crawlIbcTao_eq_some_iff hok hle).mp hrun
    exact fine_of_written hok hle hw e (mem_rangeEvents.mpr ⟨he, h1, h2⟩)
  · intro hfine
    obtain ⟨clients, connections, channels, hw⟩ := exists_written hok hle fun e he =>
      hfine e (mem_rangeEvents.mp he).1 (mem_rangeEvents.mp he).2.1 (mem_rangeEvents.mp he).2.2
    exact ⟨_, (crawlIbcTao_eq_some_iff hok hle).mpr ⟨clients, connections, channels, hw, rfl⟩⟩

end

/-! ### Runs -/

theorem initial_ok : TaoOk startBlock (Db.initial : Db C J) where
  base := AppLemmas.initial_ok.db
  start_le := le_refl _
  history := ⟨by simp [Db.initial, Tao.history], by simp [Db.initial, Tao.history, select],
    List.nodup_nil, List.nodup_nil, List.nodup_nil, by simp [Db.initial, Tao.history, select],
    by simp [Db.initial, Tao.history, select], by simp [Db.initial, Tao.history, select]⟩
  event_top := by simp [Db.initial, Tao.history]
  tables := ⟨List.Perm.nil, List.Perm.nil, List.Perm.nil⟩

theorem taoStep_ok [MessageContent C] (db : Db C J) (a : TaoStep C) (hok : TaoOk startBlock db) :
    TaoOk startBlock (taoStep startBlock db a) := by
  cases a with
  | handleTransaction batch =>
    simp only [taoStep]
    split
    · next hbatch => exact (handleTransaction_ok hok hbatch).1
    · exact hok
  | handleAuthz => exact (handleAuthz_ok hok).1
  | crawlIbcTao =>
    simp only [taoStep]
    cases hrun : crawlIbcTao startBlock db with
    | none => exact hok
    | some db' => exact crawlIbcTao_ok hok hrun

theorem run_ok [MessageContent C] (steps : List (TaoStep C)) :
    TaoOk startBlock (runFrom (taoStep startBlock) (Db.initial : Db C J) steps) :=
  runFrom_invariant (fun db a h => taoStep_ok db a h) initial_ok steps

/-- The range ends at the `HANDLE_TRANSACTION` checkpoint, or 100 blocks on. -/
theorem nextEnd_eq (db : Ibc.Db C) : nextEnd startBlock db =
    match heightOf db.block_checkpoint .handleTransaction with
    | none => 0
    | some height => min (taoReached startBlock db + 100) height := by
  cases h : heightOf db.block_checkpoint .handleTransaction with
  | none =>
    refine endHeight_eq_zero fun d hd => ?_
    rw [List.mem_singleton.mp hd]
    exact h
  | some height =>
    have hlast : lastHeight db.block_checkpoint Checkpoint.crawlIbcTao.lastHeightJobNames =
        some height := by
      refine lastHeight_eq_some_iff.mpr ⟨⟨_, List.mem_singleton_self _, h⟩, fun d hd n hn => ?_⟩
      rw [List.mem_singleton.mp hd, h] at hn
      exact (Option.some.inj hn).le
    exact endHeight_of_lastHeight hlast

/-- A state in which the next run throws, at the checkpoint and the tables of `db₀`. -/
structure BlockedAt (startBlock : ℕ) (db₀ db : Db C J) : Prop where
  ok : TaoOk startBlock db
  reached_eq : taoReached startBlock db.toDb = taoReached startBlock db₀.toDb
  client_eq : db.ibc_client = db₀.ibc_client
  connection_eq : db.ibc_connection = db₀.ibc_connection
  channel_eq : db.ibc_channel = db₀.ibc_channel
  throws : crawlIbcTao startBlock db = none

/-- The range of the next run only grows. -/
theorem nextEnd_mono {db db' : Ibc.Db C} {n : ℕ} (hn : n ≤ nextEnd startBlock db) (hpos : 0 < n)
    (hreached : taoReached startBlock db' = taoReached startBlock db)
    (hhandled : handled startBlock db ≤ handled startBlock db')
    (hsome : (heightOf db.block_checkpoint .handleTransaction).isSome →
      (heightOf db'.block_checkpoint .handleTransaction).isSome) : n ≤ nextEnd startBlock db' := by
  rw [nextEnd_eq] at hn ⊢
  rw [handled, handled, startHeight, startHeight] at hhandled
  cases h : heightOf db.block_checkpoint .handleTransaction with
  | none =>
    rw [h] at hn
    exact absurd hn (not_le.mpr hpos)
  | some height =>
    obtain ⟨height', h'⟩ := Option.isSome_iff_exists.mp (hsome (by rw [h]; rfl))
    rw [h] at hn
    rw [h, h', Option.getD_some, Option.getD_some] at hhandled
    rw [h', hreached]
    exact hn.trans (min_le_min_left _ hhandled)

theorem blockedAt_of_extends {db₀ db db' : Db C J} (hblocked : BlockedAt startBlock db₀ db)
    (hok' : TaoOk startBlock db') (hext : AppLemmas.Extends startBlock db.toDb db'.toDb)
    (hreached : taoReached startBlock db'.toDb = taoReached startBlock db.toDb)
    (hsome : (heightOf db.block_checkpoint .handleTransaction).isSome →
      (heightOf db'.block_checkpoint .handleTransaction).isSome)
    (hclient : db'.ibc_client = db.ibc_client)
    (hconnection : db'.ibc_connection = db.ibc_connection)
    (hchannel : db'.ibc_channel = db.ibc_channel) : BlockedAt startBlock db₀ db' := by
  refine ⟨hok', hreached.trans hblocked.reached_eq, hclient.trans hblocked.client_eq,
    hconnection.trans hblocked.connection_eq, hchannel.trans hblocked.channel_eq, ?_⟩
  have hthrows := hblocked.throws
  rw [← Option.not_isSome_iff_eq_none, crawlIbcTao_isSome_iff hblocked.ok] at hthrows
  rw [← Option.not_isSome_iff_eq_none, crawlIbcTao_isSome_iff hok']
  -- the event that is not fine stays in the range and stays so
  intro hfine
  refine hthrows fun e he h1 h2 => fine_of_extends hblocked.ok hext hok' he (hfine e ?_ ?_ ?_)
  · obtain ⟨new, heq, -⟩ := hext.event
    rw [heq, history, List.filter_append]
    exact List.mem_append_left _ he
  · exact hreached ▸ h1
  · exact nextEnd_mono h2 (Nat.zero_lt_of_lt h1) hreached hext.handled_le hsome

theorem blockedAt_step [MessageContent C] {db₀ : Db C J} (db : Db C J) (a : TaoStep C)
    (hblocked : BlockedAt startBlock db₀ db) :
    BlockedAt startBlock db₀ (taoStep startBlock db a) := by
  cases a with
  | handleTransaction batch =>
    simp only [taoStep]
    split
    · next hbatch =>
      obtain ⟨hok', hext, hreached⟩ := handleTransaction_ok hblocked.ok hbatch
      refine blockedAt_of_extends hblocked hok' hext hreached (fun _ => ?_) rfl rfl rfl
      show (heightOf (storeCheckpoint db.block_checkpoint _ _) _).isSome
      rw [storeCheckpoint, heightOf_upsert, if_pos rfl]
      rfl
    · exact hblocked
  | handleAuthz =>
    obtain ⟨hok', hext, hreached⟩ := handleAuthz_ok hblocked.ok
    obtain ⟨-, -, -, hother⟩ := handleAuthz_spec startBlock db.transaction db.transaction_message
      db.block_checkpoint
    refine blockedAt_of_extends hblocked hok' hext hreached (fun h => ?_) rfl rfl rfl
    exact (hother .handleTransaction (by simp)).symm ▸ h
  | crawlIbcTao =>
    rw [taoStep, hblocked.throws]
    exact hblocked

end TaoLemmas

open TaoLemmas

variable [MessageContent C]

/-! ## 6. The results -/

/-- In every run of the jobs the three tables are what the events up to the checkpoint say. -/
theorem tables_replay_history (steps : List (TaoStep C)) :
    let db := runFrom (taoStep startBlock) (Db.initial : Db C J) steps
    TablesOk db (upTo (taoReached startBlock db.toDb) (history db.event)) :=
  (run_ok steps).tables

end

/-! ## 7. A client beside a `MsgExec` -/

instance : ClientContent Msg String where
  client_state m :=
    if m = .plain "/ibc.core.client.v1.MsgCreateClient" then some "osmosis-1" else none
  consensus_state m := if m = .plain "/ibc.core.client.v1.MsgCreateClient" then some "" else none
  chain_id s := some (some s)

/-- The block of height 1: one transaction that creates a client and votes through a `MsgExec`. -/
def clientBatch : Batch Msg where
  transaction := execBatch.transaction
  messages :=
    [⟨1, 0, "/ibc.core.client.v1.MsgCreateClient", .plain "/ibc.core.client.v1.MsgCreateClient",
      none, "a"⟩,
      ⟨1, 1, msgAuthzExec, .exec ["/cosmos.gov.v1.MsgVote"], none, "a"⟩]
  event :=
    [{ id := 1
       tx_id := some 1
       tx_msg_index := some 0
       type := createClient
       block_height := 1
       attributes :=
        [⟨"client_id", some "07-tendermint-0"⟩, ⟨"client_type", some "07-tendermint"⟩] }]
  endBlock := 1

end Erascope.Ibc.Tao
