import Mathlib.Tactic
import Erascope.Lib.Rows
import Erascope.Lib.Fold

/-!
# The CW721 handler

The model of `services/cw721/cw721_handler.ts`, of `handleJob` in `services/cw721/cw721.service.ts`
with what it calls, and of `getCw721ContractEvents`. The events of a range run over a dictionary
of the tokens that they name; every event of a tracked contract becomes an activity, which is
linked to its token when the dictionary has it at the end.

A contract is identified by its address and a token by its contract and its id, in place of the
numbers that the tables give them.

* `process`: the handler.
* `handleCw721MsgExec`, `updateTokenAndActivities`: loading the dictionary and writing it back.
* `handleJob`: a range.
-/

namespace Erascope.Cw721

/-! ## 1. Rows -/

/-- `CW721_ACTION`, or any other action. -/
inductive Cw721Action
  | mint | burn | transferNft | instantiate | sendNft
  | other (action : Option String)
deriving DecidableEq, Repr

/-- The entries of `EventAttribute.ATTRIBUTE_KEY` that the handler reads, or any other key. -/
inductive AttributeKey
  | recipient | tokenId | sender | minter | owner
  | other (key : String)
deriving DecidableEq, Repr

/-- A row of `event_attribute`. -/
structure EventAttribute where
  key : AttributeKey
  value : String
deriving DecidableEq, Repr

/-- A row of `smart_contract_event`, as `getCw721ContractEvents` returns it. -/
structure SmartContractEvent where
  contractAddress : String
  action : Cw721Action
  smart_contract_event_id : ℕ
  hash : String
  height : ℕ
  attributes : List EventAttribute
deriving DecidableEq, Repr

/-- `getAttributeFrom` -/
def getAttributeFrom (listAttributes : List EventAttribute) (attributeType : AttributeKey) :
    Option String :=
  (listAttributes.find? fun attr => attr.key = attributeType).map (·.value)

/-- The attribute `token_id` of an event. -/
def SmartContractEvent.tokenId (msg : SmartContractEvent) : Option String :=
  getAttributeFrom msg.attributes .tokenId

/-- A row of `cw721_contract`. -/
structure CW721Contract where
  address : String
  track : Bool
deriving DecidableEq, Repr

/-- A row of `cw721_token`. -/
structure CW721Token where
  contract : String
  token_id : String
  owner : Option String
  last_updated_height : ℕ
  burned : Bool
deriving DecidableEq, Repr

/-- The unique key of `cw721_token`, and the key of the dictionary. -/
def CW721Token.key (token : CW721Token) : String × String := (token.contract, token.token_id)

/-- The table `cw721_token`, or the dictionary `tokensKeyBy`. -/
abbrev Tokens := Table CW721Token.key

/-- A row of `cw721_activity`. `token_id` is carried along and not stored; `cw721_token` is the
token that the activity is linked to. -/
structure CW721Activity where
  action : Cw721Action
  sender : Option String
  tx_hash : String
  contract : String
  height : ℕ
  smart_contract_event_id : ℕ
  fromAddress : Option String
  toAddress : Option String
  token_id : Option String
  cw721_token : Option (String × String)
deriving DecidableEq, Repr

/-- What ends a run. -/
inductive Cw721Error
  /-- The `TypeError` of reading the owner of a token that is not in the dictionary. -/
  | tokenUndefined
  /-- `fromJson` of a token without `token_id`. -/
  | invalidToken
  /-- The unique key of `cw721_contract` is violated. -/
  | uniqueContract
  /-- The unique key of `cw721_token` is violated. -/
  | uniqueToken
  /-- The unique key of `cw721_activity` is violated. -/
  | uniqueActivity
  /-- `throwIfNotFound` -/
  | contractNotFound
  /-- Parsing the answer of a query that failed. -/
  | invalidAnswer
deriving DecidableEq, Repr

/-! ## 2. The handler -/

/-- The key of the dictionary for an event: a missing id reads `undefined`. -/
def SmartContractEvent.key (msg : SmartContractEvent) : String × String :=
  (msg.contractAddress, msg.tokenId.getD "undefined")

/-- The activity of an event, with its sender and parties. -/
def activityOf (msg : SmartContractEvent) (sender fromAddress toAddress : Option String) :
    CW721Activity :=
  { action := msg.action
    sender := sender
    tx_hash := msg.hash
    contract := msg.contractAddress
    height := msg.height
    smart_contract_event_id := msg.smart_contract_event_id
    fromAddress := fromAddress
    toAddress := toAddress
    token_id := msg.tokenId
    cw721_token := none }

/-- The fields of `Cw721Handler` that change: `tokensKeyBy` and `cw721Activities`. -/
structure Handler where
  tokensKeyBy : Tokens
  cw721Activities : List CW721Activity

/-- `handlerCw721Transfer` -/
def handlerCw721Transfer (h : Handler) (transferMsg : SmartContractEvent) : Handler :=
  let recipient := getAttributeFrom transferMsg.attributes .recipient
  let token := h.tokensKeyBy.get? transferMsg.key
  let cw721Activities := h.cw721Activities ++
    [activityOf transferMsg (getAttributeFrom transferMsg.attributes .sender)
      (token.bind (·.owner)) recipient]
  match token with
  | none => { h with cw721Activities := cw721Activities }
  | some token =>
    if token.last_updated_height ≤ transferMsg.height then
      { tokensKeyBy := h.tokensKeyBy.upsert
          { token with owner := recipient, last_updated_height := transferMsg.height }
        cw721Activities := cw721Activities }
    else { h with cw721Activities := cw721Activities }

/-- `handlerCw721Mint` -/
def handlerCw721Mint (h : Handler) (mintEvent : SmartContractEvent) : Except Cw721Error Handler :=
  let owner := getAttributeFrom mintEvent.attributes .owner
  let token := h.tokensKeyBy.get? mintEvent.key
  let cw721Activities := h.cw721Activities ++
    [activityOf mintEvent (getAttributeFrom mintEvent.attributes .minter) none owner]
  if token.all (·.last_updated_height ≤ mintEvent.height) then
    match mintEvent.tokenId with
    | none => .error .invalidToken
    | some tokenId =>
      .ok { tokensKeyBy := h.tokensKeyBy.upsert
              { contract := mintEvent.contractAddress
                token_id := tokenId
                owner := owner
                last_updated_height := mintEvent.height
                burned := false }
            cw721Activities := cw721Activities }
  else .ok { h with cw721Activities := cw721Activities }

/-- `handlerCw721Burn` -/
def handlerCw721Burn (h : Handler) (burnMsg : SmartContractEvent) : Except Cw721Error Handler :=
  match h.tokensKeyBy.get? burnMsg.key with
  | none => .error .tokenUndefined
  | some token =>
    let cw721Activities := h.cw721Activities ++
      [activityOf burnMsg (getAttributeFrom burnMsg.attributes .sender) token.owner none]
    if token.last_updated_height ≤ burnMsg.height then
      .ok { tokensKeyBy := h.tokensKeyBy.upsert
              { token with burned := true, last_updated_height := burnMsg.height }
            cw721Activities := cw721Activities }
    else .ok { h with cw721Activities := cw721Activities }

/-- `handleCw721Others` -/
def handleCw721Others (h : Handler) (msg : SmartContractEvent) : Handler :=
  { h with cw721Activities := h.cw721Activities ++
      [activityOf msg (getAttributeFrom msg.attributes .sender) none none] }

/-- The body of the loop of `process`; `tracked` are the contracts of
`trackedCw721ContractsByAddr`. -/
def processMsg (tracked : String → Bool) (h : Handler) (msg : SmartContractEvent) :
    Except Cw721Error Handler :=
  if tracked msg.contractAddress then
    match msg.action with
    | .mint => handlerCw721Mint h msg
    | .transferNft | .sendNft => .ok (handlerCw721Transfer h msg)
    | .burn => handlerCw721Burn h msg
    | .instantiate | .other _ => .ok (handleCw721Others h msg)
  else .ok h

/-- `process` -/
def process (tracked : String → Bool) (orderedMsgs : List SmartContractEvent) (h : Handler) :
    Except Cw721Error Handler :=
  orderedMsgs.foldlM (processMsg tracked) h

/-! ## 3. A range -/

/-- The tables. -/
structure Db where
  cw721_contract : List CW721Contract
  cw721_token : Tokens
  cw721_activity : List CW721Activity

/-- `getCw721TrackedContracts`, for one address. -/
def Db.isTracked (db : Db) (address : String) : Bool :=
  db.cw721_contract.any fun contract => contract.address = address && contract.track

/-- `handleInstantiateMsgs`: one tracked row for each contract. -/
def handleInstantiateMsgs (db : Db) (msgsInstantiate : List SmartContractEvent) :
    Except Cw721Error Db :=
  let addresses := (msgsInstantiate.map (·.contractAddress)).dedup
  if db.cw721_contract.any fun contract => contract.address ∈ addresses then .error .uniqueContract
  else .ok { db with
    cw721_contract := db.cw721_contract ++ addresses.map fun address => ⟨address, true⟩ }

/-- The key that an event asks the table for: an empty id is asked as null. -/
def SmartContractEvent.loads (msg : SmartContractEvent) (k : String × String) : Bool :=
  msg.contractAddress = k.1 && truthy msg.tokenId = some k.2

/-- The tokens that `handleCw721MsgExec` loads. -/
def loadTokens (db : Db) (msgs : List SmartContractEvent) : Tokens :=
  db.cw721_token.filter fun token => msgs.any (·.loads token.key)

/-- `handleCw721MsgExec` -/
def handleCw721MsgExec (db : Db) (cw721MsgsExecute : List SmartContractEvent) :
    Except Cw721Error Handler :=
  process db.isTracked cw721MsgsExecute ⟨loadTokens db cw721MsgsExecute, []⟩

/-- The link of an activity to a token in a table or dictionary. -/
def linkTo (tokens : Tokens) (act : CW721Activity) : CW721Activity :=
  { act with cw721_token :=
      (tokens.get? (act.contract, act.token_id.getD "undefined")).map (·.key) }

/-- The insert of activities, without the ids that they carry. -/
def insertActivities (db : Db) (cw721Activities : List CW721Activity) : Except Cw721Error Db :=
  let rows := cw721Activities.map fun act => { act with token_id := none }
  if ((db.cw721_activity ++ rows).map (·.smart_contract_event_id)).Nodup then
    .ok { db with cw721_activity := db.cw721_activity ++ rows }
  else .error .uniqueActivity

/-- `updateTokenAndActivities`. A token that was not loaded has no id, and is inserted as a new
row; the others overwrite their rows. -/
def updateTokenAndActivities (db : Db) (loaded : Tokens) (h : Handler) : Except Cw721Error Db :=
  if h.tokensKeyBy.rows.any fun token =>
      (loaded.get? token.key).isNone && (db.cw721_token.get? token.key).isSome then
    .error .uniqueToken
  else
    insertActivities { db with cw721_token := db.cw721_token.upsertAll h.tokensKeyBy.rows }
      (h.cw721Activities.map (linkTo h.tokensKeyBy))

/-- `handleJob`, for a range of the contract events. -/
def handleJob (events : List SmartContractEvent) (db : Db) (startBlock endBlock : ℕ) :
    Except Cw721Error Db :=
  let listContractMsg := between (·.height) startBlock endBlock events
  if listContractMsg = [] then .ok db
  else do
    let db ← handleInstantiateMsgs db (listContractMsg.filter fun msg => msg.action = .instantiate)
    let h ← handleCw721MsgExec db listContractMsg
    updateTokenAndActivities db (loadTokens db listContractMsg) h

end Erascope.Cw721
