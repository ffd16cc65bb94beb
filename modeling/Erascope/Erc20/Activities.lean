import Mathlib.Tactic
import Erascope.Lib.Rows
import Erascope.Erc20.Handler

/-!
# Building ERC20 activities

The model of `Erc20Handler.buildErc20Activities`. The activities of a range come from two
tables: EVM logs of registered contracts, and the Cosmos events `convert_coin` and
`convert_erc20`. Both are read in id order, events that cannot be decoded are dropped, and the
two lists are merged by a stable sort on the id of the Cosmos transaction.

Results:
1. `buildErc20Activities_eq`: the activities of a range are those of the whole history with a
   height in the range.
2. `pairwise_height`: in tables filled in chain order the sort leaves the heights in order.
3. `filter_buildErc20Activities`: the activities of one registered contract do not depend on the
   others.
-/

namespace Erascope.Erc20

/-! ## 1. Events -/

/-- `ERC20_EVENT_TOPIC0`, or any other topic. -/
inductive EventTopic0
  | transfer | approval | deposit | withdrawal
  | other (topic : Option String)
deriving DecidableEq, Repr

/-- A row of `evm_event`, with `evm_transaction.from` joined as `sender`. -/
structure EvmEvent where
  id : ℕ
  address : String
  topic0 : EventTopic0
  topic1 : Option String
  topic2 : Option String
  data : Option String
  block_height : ℕ
  tx_hash : String
  tx_id : ℕ
  evm_tx_id : ℕ
  sender : Option String
deriving DecidableEq, Repr

/-- The entries of `EventAttribute.ATTRIBUTE_KEY` that the handler reads, or any other key. -/
inductive AttributeKey
  | sender | receiver | amount | erc20Token
  | other (key : String)
deriving DecidableEq, Repr

/-- A row of `event_attribute`. -/
structure EventAttribute where
  key : AttributeKey
  value : String
deriving DecidableEq, Repr

/-- The entries of `Event.EVENT_TYPE` that the handler reads, or any other type. -/
inductive EventType
  | convertCoin | convertErc20
  | other (type : String)
deriving DecidableEq, Repr

/-- A row of `event` with its attributes; `transaction` is the hash of its transaction, which
events of a block itself do not have. -/
structure Event where
  id : ℕ
  type : EventType
  block_height : ℕ
  tx_id : Option ℕ
  transaction : Option String
  attributes : List EventAttribute
deriving DecidableEq, Repr

/-- The two tables, in id order. -/
structure Events where
  evmEvents : List EvmEvent
  cosmosEvents : List Event
deriving Repr

/-- The configuration and the libraries that the handler calls. A decoder that throws gives
`none`. -/
structure Env where
  /-- `decodeAbiParameters` for two addresses and a number. -/
  decodeTransfer : Option String → Option String → Option String → Option (String × String × ℕ)
  /-- `decodeAbiParameters` for an address and a number. -/
  decodeWrap : Option String → Option String → Option (String × ℕ)
  /-- `convertBech32AddressToEthAddress`, with the prefix of the network. -/
  convertBech32AddressToEthAddress : String → Option String
  /-- The number that a `decimal` column stores for the text of an `amount` attribute. -/
  decimal : String → ℤ
  /-- `config.erc20.wrapExtensionContract` -/
  wrapExtensionContract : List String
  /-- `config.evmOnly` -/
  evmOnly : Bool

/-! ## 2. One activity -/

/-- `toLowerCase`, for the letters of an address. -/
def toLowerCase (s : String) : String := String.ofList (s.toList.map Char.toLower)

/-- `value.startsWith('0x')` -/
def startsWith0x (s : String) : Bool := ['0', 'x'].isPrefixOf s.toList

/-- `Erc20Activity.fromJson` for a decoded log. The schema refuses a null `sender`. -/
def evmActivity (action : Erc20Action) (fromAddress toAddress : String) (amount : ℕ)
    (e : EvmEvent) : Option Erc20Activity :=
  e.sender.map fun sender =>
    { evm_event_id := some e.id
      sender := some sender
      action := action
      erc20_contract_address := e.address
      amount := some amount
      fromAddress := some fromAddress
      toAddress := some toAddress
      height := e.block_height
      tx_hash := e.tx_hash
      evm_tx_id := some e.evm_tx_id
      cosmos_tx_id := e.tx_id
      cosmos_event_id := none }

variable (env : Env)

/-- `buildTransferActivity` -/
def buildTransferActivity (e : EvmEvent) : Option Erc20Activity := do
  let (fromAddress, toAddress, amount) ← env.decodeTransfer e.topic1 e.topic2 e.data
  evmActivity .transfer (toLowerCase fromAddress) (toLowerCase toAddress) amount e

/-- `buildApprovalActivity`: the owner and the spender. -/
def buildApprovalActivity (e : EvmEvent) : Option Erc20Activity := do
  let (fromAddress, toAddress, amount) ← env.decodeTransfer e.topic1 e.topic2 e.data
  evmActivity .approval (toLowerCase fromAddress) (toLowerCase toAddress) amount e

/-- `buildWrapDepositActivity` -/
def buildWrapDepositActivity (e : EvmEvent) : Option Erc20Activity := do
  let (toAddress, amount) ← env.decodeWrap e.topic1 e.data
  evmActivity .deposit ZERO_ADDRESS (toLowerCase toAddress) amount e

/-- `buildWrapWithdrawalActivity` -/
def buildWrapWithdrawalActivity (e : EvmEvent) : Option Erc20Activity := do
  let (fromAddress, amount) ← env.decodeWrap e.topic1 e.data
  evmActivity .withdrawal (toLowerCase fromAddress) ZERO_ADDRESS amount e

/-- `buildWrapExtensionActivity` -/
def buildWrapExtensionActivity (e : EvmEvent) : Option Erc20Activity :=
  match e.topic0 with
  | .deposit => buildWrapDepositActivity env e
  | .withdrawal => buildWrapWithdrawalActivity env e
  | _ => none

/-- The body of the loop over the logs. -/
def buildEvmActivity (e : EvmEvent) : Option Erc20Activity :=
  match e.topic0 with
  | .transfer => buildTransferActivity env e
  | .approval => buildApprovalActivity env e
  | _ =>
    if env.wrapExtensionContract.contains e.address then buildWrapExtensionActivity env e
    else none

/-- `getAddressFromAttrAndConvert0x`: `none` when it throws, `some none` for undefined. -/
def getAddressFromAttrAndConvert0x (attrs : List EventAttribute) (key : AttributeKey) :
    Option (Option String) :=
  match attrs.find? fun attr => attr.key = key with
  | none => some none
  | some attr =>
    if startsWith0x attr.value then some (some (toLowerCase attr.value))
    else (env.convertBech32AddressToEthAddress attr.value).map fun v => some (toLowerCase v)

/-- `buildTransferActivityByCosmos`. A missing transaction throws, and the schema requires the
address of the contract. -/
def buildTransferActivityByCosmos (e : Event) : Option Erc20Activity := do
  let sender ← getAddressFromAttrAndConvert0x env e.attributes .sender
  let receiver ← getAddressFromAttrAndConvert0x env e.attributes .receiver
  let amount := e.attributes.find? fun attr => attr.key = .amount
  let address ← getAddressFromAttrAndConvert0x env e.attributes .erc20Token
  let address ← address
  let hash ← e.transaction
  let txId ← e.tx_id
  return {
    evm_event_id := none
    sender := sender
    action := .transfer
    erc20_contract_address := address
    amount := amount.map fun attr => env.decimal attr.value
    fromAddress := if e.type = .convertCoin then some ZERO_ADDRESS else sender
    toAddress := if e.type = .convertErc20 then some ZERO_ADDRESS else receiver
    height := e.block_height
    tx_hash := hash
    evm_tx_id := none
    cosmos_tx_id := txId
    cosmos_event_id := some e.id }

/-! ## 3. The activities of a range -/

/-- `event.type` is `convert_coin` or `convert_erc20`. -/
def isConvert (e : Event) : Bool := e.type = .convertCoin ∨ e.type = .convertErc20

/-- The attributes on which `joinRelated('attributes')` finds one of the addresses. -/
def tokenAttributes (addresses : List String) (e : Event) : List EventAttribute :=
  e.attributes.filter fun attr =>
    attr.key = .erc20Token ∧ addresses.contains (toLowerCase attr.value)

/-- The rows of `evm_event`, joined with `erc20_contract`. -/
def erc20Events (evs : Events) (hasContract : String → Bool) (addresses : Option (List String))
    (startBlock endBlock : ℕ) : List EvmEvent :=
  (between EvmEvent.block_height startBlock endBlock evs.evmEvents).filter fun e =>
    hasContract e.address && addresses.all fun l => l.contains e.address

/-- The rows of `event`. With addresses the join repeats an event for every attribute that names
one of them. -/
def erc20CosmosEvents (evs : Events) (addresses : Option (List String))
    (startBlock endBlock : ℕ) : List Event :=
  if env.evmOnly then []
  else
    let events :=
      (between Event.block_height startBlock endBlock evs.cosmosEvents).filter isConvert
    match addresses with
    | none => events
    | some l => events.flatMap fun e => (tokenAttributes l e).map fun _ => e

/-- The order of `_.sortBy(erc20Activities, 'cosmos_tx_id')`. -/
def txOrder (a b : Erc20Activity) : Prop := a.cosmos_tx_id ≤ b.cosmos_tx_id

instance : DecidableRel txOrder := fun a b => inferInstanceAs (Decidable (a.cosmos_tx_id ≤ b.cosmos_tx_id))

instance : IsTrans Erc20Activity txOrder := ⟨fun _ _ _ => Nat.le_trans⟩

instance : Std.Total txOrder := ⟨fun a b => Nat.le_total a.cosmos_tx_id b.cosmos_tx_id⟩

/-- `buildErc20Activities` -/
def buildErc20Activities (evs : Events) (hasContract : String → Bool) (startBlock endBlock : ℕ)
    (addresses : Option (List String)) : List Erc20Activity :=
  ((erc20Events evs hasContract addresses startBlock endBlock).filterMap (buildEvmActivity env) ++
    (erc20CosmosEvents env evs addresses startBlock endBlock).filterMap
      (buildTransferActivityByCosmos env)).insertionSort txOrder

/-- The activities of all logs of registered contracts. -/
def evmActivities (evs : Events) (hasContract : String → Bool) : List Erc20Activity :=
  (evs.evmEvents.filter fun e => hasContract e.address).filterMap (buildEvmActivity env)

/-- The activities of all convert events. -/
def cosmosActivities (evs : Events) : List Erc20Activity :=
  if env.evmOnly then []
  else (evs.cosmosEvents.filter isConvert).filterMap (buildTransferActivityByCosmos env)

/-- The activities of the whole history. -/
def history (evs : Events) (hasContract : String → Bool) : List Erc20Activity :=
  (evmActivities env evs hasContract ++ cosmosActivities env evs).insertionSort txOrder

/-- The activities of one contract. -/
def contractHistory (evs : Events) (x : String) : List Erc20Activity :=
  (history env evs fun y => y = x).filter fun a => a.erc20_contract_address = x

/-- The transaction id and the height of every event that has a transaction. -/
def txHeights (evs : Events) : List (ℕ × ℕ) :=
  (evs.evmEvents.map fun e => (e.tx_id, e.block_height)) ++
    evs.cosmosEvents.filterMap fun e => e.tx_id.map fun id => (id, e.block_height)

/-- Transaction ids increase with height. -/
def ChainOrder (evs : Events) : Prop :=
  ∀ p ∈ txHeights evs, ∀ q ∈ txHeights evs, p.2 < q.2 → p.1 < q.1

instance (evs : Events) : Decidable (ChainOrder evs) :=
  inferInstanceAs (Decidable (∀ p ∈ txHeights evs, ∀ q ∈ txHeights evs, p.2 < q.2 → p.1 < q.1))

variable {env}

namespace ActivitiesLemmas

theorem evmActivity_eq_some {action : Erc20Action} {f t : String} {n : ℕ} {e : EvmEvent}
    {a : Erc20Activity} (h : evmActivity action f t n e = some a) :
    a.height = e.block_height ∧ a.cosmos_tx_id = e.tx_id ∧ a.erc20_contract_address = e.address ∧
      a.evm_event_id = some e.id ∧ a.amount ≠ none := by
  unfold evmActivity at h
  obtain ⟨sender, -, rfl⟩ := Option.map_eq_some_iff.mp h
  exact ⟨rfl, rfl, rfl, rfl, Option.some_ne_none _⟩

/-- What every activity of a log carries over from it. -/
theorem buildEvmActivity_eq_some {e : EvmEvent} {a : Erc20Activity}
    (h : buildEvmActivity env e = some a) :
    a.height = e.block_height ∧ a.cosmos_tx_id = e.tx_id ∧ a.erc20_contract_address = e.address ∧
      a.evm_event_id = some e.id ∧ a.amount ≠ none := by
  have hpair : ∀ {β : Type} {x : Option β} {f : β → Option Erc20Activity},
      (∀ b a, f b = some a → a.height = e.block_height ∧ a.cosmos_tx_id = e.tx_id ∧
        a.erc20_contract_address = e.address ∧ a.evm_event_id = some e.id ∧ a.amount ≠ none) →
      x.bind f = some a → a.height = e.block_height ∧ a.cosmos_tx_id = e.tx_id ∧
        a.erc20_contract_address = e.address ∧ a.evm_event_id = some e.id ∧ a.amount ≠ none := by
    intro β x f hf hx
    obtain ⟨b, -, hb⟩ := Option.bind_eq_some_iff.mp hx
    exact hf b a hb
  unfold buildEvmActivity at h
  split at h
  · exact hpair (fun _ _ => evmActivity_eq_some) h
  · exact hpair (fun _ _ => evmActivity_eq_some) h
  · split at h
    · unfold buildWrapExtensionActivity at h
      split at h
      · exact hpair (fun _ _ => evmActivity_eq_some) h
      · exact hpair (fun _ _ => evmActivity_eq_some) h
      · cases h
    · cases h

/-- What every activity of a convert event carries over from it. -/
theorem buildTransferActivityByCosmos_eq_some {e : Event} {a : Erc20Activity}
    (h : buildTransferActivityByCosmos env e = some a) :
    a.height = e.block_height ∧ some a.cosmos_tx_id = e.tx_id ∧ a.cosmos_event_id = some e.id ∧
      a.evm_event_id = none := by
  unfold buildTransferActivityByCosmos at h
  simp only [Option.bind_eq_bind, Option.bind_eq_some_iff, pure, Option.some.injEq] at h
  obtain ⟨_, -, _, -, _, -, _, -, _, -, txId, htx, rfl⟩ := h
  exact ⟨rfl, htx.symm, rfl, rfl⟩

theorem between_cosmosActivities (evs : Events) (s e : ℕ) :
    (erc20CosmosEvents env evs none s e).filterMap (buildTransferActivityByCosmos env) =
      between Erc20Activity.height s e (cosmosActivities env evs) := by
  unfold erc20CosmosEvents cosmosActivities
  split
  · rfl
  · simp only [filter_between]
    exact between_filterMap (fun r b hb => (buildTransferActivityByCosmos_eq_some hb).1) _

theorem between_evmActivities (evs : Events) (hasContract : String → Bool) (s e : ℕ) :
    (erc20Events evs hasContract none s e).filterMap (buildEvmActivity env) =
      between Erc20Activity.height s e (evmActivities env evs hasContract) := by
  simp only [erc20Events, Option.all_none, Bool.and_true, filter_between]
  exact between_filterMap (fun r b hb => (buildEvmActivity_eq_some hb).1) _

theorem mem_evmActivities {evs : Events} {hasContract : String → Bool} {a : Erc20Activity} :
    a ∈ evmActivities env evs hasContract ↔
      ∃ e, (e ∈ evs.evmEvents ∧ hasContract e.address) ∧ buildEvmActivity env e = some a := by
  simp [evmActivities]

theorem mem_cosmosActivities {evs : Events} {a : Erc20Activity}
    (h : a ∈ cosmosActivities env evs) :
    ∃ e ∈ evs.cosmosEvents, buildTransferActivityByCosmos env e = some a := by
  unfold cosmosActivities at h
  split at h
  · cases h
  · obtain ⟨e, he, ha⟩ := List.mem_filterMap.mp h
    exact ⟨e, List.mem_of_mem_filter he, ha⟩

theorem mem_txHeights_of_mem_history {evs : Events} {hasContract : String → Bool}
    {a : Erc20Activity} (h : a ∈ history env evs hasContract) :
    (a.cosmos_tx_id, a.height) ∈ txHeights evs := by
  rw [history, List.mem_insertionSort, List.mem_append] at h
  rw [txHeights, List.mem_append]
  rcases h with h | h
  · obtain ⟨e, he, ha⟩ := mem_evmActivities.mp h
    obtain ⟨hh, htx, -⟩ := buildEvmActivity_eq_some ha
    rw [hh, htx]
    exact Or.inl (List.mem_map_of_mem he.1)
  · obtain ⟨e, he, ha⟩ := mem_cosmosActivities h
    obtain ⟨hh, htx, -⟩ := buildTransferActivityByCosmos_eq_some ha
    refine Or.inr (List.mem_filterMap.mpr ⟨e, he, ?_⟩)
    rw [← htx, hh]
    rfl

/-- The logs of a registered contract. -/
theorem filter_evmActivities {evs : Events} {hasContract : String → Bool} {x : String}
    (hx : hasContract x) :
    ((evmActivities env evs hasContract).filter fun a => a.erc20_contract_address = x) =
      (evs.evmEvents.filter fun e => e.address = x).filterMap (buildEvmActivity env) := by
  have haddr : ∀ r b, buildEvmActivity env r = some b →
      decide (b.erc20_contract_address = x) = decide (r.address = x) := by
    intro r b hb
    rw [(buildEvmActivity_eq_some hb).2.2.1]
  rw [evmActivities, ← filter_filterMap_comm haddr, List.filter_filter]
  congr 1
  refine List.filter_congr fun r _ => ?_
  by_cases hr : r.address = x <;> simp [hr, hx]

/-- A contract without logs up to the end of the range. -/
theorem filter_evmActivities_eq_nil {evs : Events} {hasContract : String → Bool} {x : String}
    {s e : ℕ} (hnone : ∀ r ∈ evs.evmEvents, r.address = x → e < r.block_height) :
    ((between Erc20Activity.height s e (evmActivities env evs hasContract)).filter
      fun a => a.erc20_contract_address = x) = [] := by
  rw [List.filter_eq_nil_iff]
  intro a ha
  obtain ⟨hmem, -, hle⟩ := mem_between.mp ha
  obtain ⟨r, ⟨hr, -⟩, hb⟩ := mem_evmActivities.mp hmem
  obtain ⟨hh, -, haddr, -⟩ := buildEvmActivity_eq_some hb
  rw [hh] at hle
  simp only [decide_eq_true_eq, haddr]
  intro hrx
  exact absurd (hnone r hr hrx) (Nat.not_lt_of_le hle)

end ActivitiesLemmas

open ActivitiesLemmas

/-! ## 4. Results -/

/-- The activities of a range are those of the whole history with a height in the range. -/
theorem buildErc20Activities_eq (evs : Events) (hasContract : String → Bool) (s e : ℕ) :
    buildErc20Activities env evs hasContract s e none =
      between Erc20Activity.height s e (history env evs hasContract) := by
  rw [buildErc20Activities, between_evmActivities, between_cosmosActivities,
    ← between_append_rows, between, insertionSort_filter]
  rfl

/-- In chain order the sort by transaction leaves the heights in order. -/
theorem pairwise_height {evs : Events} (hchain : ChainOrder evs) (hasContract : String → Bool) :
    (history env evs hasContract).Pairwise fun a b => a.height ≤ b.height := by
  have hsort : (history env evs hasContract).Pairwise txOrder :=
    List.pairwise_insertionSort txOrder _
  refine hsort.imp_of_mem fun {a b} ha hb hab => ?_
  by_contra hlt
  have := hchain _ (mem_txHeights_of_mem_history hb) _ (mem_txHeights_of_mem_history ha)
    (Nat.lt_of_not_le hlt)
  exact absurd hab (Nat.not_le_of_lt this)

/-- The activities of a contract in a range are the same whichever others are registered, as
long as it is registered itself or has no log in the range yet. -/
theorem filter_buildErc20Activities {evs : Events} {hasContract : String → Bool} {x : String}
    {s e : ℕ}
    (hx : hasContract x ∨ ∀ r ∈ evs.evmEvents, r.address = x → e < r.block_height) :
    ((buildErc20Activities env evs hasContract s e none).filter
        fun a => a.erc20_contract_address = x) =
      between Erc20Activity.height s e (contractHistory env evs x) := by
  rw [buildErc20Activities_eq, contractHistory, ← filter_between, history, history, between,
    between, ← insertionSort_filter, ← insertionSort_filter, ← insertionSort_filter,
    ← insertionSort_filter]
  congr 1
  show (between Erc20Activity.height s e _).filter _ = (between Erc20Activity.height s e _).filter _
  rw [between_append_rows, between_append_rows, List.filter_append, List.filter_append]
  congr 1
  rcases hx with hx | hnone
  · rw [filter_between, filter_between, filter_evmActivities hx,
      filter_evmActivities (decide_eq_true rfl)]
  · rw [filter_evmActivities_eq_nil hnone, filter_evmActivities_eq_nil hnone]

/-! ## 5. The decoders on well-formed words -/

/-- The value of a lower-case hexadecimal digit. -/
def hexDigit (c : Char) : ℕ := if c.toNat < 58 then c.toNat - 48 else c.toNat - 87

/-- The number in a word `0x...`. -/
def wordNat (s : String) : ℕ := (s.toList.drop 2).foldl (fun n c => 16 * n + hexDigit c) 0

/-- The address in a word of 32 bytes: its last 20 bytes. -/
def wordAddress (s : String) : String := String.ofList (['0', 'x'] ++ s.toList.drop 26)

/-- The number in a text of decimal digits. -/
def digitsNat (s : String) : ℕ := s.toList.foldl (fun n c => 10 * n + (c.toNat - 48)) 0

/-- The libraries on words of 32 bytes and texts of digits, with the shipped configuration. -/
def wordEnv : Env where
  decodeTransfer topic1 topic2 data :=
    return (wordAddress (← topic1), wordAddress (← topic2), wordNat (← data))
  decodeWrap topic1 data := return (wordAddress (← topic1), wordNat (← data))
  convertBech32AddressToEthAddress _ := none
  decimal s := digitsNat s
  wrapExtensionContract := [""]
  evmOnly := false

/-- The word of an address. -/
def addressWord (address : String) : String :=
  String.ofList (['0', 'x'] ++ List.replicate 24 '0' ++ address.toList.drop 2)

/-- A `Transfer` log. -/
def transferLog (id : ℕ) (address fromAddress toAddress data : String) (block_height tx_id : ℕ) :
    EvmEvent :=
  { id, address, topic0 := .transfer, topic1 := some (addressWord fromAddress),
    topic2 := some (addressWord toAddress), data := some data, block_height,
    tx_hash := "0xf1", tx_id, evm_tx_id := tx_id, sender := some fromAddress }

end Erascope.Erc20
