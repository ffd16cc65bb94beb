import Mathlib.Data.List.ReduceOption
import Mathlib.Tactic
import Erascope.Lib.EventJob
import Erascope.Checkpoint.Follow
import Erascope.Staking.ValidatorIds

/-!
# Power events

The model of `services/crawl-validator/handle_stake_event.service.ts` with
`services/crawl-validator/crawl_validator.service.ts`. `HANDLE_STAKE_EVENT` makes a row of
`power_event` of each staking event of its range, with the ids that the validators of the event have
when it reads them. `CRAWL_VALIDATOR` may give a validator another id before the rows are inserted,
and while they are there: the foreign keys of `power_event` are all that keeps the rows right. The
version of the SDK that says where an event has its amount is read when the service starts, and may
differ from run to run.

What a job reads and what it writes are two steps. The jobs that write delegations run beside the
two.

Results:
1. `power_events_replay`: in every run the table is the replay of the staking events up to the
   checkpoint, and the ids are those of the validators that the events name.
2. `handleJob_commits_iff`: when a run of `HANDLE_STAKE_EVENT` commits.
3. `unfit_event_stops`: an event of a block, and one with a validator that has no row, is never
   passed.
-/

namespace Erascope.Staking

open Checkpoint

/-! ## 1. Tables -/

/-- A row of `event_attribute`; its index in the event is unique. -/
structure EventAttribute where
  key : String
  value : Option String
  index : ℕ
deriving DecidableEq, Repr

/-- The columns that the query asks of a transaction. -/
structure EventTransaction where
  id : ℕ
  timestamp : ℕ
deriving DecidableEq, Repr

/-- A row of `event` with its attributes and its transaction; an event of a block has none. -/
structure Event where
  type : String
  block_height : ℕ
  transaction : Option EventTransaction
  attributes : List EventAttribute
deriving DecidableEq, Repr

/-- A row of `power_event`, with what names a validator left open. -/
structure PowerEvent (ι : Type) where
  tx_id : ℕ
  height : ℕ
  type : String
  validator_src_id : Option ι
  validator_dst_id : Option ι
  amount : ℕ
  time : ℕ
deriving DecidableEq, Repr

/-- What names the validators of a row. -/
def PowerEvent.validators {ι : Type} (p : PowerEvent ι) : List ι :=
  p.validator_src_id.toList ++ p.validator_dst_id.toList

/-- `PowerEvent.TYPES` -/
def delegate : String := "delegate"
@[inherit_doc delegate] def redelegate : String := "redelegate"
@[inherit_doc delegate] def unbond : String := "unbond"
@[inherit_doc delegate] def createValidator : String := "create_validator"

/-- `eventStakes` -/
def eventStakes : List String := [delegate, redelegate, unbond, createValidator]

/-- `EventAttribute.ATTRIBUTE_KEY` -/
def validatorKey : String := "validator"
@[inherit_doc validatorKey] def sourceValidatorKey : String := "source_validator"
@[inherit_doc validatorKey] def destinationValidatorKey : String := "destination_validator"
@[inherit_doc validatorKey] def editValidatorKey : String := "edit_validator"
@[inherit_doc validatorKey] def amountKey : String := "amount"

/-! ## 2. `HANDLE_STAKE_EVENT` -/

/-- The result of `cosmosSdkVersion.compare('0.47.8')`. -/
inductive CosmosSdk
  | below
  | atLeast
deriving DecidableEq, Repr

/-- `mapIndexAmountWithEventStakes` -/
def indexRule (version : CosmosSdk) (action : String) : ℕ :=
  if action = delegate then
    match version with
    | .below => 1
    | .atLeast => 2
  else if action = redelegate then 2
  else 1

/-- `getRawAmountByFirstIndex` -/
def getRawAmountByFirstIndex (version : CosmosSdk) (attributes : List EventAttribute)
    (action : String) (firstIndex : ℕ) : Option EventAttribute :=
  attributes.find? fun attr =>
    attr.key = amountKey ∧ attr.index = firstIndex + indexRule version action

/-- The attributes as the query orders them. -/
def orderedAttributes (stakeEvent : Event) : List EventAttribute :=
  stakeEvent.attributes.insertionSort fun a b => a.index ≤ b.index

def firstValidator (stakeEvent : Event) : Option EventAttribute :=
  (orderedAttributes stakeEvent).find? fun attr =>
    attr.key = validatorKey ∨ attr.key = sourceValidatorKey

def destValidator (stakeEvent : Event) : Option EventAttribute :=
  (orderedAttributes stakeEvent).find? fun attr => attr.key = destinationValidatorKey

/-- `parseCoins(amountRaw?.value)[0].amount`; `none` when something throws, and when there is no
amount, which `fromJson` refuses. `parseCoins` gives the amounts of the coins of a text, or
throws. -/
def amountOf (parseCoins : String → Option (List ℕ)) (version : CosmosSdk) (stakeEvent : Event)
    (first : EventAttribute) : Option ℕ := do
  let amountRaw ← getRawAmountByFirstIndex version (orderedAttributes stakeEvent) stakeEvent.type
    first.index
  let value ← amountRaw.value
  let coins ← parseCoins value
  coins.head?

section
variable {ι : Type}

/-- `PowerEvent.fromJson` with the columns of the event and of its transaction. -/
def fromStakeEvent (parseCoins : String → Option (List ℕ)) (version : CosmosSdk)
    (stakeEvent : Event) (first : EventAttribute) (validatorSrcId validatorDstId : Option ι) :
    Option (PowerEvent ι) := do
  let amount ← amountOf parseCoins version stakeEvent first
  let transaction ← stakeEvent.transaction
  return {
    tx_id := transaction.id
    height := stakeEvent.block_height
    type := stakeEvent.type
    validator_src_id := validatorSrcId
    validator_dst_id := validatorDstId
    amount := amount
    time := transaction.timestamp }

/-- `validatorKeys[attr.value]` -/
def keyed (validatorKeys : String → Option ι) (attr : EventAttribute) : Option ι :=
  attr.value.bind validatorKeys

/-- The body of the loop over the events: `none` when it throws, `some none` when it returns
early. -/
def powerEvent (parseCoins : String → Option (List ℕ)) (version : CosmosSdk)
    (validatorKeys : String → Option ι) (stakeEvent : Event) : Option (Option (PowerEvent ι)) :=
  match firstValidator stakeEvent with
  | none => some none
  | some first => do
    let id ← keyed validatorKeys first
    if stakeEvent.type = redelegate then
      match destValidator stakeEvent with
      | none => some none
      | some dest =>
        let destId ← keyed validatorKeys dest
        (fromStakeEvent parseCoins version stakeEvent first (some id) (some destId)).map some
    else if stakeEvent.type = unbond then
      (fromStakeEvent parseCoins version stakeEvent first (some id) none).map some
    else if stakeEvent.type ∈ [delegate, createValidator] then
      (fromStakeEvent parseCoins version stakeEvent first none (some id)).map some
    else none

end

/-- The events that the query of `handleJob` selects. -/
def stakeEvents (event : List Event) : List Event := event.filter fun e => e.type ∈ eventStakes

/-! ## 3. The state -/

/-- `table.foreign('validator_src_id')` and `table.foreign('validator_dst_id')` -/
def ForeignKey (db : Db) (power_event : List (PowerEvent ℕ)) : Prop :=
  ∀ p ∈ power_event, ∀ id ∈ p.validators, ∃ v ∈ db.validator.rows, v.id = id

instance (db : Db) (power_event : List (PowerEvent ℕ)) : Decidable (ForeignKey db power_event) :=
  inferInstanceAs (Decidable (∀ p ∈ power_event, ∀ id ∈ p.validators, _))

/-- The tables of the validators and of the power events. -/
structure Tables where
  counts : CountState
  power_event : List (PowerEvent ℕ)
  foreign : ForeignKey counts.db power_event

/-- The upsert of `handleCrawlAllValidator`; the foreign keys are checked when it ends. -/
def Tables.mergeValidators (t : Tables) (updateValidators : List ValidatorEntity) : Option Tables :=
  match t.counts.db.mergeValidators updateValidators with
  | none => none
  | some db =>
    if h : ForeignKey db t.power_event then
      some ⟨{ t.counts with db := db }, t.power_event, h⟩
    else none

/-- `PowerEvent.query().insert(powerEvents)`; `amount` is a `decimal(30, 0)`. -/
def Tables.insertPowerEvents (t : Tables) (powerEvents : List (PowerEvent ℕ)) : Option Tables :=
  if h : ForeignKey t.counts.db (t.power_event ++ powerEvents) ∧
      ∀ p ∈ powerEvents, fits p.amount = true then
    some ⟨t.counts, t.power_event ++ powerEvents, h.1⟩
  else none

theorem foreignKey_of_same {db db' : Db} {rows : List (PowerEvent ℕ)} (h : ForeignKey db rows)
    (hsame : SameValidators db db') : ForeignKey db' rows := by
  intro p hp id hid
  obtain ⟨v, hv, hvid⟩ := h p hp id hid
  have hkeep : db'.validatorId v.operator_address = some id := by
    rw [hsame.ids]
    exact validatorId_eq_some_iff.mpr ⟨v, hv, rfl, hvid⟩
  obtain ⟨w, hw, -, hwid⟩ := validatorId_eq_some_iff.mp hkeep
  exact ⟨w, hw, hwid⟩

/-- A step of the jobs that write delegations. -/
def Tables.delegations (t : Tables) (a : CountLabel) (ha : a.ofDelegations = true) : Tables :=
  ⟨countStep t.counts a, t.power_event, foreignKey_of_same t.foreign (sameValidators_countStep ha)⟩

/-- What `handleCrawlAllValidator` has read; it asks for the validators only when the range has an
attribute that names one. -/
structure CrawlValidator where
  updateValidators : Option (List ValidatorEntity)
  endHeight : ℕ
deriving DecidableEq, Repr

/-- What `handleJob` has read. -/
structure HandleStakeEvent where
  powerEvents : List (PowerEvent ℕ)
  endHeight : ℕ
deriving DecidableEq, Repr

structure State where
  event : List Event
  tables : Tables
  block_checkpoint : Checkpoints BullJobName
  crawling : Option CrawlValidator
  handling : Option HandleStakeEvent

/-- The tables `validator` and `delegator`. -/
def State.db (s : State) : Db := s.tables.counts.db

/-- The keys that `handleCrawlAllValidator` looks for. -/
def validatorAttributeKeys : List String :=
  [validatorKey, sourceValidatorKey, destinationValidatorKey, editValidatorKey]

/-- An event with one of the keys. -/
def namesValidator (e : Event) : Bool :=
  e.attributes.any fun attr => attr.key ∈ validatorAttributeKeys

/-- The checkpoint and the end of the next range of `CRAWL_VALIDATOR`. -/
def crawled (startBlock : ℕ) (s : State) : ℕ :=
  startHeight startBlock s.block_checkpoint .crawlValidator
@[inherit_doc crawled] def crawlEnd (startBlock : ℕ) (s : State) : ℕ :=
  rangeEnd startBlock .crawlValidator handleCrawlAllValidator s.block_checkpoint

/-- The checkpoint and the end of the next range of `HANDLE_STAKE_EVENT`. -/
def reached (startBlock : ℕ) (s : State) : ℕ :=
  startHeight startBlock s.block_checkpoint .handleStakeEvent
@[inherit_doc reached] def nextEnd (startBlock : ℕ) (s : State) : ℕ :=
  rangeEnd startBlock .handleStakeEvent handleStakeEvent s.block_checkpoint

/-! ## 4. Steps -/

inductive Step
  /-- `HANDLE_TRANSACTION` stores the events of the blocks up to `endBlock`. -/
  | handleTransaction (event : List Event) (endBlock : ℕ)
  /-- A step of the jobs that write delegations. -/
  | delegations (a : CountLabel)
  /-- `CRAWL_VALIDATOR`: the reads, with the answer of the node. -/
  | readValidators (validators : List OnchainValidator)
  /-- Its database transaction. -/
  | mergeValidators
  | abortValidators
  /-- `HANDLE_STAKE_EVENT`: the reads; the query of the events has no order. -/
  | readEvents (version : CosmosSdk) (order : AnyOrder Event)
  /-- Its database transaction. -/
  | insertPowerEvents
  | abortEvents

/-- The events follow the blocks that `HANDLE_TRANSACTION` has handled. -/
def BatchOk (startBlock : ℕ) (s : State) (event : List Event) (endBlock : ℕ) : Prop :=
  handledHeight startBlock s.block_checkpoint < endBlock ∧
    ∀ e ∈ event, handledHeight startBlock s.block_checkpoint < e.block_height ∧
      e.block_height ≤ endBlock

instance (startBlock : ℕ) (s : State) (event : List Event) (endBlock : ℕ) :
    Decidable (BatchOk startBlock s event endBlock) :=
  inferInstanceAs (Decidable (_ ∧ ∀ e ∈ event, _ ∧ _))

/-- What `handleCrawlAllValidator` reads. -/
def readValidators (startBlock : ℕ) (s : State) (validators : List OnchainValidator) :
    CrawlValidator where
  updateValidators :=
    if (between (·.block_height) (crawled startBlock s) (crawlEnd startBlock s) s.event).any
        namesValidator then
      some (getFullInfoValidators s.db validators)
    else none
  endHeight := crawlEnd startBlock s

/-- The upsert, when there is one. -/
def CrawlValidator.write (c : CrawlValidator) (t : Tables) : Option Tables :=
  match c.updateValidators with
  | none => some t
  | some updateValidators => t.mergeValidators updateValidators

/-- The rows that `handleJob` makes; `none` when it throws. -/
def readPowerEvents (parseCoins : String → Option (List ℕ)) (startBlock : ℕ) (s : State)
    (version : CosmosSdk) (order : AnyOrder Event) : Option (List (Option (PowerEvent ℕ))) :=
  (order.order (between (·.block_height) (reached startBlock s) (nextEnd startBlock s)
    (stakeEvents s.event))).mapM (powerEvent parseCoins version s.db.validatorId)

def step (parseCoins : String → Option (List ℕ)) (startBlock : ℕ) (s : State) : Step → State
  | .handleTransaction event endBlock =>
    if BatchOk startBlock s event endBlock then
      { s with
        event := s.event ++ event
        block_checkpoint :=
          storeCheckpoint s.block_checkpoint ⟨.handleTransaction, endBlock⟩ endBlock }
    else s
  | .delegations a =>
    if ha : a.ofDelegations = true then { s with tables := s.tables.delegations a ha } else s
  | .readValidators validators =>
    if s.crawling.isSome ∨
        handleCrawlAllValidator.rangeTest.returns (crawled startBlock s)
            (crawlEnd startBlock s) then s
    else { s with crawling := some (readValidators startBlock s validators) }
  | .mergeValidators =>
    match s.crawling with
    | none => s
    | some c =>
      match c.write s.tables with
      -- the error is caught, and then the transaction refuses the checkpoint
      | none => { s with crawling := none }
      | some tables =>
        { s with
          tables := tables
          block_checkpoint :=
            storeCheckpoint s.block_checkpoint ⟨.crawlValidator, c.endHeight⟩ c.endHeight
          crawling := none }
  | .abortValidators => { s with crawling := none }
  | .readEvents version order =>
    if s.handling.isSome ∨
        handleStakeEvent.rangeTest.returns (reached startBlock s) (nextEnd startBlock s) then s
    else
      match readPowerEvents parseCoins startBlock s version order with
      | none => s
      | some powerEvents =>
        { s with handling := some ⟨powerEvents.reduceOption, nextEnd startBlock s⟩ }
  | .insertPowerEvents =>
    match s.handling with
    | none => s
    | some h =>
      match s.tables.insertPowerEvents h.powerEvents with
      | none => { s with handling := none }
      | some tables =>
        { s with
          tables := tables
          block_checkpoint :=
            storeCheckpoint s.block_checkpoint ⟨.handleStakeEvent, h.endHeight⟩ h.endHeight
          handling := none }
  | .abortEvents => { s with handling := none }

/-- No validators and no delegations. -/
def noValidators : Db where
  validator := Table.empty
  delegator := Table.empty
  nextValidatorId := 1
  nextDelegatorId := 1
  validator_ids := List.nodup_nil
  validator_id_lt := nofun
  delegator_ids := List.nodup_nil
  delegator_id_lt := nofun
  foreign := nofun
  amount_fits := nofun

def State.initial : State where
  event := []
  tables := ⟨CountState.initial noValidators, [], nofun⟩
  block_checkpoint := Table.empty
  crawling := none
  handling := none

/-! ## 5. What a row says -/

/-- The columns that do not name a validator. -/
def PowerEvent.columns {ι : Type} (p : PowerEvent ι) : ℕ × ℕ × String × ℕ × ℕ :=
  (p.tx_id, p.height, p.type, p.amount, p.time)

/-- Two rows that differ in how they name the validators. -/
structure Agree {ι : Type} (R : ι → String → Prop) (p : PowerEvent ι) (info : PowerEvent String) :
    Prop where
  columns : p.columns = info.columns
  src : Option.Rel R p.validator_src_id info.validator_src_id
  dst : Option.Rel R p.validator_dst_id info.validator_dst_id

/-- The ids of a row are those of the validators with the addresses. -/
def Denotes (db : Db) : PowerEvent ℕ → PowerEvent String → Prop :=
  Agree fun id address => db.validatorId address = some id

/-- The job as one that makes a row, or none, of each event, with the validators by their addresses.
Any version of the SDK may have been read. -/
def eventJob (parseCoins : String → Option (List ℕ)) :
    EventJob State Event (Option (PowerEvent String)) where
  events s := stakeEvents s.event
  height := (·.block_height)
  Row _ e info := ∃ version, powerEvent parseCoins version some e = some info

/-- A staking event of which a run makes a row that can be inserted, or none. -/
def Fine (db : Db) (parseCoins : String → Option (List ℕ)) (version : CosmosSdk) (e : Event) :
    Prop :=
  ∀ first ∈ firstValidator e,
    (keyed db.validatorId first).isSome ∧
    (e.type = redelegate → ∀ dest ∈ destValidator e, (keyed db.validatorId dest).isSome) ∧
    ((e.type = redelegate → (destValidator e).isSome) → e.transaction.isSome ∧
      ∃ amount, amountOf parseCoins version e first = some amount ∧ fits amount = true)

namespace PowerLemmas

variable {ι : Type} {parseCoins : String → Option (List ℕ)} {version : CosmosSdk} {e : Event}
  {db db' : Db} {startBlock : ℕ} {s s' : State}

theorem Agree.imp {R R' : ι → String → Prop} {p : PowerEvent ι} {info : PowerEvent String}
    (h : Agree R p info) (himp : ∀ id ∈ p.validators, ∀ address, R id address → R' id address) :
    Agree R' p info := by
  have hrel : ∀ {id : Option ι} {address : Option String}, Option.Rel R id address →
      (∀ x ∈ id, x ∈ p.validators) → Option.Rel R' id address := by
    intro id address hrel hmem
    cases hrel with
    | none => exact Option.Rel.none
    | some hR => exact Option.Rel.some (himp _ (hmem _ rfl) _ hR)
  exact ⟨h.columns, hrel h.src fun x hx => List.mem_append_left _ (Option.mem_toList.mpr hx),
    hrel h.dst fun x hx => List.mem_append_right _ (Option.mem_toList.mpr hx)⟩

theorem keyed_eq_some_iff {validatorKeys : String → Option ι} {attr : EventAttribute} {id : ι} :
    keyed validatorKeys attr = some id ↔
      ∃ address, attr.value = some address ∧ validatorKeys address = some id :=
  Option.bind_eq_some_iff

/-- The row by addresses. -/
theorem agree_fromStakeEvent {R : ι → String → Prop} {first : EventAttribute} {src dst : Option ι}
    {src' dst' : Option String} {p : PowerEvent ι} (hsrc : Option.Rel R src src')
    (hdst : Option.Rel R dst dst')
    (h : (fromStakeEvent parseCoins version e first src dst).map some = some (some p)) :
    ∃ info, (fromStakeEvent parseCoins version e first src' dst').map some = some (some info) ∧
      Agree R p info := by
  rw [Option.map_eq_some_iff] at h
  obtain ⟨q, hq, hqp⟩ := h
  obtain rfl := Option.some.inj hqp
  simp only [fromStakeEvent, Option.bind_eq_bind, Option.bind_eq_some_iff] at hq
  obtain ⟨amount, hamount, transaction, htransaction, hq⟩ := hq
  cases hq
  refine ⟨⟨transaction.id, e.block_height, e.type, src', dst', amount, transaction.timestamp⟩, ?_,
    rfl, hsrc, hdst⟩
  simp only [fromStakeEvent, hamount, htransaction, Option.bind_eq_bind, Option.bind_some]
  rfl

/-- What a run makes of an event is what the event says, with the ids that the run has read. -/
theorem powerEvent_agrees {validatorKeys : String → Option ι} {r : Option (PowerEvent ι)}
    (h : powerEvent parseCoins version validatorKeys e = some r) :
    ∃ info, powerEvent parseCoins version some e = some info ∧
      Option.Rel (Agree fun id address => validatorKeys address = some id) r info := by
  have hkeyed : ∀ {attr : EventAttribute} {address : String}, attr.value = some address →
      keyed some attr = some address := fun hvalue => keyed_eq_some_iff.mpr ⟨_, hvalue, rfl⟩
  have hrow : ∀ {first : EventAttribute} {src dst : Option ι} {src' dst' : Option String},
      Option.Rel (fun id address => validatorKeys address = some id) src src' →
      Option.Rel (fun id address => validatorKeys address = some id) dst dst' →
      (fromStakeEvent parseCoins version e first src dst).map some = some r →
      ∃ info, (fromStakeEvent parseCoins version e first src' dst').map some = some info ∧
        Option.Rel (Agree fun id address => validatorKeys address = some id) r info := by
    intro first src dst src' dst' hsrc hdst h
    cases r with
    | none =>
      obtain ⟨p, -, hp⟩ := Option.map_eq_some_iff.mp h
      cases hp
    | some p =>
      obtain ⟨info, hinfo, hagree⟩ := agree_fromStakeEvent hsrc hdst h
      exact ⟨some info, hinfo, Option.Rel.some hagree⟩
  unfold powerEvent at h ⊢
  cases hfirst : firstValidator e with
  | none =>
    rw [hfirst] at h
    cases h
    exact ⟨none, rfl, Option.Rel.none⟩
  | some first =>
    simp only [hfirst, Option.bind_eq_bind, Option.bind_eq_some_iff] at h
    obtain ⟨id, hid, h⟩ := h
    obtain ⟨address, hvalue, hkey⟩ := keyed_eq_some_iff.mp hid
    simp only [hkeyed hvalue, Option.bind_eq_bind, Option.bind_some]
    split at h
    case isTrue hredelegate =>
      rw [if_pos hredelegate]
      cases hdest : destValidator e with
      | none =>
        rw [hdest] at h
        cases h
        exact ⟨none, rfl, Option.Rel.none⟩
      | some dest =>
        simp only [hdest, Option.bind_eq_some_iff] at h
        obtain ⟨destId, hdestId, h⟩ := h
        obtain ⟨destAddress, hdestValue, hdestKey⟩ := keyed_eq_some_iff.mp hdestId
        simp only [hkeyed hdestValue, Option.bind_some]
        exact hrow (Option.Rel.some hkey) (Option.Rel.some hdestKey) h
    case isFalse hredelegate =>
      rw [if_neg hredelegate]
      split at h
      case isTrue hunbond =>
        rw [if_pos hunbond]
        exact hrow (Option.Rel.some hkey) Option.Rel.none h
      case isFalse hunbond =>
        rw [if_neg hunbond]
        split at h
        case isTrue hother =>
          rw [if_pos hother]
          exact hrow Option.Rel.none (Option.Rel.some hkey) h
        case isFalse => cases h

theorem exists_fromStakeEvent_iff {first : EventAttribute} {src dst : Option ι} :
    (∃ r, (fromStakeEvent parseCoins version e first src dst).map some = some r ∧
      ∀ p ∈ r, fits p.amount = true) ↔
    e.transaction.isSome ∧
      ∃ amount, amountOf parseCoins version e first = some amount ∧ fits amount = true := by
  rw [fromStakeEvent]
  cases hamount : amountOf parseCoins version e first with
  | none => simp
  | some amount =>
    cases htransaction : e.transaction with
    | none => simp
    | some transaction => simp

/-- When a run makes a row of an event that can be inserted, or none. -/
theorem exists_powerEvent_iff (htype : e.type ∈ eventStakes) :
    (∃ r, powerEvent parseCoins version db.validatorId e = some r ∧ ∀ p ∈ r, fits p.amount = true) ↔
      Fine db parseCoins version e := by
  unfold powerEvent Fine
  cases hfirst : firstValidator e with
  | none => simp
  | some first =>
    simp only [Option.mem_def, Option.some.injEq, forall_eq']
    cases hid : keyed db.validatorId first with
    | none => simp
    | some id =>
      simp only [Option.bind_eq_bind, Option.bind_some, Option.isSome_some, true_and]
      by_cases hredelegate : e.type = redelegate
      · simp only [hredelegate, forall_const]
        cases hdest : destValidator e with
        | none => simp
        | some dest =>
          simp only [Option.some.injEq, forall_eq', Option.isSome_some, forall_const]
          cases hdestId : keyed db.validatorId dest with
          | none => simp
          | some destId =>
            simp only [Option.bind_some, Option.isSome_some, true_and]
            exact exists_fromStakeEvent_iff
      · simp only [hredelegate, false_implies, true_and, forall_const]
        by_cases hunbond : e.type = unbond
        · rw [if_pos hunbond]
          exact exists_fromStakeEvent_iff
        · have hother : e.type ∈ [delegate, createValidator] := by
            simp only [eventStakes, List.mem_cons, List.not_mem_nil, or_false] at htype ⊢
            tauto
          rw [if_neg hunbond, if_pos hother]
          exact exists_fromStakeEvent_iff

/-! ## 6. The ids of the rows -/

/-- An id that has been read: as long as a row has it, it is that of the address. -/
def Meant (db : Db) : PowerEvent ℕ → PowerEvent String → Prop :=
  Agree fun id address => id < db.nextValidatorId ∧ ∀ a, db.validatorId a = some id → a = address

theorem Denotes.meant {p : PowerEvent ℕ} {info : PowerEvent String} (h : Denotes db p info) :
    Meant db p info :=
  Agree.imp h fun _ _ _ hid =>
    ⟨validatorId_lt hid, fun _ ha => Db.validatorId_injective ha hid⟩

theorem Meant.follows {p : PowerEvent ℕ} {info : PowerEvent String} (h : Meant db p info)
    (hdb : Follows db db') : Meant db' p info :=
  Agree.imp h fun _ _ _ hid =>
    ⟨hid.1.trans_le hdb.next_le, fun a ha => hid.2 a (hdb.old a _ ha hid.1)⟩

/-- The foreign keys keep the rows right. -/
theorem Meant.denotes {p : PowerEvent ℕ} {info : PowerEvent String} (h : Meant db p info)
    (hforeign : ∀ id ∈ p.validators, ∃ v ∈ db.validator.rows, v.id = id) : Denotes db p info := by
  refine Agree.imp h fun id hmem address hid => ?_
  obtain ⟨v, hv, hvid⟩ := hforeign id hmem
  have hids : db.validatorId v.operator_address = some id :=
    validatorId_eq_some_iff.mpr ⟨v, hv, rfl, hvid⟩
  exact hid.2 _ hids ▸ hids

theorem meant_follows {rows : List (PowerEvent ℕ)} {infos : List (PowerEvent String)}
    (h : List.Forall₂ (Meant db) rows infos) (hdb : Follows db db') :
    List.Forall₂ (Meant db') rows infos :=
  h.imp fun _ _ hmeant => hmeant.follows hdb

theorem denotes_of_meant {rows : List (PowerEvent ℕ)} {infos : List (PowerEvent String)}
    (h : List.Forall₂ (Meant db) rows infos) (hforeign : ForeignKey db rows) :
    List.Forall₂ (Denotes db) rows infos := by
  induction h with
  | nil => exact List.Forall₂.nil
  | cons hmeant hrest ih =>
    exact List.Forall₂.cons (hmeant.denotes (hforeign _ List.mem_cons_self))
      (ih fun p hp => hforeign p (List.mem_cons_of_mem _ hp))

/-- The rows that a run makes of the events that it has read. -/
theorem denotes_of_mapM {read : List Event} {rows : List (Option (PowerEvent ℕ))}
    (h : read.mapM (powerEvent parseCoins version db.validatorId) = some rows) :
    ∃ infos, List.Forall₂
      (fun e info => ∃ version, powerEvent parseCoins version some e = some info)
        read infos ∧ List.Forall₂ (Denotes db) rows.reduceOption infos.reduceOption := by
  have hrel : ∃ infos, List.Forall₂ (fun e info =>
      ∃ version, powerEvent parseCoins version some e = some info) read infos ∧
        List.Forall₂ (Option.Rel (Denotes db)) rows infos := by
    have hrows := forall₂_eq_some_iff.mpr (mapM_eq_some_iff.mp h)
    clear h
    induction hrows with
    | nil => exact ⟨[], List.Forall₂.nil, List.Forall₂.nil⟩
    | cons hrow hrest ih =>
      obtain ⟨infos, hinfos, hdenotes⟩ := ih
      obtain ⟨info, hinfo, hagrees⟩ := powerEvent_agrees hrow
      exact ⟨info :: infos, List.Forall₂.cons ⟨version, hinfo⟩ hinfos,
          List.Forall₂.cons hagrees hdenotes⟩
  obtain ⟨infos, hinfos, hdenotes⟩ := hrel
  exact ⟨infos, hinfos, List.rel_filterMap (fun _ _ h => h) hdenotes⟩

/-! ## 7. All runs -/

/-- The jobs of the checkpoints. -/
def names : List BullJobName := [.handleTransaction, .crawlValidator, .handleStakeEvent]

/-- The rows that `HANDLE_STAKE_EVENT` has made and not inserted yet. -/
structure HandlingOk (parseCoins : String → Option (List ℕ)) (startBlock : ℕ) (s : State)
    (h : HandleStakeEvent) : Prop where
  reached_le : reached startBlock s ≤ h.endHeight
  le_handled : h.endHeight ≤ handledHeight startBlock s.block_checkpoint
  rows : ∃ read infos,
    read.Perm (between (·.block_height) (reached startBlock s) h.endHeight (stakeEvents s.event)) ∧
    List.Forall₂ (fun e info => ∃ version, powerEvent parseCoins version some e = some info)
      read infos ∧
    List.Forall₂ (Meant s.db) h.powerEvents infos.reduceOption

/-- What `CRAWL_VALIDATOR` has read. -/
structure CrawlingOk (startBlock : ℕ) (s : State) (c : CrawlValidator) : Prop where
  le_handled : c.endHeight ≤ handledHeight startBlock s.block_checkpoint
  ids : ∀ es ∈ c.updateValidators, IdsKnown s.db es

/-- The invariant. -/
structure PowerInv (parseCoins : String → Option (List ℕ)) (startBlock : ℕ) (s : State) : Prop where
  behind : Behind names startBlock s.block_checkpoint
  event_le : ∀ e ∈ s.event, e.block_height ≤ handledHeight startBlock s.block_checkpoint
  crawling : ∀ c ∈ s.crawling, CrawlingOk startBlock s c
  handling : ∀ h ∈ s.handling, HandlingOk parseCoins startBlock s h
  replayed : ∃ infos, (eventJob parseCoins).Replayed s (reached startBlock s) infos ∧
    List.Forall₂ (Meant s.db) s.tables.power_event infos.reduceOption

theorem PowerInv.reached_le (h : PowerInv parseCoins startBlock s) :
    reached startBlock s ≤ handledHeight startBlock s.block_checkpoint :=
  h.behind.startHeight_le (by simp [names])

theorem PowerInv.nextEnd_le (h : PowerInv parseCoins startBlock s) :
    nextEnd startBlock s ≤ handledHeight startBlock s.block_checkpoint :=
  h.behind.rangeEnd_le _ (by simp [handleStakeEvent, names])

theorem PowerInv.crawlEnd_le (h : PowerInv parseCoins startBlock s) :
    crawlEnd startBlock s ≤ handledHeight startBlock s.block_checkpoint :=
  h.behind.rangeEnd_le _ (by simp [handleCrawlAllValidator, names])

/-- What every step other than the insertion of power events leaves. -/
structure Others (startBlock : ℕ) (s s' : State) (new : List Event) : Prop where
  behind : Behind names startBlock s'.block_checkpoint
  handled_le : handledHeight startBlock s.block_checkpoint ≤
    handledHeight startBlock s'.block_checkpoint
  reached_eq : reached startBlock s' = reached startBlock s
  rows_eq : s'.tables.power_event = s.tables.power_event
  follows : Follows s.db s'.db
  event_eq : s'.event = s.event ++ new
  new_height : ∀ e ∈ new, handledHeight startBlock s.block_checkpoint < e.block_height ∧
    e.block_height ≤ handledHeight startBlock s'.block_checkpoint

theorem stakeEvents_append (event new : List Event) :
    stakeEvents (event ++ new) = stakeEvents event ++ stakeEvents new :=
  List.filter_append ..

theorem Others.handling {new : List Event} (h : Others startBlock s s' new) {r : HandleStakeEvent}
    (hr : HandlingOk parseCoins startBlock s r) : HandlingOk parseCoins startBlock s' r where
  reached_le := by
    rw [h.reached_eq]
    exact hr.reached_le
  le_handled := hr.le_handled.trans h.handled_le
  rows := by
    obtain ⟨read, infos, hread, hinfos, hmeant⟩ := hr.rows
    refine ⟨read, infos, ?_, hinfos, meant_follows hmeant h.follows⟩
    have hnone :
        between (·.block_height) (reached startBlock s) r.endHeight (stakeEvents new) = [] :=
      between_eq_nil fun e he _ =>
        hr.le_handled.trans_lt (h.new_height e (List.mem_of_mem_filter he)).1
    rw [h.reached_eq, h.event_eq, stakeEvents_append, between_append_rows, hnone, List.append_nil]
    exact hread

/-- The invariant after such a step. -/
theorem PowerInv.others (new : List Event) (h : PowerInv parseCoins startBlock s)
    (ho : Others startBlock s s' new) (hcrawling : ∀ c ∈ s'.crawling, CrawlingOk startBlock s' c)
    (hhandling : ∀ r ∈ s'.handling, r ∈ s.handling) : PowerInv parseCoins startBlock s' where
  behind := ho.behind
  event_le e he := by
    rw [ho.event_eq] at he
    rcases List.mem_append.mp he with he | he
    · exact (h.event_le e he).trans ho.handled_le
    · exact (ho.new_height e he).2
  crawling := hcrawling
  handling r hr := ho.handling (h.handling r (hhandling r hr))
  replayed := by
    obtain ⟨infos, hreplayed, hmeant⟩ := h.replayed
    refine ⟨infos, ?_, ?_⟩
    · rw [ho.reached_eq]
      refine hreplayed.keeps (EventJob.keeps_of_append (stakeEvents new) ?_ ?_
        fun _ _ _ hrow => hrow)
      · show stakeEvents s'.event = _
        rw [ho.event_eq, stakeEvents_append]
        rfl
      · intro e he
        exact h.reached_le.trans_lt (ho.new_height e (List.mem_of_mem_filter he)).1
    · rw [ho.rows_eq]
      exact meant_follows hmeant ho.follows

/-- A step that changes neither the events nor the checkpoints. -/
theorem PowerInv.same (h : PowerInv parseCoins startBlock s) (hevent : s'.event = s.event)
    (hcheckpoint : s'.block_checkpoint = s.block_checkpoint)
    (hrows : s'.tables.power_event = s.tables.power_event) (hfollows : Follows s.db s'.db)
    (hcrawling : ∀ c ∈ s'.crawling, CrawlingOk startBlock s' c)
    (hhandling : ∀ r ∈ s'.handling, r ∈ s.handling) : PowerInv parseCoins startBlock s' := by
  refine h.others [] ⟨?_, ?_, ?_, hrows, hfollows, ?_, List.forall_mem_nil _⟩ hcrawling hhandling
  · rw [hcheckpoint]
    exact h.behind
  · rw [hcheckpoint]
  · rw [reached, hcheckpoint, reached]
  · rw [hevent, List.append_nil]

theorem CrawlingOk.congr {c : CrawlValidator} (h : CrawlingOk startBlock s c)
    (hle : handledHeight startBlock s.block_checkpoint ≤
      handledHeight startBlock s'.block_checkpoint)
    (hids : ∀ address, s'.db.validatorId address = s.db.validatorId address) :
    CrawlingOk startBlock s' c where
  le_handled := h.le_handled.trans hle
  ids es hes := (h.ids es hes).of_validatorId hids

/-- What the transaction of `handleCrawlAllValidator` does. -/
theorem write_spec {c : CrawlValidator} {t t' : Tables}
    (hids : ∀ es ∈ c.updateValidators, IdsKnown t.counts.db es) (h : c.write t = some t') :
    t'.power_event = t.power_event ∧ Follows t.counts.db t'.counts.db := by
  rw [CrawlValidator.write] at h
  split at h
  case h_1 =>
    cases h
    exact ⟨rfl, Follows.refl _⟩
  case h_2 es hes =>
    rw [Tables.mergeValidators] at h
    split at h
    case h_1 => cases h
    case h_2 db hmerge =>
      split at h
      · cases h
        exact ⟨rfl, follows_mergeValidators (hids es hes) hmerge⟩
      · cases h

theorem insertPowerEvents_spec {t t' : Tables} {rows : List (PowerEvent ℕ)}
    (h : t.insertPowerEvents rows = some t') :
    t'.power_event = t.power_event ++ rows ∧ t'.counts = t.counts := by
  rw [Tables.insertPowerEvents] at h
  split at h
  · cases h
    exact ⟨rfl, rfl⟩
  · cases h

theorem powerInv_handleTransaction (h : PowerInv parseCoins startBlock s)
    {event : List Event} {endBlock : ℕ}
    (hok : BatchOk startBlock s event endBlock) : PowerInv parseCoins startBlock
      { s with
        event := s.event ++ event
        block_checkpoint :=
          storeCheckpoint s.block_checkpoint ⟨.handleTransaction, endBlock⟩ endBlock } := by
  have hhandled : handledHeight startBlock (storeCheckpoint s.block_checkpoint
      ⟨.handleTransaction, endBlock⟩ endBlock) = endBlock := by
    rw [handledHeight, startHeight_storeCheckpoint, if_pos rfl]
  have hle : handledHeight startBlock s.block_checkpoint ≤ handledHeight startBlock
      (storeCheckpoint s.block_checkpoint ⟨.handleTransaction, endBlock⟩ endBlock) := by
    rw [hhandled]
    exact hok.1.le
  refine h.others event
    ⟨h.behind.handleTransaction hok.1, hle, ?_, rfl, Follows.refl _, rfl, fun e he => ?_⟩
    (fun c hc => (h.crawling c hc).congr hle fun _ => rfl) fun _ hr => hr
  · show startHeight _ (storeCheckpoint _ _ _) _ = _
    rw [startHeight_storeCheckpoint, if_neg (by simp)]
    rfl
  · refine ⟨(hok.2 e he).1, ?_⟩
    show _ ≤ handledHeight startBlock (storeCheckpoint _ _ _)
    rw [hhandled]
    exact (hok.2 e he).2

theorem powerInv_mergeValidators (h : PowerInv parseCoins startBlock s)
    {c : CrawlValidator} {tables : Tables}
    (hc : s.crawling = some c) (hwrite : c.write s.tables = some tables) :
    PowerInv parseCoins startBlock
      { s with
        tables := tables
        block_checkpoint :=
          storeCheckpoint s.block_checkpoint ⟨.crawlValidator, c.endHeight⟩ c.endHeight
        crawling := none } := by
  have hok := h.crawling c hc
  obtain ⟨hrows, hfollows⟩ := write_spec hok.ids hwrite
  refine h.others [] ⟨h.behind.store (by simp) hok.le_handled, ?_, ?_, hrows, hfollows,
    (List.append_nil _).symm, List.forall_mem_nil _⟩ (fun _ hc => by cases hc) fun _ hr => hr
  · exact (handledHeight_storeCheckpoint_of_ne (by simp) _).ge
  · show startHeight _ (storeCheckpoint _ _ _) _ = _
    rw [startHeight_storeCheckpoint, if_neg (by simp)]
    rfl

/-- What `handleJob` has read. -/
theorem handlingOk_read (h : PowerInv parseCoins startBlock s) {version : CosmosSdk}
    {order : AnyOrder Event} (hlt : reached startBlock s < nextEnd startBlock s)
    {powerEvents : List (Option (PowerEvent ℕ))}
    (hread : readPowerEvents parseCoins startBlock s version order = some powerEvents) :
    HandlingOk parseCoins startBlock s ⟨powerEvents.reduceOption, nextEnd startBlock s⟩ where
  reached_le := hlt.le
  le_handled := h.nextEnd_le
  rows := by
    obtain ⟨infos, hinfos, hdenotes⟩ := denotes_of_mapM hread
    exact ⟨_, infos, order.perm _, hinfos, hdenotes.imp fun _ _ h => Denotes.meant h⟩

/-- The rows are inserted. -/
theorem powerInv_insertPowerEvents (h : PowerInv parseCoins startBlock s) {r : HandleStakeEvent}
    {tables : Tables} (hr : s.handling = some r)
    (hinsert : s.tables.insertPowerEvents r.powerEvents = some tables) :
    PowerInv parseCoins startBlock
      { s with
        tables := tables
        block_checkpoint :=
          storeCheckpoint s.block_checkpoint ⟨.handleStakeEvent, r.endHeight⟩ r.endHeight
        handling := none } := by
  have hok := h.handling r hr
  obtain ⟨hrows, hcounts⟩ := insertPowerEvents_spec hinsert
  have hdb : tables.counts.db = s.db := by
    rw [hcounts]
    rfl
  have hhandled : handledHeight startBlock (storeCheckpoint s.block_checkpoint
      ⟨.handleStakeEvent, r.endHeight⟩ r.endHeight) = handledHeight startBlock s.block_checkpoint :=
    handledHeight_storeCheckpoint_of_ne (by simp) _
  refine ⟨h.behind.store (by simp) hok.le_handled, fun e he => hhandled ▸ h.event_le e he,
    fun c hc => (h.crawling c hc).congr hhandled.ge fun _ => by rw [State.db, hdb],
        (fun _ hr => by cases hr), ?_⟩
  obtain ⟨infos, hreplayed, hmeant⟩ := h.replayed
  obtain ⟨read, new, hread, hnew, hmeantNew⟩ := hok.rows
  refine ⟨infos ++ new, ?_, ?_⟩
  · have hreached : startHeight startBlock (storeCheckpoint s.block_checkpoint
        ⟨.handleStakeEvent, r.endHeight⟩ r.endHeight) .handleStakeEvent = r.endHeight := by
      rw [startHeight_storeCheckpoint, if_pos rfl]
    show EventJob.Replayed _ _ (startHeight _ (storeCheckpoint _ _ _) _) _
    rw [hreached]
    exact hreplayed.append hok.reached_le hread hnew
  · show List.Forall₂ (Meant tables.counts.db) tables.power_event _
    rw [hdb, hrows, List.reduceOption_append]
    exact List.rel_append hmeant hmeantNew

/-- Every step keeps the invariant. -/
theorem powerInv_step (s : State) (a : Step) (h : PowerInv parseCoins startBlock s) :
    PowerInv parseCoins startBlock (step parseCoins startBlock s a) := by
  cases a with
  | handleTransaction event endBlock =>
    rw [step]
    split
    case isTrue hok => exact powerInv_handleTransaction h hok
    case isFalse => exact h
  | delegations a =>
    rw [step]
    split
    case isFalse => exact h
    case isTrue ha =>
      have hsame : SameValidators s.db (countStep s.tables.counts a).db :=
        sameValidators_countStep ha
      exact h.same rfl rfl rfl hsame.follows
        (fun c hc => (h.crawling c hc).congr (le_refl _) hsame.ids) fun _ hr => hr
  | readValidators validators =>
    rw [step]
    split
    case isTrue => exact h
    case isFalse =>
      refine h.same rfl rfl rfl (Follows.refl _) ?_ fun _ hr => hr
      rintro c ⟨⟩
      refine ⟨h.crawlEnd_le, fun es hes => ?_⟩
      rw [readValidators] at hes
      split at hes
      · cases hes
        exact (getFullInfoValidators_spec s.db validators).1
      · cases hes
  | mergeValidators =>
    rw [step]
    split
    case h_1 => exact h
    case h_2 c hc =>
      split
      case h_1 => exact h.same rfl rfl rfl (Follows.refl _) (fun _ hc => by cases hc) fun _ hr => hr
      case h_2 tables hwrite => exact powerInv_mergeValidators h hc hwrite
  | abortValidators =>
    exact h.same rfl rfl rfl (Follows.refl _) (fun _ hc => by cases hc) fun _ hr => hr
  | readEvents version order =>
    rw [step]
    split
    case isTrue => exact h
    case isFalse hrange =>
      have hlt : reached startBlock s < nextEnd startBlock s :=
        lt_of_not_ge fun hge => hrange (Or.inr (decide_eq_true hge))
      split
      case h_1 => exact h
      case h_2 powerEvents hread =>
        have hok := handlingOk_read h hlt hread
        refine ⟨h.behind, h.event_le,
          fun c hc => (h.crawling c hc).congr (le_refl _) fun _ => rfl, ?_, h.replayed⟩
        rintro r ⟨⟩
        exact ⟨hok.reached_le, hok.le_handled, hok.rows⟩
  | insertPowerEvents =>
    rw [step]
    split
    case h_1 => exact h
    case h_2 r hr =>
      split
      case h_1 =>
        exact h.same rfl rfl rfl (Follows.refl _)
          (fun c hc => (h.crawling c hc).congr (le_refl _) fun _ => rfl) fun _ hr => by cases hr
      case h_2 tables hinsert => exact powerInv_insertPowerEvents h hr hinsert
  | abortEvents =>
    exact h.same rfl rfl rfl (Follows.refl _)
      (fun c hc => (h.crawling c hc).congr (le_refl _) fun _ => rfl) fun _ hr => by cases hr

theorem powerInv_initial (parseCoins : String → Option (List ℕ)) (startBlock : ℕ) :
    PowerInv parseCoins startBlock State.initial where
  behind := behind_empty names startBlock
  event_le := List.forall_mem_nil _
  crawling := fun _ hc => by cases hc
  handling := fun _ hr => by cases hr
  replayed := ⟨[], EventJob.replayed_nil rfl, List.Forall₂.nil⟩

theorem powerInv_run (parseCoins : String → Option (List ℕ)) (startBlock : ℕ) (steps : List Step) :
    PowerInv parseCoins startBlock (runFrom (step parseCoins startBlock) State.initial steps) :=
  runFrom_invariant (fun s a h => powerInv_step s a h) (powerInv_initial parseCoins startBlock)
    steps

/-! ## 8. One run of `HANDLE_STAKE_EVENT` -/

/-- A row that says something has the ids of validators. -/
theorem Denotes.mem_ids {p : PowerEvent ℕ} {info : PowerEvent String} (h : Denotes db p info) :
    (∀ id ∈ p.validators, ∃ address ∈ info.validators, db.validatorId address = some id) ∧
      ∀ address ∈ info.validators, ∃ id ∈ p.validators, db.validatorId address = some id := by
  have hrel : ∀ {id : Option ℕ} {address : Option String},
      Option.Rel (fun id address => db.validatorId address = some id) id address →
      (∀ x ∈ id.toList, ∃ a ∈ address.toList, db.validatorId a = some x) ∧
        ∀ a ∈ address.toList, ∃ x ∈ id.toList, db.validatorId a = some x := by
    intro id address hrel
    cases hrel with
    | none => exact ⟨nofun, nofun⟩
    | some hR => exact ⟨by simpa using hR, by simpa using hR⟩
  have hsrc := hrel h.src
  have hdst := hrel h.dst
  simp only [PowerEvent.validators, List.mem_append]
  constructor
  · rintro id (hid | hid)
    · obtain ⟨a, ha, hR⟩ := hsrc.1 id hid
      exact ⟨a, Or.inl ha, hR⟩
    · obtain ⟨a, ha, hR⟩ := hdst.1 id hid
      exact ⟨a, Or.inr ha, hR⟩
  · rintro a (ha | ha)
    · obtain ⟨id, hid, hR⟩ := hsrc.2 a ha
      exact ⟨id, Or.inl hid, hR⟩
    · obtain ⟨id, hid, hR⟩ := hdst.2 a ha
      exact ⟨id, Or.inr hid, hR⟩

/-- Of rows that agree with others, each agrees with one. -/
theorem exists_of_forall₂ {α β : Type} {R : α → β → Prop} {as : List α} {bs : List β}
    (h : List.Forall₂ R as bs) : (∀ a ∈ as, ∃ b ∈ bs, R a b) ∧ ∀ b ∈ bs, ∃ a ∈ as, R a b := by
  induction h with
  | nil => exact ⟨nofun, nofun⟩
  | cons hR hrest ih =>
    simp only [List.forall_mem_cons, List.exists_mem_cons_iff]
    exact ⟨⟨Or.inl hR, fun a ha => Or.inr (ih.1 a ha)⟩, Or.inl hR, fun b hb => Or.inr (ih.2 b hb)⟩

theorem foreignKey_of_denotes {rows : List (PowerEvent ℕ)} {infos : List (PowerEvent String)}
    (h : List.Forall₂ (Denotes db) rows infos) : ForeignKey db rows := by
  intro p hp id hid
  obtain ⟨info, -, hdenotes⟩ := (exists_of_forall₂ h).1 p hp
  obtain ⟨address, -, haddress⟩ := (Denotes.mem_ids hdenotes).1 id hid
  obtain ⟨v, hv, -, hvid⟩ := validatorId_eq_some_iff.mp haddress
  exact ⟨v, hv, hvid⟩

/-- When a run reads rows that can be inserted. -/
theorem exists_rows_iff {read : List Event} (htype : ∀ e ∈ read, e.type ∈ eventStakes) :
    (∃ rows, read.mapM (powerEvent parseCoins version db.validatorId) = some rows ∧
      ∀ p ∈ rows.reduceOption, fits p.amount = true) ↔
        ∀ e ∈ read, Fine db parseCoins version e := by
  induction read with
  | nil => simp [List.reduceOption]
  | cons e read ih =>
    obtain ⟨hte, htread⟩ := List.forall_mem_cons.mp htype
    rw [List.forall_mem_cons, ← ih htread, ← exists_powerEvent_iff hte]
    simp only [List.mapM_cons, Option.bind_eq_bind, Option.bind_eq_some_iff,
      List.reduceOption_mem_iff]
    constructor
    · rintro ⟨rows, ⟨r, hr, rest, hrest, hrows⟩, hfits⟩
      cases hrows
      exact ⟨⟨r, hr, fun p hp => hfits p (hp ▸ List.mem_cons_self)⟩, rest, hrest,
        fun p hp => hfits p (List.mem_cons_of_mem r hp)⟩
    · rintro ⟨⟨r, hr, hfits⟩, rest, hrest, hfitsRest⟩
      refine ⟨r :: rest, ⟨r, hr, rest, hrest, rfl⟩, fun p hp => ?_⟩
      rcases List.mem_cons.mp hp with hp | hp
      · exact hfits p hp.symm
      · exact hfitsRest p hp

/-- The events that the next run reads. -/
theorem forall_read_iff (order : AnyOrder Event) {P : Event → Prop} :
    (∀ e ∈ order.order (between (·.block_height) (reached startBlock s) (nextEnd startBlock s)
      (stakeEvents s.event)), P e) ↔
    ∀ e ∈ stakeEvents s.event, reached startBlock s < e.block_height →
      e.block_height ≤ nextEnd startBlock s → P e := by
  simp only [(order.perm _).mem_iff, mem_between]
  exact ⟨fun h e he hlt hle => h e ⟨he, hlt, hle⟩, fun h e he => h e he.1 he.2.1 he.2.2⟩

/-- Where the job is after its reads and its transaction. -/
theorem reached_handleJob {version : CosmosSdk} {order : AnyOrder Event} (hnone : s.handling = none)
    (hlt : reached startBlock s < nextEnd startBlock s) :
    reached startBlock (runFrom (step parseCoins startBlock) s
      [.readEvents version order, .insertPowerEvents]) = nextEnd startBlock s ↔
    ∀ e ∈ stakeEvents s.event, reached startBlock s < e.block_height →
      e.block_height ≤ nextEnd startBlock s → Fine s.db parseCoins version e := by
  have htype : ∀ e ∈ order.order (between (·.block_height) (reached startBlock s)
      (nextEnd startBlock s) (stakeEvents s.event)), e.type ∈ eventStakes := by
    rw [forall_read_iff]
    exact fun e he _ _ => by simpa [stakeEvents] using (List.mem_filter.mp he).2
  have hrange : ¬ (s.handling.isSome ∨ handleStakeEvent.rangeTest.returns (reached startBlock s)
      (nextEnd startBlock s)) := by
    rw [hnone]
    rintro (h | h)
    · cases h
    · exact absurd (of_decide_eq_true h) (not_le.mpr hlt)
  rw [← forall_read_iff order, ← exists_rows_iff htype, runFrom_cons, runFrom_cons,
    runFrom_nil, step, if_neg hrange]
  cases hread : readPowerEvents parseCoins startBlock s version order with
  | none =>
    rw [readPowerEvents] at hread
    simp only [step, hnone, hread]
    exact iff_of_false hlt.ne fun ⟨rows, hrows, _⟩ => by cases hrows
  | some rows =>
    have hmap := hread
    rw [readPowerEvents] at hmap
    obtain ⟨infos, -, hdenotes⟩ := denotes_of_mapM hmap
    have hforeign : ForeignKey s.db (s.tables.power_event ++ rows.reduceOption) := by
      intro p hp
      rcases List.mem_append.mp hp with hp | hp
      · exact s.tables.foreign p hp
      · exact foreignKey_of_denotes hdenotes p hp
    simp only [step, hmap, Option.some.injEq, exists_eq_left']
    by_cases hfits : ∀ p ∈ rows.reduceOption, fits p.amount = true
    · rw [Tables.insertPowerEvents, dif_pos ⟨hforeign, hfits⟩]
      refine iff_of_true ?_ hfits
      show startHeight _ (storeCheckpoint _ _ _) _ = _
      rw [startHeight_storeCheckpoint, if_pos rfl]
    · rw [Tables.insertPowerEvents, dif_neg fun h => hfits h.2]
      exact iff_of_false hlt.ne hfits

/-! ## 9. Events that stop the job -/

/-- The attributes with the validators of the row; none, when the loop returns early. -/
def rowValidators (stakeEvent : Event) : List EventAttribute :=
  match firstValidator stakeEvent with
  | none => []
  | some first =>
    if stakeEvent.type = redelegate then
      match destValidator stakeEvent with
      | none => []
      | some dest => [first, dest]
    else [first]

/-- The row of an event with validators. -/
theorem row_of_rowValidators {attr : EventAttribute} (hattr : attr ∈ rowValidators e)
    {info : Option (PowerEvent String)} (h : powerEvent parseCoins version some e = some info) :
    e.transaction.isSome ∧
      ∃ p address, info = some p ∧ attr.value = some address ∧ address ∈ p.validators := by
  have hrow : ∀ {first : EventAttribute} {src dst : Option String},
      (fromStakeEvent parseCoins version e first src dst).map some = some info →
      e.transaction.isSome ∧ ∃ p, info = some p ∧ p.validators = src.toList ++ dst.toList := by
    intro first src dst h
    obtain ⟨p, hp, rfl⟩ := Option.map_eq_some_iff.mp h
    simp only [fromStakeEvent, Option.bind_eq_bind, Option.bind_eq_some_iff] at hp
    obtain ⟨amount, -, transaction, htransaction, hp⟩ := hp
    cases hp
    exact ⟨Option.isSome_of_eq_some htransaction, _, rfl, rfl⟩
  unfold powerEvent at h
  unfold rowValidators at hattr
  cases hfirst : firstValidator e with
  | none =>
    rw [hfirst] at hattr
    cases hattr
  | some first =>
    simp only [hfirst, Option.bind_eq_bind, Option.bind_eq_some_iff] at h
    obtain ⟨id, hid, h⟩ := h
    obtain ⟨address, hvalue, hkey⟩ := keyed_eq_some_iff.mp hid
    cases hkey
    simp only [hfirst] at hattr
    by_cases hredelegate : e.type = redelegate
    · rw [if_pos hredelegate] at h hattr
      cases hdest : destValidator e with
      | none =>
        rw [hdest] at hattr
        cases hattr
      | some dest =>
        simp only [hdest, Option.bind_eq_some_iff] at h hattr
        obtain ⟨destId, hdestId, h⟩ := h
        obtain ⟨destAddress, hdestValue, hdestKey⟩ := keyed_eq_some_iff.mp hdestId
        cases hdestKey
        obtain ⟨htransaction, p, rfl, hp⟩ := hrow h
        refine ⟨htransaction, p, ?_⟩
        rw [hp]
        simp only [List.mem_cons, List.not_mem_nil, or_false] at hattr
        rcases hattr with rfl | rfl
        · exact ⟨id, rfl, hvalue, by simp⟩
        · exact ⟨destId, rfl, hdestValue, by simp⟩
    · rw [if_neg hredelegate] at h hattr
      obtain rfl := List.mem_singleton.mp hattr
      have hone : e.transaction.isSome ∧ ∃ p, info = some p ∧ id ∈ p.validators := by
        split at h
        · obtain ⟨htransaction, p, rfl, hp⟩ := hrow h
          exact ⟨htransaction, p, rfl, by rw [hp]; simp⟩
        · split at h
          · obtain ⟨htransaction, p, rfl, hp⟩ := hrow h
            exact ⟨htransaction, p, rfl, by rw [hp]; simp⟩
          · cases h
      obtain ⟨htransaction, p, rfl, hp⟩ := hone
      exact ⟨htransaction, p, id, rfl, hvalue, hp⟩

end PowerLemmas

open PowerLemmas

/-! ## 10. Results -/

/-- The rows of `power_event` are those of the staking events up to the checkpoint, each with the
ids of the validators that its event names. -/
theorem power_events_replay (parseCoins : String → Option (List ℕ)) (startBlock : ℕ)
    (steps : List Step) :
    let s := runFrom (step parseCoins startBlock) State.initial steps
    ∃ es infos,
      es.Perm ((stakeEvents s.event).filter fun e => e.block_height ≤ reached startBlock s) ∧
      List.Forall₂ (fun e info => ∃ version, powerEvent parseCoins version some e = some info)
        es infos ∧
      List.Forall₂ (Denotes s.db) s.tables.power_event infos.reduceOption := by
  intro s
  obtain ⟨infos, ⟨es, hperm, hinfos⟩, hmeant⟩ := (powerInv_run parseCoins startBlock steps).replayed
  exact ⟨es, infos, hperm, hinfos, denotes_of_meant hmeant s.tables.foreign⟩

/-- When a run of `HANDLE_STAKE_EVENT` that has a range commits. -/
theorem handleJob_commits_iff (parseCoins : String → Option (List ℕ)) (startBlock : ℕ)
    (steps : List Step) (version : CosmosSdk) (order : AnyOrder Event) :
    let s := runFrom (step parseCoins startBlock) State.initial steps
    s.handling = none → reached startBlock s < nextEnd startBlock s →
    (reached startBlock (runFrom (step parseCoins startBlock) s
        [.readEvents version order, .insertPowerEvents]) = nextEnd startBlock s ↔
      ∀ e ∈ stakeEvents s.event, reached startBlock s < e.block_height →
        e.block_height ≤ nextEnd startBlock s → ∀ first ∈ firstValidator e,
          (keyed s.db.validatorId first).isSome ∧
          (e.type = redelegate → ∀ dest ∈ destValidator e, (keyed s.db.validatorId dest).isSome) ∧
          ((e.type = redelegate → (destValidator e).isSome) → e.transaction.isSome ∧
            ∃ amount, amountOf parseCoins version e first = some amount ∧ fits amount = true)) := by
  intro s hnone hlt
  exact reached_handleJob hnone hlt

/-- The amounts of one text. -/
def fiveCoins (text : String) : Option (List ℕ) := if text = "5uaura" then some [5] else none

/-- A delegation to a validator, with its amount where the later versions have it. -/
def delegation (validator : String) (height : ℕ) : Event where
  type := delegate
  block_height := height
  transaction := some ⟨height, 0⟩
  attributes := [⟨validatorKey, some validator, 0⟩, ⟨"delegator", some "alice", 1⟩,
    ⟨amountKey, some "5uaura", 2⟩]

/-- Two validators are on chain when the first delegation is handled. -/
def firstDelegation : List Step :=
  [.handleTransaction [delegation "val1" 1] 1,
    .readValidators [⟨"val1", "BOND_STATUS_BONDED"⟩, ⟨"val2", "BOND_STATUS_BONDED"⟩],
    .mergeValidators]

/-- The version that has the amount one place further on does not find it. -/
theorem firstDelegation_does_not_commit :
    let s := runFrom (step fiveCoins 0) State.initial firstDelegation
    reached 0 (runFrom (step fiveCoins 0) s [.readEvents .below .table, .insertPowerEvents]) ≠
      nextEnd 0 s := by
  intro s
  have hnone : s.handling.isNone = true := by decide +kernel
  have hmem : delegation "val1" 1 ∈ stakeEvents s.event := by decide +kernel
  refine mt (handleJob_commits_iff fiveCoins 0 firstDelegation .below .table
    (Option.isNone_iff_eq_none.mp hnone) (by decide +kernel)).mp fun h => ?_
  obtain ⟨-, -, hamount⟩ := h _ hmem (by decide +kernel) (by decide +kernel)
    ⟨validatorKey, some "val1", 0⟩ (by decide +kernel)
  obtain ⟨amount, hsome, -⟩ := (hamount fun h => absurd h (by decide +kernel)).2
  have hmissing : (amountOf fiveCoins .below (delegation "val1" 1)
      ⟨validatorKey, some "val1", 0⟩).isNone = true := by decide +kernel
  rw [hsome] at hmissing
  cases hmissing

/-- An event of a block, which has no transaction, and one with a validator that has no row are
never passed. -/
theorem unfit_event_stops (parseCoins : String → Option (List ℕ)) (startBlock : ℕ)
    (steps : List Step) :
    let s := runFrom (step parseCoins startBlock) State.initial steps
    ∀ e ∈ stakeEvents s.event, ∀ attr ∈ rowValidators e,
      e.transaction = none ∨ keyed s.db.validatorId attr = none →
      reached startBlock s < e.block_height := by
  intro s e he attr hattr hunfit
  obtain ⟨infos, hreplayed, hmeant⟩ := (powerInv_run parseCoins startBlock steps).replayed
  refine hreplayed.lt_height he fun info hinfo ⟨version, hrow⟩ => ?_
  obtain ⟨htransaction, p, address, rfl, hvalue, hmem⟩ := row_of_rowValidators hattr hrow
  rcases hunfit with hnone | hunknown
  · rw [hnone] at htransaction
    cases htransaction
  · have hp : p ∈ infos.reduceOption := List.reduceOption_mem_iff.mpr hinfo
    obtain ⟨q, -, hdenotes⟩ := (exists_of_forall₂ (denotes_of_meant hmeant s.tables.foreign)).2 p hp
    obtain ⟨id, -, hid⟩ := (Denotes.mem_ids hdenotes).2 address hmem
    rw [keyed, hvalue, Option.bind_some, hid] at hunknown
    cases hunknown

/-- A validator that left the chain before it was first crawled. -/
theorem gone_validator_stops :
    reached 0 (runFrom (step fiveCoins 0) State.initial
      [.handleTransaction [delegation "val3" 1] 1,
        .readValidators [⟨"val1", "BOND_STATUS_BONDED"⟩], .mergeValidators,
        .readEvents .atLeast .table, .insertPowerEvents, .handleTransaction [] 9,
        .readValidators [⟨"val1", "BOND_STATUS_BONDED"⟩], .mergeValidators,
        .readEvents .atLeast .table, .insertPowerEvents]) < 1 :=
  unfit_event_stops fiveCoins 0 _ (delegation "val3" 1) (by decide +kernel)
    ⟨validatorKey, some "val3", 0⟩
    (by decide +kernel) (Or.inr (Option.isNone_iff_eq_none.mp (by decide +kernel)))

end Erascope.Staking
