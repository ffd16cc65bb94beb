import Mathlib.Tactic
import Erascope.Lib.Rows
import Erascope.Lib.Fold
import Erascope.Erc20.Activities

/-!
# The ERC721 handler

The model of `services/evm/erc721_handler.ts`. A log of a tracked contract becomes an activity;
`process` runs the transfers over a dictionary of tokens: a known token gets a new owner and a
new height, an unknown one must come from the zero address.

Results:
1. `process_ok_iff`: when a run goes through.
2. `get?_process`: a token ends with the recipient and the height of its last transfer.
-/

namespace Erascope.Erc721

open Erc20 (toLowerCase)

/-! ## 1. Rows -/

/-- `ERC721_EVENT_TOPIC0`, or any other topic. -/
inductive EventTopic0
  | transfer | approval | approvalForAll
  | other (topic : Option String)
deriving DecidableEq, Repr

/-- A row of `evm_event`, with `evm_transaction.from` joined as `sender`. -/
structure EvmEvent where
  id : ℕ
  address : String
  topic0 : EventTopic0
  topic1 : Option String
  topic2 : Option String
  topic3 : Option String
  block_height : ℕ
  tx_hash : String
  evm_tx_id : ℕ
  sender : String
deriving DecidableEq, Repr

/-- `ERC721_ACTION` -/
inductive Erc721Action
  | transfer | approval | approvalForAll
deriving DecidableEq, Repr

/-- `Erc721Activity`; `token_id` is carried along and not stored. -/
structure Erc721Activity where
  evm_event_id : ℕ
  sender : String
  action : Erc721Action
  erc721_contract_address : String
  fromAddress : String
  toAddress : String
  height : ℕ
  tx_hash : String
  evm_tx_id : ℕ
  token_id : Option String
  erc721_token_id : Option ℕ
deriving DecidableEq, Repr

/-- The columns of a token that the handler reads and writes. -/
structure TokenColumns where
  token_id : String
  owner : String
  erc721_contract_address : String
  last_updated_height : ℕ
deriving DecidableEq, Repr

/-- The unique key of `erc721_token`, and the key of the dictionary: an address has no `_`. -/
def TokenColumns.key (t : TokenColumns) : String × String :=
  (t.erc721_contract_address, t.token_id)

/-- `erc721Tokens`, the dictionary of the handler. -/
abbrev TokenDictionary := Table TokenColumns.key

/-- What ends a run. -/
inductive Erc721Error
  /-- `Handle erc721 tranfer error` -/
  | transferError
  /-- `fromJson` of a token without `token_id`. -/
  | invalidToken
  /-- A unique key of `erc721_contract` is violated. -/
  | uniqueContract
deriving DecidableEq, Repr

/-- `ZERO_ADDRESS` -/
def ZERO_ADDRESS : String := "0x0000000000000000000000000000000000000000"

/-! ## 2. Building activities -/

/-- The decoders of the library that the handler calls; one that throws gives `none`. -/
structure Env where
  /-- `decodeAbiParameters` for two addresses and a number, over the three topics. -/
  decodeToken : Option String → Option String → Option String → Option (String × String × ℕ)
  /-- `decodeAbiParameters` for two addresses, over the two topics. -/
  decodeAll : Option String → Option String → Option (String × String)

/-- `Erc721Activity.fromJson` for a decoded log. -/
def buildActivity (action : Erc721Action) (e : EvmEvent) (fromAddress toAddress : String)
    (tokenId : Option ℕ) : Erc721Activity :=
  { evm_event_id := e.id
    sender := e.sender
    action := action
    erc721_contract_address := e.address
    fromAddress := toLowerCase fromAddress
    toAddress := toLowerCase toAddress
    height := e.block_height
    tx_hash := e.tx_hash
    evm_tx_id := e.evm_tx_id
    token_id := tokenId.map toString
    erc721_token_id := none }

section
variable (env : Env) (e : EvmEvent)

/-- `buildTransferActivity` -/
def buildTransferActivity : Option Erc721Activity :=
  (env.decodeToken e.topic1 e.topic2 e.topic3).map fun d =>
    buildActivity .transfer e d.1 d.2.1 (some d.2.2)

/-- `buildApprovalActivity` -/
def buildApprovalActivity : Option Erc721Activity :=
  (env.decodeToken e.topic1 e.topic2 e.topic3).map fun d =>
    buildActivity .approval e d.1 d.2.1 (some d.2.2)

/-- `buildApprovalForAllActivity` -/
def buildApprovalForAllActivity : Option Erc721Activity :=
  (env.decodeAll e.topic1 e.topic2).map fun d =>
    buildActivity .approvalForAll e d.1 d.2 none

/-- The choice by `topic0` in `handleErc721Activity`. -/
def eventActivity : Option Erc721Activity :=
  match e.topic0 with
  | .transfer => buildTransferActivity env e
  | .approval => buildApprovalActivity env e
  | .approvalForAll => buildApprovalForAllActivity env e
  | .other _ => none

end

/-! ## 3. Transfers -/

/-- `handlerErc721Transfer` -/
def handlerErc721Transfer (erc721Tokens : TokenDictionary) (activity : Erc721Activity) :
    Except Erc721Error TokenDictionary :=
  match activity.token_id with
  | none => .error (if activity.fromAddress = ZERO_ADDRESS then .invalidToken else .transferError)
  | some token_id =>
    match erc721Tokens.get? (activity.erc721_contract_address, token_id) with
    | some token =>
      .ok (erc721Tokens.upsert { token with
        owner := activity.toAddress
        last_updated_height := activity.height })
    | none =>
      if activity.fromAddress = ZERO_ADDRESS then
        .ok (erc721Tokens.upsert
          { token_id := token_id
            owner := activity.toAddress
            erc721_contract_address := activity.erc721_contract_address
            last_updated_height := activity.height })
      else .error .transferError

/-- The body of the loop of `process`. -/
def processActivity (erc721Tokens : TokenDictionary) (activity : Erc721Activity) :
    Except Erc721Error TokenDictionary :=
  match activity.action with
  | .transfer => handlerErc721Transfer erc721Tokens activity
  | .approval | .approvalForAll => .ok erc721Tokens

/-- `process` -/
def process (erc721Activities : List Erc721Activity) (erc721Tokens : TokenDictionary) :
    Except Erc721Error TokenDictionary :=
  erc721Activities.foldlM processActivity erc721Tokens

/-! ## 4. The transfers of one token -/

/-- The key of the token that an activity names, if it names one. -/
def Erc721Activity.key (a : Erc721Activity) : Option (String × String) :=
  a.token_id.map fun id => (a.erc721_contract_address, id)

/-- The transfers of a token, in order. -/
def transfersOf (k : String × String) (acts : List Erc721Activity) : List Erc721Activity :=
  acts.filter fun a => a.action = .transfer ∧ a.key = some k

/-- The token is known, or first comes from the zero address, if it is transferred at all. -/
def StartsKnown (known : Bool) (transfers : List Erc721Activity) : Prop :=
  known = true ∨ ∀ a, transfers.head? = some a → a.fromAddress = ZERO_ADDRESS

instance (known : Bool) (transfers : List Erc721Activity) :
    Decidable (StartsKnown known transfers) :=
  decidable_of_iff (known = true ∨ transfers.head?.all (·.fromAddress = ZERO_ADDRESS)) <| by
    cases h : transfers.head? <;> simp [StartsKnown, h]

/-- Every transfer names its token, as built ones do. -/
def TransfersNamed (acts : List Erc721Activity) : Prop :=
  ∀ a ∈ acts, a.action = .transfer → a.token_id ≠ none

/-- The columns that a transfer leaves. -/
def columnsAfter (k : String × String) (a : Erc721Activity) : TokenColumns :=
  { token_id := k.2
    owner := a.toAddress
    erc721_contract_address := k.1
    last_updated_height := a.height }

theorem transfersOf_append (k : String × String) (xs ys : List Erc721Activity) :
    transfersOf k (xs ++ ys) = transfersOf k xs ++ transfersOf k ys := List.filter_append ..

theorem mem_transfersOf {k : String × String} {acts : List Erc721Activity} {a : Erc721Activity} :
    a ∈ transfersOf k acts ↔ a ∈ acts ∧ a.action = .transfer ∧ a.key = some k := by
  simp [transfersOf]

theorem transfersNamed_filterMap (env : Env) (events : List EvmEvent) :
    TransfersNamed (events.filterMap (eventActivity env)) := by
  intro a ha hact
  obtain ⟨e, -, he⟩ := List.mem_filterMap.mp ha
  unfold eventActivity at he
  cases htopic : e.topic0 with
  | transfer =>
    simp only [htopic, buildTransferActivity, Option.map_eq_some_iff] at he
    obtain ⟨d, -, rfl⟩ := he
    simp [buildActivity]
  | approval =>
    simp only [htopic, buildApprovalActivity, Option.map_eq_some_iff] at he
    obtain ⟨d, -, rfl⟩ := he
    cases hact
  | approvalForAll =>
    simp only [htopic, buildApprovalForAllActivity, Option.map_eq_some_iff] at he
    obtain ⟨d, -, rfl⟩ := he
    cases hact
  | other topic => simp [htopic] at he

namespace HandlerLemmas

variable {d d' : TokenDictionary} {a : Erc721Activity} {acts : List Erc721Activity}

/-- What a transfer of a token does. -/
theorem handlerErc721Transfer_eq {k : String × String} (hk : a.key = some k) :
    handlerErc721Transfer d a =
      if (d.get? k).isSome ∨ a.fromAddress = ZERO_ADDRESS then .ok (d.upsert (columnsAfter k a))
      else .error .transferError := by
  obtain ⟨id, hid, rfl⟩ := Option.map_eq_some_iff.mp hk
  unfold handlerErc721Transfer
  simp only [hid]
  cases hrow : d.get? (a.erc721_contract_address, id) with
  | none => simp [columnsAfter]
  | some token =>
    have hkey : token.key = (a.erc721_contract_address, id) := Table.key_of_get? hrow
    obtain ⟨haddr, htoken⟩ := Prod.mk.inj hkey
    simp [columnsAfter, haddr, htoken]

/-- An activity that is no transfer changes nothing. -/
theorem processActivity_of_ne (h : a.action ≠ .transfer) : processActivity d a = .ok d := by
  unfold processActivity
  cases hact : a.action with
  | transfer => exact absurd hact h
  | approval => rfl
  | approvalForAll => rfl

theorem processActivity_of_transfer (h : a.action = .transfer) :
    processActivity d a = handlerErc721Transfer d a := by simp [processActivity, h]

theorem key_columnsAfter (k : String × String) (a : Erc721Activity) :
    (columnsAfter k a).key = k := rfl

theorem exists_key (h : a.token_id ≠ none) : ∃ k, a.key = some k := by
  obtain ⟨tokenId, htoken⟩ := Option.ne_none_iff_exists'.mp h
  exact ⟨(a.erc721_contract_address, tokenId), by simp [Erc721Activity.key, htoken]⟩

theorem transfersNamed_cons :
    TransfersNamed (a :: acts) ↔ (a.action = .transfer → a.token_id ≠ none) ∧ TransfersNamed acts :=
  List.forall_mem_cons

theorem transfersOf_cons_self {k : String × String} (h : a.action = .transfer) (hk : a.key = some k) :
    transfersOf k (a :: acts) = a :: transfersOf k acts := by simp [transfersOf, h, hk]

theorem transfersOf_cons_ne {k : String × String} (h : ¬ (a.action = .transfer ∧ a.key = some k)) :
    transfersOf k (a :: acts) = transfersOf k acts := by
  rw [transfersOf, List.filter_cons_of_neg (by simpa using h)]
  rfl

/-- After a transfer its token is known, and the others are as before. -/
theorem startsKnown_upsert_iff {k : String × String} (d : TokenDictionary) (j : String × String) :
    StartsKnown ((d.upsert (columnsAfter k a)).get? j).isSome (transfersOf j acts) ↔
      (j = k ∨ StartsKnown (d.get? j).isSome (transfersOf j acts)) := by
  rw [Table.get?_upsert, key_columnsAfter]
  by_cases hj : k = j
  · simp [StartsKnown, hj]
  · rw [if_neg hj]
    exact ⟨Or.inr, fun h => h.resolve_left fun h => hj h.symm⟩

/-- What a list that starts with a transfer asks for: that its token is known or comes from the
zero address, and the rest of the other tokens. -/
theorem forall_startsKnown_cons_iff {k : String × String} (hact : a.action = .transfer)
    (hkey : a.key = some k) (d : TokenDictionary) :
    (∀ j, StartsKnown (d.get? j).isSome (transfersOf j (a :: acts))) ↔
      ((d.get? k).isSome ∨ a.fromAddress = ZERO_ADDRESS) ∧
        ∀ j, j = k ∨ StartsKnown (d.get? j).isSome (transfersOf j acts) := by
  have hother : ∀ j, j ≠ k → transfersOf j (a :: acts) = transfersOf j acts := fun j hj =>
    transfersOf_cons_ne fun h => hj (Option.some.inj (h.2.symm.trans hkey))
  constructor
  · intro h
    refine ⟨?_, fun j => ?_⟩
    · have hk := h k
      rw [transfersOf_cons_self hact hkey] at hk
      exact hk.imp_right fun h => h a rfl
    · refine or_iff_not_imp_left.mpr fun hj => ?_
      have hjk := h j
      rwa [hother j hj] at hjk
  · rintro ⟨hk, h⟩ j
    by_cases hj : j = k
    · subst hj
      rw [transfersOf_cons_self hact hkey]
      refine hk.imp_right fun hzero b hb => ?_
      cases hb
      exact hzero
    · rw [hother j hj]
      exact (h j).resolve_left hj

end HandlerLemmas

open HandlerLemmas

/-! ## 5. What `process` does -/

/-- A run goes through exactly when every token is known or first comes from the zero address. -/
theorem process_ok_iff {acts : List Erc721Activity} (hnamed : TransfersNamed acts)
    (d : TokenDictionary) :
    (∃ d', process acts d = .ok d') ↔
      ∀ k, StartsKnown (d.get? k).isSome (transfersOf k acts) := by
  induction acts generalizing d with
  | nil => exact ⟨fun _ k => Or.inr fun a ha => by simp [transfersOf] at ha, fun _ => ⟨d, rfl⟩⟩
  | cons a acts ih =>
    obtain ⟨hname, hrest⟩ := transfersNamed_cons.mp hnamed
    rw [process, List.foldlM_cons]
    by_cases hact : a.action = .transfer
    · obtain ⟨k, hkey⟩ := exists_key (hname hact)
      rw [processActivity_of_transfer hact, handlerErc721Transfer_eq hkey,
        forall_startsKnown_cons_iff hact hkey]
      by_cases hok : (d.get? k).isSome ∨ a.fromAddress = ZERO_ADDRESS
      · rw [if_pos hok, ok_bind]
        refine (ih hrest _).trans ?_
        simp only [startsKnown_upsert_iff, hok, true_and]
      · rw [if_neg hok]
        refine ⟨?_, fun h => absurd h.1 hok⟩
        rintro ⟨d', h⟩
        cases h
    · rw [processActivity_of_ne hact, ok_bind]
      refine (ih hrest d).trans (forall_congr' fun j => ?_)
      rw [transfersOf_cons_ne fun h => hact h.1]

/-- A token ends as its last transfer leaves it. -/
theorem get?_process {acts : List Erc721Activity} (hnamed : TransfersNamed acts)
    {d d' : TokenDictionary} (h : process acts d = .ok d') (k : String × String) :
    d'.get? k = (((transfersOf k acts).getLast?).map (columnsAfter k)).or (d.get? k) := by
  induction acts generalizing d with
  | nil =>
    cases h
    simp [transfersOf]
  | cons a acts ih =>
    obtain ⟨hname, hrest⟩ := transfersNamed_cons.mp hnamed
    obtain ⟨mid, hmid, hfold⟩ := foldlM_cons_ok h
    rw [ih hrest hfold]
    by_cases hact : a.action = .transfer
    · obtain ⟨j, hkey⟩ := exists_key (hname hact)
      rw [processActivity_of_transfer hact, handlerErc721Transfer_eq hkey] at hmid
      split at hmid
      · cases hmid
        rw [Table.get?_upsert, key_columnsAfter]
        by_cases hj : j = k
        · subst hj
          rw [transfersOf_cons_self hact hkey, if_pos rfl, List.getLast?_cons]
          cases (transfersOf j acts).getLast? <;> simp
        · rw [if_neg hj,
            transfersOf_cons_ne fun h => hj (Option.some.inj (hkey.symm.trans h.2))]
      · cases hmid
    · rw [processActivity_of_ne hact] at hmid
      cases hmid
      rw [transfersOf_cons_ne fun h => hact h.1]

end Erascope.Erc721
