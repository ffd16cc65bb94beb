import Mathlib.Tactic
import Erascope.Erc721.Handler

/-!
# The ERC721 activity job

The model of `handleErc721Activity` in `services/evm/erc721.service.ts` as a function of its
range. The logs of registered contracts become activities, the tokens that they name are loaded
into the dictionary of the handler, and `updateErc721` writes the whole dictionary back before
it links the activities to the tokens.

Results:
1. `handleErc721Activity_ok_iff`, `handleErc721Activity_result`: when a run goes through, and
   what it leaves.
2. `erc721_ownership`: over consecutive ranges the tokens end with the recipient and the height
   of their last transfer, however the ranges are cut.
-/

namespace Erascope.Erc721

open HandlerLemmas

/-! ## 1. The database -/

/-- A row of `evm_smart_contract`; only `type = ERC721` is told apart. -/
structure EVMSmartContract where
  id : ℕ
  address : String
  created_height : Option ℕ
  isErc721 : Bool
deriving DecidableEq, Repr

/-- A row of `erc721_contract`. -/
structure Erc721Contract where
  evm_smart_contract_id : ℕ
  address : String
  symbol : Option String
  name : Option String
  track : Bool
  last_updated_height : Option ℤ
deriving DecidableEq, Repr

/-- A row of `erc721_token`. -/
structure Erc721Token where
  id : ℕ
  token_id : String
  owner : String
  erc721_contract_address : String
  last_updated_height : ℕ
  media_info : Option String
deriving DecidableEq, Repr

/-- The columns of a row that the handler reads. -/
def Erc721Token.columns (t : Erc721Token) : TokenColumns :=
  { token_id := t.token_id
    owner := t.owner
    erc721_contract_address := t.erc721_contract_address
    last_updated_height := t.last_updated_height }

/-- The unique key of `erc721_token`. -/
def Erc721Token.key (t : Erc721Token) : String × String := t.columns.key

/-- All columns but the serial `id`. -/
def Erc721Token.content (t : Erc721Token) : TokenColumns × Option String := (t.columns, t.media_info)

/-- The table `erc721_contract`; `address` is unique. -/
abbrev Contracts := Table Erc721Contract.address

/-- The table `erc721_token`. -/
abbrev Tokens := Table Erc721Token.key

/-- The tables of the service; `evm_event` in id order, `tokenSeq` the last id given to a
token. -/
structure Db where
  evm_event : List EvmEvent
  evm_smart_contract : Table EVMSmartContract.address
  erc721_contract : Contracts
  erc721_token : Tokens
  tokenSeq : ℕ
  erc721_activity : List Erc721Activity

/-- `getBatchErc721Info`: the name and the symbol that the node answers, if it does. -/
structure NodeInfo where
  name : String → Option String
  symbol : String → Option String

/-! ## 2. The job -/

/-- A log joined with its two contract rows. -/
structure JoinedEvent extends EvmEvent where
  evm_smart_contract_id : ℕ
  track : Bool
deriving DecidableEq, Repr

/-- The inner joins with `evm_smart_contract` and `erc721_contract`. -/
def joinEvent (db : Db) (e : EvmEvent) : Option JoinedEvent :=
  (db.evm_smart_contract.get? e.address).bind fun smartContract =>
    (db.erc721_contract.get? e.address).map fun contract =>
      { e with evm_smart_contract_id := smartContract.id, track := contract.track }

/-- `erc721Events` -/
def erc721Events (db : Db) (startBlock endBlock : ℕ) : List JoinedEvent :=
  (between (·.block_height) startBlock endBlock db.evm_event).filterMap (joinEvent db)

/-- `handleMissingErc721Contract` -/
def handleMissingErc721Contract (node : NodeInfo) (events : List JoinedEvent)
    (contracts : Contracts) : Contracts :=
  contracts.upsertAll ((events.filter fun e => contracts.get? e.address = none).map fun e =>
    { evm_smart_contract_id := e.evm_smart_contract_id
      address := e.address
      symbol := node.symbol e.address
      name := node.name e.address
      track := false
      last_updated_height := some (-1) })

/-- The insert of one token, on conflict a merge of the inserted columns. Either way the
sequence moves. -/
def mergeToken (st : Tokens × ℕ) (token : TokenColumns) : Tokens × ℕ :=
  let row :=
    match st.1.get? token.key with
    | some row =>
      { row with
        token_id := token.token_id
        owner := token.owner
        erc721_contract_address := token.erc721_contract_address
        last_updated_height := token.last_updated_height }
    | none =>
      { id := st.2 + 1
        token_id := token.token_id
        owner := token.owner
        erc721_contract_address := token.erc721_contract_address
        last_updated_height := token.last_updated_height
        media_info := none }
  (st.1.upsert row, st.2 + 1)

/-- The row of `erc721_activity` for an activity: linked to its token if that is among
`updatedTokens`, and without `token_id`. -/
def linkActivity (updatedTokens : Tokens) (activity : Erc721Activity) : Erc721Activity :=
  { activity with
    erc721_token_id := (activity.key.bind updatedTokens.get?).map (·.id)
    token_id := none }

/-- `updateErc721` -/
def updateErc721 (erc721Activities : List Erc721Activity) (erc721Tokens : TokenDictionary)
    (db : Db) : Db :=
  let written := erc721Tokens.rows.foldl mergeToken (db.erc721_token, db.tokenSeq)
  let updatedTokens := written.1.filter fun row => (erc721Tokens.get? row.key).isSome
  { db with
    erc721_token := written.1
    tokenSeq := written.2
    erc721_activity := db.erc721_activity ++ erc721Activities.map (linkActivity updatedTokens) }

/-- The columns of the tokens that the activities name. -/
def loadTokens (erc721Activities : List Erc721Activity) (tokens : Tokens) : TokenDictionary :=
  ⟨(tokens.rows.filter fun t => erc721Activities.any fun a => a.key = some t.key).map
      (·.columns), by
    rw [List.map_map]
    exact (List.filter_sublist.map Erc721Token.key).nodup tokens.nodup⟩

section
variable (env : Env)

/-- The activities of the tracked contracts among joined logs. -/
def buildActivities (events : List JoinedEvent) : List Erc721Activity :=
  (events.filter (·.track)).filterMap fun e => eventActivity env e.toEvmEvent

/-- `handleErc721Activity`, for a range; an error rolls its transaction back. -/
def handleErc721Activity (node : NodeInfo) (db : Db) (startBlock endBlock : ℕ) :
    Except Erc721Error Db := do
  let events := erc721Events db startBlock endBlock
  let db := { db with
    erc721_contract := handleMissingErc721Contract node events db.erc721_contract }
  let erc721Activities := buildActivities env events
  if erc721Activities.isEmpty then return db
  else
    let erc721Tokens ← process erc721Activities (loadTokens erc721Activities db.erc721_token)
    return updateErc721 erc721Activities erc721Tokens db

/-- Runs over the consecutive ranges that start at `startBlock` and end at the given heights. -/
def handleErc721Activities (node : NodeInfo) : ℕ → List ℕ → Db → Except Erc721Error Db
  | _, [], db => .ok db
  | startBlock, endBlock :: ends, db => do
    let db ← handleErc721Activity env node db startBlock endBlock
    handleErc721Activities node endBlock ends db

end

/-! ## 3. The activities of a range -/

/-- The contract of an address is registered and tracked. -/
def isTracked (db : Db) (address : String) : Bool :=
  (db.evm_smart_contract.get? address).isSome &&
    (db.erc721_contract.get? address).any (·.track)

/-- The activities of a range, from the logs of the tracked contracts. -/
def activitiesOf (env : Env) (db : Db) (startBlock endBlock : ℕ) : List Erc721Activity :=
  ((between (·.block_height) startBlock endBlock db.evm_event).filter fun e =>
    isTracked db e.address).filterMap (eventActivity env)

/-- Logs were stored in chain order. -/
def ChainOrder (events : List EvmEvent) : Prop :=
  events.Pairwise fun e e' => e.block_height ≤ e'.block_height

instance (events : List EvmEvent) : Decidable (ChainOrder events) :=
  inferInstanceAs (Decidable (events.Pairwise _))

namespace ServiceLemmas

variable {env : Env} {node : NodeInfo} {db db' : Db} {s e : ℕ}

theorem buildActivities_erc721Events :
    buildActivities env (erc721Events db s e) = activitiesOf env db s e := by
  unfold buildActivities erc721Events activitiesOf
  generalize between (·.block_height) s e db.evm_event = events
  induction events with
  | nil => rfl
  | cons x xs ih =>
    cases hs : db.evm_smart_contract.get? x.address with
    | none => simpa [joinEvent, isTracked, hs] using ih
    | some smartContract =>
      cases hc : db.erc721_contract.get? x.address with
      | none => simpa [joinEvent, isTracked, hs, hc] using ih
      | some contract =>
        cases ht : contract.track with
        | false => simpa [joinEvent, isTracked, hs, hc, ht] using ih
        | true =>
          have hjoin : joinEvent db x = some ⟨x, smartContract.id, true⟩ := by
            simp [joinEvent, hs, hc, ht]
          have htracked : isTracked db x.address = true := by simp [isTracked, hs, hc, ht]
          have hkept : (x :: xs).filter (fun e => isTracked db e.address) =
              x :: xs.filter fun e => isTracked db e.address := List.filter_cons_of_pos htracked
          rw [List.filterMap_cons_some hjoin, List.filter_cons_of_pos rfl, hkept,
            List.filterMap_cons, List.filterMap_cons, ih]

/-- Every log of the job has its contract row, so none is ever missing. -/
theorem handleMissingErc721Contract_eq :
    handleMissingErc721Contract node (erc721Events db s e) db.erc721_contract =
      db.erc721_contract := by
  have hnone : (erc721Events db s e).filter
      (fun x => decide (db.erc721_contract.get? x.address = none)) = [] := by
    rw [List.filter_eq_nil_iff]
    intro x hx
    obtain ⟨y, -, hy⟩ := List.mem_filterMap.mp hx
    obtain ⟨smartContract, -, hy⟩ := Option.bind_eq_some_iff.mp hy
    obtain ⟨contract, hc, rfl⟩ := Option.map_eq_some_iff.mp hy
    simp [hc]
  rw [handleMissingErc721Contract, hnone]
  rfl

theorem transfersNamed_activitiesOf : TransfersNamed (activitiesOf env db s e) :=
  transfersNamed_filterMap env _

/-- Consecutive ranges have consecutive activities. -/
theorem activitiesOf_append (hord : ChainOrder db.evm_event) {m : ℕ} (hsm : s ≤ m) (hme : m ≤ e) :
    activitiesOf env db s m ++ activitiesOf env db m e = activitiesOf env db s e := by
  unfold activitiesOf
  rw [← List.filterMap_append, ← List.filter_append, between_append hord hsm hme]

/-! ### Writing the dictionary back -/

theorem get?_mergeToken (st : Tokens × ℕ) (token : TokenColumns) :
    ∃ row, row.columns = token ∧
      (∀ k, (mergeToken st token).1.get? k = if token.key = k then some row else st.1.get? k) ∧
      row.media_info = (st.1.get? token.key).bind (·.media_info) ∧
      ∀ old, st.1.get? token.key = some old → row.id = old.id := by
  unfold mergeToken
  cases hold : st.1.get? token.key with
  | none =>
    exact ⟨_, rfl, fun k => Table.get?_upsert .., rfl, fun old h => by cases h⟩
  | some old =>
    refine ⟨_, rfl, fun k => Table.get?_upsert .., rfl, fun old' h => ?_⟩
    cases h
    rfl

/-- The row of a token after the write of columns for it. -/
structure Merged (old : Option Erc721Token) (token : TokenColumns) (row : Erc721Token) : Prop where
  columns : row.columns = token
  media_info : row.media_info = old.bind (·.media_info)
  id : ∀ r, old = some r → row.id = r.id

/-- Columns that are as they were leave the row as it was. -/
theorem Merged.eq_of_columns {old : Erc721Token} {token : TokenColumns} {row : Erc721Token}
    (h : Merged (some old) token row) (hcols : token = old.columns) : row = old := by
  have hcolumns : row.columns = old.columns := h.columns.trans hcols
  have hmedia : row.media_info = old.media_info := h.media_info
  have hid : row.id = old.id := h.id old rfl
  cases row
  cases old
  simp only [Erc721Token.columns, TokenColumns.mk.injEq] at hcolumns
  simp_all

/-- A stored row keeps all columns but the owner and the height. -/
theorem Merged.eq_update {k : String × String} {a : Erc721Activity} {old row : Erc721Token}
    (h : Merged (some old) (columnsAfter k a) row) (hkey : old.key = k) :
    row = { old with owner := a.toAddress, last_updated_height := a.height } := by
  have hcolumns := h.columns
  have hmedia : row.media_info = old.media_info := h.media_info
  have hid : row.id = old.id := h.id old rfl
  obtain ⟨haddr, htoken⟩ := Prod.mk.inj hkey
  cases row
  cases old
  simp only [Erc721Token.columns, columnsAfter, TokenColumns.mk.injEq] at hcolumns haddr htoken
  simp_all

/-- Writing a dictionary back: the tokens outside of it stay as they are. -/
theorem get?_mergeTokens (d : TokenDictionary) (st : Tokens × ℕ) (k : String × String) :
    (d.get? k = none → (d.rows.foldl mergeToken st).1.get? k = st.1.get? k) ∧
    ∀ token, d.get? k = some token → ∃ row, (d.rows.foldl mergeToken st).1.get? k = some row ∧
      Merged (st.1.get? k) token row := by
  obtain ⟨rows, hnd⟩ := d
  simp only [Table.get?]
  induction rows generalizing st with
  | nil => simp
  | cons token rows ih =>
    rw [List.map_cons, List.nodup_cons] at hnd
    obtain ⟨row, hcols, hget, hmedia, hid⟩ := get?_mergeToken st token
    have htail := ih (mergeToken st token) hnd.2
    simp only [Table.get?] at hget hmedia hid
    rw [List.foldl_cons]
    simp only [hget] at htail
    by_cases hk : token.key = k
    · have hnone : rows.find? (fun x => x.key = k) = none := by
        rw [List.find?_eq_none]
        intro x hx
        simp only [decide_eq_true_eq]
        exact fun h => hnd.1 (hk ▸ h ▸ List.mem_map_of_mem hx)
      have hfirst := htail.1 hnone
      simp only [hk, if_true] at hfirst
      subst hk
      refine ⟨fun h => by simp at h, fun token' htoken => ⟨row, hfirst, ?_⟩⟩
      have htoken : token' = token := by simpa using htoken.symm
      subst htoken
      exact ⟨hcols, hmedia, hid⟩
    · simpa [hk] using htail

theorem get?_loadTokens (acts : List Erc721Activity) (tokens : Tokens) (k : String × String) :
    (loadTokens acts tokens).get? k =
      if acts.any (fun a => a.key = some k) then (tokens.get? k).map (·.columns) else none := by
  have hmap : (loadTokens acts tokens).get? k =
      ((tokens.filter fun t => acts.any fun a => a.key = some t.key).get? k).map (·.columns) := by
    simp only [loadTokens, Table.get?, Table.filter, List.find?_map, Function.comp_def]
    rfl
  rw [hmap, Table.get?_filter]
  cases hrow : tokens.get? k with
  | none => simp
  | some row =>
    have hkey : row.key = k := Table.key_of_get? hrow
    simp only [Option.filter, hkey]
    split <;> rfl

/-- Loading the named tokens does not change what the fold finds known. -/
theorem startsKnown_loadTokens (acts : List Erc721Activity) (tokens : Tokens)
    (k : String × String) :
    StartsKnown ((loadTokens acts tokens).get? k).isSome (transfersOf k acts) ↔
      StartsKnown (tokens.get? k).isSome (transfersOf k acts) := by
  rw [get?_loadTokens]
  by_cases hany : acts.any (fun a => a.key = some k) = true
  · rw [if_pos hany, Option.isSome_map]
  · have hnil : transfersOf k acts = [] := by
      rw [transfersOf, List.filter_eq_nil_iff]
      intro a ha hdec
      have hkey : a.key = some k := (of_decide_eq_true hdec).2
      exact hany (List.any_eq_true.mpr ⟨a, ha, by simpa using hkey⟩)
    simp [hnil, StartsKnown]

end ServiceLemmas

open ServiceLemmas

/-! ## 4. One run -/

/-- The row of a token before and after a range: the last transfer wins, and a token without a
transfer keeps its row. -/
def TokenAfter (k : String × String) (old : Option Erc721Token) (last : Option Erc721Activity)
    (new : Option Erc721Token) : Prop :=
  match last with
  | none => new = old
  | some a => ∃ row, new = some row ∧ Merged old (columnsAfter k a) row

/-- What a run leaves. Every activity whose token has a row in the end is linked to it. -/
structure RunResult (env : Env) (db : Db) (startBlock endBlock : ℕ) (db' : Db) : Prop where
  evm_event : db'.evm_event = db.evm_event
  evm_smart_contract : db'.evm_smart_contract = db.evm_smart_contract
  erc721_contract : db'.erc721_contract = db.erc721_contract
  token : ∀ k, TokenAfter k (db.erc721_token.get? k)
    (transfersOf k (activitiesOf env db startBlock endBlock)).getLast? (db'.erc721_token.get? k)
  activity : db'.erc721_activity = db.erc721_activity ++
    (activitiesOf env db startBlock endBlock).map (linkActivity db'.erc721_token)

section
variable {env : Env} {node : NodeInfo} {db db' : Db} {s e : ℕ}

/-- A run goes through exactly when every token is stored or first comes from the zero
address. -/
theorem handleErc721Activity_ok_iff :
    (∃ db', handleErc721Activity env node db s e = .ok db') ↔
      ∀ k, StartsKnown (db.erc721_token.get? k).isSome
        (transfersOf k (activitiesOf env db s e)) := by
  unfold handleErc721Activity
  simp only [buildActivities_erc721Events]
  cases hnil : (activitiesOf env db s e).isEmpty with
  | true =>
    have hacts := List.isEmpty_iff.mp hnil
    exact ⟨fun _ k => by simp [hacts, transfersOf, StartsKnown], fun _ => ⟨_, rfl⟩⟩
  | false =>
    simp only [Bool.false_eq_true, if_false, ← startsKnown_loadTokens]
    rw [← process_ok_iff transfersNamed_activitiesOf]
    constructor
    · rintro ⟨db', h⟩
      obtain ⟨d, hd, -⟩ := bind_ok h
      exact ⟨d, hd⟩
    · rintro ⟨d, hd⟩
      rw [hd]
      exact ⟨_, rfl⟩

/-- The dictionary after the fold, seen from the table. -/
theorem tokenAfter_mergeTokens {acts : List Erc721Activity} (hnamed : TransfersNamed acts)
    {d : TokenDictionary} (hd : process acts (loadTokens acts db.erc721_token) = .ok d)
    (k : String × String) :
    TokenAfter k (db.erc721_token.get? k) (transfersOf k acts).getLast?
      ((d.rows.foldl mergeToken (db.erc721_token, db.tokenSeq)).1.get? k) := by
  have hdk := get?_process hnamed hd k
  obtain ⟨hout, hin⟩ := get?_mergeTokens d (db.erc721_token, db.tokenSeq) k
  rw [get?_loadTokens] at hdk
  cases hlast : (transfersOf k acts).getLast? with
  | some a =>
    rw [hlast, Option.map_some, Option.some_or] at hdk
    exact hin _ hdk
  | none =>
    -- a token that is only named is written back as it was loaded
    rw [hlast, Option.map_none, Option.none_or] at hdk
    split at hdk
    · cases hrow : db.erc721_token.get? k with
      | none =>
        rw [hrow] at hdk
        exact (hout hdk).trans hrow
      | some old =>
        rw [hrow] at hdk hin
        obtain ⟨row, hnew, hmerged⟩ := hin _ hdk
        exact hnew.trans (congrArg some (hmerged.eq_of_columns rfl))
    · exact hout hdk

/-- Every named token that has a row in the end is in the dictionary. -/
theorem isSome_get?_of_named {acts : List Erc721Activity} (hnamed : TransfersNamed acts)
    {d : TokenDictionary} (hd : process acts (loadTokens acts db.erc721_token) = .ok d)
    {k : String × String} (hk : acts.any (fun a => a.key = some k) = true) {row : Erc721Token}
    (hrow : (d.rows.foldl mergeToken (db.erc721_token, db.tokenSeq)).1.get? k = some row) :
    (d.get? k).isSome := by
  rw [Option.isSome_iff_ne_none]
  intro hnone
  have hdk := get?_process hnamed hd k
  rw [hnone, get?_loadTokens, if_pos hk] at hdk
  rw [(get?_mergeTokens d (db.erc721_token, db.tokenSeq) k).1 hnone] at hrow
  rw [hrow] at hdk
  cases hlast : (transfersOf k acts).getLast? with
  | none =>
    rw [hlast] at hdk
    cases hdk
  | some a =>
    rw [hlast] at hdk
    cases hdk

theorem linkActivity_filter {acts : List Erc721Activity} (hnamed : TransfersNamed acts)
    {d : TokenDictionary} (hd : process acts (loadTokens acts db.erc721_token) = .ok d)
    {a : Erc721Activity} (ha : a ∈ acts) :
    linkActivity ((d.rows.foldl mergeToken (db.erc721_token, db.tokenSeq)).1.filter
        fun row => (d.get? row.key).isSome) a =
      linkActivity (d.rows.foldl mergeToken (db.erc721_token, db.tokenSeq)).1 a := by
  unfold linkActivity
  cases hkey : a.key with
  | none => rfl
  | some k =>
    simp only [Option.bind_some, Table.get?_filter]
    cases hrow : (d.rows.foldl mergeToken (db.erc721_token, db.tokenSeq)).1.get? k with
    | none => rfl
    | some row =>
      have hrowkey : row.key = k := Table.key_of_get? hrow
      have hany : acts.any (fun a => a.key = some k) = true :=
        List.any_eq_true.mpr ⟨a, ha, by simpa using hkey⟩
      have hin := isSome_get?_of_named hnamed hd hany hrow
      simp [Option.filter, hrowkey, hin]

theorem handleErc721Activity_result (h : handleErc721Activity env node db s e = .ok db') :
    RunResult env db s e db' := by
  unfold handleErc721Activity at h
  simp only [buildActivities_erc721Events, handleMissingErc721Contract_eq] at h
  split at h
  · next hnil =>
    have hacts := List.isEmpty_iff.mp hnil
    cases h
    refine ⟨rfl, rfl, rfl, fun k => ?_, ?_⟩
    · rw [hacts]
      exact rfl
    · simp [hacts]
  · obtain ⟨d, hd, h⟩ := bind_ok h
    cases h
    refine ⟨rfl, rfl, rfl, tokenAfter_mergeTokens transfersNamed_activitiesOf hd, ?_⟩
    exact congrArg (db.erc721_activity ++ ·) (List.map_congr_left fun a ha =>
      linkActivity_filter transfersNamed_activitiesOf hd ha)

end

/-! ## 5. Consecutive ranges -/

namespace ServiceLemmas

variable {env : Env} {node : NodeInfo} {db db' mid : Db} {s e m : ℕ}

/-- A later transfer wins over an earlier one. -/
theorem tokenAfter_trans {k : String × String} {old mid new : Option Erc721Token}
    {last last' : Option Erc721Activity} (h : TokenAfter k old last mid)
    (h' : TokenAfter k mid last' new) : TokenAfter k old (last'.or last) new := by
  cases last' with
  | none =>
    obtain rfl : new = mid := h'
    exact h
  | some a' =>
    obtain ⟨row, hnew, hmerged⟩ := h'
    refine ⟨row, hnew, hmerged.columns, ?_, fun r hr => ?_⟩
    · cases last with
      | none =>
        obtain rfl : mid = old := h
        exact hmerged.media_info
      | some a =>
        obtain ⟨first, rfl, hfirst⟩ := h
        exact hmerged.media_info.trans hfirst.media_info
    · cases last with
      | none =>
        obtain rfl : mid = old := h
        exact hmerged.id r hr
      | some a =>
        obtain ⟨first, rfl, hfirst⟩ := h
        exact (hmerged.id first rfl).trans (hfirst.id r hr)

theorem activitiesOf_self : activitiesOf env db s s = [] := by
  rw [activitiesOf, between_eq_nil fun r _ h => h]
  rfl

theorem activitiesOf_of_result (h : RunResult env db s m mid) (s' e' : ℕ) :
    activitiesOf env mid s' e' = activitiesOf env db s' e' := by
  unfold activitiesOf isTracked
  rw [h.evm_event, h.evm_smart_contract, h.erc721_contract]

/-- A token is known after a run if it was known before or was transferred. -/
theorem isSome_tokenAfter {k : String × String} {old new : Option Erc721Token}
    {last : Option Erc721Activity} (h : TokenAfter k old last new) :
    new.isSome = (old.isSome || last.isSome) := by
  cases last with
  | none =>
    obtain rfl : new = old := h
    simp
  | some a =>
    obtain ⟨row, rfl, -⟩ := h
    simp

/-- The same transfers leave the same columns, up to the serial id. -/
theorem content_tokenAfter {k : String × String} {old new new' : Option Erc721Token}
    {last : Option Erc721Activity} (h : TokenAfter k old last new) (h' : TokenAfter k old last new') :
    new.map (·.content) = new'.map (·.content) := by
  cases last with
  | none =>
    obtain rfl : new = old := h
    obtain rfl : new' = new := h'
    rfl
  | some a =>
    obtain ⟨row, rfl, hrow⟩ := h
    obtain ⟨row', rfl, hrow'⟩ := h'
    simp only [Option.map_some, Erc721Token.content, hrow.columns, hrow'.columns, hrow.media_info,
      hrow'.media_info]

theorem startsKnown_append {known : Bool} {xs ys : List Erc721Activity} :
    StartsKnown known (xs ++ ys) ↔
      StartsKnown known xs ∧ StartsKnown (known || xs.getLast?.isSome) ys := by
  cases xs with
  | nil => simp [StartsKnown]
  | cons x xs => simp [StartsKnown, List.getLast?_cons]

end ServiceLemmas

/-- The end of the last range. -/
def endOf (startBlock : ℕ) (ends : List ℕ) : ℕ := ends.getLastD startBlock

theorem endOf_cons (s m : ℕ) (ends : List ℕ) : endOf s (m :: ends) = endOf m ends := by
  cases ends <;> rfl

theorem le_endOf {s : ℕ} {ends : List ℕ} (h : (s :: ends).Pairwise (· ≤ ·)) : s ≤ endOf s ends := by
  cases hlast : ends.getLast? with
  | none => simp [endOf, List.getLastD_eq_getLast?, hlast]
  | some m =>
    rw [endOf, List.getLastD_eq_getLast?, hlast]
    exact (List.pairwise_cons.mp h).1 m (List.mem_of_getLast? hlast)

section
variable {env : Env} {node : NodeInfo} {db db' : Db} {s : ℕ} {ends : List ℕ}

/-- Consecutive runs go through exactly when one run over the whole range does. -/
theorem handleErc721Activities_ok_iff (hord : ChainOrder db.evm_event)
    (hends : (s :: ends).Pairwise (· ≤ ·)) :
    (∃ db', handleErc721Activities env node s ends db = .ok db') ↔
      ∀ k, StartsKnown (db.erc721_token.get? k).isSome
        (transfersOf k (activitiesOf env db s (endOf s ends))) := by
  induction ends generalizing s db with
  | nil =>
    refine ⟨fun _ k => ?_, fun _ => ⟨db, rfl⟩⟩
    rw [endOf, List.getLastD_nil, activitiesOf_self]
    simp [transfersOf, StartsKnown]
  | cons m ends ih =>
    obtain ⟨hs, htail⟩ := List.pairwise_cons.mp hends
    rw [endOf_cons, ← activitiesOf_append hord (hs m List.mem_cons_self) (le_endOf htail)]
    simp only [transfersOf_append, startsKnown_append, forall_and]
    rw [← @handleErc721Activity_ok_iff env node db s m]
    have hrest : ∀ mid, handleErc721Activity env node db s m = .ok mid →
        ((∃ db', handleErc721Activities env node m ends mid = .ok db') ↔
          ∀ k, StartsKnown ((db.erc721_token.get? k).isSome ||
              (transfersOf k (activitiesOf env db s m)).getLast?.isSome)
            (transfersOf k (activitiesOf env db m (endOf m ends)))) := by
      intro mid hmid
      have hres := handleErc721Activity_result hmid
      rw [ih (hres.evm_event ▸ hord) htail]
      simp only [activitiesOf_of_result hres, isSome_tokenAfter (hres.token _)]
    constructor
    · rintro ⟨db', h⟩
      obtain ⟨mid, hmid, h⟩ := bind_ok h
      exact ⟨⟨mid, hmid⟩, (hrest mid hmid).mp ⟨db', h⟩⟩
    · rintro ⟨⟨mid, hmid⟩, h⟩
      obtain ⟨db', h⟩ := (hrest mid hmid).mpr h
      refine ⟨db', ?_⟩
      rw [handleErc721Activities, hmid]
      exact h

/-- Consecutive runs leave the tokens that one run over the whole range leaves. -/
theorem handleErc721Activities_token (hord : ChainOrder db.evm_event)
    (hends : (s :: ends).Pairwise (· ≤ ·))
    (h : handleErc721Activities env node s ends db = .ok db') (k : String × String) :
    TokenAfter k (db.erc721_token.get? k)
      (transfersOf k (activitiesOf env db s (endOf s ends))).getLast?
      (db'.erc721_token.get? k) := by
  induction ends generalizing s db with
  | nil =>
    rw [endOf, List.getLastD_nil, activitiesOf_self]
    cases h
    exact rfl
  | cons m ends ih =>
    obtain ⟨hs, htail⟩ := List.pairwise_cons.mp hends
    obtain ⟨mid, hmid, h⟩ := bind_ok h
    have hres := handleErc721Activity_result hmid
    have hrest := ih (hres.evm_event ▸ hord) htail h
    rw [activitiesOf_of_result hres] at hrest
    rw [endOf_cons, ← activitiesOf_append hord (hs m List.mem_cons_self) (le_endOf htail),
      transfersOf_append, List.getLast?_append]
    exact tokenAfter_trans (hres.token k) hrest

/-- Runs over a first part of the ranges, and one run more. -/
theorem handleErc721Activities_at {m : ℕ} {pre post : List ℕ}
    (h : handleErc721Activities env node s (pre ++ m :: post) db = .ok db') :
    ∃ before after, handleErc721Activities env node s pre db = .ok before ∧
      handleErc721Activity env node before (endOf s pre) m = .ok after := by
  induction pre generalizing s db with
  | nil =>
    obtain ⟨after, hafter, -⟩ := bind_ok h
    exact ⟨db, after, rfl, hafter⟩
  | cons n pre ih =>
    obtain ⟨mid, hmid, h⟩ := bind_ok h
    obtain ⟨before, after, hbefore, hafter⟩ := ih h
    refine ⟨before, after, ?_, ?_⟩
    · rw [handleErc721Activities, hmid]
      exact hbefore
    · rw [endOf_cons]
      exact hafter

theorem activitiesOf_handleErc721Activities
    (h : handleErc721Activities env node s ends db = .ok db') (s' e' : ℕ) :
    activitiesOf env db' s' e' = activitiesOf env db s' e' := by
  induction ends generalizing s db with
  | nil =>
    cases h
    rfl
  | cons m ends ih =>
    obtain ⟨mid, hmid, h⟩ := bind_ok h
    rw [ih h, activitiesOf_of_result (handleErc721Activity_result hmid)]

end

/-- At the end of every range its activities are linked to the rows of their tokens. -/
def AllLinked (env : Env) (node : NodeInfo) (startBlock : ℕ) (ends : List ℕ) (db : Db) : Prop :=
  ∀ pre m post, ends = pre ++ m :: post → ∃ before after,
    handleErc721Activities env node startBlock pre db = .ok before ∧
    handleErc721Activity env node before (endOf startBlock pre) m = .ok after ∧
    after.erc721_activity = before.erc721_activity ++
      (activitiesOf env db (endOf startBlock pre) m).map (linkActivity after.erc721_token)

/-- ERC721 ownership. For every list of logs in chain order, every stored token table and every
cut into consecutive ranges, the runs go through exactly when each token without a row first
comes from the zero address. Then each transferred token has the owner and the height of its
last transfer and keeps its other columns, the others keep their rows, every activity of a range
whose token has a row at its end is linked to it, and another cut leaves the same tokens. -/
theorem erc721_ownership (env : Env) (node : NodeInfo) (db : Db) (s : ℕ) (ends : List ℕ)
    (hord : ChainOrder db.evm_event) (hends : (s :: ends).Pairwise (· ≤ ·)) :
    ((∃ db', handleErc721Activities env node s ends db = .ok db') ↔
      ∀ k, db.erc721_token.get? k = none → ∀ a,
        (transfersOf k (activitiesOf env db s (endOf s ends))).head? = some a →
          a.fromAddress = ZERO_ADDRESS) ∧
    ∀ db', handleErc721Activities env node s ends db = .ok db' →
      (∀ k a, (transfersOf k (activitiesOf env db s (endOf s ends))).getLast? = some a →
        ∃ row, db'.erc721_token.get? k = some row ∧ row.owner = a.toAddress ∧
          row.last_updated_height = a.height ∧
          ∀ old, db.erc721_token.get? k = some old →
            row = { old with owner := a.toAddress, last_updated_height := a.height }) ∧
      (∀ k, transfersOf k (activitiesOf env db s (endOf s ends)) = [] →
        db'.erc721_token.get? k = db.erc721_token.get? k) ∧
      AllLinked env node s ends db ∧
      ∀ ends', (s :: ends').Pairwise (· ≤ ·) → endOf s ends' = endOf s ends →
        ∃ db'', handleErc721Activities env node s ends' db = .ok db'' ∧
          ∀ k, (db''.erc721_token.get? k).map (·.content) =
            (db'.erc721_token.get? k).map (·.content) := by
  have hok := @handleErc721Activities_ok_iff env node db s ends hord hends
  refine ⟨hok.trans (forall_congr' fun k => ?_), fun db' h => ⟨fun k a ha => ?_, fun k hk => ?_,
    fun pre m post heq => ?_, fun ends' hends' hend => ?_⟩⟩
  · cases db.erc721_token.get? k <;> simp [StartsKnown]
  · obtain ⟨row, hrow, hmerged⟩ : TokenAfter k _ (some a) _ :=
      ha ▸ handleErc721Activities_token hord hends h k
    refine ⟨row, hrow, congrArg TokenColumns.owner hmerged.columns,
      congrArg TokenColumns.last_updated_height hmerged.columns, fun old hold => ?_⟩
    rw [hold] at hmerged
    exact hmerged.eq_update (Table.key_of_get? hold)
  · have htoken := handleErc721Activities_token hord hends h k
    rw [hk] at htoken
    exact htoken
  · subst heq
    obtain ⟨before, after, hbefore, hafter⟩ := handleErc721Activities_at h
    refine ⟨before, after, hbefore, hafter, ?_⟩
    rw [(handleErc721Activity_result hafter).activity, activitiesOf_handleErc721Activities hbefore]
  · have hok' := @handleErc721Activities_ok_iff env node db s ends' hord hends'
    rw [hend] at hok'
    obtain ⟨db'', h''⟩ := hok'.mpr (hok.mp ⟨db', h⟩)
    refine ⟨db'', h'', fun k => ?_⟩
    have htoken := handleErc721Activities_token hord hends h k
    have htoken'' := handleErc721Activities_token hord hends' h'' k
    rw [hend] at htoken''
    exact content_tokenAfter htoken'' htoken

/-- The decoders on well formed words. -/
def wordEnv : Env where
  decodeToken topic1 topic2 topic3 :=
    return (Erc20.wordAddress (← topic1), Erc20.wordAddress (← topic2), Erc20.wordNat (← topic3))
  decodeAll topic1 topic2 := return (Erc20.wordAddress (← topic1), Erc20.wordAddress (← topic2))

/-- A log of a token. -/
def tokenLog (topic0 : EventTopic0) (id : ℕ) (address fromAddress toAddress tokenWord : String)
    (block_height : ℕ) : EvmEvent :=
  { id := id
    address := address
    topic0 := topic0
    topic1 := some (Erc20.addressWord fromAddress)
    topic2 := some (Erc20.addressWord toAddress)
    topic3 := some tokenWord
    block_height := block_height
    tx_hash := "0x" ++ toString id
    evm_tx_id := id
    sender := toAddress }

def nft : String := "0x00000000000000000000000000000000000000ee"
def alice : String := "0x00000000000000000000000000000000000000a1"
def bob : String := "0x00000000000000000000000000000000000000b0"
def wordOne : String := "0x0000000000000000000000000000000000000000000000000000000000000001"

/-- A token is minted to alice at 10, approved at 11 and transferred to bob at 12. -/
def nftDb : Db where
  evm_event := [tokenLog .transfer 1 nft ZERO_ADDRESS alice wordOne 10,
    tokenLog .approval 2 nft alice bob wordOne 11,
    tokenLog .transfer 3 nft alice bob wordOne 12]
  evm_smart_contract := ⟨[⟨5, nft, some 10, true⟩], by decide⟩
  erc721_contract := ⟨[⟨5, nft, none, none, true, some 10⟩], by decide⟩
  erc721_token := Table.empty
  tokenSeq := 0
  erc721_activity := []

/-- No name and no symbol. -/
def silentNode : NodeInfo := ⟨fun _ => none, fun _ => none⟩

/-- Cut at 11, the token ends with bob. -/
theorem erc721_ownership_cut :
    ∃ db', handleErc721Activities wordEnv silentNode 9 [11, 12] nftDb = .ok db' ∧
      ∃ row, db'.erc721_token.get? (nft, "1") = some row ∧ row.owner = bob ∧
        row.last_updated_height = 12 := by
  have hown := erc721_ownership wordEnv silentNode nftDb 9 [11, 12] (by decide) (by decide)
  have hlast : ((transfersOf (nft, "1") (activitiesOf wordEnv nftDb 9 12)).getLast?).map
      (fun a => (a.toAddress, a.height)) = some (bob, 12) := by decide +kernel
  have hok : (handleErc721Activities wordEnv silentNode 9 [11, 12] nftDb).isOk = true := by
    decide +kernel
  cases hrun : handleErc721Activities wordEnv silentNode 9 [11, 12] nftDb with
  | error err =>
    rw [hrun] at hok
    cases hok
  | ok db' =>
    obtain ⟨a, ha, hpair⟩ := Option.map_eq_some_iff.mp hlast
    obtain ⟨hto, hheight⟩ := Prod.mk.inj hpair
    obtain ⟨row, hrow, howner, hrowHeight, -⟩ := (hown.2 db' hrun).1 (nft, "1") a ha
    exact ⟨db', rfl, row, hrow, howner.trans hto, hrowHeight.trans hheight⟩

end Erascope.Erc721
