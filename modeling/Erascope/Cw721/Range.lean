import Mathlib.Tactic
import Erascope.Cw721.Replay

/-!
# A range of CW721 events

What `handleJob` does to the tables for one range, in terms of the rows of the tokens before it.
The dictionary of a range has the tokens that its events ask for and those that it mints
(`inDictionary`); an activity is linked exactly when its token is in there.

Results:
1. `updateRange_ok`: when the dictionary has the rows that the events touch, the range does what a
   replay over the whole table does.
2. `updateRange_links`: which activities of a completed range are linked, in any case.
-/

namespace Erascope.Cw721

open ReplayLemmas

/-! ## 1. The dictionary -/

/-- Whether a token is minted by an event of a tracked contract. -/
def minted (tracked : String → Bool) (msgs : List SmartContractEvent) (k : String × String) : Bool :=
  msgs.any fun msg => tracked msg.contractAddress && msg.action = .mint && msg.key = k

/-- Whether the events ask the table for a token. -/
def loaded (msgs : List SmartContractEvent) (k : String × String) : Bool := msgs.any (·.loads k)

/-- The rows of the dictionary before the first event. -/
def loadedRows (rows : Rows) (msgs : List SmartContractEvent) : Rows := fun k =>
  if loaded msgs k then rows k else none

/-- Whether the dictionary has a token after the last event. -/
def inDictionary (tracked : String → Bool) (rows : Rows) (msgs : List SmartContractEvent)
    (k : String × String) : Bool :=
  (loadedRows rows msgs k).isSome || minted tracked msgs k

/-- An activity as it is stored, linked to its token if that is known. -/
def store (known : String × String → Bool) (act : CW721Activity) : CW721Activity :=
  { act with
    token_id := none
    cw721_token :=
      if known (act.contract, act.token_id.getD "undefined") then
        some (act.contract, act.token_id.getD "undefined")
      else none }

/-- The part of `handleJob` after the contracts: the handler and the writing. -/
def updateRange (db : Db) (msgs : List SmartContractEvent) : Except Cw721Error Db := do
  let h ← handleCw721MsgExec db msgs
  updateTokenAndActivities db (loadTokens db msgs) h

namespace RangeLemmas

variable {tracked : String → Bool} {rows : Rows} {msgs : List SmartContractEvent}
  {k : String × String} {db db' : Db}

theorem minted_iff : minted tracked msgs k = true ↔ ∃ msg ∈ msgs,
    tracked msg.contractAddress = true ∧ msg.action = .mint ∧ msg.key = k := by
  simp [minted, and_assoc]

theorem minted_append (msgs msgs' : List SmartContractEvent) :
    minted tracked (msgs ++ msgs') k = (minted tracked msgs k || minted tracked msgs' k) :=
  List.any_append

theorem isSome_replayRows_minted : (replayRows tracked rows msgs k).isSome =
    ((rows k).isSome || minted tracked msgs k) := by
  rw [Bool.eq_iff_iff, Bool.or_eq_true, isSome_replayRows, minted_iff]

theorem get?_loadTokens (db : Db) (msgs : List SmartContractEvent) :
    (loadTokens db msgs).get? = loadedRows db.cw721_token.get? msgs := by
  funext k
  rw [loadTokens, Table.get?_filter, loadedRows]
  cases hget : db.cw721_token.get? k with
  | none => simp
  | some token =>
    have hkey : token.key = k := Table.key_of_get? hget
    rw [Option.filter_some, hkey]
    rfl

theorem isSome_loadedRows :
    (loadedRows rows msgs k).isSome = (loaded msgs k && (rows k).isSome) := by
  unfold loadedRows
  cases hloaded : loaded msgs k with
  | false => rfl
  | true =>
    rw [if_pos rfl]
    rfl

theorem contract_activityFor (row : Option CW721Token) (msg : SmartContractEvent) :
    (activityFor row msg).contract = msg.contractAddress ∧
      (activityFor row msg).token_id = msg.tokenId := by
  unfold activityFor
  split <;> exact ⟨rfl, rfl⟩

theorem link_store_activityFor (known : String × String → Bool) (row : Option CW721Token)
    (msg : SmartContractEvent) : (store known (activityFor row msg)).cw721_token =
      if known msg.key then some msg.key else none := by
  obtain ⟨hcontract, htoken⟩ := contract_activityFor row msg
  simp only [store, hcontract, htoken]
  rfl

/-- The links of stored activities. -/
theorem map_link_replayActs (known : String × String → Bool) :
    ((replayActs tracked rows msgs).map (store known)).map (·.cw721_token) =
      (msgs.filter fun msg => tracked msg.contractAddress).map fun msg =>
        if known msg.key then some msg.key else none := by
  rw [List.map_map]
  exact map_replayActs (link_store_activityFor known)

/-- The contract and the height of an activity, which are those of its event. -/
theorem map_header_replayActs (known : String × String → Bool) :
    ((replayActs tracked rows msgs).map (store known)).map (fun act => (act.contract, act.height)) =
      (msgs.filter fun msg => tracked msg.contractAddress).map fun msg =>
        (msg.contractAddress, msg.height) := by
  rw [List.map_map]
  refine map_replayActs fun row msg => ?_
  unfold activityFor
  split <;> rfl

theorem store_congr {known known' : String × String → Bool}
    (h : ∀ msg ∈ msgs, tracked msg.contractAddress = true → known msg.key = known' msg.key) :
    (replayActs tracked rows msgs).map (store known) =
      (replayActs tracked rows msgs).map (store known') := by
  induction msgs generalizing rows with
  | nil => rfl
  | cons msg msgs ih =>
    rw [replayActs, List.map_append, List.map_append,
      ih fun m hm => h m (List.mem_cons_of_mem msg hm)]
    congr 1
    split
    · next htracked =>
      obtain ⟨hcontract, htoken⟩ := contract_activityFor (rows msg.key) msg
      have hknown : known (msg.contractAddress, msg.tokenId.getD "undefined") =
          known' (msg.contractAddress, msg.tokenId.getD "undefined") :=
        h msg List.mem_cons_self htracked
      simp only [List.map_singleton, store, hcontract, htoken, hknown]
    · rfl

theorem store_linkTo {tokens : Tokens} {known : String × String → Bool}
    (hknown : ∀ k, (tokens.get? k).isSome = known k) (act : CW721Activity) :
    { linkTo tokens act with token_id := none } = store known act := by
  have hlink : (tokens.get? (act.contract, act.token_id.getD "undefined")).map (·.key) =
      if known (act.contract, act.token_id.getD "undefined") then
        some (act.contract, act.token_id.getD "undefined")
      else none := by
    rw [← hknown]
    cases hget : tokens.get? (act.contract, act.token_id.getD "undefined") with
    | none => rfl
    | some token => exact congrArg some (Table.key_of_get? hget)
  simp only [linkTo, store, hlink]

/-- A token of the dictionary has in it the row that it has in the table. -/
theorem loadedRows_of_inDictionary
    (hagree : ∀ msg ∈ msgs, tracked msg.contractAddress = true → msg.touches = true →
      loadedRows rows msgs msg.key = rows msg.key)
    (hk : inDictionary tracked rows msgs k = true) : loadedRows rows msgs k = rows k := by
  rw [inDictionary, Bool.or_eq_true] at hk
  rcases hk with hk | hk
  · unfold loadedRows at hk ⊢
    split at hk
    · next hloaded => rw [if_pos hloaded]
    · cases hk
  · obtain ⟨msg, hmem, hmsg, haction, rfl⟩ := minted_iff.mp hk
    exact hagree msg hmem hmsg (by simp [SmartContractEvent.touches, haction])

/-- A replay over the dictionary, written over the table, is a replay over the table. -/
theorem replayRows_loadedRows
    (hagree : ∀ msg ∈ msgs, tracked msg.contractAddress = true → msg.touches = true →
      loadedRows rows msgs msg.key = rows msg.key) :
    (replayRows tracked (loadedRows rows msgs) msgs k).or (rows k) =
      replayRows tracked rows msgs k := by
  by_cases hk : loadedRows rows msgs k = rows k
  · rw [replayRows_apply hk]
    cases hget : replayRows tracked rows msgs k with
    | some token => rfl
    | none =>
      have hnone : (replayRows tracked rows msgs k).isSome = false := by rw [hget]; rfl
      rw [isSome_replayRows_minted, Bool.or_eq_false_iff, Option.isSome_eq_false_iff,
        Option.isNone_iff_eq_none] at hnone
      rw [hnone.1, Option.or_none]
  · -- a token that differs from its row is not in the dictionary, and no event touches it
    have hnone : replayRows tracked (loadedRows rows msgs) msgs k = none := by
      rw [← Option.not_isSome_iff_eq_none, isSome_replayRows_minted]
      exact fun hin => hk (loadedRows_of_inDictionary hagree hin)
    rw [hnone, Option.none_or]
    refine (replayRows_of_not_touched fun msg hmem hmsg htouches hkey => ?_).symm
    subst hkey
    exact hk (hagree msg hmem hmsg htouches)

end RangeLemmas

open RangeLemmas

/-! ## 2. Writing a range -/

section
variable {db : Db} {msgs : List SmartContractEvent} {tracked : String → Bool}
  (htracked : ∀ msg ∈ msgs, db.isTracked msg.contractAddress = tracked msg.contractAddress)

include htracked

/-- The handler of a range: the rows and the activities of the events over the loaded tokens, and
which tokens its dictionary has. -/
theorem handleCw721MsgExec_cases (hnamed : MintsNamed msgs) :
    (BurnsKnown tracked (loadedRows db.cw721_token.get? msgs) msgs ∧
      ∃ h, handleCw721MsgExec db msgs = .ok h ∧
        h.tokensKeyBy.get? = replayRows tracked (loadedRows db.cw721_token.get? msgs) msgs ∧
        h.cw721Activities = replayActs tracked (loadedRows db.cw721_token.get? msgs) msgs ∧
        ∀ k, (h.tokensKeyBy.get? k).isSome = inDictionary tracked db.cw721_token.get? msgs k) ∨
    (¬ BurnsKnown tracked (loadedRows db.cw721_token.get? msgs) msgs ∧
      handleCw721MsgExec db msgs = .error .tokenUndefined) := by
  rw [handleCw721MsgExec, process_congr_tracked htracked, ← get?_loadTokens]
  rcases process_replay hnamed ⟨loadTokens db msgs, []⟩ with
    ⟨hburns, h, hprocess, htokens, hacts⟩ | ⟨hburns, herror⟩
  · refine .inl ⟨hburns, h, hprocess, htokens, by rw [hacts, List.nil_append], fun k => ?_⟩
    rw [htokens, isSome_replayRows_minted, get?_loadTokens]
    rfl
  · exact .inr ⟨hburns, herror⟩

/-- A completed range appends its activities, linked by the dictionary. -/
theorem updateRange_links (hnamed : MintsNamed msgs) {db' : Db} (hok : updateRange db msgs = .ok db') :
    db'.cw721_activity = db.cw721_activity ++
      (replayActs tracked (loadedRows db.cw721_token.get? msgs) msgs).map
        (store (inDictionary tracked db.cw721_token.get? msgs)) ∧
    db'.cw721_contract = db.cw721_contract ∧
    (∀ k, (db'.cw721_token.get? k).isSome =
      ((db.cw721_token.get? k).isSome || minted tracked msgs k)) ∧
    (∀ k, minted tracked msgs k = true → loaded msgs k = false → db.cw721_token.get? k = none) ∧
    (db'.cw721_activity.map (·.smart_contract_event_id)).Nodup := by
  obtain ⟨h, hexec, hupdate⟩ := bind_ok hok
  rcases handleCw721MsgExec_cases htracked hnamed with
    ⟨-, h', hexec', -, hacts, hknown⟩ | ⟨-, herror⟩
  · obtain rfl : h' = h := Except.ok.inj (hexec'.symm.trans hexec)
    unfold updateTokenAndActivities at hupdate
    split at hupdate
    · cases hupdate
    · next hunique =>
      unfold insertActivities at hupdate
      simp only at hupdate
      split at hupdate
      · next hnodup =>
        cases hupdate
        refine ⟨?_, rfl, fun k => ?_, fun k hminted hloaded => ?_, hnodup⟩
        · simp only [List.map_map, hacts]
          congr 1
          exact List.map_congr_left fun act _ => store_linkTo hknown act
        · show ((db.cw721_token.upsertAll h'.tokensKeyBy.rows).get? k).isSome = _
          rw [Table.get?_upsertAll, Option.isSome_or, hknown, inDictionary, isSome_loadedRows]
          cases (db.cw721_token.get? k).isSome <;> simp
        · -- a minted token that was not loaded is inserted as a new row
          by_contra hne
          have hin : (h'.tokensKeyBy.get? k).isSome = true := by
            rw [hknown, inDictionary, hminted, Bool.or_true]
          obtain ⟨token, htoken⟩ := Option.isSome_iff_exists.mp hin
          have hkey : token.key = k := Table.key_of_get? htoken
          refine hunique (List.any_eq_true.mpr ⟨token, Table.mem_of_get? htoken, ?_⟩)
          rw [hkey, get?_loadTokens, loadedRows, hloaded]
          simpa [Option.isSome_iff_ne_none] using hne
      · cases hupdate
  · rw [herror] at hexec
    cases hexec

omit htracked in
/-- A range without events. -/
theorem updateRange_nil (hids : (db.cw721_activity.map (·.smart_contract_event_id)).Nodup) :
    updateRange db [] = .ok db := by
  have hnone : (loadTokens db []).rows = [] := List.filter_eq_nil_iff.mpr fun _ _ => by simp
  show updateTokenAndActivities db (loadTokens db []) ⟨loadTokens db [], []⟩ = .ok db
  rw [updateTokenAndActivities, hnone]
  simp [insertActivities, Table.upsertAll, hids]

/-- A range whose dictionary has the rows that its events touch does what a replay over the table
does. -/
theorem updateRange_ok (hnamed : MintsNamed msgs)
    (hburns : BurnsKnown tracked db.cw721_token.get? msgs)
    (hagree : ∀ msg ∈ msgs, tracked msg.contractAddress = true → msg.touches = true →
      loadedRows db.cw721_token.get? msgs msg.key = db.cw721_token.get? msg.key)
    (hids : (db.cw721_activity.map (·.smart_contract_event_id) ++
      (msgs.filter fun msg => tracked msg.contractAddress).map
        (·.smart_contract_event_id)).Nodup) :
    ∃ db', updateRange db msgs = .ok db' ∧
      (∀ k, db'.cw721_token.get? k = replayRows tracked db.cw721_token.get? msgs k) ∧
      db'.cw721_contract = db.cw721_contract ∧
      db'.cw721_activity = db.cw721_activity ++
        (replayActs tracked db.cw721_token.get? msgs).map
          (store (inDictionary tracked db.cw721_token.get? msgs)) := by
  set rows := db.cw721_token.get? with hrows
  obtain ⟨-, hsameActs, hsameBurns⟩ := @replay_congr tracked (loadedRows rows msgs) rows msgs
    (fun k => loadedRows rows msgs k = rows k) (fun _ hk => hk) hagree
  rcases handleCw721MsgExec_cases htracked hnamed with
    ⟨-, h, hexec, htokens, hacts, hknown⟩ | ⟨hnot, -⟩
  · -- a token of the dictionary that was not loaded has no row yet
    have hunique : ¬ (h.tokensKeyBy.rows.any fun token =>
        ((loadTokens db msgs).get? token.key).isNone && (rows token.key).isSome) = true := by
      intro hany
      obtain ⟨token, htoken, hboth⟩ := List.any_eq_true.mp hany
      have hget : h.tokensKeyBy.get? token.key = some token :=
        Table.get?_eq_some_iff.mpr ⟨htoken, rfl⟩
      have hin : inDictionary tracked rows msgs token.key = true := by
        rw [← hknown, hget]
        rfl
      rw [get?_loadTokens, ← hrows, loadedRows_of_inDictionary hagree hin] at hboth
      cases hrow : rows token.key <;> simp [hrow] at hboth
    have hnodup : ((db.cw721_activity ++ (h.cw721Activities.map (linkTo h.tokensKeyBy)).map
        fun act : CW721Activity => { act with token_id := none }).map
        fun act : CW721Activity => act.smart_contract_event_id).Nodup := by
      rw [List.map_append, List.map_map, List.map_map, hacts]
      -- neither the link nor the dropped id changes the key
      show (_ ++ (replayActs tracked (loadedRows rows msgs) msgs).map
        fun act : CW721Activity => act.smart_contract_event_id).Nodup
      rw [map_id_replayActs]
      exact hids
    refine ⟨{ db with
      cw721_token := db.cw721_token.upsertAll h.tokensKeyBy.rows
      cw721_activity := db.cw721_activity ++ (h.cw721Activities.map (linkTo h.tokensKeyBy)).map
        fun act : CW721Activity => { act with token_id := none } }, ?_, fun k => ?_, rfl, ?_⟩
    · rw [updateRange, hexec, ok_bind, updateTokenAndActivities, if_neg hunique, insertActivities,
        if_pos hnodup]
    · show (db.cw721_token.upsertAll h.tokensKeyBy.rows).get? k = _
      rw [Table.get?_upsertAll, htokens]
      exact replayRows_loadedRows hagree
    · simp only [List.map_map, hacts, ← hrows, hsameActs]
      congr 1
      exact List.map_congr_left fun act _ => store_linkTo hknown act
  · exact absurd (hsameBurns.mpr hburns) hnot

end

end Erascope.Cw721
