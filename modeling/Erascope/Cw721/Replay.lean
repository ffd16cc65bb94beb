import Mathlib.Tactic
import Erascope.Cw721.Handler

/-!
# Replaying CW721 events

What `process` does, one token at a time: `replayRows` follows the row of every token through the
events, `replayActs` lists the activities. A run ends early only at a burn of a token that is not
in the dictionary (`process_replay`), and the tokens that no event touches do not matter
(`replay_congr`).
-/

namespace Erascope.Cw721

/-! ## 1. One event -/

/-- The events that change a token. -/
def SmartContractEvent.touches (msg : SmartContractEvent) : Bool :=
  match msg.action with
  | .mint | .transferNft | .sendNft | .burn => true
  | .instantiate | .other _ => false

/-- The row of the token of an event, after the event. -/
def tokenAfter (row : Option CW721Token) (msg : SmartContractEvent) : Option CW721Token :=
  match msg.action with
  | .mint =>
    if row.all (·.last_updated_height ≤ msg.height) then
      some { contract := msg.contractAddress
             token_id := msg.tokenId.getD "undefined"
             owner := getAttributeFrom msg.attributes .owner
             last_updated_height := msg.height
             burned := false }
    else row
  | .transferNft | .sendNft => row.map fun token =>
      if token.last_updated_height ≤ msg.height then
        { token with
          owner := getAttributeFrom msg.attributes .recipient
          last_updated_height := msg.height }
      else token
  | .burn => row.map fun token =>
      if token.last_updated_height ≤ msg.height then
        { token with burned := true, last_updated_height := msg.height }
      else token
  | .instantiate | .other _ => row

/-- The activity of an event, for the row of its token. -/
def activityFor (row : Option CW721Token) (msg : SmartContractEvent) : CW721Activity :=
  match msg.action with
  | .mint => activityOf msg (getAttributeFrom msg.attributes .minter) none
      (getAttributeFrom msg.attributes .owner)
  | .transferNft | .sendNft => activityOf msg (getAttributeFrom msg.attributes .sender)
      (row.bind (·.owner)) (getAttributeFrom msg.attributes .recipient)
  | .burn => activityOf msg (getAttributeFrom msg.attributes .sender) (row.bind (·.owner)) none
  | .instantiate | .other _ => activityOf msg (getAttributeFrom msg.attributes .sender) none none

/-- The rows of all tokens, by key. -/
abbrev Rows := String × String → Option CW721Token

/-- The rows after an event. -/
def stepRows (tracked : String → Bool) (rows : Rows) (msg : SmartContractEvent) : Rows :=
  if tracked msg.contractAddress then
    Function.update rows msg.key (tokenAfter (rows msg.key) msg)
  else rows

/-- The rows after some events. -/
def replayRows (tracked : String → Bool) (rows : Rows) (msgs : List SmartContractEvent) : Rows :=
  msgs.foldl (stepRows tracked) rows

/-- The activities of some events. -/
def replayActs (tracked : String → Bool) : Rows → List SmartContractEvent → List CW721Activity
  | _, [] => []
  | rows, msg :: msgs =>
    (if tracked msg.contractAddress then [activityFor (rows msg.key) msg] else []) ++
      replayActs tracked (stepRows tracked rows msg) msgs

/-- Every burn finds its token. -/
def BurnsKnown (tracked : String → Bool) : Rows → List SmartContractEvent → Prop
  | _, [] => True
  | rows, msg :: msgs =>
    (tracked msg.contractAddress = true → msg.action = .burn → (rows msg.key).isSome = true) ∧
      BurnsKnown tracked (stepRows tracked rows msg) msgs

instance BurnsKnown.decidable (tracked : String → Bool) :
    ∀ rows msgs, Decidable (BurnsKnown tracked rows msgs)
  | _, [] => inferInstanceAs (Decidable True)
  | rows, msg :: msgs =>
    have := BurnsKnown.decidable tracked (stepRows tracked rows msg) msgs
    inferInstanceAs (Decidable (_ ∧ _))

/-- Every mint names its token. -/
def MintsNamed (msgs : List SmartContractEvent) : Prop :=
  ∀ msg ∈ msgs, msg.action = .mint → msg.tokenId ≠ none

instance (msgs : List SmartContractEvent) : Decidable (MintsNamed msgs) :=
  inferInstanceAs (Decidable (∀ msg ∈ msgs, _))

namespace ReplayLemmas

variable {tracked : String → Bool} {rows rows' : Rows} {msg : SmartContractEvent}
  {msgs : List SmartContractEvent} {h : Handler}

theorem tokenAfter_of_not_touches (h : msg.touches = false) (row : Option CW721Token) :
    tokenAfter row msg = row := by
  cases haction : msg.action <;> simp [SmartContractEvent.touches, haction] at h <;>
    simp [tokenAfter, haction]

theorem activityFor_of_not_touches (h : msg.touches = false) (row : Option CW721Token) :
    activityFor row msg = activityOf msg (getAttributeFrom msg.attributes .sender) none none := by
  cases haction : msg.action <;> simp [SmartContractEvent.touches, haction] at h <;>
    simp [activityFor, haction]

/-- Writing a row with the key of a token. -/
theorem get?_upsert_fun (tokens : Tokens) {token : CW721Token} {k : String × String}
    (hkey : token.key = k) : (tokens.upsert token).get? = Function.update tokens.get? k (some token) := by
  funext j
  rw [Table.get?_upsert, hkey]
  by_cases hj : j = k
  · rw [if_pos hj.symm, hj, Function.update_self]
  · rw [if_neg (Ne.symm hj), Function.update_of_ne hj]

theorem update_get?_self (tokens : Tokens) (k : String × String) :
    tokens.get? = Function.update tokens.get? k (tokens.get? k) := (Function.update_eq_self k _).symm

/-- What an event does to the fields of the handler. -/
structure Handles (h h' : Handler) (msg : SmartContractEvent) : Prop where
  tokens : h'.tokensKeyBy.get? = Function.update h.tokensKeyBy.get? msg.key
    (tokenAfter (h.tokensKeyBy.get? msg.key) msg)
  activities : h'.cw721Activities =
    h.cw721Activities ++ [activityFor (h.tokensKeyBy.get? msg.key) msg]

theorem handlerCw721Mint_handles (haction : msg.action = .mint) (hnamed : msg.tokenId ≠ none) :
    ∃ h', handlerCw721Mint h msg = .ok h' ∧ Handles h h' msg := by
  obtain ⟨tokenId, htokenId⟩ := Option.ne_none_iff_exists'.mp hnamed
  have hact : activityFor (h.tokensKeyBy.get? msg.key) msg =
      activityOf msg (getAttributeFrom msg.attributes .minter) none
        (getAttributeFrom msg.attributes .owner) := by
    simp only [activityFor, haction]
  unfold handlerCw721Mint
  simp only [htokenId]
  split
  · next hguard =>
    refine ⟨_, rfl, ?_, by rw [hact]⟩
    have hafter : tokenAfter (h.tokensKeyBy.get? msg.key) msg = some
        { contract := msg.contractAddress
          token_id := tokenId
          owner := getAttributeFrom msg.attributes .owner
          last_updated_height := msg.height
          burned := false } := by
      simp [tokenAfter, haction, hguard, htokenId]
    rw [hafter]
    exact get?_upsert_fun _ (by simp [CW721Token.key, SmartContractEvent.key, htokenId])
  · next hguard =>
    refine ⟨_, rfl, ?_, by rw [hact]⟩
    have hafter : tokenAfter (h.tokensKeyBy.get? msg.key) msg = h.tokensKeyBy.get? msg.key := by
      simp [tokenAfter, haction, hguard]
    rw [hafter]
    exact update_get?_self _ _

theorem handlerCw721Transfer_handles (haction : msg.action = .transferNft ∨ msg.action = .sendNft) :
    Handles h (handlerCw721Transfer h msg) msg := by
  have hact : activityFor (h.tokensKeyBy.get? msg.key) msg =
      activityOf msg (getAttributeFrom msg.attributes .sender)
        ((h.tokensKeyBy.get? msg.key).bind (·.owner))
        (getAttributeFrom msg.attributes .recipient) := by
    rcases haction with haction | haction <;> simp only [activityFor, haction]
  have hafter : tokenAfter (h.tokensKeyBy.get? msg.key) msg =
      (h.tokensKeyBy.get? msg.key).map fun token =>
        if token.last_updated_height ≤ msg.height then
          { token with
            owner := getAttributeFrom msg.attributes .recipient
            last_updated_height := msg.height }
        else token := by
    rcases haction with haction | haction <;> simp only [tokenAfter, haction]
  cases htoken : h.tokensKeyBy.get? msg.key with
  | none =>
    rw [htoken] at hact hafter
    have hsame : handlerCw721Transfer h msg =
        { h with cw721Activities := h.cw721Activities ++ [activityFor none msg] } := by
      simp only [handlerCw721Transfer, htoken, hact]
    rw [hsame]
    refine ⟨?_, by rw [htoken]⟩
    rw [htoken, hafter, Option.map_none, ← htoken]
    exact update_get?_self _ _
  | some token =>
    rw [htoken] at hact hafter
    have hkey : token.key = msg.key := Table.key_of_get? htoken
    by_cases hguard : token.last_updated_height ≤ msg.height
    · have hset : handlerCw721Transfer h msg =
          { tokensKeyBy := h.tokensKeyBy.upsert { token with
              owner := getAttributeFrom msg.attributes .recipient
              last_updated_height := msg.height }
            cw721Activities := h.cw721Activities ++ [activityFor (some token) msg] } := by
        simp only [handlerCw721Transfer, htoken, hact, if_pos hguard]
      rw [hset]
      refine ⟨?_, by rw [htoken]⟩
      rw [htoken, hafter, Option.map_some, if_pos hguard]
      exact get?_upsert_fun _ hkey
    · have hsame : handlerCw721Transfer h msg =
          { h with cw721Activities := h.cw721Activities ++ [activityFor (some token) msg] } := by
        simp only [handlerCw721Transfer, htoken, hact, if_neg hguard]
      rw [hsame]
      refine ⟨?_, by rw [htoken]⟩
      rw [htoken, hafter, Option.map_some, if_neg hguard, ← htoken]
      exact update_get?_self _ _

theorem handlerCw721Burn_handles (haction : msg.action = .burn)
    (hknown : (h.tokensKeyBy.get? msg.key).isSome = true) :
    ∃ h', handlerCw721Burn h msg = .ok h' ∧ Handles h h' msg := by
  obtain ⟨token, htoken⟩ := Option.isSome_iff_exists.mp hknown
  have hact : activityFor (some token) msg =
      activityOf msg (getAttributeFrom msg.attributes .sender) token.owner none := by
    simp only [activityFor, haction, Option.bind_some]
  unfold handlerCw721Burn
  rw [htoken]
  simp only
  split
  · next hguard =>
    refine ⟨_, rfl, ?_, by rw [htoken, hact]⟩
    rw [htoken]
    simp only [tokenAfter, haction, Option.map_some, if_pos hguard]
    have hkey : token.key = msg.key := Table.key_of_get? htoken
    exact get?_upsert_fun _ hkey
  · next hguard =>
    refine ⟨_, rfl, ?_, by rw [htoken, hact]⟩
    have hself := update_get?_self h.tokensKeyBy msg.key
    rw [htoken] at hself ⊢
    simp only [tokenAfter, haction, Option.map_some, if_neg hguard]
    exact hself

theorem handleCw721Others_handles (htouches : msg.touches = false) :
    Handles h (handleCw721Others h msg) msg := by
  constructor
  · rw [tokenAfter_of_not_touches htouches]
    exact update_get?_self _ _
  · rw [activityFor_of_not_touches htouches]
    rfl

/-- One event of a tracked contract. -/
theorem processMsg_handles (htracked : tracked msg.contractAddress = true)
    (hnamed : msg.action = .mint → msg.tokenId ≠ none)
    (hknown : msg.action = .burn → (h.tokensKeyBy.get? msg.key).isSome = true) :
    ∃ h', processMsg tracked h msg = .ok h' ∧ Handles h h' msg := by
  rw [processMsg, if_pos htracked]
  cases haction : msg.action with
  | mint => exact handlerCw721Mint_handles haction (hnamed haction)
  | transferNft => exact ⟨_, rfl, handlerCw721Transfer_handles (.inl haction)⟩
  | sendNft => exact ⟨_, rfl, handlerCw721Transfer_handles (.inr haction)⟩
  | burn => exact handlerCw721Burn_handles haction (hknown haction)
  | instantiate =>
    exact ⟨_, rfl, handleCw721Others_handles (by simp [SmartContractEvent.touches, haction])⟩
  | other action =>
    exact ⟨_, rfl, handleCw721Others_handles (by simp [SmartContractEvent.touches, haction])⟩

theorem processMsg_error (htracked : tracked msg.contractAddress = true)
    (haction : msg.action = .burn) (hunknown : h.tokensKeyBy.get? msg.key = none) :
    processMsg tracked h msg = .error .tokenUndefined := by
  simp [processMsg, htracked, haction, handlerCw721Burn, hunknown]

end ReplayLemmas

open ReplayLemmas

/-! ## 2. A list of events -/

/-- A run of the handler: the rows and the activities of the events if every burn finds its token,
and an error otherwise. -/
theorem process_replay {tracked : String → Bool} {msgs : List SmartContractEvent}
    (hnamed : MintsNamed msgs) (h : Handler) :
    (BurnsKnown tracked h.tokensKeyBy.get? msgs ∧
      ∃ h', process tracked msgs h = .ok h' ∧
        h'.tokensKeyBy.get? = replayRows tracked h.tokensKeyBy.get? msgs ∧
        h'.cw721Activities = h.cw721Activities ++ replayActs tracked h.tokensKeyBy.get? msgs) ∨
    (¬ BurnsKnown tracked h.tokensKeyBy.get? msgs ∧
      process tracked msgs h = .error .tokenUndefined) := by
  induction msgs generalizing h with
  | nil => exact .inl ⟨trivial, h, rfl, rfl, (List.append_nil _).symm⟩
  | cons msg msgs ih =>
    have hrest : MintsNamed msgs := fun m hm => hnamed m (List.mem_cons_of_mem msg hm)
    rw [process, List.foldlM_cons]
    cases htracked : tracked msg.contractAddress with
    | false =>
      have hskip : processMsg tracked h msg = .ok h := by simp [processMsg, htracked]
      have hstep : stepRows tracked h.tokensKeyBy.get? msg = h.tokensKeyBy.get? := by
        simp [stepRows, htracked]
      rw [hskip, ok_bind]
      simp only [BurnsKnown, htracked, Bool.false_eq_true, false_imp_iff, true_and, hstep,
        replayRows, List.foldl_cons, replayActs, if_false, List.nil_append]
      exact ih hrest h
    | true =>
      have hstep : stepRows tracked h.tokensKeyBy.get? msg =
          Function.update h.tokensKeyBy.get? msg.key
            (tokenAfter (h.tokensKeyBy.get? msg.key) msg) := by simp [stepRows, htracked]
      by_cases hknown : msg.action = .burn → (h.tokensKeyBy.get? msg.key).isSome = true
      · obtain ⟨h', hok, hhandles⟩ :=
          @processMsg_handles tracked msg h htracked (hnamed msg List.mem_cons_self) hknown
        rw [hok, ok_bind]
        simp only [BurnsKnown, htracked, true_imp_iff, hstep, ← hhandles.tokens, replayRows,
          List.foldl_cons, replayActs, if_true]
        rcases ih hrest h' with ⟨hburns, h'', hok', htokens, hacts⟩ | ⟨hburns, herror⟩
        · refine .inl ⟨⟨hknown, hburns⟩, h'', hok', htokens, ?_⟩
          rw [hacts, hhandles.activities, List.append_assoc]
        · exact .inr ⟨fun hall => hburns hall.2, herror⟩
      · obtain ⟨haction, hnone⟩ := Classical.not_imp.mp hknown
        rw [processMsg_error htracked haction (by simpa using hnone)]
        refine .inr ⟨fun hall => hknown (hall.1 htracked), rfl⟩

namespace ReplayLemmas

variable {tracked tracked' : String → Bool} {rows rows' : Rows} {msg : SmartContractEvent}
  {msgs msgs' : List SmartContractEvent} {k : String × String}

theorem replayRows_append : replayRows tracked rows (msgs ++ msgs') =
    replayRows tracked (replayRows tracked rows msgs) msgs' := List.foldl_append ..

theorem replayActs_append : replayActs tracked rows (msgs ++ msgs') =
    replayActs tracked rows msgs ++ replayActs tracked (replayRows tracked rows msgs) msgs' := by
  induction msgs generalizing rows with
  | nil => rfl
  | cons msg msgs ih =>
    simp only [List.cons_append, replayActs, ih, List.append_assoc]
    rfl

theorem burnsKnown_append : BurnsKnown tracked rows (msgs ++ msgs') ↔
    BurnsKnown tracked rows msgs ∧ BurnsKnown tracked (replayRows tracked rows msgs) msgs' := by
  induction msgs generalizing rows with
  | nil => simp [BurnsKnown, replayRows]
  | cons msg msgs ih =>
    simp only [List.cons_append, BurnsKnown, ih, and_assoc]
    rfl

/-- Only the contracts of the events matter. -/
theorem process_congr_tracked (h : ∀ msg ∈ msgs, tracked msg.contractAddress = tracked' msg.contractAddress)
    (s : Handler) : process tracked msgs s = process tracked' msgs s := by
  unfold process
  induction msgs generalizing s with
  | nil => rfl
  | cons msg msgs ih =>
    have hmsg : processMsg tracked s msg = processMsg tracked' s msg := by
      rw [processMsg, processMsg, h msg List.mem_cons_self]
    rw [List.foldlM_cons, List.foldlM_cons, hmsg]
    exact bind_congr fun s' => ih (fun m hm => h m (List.mem_cons_of_mem msg hm)) s'

/-- A token that the events do not touch keeps its row. -/
theorem replayRows_of_not_touched
    (h : ∀ msg ∈ msgs, tracked msg.contractAddress = true → msg.touches = true → msg.key ≠ k) :
    replayRows tracked rows msgs k = rows k := by
  induction msgs generalizing rows with
  | nil => rfl
  | cons msg msgs ih =>
    rw [replayRows, List.foldl_cons, ← replayRows,
      ih fun m hm => h m (List.mem_cons_of_mem msg hm), stepRows]
    split
    · next htracked =>
      cases htouches : msg.touches with
      | true => rw [Function.update_of_ne (h msg List.mem_cons_self htracked htouches).symm]
      | false => rw [tokenAfter_of_not_touches htouches, Function.update_eq_self]
    · rfl

/-- An event moves a token from the row it had, whatever the other rows are. -/
theorem stepRows_apply (h : rows k = rows' k) :
    stepRows tracked rows msg k = stepRows tracked rows' msg k := by
  unfold stepRows
  split
  · by_cases hkey : k = msg.key
    · subst hkey
      rw [Function.update_self, Function.update_self, h]
    · rw [Function.update_of_ne hkey, Function.update_of_ne hkey, h]
  · exact h

theorem replayRows_apply (h : rows k = rows' k) :
    replayRows tracked rows msgs k = replayRows tracked rows' msgs k := by
  induction msgs generalizing rows rows' with
  | nil => exact h
  | cons msg msgs ih => exact ih (stepRows_apply h)

/-- The rows of the tokens that no event touches do not matter. -/
theorem replay_congr {S : String × String → Prop} (hagree : ∀ k, S k → rows k = rows' k)
    (htouch : ∀ msg ∈ msgs, tracked msg.contractAddress = true → msg.touches = true → S msg.key) :
    (∀ k, S k → replayRows tracked rows msgs k = replayRows tracked rows' msgs k) ∧
      replayActs tracked rows msgs = replayActs tracked rows' msgs ∧
      (BurnsKnown tracked rows msgs ↔ BurnsKnown tracked rows' msgs) := by
  refine ⟨fun k hk => replayRows_apply (hagree k hk), ?_⟩
  induction msgs generalizing rows rows' with
  | nil => exact ⟨rfl, Iff.rfl⟩
  | cons msg msgs ih =>
    obtain ⟨hacts, hburns⟩ := ih (fun k hk => stepRows_apply (hagree k hk))
      fun m hm => htouch m (List.mem_cons_of_mem msg hm)
    refine ⟨?_, ?_⟩
    · rw [replayActs, replayActs, hacts]
      congr 1
      split
      · next htracked =>
        cases htouches : msg.touches with
        | true => rw [hagree _ (htouch msg List.mem_cons_self htracked htouches)]
        | false => rw [activityFor_of_not_touches htouches, activityFor_of_not_touches htouches]
      · rfl
    · rw [BurnsKnown, BurnsKnown, hburns]
      refine and_congr_left fun _ => forall_congr' fun htracked => forall_congr' fun haction => ?_
      have htouches : msg.touches = true := by simp [SmartContractEvent.touches, haction]
      rw [hagree _ (htouch msg List.mem_cons_self htracked htouches)]

theorem isSome_tokenAfter {row : Option CW721Token} :
    (tokenAfter row msg).isSome = true ↔ row.isSome = true ∨ msg.action = .mint := by
  cases haction : msg.action with
  | mint =>
    cases row with
    | none => simp [tokenAfter, haction]
    | some token =>
      simp only [tokenAfter, haction]
      split <;> simp
  | transferNft => simp [tokenAfter, haction]
  | sendNft => simp [tokenAfter, haction]
  | burn => simp [tokenAfter, haction]
  | instantiate => simp [tokenAfter, haction]
  | other action => simp [tokenAfter, haction]

/-- A token has a row if it had one, or is minted. -/
theorem isSome_replayRows : (replayRows tracked rows msgs k).isSome = true ↔
    (rows k).isSome = true ∨ ∃ msg ∈ msgs, tracked msg.contractAddress = true ∧
      msg.action = .mint ∧ msg.key = k := by
  induction msgs generalizing rows with
  | nil => simp [replayRows]
  | cons msg msgs ih =>
    rw [replayRows, List.foldl_cons, ← replayRows, ih]
    have hstep : (stepRows tracked rows msg k).isSome = true ↔ (rows k).isSome = true ∨
        (tracked msg.contractAddress = true ∧ msg.action = .mint ∧ msg.key = k) := by
      unfold stepRows
      split
      · next htracked =>
        by_cases hkey : k = msg.key
        · subst hkey
          rw [Function.update_self, isSome_tokenAfter]
          simp [htracked]
        · rw [Function.update_of_ne hkey]
          simp [Ne.symm hkey]
      · next htracked => simp [htracked]
    rw [hstep, or_assoc]
    simp only [List.exists_mem_cons_iff]

/-- What an activity has from its event alone. -/
theorem map_replayActs {β : Type} {f : CW721Activity → β} {g : SmartContractEvent → β}
    (hf : ∀ row msg, f (activityFor row msg) = g msg) : (replayActs tracked rows msgs).map f =
      (msgs.filter fun msg => tracked msg.contractAddress).map g := by
  induction msgs generalizing rows with
  | nil => rfl
  | cons msg msgs ih =>
    rw [replayActs, List.map_append, ih]
    cases htracked : tracked msg.contractAddress with
    | false => simp [htracked]
    | true => simp [htracked, hf]

theorem map_id_replayActs : (replayActs tracked rows msgs).map (·.smart_contract_event_id) =
    (msgs.filter fun msg => tracked msg.contractAddress).map (·.smart_contract_event_id) :=
  map_replayActs fun row msg => by
    unfold activityFor
    split <;> rfl

end ReplayLemmas

end Erascope.Cw721
