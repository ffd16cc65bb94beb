import Mathlib.Tactic
import Erascope.Cw721.Range

/-!
# CW721 histories

A history of contract events as a chain produces it. `onChain` is what the chain says of a token:
every event on it counts, in order. `Consistent` collects what the chain promises. A replay of a
history from an empty table leaves exactly the tokens of the chain (`replayRows_onChain`), since
the height guards of the handlers never fire.
-/

namespace Erascope.Cw721

open ReplayLemmas RangeLemmas

/-! ## 1. Tokens on chain -/

/-- A token after an event on it. -/
def chainStep (token : Option CW721Token) (msg : SmartContractEvent) : Option CW721Token :=
  match msg.action with
  | .mint => some
      { contract := msg.contractAddress
        token_id := msg.tokenId.getD "undefined"
        owner := getAttributeFrom msg.attributes .owner
        last_updated_height := msg.height
        burned := false }
  | .transferNft | .sendNft => token.map fun token =>
      { token with
        owner := getAttributeFrom msg.attributes .recipient
        last_updated_height := msg.height }
  | .burn => token.map fun token => { token with burned := true, last_updated_height := msg.height }
  | .instantiate | .other _ => token

/-- A token after some events: none before its first mint. -/
def onChain (msgs : List SmartContractEvent) (k : String × String) : Option CW721Token :=
  msgs.foldl (fun token msg => if msg.key = k then chainStep token msg else token) none

/-- The owner that the events establish. -/
def ownerAfter (msgs : List SmartContractEvent) (k : String × String) : Option String :=
  (onChain msgs k).bind (·.owner)

/-- Whether a token is minted and not burned since. -/
def alive (msgs : List SmartContractEvent) (k : String × String) : Bool :=
  (onChain msgs k).any fun token => !token.burned

/-- The events that need a token: a transfer, a send or a burn. -/
def SmartContractEvent.moves (msg : SmartContractEvent) : Bool :=
  match msg.action with
  | .transferNft | .sendNft | .burn => true
  | .mint | .instantiate | .other _ => false

/-- Contract events as they come from the chain: ordered by id and by height, a token is named by
the events that change it and moved only while it is alive, and a contract is instantiated before
its other events and not known before. -/
structure Consistent (contracts : List CW721Contract) (events : List SmartContractEvent) : Prop where
  ordered : events.Pairwise fun a b =>
    a.smart_contract_event_id < b.smart_contract_event_id ∧ a.height ≤ b.height
  named : ∀ msg ∈ events, msg.touches = true → msg.tokenId ≠ none
  lives : ∀ (i : ℕ) (h : i < events.length),
    events[i].moves = true → alive (events.take i) events[i].key = true
  instantiated : ∀ msg ∈ events, msg.action = .instantiate →
    (∀ contract ∈ contracts, contract.address ≠ msg.contractAddress) ∧
      ∀ msg' ∈ events, msg'.contractAddress = msg.contractAddress → msg.height ≤ msg'.height

instance (contracts : List CW721Contract) (events : List SmartContractEvent) :
    Decidable (Consistent contracts events) :=
  decidable_of_iff
    ((events.Pairwise fun a b =>
        a.smart_contract_event_id < b.smart_contract_event_id ∧ a.height ≤ b.height) ∧
      (∀ msg ∈ events, msg.touches = true → msg.tokenId ≠ none) ∧
      (∀ (i : ℕ) (h : i < events.length),
        events[i].moves = true → alive (events.take i) events[i].key = true) ∧
      ∀ msg ∈ events, msg.action = .instantiate →
        (∀ contract ∈ contracts, contract.address ≠ msg.contractAddress) ∧
          ∀ msg' ∈ events, msg'.contractAddress = msg.contractAddress → msg.height ≤ msg'.height)
    ⟨fun ⟨ho, hn, hl, hi⟩ => ⟨ho, hn, hl, hi⟩, fun h => ⟨h.ordered, h.named, h.lives, h.instantiated⟩⟩

/-- The rows of an empty table. -/
def noRows : Rows := fun _ => none

namespace HistoryLemmas

variable {contracts : List CW721Contract} {events msgs msgs' : List SmartContractEvent}
  {msg : SmartContractEvent} {k : String × String} {tracked : String → Bool}

theorem onChain_append_singleton : onChain (msgs ++ [msg]) k =
    if msg.key = k then chainStep (onChain msgs k) msg else onChain msgs k := by
  simp [onChain, List.foldl_append]

theorem Consistent.heights (h : Consistent contracts events) :
    events.Pairwise fun a b => a.height ≤ b.height := h.ordered.imp And.right

/-- No two events of the chain have the same id. -/
theorem Consistent.nodup_ids (h : Consistent contracts events) :
    (events.map (·.smart_contract_event_id)).Nodup := by
  rw [List.Nodup, List.pairwise_map]
  exact h.ordered.imp fun hlt => hlt.1.ne

theorem Consistent.mintsNamed (h : Consistent contracts events) : MintsNamed events :=
  fun msg hmsg haction => h.named msg hmsg (by simp [SmartContractEvent.touches, haction])

theorem chainStep_of_not_touches (h : msg.touches = false) (row : Option CW721Token) :
    chainStep row msg = row := by
  cases haction : msg.action <;> simp [SmartContractEvent.touches, haction] at h <;>
    simp [chainStep, haction]

theorem height_of_chainStep {row : Option CW721Token} {token : CW721Token}
    (htouches : msg.touches = true) (h : chainStep row msg = some token) :
    token.last_updated_height = msg.height := by
  unfold chainStep at h
  unfold SmartContractEvent.touches at htouches
  split at h
  · cases h
    rfl
  · obtain ⟨old, -, rfl⟩ := Option.map_eq_some_iff.mp h
    rfl
  · obtain ⟨old, -, rfl⟩ := Option.map_eq_some_iff.mp h
    rfl
  · obtain ⟨old, -, rfl⟩ := Option.map_eq_some_iff.mp h
    rfl
  · simp_all
  · simp_all

/-- The height of a token is the height of an event on it. -/
theorem exists_height_of_onChain {token : CW721Token} (h : onChain msgs k = some token) :
    ∃ msg ∈ msgs, msg.touches = true ∧ msg.key = k ∧ token.last_updated_height = msg.height := by
  induction msgs using List.reverseRecOn generalizing token with
  | nil => cases h
  | append_singleton msgs msg ih =>
    have hold : onChain msgs k = some token → ∃ m ∈ msgs ++ [msg],
        m.touches = true ∧ m.key = k ∧ token.last_updated_height = m.height := by
      intro htoken
      obtain ⟨m, hm, hrest⟩ := ih htoken
      exact ⟨m, List.mem_append_left _ hm, hrest⟩
    rw [onChain_append_singleton] at h
    split at h
    · next hkey =>
      cases htouches : msg.touches with
      | true =>
        exact ⟨msg, List.mem_append_right _ (List.mem_singleton_self msg), htouches, hkey,
          height_of_chainStep htouches h⟩
      | false =>
        rw [chainStep_of_not_touches htouches] at h
        exact hold h
    · exact hold h

/-- No event on a token is above its height. -/
theorem height_le_of_onChain (hsorted : msgs.Pairwise fun a b => a.height ≤ b.height)
    {token : CW721Token} (h : onChain msgs k = some token) :
    ∀ msg ∈ msgs, msg.touches = true → msg.key = k → msg.height ≤ token.last_updated_height := by
  induction msgs using List.reverseRecOn generalizing token with
  | nil => cases h
  | append_singleton msgs last ih =>
    obtain ⟨hsorted, -, hlast⟩ := List.pairwise_append.mp hsorted
    rw [onChain_append_singleton] at h
    intro msg hmsg htouches hkey
    by_cases hchange : last.key = k ∧ last.touches = true
    · rw [if_pos hchange.1] at h
      rw [height_of_chainStep hchange.2 h]
      rcases List.mem_append.mp hmsg with hmem | hmem
      · exact hlast msg hmem last (List.mem_singleton_self last)
      · rw [List.mem_singleton.mp hmem]
    · have hsame : onChain msgs k = some token := by
        split at h
        · next hlastKey =>
          rw [chainStep_of_not_touches (Bool.eq_false_iff.mpr fun ht => hchange ⟨hlastKey, ht⟩)] at h
          exact h
        · exact h
      rcases List.mem_append.mp hmsg with hmem | hmem
      · exact ih hsorted hsame msg hmem htouches hkey
      · rw [List.mem_singleton.mp hmem] at htouches hkey
        exact absurd ⟨hkey, htouches⟩ hchange

/-- From a mint on, what was before does not matter. -/
theorem onChain_append_of_mint (h : ∃ msg ∈ msgs', msg.action = .mint ∧ msg.key = k) :
    onChain (msgs ++ msgs') k = onChain msgs' k := by
  induction msgs' using List.reverseRecOn with
  | nil =>
    obtain ⟨msg, hmsg, -⟩ := h
    cases hmsg
  | append_singleton msgs' last ih =>
    rw [← List.append_assoc, onChain_append_singleton, onChain_append_singleton]
    by_cases hmint : last.action = .mint ∧ last.key = k
    · rw [if_pos hmint.2, if_pos hmint.2, chainStep, chainStep, hmint.1]
    · obtain ⟨msg, hmsg, hmsgMint⟩ := h
      rcases List.mem_append.mp hmsg with hmem | hmem
      · rw [ih ⟨msg, hmem, hmsgMint⟩]
      · rw [List.mem_singleton.mp hmem] at hmsgMint
        exact absurd hmsgMint hmint

/-- With the height guard open, the handler does what the chain does. -/
theorem tokenAfter_eq_chainStep {row : Option CW721Token}
    (h : ∀ token, row = some token → token.last_updated_height ≤ msg.height) :
    tokenAfter row msg = chainStep row msg := by
  cases row with
  | none => unfold tokenAfter chainStep; rfl
  | some token =>
    have hguard := h token rfl
    cases haction : msg.action <;> simp [tokenAfter, chainStep, haction, hguard]

/-- A replay from an empty table leaves the tokens of the chain. -/
theorem replayRows_onChain (hsorted : msgs.Pairwise fun a b => a.height ≤ b.height)
    (htracked : tracked k.1 = true) : replayRows tracked noRows msgs k = onChain msgs k := by
  induction msgs using List.reverseRecOn with
  | nil => rfl
  | append_singleton msgs msg ih =>
    obtain ⟨hsorted, -, hlast⟩ := List.pairwise_append.mp hsorted
    rw [replayRows_append, onChain_append_singleton]
    show stepRows tracked (replayRows tracked noRows msgs) msg k = _
    unfold stepRows
    by_cases hkey : msg.key = k
    · subst hkey
      have hcontract : tracked msg.contractAddress = true := htracked
      rw [if_pos hcontract, Function.update_self, if_pos rfl, ih hsorted]
      refine tokenAfter_eq_chainStep fun token htoken => ?_
      obtain ⟨m, hm, -, -, hheight⟩ := exists_height_of_onChain htoken
      rw [hheight]
      exact hlast m hm msg (List.mem_singleton_self msg)
    · rw [if_neg hkey, ← ih hsorted]
      split
      · rw [Function.update_of_ne (Ne.symm hkey)]
      · rfl

theorem replayRows_noRows_of_not_tracked (htracked : tracked k.1 = false) :
    replayRows tracked noRows msgs k = none := by
  refine replayRows_of_not_touched fun msg _ hmsg _ hkey => ?_
  subst hkey
  rw [show tracked msg.key.1 = tracked msg.contractAddress from rfl, hmsg] at htracked
  cases htracked

theorem isSome_replayRows_noRows :
    (replayRows tracked noRows msgs k).isSome = minted tracked msgs k := by
  rw [isSome_replayRows_minted]
  rfl

/-- A token that is alive was minted. -/
theorem minted_of_alive (hsorted : msgs.Pairwise fun a b => a.height ≤ b.height)
    (htracked : tracked k.1 = true) (h : alive msgs k = true) : minted tracked msgs k = true := by
  rw [← isSome_replayRows_noRows, replayRows_onChain hsorted htracked]
  exact Option.isSome_of_any h

theorem Consistent.alive (h : Consistent contracts events) (hsplit : events = msgs ++ msg :: msgs')
    (hmoves : msg.moves = true) : Erascope.Cw721.alive msgs msg.key = true := by
  have hlives := (@forall_split_iff _ (fun before msg =>
    msg.moves = true → Erascope.Cw721.alive before msg.key = true) events).mpr h.lives
  exact hlives msgs msg msgs' hsplit hmoves

theorem burnsKnown_iff {rows : Rows} : BurnsKnown tracked rows msgs ↔
    ∀ before msg after, msgs = before ++ msg :: after → tracked msg.contractAddress = true →
      msg.action = .burn → (replayRows tracked rows before msg.key).isSome = true := by
  induction msgs generalizing rows with
  | nil => simp [BurnsKnown]
  | cons head msgs ih =>
    rw [BurnsKnown, ih]
    constructor
    · rintro ⟨hhead, hrest⟩ before msg after hsplit
      cases before with
      | nil =>
        obtain ⟨rfl, rfl⟩ := List.cons.inj hsplit
        exact hhead
      | cons first before =>
        obtain ⟨rfl, htail⟩ := List.cons.inj hsplit
        exact hrest before msg after htail
    · intro hall
      refine ⟨hall [] head msgs rfl, fun before msg after hsplit => ?_⟩
      exact hall (head :: before) msg after (by rw [hsplit]; rfl)

/-- In a consistent history every burn finds its token. -/
theorem Consistent.burnsKnown (h : Consistent contracts events) (tracked : String → Bool) :
    BurnsKnown tracked noRows events := by
  refine burnsKnown_iff.mpr fun before msg after hsplit htracked haction => ?_
  have hsorted : before.Pairwise fun a b => a.height ≤ b.height := by
    have hheights := Consistent.heights h
    rw [hsplit] at hheights
    exact (List.pairwise_append.mp hheights).1
  have halive := Consistent.alive h hsplit (by simp [SmartContractEvent.moves, haction])
  rw [isSome_replayRows_noRows]
  exact minted_of_alive hsorted htracked halive

end HistoryLemmas

end Erascope.Cw721
