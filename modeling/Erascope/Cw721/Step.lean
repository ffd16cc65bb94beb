import Mathlib.Tactic
import Erascope.Cw721.History

/-!
# A range of a CW721 history

`handleJob` for one range of a consistent history, after the events before it. The range goes on
as a replay of the whole history would, if every token that its events name and that the history
mints is in its dictionary (`InRange`): loaded from the table if it was minted before, and minted in
the range otherwise.

Results:
1. `handleJob_replayed`: such a range keeps the invariant `Replayed`.
2. `handleJob_links`, `inRange_of_links`: a completed range that links its activities as the history
   does is such a range.
-/

namespace Erascope.Cw721

open ReplayLemmas RangeLemmas HistoryLemmas

/-! ## 1. Contracts -/

/-- Whether the events up to a height instantiate a contract. -/
def instantiatedBy (events : List SmartContractEvent) (height : ℕ) (address : String) : Bool :=
  events.any fun msg =>
    msg.action = .instantiate && msg.contractAddress = address && decide (msg.height ≤ height)

/-- Whether a contract is tracked, once it is instantiated. -/
def trackedIn (contracts : List CW721Contract) (events : List SmartContractEvent)
    (address : String) : Bool :=
  contracts.any (fun contract => contract.address = address && contract.track) ||
    events.any fun msg => msg.action = .instantiate && msg.contractAddress = address

/-- The contract table after the events up to a height. -/
structure ContractsAt (contracts : List CW721Contract) (events : List SmartContractEvent)
    (height : ℕ) (db : Db) : Prop where
  tracked : ∀ address, db.isTracked address =
    (contracts.any (fun contract => contract.address = address && contract.track) ||
      instantiatedBy events height address)
  known : ∀ contract ∈ db.cw721_contract,
    contract ∈ contracts ∨ instantiatedBy events height contract.address = true

namespace StepLemmas

variable {contracts : List CW721Contract} {events : List SmartContractEvent} {db : Db}
  {startBlock lo hi : ℕ}

theorem instantiatedBy_iff {height : ℕ} {address : String} :
    instantiatedBy events height address = true ↔ ∃ msg ∈ events, msg.action = .instantiate ∧
      msg.contractAddress = address ∧ msg.height ≤ height := by
  simp [instantiatedBy, and_assoc]

/-- The instantiations up to the end of a range. -/
theorem instantiatedBy_range (hle : lo ≤ hi) (address : String) :
    instantiatedBy events hi address = (instantiatedBy events lo address ||
      (((between (·.height) lo hi events).filter fun msg => msg.action = .instantiate).map
        (·.contractAddress)).dedup.any (· = address)) := by
  rw [Bool.eq_iff_iff, Bool.or_eq_true, instantiatedBy_iff, instantiatedBy_iff]
  simp only [List.any_eq_true, List.mem_dedup, List.mem_map, List.mem_filter, mem_between,
    decide_eq_true_eq]
  constructor
  · rintro ⟨msg, hmsg, haction, haddress, hheight⟩
    rcases Nat.lt_or_ge lo msg.height with hlo | hlo
    · exact .inr ⟨_, ⟨msg, ⟨⟨hmsg, hlo, hheight⟩, haction⟩, rfl⟩, haddress⟩
    · exact .inl ⟨msg, hmsg, haction, haddress, hlo⟩
  · rintro (⟨msg, hmsg, haction, haddress, hlo⟩ | ⟨_, ⟨msg, ⟨⟨hmsg, -, hheight⟩, haction⟩, rfl⟩, haddress⟩)
    · exact ⟨msg, hmsg, haction, haddress, hlo.trans hle⟩
    · exact ⟨msg, hmsg, haction, haddress, hheight⟩

/-- The contracts of a range are new, and the table has them afterwards. -/
theorem handleInstantiateMsgs_ok (hcons : Consistent contracts events)
    (hat : ContractsAt contracts events lo db) (hle : lo ≤ hi) :
    ∃ db', handleInstantiateMsgs db
        ((between (·.height) lo hi events).filter fun msg => msg.action = .instantiate) = .ok db' ∧
      ContractsAt contracts events hi db' ∧ db'.cw721_token = db.cw721_token ∧
      db'.cw721_activity = db.cw721_activity := by
  set addresses := (((between (·.height) lo hi events).filter fun msg =>
    msg.action = .instantiate).map (·.contractAddress)).dedup with haddresses
  have hmem : ∀ address, address ∈ addresses → ∃ msg ∈ events, msg.action = .instantiate ∧
      msg.contractAddress = address ∧ lo < msg.height := by
    intro address haddress
    rw [haddresses, List.mem_dedup, List.mem_map] at haddress
    obtain ⟨msg, hmsg, rfl⟩ := haddress
    rw [List.mem_filter, mem_between, decide_eq_true_eq] at hmsg
    exact ⟨msg, hmsg.1.1, hmsg.2, rfl, hmsg.1.2.1⟩
  have hnew : ¬ (db.cw721_contract.any fun contract => contract.address ∈ addresses) = true := by
    intro hany
    obtain ⟨contract, hcontract, haddress⟩ := List.any_eq_true.mp hany
    obtain ⟨msg, hmsg, haction, hsame, hlo⟩ := hmem _ (of_decide_eq_true haddress)
    obtain ⟨hunknown, hfirst⟩ := hcons.instantiated msg hmsg haction
    rcases hat.known contract hcontract with hold | hold
    · exact hunknown contract hold hsame.symm
    · obtain ⟨other, hother, -, hsame', hheight⟩ := instantiatedBy_iff.mp hold
      have := hfirst other hother (hsame'.trans hsame.symm)
      omega
  refine ⟨{ db with
    cw721_contract := db.cw721_contract ++ addresses.map fun address => ⟨address, true⟩ },
    ?_, ⟨fun address => ?_, fun contract hcontract => ?_⟩, rfl, rfl⟩
  · rw [handleInstantiateMsgs]
    exact if_neg hnew
  · have hold := hat.tracked address
    rw [Db.isTracked] at hold
    rw [Db.isTracked, List.any_append, hold, instantiatedBy_range hle, ← haddresses, Bool.or_assoc]
    congr 2
    simp [List.any_map, Function.comp_def]
  · rcases List.mem_append.mp hcontract with hold | hadded
    · refine (hat.known contract hold).imp_right fun hby => ?_
      rw [instantiatedBy_range hle, hby, Bool.true_or]
    · obtain ⟨address, haddress, rfl⟩ := List.mem_map.mp hadded
      right
      rw [instantiatedBy_range hle, ← haddresses, Bool.or_eq_true]
      exact .inr (List.any_eq_true.mpr ⟨address, haddress, by simp⟩)

/-- The events of a range find their contracts. -/
theorem isTracked_eq (hcons : Consistent contracts events)
    (hat : ContractsAt contracts events hi db) {msg : SmartContractEvent} (hmsg : msg ∈ events)
    (hheight : msg.height ≤ hi) :
    db.isTracked msg.contractAddress = trackedIn contracts events msg.contractAddress := by
  rw [hat.tracked, trackedIn]
  congr 1
  rw [Bool.eq_iff_iff, instantiatedBy_iff]
  simp only [List.any_eq_true, Bool.and_eq_true, decide_eq_true_eq]
  constructor
  · rintro ⟨i, hi, haction, hsame, -⟩
    exact ⟨i, hi, haction, hsame⟩
  · rintro ⟨i, hi, haction, hsame⟩
    exact ⟨i, hi, haction, hsame, ((hcons.instantiated i hi haction).2 msg hmsg hsame.symm).trans hheight⟩

end StepLemmas

open StepLemmas

/-! ## 2. A range of a history -/

/-- Every token that a range names and the history mints is in the dictionary of the range: it is
loaded if it was minted before, and minted in the range otherwise. -/
def InRange (tracked : String → Bool) (events before msgs : List SmartContractEvent) : Prop :=
  ∀ msg ∈ msgs, tracked msg.contractAddress = true → minted tracked events msg.key = true →
    if minted tracked before msg.key then loaded msgs msg.key = true
    else minted tracked msgs msg.key = true

instance (tracked : String → Bool) (events before msgs : List SmartContractEvent) :
    Decidable (InRange tracked events before msgs) :=
  inferInstanceAs (Decidable (∀ msg ∈ msgs, _))

/-- The activities of a history, each linked to its token if the history mints it. -/
def historyActs (contracts : List CW721Contract) (events msgs : List SmartContractEvent) :
    List CW721Activity :=
  (replayActs (trackedIn contracts events) noRows msgs).map
    (store (minted (trackedIn contracts events) events))

/-- The links of these activities. -/
def historyLinks (tracked : String → Bool) (events msgs : List SmartContractEvent) :
    List (Option (String × String)) :=
  (msgs.filter fun msg => tracked msg.contractAddress).map fun msg =>
    if minted tracked events msg.key then some msg.key else none

/-- What the tables have after the events up to a height in any case: the contracts, and a row for
each minted token. -/
structure Indexed (contracts : List CW721Contract) (events : List SmartContractEvent)
    (startBlock height : ℕ) (db : Db) : Prop where
  contract : ContractsAt contracts events height db
  token : ∀ k, (db.cw721_token.get? k).isSome =
    minted (trackedIn contracts events) (between (·.height) startBlock height events) k

/-- The tables after the events up to a height, as a replay leaves them. -/
structure Replayed (contracts : List CW721Contract) (events : List SmartContractEvent)
    (startBlock height : ℕ) (db : Db) : Prop where
  contract : ContractsAt contracts events height db
  token : db.cw721_token.get? = replayRows (trackedIn contracts events) noRows
    (between (·.height) startBlock height events)
  activity : db.cw721_activity =
    historyActs contracts events (between (·.height) startBlock height events)

namespace StepLemmas

variable {contracts : List CW721Contract} {events : List SmartContractEvent} {db db' : Db}
  {startBlock lo hi stop : ℕ}

theorem handleJob_of_ne_nil (h : between (·.height) lo hi events ≠ []) :
    handleJob events db lo hi = handleInstantiateMsgs db
        ((between (·.height) lo hi events).filter fun msg => msg.action = .instantiate) >>=
      fun db => updateRange db (between (·.height) lo hi events) := if_neg h

theorem ContractsAt.of_eq {height : ℕ} (hat : ContractsAt contracts events height db)
    (heq : db'.cw721_contract = db.cw721_contract) : ContractsAt contracts events height db' := by
  refine ⟨fun address => ?_, fun contract hcontract => ?_⟩
  · rw [Db.isTracked, heq]
    exact hat.tracked address
  · rw [heq] at hcontract
    exact hat.known contract hcontract

theorem Replayed.indexed {height : ℕ} (hrep : Replayed contracts events startBlock height db) :
    Indexed contracts events startBlock height db :=
  ⟨hrep.contract, fun k => by rw [hrep.token, isSome_replayRows_noRows]⟩

theorem map_link_historyActs (msgs : List SmartContractEvent) :
    (historyActs contracts events msgs).map (·.cw721_token) =
      historyLinks (trackedIn contracts events) events msgs := map_link_replayActs _

theorem map_id_historyActs (msgs : List SmartContractEvent) :
    (historyActs contracts events msgs).map (·.smart_contract_event_id) =
      (msgs.filter fun msg => trackedIn contracts events msg.contractAddress).map
        (·.smart_contract_event_id) := by
  rw [historyActs, List.map_map, ← map_id_replayActs]
  rfl

theorem contractsAt_of_nil (hat : ContractsAt contracts events lo db) (hle : lo ≤ hi)
    (hnil : between (·.height) lo hi events = []) : ContractsAt contracts events hi db := by
  have hsame : ∀ address, instantiatedBy events hi address = instantiatedBy events lo address := by
    intro address
    rw [instantiatedBy_range hle, hnil]
    exact Bool.or_false _
  exact ⟨fun address => by rw [hsame]; exact hat.tracked address,
    fun contract hcontract => by rw [hsame]; exact hat.known contract hcontract⟩

theorem minted_of_subset {tracked : String → Bool} {msgs msgs' : List SmartContractEvent}
    {k : String × String} (hsub : msgs ⊆ msgs') (h : minted tracked msgs k = true) :
    minted tracked msgs' k = true := by
  obtain ⟨msg, hmsg, hrest⟩ := minted_iff.mp h
  exact minted_iff.mpr ⟨msg, hsub hmsg, hrest⟩

/-- A token that an event changes is minted in the history. -/
theorem minted_of_touches (hcons : Consistent contracts events) {tracked : String → Bool}
    {msg : SmartContractEvent} (hmsg : msg ∈ events) (htracked : tracked msg.contractAddress = true)
    (htouches : msg.touches = true) : minted tracked events msg.key = true := by
  by_cases haction : msg.action = .mint
  · exact minted_iff.mpr ⟨msg, hmsg, htracked, haction, rfl⟩
  · have hmoves : msg.moves = true := by
      revert haction htouches
      unfold SmartContractEvent.touches SmartContractEvent.moves
      cases msg.action <;> simp
    obtain ⟨before, after, hsplit⟩ := List.append_of_mem hmsg
    have halive := Consistent.alive hcons hsplit hmoves
    have hheights := Consistent.heights hcons
    rw [hsplit] at hheights
    have hminted := minted_of_alive (List.pairwise_append.mp hheights).1
      (show tracked msg.key.1 = true from htracked) halive
    exact minted_of_subset (hsplit ▸ List.subset_append_left before (msg :: after)) hminted

/-- The events up to a height come first. -/
theorem between_prefix (hcons : Consistent contracts events)
    (hstart : ∀ msg ∈ events, startBlock < msg.height) (hle : startBlock ≤ hi) :
    between (·.height) startBlock hi events ++ events.filter (fun msg => hi < msg.height) = events := by
  rw [between_append_above (Consistent.heights hcons) hle]
  exact List.filter_eq_self.mpr fun msg hmsg => by simpa using hstart msg hmsg

/-- The dictionary of a range after the replay of the events before it. -/
theorem inDictionary_noRows {tracked : String → Bool} {before msgs : List SmartContractEvent}
    (k : String × String) : inDictionary tracked (replayRows tracked noRows before) msgs k =
      (loaded msgs k && minted tracked before k || minted tracked msgs k) := by
  rw [inDictionary, isSome_loadedRows, isSome_replayRows_noRows]

theorem inDictionary_eq_minted {tracked : String → Bool} {before msgs : List SmartContractEvent}
    (hbefore : before ⊆ events) (hmsgs : msgs ⊆ events)
    (hin : InRange tracked events before msgs) {msg : SmartContractEvent} (hmsg : msg ∈ msgs)
    (htracked : tracked msg.contractAddress = true) :
    inDictionary tracked (replayRows tracked noRows before) msgs msg.key =
      minted tracked events msg.key := by
  rw [inDictionary_noRows]
  cases hminted : minted tracked events msg.key with
  | true =>
    have hdictionary := hin msg hmsg htracked hminted
    split at hdictionary
    · next hearlier => simp [hdictionary, hearlier]
    · simp [hdictionary]
  | false =>
    have hnot : ∀ part : List SmartContractEvent, part ⊆ events →
        minted tracked part msg.key = false := by
      intro part hpart
      by_contra hne
      have := minted_of_subset hpart (Bool.not_eq_false _ ▸ hne)
      rw [hminted] at this
      cases this
    rw [hnot msgs hmsgs, hnot before hbefore, Bool.and_false, Bool.or_false]

end StepLemmas

section
variable {contracts : List CW721Contract} {events : List SmartContractEvent} {db db' : Db}
  {startBlock lo hi stop : ℕ}

/-- A range whose tokens are in its dictionary goes on as the replay does. -/
theorem handleJob_replayed (hcons : Consistent contracts events)
    (hstart : ∀ msg ∈ events, startBlock < msg.height) (hlo : startBlock ≤ lo) (hle : lo ≤ hi)
    (hrep : Replayed contracts events startBlock lo db)
    (hin : InRange (trackedIn contracts events) events (between (·.height) startBlock lo events)
      (between (·.height) lo hi events)) :
    ∃ db', handleJob events db lo hi = .ok db' ∧ Replayed contracts events startBlock hi db' := by
  have hsplit := between_append (Consistent.heights hcons) hlo hle
  by_cases hnil : between (·.height) lo hi events = []
  · rw [hnil, List.append_nil] at hsplit
    refine ⟨db, if_pos hnil, contractsAt_of_nil hrep.contract hle hnil, ?_, ?_⟩
    · rw [← hsplit]
      exact hrep.token
    · rw [← hsplit]
      exact hrep.activity
  obtain ⟨db₁, hinst, hat, htoken, hactivity⟩ := handleInstantiateMsgs_ok hcons hrep.contract hle
  rw [handleJob_of_ne_nil hnil, hinst, ok_bind]
  set tracked := trackedIn contracts events with htrackedIn
  set before := between (·.height) startBlock lo events with hbefore
  set msgs := between (·.height) lo hi events with hmsgs
  have hrows : db₁.cw721_token.get? = replayRows tracked noRows before := by
    rw [htoken, hrep.token]
  have hsub : msgs ⊆ events := between_sublist.subset
  have htracked : ∀ msg ∈ msgs, db₁.isTracked msg.contractAddress = tracked msg.contractAddress :=
    fun msg hmsg => isTracked_eq hcons hat (hsub hmsg) (mem_between.mp hmsg).2.2
  have hburns : BurnsKnown tracked db₁.cw721_token.get? msgs := by
    have hall := Consistent.burnsKnown hcons tracked
    rw [← between_prefix hcons hstart (hlo.trans hle), burnsKnown_append, ← hsplit,
      burnsKnown_append] at hall
    rw [hrows]
    exact hall.1.2
  have hagree : ∀ msg ∈ msgs, tracked msg.contractAddress = true → msg.touches = true →
      loadedRows db₁.cw721_token.get? msgs msg.key = db₁.cw721_token.get? msg.key := by
    intro msg hmsg hmsgTracked htouches
    have hdictionary := hin msg hmsg hmsgTracked
      (minted_of_touches hcons (hsub hmsg) hmsgTracked htouches)
    unfold loadedRows
    split
    · rfl
    · next hloaded =>
      -- not loaded, hence not minted before
      split at hdictionary
      · exact absurd hdictionary hloaded
      · next hminted =>
        rw [hrows]
        rw [← isSome_replayRows_noRows] at hminted
        exact (Option.not_isSome_iff_eq_none.mp hminted).symm
  have hids : (db₁.cw721_activity.map (·.smart_contract_event_id) ++
      (msgs.filter fun msg => tracked msg.contractAddress).map
        (·.smart_contract_event_id)).Nodup := by
    rw [hactivity, hrep.activity, map_id_historyActs, ← List.map_append, ← List.filter_append,
      hsplit]
    exact (Consistent.nodup_ids hcons).sublist
      ((List.filter_sublist.trans between_sublist).map _)
  obtain ⟨db₂, hok, htokens, hcontract, hacts⟩ :=
    updateRange_ok htracked (fun msg hmsg => Consistent.mintsNamed hcons msg (hsub hmsg)) hburns
      hagree hids
  refine ⟨db₂, hok, ContractsAt.of_eq hat hcontract, ?_, ?_⟩
  · funext k
    rw [htokens, hrows, ← hsplit, replayRows_append]
  · rw [hacts, hactivity, hrep.activity, hrows, ← hsplit, historyActs, historyActs,
      replayActs_append, List.map_append]
    congr 1
    refine store_congr fun msg hmsg hmsgTracked => ?_
    exact inDictionary_eq_minted between_sublist.subset hsub hin hmsg hmsgTracked

/-- What a completed range leaves behind. -/
theorem handleJob_links (hcons : Consistent contracts events) (hlo : startBlock ≤ lo) (hle : lo ≤ hi)
    (hind : Indexed contracts events startBlock lo db) (hok : handleJob events db lo hi = .ok db') :
    Indexed contracts events startBlock hi db' ∧
    db'.cw721_activity = db.cw721_activity ++
      (replayActs (trackedIn contracts events)
        (loadedRows db.cw721_token.get? (between (·.height) lo hi events))
        (between (·.height) lo hi events)).map
      (store (inDictionary (trackedIn contracts events) db.cw721_token.get?
        (between (·.height) lo hi events))) ∧
    ∀ k, minted (trackedIn contracts events) (between (·.height) lo hi events) k = true →
      loaded (between (·.height) lo hi events) k = false → db.cw721_token.get? k = none := by
  have hsplit := between_append (Consistent.heights hcons) hlo hle
  by_cases hnil : between (·.height) lo hi events = []
  · rw [handleJob, if_pos hnil] at hok
    cases hok
    rw [hnil, List.append_nil] at hsplit
    rw [hnil]
    refine ⟨⟨contractsAt_of_nil hind.contract hle hnil, fun k => ?_⟩,
      (List.append_nil _).symm, fun k hk => nomatch hk⟩
    rw [← hsplit]
    exact hind.token k
  obtain ⟨db₁, hinst, hat₁, htoken, hactivity⟩ := handleInstantiateMsgs_ok hcons hind.contract hle
  rw [handleJob_of_ne_nil hnil, hinst, ok_bind] at hok
  have hsub : between (·.height) lo hi events ⊆ events := between_sublist.subset
  obtain ⟨hacts, hcontract, htokens, hnew, -⟩ := updateRange_links
    (fun msg hmsg => isTracked_eq hcons hat₁ (hsub hmsg) (mem_between.mp hmsg).2.2)
    (fun msg hmsg => Consistent.mintsNamed hcons msg (hsub hmsg)) hok
  rw [htoken, hactivity] at hacts
  rw [htoken] at htokens hnew
  refine ⟨⟨ContractsAt.of_eq hat₁ hcontract, fun k => ?_⟩, hacts, hnew⟩
  rw [htokens, hind.token, ← hsplit, minted_append]

/-- A completed range that links its activities as the history does has its tokens in its
dictionary. -/
theorem inRange_of_links (hind : Indexed contracts events startBlock lo db)
    (hlinks : historyLinks (trackedIn contracts events) events (between (·.height) lo hi events) =
      ((between (·.height) lo hi events).filter fun msg =>
        trackedIn contracts events msg.contractAddress).map fun msg =>
          if inDictionary (trackedIn contracts events) db.cw721_token.get?
            (between (·.height) lo hi events) msg.key then some msg.key else none)
    (hnew : ∀ k, minted (trackedIn contracts events) (between (·.height) lo hi events) k = true →
      loaded (between (·.height) lo hi events) k = false → db.cw721_token.get? k = none) :
    InRange (trackedIn contracts events) events (between (·.height) startBlock lo events)
      (between (·.height) lo hi events) := by
  set tracked := trackedIn contracts events
  set before := between (·.height) startBlock lo events
  set msgs := between (·.height) lo hi events
  rw [historyLinks, List.map_inj_left] at hlinks
  intro msg hmsg htracked hminted
  have hknown := hlinks msg (List.mem_filter.mpr ⟨hmsg, htracked⟩)
  rw [hminted, if_pos rfl, inDictionary, isSome_loadedRows, hind.token] at hknown
  have hnone := hnew msg.key
  rw [← Option.not_isSome_iff_eq_none, hind.token] at hnone
  revert hknown hnone
  cases minted tracked before msg.key <;> cases minted tracked msgs msg.key <;>
    cases loaded msgs msg.key <;> simp

end

end Erascope.Cw721
