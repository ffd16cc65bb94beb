import Mathlib.Tactic
import Erascope.Lib.Pages
import Erascope.Cw721.Range

/-!
# Pages of a CW721 history

The model of `crawlMissingContractHistory` in `services/cw721/cw721.service.ts`. The events of a
contract are replayed page by page against the token table, and only their activities are
stored. A page does not see the tokens of the page before it.

`historyPages_ok_iff`: the pages complete exactly if every burn finds its token in the table or on
its page and no activity is there already.
-/

namespace Erascope.Cw721

open ReplayLemmas RangeLemmas

/-- `getCw721ContractEvents` for one contract; nothing is at or below a null height. -/
def getCw721ContractEvents (events : List SmartContractEvent) (startBlock : ℕ) (endBlock : Option ℕ)
    (contractAddress : String) : List SmartContractEvent :=
  match endBlock with
  | none => []
  | some endBlock =>
    (between (·.height) startBlock endBlock events).filter fun msg =>
      msg.contractAddress = contractAddress

/-- The transaction of a page. -/
def historyPage (contractAddress : String) (db : Db) (events : List SmartContractEvent) :
    Except Cw721Error Db := do
  let h ← handleCw721MsgExec db events
  if h.cw721Activities = [] then .ok db
  else
    insertActivities db (h.cw721Activities.map
      (linkTo (db.cw721_token.filter fun token => token.contract = contractAddress)))

/-- `crawlMissingContractHistory`: the page after `prevId`, and the job for the next one. -/
def crawlMissingContractHistory (limitRecordGet : ℕ) (events : List SmartContractEvent)
    (startBlock : ℕ) (endBlock : Option ℕ) (contractAddress : String) :
    Db → ℕ → Except Cw721Error (Db × Option ℕ) :=
  pageJob (·.smart_contract_event_id)
    (getCw721ContractEvents events startBlock endBlock contractAddress) limitRecordGet
    (historyPage contractAddress)

/-- Whether the contract has a token in the table. -/
def knownIn (db : Db) (contractAddress : String) (k : String × String) : Bool :=
  k.1 = contractAddress && (db.cw721_token.get? k).isSome

/-- The activities that a page stores. -/
def pageActs (tracked : String → Bool) (db : Db) (contractAddress : String)
    (msgs : List SmartContractEvent) : List CW721Activity :=
  (replayActs tracked (loadedRows db.cw721_token.get? msgs) msgs).map
    (store (knownIn db contractAddress))

namespace PagesLemmas

variable {db db' : Db} {c : String} {msgs : List SmartContractEvent} {tracked : String → Bool}

theorem isSome_get?_filter_contract (k : String × String) :
    ((db.cw721_token.filter fun token => token.contract = c).get? k).isSome = knownIn db c k := by
  rw [Table.get?_filter, knownIn]
  cases hget : db.cw721_token.get? k with
  | none => simp
  | some token =>
    have hkey : token.contract = k.1 := congrArg Prod.fst (Table.key_of_get? hget)
    rw [Option.filter_some, hkey]
    by_cases hc : k.1 = c <;> simp [hc]

theorem map_id_pageActs : (pageActs tracked db c msgs).map (·.smart_contract_event_id) =
    (msgs.filter fun msg => tracked msg.contractAddress).map (·.smart_contract_event_id) := by
  rw [pageActs, List.map_map, ← map_id_replayActs]
  rfl

/-- What the activities of the pages have from their events alone. -/
theorem map_flatMap_pageActs {β : Type} {f : CW721Activity → β} {g : SmartContractEvent → β}
    (hf : ∀ row msg, f (store (knownIn db c) (activityFor row msg)) = g msg)
    (ps : List (List SmartContractEvent)) : (ps.flatMap (pageActs tracked db c)).map f =
      (ps.flatten.filter fun msg => tracked msg.contractAddress).map g := by
  induction ps with
  | nil => rfl
  | cons msgs ps ih =>
    rw [List.flatMap_cons, List.map_append, ih, List.flatten_cons, List.filter_append,
      List.map_append, pageActs, List.map_map, map_replayActs hf]

/-- A page, as a replay. -/
theorem historyPage_ok_iff (hnamed : MintsNamed msgs)
    (htracked : ∀ msg ∈ msgs, db.isTracked msg.contractAddress = tracked msg.contractAddress)
    (hids : (db.cw721_activity.map (·.smart_contract_event_id)).Nodup) :
    historyPage c db msgs = .ok db' ↔
      BurnsKnown tracked (loadedRows db.cw721_token.get? msgs) msgs ∧
      (db.cw721_activity.map (·.smart_contract_event_id) ++
        (msgs.filter fun msg => tracked msg.contractAddress).map
          (·.smart_contract_event_id)).Nodup ∧
      db' = { db with cw721_activity := db.cw721_activity ++ pageActs tracked db c msgs } := by
  rw [historyPage]
  rcases handleCw721MsgExec_cases htracked hnamed with
    ⟨hburns, h, hexec, -, hacts, -⟩ | ⟨hburns, herror⟩
  · rw [hexec, ok_bind, hacts]
    have hrows : ((replayActs tracked (loadedRows db.cw721_token.get? msgs) msgs).map
        (linkTo (db.cw721_token.filter fun token => token.contract = c))).map
          (fun act : CW721Activity => { act with token_id := none }) =
        pageActs tracked db c msgs := by
      rw [List.map_map, pageActs]
      exact List.map_congr_left fun act _ => store_linkTo isSome_get?_filter_contract act
    split
    · next hnil =>
      have hempty : pageActs tracked db c msgs = [] := by rw [pageActs, hnil, List.map_nil]
      have hnoIds := @map_id_pageActs db c msgs tracked
      rw [hempty, List.map_nil] at hnoIds
      rw [← hnoIds, hempty, List.append_nil, List.append_nil]
      simp only [hburns, hids, true_and, Except.ok.injEq]
      exact eq_comm
    · simp only [insertActivities, hrows, List.map_append, map_id_pageActs, hburns, true_and]
      split
      · next hnodup => simp only [hnodup, true_and, Except.ok.injEq, eq_comm]
      · next hnodup => simp only [hnodup, false_and, reduceCtorEq]
  · rw [herror]
    simp only [hburns, false_and, iff_false]
    intro h
    cases h

/-- The pages of a contract complete exactly if every burn finds its token, in the table or on its
page, and no event has an activity already. -/
theorem historyPages_ok_iff {ps : List (List SmartContractEvent)} (hnamed : MintsNamed ps.flatten)
    (htracked : ∀ msg ∈ ps.flatten,
      db.isTracked msg.contractAddress = tracked msg.contractAddress)
    (hids : (db.cw721_activity.map (·.smart_contract_event_id)).Nodup) :
    ps.foldlM (historyPage c) db = .ok db' ↔
      (∀ msgs ∈ ps, BurnsKnown tracked (loadedRows db.cw721_token.get? msgs) msgs) ∧
      (db.cw721_activity.map (·.smart_contract_event_id) ++
        (ps.flatten.filter fun msg => tracked msg.contractAddress).map
          (·.smart_contract_event_id)).Nodup ∧
      db' = { db with cw721_activity :=
        db.cw721_activity ++ ps.flatMap (pageActs tracked db c) } := by
  induction ps generalizing db with
  | nil =>
    simp only [List.foldlM_nil, List.not_mem_nil, false_imp_iff, implies_true, List.flatten_nil,
      List.filter_nil, List.map_nil, List.append_nil, hids, List.flatMap_nil, true_and]
    exact ⟨fun h => (Except.ok.inj h).symm, fun h => congrArg Except.ok h.symm⟩
  | cons msgs ps ih =>
    have hsub : msgs ⊆ (msgs :: ps).flatten := fun msg hmsg => by simp [hmsg]
    have hsubs : ps.flatten ⊆ (msgs :: ps).flatten := fun msg hmsg => by
      rw [List.flatten_cons]
      exact List.mem_append_right _ hmsg
    have hfirst := fun db₁ => @historyPage_ok_iff db db₁ c msgs tracked
      (fun msg hmsg => hnamed msg (hsub hmsg)) (fun msg hmsg => htracked msg (hsub hmsg)) hids
    -- a page changes neither the contracts nor the tokens
    have hrest : ∀ db₁, db₁ = { db with
        cw721_activity := db.cw721_activity ++ pageActs tracked db c msgs } →
        (db.cw721_activity.map (·.smart_contract_event_id) ++
          (msgs.filter fun msg => tracked msg.contractAddress).map
            (·.smart_contract_event_id)).Nodup →
        (ps.foldlM (historyPage c) db₁ = .ok db' ↔
          (∀ msgs ∈ ps, BurnsKnown tracked (loadedRows db.cw721_token.get? msgs) msgs) ∧
          (db.cw721_activity.map (·.smart_contract_event_id) ++
            ((msgs :: ps).flatten.filter fun msg => tracked msg.contractAddress).map
              (·.smart_contract_event_id)).Nodup ∧
          db' = { db with cw721_activity :=
            db.cw721_activity ++ (msgs :: ps).flatMap (pageActs tracked db c) }) := by
      rintro _ rfl hnodup
      rw [@ih { db with cw721_activity := db.cw721_activity ++ pageActs tracked db c msgs }
        (fun msg hmsg => hnamed msg (hsubs hmsg)) (fun msg hmsg => htracked msg (hsubs hmsg))
        (by rw [List.map_append, map_id_pageActs]; exact hnodup)]
      simp only [List.map_append, map_id_pageActs, List.flatten_cons, List.filter_append,
        List.append_assoc, List.flatMap_cons]
      rfl
    rw [List.foldlM_cons]
    constructor
    · intro hok
      obtain ⟨db₁, hjob, hjobs⟩ := bind_ok hok
      obtain ⟨hburns, hnodup, hdb₁⟩ := (hfirst db₁).mp hjob
      obtain ⟨hall, hnodup', hdb'⟩ := (hrest db₁ hdb₁ hnodup).mp hjobs
      exact ⟨List.forall_mem_cons.mpr ⟨hburns, hall⟩, hnodup', hdb'⟩
    · rintro ⟨hall, hnodup, hdb'⟩
      obtain ⟨hburns, hall⟩ := List.forall_mem_cons.mp hall
      have hnodup₁ : (db.cw721_activity.map (·.smart_contract_event_id) ++
          (msgs.filter fun msg => tracked msg.contractAddress).map
            (·.smart_contract_event_id)).Nodup := by
        rw [List.flatten_cons, List.filter_append, List.map_append, ← List.append_assoc] at hnodup
        exact (List.nodup_append.mp hnodup).1
      rw [(hfirst _).mpr ⟨hburns, hnodup₁, rfl⟩, ok_bind]
      exact (hrest _ rfl hnodup₁).mpr ⟨hall, hnodup, hdb'⟩

end PagesLemmas

end Erascope.Cw721
