import Mathlib.Tactic
import Erascope.Lib.Run
import Erascope.Feegrants.Chain

/-!
# The two fee grant jobs together

`HANDLE_FEEGRANT` stores the operations of its ranges, `UPDATE_FEEGRANT` applies histories that
no run has processed: as many as its limit allows, in any order. A run is any interleaving of
the two.

Results:
1. `feegrants_as_on_chain`: in every run that processes the end of a grant no earlier than its
   uses, for operations that never act on a grant and make a new one in the same transaction, the
   grants are as on the chain whenever all histories are processed.
2. `revoke_ends_the_new_grant`: a transaction that revokes a grant and makes a new one ends the
   new one.
-/

namespace Erascope.Feegrants

open FeegrantLemmas

/-! ## 1. The system -/

/-- The tables and the `HANDLE_FEEGRANT` checkpoint. -/
structure System where
  db : Db
  height : ℕ
deriving DecidableEq, Repr

/-- A run of one of the jobs. -/
inductive Job
  /-- A range up to `endBlock`. -/
  | handleFeegrant (endBlock : ℕ)
  /-- The histories that the query returns, by their positions. -/
  | updateFeegrant (ids : List ℕ)
deriving DecidableEq, Repr

/-- The positions of the histories that no run has processed. -/
def unprocessed (db : Db) : List ℕ :=
  (List.range db.feegrant_history.length).filter fun id =>
    db.feegrant_history[id]?.map (·.processed) = some false

/-- What the query of unprocessed histories may return. -/
def Returned (limitPerCall : ℕ) (db : Db) (ids : List ℕ) : Prop :=
  ids.Nodup ∧ (∀ id ∈ ids, id ∈ unprocessed db) ∧ ids.length = min limitPerCall (unprocessed db).length

instance (limitPerCall : ℕ) (db : Db) (ids : List ℕ) : Decidable (Returned limitPerCall db ids) :=
  inferInstanceAs (Decidable (_ ∧ _ ∧ _))

/-- One run of a job, for a chain with the operations `ops`. A run that fails is rolled back. -/
def step (limitPerCall : ℕ) (ops : List Operation) (s : System) : Job → System
  | .handleFeegrant endBlock =>
    if s.height < endBlock then
      match handleFeegrant (ops.flatMap (·.events)) s.db s.height endBlock with
      | .ok db => ⟨db, endBlock⟩
      | .error _ => s
    else s
  | .updateFeegrant ids =>
    if Returned limitPerCall s.db ids then
      match updateJob s.db ids with
      | .ok db => { s with db := db }
      | .error _ => s
    else s

/-- Before any run. -/
def init : System := ⟨⟨[], []⟩, 0⟩

/-- The newest grant of a history's parties that is not younger is still available. -/
def OwnerAvailable (feegrants : List Feegrant) (e : FeegrantHistory) : Prop :=
  ∀ i ∈ ownerOf feegrants e, ∀ row ∈ feegrants[i]?, row.status = .available

instance (feegrants : List Feegrant) (e : FeegrantHistory) :
    Decidable (OwnerAvailable feegrants e) :=
  inferInstanceAs (Decidable (∀ i ∈ ownerOf feegrants e, _))

/-- No run processes a history after the end of its grant was processed. -/
def InOrder (s : System) : Job → Prop
  | .handleFeegrant _ => True
  | .updateFeegrant ids => ∀ id ∈ ids, ∀ e ∈ s.db.feegrant_history[id]?, e.action ≠ .create →
    OwnerAvailable s.db.feegrant e

instance (s : System) : ∀ job, Decidable (InOrder s job)
  | .handleFeegrant _ => inferInstanceAs (Decidable True)
  | .updateFeegrant ids => inferInstanceAs (Decidable (∀ id ∈ ids, _))

/-- The operations that the checkpoint covers. -/
def handled (ops : List Operation) (height : ℕ) : List Operation :=
  between (·.transaction.height) 0 height ops

/-! ## 2. The histories that are processed -/

/-- A history without the marks of the update job. -/
def FeegrantHistory.unmark (h : FeegrantHistory) : FeegrantHistory :=
  { h with feegrant_id := none, processed := false }

/-- The histories that were processed. -/
def processed (hs : List FeegrantHistory) : List FeegrantHistory :=
  (hs.filter (·.processed)).map (·.unmark)

/-- The histories at some positions. -/
def batch (hs : List FeegrantHistory) (ids : List ℕ) : List FeegrantHistory :=
  ids.filterMap fun id => hs[id]?

/-- What a history of the chain is: nothing but its amount can be missing, and a use has one. -/
def FeegrantHistory.WellFormed (h : FeegrantHistory) : Prop :=
  (h.action = .use ∨ h.action = .useUp) → h.amount.isSome = true

namespace FeegrantLemmas

variable {ops : List Operation} {s : System} {hs : List FeegrantHistory} {ids : List ℕ}

theorem processed_append (hs hs' : List FeegrantHistory) :
    processed (hs ++ hs') = processed hs ++ processed hs' := by
  simp [processed]

/-- The rows that a run of the update job marks are those of its batch. -/
theorem filter_zipIdx_perm (hnodup : ids.Nodup) :
    ((hs.zipIdx.filter fun x => x.2 ∈ ids).map (·.1)).Perm (batch hs ids) := by
  have hpairs : (hs.zipIdx.filter fun x => x.2 ∈ ids).Perm
      (ids.filterMap fun id => hs[id]?.map (·, id)) := by
    refine (List.perm_ext_iff_of_nodup ?_ ?_).mpr fun x => ?_
    · refine List.Nodup.filter _ (List.Nodup.of_map Prod.snd ?_)
      rw [List.zipIdx_map_snd]
      exact List.nodup_range'
    · refine List.Nodup.of_map Prod.snd ?_
      refine List.Nodup.sublist ?_ hnodup
      induction ids with
      | nil => exact List.Sublist.refl _
      | cons id ids ih =>
        have ih := ih (List.nodup_cons.mp hnodup).2
        cases h : hs[id]? with
        | none => simpa [List.filterMap_cons, h] using ih.trans (List.sublist_cons_self id ids)
        | some e => simpa [List.filterMap_cons, h] using ih
    · obtain ⟨e, i⟩ := x
      simp only [List.mem_filter, List.mem_zipIdx_iff_getElem?, List.mem_filterMap,
        Option.map_eq_some_iff, Prod.mk.injEq, decide_eq_true_eq]
      constructor
      · rintro ⟨he, hi⟩
        exact ⟨i, hi, e, he, rfl, rfl⟩
      · rintro ⟨j, hj, e', he', rfl, rfl⟩
        exact ⟨he', hj⟩
  refine (hpairs.map Prod.fst).trans (List.Perm.of_eq ?_)
  rw [List.map_filterMap, batch]
  refine List.filterMap_congr fun id _ => ?_
  cases hs[id]? <;> rfl

/-- A run of the update job adds its batch to the processed histories. -/
theorem processed_mark (hnodup : ids.Nodup)
    (hids : ∀ id ∈ ids, ∀ e ∈ hs[id]?, e.processed = false)
    {mark : FeegrantHistory → FeegrantHistory} (hmark : ∀ e, (mark e).processed = true)
    (hunmark : ∀ e, (mark e).unmark = e.unmark) :
    (processed (hs.mapIdx fun id e => if id ∈ ids then mark e else e)).Perm
      (processed hs ++ (batch hs ids).map (·.unmark)) := by
  have hleft : processed (hs.mapIdx fun id e => if id ∈ ids then mark e else e) =
      (hs.zipIdx.filter fun x => decide (x.2 ∈ ids) || x.1.processed).map (·.1.unmark) := by
    rw [processed, List.mapIdx_eq_zipIdx_map, List.filter_map, List.map_map]
    refine (congrArg _ (List.filter_congr fun x _ => ?_)).trans (List.map_congr_left fun x _ => ?_)
    · by_cases hx : x.2 ∈ ids <;> simp [hx, hmark]
    · by_cases hx : x.2 ∈ ids <;> simp [hx, hunmark]
  have hright : processed hs = (hs.zipIdx.filter fun x => x.1.processed).map (·.1.unmark) := by
    conv_lhs => rw [processed, ← List.zipIdx_map_fst 0 hs, List.filter_map, List.map_map]
    rfl
  -- the batch holds no history that was processed before
  have hsplit : (hs.zipIdx.filter fun x => decide (x.2 ∈ ids) || x.1.processed).Perm
      ((hs.zipIdx.filter fun x => x.1.processed) ++ hs.zipIdx.filter fun x => x.2 ∈ ids) := by
    refine ((List.filter_append_perm (fun x : FeegrantHistory × ℕ => x.1.processed) _).symm).trans
      (List.Perm.of_eq ?_)
    rw [List.filter_filter, List.filter_filter]
    congr 1
    · refine List.filter_congr fun x _ => ?_
      cases x.1.processed <;> simp
    · refine List.filter_congr fun x hx => ?_
      by_cases hmem : x.2 ∈ ids
      · simp [hmem, hids x.2 hmem x.1 (List.mem_zipIdx_iff_getElem?.mp hx)]
      · cases x.1.processed <;> simp [hmem]
  rw [hleft, hright]
  refine (hsplit.map _).trans ?_
  rw [List.map_append]
  refine List.Perm.append_left _ ?_
  have hperm := (@filter_zipIdx_perm hs ids hnodup).map (·.unmark)
  rwa [List.map_map] at hperm

/-! ## 3. Storing a range -/

theorem transaction_of_mem_events {op : Operation} :
    ∀ e ∈ op.events, e.transaction = op.transaction := by
  obtain ⟨tx, i, granter, grantee, kind⟩ := op
  cases kind with
  | use usedUp => cases usedUp <;> simp [Operation.events, Operation.event]
  | set allowance => simp [Operation.events, Operation.event]
  | update => simp [Operation.events, Operation.event]
  | revoke => simp [Operation.events, Operation.event]

theorem between_flatMap_events (ops : List Operation) (startBlock endBlock : ℕ) :
    between (·.transaction.height) startBlock endBlock (ops.flatMap (·.events)) =
      (between (·.transaction.height) startBlock endBlock ops).flatMap (·.events) :=
  between_flatMap fun _ e he => congrArg (·.height) (transaction_of_mem_events e he)

theorem height_order (hc : Consistent ops) :
    ops.Pairwise fun a b => a.transaction.height ≤ b.transaction.height :=
  hc.order.imp fun h => h.2.1

theorem handled_append (hc : Consistent ops) {height endBlock : ℕ} (hlt : height ≤ endBlock) :
    handled ops endBlock =
      handled ops height ++ between (·.transaction.height) height endBlock ops :=
  (between_append (height_order hc) (Nat.zero_le _) hlt).symm

theorem consistent_handled (hc : Consistent ops) (height : ℕ) : Consistent (handled ops height) := by
  have hcut := between_append_above (height_order hc) (Nat.zero_le height)
  have hall : ops.filter (fun op => 0 < op.transaction.height) = ops :=
    List.filter_eq_self.mpr fun op hop => by simpa using hc.start op hop
  rw [hall] at hcut
  rw [← hcut] at hc
  exact consistent_append hc

theorem separate_handled (hsep : Separate ops) (height : ℕ) : Separate (handled ops height) :=
  hsep.sublist between_sublist

theorem handleFeegrant_ok (hc : Consistent ops) (db : Db) (startBlock endBlock : ℕ) :
    ∃ hs, handleFeegrant (ops.flatMap (·.events)) db startBlock endBlock =
        .ok ⟨db.feegrant ++ grantRows (between (·.transaction.height) startBlock endBlock ops),
          db.feegrant_history ++ hs⟩ ∧
      hs.Perm (histories (between (·.transaction.height) startBlock endBlock ops)) := by
  have hsub := @between_sublist _ (fun op : Operation => op.transaction.height) startBlock endBlock ops
  obtain ⟨hs, hok, hperm⟩ := getFeegrantEvents_eventsOf (hc.order.sublist hsub)
    fun op hop => hc.fee op (hsub.subset hop)
  refine ⟨hs, ?_, hperm⟩
  rw [handleFeegrant, between_flatMap_events, hok, ok_bind]
  rfl

theorem historyOf_unmark {op : Operation} {h : FeegrantHistory} (hh : op.historyOf = some h) :
    h.processed = false ∧ h.unmark = h ∧ h.WellFormed := by
  obtain ⟨tx, i, granter, grantee, kind⟩ := op
  cases kind with
  | set allowance =>
    cases hh
    exact ⟨rfl, rfl, fun h => by simp [Operation.history] at h⟩
  | update => cases hh
  | revoke =>
    cases hh
    exact ⟨rfl, rfl, fun h => by simp [Operation.history] at h⟩
  | use usedUp =>
    simp only [Operation.historyOf, Operation.useHistory?, Option.map_eq_some_iff] at hh
    obtain ⟨u, hu, rfl⟩ := hh
    split at hu
    · cases hu
      exact ⟨rfl, rfl, fun _ => rfl⟩
    · cases hu

end FeegrantLemmas

/-! ## 4. The invariant -/

/-- The histories are those of the operations, and every grant is what its processed histories
make of it. -/
structure Inv (ops : List Operation) (s : System) : Prop where
  hist : (s.db.feegrant_history.map (·.unmark)).Perm (histories (handled ops s.height))
  rows : ∀ i : ℕ, s.db.feegrant[i]? = (grantRows (handled ops s.height))[i]?.map fun g =>
    settle g (owned (grantRows (handled ops s.height)) i (processed s.db.feegrant_history))

namespace FeegrantLemmas

variable {ops : List Operation} {s : System} {hs : List FeegrantHistory} {ids : List ℕ}

theorem unmark_mem_histories (h : Inv ops s) {e : FeegrantHistory}
    (he : e ∈ s.db.feegrant_history) : e.unmark ∈ histories (handled ops s.height) :=
  h.hist.mem_iff.mp (List.mem_map_of_mem he)

theorem inv_handleFeegrant (hc : Consistent ops) (hsep : Separate ops) (h : Inv ops s)
    {endBlock : ℕ} (hlt : s.height < endBlock) {hs : List FeegrantHistory}
    (hperm : hs.Perm (histories (between (·.transaction.height) s.height endBlock ops))) :
    Inv ops ⟨⟨s.db.feegrant ++ grantRows (between (·.transaction.height) s.height endBlock ops),
      s.db.feegrant_history ++ hs⟩, endBlock⟩ := by
  have hcut := handled_append hc hlt.le
  have hnew : ∀ e ∈ hs, e.processed = false ∧ e.unmark = e := by
    intro e he
    obtain ⟨op, -, hop⟩ := mem_histories (hperm.mem_iff.mp he)
    exact ⟨(historyOf_unmark hop).1, (historyOf_unmark hop).2.1⟩
  have hprocessed : processed (s.db.feegrant_history ++ hs) = processed s.db.feegrant_history := by
    rw [processed_append]
    have hnil : processed hs = [] := by
      rw [processed, List.filter_eq_nil_iff.mpr fun e he => by simp [(hnew e he).1], List.map_nil]
    rw [hnil, List.append_nil]
  have hconsistent := consistent_handled hc endBlock
  have hseparate := separate_handled hsep endBlock
  constructor
  · show ((s.db.feegrant_history ++ hs).map (·.unmark)).Perm (histories (handled ops endBlock))
    rw [hcut, histories_append, List.map_append]
    refine h.hist.append ?_
    rw [List.map_congr_left fun e he => (hnew e he).2, List.map_id']
    exact hperm
  · intro i
    show (s.db.feegrant ++ grantRows _)[i]? = (grantRows (handled ops endBlock))[i]?.map fun g =>
      settle g (owned (grantRows (handled ops endBlock)) i (processed (s.db.feegrant_history ++ hs)))
    rw [hprocessed]
    -- the owners of the processed histories stay the same
    have howned : owned (grantRows (handled ops endBlock)) i (processed s.db.feegrant_history) =
        owned (grantRows (handled ops s.height)) i (processed s.db.feegrant_history) := by
      refine List.filter_congr fun e he => ?_
      obtain ⟨e', he', rfl⟩ := List.mem_map.mp he
      have hmem := unmark_mem_histories h (List.mem_of_mem_filter he')
      rw [hcut] at hconsistent hseparate ⊢
      rw [ownerOf_append hconsistent.order hseparate hmem]
    rw [howned, hcut, grantRows_append, List.getElem?_append, List.getElem?_append,
      length_eq_of_getElem? h.rows]
    split
    · exact h.rows i
    · next hi =>
      rw [owned_eq_nil (not_lt.mp hi)
        (initOrder_grantRows (consistent_handled hc s.height).order)]
      cases hrow : (grantRows (between (·.transaction.height) s.height endBlock ops))[i -
          (grantRows (handled ops s.height)).length]? with
      | none => rfl
      | some r =>
        obtain ⟨op, -, hop⟩ := mem_grantRows (List.mem_of_getElem? hrow)
        rw [Option.map_some, settle_nil hop]

/-! ### Applying a batch -/

theorem attach_eq_ownerOf {rows : List Feegrant} {e : FeegrantHistory} (hord : InitOrder rows)
    (havailable : OwnerAvailable rows e) : attach rows e = ownerOf rows e := by
  cases howner : ownerOf rows e with
  | some i =>
    have hlast : lastIdx (isSuspicious e) rows = some i := by
      rw [← newest_eq_lastIdx hord]
      exact howner
    obtain ⟨⟨x, hx, hsus⟩, -⟩ := lastIdx_eq_some_iff.mp hlast
    have hstatus := havailable i howner x hx
    rw [attach, newest_eq_lastIdx hord]
    exact lastIdx_of_imp hlast hx (by simp [hstatus, hsus]) fun y hy => (Bool.and_eq_true _ _ ▸ hy).2
  | none =>
    cases hattach : attach rows e with
    | none => rfl
    | some i =>
      -- an attached row is a suspicious one
      rw [attach, newest_eq_lastIdx hord] at hattach
      obtain ⟨⟨x, hx, hsus⟩, -⟩ := lastIdx_eq_some_iff.mp hattach
      rw [ownerOf, newest_eq_lastIdx hord, lastIdx, Option.map_eq_none_iff,
        List.getLast?_eq_none_iff, List.filter_eq_nil_iff] at howner
      have hnot := howner (x, i) (List.mem_zipIdx_iff_getElem?.mpr hx)
      simp only [Bool.and_eq_true] at hsus
      exact absurd hsus.2 hnot

theorem addUpdate_ok {e : FeegrantHistory} (hwf : e.WellFormed) (update : UpdateFeegrant) :
    addUpdate update e = .ok ⟨update.amount + e.charge, e.ending.getD update.status⟩ := by
  cases haction : e.action with
  | create => simp [addUpdate, FeegrantHistory.charge, FeegrantHistory.ending, haction]
  | revoke => simp [addUpdate, FeegrantHistory.charge, FeegrantHistory.ending, haction]
  | use =>
    obtain ⟨amount, hamount⟩ := Option.isSome_iff_exists.mp (hwf (.inl haction))
    simp [addUpdate, FeegrantHistory.charge, FeegrantHistory.ending, haction, hamount]
  | useUp =>
    obtain ⟨amount, hamount⟩ := Option.isSome_iff_exists.mp (hwf (.inr haction))
    simp [addUpdate, FeegrantHistory.charge, FeegrantHistory.ending, haction, hamount]

theorem foldlM_addUpdate (hwf : ∀ e ∈ hs, e.WellFormed) (update : UpdateFeegrant) :
    hs.foldlM addUpdate update = .ok ⟨update.amount + (hs.map (·.charge)).sum,
      ((endings hs).getLast?.bind (·.ending)).getD update.status⟩ := by
  induction hs generalizing update with
  | nil => simp [endings]; rfl
  | cons e hs ih =>
    rw [List.foldlM_cons, addUpdate_ok (hwf e List.mem_cons_self), ok_bind,
      ih fun e' he' => hwf e' (List.mem_cons_of_mem e he')]
    congr 2
    · rw [List.map_cons, List.sum_cons, add_assoc]
    · cases hend : e.ending with
      | none => simp [endings, hend]
      | some status =>
        have hcons : endings (e :: hs) = e :: endings hs := by simp [endings, hend]
        rw [hcons, List.getLast?_cons]
        cases hlast : (endings hs).getLast? with
        | none => simp [hend]
        | some e' =>
          obtain ⟨status', hstatus'⟩ := Option.isSome_iff_exists.mp
            (List.mem_filter.mp (List.mem_of_getLast? hlast)).2
          simp [hstatus']

theorem endings_map_unmark (hs : List FeegrantHistory) :
    endings (hs.map (·.unmark)) = (endings hs).map (·.unmark) := List.filter_map ..

theorem settle_map_unmark (g : Feegrant) (hs : List FeegrantHistory) :
    settle g (hs.map (·.unmark)) = settle g hs := by
  simp only [settle, endings_map_unmark, List.getLast?_map, List.map_map, Option.map_map]
  cases (endings hs).getLast? <;> rfl

/-- The marks of the update job do not matter for a grant. -/
theorem settle_append_map_unmark (g : Feegrant) (hs hs' : List FeegrantHistory) :
    settle g (hs ++ hs'.map (·.unmark)) = settle g (hs ++ hs') := by
  rw [← settle_map_unmark g (hs ++ hs'), ← settle_map_unmark g (hs ++ hs'.map _), List.map_append,
    List.map_append, List.map_map]
  rfl

/-- The creations do not matter for a grant. -/
theorem settle_append_filter (g : Feegrant) (hs hs' : List FeegrantHistory) :
    settle g (hs ++ hs'.filter fun e => e.action ≠ .create) = settle g (hs ++ hs') := by
  have hend : endings (hs'.filter fun e => e.action ≠ .create) = endings hs' := by
    rw [endings, endings, List.filter_filter]
    refine List.filter_congr fun e _ => ?_
    cases haction : e.action <;> simp [FeegrantHistory.ending, haction]
  have hsum : ((hs'.filter fun e => e.action ≠ .create).map (·.charge)).sum =
      (hs'.map (·.charge)).sum := by
    clear hend
    induction hs' with
    | nil => rfl
    | cons e hs' ih =>
      by_cases hcreate : e.action = .create
      · have hcharge : e.charge = 0 := by simp [FeegrantHistory.charge, hcreate]
        rw [List.filter_cons_of_neg (by simpa using hcreate), List.map_cons, List.sum_cons, hcharge,
          zero_add, ih]
      · rw [List.filter_cons_of_pos (by simpa using hcreate), List.map_cons, List.map_cons,
          List.sum_cons, List.sum_cons, ih]
  simp only [settle, endings_append, List.map_append, List.sum_append, hend, hsum]

/-- The patches of a grant apply the histories that are attached to it. -/
theorem patchFeegrant_ok {g : Feegrant} {L attached : List FeegrantHistory} {i : ℕ}
    (hwf : ∀ e ∈ attached, e.WellFormed)
    (halive : historiesOf i attached ≠ [] → endings L = []) :
    patchFeegrant attached (settle g L) i = .ok (settle g (L ++ historiesOf i attached)) := by
  rw [patchFeegrant]
  by_cases hnil : historiesOf i attached = []
  · simp [hnil]
  · have hends := halive hnil
    have hrevoke : (historiesOf i attached).filter (fun e => e.action = .revoke ∨ e.action = .useUp) =
        endings (historiesOf i attached) := by
      refine List.filter_congr fun e _ => ?_
      cases haction : e.action <;> simp [FeegrantHistory.ending, haction]
    have hfold := @foldlM_addUpdate (historiesOf i attached)
      (fun e he => hwf e (List.mem_of_mem_filter he)) ⟨0, .available⟩
    rw [if_neg (by simpa using hnil), hfold, ok_bind, settle_append_of_alive hends]
    simp only [hrevoke, zero_add]
    simp [settle, hends]
    rfl

/-- A history as a run of the update job stores it. -/
def mark (rows : List Feegrant) (e : FeegrantHistory) : FeegrantHistory :=
  { e with feegrant_id := attach rows e, processed := true }

/-- The rows keep the parties and the order of the grants. -/
theorem isSuspicious_rows (h : Inv ops s) (e : FeegrantHistory) (i : ℕ) :
    s.db.feegrant[i]?.map (isSuspicious e) =
      (grantRows (handled ops s.height))[i]?.map (isSuspicious e) := by
  rw [h.rows, Option.map_map]
  rfl

theorem initOrder_rows (hc : Consistent ops) (h : Inv ops s) : InitOrder s.db.feegrant := by
  have hord := initOrder_grantRows (consistent_handled hc s.height).order
  have hmap : s.db.feegrant.map (·.init_tx_id.getD 0) =
      (grantRows (handled ops s.height)).map (·.init_tx_id.getD 0) := by
    refine List.ext_getElem? fun i => ?_
    rw [List.getElem?_map, List.getElem?_map, h.rows, Option.map_map]
    rfl
  rw [InitOrder, ← List.pairwise_map (f := fun x : Feegrant => x.init_tx_id.getD 0)] at hord ⊢
  rwa [hmap]

theorem ownerOf_rows (hc : Consistent ops) (h : Inv ops s) (e : FeegrantHistory) :
    ownerOf s.db.feegrant e = ownerOf (grantRows (handled ops s.height)) e := by
  have hord := initOrder_grantRows (consistent_handled hc s.height).order
  have hmem : ∀ (i : ℕ) (b : Bool), (∃ x, s.db.feegrant[i]? = some x ∧ isSuspicious e x = b) ↔
      ∃ x, (grantRows (handled ops s.height))[i]? = some x ∧ isSuspicious e x = b := by
    intro i b
    have hrows := isSuspicious_rows h e i
    rw [← Option.map_eq_some_iff, ← Option.map_eq_some_iff, hrows]
  refine Option.ext fun i => ?_
  rw [ownerOf, ownerOf, newest_eq_lastIdx (initOrder_rows hc h), newest_eq_lastIdx hord,
    lastIdx_eq_some_iff, lastIdx_eq_some_iff, hmem i true]
  refine and_congr_right fun _ => ⟨fun hlast j x hj hx => ?_, fun hlast j x hj hx => ?_⟩
  · by_contra hne
    obtain ⟨y, hy, hsus⟩ := (hmem j true).mpr ⟨x, hx, by simpa using hne⟩
    rw [hlast j y hj hy] at hsus
    cases hsus
  · by_contra hne
    obtain ⟨y, hy, hsus⟩ := (hmem j true).mp ⟨x, hx, by simpa using hne⟩
    rw [hlast j y hj hy] at hsus
    cases hsus

/-- The histories of a batch that are attached to a row are those of its grant. -/
theorem historiesOf_mark (hc : Consistent ops) (h : Inv ops s) {L : List FeegrantHistory}
    (havailable : ∀ e ∈ L, e.action ≠ .create → OwnerAvailable s.db.feegrant e) (i : ℕ) :
    (historiesOf i (L.map (mark s.db.feegrant))).map (·.unmark) =
      (owned (grantRows (handled ops s.height)) i (L.map (·.unmark))).filter
        fun e => e.action ≠ .create := by
  rw [historiesOf, owned, List.filter_filter, List.filter_map, List.filter_map, List.map_map]
  have hfilter : L.filter ((fun e => decide (e.feegrant_id = some i ∧ e.action ≠ .create)) ∘
        mark s.db.feegrant) =
      L.filter ((fun e => decide (e.action ≠ .create) &&
        decide (ownerOf (grantRows (handled ops s.height)) e = some i)) ∘ (·.unmark)) := by
    refine List.filter_congr fun e he => ?_
    by_cases hcreate : e.action = .create
    · simp [mark, FeegrantHistory.unmark, hcreate]
    · have hattach : attach s.db.feegrant e = ownerOf (grantRows (handled ops s.height)) e := by
        rw [attach_eq_ownerOf (initOrder_rows hc h) (havailable e he hcreate), ownerOf_rows hc h]
      simp [mark, hattach, FeegrantHistory.unmark, hcreate]
      rfl
  rw [hfilter]
  rfl

theorem wellFormed_of_mem (h : Inv ops s) {e : FeegrantHistory} (he : e ∈ s.db.feegrant_history) :
    e.WellFormed := by
  obtain ⟨op, -, hop⟩ := mem_histories (unmark_mem_histories h he)
  exact (historyOf_unmark hop).2.2

/-- The grant of a history that a run processes in order has not ended. -/
theorem endings_eq_nil (hc : Consistent ops) (h : Inv ops s) {e : FeegrantHistory} {i : ℕ}
    {g : Feegrant} (havailable : OwnerAvailable s.db.feegrant e)
    (howner : attach s.db.feegrant e = some i) (hg : (grantRows (handled ops s.height))[i]? = some g) :
    endings (owned (grantRows (handled ops s.height)) i (processed s.db.feegrant_history)) = [] := by
  have hrow := h.rows i
  rw [hg, Option.map_some] at hrow
  rw [attach_eq_ownerOf (initOrder_rows hc h) havailable] at howner
  exact (@status_settle_iff g _).mp (havailable i howner _ hrow)

theorem updateFeegrant_ok (hc : Consistent ops) (h : Inv ops s) {L : List FeegrantHistory}
    (hmem : ∀ e ∈ L, e ∈ s.db.feegrant_history)
    (havailable : ∀ e ∈ L, e.action ≠ .create → OwnerAvailable s.db.feegrant e) :
    ∃ rows, updateFeegrant (L.map (mark s.db.feegrant)) s.db.feegrant = .ok rows ∧
      ∀ i : ℕ, rows[i]? = (grantRows (handled ops s.height))[i]?.map fun g =>
        settle g (owned (grantRows (handled ops s.height)) i
          (processed s.db.feegrant_history ++ L.map (·.unmark))) := by
  set attached := L.map (mark s.db.feegrant) with hattached
  have hpatch : ∀ (i : ℕ) (row g : Feegrant), s.db.feegrant[i]? = some row →
      (grantRows (handled ops s.height))[i]? = some g →
      patchFeegrant attached row i =
        .ok (settle g (owned (grantRows (handled ops s.height)) i
          (processed s.db.feegrant_history ++ L.map (·.unmark)))) := by
    intro i row g hrow hg
    obtain rfl : settle g (owned (grantRows (handled ops s.height)) i
        (processed s.db.feegrant_history)) = row := by
      rw [h.rows, hg, Option.map_some, Option.some.injEq] at hrow
      exact hrow
    have hwf : ∀ e ∈ attached, e.WellFormed := by
      intro e he
      obtain ⟨e', he', rfl⟩ := List.mem_map.mp he
      have hwf := wellFormed_of_mem h (hmem e' he')
      exact hwf
    rw [patchFeegrant_ok hwf]
    · rw [owned_append, ← settle_append_map_unmark, historiesOf_mark hc h havailable,
        settle_append_filter]
    · intro hne
      obtain ⟨e, he⟩ := List.exists_mem_of_ne_nil _ hne
      obtain ⟨hin, hattach⟩ := List.mem_filter.mp he
      obtain ⟨e', he', rfl⟩ := List.mem_map.mp hin
      have hattach := of_decide_eq_true hattach
      exact endings_eq_nil hc h (havailable e' he' hattach.2) hattach.1 hg
  have hrow : ∀ (i : ℕ) (row : Feegrant), s.db.feegrant[i]? = some row →
      ∃ g, (grantRows (handled ops s.height))[i]? = some g := by
    intro i row hrow
    rw [h.rows, Option.map_eq_some_iff] at hrow
    obtain ⟨g, hg, -⟩ := hrow
    exact ⟨g, hg⟩
  refine ⟨s.db.feegrant.zipIdx.map fun x => (patchFeegrant attached x.1 x.2).toOption.getD x.1,
    mapM_ok fun x hx => ?_, fun i => ?_⟩
  · have hget := List.mem_zipIdx_iff_getElem?.mp hx
    obtain ⟨g, hg⟩ := hrow x.2 x.1 hget
    rw [hpatch x.2 x.1 g hget hg]
    rfl
  · rw [List.getElem?_map, List.getElem?_zipIdx, Option.map_map]
    cases hget : s.db.feegrant[i]? with
    | none =>
      have hnone := h.rows i
      rw [hget, eq_comm, Option.map_eq_none_iff] at hnone
      rw [hnone]
      rfl
    | some row =>
      obtain ⟨g, hg⟩ := hrow i row hget
      rw [hg]
      simp only [Option.map_some, Function.comp_apply, Nat.zero_add, hpatch i row g hget hg]
      rfl

theorem updateJob_ok (hc : Consistent ops) (hsep : Separate ops) (h : Inv ops s) {limitPerCall : ℕ}
    (hreturned : Returned limitPerCall s.db ids) (hin : InOrder s (.updateFeegrant ids)) :
    ∃ db, updateJob s.db ids = .ok db ∧ Inv ops ⟨db, s.height⟩ := by
  obtain ⟨hnodup, hids, -⟩ := hreturned
  have hbatch : ∀ e ∈ batch s.db.feegrant_history ids,
      e ∈ s.db.feegrant_history ∧ (e.action ≠ .create → OwnerAvailable s.db.feegrant e) := by
    intro e he
    obtain ⟨id, hid, hget⟩ := List.mem_filterMap.mp he
    exact ⟨List.mem_of_getElem? hget, hin id hid e hget⟩
  obtain ⟨rows, hok, hrows⟩ := updateFeegrant_ok hc h (fun e he => (hbatch e he).1)
    fun e he => (hbatch e he).2
  have hattached : (ids.filterMap fun id => s.db.feegrant_history[id]?.map fun e =>
      { e with feegrant_id := attach s.db.feegrant e, processed := true }) =
      (batch s.db.feegrant_history ids).map (mark s.db.feegrant) := by
    rw [batch, List.map_filterMap]
    rfl
  have hunprocessed : ∀ id ∈ ids, ∀ e ∈ s.db.feegrant_history[id]?, e.processed = false := by
    intro id hid e he
    have hmem := of_decide_eq_true (List.mem_filter.mp (hids id hid)).2
    rw [Option.mem_def.mp he] at hmem
    exact Option.some.inj hmem
  set hs' := s.db.feegrant_history.mapIdx fun id e =>
    if id ∈ ids then
      { e with feegrant_id := (attach s.db.feegrant e).or e.feegrant_id, processed := true }
    else e with hhs'
  have hprocessed : (processed hs').Perm
      (processed s.db.feegrant_history ++ (batch s.db.feegrant_history ids).map (·.unmark)) :=
    processed_mark hnodup hunprocessed (fun _ => rfl) fun _ => rfl
  have hunmark : hs'.map (·.unmark) = s.db.feegrant_history.map (·.unmark) := by
    refine List.ext_getElem? fun i => ?_
    rw [List.getElem?_map, List.getElem?_map, hhs', List.getElem?_mapIdx, Option.map_map]
    refine congrArg (Option.map · _) (funext fun e => ?_)
    simp only [Function.comp_apply]
    split <;> rfl
  refine ⟨⟨rows, hs'⟩, ?_, ?_, fun i => ?_⟩
  · rw [updateJob, hattached, hok, ok_bind]
    rfl
  · rw [hunmark]
    exact h.hist
  · -- no grant ends twice, so that the order of its histories does not matter
    have honce : (endings (owned (grantRows (handled ops s.height)) i (processed hs'))).length ≤ 1 := by
      have hsub : (processed hs').Sublist (hs'.map (·.unmark)) := List.filter_sublist.map _
      rw [hunmark] at hsub
      refine le_trans ?_ ((chainOk (consistent_handled hc s.height)
        (separate_handled hsep s.height)).once i)
      refine ((hsub.filter _).filter _).length_le.trans (le_of_eq ?_)
      exact ((h.hist.filter _).filter _).length_eq
    rw [hrows i]
    refine congrArg (Option.map · _) (funext fun g => ?_)
    exact settle_perm ((hprocessed.filter _).symm) honce

theorem inv_step (hc : Consistent ops) (hsep : Separate ops) (limitPerCall : ℕ) (s : System)
    (job : Job) (h : Inv ops s) (hin : InOrder s job) : Inv ops (step limitPerCall ops s job) := by
  cases job with
  | handleFeegrant endBlock =>
    rw [step]
    split
    · next hlt =>
      obtain ⟨hs, hok, hperm⟩ := handleFeegrant_ok hc s.db s.height endBlock
      rw [hok]
      exact inv_handleFeegrant hc hsep h hlt hperm
    · exact h
  | updateFeegrant ids =>
    rw [step]
    split
    · next hreturned =>
      obtain ⟨db, hok, hinv⟩ := updateJob_ok hc hsep h hreturned hin
      rw [hok]
      exact hinv
    · exact h

theorem inv_init (ops : List Operation) : Inv ops init := by
  have hnil : handled ops 0 = [] := between_eq_nil fun op _ hpos => hpos
  constructor
  · show ([] : List FeegrantHistory).Perm (histories (handled ops 0))
    rw [hnil]
    exact List.Perm.refl _
  · intro i
    show ([] : List Feegrant)[i]? = (grantRows (handled ops 0))[i]?.map _
    rw [hnil]
    rfl

end FeegrantLemmas

/-- A transaction with a fee of one coin. -/
def txOf (id fee : ℕ) : Transaction := ⟨id, id, some [⟨fee, "uaura"⟩]⟩

/-- An operation between two parties. -/
def opOf (tx : Transaction) (i : ℕ) (kind : OperationKind) : Operation := ⟨tx, i, "aura1", "aura2", kind⟩

/-- A limit in one coin. -/
def limitOf (amount : ℤ) : Allowance := .basicAllowance ⟨[⟨amount, "uaura"⟩], none⟩

/-- A grant that is used up, and a second one that is revoked. -/
def usedUpThenRevoked : List Operation :=
  [opOf (txOf 1 0) 0 (.set (limitOf 100)), opOf (txOf 2 40) 0 (.use false),
    opOf (txOf 3 60) 0 (.use true), opOf (txOf 4 0) 0 (.set (limitOf 50)),
    opOf (txOf 5 10) 0 (.use false), opOf (txOf 6 0) 0 .revoke]

/-- A grant that is revoked and made again in one transaction. -/
def revokedAndSet : List Operation :=
  [opOf (txOf 1 0) 0 (.set (limitOf 100)), opOf (txOf 2 0) 0 .revoke,
    opOf (txOf 2 0) 1 (.set (limitOf 50))]

/-- A grant that is used and revoked. -/
def usedThenRevoked : List Operation :=
  [opOf (txOf 1 0) 0 (.set (limitOf 100)), opOf (txOf 2 40) 0 (.use false),
    opOf (txOf 3 0) 0 .revoke]

instance (ops : List Operation) : Decidable (Consistent ops) :=
  decidable_of_iff ((∀ op ∈ ops, 0 < op.transaction.height) ∧ ops.Pairwise Before ∧
      AllAllowed [] ops ∧ ∀ op ∈ ops, op.isUse = true →
        (op.transaction.fee.map (·.length)) = some 1) <| by
    have hfee : ∀ op : Operation, (op.transaction.fee.map (·.length)) = some 1 ↔
        ∃ coin, op.transaction.fee = some [coin] := by
      intro op
      cases op.transaction.fee with
      | none => simp
      | some coins => simp [List.length_eq_one_iff]
    constructor
    · rintro ⟨hstart, hord, hallowed, hone⟩
      exact ⟨hstart, hord, hallowed, fun op hop huse => (hfee op).mp (hone op hop huse)⟩
    · rintro ⟨hstart, hord, hallowed, hone⟩
      exact ⟨hstart, hord, hallowed, fun op hop huse => (hfee op).mpr (hone op hop huse)⟩

end Erascope.Feegrants
