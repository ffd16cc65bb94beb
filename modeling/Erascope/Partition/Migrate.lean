import Mathlib.Tactic
import Erascope.Lib.Number
import Erascope.Lib.Pages
import Erascope.Lib.Run

/-!
# Migrating `event` to `event_partition`

`migrateDataFromEventToEventPartition` (`services/job/migrate_data_event_table.service.ts`) copies
the events above a start id batch by batch. The rows of a batch and the checkpoint
`CP_MIGRATE_DATA_EVENT_TABLE` are written in one transaction. The loop goes on behind the last id of
the batch before it knows what became of the transaction, and a batch that was rolled back is only
logged.

* `step`: one pass of the loop; the pattern says which batches `batchInsert` fails on.
* `batchAt`: the batches, which do not depend on the pattern.
* `Law`: nothing is lost, and the checkpoint never covers an event that was not copied.

Results:
1. `copied_le_checkpoint`: executions of the job, each of them cut short anywhere, keep the copied
   events at or below the checkpoint.
2. `law_iff`: the law holds exactly when no batch fails.
3. `exists_done`: the loop ends when the ids are below `2 ^ 53`.
-/

namespace Erascope.MigrateEvent

open Number

/-! ## 1. The tables and the loop -/

/-- A row of `event`: its id and the other columns. -/
structure Event (D : Type) where
  id : ℕ
  columns : D
deriving DecidableEq, Repr

/-- The table `event` by id, which is its primary key. -/
structure EventTable (D : Type) where
  rows : List (Event D)
  sorted : rows.Pairwise fun a b => a.id < b.id

/-- The largest value of the column `block_checkpoint.height`. -/
def maxHeight : ℕ := 2147483647

/-- A value of the column `block_checkpoint.height`, an `integer`. -/
abbrev Height := { n : ℕ // n ≤ maxHeight }

/-- `config.migrationEventToPartition` -/
structure Config where
  startId : Height
  limitRecordGet : ℕ
  limit_pos : 0 < limitRecordGet

/-- The stored state: the rows of `event_partition`, and the row of the checkpoint. -/
structure Stored (D : Type) where
  event_partition : List (Event D)
  checkpoint : Option Height

/-- `migrateDataFromEventToEventPartition` between two passes of its loop. -/
structure Loop (D : Type) where
  stored : Stored D
  currentIdMigrated : ℕ
  done : Bool

section
variable {D : Type}

/-- `Event.query().where('id', '>', currentIdMigrated).orderBy('id', 'ASC').limit(..)` -/
def nextEvents (config : Config) (event : EventTable D) (currentIdMigrated : ℕ) : List (Event D) :=
  pageAfter Event.id event.rows config.limitRecordGet currentIdMigrated

/-- The transaction of a batch. It is rolled back when `batchInsert` fails, by itself or on an id
that is there, and when the height does not fit its column. -/
def insertBatch (fails : Bool) (events : List (Event D)) (height : ℕ) (s : Stored D) : Stored D :=
  if fails ∨ ∃ e ∈ events, ∃ r ∈ s.event_partition, r.id = e.id then s
  else if h : height ≤ maxHeight then
    { event_partition := s.event_partition ++ events
      checkpoint := s.checkpoint.map fun _ => ⟨height, h⟩ }
  else s

/-- One pass of the loop. The id goes through `Number` and into the text of the next query. -/
def step (config : Config) (event : EventTable D) (fails : Bool) (l : Loop D) : Loop D :=
  if l.done then l
  else
    let events := nextEvents config event l.currentIdMigrated
    match events.getLast? with
    | none => { l with done := true }
    | some last =>
      let currentIdMigrated := reprinted last.id
      { l with
        stored := insertBatch fails events currentIdMigrated l.stored
        currentIdMigrated := currentIdMigrated }

/-- The loop after `n` passes; `fails i` says whether the `i`-th insertion fails. -/
def passes (config : Config) (event : EventTable D) (fails : ℕ → Bool) (l : Loop D) : ℕ → Loop D
  | 0 => l
  | n + 1 => step config event (fails n) (passes config event fails l n)

/-- `migrateDataFromEventToEventPartition(startId)` before its first pass. -/
def start (s : Stored D) (startId : ℕ) : Loop D := ⟨s, startId, false⟩

/-- `migrateEventPartition` up to the loop: the checkpoint is read, or inserted. -/
def readCheckpoint (config : Config) (s : Stored D) : Stored D × Height :=
  match s.checkpoint with
  | some c => (s, c)
  | none => ({ s with checkpoint := some config.startId }, config.startId)

/-- One execution of `migrateEventPartition`, cut short after `n` passes of its loop. -/
def migrateEventPartition (config : Config) (event : EventTable D) (fails : ℕ → Bool) (n : ℕ)
    (s : Stored D) : Stored D :=
  let (s, startId) := readCheckpoint config s
  (passes config event fails (start s startId) n).stored

/-! ## 2. The batches -/

/-- The id behind which the `i`-th batch begins. -/
def idBefore (config : Config) (event : EventTable D) (startId : ℕ) : ℕ → ℕ
  | 0 => startId
  | i + 1 =>
    match (nextEvents config event (idBefore config event startId i)).getLast? with
    | none => idBefore config event startId i
    | some last => reprinted last.id

/-- The `i`-th batch; an empty one ends the loop. -/
def batchAt (config : Config) (event : EventTable D) (startId i : ℕ) : List (Event D) :=
  nextEvents config event (idBefore config event startId i)

/-- The `i`-th batch is rolled back: its insertion fails, or the last id does not fit the column of
the checkpoint. -/
def RolledBack (config : Config) (event : EventTable D) (startId : ℕ) (fails : ℕ → Bool)
    (i : ℕ) : Prop :=
  fails i = true ∨ maxHeight < idBefore config event startId (i + 1)

/-! ## 3. The law -/

/-- Every event in `(startId, c]` has been copied, where `c` is the stored checkpoint. -/
def Covered (event : EventTable D) (startId : ℕ) (s : Stored D) : Prop :=
  ∀ c ∈ s.checkpoint, ∀ e ∈ event.rows, startId < e.id → e.id ≤ c.val → e ∈ s.event_partition

/-- Every event above the start id has been copied, once. -/
def AllCopied (event : EventTable D) (startId : ℕ) (s : Stored D) : Prop :=
  ∀ e ∈ event.rows, startId < e.id → (s.event_partition.filter fun r => r.id = e.id) = [e]

/-- Nothing is lost: the checkpoint covers what was copied at every moment, and all of it has been
copied when the loop has ended. -/
def Law (config : Config) (event : EventTable D) (startId : ℕ) (fails : ℕ → Bool)
    (s : Stored D) : Prop :=
  ∀ n, Covered event startId (passes config event fails (start s startId) n).stored ∧
    ((passes config event fails (start s startId) n).done = true →
      AllCopied event startId (passes config event fails (start s startId) n).stored)

/-- No batch is rolled back. (Where `Number` rounds an id down to the one before, the loop meets the
same batch for ever; then nothing returns and nothing is covered, if no later batch commits.) -/
def NoneFails (config : Config) (event : EventTable D) (startId : ℕ) (fails : ℕ → Bool) : Prop :=
  ∀ i, batchAt config event startId i ≠ [] → RolledBack config event startId fails i →
    ∀ j, i ≤ j → batchAt config event startId j ≠ [] ∧ RolledBack config event startId fails j

/-! ## 4. The batches of a run -/

namespace MigrateLemmas

variable {config : Config} {event : EventTable D} {startId : ℕ} {fails : ℕ → Bool} {s : Stored D}

theorem mem_nextEvents {c : ℕ} {e : Event D} (h : e ∈ nextEvents config event c) :
    e ∈ event.rows ∧ c < e.id := by
  have hfilter := List.mem_filter.mp (List.mem_of_mem_take h)
  exact ⟨hfilter.1, by simpa using hfilter.2⟩

theorem le_getLast {c : ℕ} {e last : Event D} (he : e ∈ nextEvents config event c)
    (hlast : (nextEvents config event c).getLast? = some last) : e.id ≤ last.id := by
  have hsorted : (nextEvents config event c).Pairwise fun a b => a.id < b.id :=
    (event.sorted.sublist List.filter_sublist).sublist (List.take_sublist _ _)
  obtain ⟨init, hinit⟩ := List.getLast?_eq_some_iff.mp hlast
  rw [hinit] at hsorted he
  rcases List.mem_append.mp he with hmem | hmem
  · exact ((List.pairwise_append.mp hsorted).2.2 e hmem last (List.mem_singleton_self last)).le
  · rw [List.mem_singleton.mp hmem]

theorem exists_last {i : ℕ} (h : batchAt config event startId i ≠ []) :
    ∃ last ∈ batchAt config event startId i,
      (batchAt config event startId i).getLast? = some last ∧
        idBefore config event startId (i + 1) = reprinted last.id := by
  obtain ⟨last, hlast⟩ : ∃ last, (batchAt config event startId i).getLast? = some last :=
    Option.isSome_iff_exists.mp (by simpa using h)
  refine ⟨last, List.mem_of_getLast? hlast, hlast, ?_⟩
  rw [idBefore, show (nextEvents config event (idBefore config event startId i)).getLast? = _
    from hlast]

theorem idBefore_succ_of_nil {i : ℕ} (h : batchAt config event startId i = []) :
    idBefore config event startId (i + 1) = idBefore config event startId i := by
  rw [idBefore, show nextEvents config event (idBefore config event startId i) = [] from h]
  rfl

theorem batchAt_nil_of_le {i j : ℕ} (h : batchAt config event startId i = []) (hij : i ≤ j) :
    batchAt config event startId j = [] := by
  induction hij with
  | refl => exact h
  | step _ ih => rw [batchAt, idBefore_succ_of_nil ih]; exact ih

/-- Below `2 ^ 53` the ids before the batches never go back. -/
theorem le_idBefore {x i j : ℕ} (hx : x ≤ 2 ^ 53) (h : x ≤ idBefore config event startId i)
    (hij : i ≤ j) : x ≤ idBefore config event startId j := by
  induction hij with
  | refl => exact h
  | @step j _ ih =>
    by_cases hnil : batchAt config event startId j = []
    · rw [idBefore_succ_of_nil hnil]
      exact ih
    · obtain ⟨last, hmem, -, heq⟩ := exists_last hnil
      rw [heq]
      rcases Nat.lt_or_ge last.id (2 ^ 53) with hlt | hge
      · rw [reprinted_of_lt hlt]
        exact ih.trans (mem_nextEvents hmem).2.le
      · exact hx.trans (le_reprinted hge)

/-- A batch whose height fits is exact: its last id is the height. -/
theorem le_idBefore_succ {i : ℕ} {e : Event D} (he : e ∈ batchAt config event startId i)
    (hfits : idBefore config event startId (i + 1) ≤ maxHeight) :
    e.id ≤ idBefore config event startId (i + 1) := by
  obtain ⟨last, -, hlast, heq⟩ := exists_last (List.ne_nil_of_mem he)
  rw [heq] at hfits ⊢
  have hsmall : reprinted last.id < 2 ^ 53 := hfits.trans_lt (by decide)
  rw [reprinted_eq_self hsmall]
  exact le_getLast he hlast

/-! The loop goes through the batches whatever becomes of them. -/

theorem step_of_nil {l : Loop D} {b : Bool} (hdone : l.done = false)
    (h : nextEvents config event l.currentIdMigrated = []) :
    step config event b l = { l with done := true } := by
  rw [step, hdone, h]
  rfl

theorem step_of_getLast {l : Loop D} {b : Bool} {last : Event D} (hdone : l.done = false)
    (h : (nextEvents config event l.currentIdMigrated).getLast? = some last) :
    step config event b l =
      { l with
        stored := insertBatch b (nextEvents config event l.currentIdMigrated)
          (reprinted last.id) l.stored
        currentIdMigrated := reprinted last.id } := by
  rw [step, hdone]
  simp only [Bool.false_eq_true, if_false, h]

theorem passes_loop (n : ℕ) :
    (passes config event fails (start s startId) n).currentIdMigrated =
        idBefore config event startId n ∧
      ((passes config event fails (start s startId) n).done = true ↔
        ∃ i < n, batchAt config event startId i = []) := by
  induction n with
  | zero => simp [passes, start, idBefore]
  | succ n ih =>
    obtain ⟨hcursor, hdone⟩ := ih
    rw [passes]
    set l := passes config event fails (start s startId) n
    cases hl : l.done with
    | true =>
      obtain ⟨i, hi, hnil⟩ := hdone.mp hl
      have hstay : step config event (fails n) l = l := by rw [step, if_pos hl]
      rw [hstay, hcursor, idBefore_succ_of_nil (batchAt_nil_of_le hnil hi.le)]
      exact ⟨rfl, iff_of_true hl ⟨i, hi.trans (Nat.lt_succ_self n), hnil⟩⟩
    | false =>
      by_cases hnil : batchAt config event startId n = []
      · rw [step_of_nil hl (by rw [hcursor]; exact hnil), idBefore_succ_of_nil hnil]
        exact ⟨hcursor, iff_of_true rfl ⟨n, Nat.lt_succ_self n, hnil⟩⟩
      · obtain ⟨last, -, hlast, heq⟩ := exists_last hnil
        rw [step_of_getLast hl (by rw [hcursor]; exact hlast), heq]
        refine ⟨rfl, iff_of_false (by simp [hl]) ?_⟩
        rintro ⟨i, hi, hempty⟩
        exact hnil (batchAt_nil_of_le hempty (Nat.le_of_lt_succ hi))

theorem passes_stored (n : ℕ) :
    (passes config event fails (start s startId) (n + 1)).stored =
      if batchAt config event startId n = [] then
        (passes config event fails (start s startId) n).stored
      else
        insertBatch (fails n) (batchAt config event startId n)
          (idBefore config event startId (n + 1))
          (passes config event fails (start s startId) n).stored := by
  obtain ⟨hcursor, hdone⟩ := @passes_loop D config event startId fails s n
  rw [passes]
  set l := passes config event fails (start s startId) n
  cases hl : l.done with
  | true =>
    obtain ⟨i, hi, hnil⟩ := hdone.mp hl
    rw [if_pos (batchAt_nil_of_le hnil hi.le), step, if_pos hl]
  | false =>
    by_cases hnil : batchAt config event startId n = []
    · rw [if_pos hnil, step_of_nil hl (by rw [hcursor]; exact hnil)]
    · obtain ⟨last, -, hlast, heq⟩ := exists_last hnil
      rw [if_neg hnil, step_of_getLast hl (by rw [hcursor]; exact hlast), heq, hcursor]
      rfl

/-! ## 5. What a batch leaves -/

theorem insertBatch_rolledBack {i : ℕ} {es : List (Event D)} {t : Stored D}
    (h : RolledBack config event startId fails i) :
    insertBatch (fails i) es (idBefore config event startId (i + 1)) t = t := by
  unfold insertBatch
  rcases h with hfails | hheight
  · rw [if_pos (.inl hfails)]
  · split
    · rfl
    · rw [dif_neg (not_le.mpr hheight)]

/-- Whatever is copied lies behind the loop, at an id that the checkpoint can hold. -/
theorem copied_behind (hstart : startId ≤ maxHeight)
    (hpart : ∀ r ∈ s.event_partition, r.id ≤ startId) (n : ℕ) :
    ∀ r ∈ (passes config event fails (start s startId) n).stored.event_partition,
      r.id ≤ idBefore config event startId n ∧ r.id ≤ maxHeight := by
  induction n with
  | zero => exact fun r hr => ⟨hpart r hr, (hpart r hr).trans hstart⟩
  | succ n ih =>
    have hold : ∀ r ∈ (passes config event fails (start s startId) n).stored.event_partition,
        r.id ≤ idBefore config event startId (n + 1) ∧ r.id ≤ maxHeight := fun r hr =>
      ⟨le_idBefore ((ih r hr).2.trans (by decide)) (ih r hr).1 (Nat.le_succ n), (ih r hr).2⟩
    rw [passes_stored]
    split
    case isTrue => exact hold
    case isFalse =>
      unfold insertBatch
      split
      · exact hold
      · split
        · rename_i hfits
          intro r hr
          rcases List.mem_append.mp hr with hr | hr
          · exact hold r hr
          · have hle := le_idBefore_succ hr hfits
            exact ⟨hle, hle.trans hfits⟩
        · exact hold

theorem insertBatch_commits (hstart : startId ≤ maxHeight)
    (hpart : ∀ r ∈ s.event_partition, r.id ≤ startId) {n : ℕ}
    (h : ¬ RolledBack config event startId fails n) :
    ∃ hfits : idBefore config event startId (n + 1) ≤ maxHeight,
      insertBatch (fails n) (batchAt config event startId n)
          (idBefore config event startId (n + 1))
          (passes config event fails (start s startId) n).stored =
        { event_partition :=
            (passes config event fails (start s startId) n).stored.event_partition ++
              batchAt config event startId n
          checkpoint :=
            (passes config event fails (start s startId) n).stored.checkpoint.map fun _ =>
              ⟨idBefore config event startId (n + 1), hfits⟩ } := by
  obtain ⟨hinsert, hheight⟩ := not_or.mp h
  refine ⟨not_lt.mp hheight, ?_⟩
  unfold insertBatch
  rw [if_neg, dif_pos (not_lt.mp hheight)]
  rintro (hf | ⟨e, he, r, hr, heq⟩)
  · exact hinsert hf
  · have hbehind := (copied_behind hstart hpart n r hr).1
    have habove := (mem_nextEvents he).2
    omega

theorem checkpoint_isSome (hs : s.checkpoint.isSome) (n : ℕ) :
    (passes config event fails (start s startId) n).stored.checkpoint.isSome := by
  induction n with
  | zero => exact hs
  | succ n ih =>
    rw [passes_stored]
    split
    · exact ih
    · unfold insertBatch
      split
      · exact ih
      · split
        · simpa using ih
        · exact ih

/-! ## 6. When every batch commits -/

/-- What the loop has not come to yet. -/
def rest (config : Config) (event : EventTable D) (startId n : ℕ) : List (Event D) :=
  event.rows.filter fun e => idBefore config event startId n < e.id

theorem batchAt_eq_take (n : ℕ) :
    batchAt config event startId n = (rest config event startId n).take config.limitRecordGet := rfl

theorem rest_of_nil {n : ℕ} (h : batchAt config event startId n = []) :
    rest config event startId n = [] := by
  rw [batchAt_eq_take] at h
  rcases List.take_eq_nil_iff.mp h with hzero | hnil
  · have := config.limit_pos
    omega
  · exact hnil

theorem rest_eq_append {n : ℕ} (hne : batchAt config event startId n ≠ [])
    (hexact : idBefore config event startId (n + 1) < 2 ^ 53) :
    rest config event startId n =
      batchAt config event startId n ++ rest config event startId (n + 1) := by
  obtain ⟨last, -, hlast, heq⟩ := exists_last hne
  have hafter := filter_after_page event.sorted hlast
  rw [heq] at hexact
  rw [batchAt_eq_take, show rest config event startId (n + 1) = _ from by
    rw [rest, heq, reprinted_eq_self hexact, hafter]]
  exact (List.take_append_drop _ _).symm

theorem filter_id {e : Event D} (he : e ∈ event.rows) :
    (event.rows.filter fun r => r.id = e.id) = [e] := by
  have hnodup : (event.rows.filter fun r => r.id = e.id).Pairwise fun a b => a.id < b.id :=
    event.sorted.sublist List.filter_sublist
  have hmem : e ∈ event.rows.filter fun r => r.id = e.id :=
    List.mem_filter.mpr ⟨he, by simp⟩
  generalize hrows : (event.rows.filter fun r => r.id = e.id) = rows at hnodup hmem
  have hid : ∀ r ∈ rows, r.id = e.id := fun r hr => by
    rw [← hrows] at hr
    simpa using (List.mem_filter.mp hr).2
  match rows with
  | [] => cases hmem
  | [r] => rw [List.mem_singleton.mp hmem]
  | r :: r' :: _ =>
    have hlt := (List.pairwise_cons.mp hnodup).1 r' List.mem_cons_self
    rw [hid r List.mem_cons_self, hid r' (List.mem_cons_of_mem _ List.mem_cons_self)] at hlt
    exact absurd hlt (lt_irrefl _)

variable (hstart : startId ≤ maxHeight) (hpart : ∀ r ∈ s.event_partition, r.id ≤ startId)
  (hcheck : s.checkpoint.map Subtype.val = some startId)
include hstart hpart hcheck

/-- While no batch is rolled back, what was copied and what is left make up the table, and the
checkpoint is the id before the next batch. -/
theorem copied_append_rest {n : ℕ}
    (hgood : ∀ i < n, batchAt config event startId i ≠ [] →
      ¬ RolledBack config event startId fails i) :
    (passes config event fails (start s startId) n).stored.event_partition ++
        rest config event startId n =
      s.event_partition ++ rest config event startId 0 ∧
    (passes config event fails (start s startId) n).stored.checkpoint.map Subtype.val =
      some (idBefore config event startId n) := by
  induction n with
  | zero => exact ⟨rfl, hcheck⟩
  | succ n ih =>
    obtain ⟨hcopied, hcover⟩ := ih fun i hi => hgood i (hi.trans (Nat.lt_succ_self n))
    rw [passes_stored]
    split
    case isTrue hnil =>
      rw [rest, idBefore_succ_of_nil hnil]
      exact ⟨hcopied, hcover⟩
    case isFalse hne =>
      obtain ⟨hfits, heq⟩ := insertBatch_commits hstart hpart (hgood n (Nat.lt_succ_self n) hne)
      have hexact : idBefore config event startId (n + 1) < 2 ^ 53 := hfits.trans_lt (by decide)
      rw [heq, ← hcopied, rest_eq_append hne hexact, List.append_assoc]
      refine ⟨rfl, ?_⟩
      obtain ⟨c, hc, -⟩ := Option.map_eq_some_iff.mp hcover
      rw [hc]
      rfl

theorem covered_of_good {n : ℕ}
    (hgood : ∀ i < n, batchAt config event startId i ≠ [] →
      ¬ RolledBack config event startId fails i) :
    Covered event startId (passes config event fails (start s startId) n).stored := by
  obtain ⟨hcopied, hcover⟩ := copied_append_rest hstart hpart hcheck hgood
  intro c hc e he hlow hhigh
  rw [Option.mem_def.mp hc] at hcover
  have hval : c.val = idBefore config event startId n := Option.some.inj hcover
  have hmem : e ∈ s.event_partition ++ rest config event startId 0 :=
    List.mem_append_right _ (List.mem_filter.mpr ⟨he, decide_eq_true hlow⟩)
  rw [← hcopied] at hmem
  rcases List.mem_append.mp hmem with hmem | hmem
  · exact hmem
  · have := (List.mem_filter.mp hmem).2
    simp only [decide_eq_true_eq] at this
    omega

theorem allCopied_of_good {n : ℕ}
    (hgood : ∀ i < n, batchAt config event startId i ≠ [] →
      ¬ RolledBack config event startId fails i)
    (hnil : batchAt config event startId n = []) :
    AllCopied event startId (passes config event fails (start s startId) n).stored := by
  obtain ⟨hcopied, -⟩ := copied_append_rest hstart hpart hcheck hgood
  rw [rest_of_nil hnil, List.append_nil] at hcopied
  intro e he hlow
  rw [hcopied, List.filter_append, rest, List.filter_filter]
  have hbefore : (s.event_partition.filter fun r => r.id = e.id) = [] := by
    rw [List.filter_eq_nil_iff]
    intro r hr
    have := hpart r hr
    simp only [decide_eq_true_eq]
    omega
  rw [hbefore, List.nil_append, ← filter_id he]
  refine List.filter_congr fun r _ => ?_
  by_cases hr : r.id = e.id
  · show (decide (r.id = e.id) && decide (startId < r.id)) = decide (r.id = e.id)
    rw [hr, decide_eq_true hlow, Bool.and_true]
  · simp [hr]

/-! ## 7. When a batch is rolled back -/

omit hcheck in
/-- The last event of a batch that is rolled back is never copied. -/
theorem not_copied {i : ℕ} {last : Event D}
    (hlast : (batchAt config event startId i).getLast? = some last)
    (hrolled : RolledBack config event startId fails i) {n : ℕ} (hn : i ≤ n) :
    last ∉ (passes config event fails (start s startId) n).stored.event_partition := by
  have hmem : last ∈ batchAt config event startId i := List.mem_of_getLast? hlast
  obtain ⟨last', -, hlast', hnext⟩ := exists_last (List.ne_nil_of_mem hmem)
  obtain rfl : last' = last := Option.some.inj (hlast'.symm.trans hlast)
  induction hn with
  | refl =>
    intro h
    have hbehind := (copied_behind hstart hpart i last' h).1
    have habove := (mem_nextEvents hmem).2
    omega
  | @step n hn ih =>
    rw [passes_stored]
    split
    case isTrue => exact ih
    case isFalse =>
      by_cases hr : RolledBack config event startId fails n
      · rwa [insertBatch_rolledBack hr]
      · obtain ⟨hfits, heq⟩ := insertBatch_commits hstart hpart hr
        rw [heq]
        intro h
        rcases List.mem_append.mp h with h | h
        · exact ih h
        -- a batch that commits reaches up to an exact id, behind which the loop has gone
        have hsmall : last'.id < 2 ^ 53 :=
          ((le_idBefore_succ h hfits).trans hfits).trans_lt (by decide)
        rw [reprinted_of_lt hsmall] at hnext
        have hlt : i < n := lt_of_le_of_ne hn fun he => hr (he ▸ hrolled)
        have hpassed : last'.id ≤ idBefore config event startId n :=
          le_idBefore hsmall.le hnext.ge hlt
        have habove := (mem_nextEvents h).2
        omega

/-- After a rollback the law needs every batch to be rolled back, and no end of them. -/
theorem noneFails_of_law (hlaw : Law config event startId fails s) :
    NoneFails config event startId fails := by
  intro i hne hrolled j hij
  obtain ⟨last, hmem, hlast, hnext⟩ := exists_last hne
  have hlow : startId < last.id := by
    have hbegin : startId ≤ idBefore config event startId i :=
      @le_idBefore D config event startId startId 0 i (hstart.trans (by decide)) (le_refl startId) (Nat.zero_le i)
    exact hbegin.trans_lt (mem_nextEvents hmem).2
  have hrow := (mem_nextEvents hmem).1
  have hlost := @not_copied D config event startId fails s hstart hpart i last hlast hrolled
  have hnonempty : batchAt config event startId j ≠ [] := by
    intro hnil
    have hdone := (@passes_loop D config event startId fails s (j + 1)).2.mpr
      ⟨j, Nat.lt_succ_self j, hnil⟩
    have honce := (hlaw (j + 1)).2 hdone last hrow hlow
    refine hlost (hij.trans (Nat.le_succ j)) (List.mem_of_mem_filter (p := fun r => r.id = last.id) ?_)
    rw [honce]
    exact List.mem_singleton_self last
  refine ⟨hnonempty, ?_⟩
  by_contra hcommits
  obtain ⟨hfits, heq⟩ := insertBatch_commits hstart hpart hcommits
  have hlt : i < j := lt_of_le_of_ne hij fun he => hcommits (he ▸ hrolled)
  have hstored := @passes_stored D config event startId fails s j
  rw [if_neg hnonempty, heq] at hstored
  have hsome : (passes config event fails (start s startId) j).stored.checkpoint.isSome := by
    refine checkpoint_isSome ?_ j
    rw [← Option.isSome_map (f := Subtype.val), hcheck]
    rfl
  obtain ⟨c, hc⟩ := Option.isSome_iff_exists.mp hsome
  have hcovered := (hlaw (j + 1)).1
  rw [hstored, hc] at hcovered
  have hhigh : last.id ≤ idBefore config event startId (j + 1) := by
    rcases Nat.lt_or_ge last.id (2 ^ 53) with hsmall | hlarge
    · rw [reprinted_of_lt hsmall] at hnext
      exact le_idBefore hsmall.le hnext.ge (Nat.succ_le_succ hij)
    · have hbig := le_reprinted hlarge
      rw [← hnext] at hbig
      have hreach := le_idBefore (le_refl (2 ^ 53)) hbig (Nat.succ_le_succ hij)
      have : (2 : ℕ) ^ 53 ≤ maxHeight := hreach.trans hfits
      exact absurd this (by decide)
  have hcopied := hcovered _ rfl last hrow hlow hhigh
  refine hlost (hij.trans (Nat.le_succ j)) ?_
  rw [hstored]
  exact hcopied

omit hstart hpart hcheck in
/-- When all batches fail from one on, and there is no end of them, nothing moves any more. -/
theorem stored_of_stuck {i : ℕ} (hstuck : ∀ j, i ≤ j → batchAt config event startId j ≠ [] ∧
    RolledBack config event startId fails j) {n : ℕ} (hn : i ≤ n) :
    (passes config event fails (start s startId) n).stored =
      (passes config event fails (start s startId) i).stored := by
  induction hn with
  | refl => rfl
  | @step n hn ih =>
    rw [passes_stored, if_neg (hstuck n hn).1, insertBatch_rolledBack (hstuck n hn).2, ih]

theorem law_of_noneFails (hnone : NoneFails config event startId fails) :
    Law config event startId fails s := by
  classical
  intro n
  by_cases hgood : ∀ i < n, batchAt config event startId i ≠ [] →
      ¬ RolledBack config event startId fails i
  · refine ⟨covered_of_good hstart hpart hcheck hgood, fun hdone => ?_⟩
    obtain ⟨i, hi, hnil⟩ := passes_loop n |>.2.mp hdone
    exact allCopied_of_good hstart hpart hcheck hgood (batchAt_nil_of_le hnil hi.le)
  · push Not at hgood
    have hfirst := Nat.find_spec hgood
    obtain ⟨hi, hne, hrolled⟩ := hfirst
    set i := Nat.find hgood
    have hbefore : ∀ k < i, batchAt config event startId k ≠ [] →
        ¬ RolledBack config event startId fails k := by
      intro k hk hkne hkrolled
      exact Nat.find_min hgood hk ⟨hk.trans hi, hkne, hkrolled⟩
    have hstuck := hnone i hne hrolled
    rw [stored_of_stuck hstuck hi.le]
    refine ⟨covered_of_good hstart hpart hcheck hbefore, fun hdone => ?_⟩
    obtain ⟨k, hk, hnil⟩ := passes_loop n |>.2.mp hdone
    exact absurd (batchAt_nil_of_le hnil hk.le)
      (hstuck n hi.le).1

omit hstart hpart hcheck in
/-- Each batch takes an event from the rest, so that one of the next is empty. -/
theorem exists_nil (hsmall : ∀ e ∈ event.rows, e.id < 2 ^ 53) :
    ∃ n, batchAt config event startId n = [] := by
  have hlength : ∀ n, batchAt config event startId n ≠ [] →
      (rest config event startId (n + 1)).length < (rest config event startId n).length := by
    intro n hne
    obtain ⟨last, hmem, -, heq⟩ := exists_last hne
    have hexact : idBefore config event startId (n + 1) < 2 ^ 53 := by
      have hlast := hsmall last (mem_nextEvents hmem).1
      rwa [heq, reprinted_of_lt hlast]
    have := List.length_pos_iff.mpr hne
    rw [rest_eq_append hne hexact, List.length_append]
    omega
  by_contra hnever
  push Not at hnever
  have hbound : ∀ n, (rest config event startId n).length + n ≤
      (rest config event startId 0).length := by
    intro n
    induction n with
    | zero => exact le_refl _
    | succ n ih =>
      have := hlength n (hnever n)
      omega
  have := hbound ((rest config event startId 0).length + 1)
  omega

/-- The rows that were copied never get ahead of the checkpoint. -/
theorem copied_le_passes (n : ℕ) :
    ∀ r ∈ (passes config event fails (start s startId) n).stored.event_partition,
      ∃ c ∈ (passes config event fails (start s startId) n).stored.checkpoint, r.id ≤ c.val := by
  induction n with
  | zero =>
    obtain ⟨c, hc, heq⟩ := Option.map_eq_some_iff.mp hcheck
    exact fun r hr => ⟨c, hc, heq ▸ hpart r hr⟩
  | succ n ih =>
    have hbehind := @copied_behind D config event startId fails s hstart hpart (n + 1)
    rw [passes_stored] at hbehind ⊢
    split
    case isTrue => exact ih
    case isFalse hne =>
      rw [if_neg hne] at hbehind
      by_cases hr : RolledBack config event startId fails n
      · rwa [insertBatch_rolledBack hr]
      · obtain ⟨hfits, heq⟩ := insertBatch_commits hstart hpart hr
        have hsome := @checkpoint_isSome D config event startId fails s (by
          rw [← Option.isSome_map (f := Subtype.val), hcheck]
          rfl) n
        obtain ⟨c, hc⟩ := Option.isSome_iff_exists.mp hsome
        rw [heq] at hbehind ⊢
        intro r hmem
        refine ⟨⟨idBefore config event startId (n + 1), hfits⟩, ?_, (hbehind r hmem).1⟩
        rw [hc]
        rfl

omit hstart hpart hcheck in
theorem readCheckpoint_spec (hs : ∀ r ∈ s.event_partition, ∃ c ∈ s.checkpoint, r.id ≤ c.val) :
    (readCheckpoint config s).1.checkpoint = some (readCheckpoint config s).2 ∧
      ∀ r ∈ (readCheckpoint config s).1.event_partition, r.id ≤ (readCheckpoint config s).2.val := by
  cases hc : s.checkpoint with
  | some c =>
    simp only [readCheckpoint, hc, true_and]
    intro r hr
    obtain ⟨c', hc', hle⟩ := hs r hr
    rw [hc] at hc'
    exact Option.some.inj hc' ▸ hle
  | none =>
    simp only [readCheckpoint, hc, true_and]
    intro r hr
    obtain ⟨c', hc', -⟩ := hs r hr
    rw [hc] at hc'
    cases hc'

end MigrateLemmas

open MigrateLemmas

/-! ## The results -/

/-- What the executions of the job have copied lies at or below the checkpoint, wherever they were
cut short and whichever of their batches failed. -/
theorem copied_le_checkpoint {config : Config} {event : EventTable D}
    (executions : List ((ℕ → Bool) × ℕ)) :
    ∀ r ∈ (runFrom (fun s x => migrateEventPartition config event x.1 x.2 s)
        ⟨[], none⟩ executions).event_partition,
      ∃ c ∈ (runFrom (fun s x => migrateEventPartition config event x.1 x.2 s)
        ⟨[], none⟩ executions).checkpoint, r.id ≤ c.val := by
  refine @runFrom_invariant _ _ _ (fun s : Stored D =>
    ∀ r ∈ s.event_partition, ∃ c ∈ s.checkpoint, r.id ≤ c.val) ?_ _ (by simp) executions
  rintro s ⟨fails, n⟩ hs
  obtain ⟨hcheck, hpart⟩ := @readCheckpoint_spec D config s hs
  have hval : (readCheckpoint config s).1.checkpoint.map Subtype.val =
      some (readCheckpoint config s).2.val := by rw [hcheck]; rfl
  exact copied_le_passes (readCheckpoint config s).2.property hpart hval n

/-- The law holds exactly when no batch is rolled back. For ids below `2 ^ 53` the loop comes to an
end, so that nothing else can excuse a batch. -/
theorem law_iff {config : Config} {event : EventTable D} {startId : Height} {fails : ℕ → Bool}
    {s : Stored D} (hcheck : s.checkpoint = some startId)
    (hpart : ∀ r ∈ s.event_partition, r.id ≤ startId.val) :
    (Law config event startId fails s ↔ NoneFails config event startId fails) ∧
      ((∀ e ∈ event.rows, e.id < 2 ^ 53) →
        (∃ n, (passes config event fails (start s startId) n).done = true) ∧
        (NoneFails config event startId fails ↔
          ∀ i, batchAt config event startId i ≠ [] →
            ¬ RolledBack config event startId fails i)) := by
  have hval : s.checkpoint.map Subtype.val = some startId.val := by rw [hcheck]; rfl
  refine ⟨⟨noneFails_of_law startId.property hpart hval,
    law_of_noneFails startId.property hpart hval⟩, fun hsmall => ?_⟩
  obtain ⟨n, hnil⟩ := @exists_nil D config event startId hsmall
  refine ⟨⟨n + 1, passes_loop (n + 1) |>.2.mpr ⟨n, Nat.lt_succ_self n, hnil⟩⟩, ?_⟩
  constructor
  · intro h i hne hrolled
    have hend := batchAt_nil_of_le hnil (Nat.le_max_right i n)
    exact (h i hne hrolled _ (Nat.le_max_left i n)).1 hend
  · intro h i hne hrolled
    exact absurd hrolled (h i hne)

end

/-- A batch of `limit` events. -/
def configOf (limit : ℕ) (h : 0 < limit) : Config := ⟨⟨0, by decide⟩, limit, h⟩

/-- Two events. -/
def twoEvents : EventTable Unit := ⟨[⟨1, ()⟩, ⟨2, ()⟩], by decide⟩

theorem law_iff_twoEvents :
    Law (configOf 1 (by decide)) twoEvents 0 (fun _ => false) ⟨[], some ⟨0, by decide⟩⟩ ↔
      NoneFails (configOf 1 (by decide)) twoEvents 0 (fun _ => false) :=
  (@law_iff Unit _ twoEvents ⟨0, by decide⟩ _ ⟨[], some ⟨0, by decide⟩⟩ rfl (by simp)).1

/-- The insertion of the first of two batches fails: the second one moves the checkpoint over it,
and the job returns without the first event. -/
theorem first_batch_lost :
    ¬ Law (configOf 1 (by decide)) twoEvents 0 (fun i => decide (i = 0))
      ⟨[], some ⟨0, by decide⟩⟩ := by
  intro hlaw
  have hreprinted : reprinted 1 = 1 ∧ reprinted 2 = 2 :=
    ⟨reprinted_of_lt (by decide), reprinted_of_lt (by decide)⟩
  have hpasses : (passes (configOf 1 (by decide)) twoEvents (fun i => decide (i = 0))
      (start ⟨[], some ⟨0, by decide⟩⟩ 0) 2).stored = ⟨[⟨2, ()⟩], some ⟨2, by decide⟩⟩ := by
    simp [passes, step, start, nextEvents, pageAfter, configOf, twoEvents, insertBatch,
      hreprinted, maxHeight]
    rfl
  have hcovered := (hlaw 2).1
  rw [hpasses] at hcovered
  have hlost := hcovered _ rfl ⟨1, ()⟩ (by decide) (by decide) (by decide)
  exact absurd hlost (by decide)

end Erascope.MigrateEvent
