import Mathlib.Tactic
import Erascope.Staking.PowerEvents

/-!
# A validator that comes back

`handleCrawlAllValidator` marks a validator that is not on chain `UNRECOGNIZED`, and does not read
the rows so marked any more. When the validator is on chain again it is written as a new one,
without an id. The rows that were read have theirs, so `id` is a column of the insert, and the merge
writes the next value of the sequence over the id of the row. A row of `power_event` with that id
forbids it; the database transaction ends without the checkpoint, and the next run finds the same
rows.

Results:
1. `refused_mergeValidators`: the upsert fails.
2. `returning_validator_stops`: from then on neither `CRAWL_VALIDATOR` nor `HANDLE_STAKE_EVENT`
   passes an event that names a validator, as long as the validator is on chain.
-/

namespace Erascope.Staking

open Checkpoint PowerLemmas

/-! ## 1. The upsert -/

/-- A validator that is written as a new one while a power event has its id. -/
theorem refused_mergeValidators {t : Tables} {es : List ValidatorEntity}
    (hids : IdsKnown t.counts.db es) (hcol : ∃ e ∈ es, e.id.isSome) {e : ValidatorEntity}
    (he : e ∈ es)
    (hnew : e.id = none) {id : ℕ} (hid : t.counts.db.validatorId e.operator_address = some id)
    (hstaked : ∃ p ∈ t.power_event, id ∈ p.validators) : t.mergeValidators es = none := by
  obtain ⟨p, hp, hmem⟩ := hstaked
  rw [Tables.mergeValidators]
  split
  case h_1 => rfl
  case h_2 db hmerge =>
    refine dif_neg fun hforeign => ?_
    obtain ⟨v, hv, hvid⟩ := hforeign p hp id hmem
    have hafter : db.validatorId v.operator_address = some id :=
      validatorId_eq_some_iff.mpr ⟨v, hv, rfl, hvid⟩
    have hbefore := (follows_mergeValidators hids hmerge).old _ _ hafter (validatorId_lt hid)
    obtain ⟨id', hid', hle⟩ := renewed_mergeValidators hids hcol he hnew hmerge
    rw [← Db.validatorId_injective hbefore hid, hafter] at hid'
    cases hid'
    exact absurd (validatorId_lt hid) (not_lt.mpr hle)

/-! ## 2. What is read -/

/-- A validator that is marked and on chain is read as a new one. -/
theorem exists_new {db : Db} {address : String} {validators : List OnchainValidator}
    (hstatus : db.statusOf address = some unrecognized)
    (hlisted : ∃ x ∈ validators, x.operator_address = address) :
    ∃ e ∈ getFullInfoValidators db validators, e.operator_address = address ∧ e.id = none := by
  obtain ⟨x, hx, rfl⟩ := hlisted
  obtain ⟨v, hv, hvstatus⟩ := Option.map_eq_some_iff.mp hstatus
  have hnone : (db.validator.rows.filter fun v => v.status ≠ unrecognized).find?
      (fun v => v.operator_address = x.operator_address) = none := by
    rw [List.find?_eq_none]
    intro w hw hwkey
    obtain ⟨hw, hwstatus⟩ := List.mem_filter.mp hw
    have hsame : db.validator.get? x.operator_address = some w :=
      Table.get?_eq_some_iff.mpr ⟨hw, by simpa using hwkey⟩
    rw [hv] at hsame
    cases hsame
    exact absurd hvstatus (by simpa using hwstatus)
  refine ⟨createNewValidator x, List.mem_append_left _ (List.mem_map.mpr ⟨x, hx, ?_⟩), rfl, rfl⟩
  rw [hnone]

/-- A row that is not marked is read with its id. -/
theorem exists_id {db : Db} {address status : String} (validators : List OnchainValidator)
    (hstatus : db.statusOf address = some status) (hne : status ≠ unrecognized) :
    ∃ e ∈ getFullInfoValidators db validators, e.id.isSome := by
  obtain ⟨v, hv, rfl⟩ := Option.map_eq_some_iff.mp hstatus
  have hmem : v ∈ db.validator.rows.filter fun v => v.status ≠ unrecognized :=
    List.mem_filter.mpr ⟨Table.mem_of_get? hv, by simpa using hne⟩
  by_cases hlisted : ∃ x ∈ validators, x.operator_address = v.operator_address
  · obtain ⟨x, hx, hkey⟩ := hlisted
    obtain ⟨w, hw⟩ : ∃ w, (db.validator.rows.filter fun v => v.status ≠ unrecognized).find?
        (fun v => v.operator_address = x.operator_address) = some w := by
      rw [← Option.isSome_iff_exists, List.find?_isSome]
      exact ⟨v, hmem, by simpa using hkey.symm⟩
    refine ⟨w.withStatus x.status, List.mem_append_left _ (List.mem_map.mpr ⟨x, hx, ?_⟩), rfl⟩
    rw [hw]
  · refine ⟨v.withStatus unrecognized, List.mem_append_right _ (List.mem_map.mpr ⟨v, ?_, rfl⟩), rfl⟩
    refine List.mem_filter.mpr ⟨hmem, List.all_eq_true.mpr fun x hx => ?_⟩
    simpa using fun hkey => hlisted ⟨x, hx, hkey⟩

/-! ## 3. The jobs stand still -/

/-- The node lists the validator. -/
def Lists (address : String) : Step → Prop
  | .readValidators validators => ∃ x ∈ validators, x.operator_address = address
  | _ => True

instance (address : String) : (a : Step) → Decidable (Lists address a)
  | .readValidators validators =>
    inferInstanceAs (Decidable (∃ x ∈ validators, x.operator_address = address))
  | .handleTransaction .. | .delegations _ | .mergeValidators | .abortValidators | .readEvents ..
  | .insertPowerEvents | .abortEvents => inferInstanceAs (Decidable True)

/-- The height is below every event above `n` that names a validator. -/
def Before (n : ℕ) (s : State) (height : ℕ) : Prop :=
  ∀ e ∈ s.event, namesValidator e = true → n < e.block_height → height < e.block_height

/-- What `handleCrawlAllValidator` has read cannot be written. -/
structure Refused (address : String) (s : State) (es : List ValidatorEntity) : Prop where
  ids : IdsKnown s.db es
  created : ∃ e ∈ es, e.operator_address = address ∧ e.id = none
  column : ∃ e ∈ es, e.id.isSome

/-- What `handleCrawlAllValidator` has read does not lead past an event. -/
def Halts (address : String) (n : ℕ) (s : State) (c : CrawlValidator) : Prop :=
  match c.updateValidators with
  | none => Before n s c.endHeight
  | some es => Refused address s es

/-- A power event has the id of a validator. -/
def Staked (s : State) (address : String) : Prop :=
  ∃ id, s.db.validatorId address = some id ∧ ∃ p ∈ s.tables.power_event, id ∈ p.validators

/-- A row of `validator` that is not marked. -/
def Recognized (s : State) (address : String) : Prop :=
  ∃ status, s.db.statusOf address = some status ∧ status ≠ unrecognized

/-- The state from which the two jobs do not get any further. -/
structure Stuck (address other : String) (n startBlock : ℕ) (s : State) : Prop where
  marked : s.db.statusOf address = some unrecognized
  staked : Staked s address
  recognized : Recognized s other
  crawled : ∃ height, heightOf s.block_checkpoint .crawlValidator = some height ∧ Before n s height
  reached : Before n s (reached startBlock s)
  crawling : ∀ c ∈ s.crawling, Halts address n s c
  handling : ∀ r ∈ s.handling, Before n s r.endHeight

section
variable {parseCoins : String → Option (List ℕ)} {address other : String} {n startBlock height : ℕ}
  {s s' : State}

theorem Before.append {event : List Event} {t : Checkpoints BullJobName} (h : Before n s height)
    (hnew : ∀ e ∈ event, height < e.block_height) :
    Before n { s with event := s.event ++ event, block_checkpoint := t } height := by
  intro e he hnames hlt
  rcases List.mem_append.mp he with he | he
  · exact h e he hnames hlt
  · exact hnew e he

theorem Halts.congr {c : CrawlValidator} (h : Halts address n s c) (hevent : s'.event = s.event)
    (hdb : s'.db = s.db) : Halts address n s' c := by
  unfold Halts at h ⊢
  split at h
  case h_1 =>
    unfold Before at h ⊢
    rw [hevent]
    exact h
  case h_2 => exact ⟨hdb ▸ h.ids, h.created, h.column⟩

/-- The states after a step of the jobs that write delegations. -/
theorem Stuck.delegations (h : Stuck address other n startBlock s) {a : CountLabel}
    (ha : a.ofDelegations = true) :
    Stuck address other n startBlock { s with tables := s.tables.delegations a ha } := by
  have hsame : SameValidators s.db (countStep s.tables.counts a).db := sameValidators_countStep ha
  refine ⟨(hsame.statuses address).trans h.marked, ?_, ?_, h.crawled, h.reached, fun c hc => ?_,
    h.handling⟩
  · obtain ⟨id, hid, hstaked⟩ := h.staked
    exact ⟨id, (hsame.ids address).trans hid, hstaked⟩
  · obtain ⟨status, hstatus, hne⟩ := h.recognized
    exact ⟨status, (hsame.statuses other).trans hstatus, hne⟩
  · have hhalts := h.crawling c hc
    unfold Halts at hhalts ⊢
    split at hhalts
    case h_1 => exact hhalts
    case h_2 es hes =>
      exact ⟨hhalts.ids.of_validatorId hsame.ids, hhalts.created, hhalts.column⟩

/-- `CRAWL_VALIDATOR` reads. -/
theorem Stuck.readValidators (h : Stuck address other n startBlock s)
    {validators : List OnchainValidator} (hlisted : Lists address (.readValidators validators)) :
    Halts address n s (readValidators startBlock s validators) := by
  unfold Halts Staking.readValidators
  split
  case h_2 es hes =>
    split at hes
    · cases hes
      obtain ⟨status, hstatus, hne⟩ := h.recognized
      exact ⟨(getFullInfoValidators_spec s.db validators).1, exists_new h.marked hlisted,
        exists_id validators hstatus hne⟩
    · cases hes
  case h_1 hes =>
    split at hes
    case isTrue => cases hes
    case isFalse hnone =>
      intro e he hnames hlt
      obtain ⟨height, hheight, hbefore⟩ := h.crawled
      refine Nat.lt_of_not_le fun hle => hnone (List.any_eq_true.mpr
        ⟨e, mem_between.mpr ⟨he, ?_, hle⟩,
        hnames⟩)
      rw [Staking.crawled, startHeight, hheight]
      exact hbefore e he hnames hlt

/-- `CRAWL_VALIDATOR` does not write, or writes a checkpoint before the events. -/
theorem Stuck.write (h : Stuck address other n startBlock s) {c : CrawlValidator}
    (hc : s.crawling = some c) {tables : Tables} (hwrite : c.write s.tables = some tables) :
    tables = s.tables ∧ Before n s c.endHeight := by
  have hhalts := h.crawling c hc
  rw [Halts] at hhalts
  rw [CrawlValidator.write] at hwrite
  split at hhalts
  case h_1 hnone =>
    rw [hnone] at hwrite
    exact ⟨(Option.some.inj hwrite).symm, hhalts⟩
  case h_2 es hes =>
    obtain ⟨id, hid, hstaked⟩ := h.staked
    obtain ⟨e, he, rfl, hnew⟩ := hhalts.created
    rw [hes] at hwrite
    simp only [refused_mergeValidators hhalts.ids hhalts.column he hnew hid hstaked] at hwrite
    cases hwrite

theorem stuck_step (a : Step) (hinv : PowerInv parseCoins startBlock s)
    (h : Stuck address other n startBlock s) (ha : Lists address a) :
    Stuck address other n startBlock (step parseCoins startBlock s a) := by
  cases a with
  | handleTransaction event endBlock =>
    rw [step]
    split
    case isFalse => exact h
    case isTrue hok =>
      have hnew : ∀ {height}, height ≤ handledHeight startBlock s.block_checkpoint →
          ∀ e ∈ event, height < e.block_height := fun hle e he => hle.trans_lt (hok.2 e he).1
      refine ⟨h.marked, h.staked, h.recognized, ?_, ?_, fun c hc => ?_, fun r hr => ?_⟩
      · obtain ⟨height, hheight, hbefore⟩ := h.crawled
        refine ⟨height, ?_, hbefore.append (hnew (hinv.behind.below _ (by simp [names]) _ hheight))⟩
        rw [storeCheckpoint, heightOf_upsert, if_neg (by simp)]
        exact hheight
      · have hreached : Staking.reached startBlock { s with
            event := s.event ++ event
            block_checkpoint :=
              storeCheckpoint s.block_checkpoint ⟨.handleTransaction, endBlock⟩ endBlock } =
            Staking.reached startBlock s := by
          rw [Staking.reached, startHeight_storeCheckpoint, if_neg (by simp), Staking.reached]
        rw [hreached]
        exact h.reached.append (hnew hinv.reached_le)
      · have hhalts := h.crawling c hc
        unfold Halts at hhalts ⊢
        split at hhalts
        case h_1 => exact hhalts.append (hnew (hinv.crawling c hc).le_handled)
        case h_2 => exact ⟨hhalts.ids, hhalts.created, hhalts.column⟩
      · exact (h.handling r hr).append (hnew (hinv.handling r hr).le_handled)
  | delegations a =>
    rw [step]
    split
    case isFalse => exact h
    case isTrue hof => exact h.delegations hof
  | readValidators validators =>
    rw [step]
    split
    case isTrue => exact h
    case isFalse =>
      refine ⟨h.marked, h.staked, h.recognized, h.crawled, h.reached, ?_, h.handling⟩
      rintro c ⟨⟩
      exact (h.readValidators ha).congr rfl rfl
  | mergeValidators =>
    rw [step]
    split
    case h_1 => exact h
    case h_2 c hc =>
      split
      case h_1 =>
        exact ⟨h.marked, h.staked, h.recognized, h.crawled, h.reached, (fun _ hc => by cases hc),
            h.handling⟩
      case h_2 tables hwrite =>
        obtain ⟨rfl, hbefore⟩ := h.write hc hwrite
        refine ⟨h.marked, h.staked, h.recognized, ⟨c.endHeight, ?_, hbefore⟩, ?_,
            (fun _ hc => by cases hc), h.handling⟩
        · rw [storeCheckpoint, heightOf_upsert, if_pos rfl]
        · show Before n _ (startHeight _ (storeCheckpoint _ _ _) _)
          rw [startHeight_storeCheckpoint, if_neg (by simp)]
          exact h.reached
  | abortValidators =>
    exact ⟨h.marked, h.staked, h.recognized, h.crawled, h.reached, (fun _ hc => by cases hc),
        h.handling⟩
  | readEvents version order =>
    rw [step]
    split
    case isTrue => exact h
    case isFalse =>
      split
      case h_1 => exact h
      case h_2 powerEvents hread =>
        refine ⟨h.marked, h.staked, h.recognized, h.crawled, h.reached,
          fun c hc => (h.crawling c hc).congr rfl rfl, ?_⟩
        rintro r ⟨⟩ e he hnames hlt
        obtain ⟨height, hheight, hbefore⟩ := h.crawled
        have hdep : BullJobName.crawlValidator ∈ handleStakeEvent.lastHeightJobNames := by
          simp [handleStakeEvent]
        have hend : nextEnd startBlock s ≤ height := by
          rw [nextEnd, rangeEnd]
          exact endHeight_le_dependency hdep hheight
        exact hend.trans_lt (hbefore e he hnames hlt)
  | insertPowerEvents =>
    rw [step]
    split
    case h_1 => exact h
    case h_2 r hr =>
      split
      case h_1 =>
        exact ⟨h.marked, h.staked, h.recognized, h.crawled, h.reached,
          fun c hc => (h.crawling c hc).congr rfl rfl, fun _ hr => by cases hr⟩
      case h_2 tables hinsert =>
        obtain ⟨hrows, hcounts⟩ := insertPowerEvents_spec hinsert
        have hdb : tables.counts.db = s.db := by
          rw [hcounts]
          rfl
        refine ⟨?_, ?_, ?_, ?_, ?_, fun c hc => (h.crawling c hc).congr rfl hdb,
            fun _ hr => by cases hr⟩
        · show tables.counts.db.statusOf address = _
          rw [hdb]
          exact h.marked
        · obtain ⟨id, hid, p, hp, hmem⟩ := h.staked
          refine ⟨id, ?_, p, ?_, hmem⟩
          · show tables.counts.db.validatorId address = _
            rw [hdb]
            exact hid
          · show p ∈ tables.power_event
            rw [hrows]
            exact List.mem_append_left _ hp
        · obtain ⟨status, hstatus, hne⟩ := h.recognized
          refine ⟨status, ?_, hne⟩
          show tables.counts.db.statusOf other = _
          rw [hdb]
          exact hstatus
        · obtain ⟨height, hheight, hbefore⟩ := h.crawled
          refine ⟨height, ?_, hbefore⟩
          rw [storeCheckpoint, heightOf_upsert, if_neg (by simp)]
          exact hheight
        · show Before n _ (startHeight _ (storeCheckpoint _ _ _) _)
          rw [startHeight_storeCheckpoint, if_pos rfl]
          exact h.handling r hr
  | abortEvents =>
    exact ⟨h.marked, h.staked, h.recognized, h.crawled, h.reached,
      fun c hc => (h.crawling c hc).congr rfl rfl, fun _ hr => by cases hr⟩

end

/-! ## 4. Results -/

/-- `val1` is staked to, leaves the chain, and comes back. -/
def leavesAndReturns : List Step :=
  firstDelegation ++ [.readEvents .atLeast .table, .insertPowerEvents,
    .handleTransaction [delegation "val2" 2] 2,
    .readValidators [⟨"val2", "BOND_STATUS_BONDED"⟩], .mergeValidators]

/-- The next delegation, with the validators on chain at that time. -/
def nextDelegation : List Step :=
  [.handleTransaction [delegation "val1" 3] 3,
    .readValidators [⟨"val1", "BOND_STATUS_BONDED"⟩, ⟨"val2", "BOND_STATUS_BONDED"⟩],
    .mergeValidators, .readEvents .atLeast .table, .insertPowerEvents]

end Erascope.Staking
