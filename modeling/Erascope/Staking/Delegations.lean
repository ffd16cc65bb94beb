import Mathlib.Tactic
import Erascope.Lib.Run
import Erascope.Lib.Rows
import Erascope.Staking.Basic

/-!
# Delegations and the chain

`CRAWL_DELEGATORS` (`handleJob` in `services/crawl-validator/crawl_delegators.service.ts`)
replays the staking messages of `transaction_message` in the order of their ids, a page at a
time. On the chain only the messages of successful transactions have an effect; the table
has the messages of all transactions, and the query of `handleJob` does not look at
`transaction.code`.

* `delegations`: what the chain has after a list of messages.
* `crawlStep`: runs of `handleJob`, one message a step; a run can end anywhere.
* `Harmless`: the messages of failed transactions that change no row.

Results:
1. `rows_match_chain`: while every message that is handled succeeded on the chain or is
   harmless, the rows are the positive delegations, and a redelegation keeps the total.
2. `failed_delegate_inserted`: a failed `MsgDelegate` leaves a row.
-/

namespace Erascope.Staking

/-! ## 1. The chain -/

/-- The delegation of a delegator to a validator. -/
abbrev Delegations := String → String → ℤ

/-- Add to the delegation of `d` to `v`. -/
def Delegations.add (δ : Delegations) (d v : String) (n : ℤ) : Delegations := fun d' v' =>
  if (d', v') = (d, v) then δ d v + n else δ d' v'

/-- The effect of a message. The messages inside a `MsgExec` are rows of their own. -/
def execute (δ : Delegations) : Content → Delegations
  | .delegate d v n => δ.add d v n
  | .redelegate d src dst n => (δ.add d src (-n)).add d dst n
  | .undelegate d v n => δ.add d v (-n)
  | .cancelUndelegate d v n => δ.add d v n
  | .exec _ => δ
  | .other => δ

/-- What the chain checks before it executes a message. -/
def CanExecute (δ : Delegations) : Content → Prop
  | .delegate _ _ n => 0 < n
  | .redelegate d src dst n => 0 < n ∧ n ≤ δ d src ∧ src ≠ dst
  | .undelegate d v n => 0 < n ∧ n ≤ δ d v
  | .cancelUndelegate _ _ n => 0 < n
  | .exec _ => True
  | .other => True

instance (δ : Delegations) : (c : Content) → Decidable (CanExecute δ c)
  | .delegate _ _ n => inferInstanceAs (Decidable (0 < n))
  | .redelegate d src dst n => inferInstanceAs (Decidable (0 < n ∧ n ≤ δ d src ∧ src ≠ dst))
  | .undelegate d v n => inferInstanceAs (Decidable (0 < n ∧ n ≤ δ d v))
  | .cancelUndelegate _ _ n => inferInstanceAs (Decidable (0 < n))
  | .exec _ => inferInstanceAs (Decidable True)
  | .other => inferInstanceAs (Decidable True)

/-- The transaction of the message was executed: its `code` is `0`. -/
def Succeeded (code : ℕ → ℕ) (m : Message) : Prop := code m.tx_id = 0

instance (code : ℕ → ℕ) (m : Message) : Decidable (Succeeded code m) :=
  inferInstanceAs (Decidable (code m.tx_id = 0))

/-- One message of the history: a failed transaction has no effect. -/
def applyMessage (code : ℕ → ℕ) (δ : Delegations) (m : Message) : Delegations :=
  if Succeeded code m then execute δ m.content else δ

/-- The delegations after the messages `ms`. -/
def delegations (code : ℕ → ℕ) (ms : List Message) : Delegations :=
  ms.foldl (applyMessage code) fun _ _ => 0

/-- The messages of a chain in the order of their ids, which is the order of execution, and
the `code` of every transaction. -/
structure History where
  messages : List Message
  code : ℕ → ℕ
  sorted : messages.Pairwise fun a b => a.id < b.id
  tx_sorted : messages.Pairwise fun a b => a.tx_id ≤ b.tx_id
  id_pos : ∀ m ∈ messages, 0 < m.id
  typed : ∀ m ∈ messages, m.type = m.content.type
  valid : ∀ m ∈ messages, Succeeded code m →
    CanExecute (delegations code (messages.filter fun x => x.id < m.id)) m.content

/-! ## 2. Runs of `handleJob` -/

/-- The state of the job: `checkpoint` is the row `CHECKPOINT_UPDATE_DELEGATOR`, `page` the
messages of the current run that are still to be handled. -/
structure CrawlState where
  db : Db
  checkpoint : Option ℕ
  page : List Message

inductive CrawlLabel
  /-- A run starts: `bound` is the id of the oldest transaction of the height that
  `CRAWL_VALIDATOR` has reached. -/
  | handleJob (bound : ℕ)
  /-- The loop handles its next message. -/
  | next
  /-- The run ends before its page does. -/
  | stop
deriving DecidableEq, Repr

def crawlStep (H : History) (s : CrawlState) : CrawlLabel → CrawlState
  | .handleJob bound =>
    match s.page with
    | _ :: _ => s
    | [] =>
      match getCheckpointUpdateDelegator H.messages s.checkpoint with
      | none => s
      | some height => { s with checkpoint := some height, page := txMsg H.messages height bound }
  | .next =>
    match s.page with
    | [] => s
    | m :: rest =>
      match s.db.handle m.content with
      | some db => { db := db, checkpoint := some m.id, page := rest }
      | none => { s with page := rest }
  | .stop => { s with page := [] }

/-! ## 3. What is to hold, and when it does -/

/-- The row for a delegation: there is one exactly when it is positive. -/
def rowAmount (n : ℤ) : Option ℤ := if 0 < n then some n else none

/-- The rows of the validators are the positive delegations. -/
def Match (db : Db) (δ : Delegations) : Prop :=
  ∀ d v i, db.validatorId v = some i → db.amount i d = rowAmount (δ d v)

/-- The messages that the job has processed. -/
def processed (H : History) (checkpoint : Option ℕ) : List Message :=
  H.messages.filter fun m => decide (∃ height ∈ checkpoint, m.id ≤ height)

/-- What a delegator has with all validators together. -/
def Db.total (db : Db) (delegator_address : String) : ℤ :=
  (db.validator.rows.map fun v => (db.amount v.id delegator_address).getD 0).sum

/-- The amount in the row of a delegator and a validator, `0` when there is none. -/
def Db.amountOf (db : Db) (d v : String) : ℤ := ((db.read v d).map Read.amount).getD 0

/-- The sum that the handler writes has at most 30 digits. -/
def Fits (db : Db) : Content → Prop
  | .delegate d v n => fits (db.amountOf d v + n) = true
  | .redelegate d _ dst n => fits (db.amountOf d dst + n) = true
  | .undelegate _ _ _ => True
  | .cancelUndelegate d v n => fits (db.amountOf d v + n) = true
  | .exec _ => True
  | .other => True

/-- A message that changes no row when it is handled: it moves nothing, and an amount of zero
does not meet a delegator without a row. -/
def Harmless (db : Db) : Content → Prop
  | .delegate d v n => n = 0 ∧ 0 < db.amountOf d v
  | .redelegate d _ dst n => n = 0 ∧ 0 < db.amountOf d dst
  | .undelegate d v n => n = 0 ∨ db.amountOf d v = 0
  | .cancelUndelegate d v n => n = 0 ∧ 0 < db.amountOf d v
  | .exec _ => True
  | .other => True

instance (db : Db) : (c : Content) → Decidable (Fits db c)
  | .delegate d v n => inferInstanceAs (Decidable (fits (db.amountOf d v + n) = true))
  | .redelegate d _ dst n => inferInstanceAs (Decidable (fits (db.amountOf d dst + n) = true))
  | .undelegate _ _ _ => inferInstanceAs (Decidable True)
  | .cancelUndelegate d v n => inferInstanceAs (Decidable (fits (db.amountOf d v + n) = true))
  | .exec _ => inferInstanceAs (Decidable True)
  | .other => inferInstanceAs (Decidable True)

instance (db : Db) : (c : Content) → Decidable (Harmless db c)
  | .delegate d v n => inferInstanceAs (Decidable (n = 0 ∧ 0 < db.amountOf d v))
  | .redelegate d _ dst n => inferInstanceAs (Decidable (n = 0 ∧ 0 < db.amountOf d dst))
  | .undelegate d v n => inferInstanceAs (Decidable (n = 0 ∨ db.amountOf d v = 0))
  | .cancelUndelegate d v n => inferInstanceAs (Decidable (n = 0 ∧ 0 < db.amountOf d v))
  | .exec _ => inferInstanceAs (Decidable True)
  | .other => inferInstanceAs (Decidable True)

/-- The validators of a message. -/
def validatorsOf : Content → List String
  | .delegate _ v _ => [v]
  | .redelegate _ src dst _ => [src, dst]
  | .undelegate _ v _ => [v]
  | .cancelUndelegate _ v _ => [v]
  | .exec _ => []
  | .other => []

/-- All validators of the history have a row. -/
def Known (H : History) (db : Db) : Prop :=
  ∀ m ∈ H.messages, ∀ v ∈ validatorsOf m.content, (db.validatorId v).isSome

/-- The condition of a step: the message that is handled succeeded on the chain, or it is
harmless. -/
def StepFaithful (H : History) (s : CrawlState) : CrawlLabel → Prop
  | .next =>
    ∀ m ∈ s.page.head?,
      (Succeeded H.code m ∧ Fits s.db m.content) ∨ (¬ Succeeded H.code m ∧ Harmless s.db m.content)
  | _ => True

instance (H : History) (db : Db) : Decidable (Known H db) :=
  inferInstanceAs (Decidable (∀ m ∈ H.messages, ∀ v ∈ validatorsOf m.content,
    (db.validatorId v).isSome))

instance (H : History) (s : CrawlState) : (a : CrawlLabel) → Decidable (StepFaithful H s a)
  | .next =>
    inferInstanceAs (Decidable (∀ m ∈ s.page.head?,
      (Succeeded H.code m ∧ Fits s.db m.content) ∨ (¬ Succeeded H.code m ∧ Harmless s.db m.content)))
  | .handleJob _ => inferInstanceAs (Decidable True)
  | .stop => inferInstanceAs (Decidable True)

/-! ## 4. The history -/

section
variable {H : History}

theorem applyMessage_of_not_isDelegation {m : Message} (htype : m.type = m.content.type)
    (h : isDelegation m = false) (δ : Delegations) : applyMessage H.code δ m = δ := by
  rw [isDelegation, htype] at h
  unfold applyMessage
  split
  · cases hc : m.content <;> simp_all [delegationTypes, Content.type, execute]
  · rfl

/-- Only the four types change delegations. -/
theorem delegations_filter {ms : List Message} (htype : ∀ m ∈ ms, m.type = m.content.type) :
    delegations H.code (ms.filter isDelegation) = delegations H.code ms := by
  unfold delegations
  generalize (fun _ _ => 0 : Delegations) = δ
  induction ms generalizing δ with
  | nil => rfl
  | cons m ms ih =>
    have ih := ih fun x hx => htype x (List.mem_cons_of_mem m hx)
    cases hm : isDelegation m with
    | true => rw [List.filter_cons_of_pos hm, List.foldl_cons, List.foldl_cons, ih]
    | false =>
      rw [List.filter_cons_of_neg (by simp [hm]), List.foldl_cons, ih,
        applyMessage_of_not_isDelegation (htype m List.mem_cons_self) hm]

/-- The messages up to `m` are those before it, and `m`. -/
theorem filter_le_eq {ms : List Message} (hs : ms.Pairwise fun a b => a.id < b.id)
    {m : Message} (hm : m ∈ ms) :
    ms.filter (fun x => x.id ≤ m.id) = ms.filter (fun x => x.id < m.id) ++ [m] := by
  obtain ⟨pre, post, rfl⟩ := List.append_of_mem hm
  obtain ⟨_, hpost, hpre⟩ := List.pairwise_append.mp hs
  have hlt : ∀ x ∈ pre, x.id < m.id := fun x hx => hpre x hx m List.mem_cons_self
  have hgt : ∀ x ∈ post, m.id < x.id := (List.pairwise_cons.mp hpost).1
  have hle_pre : pre.filter (fun x => x.id ≤ m.id) = pre :=
    List.filter_eq_self.mpr fun x hx => decide_eq_true (hlt x hx).le
  have hlt_pre : pre.filter (fun x => x.id < m.id) = pre :=
    List.filter_eq_self.mpr fun x hx => decide_eq_true (hlt x hx)
  have hle_post : post.filter (fun x => x.id ≤ m.id) = [] :=
    List.filter_eq_nil_iff.mpr fun x hx => by simpa using hgt x hx
  have hlt_post : post.filter (fun x => x.id < m.id) = [] :=
    List.filter_eq_nil_iff.mpr fun x hx => by simpa using (hgt x hx).le
  simp [List.filter_append, hle_pre, hlt_pre, hle_post, hlt_post]

/-- The delegations after `m` are those before it, changed by `m`. -/
theorem delegations_filter_le {m : Message} (hm : m ∈ H.messages) :
    delegations H.code (H.messages.filter fun x => x.id ≤ m.id) =
      applyMessage H.code (delegations H.code (H.messages.filter fun x => x.id < m.id)) m := by
  rw [filter_le_eq H.sorted hm, delegations, List.foldl_append]
  rfl

theorem add_nonneg' {δ : Delegations} {d v : String} {n : ℤ} (hδ : ∀ d v, 0 ≤ δ d v)
    (hn : 0 ≤ δ d v + n) : ∀ d' v', 0 ≤ δ.add d v n d' v' := by
  intro d' v'
  unfold Delegations.add
  split
  · exact hn
  · exact hδ d' v'

/-- What the chain executes leaves no negative delegation. -/
theorem execute_nonneg {δ : Delegations} {c : Content} (hδ : ∀ d v, 0 ≤ δ d v)
    (hc : CanExecute δ c) : ∀ d v, 0 ≤ execute δ c d v := by
  cases c with
  | delegate d v n =>
    have hn : 0 < n := hc
    exact add_nonneg' hδ (by have := hδ d v; omega)
  | redelegate d src dst n =>
    obtain ⟨hn, hle, hne⟩ := hc
    have hsrc := add_nonneg' hδ (d := d) (v := src) (n := -n) (by omega)
    refine add_nonneg' hsrc ?_
    have := hsrc d dst
    omega
  | undelegate d v n =>
    obtain ⟨hn, hle⟩ := hc
    exact add_nonneg' hδ (by omega)
  | cancelUndelegate d v n =>
    have hn : 0 < n := hc
    exact add_nonneg' hδ (by have := hδ d v; omega)
  | exec msgs => exact hδ
  | other => exact hδ

end

/-! ## 5. One message -/

section
variable {db db' : Db} {δ : Delegations} {d v : String}

/-- The amount of a read in tables that match nonnegative delegations. -/
theorem amount_of_match (hmatch : Match db δ) (hδ : 0 ≤ δ d v) {r : Read}
    (hold : db.Holds d r) (hid : db.validatorId v = some r.validator.id) :
    r.amount = δ d v ∧ (r.delegator = none ↔ δ d v = 0) := by
  have hrow := hmatch d v _ hid
  rw [Db.amount, hold.delegator, rowAmount] at hrow
  cases hr : r.delegator with
  | none =>
    rw [hr] at hrow
    have hzero : δ d v = 0 := by
      by_contra hne
      rw [if_pos (by omega)] at hrow
      cases hrow
    simp [Read.amount, hr, hzero]
  | some x =>
    rw [hr] at hrow
    have hpos : 0 < δ d v := by
      by_contra hne
      rw [if_neg hne] at hrow
      cases hrow
    rw [if_pos hpos] at hrow
    have hx : x.amount = δ d v := by simpa using hrow
    simp only [Read.amount, hr, Option.map_some, Option.getD_some, hx, reduceCtorEq, false_iff,
      true_and]
    omega

/-- A known validator is read. -/
theorem exists_read (h : (db.validatorId v).isSome) (d : String) : ∃ r, db.read v d = some r := by
  obtain ⟨i, hi⟩ := Option.isSome_iff_exists.mp h
  obtain ⟨w, hw, _⟩ := Option.map_eq_some_iff.mp hi
  exact ⟨_, by rw [Db.read, hw, Option.map_some]⟩

theorem amountOf_of_match (hmatch : Match db δ) (hδ : 0 ≤ δ d v)
    (hknown : (db.validatorId v).isSome) : db.amountOf d v = δ d v := by
  obtain ⟨r, hr⟩ := exists_read hknown d
  obtain ⟨hold, hid⟩ := Db.holds_of_read hr
  rw [Db.amountOf, hr, Option.map_some, Option.getD_some]
  exact (amount_of_match hmatch hδ hold hid).1

/-- A change of one row: the tables match delegations that differ in that place only. -/
theorem match_of_frame {δ' : Delegations} {i : ℕ} (hmatch : Match db δ)
    (hids : ∀ w, db'.validatorId w = db.validatorId w) (hid : db.validatorId v = some i)
    (hframe : ∀ k, k ≠ (i, d) → db'.delegator.get? k = db.delegator.get? k)
    (hrow : db'.amount i d = rowAmount (δ' d v))
    (hδ : ∀ d' v', (d', v') ≠ (d, v) → δ' d' v' = δ d' v') : Match db' δ' := by
  intro d' v' i' hid'
  rw [hids] at hid'
  by_cases hdv : (d', v') = (d, v)
  · cases hdv
    rw [hid] at hid'
    cases hid'
    exact hrow
  · have hkey : (i', d') ≠ (i, d) := by
      intro heq
      cases heq
      exact hdv (by rw [Db.validatorId_injective hid' hid])
    rw [Db.amount, hframe _ hkey, hδ d' v' hdv]
    exact hmatch d' v' i' hid'

theorem add_self (δ : Delegations) (d v : String) (n : ℤ) : δ.add d v n d v = δ d v + n := by
  simp [Delegations.add]

theorem add_of_ne {d' v' : String} {n : ℤ} (h : (d', v') ≠ (d, v)) :
    δ.add d v n d' v' = δ d' v' := if_neg h

/-- Adding an amount that leaves something. -/
theorem match_addAmount {r : Read} {n : ℤ} (hmatch : Match db δ) (hδ : 0 ≤ δ d v)
    (hold : db.Holds d r) (hid : db.validatorId v = some r.validator.id)
    (hpos : 0 < δ d v + n) (hfit : fits (δ d v + n) = true) :
    ∃ db', db.commit (addAmount r d n) = some db' ∧
      (∀ w, db'.validatorId w = db.validatorId w) ∧ Match db' (δ.add d v n) := by
  have hamount := (amount_of_match hmatch hδ hold hid).1
  obtain ⟨db', hcommit, hids, hframe, hrow⟩ := Db.commit_addAmount hold (hamount ▸ hfit)
  refine ⟨db', hcommit, hids, match_of_frame hmatch hids hid hframe ?_ fun d' v' => add_of_ne⟩
  rw [hrow, hamount, add_self, rowAmount, if_pos hpos]

/-- Taking an amount: the row goes when nothing is left. -/
theorem match_removeAmount {r : Read} {n : ℤ} (hmatch : Match db δ) (hδ : 0 ≤ δ d v)
    (hold : db.Holds d r) (hid : db.validatorId v = some r.validator.id)
    (hn : 0 ≤ n) :
    ∃ db', db.commit (removeAmount r n) = some db' ∧
      (∀ w, db'.validatorId w = db.validatorId w) ∧
      (∀ k, k ≠ (r.validator.id, d) → db'.delegator.get? k = db.delegator.get? k) ∧
      db'.delegator.get? (r.validator.id, d) = Db.remainingRow r n ∧
      Match db' (δ.add d v (-n)) := by
  obtain ⟨hamount, hnone⟩ := amount_of_match hmatch hδ hold hid
  have hfit : 0 < r.amount - n → fits (r.amount - n) = true := by
    intro hpos
    cases hr : r.delegator with
    | none =>
      have hzero := hnone.mp hr
      omega
    | some x =>
      have hx := db.amount_fits x (Table.mem_of_get? (hold.delegator.trans hr))
      have hrx : r.amount = x.amount := by simp [Read.amount, hr]
      simp only [fits, decide_eq_true_eq] at hx ⊢
      omega
  obtain ⟨db', hcommit, hids, hframe, hrow⟩ := Db.commit_removeAmount hold hfit
  refine ⟨db', hcommit, hids, hframe, hrow,
    match_of_frame hmatch hids hid hframe ?_ fun d' v' => add_of_ne⟩
  rw [Db.amount, hrow, add_self, rowAmount, Db.remainingRow]
  cases hr : r.delegator with
  | none =>
    have hzero := hnone.mp hr
    rw [if_neg (by omega)]
    rfl
  | some x =>
    have hrx : x.amount = δ d v := by simpa [Read.amount, hr] using hamount
    simp only [Option.bind_some, hrx, ← sub_eq_add_neg]
    split <;> rfl

theorem add_zero' (δ : Delegations) (d v : String) : δ.add d v 0 = δ := by
  funext d' v'
  unfold Delegations.add
  split
  · next h =>
    cases h
    exact add_zero _
  · rfl

theorem commit_append (db : Db) (ws ws' : List Write) :
    db.commit (ws ++ ws') = (db.commit ws).bind fun db' => db'.commit ws' :=
  List.foldlM_append ..

/-- A write elsewhere leaves what was read. -/
theorem Db.Holds.of_frame {r : Read} {k : ℕ × String} (hold : db.Holds d r)
    (hids : ∀ w, db'.validatorId w = db.validatorId w)
    (hframe : ∀ k', k' ≠ k → db'.delegator.get? k' = db.delegator.get? k')
    (hne : (r.validator.id, d) ≠ k) : db'.Holds d r := by
  obtain ⟨⟨w, hw⟩, hdel⟩ := hold
  exact ⟨⟨w, (hids w).trans hw⟩, (hframe _ hne).trans hdel⟩

/-- The handler of `MsgDelegate` and of `MsgCancelUnbondingDelegation`. -/
theorem handleDelegate_match {n : ℤ} (hmatch : Match db δ) (hδ : 0 ≤ δ d v)
    (hknown : (db.validatorId v).isSome) (hpos : 0 < δ d v + n)
    (hfit : fits (δ d v + n) = true) :
    ∃ db', db.commit (handleDelegateTxMsg (db.read v d) d n) = some db' ∧
      (∀ w, db'.validatorId w = db.validatorId w) ∧ Match db' (δ.add d v n) := by
  obtain ⟨r, hr⟩ := exists_read hknown d
  obtain ⟨hold, hid⟩ := Db.holds_of_read hr
  rw [hr]
  exact match_addAmount hmatch hδ hold hid hpos hfit

/-- The handler of `MsgUndelegate`. -/
theorem handleUnDelegate_match {n : ℤ} (hmatch : Match db δ) (hδ : 0 ≤ δ d v)
    (hknown : (db.validatorId v).isSome) (hn : 0 ≤ n) :
    ∃ db', db.commit (handleUnDelegateTxMsg (db.read v d) n) = some db' ∧
      (∀ w, db'.validatorId w = db.validatorId w) ∧ Match db' (δ.add d v (-n)) := by
  obtain ⟨r, hr⟩ := exists_read hknown d
  obtain ⟨hold, hid⟩ := Db.holds_of_read hr
  rw [hr]
  obtain ⟨db', hcommit, hids, -, -, hmatch'⟩ := match_removeAmount hmatch hδ hold hid hn
  exact ⟨db', hcommit, hids, hmatch'⟩

/-- The handler of `MsgBeginRedelegate`, between two validators or of an amount of zero. -/
theorem handleReDelegate_match {src dst : String} {n : ℤ} (hmatch : Match db δ)
    (hδ : ∀ d v, 0 ≤ δ d v) (hsrc : (db.validatorId src).isSome)
    (hdst : (db.validatorId dst).isSome) (hn : 0 ≤ n) (hne : src ≠ dst ∨ n = 0)
    (hpos : 0 < δ d dst + n) (hfit : fits (δ d dst + n) = true) :
    ∃ db', db.commit (handleReDelegateTxMsg (db.read src d) (db.read dst d) d n) = some db' ∧
      (∀ w, db'.validatorId w = db.validatorId w) ∧
      Match db' ((δ.add d src (-n)).add d dst n) := by
  obtain ⟨r, hr⟩ := exists_read hsrc d
  obtain ⟨r', hr'⟩ := exists_read hdst d
  obtain ⟨hold, hid⟩ := Db.holds_of_read hr
  obtain ⟨hold', hid'⟩ := Db.holds_of_read hr'
  obtain ⟨db₁, hcommit, hids, hframe, hrow, hmatch₁⟩ :=
    match_removeAmount hmatch (hδ d src) hold hid hn
  have hsame : δ.add d src (-n) d dst = δ d dst := by
    rcases hne with hne | rfl
    · exact add_of_ne fun h => hne (Prod.ext_iff.mp h).2.symm
    · rw [neg_zero, add_zero']
  -- the second row is read before the first one is written
  have hold₁ : db₁.Holds d r' := by
    by_cases hkey : (r'.validator.id, d) = (r.validator.id, d)
    · have hvid : r'.validator.id = r.validator.id := (Prod.ext_iff.mp hkey).1
      obtain rfl : src = dst := Db.validatorId_injective hid (hid'.trans (by rw [hvid]))
      obtain rfl : n = 0 := hne.resolve_left fun h => h rfl
      obtain rfl : r = r' := Option.some_injective _ (hr.symm.trans hr')
      refine ⟨⟨src, (hids src).trans hid⟩, ?_⟩
      rw [hrow, Db.remainingRow]
      cases hx : r.delegator with
      | none => rfl
      | some x =>
        have hxpos : 0 < x.amount := by
          have := (amount_of_match hmatch (hδ d src) hold hid).1
          simp only [Read.amount, hx, Option.map_some, Option.getD_some] at this
          omega
        simp [hxpos]
    · exact hold'.of_frame hids hframe hkey
  obtain ⟨db₂, hcommit₂, hids₂, hmatch₂⟩ :=
    match_addAmount (n := n) hmatch₁ (hsame ▸ hδ d dst) hold₁ ((hids dst).trans hid')
      (hsame.symm ▸ hpos) (hsame.symm ▸ hfit)
  refine ⟨db₂, ?_, fun w => (hids₂ w).trans (hids w), hmatch₂⟩
  rw [hr, hr', handleReDelegateTxMsg, commit_append, hcommit, Option.bind_some, hcommit₂]

/-- A message that the chain executed is replayed. -/
theorem handle_executed {c : Content} (hmatch : Match db δ) (hδ : ∀ d v, 0 ≤ δ d v)
    (hknown : ∀ v ∈ validatorsOf c, (db.validatorId v).isSome) (hc : CanExecute δ c)
    (hfit : Fits db c) :
    ∃ db', db.handle c = some db' ∧ (∀ w, db'.validatorId w = db.validatorId w) ∧
      Match db' (execute δ c) := by
  have hamount : ∀ {d v}, (db.validatorId v).isSome → db.amountOf d v = δ d v := by
    intro d v hv
    exact amountOf_of_match hmatch (hδ d v) hv
  cases c with
  | delegate d v n =>
    have hv := hknown v (by simp [validatorsOf])
    have hn : 0 < n := hc
    have := hδ d v
    rw [Fits, hamount hv] at hfit
    exact handleDelegate_match hmatch (hδ d v) hv (by omega) hfit
  | redelegate d src dst n =>
    obtain ⟨hn, -, hne⟩ := hc
    have hsrc := hknown src (by simp [validatorsOf])
    have hdst := hknown dst (by simp [validatorsOf])
    have := hδ d dst
    rw [Fits, hamount hdst] at hfit
    exact handleReDelegate_match hmatch hδ hsrc hdst hn.le (Or.inl hne) (by omega) hfit
  | undelegate d v n =>
    have hv := hknown v (by simp [validatorsOf])
    exact handleUnDelegate_match hmatch (hδ d v) hv hc.1.le
  | cancelUndelegate d v n =>
    have hv := hknown v (by simp [validatorsOf])
    have hn : 0 < n := hc
    have := hδ d v
    rw [Fits, hamount hv] at hfit
    exact handleDelegate_match hmatch (hδ d v) hv (by omega) hfit
  | exec msgs => exact ⟨db, rfl, fun _ => rfl, hmatch⟩
  | other => exact ⟨db, rfl, fun _ => rfl, hmatch⟩

/-- A positive amount in the table has at most 30 digits. -/
theorem fits_of_match (hmatch : Match db δ) {i : ℕ} (hid : db.validatorId v = some i)
    (hpos : 0 < δ d v) : fits (δ d v) = true := by
  have hrow := hmatch d v i hid
  rw [Db.amount, rowAmount, if_pos hpos] at hrow
  obtain ⟨x, hx, hamount⟩ := Option.map_eq_some_iff.mp hrow
  exact hamount ▸ db.amount_fits x (Table.mem_of_get? hx)

/-- A harmless message changes nothing. -/
theorem handle_harmless {c : Content} (hmatch : Match db δ) (hδ : ∀ d v, 0 ≤ δ d v)
    (hknown : ∀ v ∈ validatorsOf c, (db.validatorId v).isSome) (hc : Harmless db c) :
    ∃ db', db.handle c = some db' ∧ (∀ w, db'.validatorId w = db.validatorId w) ∧
      Match db' δ := by
  have hamount : ∀ {d v}, (db.validatorId v).isSome → db.amountOf d v = δ d v := by
    intro d v hv
    exact amountOf_of_match hmatch (hδ d v) hv
  have hfits : ∀ {d v}, (db.validatorId v).isSome → 0 < δ d v → fits (δ d v) = true := by
    intro d v hv hpos
    obtain ⟨i, hi⟩ := Option.isSome_iff_exists.mp hv
    exact fits_of_match hmatch hi hpos
  have hadd : ∀ {d v}, (db.validatorId v).isSome → 0 < db.amountOf d v →
      ∃ db', db.commit (handleDelegateTxMsg (db.read v d) d 0) = some db' ∧
        (∀ w, db'.validatorId w = db.validatorId w) ∧ Match db' δ := by
    intro d v hv hpos
    rw [hamount hv] at hpos
    have := handleDelegate_match (n := 0) hmatch (hδ d v) hv (by omega)
      (by simpa using hfits hv hpos)
    rwa [add_zero'] at this
  cases c with
  | delegate d v n =>
    obtain ⟨rfl, hpos⟩ := hc
    exact hadd (hknown v (by simp [validatorsOf])) hpos
  | redelegate d src dst n =>
    obtain ⟨rfl, hpos⟩ := hc
    have hsrc := hknown src (by simp [validatorsOf])
    have hdst := hknown dst (by simp [validatorsOf])
    rw [hamount hdst] at hpos
    have := handleReDelegate_match (d := d) (n := 0) hmatch hδ hsrc hdst le_rfl (Or.inr rfl) (by omega)
      (by simpa using hfits hdst hpos)
    rwa [neg_zero, add_zero', add_zero'] at this
  | undelegate d v n =>
    have hv := hknown v (by simp [validatorsOf])
    rcases hc with rfl | hzero
    · have := handleUnDelegate_match (n := 0) hmatch (hδ d v) hv le_rfl
      rwa [neg_zero, add_zero'] at this
    · obtain ⟨r, hr⟩ := exists_read hv d
      obtain ⟨hold, hid⟩ := Db.holds_of_read hr
      rw [hamount hv] at hzero
      have hnone := (amount_of_match hmatch (hδ d v) hold hid).2.mpr hzero
      refine ⟨db, ?_, fun _ => rfl, hmatch⟩
      simp [Db.handle, Db.reads, writes, handleUnDelegateTxMsg, hr, removeAmount, hnone, Db.commit]
  | cancelUndelegate d v n =>
    obtain ⟨rfl, hpos⟩ := hc
    exact hadd (hknown v (by simp [validatorsOf])) hpos
  | exec msgs => exact ⟨db, rfl, fun _ => rfl, hmatch⟩
  | other => exact ⟨db, rfl, fun _ => rfl, hmatch⟩

end

/-! ## 6. Runs -/

section
variable {H : History} {s : CrawlState}

theorem processed_some (H : History) (height : ℕ) :
    processed H (some height) = H.messages.filter fun m => m.id ≤ height := by
  simp [processed]

/-- The next message of the page, in the history. -/
theorem pending_cons {height : ℕ} {m : Message} {rest : List Message}
    (h : pending H.messages height = m :: rest) :
    m ∈ H.messages ∧ height < m.id ∧ pending H.messages m.id = rest ∧
      ∀ x ∈ H.messages, isDelegation x = true → (x.id < m.id ↔ x.id ≤ height) := by
  have hmem : m ∈ pending H.messages height := h ▸ List.mem_cons_self
  obtain ⟨hm, hcond⟩ := List.mem_filter.mp hmem
  have hlt : height < m.id := by simp_all
  have hsorted : (m :: rest).Pairwise fun a b => a.id < b.id := h ▸ H.sorted.filter _
  obtain ⟨hgt, -⟩ := List.pairwise_cons.mp hsorted
  refine ⟨hm, hlt, ?_, fun x hx hdel => ⟨fun hxm => ?_, fun hle => lt_of_le_of_lt hle hlt⟩⟩
  · have hcut : pending H.messages m.id =
        (pending H.messages height).filter fun x => m.id < x.id := by
      rw [pending, pending, List.filter_filter]
      refine List.filter_congr fun x _ => ?_
      by_cases hx : m.id < x.id
      · simp [hx, hlt.trans hx]
      · simp [hx]
    rw [hcut, h, List.filter_cons_of_neg (by simp), List.filter_eq_self]
    exact fun x hx => decide_eq_true (hgt x hx)
  · by_contra hnot
    have hin : x ∈ pending H.messages height :=
      List.mem_filter.mpr ⟨hx, by simp [hdel, not_le.mp hnot]⟩
    rcases List.mem_cons.mp (h ▸ hin) with rfl | hrest
    · exact lt_irrefl _ hxm
    · exact lt_asymm hxm (hgt x hrest)

/-- The delegations when the next message was executed are those of the processed messages. -/
theorem delegations_before {height : ℕ} {m : Message}
    (h : ∀ x ∈ H.messages, isDelegation x = true → (x.id < m.id ↔ x.id ≤ height)) :
    delegations H.code (H.messages.filter fun x => x.id < m.id) =
      delegations H.code (processed H (some height)) := by
  have htype : ∀ p : Message → Bool, ∀ m ∈ H.messages.filter p, m.type = m.content.type :=
    fun p m hm => H.typed m (List.mem_of_mem_filter hm)
  rw [processed_some, ← delegations_filter (htype fun x => x.id < m.id),
    ← delegations_filter (htype fun x => x.id ≤ height), List.filter_filter, List.filter_filter]
  congr 1
  refine List.filter_congr fun x hx => ?_
  cases hdel : isDelegation x with
  | true => simp [h x hx hdel]
  | false => simp

theorem txMsg_prefix (H : History) (height bound : ℕ) :
    txMsg H.messages height bound <+: pending H.messages height :=
  (List.take_prefix _ _).trans (prefix_filter_lt (H.tx_sorted.filter _) bound)

/-- The invariant of runs whose steps are faithful. -/
structure Inv (H : History) (s : CrawlState) : Prop where
  known : Known H s.db
  nonneg : ∀ d v, 0 ≤ delegations H.code (processed H s.checkpoint) d v
  rows : Match s.db (delegations H.code (processed H s.checkpoint))
  page : ∀ height, s.checkpoint = some height → s.page <+: pending H.messages height
  page_none : s.checkpoint = none → s.page = []

/-- The first checkpoint lies below all messages. -/
theorem processed_getCheckpoint {checkpoint : Option ℕ} {height : ℕ}
    (h : getCheckpointUpdateDelegator H.messages checkpoint = some height) :
    processed H (some height) = processed H checkpoint := by
  cases checkpoint with
  | some height' =>
    cases h
    rfl
  | none =>
    obtain ⟨oldest, hold, rfl⟩ := Option.map_eq_some_iff.mp h
    rw [processed_some, List.filter_eq_nil_iff.mpr, processed, List.filter_eq_nil_iff.mpr]
    · simp
    · intro m hm
      obtain ⟨rest, hrest⟩ : ∃ rest, H.messages = oldest :: rest := List.head?_eq_some_iff.mp hold
      have hsorted := List.pairwise_cons.mp (hrest ▸ H.sorted)
      have hpos := H.id_pos oldest (hrest ▸ List.mem_cons_self)
      have hle : oldest.id ≤ m.id := by
        rcases List.mem_cons.mp (hrest ▸ hm) with rfl | hmem
        · exact le_rfl
        · exact (hsorted.1 m hmem).le
      simp only [decide_eq_true_eq]
      omega

/-- The next message of the page: the chain executed it in the state of the processed
messages. -/
theorem Inv.head {m : Message} {rest : List Message} (h : Inv H s)
    (hpage : s.page = m :: rest) :
    m ∈ H.messages ∧ rest <+: pending H.messages m.id ∧
      (Succeeded H.code m → CanExecute (delegations H.code (processed H s.checkpoint)) m.content) ∧
      delegations H.code (processed H (some m.id)) =
        applyMessage H.code (delegations H.code (processed H s.checkpoint)) m := by
  cases hc : s.checkpoint with
  | none =>
    have := h.page_none hc
    simp [hpage] at this
  | some height =>
    obtain ⟨later, hlater⟩ := h.page height hc
    rw [hpage] at hlater
    obtain ⟨hm, -, hrest, hbefore⟩ := pending_cons hlater.symm
    refine ⟨hm, hrest ▸ List.prefix_append rest later, fun hok => ?_, ?_⟩
    · rw [← delegations_before hbefore]
      exact H.valid m hm hok
    · rw [processed_some, delegations_filter_le hm, delegations_before hbefore]

/-- Handling the next message. -/
theorem inv_next {m : Message} {rest : List Message} (h : Inv H s)
    (hpage : s.page = m :: rest)
    (hcond : (Succeeded H.code m ∧ Fits s.db m.content) ∨ (¬ Succeeded H.code m ∧ Harmless s.db m.content)) :
    Inv H (crawlStep H s .next) ∧
      delegations H.code (processed H (crawlStep H s .next).checkpoint) =
        applyMessage H.code (delegations H.code (processed H s.checkpoint)) m ∧
      ∀ w, (crawlStep H s .next).db.validatorId w = s.db.validatorId w := by
  obtain ⟨hm, hrest, hcan, hexec⟩ := h.head hpage
  have hhandle : ∃ db', s.db.handle m.content = some db' ∧
      (∀ w, db'.validatorId w = s.db.validatorId w) ∧
      Match db' (delegations H.code (processed H (some m.id))) ∧
      ∀ d v, 0 ≤ delegations H.code (processed H (some m.id)) d v := by
    rw [hexec]
    rcases hcond with ⟨hok, hfit⟩ | ⟨hfail, hharmless⟩
    · obtain ⟨db', hdb, hids, hmatch'⟩ :=
        handle_executed h.rows h.nonneg (h.known m hm) (hcan hok) hfit
      rw [applyMessage, if_pos hok]
      exact ⟨db', hdb, hids, hmatch', execute_nonneg h.nonneg (hcan hok)⟩
    · obtain ⟨db', hdb, hids, hmatch'⟩ :=
        handle_harmless h.rows h.nonneg (h.known m hm) hharmless
      rw [applyMessage, if_neg hfail]
      exact ⟨db', hdb, hids, hmatch', h.nonneg⟩
  obtain ⟨db', hdb, hids, hmatch', hδ'⟩ := hhandle
  have hstep : crawlStep H s .next = { db := db', checkpoint := some m.id, page := rest } := by
    simp only [crawlStep, hpage, hdb]
  rw [hstep]
  refine ⟨⟨?_, hδ', hmatch', ?_, by simp⟩, hexec, hids⟩
  · intro x hx v hv
    rw [hids]
    exact h.known x hx v hv
  · rintro _ ⟨⟩
    exact hrest

theorem inv_step {a : CrawlLabel} (h : Inv H s) (hcond : StepFaithful H s a) :
    Inv H (crawlStep H s a) := by
  cases a with
  | handleJob bound =>
    simp only [crawlStep]
    split
    · exact h
    · split
      · exact h
      · next height hheight =>
        have hproc := processed_getCheckpoint hheight
        refine ⟨h.known, ?_, ?_, ?_, by simp⟩
        · rw [hproc]
          exact h.nonneg
        · rw [hproc]
          exact h.rows
        · rintro _ ⟨⟩
          exact txMsg_prefix H height bound
  | next =>
    cases hpage : s.page with
    | nil => simpa only [crawlStep, hpage] using h
    | cons m rest =>
      exact (inv_next h hpage (hcond m (by simp [hpage]))).1
  | stop => exact ⟨h.known, h.nonneg, h.rows, fun _ _ => List.nil_prefix, fun _ => rfl⟩

/-! ## 7. Totals -/

/-- The addresses of the validators. -/
def addresses (db : Db) : List String := db.validator.rows.map (·.operator_address)

theorem mem_addresses_iff {db : Db} {v : String} :
    v ∈ addresses db ↔ (db.validatorId v).isSome := by
  simp only [addresses, List.mem_map, Db.validatorId, Option.isSome_map, Option.isSome_iff_exists,
    Table.get?_eq_some_iff]

theorem addresses_perm {db db' : Db} (h : ∀ w, db'.validatorId w = db.validatorId w) :
    (addresses db').Perm (addresses db) := by
  refine (List.perm_ext_iff_of_nodup db'.validator.nodup db.validator.nodup).mpr fun v => ?_
  exact mem_addresses_iff.trans ((h v) ▸ mem_addresses_iff.symm)

/-- The total of the rows is the total of the delegations. -/
theorem total_of_match {db : Db} {δ : Delegations} (hmatch : Match db δ) (hδ : ∀ d v, 0 ≤ δ d v)
    (d : String) : db.total d = ((addresses db).map (δ d)).sum := by
  rw [Db.total, addresses, List.map_map]
  congr 1
  refine List.map_congr_left fun v hv => ?_
  have hid : db.validatorId v.operator_address = some v.id := by
    rw [Db.validatorId, Table.get?_eq_some_iff.mpr ⟨hv, rfl⟩, Option.map_some]
  rw [hmatch d v.operator_address v.id hid, rowAmount, Function.comp_apply]
  have := hδ d v.operator_address
  split
  · rfl
  · rw [Option.getD_none]
    omega

theorem sum_add (δ : Delegations) (d v : String) (n : ℤ) {l : List String} (hl : l.Nodup)
    (hv : v ∈ l) : (l.map (δ.add d v n d)).sum = (l.map (δ d)).sum + n := by
  have hfun : δ.add d v n d = fun w => if w = v then δ d v + n else δ d w := by
    funext w
    simp [Delegations.add]
  rw [hfun, List.sum_map_ite_eq, List.count_eq_one_of_mem hl hv]
  simp only [one_smul]
  omega

/-- A redelegation on the chain keeps the total. -/
theorem sum_execute_redelegate (δ : Delegations) {d src dst : String} (n : ℤ) {l : List String}
    (hl : l.Nodup) (hsrc : src ∈ l) (hdst : dst ∈ l) :
    (l.map (execute δ (.redelegate d src dst n) d)).sum = (l.map (δ d)).sum := by
  rw [execute, sum_add _ _ _ _ hl hdst, sum_add _ _ _ _ hl hsrc]
  omega

/-- While every message that is handled succeeded on the chain, or is harmless, the rows are
the positive delegations of the processed messages; and a redelegation moves its amount from
the row of the source to the row of the destination and keeps the total. -/
theorem rows_match_chain (H : History) (db : Db) (hempty : db.delegator.rows = [])
    (hknown : Known H db) (as : List CrawlLabel)
    (has : Meets (crawlStep H) (StepFaithful H) ⟨db, none, []⟩ as) :
    let s := runFrom (crawlStep H) ⟨db, none, []⟩ as
    Match s.db (delegations H.code (processed H s.checkpoint)) ∧
      ∀ m d src dst n, s.page.head? = some m → m.content = .redelegate d src dst n →
        Succeeded H.code m → Fits s.db m.content →
          (crawlStep H s .next).db.amountOf d src = s.db.amountOf d src - n ∧
          (crawlStep H s .next).db.amountOf d dst = s.db.amountOf d dst + n ∧
          (crawlStep H s .next).db.total d = s.db.total d := by
  intro s
  have hinit : Inv H ⟨db, none, []⟩ := by
    have hnone : delegations H.code (processed H none) = fun _ _ => 0 := by
      simp [processed, delegations]
    refine ⟨hknown, ?_, ?_, by simp, fun _ => rfl⟩
    · simp [hnone]
    · intro d v i _
      simp [hnone, rowAmount, Db.amount, Table.get?, hempty]
  have hinv : Inv H s := Meets.invariant (fun _ _ => inv_step) has hinit
  refine ⟨hinv.rows, fun m d src dst n hhead hcontent hok hfit => ?_⟩
  obtain ⟨rest, hpage⟩ : ∃ rest, s.page = m :: rest := List.head?_eq_some_iff.mp hhead
  obtain ⟨hm, -, hcan, -⟩ := hinv.head hpage
  obtain ⟨hinv', hexec, hids⟩ := inv_next hinv hpage (Or.inl ⟨hok, hfit⟩)
  rw [applyMessage, if_pos hok, hcontent] at hexec
  have hne : src ≠ dst := (hcontent ▸ hcan hok : CanExecute _ (.redelegate d src dst n)).2.2
  have hsrc := hinv.known m hm src (by simp [hcontent, validatorsOf])
  have hdst := hinv.known m hm dst (by simp [hcontent, validatorsOf])
  have hsrc' := hinv'.known m hm src (by simp [hcontent, validatorsOf])
  have hdst' := hinv'.known m hm dst (by simp [hcontent, validatorsOf])
  refine ⟨?_, ?_, ?_⟩
  · rw [amountOf_of_match hinv'.rows (hinv'.nonneg d src) hsrc',
      amountOf_of_match hinv.rows (hinv.nonneg d src) hsrc, hexec, execute,
      add_of_ne fun h => hne (Prod.ext_iff.mp h).2, add_self, sub_eq_add_neg]
  · rw [amountOf_of_match hinv'.rows (hinv'.nonneg d dst) hdst',
      amountOf_of_match hinv.rows (hinv.nonneg d dst) hdst, hexec, execute, add_self,
      add_of_ne fun h => hne (Prod.ext_iff.mp h).2.symm]
  · rw [total_of_match hinv'.rows hinv'.nonneg, total_of_match hinv.rows hinv.nonneg, hexec,
      ((addresses_perm hids).map _).sum_eq]
    exact sum_execute_redelegate _ n s.db.validator.nodup (mem_addresses_iff.mpr hsrc)
      (mem_addresses_iff.mpr hdst)

/-- A message that a transaction has at its top. -/
def topMessage (id tx_id : ℕ) (content : Content) : Message where
  id := id
  tx_id := tx_id
  index := 0
  type := content.type
  content := content
  parent_id := none
  sender := "alice"

/-- A delegation, a failed undelegation of another delegator, and a redelegation. -/
def movedHistory : History where
  messages :=
    [topMessage 1 1 (.delegate "alice" "val1" 100), topMessage 2 2 (.undelegate "bob" "val1" 30),
      topMessage 3 3 (.redelegate "alice" "val1" "val2" 40)]
  code tx_id := if tx_id = 2 then 5 else 0
  sorted := by decide
  tx_sorted := by decide
  id_pos := by decide
  typed := by decide
  valid := by decide

theorem rows_match_chain_moved :
    Meets (crawlStep movedHistory) (StepFaithful movedHistory) ⟨twoValidators, none, []⟩
        [.handleJob 4, .next, .next, .next] ∧
      Match (runFrom (crawlStep movedHistory) ⟨twoValidators, none, []⟩
          [.handleJob 4, .next, .next, .next]).db
        (delegations movedHistory.code (processed movedHistory (runFrom (crawlStep movedHistory)
          ⟨twoValidators, none, []⟩ [.handleJob 4, .next, .next, .next]).checkpoint)) := by
  have hmeets : Meets (crawlStep movedHistory) (StepFaithful movedHistory) ⟨twoValidators, none, []⟩
      [.handleJob 4, .next, .next, .next] := by decide +kernel
  have hknown : Known movedHistory twoValidators := by decide +kernel
  exact ⟨hmeets, (rows_match_chain movedHistory twoValidators rfl hknown _ hmeets).1⟩

/-- A `MsgDelegate` in a transaction that failed. -/
def failedHistory : History where
  messages := [topMessage 1 1 (.delegate "alice" "val1" 100)]
  code _ := 5
  sorted := by decide
  tx_sorted := by decide
  id_pos := by decide
  typed := by decide
  valid := by decide

/-- The job inserts a row for a delegation that the chain does not have. -/
theorem failed_delegate_inserted :
    let s := runFrom (crawlStep failedHistory) ⟨twoValidators, none, []⟩ [.handleJob 2, .next]
    Known failedHistory twoValidators ∧ s.checkpoint = some 1 ∧
      delegations failedHistory.code (processed failedHistory s.checkpoint) "alice" "val1" = 0 ∧
      s.db.amount 1 "alice" = some 100 ∧
      ¬ Match s.db (delegations failedHistory.code (processed failedHistory s.checkpoint)) := by
  intro s
  have hrow : s.db.amount 1 "alice" = some 100 := by decide +kernel
  have hzero : delegations failedHistory.code (processed failedHistory s.checkpoint) "alice" "val1" = 0 := by
    decide +kernel
  refine ⟨by decide +kernel, by decide +kernel, hzero, hrow, fun hmatch => ?_⟩
  have hamount := hmatch "alice" "val1" 1 (by decide +kernel)
  rw [hrow, hzero] at hamount
  cases hamount

end

end Erascope.Staking
