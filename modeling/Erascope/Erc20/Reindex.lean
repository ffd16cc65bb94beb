import Mathlib.Tactic
import Erascope.Erc20.Service

/-!
# Reindexing a contract: the activities

The model of `Erc20Reindexer.reindex`: the rows of a contract are deleted, its activities are
built again from the event tables up to the head of the chain, and its balances are replayed
from supply `0`. The jobs go on from their own checkpoints, which lie elsewhere.

Results:
1. `activities_exact_iff`: reindexing and then storing the activities above
   `HANDLE_ERC20_ACTIVITY` leaves each activity once exactly when the reindexer has read each
   event of the contract up to that checkpoint once and none above it (`ReadOnce`).
2. `reindexActivities_eq`: in that case it has stored the same rows in the same order.
-/

namespace Erascope.Erc20

/-! ## 1. The reindexer -/

/-- `patch({ track: false })` -/
def stopTracking (address : String) (contracts : Contracts) : Contracts :=
  match contracts.get? address with
  | none => contracts
  | some c => contracts.upsert { c with track := false }

section
variable (env : Env) (evs : Events) (blockHeight : ℕ) (address : String) (db : Db)

/-- The contract row that replaces the old one. -/
def reindexContract : Erc20Contract :=
  { address := address
    total_supply := some 0
    track := true
    last_updated_height := blockHeight }

/-- The tables after the rows of the contract are deleted and the contract is inserted. -/
def cleanLedger : Ledger :=
  { accountBalances := db.ledger.accountBalances.filter fun b => b.denom ≠ address
    erc20Contracts := ((stopTracking address db.ledger.erc20Contracts).filter
      fun c => c.address ≠ address).upsert (reindexContract blockHeight address) }

/-- The activities that are built again. -/
def reindexActivities : List Erc20Activity :=
  buildErc20Activities env evs (hasContract (cleanLedger blockHeight address db).erc20Contracts)
    0 blockHeight (some [address])

/-- The tables before the balances are replayed. -/
def cleanDb : Db :=
  { activities := (db.activities.filter fun a => a.erc20_contract_address ≠ address) ++
      reindexActivities env evs blockHeight address db
    ledger := cleanLedger blockHeight address db
    accounts := db.accounts }

/-- `reindex`; `evs` is what the event tables hold, `blockHeight` what `getBlockNumber` answers. -/
def reindex : Except Erc20Error Db :=
  match (stopTracking address db.ledger.erc20Contracts).get? address with
  | none => .error .notFound
  | some _ =>
    let db := cleanDb env evs blockHeight address db
    let erc20ActivitiesInDb := getErc20Activities db 0 blockHeight (some [address])
    let missing := missingAccountsAddress erc20ActivitiesInDb
    if missing.contains none then .error .addressMissing
    else if missing ≠ [] then .error .missingAccounts
    else do
      let ledger ← updateErc20AccountsBalance db.accounts erc20ActivitiesInDb db.ledger
      return { db with ledger := ledger }

end

/-- The event tables when they are filled up to a height. -/
def Events.upTo (evs : Events) (crawled : ℕ) : Events :=
  { evmEvents := evs.evmEvents.filter fun e => e.block_height ≤ crawled
    cosmosEvents := evs.cosmosEvents.filter fun e => e.block_height ≤ crawled }

/-! ## 2. The rows of one event -/

section
variable (env : Env) (x : String)

/-- The activities of a log in a range. -/
def logRows (lo hi : ℕ) (e : EvmEvent) : List Erc20Activity :=
  if e.address = x ∧ lo < e.block_height ∧ e.block_height ≤ hi then
    (buildEvmActivity env e).toList
  else []

/-- The activities of a convert event in a range, when the query returns it `copies` times. -/
def convertRows (copies : Event → ℕ) (lo hi : ℕ) (e : Event) : List Erc20Activity :=
  if env.evmOnly = false ∧ isConvert e ∧ lo < e.block_height ∧ e.block_height ≤ hi then
    ((List.replicate (copies e) e).filterMap (buildTransferActivityByCosmos env)).filter
      fun a => a.erc20_contract_address = x
  else []

/-- How often the query of the reindexer returns a convert event. -/
def tokenCopies (e : Event) : ℕ := (tokenAttributes [x] e).length

/-- Up to the height `read` the reindexer sees the events of the contract: each one up to
`stored` once, and none above it. -/
structure ReadOnce (evs : Events) (read stored : ℕ) : Prop where
  logs : ∀ e ∈ evs.evmEvents, e.address = x → 0 < e.block_height →
    (buildEvmActivity env e).isSome → (e.block_height ≤ read ↔ e.block_height ≤ stored)
  conversions : env.evmOnly = false → ∀ e ∈ evs.cosmosEvents, isConvert e → 0 < e.block_height →
    ∀ a, buildTransferActivityByCosmos env e = some a → a.erc20_contract_address = x →
    (if e.block_height ≤ read then tokenCopies x e else 0) = if e.block_height ≤ stored then 1 else 0

/-- A convert event that names the contract in an `erc20_token` attribute converts it. -/
def TokensAgree (evs : Events) : Prop :=
  ∀ e ∈ evs.cosmosEvents, isConvert e → tokenAttributes [x] e ≠ [] →
    ∀ a, buildTransferActivityByCosmos env e = some a → a.erc20_contract_address = x

end

namespace ReindexLemmas

open ActivitiesLemmas

variable {env : Env} {evs : Events} {x : String}

/-- The history of a contract in a range, event by event. -/
theorem between_contractHistory (s e : ℕ) :
    between Erc20Activity.height s e (contractHistory env evs x) =
      (evs.evmEvents.flatMap (logRows env x s e) ++
        evs.cosmosEvents.flatMap (convertRows env x (fun _ => 1) s e)).insertionSort txOrder := by
  rw [contractHistory, history, between, ← insertionSort_filter, ← insertionSort_filter]
  congr 1
  show between Erc20Activity.height s e _ = _
  rw [List.filter_append, between_append_rows, filter_evmActivities (decide_eq_true rfl)]
  congr 1
  · rw [← between_filterMap (fun r b hb => (buildEvmActivity_eq_some hb).1), between,
      List.filter_filter, filterMap_filter_eq_flatMap]
    refine List.flatMap_congr fun r _ => ?_
    simp only [logRows, ← Bool.decide_and, decide_eq_true_eq]
    congr 1
    exact propext and_comm
  · unfold cosmosActivities
    split
    · next hevm => simp [convertRows, hevm]
    · next hevm =>
      rw [← filter_between, ← between_filterMap
        (fun r b hb => (buildTransferActivityByCosmos_eq_some hb).1), between, List.filter_filter,
        filterMap_filter_eq_flatMap, List.filter_flatMap]
      refine List.flatMap_congr fun r _ => ?_
      simp only [convertRows, Bool.and_eq_true, decide_eq_true_eq, Bool.not_eq_true _ ▸ hevm,
        true_and]
      have hone : (List.replicate 1 r).filterMap (buildTransferActivityByCosmos env) =
          (buildTransferActivityByCosmos env r).toList := by
        cases hb : buildTransferActivityByCosmos env r <;> simp [hb]
      rw [hone]
      by_cases h : isConvert r = true ∧ s < r.block_height ∧ r.block_height ≤ e
      · rw [if_pos ⟨h.2, h.1⟩, if_pos h]
      · rw [if_neg fun h' => h ⟨h'.2, h'.1⟩, if_neg h]
        rfl

theorem hasContract_cleanLedger (blockHeight : ℕ) (db : Db) :
    hasContract (cleanLedger blockHeight x db).erc20Contracts x = true := by
  simp [hasContract, cleanLedger, reindexContract]

/-- What the reindexer reads, event by event. -/
theorem reindexActivities_rows (htokens : TokensAgree env x evs) (blockHeight crawled : ℕ)
    (db : Db) :
    reindexActivities env (evs.upTo crawled) blockHeight x db =
      (evs.evmEvents.flatMap (logRows env x 0 (min blockHeight crawled)) ++
        evs.cosmosEvents.flatMap
          (convertRows env x (tokenCopies x) 0 (min blockHeight crawled))).insertionSort
        txOrder := by
  rw [reindexActivities, buildErc20Activities]
  congr 2
  · rw [erc20Events, between, Events.upTo, List.filter_filter, List.filter_filter,
      filterMap_filter_eq_flatMap]
    refine List.flatMap_congr fun r _ => ?_
    unfold logRows
    congr 1
    have hhas := hasContract_cleanLedger (x := x) blockHeight db
    by_cases hx : r.address = x
    · simp only [hx, hhas, Option.all_some, List.contains_cons, List.contains_nil, beq_self_eq_true,
        Bool.or_false, Bool.and_true, Bool.true_and, Bool.and_eq_true, decide_eq_true_eq, true_and,
        le_min_iff, eq_iff_iff]
      tauto
    · simp [hx]
  · unfold erc20CosmosEvents
    split
    · next hevm => simp [convertRows, hevm]
    · next hevm =>
      simp only [Events.upTo, between, List.filter_filter, flatMap_filter, List.filterMap_flatMap]
      refine List.flatMap_congr fun r hr => ?_
      rw [List.map_const']
      by_cases h : isConvert r = true ∧ 0 < r.block_height ∧ r.block_height ≤ min blockHeight crawled
      · obtain ⟨hconvert, hpos, hle⟩ := h
        rw [le_min_iff] at hle
        rw [if_pos (by simp [hconvert, hpos, hle.1, hle.2]), convertRows,
          if_pos ⟨Bool.not_eq_true _ ▸ hevm, hconvert, hpos, le_min_iff.mpr hle⟩]
        refine (List.filter_eq_self.mpr fun a ha => ?_).symm
        obtain ⟨r', hr', ha'⟩ := List.mem_filterMap.mp ha
        obtain ⟨hne, rfl⟩ := List.mem_replicate.mp hr'
        refine decide_eq_true (htokens r' hr hconvert (fun hnil => hne ?_) a ha')
        rw [hnil]
        rfl
      · rw [if_neg, convertRows, if_neg fun h' => h h'.2]
        · rfl
        · simp only [Bool.and_eq_true, decide_eq_true_eq]
          rintro ⟨hconvert, ⟨hpos, hhead⟩, hcrawled⟩
          exact h ⟨hconvert, hpos, le_min_iff.mpr ⟨hhead, hcrawled⟩⟩

theorem logRows_eq {e : EvmEvent} {a : Erc20Activity} (hx : e.address = x)
    (hb : buildEvmActivity env e = some a) (lo hi : ℕ) :
    logRows env x lo hi e =
      List.replicate (if lo < e.block_height ∧ e.block_height ≤ hi then 1 else 0) a := by
  unfold logRows
  by_cases h : lo < e.block_height ∧ e.block_height ≤ hi <;> simp [hx, hb, h]

theorem logRows_eq_nil {e : EvmEvent} (h : e.address = x → buildEvmActivity env e = none)
    (lo hi : ℕ) : logRows env x lo hi e = [] := by
  unfold logRows
  split
  · next hcond => rw [h hcond.1]; rfl
  · rfl

theorem convertRows_eq {e : Event} {a : Erc20Activity} (hevm : env.evmOnly = false)
    (hconvert : isConvert e) (hb : buildTransferActivityByCosmos env e = some a)
    (hx : a.erc20_contract_address = x) (copies : Event → ℕ) (lo hi : ℕ) :
    convertRows env x copies lo hi e =
      List.replicate (if lo < e.block_height ∧ e.block_height ≤ hi then copies e else 0) a := by
  unfold convertRows
  by_cases h : lo < e.block_height ∧ e.block_height ≤ hi
  · rw [if_pos ⟨hevm, hconvert, h⟩, if_pos h, List.filterMap_replicate_of_some hb,
      List.filter_replicate_of_pos]
    exact decide_eq_true hx
  · rw [if_neg fun h' => h h'.2.2, if_neg h]
    rfl

theorem convertRows_eq_nil {e : Event} (h : env.evmOnly = false → isConvert e →
      ∀ a, buildTransferActivityByCosmos env e = some a → a.erc20_contract_address ≠ x)
    (copies : Event → ℕ) (lo hi : ℕ) : convertRows env x copies lo hi e = [] := by
  unfold convertRows
  split
  · next hcond =>
    rw [List.filter_eq_nil_iff]
    intro a ha
    obtain ⟨e', he', hb⟩ := List.mem_filterMap.mp ha
    obtain ⟨-, rfl⟩ := List.mem_replicate.mp he'
    simpa using h hcond.1 hcond.2.1 a hb
  · rfl

theorem perm_replicate_append_iff {m n k : ℕ} {a : Erc20Activity} :
    (List.replicate m a ++ List.replicate n a).Perm (List.replicate k a) ↔ m + n = k := by
  rw [← List.replicate_add, List.perm_replicate]
  constructor
  · intro h
    simpa using congrArg List.length h
  · rintro rfl
    rfl

/-- A log is stored once exactly when the reindexer reads it if it is not read later. -/
theorem logRows_perm_iff {read stored E : ℕ} (hsE : stored ≤ E) (e : EvmEvent) :
    (logRows env x 0 read e ++ logRows env x stored E e).Perm (logRows env x 0 E e) ↔
      (e.address = x → 0 < e.block_height → (buildEvmActivity env e).isSome →
        (e.block_height ≤ read ↔ e.block_height ≤ stored)) := by
  by_cases hx : e.address = x
  · cases hb : buildEvmActivity env e with
    | none =>
      rw [logRows_eq_nil fun _ => hb, logRows_eq_nil fun _ => hb, logRows_eq_nil fun _ => hb]
      simp
    | some a =>
      rw [logRows_eq hx hb, logRows_eq hx hb, logRows_eq hx hb, perm_replicate_append_iff]
      simp only [hx, Option.isSome_some, forall_const]
      split_ifs <;> omega
  · rw [logRows_eq_nil fun h => absurd h hx, logRows_eq_nil fun h => absurd h hx,
      logRows_eq_nil fun h => absurd h hx]
    simp [hx]

/-- The same for a convert event, which may be read several times. -/
theorem convertRows_perm_iff {read stored E : ℕ} (hsE : stored ≤ E) (e : Event) :
    (convertRows env x (tokenCopies x) 0 read e ++
        convertRows env x (fun _ => 1) stored E e).Perm
      (convertRows env x (fun _ => 1) 0 E e) ↔
      (env.evmOnly = false → isConvert e → 0 < e.block_height →
        ∀ a, buildTransferActivityByCosmos env e = some a → a.erc20_contract_address = x →
        (if e.block_height ≤ read then tokenCopies x e else 0) =
          if e.block_height ≤ stored then 1 else 0) := by
  by_cases h : env.evmOnly = false ∧ isConvert e ∧
      ∃ a, buildTransferActivityByCosmos env e = some a ∧ a.erc20_contract_address = x
  · obtain ⟨hevm, hconvert, a, hb, hx⟩ := h
    rw [convertRows_eq hevm hconvert hb hx, convertRows_eq hevm hconvert hb hx,
      convertRows_eq hevm hconvert hb hx, perm_replicate_append_iff]
    simp only [hevm, hconvert, hb, Option.some.injEq, forall_const, forall_eq', hx]
    rcases Nat.eq_zero_or_pos e.block_height with hzero | hpos
    · simp [hzero]
    · simp only [hpos, true_and, forall_const]
      split_ifs <;> simp <;> omega
  · have hnil : env.evmOnly = false → isConvert e →
        ∀ a, buildTransferActivityByCosmos env e = some a → a.erc20_contract_address ≠ x :=
      fun hevm hconvert a hb hx => h ⟨hevm, hconvert, a, hb, hx⟩
    rw [convertRows_eq_nil hnil, convertRows_eq_nil hnil, convertRows_eq_nil hnil]
    refine iff_of_true (List.Perm.refl _) fun hevm hconvert _ a hb hx => ?_
    exact absurd hx (hnil hevm hconvert a hb)

/-- Rows of logs carry the id of a log; rows of convert events do not. -/
theorem evm_event_id_logRows {lo hi : ℕ} {e : EvmEvent} {a : Erc20Activity}
    (h : a ∈ logRows env x lo hi e) : a.evm_event_id = some e.id := by
  unfold logRows at h
  split at h
  · exact (buildEvmActivity_eq_some (Option.mem_toList.mp h)).2.2.2.1
  · cases h

theorem event_id_convertRows {copies : Event → ℕ} {lo hi : ℕ} {e : Event} {a : Erc20Activity}
    (h : a ∈ convertRows env x copies lo hi e) :
    a.evm_event_id = none ∧ a.cosmos_event_id = some e.id := by
  unfold convertRows at h
  split at h
  · obtain ⟨e', he', hb⟩ := List.mem_filterMap.mp (List.mem_of_mem_filter h)
    obtain ⟨-, rfl⟩ := List.mem_replicate.mp he'
    obtain ⟨-, -, hid, hnone⟩ := buildTransferActivityByCosmos_eq_some hb
    exact ⟨hnone, hid⟩
  · cases h

theorem nodup_some {α : Type} {f : α → ℕ} {l : List α} (h : (l.map f).Nodup) :
    (l.map fun e => some (f e)).Nodup := by
  have := h.map (Option.some_injective ℕ)
  rwa [List.map_map] at this

end ReindexLemmas

open ReindexLemmas

/-! ## 3. Results -/

section
variable {env : Env} {evs : Events} {x : String}

/-- Reindexing up to the head, then storing the activities above `stored` up to `E`, leaves each
activity of the contract up to `E` once exactly when the reindexer has read each of its events up
to `stored` once and none above it. -/
theorem activities_exact_iff (htokens : TokensAgree env x evs)
    (hevm : (evs.evmEvents.map (·.id)).Nodup) (hcosmos : (evs.cosmosEvents.map (·.id)).Nodup)
    {blockHeight crawled stored E : ℕ} (hsE : stored ≤ E) (db : Db) :
    (reindexActivities env (evs.upTo crawled) blockHeight x db ++
        between Erc20Activity.height stored E (contractHistory env evs x)).Perm
      (between Erc20Activity.height 0 E (contractHistory env evs x)) ↔
    ReadOnce env x evs (min blockHeight crawled) stored := by
  rw [reindexActivities_rows htokens, between_contractHistory, between_contractHistory]
  generalize min blockHeight crawled = read
  -- undo the sorts and collect the rows of each event
  have hcollect : ((evs.evmEvents.flatMap (logRows env x 0 read) ++
        evs.cosmosEvents.flatMap (convertRows env x (tokenCopies x) 0 read)).insertionSort txOrder ++
      (evs.evmEvents.flatMap (logRows env x stored E) ++
        evs.cosmosEvents.flatMap (convertRows env x (fun _ => 1) stored E)).insertionSort
          txOrder).Perm
      ((evs.evmEvents.flatMap fun e => logRows env x 0 read e ++ logRows env x stored E e) ++
        evs.cosmosEvents.flatMap fun e => convertRows env x (tokenCopies x) 0 read e ++
          convertRows env x (fun _ => 1) stored E e) := by
    refine ((List.perm_insertionSort _ _).append (List.perm_insertionSort _ _)).trans ?_
    refine List.Perm.trans ?_ ((List.flatMap_append_perm _ _ _).append
      (List.flatMap_append_perm _ _ _))
    rw [List.append_assoc, List.append_assoc]
    exact (List.perm_append_comm_assoc _ _ _).append_left _
  have htarget := List.perm_insertionSort txOrder (evs.evmEvents.flatMap (logRows env x 0 E) ++
    evs.cosmosEvents.flatMap (convertRows env x (fun _ => 1) 0 E))
  have hpair : ∀ {A B A' B' : List Erc20Activity}, A.Perm B → A'.Perm B' →
      (A.Perm A' ↔ B.Perm B') := fun h h' =>
    ⟨fun hA => h.symm.trans (hA.trans h'), fun hB => h.trans (hB.trans h'.symm)⟩
  have hlogs := perm_flatMap_iff Erc20Activity.evm_event_id (nodup_some hevm)
    (f := fun e => logRows env x 0 read e ++ logRows env x stored E e) (g := logRows env x 0 E)
    (fun e _ a ha => (List.mem_append.mp ha).elim evm_event_id_logRows evm_event_id_logRows)
    (fun e _ a ha => evm_event_id_logRows ha)
  have hconversions := perm_flatMap_iff Erc20Activity.cosmos_event_id (nodup_some hcosmos)
    (f := fun e => convertRows env x (tokenCopies x) 0 read e ++
      convertRows env x (fun _ => 1) stored E e) (g := convertRows env x (fun _ => 1) 0 E)
    (fun e _ a ha => (List.mem_append.mp ha).elim (fun h => (event_id_convertRows h).2)
      fun h => (event_id_convertRows h).2)
    (fun e _ a ha => (event_id_convertRows ha).2)
  rw [hpair hcollect htarget, perm_append_iff (p := fun a => a.evm_event_id.isSome), hlogs,
    hconversions]
  · constructor
    · rintro ⟨h, h'⟩
      exact ⟨fun e he => (logRows_perm_iff hsE e).mp (h e he),
        fun hevm e he => (convertRows_perm_iff hsE e).mp (h' e he) hevm⟩
    · rintro ⟨h, h'⟩
      exact ⟨fun e he => (logRows_perm_iff hsE e).mpr (h e he),
        fun e he => (convertRows_perm_iff hsE e).mpr fun hevm => h' hevm e he⟩
  · intro a ha
    obtain ⟨e, -, hmem⟩ := List.mem_flatMap.mp ha
    rw [(List.mem_append.mp hmem).elim evm_event_id_logRows evm_event_id_logRows]
    rfl
  · intro a ha
    obtain ⟨e, -, hmem⟩ := List.mem_flatMap.mp ha
    rw [evm_event_id_logRows hmem]
    rfl
  · intro a ha
    obtain ⟨e, -, hmem⟩ := List.mem_flatMap.mp ha
    rw [(List.mem_append.mp hmem).elim (fun h => (event_id_convertRows h).1)
      fun h => (event_id_convertRows h).1]
    rfl
  · intro a ha
    obtain ⟨e, -, hmem⟩ := List.mem_flatMap.mp ha
    rw [(event_id_convertRows hmem).1]
    rfl

/-- In that case it has stored the same rows in the same order. -/
theorem reindexActivities_eq (htokens : TokensAgree env x evs) {blockHeight crawled stored : ℕ}
    (hread : ReadOnce env x evs (min blockHeight crawled) stored) (db : Db) :
    reindexActivities env (evs.upTo crawled) blockHeight x db =
      between Erc20Activity.height 0 stored (contractHistory env evs x) := by
  rw [reindexActivities_rows htokens, between_contractHistory]
  congr 2
  · refine List.flatMap_congr fun e he => ?_
    by_cases h : e.address = x ∧ (buildEvmActivity env e).isSome
    · obtain ⟨hx, hsome⟩ := h
      obtain ⟨a, hb⟩ := Option.isSome_iff_exists.mp hsome
      have hiff := hread.logs e he hx
      rw [logRows_eq hx hb, logRows_eq hx hb]
      congr 2
      exact propext ⟨fun h => ⟨h.1, (hiff h.1 hsome).mp h.2⟩, fun h => ⟨h.1, (hiff h.1 hsome).mpr h.2⟩⟩
    · have hnone : e.address = x → buildEvmActivity env e = none := fun hx => by
        simpa [hx] using h
      rw [logRows_eq_nil hnone, logRows_eq_nil hnone]
  · refine List.flatMap_congr fun e he => ?_
    by_cases h : env.evmOnly = false ∧ isConvert e ∧
        ∃ a, buildTransferActivityByCosmos env e = some a ∧ a.erc20_contract_address = x
    · obtain ⟨hevm, hconvert, a, hb, hx⟩ := h
      rw [convertRows_eq hevm hconvert hb hx, convertRows_eq hevm hconvert hb hx]
      congr 1
      by_cases hpos : 0 < e.block_height
      · simpa only [hpos, true_and] using hread.conversions hevm e he hconvert hpos a hb hx
      · simp [hpos]
    · have hnil : env.evmOnly = false → isConvert e →
          ∀ a, buildTransferActivityByCosmos env e = some a → a.erc20_contract_address ≠ x :=
        fun hevm hconvert a hb hx => h ⟨hevm, hconvert, a, hb, hx⟩
      rw [convertRows_eq_nil hnil, convertRows_eq_nil hnil]

end

end Erascope.Erc20
