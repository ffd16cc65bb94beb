import Mathlib.Tactic
import Erascope.Cw20.Replay

/-!
# The snapshot of a new CW20 contract

The model of `getInstantiateBalances` in `models/cw20_contract.ts` and of
`handleCw20Instantiate` in `services/cw20/cw20.service.ts`. A new contract is stored with the
balances that the node reports: every account with the height of its own answer, the contract
with the lowest of these heights. `jobHandle` then replays the activities above that height.

Results:
1. `snapshot_then_replay_iff`: after the replay up to `E` every amount is the balance on the
   chain and the supply is their sum, if and only if every sender is known to the replay and
   the activities at the very height of an answer above the lowest one cancel out for its
   account.
2. `snapshot_counts_twice`: an activity at the height of its recipient's answer is counted
   twice.
-/

namespace Erascope.Cw20

open Cw20Lemmas ReplayLemmas

/-! ## 1. Storing a new contract -/

/-- `IHolderEvent` -/
structure IHolderEvent where
  address : String
  amount : ℤ
  contract_address : String
  event_height : ℕ
deriving DecidableEq, Repr

/-- The answer to a `balance` query, with the height the node reports. -/
structure BalanceAnswer where
  balance : ℤ
  height : ℕ
deriving DecidableEq, Repr

/-- The loop over `all_accounts`: `pages` are the answers of the node, and an empty page ends
the loop. -/
def allAccounts : List (List String) → List String
  | [] => []
  | page :: pages => if page.isEmpty then [] else page ++ allAccounts pages

/-- `getInstantiateBalances` -/
def getInstantiateBalances (contractAddress : String) (pages : List (List String))
    (answer : String → BalanceAnswer) : List IHolderEvent :=
  (allAccounts pages).map fun account =>
    { address := account
      amount := (answer account).balance
      contract_address := contractAddress
      event_height := (answer account).height }

/-- `lastUpdatedHeight`: the lowest answer height, `0` without holders. -/
def lastUpdatedHeight (initBalances : List IHolderEvent) : ℕ :=
  ((initBalances.map (·.event_height)).min?).getD 0

/-- The rows that `handleCw20Instantiate` builds for one event; `getInstantiateBalances` is
`none` when it threw, and the contract is then not tracked. -/
def instantiateContract (id : ℕ) (contractAddress : String)
    (instantiateBalances : Option (List IHolderEvent)) : Cw20Contract × List CW20Holder :=
  let initBalances := instantiateBalances.getD []
  ({ id := id
     contract_address := contractAddress
     total_supply := (initBalances.map (·.amount)).sum
     track := instantiateBalances.isSome
     last_updated_height := lastUpdatedHeight initBalances },
   initBalances.map fun e =>
     { cw20_contract_id := id
       address := e.address
       amount := e.amount
       last_updated_height := e.event_height })

/-- `insertGraph` of a contract with its holders. -/
def insertContract (db : Db) (graph : Cw20Contract × List CW20Holder) : Db :=
  { db with
    cw20_contract := db.cw20_contract.upsert graph.1
    cw20_holder := db.cw20_holder.upsertAll graph.2 }

/-! ## 2. The chain -/

/-- The balance of an account after block `h`: what it held at the instantiation and what the
activities up to `h` moved. -/
def chainBalance (db : Db) (c : ℕ) (init : String → ℤ) (a : String) (h : ℕ) : ℤ :=
  init a + ((history db c).map fun e => if e.height ≤ h then delta a e else 0).sum

/-- What the activities of block `h` move. -/
def netAt (db : Db) (c : ℕ) (a : String) (h : ℕ) : ℤ :=
  ((history db c).map fun e => if e.height = h then delta a e else 0).sum

/-- What the node and the chain promise. The contract is new in the database, activities were
stored in chain order with their amounts, and the enumeration returns every account that has
held the token up to the lowest answer height. -/
structure SnapshotOk (db : Db) (c : ℕ) (init : String → ℤ) (accounts : List String)
    (height : String → ℕ) (m E : ℕ) : Prop where
  fresh : ∀ a, db.cw20_holder.get? (c, a) = none
  nodup : accounts.Nodup
  order : ChainOrder (activitiesOf db c)
  amount : ∀ e ∈ history db c, e.amount ≠ none
  height_le : ∀ a ∈ accounts, height a ≤ E
  enumerated : ∀ a, a ∉ accounts → ∀ h ≤ m, chainBalance db c init a h = 0

/-- The holders are the chain's, and the supply is their sum. -/
def AgreesWithChain (db db' : Db) (c : ℕ) (init : String → ℤ) (E : ℕ) : Prop :=
  (∀ a, amountOf db'.cw20_holder (c, a) = chainBalance db c init a E) ∧
  supplyOf db' c = holderSum db'.cw20_holder c

section
variable (db : Db) (c : ℕ) (contractAddress : String) (init : String → ℤ)
  (pages : List (List String)) (height : String → ℕ)

/-- The answers of the node: each is the balance after the block whose height it reports. -/
def snapshotBalances : List IHolderEvent :=
  getInstantiateBalances contractAddress pages fun a =>
    { balance := chainBalance db c init a (height a), height := height a }

/-- The database after `handleCw20Instantiate` has stored the contract. -/
def storeSnapshot : Db :=
  insertContract db (instantiateContract c contractAddress
    (some (snapshotBalances db c contractAddress init pages height)))

end

namespace SnapshotLemmas

variable {db : Db} {c : ℕ} {contractAddress : String} {init : String → ℤ}
  {pages : List (List String)} {height : String → ℕ} {E : ℕ}

/-- The rows of the snapshot. -/
def snapshotRows (db : Db) (c : ℕ) (init : String → ℤ) (pages : List (List String))
    (height : String → ℕ) : List CW20Holder :=
  (allAccounts pages).map fun a => ⟨c, a, chainBalance db c init a (height a), height a⟩

theorem cw20_holder_storeSnapshot :
    (storeSnapshot db c contractAddress init pages height).cw20_holder =
      db.cw20_holder.upsertAll (snapshotRows db c init pages height) := by
  simp only [storeSnapshot, insertContract, instantiateContract, snapshotBalances,
    getInstantiateBalances, Option.getD_some, List.map_map]
  rfl

theorem nodup_snapshotRows (hnd : (allAccounts pages).Nodup) :
    ((snapshotRows db c init pages height).map CW20Holder.key).Nodup := by
  rw [snapshotRows, List.map_map]
  exact hnd.map fun a b h => congrArg Prod.snd h

/-- The holders after the snapshot. -/
theorem get?_storeSnapshot (hfresh : ∀ a, db.cw20_holder.get? (c, a) = none)
    (hnd : (allAccounts pages).Nodup) (a : String) :
    (storeSnapshot db c contractAddress init pages height).cw20_holder.get? (c, a) =
      if a ∈ allAccounts pages then some ⟨c, a, chainBalance db c init a (height a), height a⟩
      else none := by
  rw [cw20_holder_storeSnapshot]
  have hget := Table.get?_upsertAll db.cw20_holder
    (⟨snapshotRows db c init pages height, nodup_snapshotRows hnd⟩ : Holders) (c, a)
  rw [hget, hfresh, Option.or_none]
  split
  · next hmem =>
    exact Table.get?_eq_some_iff.mpr ⟨List.mem_map.mpr ⟨a, hmem, rfl⟩, rfl⟩
  · next hmem =>
    refine Table.get?_eq_none_iff.mpr fun r hr hkey => hmem ?_
    obtain ⟨b, hb, rfl⟩ := List.mem_map.mp hr
    have hba : b = a := congrArg Prod.snd hkey
    exact hba ▸ hb

theorem lastUpdatedHeight_le {a : String} (ha : a ∈ allAccounts pages) :
    lastUpdatedHeight (snapshotBalances db c contractAddress init pages height) ≤ height a := by
  have hmem : height a ∈
      (snapshotBalances db c contractAddress init pages height).map (·.event_height) := by
    simp only [snapshotBalances, getInstantiateBalances, List.map_map]
    exact List.mem_map.mpr ⟨a, ha, rfl⟩
  unfold lastUpdatedHeight
  cases hmin : (((snapshotBalances db c contractAddress init pages height).map
      (·.event_height)).min?) with
  | none => simp
  | some m => exact (List.min?_eq_some_iff.mp hmin).2 _ hmem

/-- The snapshot itself is conservative: its supply is the sum of its holders. -/
theorem supplyOf_storeSnapshot (hfresh : ∀ a, db.cw20_holder.get? (c, a) = none)
    (hnd : (allAccounts pages).Nodup) :
    supplyOf (storeSnapshot db c contractAddress init pages height) c =
      holderSum (storeSnapshot db c contractAddress init pages height).cw20_holder c := by
  have hnew : ∀ r ∈ snapshotRows db c init pages height, db.cw20_holder.get? r.key = none := by
    intro r hr
    obtain ⟨a, -, rfl⟩ := List.mem_map.mp hr
    exact hfresh a
  have hold : holderSum db.cw20_holder c = 0 := by
    refine List.sum_eq_zero fun x hx => ?_
    obtain ⟨r, hr, rfl⟩ := List.mem_map.mp hx
    have hne : r.cw20_contract_id ≠ c := by
      rintro rfl
      exact Table.get?_eq_none_iff.mp (hfresh r.address) r hr rfl
    simp [hne]
  rw [cw20_holder_storeSnapshot]
  unfold holderSum at hold ⊢
  rw [Table.sum_upsertAll_new (nodup_snapshotRows hnd) hnew, hold, zero_add]
  simp [supplyOf, storeSnapshot, insertContract, instantiateContract, snapshotBalances,
    getInstantiateBalances, snapshotRows, Function.comp_def]

/-- The activities of a run, as a sum over the history. -/
theorem sum_jobEvents (db : Db) (c m E : ℕ) (f : Cw20Activity → ℤ) :
    ((jobEvents db ⟨c, m, E⟩).map f).sum =
      ((history db c).map fun e => if m < e.height ∧ e.height ≤ E then f e else 0).sum := by
  rw [((perm_jobEvents db ⟨c, m, E⟩).map f).sum_eq, sum_between]

/-- Where an answer counts: from the snapshot at `n` on, the activities at `n` are seen again
when they lie above the start `m` of the replay. -/
theorem sum_from_snapshot {m n : ℕ} (hmn : m ≤ n) (hnE : n ≤ E) (f : Cw20Activity → ℤ)
    (l : List Cw20Activity) :
    (l.map fun e => if e.height ≤ n then f e else 0).sum +
        (l.map fun e => if m < e.height ∧ e.height ≤ E then (if n ≤ e.height then f e else 0)
          else 0).sum =
      (l.map fun e => if e.height ≤ E then f e else 0).sum +
        if m < n then (l.map fun e => if e.height = n then f e else 0).sum else 0 := by
  split
  · rw [← List.sum_map_add, ← List.sum_map_add]
    congr 1
    refine List.map_congr_left fun e _ => ?_
    split_ifs <;> omega
  · rw [← List.sum_map_add, add_zero]
    congr 1
    refine List.map_congr_left fun e _ => ?_
    split_ifs <;> omega

/-- The amount of an account after the replay: the chain's, and the activities at the height of
its answer once more if that is above the start of the replay. -/
theorem amount_after_replay {m : ℕ}
    (hm : m = lastUpdatedHeight (snapshotBalances db c contractAddress init pages height))
    (h : SnapshotOk db c init (allAccounts pages) height m E) {st : Holders × ℤ}
    (hreplay : replay c (jobEvents db ⟨c, m, E⟩)
      ((storeSnapshot db c contractAddress init pages height).cw20_holder, 0) = .ok st)
    (hmE : m ≤ E) (a : String) :
    amountOf st.1 (c, a) = chainBalance db c init a E +
      if a ∈ allAccounts pages ∧ m < height a then netAt db c a (height a) else 0 := by
  have hrow := @get?_storeSnapshot db c contractAddress init pages height h.fresh h.nodup a
  rw [replay_amount (pairwise_height_jobEvents ⟨c, m, E⟩ h.order) hreplay a, sum_jobEvents]
  by_cases ha : a ∈ allAccounts pages
  · have hle : m ≤ height a := hm ▸ lastUpdatedHeight_le ha
    rw [if_pos ha] at hrow
    simp only [amountOf, lastOf, hrow, Option.map_some, Option.getD_some, ha, true_and]
    have hsum := sum_from_snapshot hle (h.height_le a ha) (delta a) (history db c)
    unfold chainBalance netAt
    linarith
  · -- the account held nothing up to `m`, so the replay sees everything that it ever received
    have hzero := h.enumerated a ha m (le_refl m)
    have hsum := sum_from_snapshot (le_refl m) hmE (delta a) (history db c)
    rw [if_neg ha] at hrow
    simp only [amountOf, lastOf, hrow, Option.map_none, Option.getD_none, ha, false_and, if_false,
      Nat.zero_le, if_true]
    have hfrom : ((history db c).map fun e =>
          if m < e.height ∧ e.height ≤ E then delta a e else 0) =
        (history db c).map fun e => if m < e.height ∧ e.height ≤ E then
          (if m ≤ e.height then delta a e else 0) else 0 := by
      refine List.map_congr_left fun e _ => ?_
      split_ifs <;> omega
    rw [hfrom]
    simp only [lt_irrefl, if_false] at hsum
    unfold chainBalance at hzero ⊢
    linarith

theorem lastUpdatedHeight_le_end (hle : ∀ a ∈ allAccounts pages, height a ≤ E) :
    lastUpdatedHeight (snapshotBalances db c contractAddress init pages height) ≤ E := by
  cases hacc : allAccounts pages with
  | nil => simp [snapshotBalances, getInstantiateBalances, hacc, lastUpdatedHeight]
  | cons a as =>
    have ha : a ∈ allAccounts pages := hacc ▸ List.mem_cons_self
    exact (lastUpdatedHeight_le ha).trans (hle a ha)

/-- The replay goes through exactly when its senders are known to it. -/
theorem replay_storeSnapshot_iff {m : ℕ}
    (h : SnapshotOk db c init (allAccounts pages) height m E) :
    (∃ st, replay c (jobEvents db ⟨c, m, E⟩)
      ((storeSnapshot db c contractAddress init pages height).cw20_holder, 0) = .ok st) ↔
      SendersKnown (· ∈ allAccounts pages) (jobEvents db ⟨c, m, E⟩) := by
  have hknown : (fun a => (storeSnapshot db c contractAddress init pages height).cw20_holder.get?
      (c, a) ≠ none) = (· ∈ allAccounts pages) := by
    funext a
    rw [get?_storeSnapshot h.fresh h.nodup]
    split
    · next ha => simp [ha]
    · next ha => simp [ha]
  have hamount : ∀ e ∈ jobEvents db ⟨c, m, E⟩, e.amount ≠ none := fun e he =>
    h.amount e (mem_between.mp ((perm_jobEvents db ⟨c, m, E⟩).mem_iff.mp he)).1
  rw [replay_ok_iff, hknown]
  exact ⟨And.right, fun hs => ⟨hamount, hs⟩⟩

end SnapshotLemmas

open SnapshotLemmas

/-! ## 3. Snapshot and replay -/

/-- Snapshot plus replay equals the chain. For every history and any answer heights, the replay
of the activities above the lowest answer height up to `E` gives the chain's balances and
their sum as the supply, if and only if every sender is enumerated or receives earlier in the
replay, and for every account answered above the lowest height the activities of the very block
of its answer cancel out. -/
theorem snapshot_then_replay_iff (db : Db) (c : ℕ) (contractAddress : String)
    (init : String → ℤ) (pages : List (List String)) (height : String → ℕ) (m E : ℕ)
    (hm : m = lastUpdatedHeight (snapshotBalances db c contractAddress init pages height))
    (h : SnapshotOk db c init (allAccounts pages) height m E) :
    (∃ db', jobHandle (storeSnapshot db c contractAddress init pages height) ⟨c, m, E⟩ = .ok db' ∧
      AgreesWithChain db db' c init E) ↔
    SendersKnown (· ∈ allAccounts pages) (jobEvents db ⟨c, m, E⟩) ∧
      ∀ a ∈ allAccounts pages, m < height a → netAt db c a (height a) = 0 := by
  have hmE : m ≤ E := hm ▸ lastUpdatedHeight_le_end h.height_le
  have hrow : (storeSnapshot db c contractAddress init pages height).cw20_contract.get? c ≠ none := by
    simp [storeSnapshot, insertContract, instantiateContract]
  have hrel := jobHandle_rel (storeSnapshot db c contractAddress init pages height) ⟨c, m, E⟩ hrow
  have hsupply := @supplyOf_storeSnapshot db c contractAddress init pages height h.fresh h.nodup
  have hevents : jobEvents (storeSnapshot db c contractAddress init pages height) ⟨c, m, E⟩ =
      jobEvents db ⟨c, m, E⟩ := rfl
  rw [hevents] at hrel
  rw [← @replay_storeSnapshot_iff db c contractAddress init pages height E m h]
  constructor
  · rintro ⟨db', hjob, hagree, -⟩
    rw [hjob] at hrel
    obtain ⟨st, hreplay, hres⟩ := hrel.of_ok
    refine ⟨⟨st, hreplay⟩, fun a ha hlt => ?_⟩
    have hamount := amount_after_replay hm h hreplay hmE a
    rw [if_pos ⟨ha, hlt⟩, ← hagree a] at hamount
    have hsame : amountOf db'.cw20_holder (c, a) = amountOf st.1 (c, a) := by
      rw [amountOf, amountOf, hres.holder]
    rw [hsame] at hamount
    linarith
  · rintro ⟨⟨st, hreplay⟩, hnet⟩
    rw [hreplay] at hrel
    cases hjob : jobHandle (storeSnapshot db c contractAddress init pages height) ⟨c, m, E⟩ with
    | error err =>
      rw [hjob] at hrel
      exact hrel.elim
    | ok db' =>
      rw [hjob] at hrel
      have hres : JobResult _ _ db' st := hrel
      refine ⟨db', rfl, fun a => ?_, ?_⟩
      · have hamount := amount_after_replay hm h hreplay hmE a
        have hzero : (if a ∈ allAccounts pages ∧ m < height a then netAt db c a (height a)
            else 0) = 0 := by
          split
          · next hin => exact hnet a hin.1 hin.2
          · rfl
        rw [hzero, add_zero] at hamount
        rw [← hamount, amountOf, amountOf, hres.holder]
      · -- the supply moves with the holders, and the snapshot started with their sum
        have hgap := jobResult_conserves hrow hres hreplay
        linarith

/-! ## 4. Two histories -/

/-- A mint to alice at 10, a transfer of 30 to bob at 12, and one of 10 to carol at 14. -/
def tokenDb : Db where
  cw20_activity := ⟨[⟨1, 7, .mint, some 100, none, some "alice", 10⟩,
    ⟨2, 7, .transfer, some 30, some "alice", some "bob", 12⟩,
    ⟨3, 7, .transfer, some 10, some "bob", some "carol", 14⟩], by decide⟩
  cw20_holder := Table.empty
  cw20_contract := Table.empty

/-- The node enumerates alice and bob. -/
def tokenPages : List (List String) := [["alice", "bob"], []]

/-- alice is answered at height 11, bob at height `n`. -/
def answerHeights (n : ℕ) (a : String) : ℕ := if a = "alice" then 11 else n

theorem lastUpdatedHeight_token {n : ℕ} (hn : 11 ≤ n) :
    lastUpdatedHeight (snapshotBalances tokenDb 7 "aura1token" (fun _ => 0) tokenPages
      (answerHeights n)) = 11 := by
  have hheights : (snapshotBalances tokenDb 7 "aura1token" (fun _ => 0) tokenPages
      (answerHeights n)).map (·.event_height) = [11, n] := rfl
  rw [lastUpdatedHeight, hheights]
  simp [hn]

theorem snapshotOk_token {n : ℕ} (hn : n ≤ 14) :
    SnapshotOk tokenDb 7 (fun _ => 0) (allAccounts tokenPages) (answerHeights n) 11 14 where
  fresh := fun _ => rfl
  nodup := by decide
  order := by decide
  amount := by decide
  height_le := by
    intro a _
    unfold answerHeights
    split
    · decide
    · exact hn
  enumerated := by
    intro a ha h hh
    have hne : ¬ "alice" = a := fun he => ha (he ▸ by decide)
    have hhist : history tokenDb 7 = tokenDb.cw20_activity.rows := by decide
    have h12 : ¬ 12 ≤ h := by omega
    have h14 : ¬ 14 ≤ h := by omega
    rw [chainBalance, hhist]
    simp [tokenDb, delta, truthy, Option.filter, hne, h12, h14]

/-- With bob answered at 13, where nothing happens, the replay up to 14 is right. -/
theorem snapshot_between_blocks :
    ∃ db', jobHandle (storeSnapshot tokenDb 7 "aura1token" (fun _ => 0) tokenPages
        (answerHeights 13)) ⟨7, 11, 14⟩ = .ok db' ∧
      AgreesWithChain tokenDb db' 7 (fun _ => 0) 14 := by
  refine (snapshot_then_replay_iff tokenDb 7 "aura1token" (fun _ => 0) tokenPages
    (answerHeights 13) 11 14 (lastUpdatedHeight_token (by decide)).symm
    (snapshotOk_token (by decide))).mpr ⟨?_, by decide⟩
  have hevents : jobEvents tokenDb ⟨7, 11, 14⟩ = tokenDb.cw20_activity.rows.drop 1 := by decide
  rw [hevents]
  refine sendersKnown_cons.mpr ⟨?_, sendersKnown_cons.mpr ⟨?_, sendersKnown_nil _⟩⟩
  · intro a ha
    obtain ⟨rfl, -⟩ : "alice" = a ∧ ¬ a = "" := by simpa [truthy] using ha
    decide
  · intro a ha
    obtain ⟨rfl, -⟩ : "bob" = a ∧ ¬ a = "" := by simpa [truthy] using ha
    exact Or.inl (by decide)

/-- With bob answered at 12, the block of the transfer to him, the replay adds the transfer to
his balance once more. -/
theorem snapshot_counts_twice :
    SnapshotOk tokenDb 7 (fun _ => 0) (allAccounts tokenPages) (answerHeights 12) 11 14 ∧
    11 = lastUpdatedHeight (snapshotBalances tokenDb 7 "aura1token" (fun _ => 0) tokenPages
      (answerHeights 12)) ∧
    ¬ ∃ db', jobHandle (storeSnapshot tokenDb 7 "aura1token" (fun _ => 0) tokenPages
        (answerHeights 12)) ⟨7, 11, 14⟩ = .ok db' ∧
      AgreesWithChain tokenDb db' 7 (fun _ => 0) 14 := by
  refine ⟨snapshotOk_token (by decide), (lastUpdatedHeight_token (by decide)).symm, ?_⟩
  rintro ⟨db', hjob, hagree, -⟩
  have hbob : amountOf (execute (storeSnapshot tokenDb 7 "aura1token" (fun _ => 0) tokenPages
      (answerHeights 12)) ⟨7, 11, 14⟩).cw20_holder (7, "bob") = 50 := by decide
  have hchain : chainBalance tokenDb 7 (fun _ => 0) "bob" 14 = 20 := by decide
  simp only [execute, hjob] at hbob
  have := (hagree "bob").trans hchain
  omega

end Erascope.Cw20
