import Mathlib.Tactic
import Erascope.Lib.Run
import Erascope.Cw20.Snapshot

/-!
# The queue between CW20 activities and balances

The model of `jobHandleCw20` in `services/cw20/cw20.service.ts` together with
`UpdateByContract` and the queue `CW20_UPDATE_BY_CONTRACT`. A run of `jobHandleCw20` commits
the activities of its range and the `HANDLE_CW20` checkpoint; after that it calls
`UpdateByContract`, which puts one job for each contract on the queue. A crash in between
loses the call. The queue delivers a job again when it was not acknowledged, and in any order.

Results:
1. `settled_of_in_order`: in every run in which no crash loses activities and the jobs of a
   contract are executed in their order and once, all balances are up to date whenever the
   queue is empty.
2. `updates_lost_or_repeated`: a crash, an unacknowledged execution and an execution out of
   order each leave wrong balances behind.
-/

namespace Erascope.Cw20

open Cw20Lemmas ReplayLemmas

/-! ## 1. The system -/

/-- An event of a CW20 contract, as `getCw20ContractEvents` returns it. -/
structure SmartContractEvent where
  contract_address : String
  action : Cw20Action
  amount : Option ℤ
  fromAddress : Option String
  toAddress : Option String
  height : ℕ
deriving DecidableEq, Repr

/-- A run of `jobHandleCw20` after its commit and before the call of `UpdateByContract`. -/
structure Pending where
  startBlock : ℕ
  endBlock : ℕ
  addresses : List String
deriving DecidableEq, Repr

/-- The rows of a contract when it was first seen; nothing in the code reads them. -/
structure Baseline where
  holders : Holders
  total_supply : ℤ
  last_updated_height : ℕ

/-- The tables, the `HANDLE_CW20` checkpoint, the run in progress and the queue; `baseline` is
kept for the statement only. -/
structure System where
  db : Db
  handled : ℕ
  pending : Option Pending
  queue : List Cw20UpdateByContractParam
  baseline : ℕ → Option Baseline

/-- An id that no row has yet; ids grow. -/
def nextId (ids : List ℕ) : ℕ := ids.foldr max 0 + 1

/-- `handleCw20Instantiate`, one event: the contract and its holders, with the answers of the
node. -/
def handleCw20Instantiate (answers : String → Option (List IHolderEvent)) (s : System)
    (event : SmartContractEvent) : System :=
  let id := nextId (s.db.cw20_contract.rows.map (·.id))
  let graph := instantiateContract id event.contract_address (answers event.contract_address)
  let db := insertContract s.db graph
  { s with
    db := db
    baseline := Function.update s.baseline id
      (some ⟨db.cw20_holder, graph.1.total_supply, graph.1.last_updated_height⟩) }

/-- `cw20ContractsByAddress` -/
def contractByAddress (db : Db) (address : String) : Option Cw20Contract :=
  db.cw20_contract.rows.find? fun row => row.track && decide (row.contract_address = address)

/-- `handleCw20Histories`, one event: the activity of a tracked contract. -/
def handleCw20Histories (db : Db) (event : SmartContractEvent) : Db :=
  match contractByAddress db event.contract_address with
  | none => db
  | some row =>
    { db with
      cw20_activity := db.cw20_activity.upsert
        { id := nextId (db.cw20_activity.rows.map (·.id))
          cw20_contract_id := row.id
          action := event.action
          amount := event.amount
          fromAddress := event.fromAddress
          toAddress := event.toAddress
          height := event.height } }

/-- What a run of `jobHandleCw20` meets: the events of its range in chain order, and contracts
and holders that do not violate the unique keys (else the transaction is rolled back). -/
def RunOk (s : System) (events : List SmartContractEvent) (endBlock : ℕ)
    (answers : String → Option (List IHolderEvent)) : Prop :=
  s.pending = none ∧ s.handled < endBlock ∧
  (∀ e ∈ events, s.handled < e.height ∧ e.height ≤ endBlock) ∧
  (events.Pairwise fun a b => a.height ≤ b.height) ∧
  ((events.filter fun e => e.action = .instantiate).map (·.contract_address)).Nodup ∧
  (∀ e ∈ events, e.action = .instantiate →
    (∀ row ∈ s.db.cw20_contract.rows, row.contract_address ≠ e.contract_address) ∧
    (((answers e.contract_address).getD []).map (·.address)).Nodup)

instance (s : System) (events : List SmartContractEvent) (endBlock : ℕ)
    (answers : String → Option (List IHolderEvent)) : Decidable (RunOk s events endBlock answers) :=
  inferInstanceAs (Decidable (_ ∧ _ ∧ (∀ e ∈ events, _) ∧ _ ∧ _ ∧ ∀ e ∈ events, _))

/-- The transaction of `jobHandleCw20`. -/
def jobHandleCw20 (s : System) (events : List SmartContractEvent) (endBlock : ℕ)
    (answers : String → Option (List IHolderEvent)) : System :=
  let s' := (events.filter fun e => e.action = .instantiate).foldl
    (handleCw20Instantiate answers) s
  { s' with
    db := events.foldl handleCw20Histories s'.db
    handled := endBlock
    pending := some ⟨s.handled, endBlock, events.map (·.contract_address)⟩ }

/-- The job that `UpdateByContract` creates for a contract, if any. -/
def jobFor (p : Pending) (row : Cw20Contract) : List Cw20UpdateByContractParam :=
  let startUpdateBlock := max p.startBlock row.last_updated_height
  if startUpdateBlock < p.endBlock then [⟨row.id, startUpdateBlock, p.endBlock⟩] else []

/-- The contracts that `jobHandleCw20` passes to `UpdateByContract`. -/
def cw20Contracts (db : Db) (p : Pending) : List Cw20Contract :=
  db.cw20_contract.rows.filter fun row => row.track && p.addresses.contains row.contract_address

/-- A step of the system. -/
inductive Cw20Step
  /-- A run of `jobHandleCw20` commits the events of the blocks up to `endBlock`. -/
  | handleCw20 (events : List SmartContractEvent) (endBlock : ℕ)
      (answers : String → Option (List IHolderEvent))
  /-- The run reads the contracts and calls `UpdateByContract`. -/
  | updateByContract
  /-- The run crashes before the call. -/
  | crash
  /-- The `i`-th job of the queue is executed; the queue delivers it again unless it succeeded
  and was acknowledged. -/
  | execute (i : ℕ) (ack : Bool)

/-- The step function; a step that is not enabled changes nothing. -/
def cw20Step (s : System) : Cw20Step → System
  | .handleCw20 events endBlock answers =>
    if RunOk s events endBlock answers then jobHandleCw20 s events endBlock answers else s
  | .updateByContract =>
    match s.pending with
    | none => s
    | some p =>
      { s with pending := none, queue := s.queue ++ (cw20Contracts s.db p).flatMap (jobFor p) }
  | .crash => { s with pending := none }
  | .execute i ack =>
    match s.queue[i]? with
    | none => s
    | some job =>
      match jobHandle s.db job with
      | .error _ => s
      | .ok db => { s with db := db, queue := if ack then s.queue.eraseIdx i else s.queue }

/-! ## 2. The property -/

/-- The contract's rows are the result of applying every activity above its first height, up to
the checkpoint, once and in id order. -/
def UpToDate (s : System) (c : ℕ) (row : Cw20Contract) : Prop :=
  ∃ b, s.baseline c = some b ∧
    ∃ st, replay c (jobEvents s.db ⟨c, b.last_updated_height, s.handled⟩) (b.holders, 0) = .ok st ∧
      (∀ a, amountOf s.db.cw20_holder (c, a) = amountOf st.1 (c, a)) ∧
      row.total_supply = b.total_supply + st.2

/-- Once nothing is pending or queued, every tracked contract is up to date. -/
def Settled (s : System) : Prop :=
  s.pending = none → s.queue = [] → ∀ c row, s.db.cw20_contract.get? c = some row →
    row.track = true → UpToDate s c row

/-- The start of a run: nothing pending or queued, activities stored in chain order up to the
checkpoint, and no activity waits above a contract's height. -/
structure Initial (s : System) : Prop where
  pending : s.pending = none
  queue : s.queue = []
  order : ChainOrder s.db.cw20_activity.rows
  activity_le : ∀ x ∈ s.db.cw20_activity.rows, x.height ≤ s.handled
  activity_contract : ∀ x ∈ s.db.cw20_activity.rows,
    s.db.cw20_contract.get? x.cw20_contract_id ≠ none
  caught_up : ∀ c row, s.db.cw20_contract.get? c = some row → row.track = true →
    jobEvents s.db ⟨c, row.last_updated_height, s.handled⟩ = []
  baseline : ∀ c row, s.db.cw20_contract.get? c = some row →
    s.baseline c = some ⟨s.db.cw20_holder, row.total_supply, row.last_updated_height⟩

/-- The condition on a step. A crash loses no activity; a job with activities whose execution
commits finds no older job with activities of its contract, and is acknowledged. -/
def InOrder (s : System) : Cw20Step → Prop
  | .crash => ∀ p, s.pending = some p → ∀ row ∈ cw20Contracts s.db p, ∀ job ∈ jobFor p row,
      jobEvents s.db job = []
  | .execute i ack => ∀ job db, s.queue[i]? = some job → jobHandle s.db job = .ok db →
      jobEvents s.db job ≠ [] →
      (∀ older ∈ s.queue.take i, older.cw20ContractId = job.cw20ContractId →
        jobEvents s.db older = []) ∧ ack = true
  | _ => True

/-! ## 3. The invariant -/

/-- The height up to which the activities have been given to the queue. -/
def queuedHeight (s : System) : ℕ :=
  match s.pending with
  | some p => p.startBlock
  | none => s.handled

/-- The activities that wait in the queue for a contract. -/
def queuedEvents (s : System) (c : ℕ) : List Cw20Activity :=
  (s.queue.filter fun job => job.cw20ContractId = c).flatMap (jobEvents s.db)

/-- A tracked contract: its activities are those applied so far, in order, followed by those
that wait in the queue. -/
structure Tracked (s : System) (c : ℕ) (row : Cw20Contract) (b : Baseline) : Prop where
  last_ge : b.last_updated_height ≤ row.last_updated_height
  last_le : row.last_updated_height ≤ max b.last_updated_height (queuedHeight s)
  applied : ∃ applied st,
    jobEvents s.db ⟨c, b.last_updated_height, queuedHeight s⟩ = applied ++ queuedEvents s c ∧
    replay c applied (b.holders, 0) = .ok st ∧
    (∀ a, s.db.cw20_holder.get? (c, a) = st.1.get? (c, a)) ∧
    row.total_supply = b.total_supply + st.2

/-- The invariant of the runs that are in order. -/
structure Inv (s : System) : Prop where
  order : ChainOrder s.db.cw20_activity.rows
  activity_le : ∀ x ∈ s.db.cw20_activity.rows, x.height ≤ s.handled
  activity_contract : ∀ x ∈ s.db.cw20_activity.rows,
    s.db.cw20_contract.get? x.cw20_contract_id ≠ none
  pending : ∀ p, s.pending = some p → p.startBlock ≤ p.endBlock ∧ p.endBlock = s.handled ∧
    ∀ x ∈ s.db.cw20_activity.rows, p.startBlock < x.height →
      ∃ row, s.db.cw20_contract.get? x.cw20_contract_id = some row ∧
        row.contract_address ∈ p.addresses
  job : ∀ job ∈ s.queue, job.endBlock ≤ queuedHeight s ∧
    s.db.cw20_contract.get? job.cw20ContractId ≠ none ∧
    ∀ b, s.baseline job.cw20ContractId = some b → b.last_updated_height ≤ job.endBlock
  tracked : ∀ c row, s.db.cw20_contract.get? c = some row → row.track = true →
    ∃ b, s.baseline c = some b ∧ Tracked s c row b

namespace QueueLemmas

theorem lt_nextId {ids : List ℕ} {x : ℕ} (h : x ∈ ids) : x < nextId ids := by
  unfold nextId
  induction ids with
  | nil => cases h
  | cons y ys ih =>
    rw [List.foldr_cons]
    rcases List.mem_cons.mp h with rfl | h
    · omega
    · have := ih h
      omega

theorem get?_nextId {κ : Type} (f : κ → ℕ) (t : Table f) : t.get? (nextId (t.rows.map f)) = none := by
  refine Table.get?_eq_none_iff.mpr fun r hr h => ?_
  have := lt_nextId (List.mem_map_of_mem (f := f) hr)
  omega

theorem chainOrder_activitiesOf {db : Db} (h : ChainOrder db.cw20_activity.rows) (c : ℕ) :
    ChainOrder (activitiesOf db c) := fun x hx y hy =>
  h x (List.mem_of_mem_filter hx) y (List.mem_of_mem_filter hy)

/-- Activities above a range do not change it. -/
theorem jobEvents_of_append {db db' : Db} {new : List Cw20Activity}
    (hrows : db'.cw20_activity.rows = db.cw20_activity.rows ++ new) {c s e : ℕ}
    (hnew : ∀ x ∈ new, e < x.height) : jobEvents db' ⟨c, s, e⟩ = jobEvents db ⟨c, s, e⟩ := by
  have hnil : between (·.height) s e (new.filter fun a => a.cw20_contract_id = c) = [] :=
    between_eq_nil fun x hx _ => hnew x (List.mem_of_mem_filter hx)
  simp only [jobEvents, activitiesOf, hrows, List.filter_append, between_append_rows, hnil,
    List.append_nil]

/-! ### The commit of `jobHandleCw20` -/

/-- What `handleCw20Instantiate` leaves alone and what it adds. -/
structure Instantiated (s s' : System) : Prop where
  activity : s'.db.cw20_activity = s.db.cw20_activity
  queue : s'.queue = s.queue
  old : ∀ c, s.db.cw20_contract.get? c ≠ none →
    s'.db.cw20_contract.get? c = s.db.cw20_contract.get? c ∧ s'.baseline c = s.baseline c ∧
    ∀ a, s'.db.cw20_holder.get? (c, a) = s.db.cw20_holder.get? (c, a)
  new : ∀ c row, s.db.cw20_contract.get? c = none → s'.db.cw20_contract.get? c = some row →
    ∃ b, s'.baseline c = some b ∧ b.last_updated_height = row.last_updated_height ∧
      b.total_supply = row.total_supply ∧
      ∀ a, s'.db.cw20_holder.get? (c, a) = b.holders.get? (c, a)

/-- The holders inserted with a contract belong to it. -/
theorem get?_insertContract_of_ne (db : Db) {id c : ℕ} (hne : c ≠ id) (address : String)
    (balances : Option (List IHolderEvent)) (a : String) :
    (insertContract db (instantiateContract id address balances)).cw20_holder.get? (c, a) =
      db.cw20_holder.get? (c, a) := by
  simp only [insertContract, instantiateContract, Table.upsertAll, List.foldl_map]
  generalize db.cw20_holder = t
  induction balances.getD [] generalizing t with
  | nil => rfl
  | cons e es ih =>
    rw [List.foldl_cons, ih, Table.get?_upsert, if_neg]
    exact fun h => hne (congrArg Prod.fst h).symm

theorem instantiated_step {s s' : System} (h : Instantiated s s')
    (answers : String → Option (List IHolderEvent)) (event : SmartContractEvent) :
    Instantiated s (handleCw20Instantiate answers s' event) := by
  have hfresh := get?_nextId Cw20Contract.id s'.db.cw20_contract
  unfold handleCw20Instantiate
  generalize hid : nextId (s'.db.cw20_contract.rows.map Cw20Contract.id) = id at hfresh
  have hcontract : ∀ c, (insertContract s'.db (instantiateContract id event.contract_address
      (answers event.contract_address))).cw20_contract.get? c =
      if id = c then some (instantiateContract id event.contract_address
        (answers event.contract_address)).1 else s'.db.cw20_contract.get? c :=
    fun c => Table.get?_upsert ..
  refine ⟨h.activity, h.queue, fun c hc => ?_, fun c row hc hrow => ?_⟩
  · obtain ⟨hrow, hbase, hholder⟩ := h.old c hc
    have hne : c ≠ id := by
      rintro rfl
      exact hc (hrow ▸ hfresh)
    refine ⟨?_, ?_, fun a => ?_⟩
    · simp only [hcontract, if_neg hne.symm, hrow]
    · simp only [Function.update_of_ne hne, hbase]
    · simp only [get?_insertContract_of_ne _ hne, hholder]
  · simp only [hcontract] at hrow
    by_cases hne : c = id
    · subst hne
      rw [if_pos rfl] at hrow
      cases hrow
      exact ⟨_, Function.update_self .., rfl, rfl, fun _ => rfl⟩
    · rw [if_neg (fun h => hne h.symm)] at hrow
      obtain ⟨b, hb, hlast, hsupply, hholder⟩ := h.new c row hc hrow
      refine ⟨b, ?_, hlast, hsupply, fun a => ?_⟩
      · simp only [Function.update_of_ne hne, hb]
      · simp only [get?_insertContract_of_ne _ hne, hholder]

theorem instantiated_foldl (answers : String → Option (List IHolderEvent)) (s : System)
    (events : List SmartContractEvent) :
    Instantiated s (events.foldl (handleCw20Instantiate answers) s) := by
  have hstart : Instantiated s s :=
    ⟨rfl, rfl, fun _ _ => ⟨rfl, rfl, fun _ => rfl⟩, fun c row hc hrow => by simp [hc] at hrow⟩
  suffices ∀ s', Instantiated s s' →
      Instantiated s (events.foldl (handleCw20Instantiate answers) s') from this s hstart
  induction events with
  | nil => exact fun s' h => h
  | cons e es ih => exact fun s' h => ih _ (instantiated_step h answers e)

/-- What `handleCw20Histories` does for one event. -/
theorem handleCw20Histories_cases (db : Db) (event : SmartContractEvent) :
    handleCw20Histories db event = db ∨
    ∃ x row, db.cw20_contract.get? x.cw20_contract_id = some row ∧
      row.contract_address = event.contract_address ∧ x.height = event.height ∧
      (∀ y ∈ db.cw20_activity.rows, y.id < x.id) ∧
      (handleCw20Histories db event).cw20_activity.rows = db.cw20_activity.rows ++ [x] ∧
      (handleCw20Histories db event).cw20_contract = db.cw20_contract ∧
      (handleCw20Histories db event).cw20_holder = db.cw20_holder := by
  unfold handleCw20Histories
  cases hrow : contractByAddress db event.contract_address with
  | none => exact Or.inl rfl
  | some row =>
    have hmem := List.mem_of_find?_eq_some hrow
    have haddr : row.contract_address = event.contract_address := by
      have := List.find?_some hrow
      simp only [Bool.and_eq_true, decide_eq_true_eq] at this
      exact this.2
    have hfresh := get?_nextId Cw20Activity.id db.cw20_activity
    exact Or.inr ⟨_, row, Table.get?_eq_some_iff.mpr ⟨hmem, rfl⟩, haddr, rfl,
      fun y hy => lt_nextId (List.mem_map_of_mem hy), Table.rows_upsert_new hfresh, rfl, rfl⟩

theorem chainOrder_append {rows : List Cw20Activity} (h : ChainOrder rows) {x : Cw20Activity}
    (hx : ∀ y ∈ rows, y.id < x.id ∧ y.height ≤ x.height) : ChainOrder (rows ++ [x]) := by
  intro u hu v hv hlt
  rcases List.mem_append.mp hu with hu' | hu' <;> rcases List.mem_append.mp hv with hv' | hv'
  · exact h u hu' v hv' hlt
  · obtain rfl := List.mem_singleton.mp hv'
    exact (hx u hu').2
  · obtain rfl := List.mem_singleton.mp hu'
    have := (hx v hv').1
    omega
  · obtain rfl := List.mem_singleton.mp hu'
    obtain rfl := List.mem_singleton.mp hv'
    exact le_refl _

/-- The activities that a run stores: appended in chain order, of its range, and of contracts
whose address is among those of the run. -/
structure Stored (H E : ℕ) (addresses : List String) (db db' : Db) : Prop where
  contract : db'.cw20_contract = db.cw20_contract
  holder : db'.cw20_holder = db.cw20_holder
  order : ChainOrder db'.cw20_activity.rows
  activity : ∃ new, db'.cw20_activity.rows = db.cw20_activity.rows ++ new ∧
    ∀ x ∈ new, H < x.height ∧ x.height ≤ E ∧
      ∃ row, db.cw20_contract.get? x.cw20_contract_id = some row ∧
        row.contract_address ∈ addresses

theorem stored_foldl {H E : ℕ} {addresses : List String} {events : List SmartContractEvent}
    (hrange : ∀ e ∈ events, H < e.height ∧ e.height ≤ E)
    (hsort : events.Pairwise fun a b => a.height ≤ b.height)
    (haddr : ∀ e ∈ events, e.contract_address ∈ addresses) {db : Db}
    (horder : ChainOrder db.cw20_activity.rows)
    (hbelow : ∀ x ∈ db.cw20_activity.rows, ∀ e ∈ events, x.height ≤ e.height) :
    Stored H E addresses db (events.foldl handleCw20Histories db) := by
  induction events generalizing db with
  | nil => exact ⟨rfl, rfl, horder, [], (List.append_nil _).symm, fun x hx => by cases hx⟩
  | cons e es ih =>
    obtain ⟨hfirst, hsort⟩ := List.pairwise_cons.mp hsort
    have hrest := fun db => @ih (fun x hx => hrange x (List.mem_cons_of_mem e hx)) hsort
      (fun x hx => haddr x (List.mem_cons_of_mem e hx)) db
    rw [List.foldl_cons]
    rcases handleCw20Histories_cases db e with heq | ⟨x, row, hrow, hrowaddr, hheight, hid, hrows,
      hcontract, hholder⟩
    · rw [heq]
      exact hrest db horder fun y hy z hz => hbelow y hy z (List.mem_cons_of_mem e hz)
    · have hlast : ∀ y ∈ db.cw20_activity.rows, y.height ≤ x.height := fun y hy =>
        hheight ▸ hbelow y hy e List.mem_cons_self
      have horder' : ChainOrder (handleCw20Histories db e).cw20_activity.rows :=
        hrows ▸ chainOrder_append horder fun y hy => ⟨hid y hy, hlast y hy⟩
      have hbelow' : ∀ y ∈ (handleCw20Histories db e).cw20_activity.rows, ∀ z ∈ es,
          y.height ≤ z.height := by
        intro y hy z hz
        rcases List.mem_append.mp (hrows ▸ hy) with hy | hy
        · exact hbelow y hy z (List.mem_cons_of_mem e hz)
        · obtain rfl := List.mem_singleton.mp hy
          exact hheight ▸ hfirst z hz
      obtain ⟨hc, hh, ho, new, hnew, hmem⟩ := hrest _ horder' hbelow'
      refine ⟨hc.trans hcontract, hh.trans hholder, ho, x :: new, ?_, fun y hy => ?_⟩
      · rw [hnew, hrows, List.append_assoc]
        rfl
      · rcases List.mem_cons.mp hy with rfl | hy
        · have hr := hrange e List.mem_cons_self
          exact ⟨hheight ▸ hr.1, hheight ▸ hr.2, row, hrow,
            hrowaddr ▸ haddr e List.mem_cons_self⟩
        · rw [hcontract] at hmem
          exact hmem y hy

theorem queuedEvents_congr {s s' : System} (hqueue : s'.queue = s.queue)
    (h : ∀ job ∈ s.queue, jobEvents s'.db job = jobEvents s.db job) (c : ℕ) :
    queuedEvents s' c = queuedEvents s c := by
  unfold queuedEvents
  rw [hqueue]
  exact List.flatMap_congr fun job hjob => h job (List.mem_of_mem_filter hjob)

/-- The effect of the commit of `jobHandleCw20` as a whole. -/
structure Committed (s s' : System) (addresses : List String) : Prop where
  handled : s.handled < s'.handled
  pending : s'.pending = some ⟨s.handled, s'.handled, addresses⟩
  queue : s'.queue = s.queue
  order : ChainOrder s'.db.cw20_activity.rows
  activity : ∃ new, s'.db.cw20_activity.rows = s.db.cw20_activity.rows ++ new ∧
    ∀ x ∈ new, s.handled < x.height ∧ x.height ≤ s'.handled ∧
      ∃ row, s'.db.cw20_contract.get? x.cw20_contract_id = some row ∧
        row.contract_address ∈ addresses
  old : ∀ c, s.db.cw20_contract.get? c ≠ none →
    s'.db.cw20_contract.get? c = s.db.cw20_contract.get? c ∧ s'.baseline c = s.baseline c ∧
    ∀ a, s'.db.cw20_holder.get? (c, a) = s.db.cw20_holder.get? (c, a)
  new : ∀ c row, s.db.cw20_contract.get? c = none → s'.db.cw20_contract.get? c = some row →
    ∃ b, s'.baseline c = some b ∧ b.last_updated_height = row.last_updated_height ∧
      b.total_supply = row.total_supply ∧
      ∀ a, s'.db.cw20_holder.get? (c, a) = b.holders.get? (c, a)

theorem committed_jobHandleCw20 {s : System} (h : Inv s) {events : List SmartContractEvent}
    {endBlock : ℕ} {answers : String → Option (List IHolderEvent)}
    (hok : RunOk s events endBlock answers) :
    Committed s (jobHandleCw20 s events endBlock answers) (events.map (·.contract_address)) := by
  obtain ⟨-, hlt, hrange, hsort, -, -⟩ := hok
  have hI := instantiated_foldl answers s (events.filter fun e => e.action = .instantiate)
  simp only [jobHandleCw20]
  generalize (events.filter fun e => e.action = .instantiate).foldl
    (handleCw20Instantiate answers) s = s₁ at hI ⊢
  have hbelow : ∀ x ∈ s₁.db.cw20_activity.rows, ∀ e ∈ events, x.height ≤ e.height := by
    intro x hx e he
    rw [hI.activity] at hx
    exact (h.activity_le x hx).trans (hrange e he).1.le
  have hS := stored_foldl hrange hsort (fun e he => List.mem_map_of_mem (f := (·.contract_address)) he)
    (hI.activity.symm ▸ h.order) hbelow
  generalize events.foldl handleCw20Histories s₁.db = db' at hS ⊢
  obtain ⟨new, hrows, hnew⟩ := hS.activity
  refine ⟨hlt, rfl, hI.queue, hS.order, ⟨new, hI.activity ▸ hrows, ?_⟩, ?_, ?_⟩
  · simpa only [hS.contract] using hnew
  · simpa only [hS.contract, hS.holder] using hI.old
  · simpa only [hS.contract, hS.holder] using hI.new

/-- Ranges that end at or below the old checkpoint keep their activities. -/
theorem Committed.jobEvents_eq {s s' : System} {addresses : List String}
    (hC : Committed s s' addresses) {c lo hi : ℕ} (hhi : hi ≤ s.handled) :
    jobEvents s'.db ⟨c, lo, hi⟩ = jobEvents s.db ⟨c, lo, hi⟩ := by
  obtain ⟨new, hrows, hnew⟩ := hC.activity
  refine jobEvents_of_append hrows fun x hx => ?_
  have := (hnew x hx).1
  omega

/-- A contract that the run has just stored. -/
theorem Committed.tracked_new {s s' : System} (h : Inv s) {addresses : List String}
    (hC : Committed s s' addresses) {c : ℕ} {row : Cw20Contract}
    (hc : s.db.cw20_contract.get? c = none) (hrow : s'.db.cw20_contract.get? c = some row) :
    ∃ b, s'.baseline c = some b ∧ Tracked s' c row b := by
  obtain ⟨b, hb, hlast, hsupply, hholder⟩ := hC.new c row hc hrow
  have hheight : queuedHeight s' = s.handled := by rw [queuedHeight, hC.pending]
  have hnone : jobEvents s'.db ⟨c, b.last_updated_height, s.handled⟩ = [] := by
    rw [hC.jobEvents_eq (le_refl _)]
    refine jobEvents_eq_nil fun x hx _ => ?_
    obtain ⟨hx, hxc⟩ := List.mem_filter.mp hx
    simp only [decide_eq_true_eq] at hxc
    exact absurd (hxc ▸ hc) (h.activity_contract x hx)
  have hqnil : (s'.queue.filter fun job => job.cw20ContractId = c) = [] := by
    refine List.filter_eq_nil_iff.mpr fun job hjob hjc => ?_
    simp only [decide_eq_true_eq] at hjc
    exact (h.job job (hC.queue ▸ hjob)).2.1 (hjc ▸ hc)
  refine ⟨b, hb, hlast.le, hlast ▸ le_max_left _ _, [], (b.holders, 0), ?_, rfl, hholder, ?_⟩
  · rw [hheight, hnone, queuedEvents, hqnil]
    rfl
  · rw [hsupply, add_zero]

/-- A contract that was there before the run. -/
theorem Committed.tracked_old {s s' : System} (h : Inv s) {addresses : List String}
    (hC : Committed s s' addresses) (hpend : s.pending = none) {c : ℕ} {row : Cw20Contract}
    (hc : s.db.cw20_contract.get? c = some row) (htrack : row.track = true) :
    ∃ b, s'.baseline c = some b ∧ Tracked s' c row b := by
  have hheight : queuedHeight s = s.handled := by rw [queuedHeight, hpend]
  have hheight' : queuedHeight s' = s.handled := by rw [queuedHeight, hC.pending]
  obtain ⟨-, hbase, hholder⟩ := hC.old c (by simp [hc])
  obtain ⟨b, hb, ht⟩ := h.tracked c row hc htrack
  obtain ⟨applied, st, hsplit, hreplay, hst, hsupply⟩ := ht.applied
  have hqueued : queuedEvents s' c = queuedEvents s c := queuedEvents_congr hC.queue
    (fun job hjob => hC.jobEvents_eq (hheight ▸ (h.job job hjob).1)) c
  refine ⟨b, hbase.trans hb, ht.last_ge, ?_, applied, st, ?_, hreplay, fun a => ?_, hsupply⟩
  · rw [hheight', ← hheight]
    exact ht.last_le
  · rw [hheight', hC.jobEvents_eq (le_refl _), hqueued, ← hheight, hsplit]
  · rw [hholder, hst]

theorem inv_committed {s s' : System} (h : Inv s) {addresses : List String}
    (hC : Committed s s' addresses) (hpend : s.pending = none) : Inv s' := by
  have hheight : queuedHeight s = s.handled := by rw [queuedHeight, hpend]
  have hheight' : queuedHeight s' = s.handled := by rw [queuedHeight, hC.pending]
  obtain ⟨new, hrows, hnew⟩ := hC.activity
  refine ⟨hC.order, fun x hx => ?_, fun x hx => ?_, fun p hp => ?_, fun job hjob => ?_,
    fun c row hrow htrack => ?_⟩
  · rcases List.mem_append.mp (hrows ▸ hx) with hold | hin
    · exact (h.activity_le x hold).trans hC.handled.le
    · exact (hnew x hin).2.1
  · rcases List.mem_append.mp (hrows ▸ hx) with hold | hin
    · have hc := h.activity_contract x hold
      rw [(hC.old _ hc).1]
      exact hc
    · obtain ⟨row, hrow, -⟩ := (hnew x hin).2.2
      simp [hrow]
  · obtain rfl := Option.some.inj (hC.pending.symm.trans hp)
    refine ⟨hC.handled.le, rfl, fun x hx hstart => ?_⟩
    rcases List.mem_append.mp (hrows ▸ hx) with hold | hin
    · exact absurd (h.activity_le x hold) (Nat.not_le.mpr hstart)
    · exact (hnew x hin).2.2
  · obtain ⟨hend, hc, hbase⟩ := h.job job (hC.queue ▸ hjob)
    obtain ⟨hsame, hsameb, -⟩ := hC.old _ hc
    refine ⟨?_, hsame ▸ hc, fun b hb => hbase b (hsameb ▸ hb)⟩
    rw [hheight', ← hheight]
    exact hend
  · cases hc : s.db.cw20_contract.get? c with
    | none => exact hC.tracked_new h hc hrow
    | some row₀ =>
      obtain ⟨hsame, -, -⟩ := hC.old c (by simp [hc])
      obtain rfl : row₀ = row := Option.some.inj (hc.symm.trans (hsame.symm.trans hrow))
      exact hC.tracked_old h hpend hc htrack

/-! ### The call of `UpdateByContract`, or its loss -/

/-- The range of a contract up to the new checkpoint, cut where the queue stops. -/
theorem jobEvents_cut {db : Db} {c : ℕ} (hord : ChainOrder (activitiesOf db c)) {m start stop : ℕ}
    (hle : start ≤ stop) :
    jobEvents db ⟨c, m, start⟩ ++ jobEvents db ⟨c, max start m, stop⟩ =
      jobEvents db ⟨c, m, stop⟩ := by
  rcases Nat.le_total m start with hm | hm
  · rw [max_eq_left hm]
    exact jobEvents_append hord hm hle
  · have hnil : jobEvents db ⟨c, m, start⟩ = [] :=
      jobEvents_eq_nil fun x _ hx => Nat.lt_of_le_of_lt hm hx
    rw [max_eq_right hm, hnil, List.nil_append]

/-- The activities that the call of `UpdateByContract` queues for a tracked contract are all
those of the contract in the range of the run. -/
theorem jobEvents_cw20Contracts {s : System} (h : Inv s) {p : Pending} (hp : s.pending = some p)
    {c : ℕ} {row : Cw20Contract} (hrow : s.db.cw20_contract.get? c = some row)
    (htrack : row.track = true) :
    (((cw20Contracts s.db p).flatMap (jobFor p)).filter fun job => job.cw20ContractId = c).flatMap
        (jobEvents s.db) =
      jobEvents s.db ⟨c, max p.startBlock row.last_updated_height, p.endBlock⟩ := by
  obtain ⟨hmem, hid⟩ := Table.get?_eq_some_iff.mp hrow
  have hchild : ∀ r ∈ cw20Contracts s.db p, ∀ job ∈ jobFor p r, job.cw20ContractId = r.id := by
    intro r _ job hjob
    simp only [jobFor] at hjob
    split at hjob
    · rw [List.mem_singleton.mp hjob]
    · cases hjob
  have hnd : ((cw20Contracts s.db p).map (·.id)).Nodup :=
    (List.filter_sublist.map _).nodup s.db.cw20_contract.nodup
  by_cases hin : row.contract_address ∈ p.addresses
  · have hcalled : row ∈ cw20Contracts s.db p :=
      List.mem_filter.mpr ⟨hmem, by simp [htrack, hin]⟩
    have hjobs := filter_flatMap_of_mem hchild hnd hcalled
    rw [hid] at hjobs
    rw [hjobs]
    simp only [jobFor]
    split
    · rw [List.flatMap_cons, List.flatMap_nil, List.append_nil, hid]
    · next hge =>
      exact (jobEvents_eq_nil fun x _ hx => by omega).symm
  · -- the run saw no event of the contract, so it stored no activity of it
    have hnot : c ∉ (cw20Contracts s.db p).map (·.id) := by
      intro hc
      obtain ⟨r, hr, hrid⟩ := List.mem_map.mp hc
      obtain ⟨hrmem, hraddr⟩ := List.mem_filter.mp hr
      have hsame : r = row :=
        List.inj_on_of_nodup_map s.db.cw20_contract.nodup hrmem hmem (hrid.trans hid.symm)
      simp [hsame, hin] at hraddr
    rw [filter_flatMap_of_not_mem hchild hnot, List.flatMap_nil]
    refine (jobEvents_eq_nil fun x hx hlt => ?_).symm
    obtain ⟨hx, hxc⟩ := List.mem_filter.mp hx
    simp only [decide_eq_true_eq] at hxc
    obtain ⟨r, hr, haddr⟩ := (h.pending p hp).2.2 x hx (by omega)
    rw [hxc, hrow] at hr
    exact absurd (Option.some.inj hr ▸ haddr) hin

/-- After the call the queue reaches up to the checkpoint. -/
theorem tracked_called {s s' : System} (h : Inv s) {p : Pending} (hp : s.pending = some p)
    (hdb : s'.db = s.db) (hpend : s'.pending = none) (hhandled : s'.handled = s.handled) {c : ℕ}
    {row : Cw20Contract} {b : Baseline} (ht : Tracked s c row b)
    (hqueue : queuedEvents s' c = queuedEvents s c ++
      jobEvents s.db ⟨c, max p.startBlock row.last_updated_height, p.endBlock⟩) :
    Tracked s' c row b := by
  obtain ⟨hle, hend, -⟩ := h.pending p hp
  have hstart : queuedHeight s = p.startBlock := by rw [queuedHeight, hp]
  have hstop : queuedHeight s' = p.endBlock := by rw [queuedHeight, hpend, hhandled, hend]
  obtain ⟨applied, st, hsplit, hreplay, hst, hsupply⟩ := ht.applied
  have hlast_le := ht.last_le
  have hlast_ge := ht.last_ge
  rw [hstart] at hlast_le hsplit
  have hmax : max p.startBlock row.last_updated_height = max p.startBlock b.last_updated_height := by
    omega
  refine ⟨hlast_ge, ?_, applied, st, ?_, hreplay, fun a => ?_, hsupply⟩
  · rw [hstop]
    omega
  · rw [hstop, hqueue, hdb, hmax, ← List.append_assoc, ← hsplit]
    exact (jobEvents_cut (chainOrder_activitiesOf h.order c) hle).symm
  · rw [hdb, hst]

theorem inv_updateByContract {s : System} (h : Inv s) {p : Pending} (hp : s.pending = some p) :
    Inv { s with pending := none, queue := s.queue ++ (cw20Contracts s.db p).flatMap (jobFor p) } := by
  obtain ⟨hle, hend, -⟩ := h.pending p hp
  have hstart : queuedHeight s = p.startBlock := by rw [queuedHeight, hp]
  refine ⟨h.order, h.activity_le, h.activity_contract, fun q hq => (by cases hq),
    fun job hjob => ?_, fun c row hrow htrack => ?_⟩
  · simp only [queuedHeight]
    rcases List.mem_append.mp hjob with hold | hnew
    · obtain ⟨hjend, hc, hbase⟩ := h.job job hold
      exact ⟨by omega, hc, hbase⟩
    · obtain ⟨row, hrow, hjob⟩ := List.mem_flatMap.mp hnew
      obtain ⟨hmem, htrack⟩ := List.mem_filter.mp hrow
      have hget : s.db.cw20_contract.get? row.id = some row :=
        Table.get?_eq_some_iff.mpr ⟨hmem, rfl⟩
      simp only [jobFor] at hjob
      split at hjob
      · next hlt =>
        obtain rfl := List.mem_singleton.mp hjob
        refine ⟨hend.le, by simp [hget], fun b hb => ?_⟩
        obtain ⟨b', hb', ht⟩ := h.tracked row.id row hget (by simp_all)
        obtain rfl := Option.some.inj (hb'.symm.trans hb)
        have := ht.last_ge
        simp only
        omega
      · cases hjob
  · obtain ⟨b, hb, ht⟩ := h.tracked c row hrow htrack
    refine ⟨b, hb, ?_⟩
    refine tracked_called h hp ?_ ?_ ?_ ht ?_
    · rfl
    · rfl
    · rfl
    · simp only [queuedEvents, List.filter_append, List.flatMap_append]
      rw [jobEvents_cw20Contracts h hp hrow htrack]

theorem inv_crash {s : System} (h : Inv s) (hlost : InOrder s .crash) :
    Inv { s with pending := none } := by
  cases hp : s.pending with
  | none =>
    have hsame : { s with pending := none } = s := by rw [← hp]
    rwa [hsame]
  | some p =>
    obtain ⟨hle, hend, -⟩ := h.pending p hp
    have hstart : queuedHeight s = p.startBlock := by rw [queuedHeight, hp]
    refine ⟨h.order, h.activity_le, h.activity_contract, fun q hq => (by cases hq),
      fun job hjob => ?_, fun c row hrow htrack => ?_⟩
    · obtain ⟨hjend, hc, hbase⟩ := h.job job hjob
      exact ⟨by simp only [queuedHeight]; omega, hc, hbase⟩
    · obtain ⟨b, hb, ht⟩ := h.tracked c row hrow htrack
      -- what the call would have queued has no activities
      have hnone : (((cw20Contracts s.db p).flatMap (jobFor p)).filter
          fun job => job.cw20ContractId = c).flatMap (jobEvents s.db) = [] := by
        refine List.flatMap_eq_nil_iff.mpr fun job hjob => ?_
        obtain ⟨r, hr, hjr⟩ := List.mem_flatMap.mp (List.mem_of_mem_filter hjob)
        exact hlost p hp r hr job hjr
      rw [jobEvents_cw20Contracts h hp hrow htrack] at hnone
      refine ⟨b, hb, ?_⟩
      refine tracked_called h hp ?_ ?_ ?_ ht ?_
      · rfl
      · rfl
      · rfl
      · rw [hnone, List.append_nil]
        rfl

/-! ### The execution of a job -/

theorem eraseIdx_of_getElem? {α : Type} {l : List α} {i : ℕ} {x : α} (h : l[i]? = some x) :
    l = l.take i ++ x :: l.drop (i + 1) ∧ l.eraseIdx i = l.take i ++ l.drop (i + 1) := by
  obtain ⟨hi, rfl⟩ := List.getElem?_eq_some_iff.mp h
  refine ⟨?_, List.eraseIdx_eq_take_drop_succ l i⟩
  rw [← List.drop_eq_getElem_cons hi, List.take_append_drop]

/-- The queue of a contract after an execution: the activities of the job leave it, if there
are any. -/
theorem queuedEvents_execute {s : System} {i : ℕ} {ack : Bool} {job : Cw20UpdateByContractParam}
    (hjob : s.queue[i]? = some job)
    (hord : jobEvents s.db job ≠ [] → (∀ older ∈ s.queue.take i,
      older.cw20ContractId = job.cw20ContractId → jobEvents s.db older = []) ∧ ack = true)
    {db : Db} (hdb : ∀ j, jobEvents db j = jobEvents s.db j) :
    queuedEvents s job.cw20ContractId = jobEvents s.db job ++ queuedEvents { s with
      db := db, queue := if ack then s.queue.eraseIdx i else s.queue } job.cw20ContractId := by
  obtain ⟨hsplit, herase⟩ := eraseIdx_of_getElem? hjob
  have hfun : jobEvents db = jobEvents s.db := funext hdb
  unfold queuedEvents
  simp only [hfun]
  by_cases hnil : jobEvents s.db job = []
  · rw [hnil, List.nil_append]
    cases ack with
    | false => rfl
    | true =>
      simp only [if_true, herase]
      nth_rewrite 1 [hsplit]
      simp [List.filter_append, List.flatMap_append, hnil]
  · obtain ⟨holder, rfl⟩ := hord hnil
    have hfirst : ((s.queue.take i).filter fun j => j.cw20ContractId = job.cw20ContractId).flatMap
        (jobEvents s.db) = [] := by
      refine List.flatMap_eq_nil_iff.mpr fun j hj => ?_
      obtain ⟨hj, hjc⟩ := List.mem_filter.mp hj
      exact holder j hj (by simpa using hjc)
    simp only [if_true, herase]
    nth_rewrite 1 [hsplit]
    simp [List.filter_append, List.flatMap_append, hfirst]

theorem queuedEvents_execute_of_ne {s : System} {i : ℕ} {ack : Bool}
    {job : Cw20UpdateByContractParam} (hjob : s.queue[i]? = some job) {db : Db}
    (hdb : ∀ j, jobEvents db j = jobEvents s.db j) {c : ℕ} (hne : c ≠ job.cw20ContractId) :
    queuedEvents { s with
      db := db, queue := if ack then s.queue.eraseIdx i else s.queue } c = queuedEvents s c := by
  obtain ⟨hsplit, herase⟩ := eraseIdx_of_getElem? hjob
  have hfun : jobEvents db = jobEvents s.db := funext hdb
  have hnot : ¬ job.cw20ContractId = c := fun he => hne he.symm
  have hqueue : s.queue.filter (fun j => j.cw20ContractId = c) =
      (s.queue.eraseIdx i).filter fun j => j.cw20ContractId = c := by
    rw [herase]
    nth_rewrite 1 [hsplit]
    simp [List.filter_append, hnot]
  unfold queuedEvents
  simp only [hfun]
  cases ack with
  | false => rfl
  | true => rw [hqueue]; rfl

/-- The contract of the job after its execution. -/
theorem tracked_execute_self {s s' : System} {job : Cw20UpdateByContractParam} {st' : Holders × ℤ}
    (hres : JobResult s.db job s'.db st')
    (hreplay' : replay job.cw20ContractId (jobEvents s.db job) (s.db.cw20_holder, 0) = .ok st')
    (hheight : queuedHeight s' = queuedHeight s) (hjob : job.endBlock ≤ queuedHeight s)
    (hqueue : queuedEvents s job.cw20ContractId =
      jobEvents s.db job ++ queuedEvents s' job.cw20ContractId)
    {row row' : Cw20Contract} {b : Baseline} (ht : Tracked s job.cw20ContractId row b)
    (hbase : b.last_updated_height ≤ job.endBlock) {last : ℕ}
    (hlast : last = row.last_updated_height ∨ last = job.endBlock)
    (hrow' : row' = { row with
      total_supply := row.total_supply + st'.2, last_updated_height := last }) :
    Tracked s' job.cw20ContractId row' b := by
  obtain ⟨applied, st, hsplit, hreplay, hst, hsupply⟩ := ht.applied
  have hge := ht.last_ge
  have hle := ht.last_le
  have hstart : SameContract job.cw20ContractId st.2 (s.db.cw20_holder, 0) st :=
    ⟨hst, (zero_add _).symm⟩
  -- the job continues the replay where the contract's rows stand
  have hrel := replay_sameContract (jobEvents s.db job) hstart
  rw [hreplay'] at hrel
  obtain ⟨st'', hreplay'', hrows, hadd⟩ := hrel.of_ok
  have hevents : ∀ j, jobEvents s'.db j = jobEvents s.db j := fun j => by
    simp only [jobEvents, activitiesOf, hres.activity]
  subst hrow'
  refine ⟨?_, ?_, applied ++ jobEvents s.db job, st'', ?_, replay_append hreplay hreplay'',
    fun a => ?_, ?_⟩
  · simp only
    omega
  · simp only [hheight]
    omega
  · rw [hheight, hevents, hsplit, hqueue, List.append_assoc]
  · rw [hres.holder, hrows]
  · simp only [hsupply, hadd]
    ring

/-- The other contracts after the execution of a job. -/
theorem tracked_execute_other {s s' : System} {job : Cw20UpdateByContractParam}
    {st' : Holders × ℤ} (hres : JobResult s.db job s'.db st')
    (hreplay' : replay job.cw20ContractId (jobEvents s.db job) (s.db.cw20_holder, 0) = .ok st')
    (hheight : queuedHeight s' = queuedHeight s) {c : ℕ} (hne : c ≠ job.cw20ContractId)
    (hqueue : queuedEvents s' c = queuedEvents s c) {row : Cw20Contract} {b : Baseline}
    (ht : Tracked s c row b) : Tracked s' c row b := by
  obtain ⟨applied, st, hsplit, hreplay, hst, hsupply⟩ := ht.applied
  have hevents : ∀ j, jobEvents s'.db j = jobEvents s.db j := fun j => by
    simp only [jobEvents, activitiesOf, hres.activity]
  refine ⟨ht.last_ge, hheight ▸ ht.last_le, applied, st, ?_, hreplay, fun a => ?_, hsupply⟩
  · rw [hheight, hevents, hsplit, hqueue]
  · rw [hres.holder, (replay_conserves hreplay').2.other (c, a) hne, hst]

theorem inv_execute {s : System} (h : Inv s) {i : ℕ} {ack : Bool} (hord : InOrder s (.execute i ack))
    {job : Cw20UpdateByContractParam} (hjob : s.queue[i]? = some job) {db : Db}
    (hok : jobHandle s.db job = .ok db) :
    Inv { s with db := db, queue := if ack then s.queue.eraseIdx i else s.queue } := by
  obtain ⟨hend, hc, hbase⟩ := h.job job (List.mem_of_getElem? hjob)
  have hrel := jobHandle_rel s.db job hc
  rw [hok] at hrel
  obtain ⟨st', hreplay', hres⟩ := hrel.of_ok
  obtain ⟨row₀, hrow₀⟩ := Option.ne_none_iff_exists'.mp hc
  obtain ⟨last, hrow₀', hlast⟩ := hres.contract row₀ hrow₀
  have hevents : ∀ j, jobEvents db j = jobEvents s.db j := fun j => by
    simp only [jobEvents, activitiesOf, hres.activity]
  -- a contract row keeps its address and its existence
  have hrows : ∀ c row, s.db.cw20_contract.get? c = some row →
      ∃ row', db.cw20_contract.get? c = some row' ∧ row'.contract_address = row.contract_address := by
    intro c row hrow
    by_cases hcc : c = job.cw20ContractId
    · subst hcc
      obtain rfl := Option.some.inj (hrow₀.symm.trans hrow)
      exact ⟨_, hrow₀', rfl⟩
    · exact ⟨row, (hres.other c hcc).trans hrow, rfl⟩
  have hqueue : ∀ j ∈ (if ack then s.queue.eraseIdx i else s.queue), j ∈ s.queue := by
    intro j hj
    cases ack with
    | false => exact hj
    | true => exact List.mem_of_mem_eraseIdx hj
  refine ⟨hres.activity ▸ h.order, hres.activity ▸ h.activity_le, fun x hx => ?_, fun p hp => ?_,
    fun j hj => ?_, fun c row hrow htrack => ?_⟩
  · obtain ⟨row, hrow⟩ := Option.ne_none_iff_exists'.mp (h.activity_contract x (hres.activity ▸ hx))
    obtain ⟨row', hrow', -⟩ := hrows _ row hrow
    simp [hrow']
  · obtain ⟨hle, hhandled, hpend⟩ := h.pending p hp
    refine ⟨hle, hhandled, fun x hx hlt => ?_⟩
    obtain ⟨row, hrow, haddr⟩ := hpend x (hres.activity ▸ hx) hlt
    obtain ⟨row', hrow', hsame⟩ := hrows _ row hrow
    exact ⟨row', hrow', hsame ▸ haddr⟩
  · obtain ⟨hjend, hjc, hjbase⟩ := h.job j (hqueue j hj)
    obtain ⟨row, hrow⟩ := Option.ne_none_iff_exists'.mp hjc
    obtain ⟨row', hrow', -⟩ := hrows _ row hrow
    exact ⟨hjend, by simp [hrow'], hjbase⟩
  · by_cases hcc : c = job.cw20ContractId
    · subst hcc
      obtain rfl := Option.some.inj (hrow₀'.symm.trans hrow)
      obtain ⟨b, hb, ht⟩ := h.tracked _ row₀ hrow₀ htrack
      have hqueued := queuedEvents_execute hjob (hord job db hjob hok) hevents
      refine ⟨b, hb, ?_⟩
      refine tracked_execute_self ?_ hreplay' ?_ hend ?_ ht (hbase b hb) hlast rfl
      · exact hres
      · rfl
      · exact hqueued
    · rw [hres.other c hcc] at hrow
      obtain ⟨b, hb, ht⟩ := h.tracked c row hrow htrack
      refine ⟨b, hb, ?_⟩
      refine tracked_execute_other ?_ hreplay' ?_ hcc ?_ ht
      · exact hres
      · rfl
      · exact queuedEvents_execute_of_ne hjob hevents hcc

/-- The step lemma. -/
theorem inv_step (s : System) (a : Cw20Step) (h : Inv s) (hord : InOrder s a) :
    Inv (cw20Step s a) := by
  cases a with
  | handleCw20 events endBlock answers =>
    simp only [cw20Step]
    split
    · next hok => exact inv_committed h (committed_jobHandleCw20 h hok) hok.1
    · exact h
  | updateByContract =>
    cases hp : s.pending with
    | none => simp only [cw20Step, hp]; exact h
    | some p => simp only [cw20Step, hp]; exact inv_updateByContract h hp
  | crash => exact inv_crash h hord
  | execute i ack =>
    cases hjob : s.queue[i]? with
    | none => simp only [cw20Step, hjob]; exact h
    | some job =>
      cases hok : jobHandle s.db job with
      | error e => simp only [cw20Step, hjob, hok]; exact h
      | ok db => simp only [cw20Step, hjob, hok]; exact inv_execute h hord hjob hok

theorem inv_initial {s : System} (h : Initial s) : Inv s := by
  have hheight : queuedHeight s = s.handled := by rw [queuedHeight, h.pending]
  refine ⟨h.order, h.activity_le, h.activity_contract, fun p hp => ?_, fun job hjob => ?_,
    fun c row hrow htrack => ?_⟩
  · rw [h.pending] at hp
    cases hp
  · rw [h.queue] at hjob
    cases hjob
  · refine ⟨_, h.baseline c row hrow, le_refl _, le_max_left _ _, [], (s.db.cw20_holder, 0), ?_, rfl,
      fun _ => rfl, (add_zero _).symm⟩
    rw [hheight, queuedEvents, h.queue]
    exact h.caught_up c row hrow htrack

/-- With nothing pending or queued, everything has been applied. -/
theorem settled_of_inv {s : System} (h : Inv s) : Settled s := by
  intro hpend hqueue c row hrow htrack
  obtain ⟨b, hb, ht⟩ := h.tracked c row hrow htrack
  obtain ⟨applied, st, hsplit, hreplay, hst, hsupply⟩ := ht.applied
  have hheight : queuedHeight s = s.handled := by rw [queuedHeight, hpend]
  have hnil : queuedEvents s c = [] := by rw [queuedEvents, hqueue]; rfl
  rw [hheight, hnil, List.append_nil] at hsplit
  refine ⟨b, hb, st, hsplit ▸ hreplay, fun a => ?_, hsupply⟩
  rw [amountOf, amountOf, hst]

end QueueLemmas

open QueueLemmas

/-- A tracked contract whose only holder is alice. -/
def aliceDb : Db where
  cw20_activity := Table.empty
  cw20_holder := ⟨[⟨7, "alice", 100, 9⟩], by decide⟩
  cw20_contract := ⟨[⟨7, "aura1token", 100, true, 9⟩], by decide⟩

/-- The indexer has handled the blocks up to 10. -/
def aliceSystem : System where
  db := aliceDb
  handled := 10
  pending := none
  queue := []
  baseline := fun c => if c = 7 then some ⟨aliceDb.cw20_holder, 100, 9⟩ else none

/-- A transfer from alice to bob. -/
def toBob (amount : ℤ) (height : ℕ) : SmartContractEvent :=
  ⟨"aura1token", .transfer, some amount, some "alice", some "bob", height⟩

/-- The commit of the blocks up to 15, with a transfer of 30 at 12. -/
def firstRange : Cw20Step := .handleCw20 [toBob 30 12] 15 fun _ => none

/-- The commit of the blocks up to 25, with a transfer of 5 at 22. -/
def secondRange : Cw20Step := .handleCw20 [toBob 5 22] 25 fun _ => none

theorem initial_aliceSystem : Initial aliceSystem where
  pending := rfl
  queue := rfl
  order := by decide
  activity_le := by decide
  activity_contract := by decide
  caught_up := fun c row _ _ => rfl
  baseline := by
    intro c row hrow
    obtain ⟨hmem, hid⟩ := Table.get?_eq_some_iff.mp hrow
    obtain rfl := List.mem_singleton.mp hmem
    obtain rfl : 7 = c := hid
    rfl

theorem not_settled {s : System} {row : Cw20Contract} {b : Baseline} {x : ℤ}
    (hpend : s.pending = none) (hqueue : s.queue = [])
    (hrow : s.db.cw20_contract.get? 7 = some row) (htrack : row.track = true)
    (hb : s.baseline 7 = some b)
    (hx : (replay 7 (jobEvents s.db ⟨7, b.last_updated_height, s.handled⟩)
      (b.holders, 0)).toOption.map (fun st => amountOf st.1 (7, "bob")) = some x)
    (hne : amountOf s.db.cw20_holder (7, "bob") ≠ x) : ¬ Settled s := by
  intro h
  obtain ⟨b', hb', st, hreplay, hamount, -⟩ := h hpend hqueue 7 row hrow htrack
  obtain rfl := Option.some.inj (hb.symm.trans hb')
  rw [hreplay] at hx
  exact hne ((hamount "bob").trans (Option.some.inj hx))

end Erascope.Cw20
