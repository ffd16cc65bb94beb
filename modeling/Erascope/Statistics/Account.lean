import Mathlib.Tactic
import Erascope.Lib.Paired
import Erascope.Lib.Rows
import Erascope.Lib.Table

/-!
# Daily account statistics

`services/statistics/account_statistics.service.ts`. The job of a day looks for the first
transaction of the day and for the last one, reads the attributes of the transactions from the
first on and before the last, and adds the amounts of the events and the gas of the transactions up
for each address.

The database does not promise an order: neither of the groups of a query, nor of the attributes
that are aggregated in a group (`Answers`).

* `handleJob`: the job.
* `expected`: what a row should have.

Results:
1. `value_calculateSpendReceive`, `value_calculateGasUsedTxSent`: the two calculations add up what
   the objects of the groups say.
-/

namespace Erascope.AccountStatistics

/-! ## 1. Rows -/

/-- A text that is not empty. -/
structure Address where
  text : String
  ne_empty : text ≠ ""
deriving DecidableEq

inductive Side
  | spent
  | received
deriving DecidableEq

/-- A `coin_spent` or `coin_received` event: its addresses, each with the text of its coins. -/
structure CoinEvent where
  side : Side
  pairs : List (Address × String)

/-- A transaction with its events; `grantee` is that of `use_feegrant`. -/
structure Tx where
  id : ℕ
  timestamp : ℤ
  gas_used : ℕ
  fee_payer : Option Address
  grantee : Option Address
  events : List CoinEvent

/-- The table `transaction`: the ids are in the order of the timestamps. -/
structure Transactions where
  rows : List Tx
  sorted : rows.Pairwise fun t u => t.id < u.id ∧ t.timestamp ≤ u.timestamp

/-- A row of `account_statistics`. -/
structure AccountStat where
  address : String
  amount_sent : ℕ
  amount_received : ℕ
  tx_sent : ℕ
  gas_used : ℕ
  date : ℤ
deriving DecidableEq

/-- The columns with numbers. -/
inductive Column
  | amount_sent
  | amount_received
  | tx_sent
  | gas_used
deriving DecidableEq

def AccountStat.value (r : AccountStat) : Column → ℕ
  | .amount_sent => r.amount_sent
  | .amount_received => r.amount_received
  | .tx_sent => r.tx_sent
  | .gas_used => r.gas_used

def newAccountStat (address : String) (date : ℤ) : AccountStat := ⟨address, 0, 0, 0, 0, date⟩

/-- The object `accountStats` -/
abbrev AccountStats := Table AccountStat.address

/-- The table `account_statistics`, with the unique key of its migration -/
abbrev StatTable := Table fun r : AccountStat => (r.address, r.date)

structure Coin where
  denom : String
  amount : ℕ

/-- `networkDenom` of the configuration, and `parseCoins` of `@cosmjs/proto-signing`, `none` when it
throws: it does not know every denom. `coins` are the coins of a text. -/
structure Config where
  networkDenom : String
  parseCoins : String → Option (List Coin)
  coins : String → List Coin
  parse_eq : ∀ text cs, parseCoins text = some cs → cs = coins text

/-! ## 2. Attributes -/

/-- `EventAttribute.ATTRIBUTE_COMPOSITE_KEY` -/
inductive CompositeKey
  | coinSpentSpender
  | coinSpentAmount
  | coinReceivedReceiver
  | coinReceivedAmount
  | txFeePayer
  | useFeegrantGrantee
deriving DecidableEq

abbrev Attribute := CompositeKey × String

def Side.addressKey : Side → CompositeKey
  | .spent => .coinSpentSpender
  | .received => .coinReceivedReceiver

def Side.amountKey : Side → CompositeKey
  | .spent => .coinSpentAmount
  | .received => .coinReceivedAmount

def CoinEvent.attributes (e : CoinEvent) : List Attribute :=
  e.pairs.flatMap fun p => [(e.side.addressKey, p.1.text), (e.side.amountKey, p.2)]

def Tx.feeAttributes (t : Tx) : List Attribute :=
  (t.fee_payer.map fun a => (CompositeKey.txFeePayer, a.text)).toList ++
    (t.grantee.map fun a => (CompositeKey.useFeegrantGrantee, a.text)).toList

/-- A possible answer of a query with groups: the groups in any order, `r` says which. -/
def Answers {α β : Type} (r : β → α → Prop) (xs : List α) (answer : List β) : Prop :=
  ∃ ys, ys.Perm xs ∧ List.Forall₂ r answer ys

/-- The attributes of the group of an event, in any order. -/
def EventGroup (attributes : List Attribute) (e : CoinEvent) : Prop :=
  attributes.Perm e.attributes

/-- The attributes of the group of a transaction, in any order, with its gas. -/
def FeeGroup (group : List Attribute × ℕ) (t : Tx) : Prop :=
  group.1.Perm t.feeAttributes ∧ group.2 = t.gas_used

/-! ## 3. The calculations -/

/-- An object with the keys of attributes. -/
abbrev Obj := CompositeKey → Option String

/-- `Object.assign({}, ...attributes)`: of several values of one key the last stays. -/
def assign (attributes : List Attribute) : Obj :=
  attributes.foldl (fun obj a => Function.update obj a.1 (some a.2)) fun _ => none

/-- `if (!accountStats[address]) accountStats[address] = newAccountStat(address, date)` -/
def ensure (date : ℤ) (stats : AccountStats) (address : String) : AccountStats :=
  match stats.get? address with
  | some _ => stats
  | none => stats.upsert (newAccountStat address date)

/-- A change of `accountStats[address]`; it throws when there is none. -/
def modify (stats : AccountStats) (address : String) (f : AccountStat → AccountStat) :
    Option AccountStats :=
  (stats.get? address).map fun r => stats.upsert (f r)

/-- `parseCoins(text)[0]`; the next access throws when there is none. -/
def firstCoin (cfg : Config) (text : Option String) : Option Coin :=
  (text.bind cfg.parseCoins).bind List.head?

def addSent (n : ℕ) (r : AccountStat) : AccountStat := { r with amount_sent := r.amount_sent + n }

def addReceived (n : ℕ) (r : AccountStat) : AccountStat :=
  { r with amount_received := r.amount_received + n }

def addTx (gas : ℕ) (r : AccountStat) : AccountStat :=
  { r with tx_sent := r.tx_sent + 1, gas_used := r.gas_used + gas }

def addressOfEvent (obj : Obj) : String :=
  ((obj .coinSpentSpender).or (obj .coinReceivedReceiver)).getD "undefined"

/-- The second pass of `calculateSpendReceive` -/
def addEvent (cfg : Config) (stats : AccountStats) (obj : Obj) : Option AccountStats :=
  match truthy (obj .coinSpentSpender) with
  | some addrSpent =>
    (firstCoin cfg (obj .coinSpentAmount)).bind fun amountSpent =>
      if amountSpent.denom = cfg.networkDenom then
        modify stats addrSpent (addSent amountSpent.amount)
      else some stats
  | none =>
    match truthy (obj .coinReceivedReceiver) with
    | some addrReceived =>
      (firstCoin cfg (obj .coinReceivedAmount)).bind fun amountReceived =>
        if amountReceived.denom = cfg.networkDenom then
          modify stats addrReceived (addReceived amountReceived.amount)
        else some stats
    | none => some stats

def calculateSpendReceive (cfg : Config) (date : ℤ) (dailyEvents : List (List Attribute))
    (stats : AccountStats) : Option AccountStats :=
  let objs := dailyEvents.map assign
  let stats := (objs.map addressOfEvent).foldl (ensure date) stats
  objs.foldlM (addEvent cfg) stats

def addressOfFee (obj : Obj) : String :=
  ((obj .useFeegrantGrantee).or (obj .txFeePayer)).getD "undefined"

/-- The second pass of `calculateGasUsedTxSent` -/
def addFee (stats : AccountStats) (event : Obj × ℕ) : Option AccountStats :=
  let addr := (truthy (event.1 .useFeegrantGrantee)).or (event.1 .txFeePayer)
  modify stats (addr.getD "undefined") (addTx event.2)

def calculateGasUsedTxSent (date : ℤ) (feeEvents : List (List Attribute × ℕ))
    (stats : AccountStats) : Option AccountStats :=
  let events := feeEvents.map fun g => (assign g.1, g.2)
  let stats := (events.map fun e => addressOfFee e.1).foldl (ensure date) stats
  events.foldlM addFee stats

/-! ## 4. The job -/

/-- The milliseconds of a day. -/
def dayMs : ℤ := 86400000

/-- `dayjs.utc(date).startOf('day')` -/
def startOfDay (date : ℤ) : ℤ := date / dayMs * dayMs

def Transactions.startTx (txs : Transactions) (startTime : ℤ) : Option Tx :=
  txs.rows.find? fun t => startTime ≤ t.timestamp

def Transactions.endTx (txs : Transactions) (endTime : ℤ) : Option Tx :=
  (txs.rows.filter fun t => t.timestamp < endTime).getLast?

/-- `tx_id >= startTxId` and `tx_id < endTxId` -/
def Transactions.inRange (txs : Transactions) (startTxId endTxId : ℕ) : List Tx :=
  txs.rows.filter fun t => startTxId ≤ t.id ∧ t.id < endTxId

/-- The transactions that the job of `date` reads; it throws when one of the two queries finds
none. -/
def Transactions.read (txs : Transactions) (date : ℤ) : Option (List Tx) :=
  let endTime := startOfDay date
  let startTime := endTime - dayMs
  (txs.startTx startTime).bind fun startTx =>
    (txs.endTx endTime).map fun endTx => txs.inRange startTx.id endTx.id

/-- The answers of the database to a job. -/
structure Answer where
  dailyEvents : List (List Attribute)
  feeEvents : List (List Attribute × ℕ)

/-- The events and transactions that have a group. -/
def eventsWithRows (read : List Tx) : List CoinEvent :=
  (read.flatMap Tx.events).filter fun e => e.attributes ≠ []

def feesWithRows (read : List Tx) : List Tx := read.filter fun t => t.feeAttributes ≠ []

/-- The answers are possible for the transactions that the job reads. -/
structure Possible (read : List Tx) (answer : Answer) : Prop where
  events : Answers EventGroup (eventsWithRows read) answer.dailyEvents
  fees : Answers FeeGroup (feesWithRows read) answer.feeEvents

/-- What the job adds up. The two calculations run one after the other: each of them works on
`accountStats` without waiting, and on columns of its own. -/
def statistics (cfg : Config) (date : ℤ) (answer : Answer) : Option AccountStats :=
  (calculateSpendReceive cfg date answer.dailyEvents Table.empty).bind
    (calculateGasUsedTxSent date answer.feeEvents)

/-- `handleJob`; when it throws, or a row with the key of a new one is there, nothing is
written. -/
def handleJob (cfg : Config) (txs : Transactions) (table : StatTable) (date : ℤ)
    (answer : Answer) : StatTable :=
  let startTime := startOfDay date - dayMs
  match txs.read date, statistics cfg startTime answer with
  | some _, some stats =>
    if ∀ r ∈ stats.rows, table.get? (r.address, r.date) = none then table.upsertAll stats.rows
    else table
  | _, _ => table

/-! ## 5. What the rows should have -/

/-- The native coins in a text. -/
def nativeSum (cfg : Config) (text : String) : ℕ :=
  (((cfg.coins text).filter fun c => c.denom = cfg.networkDenom).map Coin.amount).sum

/-- The native coins of an event, and those of an address. -/
def CoinEvent.total (cfg : Config) (e : CoinEvent) : ℕ :=
  (e.pairs.map fun p => nativeSum cfg p.2).sum

def CoinEvent.totalOf (cfg : Config) (a : String) (e : CoinEvent) : ℕ :=
  ((e.pairs.filter fun p => p.1.text = a).map fun p => nativeSum cfg p.2).sum

/-- Who pays a transaction: the grantee, or else the fee payer. -/
def Tx.paidBy (t : Tx) : Option Address := t.grantee.or t.fee_payer

def Tx.isPaidBy (a : String) (t : Tx) : Bool := t.paidBy.map Address.text = some a

def Transactions.day (txs : Transactions) (startTime : ℤ) : List Tx :=
  txs.rows.filter fun t => startTime ≤ t.timestamp ∧ t.timestamp < startTime + dayMs

def sideTotal (cfg : Config) (side : Side) (a : String) (day : List Tx) : ℕ :=
  (((day.flatMap Tx.events).filter fun e => e.side = side).map (CoinEvent.totalOf cfg a)).sum

/-- The numbers of an address for the transactions of a day. -/
def expected (cfg : Config) (day : List Tx) (a : String) : Column → ℕ
  | .amount_sent => sideTotal cfg .spent a day
  | .amount_received => sideTotal cfg .received a day
  | .tx_sent => (day.filter (Tx.isPaidBy a)).length
  | .gas_used => ((day.filter (Tx.isPaidBy a)).map Tx.gas_used).sum

/-! ## 6. Adding up -/

/-- A number of an address; without a row it is zero. -/
def valueOf (stats : AccountStats) (a : String) (c : Column) : ℕ :=
  ((stats.get? a).map fun r => r.value c).getD 0

/-- Something that is added to the row of an address. -/
structure Charge where
  address : String
  value : Column → ℕ

/-- What some charges add to a number of an address. -/
def chargeSum (charges : List Charge) (a : String) (c : Column) : ℕ :=
  ((charges.filter fun x => x.address = a).map fun x => x.value c).sum

/-- `stats'` is `stats` with the charges; both have rows for the same addresses. -/
structure Charged (stats : AccountStats) (charges : List Charge) (stats' : AccountStats) :
    Prop where
  value : ∀ a c, valueOf stats' a c = valueOf stats a c + chargeSum charges a c
  present : ∀ a, (stats'.get? a).isSome = (stats.get? a).isSome
  date : ∀ d, (∀ r ∈ stats.rows, r.date = d) → ∀ r ∈ stats'.rows, r.date = d

namespace AccountLemmas

theorem chargeSum_nil (a : String) (c : Column) : chargeSum [] a c = 0 := rfl

theorem chargeSum_cons (x : Charge) (xs : List Charge) (a : String) (c : Column) :
    chargeSum (x :: xs) a c = (if x.address = a then x.value c else 0) + chargeSum xs a c := by
  unfold chargeSum
  rw [List.filter_cons]
  by_cases h : x.address = a
  · rw [if_pos (decide_eq_true h), if_pos h, List.map_cons, List.sum_cons]
  · rw [if_neg (by simpa using h), if_neg h, zero_add]

theorem charged_nil (stats : AccountStats) : Charged stats [] stats :=
  ⟨fun _ _ => rfl, fun _ => rfl, fun _ h => h⟩

theorem charged_cons {stats stats' stats'' : AccountStats} {x : Charge} {xs : List Charge}
    (hx : Charged stats [x] stats') (hxs : Charged stats' xs stats'') :
    Charged stats (x :: xs) stats'' := by
  refine ⟨fun a c => ?_, fun a => (hxs.present a).trans (hx.present a),
    fun d h => hxs.date d (hx.date d h)⟩
  rw [hxs.value, hx.value, chargeSum_cons x xs, chargeSum_cons x [], chargeSum_nil, add_zero,
    add_assoc]

/-- A change of a row that adds to its numbers. -/
theorem modify_charged {stats : AccountStats} {x : Charge} {f : AccountStat → AccountStat}
    (hkey : ∀ r, (f r).address = r.address) (hdate : ∀ r, (f r).date = r.date)
    (hvalue : ∀ r c, (f r).value c = r.value c + x.value c)
    (hpresent : (stats.get? x.address).isSome) :
    ∃ stats', modify stats x.address f = some stats' ∧ Charged stats [x] stats' := by
  obtain ⟨r, hr⟩ := Option.isSome_iff_exists.mp hpresent
  have haddr : (f r).address = x.address := (hkey r).trans (Table.key_of_get? hr)
  refine ⟨stats.upsert (f r), by rw [modify, hr, Option.map_some], ?_, ?_, ?_⟩
  · intro a c
    rw [chargeSum_cons, chargeSum_nil, add_zero]
    unfold valueOf
    rw [Table.get?_upsert, haddr]
    by_cases ha : x.address = a
    · rw [if_pos ha, if_pos ha, ← ha, hr]
      exact hvalue r c
    · rw [if_neg ha, if_neg ha, add_zero]
  · intro a
    rw [Table.get?_upsert, haddr]
    by_cases ha : x.address = a
    · rw [if_pos ha, ← ha, hr]
      rfl
    · rw [if_neg ha]
  · intro d hd r' hr'
    rcases Table.mem_rows_upsert.mp hr' with rfl | ⟨hr', -⟩
    · exact (hdate r).trans (hd r (Table.mem_of_get? hr))
    · exact hd r' hr'

/-- The passes that create the rows. -/
theorem ensure_foldl (date : ℤ) (addresses : List String) (stats : AccountStats) :
    (∀ a c, valueOf (addresses.foldl (ensure date) stats) a c = valueOf stats a c) ∧
    (∀ a, (((addresses.foldl (ensure date) stats).get? a).isSome ↔
      a ∈ addresses ∨ (stats.get? a).isSome)) ∧
    ((∀ r ∈ stats.rows, r.date = date) →
      ∀ r ∈ (addresses.foldl (ensure date) stats).rows, r.date = date) := by
  induction addresses generalizing stats with
  | nil => simp
  | cons b bs ih =>
    obtain ⟨hvalue, hpresent, hdate⟩ := ih (ensure date stats b)
    have hget : ∀ a, (ensure date stats b).get? a =
        if a = b ∧ stats.get? b = none then some (newAccountStat b date) else stats.get? a := by
      intro a
      unfold ensure
      cases hb : stats.get? b with
      | some r => simp
      | none =>
        rw [Table.get?_upsert]
        by_cases ha : b = a
        · subst ha
          simp [newAccountStat]
        · have hne : (newAccountStat b date).address ≠ a := ha
          rw [if_neg hne, if_neg fun h => ha h.1.symm]
    rw [List.foldl_cons]
    refine ⟨fun a c => ?_, fun a => ?_, fun h => hdate ?_⟩
    · rw [hvalue, valueOf, valueOf, hget]
      split
      case isTrue h =>
        rw [h.1, h.2]
        cases c <;> rfl
      case isFalse => rfl
    · rw [hpresent, hget, List.mem_cons]
      by_cases ha : a = b
      · subst ha
        cases hnone : stats.get? a <;> simp
      · simp [ha]
    · intro r hr
      unfold ensure at hr
      split at hr
      · exact h r hr
      · rcases Table.mem_rows_upsert.mp hr with rfl | ⟨hr, -⟩
        · rfl
        · exact h r hr

/-- A pass that adds a charge for each of its objects, or throws. -/
theorem foldlM_charged {α : Type} {f : AccountStats → α → Option AccountStats}
    {R : α → Charge → Prop}
    (hf : ∀ stats x y, R x y → (stats.get? y.address).isSome →
      ∃ stats', f stats x = some stats' ∧ Charged stats [y] stats')
    {xs : List α} {charges : List Charge} (h : List.Forall₂ R xs charges)
    {stats : AccountStats} (hpresent : ∀ y ∈ charges, (stats.get? y.address).isSome) :
    ∃ stats', xs.foldlM f stats = some stats' ∧ Charged stats charges stats' := by
  induction h generalizing stats with
  | nil => exact ⟨stats, rfl, charged_nil stats⟩
  | @cons x y xs ys hy hys ih =>
    obtain ⟨hpy, hpys⟩ := List.forall_mem_cons.mp hpresent
    obtain ⟨stats', hstats', hcharged⟩ := hf stats x y hy hpy
    have hpys' : ∀ z ∈ ys, (stats'.get? z.address).isSome := fun z hz => by
      rw [hcharged.present]
      exact hpys z hz
    obtain ⟨stats'', hstats'', hcharged'⟩ := ih hpys'
    refine ⟨stats'', ?_, charged_cons hcharged hcharged'⟩
    rw [List.foldlM_cons, hstats']
    exact hstats''

theorem foldlM_none {α : Type} {f : AccountStats → α → Option AccountStats}
    {x : α} (hx : ∀ stats, f stats x = none) {xs : List α} (hmem : x ∈ xs) (stats : AccountStats) :
    xs.foldlM f stats = none := by
  induction xs generalizing stats with
  | nil => cases hmem
  | cons y ys ih =>
    rw [List.foldlM_cons]
    rcases List.mem_cons.mp hmem with rfl | hys
    · rw [hx]
      rfl
    · cases f stats y with
      | none => rfl
      | some stats' => exact ih hys stats'

theorem charged_zero (stats : AccountStats) {x : Charge} (h : ∀ c, x.value c = 0) :
    Charged stats [x] stats := by
  refine ⟨fun a c => ?_, fun _ => rfl, fun _ h => h⟩
  rw [chargeSum_cons, chargeSum_nil, h, ite_self]
  rfl

end AccountLemmas

open AccountLemmas

/-- A number in one column. -/
def inColumn (column : Column) (n : ℕ) (c : Column) : ℕ := if c = column then n else 0

def Side.column : Side → Column
  | .spent => .amount_sent
  | .received => .amount_received

/-- What counts of a coin. -/
def nativeAmount (cfg : Config) (coin : Coin) : ℕ :=
  if coin.denom = cfg.networkDenom then coin.amount else 0

/-- The charge of an object with an address of one side. -/
def sideCharge (cfg : Config) (side : Side) (obj : Obj) (address : String) : Option Charge :=
  (firstCoin cfg (obj side.amountKey)).map fun coin =>
    ⟨address, inColumn side.column (nativeAmount cfg coin)⟩

/-- The charge of an object of `calculateSpendReceive`; `none` when it throws. -/
def eventCharge (cfg : Config) (obj : Obj) : Option Charge :=
  match truthy (obj .coinSpentSpender) with
  | some addrSpent => sideCharge cfg .spent obj addrSpent
  | none =>
    match truthy (obj .coinReceivedReceiver) with
    | some addrReceived => sideCharge cfg .received obj addrReceived
    | none => some ⟨addressOfEvent obj, fun _ => 0⟩

/-- The charge of an object of `calculateGasUsedTxSent` -/
def feeCharge (event : Obj × ℕ) : Charge :=
  ⟨addressOfFee event.1, fun c => inColumn .tx_sent 1 c + inColumn .gas_used event.2 c⟩

/-- No address is empty. -/
structure Plain (obj : Obj) : Prop where
  spender : obj .coinSpentSpender ≠ some ""
  grantee : obj .useFeegrantGrantee ≠ some ""

namespace AccountLemmas

theorem truthy_eq {s : Option String} (h : s ≠ some "") : truthy s = s := by
  cases s with
  | none => rfl
  | some t => exact Option.filter_some_pos (decide_eq_true fun ht => h (ht ▸ rfl))

theorem of_truthy {s : Option String} {t : String} (h : truthy s = some t) : s = some t :=
  (Option.filter_eq_some_iff.mp h).1

/-- The amount of one side. -/
theorem addSide_charged {cfg : Config} {stats : AccountStats} {side : Side} {obj : Obj}
    {address : String} {y : Charge} (hy : sideCharge cfg side obj address = some y)
    (hpresent : (stats.get? y.address).isSome) {add : ℕ → AccountStat → AccountStat}
    (hkey : ∀ n r, (add n r).address = r.address) (hdate : ∀ n r, (add n r).date = r.date)
    (hvalue : ∀ n r c, (add n r).value c = r.value c + inColumn side.column n c) :
    ∃ stats', ((firstCoin cfg (obj side.amountKey)).bind fun coin =>
      if coin.denom = cfg.networkDenom then modify stats address (add coin.amount)
      else some stats) = some stats' ∧ Charged stats [y] stats' := by
  obtain ⟨coin, hcoin, rfl⟩ := Option.map_eq_some_iff.mp hy
  rw [hcoin, Option.bind_some]
  by_cases hdenom : coin.denom = cfg.networkDenom
  · rw [if_pos hdenom]
    have hamount : nativeAmount cfg coin = coin.amount := if_pos hdenom
    refine @modify_charged stats ⟨address, inColumn side.column (nativeAmount cfg coin)⟩ _
      (hkey coin.amount) (hdate coin.amount) (fun r c => ?_) hpresent
    rw [hvalue, hamount]
  · rw [if_neg hdenom]
    have hamount : nativeAmount cfg coin = 0 := if_neg hdenom
    refine ⟨stats, rfl, charged_zero stats fun c => ?_⟩
    rw [hamount]
    exact ite_self 0

theorem addEvent_charged {cfg : Config} (stats : AccountStats) (obj : Obj) (y : Charge)
    (hy : eventCharge cfg obj = some y) (hpresent : (stats.get? y.address).isSome) :
    ∃ stats', addEvent cfg stats obj = some stats' ∧ Charged stats [y] stats' := by
  unfold eventCharge at hy
  unfold addEvent
  cases hspender : truthy (obj .coinSpentSpender) with
  | some addrSpent =>
    rw [hspender] at hy
    refine addSide_charged hy hpresent (fun _ _ => rfl) (fun _ _ => rfl) fun n r c => ?_
    cases c <;> rfl
  | none =>
    rw [hspender] at hy
    cases hreceiver : truthy (obj .coinReceivedReceiver) with
    | some addrReceived =>
      rw [hreceiver] at hy
      refine addSide_charged hy hpresent (fun _ _ => rfl) (fun _ _ => rfl) fun n r c => ?_
      cases c <;> rfl
    | none =>
      rw [hreceiver] at hy
      obtain rfl := Option.some.inj hy
      exact ⟨stats, rfl, charged_zero stats fun _ => rfl⟩

theorem addEvent_none {cfg : Config} {obj : Obj} (h : eventCharge cfg obj = none)
    (stats : AccountStats) : addEvent cfg stats obj = none := by
  unfold eventCharge at h
  unfold addEvent
  cases hspender : truthy (obj .coinSpentSpender) with
  | some addrSpent =>
    rw [hspender] at h
    have hcoin : firstCoin cfg (obj .coinSpentAmount) = none := Option.map_eq_none_iff.mp h
    dsimp only
    rw [hcoin]
    rfl
  | none =>
    rw [hspender] at h
    cases hreceiver : truthy (obj .coinReceivedReceiver) with
    | some addrReceived =>
      rw [hreceiver] at h
      have hcoin : firstCoin cfg (obj .coinReceivedAmount) = none := Option.map_eq_none_iff.mp h
      dsimp only
      rw [hcoin]
      rfl
    | none =>
      rw [hreceiver] at h
      cases h

theorem address_of_eventCharge {cfg : Config} {obj : Obj} (hobj : Plain obj) {y : Charge}
    (hy : eventCharge cfg obj = some y) : y.address = addressOfEvent obj := by
  unfold eventCharge at hy
  rw [truthy_eq hobj.spender] at hy
  unfold addressOfEvent
  cases hspender : obj .coinSpentSpender with
  | some addrSpent =>
    rw [hspender] at hy
    obtain ⟨coin, -, rfl⟩ := Option.map_eq_some_iff.mp hy
    rfl
  | none =>
    rw [hspender] at hy
    dsimp only at hy
    cases hreceiver : truthy (obj .coinReceivedReceiver) with
    | some addrReceived =>
      rw [hreceiver] at hy
      obtain ⟨coin, -, rfl⟩ := Option.map_eq_some_iff.mp hy
      rw [of_truthy hreceiver]
      rfl
    | none =>
      rw [hreceiver] at hy
      obtain rfl := Option.some.inj hy
      rw [addressOfEvent, hspender]

theorem addFee_charged (stats : AccountStats) (event : Obj × ℕ) (hobj : Plain event.1)
    (hpresent : (stats.get? (feeCharge event).address).isSome) :
    ∃ stats', addFee stats event = some stats' ∧ Charged stats [feeCharge event] stats' := by
  have haddr : ((truthy (event.1 .useFeegrantGrantee)).or (event.1 .txFeePayer)).getD "undefined" =
      (feeCharge event).address := by
    rw [truthy_eq hobj.grantee]
    rfl
  unfold addFee
  dsimp only
  rw [haddr]
  refine modify_charged (fun _ => rfl) (fun _ => rfl) (fun r c => ?_) hpresent
  cases c <;> simp [addTx, AccountStat.value, feeCharge, inColumn]

end AccountLemmas

/-- The numbers after `calculateSpendReceive`: those before and the charges. -/
theorem value_calculateSpendReceive {cfg : Config} {date : ℤ} {events : List (List Attribute)}
    {stats : AccountStats} {charges : List Charge} (hplain : ∀ g ∈ events, Plain (assign g))
    (hcharges : List.Forall₂ (fun g y => eventCharge cfg (assign g) = some y) events charges)
    (hdate : ∀ r ∈ stats.rows, r.date = date) :
    ∃ stats', calculateSpendReceive cfg date events stats = some stats' ∧
      (∀ a c, valueOf stats' a c = valueOf stats a c + chargeSum charges a c) ∧
        ∀ r ∈ stats'.rows, r.date = date := by
  obtain ⟨hvalue, hrows, hdates⟩ :=
    ensure_foldl date ((events.map assign).map addressOfEvent) stats
  have hpresent : ∀ y ∈ charges, ((((events.map assign).map addressOfEvent).foldl (ensure date)
      stats).get? y.address).isSome := by
    intro y hy
    obtain ⟨g, hg, hgy⟩ := Paired.exists_left hcharges hy
    rw [address_of_eventCharge (hplain g hg) hgy]
    exact (hrows _).mpr (Or.inl (List.mem_map_of_mem (List.mem_map_of_mem hg)))
  obtain ⟨stats', hstats', hcharged⟩ :=
    foldlM_charged addEvent_charged (List.forall₂_map_left_iff.mpr hcharges) hpresent
  refine ⟨stats', hstats', fun a c => ?_, hcharged.date date (hdates hdate)⟩
  rw [hcharged.value, hvalue]

theorem calculateSpendReceive_none {cfg : Config} (date : ℤ) {events : List (List Attribute)}
    (stats : AccountStats) {g : List Attribute} (hg : g ∈ events)
    (h : eventCharge cfg (assign g) = none) :
    calculateSpendReceive cfg date events stats = none :=
  foldlM_none (addEvent_none h) (List.mem_map_of_mem hg) _

/-- The numbers after `calculateGasUsedTxSent`: those before and the charges. -/
theorem value_calculateGasUsedTxSent {date : ℤ} {fees : List (List Attribute × ℕ)}
    {stats : AccountStats} (hplain : ∀ g ∈ fees, Plain (assign g.1))
    (hdate : ∀ r ∈ stats.rows, r.date = date) :
    ∃ stats', calculateGasUsedTxSent date fees stats = some stats' ∧
      (∀ a c, valueOf stats' a c = valueOf stats a c +
        chargeSum (fees.map fun g => feeCharge (assign g.1, g.2)) a c) ∧
        ∀ r ∈ stats'.rows, r.date = date := by
  obtain ⟨hvalue, hrows, hdates⟩ := ensure_foldl date
    ((fees.map fun g => (assign g.1, g.2)).map fun e => addressOfFee e.1) stats
  have hcharges : List.Forall₂ (fun e y => Plain e.1 ∧ y = feeCharge e)
      (fees.map fun g => (assign g.1, g.2)) (fees.map fun g => feeCharge (assign g.1, g.2)) := by
    rw [List.forall₂_map_left_iff, List.forall₂_map_right_iff, List.forall₂_same]
    exact fun g hg => ⟨hplain g hg, rfl⟩
  have hpresent : ∀ y ∈ fees.map fun g => feeCharge (assign g.1, g.2),
      ((((fees.map fun g => (assign g.1, g.2)).map fun e => addressOfFee e.1).foldl (ensure date)
        stats).get? y.address).isSome := by
    intro y hy
    obtain ⟨g, hg, rfl⟩ := List.mem_map.mp hy
    refine (hrows _).mpr (Or.inl ?_)
    rw [List.map_map]
    exact List.mem_map_of_mem hg
  obtain ⟨stats', hstats', hcharged⟩ := foldlM_charged
    (fun stats e y hy hpresent => hy.2 ▸ addFee_charged stats e hy.1 (hy.2 ▸ hpresent))
    hcharges hpresent
  refine ⟨stats', hstats', fun a c => ?_, hcharged.date date (hdates hdate)⟩
  rw [hcharged.value, hvalue]

end Erascope.AccountStatistics
