import Mathlib.Tactic
import Erascope.CrawlTx.CoinTransfer

/-!
# The sums of coin transfers

What a `transfer` event pays is a list of recipients with their coins. The rows of an event add up
to it when the event has one coin for each recipient, the amounts survive the way through a double,
and the message at the event's position is the event's message. The last is left to the order in
which the database returns the messages, so it holds in every order only when the transaction has
one message.

Results:
1. `coin_transfers_iff`: for any range, the job inserts rows that account for all coins in every
   order of the messages if and only if the message-level events between the first and the last id
   of the range belong to it, every transfer comes from a transaction with a single message, every
   recipient gets at most one coin at a time, and the amounts add up as they are printed.
2. `two_coins`: of `10uatom,20uaura` the job stores 10 of the denomination `uatom,20uaura`.
-/

namespace Erascope.CoinTransfers

open AmountLemmas

/-! ## 1. What events pay -/

/-- Recipients and their coins. -/
abbrev Payments := List (String × List Coin)

/-- Pairs of a recipient and an amount. -/
inductive Pairs : List Attribute → Payments → Prop
  | nil : Pairs [] []
  | cons {value : Option String} {coins : List Coin} {recipient : String} {rest : List Attribute}
      {payments : Payments} :
      IsCoins value coins → Pairs rest payments →
      Pairs (⟨"recipient", some recipient⟩ :: ⟨"amount", value⟩ :: rest)
        ((recipient, coins) :: payments)

/-- The two shapes of a `transfer` event of a message. -/
inductive Supported (message : Message) (event : Event) : Payments → Prop
  | single {sender : Option String} {recipient : String} {value : Option String}
      {coins : List Coin} {extra : List Attribute} :
      IsCoins value coins → (extra = [] ∨ ∃ v, extra = [⟨"authz_msg_index", v⟩]) →
      event.attributes.Perm (⟨"sender", sender⟩ :: ⟨"recipient", some recipient⟩ ::
        ⟨"amount", value⟩ :: extra) →
      Supported message event [(recipient, coins)]
  | pairs {payments : Payments} :
      message.type = msgMultiSend → payments ≠ [] → Pairs event.attributes payments →
      Supported message event payments

/-- The messages that are not inside a `MsgExec`. -/
def topLevel (tx : Tx) : List Message := tx.messages.filter fun m => m.parent_id = none

/-- A message-level `transfer` event. -/
def isTransfer (event : Event) : Bool :=
  decide (event.type = "transfer") && event.tx_msg_index.isSome

/-- The tables, with what each transfer pays. The top-level messages of a transaction are numbered
from 0. -/
structure History where
  db : Db
  payments : Event → Payments
  sorted : db.transaction.Pairwise fun a b => a.id < b.id
  message_ids : ∀ tx ∈ db.transaction, (tx.messages.map (·.id)).Nodup
  indices : ∀ tx ∈ db.transaction,
    ((topLevel tx).map (·.index)).Perm (List.range (topLevel tx).length)
  supported : ∀ tx ∈ db.transaction, ∀ e ∈ db.event, e.tx_id = tx.id → isTransfer e = true →
    ∃ m ∈ topLevel tx, e.tx_msg_index = some m.index ∧ Supported m e (payments e)

/-- The amounts of the coins of a denomination for a recipient, each through `f`. -/
def coinSum (f : ℕ → ℕ) (payments : Payments) (recipient denom : String) : ℕ :=
  ((((payments.filter fun p => p.1 = recipient).flatMap (·.2)).filter fun c =>
    c.denom = denom).map fun c => f c.amount).sum

/-- The transfers of a message. -/
def transfersOf (history : History) (tx : Tx) (m : Message) : List Event :=
  history.db.event.filter fun e =>
    e.tx_id = tx.id ∧ isTransfer e = true ∧ e.tx_msg_index = some m.index

/-- What the transfers of a message pay a recipient. -/
def paid (history : History) (f : ℕ → ℕ) (tx : Tx) (m : Message) (recipient denom : String) : ℕ :=
  ((transfersOf history tx m).map fun e => coinSum f (history.payments e) recipient denom).sum

/-! ## 2. The property -/

/-- The sum of the amounts of some rows. -/
def amountSum (p : CoinTransfer → Bool) (rows : List CoinTransfer) : ℕ :=
  ((rows.filter p).map (·.amount)).sum

/-- The rows of an event name its transaction and its top-level message. -/
def RowsOfMessage (tx : Tx) (event : Event) (rows : List CoinTransfer) : Prop :=
  ∀ row ∈ rows, row.tx_id = tx.id ∧
    ∃ m ∈ topLevel tx, event.tx_msg_index = some m.index ∧ row.tx_msg_id = m.id

/-- The job returns, every row belongs to the message of its event, and the sums agree. -/
def Accounted (history : History) (txs : List Tx) (events : List Event) : Prop :=
  ∃ rows, jobHandleTxCoinTransfer txs events = .ok rows ∧
    (∀ tx ∈ txs, ∀ event ∈ eventsOf events tx, ∀ rs,
      eventRows tx (eventsOf events tx) event = .ok rs → RowsOfMessage tx event rs) ∧
    ∀ tx ∈ txs, ∀ m ∈ topLevel tx, ∀ recipient denom,
      amountSum (fun row => row.tx_id = tx.id ∧ row.tx_msg_id = m.id ∧
        row.recipient = recipient ∧ row.denom = denom) rows =
      paid history id tx m recipient denom

/-- The transactions of a range. -/
def rangeTxs (history : History) (fromHeight toHeight : ℕ) : List Tx :=
  between (·.height) fromHeight toHeight history.db.transaction

/-- An event that pays nothing may be skipped, as long as no other message is a `MsgMultiSend`. -/
def Skippable (history : History) (tx : Tx) (event : Event) : Prop :=
  isSingle event = false ∧ (∀ p ∈ history.payments event, p.2 = []) ∧
    ∀ m ∈ tx.messages, m.type = msgMultiSend →
      m.parent_id = none ∧ event.tx_msg_index = some m.index

/-- What the job needs of a transaction. -/
structure Accountable (history : History) (tx : Tx) : Prop where
  message : ∀ e ∈ history.db.event, e.tx_id = tx.id → isTransfer e = true →
    tx.messages.length = 1 ∨ Skippable history tx e
  one_coin : ∀ e ∈ history.db.event, e.tx_id = tx.id → isTransfer e = true →
    ∀ p ∈ history.payments e, p.2.length ≤ 1
  sums : ∀ m ∈ topLevel tx, ∀ recipient denom,
    paid history Number.reprinted tx m recipient denom = paid history id tx m recipient denom

namespace CoinSumsLemmas

/-! ### The rows of one event -/

/-- What `extractAmount` makes of a coin list. -/
def extracted (coins : List Coin) : ℕ × String :=
  extractAmount (some (String.ofList (coinsText coins)))

theorem extractAmount_eq {value : Option String} {coins : List Coin} (h : IsCoins value coins) :
    extractAmount value = extracted coins := by
  cases value with
  | some s =>
    have hs : s.toList = coinsText coins := h
    rw [extracted, ← hs, String.ofList_toList]
  | none =>
    have hnil : coinsText coins = [] := h.symm
    rw [extracted, hnil]
    decide

/-- The row of a payment. -/
def paymentRow (tx : Tx) (x : Message) (sender : Option String) (p : String × List Coin) :
    CoinTransfer where
  block_height := tx.height
  tx_id := tx.id
  tx_msg_id := x.id
  sender := sender
  recipient := p.1
  amount := Number.printed (extracted p.2).1
  denom := (extracted p.2).2
  timestamp := tx.timestamp

variable {tx : Tx} {m x : Message} {event : Event} {events : List Event} {payments : Payments}

theorem transferRow_eq {value sender : Option String} {coins : List Coin} {recipient : String}
    (h : IsCoins value coins) :
    transferRow tx x sender (some recipient) value = paymentRow tx x sender (recipient, coins) := by
  rw [transferRow, extractAmount_eq h]
  rfl

theorem pairRows_eq {attributes : List Attribute} (h : Pairs attributes payments)
    (sender : Option String) :
    pairRows tx x sender attributes = .ok (payments.map (paymentRow tx x sender)) := by
  induction h with
  | nil => rfl
  | cons hcoins _ ih =>
    rw [pairRows, if_neg (by simp), ih, ok_bind, transferRow_eq hcoins]
    rfl

/-- A key that occurs once is found in any order. -/
theorem find_of_perm {attributes attributes' : List Attribute} {a : Attribute}
    (h : attributes.Perm attributes') (ha : (attributes'.filter fun b => b.key = a.key) = [a]) :
    find attributes a.key = some a.value := by
  have hperm := h.filter fun b => decide (b.key = a.key)
  rw [ha] at hperm
  rw [find, ← List.head?_filter, List.perm_singleton.mp hperm]
  rfl

theorem Pairs.keys {attributes : List Attribute} (h : Pairs attributes payments) :
    attributes.length = 2 * payments.length ∧
      "authz_msg_index" ∉ attributes.map (·.key) := by
  induction h with
  | nil => exact ⟨rfl, List.not_mem_nil⟩
  | cons _ _ ih =>
    refine ⟨?_, ?_⟩
    · simp only [List.length_cons, ih.1]
      omega
    · simpa using ih.2

theorem isSingle_of_pairs (h : Pairs event.attributes payments) : isSingle event = false := by
  obtain ⟨hlen, hkeys⟩ := Pairs.keys h
  have h3 : ¬ event.attributes.length = 3 := by omega
  rw [isSingle, decide_eq_false h3, decide_eq_false hkeys, Bool.and_false]
  rfl

theorem isSingle_of_perm {a b c : Attribute} {extra : List Attribute}
    (hextra : extra = [] ∨ ∃ v, extra = [⟨"authz_msg_index", v⟩])
    (hperm : event.attributes.Perm (a :: b :: c :: extra)) : isSingle event = true := by
  rw [isSingle]
  rcases hextra with rfl | ⟨v, rfl⟩
  · rw [decide_eq_true (by simpa using hperm.length_eq)]
    rfl
  · have hmem : "authz_msg_index" ∈ event.attributes.map (·.key) := by
      rw [(hperm.map _).mem_iff]
      simp
    rw [decide_eq_true hmem, decide_eq_true (p := event.attributes.length = 4)
      (by simpa using hperm.length_eq), Bool.and_true, Bool.or_true]

/-- The rows of an event, by the message at its position. -/
theorem eventRows_eq (events : List Event) {index : ℕ} (htransfer : isTransfer event = true)
    (hindex : event.tx_msg_index = some index) (hx : tx.messages[index]? = some x)
    (h : Supported m event payments) :
    ∃ sender, eventRows tx events event =
      .ok (if isSingle event ∨ x.type = msgMultiSend then payments.map (paymentRow tx x sender)
        else []) := by
  have htype : event.type = "transfer" := by
    rw [isTransfer, Bool.and_eq_true, decide_eq_true_eq] at htransfer
    exact htransfer.1
  cases h with
  | @single sender recipient value coins extra hcoins hextra hperm =>
    have hsingle := isSingle_of_perm hextra hperm
    have hfilter : ∀ a ∈ [⟨"sender", sender⟩, ⟨"recipient", some recipient⟩, ⟨"amount", value⟩],
        find event.attributes (Attribute.key a) = some a.value := by
      intro a ha
      refine find_of_perm hperm ?_
      simp only [List.mem_cons, List.not_mem_nil, or_false] at ha
      rcases hextra with rfl | ⟨v, rfl⟩ <;> rcases ha with rfl | rfl | rfl <;> simp
    have hsender := hfilter ⟨"sender", sender⟩ (by simp)
    have hrecipient := hfilter ⟨"recipient", some recipient⟩ (by simp)
    have hamount := hfilter ⟨"amount", value⟩ (by simp)
    simp only at hsender hrecipient hamount
    refine ⟨sender, ?_⟩
    rw [eventRows, hindex]
    simp only [htype, ne_eq, not_true_eq_false, if_false, hx, hsingle, Bool.true_eq_false, and_false,
      if_true, hrecipient, hsender, hamount, Option.join_some, transferRow_eq hcoins, true_or,
      List.map_cons, List.map_nil]
  | pairs hmulti hne hpairs =>
    have hsingle := isSingle_of_pairs hpairs
    have h3 : ¬ event.attributes.length = 3 := by
      have := (Pairs.keys hpairs).1
      omega
    rw [eventRows, hindex]
    simp only [htype, ne_eq, not_true_eq_false, if_false, hx, hsingle, h3, not_false_eq_true,
      and_true, true_and, Bool.false_eq_true, false_or]
    by_cases hx' : x.type = msgMultiSend
    · simp only [if_neg (not_not.mpr hx'), if_pos hx', pairRows_eq hpairs]
      exact ⟨_, rfl⟩
    · refine ⟨none, ?_⟩
      rw [if_pos hx', if_neg hx']

theorem eventRows_not_transfer (h : isTransfer event = false) :
    eventRows tx events event = .ok [] := by
  rw [isTransfer] at h
  rw [eventRows]
  cases hindex : event.tx_msg_index with
  | none => rfl
  | some index =>
    have htype : event.type ≠ "transfer" := by simpa [hindex] using h
    simp only [if_pos htype]

/-! ### The sums of one event -/

/-- The rows of a recipient and a denomination. -/
def ofRecipient (recipient denom : String) (row : CoinTransfer) : Bool :=
  decide (row.recipient = recipient ∧ row.denom = denom)

/-- The sum of the rows of payments. -/
def paymentSum (payments : Payments) (recipient denom : String) : ℕ :=
  ((payments.filter fun p => p.1 = recipient ∧ (extracted p.2).2 = denom).map fun p =>
    Number.printed (extracted p.2).1).sum

theorem amountSum_paymentRows (sender : Option String) (payments : Payments)
    (recipient denom : String) :
    amountSum (ofRecipient recipient denom) (payments.map (paymentRow tx x sender)) =
      paymentSum payments recipient denom := by
  have hfilter : (ofRecipient recipient denom ∘ paymentRow tx x sender) =
      fun p => decide (p.1 = recipient ∧ (extracted p.2).2 = denom) :=
    funext fun p => decide_eq_decide.mpr Iff.rfl
  rw [amountSum, List.filter_map, hfilter, List.map_map, paymentSum]
  simp only [Function.comp_def, paymentRow]

theorem le_sum_map {α : Type} (f : α → ℕ) {a : α} {l : List α} (h : a ∈ l) :
    f a ≤ (l.map f).sum :=
  List.single_le_sum (fun _ _ => Nat.zero_le _) _ (List.mem_map_of_mem h)

theorem amountSum_append (p : CoinTransfer → Bool) (rows rows' : List CoinTransfer) :
    amountSum p (rows ++ rows') = amountSum p rows + amountSum p rows' := by
  rw [amountSum, List.filter_append, List.map_append, List.sum_append]
  rfl

theorem amountSum_nil (p : CoinTransfer → Bool) : amountSum p [] = 0 := rfl

theorem amountSum_eq_zero {p : CoinTransfer → Bool} {rows : List CoinTransfer}
    (h : ∀ row ∈ rows, p row = false) : amountSum p rows = 0 := by
  have hnil : rows.filter p = [] := by
    rw [List.filter_eq_nil_iff]
    intro row hrow
    simp [h row hrow]
  rw [amountSum, hnil]
  rfl

theorem coinSum_cons (f : ℕ → ℕ) (p : String × List Coin) (payments : Payments)
    (recipient denom : String) :
    coinSum f (p :: payments) recipient denom =
      (if p.1 = recipient then ((p.2.filter fun c => c.denom = denom).map fun c => f c.amount).sum
        else 0) + coinSum f payments recipient denom := by
  rw [coinSum]
  by_cases h : p.1 = recipient
  · rw [List.filter_cons_of_pos (by simpa using h), List.flatMap_cons, List.filter_append,
      List.map_append, List.sum_append, if_pos h]
    rfl
  · rw [List.filter_cons_of_neg (by simpa using h), if_neg h, zero_add]
    rfl

theorem paymentSum_cons (p : String × List Coin) (payments : Payments)
    (recipient denom : String) :
    paymentSum (p :: payments) recipient denom =
      (if p.1 = recipient ∧ (extracted p.2).2 = denom then Number.printed (extracted p.2).1
        else 0) + paymentSum payments recipient denom := by
  rw [paymentSum]
  by_cases h : p.1 = recipient ∧ (extracted p.2).2 = denom
  · rw [List.filter_cons_of_pos (by simpa using h), List.map_cons, List.sum_cons, if_pos h]
    rfl
  · rw [List.filter_cons_of_neg (by simpa using h), if_neg h, zero_add]
    rfl

theorem isCoins_text (coins : List Coin) :
    IsCoins (some (String.ofList (coinsText coins))) coins := by
  rw [IsCoins, Option.getD_some, String.toList_ofList]

theorem extracted_nil : extracted [] = (0, "") := extractAmount_nil (isCoins_text [])

theorem extracted_single (c : Coin) : extracted [c] = (Number.toDouble c.amount, c.denom) :=
  extractAmount_single (isCoins_text [c])

theorem printed_zero : Number.printed 0 = 0 := by
  have h : Number.reprinted 0 = 0 := Number.reprinted_of_lt (by decide)
  rwa [Number.reprinted, Number.toDouble_zero] at h

/-- With one coin at a time the rows are the coins as they are printed. -/
theorem paymentSum_eq (h : ∀ p ∈ payments, p.2.length ≤ 1) (recipient denom : String) :
    paymentSum payments recipient denom =
      coinSum Number.reprinted payments recipient denom := by
  induction payments with
  | nil => rfl
  | cons p payments ih =>
    rw [paymentSum_cons, coinSum_cons, ih fun q hq => h q (List.mem_cons_of_mem p hq)]
    congr 1
    obtain ⟨r, coins⟩ := p
    match coins, h _ List.mem_cons_self with
    | [], _ =>
      rw [extracted_nil, printed_zero]
      simp
    | [c], _ =>
      rw [extracted_single]
      by_cases hr : r = recipient
      · by_cases hd : c.denom = denom <;> simp [hr, hd, Number.reprinted]
      · simp [hr]
    | _ :: _ :: _, hlen => simp at hlen

/-- Two coins at a time make a row of a denomination that no coin has. -/
theorem exists_paymentSum_pos {p : String × List Coin} (hp : p ∈ payments)
    (h : 1 < p.2.length) :
    ∃ denom, ',' ∈ denom.toList ∧ 0 < paymentSum payments p.1 denom := by
  obtain ⟨r, coins⟩ := p
  match coins, h with
  | c :: d :: cs, _ =>
    obtain ⟨hamount, hcomma⟩ := extractAmount_many (isCoins_text (c :: d :: cs))
    have hpos : 0 < Number.printed (extracted (c :: d :: cs)).1 := by
      rw [extracted, hamount]
      exact Number.reprinted_pos c.pos
    refine ⟨(extracted (c :: d :: cs)).2, hcomma, lt_of_lt_of_le hpos ?_⟩
    have hmem : (r, c :: d :: cs) ∈ payments.filter fun p =>
        p.1 = r ∧ (extracted p.2).2 = (extracted (c :: d :: cs)).2 :=
      List.mem_filter.mpr ⟨hp, by simp⟩
    have hle := le_sum_map (fun p : String × List Coin => Number.printed (extracted p.2).1) hmem
    simpa only [paymentSum] using hle

theorem coinSum_comma (f : ℕ → ℕ) (payments : Payments) (recipient : String) {denom : String}
    (h : ',' ∈ denom.toList) : coinSum f payments recipient denom = 0 := by
  have hnil : ∀ coins : List Coin, (coins.filter fun c => c.denom = denom) = [] := by
    intro coins
    rw [List.filter_eq_nil_iff]
    intro c _ hc
    exact c.comma (of_decide_eq_true hc ▸ h)
  rw [coinSum, hnil]
  rfl

theorem coinSum_pos {p : String × List Coin} (hp : p ∈ payments) {c : Coin} (hc : c ∈ p.2) :
    0 < coinSum id payments p.1 c.denom := by
  refine lt_of_lt_of_le c.pos (le_sum_map (fun c : Coin => id c.amount) ?_)
  refine List.mem_filter.mpr ⟨List.mem_flatMap.mpr ⟨p, ?_, hc⟩, decide_eq_true rfl⟩
  exact List.mem_filter.mpr ⟨hp, decide_eq_true rfl⟩

theorem coinSum_no_coins (f : ℕ → ℕ) (h : ∀ p ∈ payments, p.2 = []) (recipient denom : String) :
    coinSum f payments recipient denom = 0 := by
  have hnil : (payments.filter fun p => p.1 = recipient).flatMap (·.2) = [] :=
    List.flatMap_eq_nil_iff.mpr fun p hp => h p (List.mem_of_mem_filter hp)
  rw [coinSum, hnil]
  rfl

/-! ### One transaction -/

/-- A transaction as it was read: the messages in another order. -/
structure Read (history : History) (tx : Tx) : Prop where
  original : ∃ tx₀ ∈ history.db.transaction, tx.messages.Perm tx₀.messages ∧ tx.id = tx₀.id

variable {history : History}

theorem mem_topLevel {m : Message} : m ∈ topLevel tx ↔ m ∈ tx.messages ∧ m.parent_id = none := by
  simp [topLevel]

theorem Read.ids (h : Read history tx) : (tx.messages.map (·.id)).Nodup := by
  obtain ⟨tx₀, htx₀, hperm, -⟩ := h.original
  exact (hperm.map _).nodup_iff.mpr (history.message_ids tx₀ htx₀)

theorem Read.indices (h : Read history tx) :
    ((topLevel tx).map (·.index)).Perm (List.range (topLevel tx).length) := by
  obtain ⟨tx₀, htx₀, hperm, -⟩ := h.original
  have htop : (topLevel tx).Perm (topLevel tx₀) := hperm.filter _
  rw [htop.length_eq]
  exact (htop.map _).trans (history.indices tx₀ htx₀)

theorem Read.index_inj (h : Read history tx) {m m' : Message} (hm : m ∈ topLevel tx)
    (hm' : m' ∈ topLevel tx) (hindex : m.index = m'.index) : m = m' :=
  List.inj_on_of_nodup_map (h.indices.nodup_iff.mpr List.nodup_range) hm hm' hindex

theorem Read.index_lt (h : Read history tx) {m : Message} (hm : m ∈ topLevel tx) :
    m.index < tx.messages.length := by
  have hmem := h.indices.mem_iff.mp (List.mem_map_of_mem (f := (·.index)) hm)
  exact (List.mem_range.mp hmem).trans_le (List.length_filter_le _ _)

theorem Read.id_inj (h : Read history tx) {m m' : Message} (hm : m ∈ tx.messages)
    (hm' : m' ∈ tx.messages) (hid : m.id = m'.id) : m = m' :=
  List.inj_on_of_nodup_map h.ids hm hm' hid

/-- The message of a transfer. -/
theorem Read.supported (h : Read history tx) {e : Event} (he : e ∈ history.db.event)
    (hid : e.tx_id = tx.id) (htransfer : isTransfer e = true) :
    ∃ m ∈ topLevel tx, e.tx_msg_index = some m.index ∧ Supported m e (history.payments e) := by
  obtain ⟨tx₀, htx₀, hperm, heq⟩ := h.original
  obtain ⟨m, hm, hindex, hsupp⟩ := history.supported tx₀ htx₀ e he (hid.trans heq) htransfer
  have htop : (topLevel tx).Perm (topLevel tx₀) := hperm.filter _
  exact ⟨m, htop.mem_iff.mpr hm, hindex, hsupp⟩

/-- The rows of an event, none when it throws. -/
def rowsOf (tx : Tx) (events : List Event) (event : Event) : List CoinTransfer :=
  ((eventRows tx events event).toOption).getD []

/-- The rows of a transfer, by the message that stands at its position. -/
theorem rowsOf_spec (h : Read history tx) {e : Event} (he : e ∈ history.db.event)
    (hid : e.tx_id = tx.id) (htransfer : isTransfer e = true) (events : List Event) :
    ∃ m ∈ topLevel tx, e.tx_msg_index = some m.index ∧ Supported m e (history.payments e) ∧
      ∃ x ∈ tx.messages, tx.messages[m.index]? = some x ∧ ∃ sender,
        eventRows tx events e = .ok (rowsOf tx events e) ∧
        rowsOf tx events e = if isSingle e ∨ x.type = msgMultiSend then
          (history.payments e).map (paymentRow tx x sender) else [] := by
  obtain ⟨m, hm, hindex, hsupp⟩ := h.supported he hid htransfer
  have hx := List.getElem?_eq_getElem (h.index_lt hm)
  obtain ⟨sender, hrows⟩ := eventRows_eq events htransfer hindex hx hsupp
  refine ⟨m, hm, hindex, hsupp, _, List.getElem_mem _, hx, sender, ?_, ?_⟩
  · rw [rowsOf, hrows]
    rfl
  · rw [rowsOf, hrows]
    rfl

theorem rowsOf_not_transfer {e : Event} (h : isTransfer e = false) (events : List Event) :
    rowsOf tx events e = [] := by
  rw [rowsOf, eventRows_not_transfer h]
  rfl

theorem eventRows_ok (h : Read history tx) {e : Event} (he : e ∈ history.db.event)
    (hid : e.tx_id = tx.id) (events : List Event) :
    eventRows tx events e = .ok (rowsOf tx events e) := by
  cases htransfer : isTransfer e with
  | true =>
    obtain ⟨m, -, -, -, x, -, -, sender, hok, -⟩ := rowsOf_spec h he hid htransfer events
    exact hok
  | false => rw [rowsOf_not_transfer htransfer, eventRows_not_transfer htransfer]

theorem tx_id_of_mem_rowsOf (h : Read history tx) {e : Event} (he : e ∈ history.db.event)
    (hid : e.tx_id = tx.id) {events : List Event} {row : CoinTransfer}
    (hrow : row ∈ rowsOf tx events e) : row.tx_id = tx.id := by
  cases htransfer : isTransfer e with
  | true =>
    obtain ⟨m, -, -, -, x, -, -, sender, -, hrows⟩ := rowsOf_spec h he hid htransfer events
    rw [hrows] at hrow
    split at hrow
    · obtain ⟨p, -, rfl⟩ := List.mem_map.mp hrow
      rfl
    · cases hrow
  | false =>
    rw [rowsOf_not_transfer htransfer] at hrow
    cases hrow

/-- The rows of a message, when every row belongs to the message of its event. -/
def ofMessage (m : Message) (recipient denom : String) (row : CoinTransfer) : Bool :=
  decide (row.tx_msg_id = m.id) && ofRecipient recipient denom row

theorem amountSum_ofMessage (h : Read history tx) {m : Message} (hm : m ∈ topLevel tx) {e : Event}
    {rows : List CoinTransfer} (hrows : RowsOfMessage tx e rows) (recipient denom : String) :
    amountSum (ofMessage m recipient denom) rows =
      if e.tx_msg_index = some m.index then amountSum (ofRecipient recipient denom) rows else 0 := by
  split
  case isTrue hindex =>
    have hid : ∀ row ∈ rows, ofMessage m recipient denom row = ofRecipient recipient denom row := by
      intro row hrow
      obtain ⟨-, m', hm', hindex', hid⟩ := hrows row hrow
      have hmm : m' = m :=
        h.index_inj hm' hm (Option.some.inj (hindex'.symm.trans hindex))
      rw [ofMessage, hid, hmm, decide_eq_true rfl, Bool.true_and]
    rw [amountSum, List.filter_congr hid]
    rfl
  case isFalse hindex =>
    refine amountSum_eq_zero fun row hrow => ?_
    obtain ⟨-, m', hm', hindex', hid⟩ := hrows row hrow
    have hne : row.tx_msg_id ≠ m.id := by
      intro heq
      have hmm : m' = m := h.id_inj (mem_topLevel.mp hm').1 (mem_topLevel.mp hm).1
        (hid.symm.trans heq)
      exact hindex (hmm ▸ hindex')
    rw [ofMessage, decide_eq_false hne, Bool.false_and]

/-- The sum over all events of a transaction is the sum over the transfers of the message. -/
theorem amountSum_flatMap (h : Read history tx) {m : Message} (hm : m ∈ topLevel tx)
    {all events : List Event}
    (hrows : ∀ e ∈ events, RowsOfMessage tx e (rowsOf tx all e)) (recipient denom : String) :
    amountSum (ofMessage m recipient denom) (events.flatMap (rowsOf tx all)) =
      ((events.filter fun e => isTransfer e = true ∧ e.tx_msg_index = some m.index).map fun e =>
        amountSum (ofRecipient recipient denom) (rowsOf tx all e)).sum := by
  induction events with
  | nil => rfl
  | cons e events ih =>
    rw [List.flatMap_cons, amountSum_append, ih fun e' he' => hrows e' (List.mem_cons_of_mem e he'),
      amountSum_ofMessage h hm (hrows e List.mem_cons_self)]
    by_cases hindex : e.tx_msg_index = some m.index
    · cases htransfer : isTransfer e with
      | true =>
        rw [if_pos hindex, List.filter_cons_of_pos (by simp [htransfer, hindex]), List.map_cons,
          List.sum_cons]
      | false =>
        rw [rowsOf_not_transfer htransfer, amountSum_nil, ite_self, zero_add,
          List.filter_cons_of_neg (by simp [htransfer])]
    · rw [if_neg hindex, zero_add, List.filter_cons_of_neg (by simp [hindex])]

/-! ### The range -/

section
variable {fromHeight toHeight : ℕ} {txs : List Tx}

theorem fetched_ids (h : FetchedTxs history.db fromHeight toHeight txs) :
    txs.map (·.id) = (rangeTxs history fromHeight toHeight).map (·.id) := by
  rw [FetchedTxs, ← rangeTxs] at h
  generalize rangeTxs history fromHeight toHeight = range at h
  induction h with
  | nil => rfl
  | cons hx _ ih =>
    obtain ⟨messages, -, rfl⟩ := hx
    rw [List.map_cons, List.map_cons, ih]

theorem fetched_original (h : FetchedTxs history.db fromHeight toHeight txs) {tx : Tx}
    (htx : tx ∈ txs) : ∃ tx₀ ∈ rangeTxs history fromHeight toHeight, ∃ messages,
      messages.Perm tx₀.messages ∧ tx = { tx₀ with messages := messages } := by
  rw [FetchedTxs, ← rangeTxs] at h
  generalize rangeTxs history fromHeight toHeight = range at h
  induction h with
  | nil => cases htx
  | cons hx _ ih =>
    rcases List.mem_cons.mp htx with rfl | htx
    · exact ⟨_, List.mem_cons_self, hx⟩
    · obtain ⟨tx₀, htx₀, hread⟩ := ih htx
      exact ⟨tx₀, List.mem_cons_of_mem _ htx₀, hread⟩

theorem fetched_read (h : FetchedTxs history.db fromHeight toHeight txs) {tx : Tx}
    (htx : tx ∈ txs) : Read history tx := by
  obtain ⟨tx₀, htx₀, messages, hperm, rfl⟩ := fetched_original h htx
  exact ⟨⟨tx₀, (mem_between.mp htx₀).1, hperm, rfl⟩⟩

theorem fetched_sorted (h : FetchedTxs history.db fromHeight toHeight txs) :
    (txs.map (·.id)).Pairwise (· < ·) := by
  rw [fetched_ids h]
  exact List.pairwise_map.mpr (history.sorted.filter _)

/-- In a list in ascending order the ends bound the rest. -/
theorem head_le_last {l : List ℕ} (h : l.Pairwise (· < ·)) {n : ℕ} (hn : n ∈ l) :
    ∃ first last, l.head? = some first ∧ l.getLast? = some last ∧ first ≤ n ∧ n ≤ last := by
  obtain ⟨a, b, hab⟩ := List.append_of_mem hn
  subst hab
  obtain ⟨ha, hb, hcross⟩ := List.pairwise_append.mp h
  have hfirst : ∃ first, (a ++ n :: b).head? = some first ∧ first ≤ n := by
    cases a with
    | nil => exact ⟨n, rfl, le_refl n⟩
    | cons x xs => exact ⟨x, rfl, (hcross x List.mem_cons_self n List.mem_cons_self).le⟩
  have hlast : ∃ last, (a ++ n :: b).getLast? = some last ∧ n ≤ last := by
    rw [List.getLast?_append]
    rcases List.eq_nil_or_concat b with rfl | ⟨b', y, rfl⟩
    · exact ⟨n, rfl, le_refl n⟩
    · refine ⟨y, ?_, ((List.pairwise_cons.mp hb).1 y (by simp)).le⟩
      rw [List.concat_eq_append, ← List.cons_append, List.getLast?_concat, Option.some_or]
  obtain ⟨first, hf, hfn⟩ := hfirst
  obtain ⟨last, hl, hnl⟩ := hlast
  exact ⟨first, last, hf, hl, hfn, hnl⟩

/-- The events that are read for a transaction are all its message-level events. -/
theorem eventsOf_perm (h : FetchedTxs history.db fromHeight toHeight txs) {events : List Event}
    (hevents : events.Perm (eventQuery history.db txs)) {tx : Tx} (htx : tx ∈ txs) :
    (eventsOf events tx).Perm
      (history.db.event.filter fun e => e.tx_id = tx.id ∧ e.tx_msg_index.isSome = true) := by
  obtain ⟨first, last, hfirst, hlast, hle, hge⟩ :=
    head_le_last (fetched_sorted h) (List.mem_map_of_mem (f := (·.id)) htx)
  refine (hevents.filter _).trans (List.Perm.of_eq ?_)
  rw [eventQuery, hfirst, hlast]
  simp only [List.filter_filter]
  refine List.filter_congr fun e _ => ?_
  by_cases hid : e.tx_id = tx.id
  · simp [hid, hle, hge]
  · simp [hid]

theorem mem_eventsOf (h : FetchedTxs history.db fromHeight toHeight txs) {events : List Event}
    (hevents : events.Perm (eventQuery history.db txs)) {tx : Tx} (htx : tx ∈ txs) {e : Event}
    (he : e ∈ eventsOf events tx) : e ∈ history.db.event ∧ e.tx_id = tx.id := by
  obtain ⟨hmem, hcond⟩ := List.mem_filter.mp ((eventsOf_perm h hevents htx).mem_iff.mp he)
  exact ⟨hmem, (of_decide_eq_true hcond).1⟩

theorem isSome_of_isTransfer {e : Event} (h : isTransfer e = true) :
    e.tx_msg_index.isSome = true := by
  rw [isTransfer, Bool.and_eq_true] at h
  exact h.2

theorem transfers_perm (h : FetchedTxs history.db fromHeight toHeight txs) {events : List Event}
    (hevents : events.Perm (eventQuery history.db txs)) {tx : Tx} (htx : tx ∈ txs) (m : Message) :
    ((eventsOf events tx).filter fun e =>
      isTransfer e = true ∧ e.tx_msg_index = some m.index).Perm (transfersOf history tx m) := by
  refine ((eventsOf_perm h hevents htx).filter _).trans (List.Perm.of_eq ?_)
  rw [List.filter_filter, transfersOf]
  refine List.filter_congr fun e _ => ?_
  cases htransfer : isTransfer e with
  | true =>
    have hsome := isSome_of_isTransfer htransfer
    by_cases hid : e.tx_id = tx.id <;> by_cases hindex : e.tx_msg_index = some m.index <;>
      simp [hid, hindex, hsome]
  | false => simp

/-- What has to hold of a transaction as it was read. -/
def TxAccounted (history : History) (tx : Tx) (events : List Event) : Prop :=
  (∀ e ∈ events, RowsOfMessage tx e (rowsOf tx events e)) ∧
    ∀ m ∈ topLevel tx, ∀ recipient denom,
      ((transfersOf history tx m).map fun e =>
        amountSum (ofRecipient recipient denom) (rowsOf tx events e)).sum =
      paid history id tx m recipient denom

/-- The rows of one event. -/
theorem eventRows_of_mem (h : FetchedTxs history.db fromHeight toHeight txs) {events : List Event}
    (hevents : events.Perm (eventQuery history.db txs)) (htx : tx ∈ txs) {e : Event}
    (he : e ∈ eventsOf events tx) :
    eventRows tx (eventsOf events tx) e = .ok (rowsOf tx (eventsOf events tx) e) := by
  obtain ⟨hmem, hid⟩ := mem_eventsOf h hevents htx he
  exact eventRows_ok (fetched_read h htx) hmem hid _

/-- The rows of the job. -/
theorem job_ok (h : FetchedTxs history.db fromHeight toHeight txs) {events : List Event}
    (hevents : events.Perm (eventQuery history.db txs))
    (hids : ∀ e ∈ events, e.tx_id ∈ txs.map (·.id)) :
    jobHandleTxCoinTransfer txs events = .ok (txs.flatMap fun tx =>
      (eventsOf events tx).flatMap (rowsOf tx (eventsOf events tx))) := by
  have hany : ¬ (events.any fun e => e.tx_id ∉ txs.map (·.id)) = true := by
    rw [List.any_eq_true]
    rintro ⟨e, he, hnot⟩
    exact of_decide_eq_true hnot (hids e he)
  have htx : ∀ tx ∈ txs, txRows tx (eventsOf events tx) =
      .ok ((eventsOf events tx).flatMap (rowsOf tx (eventsOf events tx))) := by
    intro tx htx
    have hrows : ∀ e ∈ eventsOf events tx, eventRows tx (eventsOf events tx) e =
        .ok (rowsOf tx (eventsOf events tx) e) := fun e he => eventRows_of_mem h hevents htx he
    rw [txRows, mapM_ok hrows, ok_bind, List.flatMap_def]
    rfl
  rw [jobHandleTxCoinTransfer, if_neg hany, mapM_ok htx, ok_bind, List.flatMap_def]
  rfl

theorem job_error {events : List Event} (hids : ¬ ∀ e ∈ events, e.tx_id ∈ txs.map (·.id)) :
    jobHandleTxCoinTransfer txs events = .error .undefinedTransaction := by
  push Not at hids
  obtain ⟨e, he, hnot⟩ := hids
  rw [jobHandleTxCoinTransfer, if_pos]
  exact List.any_eq_true.mpr ⟨e, he, decide_eq_true hnot⟩

/-- The rows of a message, among those of all transactions, come from its transfers. -/
theorem amountSum_rows (h : FetchedTxs history.db fromHeight toHeight txs) {events : List Event}
    (hevents : events.Perm (eventQuery history.db txs)) (htx : tx ∈ txs)
    (hrows : ∀ e ∈ eventsOf events tx, RowsOfMessage tx e (rowsOf tx (eventsOf events tx) e))
    (hm : m ∈ topLevel tx) (recipient denom : String) :
    amountSum (fun row => row.tx_id = tx.id ∧ row.tx_msg_id = m.id ∧
      row.recipient = recipient ∧ row.denom = denom) (txs.flatMap fun tx =>
        (eventsOf events tx).flatMap (rowsOf tx (eventsOf events tx))) =
    ((transfersOf history tx m).map fun e =>
      amountSum (ofRecipient recipient denom) (rowsOf tx (eventsOf events tx) e)).sum := by
  have hnd : (txs.map (·.id)).Nodup := (fetched_sorted h).imp fun h => ne_of_lt h
  have hchild : ∀ tx ∈ txs, ∀ row ∈ (eventsOf events tx).flatMap (rowsOf tx (eventsOf events tx)),
      row.tx_id = tx.id := by
    intro tx htx row hrow
    obtain ⟨e, he, hrow⟩ := List.mem_flatMap.mp hrow
    obtain ⟨hmem, hid⟩ := mem_eventsOf h hevents htx he
    exact tx_id_of_mem_rowsOf (fetched_read h htx) hmem hid hrow
  have hsplit : (txs.flatMap fun tx =>
      (eventsOf events tx).flatMap (rowsOf tx (eventsOf events tx))).filter (fun row =>
        row.tx_id = tx.id ∧ row.tx_msg_id = m.id ∧ row.recipient = recipient ∧
          row.denom = denom) =
      ((eventsOf events tx).flatMap (rowsOf tx (eventsOf events tx))).filter
        (ofMessage m recipient denom) := by
    rw [← filter_flatMap_of_mem hchild hnd htx, List.filter_filter]
    refine List.filter_congr fun row _ => ?_
    rw [ofMessage, ofRecipient, ← Bool.decide_and, ← Bool.decide_and, decide_eq_decide]
    tauto
  rw [amountSum, hsplit]
  have hmsg := amountSum_flatMap (fetched_read h htx) hm hrows recipient denom
  rw [amountSum] at hmsg
  rw [hmsg]
  exact ((transfers_perm h hevents htx m).map _).sum_eq

/-- The property, transaction by transaction. -/
theorem accounted_iff (h : FetchedTxs history.db fromHeight toHeight txs) {events : List Event}
    (hevents : events.Perm (eventQuery history.db txs)) :
    Accounted history txs events ↔
      (∀ e ∈ events, e.tx_id ∈ txs.map (·.id)) ∧
        ∀ tx ∈ txs, TxAccounted history tx (eventsOf events tx) := by
  by_cases hids : ∀ e ∈ events, e.tx_id ∈ txs.map (·.id)
  · rw [Accounted, job_ok h hevents hids]
    constructor
    · rintro ⟨rows, hrows, hright, hsums⟩
      cases hrows
      have hof : ∀ tx ∈ txs, ∀ e ∈ eventsOf events tx,
          RowsOfMessage tx e (rowsOf tx (eventsOf events tx) e) :=
        fun tx htx e he => hright tx htx e he _ (eventRows_of_mem h hevents htx he)
      refine ⟨hids, fun tx htx => ⟨hof tx htx, fun m hm recipient denom => ?_⟩⟩
      rw [← amountSum_rows h hevents htx (hof tx htx) hm, hsums tx htx m hm]
    · rintro ⟨-, hall⟩
      refine ⟨_, rfl, fun tx htx e he rs hrs => ?_, fun tx htx m hm recipient denom => ?_⟩
      · rw [eventRows_of_mem h hevents htx he] at hrs
        cases hrs
        exact (hall tx htx).1 e he
      · rw [amountSum_rows h hevents htx (hall tx htx).1 hm, (hall tx htx).2 m hm]
  · refine ⟨?_, fun hc => absurd hc.1 hids⟩
    rintro ⟨rows, hrows, -⟩
    rw [job_error hids] at hrows
    cases hrows

end

/-! ### Orders of the messages -/

/-- Any message can come back at any position. -/
theorem exists_perm_getElem? {α : Type} {l : List α} {a : α} (ha : a ∈ l) {i : ℕ}
    (hi : i < l.length) : ∃ l' : List α, l'.Perm l ∧ l'[i]? = some a := by
  obtain ⟨front, back, rfl⟩ := List.append_of_mem ha
  have hle : i ≤ (front ++ back).length := by
    rw [List.length_append, List.length_cons] at hi
    rw [List.length_append]
    omega
  refine ⟨(front ++ back).insertIdx i a, ?_, ?_⟩
  · exact (List.perm_insertIdx a (front ++ back) hle).trans List.perm_middle.symm
  · rw [List.getElem?_insertIdx_self, if_pos hle]

/-- A single transfer, or pairs under the `MsgMultiSend` that they belong to. -/
theorem supported_cases (h : Supported m event payments) :
    payments ≠ [] ∧ (isSingle event = true ∨ m.type = msgMultiSend) := by
  cases h with
  | @single sender recipient value coins extra hcoins hextra hperm =>
    exact ⟨by simp, .inl (isSingle_of_perm hextra hperm)⟩
  | pairs hmulti hne _ => exact ⟨hne, .inr hmulti⟩

theorem mem_transfersOf {e : Event} :
    e ∈ transfersOf history tx m ↔ e ∈ history.db.event ∧ e.tx_id = tx.id ∧ isTransfer e = true ∧
      e.tx_msg_index = some m.index := by
  rw [transfersOf, List.mem_filter, decide_eq_true_eq]

/-- The rows of a transfer of `m`, when `x` stands at its position. -/
theorem rowsOf_at (h : Read history tx) (hm : m ∈ topLevel tx)
    (hx : tx.messages[m.index]? = some x) {e : Event} (he : e ∈ transfersOf history tx m)
    (events : List Event) :
    Supported m e (history.payments e) ∧ ∃ sender, rowsOf tx events e =
      if isSingle e ∨ x.type = msgMultiSend then
        (history.payments e).map (paymentRow tx x sender) else [] := by
  obtain ⟨hmem, hid, htransfer, hindex⟩ := mem_transfersOf.mp he
  obtain ⟨m', hm', hindex', hsupp, x', -, hx', sender, -, hrows⟩ :=
    rowsOf_spec h hmem hid htransfer events
  obtain rfl : m' = m := h.index_inj hm' hm (Option.some.inj (hindex'.symm.trans hindex))
  obtain rfl : x' = x := Option.some.inj (hx'.symm.trans hx)
  exact ⟨hsupp, sender, hrows⟩

/-- Rows that name another message than their event's. -/
theorem eq_of_rowsOfMessage (h : Read history tx) (hm : m ∈ topLevel tx) (hxm : x ∈ tx.messages)
    {e : Event} (hindex : e.tx_msg_index = some m.index) {sender : Option String}
    (hne : payments ≠ []) (hrows : RowsOfMessage tx e (payments.map (paymentRow tx x sender))) :
    x = m := by
  obtain ⟨p, hp⟩ := List.exists_mem_of_ne_nil payments hne
  obtain ⟨-, m', hm', hindex', hid⟩ := hrows _ (List.mem_map_of_mem hp)
  obtain rfl : m' = m := h.index_inj hm' hm (Option.some.inj (hindex'.symm.trans hindex))
  exact h.id_inj hxm (mem_topLevel.mp hm').1 hid

/-! ### From the condition -/

/-- Under the condition the rows of a transfer are its coins as they are printed. -/
theorem rows_of_accountable {tx₀ : Tx} (htx₀ : Accountable history tx₀)
    (hread : Read history tx) (hid : tx.id = tx₀.id) (hperm : tx.messages.Perm tx₀.messages)
    (hm : m ∈ topLevel tx) {e : Event} (he : e ∈ transfersOf history tx m) (events : List Event) :
    RowsOfMessage tx e (rowsOf tx events e) ∧ ∀ recipient denom,
      amountSum (ofRecipient recipient denom) (rowsOf tx events e) =
        coinSum Number.reprinted (history.payments e) recipient denom := by
  obtain ⟨x, hx⟩ : ∃ x, tx.messages[m.index]? = some x :=
    ⟨_, List.getElem?_eq_getElem (hread.index_lt hm)⟩
  have hxmem := List.mem_of_getElem? hx
  obtain ⟨hsupp, sender, hrows⟩ := rowsOf_at hread hm hx he events
  obtain ⟨hmem, heid, htransfer, hindex⟩ := mem_transfersOf.mp he
  have hone := htx₀.one_coin e hmem (heid.trans hid) htransfer
  -- the rows of the payments belong to `y`, whenever `y` is the message of the event
  have hright : ∀ y ∈ topLevel tx, e.tx_msg_index = some y.index →
      RowsOfMessage tx e ((history.payments e).map (paymentRow tx y sender)) := by
    intro y hy hyindex row hrow
    obtain ⟨p, -, rfl⟩ := List.mem_map.mp hrow
    exact ⟨rfl, y, hy, hyindex, rfl⟩
  rcases htx₀.message e hmem (heid.trans hid) htransfer with hlen | ⟨hsingle, hno, hmulti⟩
  · -- the only message is the message of the event
    obtain ⟨y, hy⟩ := List.length_eq_one_iff.mp (hperm.length_eq.trans hlen)
    have hxy : x = y := by simpa [hy] using hxmem
    have hmy : m = y := by simpa [hy] using (mem_topLevel.mp hm).1
    rw [hrows, hxy, ← hmy, if_pos (supported_cases hsupp).2]
    refine ⟨hright m hm hindex, fun recipient denom => ?_⟩
    rw [amountSum_paymentRows, paymentSum_eq hone]
  · rw [hrows]
    split
    case isTrue h =>
      have hx' : x.type = msgMultiSend := h.resolve_left (by simp [hsingle])
      obtain ⟨hparent, hxindex⟩ := hmulti x (hperm.mem_iff.mp hxmem) hx'
      refine ⟨hright x (mem_topLevel.mpr ⟨hxmem, hparent⟩) hxindex, fun recipient denom => ?_⟩
      rw [amountSum_paymentRows, paymentSum_eq hone]
    case isFalse =>
      refine ⟨fun row hrow => absurd hrow List.not_mem_nil, fun recipient denom => ?_⟩
      rw [coinSum_no_coins _ hno, amountSum_nil]

theorem txAccounted_of_accountable {tx₀ : Tx} (htx₀ : Accountable history tx₀)
    (hread : Read history tx) (hid : tx.id = tx₀.id) (hperm : tx.messages.Perm tx₀.messages)
    {events : List Event}
    (hevents : ∀ e ∈ events, e ∈ history.db.event ∧ e.tx_id = tx.id) :
    TxAccounted history tx events := by
  refine ⟨fun e he => ?_, fun m hm recipient denom => ?_⟩
  · obtain ⟨hmem, heid⟩ := hevents e he
    cases htransfer : isTransfer e with
    | true =>
      obtain ⟨m, hm, hindex, -⟩ := hread.supported hmem heid htransfer
      exact (rows_of_accountable htx₀ hread hid hperm hm
        (mem_transfersOf.mpr ⟨hmem, heid, htransfer, hindex⟩) events).1
    | false =>
      rw [rowsOf_not_transfer htransfer]
      exact fun row hrow => absurd hrow List.not_mem_nil
  · have hsum : (transfersOf history tx m).map (fun e =>
        amountSum (ofRecipient recipient denom) (rowsOf tx events e)) =
        (transfersOf history tx m).map fun e =>
          coinSum Number.reprinted (history.payments e) recipient denom :=
      List.map_congr_left fun e he =>
        (rows_of_accountable htx₀ hread hid hperm hm he events).2 recipient denom
    have htop : m ∈ topLevel tx₀ := by
      have := hperm.filter fun m => decide (m.parent_id = none)
      exact this.mem_iff.mp hm
    have hpaid := htx₀.sums m htop recipient denom
    simp only [paid, transfersOf, ← hid] at hpaid
    rw [hsum]
    exact hpaid

/-! ### To the condition -/

section
variable {tx₀ : Tx} {events : List Event}

/-- The transaction with its messages in another order. -/
def reordered (tx : Tx) (messages : List Message) : Tx := { tx with messages := messages }

theorem read_reordered (htx₀ : tx₀ ∈ history.db.transaction) {messages : List Message}
    (hperm : messages.Perm tx₀.messages) : Read history (reordered tx₀ messages) :=
  ⟨⟨tx₀, htx₀, hperm, rfl⟩⟩

theorem mem_topLevel_reordered {messages : List Message} (hperm : messages.Perm tx₀.messages) :
    m ∈ topLevel (reordered tx₀ messages) ↔ m ∈ topLevel tx₀ := by
  have := hperm.filter fun m => decide (m.parent_id = none)
  exact this.mem_iff

/-- A transfer whose position holds another message has no rows. -/
theorem not_rows_of_other (htx₀ : tx₀ ∈ history.db.transaction)
    (hall : ∀ messages, messages.Perm tx₀.messages →
      TxAccounted history (reordered tx₀ messages) events)
    (hevents : ∀ e ∈ history.db.event, e.tx_id = tx₀.id → isTransfer e = true → e ∈ events)
    {messages : List Message} (hperm : messages.Perm tx₀.messages) (hm : m ∈ topLevel tx₀)
    (hx : messages[m.index]? = some x) (hne : x ≠ m) {e : Event}
    (he : e ∈ transfersOf history tx₀ m) :
    ¬ (isSingle e = true ∨ x.type = msgMultiSend) ∧
      rowsOf (reordered tx₀ messages) events e = [] := by
  have hread := read_reordered htx₀ hperm
  have hm' := (mem_topLevel_reordered hperm).mpr hm
  obtain ⟨hmem, heid, htransfer, hindex⟩ := mem_transfersOf.mp he
  obtain ⟨hsupp, sender, hrows⟩ :=
    rowsOf_at hread hm' hx (mem_transfersOf.mpr ⟨hmem, heid, htransfer, hindex⟩) events
  have hnot : ¬ (isSingle e = true ∨ x.type = msgMultiSend) := by
    intro hcond
    have hright := (hall messages hperm).1 e (hevents e hmem heid htransfer)
    rw [hrows, if_pos hcond] at hright
    exact hne (eq_of_rowsOfMessage hread hm' (List.mem_of_getElem? hx) hindex
      (supported_cases hsupp).1 hright)
  exact ⟨hnot, by rw [hrows, if_neg hnot]⟩

/-- With its own message at its position a transfer has the rows of all its payments. -/
theorem sum_of_own (htx₀ : tx₀ ∈ history.db.transaction) {messages : List Message}
    (hperm : messages.Perm tx₀.messages) (hm : m ∈ topLevel tx₀)
    (hx : messages[m.index]? = some m) {e : Event} (he : e ∈ transfersOf history tx₀ m)
    (events : List Event) (recipient denom : String) :
    amountSum (ofRecipient recipient denom) (rowsOf (reordered tx₀ messages) events e) =
      paymentSum (history.payments e) recipient denom := by
  have hm' := (mem_topLevel_reordered hperm).mpr hm
  obtain ⟨hsupp, sender, hrows⟩ :=
    rowsOf_at (read_reordered htx₀ hperm) hm' hx (mem_transfersOf.mpr (mem_transfersOf.mp he)) events
  rw [hrows, if_pos (supported_cases hsupp).2, amountSum_paymentRows]

/-- Any message can be at the position of a message at the top. -/
theorem exists_order (htx₀ : tx₀ ∈ history.db.transaction) (hm : m ∈ topLevel tx₀)
    (hx : x ∈ tx₀.messages) :
    ∃ messages : List Message, messages.Perm tx₀.messages ∧ messages[m.index]? = some x :=
  exists_perm_getElem? hx ((read_reordered htx₀ (List.Perm.refl _)).index_lt hm)

/-- If the sums are right in every order, a payment is at most one coin. -/
theorem one_coin_of_all (htx₀ : tx₀ ∈ history.db.transaction)
    (hall : ∀ messages, messages.Perm tx₀.messages →
      TxAccounted history (reordered tx₀ messages) events) (hm : m ∈ topLevel tx₀) {e : Event}
    (he : e ∈ transfersOf history tx₀ m) {p : String × List Coin}
    (hp : p ∈ history.payments e) : p.2.length ≤ 1 := by
  by_contra hlen
  obtain ⟨messages, hperm, hx⟩ := exists_order htx₀ hm (mem_topLevel.mp hm).1
  obtain ⟨denom, hcomma, hpos⟩ := exists_paymentSum_pos hp (not_le.mp hlen)
  -- no coin has the denomination of the row
  have hpaid : paid history id (reordered tx₀ messages) m p.1 denom = 0 := by
    refine List.sum_eq_zero fun n hn => ?_
    obtain ⟨e', -, rfl⟩ := List.mem_map.mp hn
    exact coinSum_comma id _ _ hcomma
  have hsum := (hall messages hperm).2 m ((mem_topLevel_reordered hperm).mpr hm) p.1 denom
  rw [hpaid] at hsum
  have hle := le_sum_map (fun e => amountSum (ofRecipient p.1 denom)
    (rowsOf (reordered tx₀ messages) events e)) he
  rw [sum_of_own htx₀ hperm hm hx he] at hle
  exact absurd (hle.trans hsum.le) (not_le.mpr hpos)

/-- If the sums are right in every order, a transfer beside another message pays nothing. -/
theorem no_coins_of_all (htx₀ : tx₀ ∈ history.db.transaction)
    (hall : ∀ messages, messages.Perm tx₀.messages →
      TxAccounted history (reordered tx₀ messages) events)
    (hevents : ∀ e ∈ history.db.event, e.tx_id = tx₀.id → isTransfer e = true → e ∈ events)
    (hm : m ∈ topLevel tx₀) (hx : x ∈ tx₀.messages) (hne : x ≠ m) {e : Event}
    (he : e ∈ transfersOf history tx₀ m) {p : String × List Coin}
    (hp : p ∈ history.payments e) : p.2 = [] := by
  -- with `x` at its position the message has no rows, so it pays nothing
  obtain ⟨messages, hperm, hxat⟩ := exists_order htx₀ hm hx
  refine List.eq_nil_iff_forall_not_mem.mpr fun c hc => ?_
  have hsum := (hall messages hperm).2 m ((mem_topLevel_reordered hperm).mpr hm) p.1 c.denom
  have hzero : ((transfersOf history (reordered tx₀ messages) m).map fun e =>
      amountSum (ofRecipient p.1 c.denom) (rowsOf (reordered tx₀ messages) events e)).sum = 0 := by
    refine List.sum_eq_zero fun n hn => ?_
    obtain ⟨e', he', rfl⟩ := List.mem_map.mp hn
    rw [(not_rows_of_other htx₀ hall hevents hperm hm hxat hne he').2, amountSum_nil]
  rw [hzero] at hsum
  have hle := le_sum_map (fun e => coinSum id (history.payments e) p.1 c.denom) he
  exact absurd (hle.trans hsum.ge) (not_le.mpr (coinSum_pos hp hc))

/-- Of several messages one is another. -/
theorem exists_other (htx₀ : tx₀ ∈ history.db.transaction) (hm : m ∈ tx₀.messages)
    (hlen : tx₀.messages.length ≠ 1) : ∃ x ∈ tx₀.messages, x ≠ m := by
  by_contra hno
  push Not at hno
  have hnd : tx₀.messages.Nodup := (history.message_ids tx₀ htx₀).of_map
  refine hlen (List.length_eq_one_iff.mpr ⟨m, ?_⟩)
  exact List.perm_singleton.mp ((List.perm_ext_iff_of_nodup hnd (List.nodup_singleton m)).mpr
    fun y => ⟨fun hy => List.mem_singleton.mpr (hno y hy), fun hy => List.mem_singleton.mp hy ▸ hm⟩)

/-- If the sums are right in every order, the transaction meets the condition. -/
theorem accountable_of_all (events : List Event) (htx₀ : tx₀ ∈ history.db.transaction)
    (hall : ∀ messages, messages.Perm tx₀.messages →
      TxAccounted history (reordered tx₀ messages) events)
    (hevents : ∀ e ∈ history.db.event, e.tx_id = tx₀.id → isTransfer e = true → e ∈ events) :
    Accountable history tx₀ := by
  have hread₀ : Read history tx₀ := read_reordered htx₀ (List.Perm.refl _)
  have hone : ∀ e ∈ history.db.event, e.tx_id = tx₀.id → isTransfer e = true →
      ∀ p ∈ history.payments e, p.2.length ≤ 1 := by
    intro e he hid htransfer p hp
    obtain ⟨m, hm, hindex, -⟩ := hread₀.supported he hid htransfer
    exact one_coin_of_all htx₀ hall hm (mem_transfersOf.mpr ⟨he, hid, htransfer, hindex⟩) hp
  refine ⟨fun e he hid htransfer => ?_, hone, fun m hm recipient denom => ?_⟩
  · obtain ⟨m, hm, hindex, hsupp⟩ := hread₀.supported he hid htransfer
    have hmem : e ∈ transfersOf history tx₀ m := mem_transfersOf.mpr ⟨he, hid, htransfer, hindex⟩
    refine or_iff_not_imp_left.mpr fun hlen => ?_
    obtain ⟨x, hx, hxm⟩ := exists_other htx₀ (mem_topLevel.mp hm).1 hlen
    have hother : ∀ y ∈ tx₀.messages, y ≠ m → ¬ (isSingle e = true ∨ y.type = msgMultiSend) := by
      intro y hy hym
      obtain ⟨messages, hperm, hyat⟩ := exists_order htx₀ hm hy
      exact (not_rows_of_other htx₀ hall hevents hperm hm hyat hym hmem).1
    refine ⟨Bool.eq_false_iff.mpr fun h => hother x hx hxm (.inl h),
      fun p hp => no_coins_of_all htx₀ hall hevents hm hx hxm hmem hp, fun y hy htype => ?_⟩
    by_cases hym : y = m
    · subst hym
      exact ⟨(mem_topLevel.mp hm).2, hindex⟩
    · exact absurd (.inr htype) (hother y hy hym)
  · obtain ⟨messages, hperm, hx⟩ := exists_order htx₀ hm (mem_topLevel.mp hm).1
    have hsum := (hall messages hperm).2 m ((mem_topLevel_reordered hperm).mpr hm) recipient denom
    refine Eq.trans ?_ hsum
    refine congrArg List.sum (List.map_congr_left fun e he => ?_)
    obtain ⟨hmem, hid, htransfer, -⟩ := mem_transfersOf.mp he
    rw [sum_of_own htx₀ hperm hm hx he, paymentSum_eq (hone e hmem hid htransfer)]

end

end CoinSumsLemmas

open CoinSumsLemmas

/-! ## 3. The result -/

/-- The rows account for all coins in every order of the messages exactly when the ids of the range
have no gap and each of its transactions is accountable. -/
theorem coin_transfers_iff (history : History) (fromHeight toHeight : ℕ) :
    (∀ txs events, FetchedTxs history.db fromHeight toHeight txs →
        events.Perm (eventQuery history.db txs) → Accounted history txs events) ↔
      (∀ e ∈ eventQuery history.db (rangeTxs history fromHeight toHeight),
        e.tx_id ∈ (rangeTxs history fromHeight toHeight).map (·.id)) ∧
      ∀ tx ∈ rangeTxs history fromHeight toHeight, Accountable history tx := by
  have hquery : ∀ txs, FetchedTxs history.db fromHeight toHeight txs →
      eventQuery history.db txs = eventQuery history.db (rangeTxs history fromHeight toHeight) := by
    intro txs htxs
    rw [eventQuery, eventQuery, fetched_ids htxs]
  constructor
  · intro hall
    have hself : FetchedTxs history.db fromHeight toHeight
        (rangeTxs history fromHeight toHeight) :=
      List.forall₂_same.mpr fun tx _ => ⟨tx.messages, List.Perm.refl _, rfl⟩
    refine ⟨((accounted_iff hself (List.Perm.refl _)).mp
      (hall _ _ hself (List.Perm.refl _))).1, fun tx₀ htx₀ => ?_⟩
    have hmem₀ := (mem_between.mp htx₀).1
    refine accountable_of_all (eventsOf
      (eventQuery history.db (rangeTxs history fromHeight toHeight)) tx₀) hmem₀ ?_ ?_
    · -- the other transactions are read as they are stored
      intro messages hperm
      let f : Tx → Tx := fun tx => if tx.id = tx₀.id then reordered tx₀ messages else tx
      have hf : FetchedTxs history.db fromHeight toHeight
          ((rangeTxs history fromHeight toHeight).map f) := by
        refine List.forall₂_map_right_iff.mpr (List.forall₂_same.mpr fun tx htx => ?_)
        by_cases hid : tx.id = tx₀.id
        · have hnd : (history.db.transaction.map (·.id)).Nodup :=
            List.pairwise_map.mpr (history.sorted.imp fun h => ne_of_lt h)
          obtain rfl : tx = tx₀ :=
            List.inj_on_of_nodup_map hnd (mem_between.mp htx).1 hmem₀ hid
          exact ⟨messages, hperm, by simp only [f, if_pos]; rfl⟩
        · exact ⟨tx.messages, List.Perm.refl _, by simp only [f, if_neg hid]⟩
      have hin : reordered tx₀ messages ∈ (rangeTxs history fromHeight toHeight).map f :=
        List.mem_map.mpr ⟨tx₀, htx₀, by simp only [f, if_pos]⟩
      have hacc := ((accounted_iff hf (List.Perm.refl _)).mp
        (hall _ _ hf (List.Perm.refl _))).2 _ hin
      rwa [hquery _ hf] at hacc
    · intro e he hid htransfer
      refine (eventsOf_perm hself (List.Perm.refl _) htx₀).mem_iff.mpr ?_
      exact List.mem_filter.mpr ⟨he, decide_eq_true ⟨hid, isSome_of_isTransfer htransfer⟩⟩
  · rintro ⟨hids, haccountable⟩ txs events htxs hevents
    refine (accounted_iff htxs hevents).mpr ⟨fun e he => ?_, fun tx htx => ?_⟩
    · rw [fetched_ids htxs]
      exact hids e (hquery txs htxs ▸ hevents.mem_iff.mp he)
    · obtain ⟨tx₀, htx₀, messages, hperm, rfl⟩ := fetched_original htxs htx
      exact txAccounted_of_accountable (haccountable tx₀ htx₀) (fetched_read htxs htx) rfl hperm
        fun e he => mem_eventsOf htxs hevents htx he

/-- Coins of the example. -/
def uatom10 : Coin := ⟨10, "uatom", by decide, by decide, ⟨'u', by decide, by decide⟩, by decide⟩

@[inherit_doc uatom10] def uaura20 : Coin :=
  ⟨20, "uaura", by decide, by decide, ⟨'u', by decide, by decide⟩, by decide⟩

/-- A `MsgSend` of some coins. -/
def sendTx : Tx := ⟨7, 100, "t", [⟨70, 0, "/cosmos.bank.v1beta1.MsgSend", none⟩]⟩

@[inherit_doc sendTx] def sendEvent (amount : String) : Event where
  tx_id := 7
  tx_msg_index := some 0
  type := "transfer"
  attributes := [⟨"recipient", some "b"⟩, ⟨"sender", some "a"⟩, ⟨"amount", some amount⟩]

theorem supported_sendEvent {amount : String} {coins : List Coin}
    (h : IsCoins (some amount) coins) :
    Supported ⟨70, 0, "/cosmos.bank.v1beta1.MsgSend", none⟩ (sendEvent amount) [("b", coins)] := by
  have hperm : (sendEvent amount).attributes.Perm
      [⟨"sender", some "a"⟩, ⟨"recipient", some "b"⟩, ⟨"amount", some amount⟩] :=
    List.Perm.swap _ _ _
  exact .single h (.inl rfl) hperm

/-- The tables with the `MsgSend`. -/
def sendHistory (amount : String) (coins : List Coin) (h : IsCoins (some amount) coins) :
    History where
  db := ⟨[sendTx], [sendEvent amount]⟩
  payments _ := [("b", coins)]
  sorted := List.pairwise_singleton _ _
  message_ids tx htx := by
    obtain rfl := List.mem_singleton.mp htx
    decide
  indices tx htx := by
    obtain rfl := List.mem_singleton.mp htx
    decide
  supported tx htx e he _ _ := by
    obtain rfl := List.mem_singleton.mp htx
    obtain rfl := List.mem_singleton.mp he
    exact ⟨_, by decide, rfl, supported_sendEvent h⟩

theorem isCoins_two : IsCoins (some "10uatom,20uaura") [uatom10, uaura20] := by
  show "10uatom,20uaura".toList = _
  decide +kernel

/-- Two coins of one transfer become one row of a denomination that does not exist. -/
theorem two_coins :
    FetchedTxs (sendHistory _ _ isCoins_two).db 0 100 [sendTx] ∧
    ∃ rows, jobHandleTxCoinTransfer [sendTx] [sendEvent "10uatom,20uaura"] = .ok rows ∧
      rows.map (fun row => (row.recipient, row.amount, row.denom)) =
        [("b", 10, "uatom,20uaura")] ∧
      ¬ Accounted (sendHistory _ _ isCoins_two) [sendTx] [sendEvent "10uatom,20uaura"] := by
  have hcheck : (match jobHandleTxCoinTransfer [sendTx] [sendEvent "10uatom,20uaura"] with
      | .ok rows => decide (rows.map (fun row => (row.recipient, row.amount, row.denom)) =
          [("b", 10, "uatom,20uaura")] ∧ amountSum (fun row => row.tx_id = sendTx.id ∧
            row.tx_msg_id = 70 ∧ row.recipient = "b" ∧ row.denom = "uatom") rows = 0)
      | .error _ => false) = true := by decide +kernel
  have hpaid : paid (sendHistory _ _ isCoins_two) id sendTx
      ⟨70, 0, "/cosmos.bank.v1beta1.MsgSend", none⟩ "b" "uatom" = 10 := by decide +kernel
  have hfetched : FetchedTxs (sendHistory _ _ isCoins_two).db 0 100 [sendTx] :=
    .cons ⟨sendTx.messages, List.Perm.refl _, rfl⟩ .nil
  refine ⟨hfetched, ?_⟩
  cases hrun : jobHandleTxCoinTransfer [sendTx] [sendEvent "10uatom,20uaura"] with
  | error e =>
    rw [hrun] at hcheck
    cases hcheck
  | ok rows =>
    rw [hrun] at hcheck
    obtain ⟨hrows, hzero⟩ := of_decide_eq_true hcheck
    refine ⟨rows, rfl, hrows, ?_⟩
    rintro ⟨rows', hrows', -, hsum⟩
    obtain rfl : rows = rows' := Except.ok.inj (hrun.symm.trans hrows')
    have hten := hsum sendTx List.mem_cons_self ⟨70, 0, "/cosmos.bank.v1beta1.MsgSend", none⟩
      (by decide) "b" "uatom"
    rw [hpaid, hzero] at hten
    cases hten

end Erascope.CoinTransfers
