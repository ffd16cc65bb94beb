import Mathlib.Tactic
import Erascope.Lib.Number
import Erascope.Lib.Order
import Erascope.Lib.Fold

/-!
# Coin transfers

The model of `services/crawl-tx/coin_transfer.service.ts`. The job reads the transactions of its
range with their messages and their message-level events, and turns every `transfer` event into
rows of `coin_transfer`: one row for an event with a sender, a recipient and an amount, one row for
each pair of attributes under `MsgMultiSend`.

The amount attribute is a list of coins. `extractAmount` takes its first run of digits as the amount
and the rest of the text as the denomination, and the amount becomes a double on the way to the
table. The message of an event is looked up by its position in an unordered relation.
-/

namespace Erascope.CoinTransfers

/-! ## 1. Rows -/

/-- A row of `transaction_message`. -/
structure Message where
  id : ℕ
  index : ℕ
  type : String
  parent_id : Option ℕ
deriving DecidableEq, Repr

/-- A row of `event_attribute`. -/
structure Attribute where
  key : String
  value : Option String
deriving DecidableEq, Repr

/-- A row of `event` with its attributes. -/
structure Event where
  tx_id : ℕ
  tx_msg_index : Option ℕ
  type : String
  attributes : List Attribute
deriving DecidableEq, Repr

/-- A row of `transaction` with its messages, those that `HANDLE_AUTHZ_TX` adds included. -/
structure Tx where
  id : ℕ
  height : ℕ
  timestamp : String
  messages : List Message
deriving DecidableEq, Repr

/-- A row of `coin_transfer`; `sender` and `recipient` are its columns `from` and `to`. -/
structure CoinTransfer where
  block_height : ℕ
  tx_id : ℕ
  tx_msg_id : ℕ
  sender : Option String
  recipient : String
  amount : ℕ
  denom : String
  timestamp : String
deriving DecidableEq, Repr

/-- What ends the job. -/
inductive CoinTransferError
  /-- `transactionsWithId[event.tx_id]` is undefined. -/
  | undefinedTransaction
  /-- `tx.messages[event.tx_msg_index]` is undefined. -/
  | undefinedMessage
  /-- `event.attributes[i + 1]` is undefined. -/
  | undefinedAttribute
  /-- `fromJson` misses a required property. -/
  | validation
deriving DecidableEq, Repr

/-! ## 2. Amounts -/

/-- `match(/(\d+)/)` -/
def firstDigits (s : List Char) : Option (List Char) :=
  match (s.dropWhile fun c => !c.isDigit).takeWhile Char.isDigit with
  | [] => none
  | digits => some digits

/-- `replace(pattern, '')`, which takes away the first occurrence. -/
def removeFirst (pattern : List Char) : List Char → List Char
  | [] => []
  | c :: cs =>
    if pattern.isPrefixOf (c :: cs) then (c :: cs).drop pattern.length
    else c :: removeFirst pattern cs

/-- `extractAmount`; the amount is a double. -/
def extractAmount : Option String → ℕ × String
  | none => (0, "")
  | some rawAmount =>
    let amount := (firstDigits rawAmount.toList).getD ['0']
    (Number.toDouble (Nat.ofDigitChars 10 amount 0),
      String.ofList (removeFirst amount rawAmount.toList))

/-! ## 3. The rows of an event -/

/-- `'/cosmos.bank.v1beta1.MsgMultiSend'` -/
def msgMultiSend : String := "/cosmos.bank.v1beta1.MsgMultiSend"

/-- `event.attributes.find((attr) => attr.key === key)?.value` -/
def find (attributes : List Attribute) (key : String) : Option (Option String) :=
  (attributes.find? (·.key = key)).map (·.value)

/-- One sender, one recipient and one amount, and the index that authz adds. -/
def isSingle (event : Event) : Bool :=
  decide (event.attributes.length = 3) ||
    decide (event.attributes.length = 4) &&
      decide ("authz_msg_index" ∈ event.attributes.map (·.key))

/-- `fromJson({ ...ctTemplate, to, amount, denom })`: the amount is stored as the text of the
number, a null recipient as the empty text. -/
def transferRow (tx : Tx) (message : Message) (sender recipient rawAmount : Option String) :
    CoinTransfer where
  block_height := tx.height
  tx_id := tx.id
  tx_msg_id := message.id
  sender := sender
  recipient := recipient.getD ""
  amount := Number.printed (extractAmount rawAmount).1
  denom := (extractAmount rawAmount).2
  timestamp := tx.timestamp

/-- The rows of the pairs of attributes of a `MsgMultiSend`. Attributes that are no pair end the
event. -/
def pairRows (tx : Tx) (message : Message) (sender : Option String) :
    List Attribute → Except CoinTransferError (List CoinTransfer)
  | [] => .ok []
  | [_] => .error .undefinedAttribute
  | a :: b :: rest =>
    if a.key ≠ "recipient" ∧ b.key ≠ "amount" then .ok []
    else do
      let rows ← pairRows tx message sender rest
      return transferRow tx message sender a.value b.value :: rows

/-- The rows of an event of a transaction, whose events are `events`. -/
def eventRows (tx : Tx) (events : List Event) (event : Event) :
    Except CoinTransferError (List CoinTransfer) :=
  match event.tx_msg_index with
  | none => .ok []
  | some index =>
    if event.type ≠ "transfer" then .ok []
    else
      match tx.messages[index]? with
      | none => .error .undefinedMessage
      | some message =>
        if event.attributes.length ≠ 3 ∧ message.type ≠ msgMultiSend ∧ isSingle event = false then
          .ok []
        else if isSingle event then
          match find event.attributes "recipient" with
          | none => .error .validation
          | some recipient =>
            .ok [transferRow tx message (find event.attributes "sender").join recipient
              (find event.attributes "amount").join]
        else
          let coinSpentEvent := events.find? fun e =>
            e.type = "coin_spent" ∧ e.tx_msg_index = event.tx_msg_index
          let sender := coinSpentEvent.bind fun e => (find e.attributes "spender").join
          pairRows tx message sender event.attributes

/-! ## 4. The job -/

/-- The tables that the job reads; the transactions are in the order of their ids. -/
structure Db where
  transaction : List Tx
  event : List Event

/-- `Transaction.query().withGraphFetched('messages')...orderBy('id')`: the messages of a
transaction come in any order. -/
def FetchedTxs (db : Db) (fromHeight toHeight : ℕ) (txs : List Tx) : Prop :=
  List.Forall₂ (fun tx fetched => ∃ messages, messages.Perm tx.messages ∧
    fetched = { tx with messages := messages }) (between (·.height) fromHeight toHeight db.transaction) txs

/-- The message-level events with a `tx_id` between the first and the last one. -/
def eventQuery (db : Db) (txs : List Tx) : List Event :=
  match (txs.map (·.id)).head?, (txs.map (·.id)).getLast? with
  | some minTransactionId, some maxTransactionId =>
    db.event.filter fun e =>
      e.tx_msg_index.isSome ∧ minTransactionId ≤ e.tx_id ∧ e.tx_id ≤ maxTransactionId
  | _, _ => []

/-- The events of a transaction among those that were read. -/
def eventsOf (events : List Event) (tx : Tx) : List Event := events.filter (·.tx_id = tx.id)

/-- The rows of a transaction. -/
def txRows (tx : Tx) (events : List Event) : Except CoinTransferError (List CoinTransfer) := do
  let rows ← events.mapM (eventRows tx events)
  return rows.flatten

/-- `fetchTransactionCTByHeight` and the loop of `jobHandleTxCoinTransfer`, when the queries return
`txs` and `events`: the rows that are inserted. -/
def jobHandleTxCoinTransfer (txs : List Tx) (events : List Event) :
    Except CoinTransferError (List CoinTransfer) :=
  if events.any fun e => e.tx_id ∉ txs.map (·.id) then .error .undefinedTransaction
  else do
    let rows ← txs.mapM fun tx => txRows tx (eventsOf events tx)
    return rows.flatten

/-! ## 5. Coins -/

/-- A coin of a Cosmos coin list. -/
structure Coin where
  amount : ℕ
  denom : String
  pos : 0 < amount
  lt : amount < 2 ^ 256
  head : ∃ c ∈ denom.toList.head?, c.isDigit = false
  comma : ',' ∉ denom.toList

/-- `10uaura` -/
def Coin.text (c : Coin) : List Char := Nat.toDigits 10 c.amount ++ c.denom.toList

/-- `10uaura,20uatom` -/
def coinsText : List Coin → List Char
  | [] => []
  | [c] => c.text
  | c :: d :: cs => c.text ++ ',' :: coinsText (d :: cs)

/-- The attribute value of a coin list; an empty text is stored as null. -/
def IsCoins (value : Option String) (coins : List Coin) : Prop :=
  (value.getD "").toList = coinsText coins

namespace AmountLemmas

theorem removeFirst_append {pattern : List Char} (hne : pattern ≠ []) (rest : List Char) :
    removeFirst pattern (pattern ++ rest) = rest := by
  cases pattern with
  | nil => exact absurd rfl hne
  | cons p ps =>
    have hpre : (p :: ps).isPrefixOf (p :: (ps ++ rest)) = true :=
      List.isPrefixOf_iff_prefix.mpr (List.prefix_append (p :: ps) rest)
    rw [List.cons_append, removeFirst, if_pos hpre, ← List.cons_append, List.drop_left]

theorem firstDigits_append {digits rest : List Char} (hne : digits ≠ [])
    (hdigits : ∀ c ∈ digits, c.isDigit = true)
    (hrest : ∀ c ∈ rest.head?, c.isDigit = false) :
    firstDigits (digits ++ rest) = some digits := by
  have htake : (digits ++ rest).takeWhile Char.isDigit = digits := by
    rw [List.takeWhile_append_of_pos hdigits]
    cases rest with
    | nil => simp
    | cons c cs => rw [List.takeWhile_cons_of_neg (by simp [hrest c rfl]), List.append_nil]
  have hdrop : (digits ++ rest).dropWhile (fun c => !c.isDigit) = digits ++ rest := by
    cases digits with
    | nil => exact absurd rfl hne
    | cons d ds =>
      rw [List.cons_append, List.dropWhile_cons_of_neg (by simp [hdigits d List.mem_cons_self])]
  rw [firstDigits, hdrop, htake]
  cases digits with
  | nil => exact absurd rfl hne
  | cons d ds => rfl

/-- An amount that stands in front. -/
theorem extractAmount_front (c : Coin) {rawAmount : String} {rest : List Char}
    (h : rawAmount.toList = c.text ++ rest) :
    extractAmount (some rawAmount) =
      (Number.toDouble c.amount, String.ofList (c.denom.toList ++ rest)) := by
  have hne : Nat.toDigits 10 c.amount ≠ [] := Nat.toDigits_ne_nil
  have hhead : ∀ x ∈ (c.denom.toList ++ rest).head?, x.isDigit = false := by
    obtain ⟨x, hx, hdigit⟩ := c.head
    intro y hy
    rw [List.head?_append, Option.mem_def.mp hx, Option.some_or] at hy
    exact Option.some.inj hy ▸ hdigit
  have hdigits : firstDigits rawAmount.toList = some (Nat.toDigits 10 c.amount) := by
    rw [h, Coin.text, List.append_assoc]
    exact firstDigits_append hne
      (fun x hx => Nat.isDigit_of_mem_toDigits (by decide) (by decide) hx) hhead
  simp only [extractAmount]
  rw [hdigits, Option.getD_some, Nat.ofDigitChars_ten_toDigits, h, Coin.text, List.append_assoc,
    removeFirst_append hne]

theorem extractAmount_nil {value : Option String} (h : IsCoins value []) :
    extractAmount value = (0, "") := by
  cases value with
  | none => rfl
  | some s =>
    obtain rfl : s = "" := String.toList_inj.mp h
    decide

theorem isCoins_some {value : Option String} {c : Coin} {cs : List Coin}
    (h : IsCoins value (c :: cs)) :
    ∃ s rest, value = some s ∧ s.toList = c.text ++ rest ∧ (cs = [] → rest = []) ∧
      (cs ≠ [] → ∃ rest', rest = ',' :: rest') := by
  have htext : ∃ rest, coinsText (c :: cs) = c.text ++ rest ∧ (cs = [] → rest = []) ∧
      (cs ≠ [] → ∃ rest', rest = ',' :: rest') := by
    cases cs with
    | nil => exact ⟨[], by simp [coinsText], fun _ => rfl, fun h => absurd rfl h⟩
    | cons d ds =>
      exact ⟨',' :: coinsText (d :: ds), rfl, (fun h => absurd h (by simp)), fun _ => ⟨_, rfl⟩⟩
  obtain ⟨rest, heq, hnil, hcons⟩ := htext
  cases value with
  | none =>
    have hempty : c.text ++ rest = [] := heq ▸ h.symm
    have := (List.append_eq_nil_iff.mp hempty).1
    exact absurd (List.append_eq_nil_iff.mp this).1 Nat.toDigits_ne_nil
  | some s => exact ⟨s, rest, rfl, heq ▸ h, hnil, hcons⟩

theorem extractAmount_single {value : Option String} {c : Coin} (h : IsCoins value [c]) :
    extractAmount value = (Number.toDouble c.amount, c.denom) := by
  obtain ⟨s, rest, rfl, hs, hnil, -⟩ := isCoins_some h
  rw [extractAmount_front c hs, hnil rfl, List.append_nil, String.ofList_toList]

/-- Of two coins or more, all but the first amount ends up in the denomination. -/
theorem extractAmount_many {value : Option String} {c d : Coin} {cs : List Coin}
    (h : IsCoins value (c :: d :: cs)) :
    (extractAmount value).1 = Number.toDouble c.amount ∧ ',' ∈ (extractAmount value).2.toList := by
  obtain ⟨s, rest, rfl, hs, -, hcons⟩ := isCoins_some h
  obtain ⟨rest', rfl⟩ := hcons (by simp)
  rw [extractAmount_front c hs]
  exact ⟨rfl, by simp⟩

end AmountLemmas

end Erascope.CoinTransfers
