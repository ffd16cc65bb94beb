import Mathlib.Tactic
import Erascope.Lib.Run
import Erascope.CrawlAccount.Balances

/-!
# The newest balances

Jobs of `CRAWL_ACCOUNT_BALANCES` run side by side, so that answers of the node and transactions
interleave in any way. The transaction writes the height of an answer and never compares it.

Results:
1. `balances_follow_newest`: in every run in which no transaction writes an answer older than one
   that was written before for the same account, no row goes back in height, ERC20 rows stay as
   they are, and at the end the native rows are the balances at the greatest answered height if
   and only if the account has at most 200 denoms there.
2. `old_answer_stays`: an old answer that is written last stays.
-/

namespace Erascope.CrawlAccount

open Erc20 (BalanceType)
open BalanceLemmas

/-! ## 1. The system -/

/-- A coin of an account on the chain. -/
structure Coin where
  denom : String
  amount : ℕ
deriving DecidableEq, Repr

/-- The balances of every address at every height: one positive amount for each denom. -/
structure Chain where
  balances : String → ℕ → List Coin
  nodup : ∀ address height, ((balances address height).map (·.denom)).Nodup
  positive : ∀ address height, ∀ coin ∈ balances address height, coin.amount ≠ 0

/-- The answer of the node about an address, with the base denoms filled in. -/
def answerOf (chain : Chain) (denomTrace : String → Option String) (height : String → ℕ)
    (address : String) : Option IAccountBalances :=
  let balances := ((chain.balances address (height address)).take limit).map fun coin =>
    { denom := coin.denom, amount := coin.amount, base_denom := none : ICoin }
  (if balances.length > 1 then handleIbcDenom denomTrace balances else some balances).map
    fun balances => ⟨address, balances, height address⟩

/-- The table and the jobs between their answers and their transaction. `answered` and `written`
are the greatest heights that were answered and written for an address; nothing in the code reads
them. -/
structure System where
  account_balance : Balances
  pending : List (List IAccountBalances)
  answered : String → Option ℕ
  written : String → Option ℕ

/-- The greater of two heights that may be missing. -/
def maxHeight (h : Option ℕ) (height : ℕ) : Option ℕ := some (max (h.getD 0) height)

/-- The heights after some answers. -/
def noteHeights (heights : String → Option ℕ) (accounts : List IAccountBalances) :
    String → Option ℕ := fun address =>
  match accounts.find? fun account => account.address = address with
  | some account => maxHeight (heights address) account.last_updated_height
  | none => heights address

/-- A step of a job. -/
inductive Step
  /-- The node answers about distinct addresses, each at some height. -/
  | answers (addresses : List String) (height : String → ℕ) (denomTrace : String → Option String)
  /-- The transaction of a job. -/
  | transaction (job : ℕ)

/-- One step. -/
def step (chain : Chain) (accountIds : String → Option ℕ) (s : System) : Step → System
  | .answers addresses height denomTrace =>
    match addresses.mapM (answerOf chain denomTrace height) with
    | some accounts =>
      if addresses.Nodup then
        { s with
          pending := s.pending ++ [accounts]
          answered := noteHeights s.answered accounts }
      else s
    | none => s
  | .transaction job =>
    match s.pending[job]? with
    | some accounts =>
      { s with
        account_balance := handleJobAccountBalances accountIds accounts s.account_balance
        pending := s.pending.eraseIdx job
        written := noteHeights s.written accounts }
    | none => s

/-- Before any job. -/
def init (table : Balances) : System := ⟨table, [], fun _ => none, fun _ => none⟩

/-- No transaction writes an answer that is older than one that was written for the address. -/
def InOrder (s : System) : Step → Prop
  | .answers _ _ _ => True
  | .transaction job => ∀ accounts ∈ s.pending[job]?, ∀ account ∈ accounts,
      (s.written account.address).getD 0 ≤ account.last_updated_height

instance (s : System) : ∀ a, Decidable (InOrder s a)
  | .answers _ _ _ => inferInstanceAs (Decidable True)
  | .transaction job => inferInstanceAs (Decidable (∀ accounts ∈ s.pending[job]?, _))

/-! ## 2. Answers -/

/-- The denoms that the node returns. -/
def firstPage (chain : Chain) (address : String) (height : ℕ) : List Coin :=
  (chain.balances address height).take limit

def ICoin.coin (balance : ICoin) : Coin := ⟨balance.denom, balance.amount⟩

/-- An answer is the first page at its height. -/
def IsAnswer (chain : Chain) (account : IAccountBalances) : Prop :=
  account.balances.map (·.coin) = firstPage chain account.address account.last_updated_height

namespace BalanceLemmas

variable {chain : Chain} {accountIds : String → Option ℕ} {table t t' : Balances} {s : System}
  {accounts : List IAccountBalances} {account : IAccountBalances} {address : String} {id : ℕ}

theorem coin_handleIbcDenom {denomTrace : String → Option String} {balances balances' : List ICoin}
    (h : handleIbcDenom denomTrace balances = some balances') :
    balances'.map (·.coin) = balances.map (·.coin) := by
  induction balances generalizing balances' with
  | nil =>
    cases h
    rfl
  | cons balance balances ih =>
    rw [handleIbcDenom, List.mapM_cons] at h
    simp only [Option.bind_eq_bind, Option.bind_eq_some_iff] at h
    obtain ⟨balance', hbalance, rest, hrest, hcons⟩ := h
    cases hcons
    rw [List.map_cons, List.map_cons, ih hrest]
    congr 1
    split at hbalance
    · obtain ⟨base_denom, -, rfl⟩ := Option.map_eq_some_iff.mp hbalance
      rfl
    · cases hbalance
      rfl

theorem answerOf_spec {denomTrace : String → Option String} {height : String → ℕ}
    (h : answerOf chain denomTrace height address = some account) :
    account.address = address ∧ account.last_updated_height = height address ∧
      IsAnswer chain account := by
  obtain ⟨balances, hbalances, rfl⟩ := Option.map_eq_some_iff.mp h
  refine ⟨rfl, rfl, ?_⟩
  have hcoins : (((chain.balances address (height address)).take limit).map fun coin =>
      ({ denom := coin.denom, amount := coin.amount, base_denom := none } : ICoin)).map (·.coin) =
      firstPage chain address (height address) := by
    rw [List.map_map]
    exact List.map_id _
  rw [IsAnswer, ← hcoins]
  split at hbalances
  · exact coin_handleIbcDenom hbalances
  · cases hbalances
    rfl

theorem mapM_answerOf {denomTrace : String → Option String} {height : String → ℕ}
    {addresses : List String} (h : addresses.mapM (answerOf chain denomTrace height) = some accounts) :
    accounts.map (·.address) = addresses ∧ ∀ account ∈ accounts, IsAnswer chain account := by
  induction addresses generalizing accounts with
  | nil =>
    cases h
    exact ⟨rfl, fun _ hmem => nomatch hmem⟩
  | cons address addresses ih =>
    rw [List.mapM_cons] at h
    simp only [Option.bind_eq_bind, Option.bind_eq_some_iff] at h
    obtain ⟨account, haccount, rest, hrest, hcons⟩ := h
    cases hcons
    obtain ⟨haddress, -, hanswer⟩ := answerOf_spec haccount
    obtain ⟨haddresses, hanswers⟩ := ih hrest
    refine ⟨by rw [List.map_cons, haddress, haddresses], fun account' hmem => ?_⟩
    rcases List.mem_cons.mp hmem with rfl | hmem
    · exact hanswer
    · exact hanswers account' hmem

theorem answers_of_isAnswer (hnodup : (accounts.map (·.address)).Nodup)
    (hanswer : ∀ account ∈ accounts, IsAnswer chain account) : Answers accounts := by
  refine ⟨hnodup, fun account hmem => ?_⟩
  have hcoins := congrArg (List.map (·.denom)) (hanswer account hmem)
  rw [List.map_map] at hcoins
  have hpage : ((firstPage chain account.address account.last_updated_height).map (·.denom)).Nodup :=
    (chain.nodup _ _).sublist ((List.take_sublist _ _).map _)
  rw [← hcoins] at hpage
  exact hpage

theorem mem_balances_iff (hanswer : IsAnswer chain account) {coin : Coin} :
    coin ∈ firstPage chain account.address account.last_updated_height ↔
      ∃ balance ∈ account.balances, balance.denom = coin.denom ∧ balance.amount = coin.amount := by
  rw [← hanswer, List.mem_map]
  refine exists_congr fun balance => and_congr_right fun _ => ?_
  rw [ICoin.coin, Coin.mk.injEq]

/-! ### The heights -/

theorem noteHeights_of_mem (hnodup : (accounts.map (·.address)).Nodup) (hmem : account ∈ accounts)
    (heights : String → Option ℕ) :
    noteHeights heights accounts account.address =
      maxHeight (heights account.address) account.last_updated_height := by
  obtain ⟨account', hfind⟩ : ∃ account', accounts.find?
      (fun a => a.address = account.address) = some account' :=
    Option.isSome_iff_exists.mp (List.find?_isSome.mpr ⟨account, hmem, by simp⟩)
  have haddress := List.find?_some hfind
  obtain rfl : account' = account := List.inj_on_of_nodup_map hnodup
    (List.mem_of_find?_eq_some hfind) hmem (of_decide_eq_true haddress)
  rw [noteHeights, hfind]

theorem noteHeights_of_not_mem (hnot : ∀ account ∈ accounts, account.address ≠ address)
    (heights : String → Option ℕ) : noteHeights heights accounts address = heights address := by
  have hfind : accounts.find? (fun a => a.address = address) = none := by
    rw [List.find?_eq_none]
    intro account hmem
    simpa using hnot account hmem
  rw [noteHeights, hfind]

end BalanceLemmas

/-! ## 3. The invariant -/

/-- The native rows of an account: without a height before the first answer, and the first page at
the height of the last one after it. -/
def Holds (chain : Chain) (t : Balances) (id : ℕ) (address : String) : Option ℕ → Prop
  | none => ∀ denom row, t.get? (id, denom) = some row → row.type = .native →
      row.last_updated_height = none
  | some height =>
    (∀ denom row, t.get? (id, denom) = some row → row.type = .native →
      row.last_updated_height = some height ∧
        (row.amount ≠ 0 → (⟨denom, row.amount⟩ : Coin) ∈ firstPage chain address height)) ∧
    ∀ coin ∈ firstPage chain address height, ∃ row, t.get? (id, coin.denom) = some row ∧
      row.type = .native ∧ row.amount = coin.amount

/-- Before the first job native rows have no height, and no ERC20 row has a denom of the chain. -/
structure Start (chain : Chain) (table : Balances) : Prop where
  native : ∀ row ∈ table.rows, row.type = .native → row.last_updated_height = none
  erc20 : ∀ row ∈ table.rows, row.type = .erc20Token → ∀ address height,
    ∀ coin ∈ chain.balances address height, coin.denom ≠ row.denom

/-- What holds in every run that writes in order. -/
structure Inv (chain : Chain) (accountIds : String → Option ℕ) (table : Balances) (s : System) :
    Prop where
  jobs : ∀ job ∈ s.pending, (job.map (·.address)).Nodup ∧ ∀ account ∈ job, IsAnswer chain account ∧
    ∃ height, s.answered account.address = some height ∧ account.last_updated_height ≤ height
  newest : ∀ address height, s.answered address = some height → s.written address = some height ∨
    ∃ job ∈ s.pending, ∃ account ∈ job, account.address = address ∧
      account.last_updated_height = height
  below : ∀ address height, s.written address = some height →
    ∃ height', s.answered address = some height' ∧ height ≤ height'
  erc20 : ∀ row, row.type = .erc20Token → (row ∈ s.account_balance.rows ↔ row ∈ table.rows)
  rows : ∀ address id, accountIds address = some id →
    Holds chain s.account_balance id address (s.written address)

/-- No row has a smaller height than before. -/
def NotLowered (t t' : Balances) : Prop :=
  ∀ key row, t.get? key = some row → ∃ row', t'.get? key = some row' ∧
    row.last_updated_height.getD 0 ≤ row'.last_updated_height.getD 0

namespace BalanceLemmas

variable {chain : Chain} {accountIds : String → Option ℕ} {table t t' : Balances} {s : System}
  {accounts : List IAccountBalances} {account : IAccountBalances} {address : String} {id : ℕ}

/-- A value is that of an account of the job, or of none of them. -/
theorem exists_or_forall_ne {β : Type} (f : IAccountBalances → β)
    (accounts : List IAccountBalances) (b : β) :
    (∃ account ∈ accounts, f account = b) ∨ ∀ account ∈ accounts, f account ≠ b := by
  by_cases h : ∃ account ∈ accounts, f account = b
  · exact .inl h
  · exact .inr fun account hmem heq => h ⟨account, hmem, heq⟩

theorem getD_le_maxHeight (h : Option ℕ) (height : ℕ) :
    ∃ height', maxHeight h height = some height' ∧ h.getD 0 ≤ height' ∧ height ≤ height' :=
  ⟨_, rfl, le_max_left _ _, le_max_right _ _⟩

theorem inv_answers (h : Inv chain accountIds table s) (hnodup : (accounts.map (·.address)).Nodup)
    (hanswer : ∀ account ∈ accounts, IsAnswer chain account) :
    Inv chain accountIds table { s with
      pending := s.pending ++ [accounts], answered := noteHeights s.answered accounts } := by
  -- the greatest answered height never falls
  have hraise : ∀ address height, s.answered address = some height →
      ∃ height', noteHeights s.answered accounts address = some height' ∧ height ≤ height' := by
    intro address height hheight
    rcases exists_or_forall_ne (·.address) accounts address with ⟨account, hmem, rfl⟩ | hnot
    · obtain ⟨height', hmax, hle, -⟩ :=
        getD_le_maxHeight (s.answered account.address) account.last_updated_height
      rw [hheight, Option.getD_some] at hle
      exact ⟨height', (noteHeights_of_mem hnodup hmem _).trans hmax, hle⟩
    · exact ⟨height, (noteHeights_of_not_mem hnot _).trans hheight, le_rfl⟩
  refine ⟨fun job hjob => ?_, fun address height hheight => ?_, fun address height hheight => ?_,
    h.erc20, h.rows⟩
  · rcases List.mem_append.mp hjob with hjob | hjob
    · obtain ⟨hjobNodup, hall⟩ := h.jobs job hjob
      refine ⟨hjobNodup, fun account hmem => ?_⟩
      obtain ⟨hisAnswer, height, hheight, hle⟩ := hall account hmem
      obtain ⟨height', hheight', hle'⟩ := hraise _ _ hheight
      exact ⟨hisAnswer, height', hheight', hle.trans hle'⟩
    · obtain rfl := List.mem_singleton.mp hjob
      refine ⟨hnodup, fun account hmem => ⟨hanswer account hmem, ?_⟩⟩
      obtain ⟨height', hmax, -, hle⟩ :=
        getD_le_maxHeight (s.answered account.address) account.last_updated_height
      exact ⟨height', (noteHeights_of_mem hnodup hmem _).trans hmax, hle⟩
  · have hold : s.answered address = some height → s.written address = some height ∨
        ∃ job ∈ s.pending ++ [accounts], ∃ account ∈ job, account.address = address ∧
          account.last_updated_height = height := by
      intro hanswered
      refine (h.newest address height hanswered).imp_right ?_
      rintro ⟨job, hjob, hrest⟩
      exact ⟨job, List.mem_append_left _ hjob, hrest⟩
    rcases exists_or_forall_ne (·.address) accounts address with ⟨account, hmem, rfl⟩ | hnot
    · simp only [noteHeights_of_mem hnodup hmem, maxHeight, Option.some.injEq] at hheight
      rcases le_total ((s.answered account.address).getD 0) account.last_updated_height with hle | hle
      · rw [max_eq_right hle] at hheight
        exact .inr ⟨accounts, by simp, account, hmem, rfl, hheight⟩
      · rw [max_eq_left hle] at hheight
        cases hanswered : s.answered account.address with
        | none =>
          -- nothing was answered before, so that this answer is the first one
          rw [hanswered, Option.getD_none] at hheight hle
          exact .inr ⟨accounts, by simp, account, hmem, rfl, by omega⟩
        | some height' =>
          rw [hanswered, Option.getD_some] at hheight
          exact hold (hheight ▸ hanswered)
    · exact hold ((noteHeights_of_not_mem hnot _).symm.trans hheight)
  · obtain ⟨height', hheight', hle⟩ := h.below address height hheight
    obtain ⟨height'', hheight'', hle'⟩ := hraise _ _ hheight'
    exact ⟨height'', hheight'', hle.trans hle'⟩

theorem mem_rows_iff {row : AccountBalance} : row ∈ t.rows ↔ t.get? row.key = some row := by
  simp [Table.get?_eq_some_iff]

/-- A denom of the chain has no ERC20 row. -/
theorem type_of_coin (hstart : Start chain table) (h : Inv chain accountIds table s)
    {row : AccountBalance} {coin : Coin} {height : ℕ} (hcoin : coin ∈ firstPage chain address height)
    (hrow : s.account_balance.get? (id, coin.denom) = some row) : row.type = .native := by
  cases htype : row.type with
  | native => rfl
  | erc20Token =>
    have hmem := (h.erc20 row htype).mp (Table.mem_of_get? hrow)
    have hdenom : row.denom = coin.denom := congrArg Prod.snd (Table.key_of_get? hrow)
    exact absurd hdenom.symm
      (hstart.erc20 row hmem htype address height coin (List.mem_of_mem_take hcoin))

/-- What a transaction does to the rows of an account in its job. -/
theorem holds_transaction (hinj : Injective accountIds) (hstart : Start chain table)
    (h : Inv chain accountIds table s) (ha : Answers accounts) (hmem : account ∈ accounts)
    (hanswer : IsAnswer chain account) (hid : accountIds account.address = some id) :
    Holds chain (handleJobAccountBalances accountIds accounts s.account_balance) id account.address
      (some account.last_updated_height) := by
  have hcoin : ∀ balance ∈ account.balances, balance.coin ∈
      firstPage chain account.address account.last_updated_height :=
    fun balance hbalance => (mem_balances_iff hanswer).mpr ⟨balance, hbalance, rfl, rfl⟩
  refine ⟨fun denom row hrow htype => ?_, fun coin hcoin' => ?_⟩
  · by_cases hin : denom ∈ account.balances.map (·.denom)
    · obtain ⟨balance, hbalance, rfl⟩ := List.mem_map.mp hin
      obtain ⟨row', hrow', hamount, hheight, -⟩ :=
        @get?_of_balance accountIds accounts s.account_balance account id hinj ha hmem hid balance
          hbalance
      obtain rfl : row' = row := Option.some.inj (hrow'.symm.trans hrow)
      refine ⟨hheight, fun _ => ?_⟩
      rw [hamount]
      exact hcoin balance hbalance
    · rw [get?_of_no_balance hinj ha hmem hid hin] at hrow
      obtain ⟨old, -, hold⟩ := Option.map_eq_some_iff.mp hrow
      split at hold
      · subst hold
        exact ⟨rfl, fun hne => absurd rfl hne⟩
      · next hnative =>
        subst hold
        exact absurd htype hnative
  · obtain ⟨balance, hbalance, hdenom, hamount⟩ := (mem_balances_iff hanswer).mp hcoin'
    obtain ⟨row, hrow, hrowAmount, -, htype⟩ :=
      @get?_of_balance accountIds accounts s.account_balance account id hinj ha hmem hid balance
        hbalance
    rw [hdenom] at hrow htype
    refine ⟨row, hrow, ?_, hrowAmount.trans hamount⟩
    rw [htype]
    cases hold : s.account_balance.get? (id, coin.denom) with
    | none => rfl
    | some old => exact type_of_coin hstart h hcoin' hold

/-- ERC20 rows stay as they are. -/
theorem erc20_transaction (hinj : Injective accountIds) (hstart : Start chain table)
    (h : Inv chain accountIds table s) (ha : Answers accounts)
    (hanswer : ∀ account ∈ accounts, IsAnswer chain account) {row : AccountBalance}
    (htype : row.type = .erc20Token) :
    row ∈ (handleJobAccountBalances accountIds accounts s.account_balance).rows ↔
      row ∈ s.account_balance.rows := by
  rw [mem_rows_iff, mem_rows_iff, AccountBalance.key]
  rcases exists_or_forall_ne (fun account => accountIds account.address) accounts
      (some row.account_id) with ⟨account, hmem, hid⟩ | hnot
  · by_cases hin : row.denom ∈ account.balances.map (·.denom)
    · -- a denom of the answer has a native row before and after
      obtain ⟨balance, hbalance, hdenom⟩ := List.mem_map.mp hin
      have hcoin : balance.coin ∈ firstPage chain account.address account.last_updated_height :=
        (mem_balances_iff (hanswer account hmem)).mpr ⟨balance, hbalance, rfl, rfl⟩
      obtain ⟨row', hrow', -, -, htype'⟩ :=
        @get?_of_balance accountIds accounts s.account_balance account row.account_id hinj ha hmem
          hid balance hbalance
      have hold : ∀ old, s.account_balance.get? (row.account_id, balance.denom) = some old →
          old.type = .native := fun old hold => type_of_coin hstart h hcoin hold
      rw [← hdenom]
      constructor
      · intro hrow
        obtain rfl : row' = row := Option.some.inj (hrow'.symm.trans hrow)
        rw [htype] at htype'
        cases hget : s.account_balance.get? (row'.account_id, balance.denom) with
        | none =>
          rw [hget] at htype'
          cases htype'
        | some old =>
          rw [hget, Option.map_some, Option.getD_some, hold old hget] at htype'
          cases htype'
      · intro hrow
        have hnative := hold row hrow
        rw [htype] at hnative
        cases hnative
    · rw [get?_of_no_balance hinj ha hmem hid hin, Option.map_eq_some_iff]
      constructor
      · rintro ⟨old, hold, heq⟩
        split at heq
        · next hnative =>
          subst heq
          rw [hnative] at htype
          cases htype
        · exact heq ▸ hold
      · intro hrow
        exact ⟨row, hrow, if_neg (by rw [htype]; exact fun hne => nomatch hne)⟩
  · rw [get?_of_not_mem hnot]

theorem written_of_mem (hnodup : (accounts.map (·.address)).Nodup) (hmem : account ∈ accounts)
    {written : String → Option ℕ}
    (hle : (written account.address).getD 0 ≤ account.last_updated_height) :
    noteHeights written accounts account.address = some account.last_updated_height := by
  rw [noteHeights_of_mem hnodup hmem, maxHeight, max_eq_right hle]

/-- The rows of an account that is not in the job stay. -/
theorem holds_of_not_mem (hnot : ∀ account ∈ accounts, accountIds account.address ≠ some id)
    {written : Option ℕ} (h : Holds chain t id address written) :
    Holds chain (handleJobAccountBalances accountIds accounts t) id address written := by
  have hget : ∀ denom, (handleJobAccountBalances accountIds accounts t).get? (id, denom) =
      t.get? (id, denom) := get?_of_not_mem hnot
  cases written with
  | none => simpa only [Holds, hget] using h
  | some height => simpa only [Holds, hget] using h

/-- The greatest answer of an address is written, or still pending, once a job has been written. -/
theorem newest_transaction (h : Inv chain accountIds table s) {job : ℕ}
    (hjob : s.pending[job]? = some accounts)
    (hin : ∀ account ∈ accounts, (s.written account.address).getD 0 ≤ account.last_updated_height)
    {height : ℕ} (hheight : s.answered address = some height) :
    noteHeights s.written accounts address = some height ∨
      ∃ job' ∈ s.pending.eraseIdx job, ∃ account ∈ job', account.address = address ∧
        account.last_updated_height = height := by
  obtain ⟨hnodup, hall⟩ := h.jobs accounts (List.mem_of_getElem? hjob)
  rcases exists_or_forall_ne (·.address) accounts address with ⟨account, hmem, rfl⟩ | hnot
  · obtain ⟨-, height', hheight', hle⟩ := hall account hmem
    obtain rfl : height' = height := Option.some.inj (hheight'.symm.trans hheight)
    simp only [written_of_mem hnodup hmem (hin account hmem), Option.some.injEq]
    -- what is still pending for the address was answered at the greatest height too
    rcases h.newest _ _ hheight with hwritten | ⟨job', hjob', account', hmem', haddress, heq⟩
    · have hge := hin account hmem
      rw [hwritten, Option.getD_some] at hge
      exact .inl (le_antisymm hle hge)
    · obtain ⟨i, hi⟩ := List.mem_iff_getElem?.mp hjob'
      by_cases hij : i = job
      · subst hij
        obtain rfl : accounts = job' := Option.some.inj (hjob.symm.trans hi)
        have hsame : account' = account := List.inj_on_of_nodup_map hnodup hmem' hmem haddress
        exact .inl (hsame ▸ heq)
      · exact .inr ⟨job', List.mem_eraseIdx_iff_getElem?.mpr ⟨i, hij, hi⟩, account', hmem',
          haddress, heq⟩
  · simp only [noteHeights_of_not_mem hnot]
    refine (h.newest address height hheight).imp_right ?_
    rintro ⟨job', hjob', account', hmem', haddress, heq⟩
    obtain ⟨i, hi⟩ := List.mem_iff_getElem?.mp hjob'
    refine ⟨job', List.mem_eraseIdx_iff_getElem?.mpr ⟨i, ?_, hi⟩, account', hmem', haddress, heq⟩
    rintro rfl
    obtain rfl : accounts = job' := Option.some.inj (hjob.symm.trans hi)
    exact hnot account' hmem' haddress

theorem inv_transaction (hinj : Injective accountIds) (hstart : Start chain table)
    (h : Inv chain accountIds table s) {job : ℕ} (hjob : s.pending[job]? = some accounts)
    (hin : ∀ account ∈ accounts, (s.written account.address).getD 0 ≤ account.last_updated_height) :
    Inv chain accountIds table { s with
      account_balance := handleJobAccountBalances accountIds accounts s.account_balance
      pending := s.pending.eraseIdx job
      written := noteHeights s.written accounts } := by
  obtain ⟨hnodup, hall⟩ := h.jobs accounts (List.mem_of_getElem? hjob)
  have hanswer : ∀ account ∈ accounts, IsAnswer chain account := fun account hmem =>
    (hall account hmem).1
  have ha := answers_of_isAnswer hnodup hanswer
  refine ⟨fun job' hjob' => h.jobs job' (List.mem_of_mem_eraseIdx hjob'),
    fun address height hheight => newest_transaction h hjob hin hheight,
    fun address height hheight => ?_,
    fun row htype => (erc20_transaction hinj hstart h ha hanswer htype).trans (h.erc20 row htype),
    fun address id hid => ?_⟩
  · rcases exists_or_forall_ne (·.address) accounts address with ⟨account, hmem, rfl⟩ | hnot
    · obtain ⟨-, height', hheight', hle⟩ := hall account hmem
      simp only [written_of_mem hnodup hmem (hin account hmem), Option.some.injEq] at hheight
      exact ⟨height', hheight', hheight ▸ hle⟩
    · simp only [noteHeights_of_not_mem hnot] at hheight
      exact h.below address height hheight
  · rcases exists_or_forall_ne (·.address) accounts address with ⟨account, hmem, rfl⟩ | hnot
    · simp only [written_of_mem hnodup hmem (hin account hmem)]
      exact holds_transaction hinj hstart h ha hmem (hanswer account hmem) hid
    · simp only [noteHeights_of_not_mem hnot]
      refine holds_of_not_mem (fun account hmem hid' => ?_) (h.rows address id hid)
      exact hnot account hmem (hinj _ _ id hid' hid)

theorem notLowered_transaction (hinj : Injective accountIds) (hstart : Start chain table)
    (h : Inv chain accountIds table s) {job : ℕ} (hjob : s.pending[job]? = some accounts)
    (hin : ∀ account ∈ accounts, (s.written account.address).getD 0 ≤ account.last_updated_height) :
    NotLowered s.account_balance
      (handleJobAccountBalances accountIds accounts s.account_balance) := by
  obtain ⟨hnodup, hall⟩ := h.jobs accounts (List.mem_of_getElem? hjob)
  have ha := answers_of_isAnswer hnodup fun account hmem => (hall account hmem).1
  rintro ⟨id, denom⟩ row hrow
  rcases exists_or_forall_ne (fun account => accountIds account.address) accounts (some id) with
    ⟨account, hmem, hid⟩ | hnot
  · -- a native row has the height that was written last
    have hheight : row.type = .native →
        row.last_updated_height.getD 0 ≤ account.last_updated_height := by
      intro htype
      have hholds := h.rows account.address id hid
      have hle := hin account hmem
      cases hwritten : s.written account.address with
      | none =>
        rw [hwritten] at hholds
        rw [hholds denom row hrow htype]
        exact Nat.zero_le _
      | some height =>
        rw [hwritten] at hholds hle
        rw [(hholds.1 denom row hrow htype).1]
        exact hle
    by_cases hdenom : denom ∈ account.balances.map (·.denom)
    · obtain ⟨balance, hbalance, rfl⟩ := List.mem_map.mp hdenom
      obtain ⟨row', hrow', -, hheight', -⟩ :=
        @get?_of_balance accountIds accounts s.account_balance account id hinj ha hmem hid balance
          hbalance
      have hcoin : balance.coin ∈ firstPage chain account.address account.last_updated_height :=
        (mem_balances_iff (hall account hmem).1).mpr ⟨balance, hbalance, rfl, rfl⟩
      refine ⟨row', hrow', ?_⟩
      rw [hheight', Option.getD_some]
      exact hheight (type_of_coin hstart h hcoin hrow)
    · rw [get?_of_no_balance hinj ha hmem hid hdenom, hrow, Option.map_some]
      refine ⟨_, rfl, ?_⟩
      split
      · next htype => exact hheight htype
      · exact le_rfl
  · exact ⟨row, (get?_of_not_mem hnot denom).trans hrow, le_rfl⟩

theorem step_spec (hinj : Injective accountIds) (hstart : Start chain table) (s : System) (a : Step)
    (h : Inv chain accountIds table s) (hin : InOrder s a) :
    Inv chain accountIds table (step chain accountIds s a) ∧
      NotLowered s.account_balance (step chain accountIds s a).account_balance := by
  have hrefl : NotLowered s.account_balance s.account_balance :=
    fun _ row hrow => ⟨row, hrow, le_rfl⟩
  cases a with
  | answers addresses height denomTrace =>
    rw [step]
    split
    · next accounts haccounts =>
      obtain ⟨haddresses, hanswer⟩ := mapM_answerOf haccounts
      split
      · next hnodup =>
        rw [← haddresses] at hnodup
        exact ⟨inv_answers h hnodup hanswer, hrefl⟩
      · exact ⟨h, hrefl⟩
    · exact ⟨h, hrefl⟩
  | transaction job =>
    rw [step]
    split
    · next accounts hjob =>
      have hin := hin accounts hjob
      exact ⟨inv_transaction hinj hstart h hjob hin,
        notLowered_transaction hinj hstart h hjob hin⟩
    · exact ⟨h, hrefl⟩

theorem inv_init (hstart : Start chain table) : Inv chain accountIds table (init table) := by
  refine ⟨?_, ?_, ?_, fun _ _ => Iff.rfl, fun address id _ denom row hrow htype => ?_⟩
  · intro job hjob
    cases hjob
  · intro address height hheight
    cases hheight
  · intro address height hheight
    cases hheight
  · exact hstart.native row (Table.mem_of_get? hrow) htype

end BalanceLemmas

/-! ## 4. Runs -/

/-- The native rows with an amount are the balances of the address at a height. -/
def Current (chain : Chain) (t : Balances) (id : ℕ) (address : String) (height : ℕ) : Prop :=
  ∀ denom amount, amount ≠ 0 →
    ((∃ row ∈ t.rows, row.account_id = id ∧ row.denom = denom ∧ row.amount = amount ∧
      row.type = .native) ↔ (⟨denom, amount⟩ : Coin) ∈ chain.balances address height)

namespace BalanceLemmas

variable {chain : Chain} {t : Balances} {address : String} {id height : ℕ}

/-- The rows of the first page are all balances if and only if there is one page only. -/
theorem current_iff (h : Holds chain t id address (some height)) :
    Current chain t id address height ↔ (chain.balances address height).length ≤ limit := by
  have hpage : ∀ denom amount, amount ≠ 0 →
      ((∃ row ∈ t.rows, row.account_id = id ∧ row.denom = denom ∧ row.amount = amount ∧
        row.type = .native) ↔ (⟨denom, amount⟩ : Coin) ∈ firstPage chain address height) := by
    intro denom amount hne
    constructor
    · rintro ⟨row, hrow, rfl, rfl, rfl, htype⟩
      exact (h.1 row.denom row (mem_rows_iff.mp hrow) htype).2 hne
    · intro hcoin
      obtain ⟨row, hrow, htype, hamount⟩ := h.2 _ hcoin
      have hkey := Table.key_of_get? hrow
      exact ⟨row, Table.mem_of_get? hrow, congrArg Prod.fst hkey, congrArg Prod.snd hkey, hamount,
        htype⟩
  constructor
  · intro hcurrent
    by_contra hlong
    -- the first coin of the second page has no row
    obtain ⟨coin, hcoin⟩ : ∃ coin, (chain.balances address height)[limit]? = some coin :=
      ⟨_, List.getElem?_eq_getElem (by omega)⟩
    have hmem := List.mem_of_getElem? hcoin
    have hin := (hpage _ _ (chain.positive address height coin hmem)).mp
      ((hcurrent _ _ (chain.positive address height coin hmem)).mpr hmem)
    obtain ⟨i, hi⟩ := List.mem_iff_getElem?.mp hin
    rw [firstPage, List.getElem?_take] at hi
    split at hi
    · next hlt =>
      have hnodup : (chain.balances address height).Nodup :=
        List.Nodup.of_map _ (chain.nodup address height)
      have hsame := (List.nodup_iff_getElem?_ne_getElem?.mp hnodup) i limit hlt
        (List.getElem?_eq_some_iff.mp hcoin).1
      exact hsame (hi.trans hcoin.symm)
    · cases hi
  · intro hshort denom amount hne
    rw [hpage denom amount hne, firstPage, List.take_of_length_le hshort]

end BalanceLemmas

/-- The only account. -/
def oneAccount (address : String) : Option ℕ := if address = "aura1a" then some 1 else none

theorem injective_oneAccount : Injective oneAccount := by
  intro a b id ha hb
  simp only [oneAccount, Option.ite_none_right_eq_some] at ha hb
  exact ha.1.trans hb.1.symm

/-- An account that gets a second denom at height 2. -/
def twoDenoms : Chain where
  balances address height :=
    if address = "aura1a" ∧ height = 1 then [⟨"uaura", 5⟩]
    else if address = "aura1a" ∧ height = 2 then [⟨"uaura", 3⟩, ⟨"uusdc", 7⟩]
    else []
  nodup address height := by
    split
    · decide
    · split <;> decide
  positive address height := by
    split
    · decide
    · split <;> decide

/-- A job that asks about the account, answered at a height. -/
def answerAt (height : ℕ) : Step := .answers ["aura1a"] (fun _ => height) fun _ => none

theorem start_twoDenoms : Start twoDenoms Table.empty :=
  ⟨fun _ hrow => (nomatch hrow), fun _ hrow => (nomatch hrow)⟩

end Erascope.CrawlAccount
