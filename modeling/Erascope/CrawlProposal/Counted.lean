import Mathlib.Tactic
import Erascope.Lib.Order
import Erascope.Lib.Run
import Erascope.HandleVote.Votes

/-!
# Counted votes

The model of `services/crawl-proposal/count_vote_proposal.service.ts` and
`services/crawl-proposal/crawl_proposal.service.ts`, beside `HANDLE_VOTE_TX`. `COUNT_VOTE_PROPOSAL`
counts the rows of `vote` for the proposals that are voted on and for those that ended and are not
counted; it marks a proposal as counted when the voting ended by the time of the block that
`HANDLE_VOTE_TX` has reached. A counted proposal that has ended is not counted again.

The job does not wait for the transactions in which it counts, and each of the five queries in one
sees what is committed by then. `CRAWL_PROPOSAL` writes whole rows that it has read before it asked
the node, and the statuses of ended proposals are written one after the other; all of this
alternates in any order.

Results:
1. `counts_are_final`: a row that is marked as counted has the counts of the table `vote`, then and
   ever after, when `HANDLE_VOTE_TX` has reached a stored block whenever the job asks for its time.
2. `counted_stays`: once nothing is pending for a counted proposal that has ended, its counts never
   change. `early_count_stays`: without a block the job takes the time of the clock, and may count
   before the votes are there.
3. `ended_is_counted`: a proposal that has ended by the time of the job, and is not counted, is
   marked with the last query of its transaction, whatever the jobs do between its queries.
-/

namespace Erascope.CrawlProposal

open Checkpoint HandleVote

/-! ## 1. Tables -/

/-- `ICountVote` -/
structure ICountVote where
  yes : ℕ
  no : ℕ
  abstain : ℕ
  no_with_veto : ℕ
  unspecified : ℕ
deriving DecidableEq, Repr

/-- A row of `proposal`; the times in milliseconds. -/
structure Proposal where
  proposal_id : ℕ
  status : String
  voting_end_time : Option ℕ
  deposit_end_time : ℕ
  count_vote : Option ICountVote
  vote_counted : Bool
deriving DecidableEq, Repr

/-- `Proposal.STATUS` -/
def statusDepositPeriod : String := "PROPOSAL_STATUS_DEPOSIT_PERIOD"
@[inherit_doc statusDepositPeriod]
def statusVotingPeriod : String := "PROPOSAL_STATUS_VOTING_PERIOD"
@[inherit_doc statusDepositPeriod] def statusPassed : String := "PROPOSAL_STATUS_PASSED"
@[inherit_doc statusDepositPeriod] def statusRejected : String := "PROPOSAL_STATUS_REJECTED"
@[inherit_doc statusDepositPeriod] def statusFailed : String := "PROPOSAL_STATUS_FAILED"
@[inherit_doc statusDepositPeriod]
def statusNotEnoughDeposit : String := "PROPOSAL_STATUS_NOT_ENOUGH_DEPOSIT"

/-- The options in the order of the queries. -/
def voteOptions : List String :=
  ["VOTE_OPTION_YES", "VOTE_OPTION_NO", "VOTE_OPTION_NO_WITH_VETO", "VOTE_OPTION_ABSTAIN",
    "VOTE_OPTION_UNSPECIFIED"]

/-- `Vote.query().where('proposal_id', proposalId).andWhere('vote_option', option).count()` -/
def countOf (vote : Table Vote.key) (proposalId : ℕ) (option : String) : ℕ :=
  (vote.rows.filter fun v => v.proposal_id = proposalId ∧ v.vote_option = option).length

/-- `count_vote` of the five answers. -/
def countVote (counts : List ℕ) : ICountVote where
  yes := counts.getD 0 0
  no := counts.getD 1 0
  no_with_veto := counts.getD 2 0
  abstain := counts.getD 3 0
  unspecified := counts.getD 4 0

/-! ## 2. Jobs -/

/-- What the node says of a proposal. -/
structure OnchainProposal where
  proposal_id : ℕ
  status : String
  voting_end_time : Option ℕ
  deposit_end_time : ℕ
deriving DecidableEq, Repr

/-- The row that `CRAWL_PROPOSAL` writes: a new one, or the one that it found with what may
change. -/
def proposalEntity (foundProposal : Option Proposal) (proposal : OnchainProposal) : Proposal :=
  match foundProposal with
  | none => ⟨proposal.proposal_id, proposal.status, proposal.voting_end_time,
      proposal.deposit_end_time, none, false⟩
  | some found => { found with
      status := proposal.status
      voting_end_time := proposal.voting_end_time }

/-- A transaction of `COUNT_VOTE_PROPOSAL`: the answers that it has so far. -/
structure Counting where
  proposal_id : ℕ
  voteCounted : Bool
  counts : List ℕ
deriving DecidableEq, Repr

/-- The tables of `HANDLE_VOTE_TX`, the table `proposal`, and what the jobs have read and not yet
written: the rows of `CRAWL_PROPOSAL`, the time of `COUNT_VOTE_PROPOSAL`, its transactions, and the
statuses of `HANDLE_ENDED_PROPOSAL` and `HANDLE_NOT_ENOUGH_DEPOSIT_PROPOSAL`. -/
structure State where
  db : HandleVote.Db
  proposal : Table Proposal.proposal_id
  listProposals : Option (List Proposal)
  latestCheckpointTime : Option ℕ
  counting : List Counting
  patchQueries : List (ℕ × String)

/-- The times of the stored blocks, and the end of the voting on a proposal. When a block is at or
after this end, the blocks above it have no vote on the proposal. -/
structure Gov where
  chain : Chain
  blockTime : ℕ → Option ℕ
  votingEnd : ℕ → ℕ
  votes_in_time : ∀ m ∈ voteRows chain, ∀ height time, blockTime height = some time →
    votingEnd m.content.vote.proposal_id ≤ time → m.tx.height ≤ height

/-- The time of the block of the checkpoint of `HANDLE_VOTE_TX`, when there are both. -/
def checkpointTime (gov : Gov) (db : HandleVote.Db) : Option ℕ :=
  (heightOf db.block_checkpoint .handleVoteTx).bind gov.blockTime

/-- The query of `votingProposals`. -/
def isVotingProposal (latestCheckpointTime : ℕ) (p : Proposal) : Bool :=
  p.status = statusVotingPeriod ||
    (decide (p.status ∈ [statusFailed, statusPassed, statusRejected]) &&
      p.voting_end_time.any (· ≤ latestCheckpointTime) && !p.vote_counted)

/-- A transaction as it begins; `new Date(null)` is the time `0`. -/
def startCounting (latestCheckpointTime : ℕ) (p : Proposal) : Counting where
  proposal_id := p.proposal_id
  voteCounted := p.voting_end_time.getD 0 ≤ latestCheckpointTime
  counts := []

/-- `Proposal.query().where('proposal_id', proposalId).patch(...)` -/
def patchProposal (t : Table Proposal.proposal_id) (proposalId : ℕ)
    (patch : Proposal → Proposal) : Table Proposal.proposal_id :=
  match t.get? proposalId with
  | none => t
  | some p => t.upsert { patch p with proposal_id := p.proposal_id }

/-- The next query of a transaction; after the five counts the proposal is patched. -/
def continueCounting (s : State) (before : List Counting) (c : Counting) (after : List Counting) :
    State :=
  match voteOptions[c.counts.length]? with
  | some option =>
    let counted := { c with counts := c.counts ++ [countOf s.db.vote c.proposal_id option] }
    { s with counting := before ++ counted :: after }
  | none =>
    { s with
      proposal := patchProposal s.proposal c.proposal_id fun p =>
        { p with count_vote := some (countVote c.counts), vote_counted := c.voteCounted }
      counting := before ++ after }

/-- The steps of the jobs. The node and the clock answer with any values. -/
inductive Step
  /-- A run of `HANDLE_VOTE_TX`, with the answer to its query. -/
  | handleVote (endBlock : ℕ) (txMsgs : List TxMsg)
  | readProposals (onchain : List OnchainProposal)
  | mergeProposals
  /-- The transaction of `CRAWL_PROPOSAL` fails. -/
  | dropProposals
  | readCheckpointTime (now : ℕ)
  | readVotingProposals
  /-- The next query of the transaction at a position. -/
  | count (position : ℕ)
  | handleEndedProposals (now : ℕ) (onchain : List (ℕ × String))
  | handleNotEnoughDepositProposals (now : ℕ) (onchain : List ℕ)
  /-- The patch at a position. -/
  | patch (position : ℕ)

/-- A step; one that is not enabled changes nothing. -/
def step (gov : Gov) (s : State) : Step → State
  | .handleVote endBlock txMsgs =>
    { s with db := HandleVote.handleVote gov.chain s.db endBlock txMsgs }
  | .readProposals onchain =>
    { s with listProposals := some (onchain.map fun proposal =>
        proposalEntity (s.proposal.get? proposal.proposal_id) proposal) }
  | .mergeProposals =>
    match s.listProposals with
    | none => s
    | some listProposals =>
      { s with
        proposal := s.proposal.upsertAll listProposals
        listProposals := none }
  | .dropProposals => { s with listProposals := none }
  | .readCheckpointTime now =>
    { s with latestCheckpointTime := some ((checkpointTime gov s.db).getD (now - 10)) }
  | .readVotingProposals =>
    match s.latestCheckpointTime with
    | none => s
    | some time =>
      { s with
        latestCheckpointTime := none
        counting := s.counting ++
          (s.proposal.rows.filter (isVotingProposal time)).map (startCounting time) }
  | .count position =>
    match s.counting.drop position with
    | [] => s
    | c :: after => continueCounting s (s.counting.take position) c after
  | .handleEndedProposals now onchain =>
    { s with patchQueries := s.patchQueries ++ (s.proposal.rows.filter fun p =>
        p.status = statusVotingPeriod ∧ p.voting_end_time.any (· ≤ now - 10)).filterMap fun p =>
          onchain.find? fun pro => pro.1 = p.proposal_id }
  | .handleNotEnoughDepositProposals now onchain =>
    { s with patchQueries := s.patchQueries ++ (s.proposal.rows.filter fun p =>
        p.status = statusDepositPeriod ∧ p.deposit_end_time ≤ now - 10 ∧
          p.proposal_id ∉ onchain).map fun p => (p.proposal_id, statusNotEnoughDeposit) }
  | .patch position =>
    match s.patchQueries.drop position with
    | [] => s
    | (proposalId, status) :: after =>
      { s with
        proposal := patchProposal s.proposal proposalId fun p => { p with status := status }
        patchQueries := s.patchQueries.take position ++ after }

/-- Empty tables, and no job that is running. -/
def State.initial : State := ⟨initialDb, Table.empty, none, none, [], []⟩

/-! ## 3. What is right -/

/-- `count_vote` as the table has it. -/
def tally (vote : Table Vote.key) (proposalId : ℕ) : ICountVote :=
  countVote (voteOptions.map (countOf vote proposalId))

/-- All votes on the proposal are handled. -/
def Settled (gov : Gov) (db : HandleVote.Db) (proposalId : ℕ) : Prop :=
  ∀ m ∈ voteRows gov.chain, m.content.vote.proposal_id = proposalId →
    m.tx.height ≤ reached gov.chain db

/-- What the node and the database answer: the messages of the range, and the end of the voting or,
before it begins, none. -/
def Answered (gov : Gov) (s : State) : Step → Prop
  | .handleVote endBlock txMsgs => Returned TxMsg.rank
      (between (·.tx.height) (reached gov.chain s.db) endBlock (voteRows gov.chain)) txMsgs
  | .readProposals onchain => ∀ proposal ∈ onchain, ∀ time, proposal.voting_end_time = some time →
      time = gov.votingEnd proposal.proposal_id
  | _ => True

/-- `COUNT_VOTE_PROPOSAL` finds the block of the checkpoint, and an end of the voting where it
counts. -/
def InTime (gov : Gov) (s : State) : Step → Prop
  | .readCheckpointTime _ => (checkpointTime gov s.db).isSome
  | .readVotingProposals => ∀ p ∈ s.proposal.rows, p.status = statusVotingPeriod →
      p.voting_end_time.isSome
  | _ => True

namespace CountLemmas

/-! ### The table of the votes -/

section
variable {vote : Table Vote.key} {proposalId : ℕ} {option : String}

theorem countOf_upsert {v : Vote} (hv : v.proposal_id ≠ proposalId) :
    countOf (vote.upsert v) proposalId option = countOf vote proposalId option := by
  rw [countOf, countOf, Table.upsert, Table.filter_upsertRow]
  · simp [hv]
  · intro x _ hkey
    have hx : x.proposal_id = v.proposal_id := congrArg Prod.fst hkey
    simp [hx, hv]

theorem countOf_insertVote {v : Vote} (hv : v.proposal_id ≠ proposalId) :
    countOf (insertVote vote v) proposalId option = countOf vote proposalId option := by
  unfold insertVote
  split
  case h_1 => exact countOf_upsert hv
  case h_2 old hold =>
    have hkey : old.proposal_id = v.proposal_id := congrArg Prod.fst (Table.key_of_get? hold)
    split
    · exact countOf_upsert (by rwa [← hkey] at hv)
    · rfl

theorem countOf_foldl_insertVote {votes : List Vote} (h : ∀ v ∈ votes, v.proposal_id ≠ proposalId) :
    countOf (votes.foldl insertVote vote) proposalId option = countOf vote proposalId option := by
  induction votes generalizing vote with
  | nil => rfl
  | cons v votes ih =>
    rw [List.foldl_cons, ih fun w hw => h w (List.mem_cons_of_mem v hw)]
    exact countOf_insertVote (h v List.mem_cons_self)

end

theorem reached_handleVote (chain : Chain) (db : HandleVote.Db) (endBlock : ℕ)
    (txMsgs : List TxMsg) :
    reached chain (HandleVote.handleVote chain db endBlock txMsgs) =
      max (reached chain db) endBlock := by
  rcases lt_or_ge endBlock (reached chain db) with hlt | hle
  · rw [HandleVote.handleVote, if_pos hlt, max_eq_left hlt.le]
  · rw [HandleVote.handleVote, if_neg (not_lt.mpr hle), max_eq_right hle, reached,
      startHeight_storeCheckpoint, if_pos rfl]

/-! ### The table of the proposals -/

theorem mem_patchProposal {t : Table Proposal.proposal_id} {proposalId : ℕ}
    {patch : Proposal → Proposal} {x : Proposal} (h : x ∈ (patchProposal t proposalId patch).rows) :
    x ∈ t.rows ∨
      ∃ p ∈ t.rows, p.proposal_id = proposalId ∧
        x = { patch p with proposal_id := p.proposal_id } := by
  unfold patchProposal at h
  split at h
  case h_1 => exact Or.inl h
  case h_2 p hp =>
    rcases Table.mem_rows_upsert.mp h with rfl | ⟨h, -⟩
    · exact Or.inr ⟨p, Table.mem_of_get? hp, Table.key_of_get? hp, rfl⟩
    · exact Or.inl h

theorem get?_patchProposal (t : Table Proposal.proposal_id) (proposalId : ℕ)
    (patch : Proposal → Proposal) (id : ℕ) :
    (patchProposal t proposalId patch).get? id = if id = proposalId then
      (t.get? id).map fun p => { patch p with proposal_id := p.proposal_id } else t.get? id := by
  unfold patchProposal
  split
  case h_1 hnone =>
    split
    case isTrue heq => rw [heq, hnone, Option.map_none]
    case isFalse => rfl
  case h_2 p hp =>
    have hkey : p.proposal_id = proposalId := Table.key_of_get? hp
    rw [Table.get?_upsert]
    split
    case isTrue heq =>
      have heq : id = proposalId := heq.symm.trans hkey
      rw [if_pos heq, heq, hp, Option.map_some]
    case isFalse hne => rw [if_neg fun h => hne (hkey.trans h.symm)]

/-! ### What later states keep -/

section
variable {gov : Gov} {db db' : HandleVote.Db}

/-- `HANDLE_VOTE_TX` has moved on from `db` to `db'`. -/
structure Onward (gov : Gov) (db db' : HandleVote.Db) : Prop where
  reached_le : reached gov.chain db ≤ reached gov.chain db'
  countOf_eq : ∀ proposalId, Settled gov db proposalId → ∀ option,
    countOf db'.vote proposalId option = countOf db.vote proposalId option

theorem Onward.refl (gov : Gov) (db : HandleVote.Db) : Onward gov db db :=
  ⟨le_refl _, fun _ _ _ => rfl⟩

theorem Onward.settled (h : Onward gov db db') {proposalId : ℕ} (hs : Settled gov db proposalId) :
    Settled gov db' proposalId := fun m hm hid => (hs m hm hid).trans h.reached_le

theorem Onward.trans {db'' : HandleVote.Db} (h : Onward gov db db') (h' : Onward gov db' db'') :
    Onward gov db db'' :=
  ⟨h.reached_le.trans h'.reached_le, fun proposalId hs option =>
    (h'.countOf_eq proposalId (h.settled hs) option).trans (h.countOf_eq proposalId hs option)⟩

theorem Onward.tally_eq (h : Onward gov db db') {proposalId : ℕ} (hs : Settled gov db proposalId) :
    tally db'.vote proposalId = tally db.vote proposalId := by
  rw [tally, tally, List.map_congr_left fun option _ => h.countOf_eq proposalId hs option]

/-- A run of `HANDLE_VOTE_TX` writes votes above the height that it had reached. -/
theorem onward_handleVote {endBlock : ℕ} {txMsgs : List TxMsg} (h : Returned TxMsg.rank
    (between (·.tx.height) (reached gov.chain db) endBlock (voteRows gov.chain)) txMsgs) :
    Onward gov db (HandleVote.handleVote gov.chain db endBlock txMsgs) := by
  refine ⟨?_, fun proposalId hs option => ?_⟩
  · rw [reached_handleVote]
    exact le_max_left _ _
  · rcases lt_or_ge endBlock (reached gov.chain db) with hlt | hle
    · rw [HandleVote.handleVote, if_pos hlt]
    · rw [HandleVote.handleVote, if_neg (not_lt.mpr hle)]
      refine countOf_foldl_insertVote fun v hv => ?_
      obtain ⟨m, hm, rfl⟩ := List.mem_map.mp hv
      obtain ⟨hmem, hlt, -⟩ := mem_between.mp (h.mem_iff.mp hm)
      exact fun hid => absurd (hs m hmem hid) (not_le.mpr hlt)

/-- What a row of `proposal` says. -/
structure RowOk (gov : Gov) (db : HandleVote.Db) (p : Proposal) : Prop where
  voting_end : ∀ time, p.voting_end_time = some time → time = gov.votingEnd p.proposal_id
  counted : p.vote_counted = true → Settled gov db p.proposal_id ∧
    p.count_vote = some (tally db.vote p.proposal_id)

theorem RowOk.onward {p : Proposal} (hp : RowOk gov db p) (h : Onward gov db db') :
    RowOk gov db' p := by
  refine ⟨hp.voting_end, fun hcounted => ?_⟩
  obtain ⟨hs, hcount⟩ := hp.counted hcounted
  exact ⟨h.settled hs, by rw [h.tally_eq hs, hcount]⟩

/-- The votes on proposals that end by `time` are handled. -/
def TimeOk (gov : Gov) (db : HandleVote.Db) (time : ℕ) : Prop :=
  ∀ proposalId, gov.votingEnd proposalId ≤ time → Settled gov db proposalId

theorem TimeOk.onward {time : ℕ} (ht : TimeOk gov db time) (h : Onward gov db db') :
    TimeOk gov db' time := fun proposalId hle => h.settled (ht proposalId hle)

/-- What a transaction of `COUNT_VOTE_PROPOSAL` that will mark its proposal has counted. -/
def CountingOk (gov : Gov) (db : HandleVote.Db) (c : Counting) : Prop :=
  c.voteCounted = true → Settled gov db c.proposal_id ∧
    c.counts = (voteOptions.take c.counts.length).map (countOf db.vote c.proposal_id)

theorem CountingOk.onward {c : Counting} (hc : CountingOk gov db c) (h : Onward gov db db') :
    CountingOk gov db' c := by
  intro hcounted
  obtain ⟨hs, hcounts⟩ := hc hcounted
  refine ⟨h.settled hs, hcounts.trans ?_⟩
  exact List.map_congr_left fun option _ => (h.countOf_eq c.proposal_id hs option).symm

end

/-! ### The invariant -/

/-- What the tables say and what the jobs have read. -/
structure CountInv (gov : Gov) (s : State) : Prop where
  rows : ∀ p ∈ s.proposal.rows, RowOk gov s.db p
  listProposals : ∀ ps, s.listProposals = some ps → ∀ p ∈ ps, RowOk gov s.db p
  time : ∀ time, s.latestCheckpointTime = some time → TimeOk gov s.db time
  counting : ∀ c ∈ s.counting, CountingOk gov s.db c

variable {gov : Gov} {s : State}

theorem countInv_initial : CountInv gov State.initial :=
  ⟨fun _ h => absurd h List.not_mem_nil, fun _ h => (by cases h), fun _ h => (by cases h),
    fun _ h => absurd h List.not_mem_nil⟩

theorem rowOk_proposalEntity {db : HandleVote.Db} {found : Option Proposal} {a : OnchainProposal}
    (hfound : ∀ p, found = some p → RowOk gov db p ∧ p.proposal_id = a.proposal_id)
    (hend : ∀ time, a.voting_end_time = some time → time = gov.votingEnd a.proposal_id) :
    RowOk gov db (proposalEntity found a) := by
  cases found with
  | none => exact ⟨hend, fun h => by cases h⟩
  | some p =>
    obtain ⟨hp, hid⟩ := hfound p rfl
    refine ⟨fun time htime => ?_, hp.counted⟩
    show time = gov.votingEnd p.proposal_id
    rw [hid]
    exact hend time htime

/-- The time of the block that `HANDLE_VOTE_TX` has reached. -/
theorem timeOk_checkpointTime {db : HandleVote.Db} {time : ℕ}
    (h : checkpointTime gov db = some time) : TimeOk gov db time := by
  obtain ⟨height, hheight, htime⟩ := Option.bind_eq_some_iff.mp h
  intro proposalId hle m hm hid
  have hreached : reached gov.chain db = height := by rw [reached, startHeight, hheight]; rfl
  rw [hreached]
  refine gov.votes_in_time m hm height time htime ?_
  rwa [hid]

theorem countingOk_startCounting {db : HandleVote.Db} {time : ℕ} {p : Proposal}
    (htime : TimeOk gov db time) (hp : RowOk gov db p) (hend : p.voting_end_time.isSome) :
    CountingOk gov db (startCounting time p) := by
  obtain ⟨votingEnd, hsome⟩ := Option.isSome_iff_exists.mp hend
  intro hcounted
  refine ⟨htime p.proposal_id ?_, rfl⟩
  rw [← hp.voting_end votingEnd hsome]
  have hle : decide (p.voting_end_time.getD 0 ≤ time) = true := hcounted
  rw [hsome] at hle
  exact of_decide_eq_true hle

/-- A proposal that is counted has an end of the voting. -/
theorem isSome_of_isVotingProposal {time : ℕ} {p : Proposal} (h : isVotingProposal time p = true)
    (hend : p.status = statusVotingPeriod → p.voting_end_time.isSome) :
    p.voting_end_time.isSome := by
  unfold isVotingProposal at h
  rcases Bool.or_eq_true_iff.mp h with h | h
  · exact hend (of_decide_eq_true h)
  · cases hp : p.voting_end_time with
    | none => simp [hp] at h
    | some _ => rfl

theorem drop_eq_cons {α : Type} {l after : List α} {x : α} {n : ℕ} (h : l.drop n = x :: after) :
    x ∈ l ∧ ∀ y ∈ l.take n ++ after, y ∈ l := by
  have hmem : ∀ y ∈ x :: after, y ∈ l := fun y hy => List.mem_of_mem_drop (h ▸ hy)
  refine ⟨hmem x List.mem_cons_self, fun y hy => ?_⟩
  rcases List.mem_append.mp hy with hy | hy
  · exact List.mem_of_mem_take hy
  · exact hmem y (List.mem_cons_of_mem x hy)

theorem countInv_continueCounting (h : CountInv gov s) {before after : List Counting} {c : Counting}
    (hc : CountingOk gov s.db c) (hrest : ∀ d ∈ before ++ after, CountingOk gov s.db d) :
    CountInv gov (continueCounting s before c after) := by
  unfold continueCounting
  split
  case h_1 option hoption =>
    refine ⟨h.rows, h.listProposals, h.time, fun d hd => ?_⟩
    have hd : d ∈ before ++ _ :: after := hd
    rcases List.mem_append.mp hd with hd | hd
    · exact hrest d (List.mem_append_left after hd)
    rcases List.mem_cons.mp hd with rfl | hd
    · intro hcounted
      obtain ⟨hs, hcounts⟩ := hc hcounted
      refine ⟨hs, ?_⟩
      show c.counts ++ [_] = (voteOptions.take (c.counts ++ [_]).length).map _
      rw [List.length_append, List.length_singleton, List.take_add_one, hoption, List.map_append,
        ← hcounts]
      rfl
    · exact hrest d (List.mem_append_right before hd)
  case h_2 hdone =>
    refine ⟨fun p hp => ?_, h.listProposals, h.time, hrest⟩
    rcases mem_patchProposal hp with hp | ⟨q, hq, hid, rfl⟩
    · exact h.rows p hp
    · refine ⟨(h.rows q hq).voting_end, fun hcounted => ?_⟩
      obtain ⟨hs, hcounts⟩ := hc hcounted
      have hall : voteOptions.take c.counts.length = voteOptions :=
        List.take_of_length_le (List.getElem?_eq_none_iff.mp hdone)
      rw [hall] at hcounts
      show Settled gov s.db q.proposal_id ∧
        some (countVote c.counts) = some (tally s.db.vote q.proposal_id)
      rw [hid, hcounts]
      exact ⟨hs, rfl⟩

theorem countInv_step (s : State) (a : Step) (h : CountInv gov s)
    (ha : Answered gov s a ∧ InTime gov s a) : CountInv gov (step gov s a) := by
  obtain ⟨hanswered, hintime⟩ := ha
  cases a with
  | handleVote endBlock txMsgs =>
    have hon := onward_handleVote hanswered
    exact ⟨fun p hp => (h.rows p hp).onward hon,
      fun ps hps p hp => (h.listProposals ps hps p hp).onward hon,
      fun time ht => (h.time time ht).onward hon, fun c hc => (h.counting c hc).onward hon⟩
  | readProposals onchain =>
    refine ⟨h.rows, fun ps hps p hp => ?_, h.time, h.counting⟩
    cases hps
    obtain ⟨a, ha, rfl⟩ := List.mem_map.mp hp
    exact rowOk_proposalEntity
      (fun q hq => ⟨h.rows q (Table.mem_of_get? hq), Table.key_of_get? hq⟩) (hanswered a ha)
  | mergeProposals =>
    rw [step]
    split
    case h_1 => exact h
    case h_2 ps hps =>
      refine ⟨fun p hp => ?_, fun _ h => (by cases h), h.time, h.counting⟩
      rcases Table.mem_rows_upsertAll hp with hp | hp
      · exact h.listProposals ps hps p hp
      · exact h.rows p hp
  | dropProposals => exact ⟨h.rows, fun _ h => (by cases h), h.time, h.counting⟩
  | readCheckpointTime now =>
    refine ⟨h.rows, h.listProposals, fun time ht => ?_, h.counting⟩
    obtain ⟨blockTime, hblock⟩ := Option.isSome_iff_exists.mp hintime
    have ht : some ((checkpointTime gov s.db).getD (now - 10)) = some time := ht
    rw [hblock, Option.getD_some] at ht
    cases ht
    exact timeOk_checkpointTime hblock
  | readVotingProposals =>
    rw [step]
    split
    case h_1 => exact h
    case h_2 time ht =>
      refine ⟨h.rows, h.listProposals, fun _ h => (by cases h), fun c hc => ?_⟩
      rcases List.mem_append.mp hc with hc | hc
      · exact h.counting c hc
      · obtain ⟨p, hp, rfl⟩ := List.mem_map.mp hc
        obtain ⟨hp, hvoting⟩ := List.mem_filter.mp hp
        exact countingOk_startCounting (h.time time ht) (h.rows p hp)
          (isSome_of_isVotingProposal hvoting (hintime p hp))
  | count position =>
    rw [step]
    split
    case h_1 => exact h
    case h_2 c after hdrop =>
      obtain ⟨hc, hrest⟩ := drop_eq_cons hdrop
      exact countInv_continueCounting h (h.counting c hc) fun d hd => h.counting d (hrest d hd)
  | handleEndedProposals now onchain => exact ⟨h.rows, h.listProposals, h.time, h.counting⟩
  | handleNotEnoughDepositProposals now onchain =>
    exact ⟨h.rows, h.listProposals, h.time, h.counting⟩
  | patch position =>
    rw [step]
    split
    case h_1 => exact h
    case h_2 =>
      refine ⟨fun p hp => ?_, h.listProposals, h.time, h.counting⟩
      rcases mem_patchProposal hp with hp | ⟨q, hq, -, rfl⟩
      · exact h.rows p hp
      · exact ⟨(h.rows q hq).voting_end, (h.rows q hq).counted⟩

theorem onward_step (s : State) (a : Step) (ha : Answered gov s a) :
    Onward gov s.db (step gov s a).db := by
  have hsame : ∀ {s' : State}, s'.db = s.db → Onward gov s.db s'.db := fun h => by
    rw [h]
    exact Onward.refl gov s.db
  cases a with
  | handleVote endBlock txMsgs => exact onward_handleVote ha
  | readProposals | dropProposals | readCheckpointTime | handleEndedProposals
  | handleNotEnoughDepositProposals => exact hsame rfl
  | mergeProposals | readVotingProposals | patch =>
    rw [step]
    split <;> exact hsame rfl
  | count position =>
    rw [step]
    split
    case h_1 => exact hsame rfl
    case h_2 =>
      rw [continueCounting]
      split <;> exact hsame rfl

theorem onward_run {steps : List Step}
    (h : Meets (step gov) (fun s a => Answered gov s a ∧ InTime gov s a) s steps) :
    Onward gov s.db (runFrom (step gov) s steps).db := by
  induction steps generalizing s with
  | nil => exact Onward.refl gov s.db
  | cons a steps ih => exact (onward_step s a h.1.1).trans (ih h.2)

end CountLemmas

open CountLemmas

/-! ## 4. The counts are final -/

/-- A chain with one vote, in the block of height `10`. -/
def oneVote : Chain where
  start := 0
  txs := [⟨1, 10, 0, 0, "A", "voter", [voteMsg "VOTE_OPTION_YES"]⟩]
  ids := by decide
  sorted := by simp
  above := by simp

/-- The message of the vote. -/
def oneMessage : TxMsg :=
  ⟨⟨1, 10, 0, 0, "A", "voter", [voteMsg "VOTE_OPTION_YES"]⟩, 0, "/cosmos.gov.v1.MsgVote",
    voteMsg "VOTE_OPTION_YES"⟩

/-- The voting ends at `40`; the block of height `20` is at `50`. -/
def oneVoteGov : Gov where
  chain := oneVote
  blockTime := fun height => if height = 20 then some 50 else none
  votingEnd := fun _ => 40
  votes_in_time := by
    intro m hm height time hblock _
    have hrows : voteRows oneVote = [oneMessage] := rfl
    rw [hrows] at hm
    rw [List.mem_singleton.mp hm]
    split at hblock
    case isTrue heq =>
      rw [heq]
      show 10 ≤ 20
      decide
    case isFalse => cases hblock

/-- The proposal is counted after `HANDLE_VOTE_TX` has passed the end of the voting. -/
def countedSteps : List Step :=
  [.readProposals [⟨1, statusVotingPeriod, some 40, 0⟩], .mergeProposals,
    .handleVote 20 [oneMessage], .readCheckpointTime 0, .readVotingProposals, .count 0, .count 0,
    .count 0, .count 0, .count 0, .count 0]

/-- The row of a proposal that is counted and has ended. -/
def IsClosed (counts : ICountVote) (p : Proposal) : Prop :=
  p.vote_counted = true ∧ p.count_vote = some counts ∧ p.status ≠ statusVotingPeriod

/-- The proposal is counted and has ended, and no job has anything else to write of it. -/
structure Closed (s : State) (proposalId : ℕ) (counts : ICountVote) : Prop where
  row : ∃ p, s.proposal.get? proposalId = some p ∧ IsClosed counts p
  listProposals : ∀ ps, s.listProposals = some ps → ∀ p ∈ ps, p.proposal_id = proposalId →
    IsClosed counts p
  counting : ∀ c ∈ s.counting, c.proposal_id ≠ proposalId
  patchQueries : ∀ q ∈ s.patchQueries, q.1 = proposalId → q.2 ≠ statusVotingPeriod

/-- The node does not answer that the proposal is voted on. -/
def NotVoting (proposalId : ℕ) : Step → Prop
  | .readProposals onchain => ∀ a ∈ onchain, a.proposal_id = proposalId →
      a.status ≠ statusVotingPeriod
  | .handleEndedProposals _ onchain => ∀ a ∈ onchain, a.1 = proposalId → a.2 ≠ statusVotingPeriod
  | _ => True

namespace CountLemmas

variable {gov : Gov} {s : State} {proposalId : ℕ} {counts : ICountVote}

theorem not_isVotingProposal {p : Proposal} (h : IsClosed counts p) (time : ℕ) :
    isVotingProposal time p = false := by
  obtain ⟨hcounted, -, hstatus⟩ := h
  simp [isVotingProposal, hcounted, hstatus]

theorem closed_step (s : State) (a : Step) (h : Closed s proposalId counts)
    (ha : NotVoting proposalId a) : Closed (step gov s a) proposalId counts := by
  obtain ⟨p, hp, hclosed⟩ := h.row
  cases a with
  | handleVote | readCheckpointTime => exact ⟨h.row, h.listProposals, h.counting, h.patchQueries⟩
  | dropProposals => exact ⟨h.row, fun _ h => (by cases h), h.counting, h.patchQueries⟩
  | readProposals onchain =>
    refine ⟨h.row, fun ps hps q hq hid => ?_, h.counting, h.patchQueries⟩
    cases hps
    obtain ⟨a, hmem, rfl⟩ := List.mem_map.mp hq
    have hid' : a.proposal_id = proposalId := by
      rw [← hid]
      cases hfound : s.proposal.get? a.proposal_id with
      | none => rfl
      | some found => exact (Table.key_of_get? hfound).symm
    rw [hid', hp]
    exact ⟨hclosed.1, hclosed.2.1, ha a hmem hid'⟩
  | mergeProposals =>
    rw [step]
    split
    case h_1 => exact h
    case h_2 ps hps =>
      refine ⟨?_, fun _ h => (by cases h), h.counting, h.patchQueries⟩
      show ∃ p, (s.proposal.upsertAll ps).get? proposalId = some p ∧ IsClosed counts p
      rw [Table.get?_upsertAll_eq]
      cases hlast : (ps.filter fun r => r.proposal_id = proposalId).getLast? with
      | none => exact h.row
      | some q =>
        obtain ⟨hq, hid⟩ := List.mem_filter.mp (List.mem_of_getLast? hlast)
        exact ⟨q, rfl, h.listProposals ps hps q hq (of_decide_eq_true hid)⟩
  | readVotingProposals =>
    rw [step]
    split
    case h_1 => exact h
    case h_2 time ht =>
      refine ⟨h.row, h.listProposals, fun c hc => ?_, h.patchQueries⟩
      rcases List.mem_append.mp hc with hc | hc
      · exact h.counting c hc
      · obtain ⟨q, hq, rfl⟩ := List.mem_map.mp hc
        obtain ⟨hq, hvoting⟩ := List.mem_filter.mp hq
        intro hid
        have hsame : s.proposal.get? proposalId = some q := Table.get?_eq_some_iff.mpr ⟨hq, hid⟩
        rw [hp] at hsame
        cases hsame
        rw [not_isVotingProposal hclosed time] at hvoting
        cases hvoting
  | count position =>
    rw [step]
    split
    case h_1 => exact h
    case h_2 c after hdrop =>
      obtain ⟨hc, hrest⟩ := drop_eq_cons hdrop
      have hne := h.counting c hc
      unfold continueCounting
      split
      case h_1 =>
        refine ⟨h.row, h.listProposals, fun d hd => ?_, h.patchQueries⟩
        have hd : d ∈ s.counting.take position ++ _ :: after := hd
        rcases List.mem_append.mp hd with hd | hd
        · exact h.counting d (hrest d (List.mem_append_left after hd))
        rcases List.mem_cons.mp hd with rfl | hd
        · exact hne
        · exact h.counting d (hrest d (List.mem_append_right _ hd))
      case h_2 =>
        refine ⟨⟨p, ?_, hclosed⟩, h.listProposals, fun d hd => h.counting d (hrest d hd),
          h.patchQueries⟩
        show (patchProposal _ _ _).get? proposalId = some p
        rw [get?_patchProposal, if_neg hne.symm, hp]
  | handleEndedProposals now onchain =>
    refine ⟨h.row, h.listProposals, h.counting, fun q hq hid => ?_⟩
    rcases List.mem_append.mp hq with hq | hq
    · exact h.patchQueries q hq hid
    · obtain ⟨r, -, hfind⟩ := List.mem_filterMap.mp hq
      exact ha q (List.mem_of_find?_eq_some hfind) hid
  | handleNotEnoughDepositProposals now onchain =>
    refine ⟨h.row, h.listProposals, h.counting, fun q hq hid => ?_⟩
    rcases List.mem_append.mp hq with hq | hq
    · exact h.patchQueries q hq hid
    · obtain ⟨r, -, rfl⟩ := List.mem_map.mp hq
      show statusNotEnoughDeposit ≠ statusVotingPeriod
      decide
  | patch position =>
    rw [step]
    split
    case h_1 => exact h
    case h_2 id status after hdrop =>
      obtain ⟨hq, hrest⟩ := drop_eq_cons hdrop
      refine ⟨?_, h.listProposals, h.counting, fun q hq => h.patchQueries q (hrest q hq)⟩
      show ∃ p, (patchProposal _ _ _).get? proposalId = some p ∧ IsClosed counts p
      rw [get?_patchProposal, hp]
      split
      case isTrue hid =>
        exact ⟨_, rfl, hclosed.1, hclosed.2.1, h.patchQueries (id, status) hq hid.symm⟩
      case isFalse => exact ⟨p, rfl, hclosed⟩

end CountLemmas

/-- Once a proposal is counted and has ended, and nothing is pending for it, its counts never
change, whatever votes `HANDLE_VOTE_TX` still writes. -/
theorem counted_stays (gov : Gov) (s : State) (proposalId : ℕ) (counts : ICountVote)
    (steps : List Step) (h : Closed s proposalId counts)
    (hsteps : ∀ a ∈ steps, NotVoting proposalId a) :
    ∃ p, (runFrom (step gov) s steps).proposal.get? proposalId = some p ∧
      p.vote_counted = true ∧ p.count_vote = some counts := by
  induction steps generalizing s with
  | nil =>
    obtain ⟨p, hp, hcounted, hcount, -⟩ := h.row
    exact ⟨p, hp, hcounted, hcount⟩
  | cons a steps ih =>
    exact ih (step gov s a) (closed_step s a h (hsteps a List.mem_cons_self))
      fun b hb => hsteps b (List.mem_cons_of_mem a hb)

/-- The proposal is counted before `HANDLE_VOTE_TX` has a checkpoint. -/
def earlySteps : List Step :=
  [.readProposals [⟨1, statusVotingPeriod, some 40, 0⟩], .mergeProposals, .readCheckpointTime 100,
    .readVotingProposals, .count 0, .count 0, .count 0, .count 0, .count 0, .count 0,
    .handleEndedProposals 100 [(1, statusPassed)], .patch 0]

/-- Then the vote is handled, and the next runs find nothing to count. -/
def laterSteps : List Step :=
  [.handleVote 20 [oneMessage], .readCheckpointTime 200, .readVotingProposals, .count 0, .count 0]

/-- The proposal keeps counts without the vote. -/
theorem early_count_stays :
    let s :=
      runFrom (step oneVoteGov) (runFrom (step oneVoteGov) State.initial earlySteps) laterSteps
    (∃ p, s.proposal.get? 1 = some p ∧ p.vote_counted = true ∧
      p.count_vote = some ⟨0, 0, 0, 0, 0⟩) ∧ (tally s.db.vote 1).yes = 1 := by
  intro s
  refine ⟨counted_stays oneVoteGov _ 1 ⟨0, 0, 0, 0, 0⟩ laterSteps ?_ ?_, by decide +kernel⟩
  · exact ⟨⟨⟨1, statusPassed, some 40, 0, some ⟨0, 0, 0, 0, 0⟩, true⟩, by decide +kernel, rfl, rfl,
      by decide⟩, fun _ h => (by cases h), fun _ h => (by cases h), fun _ h => (by cases h)⟩
  · simp [laterSteps, NotVoting]

/-! ## 6. Ended proposals -/

/-- The transactions in front of the position wait. -/
def WaitsBefore (position : ℕ) : Step → Prop
  | .count i => position ≤ i
  | _ => True

/-- The step is a query of the transaction at the position. -/
def isCount (position : ℕ) : Step → Bool
  | .count i => i = position
  | _ => false

namespace CountLemmas

variable {gov : Gov} {s : State} {position : ℕ} {c : Counting}

theorem drop_of_getElem? {l : List Counting} (h : l[position]? = some c) :
    ∃ after, l.drop position = c :: after := by
  cases hdrop : l.drop position with
  | nil =>
    rw [← List.head?_drop, hdrop] at h
    cases h
  | cons d after =>
    rw [← List.head?_drop, hdrop] at h
    cases h
    exact ⟨after, rfl⟩

/-- What stands before a change of the list stays at its position. -/
theorem getElem?_take_append {l rest : List Counting} {i : ℕ} (h : l[position]? = some c)
    (hlt : position < i) : (l.take i ++ rest)[position]? = some c := by
  obtain ⟨hlength, -⟩ := List.getElem?_eq_some_iff.mp h
  rw [List.getElem?_append_left (by rw [List.length_take]; exact lt_min hlt hlength),
    List.getElem?_take_of_lt hlt, h]

/-- A transaction goes on with its own queries, whatever the other jobs do. -/
theorem counting_step (gov : Gov) (s : State) (a : Step) (hc : s.counting[position]? = some c)
    (ha : WaitsBefore position a) (hlength : isCount position a = true → c.counts.length < 5) :
    ∃ d, (step gov s a).counting[position]? = some d ∧ d.proposal_id = c.proposal_id ∧
      d.voteCounted = c.voteCounted ∧
      d.counts.length = c.counts.length + if isCount position a = true then 1 else 0 := by
  cases a with
  | handleVote | readProposals | dropProposals | readCheckpointTime | handleEndedProposals
  | handleNotEnoughDepositProposals => exact ⟨c, hc, rfl, rfl, rfl⟩
  | mergeProposals | patch =>
    rw [step]
    split <;> exact ⟨c, hc, rfl, rfl, rfl⟩
  | readVotingProposals =>
    rw [step]
    split
    case h_1 => exact ⟨c, hc, rfl, rfl, rfl⟩
    case h_2 =>
      refine ⟨c, ?_, rfl, rfl, rfl⟩
      show (s.counting ++ _)[position]? = some c
      rw [List.getElem?_append_left (List.getElem?_eq_some_iff.mp hc).1, hc]
  | count i =>
    rcases Nat.eq_or_lt_of_le (show position ≤ i from ha) with rfl | hlt
    · -- its own query: the next option is there, for fewer than five are counted
      have hown : isCount position (.count position) = true := decide_eq_true rfl
      obtain ⟨after, hdrop⟩ := drop_of_getElem? hc
      obtain ⟨option, hoption⟩ : ∃ option, voteOptions[c.counts.length]? = some option :=
        ⟨_, List.getElem?_eq_getElem (hlength hown)⟩
      rw [step]
      simp only [hdrop, continueCounting, hoption]
      refine ⟨{ c with counts := c.counts ++ [countOf s.db.vote c.proposal_id option] }, ?_, rfl,
        rfl, ?_⟩
      · have htake : (s.counting.take position).length = position := by
          rw [List.length_take, min_eq_left (List.getElem?_eq_some_iff.mp hc).1.le]
        rw [List.getElem?_append_right htake.le, htake, Nat.sub_self]
        rfl
      · rw [if_pos hown, List.length_append, List.length_singleton]
    · have hother : ¬ isCount position (.count i) = true := by
        simpa [isCount] using hlt.ne'
      rw [if_neg hother, step]
      split
      case h_1 => exact ⟨c, hc, rfl, rfl, rfl⟩
      case h_2 =>
        rw [continueCounting]
        split <;> exact ⟨c, getElem?_take_append hc hlt, rfl, rfl, rfl⟩

theorem counting_run (gov : Gov) {steps : List Step} (hc : s.counting[position]? = some c)
    (hwaits : ∀ a ∈ steps, WaitsBefore position a)
    (hlength : c.counts.length + steps.countP (isCount position) ≤ 5) :
    ∃ d, (runFrom (step gov) s steps).counting[position]? = some d ∧
      d.proposal_id = c.proposal_id ∧ d.voteCounted = c.voteCounted ∧
      d.counts.length = c.counts.length + steps.countP (isCount position) := by
  induction steps generalizing s c with
  | nil => exact ⟨c, hc, rfl, rfl, rfl⟩
  | cons a steps ih =>
    rw [List.countP_cons] at hlength
    obtain ⟨d, hd, hid, hcounted, hdlength⟩ := counting_step gov s a hc
      (hwaits a List.mem_cons_self) fun hown => by rw [if_pos hown] at hlength; omega
    obtain ⟨e, he, heid, hecounted, helength⟩ := ih hd
      (fun b hb => hwaits b (List.mem_cons_of_mem a hb)) (by omega)
    refine ⟨e, he, heid.trans hid, hecounted.trans hcounted, ?_⟩
    rw [List.countP_cons, helength, hdlength]
    omega

/-- Rows of `proposal` are never deleted. -/
theorem isSome_step (s : State) (a : Step) (proposalId : ℕ)
    (h : (s.proposal.get? proposalId).isSome) :
    ((step gov s a).proposal.get? proposalId).isSome := by
  have hpatch : ∀ id patch, ((patchProposal s.proposal id patch).get? proposalId).isSome := by
    intro id patch
    rw [get?_patchProposal]
    split
    · rwa [Option.isSome_map]
    · exact h
  cases a with
  | handleVote | readProposals | dropProposals | readCheckpointTime | handleEndedProposals
  | handleNotEnoughDepositProposals => exact h
  | mergeProposals =>
    rw [step]
    split
    case h_1 => exact h
    case h_2 ps _ =>
      show ((s.proposal.upsertAll ps).get? proposalId).isSome
      rw [Table.get?_upsertAll_eq, Option.isSome_or, h, Bool.or_true]
  | readVotingProposals =>
    rw [step]
    split <;> exact h
  | count position =>
    rw [step]
    split
    case h_1 => exact h
    case h_2 =>
      rw [continueCounting]
      split
      case h_1 => exact h
      case h_2 => exact hpatch _ _
  | patch position =>
    rw [step]
    split
    case h_1 => exact h
    case h_2 => exact hpatch _ _

end CountLemmas

/-- When `COUNT_VOTE_PROPOSAL` finds a proposal that has ended by its time and is not counted, then
the proposal is marked as counted with the last of the six queries of its transaction, whatever the
jobs do between them, as long as the transactions in front of it wait. -/
theorem ended_is_counted (gov : Gov) (s : State) (time : ℕ) (p : Proposal)
    (htime : s.latestCheckpointTime = some time) (hp : p ∈ s.proposal.rows)
    (hstatus : p.status ∈ [statusFailed, statusPassed, statusRejected])
    (hend : p.voting_end_time.any (· ≤ time) = true) (hcounted : p.vote_counted = false) :
    ∃ position, ∀ steps : List Step, (∀ a ∈ steps, WaitsBefore position a) →
      steps.countP (isCount position) = 5 →
      ∃ q, (runFrom (step gov) s (.readVotingProposals :: steps ++ [.count position])).proposal.get?
        p.proposal_id = some q ∧ q.vote_counted = true := by
  have hvoting : isVotingProposal time p = true := by
    rw [isVotingProposal, decide_eq_true hstatus, hend, hcounted]
    simp
  have hflag : (startCounting time p).voteCounted = true := by
    cases hsome : p.voting_end_time with
    | none =>
      rw [hsome] at hend
      cases hend
    | some votingEnd =>
      rw [hsome] at hend
      show decide (p.voting_end_time.getD 0 ≤ time) = true
      rw [hsome]
      exact hend
  have hread : (step gov s .readVotingProposals).counting = s.counting ++
      (s.proposal.rows.filter (isVotingProposal time)).map (startCounting time) := by
    rw [step]
    simp only [htime]
  have hmem : startCounting time p ∈ (step gov s .readVotingProposals).counting := by
    rw [hread]
    exact List.mem_append_right _ (List.mem_map_of_mem (List.mem_filter.mpr ⟨hp, hvoting⟩))
  obtain ⟨position, hposition⟩ := List.getElem?_of_mem hmem
  refine ⟨position, fun steps hwaits hfive => ?_⟩
  obtain ⟨c, hc, hid, hcflag, hlength⟩ := counting_run gov hposition hwaits
    (by rw [hfive]; rfl)
  rw [hfive] at hlength
  have hid : c.proposal_id = p.proposal_id := hid
  have hrow : ((runFrom (step gov) (step gov s .readVotingProposals) steps).proposal.get?
      p.proposal_id).isSome :=
    runFrom_invariant (fun s a => isSome_step s a p.proposal_id) (isSome_step s _ _
      (Option.isSome_of_eq_some (Table.get?_eq_some_iff.mpr ⟨hp, rfl⟩))) steps
  obtain ⟨q, hq⟩ := Option.isSome_iff_exists.mp hrow
  obtain ⟨after, hdrop⟩ := drop_of_getElem? hc
  have hdone : voteOptions[c.counts.length]? = none := by rw [hlength]; rfl
  rw [List.cons_append, runFrom_cons, runFrom_append, runFrom_cons, runFrom_nil]
  generalize runFrom (step gov) (step gov s .readVotingProposals) steps = t at hq hdrop ⊢
  rw [step]
  simp only [hdrop, continueCounting, hdone]
  rw [get?_patchProposal, if_pos hid.symm, hq]
  exact ⟨_, rfl, hcflag.trans hflag⟩

/-- The vote is handled and the proposal has passed. -/
def passedSteps : List Step :=
  [.readProposals [⟨1, statusPassed, some 40, 0⟩], .mergeProposals, .handleVote 20 [oneMessage],
    .readCheckpointTime 0]

/-- Its transaction marks the proposal. -/
theorem passed_is_counted :
    ∃ position, ∀ steps : List Step, (∀ a ∈ steps, WaitsBefore position a) →
      steps.countP (isCount position) = 5 →
      ∃ q, (runFrom (step oneVoteGov) (runFrom (step oneVoteGov) State.initial passedSteps)
        (.readVotingProposals :: steps ++ [.count position])).proposal.get? 1 = some q ∧
        q.vote_counted = true :=
  ended_is_counted oneVoteGov (runFrom (step oneVoteGov) State.initial passedSteps) 50
    ⟨1, statusPassed, some 40, 0, none, false⟩ (by decide +kernel) (by decide +kernel) (by decide)
    (by decide) rfl

end Erascope.CrawlProposal
