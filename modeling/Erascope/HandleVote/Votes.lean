import Mathlib.Data.Prod.Lex
import Mathlib.Tactic
import Erascope.Lib.Order
import Erascope.CrawlTx.Authz

/-!
# The last vote of a voter

The model of `services/handle-vote/handle_vote_tx.service.ts`. A run reads the vote messages of its
range, sorted by height and by the index of the message, and writes them one after the other; a
vote replaces the stored one of its voter and proposal unless that one is from a higher block.

The chain executes the messages of a block transaction by transaction and, inside a `MsgExec`, in
the order of `msgs`. The index that the job sorts by is the position in the transaction for a
message of its own, and the position in `msgs` for one that `HANDLE_AUTHZ_TX` took out of a
`MsgExec`; the transaction's place in the block is not used, and a `MsgExec` inside a `MsgExec` is
never opened.

Results:
1. `last_votes_iff`: for any ranges, all runs leave the last vote of every voter, if and only if
   the visible votes that no visible vote of the same voter outranks by height and index all agree
   with the last vote.
2. `earlier_tx_wins`: a vote in the second message of a transaction survives a later one.
-/

namespace Erascope.HandleVote

open Checkpoint Authz

/-! ## 1. The chain -/

/-- The fields of a vote message that the job reads. -/
structure VoteContent where
  voter : String
  proposal_id : ℕ
  option : String
deriving DecidableEq, Repr

/-- The content of a message: its `@type`, the fields of a vote and, for a `MsgExec`, `msgs`. -/
inductive Msg
  | mk (type : String) (vote : VoteContent) (msgs : List Msg)

namespace Msg

def type : Msg → String
  | mk type _ _ => type

def vote : Msg → VoteContent
  | mk _ vote _ => vote

def msgs : Msg → List Msg
  | mk _ _ msgs => msgs

end Msg

instance : MessageContent Msg := ⟨Msg.type, Msg.msgs⟩

/-- `MSG_TYPE.MSG_VOTE` and `MSG_TYPE.MSG_VOTE_V1` -/
def voteTypes : List String := ["/cosmos.gov.v1beta1.MsgVote", "/cosmos.gov.v1.MsgVote"]

/-- A transaction in its block. -/
structure Tx where
  id : ℕ
  height : ℕ
  index : ℕ
  code : ℕ
  hash : String
  sender : String
  msgs : List Msg

/-- The transactions above the block at which the index starts, in the order of execution. -/
structure Chain where
  start : ℕ
  txs : List Tx
  ids : (txs.map (·.id)).Nodup
  sorted : txs.Pairwise fun a b => a.height < b.height ∨ a.height = b.height ∧ a.index < b.index
  above : ∀ tx ∈ txs, start < tx.height

/-- A vote that the chain executes: `depth` counts the `MsgExec` around it, and `index` is its
position in the innermost of them, or in the transaction. -/
structure ChainVote where
  tx : Tx
  depth : ℕ
  index : ℕ
  content : Msg

mutual
/-- The votes of a message, in the order of execution. -/
def votesOf (tx : Tx) (depth index : ℕ) : Msg → List ChainVote
  | .mk type vote msgs =>
    if type ∈ voteTypes then [⟨tx, depth, index, .mk type vote msgs⟩]
    else if type = msgAuthzExec then votesOfAll tx (depth + 1) 0 msgs
    else []

/-- The votes of messages from `index` on. -/
def votesOfAll (tx : Tx) (depth index : ℕ) : List Msg → List ChainVote
  | [] => []
  | msg :: msgs => votesOf tx depth index msg ++ votesOfAll tx depth (index + 1) msgs
end

/-- The votes of the successful transactions, in the order of the chain. -/
def chainVotes (chain : Chain) : List ChainVote :=
  (chain.txs.filter fun tx => tx.code = 0).flatMap fun tx => votesOfAll tx 0 0 tx.msgs

/-! ## 2. The stored messages -/

/-- The messages that `HANDLE_TRANSACTION` stores for a transaction. -/
def topMessages (tx : Tx) : List (NewMessage Msg) :=
  tx.msgs.mapIdx fun index msg =>
    { tx_id := tx.id
      index := index
      type := msg.type
      content := msg
      parent_id := none
      sender := tx.sender }

/-- The table `transaction`. -/
def transactionTable (chain : Chain) : Table Authz.Transaction.id :=
  Table.empty.upsertAll (chain.txs.map fun tx => ⟨tx.id, tx.height, tx.hash⟩)

/-- The height up to which the chain is stored. -/
def topHeight (chain : Chain) : ℕ := (chain.txs.map (·.height)).foldr max chain.start

/-- The table `transaction_message` after `HANDLE_TRANSACTION` and `HANDLE_AUTHZ_TX`. -/
def messageTable (chain : Chain) : Messages Msg :=
  let t := Messages.empty.insert (chain.txs.flatMap topMessages)
  t.insert (listSubTxAuthz (transactionTable chain) t chain.start (topHeight chain))

/-- A row of `transaction_message` joined with its transaction. -/
structure TxMsg where
  tx : Tx
  index : ℕ
  type : String
  content : Msg

/-- `joinRelated('transaction')` -/
def join (chain : Chain) (m : NewMessage Msg) : Option TxMsg :=
  (chain.txs.find? (·.id = m.tx_id)).map fun tx => ⟨tx, m.index, m.type, m.content⟩

/-- The conditions of the query other than the range. -/
def TxMsg.isVote (m : TxMsg) : Bool := decide (m.type ∈ voteTypes) && decide (m.tx.code = 0)

/-- The vote messages of successful transactions. -/
def voteRows (chain : Chain) : List TxMsg :=
  ((messageTable chain).rows.filterMap fun m => join chain m.toNewMessage).filter TxMsg.isVote

/-- The columns of `orderBy`. -/
def TxMsg.rank (m : TxMsg) : ℕ ×ₗ ℕ := toLex (m.tx.height, m.index)

/-! ## 3. The job -/

/-- A row of `vote`. -/
structure Vote where
  voter : String
  txhash : String
  proposal_id : ℕ
  vote_option : String
  height : ℕ
  tx_id : ℕ
deriving DecidableEq, Repr

/-- The unique key of `vote`. -/
def Vote.key (v : Vote) : ℕ × String := (v.proposal_id, v.voter)

/-- The row of a message. -/
def TxMsg.toVote (m : TxMsg) : Vote where
  voter := m.content.vote.voter
  txhash := m.tx.hash
  proposal_id := m.content.vote.proposal_id
  vote_option := m.content.vote.option
  height := m.tx.height
  tx_id := m.tx.id

/-- `insert(vote).onConflict(['proposal_id', 'voter']).merge([...]).where('vote.height', '<=', ...)` -/
def insertVote (t : Table Vote.key) (vote : Vote) : Table Vote.key :=
  match t.get? vote.key with
  | none => t.upsert vote
  | some old =>
    if old.height ≤ vote.height then
      t.upsert { old with
        vote_option := vote.vote_option
        height := vote.height
        tx_id := vote.tx_id
        txhash := vote.txhash }
    else t

/-- The tables that the job writes. -/
structure Db where
  vote : Table Vote.key
  block_checkpoint : Checkpoints BullJobName

/-- The height from which the next run starts. -/
def reached (chain : Chain) (db : Db) : ℕ :=
  startHeight chain.start db.block_checkpoint .handleVoteTx

/-- `handleVote` for a range up to `endBlock`, when the query returns `txMsgs`. -/
def handleVote (chain : Chain) (db : Db) (endBlock : ℕ) (txMsgs : List TxMsg) : Db :=
  let startBlock := reached chain db
  if endBlock < startBlock then db
  else
    { vote := (txMsgs.map TxMsg.toVote).foldl insertVote db.vote
      block_checkpoint := storeCheckpoint db.block_checkpoint ⟨.handleVoteTx, startBlock⟩ endBlock }

/-- The runs up to the heights `ends`, whatever order the queries return ties in. -/
inductive Runs (chain : Chain) : Db → List ℕ → Db → Prop
  | nil (db : Db) : Runs chain db [] db
  | cons {db db' : Db} {endBlock : ℕ} {ends : List ℕ} {txMsgs : List TxMsg} :
      Returned TxMsg.rank
        (between (·.tx.height) (reached chain db) endBlock (voteRows chain)) txMsgs →
      Runs chain (handleVote chain db endBlock txMsgs) ends db' → Runs chain db (endBlock :: ends) db'

/-- The tables before the first run. -/
def initialDb : Db := ⟨Table.empty, Table.empty⟩

/-! ## 4. The property -/

/-- The row as which the job sees a vote. -/
def ChainVote.txMsg (v : ChainVote) : TxMsg := ⟨v.tx, v.index, v.content.type, v.content⟩

/-- The votes of a voter on a proposal up to a height, in the order of the chain. -/
def votesUpTo (chain : Chain) (height : ℕ) (k : ℕ × String) : List ChainVote :=
  (chainVotes chain).filter fun v => v.tx.height ≤ height ∧ v.txMsg.toVote.key = k

/-- The last of them. -/
def lastVote (chain : Chain) (height : ℕ) (k : ℕ × String) : Option Vote :=
  ((votesUpTo chain height k).getLast?).map (·.txMsg.toVote)

/-- Every voter's row holds the last vote of the blocks that are indexed. -/
def VotesRight (chain : Chain) (db : Db) : Prop :=
  ∀ k, db.vote.get? k = lastVote chain (reached chain db) k

/-- A message of a transaction or of one of its `MsgExec` has a row of its own. -/
def ChainVote.visible (v : ChainVote) : Bool := decide (v.depth ≤ 1)

/-- No visible vote of the same voter and proposal has a higher height and index. -/
def Unbeaten (chain : Chain) (height : ℕ) (k : ℕ × String) (v : ChainVote) : Prop :=
  v ∈ (votesUpTo chain height k).filter ChainVote.visible ∧
    ∀ w ∈ (votesUpTo chain height k).filter ChainVote.visible, w.txMsg.rank ≤ v.txMsg.rank

/-- Whoever votes has a visible vote, and those that are not outranked agree with the last vote. -/
def LastVoteRanksHighest (chain : Chain) (height : ℕ) : Prop :=
  ∀ k last, lastVote chain height k = some last →
    (∃ v, Unbeaten chain height k v) ∧ ∀ v, Unbeaten chain height k v → v.txMsg.toVote = last

namespace VotesLemmas

/-! ### The rows of the messages -/

section
variable {chain : Chain}

theorem find?_tx {tx : Tx} (htx : tx ∈ chain.txs) :
    chain.txs.find? (fun x => x.id = tx.id) = some tx := by
  rw [← List.head?_filter, filter_key_eq chain.ids htx]
  rfl

/-- Ids do not matter to the join. -/
theorem filterMap_withIds {β : Type} (f : NewMessage Msg → Option β) (n : ℕ)
    (new : List (NewMessage Msg)) :
    (withIds n new).filterMap (fun m => f m.toNewMessage) = new.filterMap f := by
  conv_rhs => rw [← map_withIds n new, List.filterMap_map]
  rfl

theorem flatMap_withIds {β : Type} (f : NewMessage Msg → List β) (p : NewMessage Msg → Bool) (n : ℕ)
    (new : List (NewMessage Msg)) :
    ((withIds n new).filter fun m => p m.toNewMessage).flatMap (fun m => f m.toNewMessage) =
      (new.filter p).flatMap f := by
  conv_rhs => rw [← map_withIds n new, List.filter_map, List.flatMap_map]
  rfl

/-- The rows of messages, numbered from `i` on. -/
def rowsFrom (tx : Tx) (i : ℕ) (msgs : List Msg) : List TxMsg :=
  (msgs.zipIdx i).map fun x => ⟨tx, x.2, x.1.type, x.1⟩

theorem join_mapIdx {tx : Tx} (htx : tx ∈ chain.txs) {f : ℕ → Msg → NewMessage Msg}
    (hf : ∀ i msg, join chain (f i msg) =
      (chain.txs.find? (·.id = tx.id)).map fun tx => ⟨tx, i, msg.type, msg⟩) (msgs : List Msg) :
    (msgs.mapIdx f).filterMap (join chain) = rowsFrom tx 0 msgs := by
  have hrow : ∀ x ∈ msgs.zipIdx, (join chain ∘ fun x : Msg × ℕ => f x.2 x.1) x =
      some (⟨tx, x.2, x.1.type, x.1⟩ : TxMsg) := by
    intro x _
    rw [Function.comp_apply, hf, find?_tx htx]
    rfl
  rw [List.mapIdx_eq_zipIdx_map, List.filterMap_map]
  refine (List.filterMap_congr hrow).trans ?_
  rw [List.filterMap_eq_map', rowsFrom]

theorem join_topMessages {tx : Tx} (htx : tx ∈ chain.txs) :
    (topMessages tx).filterMap (join chain) = rowsFrom tx 0 tx.msgs :=
  join_mapIdx htx (fun _ _ => rfl) tx.msgs

theorem join_subMessages {tx : Tx} (htx : tx ∈ chain.txs) {m : Authz.TransactionMessage Msg}
    (hm : m.tx_id = tx.id) :
    (subMessages m).filterMap (join chain) = rowsFrom tx 0 m.content.msgs := by
  refine join_mapIdx htx (fun i msg => ?_) m.content.msgs
  rw [join, hm]
  rfl

theorem mem_topMessages {tx : Tx} {m : NewMessage Msg} (h : m ∈ topMessages tx) :
    m.tx_id = tx.id ∧ m.parent_id = none := by
  obtain ⟨i, hi, rfl⟩ := List.mem_mapIdx.mp h
  exact ⟨rfl, rfl⟩

theorem type_of_mem_topMessages {tx : Tx} {m : NewMessage Msg} (h : m ∈ topMessages tx) :
    m.type = m.content.type := by
  obtain ⟨i, hi, rfl⟩ := List.mem_mapIdx.mp h
  rfl

theorem le_topHeight {tx : Tx} (htx : tx ∈ chain.txs) : tx.height ≤ topHeight chain := by
  have hle : ∀ (l : List ℕ) (n s : ℕ), n ∈ l → n ≤ l.foldr max s := by
    intro l n s hn
    induction l with
    | nil => cases hn
    | cons x xs ih =>
      rcases List.mem_cons.mp hn with rfl | hn
      · exact le_max_left _ _
      · exact (ih hn).trans (le_max_right _ _)
  exact hle _ _ _ (List.mem_map_of_mem htx)

theorem transaction_get? {tx : Tx} (htx : tx ∈ chain.txs) :
    (transactionTable chain).get? tx.id = some ⟨tx.id, tx.height, tx.hash⟩ := by
  refine Table.get?_upsertAll_of_mem (r := (⟨tx.id, tx.height, tx.hash⟩ : Authz.Transaction))
    (List.mem_map.mpr ⟨tx, htx, rfl⟩) ?_
  intro r hr hid
  obtain ⟨tx', htx', rfl⟩ := List.mem_map.mp hr
  rw [List.inj_on_of_nodup_map chain.ids htx' htx hid]

/-- The `MsgExec` that the chain has at top level. -/
theorem listTxMsgs_eq (n : ℕ) (t : Messages Msg)
    (ht : t.rows = withIds n (chain.txs.flatMap topMessages)) :
    listTxMsgs (transactionTable chain) t chain.start (topHeight chain) =
      t.rows.filter fun m => m.type = msgAuthzExec := by
  refine List.filter_congr fun m hm => ?_
  obtain ⟨tx, htx, hmem⟩ := List.mem_flatMap.mp (mem_of_mem_withIds (ht ▸ hm))
  obtain ⟨hid, hparent⟩ := mem_topMessages hmem
  have hheight : heightOfMessage (transactionTable chain) m = some tx.height := by
    rw [heightOfMessage, hid, transaction_get? htx]
    rfl
  have hrange : ∃ h ∈ heightOfMessage (transactionTable chain) m,
      chain.start < h ∧ h ≤ topHeight chain :=
    ⟨tx.height, hheight, chain.above tx htx, le_topHeight htx⟩
  rw [decide_eq_true hrange, decide_eq_true hparent, Bool.true_and, Bool.and_true]

/-- The rows that the job can see of a transaction. -/
def txRows (tx : Tx) : List TxMsg :=
  rowsFrom tx 0 tx.msgs ++
    (tx.msgs.filter fun m => m.type = msgAuthzExec).flatMap fun m => rowsFrom tx 0 m.msgs

/-- The `MsgExec` of the stored messages, taken transaction by transaction. -/
theorem flatMap_topMessages {β : Type} {f : NewMessage Msg → List β} {g : Tx → Msg → List β}
    (hf : ∀ tx ∈ chain.txs, ∀ m ∈ topMessages tx, f m = g tx m.content) :
    ((chain.txs.flatMap topMessages).filter fun m => m.type = msgAuthzExec).flatMap f =
      chain.txs.flatMap fun tx => (tx.msgs.filter fun m => m.type = msgAuthzExec).flatMap (g tx) := by
  rw [List.filter_flatMap, List.flatMap_assoc]
  refine List.flatMap_congr fun tx htx => ?_
  have hcontent : (topMessages tx).map (·.content) = tx.msgs := by
    rw [topMessages, List.mapIdx_eq_zipIdx_map, List.map_map]
    exact List.zipIdx_map_fst 0 tx.msgs
  have htype : (topMessages tx).filter (fun m => m.type = msgAuthzExec) =
      (topMessages tx).filter fun m => m.content.type = msgAuthzExec := by
    refine List.filter_congr fun m hm => ?_
    rw [type_of_mem_topMessages hm]
  rw [htype]
  conv_rhs => rw [← hcontent, List.filter_map, List.flatMap_map]
  exact List.flatMap_congr fun m hm => hf tx htx m (List.mem_of_mem_filter hm)

/-- The rows that the sub-messages of a stored message become. -/
def subRows (chain : Chain) (m : NewMessage Msg) : List TxMsg :=
  match chain.txs.find? (·.id = m.tx_id) with
  | none => []
  | some tx => rowsFrom tx 0 m.content.msgs

theorem subRows_eq {tx : Tx} (htx : tx ∈ chain.txs) {m : NewMessage Msg} (hm : m.tx_id = tx.id) :
    subRows chain m = rowsFrom tx 0 m.content.msgs := by
  rw [subRows, hm, find?_tx htx]

theorem join_listSubTxAuthz (n : ℕ) (t : Messages Msg)
    (ht : t.rows = withIds n (chain.txs.flatMap topMessages)) :
    (listSubTxAuthz (transactionTable chain) t chain.start (topHeight chain)).filterMap
        (join chain) =
      chain.txs.flatMap fun tx =>
        (tx.msgs.filter fun m => m.type = msgAuthzExec).flatMap fun m => rowsFrom tx 0 m.msgs := by
  rw [listSubTxAuthz, listTxMsgs_eq n t ht, List.filterMap_flatMap]
  have hrows : ∀ m ∈ t.rows.filter fun m => m.type = msgAuthzExec,
      (subMessages m).filterMap (join chain) = subRows chain m.toNewMessage := by
    intro m hm
    have hmem := mem_of_mem_withIds (ht ▸ List.mem_of_mem_filter hm)
    obtain ⟨tx, htx, hmem⟩ := List.mem_flatMap.mp hmem
    have hid := (mem_topMessages hmem).1
    rw [join_subMessages htx hid, subRows_eq htx hid]
  rw [List.flatMap_congr hrows, ht,
    flatMap_withIds (subRows chain) (fun m => decide (m.type = msgAuthzExec))]
  exact flatMap_topMessages fun tx htx m hm => subRows_eq htx (mem_topMessages hm).1

/-- The job sees the messages of the transactions and those directly inside a `MsgExec`. -/
theorem joined_perm (chain : Chain) :
    ((messageTable chain).rows.filterMap fun m => join chain m.toNewMessage).Perm
      (chain.txs.flatMap txRows) := by
  have htop : (chain.txs.flatMap topMessages).filterMap (join chain) =
      chain.txs.flatMap fun tx => rowsFrom tx 0 tx.msgs := by
    rw [List.filterMap_flatMap]
    exact List.flatMap_congr fun tx htx => join_topMessages htx
  have hsub : (listSubTxAuthz (transactionTable chain)
        (Messages.empty.insert (chain.txs.flatMap topMessages)) chain.start
        (topHeight chain)).filterMap (join chain) =
      chain.txs.flatMap fun tx =>
        (tx.msgs.filter fun m => m.type = msgAuthzExec).flatMap fun m => rowsFrom tx 0 m.msgs := by
    exact join_listSubTxAuthz 1 _ rfl
  rw [messageTable]
  simp only [Messages.rows_insert, List.filterMap_append, filterMap_withIds, hsub]
  rw [show (Messages.empty : Messages Msg).rows = [] from rfl, List.filterMap_nil, List.nil_append,
    htop]
  exact List.flatMap_append_perm _ _ _

end

/-! ### The visible votes -/

section
variable {tx : Tx}

mutual
theorem depth_le_of_mem_votesOf {d i : ℕ} {msg : Msg} {v : ChainVote}
    (h : v ∈ votesOf tx d i msg) : d ≤ v.depth := by
  cases msg with
  | mk type vote msgs =>
    rw [votesOf] at h
    split at h
    · rw [List.mem_singleton.mp h]
    · split at h
      · exact (Nat.le_succ d).trans (depth_le_of_mem_votesOfAll h)
      · cases h

theorem depth_le_of_mem_votesOfAll {d i : ℕ} {msgs : List Msg} {v : ChainVote}
    (h : v ∈ votesOfAll tx d i msgs) : d ≤ v.depth := by
  cases msgs with
  | nil => cases h
  | cons msg msgs =>
    rw [votesOfAll] at h
    rcases List.mem_append.mp h with h | h
    · exact depth_le_of_mem_votesOf h
    · exact depth_le_of_mem_votesOfAll h
end

mutual
theorem tx_of_mem_votesOf {d i : ℕ} {msg : Msg} {v : ChainVote}
    (h : v ∈ votesOf tx d i msg) : v.tx = tx := by
  cases msg with
  | mk type vote msgs =>
    rw [votesOf] at h
    split at h
    · rw [List.mem_singleton.mp h]
    · split at h
      · exact tx_of_mem_votesOfAll h
      · cases h

theorem tx_of_mem_votesOfAll {d i : ℕ} {msgs : List Msg} {v : ChainVote}
    (h : v ∈ votesOfAll tx d i msgs) : v.tx = tx := by
  cases msgs with
  | nil => cases h
  | cons msg msgs =>
    rw [votesOfAll] at h
    rcases List.mem_append.mp h with h | h
    · exact tx_of_mem_votesOf h
    · exact tx_of_mem_votesOfAll h
end

theorem votesOf_eq (d i : ℕ) (msg : Msg) :
    votesOf tx d i msg =
      if msg.type ∈ voteTypes then [⟨tx, d, i, msg⟩]
      else if msg.type = msgAuthzExec then votesOfAll tx (d + 1) 0 msg.msgs
      else [] := by
  cases msg
  rw [votesOf]
  rfl

/-- A row of a vote message. -/
def voteRow (m : TxMsg) : Bool := decide (m.type ∈ voteTypes)

theorem voteRow_iff (i : ℕ) (msg : Msg) :
    voteRow ⟨tx, i, msg.type, msg⟩ = true ↔ msg.type ∈ voteTypes :=
  decide_eq_true_iff

theorem rowsFrom_cons (i : ℕ) (msg : Msg) (msgs : List Msg) :
    rowsFrom tx i (msg :: msgs) = ⟨tx, i, msg.type, msg⟩ :: rowsFrom tx (i + 1) msgs := by
  rw [rowsFrom, List.zipIdx_cons, List.map_cons]
  rfl

theorem not_voteTypes_msgAuthzExec : msgAuthzExec ∉ voteTypes := by decide

/-- Inside a `MsgExec` only the direct votes are visible. -/
theorem visible_sub (i : ℕ) (msgs : List Msg) :
    ((votesOfAll tx 1 i msgs).filter ChainVote.visible).map ChainVote.txMsg =
      (rowsFrom tx i msgs).filter voteRow := by
  induction msgs generalizing i with
  | nil => rfl
  | cons msg msgs ih =>
    rw [votesOfAll, List.filter_append, List.map_append, ih, rowsFrom_cons, votesOf_eq]
    by_cases hvote : msg.type ∈ voteTypes
    · rw [if_pos hvote, List.filter_cons_of_pos ((voteRow_iff i msg).mpr hvote)]
      rfl
    · have hnil : (if msg.type = msgAuthzExec then votesOfAll tx (1 + 1) 0 msg.msgs else []).filter
          ChainVote.visible = [] := by
        rw [List.filter_eq_nil_iff]
        intro v hv
        split at hv
        · have := depth_le_of_mem_votesOfAll hv
          simp only [ChainVote.visible, decide_eq_true_eq]
          omega
        · cases hv
      rw [if_neg hvote, List.filter_cons_of_neg (mt (voteRow_iff i msg).mp hvote), hnil]
      rfl

/-- The visible votes of a transaction are its rows. -/
theorem visible_top (i : ℕ) (msgs : List Msg) :
    (((votesOfAll tx 0 i msgs).filter ChainVote.visible).map ChainVote.txMsg).Perm
      ((rowsFrom tx i msgs ++
        (msgs.filter fun m => m.type = msgAuthzExec).flatMap fun m => rowsFrom tx 0 m.msgs).filter
          voteRow) := by
  induction msgs generalizing i with
  | nil => exact List.Perm.refl _
  | cons msg msgs ih =>
    have ih := ih (i + 1)
    rw [List.filter_append] at ih
    rw [votesOfAll, List.filter_append, List.map_append, rowsFrom_cons, votesOf_eq, List.cons_append]
    by_cases hvote : msg.type ∈ voteTypes
    · have hexec : ¬ msg.type = msgAuthzExec := fun h => not_voteTypes_msgAuthzExec (h ▸ hvote)
      rw [if_pos hvote, List.filter_cons_of_pos ((voteRow_iff i msg).mpr hvote),
        List.filter_cons_of_neg (p := fun m : Msg => m.type = msgAuthzExec) (by simpa using hexec),
        List.filter_append]
      exact ih.cons _
    · rw [if_neg hvote, List.filter_cons_of_neg (mt (voteRow_iff i msg).mp hvote),
        List.filter_append]
      by_cases hexec : msg.type = msgAuthzExec
      · rw [if_pos hexec, List.filter_cons_of_pos (by simpa using hexec), List.flatMap_cons,
          List.filter_append, visible_sub]
        -- the rows of the sub-messages come after those of the transaction
        refine (ih.append_left _).trans ?_
        rw [← List.append_assoc, ← List.append_assoc]
        exact List.perm_append_comm.append_right _
      · rw [if_neg hexec, List.filter_cons_of_neg (by simpa using hexec)]
        exact ih

theorem tx_of_mem_rowsFrom {i : ℕ} {msgs : List Msg} {m : TxMsg} (h : m ∈ rowsFrom tx i msgs) :
    m.tx = tx := by
  obtain ⟨x, -, rfl⟩ := List.mem_map.mp h
  rfl

theorem tx_of_mem_txRows {m : TxMsg} (h : m ∈ txRows tx) : m.tx = tx := by
  rcases List.mem_append.mp h with h | h
  · exact tx_of_mem_rowsFrom h
  · obtain ⟨msg, -, h⟩ := List.mem_flatMap.mp h
    exact tx_of_mem_rowsFrom h

end

/-- The rows that the job reads are the visible votes. -/
theorem voteRows_perm (chain : Chain) :
    (voteRows chain).Perm
      (((chainVotes chain).filter ChainVote.visible).map ChainVote.txMsg) := by
  have hrows : (chain.txs.flatMap txRows).filter TxMsg.isVote =
      (chain.txs.filter fun tx => tx.code = 0).flatMap fun tx => (txRows tx).filter voteRow := by
    rw [List.filter_flatMap, flatMap_filter]
    refine List.flatMap_congr fun tx _ => ?_
    by_cases hcode : tx.code = 0
    · rw [if_pos (by simpa using hcode)]
      refine List.filter_congr fun m hm => ?_
      rw [TxMsg.isVote, tx_of_mem_txRows hm, decide_eq_true hcode, Bool.and_true]
      rfl
    · rw [if_neg (by simpa using hcode), List.filter_eq_nil_iff]
      intro m hm
      rw [TxMsg.isVote, tx_of_mem_txRows hm, decide_eq_false hcode, Bool.and_false]
      exact Bool.false_ne_true
  rw [chainVotes, List.filter_flatMap, List.map_flatMap]
  refine ((joined_perm chain).filter _).trans ?_
  rw [hrows]
  exact List.Perm.flatMap_left _ fun tx _ => (visible_top 0 tx.msgs).symm

/-! ### The runs -/

/-- Votes that come in the order of their heights are written one after the other. -/
theorem foldl_insertVote {t : Table Vote.key} {votes : List Vote}
    (ht : ∀ r ∈ t.rows, ∀ v ∈ votes, r.height ≤ v.height)
    (hsorted : votes.Pairwise fun a b => a.height ≤ b.height) :
    votes.foldl insertVote t = t.upsertAll votes := by
  induction votes generalizing t with
  | nil => rfl
  | cons vote votes ih =>
    obtain ⟨hfirst, hsorted⟩ := List.pairwise_cons.mp hsorted
    have hinsert : insertVote t vote = t.upsert vote := by
      rw [insertVote]
      cases hget : t.get? vote.key with
      | none => rfl
      | some old =>
        have hkey : old.key = vote.key := Table.key_of_get? hget
        have hle := ht old (Table.mem_of_get? hget) vote List.mem_cons_self
        rw [Vote.key, Vote.key, Prod.mk.injEq] at hkey
        simp only [if_pos hle, hkey.1, hkey.2]
    rw [List.foldl_cons, hinsert, Table.upsertAll, List.foldl_cons]
    refine ih (fun r hr v hv => ?_) hsorted
    rcases Table.mem_rows_upsert.mp hr with rfl | ⟨hr, -⟩
    · exact hfirst v hv
    · exact ht r hr v (List.mem_cons_of_mem _ hv)

theorem rank_le_of_height_lt {a b : TxMsg} (h : a.tx.height < b.tx.height) : a.rank ≤ b.rank :=
  (Prod.Lex.toLex_le_toLex.mpr (.inl h))

theorem height_le_of_rank_le {a b : TxMsg} (h : a.rank ≤ b.rank) : a.tx.height ≤ b.tx.height := by
  rcases Prod.Lex.toLex_le_toLex.mp h with h | ⟨h, -⟩
  · exact h.le
  · exact h.le

section
variable {chain : Chain}

/-- The table after the messages `front` were written. -/
def Written (chain : Chain) (db : Db) (front : List TxMsg) : Prop :=
  db.vote = Table.empty.upsertAll (front.map TxMsg.toVote) ∧
    ∀ m ∈ front, m.tx.height ≤ reached chain db

theorem mem_upsertAll_rows {t : Table Vote.key} {votes : List Vote} {v : Vote}
    (h : v ∈ (t.upsertAll votes).rows) : v ∈ votes ∨ v ∈ t.rows := by
  induction votes generalizing t with
  | nil => exact .inr h
  | cons w votes ih =>
    rcases ih h with h | h
    · exact .inl (List.mem_cons_of_mem _ h)
    · rcases Table.mem_rows_upsert.mp h with rfl | ⟨h, -⟩
      · exact .inl List.mem_cons_self
      · exact .inr h

/-- One run. -/
theorem handleVote_written {db : Db} {front txMsgs : List TxMsg} {endBlock : ℕ}
    (hdb : Written chain db front) (hle : reached chain db ≤ endBlock)
    (hret : Returned TxMsg.rank
      (between (·.tx.height) (reached chain db) endBlock (voteRows chain)) txMsgs) :
    Written chain (handleVote chain db endBlock txMsgs) (front ++ txMsgs) ∧
      reached chain (handleVote chain db endBlock txMsgs) = endBlock := by
  have hrange : ∀ m ∈ txMsgs, reached chain db < m.tx.height ∧ m.tx.height ≤ endBlock :=
    fun m hm => (mem_between.mp (hret.mem_iff.mp hm)).2
  have hreached : reached chain (handleVote chain db endBlock txMsgs) = endBlock := by
    rw [handleVote, if_neg (not_lt.mpr hle), reached, startHeight_storeCheckpoint, if_pos rfl]
  refine ⟨⟨?_, fun m hm => ?_⟩, hreached⟩
  · rw [handleVote, if_neg (not_lt.mpr hle)]
    have hfold : (txMsgs.map TxMsg.toVote).foldl insertVote db.vote =
        db.vote.upsertAll (txMsgs.map TxMsg.toVote) := by
      refine foldl_insertVote (fun r hr v hv => ?_) ?_
      · rw [hdb.1] at hr
        obtain ⟨m, hm, rfl⟩ := List.mem_map.mp hv
        rcases mem_upsertAll_rows hr with hr | hr
        · obtain ⟨m', hm', rfl⟩ := List.mem_map.mp hr
          exact (hdb.2 m' hm').trans (hrange m hm).1.le
        · cases hr
      · exact List.pairwise_map.mpr (hret.2.imp fun h => height_le_of_rank_le h)
    show (txMsgs.map TxMsg.toVote).foldl insertVote db.vote = _
    rw [hfold, hdb.1, Table.upsertAll, Table.upsertAll, Table.upsertAll, List.map_append,
      List.foldl_append]
  · rw [hreached]
    rcases List.mem_append.mp hm with hm | hm
    · exact (hdb.2 m hm).trans hle
    · exact (hrange m hm).2

theorem handleVote_back {db : Db} {txMsgs : List TxMsg} {endBlock : ℕ}
    (hlt : endBlock < reached chain db) : handleVote chain db endBlock txMsgs = db := by
  rw [handleVote, if_pos hlt]

/-- What all runs write is read range after range. -/
theorem reads_of_runs {db db' : Db} {ends : List ℕ} {front : List TxMsg}
    (h : Runs chain db ends db') (hdb : Written chain db front) :
    ∃ out, Reads TxMsg.rank (·.tx.height) (voteRows chain) (reached chain db) ends out ∧
      Written chain db' (front ++ out) ∧
      reached chain db' = ends.foldl max (reached chain db) := by
  induction h generalizing front with
  | nil db => exact ⟨[], .nil _, by rwa [List.append_nil], rfl⟩
  | @cons db db' endBlock ends txMsgs hret _ ih =>
    by_cases hlt : endBlock < reached chain db
    · rw [handleVote_back hlt] at ih
      obtain ⟨out, hreads, hwritten, hreached⟩ := ih hdb
      refine ⟨out, .back hlt hreads, hwritten, ?_⟩
      rw [List.foldl_cons, max_eq_left hlt.le, hreached]
    · have hle := not_lt.mp hlt
      obtain ⟨hw, hr⟩ := handleVote_written hdb hle hret
      obtain ⟨out, hreads, hwritten, hreached⟩ := ih hw
      rw [hr] at hreads hreached
      refine ⟨txMsgs ++ out, .range hle hret hreads, ?_, ?_⟩
      · rwa [← List.append_assoc]
      · rw [List.foldl_cons, max_eq_right hle, hreached]

/-- Whatever can be read range after range is read by some runs. -/
theorem runs_of_reads {ends : List ℕ} {out : List TxMsg} {s : ℕ}
    (h : Reads TxMsg.rank (·.tx.height) (voteRows chain) s ends out) {db : Db}
    (hs : reached chain db = s) {front : List TxMsg} (hdb : Written chain db front) :
    ∃ db', Runs chain db ends db' ∧ Written chain db' (front ++ out) := by
  induction h generalizing db front with
  | nil s => exact ⟨db, .nil db, by rwa [List.append_nil]⟩
  | @back s e ends rest hlt _ ih =>
    obtain ⟨db', hruns, hwritten⟩ := ih hs hdb
    obtain ⟨result, hret⟩ := exists_returned TxMsg.rank
      (between (·.tx.height) (reached chain db) e (voteRows chain))
    refine ⟨db', .cons hret ?_, hwritten⟩
    rwa [handleVote_back (hs ▸ hlt)]
  | @range s e ends result rest hle hret _ ih =>
    subst hs
    obtain ⟨hw, hr⟩ := handleVote_written hdb hle hret
    obtain ⟨db', hruns, hwritten⟩ := ih hr hw
    exact ⟨db', .cons hret hruns, by rwa [← List.append_assoc]⟩

/-! ### The last row -/

/-- The messages of the ranges, as votes of the chain. -/
theorem mem_range_iff {height : ℕ} {k : ℕ × String} {m : TxMsg} :
    (m ∈ between (·.tx.height) chain.start height (voteRows chain) ∧ m.toVote.key = k) ↔
      ∃ v ∈ (votesUpTo chain height k).filter ChainVote.visible, v.txMsg = m := by
  rw [mem_between, (voteRows_perm chain).mem_iff, List.mem_map]
  constructor
  · rintro ⟨⟨⟨v, hv, rfl⟩, -, hheight⟩, hk⟩
    obtain ⟨hv, hvisible⟩ := List.mem_filter.mp hv
    refine ⟨v, List.mem_filter.mpr ⟨List.mem_filter.mpr ⟨hv, ?_⟩, hvisible⟩, rfl⟩
    exact decide_eq_true ⟨hheight, hk⟩
  · rintro ⟨v, hv, rfl⟩
    obtain ⟨hv, hvisible⟩ := List.mem_filter.mp hv
    obtain ⟨hv, hcond⟩ := List.mem_filter.mp hv
    obtain ⟨hheight, hk⟩ := of_decide_eq_true hcond
    refine ⟨⟨⟨v, List.mem_filter.mpr ⟨hv, hvisible⟩, rfl⟩, ?_, hheight⟩, hk⟩
    obtain ⟨tx, htx, hmem⟩ := List.mem_flatMap.mp hv
    show chain.start < v.tx.height
    rw [tx_of_mem_votesOfAll hmem]
    exact chain.above tx (List.mem_of_mem_filter htx)

/-- The row of a key is that of the last message of it. -/
theorem get?_written {db : Db} {out : List TxMsg} (h : Written chain db out) (k : ℕ × String) :
    db.vote.get? k = ((out.filter fun m => m.toVote.key = k).getLast?).map TxMsg.toVote := by
  rw [h.1, Table.get?_upsertAll_eq, Table.get?_empty, Option.or_none, List.filter_map,
    List.getLast?_map]
  rfl

/-- The last message of a key in an answer is not outranked. -/
theorem unbeaten_of_getLast? {height : ℕ} {k : ℕ × String} {out : List TxMsg} {m : TxMsg}
    (h : Returned TxMsg.rank (between (·.tx.height) chain.start height (voteRows chain)) out)
    (hlast : (out.filter fun m => m.toVote.key = k).getLast? = some m) :
    ∃ v, Unbeaten chain height k v ∧ v.txMsg = m := by
  obtain ⟨hmem, hk, hmax⟩ := h.le_of_getLast? hlast
  obtain ⟨v, hv, rfl⟩ := mem_range_iff.mp ⟨hmem, of_decide_eq_true hk⟩
  refine ⟨v, ⟨hv, fun w hw => ?_⟩, rfl⟩
  obtain ⟨hmem', hk'⟩ := mem_range_iff.mpr ⟨w, hw, rfl⟩
  exact hmax w.txMsg hmem' (decide_eq_true hk')

/-- A vote that is not outranked is the last message of its key in some answer. -/
theorem exists_returned_of_unbeaten {height : ℕ} {k : ℕ × String} {v : ChainVote}
    (h : Unbeaten chain height k v) :
    ∃ out, Returned TxMsg.rank
        (between (·.tx.height) chain.start height (voteRows chain)) out ∧
      (out.filter fun m => m.toVote.key = k).getLast? = some v.txMsg := by
  obtain ⟨hmem, hk⟩ := mem_range_iff.mpr ⟨v, h.1, rfl⟩
  refine exists_returned_getLast? hmem (decide_eq_true hk) fun m hm hmk => ?_
  obtain ⟨w, hw, rfl⟩ := mem_range_iff.mp ⟨hm, of_decide_eq_true hmk⟩
  exact h.2 w hw
/-- Every answer ends with the last votes exactly when these rank highest. -/
theorem map_getLast?_iff (chain : Chain) (height : ℕ) :
    (∀ out, Returned TxMsg.rank (between (·.tx.height) chain.start height (voteRows chain)) out →
      ∀ k, (∃ last, lastVote chain height k = some last) →
        ((out.filter fun m => m.toVote.key = k).getLast?).map TxMsg.toVote =
          lastVote chain height k) ↔ LastVoteRanksHighest chain height := by
  constructor
  · intro h k last hlast
    constructor
    · obtain ⟨out, hout⟩ := exists_returned TxMsg.rank
        (between (·.tx.height) chain.start height (voteRows chain))
      have hrow := h out hout k ⟨last, hlast⟩
      rw [hlast] at hrow
      obtain ⟨m, hm, -⟩ := Option.map_eq_some_iff.mp hrow
      obtain ⟨v, hv, -⟩ := unbeaten_of_getLast? hout hm
      exact ⟨v, hv⟩
    · intro v hv
      obtain ⟨out, hout, hm⟩ := exists_returned_of_unbeaten hv
      have hrow := h out hout k ⟨last, hlast⟩
      rw [hm, hlast] at hrow
      exact Option.some.inj hrow
  · rintro hcond out hout k ⟨last, hlast⟩
    obtain ⟨⟨v, hv⟩, hall⟩ := hcond k last hlast
    cases hm : (out.filter fun m => m.toVote.key = k).getLast? with
    | none =>
      rw [List.getLast?_eq_none_iff, List.filter_eq_nil_iff] at hm
      obtain ⟨hmem, hk⟩ := mem_range_iff.mpr ⟨v, hv.1, rfl⟩
      exact absurd (decide_eq_true hk) (hm v.txMsg (hout.mem_iff.mpr hmem))
    | some m =>
      obtain ⟨w, hw, rfl⟩ := unbeaten_of_getLast? hout hm
      rw [Option.map_some, hall w hw, hlast]

/-- Without a vote of the key no answer has a message of it. -/
theorem getLast?_of_lastVote_none {height : ℕ} {k : ℕ × String} {out : List TxMsg}
    (hout : Returned TxMsg.rank (between (·.tx.height) chain.start height (voteRows chain)) out)
    (hlast : lastVote chain height k = none) :
    (out.filter fun m => m.toVote.key = k).getLast? = none := by
  have hnil : votesUpTo chain height k = [] := by
    rwa [lastVote, Option.map_eq_none_iff, List.getLast?_eq_none_iff] at hlast
  cases hm : (out.filter fun m => m.toVote.key = k).getLast? with
  | none => rfl
  | some m =>
    obtain ⟨v, hv, -⟩ := unbeaten_of_getLast? hout hm
    rw [Unbeaten, hnil] at hv
    exact absurd hv.1 List.not_mem_nil

end

end VotesLemmas

open VotesLemmas

/-! ## 5. The result -/

/-- All runs leave every voter's last vote exactly when the last vote is the one that ranks
highest. -/
theorem last_votes_iff (chain : Chain) (ends : List ℕ) :
    (∀ db, Runs chain initialDb ends db → VotesRight chain db) ↔
      LastVoteRanksHighest chain (ends.foldl max chain.start) := by
  have hinit : Written chain initialDb [] := ⟨rfl, fun m hm => absurd hm List.not_mem_nil⟩
  have hreads : ∀ out, Reads TxMsg.rank (·.tx.height) (voteRows chain) chain.start ends out ↔
      Returned TxMsg.rank
        (between (·.tx.height) chain.start (ends.foldl max chain.start) (voteRows chain)) out :=
    fun out => reads_iff (fun _ _ => rank_le_of_height_lt) fun _ _ => height_le_of_rank_le
  have hruns : ∀ out, Returned TxMsg.rank
      (between (·.tx.height) chain.start (ends.foldl max chain.start) (voteRows chain)) out →
      ∃ db, Runs chain initialDb ends db ∧ Written chain db out ∧
        reached chain db = ends.foldl max chain.start := by
    intro out hout
    obtain ⟨db, hrun, hwritten⟩ := runs_of_reads ((hreads out).mpr hout) rfl hinit
    obtain ⟨-, -, -, hreached⟩ := reads_of_runs hrun hinit
    exact ⟨db, hrun, hwritten, hreached⟩
  rw [← map_getLast?_iff]
  constructor
  · rintro hright out hout k -
    obtain ⟨db, hrun, hwritten, hreached⟩ := hruns out hout
    rw [← get?_written hwritten, hright db hrun k, hreached]
  · intro hall db hrun k
    obtain ⟨out, hout, hwritten, hreached⟩ := reads_of_runs hrun hinit
    have hout := (hreads out).mp hout
    rw [hreached, get?_written hwritten]
    show _ = lastVote chain (ends.foldl max chain.start) k
    rw [List.nil_append]
    cases hlast : lastVote chain (ends.foldl max chain.start) k with
    | none => rw [getLast?_of_lastVote_none hout hlast, Option.map_none]
    | some last => rw [hall out hout k ⟨last, hlast⟩, hlast]

/-- A vote message of `voter`. -/
def voteMsg (option : String) : Msg := .mk "/cosmos.gov.v1.MsgVote" ⟨"voter", 1, option⟩ []

/-- Two transactions of one block: the first votes in its second message, the second in its
first. -/
def txA : Tx where
  id := 1
  height := 10
  index := 0
  code := 0
  hash := "A"
  sender := "voter"
  msgs := [.mk "/cosmos.bank.v1beta1.MsgSend" ⟨"", 0, ""⟩ [], voteMsg "YES"]

@[inherit_doc txA] def txB : Tx :=
  { txA with
    id := 2
    index := 1
    hash := "B"
    msgs := [voteMsg "NO"] }

@[inherit_doc txA] def twoVotes : Chain where
  start := 0
  txs := [txA, txB]
  ids := by decide
  sorted := by simp [txA, txB]
  above := by simp [txA, txB]

/-- The last vote is the one of the second transaction, and the job stores the first. -/
theorem earlier_tx_wins :
    (lastVote twoVotes 20 (1, "voter")).map (·.vote_option) = some "NO" ∧
    ∃ db, Runs twoVotes initialDb [20] db ∧ reached twoVotes db = 20 ∧
      (db.vote.get? (1, "voter")).map (·.vote_option) = some "YES" ∧ ¬ VotesRight twoVotes db := by
  let a : TxMsg := ⟨txA, 1, (voteMsg "YES").type, voteMsg "YES"⟩
  let b : TxMsg := ⟨txB, 0, (voteMsg "NO").type, voteMsg "NO"⟩
  have hrows : between (·.tx.height) (reached twoVotes initialDb) 20 (voteRows twoVotes) = [a, b] :=
    rfl
  have hret : Returned TxMsg.rank [a, b] [b, a] := by
    refine ⟨List.Perm.swap a b [], ?_⟩
    have hrank : b.rank ≤ a.rank := by decide
    simpa using hrank
  have hlast : (lastVote twoVotes 20 (1, "voter")).map (·.vote_option) = some "NO" := by
    decide +kernel
  let db := handleVote twoVotes initialDb 20 [b, a]
  have hstored : (db.vote.get? (1, "voter")).map (·.vote_option) = some "YES" := by decide +kernel
  refine ⟨hlast, db, .cons (hrows ▸ hret) (.nil _), rfl, hstored, fun hright => ?_⟩
  rw [hright (1, "voter"), show reached twoVotes db = 20 from rfl, hlast] at hstored
  exact absurd hstored (by decide)

end Erascope.HandleVote
