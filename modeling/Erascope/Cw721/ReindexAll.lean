import Mathlib.Tactic
import Erascope.Cw721.Cut
import Erascope.Cw721.Pages

/-!
# Reindexing a CW721 contract

The model of `handleReindexAll` in `services/cw721/cw721-reindexing.service.ts`, of
`getAllTokensOwner`, and of `handleRangeBlockMissingContract`. The rows of the contract are deleted,
the tokens are written again from the answers of a node, each with the height of its answer, the
events between the lowest and the highest answer are processed as a range, and all events up to
the highest answer are replayed page by page.

An event between the lowest and the highest answer is stored by the range and again by its page,
which violates the unique key of `cw721_activity`. A burn on a page finds its token only if the
snapshot has it or it was minted on the page.

Result: `reindexAll_iff`, which says exactly when the run ends with the contract covered.
-/

namespace Erascope.Cw721

open ReplayLemmas RangeLemmas HistoryLemmas PagesLemmas

/-! ## 1. The snapshot -/

/-- The loop over `all_tokens`, for the pages that the node answers. An empty page ends the loop,
and so does an empty id in the last place, as the next `start_after`. -/
def allTokens : List (List String) → List String
  | [] => []
  | tokens :: pages =>
    match tokens.getLast? with
    | none => []
    | some startAfter => tokens ++ if startAfter = "" then [] else allTokens pages

/-- A token of the snapshot. -/
structure TokenOwner where
  owner : Option String
  token_id : String
  last_updated_height : ℕ

/-- `getAllTokensOwner`. The query for the owner of a token that does not exist fails, and parsing
its answer throws. -/
def getAllTokensOwner (listing : List (List String)) (ownerOf : String → Option (Option String))
    (height : String → ℕ) : Except Cw721Error (List TokenOwner) :=
  (allTokens listing).mapM fun tokenId =>
    match ownerOf tokenId with
    | none => .error .invalidAnswer
    | some owner => .ok ⟨owner, tokenId, height tokenId⟩

/-! ## 2. The job -/

/-- The deletes of `handleReindexAll`, and the new contract row. -/
def recreateContract (db : Db) (contractAddress : String) : Db where
  cw721_contract := (db.cw721_contract.filter fun contract => contract.address ≠ contractAddress) ++
    [⟨contractAddress, true⟩]
  cw721_token := db.cw721_token.filter fun token => token.contract ≠ contractAddress
  cw721_activity := db.cw721_activity.filter fun act => act.contract ≠ contractAddress

/-- The insert of the tokens of the snapshot. -/
def insertTokens (db : Db) (contractAddress : String) (currentTokensOwner : List TokenOwner) :
    Except Cw721Error Db :=
  let rows := currentTokensOwner.map fun tokenOwner : TokenOwner =>
    { contract := contractAddress
      token_id := tokenOwner.token_id
      owner := tokenOwner.owner
      last_updated_height := tokenOwner.last_updated_height
      burned := false : CW721Token }
  if ((db.cw721_token.rows ++ rows).map CW721Token.key).Nodup then
    .ok { db with cw721_token := db.cw721_token.upsertAll rows }
  else .error .uniqueToken

/-- `handleRangeBlockMissingContract` -/
def handleRangeBlockMissingContract (events : List SmartContractEvent) (db : Db)
    (contractAddress : String) (startBlock endBlock : ℕ) : Except Cw721Error Db :=
  updateRange db (getCw721ContractEvents events startBlock (some endBlock) contractAddress)

/-- `handleReindexAll`, with the height at which the history job ends. -/
def handleReindexAll (events : List SmartContractEvent) (db : Db) (contractAddress : String)
    (currentTokensOwner : List TokenOwner) : Except Cw721Error (Db × ℕ) := do
  let minUpdatedHeightOwner := ((currentTokensOwner.map (·.last_updated_height)).min?).getD 0
  let maxUpdatedHeightOwner := ((currentTokensOwner.map (·.last_updated_height)).max?).getD 0
  let db ← insertTokens (recreateContract db contractAddress) contractAddress currentTokensOwner
  let db ← handleRangeBlockMissingContract events db contractAddress minUpdatedHeightOwner
    maxUpdatedHeightOwner
  .ok (db, maxUpdatedHeightOwner)

/-! ## 3. The chain -/

/-- The events of the chain up to a height. -/
def upTo (chain : List SmartContractEvent) (height : ℕ) : List SmartContractEvent :=
  chain.filter fun msg => msg.height ≤ height

/-- The answer of `owner_of` at a height; the query fails if the token does not exist then. -/
def ownerOf (chain : List SmartContractEvent) (contractAddress : String) (height : String → ℕ)
    (tokenId : String) : Option (Option String) :=
  if alive (upTo chain (height tokenId)) (contractAddress, tokenId) then
    some (ownerAfter (upTo chain (height tokenId)) (contractAddress, tokenId))
  else none

/-- The snapshot, `handleReindexAll` and the chain of pages that it queues. The database has the
events of the chain after `startBlock`. -/
def reindexAll (chain : List SmartContractEvent) (limitRecordGet startBlock : ℕ)
    (contractAddress : String) (listing : List (List String)) (height : String → ℕ) (fuel : ℕ)
    (db : Db) : Except Cw721Error (Option Db) := do
  let currentTokensOwner ← getAllTokensOwner listing (ownerOf chain contractAddress height) height
  let events := chain.filter fun msg => startBlock < msg.height
  let (db, maxUpdatedHeightOwner) ← handleReindexAll events db contractAddress currentTokensOwner
  runChain (crawlMissingContractHistory limitRecordGet events startBlock (some maxUpdatedHeightOwner)
    contractAddress) fuel db 0

/-- The lowest answer height, `0` without tokens. -/
def lowest (tokens : List String) (height : String → ℕ) : ℕ := ((tokens.map height).min?).getD 0

/-- The highest answer height, `0` without tokens. -/
def highest (tokens : List String) (height : String → ℕ) : ℕ := ((tokens.map height).max?).getD 0

/-- The contract is covered up to a height: it has one activity for each event and no others, and
every token that exists has the owner that it has on chain, and is not burned. -/
structure Covered (chain : List SmartContractEvent) (startBlock : ℕ) (contractAddress : String)
    (height : ℕ) (db : Db) : Prop where
  activity : (db.cw721_activity.filter fun act => act.contract = contractAddress).map
      (·.smart_contract_event_id) =
    (between (·.height) startBlock height chain).map (·.smart_contract_event_id)
  token : ∀ tokenId, alive (upTo chain height) (contractAddress, tokenId) = true →
    ∃ token, db.cw721_token.get? (contractAddress, tokenId) = some token ∧
      token.owner = ownerAfter (upTo chain height) (contractAddress, tokenId) ∧ token.burned = false

/-- The burns of a page find their tokens: the snapshot has the token and the page asks for it, or
it is minted earlier on the page. -/
def BurnsFound (tokens : List String) (msgs : List SmartContractEvent) : Prop :=
  ∀ (i : ℕ) (h : i < msgs.length), msgs[i].action = .burn →
    (msgs[i].key.2 ∈ tokens ∧ loaded msgs msgs[i].key = true) ∨
      ∃ x ∈ msgs.take i, x.action = .mint ∧ x.key = msgs[i].key

instance (tokens : List String) (msgs : List SmartContractEvent) :
    Decidable (BurnsFound tokens msgs) :=
  inferInstanceAs (Decidable (∀ (i : ℕ) (_ : i < msgs.length), _))

/-- When a reindexing covers the contract: every listed token still exists when its owner is asked
for, no event lies between the lowest and the highest answer, the burns of each page find their
tokens, and every token that exists at the highest answer is listed. -/
structure Reindexable (chain : List SmartContractEvent) (limitRecordGet startBlock : ℕ)
    (contractAddress : String) (tokens : List String) (height : String → ℕ) : Prop where
  answered : ∀ tokenId ∈ tokens,
    alive (upTo chain (height tokenId)) (contractAddress, tokenId) = true
  quiet : ∀ msg ∈ chain, ¬ (lowest tokens height < msg.height ∧ msg.height ≤ highest tokens height)
  burns : ∀ msgs ∈ pages limitRecordGet
    (between (·.height) startBlock (highest tokens height) chain), BurnsFound tokens msgs
  complete : ∀ msg ∈ chain,
    alive (upTo chain (highest tokens height)) msg.key = true → msg.key.2 ∈ tokens

namespace ReindexAllLemmas

variable {chain : List SmartContractEvent} {limitRecordGet startBlock : ℕ} {c : String}
  {tokens : List String} {height : String → ℕ} {db db' : Db}

/-! ## 4. The tables after the snapshot -/

/-- The rows of the snapshot. -/
def snapshotRows (chain : List SmartContractEvent) (c : String) (tokens : List String)
    (height : String → ℕ) : List CW721Token :=
  tokens.map fun tokenId =>
    ⟨c, tokenId, ownerAfter (upTo chain (height tokenId)) (c, tokenId), height tokenId, false⟩

/-- The tables after the snapshot. -/
def snapshotDb (chain : List SmartContractEvent) (c : String) (tokens : List String)
    (height : String → ℕ) (db : Db) : Db :=
  { recreateContract db c with
    cw721_token :=
      (recreateContract db c).cw721_token.upsertAll (snapshotRows chain c tokens height) }

theorem isTracked_snapshotDb : (snapshotDb chain c tokens height db).isTracked c = true := by
  simp [snapshotDb, recreateContract, Db.isTracked]

theorem get?_recreateContract (tokenId : String) :
    (recreateContract db c).cw721_token.get? (c, tokenId) = none := by
  rw [recreateContract, Table.get?_filter]
  cases hget : db.cw721_token.get? (c, tokenId) with
  | none => rfl
  | some token =>
    have hcontract : token.contract = c := congrArg Prod.fst (Table.key_of_get? hget)
    simp [Option.filter_some, hcontract]

theorem nodup_snapshotRows (hnodup : tokens.Nodup) :
    ((snapshotRows chain c tokens height).map CW721Token.key).Nodup := by
  rw [snapshotRows, List.map_map]
  exact hnodup.map fun a b h => congrArg Prod.snd h

/-- The tokens of the contract after the snapshot. -/
theorem get?_snapshotDb (hnodup : tokens.Nodup) (tokenId : String) :
    (snapshotDb chain c tokens height db).cw721_token.get? (c, tokenId) =
      if tokenId ∈ tokens then
        some ⟨c, tokenId, ownerAfter (upTo chain (height tokenId)) (c, tokenId), height tokenId, false⟩
      else none := by
  have hget := Table.get?_upsertAll (recreateContract db c).cw721_token
    (⟨snapshotRows chain c tokens height, nodup_snapshotRows hnodup⟩ : Tokens) (c, tokenId)
  rw [get?_recreateContract, Option.or_none] at hget
  refine hget.trans ?_
  split
  · next hmem =>
    exact Table.get?_eq_some_iff.mpr ⟨List.mem_map.mpr ⟨tokenId, hmem, rfl⟩, rfl⟩
  · next hmem =>
    refine Table.get?_eq_none_iff.mpr fun row hrow hkey => hmem ?_
    obtain ⟨other, hother, rfl⟩ := List.mem_map.mp hrow
    have hsame : other = tokenId := congrArg Prod.snd hkey
    exact hsame ▸ hother

theorem isSome_get?_snapshotDb (hnodup : tokens.Nodup) (tokenId : String) :
    ((snapshotDb chain c tokens height db).cw721_token.get? (c, tokenId)).isSome = true ↔
      tokenId ∈ tokens := by
  rw [get?_snapshotDb hnodup]
  by_cases hmem : tokenId ∈ tokens <;> simp [hmem]

theorem insertTokens_ok (hnodup : tokens.Nodup) :
    insertTokens (recreateContract db c) c (tokens.map fun tokenId =>
        ⟨ownerAfter (upTo chain (height tokenId)) (c, tokenId), tokenId, height tokenId⟩) =
      .ok (snapshotDb chain c tokens height db) := by
  have hrows : ((tokens.map fun tokenId => (⟨ownerAfter (upTo chain (height tokenId)) (c, tokenId),
      tokenId, height tokenId⟩ : TokenOwner)).map fun tokenOwner : TokenOwner =>
        ({ contract := c
           token_id := tokenOwner.token_id
           owner := tokenOwner.owner
           last_updated_height := tokenOwner.last_updated_height
           burned := false } : CW721Token)) = snapshotRows chain c tokens height := by
    rw [List.map_map]
    rfl
  have hunique : (((recreateContract db c).cw721_token.rows ++
      snapshotRows chain c tokens height).map CW721Token.key).Nodup := by
    rw [List.map_append, List.nodup_append]
    refine ⟨(recreateContract db c).cw721_token.nodup, nodup_snapshotRows hnodup, ?_⟩
    intro k hold k' hnew hsame
    obtain ⟨old, holdRow, rfl⟩ := List.mem_map.mp hold
    obtain ⟨new, hnewRow, rfl⟩ := List.mem_map.mp hnew
    obtain ⟨tokenId, -, rfl⟩ := List.mem_map.mp hnewRow
    exact Table.get?_eq_none_iff.mp (get?_recreateContract tokenId) old holdRow hsame
  rw [insertTokens, hrows]
  exact if_pos hunique

theorem getAllTokensOwner_ok {listing : List (List String)}
    (hanswered : ∀ tokenId ∈ allTokens listing, alive (upTo chain (height tokenId)) (c, tokenId) = true) :
    getAllTokensOwner listing (ownerOf chain c height) height = .ok ((allTokens listing).map fun tokenId =>
      ⟨ownerAfter (upTo chain (height tokenId)) (c, tokenId), tokenId, height tokenId⟩) := by
  refine mapM_ok fun tokenId hmem => ?_
  simp [ownerOf, hanswered tokenId hmem]

theorem answered_of_ok {listing : List (List String)} {owners : List TokenOwner}
    (h : getAllTokensOwner listing (ownerOf chain c height) height = .ok owners) :
    ∀ tokenId ∈ allTokens listing, alive (upTo chain (height tokenId)) (c, tokenId) = true := by
  intro tokenId hmem
  obtain ⟨owner, howner⟩ := ok_of_mapM_ok h tokenId hmem
  by_contra hnot
  simp [ownerOf, hnot] at howner

/-! ## 5. The events -/

/-- The events of a range, as the database has them. -/
theorem getCw721ContractEvents_stored (hone : ∀ msg ∈ chain, msg.contractAddress = c) (s e : ℕ) :
    getCw721ContractEvents (chain.filter fun msg => startBlock < msg.height) s (some e) c =
      between (·.height) s e (chain.filter fun msg => startBlock < msg.height) := by
  refine List.filter_eq_self.mpr fun msg hmsg => ?_
  have hmem := List.mem_of_mem_filter (mem_between.mp hmsg).1
  simpa using hone msg hmem

theorem between_stored (e : ℕ) :
    between (·.height) startBlock e (chain.filter fun msg => startBlock < msg.height) =
      between (·.height) startBlock e chain := by
  rw [between, between, List.filter_filter]
  refine List.filter_congr fun msg _ => ?_
  by_cases h : startBlock < msg.height <;> simp [h]

/-- What lies between the answers was crawled. -/
theorem startBlock_lt (hcrawled : ∀ tokenId ∈ tokens, startBlock ≤ height tokenId) {h : ℕ}
    (hlo : lowest tokens height < h) (hhi : h ≤ highest tokens height) : startBlock < h := by
  cases hmin : (tokens.map height).min? with
  | none =>
    rw [List.min?_eq_none_iff, List.map_eq_nil_iff] at hmin
    subst hmin
    exact absurd (hlo.trans_le hhi) (lt_irrefl 0)
  | some low =>
    obtain ⟨tokenId, htoken, rfl⟩ := List.mem_map.mp (List.min?_eq_some_iff.mp hmin).1
    rw [lowest, hmin] at hlo
    exact (hcrawled tokenId htoken).trans_lt hlo

/-- The range of the missing blocks has no events exactly if the answers are quiet. -/
theorem range_eq_nil_iff (hcrawled : ∀ tokenId ∈ tokens, startBlock ≤ height tokenId) :
    between (·.height) (lowest tokens height) (highest tokens height)
        (chain.filter fun msg => startBlock < msg.height) = [] ↔
      ∀ msg ∈ chain, ¬ (lowest tokens height < msg.height ∧ msg.height ≤ highest tokens height) := by
  rw [List.eq_nil_iff_forall_not_mem]
  constructor
  · rintro hnil msg hmsg ⟨hlo, hhi⟩
    have hstored : msg ∈ chain.filter fun msg => startBlock < msg.height :=
      List.mem_filter.mpr ⟨hmsg, by simpa using startBlock_lt hcrawled hlo hhi⟩
    exact hnil msg (mem_between.mpr ⟨hstored, hlo, hhi⟩)
  · intro hquiet msg hmsg
    obtain ⟨hmem, hrange⟩ := mem_between.mp hmsg
    exact hquiet msg (List.mem_of_mem_filter hmem) hrange

theorem height_mem (tokenId : String) (hmem : tokenId ∈ tokens) :
    lowest tokens height ≤ height tokenId ∧ height tokenId ≤ highest tokens height := by
  have hin : height tokenId ∈ tokens.map height := List.mem_map_of_mem hmem
  constructor
  · cases hmin : (tokens.map height).min? with
    | none =>
      rw [List.min?_eq_none_iff] at hmin
      rw [hmin] at hin
      cases hin
    | some low =>
      rw [lowest, hmin]
      exact (List.min?_eq_some_iff.mp hmin).2 _ hin
  · cases hmax : (tokens.map height).max? with
    | none =>
      rw [List.max?_eq_none_iff] at hmax
      rw [hmax] at hin
      cases hin
    | some high =>
      rw [highest, hmax]
      exact (List.max?_eq_some_iff.mp hmax).2 _ hin

/-- Between the answers nothing changes. -/
theorem upTo_eq (hquiet : ∀ msg ∈ chain,
      ¬ (lowest tokens height < msg.height ∧ msg.height ≤ highest tokens height))
    {h : ℕ} (hlo : lowest tokens height ≤ h) (hhi : h ≤ highest tokens height) :
    upTo chain h = upTo chain (highest tokens height) := by
  refine List.filter_congr fun msg hmsg => ?_
  have := hquiet msg hmsg
  rw [decide_eq_decide]
  omega

/-- The burns of a page, against the snapshot. -/
theorem burnsKnown_snapshotDb (hnodup : tokens.Nodup) {msgs : List SmartContractEvent}
    (hone : ∀ msg ∈ msgs, msg.contractAddress = c) :
    BurnsKnown (fun _ => true)
        (loadedRows (snapshotDb chain c tokens height db).cw721_token.get? msgs) msgs ↔
      BurnsFound tokens msgs := by
  have hfound := @forall_split_iff _ (fun (before : List SmartContractEvent) msg =>
    msg.action = .burn → (msg.key.2 ∈ tokens ∧ loaded msgs msg.key = true) ∨
      ∃ x ∈ before, x.action = .mint ∧ x.key = msg.key) msgs
  rw [burnsKnown_iff, BurnsFound, ← hfound]
  refine forall_congr' fun before => forall_congr' fun msg => forall_congr' fun after =>
    forall_congr' fun hsplit => ?_
  have hcontract : msg.contractAddress = c := hone msg (by rw [hsplit]; simp)
  obtain ⟨tokenId, hkey⟩ : ∃ tokenId, msg.key = (c, tokenId) := ⟨_, by rw [← hcontract]; rfl⟩
  rw [forall_prop_of_true rfl, isSome_replayRows_minted, isSome_loadedRows, Bool.or_eq_true,
    Bool.and_eq_true, hkey, isSome_get?_snapshotDb hnodup, minted_iff, and_comm]
  simp only [true_and]

end ReindexAllLemmas

open ReindexAllLemmas

/-! ## 6. The run -/

section
variable {chain : List SmartContractEvent} {limitRecordGet startBlock : ℕ} {c : String}
  {listing : List (List String)} {height : String → ℕ} {db db' : Db}

/-- The run, as the range of the missing blocks and a fold over the pages. -/
theorem reindexAll_ok_iff (hcons : Consistent [] chain)
    (hids : ∀ msg ∈ chain, 0 < msg.smart_contract_event_id)
    (hone : ∀ msg ∈ chain, msg.contractAddress = c) (hnodup : (allTokens listing).Nodup)
    (hlimit : 0 < limitRecordGet) :
    (∃ fuel, reindexAll chain limitRecordGet startBlock c listing height fuel db = .ok (some db')) ↔
      (∀ tokenId ∈ allTokens listing, alive (upTo chain (height tokenId)) (c, tokenId) = true) ∧
      ∃ db₁, updateRange (snapshotDb chain c (allTokens listing) height db)
          (between (·.height) (lowest (allTokens listing) height) (highest (allTokens listing) height)
            (chain.filter fun msg => startBlock < msg.height)) = .ok db₁ ∧
        (pages limitRecordGet
          (between (·.height) startBlock (highest (allTokens listing) height) chain)).foldlM
            (historyPage c) db₁ = .ok db' := by
  set tokens := allTokens listing with htokens
  have hchain : ∀ db₁, (∃ fuel, runChain (crawlMissingContractHistory limitRecordGet
        (chain.filter fun msg => startBlock < msg.height) startBlock (some (highest tokens height)) c)
          fuel db₁ 0 = .ok (some db')) ↔
      (pages limitRecordGet
        (between (·.height) startBlock (highest tokens height) chain)).foldlM
          (historyPage c) db₁ = .ok db' := by
    intro db₁
    have hsub : (between (·.height) startBlock (highest tokens height) chain).Sublist chain :=
      between_sublist
    rw [crawlMissingContractHistory, getCw721ContractEvents_stored hone, between_stored]
    exact exists_runChain_pageJob ((hcons.ordered.imp And.left).sublist hsub)
      (fun msg hmsg => hids msg (hsub.subset hmsg)) hlimit
  -- what the job does once every token is answered
  have hjob : (∀ tokenId ∈ tokens, alive (upTo chain (height tokenId)) (c, tokenId) = true) →
      ∀ fuel, reindexAll chain limitRecordGet startBlock c listing height fuel db =
        updateRange (snapshotDb chain c tokens height db)
          (between (·.height) (lowest tokens height) (highest tokens height)
            (chain.filter fun msg => startBlock < msg.height)) >>= fun db₁ =>
        runChain (crawlMissingContractHistory limitRecordGet
          (chain.filter fun msg => startBlock < msg.height) startBlock
            (some (highest tokens height)) c) fuel db₁ 0 := by
    intro hanswered fuel
    simp only [reindexAll, getAllTokensOwner_ok hanswered, ← htokens, handleReindexAll,
      insertTokens_ok hnodup, List.map_map, handleRangeBlockMissingContract,
      getCw721ContractEvents_stored hone, bind_assoc, ok_bind]
    rfl
  constructor
  · rintro ⟨fuel, hok⟩
    have hanswered : ∀ tokenId ∈ tokens,
        alive (upTo chain (height tokenId)) (c, tokenId) = true := by
      obtain ⟨owners, howners, -⟩ := bind_ok hok
      exact answered_of_ok howners
    rw [hjob hanswered] at hok
    obtain ⟨db₁, hrange, hrun⟩ := bind_ok hok
    exact ⟨hanswered, db₁, hrange, (hchain db₁).mp ⟨fuel, hrun⟩⟩
  · rintro ⟨hanswered, db₁, hrange, hfold⟩
    obtain ⟨fuel, hrun⟩ := (hchain db₁).mpr hfold
    refine ⟨fuel, ?_⟩
    rw [hjob hanswered, hrange, ok_bind, hrun]

end

namespace ReindexAllLemmas

variable {chain : List SmartContractEvent} {limitRecordGet startBlock : ℕ} {c : String}
  {tokens : List String} {height : String → ℕ} {db : Db}

/-- The activities of other contracts stay, and theirs are other events. -/
theorem nodup_snapshotDb (hcons : Consistent [] chain)
    (hunique : (db.cw721_activity.map (·.smart_contract_event_id)).Nodup)
    (hforeign : ∀ act ∈ db.cw721_activity, act.contract ≠ c → ∀ msg ∈ chain,
      act.smart_contract_event_id ≠ msg.smart_contract_event_id) (e : ℕ) :
    ((snapshotDb chain c tokens height db).cw721_activity.map (·.smart_contract_event_id) ++
      (between (·.height) startBlock e chain).map (·.smart_contract_event_id)).Nodup := by
  have hsub : (snapshotDb chain c tokens height db).cw721_activity.Sublist db.cw721_activity :=
    List.filter_sublist
  rw [List.nodup_append]
  refine ⟨hunique.sublist (hsub.map _),
    (Consistent.nodup_ids hcons).sublist (between_sublist.map _), ?_⟩
  intro id hact id' hmsg hsame
  obtain ⟨act, hactRow, rfl⟩ := List.mem_map.mp hact
  obtain ⟨msg, hmsgRow, rfl⟩ := List.mem_map.mp hmsg
  obtain ⟨hmem, hother⟩ := List.mem_filter.mp hactRow
  exact hforeign act hmem (by simpa using hother) msg (between_sublist.subset hmsgRow) hsame

/-- The pages of a history, over tables in which the contract is tracked. -/
theorem historyPages_tracked {history : List SmartContractEvent} (hcons : Consistent [] chain)
    (hone : ∀ msg ∈ chain, msg.contractAddress = c) (hsub : history ⊆ chain)
    (hlimit : 0 < limitRecordGet) {db₁ : Db} (htracked : db₁.isTracked c = true)
    (hids : (db₁.cw721_activity.map (·.smart_contract_event_id)).Nodup) (db' : Db) :
    (pages limitRecordGet history).foldlM (historyPage c) db₁ = .ok db' ↔
      (∀ msgs ∈ pages limitRecordGet history,
        BurnsKnown (fun _ => true) (loadedRows db₁.cw721_token.get? msgs) msgs) ∧
      (db₁.cw721_activity.map (·.smart_contract_event_id) ++
        history.map (·.smart_contract_event_id)).Nodup ∧
      db' = { db₁ with cw721_activity :=
        db₁.cw721_activity ++ (pages limitRecordGet history).flatMap (pageActs (fun _ => true) db₁ c) } := by
  have hall := @historyPages_ok_iff db₁ db' c (fun _ => true) (pages limitRecordGet history)
    (by
      rw [flatten_pages hlimit]
      exact fun msg hmsg => Consistent.mintsNamed hcons msg (hsub hmsg))
    (by
      rw [flatten_pages hlimit]
      exact fun msg hmsg => by rw [hone msg (hsub hmsg), htracked]) hids
  rw [flatten_pages hlimit, List.filter_true] at hall
  exact hall

/-- The activities of the contract after the pages. -/
theorem activities_of_pages (hlimit : 0 < limitRecordGet)
    (hone : ∀ msg ∈ chain, msg.contractAddress = c) (e : ℕ) :
    (((snapshotDb chain c tokens height db).cw721_activity ++
        (pages limitRecordGet (between (·.height) startBlock e chain)).flatMap
          (pageActs (fun _ => true) (snapshotDb chain c tokens height db) c)).filter
        fun act => act.contract = c).map (·.smart_contract_event_id) =
      (between (·.height) startBlock e chain).map (·.smart_contract_event_id) := by
  set acts := (pages limitRecordGet (between (·.height) startBlock e chain)).flatMap
    (pageActs (fun _ => true) (snapshotDb chain c tokens height db) c) with hacts
  have hold : (snapshotDb chain c tokens height db).cw721_activity.filter
      (fun act => act.contract = c) = [] := by
    refine List.filter_eq_nil_iff.mpr fun act hact => ?_
    simpa using (List.mem_filter.mp hact).2
  have hall : ((pages limitRecordGet (between (·.height) startBlock e chain)).flatten.filter
      fun _ => true) = between (·.height) startBlock e chain := by
    rw [flatten_pages hlimit]
    exact List.filter_true ..
  have hcontract : acts.map (·.contract) =
      (between (·.height) startBlock e chain).map (·.contractAddress) := by
    rw [hacts]
    conv_rhs => rw [← hall]
    exact @map_flatMap_pageActs _ _ _ _ (·.contract) (·.contractAddress)
      (fun row msg => (contract_activityFor row msg).1) _
  have hnew : acts.filter (fun act => act.contract = c) = acts := by
    refine List.filter_eq_self.mpr fun act hact => ?_
    have hmem : act.contract ∈ acts.map (·.contract) := List.mem_map_of_mem hact
    rw [hcontract] at hmem
    obtain ⟨msg, hmsg, heq⟩ := List.mem_map.mp hmem
    rw [← heq]
    simpa using hone msg (between_sublist.subset hmsg)
  rw [List.filter_append, hold, hnew, List.nil_append, hacts]
  conv_rhs => rw [← hall]
  refine @map_flatMap_pageActs _ _ _ _ (·.smart_contract_event_id) (·.smart_contract_event_id)
    (fun row msg => ?_) _
  unfold activityFor
  split <;> rfl

/-- The tokens of a quiet snapshot are those of the chain. -/
theorem token_of_listed (hnodup : tokens.Nodup) (hquiet : ∀ msg ∈ chain,
      ¬ (lowest tokens height < msg.height ∧ msg.height ≤ highest tokens height))
    {tokenId : String} (hmem : tokenId ∈ tokens) :
    ∃ token, (snapshotDb chain c tokens height db).cw721_token.get? (c, tokenId) = some token ∧
      token.owner = ownerAfter (upTo chain (highest tokens height)) (c, tokenId) ∧
      token.burned = false := by
  obtain ⟨hlo, hhi⟩ := @height_mem tokens height tokenId hmem
  refine ⟨_, by rw [get?_snapshotDb hnodup, if_pos hmem], ?_, rfl⟩
  rw [upTo_eq hquiet hlo hhi]

/-- The pages store the events of the range of the missing blocks again, so the run ends only if the
range is empty. -/
theorem range_eq_nil_of_ok {range history : List SmartContractEvent} (hcons : Consistent [] chain)
    (hone : ∀ msg ∈ chain, msg.contractAddress = c) (hlimit : 0 < limitRecordGet)
    (hsub : history ⊆ chain) (hin : range ⊆ history) {db₁ db' : Db}
    (hrange : updateRange (snapshotDb chain c tokens height db) range = .ok db₁)
    (hfold : (pages limitRecordGet history).foldlM (historyPage c) db₁ = .ok db') :
    range = [] := by
  obtain ⟨hacts, hcontract, -, -, hids⟩ := @updateRange_links _ range (fun _ => true)
    (fun msg hmsg => by rw [hone msg (hsub (hin hmsg))]; exact isTracked_snapshotDb)
    (fun msg hmsg => Consistent.mintsNamed hcons msg (hsub (hin hmsg))) db₁ hrange
  have htracked : db₁.isTracked c = true := by
    rw [Db.isTracked, hcontract]
    exact isTracked_snapshotDb
  have hstored : db₁.cw721_activity.map (·.smart_contract_event_id) =
      (snapshotDb chain c tokens height db).cw721_activity.map (·.smart_contract_event_id) ++
        (range.filter fun _ => true).map (·.smart_contract_event_id) := by
    rw [hacts, List.map_append, List.map_map]
    congr 1
    exact @map_id_replayActs (fun _ => true) _ _
  obtain ⟨-, htwice, -⟩ := (historyPages_tracked hcons hone hsub hlimit htracked hids db').mp hfold
  rw [hstored, List.filter_true] at htwice
  refine List.eq_nil_iff_forall_not_mem.mpr fun msg hmsg => ?_
  exact (List.nodup_append.mp htwice).2.2 _
    (List.mem_append_right _ (List.mem_map_of_mem hmsg)) _ (List.mem_map_of_mem (hin hmsg)) rfl

/-- If the events of the tokens that exist are of listed tokens, then those tokens are listed: a
token that exists was minted. -/
theorem listed_of_alive {h : ℕ} (hcons : Consistent [] chain)
    (hcomplete : ∀ msg ∈ chain, alive (upTo chain h) msg.key = true → msg.key.2 ∈ tokens)
    {tokenId : String} (halive : alive (upTo chain h) (c, tokenId) = true) : tokenId ∈ tokens := by
  have hsorted : (upTo chain h).Pairwise fun a b => a.height ≤ b.height :=
    (Consistent.heights hcons).sublist List.filter_sublist
  have hminted := @minted_of_alive _ _ (fun _ => true) hsorted rfl halive
  obtain ⟨msg, hmsg, -, -, hkey⟩ := minted_iff.mp hminted
  rw [← hkey] at halive
  have hlisted := hcomplete msg (List.mem_of_mem_filter hmsg) halive
  rw [hkey] at hlisted
  exact hlisted

end ReindexAllLemmas

/-- Two tokens of the contract `aura1nft`, minted to alice and bob. -/
def twoMints : List SmartContractEvent :=
  [⟨"aura1nft", .mint, 1, "A", 10, [⟨.tokenId, "1"⟩, ⟨.minter, "alice"⟩, ⟨.owner, "alice"⟩]⟩,
   ⟨"aura1nft", .mint, 2, "B", 12, [⟨.tokenId, "2"⟩, ⟨.minter, "alice"⟩, ⟨.owner, "bob"⟩]⟩]

/-- Two tokens, the first of which is given to carol between the two answers. -/
def givenBetween : List SmartContractEvent :=
  [⟨"aura1nft", .mint, 1, "A", 10, [⟨.tokenId, "1"⟩, ⟨.minter, "alice"⟩, ⟨.owner, "alice"⟩]⟩,
   ⟨"aura1nft", .mint, 2, "B", 12, [⟨.tokenId, "2"⟩, ⟨.minter, "alice"⟩, ⟨.owner, "bob"⟩]⟩,
   ⟨"aura1nft", .transferNft, 3, "C", 18,
     [⟨.tokenId, "1"⟩, ⟨.sender, "alice"⟩, ⟨.recipient, "carol"⟩]⟩]

end Erascope.Cw721
