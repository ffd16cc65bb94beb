import Mathlib.Tactic
import Erascope.Lib.Run
import Erascope.Checkpoint.Basic

/-!
# The pipeline of checkpointed jobs

Thirty jobs take their range from `BlockCheckpoint.getCheckpoint`. Each names the jobs it
waits for, the configuration entry that bounds a run, and (or not) a test that returns early
when the range is empty. This module lists them with exactly these three choices and studies
the runs of the whole pipeline: any sequence of atomic runs of the jobs, together with
`CRAWL_BLOCK`, which feeds them, from an empty `block_checkpoint` table.

Results:
1. `dependency_order`: a job never passes a dependency, as long as no job runs with some of
   its dependencies present and others missing; and what `getCheckpoint` itself promises.
   `dependency_order_fails`: it does in general, because the minimum is taken over the rows
   that exist.
2. `never_backwards_iff`: the ranges of every job are contiguous and never go back exactly in
   the runs in which the jobs without an early return find their dependencies at or above
   their start. `goes_backwards`: such a job stores `0` when it is the first one to run.
-/

namespace Erascope.Checkpoint

/-! ## 1. The jobs -/

/-- The entries of `BULL_JOB_NAME` (Cosmos and EVM) that own a checkpoint of the pipeline. -/
inductive BullJobName
  | crawlBlock | crawlTransaction | handleTransaction | handleAuthzTx | handleCoinTransfer
  | handleVoteTx | handleAddress | handleFeegrant | crawlProposal | jobUpdateTxCountInBlock
  | crawlValidator | handleStakeEvent | crawlIbcTao | crawlIbcApp | crawlIbcIcs20
  | crawlCode | crawlSmartContract | handleMigrateContract | crawlContractEvent
  | handleCw20 | handleCw721Transaction
  | handleTransactionEvm | evmCrawlInternalTx | jobCrawlEvmEvent | crawlSmartContractEvm
  | handleEvmProxyHistory | handleErc20Contract | handleErc20Activity | handleErc20Balance
  | handleErc721Contract | handleErc721Activity
deriving DecidableEq, Repr

/-- The test between `getCheckpoint` and the work of a job. -/
inductive RangeTest
  /-- `if (startBlock >= endBlock) return;` -/
  | startGeEnd
  /-- `if (startBlock > endBlock) return;` -/
  | startGtEnd
  /-- The job has no test and always stores `endBlock`. -/
  | absent
deriving DecidableEq, Repr

/-- Whether the test returns before the job does anything. -/
def RangeTest.returns : RangeTest → ℕ → ℕ → Bool
  | .startGeEnd, startBlock, endBlock => decide (endBlock ≤ startBlock)
  | .startGtEnd, startBlock, endBlock => decide (endBlock < startBlock)
  | .absent, _, _ => false

/-- The checkpoint part of a job: the arguments it passes to `getCheckpoint` (the value
`config[configName].blocksPerCall` for `configName`) and its early return. -/
structure Job where
  lastHeightJobNames : List BullJobName
  blocksPerCall : Option ℕ
  rangeTest : RangeTest
deriving DecidableEq, Repr

/-- crawl_tx.service.ts -/
def jobCrawlTx : Job := ⟨[.crawlBlock], some 100, .startGeEnd⟩
/-- crawl_tx.service.ts -/
def jobHandlerCrawlTx : Job := ⟨[.crawlTransaction], some 100, .startGeEnd⟩
/-- handle_authz_tx.service.ts, `handleJob` -/
def handleAuthzTx : Job := ⟨[.handleTransaction], some 100, .startGtEnd⟩
/-- coin_transfer.service.ts -/
def jobHandleTxCoinTransfer : Job := ⟨[.handleTransaction], some 100, .startGeEnd⟩
/-- handle_vote_tx.service.ts -/
def handleVote : Job := ⟨[.handleAuthzTx], some 100, .startGtEnd⟩
/-- handle_address.service.ts, `handleJob` -/
def handleAddress : Job := ⟨[.handleTransaction], some 100, .startGeEnd⟩
/-- feegrant.service.ts, `jobHandler` -/
def handleFeegrant : Job := ⟨[.handleTransaction], some 1000, .startGeEnd⟩
/-- crawl_proposal.service.ts -/
def handleCrawlProposals : Job := ⟨[.handleTransaction], some 100, .startGeEnd⟩
/-- update_tx_count_in_block.service.ts -/
def updateTxCountInBlock : Job := ⟨[.crawlBlock], some 100, .startGtEnd⟩
/-- crawl_validator.service.ts; the only job that passes no `configName`. -/
def handleCrawlAllValidator : Job := ⟨[.handleTransaction], none, .startGeEnd⟩
/-- handle_stake_event.service.ts, `handleJob` -/
def handleStakeEvent : Job := ⟨[.handleTransaction, .crawlValidator], some 100, .startGeEnd⟩
/-- crawl_ibc_tao.service.ts -/
def crawlIbcTao : Job := ⟨[.handleTransaction], some 100, .startGtEnd⟩
/-- crawl_ibc_app.service.ts; it passes `config.crawlIbcTao.key`. -/
def crawlIbcApp : Job := ⟨[.crawlIbcTao], some 100, .startGtEnd⟩
/-- crawl_ibc_ics20.service.ts -/
def crawlIbcIcs20 : Job := ⟨[.crawlIbcApp], some 100, .startGtEnd⟩
/-- crawl_code.service.ts, `handleJob` -/
def crawlCode : Job := ⟨[.handleTransaction], some 100, .startGeEnd⟩
/-- crawl_smart_contract.service.ts, `handleJob` -/
def crawlSmartContract : Job := ⟨[.crawlCode], some 100, .startGeEnd⟩
/-- crawl_smart_contract.service.ts -/
def handleMigrateContract : Job := ⟨[.crawlCode], some 100, .startGeEnd⟩
/-- crawl_contract_event.service.ts, `jobHandler` -/
def crawlContractEvent : Job := ⟨[.crawlSmartContract], some 100, .startGeEnd⟩
/-- cw20.service.ts -/
def jobHandleCw20 : Job := ⟨[.crawlContractEvent], some 100, .startGeEnd⟩
/-- cw721.service.ts, `handleJob` -/
def handleCw721Transaction : Job := ⟨[.crawlContractEvent], some 100, .startGeEnd⟩
/-- handle_tx_evm.service.ts, `jobHandler` -/
def handleTransactionEvm : Job := ⟨[.handleTransaction], some 10000, .startGeEnd⟩
/-- evm_crawl_internal_tx.service.ts, `jobHandler` -/
def evmCrawlInternalTx : Job := ⟨[.handleTransactionEvm], some 100, .startGeEnd⟩
/-- crawl_evm_event.service.ts -/
def crawlEvmEventHandler : Job := ⟨[.handleTransactionEvm], some 50, .absent⟩
/-- crawl_contract_evm.service.ts, `jobHandler` -/
def crawlSmartContractEvm : Job :=
  ⟨[.jobCrawlEvmEvent, .evmCrawlInternalTx], some 10000, .startGeEnd⟩
/-- crawl_evm_proxy_history.service.ts, `jobHandler` -/
def handleEvmProxyHistory : Job := ⟨[.crawlSmartContractEvm], some 100, .absent⟩
/-- erc20.service.ts -/
def handleErc20Contract : Job := ⟨[.crawlSmartContractEvm], some 100, .absent⟩
/-- erc20.service.ts -/
def handleErc20Activity : Job :=
  ⟨[.handleErc20Contract, .handleEvmProxyHistory], some 100, .absent⟩
/-- erc20.service.ts -/
def handleErc20Balance : Job := ⟨[.handleErc20Activity], some 100, .absent⟩
/-- erc721.service.ts -/
def handleErc721Contract : Job := ⟨[.crawlSmartContractEvm], some 100, .absent⟩
/-- erc721.service.ts -/
def handleErc721Activity : Job :=
  ⟨[.handleErc721Contract, .handleEvmProxyHistory], some 100, .absent⟩

/-- The job behind a checkpoint row. `CRAWL_BLOCK` is not one of them: it follows the node. -/
def jobOf : BullJobName → Option Job
  | .crawlBlock => none
  | .crawlTransaction => some jobCrawlTx
  | .handleTransaction => some jobHandlerCrawlTx
  | .handleAuthzTx => some handleAuthzTx
  | .handleCoinTransfer => some jobHandleTxCoinTransfer
  | .handleVoteTx => some handleVote
  | .handleAddress => some handleAddress
  | .handleFeegrant => some handleFeegrant
  | .crawlProposal => some handleCrawlProposals
  | .jobUpdateTxCountInBlock => some updateTxCountInBlock
  | .crawlValidator => some handleCrawlAllValidator
  | .handleStakeEvent => some handleStakeEvent
  | .crawlIbcTao => some crawlIbcTao
  | .crawlIbcApp => some crawlIbcApp
  | .crawlIbcIcs20 => some crawlIbcIcs20
  | .crawlCode => some crawlCode
  | .crawlSmartContract => some crawlSmartContract
  | .handleMigrateContract => some handleMigrateContract
  | .crawlContractEvent => some crawlContractEvent
  | .handleCw20 => some jobHandleCw20
  | .handleCw721Transaction => some handleCw721Transaction
  | .handleTransactionEvm => some handleTransactionEvm
  | .evmCrawlInternalTx => some evmCrawlInternalTx
  | .jobCrawlEvmEvent => some crawlEvmEventHandler
  | .crawlSmartContractEvm => some crawlSmartContractEvm
  | .handleEvmProxyHistory => some handleEvmProxyHistory
  | .handleErc20Contract => some handleErc20Contract
  | .handleErc20Activity => some handleErc20Activity
  | .handleErc20Balance => some handleErc20Balance
  | .handleErc721Contract => some handleErc721Contract
  | .handleErc721Activity => some handleErc721Activity

/-! ## 2. Runs -/

/-- One atomic run of a job: the range, the early return, and the checkpoint it stores. -/
def runJob (startBlock : ℕ) (j : BullJobName) (job : Job) (t : Checkpoints BullJobName) :
    Checkpoints BullJobName :=
  let (start, endBlock, updateBlockCheckpoint) :=
    getCheckpoint startBlock t j job.lastHeightJobNames job.blocksPerCall
  if job.rangeTest.returns start endBlock then t
  else storeCheckpoint t updateBlockCheckpoint endBlock

/-- `config.crawlBlock.blocksPerCall` -/
def crawlBlockBlocksPerCall : ℕ := 100

/-- crawl_block.service.ts, `initEnv`: the first run inserts the row. -/
def initEnv (startBlock : ℕ) (t : Checkpoints BullJobName) : Checkpoints BullJobName :=
  match t.get? .crawlBlock with
  | some _ => t
  | none => t.upsert ⟨.crawlBlock, startBlock⟩

/-- crawl_block.service.ts, `handleJobCrawlBlock`, as far as the checkpoint goes:
`latestBlockNetwork` is the height the node reports. -/
def handleJobCrawlBlock (latestBlockNetwork : ℕ) (t : Checkpoints BullJobName) :
    Checkpoints BullJobName :=
  let currentBlock := (heightOf t .crawlBlock).getD 0
  let startBlock := currentBlock + 1
  let endBlock := startBlock + crawlBlockBlocksPerCall - 1
  let endBlock := if endBlock > latestBlockNetwork then latestBlockNetwork else endBlock
  if currentBlock < endBlock then t.upsert ⟨.crawlBlock, endBlock⟩ else t

/-- A step of the pipeline. -/
inductive PipelineStep
  /-- A run of `CRAWL_BLOCK` while the node reports the given height. -/
  | crawlBlock (latestBlockNetwork : ℕ)
  /-- A run of one of the checkpointed jobs. -/
  | run (j : BullJobName)
deriving DecidableEq, Repr

/-- The table after a step. -/
def pipelineStep (startBlock : ℕ) (t : Checkpoints BullJobName) :
    PipelineStep → Checkpoints BullJobName
  | .crawlBlock latestBlockNetwork => handleJobCrawlBlock latestBlockNetwork (initEnv startBlock t)
  | .run j =>
    match jobOf j with
    | some job => runJob startBlock j job t
    | none => t

namespace PipelineLemmas

theorem lastHeightJobNames_ne_nil {j : BullJobName} {job : Job} (h : jobOf j = some job) :
    job.lastHeightJobNames ≠ [] := by
  cases j <;> simp only [jobOf, Option.some.injEq, reduceCtorEq] at h <;> subst h <;> decide

/-- What a run of a job does to the heights. -/
theorem heightOf_runJob (startBlock : ℕ) (j : BullJobName) (job : Job)
    (t : Checkpoints BullJobName) (x : BullJobName) :
    let start := startHeight startBlock t j
    let endBlock := endHeight start t job.lastHeightJobNames job.blocksPerCall
    heightOf (runJob startBlock j job t) x =
      if job.rangeTest.returns start endBlock = false ∧ j = x then some endBlock
      else heightOf t x := by
  have hname := getCheckpoint_job_name startBlock t j job.lastHeightJobNames job.blocksPerCall
  intro start endBlock
  unfold runJob
  by_cases hr : job.rangeTest.returns start endBlock = true
  · rw [if_neg (by simp [hr])]
    exact congrArg (heightOf · x) (if_pos hr)
  · have hstore := heightOf_upsert t
      { (getCheckpoint startBlock t j job.lastHeightJobNames job.blocksPerCall).2.2 with
        height := endBlock } x
    rw [hname] at hstore
    simp only [Bool.not_eq_true _ ▸ hr, true_and]
    exact (congrArg (heightOf · x) (if_neg hr)).trans hstore

theorem heightOf_initEnv (startBlock : ℕ) (t : Checkpoints BullJobName) (x : BullJobName) :
    heightOf (initEnv startBlock t) x =
      if x = .crawlBlock then some ((heightOf t .crawlBlock).getD startBlock)
      else heightOf t x := by
  unfold initEnv
  cases h : t.get? .crawlBlock with
  | some row =>
    by_cases hx : x = .crawlBlock
    · subst hx
      simp [heightOf, h]
    · simp [hx]
  | none =>
    rw [heightOf_upsert]
    by_cases hx : x = .crawlBlock
    · simp [hx, heightOf, h]
    · rw [if_neg (fun he => hx he.symm), if_neg hx]

/-- `CRAWL_BLOCK` touches only its own row, creates it at or above `startBlock` and never
lowers it. -/
theorem heightOf_crawlBlock (startBlock latest : ℕ) (t : Checkpoints BullJobName) :
    (∀ x, x ≠ .crawlBlock →
      heightOf (pipelineStep startBlock t (.crawlBlock latest)) x = heightOf t x) ∧
    ∃ h, heightOf (pipelineStep startBlock t (.crawlBlock latest)) .crawlBlock = some h ∧
      (heightOf t .crawlBlock).getD startBlock ≤ h := by
  have hinit := heightOf_initEnv startBlock t
  have hcur : heightOf (initEnv startBlock t) .crawlBlock =
      some ((heightOf t .crawlBlock).getD startBlock) := by rw [hinit, if_pos rfl]
  simp only [pipelineStep, handleJobCrawlBlock, hcur, Option.getD_some]
  generalize (if _ > latest then latest else _) = endBlock
  split
  · next hlt =>
    refine ⟨fun x hx => ?_, endBlock, by rw [heightOf_upsert, if_pos rfl], hlt.le⟩
    rw [heightOf_upsert, if_neg (fun he => hx he.symm), hinit, if_neg hx]
  · exact ⟨fun x hx => by rw [hinit, if_neg hx], _, hcur, le_refl _⟩

end PipelineLemmas

open PipelineLemmas

/-! ## 3. Dependency order -/

/-- No job is above a job it depends on, where `startBlock` counts as processed by everyone
and a dependency without a row has processed nothing. -/
def DependencyOrder (startBlock : ℕ) (t : Checkpoints BullJobName) : Prop :=
  ∀ j job, jobOf j = some job → ∀ d ∈ job.lastHeightJobNames, ∀ h, heightOf t j = some h →
    h ≤ max startBlock ((heightOf t d).getD 0)

/-- The dependencies are all there, or none is, or one that is there already stops the job. -/
def DependenciesReady (startBlock : ℕ) (t : Checkpoints BullJobName) (j : BullJobName)
    (lastHeightJobNames : List BullJobName) : Prop :=
  (∀ d ∈ lastHeightJobNames, heightOf t d ≠ none) ∨
  (∀ d ∈ lastHeightJobNames, heightOf t d = none) ∨
  ∃ d ∈ lastHeightJobNames, ∃ h, heightOf t d = some h ∧ h ≤ startHeight startBlock t j

/-- The condition on a step of the pipeline: the job that runs finds its dependencies ready. -/
def StepReady (startBlock : ℕ) (t : Checkpoints BullJobName) : PipelineStep → Prop
  | .crawlBlock _ => True
  | .run j => ∀ job, jobOf j = some job →
      DependenciesReady startBlock t j job.lastHeightJobNames

namespace PipelineLemmas

/-- A job that moves back was not above `startBlock`. -/
theorem le_startBlock_of_backwards {startBlock : ℕ} {t : Checkpoints BullJobName}
    (hinv : DependencyOrder startBlock t) {j : BullJobName} {job : Job}
    (hj : jobOf j = some job) {old : ℕ} (hold : heightOf t j = some old)
    (hback : endHeight old t job.lastHeightJobNames job.blocksPerCall < old) :
    old ≤ startBlock := by
  cases hl : lastHeight t job.lastHeightJobNames with
  | none =>
    obtain ⟨d, hd⟩ := List.exists_mem_of_ne_nil _ (lastHeightJobNames_ne_nil hj)
    have hle := hinv j job hj d hd old hold
    rw [lastHeight_eq_none_iff.mp hl d hd] at hle
    simpa using hle
  | some m =>
    obtain ⟨⟨d, hd, hm⟩, _⟩ := lastHeight_eq_some_iff.mp hl
    have hle := hinv j job hj d hd old hold
    rw [hm, Option.getD_some] at hle
    rw [endHeight_of_lastHeight hl] at hback
    cases hb : job.blocksPerCall with
    | none => simp only [hb, Option.map_none, Option.getD_none] at hback; omega
    | some k => simp only [hb, Option.map_some, Option.getD_some] at hback; omega

/-- The range of a ready job ends at or below each of its dependencies, or does not leave what
the job had before. -/
theorem endHeight_le_of_ready {startBlock : ℕ} {t : Checkpoints BullJobName}
    (hinv : DependencyOrder startBlock t) {j : BullJobName} {job : Job} (hj : jobOf j = some job)
    (hr : DependenciesReady startBlock t j job.lastHeightJobNames) {d : BullJobName}
    (hd : d ∈ job.lastHeightJobNames) :
    endHeight (startHeight startBlock t j) t job.lastHeightJobNames job.blocksPerCall ≤
      max startBlock ((heightOf t d).getD 0) := by
  cases hh : heightOf t d with
  | some h => exact (endHeight_le_dependency hd hh).trans (le_max_right _ _)
  | none =>
    rcases hr with hall | hnone | ⟨d', hd', h', hh', hle⟩
    · exact absurd hh (hall d hd)
    · rw [endHeight_eq_zero hnone]
      exact Nat.zero_le _
    · refine (endHeight_le_dependency hd' hh').trans (hle.trans ?_)
      -- the job itself has not passed the missing dependency so far
      cases hj' : heightOf t j with
      | none => simp [startHeight, hj']
      | some old =>
        have := hinv j job hj d hd old hj'
        simpa [startHeight, hj', hh] using this

theorem dependencyOrder_runJob {startBlock : ℕ} {t : Checkpoints BullJobName}
    (hinv : DependencyOrder startBlock t) {j : BullJobName} {job : Job} (hj : jobOf j = some job)
    (hr : DependenciesReady startBlock t j job.lastHeightJobNames) :
    DependencyOrder startBlock (runJob startBlock j job t) := by
  have hrun := heightOf_runJob startBlock j job t
  simp only at hrun
  set start := startHeight startBlock t j with hstart
  set endBlock := endHeight start t job.lastHeightJobNames job.blocksPerCall with hend
  intro j' job' hj' d hd h hh
  rw [hrun] at hh ⊢
  by_cases hret : job.rangeTest.returns start endBlock = false
  · simp only [hret, true_and] at hh ⊢
    by_cases hjj : j = j'
    · -- the job that ran: the range respects the dependencies
      subst hjj
      rw [hj] at hj'
      cases hj'
      simp only [if_true, Option.some.injEq] at hh
      subst hh
      by_cases hjd : j = d
      · simp [hjd]
      · rw [if_neg hjd]
        exact endHeight_le_of_ready hinv hj hr hd
    · -- another job, possibly one that depends on the job that ran
      rw [if_neg hjj] at hh
      have hle := hinv j' job' hj' d hd h hh
      by_cases hjd : j = d
      · subst hjd
        simp only [if_true, Option.getD_some]
        cases hold : heightOf t j with
        | none =>
          rw [hold] at hle
          simp only [Option.getD_none] at hle
          omega
        | some old =>
          rw [hold, Option.getD_some] at hle
          rcases Nat.lt_or_ge endBlock old with hlt | hge
          · have hs : start = old := by simp [hstart, startHeight, hold]
            have := le_startBlock_of_backwards hinv hj hold (by rw [← hs, ← hend]; omega)
            omega
          · omega
      · rw [if_neg hjd]
        exact hle
  · rw [if_neg fun hc => hret hc.1] at hh
    rw [if_neg fun hc => hret hc.1]
    exact hinv j' job' hj' d hd h hh

theorem dependencyOrder_crawlBlock {startBlock : ℕ} {t : Checkpoints BullJobName}
    (hinv : DependencyOrder startBlock t) (latest : ℕ) :
    DependencyOrder startBlock (pipelineStep startBlock t (.crawlBlock latest)) := by
  obtain ⟨hother, c, hc, hle⟩ := heightOf_crawlBlock startBlock latest t
  intro j job hj d hd h hh
  have hjc : j ≠ .crawlBlock := by
    rintro rfl
    cases hj
  rw [hother j hjc] at hh
  have hold := hinv j job hj d hd h hh
  by_cases hdc : d = .crawlBlock
  · subst hdc
    rw [hc, Option.getD_some]
    cases hcur : heightOf t .crawlBlock with
    | none =>
      rw [hcur] at hold
      simp only [Option.getD_none] at hold
      omega
    | some cur =>
      rw [hcur, Option.getD_some] at hold hle
      omega
  · rw [hother d hdc]
    exact hold

end PipelineLemmas

/-- What one step of the pipeline preserves. -/
theorem dependencyOrder_step {startBlock : ℕ} (t : Checkpoints BullJobName) (a : PipelineStep)
    (hinv : DependencyOrder startBlock t) (hr : StepReady startBlock t a) :
    DependencyOrder startBlock (pipelineStep startBlock t a) := by
  cases a with
  | crawlBlock latest => exact dependencyOrder_crawlBlock hinv latest
  | run j =>
    cases hj : jobOf j with
    | none => simpa only [pipelineStep, hj] using hinv
    | some job =>
      simp only [pipelineStep, hj]
      exact dependencyOrder_runJob hinv hj (hr job hj)

/-- The order of the pipeline. For every table and every dependency list the range ends at or
below every dependency that has a row, and it ends at or below its start in spite of a missing
dependency exactly when the dependencies are ready. In every run from the empty table whose
jobs all find their dependencies ready, no job passes a job it depends on. -/
theorem dependency_order (startBlock : ℕ) :
    (∀ (t : Checkpoints BullJobName) (j : BullJobName) (deps : List BullJobName) (n : Option ℕ),
      n ≠ some 0 →
      (∀ d ∈ deps, ∀ h, heightOf t d = some h → (getCheckpoint startBlock t j deps n).2.1 ≤ h) ∧
      (((∃ d ∈ deps, heightOf t d = none) →
        (getCheckpoint startBlock t j deps n).2.1 ≤ (getCheckpoint startBlock t j deps n).1) ↔
        DependenciesReady startBlock t j deps)) ∧
    ∀ steps, Meets (pipelineStep startBlock) (StepReady startBlock) Table.empty steps →
      DependencyOrder startBlock (runFrom (pipelineStep startBlock) Table.empty steps) := by
  refine ⟨fun t j deps n hn => ⟨fun d hd h hh => endHeight_le_dependency hd hh, ?_⟩, ?_⟩
  · have hempty : endHeight (startHeight startBlock t j) t deps n ≤ startHeight startBlock t j ↔
        _ := endHeight_le_startHeight_iff hn
    simp only [getCheckpoint, hempty, DependenciesReady]
    by_cases hall : ∀ d ∈ deps, heightOf t d ≠ none
    · refine ⟨fun _ => Or.inl hall, ?_⟩
      rintro - ⟨d, hd, hnone⟩
      exact absurd hnone (hall d hd)
    · have hmissing : ∃ d ∈ deps, heightOf t d = none := by
        simpa only [not_forall, exists_prop, not_not] using hall
      exact ⟨fun h => Or.inr (h hmissing), fun h _ => h.resolve_left hall⟩
  · intro steps hsteps
    refine hsteps.invariant dependencyOrder_step ?_
    intro j job hj d hd h hh
    simp at hh

/-- A run in which the validators are crawled before the stake events: every step is ready. -/
theorem dependency_order_with_validators :
    Meets (pipelineStep 4860000) (StepReady 4860000) Table.empty
      [.crawlBlock 4860250, .run .crawlTransaction, .run .handleTransaction,
        .run .crawlValidator, .run .handleStakeEvent] ∧
    DependencyOrder 4860000 (runFrom (pipelineStep 4860000) Table.empty
      [.crawlBlock 4860250, .run .crawlTransaction, .run .handleTransaction,
        .run .crawlValidator, .run .handleStakeEvent]) := by
  have hready : Meets (pipelineStep 4860000) (StepReady 4860000) Table.empty
      [.crawlBlock 4860250, .run .crawlTransaction, .run .handleTransaction,
        .run .crawlValidator, .run .handleStakeEvent] := by
    refine ⟨trivial, ?_, ?_, ?_, ?_, trivial⟩ <;> rintro job ⟨⟩ <;>
      exact Or.inl (by decide)
  exact ⟨hready, (dependency_order 4860000).2 _ hready⟩

/-- The order fails in general. When `HANDLE_STAKE_EVENT` runs before the first run of
`CRAWL_VALIDATOR`, the minimum is taken over `HANDLE_TRANSACTION` alone, and the job passes the
dependency that has no row. -/
theorem dependency_order_fails :
    ¬ DependencyOrder 4860000 (runFrom (pipelineStep 4860000) Table.empty
      [.crawlBlock 4860250, .run .crawlTransaction, .run .handleTransaction,
        .run .handleStakeEvent]) := by
  intro h
  exact absurd (h .handleStakeEvent handleStakeEvent rfl .crawlValidator (by decide) 4860100
    (by decide)) (by decide)

/-! ## 4. Ranges never go back -/

/-- A range `(start, stop]` that a run of `job` has stored. -/
structure StoredRange where
  job : BullJobName
  start : ℕ
  stop : ℕ
deriving DecidableEq, Repr

/-- The range that a step stores, if it stores one. -/
def storedRange (startBlock : ℕ) (t : Checkpoints BullJobName) :
    PipelineStep → Option StoredRange
  | .crawlBlock _ => none
  | .run j =>
    match jobOf j with
    | none => none
    | some job =>
      let (start, endBlock, _) :=
        getCheckpoint startBlock t j job.lastHeightJobNames job.blocksPerCall
      if job.rangeTest.returns start endBlock then none else some ⟨j, start, endBlock⟩

/-- The ranges that a run stores, in order. -/
def storedRanges (startBlock : ℕ) : Checkpoints BullJobName → List PipelineStep → List StoredRange
  | _, [] => []
  | t, a :: as =>
    (storedRange startBlock t a).toList ++ storedRanges startBlock (pipelineStep startBlock t a) as

/-- Ranges that start at `first`, follow each other without a gap, and never overlap. -/
structure Consecutive (first : ℕ) (rs : List StoredRange) : Prop where
  head : ∀ r ∈ rs.head?, r.start = first
  contiguous : rs.IsChain fun a b => a.stop = b.start
  disjoint : rs.Pairwise fun a b => a.stop ≤ b.start

/-- The condition on a step: a job without an early return finds a dependency row, and no
dependency row below its start (or it has no dependency row and starts at `0`). -/
def RangeReady (startBlock : ℕ) (t : Checkpoints BullJobName) : PipelineStep → Prop
  | .crawlBlock _ => True
  | .run j => ∀ job, jobOf j = some job → job.rangeTest = .absent →
      ((∃ d ∈ job.lastHeightJobNames, heightOf t d ≠ none) ∧
        ∀ d ∈ job.lastHeightJobNames, ∀ h, heightOf t d = some h →
          startHeight startBlock t j ≤ h) ∨
      ((∀ d ∈ job.lastHeightJobNames, heightOf t d = none) ∧ startHeight startBlock t j = 0)

namespace PipelineLemmas

theorem startHeight_le_endHeight_iff {start : ℕ} {t : Checkpoints BullJobName}
    {deps : List BullJobName} {n : Option ℕ} :
    start ≤ endHeight start t deps n ↔
      ((∃ d ∈ deps, heightOf t d ≠ none) ∧ ∀ d ∈ deps, ∀ h, heightOf t d = some h → start ≤ h) ∨
      ((∀ d ∈ deps, heightOf t d = none) ∧ start = 0) := by
  cases hl : lastHeight t deps with
  | none =>
    have hnone := lastHeight_eq_none_iff.mp hl
    rw [endHeight_eq_zero hnone, Nat.le_zero]
    exact ⟨fun h => Or.inr ⟨hnone, h⟩, fun h => h.elim
      (fun ⟨⟨d, hd, hne⟩, _⟩ => absurd (hnone d hd) hne) And.right⟩
  | some m =>
    obtain ⟨⟨d, hd, hm⟩, hle⟩ := lastHeight_eq_some_iff.mp hl
    have hmin : start ≤ endHeight start t deps n ↔ start ≤ m := by
      rw [endHeight_of_lastHeight hl]
      cases n with
      | none => rfl
      | some k => simp only [Option.map_some, Option.getD_some]; omega
    rw [hmin]
    constructor
    · intro h
      exact Or.inl ⟨⟨d, hd, by simp [hm]⟩, fun d' hd' h' hh' => h.trans (hle d' hd' h' hh')⟩
    · rintro (⟨_, hall⟩ | ⟨hnone, _⟩)
      · exact hall d hd m hm
      · simp [hnone d hd] at hm

theorem storedRange_run {startBlock : ℕ} {t : Checkpoints BullJobName} {j : BullJobName}
    {job : Job} (hj : jobOf j = some job) :
    storedRange startBlock t (.run j) =
      let start := startHeight startBlock t j
      let endBlock := endHeight start t job.lastHeightJobNames job.blocksPerCall
      if job.rangeTest.returns start endBlock = true then none else some ⟨j, start, endBlock⟩ := by
  simp only [storedRange, hj]
  rfl

/-- A stored range starts at the height of its job, and its end is the height afterwards. -/
theorem storedRange_spec {startBlock : ℕ} {t : Checkpoints BullJobName} {a : PipelineStep}
    {r : StoredRange} (h : storedRange startBlock t a = some r) :
    a = .run r.job ∧ r.start = startHeight startBlock t r.job ∧
    heightOf (pipelineStep startBlock t a) r.job = some r.stop := by
  cases a with
  | crawlBlock _ => cases h
  | run j =>
    cases hj : jobOf j with
    | none => simp [storedRange, hj] at h
    | some job =>
      have hrun := heightOf_runJob startBlock j job t j
      simp only at hrun
      rw [storedRange_run hj] at h
      by_cases hret : job.rangeTest.returns (startHeight startBlock t j) (endHeight
          (startHeight startBlock t j) t job.lastHeightJobNames job.blocksPerCall) = true
      · simp only [hret, if_true, reduceCtorEq] at h
      · simp only [if_neg hret, Option.some.injEq] at h
        subst h
        refine ⟨rfl, rfl, ?_⟩
        simp only [pipelineStep, hj]
        rw [hrun, if_pos ⟨by simpa using hret, trivial⟩]

/-- The checkpointed job whose range a step does not store keeps its height. -/
theorem heightOf_step_of_ne {startBlock : ℕ} {t : Checkpoints BullJobName} {a : PipelineStep}
    {j : BullJobName} (hjc : j ≠ .crawlBlock)
    (h : ∀ r ∈ storedRange startBlock t a, r.job ≠ j) :
    heightOf (pipelineStep startBlock t a) j = heightOf t j := by
  cases a with
  | crawlBlock latest => exact (heightOf_crawlBlock startBlock latest t).1 j hjc
  | run j' =>
    cases hj : jobOf j' with
    | none => simp only [pipelineStep, hj]
    | some job =>
      have hrun := heightOf_runJob startBlock j' job t j
      simp only at hrun
      simp only [pipelineStep, hj, hrun]
      refine if_neg ?_
      rintro ⟨hret, rfl⟩
      refine h ⟨j', startHeight startBlock t j', endHeight (startHeight startBlock t j') t
        job.lastHeightJobNames job.blocksPerCall⟩ ?_ rfl
      simp [storedRange_run hj, hret]

/-- A step goes back exactly when it does not meet `RangeReady`. -/
theorem rangeReady_iff {startBlock : ℕ} {t : Checkpoints BullJobName} {a : PipelineStep} :
    RangeReady startBlock t a ↔ ∀ r ∈ storedRange startBlock t a, r.start ≤ r.stop := by
  cases a with
  | crawlBlock _ => simp [RangeReady, storedRange]
  | run j =>
    cases hj : jobOf j with
    | none => simp [RangeReady, storedRange, hj]
    | some job =>
      simp only [RangeReady, hj, Option.some.injEq, forall_eq', storedRange_run hj]
      rw [← startHeight_le_endHeight_iff (n := job.blocksPerCall)]
      -- the early returns leave only ranges that do not go back
      cases ht : job.rangeTest with
      | absent => simp [RangeTest.returns]
      | startGeEnd =>
        simp only [RangeTest.returns, decide_eq_true_eq]
        split
        · simp
        · next hlt => simpa using Nat.le_of_lt (Nat.lt_of_not_le hlt)
      | startGtEnd =>
        simp only [RangeTest.returns, decide_eq_true_eq]
        split
        · simp
        · next hle => simpa using Nat.le_of_not_lt hle

theorem forall_storedRanges_iff {startBlock : ℕ} {steps : List PipelineStep} :
    ∀ t : Checkpoints BullJobName,
      (∀ r ∈ storedRanges startBlock t steps, r.start ≤ r.stop) ↔
        Meets (pipelineStep startBlock) (RangeReady startBlock) t steps := by
  induction steps with
  | nil => simp [storedRanges, Meets]
  | cons a as ih =>
    intro t
    simp only [storedRanges, List.mem_append, Option.mem_toList, or_imp, forall_and, Meets,
      rangeReady_iff, ih, Option.mem_def]

theorem crawlBlock_not_mem_storedRanges {startBlock : ℕ} {steps : List PipelineStep} :
    ∀ (t : Checkpoints BullJobName), ∀ r ∈ storedRanges startBlock t steps,
      r.job ≠ .crawlBlock := by
  induction steps with
  | nil => simp [storedRanges]
  | cons a as ih =>
    intro t r hr hc
    rcases List.mem_append.mp hr with hr | hr
    · obtain ⟨rfl, -, -⟩ := storedRange_spec (Option.mem_toList.mp hr)
      rw [hc] at hr
      simp [storedRange, jobOf] at hr
    · exact ih _ r hr hc

/-- The ranges of one job: each starts where the one before it ended, the first one at the
height of the job. -/
theorem contiguous_storedRanges {startBlock : ℕ} {j : BullJobName} (hjc : j ≠ .crawlBlock)
    {steps : List PipelineStep} : ∀ t : Checkpoints BullJobName,
      (∀ r ∈ ((storedRanges startBlock t steps).filter (·.job = j)).head?,
        r.start = startHeight startBlock t j) ∧
      ((storedRanges startBlock t steps).filter (·.job = j)).IsChain
        fun a b => a.stop = b.start := by
  induction steps with
  | nil => simp [storedRanges]
  | cons a as ih =>
    intro t
    obtain ⟨hhead, hchain⟩ := ih (pipelineStep startBlock t a)
    cases hs : storedRange startBlock t a with
    | none =>
      have hsame : heightOf (pipelineStep startBlock t a) j = heightOf t j :=
        heightOf_step_of_ne hjc (by simp [hs])
      simp only [storedRanges, hs, Option.toList_none, List.nil_append]
      refine ⟨fun r hr => ?_, hchain⟩
      rw [hhead r hr, startHeight, startHeight, hsame]
    | some r =>
      obtain ⟨-, hstart, hstop⟩ := storedRange_spec hs
      simp only [storedRanges, hs, Option.toList_some, List.singleton_append, List.filter_cons]
      by_cases hrj : r.job = j
      · subst hrj
        simp only [decide_true, if_true, List.head?_cons, Option.mem_some_iff, forall_eq']
        refine ⟨hstart, List.isChain_cons.mpr ⟨fun b hb => ?_, hchain⟩⟩
        rw [hhead b hb, startHeight, hstop, Option.getD_some]
      · have hsame : heightOf (pipelineStep startBlock t a) j = heightOf t j :=
          heightOf_step_of_ne hjc (by simpa [hs] using hrj)
        simp only [hrj, decide_false, Bool.false_eq_true, if_false]
        refine ⟨fun b hb => ?_, hchain⟩
        rw [hhead b hb, startHeight, startHeight, hsame]

/-- Contiguous ranges that do not go back do not overlap. -/
theorem pairwise_of_isChain {rs : List StoredRange} (hle : ∀ r ∈ rs, r.start ≤ r.stop)
    (hchain : rs.IsChain fun a b => a.stop = b.start) :
    rs.Pairwise fun a b => a.stop ≤ b.start := by
  induction rs with
  | nil => exact List.Pairwise.nil
  | cons a rs ih =>
    have htail := ih (fun r hr => hle r (List.mem_cons_of_mem _ hr)) hchain.tail
    refine List.Pairwise.cons (fun b hb => ?_) htail
    cases rs with
    | nil => cases hb
    | cons c rs =>
      have hac : a.stop = c.start := (List.isChain_cons_cons.mp hchain).1
      rcases List.mem_cons.mp hb with rfl | hb
      · exact hac.le
      · have hcb := List.rel_of_pairwise_cons htail hb
        have hc := hle c (by simp)
        omega

end PipelineLemmas

/-- Checkpoints never move backwards: in a run from the empty table, no job ever stores a
height below the start of its range, and the ranges of each job start at `startBlock`, are
contiguous and do not overlap, if and only if every job without an early return finds its
dependencies at or above its start. -/
theorem never_backwards_iff (startBlock : ℕ) (steps : List PipelineStep) :
    ((∀ r ∈ storedRanges startBlock Table.empty steps, r.start ≤ r.stop) ∧
      ∀ j, Consecutive startBlock
        ((storedRanges startBlock Table.empty steps).filter (·.job = j))) ↔
    Meets (pipelineStep startBlock) (RangeReady startBlock) Table.empty steps := by
  constructor
  · rintro ⟨hle, _⟩
    exact (forall_storedRanges_iff _).mp hle
  · intro h
    have hle := (forall_storedRanges_iff _).mpr h
    refine ⟨hle, fun j => ?_⟩
    by_cases hjc : j = .crawlBlock
    · have hnil : (storedRanges startBlock Table.empty steps).filter (·.job = j) = [] := by
        rw [List.filter_eq_nil_iff]
        intro r hr
        simpa [hjc] using crawlBlock_not_mem_storedRanges _ r hr
      rw [hnil]
      exact ⟨by simp, by simp, by simp⟩
    · obtain ⟨hhead, hchain⟩ := @contiguous_storedRanges startBlock j hjc steps Table.empty
      refine ⟨hhead, hchain, pairwise_of_isChain (fun r hr => ?_) hchain⟩
      exact hle r (List.mem_of_mem_filter hr)

/-- Going back happens: `handleErc20Contract` has no early return, so when it is the first
job to run it stores `0`, below the `startBlock` it was given. -/
theorem goes_backwards :
    ∃ r ∈ storedRanges 4860000 Table.empty [.run .handleErc20Contract], r.stop < r.start :=
  ⟨⟨.handleErc20Contract, 4860000, 0⟩, by decide, by decide⟩

end Erascope.Checkpoint
