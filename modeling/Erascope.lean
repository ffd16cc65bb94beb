import Erascope.Lib.Table
import Erascope.Lib.Run
import Erascope.Lib.Rows
import Erascope.Lib.Order
import Erascope.Lib.Fold
import Erascope.Lib.Pages
import Erascope.Lib.Tree
import Erascope.Lib.Text
import Erascope.Lib.Number
import Erascope.Lib.Base64
import Erascope.Lib.Ranges
import Erascope.Lib.Decimal
import Erascope.Lib.Paired
import Erascope.Lib.Serial
import Erascope.Lib.JobQueue
import Erascope.Lib.EventJob
import Erascope.Checkpoint.Basic
import Erascope.Checkpoint.Pipeline
import Erascope.Checkpoint.Follow
import Erascope.CrawlBlock.Workers
import Erascope.CrawlTx.Related
import Erascope.CrawlTx.Workers
import Erascope.CrawlTx.Authz
import Erascope.CrawlTx.Pages
import Erascope.CrawlTx.Split
import Erascope.CrawlTx.Attributes
import Erascope.CrawlTx.CoinTransfer
import Erascope.CrawlTx.CoinSums
import Erascope.CrawlAccount.Balances
import Erascope.CrawlAccount.Newest
import Erascope.CrawlCosmwasm.SmartContract
import Erascope.CrawlCosmwasm.Versions
import Erascope.CrawlCosmwasm.ContractEvent
import Erascope.Cw20.Basic
import Erascope.Cw20.Replay
import Erascope.Cw20.Snapshot
import Erascope.Cw20.Queue
import Erascope.Cw20.Cut
import Erascope.Cw20.Reindex
import Erascope.Cw721.Handler
import Erascope.Cw721.Replay
import Erascope.Cw721.Range
import Erascope.Cw721.History
import Erascope.Cw721.Step
import Erascope.Cw721.Cut
import Erascope.Cw721.Pages
import Erascope.Cw721.ReadOwner
import Erascope.Cw721.ReindexHistory
import Erascope.Cw721.ReindexAll
import Erascope.Erc20.Handler
import Erascope.Erc20.Activities
import Erascope.Erc20.Service
import Erascope.Erc20.Pipeline
import Erascope.Erc20.Supply
import Erascope.Erc20.Independence
import Erascope.Erc20.Replay
import Erascope.Erc20.Running
import Erascope.Erc20.Reindex
import Erascope.Erc20.ReindexRun
import Erascope.Erc721.Handler
import Erascope.Erc721.Service
import Erascope.Erc721.Registration
import Erascope.Evm.Transactions
import Erascope.Evm.InternalTx
import Erascope.Evm.Verify
import Erascope.Evm.ProxyHistory
import Erascope.Evm.CheckFiles
import Erascope.Evm.CodeHash
import Erascope.Ibc.App
import Erascope.Ibc.Tao
import Erascope.Ibc.Ics20
import Erascope.Ibc.Denom
import Erascope.Staking.Basic
import Erascope.Staking.Delegations
import Erascope.Staking.Messages
import Erascope.Staking.Counts
import Erascope.Staking.ValidatorIds
import Erascope.Staking.PowerEvents
import Erascope.Staking.Returning
import Erascope.CrawlGenesis.Jobs
import Erascope.Feegrants.Basic
import Erascope.Feegrants.Chain
import Erascope.Feegrants.Run
import Erascope.Feegrants.Extract
import Erascope.HandleVote.Votes
import Erascope.CrawlProposal.Counted
import Erascope.CrawlTx.Redecode
import Erascope.Partition.Constraint
import Erascope.Partition.Migrate
import Erascope.Partition.EventAttr
import Erascope.Partition.Next
import Erascope.Graphql.Ast
import Erascope.Graphql.Guard
import Erascope.Graphql.Expand
import Erascope.Graphql.GuardExpand
import Erascope.Graphql.Gate
import Erascope.Graphql.Bypass
import Erascope.Graphql.Grammar
import Erascope.Graphql.DepthLimit
import Erascope.Graphql.Js
import Erascope.Graphql.WhereDepth
import Erascope.Statistics.Account
import Erascope.Statistics.Groups
import Erascope.Statistics.Days
