import Experimint.Lib.Table
import Experimint.Lib.Run
import Experimint.Lib.Replay
import Experimint.Lib.Submission
import Experimint.Lib.Fifo
import Experimint.Lib.Saturating
import Experimint.Lib.ConstantProduct
import Experimint.Lib.OrderStatistics
import Experimint.Lib.Quorum
import Experimint.Lib.Reader
import Experimint.Lib.Keyset
import Experimint.Lib.Enumeration
import Experimint.Lib.Growth
import Experimint.Lib.Chunks
import Experimint.Lib.Bisection
import Experimint.Lib.FirstHit
import Experimint.Lib.Codec
import Experimint.Lib.Upgrade
import Experimint.Lib.GapScan
import Experimint.Lib.Text
import Experimint.Lib.Calendar
import Experimint.Framework
import Experimint.Amm.Curve
import Experimint.Amm.Types
import Experimint.Amm.Server
import Experimint.Amm.Step
import Experimint.Amm.Invariant
import Experimint.Amm.Conservation
import Experimint.Amm.FeeVotes
import Experimint.Amm.Proposals
import Experimint.Amm.Recovery
import Experimint.Amm.Atomicity
import Experimint.Amm.Quote
import Experimint.Amm.Splitting
import Experimint.Amm.Dilution
import Experimint.Amm.Pop
import Experimint.Amm.SwapClient
import Experimint.Amm.SwapRuns
import Experimint.Usdt.Types
import Experimint.Usdt.Bytes
import Experimint.Usdt.Address
import Experimint.Usdt.UserOp
import Experimint.Usdt.CallData
import Experimint.Usdt.Proof
import Experimint.Usdt.Db
import Experimint.Usdt.Votes
import Experimint.Usdt.Signing
import Experimint.Usdt.Triggers
import Experimint.Usdt.Settle
import Experimint.Usdt.Server
import Experimint.Usdt.Accepted
import Experimint.Usdt.Books
import Experimint.Usdt.Chains
import Experimint.Usdt.Effect
import Experimint.Usdt.Payload
import Experimint.Usdt.Withdrawals
import Experimint.Usdt.Ledger
import Experimint.Usdt.FeeBacking
import Experimint.Usdt.Realized
import Experimint.Usdt.InFlight
import Experimint.Usdt.Onchain
import Experimint.Usdt.HighWater
import Experimint.Usdt.Finalize
import Experimint.Usdt.Lifecycle
import Experimint.Usdt.Ballots
import Experimint.Usdt.Progress
import Experimint.Usdt.Quorum
import Experimint.Usdt.Medians
import Experimint.Usdt.Quotes
import Experimint.Usdt.BlockCount
import Experimint.Usdt.Rotation
import Experimint.Usdt.Queue
import Experimint.Usdt.Turns
import Experimint.Usdt.Isolation
import Experimint.Usdt.Sweeps
import Experimint.Usdt.Ladder
import Experimint.Usdt.Reprice
import Experimint.Usdt.Ceiling
import Experimint.Usdt.Inbox
import Experimint.Usdt.Rounds
import Experimint.Usdt.Sessions
import Experimint.Usdt.Timeline
import Experimint.Usdt.Migration
import Experimint.Usdt.OpCodec
import Experimint.Usdt.Booked
import Experimint.Usdt.Commitment
import Experimint.Usdt.Scan
import Experimint.Usdt.Discovery
import Experimint.Usdt.Paging
import Experimint.Usdt.ScanPlan
import Experimint.Usdt.ScanTweak
import Experimint.Usdt.SeedScan
import Experimint.Usdt.SeedRecovery
import Experimint.Keeper.Policy
import Experimint.Keeper.Sizing
import Experimint.Keeper.Soundness
import Experimint.Keeper.Deadband
import Experimint.Keeper.DayNumber
import Experimint.Keeper.Timestamp
import Experimint.Threshold.Codec
import Experimint.Threshold.Driver
import Experimint.Threshold.Mesh
import Experimint.Threshold.OffThread
import Experimint.Threshold.Lockstep
import Experimint.Usdt.Signer
import Experimint.Usdt.Guardians
import Experimint.Usdt.Exchange
