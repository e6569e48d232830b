import PolkadotOracle.Lib.Lts
import PolkadotOracle.Lib.Store
import PolkadotOracle.Lib.Mutate
import PolkadotOracle.Lib.Sequence
import PolkadotOracle.Lib.Buffer
import PolkadotOracle.Lib.Scale
import PolkadotOracle.Lib.Text
import PolkadotOracle.Lib.Layout
import PolkadotOracle.Lib.Exec
import PolkadotOracle.Lib.Currency
import PolkadotOracle.Lib.Journal
import PolkadotOracle.Lib.Register
import PolkadotOracle.Payload
import PolkadotOracle.Pallet.Types
import PolkadotOracle.Pallet.Calls
import PolkadotOracle.Pallet.Upload
import PolkadotOracle.Pallet.Submit
import PolkadotOracle.Pallet.Effect
import PolkadotOracle.Pallet.JobQueue
import PolkadotOracle.Pallet.Unsigned
import PolkadotOracle.Pallet.ScriptKey
import PolkadotOracle.Pallet.Request
import PolkadotOracle.Pallet.Admission
import PolkadotOracle.Pallet.Resubmission
import PolkadotOracle.Offchain.Handler
import PolkadotOracle.Offchain.Node
import PolkadotOracle.Offchain.System
import PolkadotOracle.Offchain.Records
import PolkadotOracle.Offchain.Failure
import PolkadotOracle.Offchain.Formats
import PolkadotOracle.Offchain.Results
import PolkadotOracle.Offchain.Lists
import PolkadotOracle.Offchain.Given
import PolkadotOracle.Offchain.Delivery
import PolkadotOracle.Offchain.Execution
import PolkadotOracle.Offchain.Availability
import PolkadotOracle.Offchain.Completion
import PolkadotOracle.Offchain.Provenance
import PolkadotOracle.ChainExtension
import PolkadotOracle.Pallet.Scripts
import PolkadotOracle.Pallet.Publisher
import PolkadotOracle.Ocw.Types
import PolkadotOracle.Ocw.Calls
import PolkadotOracle.Ocw.Effect
import PolkadotOracle.Ocw.RateLimit
import PolkadotOracle.Ocw.Stake
import PolkadotOracle.Ocw.Slash
import PolkadotOracle.Ocw.Backed
import PolkadotOracle.Ocw.Funds
import PolkadotOracle.Ocw.Prices
import PolkadotOracle.Ocw.Average
import PolkadotOracle.Ocw.GracePeriod
import PolkadotOracle.Refusal
import PolkadotOracle.Executor.Memory
import PolkadotOracle.Executor.Runtime
import PolkadotOracle.Executor.Output
import PolkadotOracle.Executor.Fields
import PolkadotOracle.Executor.Places
import PolkadotOracle.Executor.Sizes
import PolkadotOracle.Executor.Arrays
import PolkadotOracle.Executor.Host
import PolkadotOracle.Executor.Strings
import PolkadotOracle.Executor.Task
import PolkadotOracle.Offchain.Recorded
import PolkadotOracle.Offchain.Once
import PolkadotOracle.Pallet.StateCount
import PolkadotOracle.Offchain.Progress
import PolkadotOracle.Pallet.Journal
import PolkadotOracle.Ocw.Journal
import PolkadotOracle.Ocw.Fetch
import PolkadotOracle.Ocw.Worker
import PolkadotOracle.Ocw.Feed
import PolkadotOracle.Ocw.FeedProgress
import PolkadotOracle.Pallet.LastResult
import PolkadotOracle.Ocw.Contents
import PolkadotOracle.Offchain.Oracle
import PolkadotOracle.Offchain.Recovery
import PolkadotOracle.Offchain.Channel
