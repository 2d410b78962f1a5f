import Mmmbbb.KeyedRows
import Mmmbbb.LinkedRows
import Mmmbbb.Programs
import Mmmbbb.Filter
import Mmmbbb.Schema
import Mmmbbb.Database
import Mmmbbb.Delivering
import Mmmbbb.Consuming
import Mmmbbb.Seeking
import Mmmbbb.Administering
import Mmmbbb.Pruning
import Mmmbbb.Runs
import Mmmbbb.Writes
import Mmmbbb.Changes
import Mmmbbb.NoLoss
import Mmmbbb.Links
import Mmmbbb.Attempts
import Mmmbbb.Snapshots
import Mmmbbb.Ordering
import Mmmbbb.Chains
import Mmmbbb.Fifo
import Mmmbbb.Keys
import Mmmbbb.ReadCommitted
import Mmmbbb.Publishers
import Mmmbbb.OneChain
import Mmmbbb.Settling
import Mmmbbb.SettledOnce
import Mmmbbb.WaitSets
import Mmmbbb.Notify
import Mmmbbb.Waking
import Mmmbbb.Pulling
import Mmmbbb.Windows
import Mmmbbb.Streaming
import Mmmbbb.FlowControl
import Mmmbbb.Slots
import Mmmbbb.Completions
import Mmmbbb.Ghosts
import Mmmbbb.LiveTopics
import Mmmbbb.Paging
import Mmmbbb.Pdqsort
import Mmmbbb.Listing
import Mmmbbb.Threads
import Mmmbbb.Faults
import Mmmbbb.Firing
import Mmmbbb.Counters
import Mmmbbb.Decimals
import Mmmbbb.Durations
import Mmmbbb.Intervals
import Mmmbbb.Messages
import Mmmbbb.Handlers
import Mmmbbb.Panics
import Mmmbbb.Responses
import Mmmbbb.Runes
import Mmmbbb.Quoting
import Mmmbbb.Scanning
import Mmmbbb.Grammar
import Mmmbbb.AsFilter
import Mmmbbb.Meaning
import Mmmbbb.Budgets
import Mmmbbb.Portions
import Mmmbbb.AckedLists
import Mmmbbb.SharedWakes
import Mmmbbb.Migrating
import Mmmbbb.Alterations
import Mmmbbb.SnapshotListing
import Mmmbbb.StuckTopics
import Mmmbbb.NextAttempt
import Mmmbbb.SweepOrder
import Mmmbbb.Replays
import Mmmbbb.LockOrder
import Mmmbbb.Retrying
import Mmmbbb.Resets
import Mmmbbb.FanOut
import Mmmbbb.Overflows
import Mmmbbb.Tickers
import Mmmbbb.Onwards
import Mmmbbb.Leases
import Mmmbbb.Renewals
import Mmmbbb.Pushers
import Mmmbbb.PushConnection
import Mmmbbb.PushStreamer
import Mmmbbb.LogLevels
import Mmmbbb.Resuming
import Mmmbbb.Loading
import Mmmbbb.RequestTx
import Mmmbbb.Relaying
import Mmmbbb.Mailboxes
import Mmmbbb.Letters
import Mmmbbb.Brokering
import Mmmbbb.Confinement
import Mmmbbb.Exhaustion
import Mmmbbb.Collecting
import Mmmbbb.Processes
import Mmmbbb.Resting
import Mmmbbb.Draining
import Mmmbbb.Pacing
import Mmmbbb.Maintenance
import Mmmbbb.Serials
import Mmmbbb.SerialAcks
import Mmmbbb.SerialPublishes
import Mmmbbb.StreamWrapper
import Mmmbbb.PullStreamer
import Mmmbbb.Leasing
import Mmmbbb.Competing
import Mmmbbb.PullsApart
