import Csp.Engine
import Csp.AlongsideVault
import Csp.Atomic
import Csp.VaultFacts
import Csp.Commit
import Csp.Coverage
import Csp.Verification
import Csp.Lineage
import Csp.Numbered
import Csp.Session
import Csp.Bootstrap
import Csp.Handshake
import Csp.Genuine
import Csp.Export
import Csp.Honest
import Csp.Exchange
import Csp.CatchUp
import Csp.StateFile
import Csp.Materializable
import Csp.Snapshots
import Csp.Contribution
import Csp.Forwarding
import Csp.ConfigFacts
import Csp.Persist
import Csp.Retry
import Csp.Processes
import Csp.Relay
import Csp.Lib.Result
import Csp.Small
import Csp.Vault
import Csp.Signing
import Csp.Lib.Slice
import Csp.Parsing
import Csp.Canonical
import Csp.Lib.Matching
import Csp.MergeFacts
import Csp.Hunks
import Csp.MergeBase
import Csp.Counters
import Csp.Lib.Memo
import Csp.Caches
import Csp.Stable
import Csp.Queries
import Csp.Admission
import Csp.Batches
import Csp.Bystanders
import Csp.Globs
import Csp.Calendar
import Csp.BridgeAgreement
import Csp.Vetting
import Csp.Settling
import Csp.Edits
import Csp.Times
import Csp.Collect
import Csp.Forks
import Csp.Listener
import Csp.Live
import Csp.OnDisk
import Csp.Lib.Trace
import Csp.Mirror
