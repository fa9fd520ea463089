import Kimmy.ByteOrder
import Kimmy.BigInt
import Kimmy.Decimal
import Kimmy.PowerOfFive
import Kimmy.Exact
import Kimmy.Numeric
import Kimmy.CmpNumbers
import Kimmy.CanonicalCmp
import Kimmy.KeyNumber
import Kimmy.KeyEnc
import Kimmy.KeyOrder
import Kimmy.SortedMap
import Kimmy.Reader
import Kimmy.Merge.Types
import Kimmy.Merge.State
import Kimmy.Merge.Join
import Kimmy.Merge.Writer
import Kimmy.Merge.System
import Kimmy.Merge.Records
import Kimmy.Merge.Laws
import Kimmy.Merge.Content
import Kimmy.Merge.Drafts
import Kimmy.Merge.Reach
import Kimmy.Merge.Causal
import Kimmy.Merge.Meaning
import Kimmy.Merge.History
import Kimmy.Merge.Codec
import Kimmy.Merge.Convergence
import Kimmy.Merge.Oracle
import Kimmy.Merge.Losses
import Kimmy.Merge.Evidence
import Kimmy.Merge.Reporting
import Kimmy.Merge.Canonical
import Kimmy.Clock
import Kimmy.Store.Document
import Kimmy.Store.Records
import Kimmy.Store.Index
import Kimmy.LastWriter
import Kimmy.Positions
import Kimmy.Store.Engine
import Kimmy.Store.Maintenance
import Kimmy.Store.Moves
import Kimmy.Store.Agreement
import Kimmy.Store.Indexed
import Kimmy.Store.Watch
import Kimmy.Store.Delivery
import Kimmy.Store.Pull
import Kimmy.Store.Windows
import Kimmy.Store.NoHole
import Kimmy.Store.Retention
import Kimmy.Store.NoGap
import Kimmy.Webhook.Dispatch
import Kimmy.Webhook.Progress
import Kimmy.Webhook.Loss
import Kimmy.Ownership.Facts
import Kimmy.Ownership.Yield
import Kimmy.Interrupted
import Kimmy.Vector.Worker
import Kimmy.Vector.Debt
import Kimmy.Vector.Turns
import Kimmy.Vector.Remembered
import Kimmy.Store.Roaming
import Kimmy.Store.Elsewhere
import Kimmy.DocId
import Kimmy.Query.Filter
import Kimmy.Query.Plan
import Kimmy.Query.Candidates
import Kimmy.Store.Catalogue
import Kimmy.Store.Modify
import Kimmy.Store.Covering
import Kimmy.PathWrite
import Kimmy.DecimalFormat
import Kimmy.DocIdentity
import Kimmy.DecimalParse
import Kimmy.Magnitude
import Kimmy.BigDivision
import Kimmy.HalfEven
import Kimmy.DecimalRound
import Kimmy.SignedLimbs
import Kimmy.ExactSum
import Kimmy.RunningSum
import Kimmy.DecimalOps
import Kimmy.FloatGrid
import Kimmy.Binary64
import Kimmy.NearMultiple
import Kimmy.KeyTables
import Kimmy.Store.LiveDigest
import Kimmy.Store.Seeking
import Kimmy.Window.ExactDoubles
import Kimmy.Window.ExactSums
import Kimmy.Store.SnapshotPages
import Kimmy.Store.IndexRegister
import Kimmy.Query.UpdateIdentity
import Kimmy.Query.Verdict
import Kimmy.Runs
import Kimmy.Store.IndexWalk
import Kimmy.Store.ScannedOnce
import Kimmy.Store.LiveRuns
import Kimmy.Ranking
import Kimmy.Traverse
import Kimmy.Window.Recomputation
import Kimmy.Leading
import Kimmy.Vector.TopK
import Kimmy.StableSort
import Kimmy.Query.Sort
import Kimmy.Repair.Spacing
import Kimmy.Query.GraphLookup
import Kimmy.Query.GapsFilled
import Kimmy.Vector.Reconnect
import Kimmy.Query.SourceFilter
import Kimmy.Calendar.Landing
import Kimmy.Query.NestedLoop
import Kimmy.Schema.MultipleOf
import Kimmy.Schema.UniqueItems
import Kimmy.Query.Projection
import Kimmy.Api.RoundTrip
import Kimmy.Store.Rebuild
import Kimmy.Store.SelfCheck
import Kimmy.Store.ExpiryCycle
import Kimmy.Confirm.Waits
