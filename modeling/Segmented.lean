import Segmented.Allocator.Strategy
import Segmented.Queue
import Segmented.Sequence.Access
import Segmented.Snapshot.Records
import Segmented.Snapshot.Wire
import Segmented.Text.Render
import Segmented.Traversal.Walk
import Segmented.Workspace
import Segmented.Proofs.Admission
import Segmented.Proofs.Alignment
import Segmented.Proofs.Backfill
import Segmented.Proofs.BinarySearch
import Segmented.Proofs.Consumption
import Segmented.Proofs.Custody
import Segmented.Proofs.Depth
import Segmented.Proofs.Descent
import Segmented.Proofs.Detection
import Segmented.Proofs.Disposal
import Segmented.Proofs.Faultless
import Segmented.Proofs.Fifo
import Segmented.Proofs.HeapRange
import Segmented.Proofs.Introsort
import Segmented.Proofs.OneByOne
import Segmented.Proofs.Questions
import Segmented.Proofs.Refinement
import Segmented.Proofs.Refusal
import Segmented.Proofs.Relocation
import Segmented.Proofs.RoundTrip
import Segmented.Proofs.Scripts
import Segmented.Proofs.Shortage
import Segmented.Proofs.SizeClasses
import Segmented.Proofs.StableSort
import Segmented.Proofs.Tally
import Segmented.Proofs.Traffic
import Segmented.Proofs.Truncation
import Segmented.Proofs.Twins
import Segmented.Proofs.Verdicts
import Segmented.Proofs.WellFormed
