import CutSelection.Session
import CutSelection.Text
import CutSelection.Proofs.Ranking.Diversity
import CutSelection.Proofs.Exact
import CutSelection.Proofs.Ranking.Order
import CutSelection.Proofs.BoundChanges
import CutSelection.Proofs.Soundness
import CutSelection.Proofs.Storage
import CutSelection.Proofs.Redundancy
import CutSelection.Proofs.Regular
import CutSelection.Proofs.Exactness
import CutSelection.Proofs.ExactCommit
import CutSelection.Proofs.Binary64.Packing
import CutSelection.Proofs.Binary64.Order
import CutSelection.Proofs.Binary64.Graded
import CutSelection.Proofs.Binary64.Products
import CutSelection.Proofs.Binary64.Quotients
import CutSelection.Proofs.ScoreOrder
import CutSelection.Proofs.Binary64.Ordered
import CutSelection.Proofs.Binary64.Zeros
import CutSelection.Proofs.Ranking.Records
import CutSelection.Proofs.Ranking.TotalOrder
import CutSelection.Proofs.Ranking.Pruning
import CutSelection.Proofs.Ranking.Selection
import CutSelection.Proofs.Ranking.Forced
import CutSelection.Proofs.Ranking.Capacity
import CutSelection.Proofs.Positions
import CutSelection.Proofs.RowCommit
import CutSelection.Proofs.Steps
import CutSelection.Proofs.Ranking.Evictions
import CutSelection.Proofs.Faults
import CutSelection.Proofs.History
import CutSelection.Proofs.Counters
import CutSelection.Proofs.Branching
import CutSelection.Proofs.Ranking.Relabelling
import CutSelection.Proofs.Scaling
import CutSelection.Proofs.Relabelling
import CutSelection.Proofs.ScaledRuns
import CutSelection.Proofs.Tightening
import CutSelection.Proofs.NodeChanges
import CutSelection.Proofs.ActivityRange
import CutSelection.Proofs.Narrowing
import CutSelection.Proofs.Dense
import CutSelection.Proofs.Distance
import CutSelection.Proofs.Integrality
import CutSelection.Proofs.TolerantOrder
