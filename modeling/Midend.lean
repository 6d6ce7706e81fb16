import Midend.Graph.Builder
import Midend.Heap.Access
import Midend.Main
import Midend.Proofs.AccessSets
import Midend.Proofs.Accounting
import Midend.Proofs.AnalysisCache
import Midend.Proofs.Bookkeeping
import Midend.Proofs.Categories
import Midend.Proofs.CheckElimination
import Midend.Proofs.Completion
import Midend.Proofs.Concatenation
import Midend.Proofs.Confinement
import Midend.Proofs.DeadCodeBehaviour
import Midend.Proofs.DeadStores
import Midend.Proofs.ExactSummary
import Midend.Proofs.FaithfulReading
import Midend.Proofs.Joining
import Midend.Proofs.LoadReplacement
import Midend.Proofs.NaturalLoops
import Midend.Proofs.NullFixpoint
import Midend.Proofs.NullSoundness
import Midend.Proofs.ObservedRuns
import Midend.Proofs.OptimizedText
import Midend.Proofs.PrivateObjects
import Midend.Proofs.Reducibility
import Midend.Proofs.RoundTrip
import Midend.Proofs.SingleAssignment
import Midend.Proofs.VisitingOrder
import Midend.Text.Print
import Midend.Text.Quoted
