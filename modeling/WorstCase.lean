import WorstCase.Analysis.Sample
import WorstCase.Timing.Synthetic
import WorstCase.Proofs.Loop.Natural
import WorstCase.Proofs.Model.Bounded
import WorstCase.Proofs.Model.Sound
import WorstCase.Proofs.Model.Listing
import WorstCase.Proofs.DepthFirst.Recursive
import WorstCase.Proofs.Loop.Shape
import WorstCase.Proofs.Linear.Optimum
import WorstCase.Proofs.Linear.Pivoting
import WorstCase.Proofs.Linear.Phases
import WorstCase.Proofs.Linear.Dense
import WorstCase.Proofs.Linear.LayOut
import WorstCase.Proofs.Linear.Simplex
import WorstCase.Proofs.Linear.BranchAndBound
import WorstCase.Proofs.Linear.Cycling
import WorstCase.Proofs.Program.Order
import WorstCase.Proofs.Analysis.Calculation
import WorstCase.Proofs.Number.Arithmetic
import WorstCase.Proofs.Number.Text
import WorstCase.Proofs.Listing.Expression
import WorstCase.Proofs.Listing.Statement
import WorstCase.Proofs.Listing.Lines
import WorstCase.Proofs.Listing.Items
import WorstCase.Proofs.Listing.Draft
import WorstCase.Proofs.Listing.Listable
import WorstCase.Proofs.Listing.RoundTrip
import WorstCase.Proofs.Program.Recursion
import WorstCase.Proofs.Analysis.Accounting
import WorstCase.Proofs.Linear.Rounding
import WorstCase.Proofs.Model.Calls
import WorstCase.Proofs.Model.Capacity
import WorstCase.Proofs.Model.Capped
import WorstCase.Proofs.Listing.Limit
import WorstCase.Proofs.Number.Nearest
import WorstCase.Proofs.Number.Whole
import WorstCase.Proofs.Number.Sum
import WorstCase.Proofs.Model.Cost
import WorstCase.Proofs.Number.WholeText
import WorstCase.Proofs.Model.CapacityListing
import WorstCase.Proofs.Listing.Parsed
import WorstCase.Graph.Indexed
import WorstCase.Proofs.Graph.Indexed
import WorstCase.Proofs.Model.Complete
import WorstCase.Proofs.Model.Level
import WorstCase.Proofs.Linear.Looser
import WorstCase.Proofs.Model.Growth
import WorstCase.Proofs.DepthFirst.Lineage
import WorstCase.Proofs.DepthFirst.Edges
import WorstCase.Proofs.Loop.Connected
import WorstCase.Linear.InPlace
import WorstCase.Proofs.Linear.Budget
import WorstCase.Proofs.Linear.InPlace
import WorstCase.Proofs.Model.Tighter
import WorstCase.Proofs.Timing.Synthetic
import WorstCase.Proofs.Linear.RatioTest
import WorstCase.Proofs.Listing.Pattern
import WorstCase.Proofs.Listing.TermPattern
import WorstCase.Proofs.Listing.Rounds
import WorstCase.Proofs.Listing.Mentions
import WorstCase.Proofs.Listing.WellFormed
import WorstCase.Linear.Grid
import WorstCase.Proofs.Linear.Grid
import WorstCase.Proofs.Linear.InRange
