import Formulary.Formula.Tree
import Formulary.Main
import Formulary.Proofs.Formula.Valid
import Formulary.Proofs.Record.Fields
import Formulary.Proofs.Record.RoundTrip
import Formulary.Proofs.Record.Canonical
import Formulary.Proofs.Record.PackedArray
import Formulary.Proofs.Generation.Splits
import Formulary.Proofs.Formula.Transplant
import Formulary.Proofs.Formula.Trees
import Formulary.Proofs.Admission.Novelty
import Formulary.Proofs.Formula.Evaluation
import Formulary.Proofs.Store.Contents
import Formulary.Proofs.Store.Filtered
import Formulary.Proofs.Generation.Candidates
import Formulary.Proofs.Generation.Levels
import Formulary.Proofs.Generation.Enumeration
import Formulary.Proofs.Formula.TreeEvaluation
import Formulary.Proofs.Admission.Offering
import Formulary.Proofs.Numeral.Equality
import Formulary.Proofs.Admission.History
import Formulary.Proofs.Admission.Exchange
import Formulary.Proofs.Generation.Saturation
import Formulary.Proofs.Store.Backing
import Formulary.Proofs.Generation.Backends
import Formulary.Proofs.Admission.Failure
import Formulary.Proofs.Store.Refusals
import Formulary.Proofs.Store.Directory
import Formulary.Proofs.Store.WordFile
import Formulary.Proofs.Store.Listing
import Formulary.Proofs.Store.Interruption
import Formulary.Proofs.Store.SavedCopy
import Formulary.Proofs.Store.Flushing
import Formulary.Proofs.Record.Bounds
import Formulary.Proofs.Generation.Finished
import Formulary.Proofs.Search.Answers
import Formulary.Proofs.Search.Loading
import Formulary.Proofs.Search.Order
import Formulary.Proofs.Record.Padding
import Formulary.Proofs.Store.Interchange
import Formulary.Proofs.Store.Packing
import Formulary.Proofs.Search.Stability
import Formulary.Proofs.Search.Solutions
import Formulary.Proofs.Census.GroupSizes
import Formulary.Proofs.Census.Distributions
import Formulary.Proofs.Census.Recurrence
import Formulary.Proofs.Census.Slopes
import Formulary.Proofs.Census.Forms
import Formulary.Proofs.Census.Uniqueness
import Formulary.Proofs.Census.Negatives
import Formulary.Proofs.Census.Choices
import Formulary.Proofs.Census.Tally
import Formulary.Proofs.Census.Trees
import Formulary.Proofs.Census.RationalFunctions
import Formulary.Proofs.Census.Distinct
import Formulary.Proofs.Formula.Grammar
import Formulary.Proofs.Search.Recovery
import Formulary.Proofs.Numeral.Exact
import Formulary.Proofs.Numeral.Rounding
import Formulary.Proofs.Numeral.Arithmetic
import Formulary.Proofs.Numeral.Whole
import Formulary.Proofs.Search.Reachable
import Formulary.Proofs.Numeral.Scaling
import Formulary.Proofs.Numeral.Places
import Formulary.Proofs.Admission.Drawn
import Formulary.Proofs.Generation.Occupied
import Formulary.Proofs.Formula.Splice
import Formulary.Proofs.Permutation.Order
import Formulary.Proofs.Record.Edits
import Formulary.Proofs.Store.Framing
import Formulary.Proofs.Formula.NotANumber
import Formulary.Proofs.Decimal
import Formulary.Proofs.Formula.InfixText
import Formulary.Proofs.Census.ExactDivision
import Formulary.Proofs.Census.InPlace
import Formulary.Proofs.Formula.Subtrees
import Formulary.Proofs.Generation.Subformulas
import Formulary.Proofs.Census.Filling
import Formulary.Proofs.Subsets.Order
import Formulary.Proofs.Subsets.InPlace
import Formulary.Proofs.Subsets.Enumeration
import Formulary.Proofs.Generation.Partitions
