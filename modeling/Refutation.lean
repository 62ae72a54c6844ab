import Refutation.Main
import Refutation.Semantics
import Refutation.Source.Layout
import Refutation.Source.Sliced
import Refutation.Renaming.Table
import Refutation.Term.Stages
import Refutation.Cancellation.Stages
import Refutation.Renaming.Stages
import Refutation.Proofs.Unifier
import Refutation.Proofs.Triangular
import Refutation.Proofs.Calls
import Refutation.Proofs.Freshness
import Refutation.Proofs.Candidate
import Refutation.Proofs.Cancelling
import Refutation.Proofs.Resolving
import Refutation.Proofs.Course
import Refutation.Proofs.Soundness
import Refutation.Proofs.Scopes
import Refutation.Proofs.Coverage
import Refutation.Proofs.Units
import Refutation.Proofs.Apart
import Refutation.Proofs.Variants
import Refutation.Proofs.Mirror
import Refutation.Proofs.Canonical
import Refutation.Proofs.Lockstep
import Refutation.Proofs.Herbrand
import Refutation.Proofs.Lifting
import Refutation.Proofs.Links
import Refutation.Proofs.Tally
import Refutation.Proofs.Reversal
import Refutation.Proofs.History
import Refutation.Proofs.Exception
import Refutation.Proofs.Births
import Refutation.Proofs.Completeness
import Refutation.Proofs.Propagation
import Refutation.Proofs.Raising
import Refutation.Proofs.Decision
import Refutation.Proofs.Splitting
import Refutation.Proofs.Legible
import Refutation.Proofs.Spacing
import Refutation.Proofs.Reading
import Refutation.Proofs.Naming
import Refutation.Proofs.Traversals
import Refutation.Proofs.Blanks
import Refutation.Proofs.Lines
import Refutation.Proofs.Grammar
import Refutation.Proofs.Balance
import Refutation.Proofs.Parts
import Refutation.Proofs.Slicing
import Refutation.Proofs.Printed
import Refutation.Proofs.Printing
