import TermGraph.Builtin
import TermGraph.Derivative
import TermGraph.Domain
import TermGraph.Error
import TermGraph.Evaluation.Basic
import TermGraph.Evaluation.Members
import TermGraph.Expr.Apply
import TermGraph.Expr.Basic
import TermGraph.Expr.Chain
import TermGraph.Expr.Leaf
import TermGraph.Expr.Order
import TermGraph.Expr.Power
import TermGraph.Expr.Product
import TermGraph.Expr.Substitution
import TermGraph.Expr.Sum
import TermGraph.Expr.Text
import TermGraph.Expr.Walk
import TermGraph.Host.Foreign
import TermGraph.Host.Members
import TermGraph.Host.Resolver
import TermGraph.Host.Type
import TermGraph.Host.Value
import TermGraph.Identity
import TermGraph.Matrix
import TermGraph.Normalization
import TermGraph.Number.Basic
import TermGraph.Number.Binary64
import TermGraph.Number.Shortest
import TermGraph.Program.Batch
import TermGraph.Program.Bytecode
import TermGraph.Program.Code
import TermGraph.Program.Linear
import TermGraph.Program.Machine
import TermGraph.Proofs.Form.Products
import TermGraph.Proofs.Form.Stability
import TermGraph.Proofs.Form.Sums
import TermGraph.Proofs.Meaning.Delivery
import TermGraph.Proofs.Meaning.Derivatives
import TermGraph.Proofs.Meaning.Duals
import TermGraph.Proofs.Meaning.Folding
import TermGraph.Proofs.Meaning.Independence
import TermGraph.Proofs.Meaning.Evaluation
import TermGraph.Proofs.Meaning.NormalForms
import TermGraph.Proofs.Meaning.Products
import TermGraph.Proofs.Meaning.Rebuilding
import TermGraph.Proofs.Meaning.Scalars
import TermGraph.Proofs.Meaning.Substitution
import TermGraph.Proofs.Meaning.Sums
import TermGraph.Proofs.Memo.Derivation
import TermGraph.Proofs.Memo.Mirror
import TermGraph.Proofs.Memo.Normalization
import TermGraph.Proofs.Memo.Persistence
import TermGraph.Proofs.Number.Exactness
import TermGraph.Proofs.Number.Rounding
import TermGraph.Proofs.Order.Commutation
import TermGraph.Proofs.Order.Domains
import TermGraph.Proofs.Order.Grading
import TermGraph.Proofs.Order.Leading
import TermGraph.Proofs.Order.Permutation
import TermGraph.Proofs.Order.Products
import TermGraph.Proofs.Order.Repetition
import TermGraph.Proofs.Order.Sums
import TermGraph.Proofs.Order.Totality
import TermGraph.Proofs.Polynomial.Canonicity
import TermGraph.Proofs.Polynomial.Gathering
import TermGraph.Proofs.Polynomial.Literal
import TermGraph.Proofs.Polynomial.Monomial
import TermGraph.Proofs.Polynomial.Power
import TermGraph.Proofs.Polynomial.Sum
import TermGraph.Proofs.Program.Agreement
import TermGraph.Proofs.Program.Assignment
import TermGraph.Proofs.Program.Batches
import TermGraph.Proofs.Program.Blocks
import TermGraph.Proofs.Program.Calls
import TermGraph.Proofs.Program.Capturing
import TermGraph.Proofs.Program.Census
import TermGraph.Proofs.Program.Diagnostics
import TermGraph.Proofs.Program.Elimination
import TermGraph.Proofs.Program.Environments
import TermGraph.Proofs.Program.Evaluation
import TermGraph.Proofs.Program.Lowering
import TermGraph.Proofs.Program.Occurrences
import TermGraph.Proofs.Program.References
import TermGraph.Proofs.Program.Registers
import TermGraph.Proofs.Program.Rendering
import TermGraph.Proofs.Program.Resolution
import TermGraph.Proofs.Program.Safety
import TermGraph.Proofs.Program.Scopes
import TermGraph.Proofs.Program.Shapes
import TermGraph.Proofs.Program.Slots
import TermGraph.Proofs.Program.Visits
import TermGraph.Proofs.Ring.Products
import TermGraph.Proofs.Ring.Soundness
import TermGraph.Proofs.Ring.Sums
import TermGraph.Proofs.Ring.Values
import TermGraph.Proofs.Runs
import TermGraph.Proofs.Store.Caching
import TermGraph.Proofs.Store.Construction
import TermGraph.Proofs.Store.Derivation
import TermGraph.Proofs.Store.Formation
import TermGraph.Proofs.Store.Growth
import TermGraph.Proofs.Store.Normalization
import TermGraph.Proofs.Store.Reduction
import TermGraph.Proofs.Store.Sharing
import TermGraph.Proofs.Store.Transformation
import TermGraph.Proofs.Store.Walks
import TermGraph.Proofs.Store.WellFormed
import TermGraph.Proofs.Termination.Construction
import TermGraph.Proofs.Termination.Depth
import TermGraph.Proofs.Termination.Halting
import TermGraph.Proofs.Termination.Nesting
import TermGraph.Proofs.Termination.Normalization
import TermGraph.Proofs.Termination.Products
import TermGraph.Proofs.Termination.Rebuilding
import TermGraph.Proofs.Termination.Sessions
import TermGraph.Proofs.Termination.Weights
import TermGraph.Proofs.Text.Legibility
import TermGraph.Proofs.Text.Outline
import TermGraph.Proofs.Typing.Collections
import TermGraph.Proofs.Typing.Derivation
import TermGraph.Proofs.Typing.Members
import TermGraph.Proofs.Typing.Numerical
import TermGraph.Proofs.Typing.Preservation
import TermGraph.Proofs.Typing.Products
import TermGraph.Proofs.Typing.Ranks
import TermGraph.Proofs.Typing.Rebuilding
import TermGraph.Proofs.Typing.Refinement
import TermGraph.Proofs.Typing.Substitution
import TermGraph.Proofs.Typing.Whole
import TermGraph.Proofs.Word.Canonicity
import TermGraph.Proofs.Word.Letters
import TermGraph.Proofs.Word.Products
import TermGraph.Sorting
import TermGraph.Store
import TermGraph.Typing
