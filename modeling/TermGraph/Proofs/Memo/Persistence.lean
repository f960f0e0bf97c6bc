import TermGraph.Derivative
import TermGraph.Normalization
import TermGraph.Proofs.Termination.Depth

/-!
# More depth changes no outcome: evaluation, derivative rules and steps of normalization

What `Persists` says of the constructors of expressions also holds of the operations on concrete values,
of the rules for derivatives of functions and of the steps of normalization that do not recurse.
-/

namespace TermGraph

variable {α : Type}

namespace Expr

/-! ## Rebuilding and what is built from it -/

instance persists_rebuild (e : Expr) (children : List Expr) :
    Persists (rebuild e children) (rebuild e children) :=
  persists_read fun h => (persists_applyAux_rebuildAux h).2 e children

instance persists_substitute (pairs : List (Expr × Expr)) (e : Expr) :
    Persists (substitute pairs e) (substitute pairs e) :=
  persists_substituteWith _ _ pairs e

instance persists_chain (factors : List Expr) : Persists (chain factors) (chain factors) :=
  persists_chainWith _ _ factors

instance persists_call (f : Function) (args : List Expr) : Persists (call f args) (call f args) := by
  unfold call
  infer_instance

instance persists_neg (a : Expr) : Persists (neg a) (neg a) := by
  unfold neg
  infer_instance

instance persists_endIndexedSum (lower upper temporary body : Expr) :
    Persists (endIndexedSum lower upper temporary body) (endIndexedSum lower upper temporary body) :=
  persists_endIndexedSumWith _ _ _ _ _ _

instance persists_endCollectionSum (collection temporary body : Expr) :
    Persists (endCollectionSum collection temporary body) (endCollectionSum collection temporary body) :=
  persists_endCollectionSumWith _ _ _ _ _

instance persists_fieldName (name : String) : Persists (fieldName name) (fieldName name) :=
  persists_intern _ _

instance persists_object (v : Value) (resolver : Resolver) : Persists (object v resolver) (object v resolver) :=
  persists_intern _ _

mutual

theorem persists_constant (resolver : Resolver) : ∀ v, Persists (constant resolver v) (constant resolver v)
  | .number _ | .function _ | .field _ | .array _ _ _ | .matrix _ _ | .object _ _ _ _ => by
    unfold constant
    infer_instance
  | .tuple items => by
    have := persists_constants resolver items
    unfold constant
    infer_instance

theorem persists_constants (resolver : Resolver) :
    ∀ vs, Persists (constants resolver vs) (constants resolver vs)
  | [] => by
    unfold constants
    infer_instance
  | v :: vs => by
    have := persists_constant resolver v
    have := persists_constants resolver vs
    unfold constants
    infer_instance

end

attribute [instance] persists_constant persists_constants

end Expr

/-! ## Concrete values -/

namespace Value

instance persists_ofMatrix (m : Matrix) : Persists (ofMatrix m) (ofMatrix m) := by
  unfold ofMatrix
  infer_instance

instance persists_ofMatrixResult (result : Except MatrixFault Matrix) :
    Persists (ofMatrixResult result) (ofMatrixResult result) := by
  unfold ofMatrixResult
  infer_instance

instance persists_ofOperation (op : Number → Number → Number) (a b : Number) :
    Persists (ofOperation op a b) (ofOperation op a b) := by
  unfold ofOperation
  infer_instance

end Value

namespace Evaluator

variable (ev : Evaluator)

instance persists_add (left right : Value) : Persists (ev.add left right) (ev.add left right) := by
  unfold add
  split <;> infer_instance

instance persists_sum (values : List Value) : Persists (ev.sum values) (ev.sum values) := by
  unfold sum
  infer_instance

instance persists_inverse (v : Value) : Persists (ev.inverse v) (ev.inverse v) := by
  unfold inverse
  split <;> infer_instance

instance persists_transpose (v : Value) : Persists (ev.transpose v) (ev.transpose v) := by
  unfold transpose
  split <;> infer_instance

end Evaluator

namespace Resolver

instance persists_modifyTally (f : Tally → Tally) (r : Resolver) :
    Persists (modify (Store.modifyTally f r) : Build PUnit) (modify (Store.modifyTally f r)) :=
  ⟨fun _ _ => rfl⟩

instance persists_field (r : Resolver) (v : Value) (name : String) :
    Persists (r.field v name) (r.field v name) := by
  unfold field
  infer_instance

instance persists_element (r : Resolver) (v : Value) (arguments : List Value) :
    Persists (r.element v arguments) (r.element v arguments) := by
  unfold element
  infer_instance

end Resolver

instance Builtin.persists_evaluate (b : Builtin) (args : List Number) :
    Persists (b.evaluate args) (b.evaluate args) := by
  unfold evaluate
  split <;> infer_instance

namespace Reply

mutual

theorem persists_value (args : List Value) : ∀ r : Reply, Persists (r.value args) (r.value args)
  | .number _ | .matrix _ | .argument _ => by
    unfold value
    infer_instance
  | .tuple items => by
    have := persists_values args items
    unfold value
    infer_instance

theorem persists_values (args : List Value) : ∀ rs : List Reply, Persists (values args rs) (values args rs)
  | [] => by
    unfold values
    infer_instance
  | r :: rs => by
    have := persists_value args r
    have := persists_values args rs
    unfold values
    infer_instance

end

attribute [instance] persists_value persists_values

end Reply

instance NativeRule.persists_evaluate (rule : NativeRule) (args : List Value) :
    Persists (rule.evaluate args) (rule.evaluate args) := by
  unfold evaluate
  split <;> infer_instance

instance Function.persists_numericArguments (name : String) (args : List Value) :
    Persists (numericArguments name args) (numericArguments name args) := by
  induction args with
  | nil =>
    unfold numericArguments
    infer_instance
  | cons v args ih => cases v <;> (unfold numericArguments; infer_instance)

/-! ## Derivative rules -/

instance Expr.persists_productUnlessZero (derivative : Expr) (factors : List Expr) :
    Persists (productUnlessZero derivative factors) (productUnlessZero derivative factors) := by
  unfold productUnlessZero
  infer_instance

namespace PartialRule

variable (k : ℕ) (args : List Expr)

instance persists_argumentAt : Persists (argumentAt k args) (argumentAt k args) := by
  unfold argumentAt
  split <;> infer_instance

mutual

theorem persists_expr : ∀ rule : PartialRule, Persists (rule.expr k args) (rule.expr k args)
  | .literal _ | .own | .argument _ | .missing _ _ => by
    unfold expr
    infer_instance
  | .sum rules | .product rules | .call _ rules => by
    have := persists_exprs rules
    unfold expr
    infer_instance
  | .depending rule => by
    unfold expr
    exact persists_expr (rule (args.map Expr.sight))

theorem persists_exprs : ∀ rules : List PartialRule, Persists (exprs k args rules) (exprs k args rules)
  | [] => by
    unfold exprs
    infer_instance
  | rule :: rules => by
    have := persists_expr rule
    have := persists_exprs rules
    unfold exprs
    infer_instance

end

attribute [instance] persists_expr persists_exprs

end PartialRule

instance Builtin.persists_partialDerivative (b : Builtin) (k : ℕ) (args : List Expr) :
    Persists (b.partialDerivative k args) (b.partialDerivative k args) := by
  unfold partialDerivative
  split <;> infer_instance

namespace Function

instance persists_partialDerivative? (f : Function) (k : ℕ) (args : List Expr) :
    Persists (f.partialDerivative? k args) (f.partialDerivative? k args) := by
  unfold partialDerivative?
  split
  · infer_instance
  · split <;> infer_instance
  · infer_instance

instance persists_partialDerivative (f : Function) (k : ℕ) (args : List Expr) :
    Persists (f.partialDerivative k args) (f.partialDerivative k args) := by
  unfold partialDerivative
  refine @persists_bind _ _ _ _ _ _ _ inferInstance fun found => ?_
  split <;> infer_instance

instance persists_chainTerm (f : Function) (args : List Expr) (k : ℕ) (d : Expr) :
    Persists (f.chainTerm args k d) (f.chainTerm args k d) := by
  unfold chainTerm
  infer_instance

end Function

/-! ## Steps of normalization -/

namespace Expr

instance persists_reducePower (base exponent : Expr) :
    Persists (reducePower base exponent) (reducePower base exponent) := by
  unfold reducePower
  refine @persists_ite _ _ _ _ _ _ _ _ inferInstance ?_
  split <;> infer_instance

instance persists_reduceTranspose (ev : Evaluator) (inner : Expr) :
    Persists (reduceTranspose ev inner) (reduceTranspose ev inner) := by
  unfold reduceTranspose
  split
  · infer_instance
  · split <;> infer_instance

instance persists_unrolled (index body : Expr) (first : ℤ) (count : ℕ) :
    Persists (unrolled index body first count) (unrolled index body first count) := by
  induction count generalizing first with
  | zero =>
    unfold unrolled
    infer_instance
  | succ count ih =>
    unfold unrolled
    infer_instance

instance persists_unrolledOver (index body : Expr) (items : List Value) :
    Persists (unrolledOver index body items) (unrolledOver index body items) := by
  induction items with
  | nil =>
    unfold unrolledOver
    infer_instance
  | cons item items ih =>
    unfold unrolledOver
    infer_instance

end Expr

end TermGraph
