import TermGraph.Proofs.Runs
import TermGraph.Derivative
import TermGraph.Normalization

/-!
# The store only grows

Every operation on expressions and values only adds to the store: nodes, table entries and
placeholders stay as they are, whether the operation succeeds or fails.  There is one instance of
`Growing` for each operation; a recursive operation goes by induction along its recursion.
-/

namespace TermGraph

lemma Domain.same_self (d : Domain) : d.same d = true := by
  cases d <;> simp [same]

namespace Store

lemma le_push {s : Store} {e : Expr} : s ≤ { s with nodes := s.nodes.push e } := by
  refine ⟨fun {i e'} h => ?_, id, List.prefix_refl _, le_refl _, id, List.suffix_refl _⟩
  obtain ⟨hlt, -⟩ := Array.getElem?_eq_some_iff.1 h
  rw [Array.getElem?_push, if_neg (Nat.ne_of_lt hlt)]
  exact h

lemma le_intern (domain : Domain) (kind : Kind) (s : Store) : s ≤ (s.intern domain kind).2 := by
  rw [intern]
  split
  · exact le_push
  · rename_i code _
    split
    · exact le_rfl
    · rename_i hnone
      refine ⟨le_push.nodes, fun {code' e} h => ?_, List.prefix_refl _, le_refl _, id,
        List.suffix_refl _⟩
      rw [Std.TreeMap.getElem?_insert]
      split
      · rename_i heq
        rw [Std.LawfulEqCmp.compare_eq_iff_eq] at heq
        subst heq
        rw [hnone] at h
        cases h
      · exact h

lemma le_placeholder (level : ℕ) (domain : Domain) (s : Store) :
    s ≤ (s.placeholder level domain).2 := by
  rw [placeholder]
  split
  · exact le_rfl
  · have h := le_intern domain (.symbol (placeholderName level)) s
    exact ⟨h.nodes, h.table, h.placeholders.trans (List.prefix_append _ _), h.identity, h.exact, h.bound⟩

variable {domain : Domain} {kind : Kind} {level : ℕ} {s t u : Store}

/-- Only symbols have no structure. -/
lemma isSymbol_of_code (h : kind.code = none) (ordinal : ℕ) :
    (Expr.node ordinal domain kind).isSymbol = true := by
  cases kind <;> simp [Kind.code] at h
  rfl

/-- A symbol that was made is no quiet step. -/
lemma not_quiet_intern (h : kind.code = none) (s : Store) : ¬Quiet s (s.intern domain kind).2 := by
  intro hquiet
  have hnew : (s.intern domain kind).2.nodes = s.nodes.push (.node s.nodes.size domain kind) := by
    rw [intern, h]
  have hsize : s.nodes[s.nodes.size]? = none := by simp
  have hold := hquiet.symbols (by rw [hnew, Array.getElem?_push_size]) (isSymbol_of_code h s.nodes.size)
  rw [hsize] at hold
  cases hold

/-- What is in the table is found again. -/
lemma intern_of_found {code : List ℕ} {e : Expr} (hcode : kind.code = some code)
    (h : u.table[code]? = some e) : u.intern domain kind = (e, u) := by
  rw [intern, hcode]
  simp [h]

/-- A node that was found or made is found again. -/
lemma intern_again (hle : (s.intern domain kind).2 ≤ u)
    (hquiet : Quiet s (s.intern domain kind).2 ∨ Quiet u (u.intern domain kind).2) :
    (u.intern domain kind).1 = (s.intern domain kind).1 ∧ Still u (u.intern domain kind).2 := by
  cases hcode : kind.code with
  | none => exact absurd hquiet (not_or.2 ⟨not_quiet_intern hcode s, not_quiet_intern hcode u⟩)
  | some code =>
    have hfound : u.table[code]? = some (s.intern domain kind).1 := by
      refine hle.table ?_
      rw [intern, hcode]
      dsimp only
      split
      · assumption
      · simp
    rw [intern_of_found hcode hfound]
    exact ⟨rfl, .refl u⟩

/-- The placeholder that was found or made stands first in every later store. -/
lemma find?_placeholder (hle : (s.placeholder level domain).2 ≤ u) :
    ∃ p, u.placeholders.find? (fun p => p.level == level && p.domain == domain) = some p ∧
      p.symbol = (s.placeholder level domain).1 := by
  obtain ⟨later, hlater⟩ := hle.placeholders
  rw [← hlater, List.find?_append]
  rw [placeholder]
  cases hfound : s.placeholders.find? (fun p => p.level == level && p.domain == domain) with
  | some p => exact ⟨p, by simp [hfound], rfl⟩
  | none =>
    refine ⟨⟨level, domain, (s.intern domain (.symbol (placeholderName level))).1⟩, ?_, rfl⟩
    have hsame : (domain == domain) = true := domain.same_self
    have hkept : (s.intern domain (.symbol (placeholderName level))).2.placeholders = s.placeholders := by
      rw [intern]
      rfl
    dsimp only
    rw [hkept, List.find?_append, hfound]
    simp [hsame]

/-- A placeholder that was found or made is found again. -/
lemma placeholder_again (hle : (s.placeholder level domain).2 ≤ u) :
    (u.placeholder level domain).1 = (s.placeholder level domain).1 ∧
      Still u (u.placeholder level domain).2 := by
  obtain ⟨p, hfound, hsymbol⟩ := find?_placeholder hle
  have hagain : u.placeholder level domain = (p.symbol, u) := by
    rw [placeholder, hfound]
  rw [hagain]
  exact ⟨hsymbol, .refl u⟩

end Store

instance growing_intern (domain : Domain) (kind : Kind) : Growing (Build.intern domain kind) :=
  growing_step (Store.le_intern domain kind) fun _ _ => Store.intern_again

instance growing_placeholder (level : ℕ) (domain : Domain) :
    Growing (Build.step (Store.placeholder level domain)) :=
  growing_step (Store.le_placeholder level domain) fun _ _ hle _ => Store.placeholder_again hle

namespace Value

instance growing_ofMatrix (m : Matrix) : Growing (ofMatrix m) := by
  unfold ofMatrix
  infer_instance

end Value

namespace Expr

/-! ## Leaves -/

section Leaves

instance growing_symbol (name : String) (domain : Domain) : Growing (symbol name domain) :=
  growing_intern _ _

instance growing_number (n : Number) : Growing (number n) := growing_intern _ _

instance growing_int (n : Int64) : Growing (int n) := growing_number _

instance growing_zero : Growing zero := growing_int 0

instance growing_one : Growing one := growing_int 1

instance growing_fieldName (name : String) : Growing (fieldName name) := growing_intern _ _

instance growing_ofFunction (f : Function) : Growing (ofFunction f) := growing_intern _ _

instance growing_tuple (items : List Expr) : Growing (tuple items) := by
  unfold tuple
  split <;> infer_instance

instance growing_object (v : Value) (resolver : Resolver) : Growing (object v resolver) :=
  growing_intern _ _

mutual

theorem growing_constant (resolver : Resolver) : ∀ v, Growing (constant resolver v)
  | .number n => by
    unfold constant
    infer_instance
  | .function f => by
    unfold constant
    infer_instance
  | .field name => by
    unfold constant
    infer_instance
  | .tuple items => by
    have := growing_constants resolver items
    unfold constant
    infer_instance
  | .array _ _ _ | .matrix _ _ | .object _ _ _ _ => by
    unfold constant
    infer_instance

theorem growing_constants (resolver : Resolver) : ∀ vs, Growing (constants resolver vs)
  | [] => by
    unfold constants
    infer_instance
  | v :: vs => by
    have := growing_constant resolver v
    have := growing_constants resolver vs
    unfold constants
    infer_instance

end

attribute [instance] growing_constant growing_constants

instance growing_ofMatrix (m : Matrix) : Growing (ofMatrix m) := by
  unfold ofMatrix
  infer_instance

instance growing_applyDomain (target argument : Expr) : Growing (applyDomain target argument) := by
  unfold applyDomain
  split <;> infer_instance

instance growing_rawApply (target argument : Expr) : Growing (rawApply target argument) := by
  unfold rawApply
  infer_instance

end Leaves

/-! ## Powers, sums and products -/

instance growing_powerOf (target argument base exponent : Expr) :
    Growing (powerOf target argument base exponent) := by
  unfold powerOf
  infer_instance

instance growing_power (base exponent : Expr) : Growing (power base exponent) := by
  unfold power
  infer_instance

instance growing_reciprocal (base : Expr) : Growing (reciprocal base) := by
  unfold reciprocal
  infer_instance

section Sums

variable (product : List Expr → Build Expr) [∀ l, Growing (product l)]

instance growing_splitCoefficient (term : Expr) : Growing (splitCoefficient product term) := by
  unfold splitCoefficient
  split
  · split
    · split <;> infer_instance
    · infer_instance
  · infer_instance

instance growing_scaledTerm (rest : Expr) (c : Number) :
    Growing (scaledTerm product rest c) := by
  unfold scaledTerm
  infer_instance

instance growing_scaledTerms (groups : List (Expr × Number.Tracked)) :
    Growing (scaledTerms product groups) := by
  induction groups with
  | nil =>
    unfold scaledTerms
    infer_instance
  | cons group groups ih =>
    unfold scaledTerms
    infer_instance

instance growing_ofTerms (constant : Option Expr) (terms : List Expr) :
    Growing (ofTerms constant terms) := by
  unfold ofTerms
  split
  · cases constant with
    | none => exact growing_zero
    | some c => exact growing_pure c
  · infer_instance
  · infer_instance

instance growing_sumWith (input : List Expr) : Growing (sumWith product input) := by
  unfold sumWith
  infer_instance

end Sums

instance growing_generator (rows cols : ℕ) (element : Expr) :
    Growing (generator rows cols element) :=
  growing_intern _ _

instance growing_pushFactor (reversed : List Expr) (factor : Expr) :
    Growing (pushFactor reversed factor) := by
  unfold pushFactor
  split
  · infer_instance
  · refine @growing_ite _ _ _ _ _ _ _ inferInstance ?_
    split <;> infer_instance

instance growing_ofChain (factors : List Expr) : Growing (ofChain factors) := by
  unfold ofChain
  split <;> infer_instance

instance growing_chainWith (product : List Expr → Build Expr) [∀ l, Growing (product l)]
    (factors : List Expr) : Growing (chainWith product factors) := by
  unfold chainWith
  infer_instance

instance growing_inverse (a : Expr) : Growing (inverse a) := by
  unfold inverse
  refine @growing_ite _ _ _ _ _ _ _ inferInstance ?_
  split <;> infer_instance

instance growing_transpose (a : Expr) : Growing (transpose a) := by
  unfold transpose
  refine @growing_ite _ _ _ _ _ _ _ inferInstance ?_
  split <;> infer_instance

section Products

variable (sum : List Expr → Build Expr) [∀ l, Growing (sum l)]

instance growing_splitPower (factor : Expr) : Growing (splitPower factor) := by
  unfold splitPower
  split <;> infer_instance

instance growing_raisedBase (base exponent : Expr) : Growing (raisedBase base exponent) := by
  unfold raisedBase
  infer_instance

instance growing_raisedBases (groups : List (Expr × List Expr)) :
    Growing (raisedBases sum groups) := by
  induction groups with
  | nil =>
    unfold raisedBases
    infer_instance
  | cons group groups ih =>
    unfold raisedBases
    infer_instance

instance growing_mergePowers (scalars : List Expr) : Growing (mergePowers sum scalars) := by
  unfold mergePowers
  infer_instance

instance growing_leftChain (c : Number) (factors : List Expr) : Growing (leftChain c factors) := by
  unfold leftChain
  split <;> infer_instance

instance growing_foldProduct (pair : Expr → Expr → Build Expr) [∀ a b, Growing (pair a b)]
    (factors : List Expr) : Growing (foldProduct pair factors) := by
  unfold foldProduct
  split <;> infer_instance

instance growing_coefficientFactor (c : Number) : Growing (coefficientFactor c) := by
  unfold coefficientFactor
  infer_instance

instance growing_mergeMatrices (product : List Expr → Build Expr) [∀ l, Growing (product l)]
    (factors : List Expr) : Growing (mergeMatrices product factors) := by
  unfold mergeMatrices
  infer_instance

instance growing_assemble (factors : List Expr) : Growing (assemble sum factors) := by
  unfold assemble
  infer_instance

instance growing_productAux (depth : ℕ) (input : List Expr) :
    Growing (productAux depth input) := by
  induction depth generalizing input with
  | zero =>
    unfold productAux
    infer_instance
  | succ depth ih =>
    unfold productAux
    infer_instance

end Products

instance growing_canonicalProduct (factors : List Expr) : Growing (canonicalProduct factors) := by
  unfold canonicalProduct
  infer_instance

instance growing_sum (terms : List Expr) : Growing (sum terms) := by
  unfold sum
  infer_instance

/-! ## Substitution and summations -/

section Substitution

instance growing_remember (e : Expr) (x : Memoized Memo Expr) [Growing x] :
    Growing (Memoized.remember e x) := by
  unfold Memoized.remember
  refine @growing_bind _ _ _ _ _ _ inferInstance fun m => ?_
  split <;> infer_instance

mutual

theorem growing_substituteFrom (rebuild : Rebuild) [∀ e children, Growing (rebuild e children)]
    (map : Memo) : ∀ e, Growing (substituteFrom rebuild map e)
  | .node _ _ kind => by
    unfold substituteFrom
    split
    · infer_instance
    · refine @growing_remember _ _ ?_
      match kind with
      | .tuple items | .sum items | .chain items =>
        have := growing_substituteAll rebuild map items
        infer_instance
      | .apply target argument =>
        have := growing_substituteFrom rebuild map target
        have := growing_substituteFrom rebuild map argument
        infer_instance
      | .generator _ _ inner | .inverse inner | .transpose inner =>
        have := growing_substituteFrom rebuild map inner
        infer_instance
      | .indexedSum _ lower upper body =>
        have := growing_substituteFrom rebuild map lower
        have := growing_substituteFrom rebuild map upper
        have := growing_substituteFrom rebuild map body
        infer_instance
      | .collectionSum _ collection body =>
        have := growing_substituteFrom rebuild map collection
        have := growing_substituteFrom rebuild map body
        infer_instance
      | .symbol _ | .number _ | .object _ _ | .field _ | .function _ => infer_instance

theorem growing_substituteAll (rebuild : Rebuild) [∀ e children, Growing (rebuild e children)]
    (map : Memo) : ∀ es, Growing (substituteAll rebuild map es)
  | [] => by
    unfold substituteAll
    infer_instance
  | e :: es => by
    have := growing_substituteFrom rebuild map e
    have := growing_substituteAll rebuild map es
    unfold substituteAll
    infer_instance

end

attribute [instance] growing_substituteFrom growing_substituteAll

instance growing_substituteWith (rebuild : Rebuild) [∀ e children, Growing (rebuild e children)]
    (pairs : List (Expr × Expr)) (e : Expr) :
    Growing (substituteWith rebuild pairs e) := by
  unfold substituteWith
  infer_instance

end Substitution

section Summations

variable (substitute : Substitute) [∀ pairs e, Growing (substitute pairs e)]

instance growing_bodyDomain (body : Expr) : Growing (bodyDomain body) := by
  unfold bodyDomain
  split <;> infer_instance

instance growing_bindIndex (temporary body : Expr) :
    Growing (bindIndex substitute temporary body) := by
  unfold bindIndex
  infer_instance

instance growing_beginIndexedSum (lower upper : Expr) : Growing (beginIndexedSum lower upper) := by
  unfold beginIndexedSum
  infer_instance

instance growing_endIndexedSumWith (lower upper temporary body : Expr) :
    Growing (endIndexedSumWith substitute lower upper temporary body) := by
  unfold endIndexedSumWith
  infer_instance

instance growing_elementDomain (collection : Expr) : Growing (elementDomain collection) := by
  unfold elementDomain
  split
  · infer_instance
  · split <;> infer_instance

instance growing_beginCollectionSum (collection : Expr) :
    Growing (beginCollectionSum collection) := by
  unfold beginCollectionSum
  infer_instance

instance growing_endCollectionSumWith (collection temporary body : Expr) :
    Growing (endCollectionSumWith substitute collection temporary body) := by
  unfold endCollectionSumWith
  infer_instance

instance growing_callWith (f : Function) (target argument : Expr) :
    Growing (callWith substitute f target argument) := by
  unfold callWith
  refine @growing_ite _ _ _ _ _ _ _ inferInstance ?_
  split <;> infer_instance

end Summations

/-! ## Application -/

/-- Application and rebuilding call each other with less depth. -/
lemma growing_applyAux_rebuildAux (depth : ℕ) :
    (∀ target argument, Growing (applyAux depth target argument)) ∧
      ∀ e children, Growing (rebuildAux depth e children) := by
  induction depth with
  | zero =>
    unfold applyAux rebuildAux
    exact ⟨inferInstance, inferInstance⟩
  | succ depth ih =>
    obtain ⟨happly, hrebuild⟩ := ih
    constructor
    · intro target argument
      unfold applyAux
      split
      · infer_instance
      · refine @growing_bind _ _ _ _ _ _ inferInstance fun domain => ?_
        refine @growing_ite _ _ _ _ _ _ _ inferInstance ?_
        dsimp only
        split <;> infer_instance
    · intro e children
      unfold rebuildAux
      refine @growing_ite _ _ _ _ _ _ _ inferInstance ?_
      dsimp only
      split <;> infer_instance

instance growing_applyAux (depth : ℕ) (target argument : Expr) :
    Growing (applyAux depth target argument) :=
  (growing_applyAux_rebuildAux depth).1 target argument

instance growing_rebuildAux (depth : ℕ) (e : Expr) (children : List Expr) :
    Growing (rebuildAux depth e children) :=
  (growing_applyAux_rebuildAux depth).2 e children

instance growing_apply (target argument : Expr) : Growing (apply target argument) := by
  unfold apply
  infer_instance

instance growing_rebuild (e : Expr) (children : List Expr) : Growing (rebuild e children) := by
  unfold rebuild
  infer_instance

instance growing_substitute (pairs : List (Expr × Expr)) (e : Expr) :
    Growing (substitute pairs e) := by
  unfold substitute
  infer_instance

instance growing_product (factors : List Expr) : Growing (product factors) := by
  unfold product
  infer_instance

instance growing_chain (factors : List Expr) : Growing (chain factors) := by
  unfold chain
  infer_instance

instance growing_call (f : Function) (args : List Expr) : Growing (call f args) := by
  unfold call
  infer_instance

instance growing_add (a b : Expr) : Growing (add a b) := growing_sum _

instance growing_neg (a : Expr) : Growing (neg a) := by
  unfold neg
  infer_instance

instance growing_sub (a b : Expr) : Growing (sub a b) := by
  unfold sub
  infer_instance

instance growing_div (a b : Expr) : Growing (div a b) := by
  unfold div
  infer_instance

instance growing_member (e : Expr) (name : String) : Growing (member e name) := by
  unfold member
  infer_instance

instance growing_element (e : Expr) (index : List Expr) : Growing (element e index) := by
  unfold element
  infer_instance

instance growing_endIndexedSum (lower upper temporary body : Expr) :
    Growing (endIndexedSum lower upper temporary body) :=
  growing_endIndexedSumWith _ _ _ _ _

instance growing_endCollectionSum (collection temporary body : Expr) :
    Growing (endCollectionSum collection temporary body) :=
  growing_endCollectionSumWith _ _ _ _

end Expr

/-! ## Concrete values -/

namespace Value

instance growing_ofMatrixResult (result : Except MatrixFault Matrix) :
    Growing (ofMatrixResult result) := by
  unfold ofMatrixResult
  infer_instance

instance growing_ofOperation (op : Number → Number → Number) (a b : Number) :
    Growing (ofOperation op a b) := by
  unfold ofOperation
  infer_instance

end Value

namespace Evaluator

variable (ev : Evaluator)

instance growing_add (left right : Value) : Growing (ev.add left right) := by
  unfold add
  split <;> infer_instance

instance growing_sum (values : List Value) : Growing (ev.sum values) := by
  unfold sum
  infer_instance

instance growing_inverse (v : Value) : Growing (ev.inverse v) := by
  unfold inverse
  split <;> infer_instance

instance growing_transpose (v : Value) : Growing (ev.transpose v) := by
  unfold transpose
  split <;> infer_instance

end Evaluator

namespace Resolver

instance growing_modifyTally (f : Tally → Tally) (r : Resolver) :
    Growing (modify (Store.modifyTally f r) : Build PUnit) :=
  ⟨fun _ _ => ⟨id, id, List.prefix_refl _, le_refl _, id, List.suffix_refl _⟩,
    fun _ s _ _ _ => .ok PUnit.unit (Store.modifyTally f r s) ⟨rfl, rfl, rfl, rfl⟩⟩

instance growing_field (r : Resolver) (v : Value) (name : String) : Growing (r.field v name) := by
  unfold field
  infer_instance

instance growing_element (r : Resolver) (v : Value) (arguments : List Value) :
    Growing (r.element v arguments) := by
  unfold element
  infer_instance

end Resolver

instance Evaluator.growing_applyWith (ev : Evaluator) (call : Function → List Value → Build Value)
    [∀ f args, Growing (call f args)] (target argument : Value) :
    Growing (ev.applyWith call target argument) := by
  unfold applyWith
  split <;> infer_instance

instance Builtin.growing_evaluate (b : Builtin) (args : List Number) :
    Growing (b.evaluate args) := by
  unfold evaluate
  split <;> infer_instance

namespace Reply

mutual

theorem growing_value (args : List Value) : ∀ r : Reply, Growing (r.value args)
  | .number _ | .matrix _ | .argument _ => by
    unfold value
    infer_instance
  | .tuple items => by
    have := growing_values args items
    unfold value
    infer_instance

theorem growing_values (args : List Value) : ∀ rs : List Reply, Growing (values args rs)
  | [] => by
    unfold values
    infer_instance
  | r :: rs => by
    have := growing_value args r
    have := growing_values args rs
    unfold values
    infer_instance

end

attribute [instance] growing_value growing_values

end Reply

instance NativeRule.growing_evaluate (rule : NativeRule) (args : List Value) :
    Growing (rule.evaluate args) := by
  unfold evaluate
  split <;> infer_instance

namespace Function

instance growing_numericArguments (name : String) (args : List Value) :
    Growing (numericArguments name args) := by
  induction args with
  | nil =>
    unfold numericArguments
    infer_instance
  | cons v args ih => cases v <;> (unfold numericArguments; infer_instance)

instance growing_evaluateWith (normalize : Expr → Build Expr) [∀ e, Growing (normalize e)]
    (f : Function) (args : List Value) : Growing (evaluateWith normalize f args) := by
  unfold evaluateWith
  refine @growing_ite _ _ _ _ _ _ _ inferInstance ?_
  split
  · infer_instance
  · infer_instance
  · refine @growing_bind _ _ _ _ _ _ inferInstance fun constants => ?_
    refine @growing_bind _ _ _ _ _ _ inferInstance fun bound => ?_
    refine @growing_bind _ _ _ _ _ _ inferInstance fun result => ?_
    split <;> infer_instance

end Function

/-! ## Normalization -/

namespace Expr

instance growing_reducePower (base exponent : Expr) : Growing (reducePower base exponent) := by
  unfold reducePower
  refine @growing_ite _ _ _ _ _ _ _ inferInstance ?_
  split <;> infer_instance

instance growing_reduceTranspose (ev : Evaluator) (inner : Expr) :
    Growing (reduceTranspose ev inner) := by
  unfold reduceTranspose
  split
  · infer_instance
  · split <;> infer_instance

instance growing_foldFactor (apply : Value → Value → Build Value) [∀ v w, Growing (apply v w)]
    (state : List Expr × Bool) (factor : Expr) : Growing (foldFactor apply state factor) := by
  unfold foldFactor
  split
  · split <;> infer_instance
  · infer_instance

instance growing_unrolled (index body : Expr) (first : ℤ) (count : ℕ) :
    Growing (unrolled index body first count) := by
  induction count generalizing first with
  | zero =>
    unfold unrolled
    infer_instance
  | succ count ih =>
    unfold unrolled
    infer_instance

instance growing_unrolledOver (index body : Expr) (items : List Value) :
    Growing (unrolledOver index body items) := by
  induction items with
  | nil =>
    unfold unrolledOver
    infer_instance
  | cons item items ih =>
    unfold unrolledOver
    infer_instance

section Visit

variable (visit : Expr → Memoized Memo Expr) [∀ e, Growing (visit e)]

instance growing_entriesAt (element : Expr) (positions : List (ℕ × ℕ)) :
    Growing (entriesAt visit element positions) := by
  induction positions with
  | nil =>
    unfold entriesAt
    infer_instance
  | cons position rest ih =>
    unfold entriesAt
    refine @growing_bind _ _ _ _ _ _ inferInstance fun row => ?_
    refine @growing_bind _ _ _ _ _ _ inferInstance fun col => ?_
    refine @growing_bind _ _ _ _ _ _ inferInstance fun instanceOf => ?_
    refine @growing_bind _ _ _ _ _ _ inferInstance fun entry => ?_
    split <;> infer_instance

instance growing_tabulate (maxUnroll rows cols : ℕ) (element : Expr) :
    Growing (tabulate visit maxUnroll rows cols element) := by
  unfold tabulate
  refine @growing_ite _ _ _ _ _ _ _ inferInstance ?_
  refine @growing_ite _ _ _ _ _ _ _ inferInstance ?_
  refine @growing_bind _ _ _ _ _ _ inferInstance fun entries => ?_
  split <;> infer_instance

instance growing_reduceNode (settings : NormalSettings) (apply : Value → Value → Build Value)
    [∀ v w, Growing (apply v w)] (e : Expr) : Growing (reduceNode settings apply visit e) := by
  unfold reduceNode
  split
  · split
    · infer_instance
    · split <;> infer_instance
  · split <;> infer_instance
  · infer_instance
  · split <;> infer_instance
  · infer_instance
  · infer_instance
  · split <;> infer_instance
  · split <;> infer_instance
  · infer_instance

instance growing_settleNode (reduce : Memoized Memo (Option Expr)) [Growing reduce]
    (e rebuilt : Expr) : Growing (settleNode visit reduce e rebuilt) := by
  unfold settleNode
  refine @growing_ite _ _ _ _ _ _ _ ?_ inferInstance
  refine @growing_bind _ _ _ _ _ _ inferInstance fun next => ?_
  split <;> infer_instance

end Visit

instance growing_normalizeAux (depth : ℕ) (settings : NormalSettings) (e : Expr) :
    Growing (normalizeAux depth settings e) := by
  induction depth generalizing settings e with
  | zero =>
    unfold normalizeAux
    infer_instance
  | succ depth ih =>
    unfold normalizeAux
    refine @growing_bind _ _ _ _ _ _ inferInstance fun memo => ?_
    split
    · infer_instance
    · infer_instance

instance growing_normalizeWith (settings : NormalSettings) (e : Expr) :
    Growing (normalizeWith settings e) := by
  unfold normalizeWith
  infer_instance

instance growing_normalize (e : Expr) : Growing (normalize e) := growing_normalizeWith _ _

end Expr

instance Normalizer.growing_normalize (n : Normalizer) (e : Expr) : Growing (n.normalize e) := by
  unfold normalize
  infer_instance

instance Function.growing_evaluate (ev : Evaluator) (f : Function) (args : List Value) :
    Growing (f.evaluate ev args) := by
  unfold evaluate
  infer_instance

instance Evaluator.growing_apply (ev : Evaluator) (target argument : Value) :
    Growing (ev.apply target argument) := by
  unfold apply
  infer_instance

/-! ## Derivatives -/

namespace PartialRule

variable (k : ℕ) (args : List Expr)

instance growing_argumentAt : Growing (argumentAt k args) := by
  unfold argumentAt
  split <;> infer_instance

mutual

theorem growing_expr : ∀ rule : PartialRule, Growing (rule.expr k args)
  | .literal _ | .own | .argument _ | .missing _ _ => by
    unfold expr
    infer_instance
  | .sum rules | .product rules | .call _ rules => by
    have := growing_exprs rules
    unfold expr
    infer_instance
  | .depending rule => by
    unfold expr
    exact growing_expr (rule (args.map Expr.sight))

theorem growing_exprs : ∀ rules : List PartialRule, Growing (exprs k args rules)
  | [] => by
    unfold exprs
    infer_instance
  | rule :: rules => by
    have := growing_expr rule
    have := growing_exprs rules
    unfold exprs
    infer_instance

end

attribute [instance] growing_expr growing_exprs

end PartialRule

instance Builtin.growing_partialDerivative (b : Builtin) (k : ℕ) (args : List Expr) :
    Growing (b.partialDerivative k args) := by
  unfold partialDerivative
  split <;> infer_instance

namespace Function

instance growing_partialDerivative? (f : Function) (k : ℕ) (args : List Expr) :
    Growing (f.partialDerivative? k args) := by
  unfold partialDerivative?
  split
  · infer_instance
  · split <;> infer_instance
  · infer_instance

instance growing_partialDerivative (f : Function) (k : ℕ) (args : List Expr) :
    Growing (f.partialDerivative k args) := by
  unfold partialDerivative
  refine @growing_bind _ _ _ _ _ _ inferInstance fun found => ?_
  split <;> infer_instance

instance growing_chainTerm (f : Function) (args : List Expr) (k : ℕ) (d : Expr) :
    Growing (f.chainTerm args k d) := by
  unfold chainTerm
  infer_instance

end Function

namespace Expr

/-- Children are smaller. -/
lemma sizeOf_lt_of_mem_children {e c : Expr} (h : c ∈ e.children) : sizeOf c < sizeOf e := by
  obtain ⟨ordinal, domain, kind⟩ := e
  have hitems {items : List Expr} (hc : c ∈ items) := List.sizeOf_lt_of_mem hc
  cases kind <;> simp only [children, Kind.children, Expr.kind, List.mem_cons, List.not_mem_nil, or_false] at h
  case tuple items => have := hitems h; simp; omega
  case sum items => have := hitems h; simp; omega
  case chain items => have := hitems h; simp; omega
  case generator => subst h; simp; omega
  case inverse => subst h; simp; omega
  case transpose => subst h; simp; omega
  case apply => rcases h with rfl | rfl <;> simp <;> omega
  case indexedSum => rcases h with rfl | rfl | rfl | rfl <;> simp <;> omega
  case collectionSum => rcases h with rfl | rfl | rfl <;> simp <;> omega

instance growing_rememberDerivative (e x : Expr) (derive : Memoized DerivativeTable Expr)
    [Growing derive] : Growing (Memoized.rememberDerivative e x derive) := by
  unfold Memoized.rememberDerivative
  refine @growing_bind _ _ _ _ _ _ inferInstance fun m => ?_
  split <;> infer_instance

instance growing_productUnlessZero (derivative : Expr) (factors : List Expr) :
    Growing (productUnlessZero derivative factors) := by
  unfold productUnlessZero
  infer_instance

/-- What is looked up only adds to the store, if what is computed otherwise does. -/
class GrowingLookup (lookup : DerivativeLookup) : Prop where
  /-- Every derivative that is looked up only adds to the store. -/
  growing : ∀ (e x : Expr) (y : Memoized DerivativeTable Expr) [Growing y], Growing (lookup e x y)

instance growingLookup_rememberDerivative : GrowingLookup Memoized.rememberDerivative :=
  ⟨fun _ _ _ _ => inferInstance⟩

section Derive

variable (lookup : DerivativeLookup)

section Lists

variable {lookup} {x : Expr} {es : List Expr}

lemma growing_deriveAllWith_of (h : ∀ e ∈ es, Growing (deriveWith lookup x e)) : Growing (deriveAllWith lookup x es) := by
  induction es with
  | nil =>
    unfold deriveAllWith
    infer_instance
  | cons e es ih =>
    have := h e (by simp)
    have := ih fun e' he' => h e' (by simp [he'])
    unfold deriveAllWith
    infer_instance

lemma growing_chainTermsWith_of (h : ∀ e ∈ es, Growing (deriveWith lookup x e)) (f : Function)
    (args : List Expr) (k : ℕ) : Growing (chainTermsWith lookup x f args k es) := by
  induction es generalizing k with
  | nil =>
    unfold chainTermsWith
    infer_instance
  | cons e es ih =>
    have := h e (by simp)
    have := ih (fun e' he' => h e' (by simp [he'])) (k + 1)
    unfold chainTermsWith
    infer_instance

lemma growing_chainDerivativesWith_of (h : ∀ e ∈ es, Growing (deriveWith lookup x e)) (before : List Expr) :
    Growing (chainDerivativesWith lookup x before es) := by
  induction es generalizing before with
  | nil =>
    unfold chainDerivativesWith
    infer_instance
  | cons e es ih =>
    have := h e (by simp)
    have := ih (fun e' he' => h e' (by simp [he'])) (e :: before)
    unfold chainDerivativesWith
    infer_instance

end Lists

variable [GrowingLookup lookup]

instance growing_deriveWith (x e : Expr) : Growing (deriveWith lookup x e) := by
  induction h : sizeOf e using Nat.strongRecOn generalizing e with
  | _ n ih =>
    subst h
    have hchild : ∀ c ∈ e.children, Growing (deriveWith lookup x c) := fun c hc =>
      ih _ (sizeOf_lt_of_mem_children hc) c rfl
    obtain ⟨ordinal, domain, kind⟩ := e
    unfold deriveWith
    refine @GrowingLookup.growing lookup _ _ _ _ (@growing_ite _ _ _ _ _ _ _ inferInstance ?_)
    cases kind with
    | tuple items | sum items =>
      have : Growing (deriveAllWith lookup x items) := growing_deriveAllWith_of hchild
      infer_instance
    | apply target argument =>
      have := hchild target (by simp [children, Kind.children, Expr.kind])
      have := hchild argument (by simp [children, Kind.children, Expr.kind])
      dsimp only
      split
      · infer_instance
      · split
        · rename_i items
          have hitems : ∀ c ∈ items, Growing (deriveWith lookup x c) := by
            intro c hc
            have := List.sizeOf_lt_of_mem hc
            exact ih _ (by simp; omega) c rfl
          have := growing_chainTermsWith_of hitems
          infer_instance
        · infer_instance
      all_goals infer_instance
    | chain factors =>
      have : ∀ before, Growing (chainDerivativesWith lookup x before factors) :=
        growing_chainDerivativesWith_of hchild
      infer_instance
    | generator _ _ inner | inverse inner | transpose inner =>
      have := hchild inner (by simp [children, Kind.children, Expr.kind])
      infer_instance
    | indexedSum _ _ _ body =>
      have := hchild body (by simp [children, Kind.children, Expr.kind])
      infer_instance
    | collectionSum _ collection body =>
      have := hchild collection (by simp [children, Kind.children, Expr.kind])
      have := hchild body (by simp [children, Kind.children, Expr.kind])
      infer_instance
    | symbol _ | number _ | object _ _ | field _ | function _ => infer_instance

instance growing_deriveAllWith (x : Expr) (es : List Expr) : Growing (deriveAllWith lookup x es) :=
  growing_deriveAllWith_of fun e _ => growing_deriveWith lookup x e

instance growing_chainTermsWith (x : Expr) (f : Function) (args : List Expr) (k : ℕ)
    (es : List Expr) : Growing (chainTermsWith lookup x f args k es) :=
  growing_chainTermsWith_of (fun e _ => growing_deriveWith lookup x e) f args k

instance growing_chainDerivativesWith (x : Expr) (before es : List Expr) :
    Growing (chainDerivativesWith lookup x before es) :=
  growing_chainDerivativesWith_of (fun e _ => growing_deriveWith lookup x e) before

end Derive

instance growing_checkVariable (x : Expr) : Growing (checkVariable x) := by
  unfold checkVariable
  infer_instance

instance growing_derive (e x : Expr) : Growing (derive e x) := by
  unfold derive
  infer_instance

instance growing_gradientFrom (e : Expr) (xs : List Expr) : Growing (gradientFrom e xs) := by
  induction xs with
  | nil =>
    unfold gradientFrom
    infer_instance
  | cons x xs ih =>
    unfold gradientFrom
    infer_instance

instance growing_gradient (e : Expr) (xs : List Expr) : Growing (gradient e xs) := by
  unfold gradient
  infer_instance

end Expr

end TermGraph
