import TermGraph.Expr.Apply
import TermGraph.Proofs.Runs

/-!
# More depth changes no outcome

A run reads a bound on its depth, and exceeding it is an error of its own.  Every other outcome, a
result or another error, stays as it is at a greater depth, and so does the store.  The bound decides
whether a run comes to its end and nothing else.

* `Persists x y`: at every depth at which `x` does not exceed it, and at greater depths, `y` comes to
  what `x` comes to.  It is a class, so that it is inferred along the syntax of computations; a
  computation that persists in itself comes to the same at every depth that suffices.
* `Expr.persists_applyAux_rebuildAux`: application and rebuilding persist at a greater depth.
-/

namespace TermGraph

variable {σ μ α β γ : Type}

/-- The outcomes of `x` persist in `y`: what `x` comes to at some depth, unless it exceeds the depth,
`y` comes to at that depth and at greater ones. -/
class Persists (x y : Run σ α) : Prop where
  /-- The outcome is the same. -/
  eq_of_le : ∀ {d d' : ℕ} {s : σ}, d ≤ d' → (∀ t, x d s ≠ .error .depthExceeded t) → y d' s = x d s

/-! ## Steps -/

section Steps

instance persists_pure (a : α) : Persists (pure a : Run σ α) (pure a) := ⟨fun _ _ => rfl⟩

instance persists_throw (e : Error) : Persists (throw e : Run σ α) (throw e) := ⟨fun _ _ => rfl⟩

/-- Where the depth is exceeded, there is nothing that could persist. -/
instance persists_depthExceeded (y : Run σ α) : Persists (throw .depthExceeded) y :=
  ⟨fun _ h => absurd rfl (h _)⟩

instance persists_step (f : Store → α × Store) : Persists (Build.step f) (Build.step f) :=
  ⟨fun _ _ => rfl⟩

instance persists_intern (domain : Domain) (kind : Kind) :
    Persists (Build.intern domain kind) (Build.intern domain kind) :=
  persists_step _

instance persists_fresh : Persists Build.fresh Build.fresh := persists_step _

instance persists_settle (t : Number.Tracked) : Persists (Build.settle t) (Build.settle t) :=
  persists_step _

instance persists_noteIndex (index body : Expr) :
    Persists (Build.noteIndex index body) (Build.noteIndex index body) :=
  persists_step _

instance persists_ofExcept {ε : Type} (toError : ε → Error) (o : Except ε α) :
    Persists (Build.ofExcept toError o) (Build.ofExcept toError o) := by
  unfold Build.ofExcept
  split <;> infer_instance

instance persists_memo : Persists (Memoized.memo : Memoized μ μ) Memoized.memo := ⟨fun _ _ => rfl⟩

instance persists_modifyMemo (f : μ → μ) :
    Persists (Memoized.modifyMemo f : Memoized μ Unit) (Memoized.modifyMemo f) :=
  ⟨fun _ _ => rfl⟩

end Steps

/-! ## Computations that are put together -/

section Rules

instance persists_bind (x y : Run σ α) (f g : α → Run σ β) [Persists x y] [∀ a, Persists (f a) (g a)] :
    Persists (x >>= f) (y >>= g) := by
  refine ⟨fun {d d' s} hle h => ?_⟩
  have hx : y d' s = x d s := Persists.eq_of_le hle fun t hr => h t (by rw [Run.bind_apply, hr])
  rw [Run.bind_apply, Run.bind_apply, hx]
  cases hr : x d s with
  | ok a t =>
    refine Persists.eq_of_le hle fun u hu => h u ?_
    rw [Run.bind_apply, hr]
    exact hu
  | error e t => rfl

/-- The depth is read. -/
lemma persists_read {f g : ℕ → Run σ α} (h : ∀ {d d' : ℕ}, d ≤ d' → Persists (f d) (g d')) :
    Persists (read >>= f) (read >>= g) := by
  refine ⟨fun {d d' s} hle hne => ?_⟩
  rw [Run.bind_apply_ok (Run.read_apply d s)] at hne ⊢
  rw [Run.bind_apply_ok (Run.read_apply d' s)]
  exact (h hle).eq_of_le hle hne

instance persists_map (g : α → β) (x y : Run σ α) [Persists x y] : Persists (g <$> x) (g <$> y) := by
  rw [Run.map_eq_bind, Run.map_eq_bind]
  infer_instance

instance persists_ite (c : Prop) [Decidable c] (x x' y y' : Run σ α) [Persists x y] [Persists x' y'] :
    Persists (if c then x else x') (if c then y else y') := by
  split <;> infer_instance

instance persists_mapM (f g : α → Run σ β) [∀ a, Persists (f a) (g a)] (l : List α) :
    Persists (l.mapM f) (l.mapM g) := by
  induction l with
  | nil =>
    rw [List.mapM_nil, List.mapM_nil]
    infer_instance
  | cons a l ih =>
    rw [List.mapM_cons, List.mapM_cons]
    infer_instance

instance persists_foldlM (f g : β → α → Run σ β) [∀ b a, Persists (f b a) (g b a)] (l : List α) (b : β) :
    Persists (l.foldlM f b) (l.foldlM g b) := by
  induction l generalizing b with
  | nil =>
    rw [List.foldlM_nil, List.foldlM_nil]
    infer_instance
  | cons a l ih =>
    rw [List.foldlM_cons, List.foldlM_cons]
    infer_instance

instance persists_option_mapM (f g : α → Run σ β) [∀ a, Persists (f a) (g a)] (o : Option α) :
    Persists (o.mapM f) (o.mapM g) := by
  cases o with
  | none => exact persists_pure none
  | some a => exact persists_map some (f a) (g a)

instance persists_lift (x y : Build α) [Persists x y] :
    Persists (liftM x : Memoized μ α) (liftM y : Memoized μ α) := by
  have hrun (z : Build α) (d : ℕ) (s : Store) (m : μ) : (liftM z : Memoized μ α) d (s, m) =
      match z d s with
      | .ok a t => .ok a (t, m)
      | .error e t => .error e (t, m) := rfl
  refine ⟨fun {d d' p} hle h => ?_⟩
  obtain ⟨s, m⟩ := p
  have hx : y d' s = x d s := Persists.eq_of_le hle fun t hr => h (t, m) (by rw [hrun, hr])
  rw [hrun, hrun, hx]

instance persists_forgetting (m : μ) (x y : Memoized μ α) [Persists x y] :
    Persists (Build.forgetting m x) (Build.forgetting m y) := by
  -- The error of a run with a memo is caught and thrown again, so the rule for `bind` is of no use.
  have hrun (z : Memoized μ α) (d : ℕ) (s : Store) : Build.forgetting m z d s =
      match z d (s, m) with
      | .ok a p => .ok a p.1
      | .error e p => .error e p.1 := by
    unfold Build.forgetting
    rw [Run.bind_apply, Build.withMemo]
    cases z d (s, m) <;> rfl
  refine ⟨fun {d d' s} hle h => ?_⟩
  have hx : y d' (s, m) = x d (s, m) :=
    Persists.eq_of_le hle fun p hr => h p.1 (by rw [hrun, hr])
  rw [hrun, hrun, hx]

end Rules

namespace Expr

/-! ## Leaves, powers and matrices -/

section Leaves

instance persists_symbol (name : String) (domain : Domain) :
    Persists (symbol name domain) (symbol name domain) :=
  persists_intern _ _

instance persists_number (n : Number) : Persists (number n) (number n) := persists_intern _ _

instance persists_int (n : Int64) : Persists (int n) (int n) := persists_number _

instance persists_zero : Persists zero zero := persists_int 0

instance persists_one : Persists one one := persists_int 1

instance persists_ofFunction (f : Function) : Persists (ofFunction f) (ofFunction f) :=
  persists_intern _ _

instance persists_tuple (items : List Expr) : Persists (tuple items) (tuple items) := by
  unfold tuple
  split <;> infer_instance

instance persists_ofMatrix (m : Matrix) : Persists (ofMatrix m) (ofMatrix m) := by
  unfold ofMatrix Value.ofMatrix
  simp only [bind_assoc, pure_bind, constant, object]
  infer_instance

instance persists_applyDomain (target argument : Expr) :
    Persists (applyDomain target argument) (applyDomain target argument) := by
  unfold applyDomain
  split <;> infer_instance

instance persists_rawApply (target argument : Expr) :
    Persists (rawApply target argument) (rawApply target argument) := by
  unfold rawApply
  infer_instance

instance persists_powerOf (target argument base exponent : Expr) :
    Persists (powerOf target argument base exponent) (powerOf target argument base exponent) := by
  unfold powerOf
  infer_instance

instance persists_power (base exponent : Expr) : Persists (power base exponent) (power base exponent) := by
  unfold power
  infer_instance

instance persists_reciprocal (base : Expr) : Persists (reciprocal base) (reciprocal base) := by
  unfold reciprocal
  infer_instance

instance persists_generator (rows cols : ℕ) (element : Expr) :
    Persists (generator rows cols element) (generator rows cols element) :=
  persists_intern _ _

instance persists_pushFactor (reversed : List Expr) (factor : Expr) :
    Persists (pushFactor reversed factor) (pushFactor reversed factor) := by
  unfold pushFactor
  split
  · infer_instance
  · refine @persists_ite _ _ _ _ _ _ _ _ inferInstance ?_
    split <;> infer_instance

instance persists_ofChain (factors : List Expr) : Persists (ofChain factors) (ofChain factors) := by
  unfold ofChain
  split <;> infer_instance

instance persists_inverse (a : Expr) : Persists (inverse a) (inverse a) := by
  unfold inverse
  refine @persists_ite _ _ _ _ _ _ _ _ inferInstance ?_
  split <;> infer_instance

instance persists_transpose (a : Expr) : Persists (transpose a) (transpose a) := by
  unfold transpose
  refine @persists_ite _ _ _ _ _ _ _ _ inferInstance ?_
  split <;> infer_instance

end Leaves

/-! ## Sums and products -/

section Operations

variable (f g : List Expr → Build Expr) [∀ l, Persists (f l) (g l)]

instance persists_splitCoefficient (term : Expr) :
    Persists (splitCoefficient f term) (splitCoefficient g term) := by
  unfold splitCoefficient
  split
  · split
    · split <;> infer_instance
    · infer_instance
  · infer_instance

instance persists_scaledTerm (rest : Expr) (c : Number) :
    Persists (scaledTerm f rest c) (scaledTerm g rest c) := by
  unfold scaledTerm
  infer_instance

instance persists_scaledTerms (groups : List (Expr × Number.Tracked)) :
    Persists (scaledTerms f groups) (scaledTerms g groups) := by
  induction groups with
  | nil =>
    unfold scaledTerms
    infer_instance
  | cons group groups ih =>
    unfold scaledTerms
    infer_instance

instance persists_ofTerms (constant : Option Expr) (terms : List Expr) :
    Persists (ofTerms constant terms) (ofTerms constant terms) := by
  unfold ofTerms
  split
  · cases constant with
    | none => exact persists_zero
    | some c => exact persists_pure c
  · infer_instance
  · infer_instance

instance persists_sumWith (input : List Expr) : Persists (sumWith f input) (sumWith g input) := by
  unfold sumWith
  infer_instance

instance persists_chainWith (factors : List Expr) :
    Persists (chainWith f factors) (chainWith g factors) := by
  unfold chainWith
  infer_instance

instance persists_splitPower (factor : Expr) : Persists (splitPower factor) (splitPower factor) := by
  unfold splitPower
  split <;> infer_instance

instance persists_raisedBase (base exponent : Expr) :
    Persists (raisedBase base exponent) (raisedBase base exponent) := by
  unfold raisedBase
  infer_instance

instance persists_raisedBases (groups : List (Expr × List Expr)) :
    Persists (raisedBases f groups) (raisedBases g groups) := by
  induction groups with
  | nil =>
    unfold raisedBases
    infer_instance
  | cons group groups ih =>
    unfold raisedBases
    infer_instance

instance persists_mergePowers (scalars : List Expr) :
    Persists (mergePowers f scalars) (mergePowers g scalars) := by
  unfold mergePowers
  infer_instance

instance persists_leftChain (c : Number) (factors : List Expr) :
    Persists (leftChain c factors) (leftChain c factors) := by
  unfold leftChain
  split <;> infer_instance

instance persists_foldProduct (f g : Expr → Expr → Build Expr) [∀ a b, Persists (f a b) (g a b)]
    (factors : List Expr) : Persists (foldProduct f factors) (foldProduct g factors) := by
  unfold foldProduct
  split <;> infer_instance

instance persists_coefficientFactor (c : Number) :
    Persists (coefficientFactor c) (coefficientFactor c) := by
  unfold coefficientFactor
  infer_instance

instance persists_mergeMatrices (factors : List Expr) :
    Persists (mergeMatrices f factors) (mergeMatrices g factors) := by
  unfold mergeMatrices
  infer_instance

instance persists_assemble (factors : List Expr) : Persists (assemble f factors) (assemble g factors) := by
  unfold assemble
  infer_instance

end Operations

/-- Products persist at a greater depth of their recursion. -/
lemma persists_productAux {depth depth' : ℕ} (h : depth ≤ depth') (input : List Expr) :
    Persists (productAux depth input) (productAux depth' input) := by
  induction depth generalizing depth' input with
  | zero =>
    unfold productAux
    infer_instance
  | succ depth ih =>
    obtain ⟨n, rfl⟩ : ∃ n, depth' = n + 1 := ⟨depth' - 1, by omega⟩
    have := ih (Nat.le_of_succ_le_succ h)
    unfold productAux
    infer_instance

instance persists_canonicalProduct (factors : List Expr) :
    Persists (canonicalProduct factors) (canonicalProduct factors) :=
  persists_read fun h => persists_productAux h factors

instance persists_sum (terms : List Expr) : Persists (sum terms) (sum terms) :=
  persists_sumWith _ _ terms

/-! ## Substitution and summations -/

section Substitution

instance persists_remember (e : Expr) (x y : Memoized Memo Expr) [Persists x y] :
    Persists (Memoized.remember e x) (Memoized.remember e y) := by
  unfold Memoized.remember
  refine @persists_bind _ _ _ _ _ _ _ inferInstance fun m => ?_
  split <;> infer_instance

mutual

theorem persists_substituteFrom (f g : Rebuild) [∀ e children, Persists (f e children) (g e children)]
    (map : Memo) : ∀ e, Persists (substituteFrom f map e) (substituteFrom g map e)
  | .node _ _ kind => by
    unfold substituteFrom
    split
    · infer_instance
    · refine @persists_remember _ _ _ ?_
      match kind with
      | .tuple items | .sum items | .chain items =>
        have := persists_substituteAll f g map items
        infer_instance
      | .apply target argument =>
        have := persists_substituteFrom f g map target
        have := persists_substituteFrom f g map argument
        infer_instance
      | .generator _ _ inner | .inverse inner | .transpose inner =>
        have := persists_substituteFrom f g map inner
        infer_instance
      | .indexedSum _ lower upper body =>
        have := persists_substituteFrom f g map lower
        have := persists_substituteFrom f g map upper
        have := persists_substituteFrom f g map body
        infer_instance
      | .collectionSum _ collection body =>
        have := persists_substituteFrom f g map collection
        have := persists_substituteFrom f g map body
        infer_instance
      | .symbol _ | .number _ | .object _ _ | .field _ | .function _ => infer_instance

theorem persists_substituteAll (f g : Rebuild) [∀ e children, Persists (f e children) (g e children)]
    (map : Memo) : ∀ es, Persists (substituteAll f map es) (substituteAll g map es)
  | [] => by
    unfold substituteAll
    infer_instance
  | e :: es => by
    have := persists_substituteFrom f g map e
    have := persists_substituteAll f g map es
    unfold substituteAll
    infer_instance

end

attribute [instance] persists_substituteFrom persists_substituteAll

instance persists_substituteWith (f g : Rebuild)
    [∀ e children, Persists (f e children) (g e children)] (pairs : List (Expr × Expr)) (e : Expr) :
    Persists (substituteWith f pairs e) (substituteWith g pairs e) := by
  unfold substituteWith
  infer_instance

end Substitution

section Summations

variable (f g : Substitute) [∀ pairs e, Persists (f pairs e) (g pairs e)]

instance persists_bodyDomain (body : Expr) : Persists (bodyDomain body) (bodyDomain body) := by
  unfold bodyDomain
  split <;> infer_instance

instance persists_bindIndex (temporary body : Expr) :
    Persists (bindIndex f temporary body) (bindIndex g temporary body) := by
  unfold bindIndex
  infer_instance

instance persists_beginIndexedSum (lower upper : Expr) :
    Persists (beginIndexedSum lower upper) (beginIndexedSum lower upper) := by
  unfold beginIndexedSum
  infer_instance

instance persists_endIndexedSumWith (lower upper temporary body : Expr) :
    Persists (endIndexedSumWith f lower upper temporary body)
      (endIndexedSumWith g lower upper temporary body) := by
  unfold endIndexedSumWith
  infer_instance

instance persists_elementDomain (collection : Expr) :
    Persists (elementDomain collection) (elementDomain collection) := by
  unfold elementDomain
  split
  · infer_instance
  · split <;> infer_instance

instance persists_beginCollectionSum (collection : Expr) :
    Persists (beginCollectionSum collection) (beginCollectionSum collection) := by
  unfold beginCollectionSum
  infer_instance

instance persists_endCollectionSumWith (collection temporary body : Expr) :
    Persists (endCollectionSumWith f collection temporary body)
      (endCollectionSumWith g collection temporary body) := by
  unfold endCollectionSumWith
  infer_instance

instance persists_callWith (function : Function) (target argument : Expr) :
    Persists (callWith f function target argument) (callWith g function target argument) := by
  unfold callWith
  refine @persists_ite _ _ _ _ _ _ _ _ inferInstance ?_
  split <;> infer_instance

end Summations

/-! ## Application -/

/-- Application and rebuilding persist at a greater depth of their recursion. -/
lemma persists_applyAux_rebuildAux {depth depth' : ℕ} (h : depth ≤ depth') :
    (∀ target argument, Persists (applyAux depth target argument) (applyAux depth' target argument)) ∧
      ∀ e children, Persists (rebuildAux depth e children) (rebuildAux depth' e children) := by
  -- Both call each other with one level less, so they go through one induction.
  induction depth generalizing depth' with
  | zero =>
    unfold applyAux rebuildAux
    exact ⟨inferInstance, inferInstance⟩
  | succ depth ih =>
    obtain ⟨n, rfl⟩ : ∃ n, depth' = n + 1 := ⟨depth' - 1, by omega⟩
    obtain ⟨happly, hrebuild⟩ := ih (Nat.le_of_succ_le_succ h)
    constructor
    · intro target argument
      unfold applyAux
      split
      · infer_instance
      · refine @persists_bind _ _ _ _ _ _ _ inferInstance fun domain => ?_
        refine @persists_ite _ _ _ _ _ _ _ _ inferInstance ?_
        dsimp only
        split <;> infer_instance
    · intro e children
      unfold rebuildAux
      refine @persists_ite _ _ _ _ _ _ _ _ inferInstance ?_
      dsimp only
      split <;> infer_instance

instance persists_apply (target argument : Expr) :
    Persists (apply target argument) (apply target argument) :=
  persists_read fun h => (persists_applyAux_rebuildAux h).1 target argument

instance persists_product (factors : List Expr) : Persists (product factors) (product factors) :=
  persists_foldProduct _ _ factors

end Expr

end TermGraph
