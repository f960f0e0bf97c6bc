import TermGraph.Proofs.Program.Scopes
import TermGraph.Proofs.Store.Normalization

/-!
# Operations as partial functions

The operations of a running function use the store: a new matrix takes an identity, members are
tallied, and a call may make nodes.  What they answer does not depend on any of it.  The value is
the same up to the identities of its matrices, and a failure is a failure, whatever the store has
become since.  Functions with a body are the exception: normalization orders nodes by age and
tells matrices apart by their identities.  A function is `Repeatable` if its calls do not show it.

* `Value.erase`: a value without the identities of its matrices.
* `Arithmetic.observed`: the operations as partial functions, namely what they answer in one store.
* `Answers`: a computation in any later store answers what a partial value says.
* `Expr.answers_evaluate`: plain evaluation answers what it says with the observed operations.
-/

namespace TermGraph

namespace Value

/-! ## Identities of matrices -/

mutual

/-- A value without the identities of its matrices.  Arrays and records keep theirs: no operation
makes new ones. -/
def erase : Value → Value
  | .matrix _ m => .matrix 0 m
  | .tuple items => .tuple (eraseAll items)
  | v => v

/-- The values of a list without the identities of their matrices. -/
def eraseAll : List Value → List Value
  | [] => []
  | v :: vs => v.erase :: eraseAll vs

end

lemma eraseAll_eq_map (vs : List Value) : eraseAll vs = vs.map erase := by
  induction vs with
  | nil => rw [eraseAll, List.map_nil]
  | cons v vs ih => rw [eraseAll, List.map_cons, ih]

@[simp] lemma erase_tuple (vs : List Value) : (tuple vs).erase = .tuple (vs.map erase) := by
  rw [erase, eraseAll_eq_map]

lemma Holds.erased {f : Function} {v : Value} (h : v.Holds f) : v.erase.Holds f := by
  induction h with
  | function => exact .function
  | item hv hf _ => exact .item hv hf
  | @component items v hv _ ih =>
    rw [erase_tuple]
    exact .component (List.mem_map_of_mem hv) ih
  | member hentry hf _ => exact .member hentry hf
  | row hrow hf _ => exact .row hrow hf

lemma Holds.of_erased {f : Function} {u : Value} (h : u.Holds f) {v : Value} (hv : v.erase = u) :
    v.Holds f := by
  induction h generalizing v with
  | @component items w hw hf ih =>
    cases v with
    | tuple vs =>
      rw [erase_tuple] at hv
      cases hv
      obtain ⟨c, hc, rfl⟩ := List.mem_map.1 hw
      exact .component hc (ih rfl)
    | _ => simp [erase] at hv
  | function => cases v <;> simp [erase] at hv; exact hv ▸ .function
  | item hw hf _ =>
    cases v <;> simp [erase] at hv
    obtain ⟨rfl, rfl, rfl⟩ := hv
    exact .item hw hf
  | member hentry hf _ =>
    cases v <;> simp [erase] at hv
    obtain ⟨rfl, rfl, rfl, rfl⟩ := hv
    exact .member hentry hf
  | row hrow hf _ =>
    cases v <;> simp [erase] at hv
    obtain ⟨rfl, rfl, rfl, rfl⟩ := hv
    exact .row hrow hf

mutual

/-- Equality does not look at the identities of matrices. -/
theorem same_erase (v w : Value) : v.same w.erase = v.same w := by
  cases w with
  | tuple ys =>
    rw [erase_tuple]
    cases v with
    | tuple xs => simpa only [same] using sameAll_erase xs ys
    | _ => simp [same]
  | matrix _ m => cases v <;> simp [erase, same]
  | _ => rfl

theorem sameAll_erase (xs ys : List Value) : sameAll xs (ys.map erase) = sameAll xs ys := by
  cases xs with
  | nil => cases ys <;> simp [sameAll]
  | cons x xs =>
    cases ys with
    | nil => rfl
    | cons y ys => simp only [List.map_cons, sameAll, same_erase x y, sameAll_erase xs ys]

end

mutual

/-- Code from outside does not see the identities of matrices. -/
theorem datum_erase : ∀ v : Value, v.erase.datum = v.datum
  | .matrix _ m => by rw [erase, datum, datum]
  | .tuple items => by rw [erase, datum, datum, data_eraseAll items]
  | .number _ | .array _ _ _ | .object _ _ _ _ | .function _ | .field _ => rfl

theorem data_eraseAll : ∀ vs : List Value, data (eraseAll vs) = data vs
  | [] => rfl
  | v :: vs => by rw [eraseAll, data, data, datum_erase v, data_eraseAll vs]

end

/-! ## Values up to the identities of matrices -/

/-- Two values are the same up to the identities of their matrices, and their functions satisfy
`F`. -/
structure Alike (F : Function → Prop) (v w : Value) : Prop where
  /-- The values are the same up to the identities of matrices. -/
  erase : v.erase = w.erase
  /-- The functions satisfy `F`. -/
  within : v.Within F

variable {F : Function → Prop} {v w : Value}

lemma Alike.refl (h : v.Within F) : Alike F v v := ⟨rfl, h⟩

lemma Alike.within_right (h : Alike F v w) : w.Within F :=
  fun f hf => h.within f (hf.erased.of_erased h.erase)

/-- Alike values are equal, or matrices with the same entries, or tuples of alike values. -/
lemma Alike.cases (h : Alike F v w) :
    (v = w ∧ (∀ i m, v ≠ .matrix i m) ∧ ∀ l, v ≠ .tuple l) ∨
      (∃ i j m, v = .matrix i m ∧ w = .matrix j m) ∨
      ∃ l l', v = .tuple l ∧ w = .tuple l' ∧ List.Forall₂ (Alike F) l l' := by
  obtain ⟨herase, hwithin⟩ := h
  cases v with
  | matrix i m =>
    refine .inr (.inl ?_)
    cases w <;> simp [Value.erase] at herase
    exact ⟨i, _, m, rfl, by rw [herase]⟩
  | tuple l =>
    refine .inr (.inr ?_)
    cases w with
    | tuple l' =>
      refine ⟨l, l', rfl, rfl, ?_⟩
      simp only [erase_tuple, tuple.injEq] at herase
      rw [← List.forall₂_eq_eq_eq, List.forall₂_map_left_iff, List.forall₂_map_right_iff] at herase
      rw [List.forall₂_iff_get] at herase ⊢
      refine ⟨herase.1, fun k hk hk' => ⟨herase.2 k hk hk', fun f hf => ?_⟩⟩
      exact hwithin f (.component (List.get_mem l ⟨k, hk⟩) hf)
    | _ => simp [Value.erase] at herase
  | _ =>
    refine .inl ⟨?_, by simp, by simp⟩
    cases w <;> simp_all [Value.erase]

end Value

/-! ## Two runs -/

section Runs

variable {α β γ δ : Type} {R : α → β → Prop} {Q : γ → δ → Prop}

/-- Two runs both fail, or both give results, which `R` relates. -/
def Similar (R : α → β → Prop) :
    EStateM.Result Error Store α → EStateM.Result Error Store β → Prop
  | .ok a _, .ok b _ => R a b
  | .error _ _, .error _ _ => True
  | _, _ => False

/-- All runs of two computations are similar, from whatever stores. -/
def Independent (R : α → β → Prop) (x : Build α) (y : Build β) : Prop :=
  ∀ (d : ℕ) (s t : Store), Similar R (x d s) (y d t)

namespace Independent

lemma pure {a : α} {b : β} (h : R a b) : Independent R (Pure.pure a) (Pure.pure b) :=
  fun _ _ _ => h

lemma throw (e e' : Error) : Independent R (MonadExcept.throw e) (MonadExcept.throw e') :=
  fun _ _ _ => trivial

lemma bind {x : Build α} {y : Build β} {f : α → Build γ} {g : β → Build δ}
    (h : Independent R x y) (hfg : ∀ a b, R a b → Independent Q (f a) (g b)) :
    Independent Q (x >>= f) (y >>= g) := by
  intro d s t
  have hxy := h d s t
  rw [Run.bind_apply, Run.bind_apply]
  cases hx : x d s <;> cases hy : y d t <;> rw [hx, hy] at hxy
  · exact hfg _ _ hxy d _ _
  · exact hxy.elim
  · exact hxy.elim
  · trivial

lemma ofExcept {R : α → α → Prop} {ε : Type} {toError : ε → Error} {o : Except ε α}
    (h : ∀ a, o = .ok a → R a a) :
    Independent R (Build.ofExcept toError o) (Build.ofExcept toError o) := by
  cases o with
  | ok a => exact .pure (h a rfl)
  | error e => exact .throw _ _

lemma mapM {f : α → Build γ} {g : β → Build δ} {l : List α} {l' : List β}
    (h : List.Forall₂ R l l') (hfg : ∀ a b, R a b → Independent Q (f a) (g b)) :
    Independent (List.Forall₂ Q) (l.mapM f) (l'.mapM g) := by
  induction h with
  | nil => exact .pure .nil
  | cons hab _ ih =>
    rw [List.mapM_cons, List.mapM_cons]
    exact (hfg _ _ hab).bind fun c d hcd => ih.bind fun cs ds hcds => .pure (.cons hcd hcds)

end Independent

end Runs

/-! ## Operations on values -/

namespace Value

variable {F : Function → Prop} {v v' w w' : Value} {args args' : List Value}

lemma within_number (n : Number) : (number n).Within F := by
  rintro f ⟨⟩

lemma alike_number (n : Number) : Alike F (number n) (number n) :=
  .refl (within_number n)

lemma alike_matrix (i j : ℕ) (m : Matrix) : Alike F (matrix i m) (matrix j m) :=
  ⟨rfl, by rintro f ⟨⟩⟩

lemma map_erase_eq (h : List.Forall₂ (Alike F) args args') : args.map erase = args'.map erase := by
  induction h with
  | nil => rfl
  | cons hv _ ih => rw [List.map_cons, List.map_cons, hv.erase, ih]

lemma data_eq_of_alike (h : List.Forall₂ (Alike F) args args') : data args = data args' := by
  induction h with
  | nil => rfl
  | @cons v w _ _ hv _ ih => rw [data, data, ← datum_erase v, ← datum_erase w, hv.erase, ih]

lemma alike_tuple (h : List.Forall₂ (Alike F) args args') : Alike F (tuple args) (tuple args') := by
  refine ⟨by rw [erase_tuple, erase_tuple, map_erase_eq h], fun f hf => ?_⟩
  cases hf with
  | component hmem hholds =>
    induction h with
    | nil => cases hmem
    | cons hv _ ih =>
      rcases List.mem_cons.1 hmem with rfl | hmem
      · exact hv.within f hholds
      · exact ih hmem

lemma independent_ofMatrix (m : Matrix) : Independent (Alike F) (ofMatrix m) (ofMatrix m) :=
  fun _ _ _ => alike_matrix _ _ m

lemma independent_ofMatrixResult (result : Except MatrixFault Matrix) :
    Independent (Alike F) (ofMatrixResult result) (ofMatrixResult result) := by
  cases result with
  | ok m => exact independent_ofMatrix m
  | error e => exact .throw _ _

lemma independent_ofOperation (op : Number → Number → Number) (a b : Number) :
    Independent (Alike F) (ofOperation op a b) (ofOperation op a b) :=
  fun _ _ _ => alike_number _

lemma independent_add (ev : Evaluator) (hv : Alike F v v') (hw : Alike F w w') :
    Independent (Alike F) (ev.add v w) (ev.add v' w') := by
  rcases hv.cases with ⟨rfl, hmatrix, htuple⟩ | ⟨i, j, m, rfl, rfl⟩ | ⟨l, l', rfl, rfl, -⟩
  · rcases hw.cases with ⟨rfl, hmatrix', htuple'⟩ | ⟨i, j, m, rfl, rfl⟩ | ⟨l, l', rfl, rfl, -⟩
    · cases v <;> cases w <;>
        first
        | exact (hmatrix _ _ rfl).elim
        | exact (hmatrix' _ _ rfl).elim
        | exact independent_ofOperation _ _ _
        | exact .throw _ _
    · cases v <;>
        first
        | exact (hmatrix _ _ rfl).elim
        | exact independent_ofMatrixResult _
        | exact .throw _ _
    · cases v <;> exact .throw _ _
  · rcases hw.cases with ⟨rfl, hmatrix', htuple'⟩ | ⟨i, j, m, rfl, rfl⟩ | ⟨l, l', rfl, rfl, -⟩
    · cases w <;>
        first
        | exact (hmatrix' _ _ rfl).elim
        | exact independent_ofMatrixResult _
        | exact .throw _ _
    · exact independent_ofMatrixResult _
    · exact .throw _ _
  · exact .throw _ _

lemma independent_inverse (ev : Evaluator) (hv : Alike F v v') :
    Independent (Alike F) (ev.inverse v) (ev.inverse v') := by
  rcases hv.cases with ⟨rfl, hmatrix, -⟩ | ⟨i, j, m, rfl, rfl⟩ | ⟨l, l', rfl, rfl, -⟩
  · cases v with
    | matrix i m => exact (hmatrix i m rfl).elim
    | number n => exact independent_ofOperation _ _ _
    | _ => exact .throw _ _
  · exact independent_ofMatrixResult _
  · exact .throw _ _

lemma independent_transpose (ev : Evaluator) (hv : Alike F v v') :
    Independent (Alike F) (ev.transpose v) (ev.transpose v') := by
  rcases hv.cases with ⟨rfl, hmatrix, -⟩ | ⟨i, j, m, rfl, rfl⟩ | ⟨l, l', rfl, rfl, -⟩
  · cases v with
    | matrix i m => exact (hmatrix i m rfl).elim
    | number n => exact .pure (alike_number n)
    | _ => exact .throw _ _
  · exact independent_ofMatrix _
  · exact .throw _ _

lemma Alike.number? (h : Alike F v w) : v.number? = w.number? := by
  rcases h.cases with ⟨rfl, -, -⟩ | ⟨i, j, m, rfl, rfl⟩ | ⟨l, l', rfl, rfl, -⟩ <;> rfl

/-- Which element an index stands for does not depend on the identities of matrices. -/
lemma element_eq (h : List.Forall₂ (Alike F) args args') (v : Value) :
    v.element args = v.element args' := by
  have hlength := h.length_eq
  have hsame (xs : List Value) : sameAll xs args = sameAll xs args' := by
    rw [← sameAll_erase, map_erase_eq h, sameAll_erase]
  have hhead : args.head?.bind index? = args'.head?.bind index? := by
    cases h with
    | nil => rfl
    | cons hv _ => simp [index?, hv.number?]
  cases v with
  | object identity type fields table =>
    cases table with
    | none => simp only [element, hlength]
    | some rows => simp only [element, hsame, hhead]
  | array identity type items =>
    cases h with
    | nil => rfl
    | cons hv h =>
      cases h with
      | nil => simp only [element, index?, hv.number?]
      | cons _ _ => simp only [element, hlength]
  | _ => simp only [element, hlength]

lemma independent_element (r : Resolver) (hv : v.Within F)
    (h : List.Forall₂ (Alike F) args args') :
    Independent (Alike F) (r.element v args) (r.element v args') := by
  unfold Resolver.element
  rw [element_eq h]
  refine .bind (R := fun _ _ => True) (fun _ _ _ => trivial) fun _ _ _ => .ofExcept fun w hw => ?_
  exact .refl fun f hf => hv f (holds_of_element hw hf)

lemma independent_field (r : Resolver) (hv : Alike F v v') (name : String) :
    Independent (Alike F) (r.field v name) (r.field v' name) := by
  have hsame : r.fieldOf v name = r.fieldOf v' name := by
    rcases hv.cases with ⟨rfl, -, -⟩ | ⟨i, j, m, rfl, rfl⟩ | ⟨l, l', rfl, rfl, -⟩ <;> rfl
  unfold Resolver.field
  rw [hsame]
  refine .bind (R := fun _ _ => True) (fun _ _ _ => trivial) fun _ _ _ => .ofExcept fun w hw => ?_
  exact .refl fun f hf => hv.within_right f (Resolver.holds_of_fieldOf hw hf)

lemma alike_arguments (arity : ℕ) (h : Alike F v v') :
    List.Forall₂ (Alike F) (arguments arity v) (arguments arity v') := by
  rcases h.cases with ⟨rfl, -, htuple⟩ | ⟨i, j, m, rfl, rfl⟩ | ⟨l, l', rfl, rfl, hl⟩
  · cases v with
    | tuple l => exact (htuple l rfl).elim
    | _ => exact .cons h .nil
  · exact .cons h .nil
  · unfold arguments
    dsimp only
    split
    · exact .cons h .nil
    · exact hl

/-- Applications of all values but functions. -/
lemma independent_applyWith {call call' : Function → List Value → Build Value} (ev : Evaluator)
    (hv : Alike F v v') (hw : Alike F w w') (hfunction : ∀ f, v ≠ .function f) :
    Independent (Alike F) (ev.applyWith call v w) (ev.applyWith call' v' w') := by
  -- Up to identities, values are the same, or two matrices with the same entries, or two tuples.
  rcases hv.cases with ⟨rfl, hmatrix, htuple⟩ | ⟨i, j, m, rfl, rfl⟩ | ⟨l, l', rfl, rfl, -⟩
  · rcases hw.cases with ⟨rfl, hmatrix', htuple'⟩ | ⟨i', j', m', rfl, rfl⟩ | ⟨k, k', rfl, rfl, hk⟩
    · cases v with
      | function f => exact (hfunction f rfl).elim
      | matrix i m => exact (hmatrix i m rfl).elim
      | tuple l => exact (htuple l rfl).elim
      | number n =>
        cases w with
        | matrix i m => exact (hmatrix' i m rfl).elim
        | number k => exact independent_ofOperation _ _ _
        | field name => exact independent_field ev.resolver hv name
        | _ => exact .throw _ _
      | field name =>
        cases w with
        | field name' => exact independent_field ev.resolver hv name'
        | _ => exact .throw _ _
      | array _ _ _ | object _ _ _ _ =>
        cases w with
        | tuple l => exact (htuple' l rfl).elim
        | field name => exact independent_field ev.resolver hv name
        | _ => exact independent_element ev.resolver hv.within (.cons hw .nil)
    · cases v with
      | function f => exact (hfunction f rfl).elim
      | matrix i m => exact (hmatrix i m rfl).elim
      | number n => exact independent_ofMatrix _
      | array _ _ _ | object _ _ _ _ => exact independent_element ev.resolver hv.within (.cons hw .nil)
      | _ => exact .throw _ _
    · cases v with
      | function f => exact (hfunction f rfl).elim
      | array _ _ _ | object _ _ _ _ => exact independent_element ev.resolver hv.within hk
      | _ => exact .throw _ _
  · rcases hw.cases with ⟨rfl, hmatrix', htuple'⟩ | ⟨i', j', m', rfl, rfl⟩ | ⟨k, k', rfl, rfl, hk⟩
    · cases w with
      | matrix i m => exact (hmatrix' i m rfl).elim
      | number k => exact independent_ofMatrix _
      | field name => exact independent_field ev.resolver hv name
      | _ => exact .throw _ _
    · exact independent_ofMatrixResult _
    · exact .throw _ _
  · rcases hw.cases with ⟨rfl, -, -⟩ | ⟨i', j', m', rfl, rfl⟩ | ⟨k, k', rfl, rfl, hk⟩
    · cases w with
      | field name => exact independent_field ev.resolver hv name
      | _ => exact .throw _ _
    · exact .throw _ _
    · exact .throw _ _

end Value

/-! ## Calls -/

section Calls

variable {F : Function → Prop} {args args' : List Value}

lemma Value.Alike.argument (h : List.Forall₂ (Value.Alike F) args args') (k : ℕ) :
    (args.getD k (.number .zero)).Alike F (args'.getD k (.number .zero)) := by
  induction h generalizing k with
  | nil => simpa using Value.alike_number _
  | cons hv _ ih =>
    cases k with
    | zero => simpa using hv
    | succ k => simpa using ih k

namespace Reply

mutual

/-- A reply to the same arguments, up to the identities of matrices, stands for the same value. -/
theorem independent_value (h : List.Forall₂ (Value.Alike F) args args') :
    ∀ r : Reply, Independent (Value.Alike F) (r.value args) (r.value args')
  | .number n => by
    rw [value, value]
    exact .pure (Value.alike_number n)
  | .matrix m => by
    rw [value, value]
    exact Value.independent_ofMatrix m
  | .argument k => by
    rw [value, value]
    exact .pure (.argument h k)
  | .tuple items => by
    rw [value, value]
    exact (independent_values h items).bind fun _ _ hvs => .pure (Value.alike_tuple hvs)

theorem independent_values (h : List.Forall₂ (Value.Alike F) args args') :
    ∀ rs : List Reply, Independent (List.Forall₂ (Value.Alike F)) (values args rs) (values args' rs)
  | [] => by
    rw [values, values]
    exact .pure .nil
  | r :: rs => by
    rw [values, values]
    exact (independent_value h r).bind fun _ _ hv =>
      (independent_values h rs).bind fun _ _ hvs => .pure (.cons hv hvs)

end

end Reply

lemma NativeRule.independent_evaluate (rule : NativeRule)
    (h : List.Forall₂ (Value.Alike F) args args') :
    Independent (Value.Alike F) (rule.evaluate args) (rule.evaluate args') := by
  unfold evaluate
  rw [Value.data_eq_of_alike h]
  split
  · exact Reply.independent_value h _
  · exact .throw _ _
  · exact .throw _ _

lemma Function.independent_numericArguments (name : String)
    (h : List.Forall₂ (Value.Alike F) args args') :
    Independent (· = ·) (numericArguments name args) (numericArguments name args') := by
  induction h with
  | nil => exact .pure rfl
  | @cons v v' vs vs' hv _ ih =>
    rcases hv.cases with ⟨rfl, -, -⟩ | ⟨i, j, m, rfl, rfl⟩ | ⟨l, l', rfl, rfl, -⟩
    · cases v with
      | number n =>
        rw [numericArguments, numericArguments]
        refine ih.bind fun ns ns' hns => ?_
        rw [hns]
        exact .pure rfl
      | _ => exact .throw _ _
    · exact .throw _ _
    · exact .throw _ _

lemma Builtin.independent_evaluate (b : Builtin) (ns : List Number) :
    Independent (Value.Alike F) (b.evaluate ns) (b.evaluate ns) := by
  unfold evaluate
  split
  · exact .pure (Value.alike_number _)
  · exact .pure (Value.alike_number _)
  · exact .pure (Value.alike_number _)
  · exact .pure (Value.alike_number _)
  · exact Value.independent_ofOperation _ _ _
  · exact .pure (Value.alike_number _)

/-- Runs from any store after `s` are similar to one from `s` itself. -/
def Concords {α β : Type} (d : ℕ) (s : Store) (R : α → β → Prop) (x : Build α) (y : Build β) :
    Prop :=
  ∀ t, s ≤ t → t.WellFormed → Similar R (x d t) (y d s)

lemma Independent.concords {α β : Type} {R : α → β → Prop} {x : Build α} {y : Build β}
    (h : Independent R x y) (d : ℕ) (s : Store) : Concords d s R x y :=
  fun t _ _ => h d t s

/-- Calls of a function later on give the same values as in `s`, up to the identities of matrices,
and no other functions than those that satisfy `F`. -/
def Function.Repeatable (ev : Evaluator) (d : ℕ) (s : Store) (F : Function → Prop)
    (f : Function) : Prop :=
  ∀ args args', List.Forall₂ (Value.Alike F) args args' →
    Concords d s (Value.Alike F) (f.evaluate ev args) (f.evaluate ev args')

/-- Whether a function has a body. -/
def Function.hasBody : Function → Bool
  | .lambda _ _ _ _ => true
  | _ => false

/-- Functions without a body always give the same values. -/
lemma Function.repeatable_of_not_hasBody (ev : Evaluator) (d : ℕ) (s : Store) {f : Function}
    (hf : f.hasBody = false) : f.Repeatable ev d s F := by
  intro args args' h
  refine Independent.concords ?_ d s
  unfold evaluate evaluateWith
  rw [h.length_eq]
  split
  · exact .throw _ _
  · cases f with
    | builtin b =>
      refine .bind (independent_numericArguments _ h) fun ns ns' hns => ?_
      rw [hns]
      exact Builtin.independent_evaluate b ns'
    | native identity name definition => exact definition.rule.independent_evaluate h
    | lambda identity name params body => cases hf

/-- Applications to the same values, up to the identities of matrices, give the same. -/
lemma Value.concords_apply {ev : Evaluator} {d : ℕ} {s : Store} {v v' w w' : Value}
    (hF : ∀ f, F f → f.Repeatable ev d s F) (hv : v.Alike F v') (hw : w.Alike F w') :
    Concords d s (Alike F) (ev.apply v w) (ev.apply v' w') := by
  by_cases hfunction : ∃ f, v = .function f
  · obtain ⟨f, rfl⟩ := hfunction
    rcases hv.cases with ⟨rfl, -, -⟩ | ⟨i, j, m, hm, -⟩ | ⟨l, l', hl, -, -⟩
    · exact hF f (hv.within f .function) _ _ (alike_arguments f.arity hw)
    · cases hm
    · cases hl
  · exact (independent_applyWith ev hv hw fun f hf => hfunction ⟨f, hf⟩).concords d s

end Calls

/-! ## Answers -/

section Answers

variable {α β γ δ : Type} {d : ℕ} {s : Store} {x : Build α} {o : Option β} {R : α → β → Prop}
  {Q : γ → δ → Prop}

/-- A run that ends in a well-formed store after `s` with what a partial value says: a failure if
there is none, and else a result that `R` relates to it. -/
def Answer (s : Store) (R : α → β → Prop) : EStateM.Result Error Store α → Option β → Prop
  | .ok a u, some b => (s ≤ u ∧ u.WellFormed) ∧ R a b
  | .error _ _, none => True
  | _, _ => False

/-- From any well-formed store after `s`, a computation answers what a partial value says. -/
def Answers (d : ℕ) (s : Store) (x : Build α) (o : Option β) (R : α → β → Prop) : Prop :=
  ∀ t, s ≤ t → t.WellFormed → Answer s R (x d t) o

namespace Answers

lemma pure {a : α} {b : β} (h : R a b) : Answers d s (Pure.pure a) (some b) R :=
  fun _ hle ht => ⟨⟨hle, ht⟩, h⟩

lemma throw (e : Error) : Answers d s (MonadExcept.throw e : Build α) (none : Option β) R :=
  fun _ _ _ => trivial

lemma bind {f : α → Build γ} {g : β → Option δ} (h : Answers d s x o R)
    (hfg : ∀ a b, R a b → Answers d s (f a) (g b) Q) :
    Answers d s (x >>= f) (o >>= g) Q := by
  intro t hle ht
  have hx := h t hle ht
  rw [Run.bind_apply]
  cases hrun : x d t <;> cases o <;> rw [hrun] at hx
  · exact hx.elim
  · exact hfg _ _ hx.2 _ hx.1.1 hx.1.2
  · trivial
  · exact hx.elim

lemma imp {R' : α → β → Prop} (h : Answers d s x o R) (himp : ∀ a b, R a b → R' a b) :
    Answers d s x o R' := by
  intro t hle ht
  have hx := h t hle ht
  cases hrun : x d t <;> cases o <;> rw [hrun] at hx
  · exact hx.elim
  · exact ⟨hx.1, himp _ _ hx.2⟩
  · trivial
  · exact hx.elim

lemma mapM {f : α → Build γ} {g : β → Option δ} {l : List α} {l' : List β}
    (h : List.Forall₂ R l l') (hfg : ∀ a b, R a b → Answers d s (f a) (g b) Q) :
    Answers d s (l.mapM f) (l'.mapM g) (List.Forall₂ Q) := by
  induction h with
  | nil => exact .pure .nil
  | cons hab _ ih =>
    rw [List.mapM_cons, List.mapM_cons]
    exact (hfg _ _ hab).bind fun c d hcd => ih.bind fun cs ds hcds => .pure (.cons hcd hcds)

lemma foldlM {f : γ → α → Build γ} {g : δ → β → Option δ} {l : List α} {l' : List β} {c : γ}
    {e : δ} (h : List.Forall₂ R l l') (hce : Q c e)
    (hfg : ∀ c e a b, Q c e → R a b → Answers d s (f c a) (g e b) Q) :
    Answers d s (l.foldlM f c) (l'.foldlM g e) Q := by
  induction h generalizing c e with
  | nil => exact .pure hce
  | cons hab _ ih =>
    rw [List.foldlM_cons, List.foldlM_cons]
    exact (hfg _ _ _ _ hce hab).bind fun c' e' h' => ih h'

/-- What a computation answers in `s` itself is what it answers later, if its runs are similar. -/
lemma of_concords [Growing x] [Knowable α] {y : Build β} (h : Concords d s R x y)
    (hx : ∀ t, s ≤ t → t.WellFormed → Yields t x) :
    Answers d s x (match y d s with | .ok b _ => some b | .error _ _ => none) R := by
  intro t hle ht
  have hsimilar := h t hle ht
  cases hrun : x d t with
  | ok a u =>
    rw [hrun] at hsimilar
    have hu := ((hx t hle ht) d).of_ok hrun
    cases hy : y d s with
    | ok b _ =>
      rw [hy] at hsimilar
      exact ⟨⟨hle.trans (Growing.le_of_ok hrun), good_store.1 hu.1⟩, hsimilar⟩
    | error _ _ =>
      rw [hy] at hsimilar
      exact hsimilar.elim
  | error e u =>
    rw [hrun] at hsimilar
    cases hy : y d s with
    | ok b _ =>
      rw [hy] at hsimilar
      exact hsimilar.elim
    | error _ _ => trivial

end Answers

end Answers

/-! ## The operations of a running function -/

namespace Arithmetic

/-- What a computation answers in a store. -/
def observe {α : Type} (d : ℕ) (s : Store) (x : Build α) : Option α :=
  match x d s with
  | .ok a _ => some a
  | .error _ _ => none

/-- The operations of a running function as partial functions: what they answer in `s`. -/
def observed (ev : Evaluator) (d : ℕ) (s : Store) : Arithmetic Option where
  apply v w := observe d s (ev.apply v w)
  add v w := observe d s (ev.add v w)
  inverse v := observe d s (ev.inverse v)
  transpose v := observe d s (ev.transpose v)
  matrix m := observe d s (Value.ofMatrix m)
  fail _ := none

instance (ev : Evaluator) (d : ℕ) (s : Store) : (observed ev d s).Strict :=
  ⟨fun _ => rfl⟩

/-- The functions that satisfy `F` are nodes of the store and give the same values again. -/
structure Faithful (ev : Evaluator) (d : ℕ) (s : Store) (F : Function → Prop) : Prop where
  /-- The functions are known. -/
  knows : ∀ f, F f → s.Knows f
  /-- The functions give the same values again. -/
  repeatable : ∀ f, F f → f.Repeatable ev d s F

variable {ev : Evaluator} {d : ℕ} {s : Store} {F : Function → Prop} {v v' w w' : Value}

lemma answers_apply (hF : Faithful ev d s F) (hv : v.Alike F v') (hw : w.Alike F w') :
    Answers d s (ev.apply v w) ((observed ev d s).apply v' w') (Value.Alike F) := by
  refine Answers.of_concords (Value.concords_apply hF.repeatable hv hw) fun t hle ht => ?_
  exact ev.yields_apply t v w (good_store.2 ht)
    (fun f hf => (hF.knows f (hv.within f hf)).mono hle)
    (fun f hf => (hF.knows f (hw.within f hf)).mono hle)

lemma answers_add (hv : v.Alike F v') (hw : w.Alike F w') :
    Answers d s (ev.add v w) ((observed ev d s).add v' w') (Value.Alike F) :=
  .of_concords ((Value.independent_add ev hv hw).concords d s)
    fun _ _ ht => ev.yields_add (good_store.2 ht) v w

lemma answers_inverse (hv : v.Alike F v') :
    Answers d s (ev.inverse v) ((observed ev d s).inverse v') (Value.Alike F) :=
  .of_concords ((Value.independent_inverse ev hv).concords d s)
    fun _ _ ht => ev.yields_inverse (good_store.2 ht) v

lemma answers_transpose (hv : v.Alike F v') :
    Answers d s (ev.transpose v) ((observed ev d s).transpose v') (Value.Alike F) :=
  .of_concords ((Value.independent_transpose ev hv).concords d s)
    fun _ _ ht => ev.yields_transpose (good_store.2 ht) v

lemma answers_matrix (m : Matrix) :
    Answers d s (Value.ofMatrix m) ((observed ev d s).matrix m)
      (Value.Alike F) :=
  .of_concords ((Value.independent_ofMatrix m).concords d s)
    fun _ _ ht => Value.yields_ofMatrix (good_store.2 ht) m

lemma answers_bound (hv : v.Alike F v') :
    Answers d s ((concrete ev).bound v) ((observed ev d s).bound v') (· = ·) := by
  rcases hv.cases with ⟨rfl, -, -⟩ | ⟨i, j, m, rfl, rfl⟩ | ⟨l, l', rfl, rfl, -⟩
  · cases v with
    | number n =>
      cases n with
      | int n => exact .pure rfl
      | float x => exact .throw _
    | _ => exact .throw _
  · exact .throw _
  · exact .throw _

lemma answers_entry (hv : v.Alike F v') :
    Answers d s ((concrete ev).entry v) ((observed ev d s).entry v') (· = ·) := by
  rcases hv.cases with ⟨rfl, -, -⟩ | ⟨i, j, m, rfl, rfl⟩ | ⟨l, l', rfl, rfl, -⟩
  · cases v with
    | number n => exact .pure rfl
    | _ => exact .throw _
  · exact .throw _
  · exact .throw _

section Loops

variable {body : Value → Build Value} {body' : Value → Option Value}

lemma answers_sumOver {values values' : List Value}
    (hvalues : List.Forall₂ (Value.Alike F) values values')
    (hbody : ∀ v v', v.Alike F v' → Answers d s (body v) (body' v') (Value.Alike F)) :
    Answers d s ((concrete ev).sumOver values body)
      ((observed ev d s).sumOver values' body') (Value.Alike F) :=
  .foldlM hvalues (Value.alike_number _) fun _ _ _ _ hsum hv =>
    (hbody _ _ hv).bind fun _ _ hterm => answers_add hsum hterm

lemma alike_rangeValues (first last : ℤ) :
    List.Forall₂ (Value.Alike F) (rangeValues first last) (rangeValues first last) := by
  rw [List.forall₂_same]
  intro v hv
  obtain ⟨k, -, rfl⟩ := List.mem_map.1 hv
  exact Value.alike_number _

lemma answers_range (hv : v.Alike F v') (hw : w.Alike F w')
    (hbody : ∀ v v', v.Alike F v' → Answers d s (body v) (body' v') (Value.Alike F)) :
    Answers d s ((concrete ev).range v w body)
      ((observed ev d s).range v' w' body') (Value.Alike F) := by
  refine (answers_bound hv).bind fun first _ hfirst => ?_
  refine (answers_bound hw).bind fun last _ hlast => ?_
  rw [← hfirst, ← hlast]
  exact answers_sumOver (alike_rangeValues first last) hbody

lemma answers_each (hv : v.Alike F v')
    (hbody : ∀ v v', v.Alike F v' → Answers d s (body v) (body' v') (Value.Alike F)) :
    Answers d s ((concrete ev).each v body) ((observed ev d s).each v' body')
      (Value.Alike F) := by
  rcases hv.cases with ⟨rfl, -, -⟩ | ⟨i, j, m, rfl, rfl⟩ | ⟨l, l', rfl, rfl, -⟩
  · cases v with
    | array identity element items =>
      refine answers_sumOver (List.forall₂_same.2 fun item hitem => .refl fun f hf => ?_) hbody
      exact hv.within f (.item hitem hf)
    | _ => exact .throw _
  · exact .throw _
  · exact .throw _

lemma answers_grid (rows cols : ℕ) {element : Value → Value → Build Value}
    {element' : Value → Value → Option Value}
    (h : ∀ i j, Answers d s (element (position i) (position j))
      (element' (position i) (position j)) (Value.Alike F)) :
    Answers d s ((concrete ev).grid rows cols element)
      ((observed ev d s).grid rows cols element') (Value.Alike F) := by
  have hpositions : List.Forall₂ (· = ·) (Expr.positions rows cols) (Expr.positions rows cols) :=
    List.forall₂_same.2 fun _ _ => rfl
  have hentries := Answers.mapM hpositions
    (f := fun p => do (concrete ev).entry (← element (position p.1) (position p.2)))
    (g := fun p => do (observed ev d s).entry (← element' (position p.1) (position p.2)))
    fun p q hpq => by
      subst hpq
      exact (h p.1 p.2).bind fun _ _ hv => answers_entry hv
  refine hentries.bind fun entries entries' hsame => ?_
  rw [List.forall₂_eq_eq_eq] at hsame
  rw [hsame]
  exact answers_matrix _

end Loops

end Arithmetic

/-! ## Plain evaluation -/

namespace Expr

open Arithmetic

variable {ev : Evaluator} {d : ℕ} {s : Store} {F : Function → Prop} {b b' : Bindings}

/-- The same symbols are bound to alike values. -/
abbrev AlikeBindings (F : Function → Prop) : Bindings → Bindings → Prop :=
  List.Forall₂ fun p q => p.1 = q.1 ∧ p.2.Alike F q.2

lemma AlikeBindings.lookup (h : AlikeBindings F b b') (i : ℕ) :
    (b.lookup i = none ∧ b'.lookup i = none) ∨
      ∃ v v', b.lookup i = some v ∧ b'.lookup i = some v' ∧ v.Alike F v' := by
  induction h with
  | nil => exact .inl ⟨rfl, rfl⟩
  | @cons p q _ _ hpq _ ih =>
    obtain ⟨k, v⟩ := p
    obtain ⟨k', v'⟩ := q
    obtain ⟨rfl, hv⟩ := hpq
    rw [List.lookup_cons, List.lookup_cons]
    cases i == k with
    | true => exact .inr ⟨v, v', rfl, rfl, hv⟩
    | false => exact ih

section Lists

variable {l : List Expr}

lemma answers_evaluateAll
    (h : ∀ e ∈ l, Answers d s (e.evaluate (concrete ev) b)
      (e.evaluate (observed ev d s) b') (Value.Alike F)) :
    Answers d s (evaluateAll (concrete ev) b l) (evaluateAll (observed ev d s) b' l)
      (List.Forall₂ (Value.Alike F)) := by
  induction l with
  | nil =>
    rw [evaluateAll, evaluateAll]
    exact .pure .nil
  | cons e l ih =>
    rw [evaluateAll, evaluateAll]
    exact (h e (by simp)).bind fun v v' hv =>
      (ih fun c hc => h c (by simp [hc])).bind fun vs vs' hvs => .pure (.cons hv hvs)

lemma answers_evaluateOnto {op : Value → Value → Build Value} {op' : Value → Value → Option Value}
    (hop : ∀ v v' w w', v.Alike F v' → w.Alike F w' → Answers d s (op v w) (op' v' w')
      (Value.Alike F))
    (h : ∀ e ∈ l, Answers d s (e.evaluate (concrete ev) b)
      (e.evaluate (observed ev d s) b') (Value.Alike F)) {acc acc' : Value}
    (hacc : acc.Alike F acc') :
    Answers d s (evaluateOnto (concrete ev) op b acc l)
      (evaluateOnto (observed ev d s) op' b' acc' l) (Value.Alike F) := by
  induction l generalizing acc acc' with
  | nil =>
    rw [evaluateOnto, evaluateOnto]
    exact .pure hacc
  | cons e l ih =>
    rw [evaluateOnto, evaluateOnto]
    exact (h e (by simp)).bind fun v v' hv => (hop _ _ _ _ hacc hv).bind fun acc acc' hacc =>
      ih (fun c hc => h c (by simp [hc])) hacc

lemma answers_evaluateFold {op : Value → Value → Build Value} {op' : Value → Value → Option Value}
    (hop : ∀ v v' w w', v.Alike F v' → w.Alike F w' → Answers d s (op v w) (op' v' w')
      (Value.Alike F))
    (h : ∀ e ∈ l, Answers d s (e.evaluate (concrete ev) b)
      (e.evaluate (observed ev d s) b') (Value.Alike F)) :
    Answers d s (evaluateFold (concrete ev) op b l)
      (evaluateFold (observed ev d s) op' b' l) (Value.Alike F) := by
  cases l with
  | nil =>
    rw [evaluateFold, evaluateFold]
    exact .pure (Value.alike_number _)
  | cons e l =>
    rw [evaluateFold, evaluateFold]
    exact (h e (by simp)).bind fun v v' hv =>
      answers_evaluateOnto hop (fun c hc => h c (by simp [hc])) hv

end Lists

/-- Plain evaluation answers what it says with the operations as partial functions. -/
lemma answers_evaluate (hF : Faithful ev d s F) (e : Expr) (he : e.Mentions F)
    (hb : AlikeBindings F b b') :
    Answers d s (e.evaluate (concrete ev) b) (e.evaluate (observed ev d s) b')
      (Value.Alike F) := by
  induction hsize : sizeOf e using Nat.strongRecOn generalizing e b b' with
  | _ n ih =>
    subst hsize
    -- The bodies of loops are evaluated in further bindings, so that the induction is for all of them.
    have hchild {c : Expr} (hc : c ∈ e.children) {b b' : Bindings} (hb : AlikeBindings F b b') :
        Answers d s (c.evaluate (concrete ev) b) (c.evaluate (observed ev d s) b')
          (Value.Alike F) :=
      ih _ (sizeOf_lt_of_mem_children hc) c (he.child hc) hb rfl
    have hfunctions := he e .refl
    obtain ⟨ordinal, domain, kind⟩ := e
    cases kind with
    | symbol name =>
      rw [evaluate, evaluate]
      rcases AlikeBindings.lookup hb ordinal with ⟨hnone, hnone'⟩ | ⟨v, v', hv, hv', halike⟩
      · rw [hnone, hnone']
        exact .throw _
      · rw [hv, hv']
        exact .pure halike
    | number k =>
      rw [evaluate, evaluate]
      exact .pure (Value.alike_number k)
    | object v _ =>
      rw [evaluate, evaluate]
      exact .pure (.refl hfunctions)
    | field name =>
      rw [evaluate, evaluate]
      exact .pure (.refl (by rintro f ⟨⟩))
    | function g =>
      rw [evaluate, evaluate]
      exact .pure (.refl (by rintro f ⟨⟩; exact hfunctions _ rfl))
    | tuple items =>
      rw [evaluate, evaluate]
      refine (answers_evaluateAll fun c hc => hchild hc hb).bind fun vs vs' hvs => .pure ?_
      exact Value.alike_tuple hvs
    | apply target argument =>
      rw [evaluate, evaluate]
      exact (hchild (by simp [children, Kind.children, Expr.kind]) hb).bind fun _ _ hv =>
        (hchild (by simp [children, Kind.children, Expr.kind]) hb).bind fun _ _ hw =>
          answers_apply hF hv hw
    | sum items =>
      rw [evaluate, evaluate]
      exact answers_evaluateFold (fun _ _ _ _ => answers_add) fun c hc => hchild hc hb
    | chain items =>
      rw [evaluate, evaluate]
      exact answers_evaluateFold (fun _ _ _ _ => answers_apply hF) fun c hc => hchild hc hb
    | inverse inner =>
      rw [evaluate, evaluate]
      exact (hchild (by simp [children, Kind.children, Expr.kind]) hb).bind fun _ _ hv =>
        answers_inverse hv
    | transpose inner =>
      rw [evaluate, evaluate]
      exact (hchild (by simp [children, Kind.children, Expr.kind]) hb).bind fun _ _ hv =>
        answers_transpose hv
    | generator rows cols element =>
      rw [evaluate, evaluate]
      exact answers_grid rows cols fun i j => hchild (by simp [children, Kind.children, Expr.kind])
        (.cons ⟨rfl, Value.alike_number _⟩ (.cons ⟨rfl, Value.alike_number _⟩ hb))
    | indexedSum index lower upper body =>
      rw [evaluate, evaluate]
      exact (hchild (by simp [children, Kind.children, Expr.kind]) hb).bind fun _ _ hv =>
        (hchild (by simp [children, Kind.children, Expr.kind]) hb).bind fun _ _ hw =>
          answers_range hv hw fun v v' hvv => hchild (by simp [children, Kind.children, Expr.kind])
            (.cons ⟨rfl, hvv⟩ hb)
    | collectionSum index collection body =>
      rw [evaluate, evaluate]
      exact (hchild (by simp [children, Kind.children, Expr.kind]) hb).bind fun _ _ hv =>
        answers_each hv fun v v' hvv => hchild (by simp [children, Kind.children, Expr.kind])
          (.cons ⟨rfl, hvv⟩ hb)

end Expr

/-- All results of two calls are the same up to the identities of matrices. -/
structure Evaluation.Alike (F : Function → Prop) (r r' : Evaluation) : Prop where
  /-- The values returned. -/
  value : r.value.Alike F r'.value
  /-- The further outputs. -/
  outputs : List.Forall₂ (Value.Alike F) r.outputs r'.outputs
  /-- The output arrays. -/
  arrays : List.Forall₂ (List.Forall₂ (Value.Alike F)) r.arrays r'.arrays

/-- Plain evaluation of a job answers what it says with the operations as partial functions. -/
theorem Job.answers_evaluate {ev : Evaluator} {d : ℕ} {s : Store} {F : Function → Prop}
    (hF : Arithmetic.Faithful ev d s F) {job : Job} (hjob : ∀ r ∈ job.roots, r.Mentions F)
    {args : List Value} (hargs : ∀ v ∈ args, v.Within F) :
    Answers d s (job.evaluate (.concrete ev) args)
      (job.evaluate (.observed ev d s) args) (Evaluation.Alike F) := by
  have hbindings : Expr.AlikeBindings F (job.bindings args) (job.bindings args) :=
    List.forall₂_same.2 fun p hp => ⟨rfl, .refl (hargs p.2 (List.of_mem_zip hp).2)⟩
  have hroot (r : Expr) (hr : r ∈ job.roots) := Expr.answers_evaluate hF r (hjob r hr) hbindings
  unfold evaluate
  refine (hroot job.value (by simp [roots])).bind fun v v' hv => ?_
  refine (Expr.answers_evaluateAll fun r hr => hroot r (by simp [roots, hr])).bind
    fun os os' hos => ?_
  have harrays : ∀ items ∈ job.arrays, ∀ r ∈ items, r ∈ job.roots := fun items hitems r hr => by
    simp only [roots, List.cons_append, List.mem_cons, List.mem_append, List.mem_flatten]
    exact .inr (.inr ⟨items, hitems, hr⟩)
  have hmapM := Answers.mapM (R := fun a b => a = b ∧ a ∈ job.arrays)
    (List.forall₂_same.2 fun items hitems => ⟨rfl, hitems⟩) fun items items' hitems => by
      obtain ⟨rfl, hmem⟩ := hitems
      exact Expr.answers_evaluateAll fun r hr => hroot r (harrays items hmem r hr)
  exact hmapM.bind fun as as' has => .pure ⟨hv, hos, has⟩

end TermGraph
