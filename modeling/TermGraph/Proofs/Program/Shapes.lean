import TermGraph.Proofs.Program.Evaluation
import TermGraph.Proofs.Typing.Numerical

/-!
# Values of numerical expressions

Evaluation is dynamically typed: an application looks at the values that it finds.  In a numerical
expression it finds values of the shapes that the nodes call for, so that it goes through and gives a
number.

* `Safe L x P`: the computation `x` gives a result that satisfies `P`, or fails at a bound of a
  summation, which it may do if `L` holds.
* `Expr.HasShape e v`: the value `v` has the shape that the node `e` calls for.
* `Expr.IsNumerical.safe_apply`: products and calls are safe.
-/

namespace TermGraph

open Store (Knows)

/-! ## Safe runs -/

section Safe

variable {α β : Type} {L : Prop} {x : Build α} {P Q : α → Prop}

/-- Wherever `x` is run it gives a result that satisfies `P`, or else, if `L` holds, it fails since a
bound of a summation is a float. -/
def Safe (L : Prop) (x : Build α) (P : α → Prop) : Prop :=
  ∀ d t, (∃ a u, x d t = .ok a u ∧ P a) ∨
    L ∧ ∃ k u, x d t = .error (.evaluation (.boundNotInteger (.number (.float k)))) u

namespace Safe

lemma pure {a : α} (h : P a) : Safe L (Pure.pure a) P := fun _ t => .inl ⟨a, t, rfl, h⟩

lemma bind {f : α → Build β} {R : β → Prop} (hx : Safe L x P) (hf : ∀ a, P a → Safe L (f a) R) :
    Safe L (x >>= f) R := by
  intro d t
  rcases hx d t with ⟨a, u, hrun, ha⟩ | ⟨hL, k, u, hrun⟩
  · rw [Run.bind_apply, hrun]
    exact hf a ha d u
  · exact .inr ⟨hL, k, u, by rw [Run.bind_apply, hrun]⟩

lemma imp (hx : Safe L x P) (h : ∀ a, P a → Q a) : Safe L x Q := by
  rw [← bind_pure x]
  exact hx.bind fun a ha => .pure (h a ha)

end Safe

end Safe

/-! ## Shapes of values -/

/-- The value of an operation on numbers is a number. -/
lemma Value.safe_ofOperation {L : Prop} (op : Number → Number → Number) (a b : Number) :
    Safe L (Value.ofOperation op a b) fun v => ∃ n, v = .number n :=
  fun _ _ => .inl ⟨_, _, rfl, _, rfl⟩

/-- Numbers pass as arguments of a built-in function. -/
lemma Function.numericArguments_numbers (name : String) (ns : List Number) :
    Function.numericArguments name (ns.map .number) = pure ns := by
  induction ns with
  | nil => rfl
  | cons n ns ih =>
    rw [List.map_cons, Function.numericArguments, ih]
    rfl

/-- A built-in function gives a number at as many numbers as it takes. -/
lemma Function.safe_evaluate {L : Prop} (ev : Evaluator) {f : Builtin} {ns : List Number}
    (h : ns.length = f.arity) :
    Safe L ((Function.builtin f).evaluate ev (ns.map .number)) fun v => ∃ n, v = .number n := by
  have harity : ¬(ns.map Value.number).length ≠ (Function.builtin f).arity := by
    simpa [Function.arity] using h
  rw [Function.evaluate, Function.evaluateWith, if_neg harity]
  rw [Function.numericArguments_numbers, pure_bind]
  cases f with
  | pow =>
    obtain ⟨x, y, rfl⟩ := List.length_eq_two.1 h
    exact Value.safe_ofOperation .pow x y
  | log | exp | sin | cos =>
    obtain ⟨x, rfl⟩ := List.length_eq_one_iff.1 h
    exact .pure ⟨_, rfl⟩

namespace Expr

variable {L : Prop} {s : Store} {e t a : Expr} {v w : Value}

/-- The value has the shape that the node calls for: functions are themselves, tuples are tuples of
numbers, and everything else is a number. -/
def HasShape (e : Expr) (v : Value) : Prop :=
  match e.kind with
  | .function f => v = .function f
  | .tuple items => ∃ ns : List Number, ns.length = items.length ∧ v = .tuple (ns.map .number)
  | _ => ∃ n, v = .number n

lemma hasShape_function {f : Function} (h : e.kind = .function f) : e.HasShape v ↔ v = .function f := by
  simp [HasShape, h]

lemma hasShape_tuple {items : List Expr} (h : e.kind = .tuple items) :
    e.HasShape v ↔ ∃ ns : List Number, ns.length = items.length ∧ v = .tuple (ns.map .number) := by
  simp [HasShape, h]

lemma IsNumerical.hasShape_iff (h : e.IsNumerical) : e.HasShape v ↔ ∃ n, v = .number n := by
  unfold HasShape
  split
  · exact absurd ‹_› (h.kind_ne.1 _)
  · exact absurd ‹_› (h.kind_ne.2 _)
  · rfl

/-- Values that suit numerical expressions are numbers. -/
lemma exists_numbers {es : List Expr} {vs : List Value} (h : List.Forall₂ HasShape es vs)
    (hes : ∀ e ∈ es, e.IsNumerical) :
    ∃ ns : List Number, ns.length = es.length ∧ vs = ns.map .number := by
  induction h with
  | nil => exact ⟨[], rfl, rfl⟩
  | @cons e v es vs hv _ ih =>
    rw [List.forall_mem_cons] at hes
    obtain ⟨n, rfl⟩ := hes.1.hasShape_iff.1 hv
    obtain ⟨ns, hlength, rfl⟩ := ih hes.2
    exact ⟨n :: ns, by simp [hlength], rfl⟩

/-- A product of numbers and a call of a function with its arguments give numbers. -/
lemma IsNumerical.safe_apply (h : e.IsNumerical) (hs : s.WellFormed) (he : s.Knows e)
    (hkind : e.kind = .apply t a) (ht : t.HasShape v) (ha : a.HasShape w) (ev : Evaluator) :
    Safe L (ev.apply v w) e.HasShape := by
  refine Safe.imp (P := fun v => ∃ n, v = .number n) ?_ fun u hu => h.hasShape_iff.2 hu
  cases h with
  | symbol hsymbol _ =>
    obtain ⟨name, hname⟩ := exists_symbol hsymbol
    cases hname.symm.trans hkind
  | literal hkind' | sum hkind' _ | indexedSum hkind' _ _ _ _ => cases hkind'.symm.trans hkind
  | product hkind' ht' ha' =>
    cases hkind'.symm.trans hkind
    obtain ⟨m, rfl⟩ := ht'.hasShape_iff.1 ht
    obtain ⟨n, rfl⟩ := ha'.hasShape_iff.1 ha
    exact Value.safe_ofOperation .mul m n
  | @call _ _ _ f hkind' ht' hargs =>
    cases hkind'.symm.trans hkind
    have hlength := length_arguments hs he hkind ht' hargs
    obtain rfl := (hasShape_function ht').1 ht
    show Safe L ((Function.builtin f).evaluate ev (w.arguments f.arity)) _
    rcases argument_cases hargs with ⟨ha', hsingle⟩ | ⟨htuple, harity⟩
    · obtain ⟨n, rfl⟩ := ha'.hasShape_iff.1 ha
      rw [hsingle] at hlength
      have hone : [n].length = f.arity := hlength
      exact Function.safe_evaluate ev hone
    · obtain ⟨ns, hns, rfl⟩ := (hasShape_tuple htuple).1 ha
      rw [Value.arguments, if_neg harity]
      exact Function.safe_evaluate ev (hns.trans hlength)

/-- Operands of operands are operands. -/
lemma IsOperand.of_mem_operands {c : Expr} (h : e.IsOperand) (hc : c ∈ e.operands) :
    c.IsOperand := by
  unfold operands at hc
  rcases h with h | hkind | ⟨hkind, hitems⟩
  · cases h with
    | symbol hsymbol _ =>
      obtain ⟨name, hkind⟩ := exists_symbol hsymbol
      simp [hkind] at hc
    | literal hkind => simp [hkind] at hc
    | sum hkind hterms =>
      simp only [hkind] at hc
      exact .numerical (hterms c hc)
    | product hkind ht ha =>
      simp only [hkind, List.mem_cons, List.not_mem_nil, or_false] at hc
      rcases hc with rfl | rfl
      exacts [.numerical ht, .numerical ha]
    | call hkind ht hargs =>
      simp only [hkind, List.mem_cons, List.not_mem_nil, or_false] at hc
      rcases hc with rfl | rfl
      · exact .function ht
      · rcases argument_cases hargs with ⟨ha, -⟩ | ⟨htuple, -⟩
        exacts [.numerical ha, .arguments htuple hargs]
    | indexedSum hkind _ hl hu _ =>
      simp only [hkind, List.mem_cons, List.not_mem_nil, or_false] at hc
      rcases hc with rfl | rfl
      exacts [.numerical hl, .numerical hu]
  · simp [hkind] at hc
  · simp only [hkind] at hc
    exact .numerical (hitems c hc)

lemma IsNumerical.hasShape_value? (h : e.IsNumerical) (hv : e.value? = some v) : e.HasShape v := by
  rw [h.hasShape_iff]
  obtain ⟨ordinal, domain, kind⟩ := e
  cases h with
  | literal hkind =>
    cases hkind
    exact ⟨_, (Option.some.inj hv).symm⟩
  | symbol hsymbol _ =>
    obtain ⟨name, hkind⟩ := exists_symbol hsymbol
    cases hkind
    simp [value?] at hv
  | sum hkind _ | product hkind _ _ | call hkind _ _ | indexedSum hkind _ _ _ _ =>
    cases hkind
    simp [value?] at hv

lemma forall₂_hasShape_values? {es : List Expr} {vs : List Value} (hes : ∀ e ∈ es, e.IsNumerical)
    (h : values? es = some vs) : List.Forall₂ HasShape es vs := by
  induction es generalizing vs with
  | nil =>
    cases h
    exact .nil
  | cons e es ih =>
    rw [List.forall_mem_cons] at hes
    rw [values?] at h
    split at h
    · rename_i v ws hv hws
      cases h
      exact .cons (hes.1.hasShape_value? hv) (ih hes.2 hws)
    · cases h

/-- The value of a constant suits it. -/
lemma IsOperand.hasShape_value? (h : e.IsOperand) (hv : e.value? = some v) : e.HasShape v := by
  rcases h with h | hkind | ⟨hkind, hitems⟩
  · exact h.hasShape_value? hv
  · obtain ⟨ordinal, domain, kind⟩ := e
    cases hkind
    exact (hasShape_function rfl).2 (Option.some.inj hv).symm
  · obtain ⟨ordinal, domain, kind⟩ := e
    cases hkind
    obtain ⟨vs, hvs, rfl⟩ := Option.map_eq_some_iff.1 hv
    obtain ⟨ns, hlength, rfl⟩ := exists_numbers (forall₂_hasShape_values? hitems hvs) hitems
    exact (hasShape_tuple rfl).2 ⟨ns, hlength, rfl⟩

end Expr

end TermGraph
