import TermGraph.Proofs.Program.Scopes
import TermGraph.Proofs.Store.Walks

/-!
# Free occurrences of symbols

A symbol occurs free in an expression if some way down to it passes no node that binds it.  In a
graph one and the same symbol may occur free in one place and be bound in another.

* `Expr.OccursFree x e`: the symbol `x` occurs free in `e`.
* `Expr.evaluate_congr`: a plain value depends on the values of the symbols that occur free, and on
  no others.
* `Expr.mem_freeSymbols`: `freeSymbols` lists the symbols that occur free and are bound nowhere.
-/

namespace TermGraph

namespace Expr

variable {x a b c e : Expr}

/-- Nothing is below a symbol but the symbol. -/
lemma Below.eq_of_isSymbol (h : Below a e) (he : e.isSymbol = true) : a = e := by
  cases h with
  | refl => rfl
  | step hc _ =>
    obtain ⟨ordinal, domain, kind⟩ := e
    cases kind with
    | symbol _ => cases hc
    | _ => cases he

lemma mem_preorder_iff_below : a ∈ e.preorder (fun _ => true) ↔ Below a e := by
  refine ⟨fun h => ?_, fun h => ?_⟩
  · induction hsize : sizeOf e using Nat.strongRecOn generalizing e with
    | _ n ih =>
      subst hsize
      rcases mem_preorder.1 h with rfl | ⟨-, c, hc, ha⟩
      · exact .refl
      · exact .step hc (ih _ (sizeOf_lt_of_mem_children hc) ha rfl)
  · induction h with
    | refl => exact mem_preorder_self _ _
    | step hc _ ih => exact mem_preorder.2 (.inr ⟨rfl, _, hc, ih⟩)

/-! ## The symbols of a graph -/

section Store

variable {s : Store}

lemma knows_of_mem_binders (hs : s.WellFormed) (he : s.Knows e) (h : x ∈ e.binders) :
    s.Knows x := by
  have hchild : ∀ c ∈ e.children, s.Knows c := hs.children he
  obtain ⟨ordinal, domain, kind⟩ := e
  cases kind with
  | generator rows cols element =>
    rcases List.mem_pair.1 h with rfl | rfl
    · exact hs.rowIndex
    · exact hs.colIndex
  | indexedSum index lower upper body =>
    obtain rfl := List.mem_singleton.1 h
    exact hchild x (by simp [children, Kind.children, Expr.kind])
  | collectionSum index collection body =>
    obtain rfl := List.mem_singleton.1 h
    exact hchild x (by simp [children, Kind.children, Expr.kind])
  | _ => cases h

lemma isSymbol_of_mem_binders (hs : s.WellFormed) (he : s.Knows e) (h : x ∈ e.binders) :
    x.isSymbol = true := by
  have hindex := (hs.admits he).index
  have hplaceholder {i : Expr} (hi : i ∈ e.kind.index?) : i.isSymbol = true := by
    obtain ⟨p, hp, rfl⟩ := hindex i hi
    rw [(hs.placeholder hp).2]
    rfl
  obtain ⟨ordinal, domain, kind⟩ := e
  cases kind with
  | generator rows cols element =>
    rcases List.mem_pair.1 h with rfl | rfl <;> rfl
  | indexedSum index lower upper body =>
    obtain rfl := List.mem_singleton.1 h
    exact hplaceholder rfl
  | collectionSum index collection body =>
    obtain rfl := List.mem_singleton.1 h
    exact hplaceholder rfl
  | _ => cases h

/-- A child of a node is one of its operands, its body, or a symbol that it binds. -/
lemma mem_children_cases (h : c ∈ e.children) :
    c ∈ e.operands ∨ e.body? = some c ∨ c ∈ e.binders := by
  obtain ⟨ordinal, domain, kind⟩ := e
  cases kind <;>
    simp only [children, Kind.children, operands, body?, binders, Expr.kind, List.mem_cons,
      List.not_mem_nil, or_false, Option.some.injEq] at h ⊢ <;> tauto

lemma mem_binders_iff_ordinal (hs : s.WellFormed) (he : s.Knows e) (hx : s.Knows x) :
    x.ordinal ∈ e.binders.map ordinal ↔ x ∈ e.binders := by
  refine ⟨fun h => ?_, fun h => List.mem_map_of_mem h⟩
  obtain ⟨y, hy, hordinal⟩ := List.mem_map.1 h
  obtain rfl := Store.WellFormed.eq_of_ordinal (knows_of_mem_binders hs he hy) hx hordinal
  exact hy

/-- A symbol of the graph that no node binds occurs free. -/
lemma occursFree_of_below (hs : s.WellFormed) (he : s.Knows e) (h : Below x e)
    (hx : x.isSymbol = true) (hbinders : ∀ a, Below a e → x ∉ a.binders) : OccursFree x e := by
  induction h with
  | refl => exact .symbol hx
  | @step e c hc hbelow ih =>
    have hfree := ih (hs.children he c hc) fun a ha => hbinders a (.step hc ha)
    have hknown : s.Knows x := hbelow.knows hs (hs.children he c hc)
    have hnot : x ∉ e.binders := hbinders e .refl
    rcases mem_children_cases hc with hoperand | hbody | hindex
    · exact .operand hoperand hfree
    · exact .body hbody (by rwa [mem_binders_iff_ordinal hs he hknown]) hfree
    · -- The child is a bound symbol, and nothing else is below it.
      obtain rfl := hbelow.eq_of_isSymbol (isSymbol_of_mem_binders hs he hindex)
      exact absurd hindex hnot

/-- The listed symbols are those that occur free and that no node of the graph binds. -/
lemma mem_freeSymbols (hs : s.WellFormed) (he : s.Knows e) :
    x ∈ e.freeSymbols ↔ OccursFree x e ∧ ∀ a, Below a e → x ∉ a.binders := by
  have hwalk (a : Expr) : a ∈ e.walk (fun _ => true) ↔ Below a e := by
    rw [mem_walk hs he, mem_preorder_iff_below]
  have hcontains (hx : s.Knows x) :
      ((e.walk fun _ => true).flatMap binders).contains x = false ↔
        ∀ a, Below a e → x ∉ a.binders := by
    rw [← Bool.not_eq_true, List.contains_iff_exists_mem_beq, not_exists]
    simp only [List.mem_flatMap, hwalk, not_and, forall_exists_index, and_imp]
    refine ⟨fun h a ha hmem => h x a ha hmem (beq_iff_ordinal.2 rfl), fun h y a ha hy hbeq => ?_⟩
    have hknown := knows_of_mem_binders hs (ha.knows hs he) hy
    obtain rfl := Store.WellFormed.eq_of_ordinal hx hknown (beq_iff_ordinal.1 hbeq)
    exact h a ha hy
  rw [freeSymbols, List.mem_filter, hwalk, Bool.and_eq_true, Bool.not_eq_true']
  constructor
  · rintro ⟨hbelow, hx, hnot⟩
    have hbinders := (hcontains (hbelow.knows hs he)).1 hnot
    exact ⟨occursFree_of_below hs he hbelow hx hbinders, hbinders⟩
  · rintro ⟨hfree, hbinders⟩
    exact ⟨hfree.toBelow, hfree.isSymbol, (hcontains (hfree.toBelow.knows hs he)).2 hbinders⟩

end Store

/-! ## Values -/

/-- A list of bindings has nothing for what is not bound in it. -/
lemma lookup_eq_none_iff_fst {β : Type} {l : List (ℕ × β)} {k : ℕ} :
    l.lookup k = none ↔ k ∉ l.map Prod.fst := by
  simp only [List.lookup_eq_none_iff, bne_iff_ne, List.mem_map, not_exists, not_and, ne_comm, ne_eq]

section Values

variable {m : Type → Type} [Monad m] {ops : Arithmetic m} {v v' : Bindings}

section Lists

variable {op : Value → Value → m Value} {l : List Expr}

lemma evaluateAll_congr (h : ∀ e ∈ l, e.evaluate ops v = e.evaluate ops v') :
    evaluateAll ops v l = evaluateAll ops v' l := by
  induction l with
  | nil => rw [evaluateAll, evaluateAll]
  | cons e l ih =>
    rw [evaluateAll, evaluateAll, h e (by simp), ih fun c hc => h c (by simp [hc])]

lemma evaluateOnto_congr (h : ∀ e ∈ l, e.evaluate ops v = e.evaluate ops v') (acc : Value) :
    evaluateOnto ops op v acc l = evaluateOnto ops op v' acc l := by
  induction l generalizing acc with
  | nil => rw [evaluateOnto, evaluateOnto]
  | cons e l ih =>
    rw [evaluateOnto, evaluateOnto, h e (by simp)]
    simp only [ih fun c hc => h c (by simp [hc])]

lemma evaluateFold_congr (h : ∀ e ∈ l, e.evaluate ops v = e.evaluate ops v') :
    evaluateFold ops op v l = evaluateFold ops op v' l := by
  cases l with
  | nil => rw [evaluateFold, evaluateFold]
  | cons e l =>
    have hrest (acc : Value) : evaluateOnto ops op v acc l = evaluateOnto ops op v' acc l :=
      evaluateOnto_congr (fun c hc => h c (by simp [hc])) acc
    rw [evaluateFold, evaluateFold, h e (by simp)]
    simp only [hrest]

end Lists

/-- **Values depend on free symbols only.**  If all symbols that occur free in an expression have
the same values under two bindings, then so has the expression. -/
lemma evaluate_congr (h : ∀ x, OccursFree x e → v.lookup x.ordinal = v'.lookup x.ordinal) :
    e.evaluate ops v = e.evaluate ops v' := by
  induction hsize : sizeOf e using Nat.strongRecOn generalizing e v v' with
  | _ n ih =>
    subst hsize
    have hoperand {c : Expr} (hc : c ∈ e.operands) : c.evaluate ops v = c.evaluate ops v' :=
      ih _ (sizeOf_lt_of_mem_children (mem_children_of_mem_operands hc))
        (fun x hx => h x (.operand hc hx)) rfl
    -- Under more bindings of what the node binds, the symbols of the body have the same values.
    have hbody {b : Expr} (hb : e.body? = some b) (more : Bindings)
        (hmore : more.map Prod.fst = e.binders.reverse.map ordinal) :
        b.evaluate ops (more ++ v) = b.evaluate ops (more ++ v') := by
      refine ih _ (sizeOf_lt_of_mem_children (mem_children_of_body hb)) (fun x hx => ?_) rfl
      rw [List.lookup_append, List.lookup_append]
      cases hlookup : more.lookup x.ordinal with
      | some _ => rfl
      | none =>
        refine congrArg _ (h x (.body hb (fun hmem => ?_) hx))
        refine lookup_eq_none_iff_fst.1 hlookup ?_
        rw [hmore, List.map_reverse, List.mem_reverse]
        exact hmem
    obtain ⟨ordinal, domain, kind⟩ := e
    cases kind with
    | symbol name =>
      rw [evaluate, evaluate, show v.lookup ordinal = v'.lookup ordinal from h _ (.symbol rfl)]
    | number _ | object _ _ | field _ | function _ => rw [evaluate, evaluate]
    | tuple items =>
      rw [evaluate, evaluate, evaluateAll_congr (l := items) fun c hc => hoperand hc]
    | apply target argument =>
      rw [evaluate, evaluate, hoperand (c := target) (by simp [operands, Expr.kind]),
        hoperand (c := argument) (by simp [operands, Expr.kind])]
    | sum items | chain items =>
      rw [evaluate, evaluate, evaluateFold_congr (l := items) fun c hc => hoperand hc]
    | inverse inner | transpose inner =>
      rw [evaluate, evaluate, hoperand (c := inner) (by simp [operands, Expr.kind])]
    | generator rows cols element =>
      rw [evaluate, evaluate]
      exact congrArg _ (funext fun i => funext fun j =>
        hbody rfl [(colIndex.ordinal, j), (rowIndex.ordinal, i)] rfl)
    | indexedSum index lower upper body =>
      rw [evaluate, evaluate, hoperand (c := lower) (by simp [operands, Expr.kind]),
        hoperand (c := upper) (by simp [operands, Expr.kind])]
      simp only [show ∀ w, body.evaluate ops ((index.ordinal, w) :: v) =
        body.evaluate ops ((index.ordinal, w) :: v') from fun w => hbody rfl [(_, w)] rfl]
    | collectionSum index collection body =>
      rw [evaluate, evaluate, hoperand (c := collection) (by simp [operands, Expr.kind])]
      simp only [show ∀ w, body.evaluate ops ((index.ordinal, w) :: v) =
        body.evaluate ops ((index.ordinal, w) :: v') from fun w => hbody rfl [(_, w)] rfl]

end Values

end Expr

end TermGraph
