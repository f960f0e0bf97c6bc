import TermGraph.Proofs.Program.Blocks
import TermGraph.Proofs.Program.Census
import TermGraph.Proofs.Store.Formation

/-!
# Shared nodes are computed once

A node that is used in several places becomes a local, and a local is lowered once.  The local is read in
all other places, so the nodes below it are not lowered for them again.  Therefore a statement list has as
many operators of each sort as there are nodes of this sort, however many parents and results share them.
Constants are left out here: they are captured wherever they stand.

* `Code.operators`: the operators in a computation, in order.
* `Expr.expanded L e`: the nodes that are lowered for `e`, one entry each time, where the nodes with
  ordinals in `L` are locals.
* `Lowering.Unfolds`: the operators of the code are those of the expanded nodes.
* `Expr.occurrences_expandedAll`: in a block, every composite node is expanded once.
* `Store.Reachable.encard_operator`: as many operators as nodes.
-/

namespace TermGraph

open Store (Knows)

/-! ## Operators -/

/-- The operators that computations consist of. -/
inductive Operator where
  /-- Product, call, indexing or member access. -/
  | apply
  /-- A sum. -/
  | sum
  /-- A product of matrices. -/
  | multiply
  /-- An inverse. -/
  | inverse
  /-- A transpose. -/
  | transpose
  /-- A tuple that is no constant. -/
  | tuple
deriving DecidableEq

/-- The operator of a node. -/
def Expr.operator? (e : Expr) : Option Operator :=
  match e.kind with
  | .apply _ _ => some .apply
  | .sum _ => some .sum
  | .chain _ => some .multiply
  | .inverse _ => some .inverse
  | .transpose _ => some .transpose
  | .tuple _ => if e.isConstant then none else some .tuple
  | _ => none

namespace Code

mutual

/-- Literals, captured constants, and tuples of these. -/
def isConstant : Code → Bool
  | .number _ | .captured _ => true
  | .tuple items => areConstant items
  | _ => false

/-- Whether all computations of a list are constant. -/
def areConstant : List Code → Bool
  | [] => true
  | c :: cs => c.isConstant && areConstant cs

end

/-- The outermost operator of a computation. -/
def operator? (c : Code) : Option Operator :=
  match c with
  | .apply _ _ => some .apply
  | .sum _ => some .sum
  | .multiply _ => some .multiply
  | .inverse _ => some .inverse
  | .transpose _ => some .transpose
  | .tuple _ => if c.isConstant then none else some .tuple
  | _ => none

end Code

mutual

/-- All operators in a computation, each as often as it stands there. -/
def Code.operators : Code → List Operator
  | .tuple items => (Code.tuple items).operator?.toList ++ Code.operatorsAll items
  | .apply target argument => .apply :: (target.operators ++ argument.operators)
  | .sum terms => .sum :: Code.operatorsAll terms
  | .multiply factors => .multiply :: Code.operatorsAll factors
  | .inverse inner => .inverse :: inner.operators
  | .transpose inner => .transpose :: inner.operators
  | .generate _ _ _ _ element => element.operators
  | .range _ lower upper body => lower.operators ++ upper.operators ++ body.operators
  | .each _ collection body => collection.operators ++ body.operators
  | _ => []

/-- All operators in a list of computations. -/
def Code.operatorsAll : List Code → List Operator
  | [] => []
  | c :: cs => c.operators ++ Code.operatorsAll cs

/-- All operators in a block. -/
def Block.operators : Block → List Operator
  | .result value => value.operators
  | .bind _ code rest => code.operators ++ rest.operators

end

/-- All operators in the locals and results of a function. -/
def SourceFunction.operators (f : SourceFunction) : List Operator :=
  Code.operatorsAll (f.locals.map Prod.snd ++ f.value :: f.outputs ++ f.arrays.flatten)

namespace Expr

variable {s : Store} {L L' : List ℕ} {a b c e : Expr} {l : List Expr}

/-! ## Expanded nodes -/

/-- The nodes that are lowered for `e`, one entry each time, where the nodes with ordinals in `L` are
locals. -/
def expanded (L : List ℕ) (e : Expr) : List Expr :=
  if e.ordinal ∈ L then [] else e :: e.operands.attach.flatMap fun c => expanded L c.1
termination_by sizeOf e
decreasing_by exact sizeOf_lt_of_mem_children (mem_children_of_mem_operands c.2)

/-- The nodes that are lowered for a list. -/
def expandedAll (L : List ℕ) (l : List Expr) : List Expr :=
  l.flatMap (expanded L)

lemma expanded_of_mem (h : e.ordinal ∈ L) : expanded L e = [] := by
  rw [expanded, if_pos h]

lemma expanded_of_notMem (h : e.ordinal ∉ L) : expanded L e = e :: expandedAll L e.operands := by
  conv_rhs => rw [expandedAll, ← List.attach_map_subtype_val e.operands, List.flatMap_map]
  rw [expanded, if_neg h]

lemma expanded_congr (h : ∀ a, Reads a e → (a.ordinal ∈ L ↔ a.ordinal ∈ L')) :
    expanded L e = expanded L' e := by
  induction hsize : sizeOf e using Nat.strongRecOn generalizing e with
  | _ n ih =>
    subst hsize
    by_cases hmem : e.ordinal ∈ L
    · rw [expanded_of_mem hmem, expanded_of_mem ((h e .refl).1 hmem)]
    · rw [expanded_of_notMem hmem, expanded_of_notMem (mt (h e .refl).2 hmem), expandedAll, expandedAll]
      refine congrArg _ (List.flatMap_congr fun c hc => ?_)
      exact ih _ (sizeOf_lt_of_mem_children (mem_children_of_mem_operands hc))
        (fun a ha => h a (.step hc ha)) rfl

lemma reads_of_mem_expanded (h : a ∈ expanded L e) : Reads a e ∧ a.ordinal ∉ L := by
  induction hsize : sizeOf e using Nat.strongRecOn generalizing e with
  | _ n ih =>
    subst hsize
    by_cases hmem : e.ordinal ∈ L
    · simp [expanded_of_mem hmem] at h
    · rw [expanded_of_notMem hmem, List.mem_cons] at h
      rcases h with rfl | h
      · exact ⟨.refl, hmem⟩
      · obtain ⟨c, hc, ha⟩ := List.mem_flatMap.1 h
        obtain ⟨hreads, hnew⟩ := ih _ (sizeOf_lt_of_mem_children (mem_children_of_mem_operands hc)) ha rfl
        exact ⟨.step hc hreads, hnew⟩

/-- The nodes that are lowered for locals, which are bound one after the other. -/
def expandedInTurn (L : List ℕ) : List Expr → List Expr
  | [] => []
  | e :: l => expanded L e ++ expandedInTurn (e.ordinal :: L) l

/-- In the order of their heights, locals are expanded down to the operands that are locals: these are
flatter, hence bound before. -/
lemma expandedInTurn_eq (hs : s.WellFormed) (hl : s.Knows l) (hnodup : (l.map ordinal).Nodup)
    (hnew : ∀ e ∈ l, e.ordinal ∉ L) (horder : l.Pairwise fun a b => a.height ≤ b.height)
    (hmem : ∀ k, k ∈ L' ↔ k ∈ L ∨ k ∈ l.map ordinal) :
    expandedInTurn L l = l.flatMap fun e => e :: expandedAll L' e.operands := by
  induction l generalizing L with
  | nil => rfl
  | cons e l ih =>
    rw [Store.knows_cons] at hl
    rw [List.map_cons, List.nodup_cons] at hnodup
    rw [List.forall_mem_cons] at hnew
    rw [List.pairwise_cons] at horder
    have hoperands : expandedAll L e.operands = expandedAll L' e.operands := by
      refine List.flatMap_congr fun c hc => expanded_congr fun a ha => ?_
      rw [hmem, List.map_cons, List.mem_cons]
      refine ⟨.inl, ?_⟩
      have hchild := mem_children_of_mem_operands hc
      have hc' := hs.children hl.1 c hchild
      rintro (h | h | h)
      · exact h
      · have hle := ha.ordinal_le hs hc'
        have hlt := hs.below hl.1 hchild
        omega
      · obtain ⟨b, hb, heq⟩ := List.mem_map.1 h
        obtain rfl := Store.WellFormed.eq_of_ordinal (hl.2 b hb) (ha.knows hs hc') heq
        have hle := ha.height_le
        have hlt := height_lt hc
        have hafter := horder.1 b hb
        omega
    rw [expandedInTurn, expanded_of_notMem hnew.1, hoperands, ih hl.2 hnodup.2 ?_ horder.2 ?_]
    · rfl
    · intro b hb
      rw [List.mem_cons, not_or]
      exact ⟨fun heq => hnodup.1 (heq ▸ List.mem_map_of_mem hb), hnew.2 b hb⟩
    · intro k
      rw [hmem, List.map_cons, List.mem_cons, List.mem_cons]
      tauto

end Expr

/-! ## Lowering unfolds nodes -/

namespace Lowering

open TermGraph.Expr

variable {α : Type} {L L' : List ℕ} {σ τ : Lowering} {e : Expr} {l : List Expr} {params : List Expr}
  {block : Expr → LowerM Block} {lower : Expr → LowerM Code}

/-- The locals around are the nodes with ordinals in `L`. -/
def Locals (L : List ℕ) (σ : Lowering) : Prop :=
  ∀ e : Expr, (σ.local? e).isSome = true ↔ e.ordinal ∈ L

lemma Locals.of_scopes (h : σ.Locals L) (hscopes : τ.scopes = σ.scopes) : τ.Locals L := by
  intro e
  rw [local?, hscopes]
  exact h e

lemma Locals.congr (h : σ.Locals L) (hmem : ∀ k, k ∈ L ↔ k ∈ L') : σ.Locals L' :=
  fun e => (h e).trans (hmem _)

/-- The operators of the code are those of the nodes that are expanded. -/
structure Unfolds (L : List ℕ) (σ : Lowering) (e : Expr) (r : Code × Lowering) : Prop where
  /-- The blocks around are the same. -/
  scopes : r.2.scopes = σ.scopes
  /-- Constants stay constants. -/
  constant : r.1.isConstant = e.isConstant
  /-- The operators are those of the expanded nodes. -/
  operators : r.1.operators = (e.expanded L).filterMap operator?

/-- The operators of the codes are those of the nodes that are expanded. -/
structure UnfoldsAll (L : List ℕ) (σ : Lowering) (l : List Expr) (r : List Code × Lowering) : Prop where
  /-- The blocks around are the same. -/
  scopes : r.2.scopes = σ.scopes
  /-- Constants stay constants. -/
  constant : Code.areConstant r.1 = areConstant l
  /-- The operators are those of the expanded nodes. -/
  operators : Code.operatorsAll r.1 = (expandedAll L l).filterMap operator?

lemma UnfoldsAll.nil (L : List ℕ) (σ : Lowering) : UnfoldsAll L σ [] ([], σ) := by
  refine ⟨rfl, ?_, ?_⟩
  · rw [Code.areConstant, areConstant]
  · rw [Code.operatorsAll]
    rfl

lemma Unfolds.cons {r : Code × Lowering} {q : List Code × Lowering} (h : Unfolds L σ e r)
    (h' : UnfoldsAll L r.2 l q) : UnfoldsAll L σ (e :: l) (r.1 :: q.1, q.2) where
  scopes := h'.scopes.trans h.scopes
  constant := by rw [Code.areConstant, areConstant, h.constant, h'.constant]
  operators := by
    rw [Code.operatorsAll, h.operators, h'.operators, ← List.filterMap_append]
    rfl

/-- A node that is no local is unfolded if its operands are. -/
lemma UnfoldsAll.unfolds {r : List Code × Lowering} {c : Code} (h : UnfoldsAll L σ e.operands r)
    (hnew : e.ordinal ∉ L) (hconstant : c.isConstant = e.isConstant)
    (hoperators : c.operators = e.operator?.toList ++ Code.operatorsAll r.1) :
    Unfolds L σ e (c, r.2) := by
  refine ⟨h.scopes, hconstant, ?_⟩
  rw [hoperators, h.operators, expanded_of_notMem hnew, List.filterMap_cons]
  cases e.operator? <;> rfl

/-- A leaf has no operators, and its code has none either. -/
lemma unfolds_leaf {c : Code} (hnew : e.ordinal ∉ L) (hscopes : τ.scopes = σ.scopes)
    (hoperands : e.operands = []) (hoperator : e.operator? = none)
    (hconstant : c.isConstant = e.isConstant) (hoperators : c.operators = []) :
    Unfolds L σ e (c, τ) := by
  refine ⟨hscopes, hconstant, ?_⟩
  rw [hoperators, expanded_of_notMem hnew, hoperands, List.filterMap_cons, hoperator]
  rfl

lemma unfolds_reuse {x : LowerM Code} (hσ : σ.Locals L) (hconstant : e.isConstant = true → e.ordinal ∉ L)
    (hx : e.ordinal ∉ L → Unfolds L σ e (x σ)) : Unfolds L σ e (reuse e x σ) := by
  rw [reuse_apply]
  cases hlocal : σ.local? e with
  | none => exact hx fun hmem => by simpa [hlocal] using (hσ e).2 hmem
  | some id =>
    have hmem : e.ordinal ∈ L := (hσ e).1 (by rw [hlocal]; rfl)
    refine ⟨rfl, ?_, ?_⟩
    · rw [Code.isConstant]
      · cases hc : e.isConstant with
        | false => rfl
        | true => exact absurd hmem (hconstant hc)
      all_goals simp
    · rw [Code.operators, expanded_of_mem hmem]
      · rfl
      all_goals simp

lemma unfoldsAll_mapM (hσ : σ.Locals L)
    (h : ∀ e ∈ l, ∀ τ : Lowering, τ.Locals L → Unfolds L τ e (lower e τ)) :
    UnfoldsAll L σ l (l.mapM lower σ) := by
  induction l generalizing σ with
  | nil => exact .nil L σ
  | cons e l ih =>
    have he := h e (by simp) σ hσ
    rw [List.mapM_cons]
    exact he.cons (ih (hσ.of_scopes he.scopes) fun d hd => h d (by simp [hd]))

/-- Where there is no loop, nodes are unfolded down to the locals. -/
lemma unfolds_lowerWith (params : List Expr) (block : Expr → LowerM Block)
    (hplain : ∀ a : Expr, a.Reads e → a.body? = none)
    (hconstant : ∀ a : Expr, a.Reads e → a.isConstant = true → a.ordinal ∉ L) (hσ : σ.Locals L) :
    Unfolds L σ e (lowerWith params block e σ) := by
  induction hsize : sizeOf e using Nat.strongRecOn generalizing e σ with
  | _ n ih =>
    subst hsize
    have hoperand {c : Expr} (hc : c ∈ e.operands) {τ : Lowering} (hτ : τ.Locals L) :
        Unfolds L τ c (lowerWith params block c τ) :=
      ih _ (sizeOf_lt_of_mem_children (mem_children_of_mem_operands hc))
        (fun a ha => hplain a (.step hc ha)) (fun a ha => hconstant a (.step hc ha)) hτ rfl
    have hall : UnfoldsAll L σ e.operands (lowerAll params block e.operands σ) := by
      rw [lowerAll_eq_mapM]
      exact unfoldsAll_mapM hσ fun c hc τ hτ => hoperand hc hτ
    -- There is no loop in `e`, which leaves out the last three kinds.
    have hbody := hplain e .refl
    obtain ⟨i, d, kind⟩ := e
    cases kind with
    | symbol name =>
      rw [lowerWith]
      refine unfolds_reuse hσ (hconstant _ .refl) fun hnew => ?_
      rw [symbol_apply]
      have hsymbol {c : Code} (hc : c.isConstant = false) (hc' : c.operators = []) :
          Unfolds L σ (.node i d (.symbol name)) (c, σ) :=
        unfolds_leaf hnew rfl rfl rfl (by rw [hc]; simp [isConstant]) hc'
      cases params.findIdx? (· == Expr.node i d (.symbol name)) with
      | some k => exact hsymbol (by simp [Code.isConstant]) (by simp [Code.operators])
      | none =>
        cases σ.loopVariable? (.node i d (.symbol name)) <;>
          exact hsymbol (by simp [Code.isConstant]) (by simp [Code.operators])
    | number k =>
      rw [lowerWith]
      exact unfolds_reuse hσ (hconstant _ .refl) fun hnew => unfolds_leaf hnew rfl rfl rfl
        (by rw [Code.isConstant, isConstant]) (by simp [Code.operators])
    | object v resolver =>
      rw [lowerWith]
      exact unfolds_reuse hσ (hconstant _ .refl) fun hnew => unfolds_leaf hnew rfl rfl rfl
        (by rw [Code.isConstant, isConstant]) (by simp [Code.operators])
    | field name =>
      rw [lowerWith]
      exact unfolds_reuse hσ (hconstant _ .refl) fun hnew => unfolds_leaf hnew rfl rfl rfl
        (by rw [Code.isConstant, isConstant]) (by simp [Code.operators])
    | function g =>
      rw [lowerWith]
      exact unfolds_reuse hσ (hconstant _ .refl) fun hnew => unfolds_leaf hnew rfl rfl rfl
        (by rw [Code.isConstant, isConstant]) (by simp [Code.operators])
    | tuple items =>
      rw [lowerWith]
      -- A tuple counts as an operator unless it is constant, in the code as among the nodes.
      have hsame : (Code.tuple (lowerAll params block items σ).1).isConstant =
          (node i d (.tuple items)).isConstant := by
        rw [Code.isConstant, isConstant]
        exact hall.constant
      refine unfolds_reuse hσ (hconstant _ .refl) fun hnew => hall.unfolds hnew hsame ?_
      rw [Code.operators]
      simp only [Code.operator?, hsame]
      rfl
    | sum items =>
      rw [lowerWith]
      exact unfolds_reuse hσ (hconstant _ .refl) fun hnew =>
        hall.unfolds (c := .sum (lowerAll params block items σ).1) hnew
          (by simp [Code.isConstant, isConstant]) (by rw [Code.operators]; rfl)
    | chain items =>
      rw [lowerWith]
      exact unfolds_reuse hσ (hconstant _ .refl) fun hnew =>
        hall.unfolds (c := .multiply (lowerAll params block items σ).1) hnew
          (by simp [Code.isConstant, isConstant]) (by rw [Code.operators]; rfl)
    | apply t a =>
      have ht := hoperand (c := t) (by simp [operands, Expr.kind]) hσ
      have ha := hoperand (c := a) (by simp [operands, Expr.kind]) (hσ.of_scopes ht.scopes)
      have hboth : UnfoldsAll L σ [t, a] _ := ht.cons (ha.cons (.nil L _))
      rw [lowerWith]
      refine unfolds_reuse hσ (hconstant _ .refl) fun hnew => hboth.unfolds (c := .apply _ _) hnew
        (by simp [Code.isConstant, isConstant]) ?_
      rw [Code.operators, Code.operatorsAll, Code.operatorsAll, Code.operatorsAll, List.append_nil]
      rfl
    | inverse inner =>
      have hinner : UnfoldsAll L σ [inner] _ :=
        (hoperand (c := inner) (by simp [operands, Expr.kind]) hσ).cons (.nil L _)
      rw [lowerWith]
      refine unfolds_reuse hσ (hconstant _ .refl) fun hnew => hinner.unfolds (c := .inverse _) hnew
        (by simp [Code.isConstant, isConstant]) ?_
      rw [Code.operators, Code.operatorsAll, Code.operatorsAll, List.append_nil]
      rfl
    | transpose inner =>
      have hinner : UnfoldsAll L σ [inner] _ :=
        (hoperand (c := inner) (by simp [operands, Expr.kind]) hσ).cons (.nil L _)
      rw [lowerWith]
      refine unfolds_reuse hσ (hconstant _ .refl) fun hnew => hinner.unfolds (c := .transpose _) hnew
        (by simp [Code.isConstant, isConstant]) ?_
      rw [Code.operators, Code.operatorsAll, Code.operatorsAll, List.append_nil]
      rfl
    | generator _ _ _ | indexedSum _ _ _ _ | collectionSum _ _ _ => cases hbody

/-- Locals are unfolded in turn. -/
lemma unfolds_bindLocals {scope : Std.TreeMap ℕ ℕ} {rest : List (Std.TreeMap ℕ ℕ)}
    (hscopes : σ.scopes = scope :: rest) (hσ : σ.Locals L) (hnodup : (l.map ordinal).Nodup)
    (hnew : ∀ e ∈ l, e.ordinal ∉ L)
    (h : ∀ e ∈ l, ∀ M, (∀ k ∈ M, k ∈ L ∨ k ∈ l.map ordinal) → ∀ τ : Lowering, τ.Locals M →
      Unfolds M τ e (lower e τ)) :
    (bindLocals lower l σ).2.Locals (l.map ordinal ++ L) ∧
      Code.operatorsAll ((bindLocals lower l σ).1.map Prod.snd) =
        (expandedInTurn L l).filterMap operator? := by
  induction l generalizing σ L scope rest with
  | nil =>
    refine ⟨hσ, ?_⟩
    rw [bindLocals]
    show Code.operatorsAll [] = _
    rw [Code.operatorsAll]
    rfl
  | cons e l ih =>
    rw [List.map_cons, List.nodup_cons] at hnodup
    rw [List.forall_mem_cons] at hnew
    -- The local is new, so that it is lowered in full, and referred to from then on.
    have hlocal : σ.local? e = none := by
      cases hlocal : σ.local? e with
      | none => rfl
      | some id => exact absurd ((hσ e).1 (by rw [hlocal]; rfl)) hnew.1
    have he := h e (by simp) L (fun k hk => .inl hk) σ hσ
    rw [bindLocals_cons, hlocal]
    have hscopes' := he.scopes.trans hscopes
    have hpushed : ((lower e σ).2.pushLocal e).Locals (e.ordinal :: L) := by
      intro a
      rw [local?_pushLocal hscopes', List.mem_cons]
      split
      case isTrue heq => simp [heq]
      case isFalse hne =>
        rw [hσ.of_scopes he.scopes a]
        exact ⟨.inr, fun hmem => hmem.resolve_left fun heq => hne heq.symm⟩
    obtain ⟨scope', scope'', rest', -, hscopes''⟩ := (extended_pushLocal hscopes' e).scopes
    have hrest : ∀ a ∈ l, a.ordinal ∉ e.ordinal :: L := by
      intro a ha
      rw [List.mem_cons, not_or]
      exact ⟨fun heq => hnodup.1 (heq ▸ List.mem_map_of_mem ha), hnew.2 a ha⟩
    obtain ⟨hlocals, hoperators⟩ := ih hscopes'' hpushed hnodup.2 hrest fun a ha M hM =>
      h a (by simp [ha]) M fun k hk => by
        have hk' := hM k hk
        simp only [List.map_cons, List.mem_cons] at hk' ⊢
        tauto
    refine ⟨hlocals.congr fun k => ?_, ?_⟩
    · simp only [List.map_cons, List.mem_append, List.mem_cons]
      tauto
    · rw [List.map_cons, Code.operatorsAll, hoperators, he.operators, ← List.filterMap_append]
      rfl

lemma operatorsAll_append (cs cs' : List Code) :
    Code.operatorsAll (cs ++ cs') = Code.operatorsAll cs ++ Code.operatorsAll cs' := by
  induction cs with
  | nil => rw [Code.operatorsAll, List.nil_append, List.nil_append]
  | cons c cs ih => rw [List.cons_append, Code.operatorsAll, Code.operatorsAll, ih, List.append_assoc]

/-- The items of output arrays are unfolded one after the other. -/
lemma unfoldsAll_mapM_mapM {arrays : List (List Expr)} (hσ : σ.Locals L)
    (h : ∀ e ∈ arrays.flatten, ∀ τ : Lowering, τ.Locals L → Unfolds L τ e (lower e τ)) :
    (arrays.mapM (fun items => items.mapM lower) σ).2.scopes = σ.scopes ∧
      Code.operatorsAll (arrays.mapM (fun items => items.mapM lower) σ).1.flatten =
        (expandedAll L arrays.flatten).filterMap operator? := by
  induction arrays generalizing σ with
  | nil =>
    refine ⟨rfl, ?_⟩
    show Code.operatorsAll [] = _
    rw [Code.operatorsAll]
    rfl
  | cons items arrays ih =>
    rw [List.flatten_cons, List.forall_mem_append] at h
    have hitems := unfoldsAll_mapM hσ h.1
    obtain ⟨hscopes, hoperators⟩ := ih (hσ.of_scopes hitems.scopes) h.2
    rw [List.mapM_cons]
    refine ⟨hscopes.trans hitems.scopes, ?_⟩
    rw [List.flatten_cons, expandedAll, List.flatMap_append, List.filterMap_append]
    show Code.operatorsAll ((items.mapM lower σ).1 ++ _) = _
    rw [operatorsAll_append, hitems.operators]
    exact congrArg _ hoperators

end Lowering

/-! ## Every composite node is expanded once -/

namespace Expr

variable {s : Store} {L : List ℕ} {a b e : Expr} {l m roots N : List Expr}

/-- How often the node with ordinal `k` stands in a list. -/
def occurrences (l : List Expr) (k : ℕ) : ℕ :=
  (l.map ordinal).count k

lemma occurrences_append (l m : List Expr) (k : ℕ) :
    occurrences (l ++ m) k = occurrences l k + occurrences m k := by
  rw [occurrences, List.map_append, List.count_append, ← occurrences, ← occurrences]

lemma occurrences_cons (e : Expr) (l : List Expr) (k : ℕ) :
    occurrences (e :: l) k = (if e.ordinal = k then 1 else 0) + occurrences l k := by
  rw [occurrences, List.map_cons, List.count_cons, ← occurrences, Nat.add_comm]
  simp

lemma occurrences_pos (h : e ∈ l) : 0 < occurrences l e.ordinal :=
  List.count_pos_iff.2 (List.mem_map_of_mem h)

lemma occurrences_flatMap (f : Expr → List Expr) (l : List Expr) (k : ℕ) :
    occurrences (l.flatMap f) k = (l.map fun e => occurrences (f e) k).sum := by
  induction l with
  | nil => rfl
  | cons e l ih => rw [List.flatMap_cons, occurrences_append, ih, List.map_cons, List.sum_cons]

/-- Sums over two lists are equal if the nodes that contribute stand in them equally often. -/
lemma sum_map_eq (hl : s.Knows l) (hm : s.Knows m) {g : Expr → ℕ}
    (h : ∀ e, e ∈ l ∨ e ∈ m → g e ≠ 0 → occurrences l e.ordinal = occurrences m e.ordinal) :
    (l.map g).sum = (m.map g).sum := by
  -- A node is given by its ordinal.
  let g' (k : ℕ) : ℕ := (s.nodes[k]?.map g).getD 0
  have hg {l : List Expr} (hl : s.Knows l) : l.map g = (l.map ordinal).map g' := by
    rw [List.map_map]
    refine List.map_congr_left fun e he => ?_
    simp only [g', Function.comp_apply, Store.knows_iff_getElem?.1 (hl e he), Option.map_some,
      Option.getD_some]
  have hcount (k : ℕ) : g' k ≠ 0 → (l.map ordinal).count k = (m.map ordinal).count k := by
    intro hk
    by_cases hmem : k ∈ l.map ordinal ∨ k ∈ m.map ordinal
    · have hnode : ∃ e, (e ∈ l ∨ e ∈ m) ∧ e.ordinal = k := by
        rcases hmem with hmem | hmem <;> obtain ⟨e, he, rfl⟩ := List.mem_map.1 hmem
        · exact ⟨e, .inl he, rfl⟩
        · exact ⟨e, .inr he, rfl⟩
      obtain ⟨e, he, rfl⟩ := hnode
      have hknown : s.Knows e := he.elim (hl e) (hm e)
      refine h e he ?_
      simpa [g', Store.knows_iff_getElem?.1 hknown] using hk
    · rw [not_or] at hmem
      rw [List.count_eq_zero_of_not_mem hmem.1, List.count_eq_zero_of_not_mem hmem.2]
  have hextend (l m : List ℕ) : (l.map g').sum = ∑ k ∈ l.toFinset ∪ m.toFinset, l.count k • g' k := by
    rw [Finset.sum_list_map_count]
    refine Finset.sum_subset Finset.subset_union_left fun k _ hk => ?_
    rw [List.count_eq_zero_of_not_mem (mt List.mem_toFinset.2 hk), zero_smul]
  rw [hg hl, hg hm, hextend _ (m.map ordinal), hextend _ (l.map ordinal), Finset.union_comm]
  refine Finset.sum_congr rfl fun k _ => ?_
  by_cases hk : g' k = 0
  · rw [hk, smul_zero, smul_zero]
  · rw [hcount k hk]

/-- Outside of the locals, a node is expanded once for every use by an expanded node, and once for every
time it stands in the list. -/
lemma occurrences_expandedAll {k : ℕ} (hk : k ∉ L) (l : List Expr) :
    occurrences (expandedAll L l) k =
      occurrences l k + occurrences ((expandedAll L l).flatMap operands) k := by
  have hlist {l : List Expr} (h : ∀ e ∈ l, occurrences (expanded L e) k =
      (if e.ordinal = k then 1 else 0) + occurrences ((expanded L e).flatMap operands) k) :
      occurrences (expandedAll L l) k =
        occurrences l k + occurrences ((expandedAll L l).flatMap operands) k := by
    induction l with
    | nil => rfl
    | cons e l ih =>
      rw [List.forall_mem_cons] at h
      have hrest := ih h.2
      rw [expandedAll] at hrest ⊢
      rw [List.flatMap_cons, occurrences_append, h.1, hrest, List.flatMap_append, occurrences_append,
        occurrences_cons]
      omega
  have hnode (e : Expr) : occurrences (expanded L e) k =
      (if e.ordinal = k then 1 else 0) + occurrences ((expanded L e).flatMap operands) k := by
    induction hsize : sizeOf e using Nat.strongRecOn generalizing e with
    | _ n ih =>
      subst hsize
      by_cases hmem : e.ordinal ∈ L
      · have hne : e.ordinal ≠ k := fun heq => hk (heq ▸ hmem)
        rw [expanded_of_mem hmem, if_neg hne]
        rfl
      · rw [expanded_of_notMem hmem, occurrences_cons, List.flatMap_cons, occurrences_append]
        rw [hlist fun c hc => ih _ (sizeOf_lt_of_mem_children (mem_children_of_mem_operands hc)) c rfl]
  exact hlist fun e _ => hnode e

lemma occurrences_expandedAll_of_mem {k : ℕ} (hk : k ∈ L) (l : List Expr) :
    occurrences (expandedAll L l) k = 0 := by
  refine List.count_eq_zero_of_not_mem fun hmem => ?_
  obtain ⟨a, ha, rfl⟩ := List.mem_map.1 hmem
  obtain ⟨e, -, hae⟩ := List.mem_flatMap.1 ha
  exact (reads_of_mem_expanded hae).2 hk

/-- The nodes that are lowered in a block with the nodes in `locals` as locals. -/
def expandedInBlock (locals roots : List Expr) : List Expr :=
  (locals.flatMap fun e => e :: expandedAll (locals.map ordinal) e.operands) ++
    expandedAll (locals.map ordinal) roots

lemma occurrences_locals (L : List ℕ) (l : List Expr) (k : ℕ) :
    let nodes := l.flatMap fun e => e :: expandedAll L e.operands
    (k ∈ L → occurrences nodes k = occurrences l k) ∧
      (k ∉ L → occurrences nodes k = occurrences l k + occurrences (nodes.flatMap operands) k) := by
  induction l with
  | nil => exact ⟨fun _ => rfl, fun _ => rfl⟩
  | cons e l ih =>
    simp only [List.flatMap_cons, List.flatMap_append, occurrences_append, occurrences_cons] at ih ⊢
    refine ⟨fun hk => ?_, fun hk => ?_⟩
    · rw [ih.1 hk, occurrences_expandedAll_of_mem hk]
      rfl
    · rw [ih.2 hk, occurrences_expandedAll hk]
      omega

lemma occurrences_expandedInBlock (locals roots : List Expr) (k : ℕ) :
    let nodes := expandedInBlock locals roots
    (k ∈ locals.map ordinal → occurrences nodes k = occurrences locals k) ∧
      (k ∉ locals.map ordinal →
        occurrences nodes k = occurrences roots k + occurrences (nodes.flatMap operands) k) := by
  have hlocals := occurrences_locals (locals.map ordinal) locals k
  simp only [expandedInBlock, List.flatMap_append, occurrences_append]
  refine ⟨fun hk => ?_, fun hk => ?_⟩
  · rw [hlocals.1 hk, occurrences_expandedAll_of_mem hk]
    rfl
  · have hzero : occurrences locals k = 0 := List.count_eq_zero_of_not_mem hk
    rw [hlocals.2 hk, occurrences_expandedAll hk, hzero]
    omega

lemma isConstant_of_mem_operands (h : e.isConstant = true) (ha : a ∈ e.operands) :
    a.isConstant = true := by
  have hall {l : List Expr} (h : areConstant l = true) : ∀ a ∈ l, a.isConstant = true := by
    induction l with
    | nil => simp
    | cons c l ih =>
      rw [areConstant, Bool.and_eq_true] at h
      exact List.forall_mem_cons.2 ⟨h.1, ih h.2⟩
  obtain ⟨i, d, kind⟩ := e
  cases kind with
  | tuple items =>
    rw [isConstant] at h
    exact hall h a ha
  | number _ | object _ _ | field _ | function _ | symbol _ | generator _ _ _ => cases ha
  | apply _ _ | sum _ | chain _ | inverse _ | transpose _ | indexedSum _ _ _ _
  | collectionSum _ _ _ => simp [isConstant] at h

/-- What a composite node is an operand of is composite too. -/
lemma isComposite_of_mem_operands (h : a.isComposite = true) (ha : a ∈ e.operands) :
    e.isComposite = true := by
  have hchild := mem_children_of_mem_operands ha
  have hne : e.children.isEmpty = false := by
    rw [List.isEmpty_eq_false_iff]
    exact List.ne_nil_of_mem hchild
  cases hconstant : e.isConstant with
  | false => simp [isComposite, hne, hconstant]
  | true => simp [isComposite, isConstant_of_mem_operands hconstant ha] at h

lemma Reads.toBelow (h : Reads a e) : Below a e := by
  induction h with
  | refl => exact .refl
  | step hc _ ih => exact .step (mem_children_of_mem_operands hc) ih

/-- Where there is no loop, everything below is read. -/
lemma reads_of_below (h : Below a e) (hplain : ∀ b, Below b e → b.body? = none) : Reads a e := by
  induction h with
  | refl => exact .refl
  | @step e c hc _ ih =>
    have hoperand : c ∈ e.operands := by
      have hbody := hplain e .refl
      obtain ⟨i, d, kind⟩ := e
      cases kind with
      | generator _ _ _ | indexedSum _ _ _ _ | collectionSum _ _ _ => cases hbody
      | _ => exact hc
    exact .step hoperand (ih fun b hb => hplain b (.step hc hb))

lemma count_filterMap_operator? (l : List Expr) (f : Operator) :
    (l.filterMap operator?).count f = (l.map fun e => if e.operator? = some f then 1 else 0).sum := by
  induction l with
  | nil => rfl
  | cons e l ih =>
    rw [List.filterMap_cons, List.map_cons, List.sum_cons, ← ih]
    cases e.operator? with
    | none => simp
    | some g => simp [List.count_cons, Nat.add_comm]

/-- A node with an operator is composite. -/
lemma isComposite_of_operator? (hformed : s.Formed) (he : s.Knows e) {f : Operator}
    (h : e.operator? = some f) : e.isComposite = true := by
  have hkind := hformed e he
  obtain ⟨i, d, kind⟩ := e
  cases kind with
  | tuple items =>
    cases hconstant : (Expr.node i d (.tuple items)).isConstant with
    | true => simp [operator?, Expr.kind, hconstant] at h
    | false =>
      cases items with
      | nil => simp [isConstant, areConstant] at hconstant
      | cons c items => simp [isComposite, children, Kind.children, Expr.kind, hconstant]
  | sum items | chain items =>
    cases items with
    | nil => simp [Kind.isFormed, Expr.kind] at hkind
    | cons c items => simp [isComposite, children, Kind.children, Expr.kind, isConstant]
  | apply _ _ | inverse _ | transpose _ =>
    simp [isComposite, children, Kind.children, Expr.kind, isConstant]
  | symbol _ | number _ | object _ _ | field _ | function _ | generator _ _ _ | indexedSum _ _ _ _
  | collectionSum _ _ _ => cases h

lemma Surveyed.mem_of_reads (h : Surveyed roots N) (he : e ∈ N) (ha : Reads a e) : a ∈ N := by
  obtain ⟨r, hr, her⟩ := (h.mem_iff e).1 he
  exact (h.mem_iff a).2 ⟨r, hr, ha.trans her⟩

/-- Only nodes that the roots read are expanded. -/
lemma Surveyed.mem_of_mem_expandedInBlock (h : Surveyed roots N) {locals : List Expr}
    (hlocals : ∀ e ∈ locals, e ∈ N) : ∀ e ∈ expandedInBlock locals roots, e ∈ N := by
  have hall {l : List Expr} (hl : ∀ r ∈ l, r ∈ N) : ∀ e ∈ expandedAll (locals.map ordinal) l, e ∈ N := by
    intro e he
    obtain ⟨r, hr, her⟩ := List.mem_flatMap.1 he
    exact h.mem_of_reads (hl r hr) (reads_of_mem_expanded her).1
  refine List.forall_mem_append.2 ⟨fun e he => ?_, hall fun r hr => (h.mem_iff r).2 ⟨r, hr, .refl⟩⟩
  obtain ⟨a, ha, he⟩ := List.mem_flatMap.1 he
  rcases List.mem_cons.1 he with rfl | he
  · exact hlocals e ha
  · exact hall (fun c hc => h.mem_of_reads (hlocals a ha) (.step hc .refl)) e he

/-- In a block every composite node is expanded once.  The induction goes from the roots down: a node that
is no local is used once, namely by a node that is expanded once. -/
lemma occurrences_eq_one (hs : s.WellFormed) (hroots : s.Knows roots) (hN : Surveyed roots N)
    {locals : List Expr} (hlocals : ∀ a, a ∈ locals ↔ a ∈ N ∧ 1 < uses roots N a ∧ a.isComposite = true)
    (hnodup : (locals.map ordinal).Nodup) (ha : a ∈ N) (hcomposite : a.isComposite = true) :
    occurrences (expandedInBlock locals roots) a.ordinal = 1 := by
  have hknown : s.Knows N := fun e he => by
    obtain ⟨r, hr, her⟩ := (hN.mem_iff e).1 he
    exact her.knows hs (hroots r hr)
  have hexpanded : ∀ e ∈ expandedInBlock locals roots, e ∈ N :=
    hN.mem_of_mem_expandedInBlock fun e he => ((hlocals e).1 he).1
  induction hdepth : s.nodes.size - a.ordinal using Nat.strongRecOn generalizing a with
  | _ n ih =>
    subst hdepth
    obtain ⟨hmem, hnew⟩ := occurrences_expandedInBlock locals roots a.ordinal
    by_cases hlocal : a ∈ locals
    · rw [hmem (List.mem_map_of_mem hlocal)]
      exact List.count_eq_one_of_mem hnodup (List.mem_map_of_mem hlocal)
    · have hordinal : a.ordinal ∉ locals.map ordinal := by
        intro h
        obtain ⟨b, hb, heq⟩ := List.mem_map.1 h
        exact hlocal (Store.WellFormed.eq_of_ordinal (hknown b ((hlocals b).1 hb).1) (hknown a ha) heq ▸ hb)
      have huses : uses roots N a = occurrences roots a.ordinal +
          occurrences (N.flatMap operands) a.ordinal := by
        rw [uses, Census.visits, List.count_append]
        rfl
      have hone : uses roots N a = 1 := by
        have hle : ¬1 < uses roots N a := fun hlt => hlocal ((hlocals a).2 ⟨ha, hlt, hcomposite⟩)
        have hpos : 0 < uses roots N a := by
          rw [huses]
          obtain ⟨r, hr, har⟩ := (hN.mem_iff a).1 ha
          cases har.eq_or_operand with
          | inl heq =>
            have := occurrences_pos (heq ▸ hr)
            omega
          | inr h =>
            obtain ⟨b, hb, hab⟩ := h
            have hbN : b ∈ N := (hN.mem_iff b).2 ⟨r, hr, hb⟩
            have := occurrences_pos (List.mem_flatMap.2 ⟨b, hbN, hab⟩)
            omega
        omega
      -- The nodes that use it are expanded once.
      have hsame : occurrences ((expandedInBlock locals roots).flatMap operands) a.ordinal =
          occurrences (N.flatMap operands) a.ordinal := by
        rw [occurrences_flatMap, occurrences_flatMap]
        refine sum_map_eq (fun e he => hknown e (hexpanded e he)) hknown fun e he huse => ?_
        have heN : e ∈ N := he.elim (hexpanded e) id
        have haoperand : a ∈ e.operands := by
          obtain ⟨c, hc, heq⟩ := List.mem_map.1 (List.count_pos_iff.1 (Nat.pos_of_ne_zero huse))
          have hcN : c ∈ N := hN.mem_of_reads heN (.step hc .refl)
          exact Store.WellFormed.eq_of_ordinal (hknown c hcN) (hknown a ha) heq ▸ hc
        have hlt := hs.below (hknown e heN) (mem_children_of_mem_operands haoperand)
        have hsize := Store.WellFormed.lt_size (hknown e heN)
        rw [ih _ (by omega) heN (isComposite_of_mem_operands hcomposite haoperand) rfl]
        exact (List.count_eq_one_of_mem hN.nodup (List.mem_map_of_mem heN)).symm
      rw [hnew hordinal, hsame, ← huses, hone]

end Expr

/-! ## Jobs -/

namespace Job

open Lowering TermGraph.Expr

variable {s : Store} {job : Job}

/-- The operators of a statement list are those of the nodes that are expanded in it. -/
lemma operators_linearize (hs : s.WellFormed) (hroots : s.Knows job.roots)
    (hplain : ∀ r ∈ job.roots, ∀ a : Expr, a.Reads r → a.body? = none) (name : String) (pool : Pool) :
    (job.linearize name pool).1.operators =
      (expandedInBlock (sharedNodes job.roots) job.roots).filterMap operator? := by
  obtain ⟨N, hN, hshared, hnodup, horder⟩ := exists_survey hs hroots
  have hreads {e : Expr} (he : e ∈ sharedNodes job.roots) : ∃ r ∈ job.roots, e.Reads r :=
    mem_sharedNodes he
  have hknown : s.Knows (sharedNodes job.roots) := fun e he => by
    obtain ⟨r, hr, her⟩ := hreads he
    exact her.knows hs (hroots r hr)
  -- Locals are no constants.
  have hunfolds {e r : Expr} (hr : r ∈ job.roots) (her : e.Reads r) {M : List ℕ}
      (hM : ∀ k ∈ M, k ∈ (sharedNodes job.roots).map ordinal) {τ : Lowering} (hτ : τ.Locals M) :
      Unfolds M τ e (job.lower e τ) := by
    refine unfolds_lowerWith _ _ (fun a ha => hplain r hr a (ha.trans her)) (fun a ha hc hmem => ?_) hτ
    obtain ⟨b, hb, heq⟩ := List.mem_map.1 (hM _ hmem)
    have hcomposite := ((hshared b).1 hb).2.2
    obtain rfl := Store.WellFormed.eq_of_ordinal (hknown b hb) ((ha.trans her).knows hs (hroots r hr)) heq
    simp [isComposite, hc] at hcomposite
  have henter : ({ pool := pool } : Lowering).enter.Locals [] := by
    intro e
    simp [local?, enter]
  have hlower : ∀ e ∈ sharedNodes job.roots, ∀ M,
      (∀ k ∈ M, k ∈ [] ∨ k ∈ (sharedNodes job.roots).map ordinal) → ∀ τ : Lowering, τ.Locals M →
        Unfolds M τ e (job.lower e τ) := fun e he M hM τ hτ => by
    obtain ⟨r, hr, her⟩ := hreads he
    exact hunfolds hr her (fun k hk => (hM k hk).resolve_left (by simp)) hτ
  obtain ⟨hlocals, hfirst⟩ := unfolds_bindLocals rfl henter hnodup (by simp) hlower
  have hmem : ∀ k, k ∈ (sharedNodes job.roots).map ordinal ↔
      k ∈ [] ∨ k ∈ (sharedNodes job.roots).map ordinal := by simp
  rw [expandedInTurn_eq hs hknown hnodup (by simp) horder hmem] at hfirst
  rw [List.append_nil] at hlocals
  have hroot {r : Expr} (hr : r ∈ job.roots) (τ : Lowering)
      (hτ : τ.Locals ((sharedNodes job.roots).map ordinal)) :=
    hunfolds hr .refl (fun _ hk => hk) hτ
  have hvalue := hroot (r := job.value) (by simp [roots]) _ hlocals
  have hsecond := hlocals.of_scopes hvalue.scopes
  have houtputs := unfoldsAll_mapM (l := job.outputs) hsecond fun r hr => hroot (by simp [roots, hr])
  have hthird := hsecond.of_scopes houtputs.scopes
  have hitems : ∀ r ∈ job.arrays.flatten, r ∈ job.roots := fun r hr =>
    List.mem_append_right (job.value :: job.outputs) hr
  have harrays := (unfoldsAll_mapM_mapM hthird fun r hr => hroot (hitems r hr)).2
  have hresults (L : List ℕ) : expandedAll L job.roots =
      expanded L job.value ++ (expandedAll L job.outputs ++ expandedAll L job.arrays.flatten) := by
    simp [roots, expandedAll]
  rw [linearize_eq, expandedInBlock, hresults, List.filterMap_append, List.filterMap_append,
    List.filterMap_append, ← hfirst, ← hvalue.operators, ← houtputs.operators, ← harrays]
  show Code.operatorsAll (_ ++ _ :: _ ++ _) = _
  rw [operatorsAll_append, operatorsAll_append, Code.operatorsAll, List.append_assoc, List.append_assoc]
  rfl

end Job

namespace Store.Reachable

variable {s : Store}

/-- **Every shared node is computed once.**  Let no summation and no generator be in the graph below the
results of a job.  Then each operator stands in the locals and results of its statement list as often as
there are nodes of this sort below the results, constants left out. -/
theorem encard_operator (hs : s.Reachable) {job : Job} (hroots : s.Knows job.roots)
    (hplain : ∀ r ∈ job.roots, ∀ a, Expr.Below a r → a.body? = none) (name : String) (pool : Pool)
    (f : Operator) :
    {a : Expr | (∃ r ∈ job.roots, Expr.Below a r) ∧ a.operator? = some f}.encard =
      (job.linearize name pool).1.operators.count f := by
  have hwf := hs.wellFormed
  obtain ⟨N, hN, hshared, hnodup, -⟩ := Expr.exists_survey hwf hroots
  have hbelow (a : Expr) : (∃ r ∈ job.roots, Expr.Below a r) ↔ a ∈ N := by
    rw [hN.mem_iff]
    exact ⟨fun ⟨r, hr, har⟩ => ⟨r, hr, Expr.reads_of_below har (hplain r hr)⟩,
      fun ⟨r, hr, har⟩ => ⟨r, hr, har.toBelow⟩⟩
  have hknown : s.Knows N := fun a ha => by
    obtain ⟨r, hr, har⟩ := (hbelow a).2 ha
    exact har.knows hwf (hroots r hr)
  have hset : {a : Expr | (∃ r ∈ job.roots, Expr.Below a r) ∧ a.operator? = some f}.encard =
      (N.filterMap Expr.operator?).count f := by
    classical
    have hfinset : {a : Expr | (∃ r ∈ job.roots, Expr.Below a r) ∧ a.operator? = some f} =
        ((N.filter fun a => a.operator? == some f).toFinset : Set Expr) := by
      ext a
      simp [hbelow]
    rw [hfinset, Set.encard_coe_eq_coe_finsetCard, List.toFinset_card_of_nodup
      (hN.nodup.of_map.filter _), List.count_filterMap, List.countP_eq_length_filter]
  rw [hset, job.operators_linearize hwf hroots fun r hr a ha => hplain r hr a ha.toBelow,
    Expr.count_filterMap_operator?, Expr.count_filterMap_operator?]
  have hexpanded := hN.mem_of_mem_expandedInBlock fun e he => ((hshared e).1 he).1
  refine congrArg _ (Expr.sum_map_eq hknown (fun e he => hknown e (hexpanded e he)) fun e he hf => ?_)
  have heN : e ∈ N := he.elim id (hexpanded e)
  have hoperator : e.operator? = some f := by
    by_contra hne
    exact hf (if_neg hne)
  have hcomposite := Expr.isComposite_of_operator? hs.formed (hknown e heN) hoperator
  rw [Expr.occurrences_eq_one hwf hroots hN hshared hnodup heN hcomposite]
  exact List.count_eq_one_of_mem hN.nodup (List.mem_map_of_mem heN)

/-- A sum that is the result and an output too is computed once. -/
theorem encard_operator_sum :
    let x : Expr := .node 50 .reals (.symbol "x")
    let y : Expr := .node 51 .reals (.symbol "y")
    let e : Expr := .node 52 .reals (.sum [x, y])
    let job : Job := { value := e, params := [x, y], outputs := [e] }
    let s := finalState ((Operation.sum [x, y]).run 9 (finalState ((Operation.symbol "y" .reals).run 9
      (finalState ((Operation.symbol "x" .reals).run 9 initial)))))
    initial.Reaches s ∧ s.Knows job.roots ∧
      (∀ r ∈ job.roots, ∀ a, Expr.Below a r → a.body? = none) ∧
      {a : Expr | (∃ r ∈ job.roots, Expr.Below a r) ∧ a.operator? = some .sum}.encard =
        (job.linearize "f" {}).1.operators.count .sum ∧
      (job.linearize "f" {}).1.operators = [.sum] := by
  intro x y e job s
  have hs : initial.Reaches s := by
    refine .step _ 9 (.step _ 9 (.step _ 9 .refl trivial) trivial) ?_
    simp only [Operation.KnownBy, knows_cons]
    exact ⟨rfl, rfl, by simp⟩
  have he : s.Knows e := rfl
  have hroots : s.Knows job.roots := by
    simp only [job, Job.roots, List.flatten_nil, List.append_nil, knows_cons]
    exact ⟨he, he, by simp⟩
  have hplain : ∀ r ∈ job.roots, ∀ a, Expr.Below a r → a.body? = none := by
    have hbelow : ∀ a, Expr.Below a e → a.body? = none := by
      have hleaf {b : Expr} (hbody : b.body? = none) (hchildren : b.children = []) :
          ∀ a, Expr.Below a b → a.body? = none :=
        Expr.forall_below_iff.2 ⟨hbody, by simp [hchildren]⟩
      refine Expr.forall_below_iff.2 ⟨rfl, List.forall_mem_cons.2 ⟨hleaf rfl rfl, ?_⟩⟩
      exact List.forall_mem_singleton.2 (hleaf rfl rfl)
    intro r hr
    obtain rfl : r = e := by simpa [job, Job.roots] using hr
    exact hbelow
  exact ⟨hs, hroots, hplain, encard_operator hs.reachable hroots hplain "f" {} .sum, by decide⟩

end Store.Reachable

end TermGraph
