import TermGraph.Proofs.Order.Grading

/-!
# What a text consists of

The text of a formula is a row of terms with signs in front, a term is a row of items with `*` between
them, and an item is an atom or a power.  Atoms are numerals and names, and texts in parentheses with or
without the name of a function in front.

* `Expr.Legible X e`: `e` is a formula over the symbols in `X`, with flat sums and with products that
  lean to the left and have a literal at the front only.
* `Expr.outline e`: the terms that the text of `e` consists of.
* `Expr.Legible.toList_text`: the text is what is written for the outline.
-/

namespace TermGraph

/-! ## Outlines -/

namespace Outline

/-- What needs no parentheses around it. -/
inductive Atom where
  /-- A whole number. -/
  | numeral (n : ℕ)
  /-- The name of a symbol. -/
  | name (letters : List Char)
  /-- A function with its argument in parentheses. -/
  | call (f : Builtin) (body : Expr)
  /-- A text in parentheses. -/
  | group (body : Expr)

/-- A factor of a term. -/
inductive Item where
  /-- An atom. -/
  | atom (a : Atom)
  /-- A power, with a minus sign in front of the exponent or none. -/
  | power (base : Atom) (negative : Bool) (exponent : Atom)

/-- A term of a sum. -/
structure Term where
  /-- Whether there is a minus sign in front of it. -/
  negative : Bool
  /-- The factors. -/
  items : List Item

/-- A minus sign or nothing. -/
def sign (negative : Bool) : List Char :=
  if negative then ['-'] else []

namespace Atom

/-- What is written for an atom. -/
def chars : Atom → List Char
  | .numeral n => Nat.toDigits 10 n
  | .name letters => letters
  | .call f body => f.name.toList ++ '(' :: body.text.toList ++ [')']
  | .group body => '(' :: body.text.toList ++ [')']

end Atom

namespace Item

/-- What is written for an item. -/
def chars : Item → List Char
  | .atom a => a.chars
  | .power base negative exponent => base.chars ++ '^' :: (sign negative ++ exponent.chars)

end Item

/-- Items with `*` between them. -/
def row (items : List Item) : List Char :=
  ['*'].intercalate (items.map Item.chars)

/-- The terms behind the first one. -/
def rest : List Term → List Char
  | [] => []
  | t :: ts => (if t.negative then [' ', '-', ' '] else [' ', '+', ' ']) ++ row t.items ++ rest ts

/-- What is written for some terms. -/
def chars : List Term → List Char
  | [] => []
  | t :: ts => sign t.negative ++ row t.items ++ rest ts

/-- The number that is written for a literal, without its sign.  As a coefficient behind the first term
the literal is negated, and the least one has no opposite among the machine integers. -/
def magnitude (first : Bool) (n : Int64) : ℕ :=
  if first = false ∧ n = Int64.minValue then 9223372036854776000 else n.toInt.natAbs

end Outline

namespace Expr

open Outline

/-- The atom for an expression. -/
def atom (e : Expr) : Atom :=
  match e.kind with
  | .symbol name => .name name.toList
  | .number (.int n) => if n < 0 then .group e else .numeral (magnitude true n)
  | .apply (.node _ _ (.function (.builtin f))) argument =>
    if f.arity = 1 then .call f argument else .group e
  | _ => .group e

/-- The item for a factor. -/
def item (e : Expr) : Item :=
  match e.power? with
  | some (base, exponent) =>
    match exponent.number? with
    | some (.int n) => .power base.atom (n < 0) (.numeral (magnitude true n))
    | _ => .power base.atom false exponent.atom
  | none => .atom e.atom

/-- The term for a summand, in front or further behind. -/
def term (first : Bool) : Expr → Term
  | .node _ _ (.number (.int n)) => ⟨n < 0, [.atom (.numeral (magnitude first n))]⟩
  | .node i d (.apply t a) =>
    if multiplies t a then
      -- The coefficient `-1` is a sign alone.
      if t.number? = some (.int (-1)) then ⟨true, [a.item]⟩
      else ⟨(t.term first).negative, (t.term first).items ++ [a.item]⟩
    else ⟨false, [item (.node i d (.apply t a))]⟩
  | e => ⟨false, [e.item]⟩

/-- The terms that the text of an expression consists of. -/
def outline (e : Expr) : List Term :=
  match e.kind with
  | .sum (first :: others) => first.term true :: others.map (term false)
  | _ => [e.term true]

/-- Formulas over the symbols in `X`: built from them and integer literals by flat sums, with a literal
at the front at most, by products that lean to the left, with a literal other than one at the front at
most, by powers, and by calls of functions of one argument. -/
inductive Legible (X : Expr → Prop) : Expr → Prop
  | symbol {e : Expr} {name : String} : e.kind = .symbol name → X e → Legible X e
  | literal {e : Expr} {n : Int64} : e.kind = .number (.int n) → Legible X e
  | sum {e first : Expr} {others : List Expr} : e.kind = .sum (first :: others) →
    Legible X first → (∀ terms, first.kind ≠ .sum terms) →
    (∀ t ∈ others, Legible X t) → (∀ t ∈ others, ∀ terms, t.kind ≠ .sum terms) →
    (∀ t ∈ others, t.number? = none) → Legible X e
  | product {e t a : Expr} : e.kind = .apply t a → multiplies t a = true → Legible X t →
    t.number? ≠ some (.int 1) → Legible X a → a.isProduct = false → a.number? = none → Legible X e
  | power {e base exponent : Expr} : e.power? = some (base, exponent) → Legible X base →
    Legible X exponent → Legible X e
  | call {e t a : Expr} {f : Builtin} : e.kind = .apply t a → t.kind = .function (.builtin f) →
    f.arity = 1 → Legible X a → Legible X e

/-! ## Texts of factors -/

section Factors

variable {X : Expr → Prop} {e t a b n : Expr}

lemma render_eq_single (h : e.isProduct = false) : e.render = .single e e.text := by
  obtain ⟨i, d, kind⟩ := e
  cases kind with
  | apply t a =>
    have hm : ¬multiplies t a = true := by rw [show multiplies t a = false from h]; simp
    unfold text render
    rw [if_neg hm]
    rfl
  | _ => rfl

lemma render_eq_product (hkind : e.kind = .apply t a) (hm : multiplies t a = true) :
    e.render = .product t.render a.render := by
  obtain ⟨i, d, kind⟩ := e
  obtain rfl : kind = .apply t a := hkind
  conv_lhs => unfold render
  exact if_pos hm

lemma factors_product (l r : Rendering) : (l.product r).factors = l.factors ++ r.factors := by
  unfold Rendering.product
  dsimp only
  split <;> rfl

/-- A factor that is no product and no literal has itself as its only factor. -/
lemma factors_render (h : e.isProduct = false) (hn : e.number? = none) :
    e.render.factors = [⟨none, enclosed e .power e.text⟩] := by
  rw [render_eq_single h, Rendering.single, hn]

lemma toList_intText (n : Int64) :
    (Number.intText n.toInt).toList =
      sign (n < 0) ++ Nat.toDigits 10 (magnitude true n) := by
  have hnegative : n < 0 ↔ n.toInt < 0 := by rw [Int64.lt_iff_toInt_lt, Int64.toInt_zero]
  rw [magnitude, if_neg (by simp)]
  cases h : n.toInt with
  | ofNat k =>
    have hn : ¬n < 0 := by rw [hnegative, h]; simp
    simp [Number.intText, hn, sign]
  | negSucc k =>
    have hn : n < 0 := by rw [hnegative, h]; exact Int.negSucc_lt_zero k
    simp [Number.intText, hn, sign]

lemma text_of_number {m : Number} (h : e.kind = .number m) : e.text = m.text := by
  obtain ⟨i, d, kind⟩ := e
  obtain rfl : kind = .number m := h
  rfl

/-- An integer literal is written with its sign. -/
lemma toList_text_of_number {n : Int64} (h : e.kind = .number (.int n)) :
    e.text.toList = sign (n < 0) ++ Nat.toDigits 10 (magnitude true n) := by
  rw [text_of_number h, Number.text, toList_intText]

lemma text_of_symbol {name : String} (h : e.kind = .symbol name) : e.text = name := by
  obtain ⟨i, d, kind⟩ := e
  obtain rfl : kind = .symbol name := h
  rfl

lemma renderAll_eq_map (es : List Expr) : renderAll es = es.map render := by
  induction es with
  | nil => rfl
  | cons e es ih => rw [renderAll, ih, List.map_cons]

lemma text_of_sum {terms : List Expr} (h : e.kind = .sum terms) :
    e.text = Rendering.sumText (terms.map render) := by
  obtain ⟨i, d, kind⟩ := e
  obtain rfl : kind = .sum terms := h
  rw [← renderAll_eq_map]
  rfl

/-- A call of a function of one argument. -/
lemma text_of_call {f : Builtin} (h : e.kind = .apply t a) (ht : t.kind = .function (.builtin f))
    (ha : ∀ items, a.kind ≠ .tuple items) : e.text = f.name ++ "(" ++ a.text ++ ")" := by
  have hm : ¬multiplies t a = true := by
    rw [not_multiplies_of_function? (by simp [function?, ht])]
    simp
  obtain ⟨i, d, kind⟩ := e
  obtain rfl : kind = .apply t a := h
  obtain ⟨j, d', kind'⟩ := t
  obtain rfl : kind' = .function (.builtin f) := ht
  obtain ⟨k, d'', kind''⟩ := a
  conv_lhs => unfold text render
  rw [if_neg hm]
  cases kind'' with
  | tuple items => exact absurd rfl (ha items)
  | _ => cases f <;> rfl

lemma text_of_power {base exponent : Expr} (h : e.power? = some (base, exponent)) :
    e.text = enclosed base .atom base.text ++ "^" ++
      (if exponent.number?.isSome then exponent.text else enclosed exponent .atom exponent.text) := by
  obtain ⟨t, a, hkind, ht, ha⟩ := power?_eq_some.1 h
  have hm : ¬multiplies t a = true := by
    rw [not_multiplies_of_function? (by simp [function?, ht])]
    simp
  obtain ⟨i, d, kind⟩ := e
  obtain rfl : kind = .apply t a := hkind
  obtain ⟨j, d', kind'⟩ := t
  obtain rfl : kind' = .function (.builtin .pow) := ht
  obtain ⟨k, d'', kind''⟩ := a
  obtain rfl : kind'' = .tuple [base, exponent] := ha
  conv_lhs => unfold text render
  rw [if_neg hm]
  rfl

lemma atom_of_product (h : e.kind = .apply t a) (hm : multiplies t a = true) :
    e.atom = .group e := by
  have hfunction : t.function? = none := by
    simp only [multiplies, Bool.and_eq_true, Option.isNone_iff_eq_none] at hm
    exact hm.1.1
  unfold atom
  rw [h]
  split <;> simp_all [function?, Expr.kind]

lemma atom_of_power (h : e.power? = some (b, n)) : e.atom = .group e := by
  obtain ⟨t, a, hkind, ht, -⟩ := power?_eq_some.1 h
  obtain ⟨j, d, kind⟩ := t
  obtain rfl : kind = .function (.builtin .pow) := ht
  unfold atom
  rw [hkind]
  rfl

lemma atom_of_call {f : Builtin} (h : e.kind = .apply t a) (ht : t.kind = .function (.builtin f))
    (hf : f.arity = 1) : e.atom = .call f a := by
  obtain ⟨j, d, kind⟩ := t
  obtain rfl : kind = .function (.builtin f) := ht
  unfold atom
  rw [h]
  exact if_pos hf

lemma power?_of_call {f : Builtin} (h : e.kind = .apply t a) (ht : t.kind = .function (.builtin f))
    (hf : f.arity = 1) : e.power? = none := by
  refine Option.eq_none_iff_forall_ne_some.2 fun p hp => ?_
  obtain ⟨t', a', hkind, ht', -⟩ := power?_eq_some.1 hp
  rw [h] at hkind
  cases hkind
  rw [ht] at ht'
  cases ht'
  cases hf

lemma strength_of_power (h : e.power? = some (b, n)) : e.strength = .power := by
  obtain ⟨t, a, hkind, -⟩ := power?_eq_some.1 h
  simp [strength, hkind, isProduct_of_power? h, h]

lemma enclosed_eq_text {least : Strength} (h : e.strength = least ∨ e.strength = .atom) :
    enclosed e least e.text = e.text := by
  rw [enclosed, if_neg]
  rcases h with h | h <;> rw [h]
  · omega
  · cases least <;> simp [Strength.rank]

lemma toList_enclosed_eq_group {least : Strength} (h : e.strength.rank < least.rank) :
    (enclosed e least e.text).toList = (Atom.group e).chars := by
  rw [enclosed, if_pos h]
  simp [Atom.chars]

namespace Legible

lemma not_tuple (h : Legible X e) : ∀ items, e.kind ≠ .tuple items := by
  intro items hitems
  cases h with
  | symbol hkind _ | literal hkind | sum hkind _ _ _ _ _ | product hkind _ _ _ _ _ _
  | call hkind _ _ _ => simp [hkind] at hitems
  | power hpower _ _ =>
    obtain ⟨t, a, hkind, -⟩ := power?_eq_some.1 hpower
    simp [hkind] at hitems

lemma exists_literal (h : Legible X e) {m : Number} (hm : e.number? = some m) :
    ∃ k, e.kind = .number (.int k) := by
  cases h with
  | literal hkind => exact ⟨_, hkind⟩
  | symbol hkind _ | sum hkind _ _ _ _ _ | product hkind _ _ _ _ _ _ | call hkind _ _ _ =>
    simp [number?, hkind] at hm
  | power hpower _ _ =>
    obtain ⟨t, a, hkind, -⟩ := power?_eq_some.1 hpower
    simp [number?, hkind] at hm

/-- What binds a product or a power is written in parentheses where an atom is asked for. -/
lemma toList_enclosed_atom (h : Legible X e) :
    (enclosed e .atom e.text).toList = e.atom.chars := by
  cases h with
  | symbol hkind _ =>
    rw [enclosed_eq_text (by simp [strength, hkind]), text_of_symbol hkind]
    simp [atom, hkind, Atom.chars]
  | @literal _ m hkind =>
    have hstrength : e.strength = if m < 0 then .product else .atom := by
      simp [strength, hkind, Number.isNegative]
    by_cases hm : m < 0
    · rw [toList_enclosed_eq_group (by simp [hstrength, hm, Strength.rank])]
      simp [atom, hkind, hm]
    · rw [enclosed_eq_text (by simp [hstrength, hm]), toList_text_of_number hkind]
      simp [atom, hkind, hm, Atom.chars, sign]
  | sum hkind _ _ _ _ _ =>
    rw [toList_enclosed_eq_group (by simp [strength, hkind, Strength.rank])]
    simp [atom, hkind]
  | product hkind hm _ _ _ _ _ =>
    rw [toList_enclosed_eq_group (by simp [strength, hkind, isProduct, hm, Strength.rank]),
      atom_of_product hkind hm]
  | power hpower _ _ =>
    rw [toList_enclosed_eq_group (by simp [strength_of_power hpower, Strength.rank]),
      atom_of_power hpower]
  | call hkind ht hf ha =>
    have hproduct : e.isProduct = false := by
      rw [isProduct_of_kind hkind, not_multiplies_of_function? (by simp [function?, ht])]
    rw [enclosed_eq_text (by simp [strength, hkind, hproduct, power?_of_call hkind ht hf]),
      text_of_call hkind ht ha.not_tuple, atom_of_call hkind ht hf]
    simp [Atom.chars]

/-- Only sums are written in parentheses where a factor is asked for. -/
lemma toList_enclosed_power (h : Legible X e) (hproduct : e.isProduct = false)
    (hnumber : e.number? = none) : (enclosed e .power e.text).toList = e.item.chars := by
  have hatom (hpower : e.power? = none) : e.item.chars = (enclosed e .atom e.text).toList := by
    rw [h.toList_enclosed_atom, item, hpower]
    rfl
  cases h with
  | symbol hkind _ =>
    rw [hatom (by simp [power?, hkind]), enclosed_eq_text (by simp [strength, hkind]),
      enclosed_eq_text (by simp [strength, hkind])]
  | literal hkind => simp [number?, hkind] at hnumber
  | sum hkind _ _ _ _ _ =>
    rw [hatom (by simp [power?, hkind]),
      toList_enclosed_eq_group (by simp [strength, hkind, Strength.rank]),
      toList_enclosed_eq_group (by simp [strength, hkind, Strength.rank])]
  | product hkind hm _ _ _ _ _ => simp [isProduct, hkind, hm] at hproduct
  | call hkind ht hf _ =>
    have hpower := power?_of_call hkind ht hf
    have hstrength : e.strength = .atom := by simp [strength, hkind, hproduct, hpower]
    rw [hatom hpower, enclosed_eq_text (by simp [hstrength]), enclosed_eq_text (by simp [hstrength])]
  | power hpower hb hn =>
    rw [enclosed_eq_text (by simp [strength_of_power hpower]), text_of_power hpower, item, hpower]
    simp only [String.toList_append, hb.toList_enclosed_atom]
    cases hnumber' : Expr.number? _ with
    | none => simp [hn.toList_enclosed_atom, Item.chars, sign]
    | some m =>
      obtain ⟨k, hkind⟩ := hn.exists_literal hnumber'
      have hm : m = .int k := by simpa [number?, hkind] using hnumber'.symm
      simp [hm, toList_text_of_number hkind, Item.chars, Atom.chars]

end Legible

/-! ## Texts of products -/

/-- What is written for a coefficient, without its sign: nothing for the coefficient `-1`. -/
def coefficientChars (first : Bool) : Option Int64 → List (List Char)
  | none => []
  | some m => if m = -1 then [] else [Nat.toDigits 10 (magnitude first m)]

/-- The product `e` has the coefficient `c` and the other factors `fs`. -/
structure Spelled (e : Expr) (c : Option Int64) (fs : List Factor) : Prop where
  /-- The factors are those. -/
  factors : ∃ written, e.render.factors = (c.map fun m => ⟨some (.int m), written⟩).toList ++ fs
  /-- There is no other literal. -/
  plain : ∀ f ∈ fs, f.literal = none
  /-- There are other factors. -/
  ne_nil : fs ≠ []
  /-- One is no coefficient. -/
  ne_one : c ≠ some 1
  /-- The sign of the term is that of the coefficient. -/
  negative : ∀ first, (e.term first).negative = c.any (· < 0)
  /-- The items of the term are written for coefficient and factors. -/
  items : ∀ first, (e.term first).items.map Item.chars =
    coefficientChars first c ++ fs.map fun f => f.text.toList

lemma term_of_product (hkind : e.kind = .apply t a) (hm : multiplies t a = true) (first : Bool) :
    e.term first = if t.number? = some (.int (-1)) then ⟨true, [a.item]⟩
      else ⟨(t.term first).negative, (t.term first).items ++ [a.item]⟩ := by
  obtain ⟨i, d, kind⟩ := e
  obtain rfl : kind = .apply t a := hkind
  rw [term, if_pos hm]

lemma term_of_number {m : Int64} (hkind : e.kind = .number (.int m)) (first : Bool) :
    e.term first = ⟨m < 0, [.atom (.numeral (magnitude first m))]⟩ := by
  obtain ⟨i, d, kind⟩ := e
  obtain rfl : kind = .number (.int m) := hkind
  rw [term]

lemma term_eq_item (hnumber : e.number? = none) (hproduct : e.isProduct = false) (first : Bool) :
    e.term first = ⟨false, [e.item]⟩ := by
  obtain ⟨i, d, kind⟩ := e
  cases kind with
  | number n => simp [number?, Expr.kind] at hnumber
  | apply t a =>
    have hm : ¬multiplies t a = true := by rw [show multiplies t a = false from hproduct]; simp
    rw [term, if_neg hm]
  | _ => rw [term]; all_goals simp

lemma Legible.spelled (h : Legible X e) (hproduct : e.isProduct = true) :
    ∃ c fs, Spelled e c fs := by
  induction h with
  | symbol hkind _ | literal hkind | sum hkind _ _ _ _ _ => simp [isProduct, hkind] at hproduct
  | power hpower _ _ => simp [isProduct_of_power? hpower] at hproduct
  | call hkind ht _ _ =>
    simp [isProduct, hkind, multiplies, function?, ht] at hproduct
  | @product e t a hkind hm ht hone ha haproduct hanumber iht _ =>
    have hrender : e.render.factors = t.render.factors ++
        [⟨none, enclosed a .power a.text⟩] := by
      rw [render_eq_product hkind hm, ← factors_render haproduct hanumber, factors_product]
    have hitem := ha.toList_enclosed_power haproduct hanumber
    cases htnumber : t.number? with
    | some m =>
      -- The literal is the coefficient.
      obtain ⟨k, htkind⟩ := ht.exists_literal htnumber
      have htfactors : t.render.factors = [⟨some (.int k), enclosed t .power t.text⟩] := by
        rw [render_eq_single (by simp [isProduct, htkind]), Rendering.single, number?, htkind]
      refine ⟨some k, [⟨none, enclosed a .power a.text⟩], ⟨enclosed t .power t.text, ?_⟩, by simp,
        by simp, ?_, ?_, ?_⟩
      · rw [hrender, htfactors]
        rfl
      · rintro ⟨⟩
        exact hone (by simp [number?, htkind])
      · intro first
        rw [term_of_product hkind hm, number?, htkind]
        by_cases hk : k = -1
        · subst hk
          rfl
        · simp [hk, term_of_number htkind]
      · intro first
        rw [term_of_product hkind hm, number?, htkind]
        by_cases hk : k = -1
        · simp [hk, coefficientChars, hitem]
        · simp [hk, coefficientChars, term_of_number htkind, hitem, Item.chars, Atom.chars]
    | none =>
      cases htproduct : t.isProduct with
      | true =>
        obtain ⟨c, fs, hspelled⟩ := iht htproduct
        obtain ⟨written, hfactors⟩ := hspelled.factors
        refine ⟨c, fs ++ [⟨none, enclosed a .power a.text⟩], ⟨written, ?_⟩,
          List.forall_mem_append.2 ⟨hspelled.plain, by simp⟩, by simp, hspelled.ne_one, ?_, ?_⟩
        · rw [hrender, hfactors, List.append_assoc]
        · intro first
          rw [term_of_product hkind hm, htnumber, if_neg (by simp)]
          exact hspelled.negative first
        · intro first
          rw [term_of_product hkind hm, htnumber, if_neg (by simp)]
          simp [hspelled.items, hitem]
      | false =>
        have hitem' := ht.toList_enclosed_power htproduct htnumber
        refine ⟨none, [⟨none, enclosed t .power t.text⟩, ⟨none, enclosed a .power a.text⟩],
          ⟨"", ?_⟩, by simp, by simp, by simp, ?_, ?_⟩
        · rw [hrender, factors_render htproduct htnumber]
          rfl
        · intro first
          rw [term_of_product hkind hm, htnumber, if_neg (by simp),
            term_eq_item htnumber htproduct]
          rfl
        · intro first
          rw [term_of_product hkind hm, htnumber, if_neg (by simp),
            term_eq_item htnumber htproduct]
          simp [coefficientChars, hitem, hitem']

lemma intercalate_append_cons {α : Type} (sep u v : List α) (l : List (List α)) :
    sep.intercalate ((u ++ v) :: l) = u ++ sep.intercalate (v :: l) := by
  cases l <;> simp [List.intercalate_cons_cons]

/-- A coefficient is written in front of the other factors, `-1` as a sign alone. -/
lemma toList_productText {c : Option Int64} (fs : List Factor) (hone : c ≠ some 1) :
    (productText (c.map .int) fs).toList = sign (c.any (· < 0)) ++
      ['*'].intercalate (coefficientChars true c ++ fs.map fun f => f.text.toList) := by
  cases c with
  | none => simp [productText, sign, coefficientChars, Function.comp_def]
  | some m =>
    have hm : m ≠ 1 := fun h => hone (by rw [h])
    by_cases hminus : m = -1
    · subst hminus
      simp [productText, sign, coefficientChars, Function.comp_def]
    · have hleast : Number.int m ≠ .int (-1) := by simpa using hminus
      simp [productText, hleast, Number.isOne, hm, coefficientChars, hminus, Number.text,
        toList_intText, intercalate_append_cons, Function.comp_def]

/-- Negative integers but the least one have an opposite. -/
lemma exists_neg {m : Int64} (hm : m < 0) (hleast : m ≠ Int64.minValue) :
    ∃ k, (Number.int m).neg = .int k ∧ k.toInt = -m.toInt := by
  have hlow := m.minValue_le_toInt
  have hne : m.toInt ≠ Int64.minValue.toInt := fun heq => hleast (Int64.toInt_inj.1 heq)
  have hmin : Int64.minValue.toInt = -2 ^ 63 := Int64.toInt_minValue
  have hmax : Int64.maxValue.toInt = 2 ^ 63 - 1 := Int64.toInt_maxValue
  rw [Int64.lt_iff_toInt_lt, Int64.toInt_zero] at hm
  refine ⟨Int64.ofInt (-m.toInt), ?_, Int64.toInt_ofInt_of_le (by omega) (by omega)⟩
  rw [Number.neg, Number.word?, if_pos ⟨by omega, by omega⟩]

/-- Behind the first term the sign of a negative coefficient is written before the product, which has
the opposite coefficient. -/
lemma toList_productText_neg {m : Int64} (fs : List Factor) (hm : m < 0) :
    (productText (some (Number.int m).neg) fs).toList =
      ['*'].intercalate (coefficientChars false (some m) ++ fs.map fun f => f.text.toList) := by
  by_cases hminus : m = -1
  · subst hminus
    have hneg : (Number.int (-1)).neg = .int 1 := by decide
    simp [productText, hneg, Number.isOne, coefficientChars, Function.comp_def]
  have hone : (Number.int m).neg.isOne = false ∧ (Number.int m).neg ≠ .int (-1) ∧
      (Number.int m).neg.text.toList = Nat.toDigits 10 (magnitude false m) := by
    by_cases hleast : m = Int64.minValue
    · subst hleast
      exact ⟨by decide +kernel, by decide +kernel, by decide +kernel⟩
    · obtain ⟨k, hneg, hk⟩ := exists_neg hm hleast
      have hone : (1 : Int64).toInt = 1 := by decide
      have hopp : (-1 : Int64).toInt = -1 := by decide
      have hne : m.toInt ≠ -1 := fun heq => hminus (Int64.toInt_inj.1 (heq.trans hopp.symm))
      rw [Int64.lt_iff_toInt_lt, Int64.toInt_zero] at hm
      have hpositive : ¬k < 0 := by
        rw [Int64.lt_iff_toInt_lt, Int64.toInt_zero]
        omega
      rw [hneg]
      refine ⟨?_, ?_, ?_⟩
      · simp only [Number.isOne, beq_eq_false_iff_ne, ne_eq, ← Int64.toInt_inj, hone]
        omega
      · simp only [ne_eq, Number.int.injEq, ← Int64.toInt_inj, hopp]
        omega
      · rw [Number.text, toList_intText]
        simp [hpositive, sign, magnitude, hleast, hk]
  obtain ⟨hone, hleast, htext⟩ := hone
  simp [productText, hleast, hone, coefficientChars, hminus, htext, Function.comp_def]

/-! ## Texts of terms and sums -/

/-- The rendering of a product with a coefficient, or without. -/
lemma Spelled.render_eq {c : Option Int64} {fs : List Factor} (h : Spelled e c fs)
    (hproduct : e.isProduct = true) : ∃ written, e.render =
      ⟨productText (c.map .int) fs, true, (c.map fun m => ⟨some (.int m), written⟩).toList ++ fs⟩ := by
  obtain ⟨written, hfactors⟩ := h.factors
  refine ⟨written, ?_⟩
  obtain ⟨i, d, kind⟩ := e
  cases kind with
  | apply t a =>
    rw [render_eq_product rfl hproduct] at hfactors ⊢
    rw [factors_product] at hfactors
    rw [Rendering.product, hfactors]
    cases c with
    | some m => rfl
    | none =>
      obtain ⟨⟨literal, written'⟩, fs, rfl⟩ := List.exists_cons_of_ne_nil h.ne_nil
      obtain rfl : literal = none := h.plain ⟨literal, written'⟩ (by simp)
      rfl
  | _ => cases hproduct

namespace Legible

lemma enclosed_power_eq_text (h : Legible X e) (hsum : ∀ terms, e.kind ≠ .sum terms)
    (hproduct : e.isProduct = false) (hnumber : e.number? = none) :
    enclosed e .power e.text = e.text := by
  refine enclosed_eq_text ?_
  cases h with
  | symbol hkind _ => simp [strength, hkind]
  | literal hkind => simp [number?, hkind] at hnumber
  | sum hkind _ _ _ _ _ => exact absurd hkind (hsum _)
  | product hkind hm _ _ _ _ _ => simp [isProduct, hkind, hm] at hproduct
  | power hpower _ _ => exact .inl (strength_of_power hpower)
  | call hkind ht hf _ => simp [strength, hkind, hproduct, power?_of_call hkind ht hf]

/-- What is written for a term at the front, and on its own. -/
lemma toList_text_of_term (h : Legible X e) (hsum : ∀ terms, e.kind ≠ .sum terms) :
    e.render.termText true = e.text ∧
      e.text.toList = sign (e.term true).negative ++ row (e.term true).items := by
  cases hproduct : e.isProduct with
  | true =>
    obtain ⟨c, fs, hspelled⟩ := h.spelled hproduct
    obtain ⟨written, hrender⟩ := hspelled.render_eq hproduct
    refine ⟨?_, ?_⟩
    · rw [text, hrender, Rendering.termText]
      cases c with
      | some m => simp
      | none =>
        obtain ⟨⟨literal, written'⟩, fs, rfl⟩ := List.exists_cons_of_ne_nil hspelled.ne_nil
        obtain rfl : literal = none := hspelled.plain ⟨literal, written'⟩ (by simp)
        simp
    · rw [text, hrender, toList_productText fs hspelled.ne_one, hspelled.negative, row, hspelled.items]
  | false =>
    cases hnumber : e.number? with
    | some m =>
      obtain ⟨k, hkind⟩ := h.exists_literal hnumber
      refine ⟨?_, ?_⟩
      · rw [render_eq_single hproduct, Rendering.single, Rendering.termText, number?, hkind]
        simp [text_of_number hkind]
      · rw [toList_text_of_number hkind, term_of_number hkind]
        simp [row, Item.chars, Atom.chars]
    | none =>
      refine ⟨?_, ?_⟩
      · rw [render_eq_single hproduct, Rendering.single, Rendering.termText, hnumber]
        simp [productText, h.enclosed_power_eq_text hsum hproduct hnumber]
      · rw [term_eq_item hnumber hproduct, ← h.enclosed_power_eq_text hsum hproduct hnumber,
          h.toList_enclosed_power hproduct hnumber]
        simp [row, sign]

/-- What is written for a term further behind. -/
lemma toList_termText_false (h : Legible X e) (hnumber : e.number? = none) : (e.render.termText false).toList =
      (if (e.term false).negative then [' ', '-', ' '] else [' ', '+', ' ']) ++
        row (e.term false).items := by
  cases hproduct : e.isProduct with
  | true =>
    obtain ⟨c, fs, hspelled⟩ := h.spelled hproduct
    obtain ⟨written, hrender⟩ := hspelled.render_eq hproduct
    rw [hrender, Rendering.termText, hspelled.negative, row, hspelled.items]
    cases c with
    | some m =>
      by_cases hm : m < 0
      · simp [Number.isNegative, hm, toList_productText_neg fs hm]
      · have hchars := toList_productText fs hspelled.ne_one
        have hleast : m ≠ Int64.minValue := by
          rintro rfl
          exact hm (by decide)
        simp [hm, sign, coefficientChars, magnitude] at hchars
        simp [Number.isNegative, hm, hchars, coefficientChars, magnitude, hleast]
    | none =>
      have hchars := toList_productText fs hspelled.ne_one
      obtain ⟨⟨literal, written'⟩, fs, rfl⟩ := List.exists_cons_of_ne_nil hspelled.ne_nil
      obtain rfl : literal = none := hspelled.plain ⟨literal, written'⟩ (by simp)
      simpa [sign, coefficientChars] using hchars
  | false =>
    rw [render_eq_single hproduct, Rendering.single, Rendering.termText, hnumber,
      term_eq_item hnumber hproduct]
    simp [productText, h.toList_enclosed_power hproduct hnumber, row]

lemma toList_join_termText {es : List Expr} (h : ∀ e ∈ es, Legible X e ∧ e.number? = none) :
    (String.join (es.map fun e => e.render.termText false)).toList = rest (es.map (term false)) := by
  induction es with
  | nil => rfl
  | cons e es ih =>
    rw [List.forall_mem_cons] at h
    have htail := ih h.2
    rw [String.toList_join] at htail ⊢
    rw [List.map_cons, List.flatMap_cons, htail, h.1.1.toList_termText_false h.1.2, List.map_cons,
      rest]

/-- A text is what is written for the terms that it consists of. -/
lemma toList_text (h : Legible X e) : e.text.toList = chars e.outline := by
  by_cases hsum : ∀ terms, e.kind ≠ .sum terms
  · have houtline : e.outline = [e.term true] := by
      unfold outline
      split
      · exact absurd ‹_› (hsum _)
      · rfl
    rw [houtline, chars, rest, List.append_nil]
    exact (h.toList_text_of_term hsum).2
  · cases h with
    | @sum _ first others hkind hfirst hfirst' hothers hothers' hliterals =>
      obtain ⟨hterm, htext⟩ := hfirst.toList_text_of_term hfirst'
      rw [text_of_sum hkind, outline, hkind, List.map_cons, Rendering.sumText, String.toList_append,
        hterm, htext, List.map_map]
      exact congrArg _ (toList_join_termText fun t ht => ⟨hothers t ht, hliterals t ht⟩)
    | symbol hkind _ | literal hkind | product hkind _ _ _ _ _ _ | call hkind _ _ _ =>
      exact absurd (fun terms => by simp [hkind]) hsum
    | power hpower _ _ =>
      obtain ⟨t, a, hkind, -⟩ := power?_eq_some.1 hpower
      exact absurd (fun terms => by simp [hkind]) hsum

end Legible

end Factors

end Expr

end TermGraph
