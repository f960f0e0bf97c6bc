import TermGraph.Proofs.Meaning.Folding

/-!
# The value of normal forms

Normalization visits the operands of scalars too: symbols that summations bind, the power function,
and pairs of base and exponent.

* `Operand F e`: `e` is a scalar or such an operand of one.
* `Simplifies F I a e`: `e` is as good as `a`, which for scalars means that it has the value of `a`.
* `ensures_rebuild`: nodes over simplified children are simplified.
* `reduces_reduceNode`: one step simplifies a node.
* `simplifies_normalizeAux`: normalization simplifies, by induction on the depth.
* `value_normalizeWith`: normal forms have the value of what they are normal forms of.
-/

namespace TermGraph

open Store (Knows faithfulStores faithfulStores_le)

namespace Expr

variable {A : Type} [CommRing A] {F : Builtin → Prop} {I : Reading A} {s : Store} {m : Memo} {d : ℕ}
  {e a b n : Expr} {v w : Valuation A → A}

/-! ## Simplified operands -/

/-- The scalars and their operands. -/
inductive Operand (F : Builtin → Prop) : Expr → Prop
  | scalar {e : Expr} : e.IsScalar F → Operand F e
  | symbol {e : Expr} : e.isSymbol = true → Operand F e
  | function {e : Expr} {f : Function} : e.kind = .function f → Operand F e
  | pair {e b n : Expr} {k : ℕ} : e.kind = .tuple [b, n] → b.IsScalar F → IsLiteral k n → Operand F e

/-- `e` is as good as `a`: a scalar keeps its value, and symbols stay as they are. -/
structure Simplifies (F : Builtin → Prop) (I : Reading A) (a e : Expr) : Prop
    extends Image F I id a e where
  /-- A symbol stays as it is. -/
  symbol : a.isSymbol = true → e = a

namespace Simplifies

lemma refl (F : Builtin → Prop) (I : Reading A) (e : Expr) : Simplifies F I e e where
  scalar h := Meaning.denotes_value (M := meaning F I) h
  literal _ := rfl
  function _ := rfl
  pair hkind hb _ := ⟨_, hkind, Meaning.denotes_value (M := meaning F I) hb⟩
  symbol _ := rfl

lemma trans (h : Simplifies F I a b) (h' : Simplifies F I b e) : Simplifies F I a e where
  scalar ha := by
    obtain ⟨hb, hvalue⟩ := h.scalar ha
    obtain ⟨he, hvalue'⟩ := h'.scalar hb
    exact ⟨he, hvalue'.trans hvalue⟩
  literal ha := by
    obtain rfl := h.literal ha
    exact h'.literal ha
  function ha := by
    obtain rfl := h.function ha
    exact h'.function ha
  pair hkind hscalar hn := by
    obtain ⟨c, hkind', hc, hvalue⟩ := h.pair hkind hscalar hn
    obtain ⟨c', hkind'', hc', hvalue'⟩ := h'.pair hkind' hc hn
    exact ⟨c', hkind'', hc', hvalue'.trans hvalue⟩
  symbol ha := by
    obtain rfl := h.symbol ha
    exact h'.symbol ha

lemma of_image (h : Image F I id a e) (ha : a.isSymbol = false) : Simplifies F I a e :=
  ⟨h, by simp [ha]⟩

/-- Of scalars that are no literals and no symbols, only the values matter. -/
lemma of_hasValue (h : HasValue F I (fun ρ => a.value I ρ) e) (ha : a.IsScalar F)
    (hnumber : a.number? = none) (hsymbol : a.isSymbol = false) : Simplifies F I a e :=
  of_image (.of_scalar h ha hnumber) hsymbol

end Simplifies

namespace Operand

/-- What an operand is simplified to is an operand. -/
lemma simplified (h : Operand F a) (h' : Simplifies F I a e) : Operand F e := by
  cases h with
  | scalar ha => exact .scalar (h'.scalar ha).scalar
  | symbol ha => exact h'.symbol ha ▸ .symbol ha
  | function ha => exact h'.function (by simp [function?, ha]) ▸ .function ha
  | pair hkind hb hn =>
    obtain ⟨c, hkind', hc⟩ := h'.pair hkind hb hn
    exact .pair hkind' hc.scalar hn

lemma children (h : Operand F e) : ∀ c ∈ e.children, Operand F c := by
  have hleaf {e : Expr} (h : e.children = []) : ∀ c ∈ e.children, Operand F c := by simp [h]
  cases h with
  | scalar he =>
    cases he with
    | symbol hkind _ => exact hleaf (by simp [Expr.children, hkind, Kind.children])
    | literal hliteral =>
      obtain ⟨k, hkind, -⟩ := hliteral.kind
      exact hleaf (by simp [Expr.children, hkind, Kind.children])
    | sum hkind _ hterms =>
      rw [Expr.children, hkind, Kind.children]
      exact fun c hc => .scalar (hterms c hc)
    | product hkind _ ht ha =>
      rw [Expr.children, hkind, Kind.children]
      simpa using ⟨.scalar ht, .scalar ha⟩
    | power hpower _ hb _ hn =>
      obtain ⟨t, a, hkind, ht, ha⟩ := power?_eq_some.1 hpower
      rw [Expr.children, hkind, Kind.children]
      simpa using ⟨.function ht, .pair ha hb hn⟩
    | call hkind _ ht _ _ ha =>
      rw [Expr.children, hkind, Kind.children]
      simpa using ⟨.function ht, .scalar ha⟩
    | indexedSum hkind _ hindex hl hu hb =>
      rw [Expr.children, hkind, Kind.children]
      simpa using ⟨.symbol hindex, .scalar hl, .scalar hu, .scalar hb⟩
  | symbol he =>
    obtain ⟨name, hkind⟩ := exists_symbol he
    exact hleaf (by simp [Expr.children, hkind, Kind.children])
  | function hkind => exact hleaf (by simp [Expr.children, hkind, Kind.children])
  | pair hkind hb hn =>
    rw [Expr.children, hkind, Kind.children]
    simpa using ⟨.scalar hb, .scalar (.literal hn)⟩

end Operand

/-! ## Rebuilding -/

section Rebuilding

/-- A leaf stays as it is. -/
lemma ensures_rebuild_nil (hd : 0 < d) :
    Ensures faithfulStores d s (rebuild e []) fun e' _ => e' = e := by
  obtain ⟨depth, rfl⟩ : ∃ n, d = n + 1 := ⟨d - 1, by omega⟩
  unfold rebuild
  refine .read ?_
  rw [rebuildAux]
  exact .pure rfl

/-- Nodes over simplified children are simplified. -/
lemma ensures_rebuild (hd : 0 < d) (hs : Good s) (he : s.Knows e) (hop : Operand F e)
    {news : List Expr} (hknown : s.Knows news)
    (h : List.Forall₂ (Simplifies F I) e.children news) :
    Ensures faithfulStores d s (rebuild e news) fun e' _ => Simplifies F I e e' := by
  have hcomposes : Composes F I d rebuild := composes_rebuild hd
  have hleaf (hnil : e.children = []) :
      Ensures faithfulStores d s (rebuild e news) fun e' _ => Simplifies F I e e' := by
    rw [hnil, List.forall₂_nil_left_iff] at h
    subst h
    exact (ensures_rebuild_nil hd).imp fun e' _ _ _ he' => he' ▸ .refl F I e
  have himages (hsymbol : e.isSymbol = false)
      (himage : Ensures faithfulStores d s (rebuild e news) fun e' _ => Image F I id e e') :
      Ensures faithfulStores d s (rebuild e news) fun e' _ => Simplifies F I e e' :=
    himage.imp fun _ _ _ _ h => .of_image h hsymbol
  -- An operand of each kind is rebuilt over operands that have the values of its children.
  cases hop with
  | symbol hsymbol =>
    obtain ⟨name, hkind⟩ := exists_symbol hsymbol
    exact hleaf (by simp [children, hkind, Kind.children])
  | function hkind => exact hleaf (by simp [children, hkind, Kind.children])
  | pair hkind hb hn =>
    rw [children, hkind, Kind.children] at h
    simp only [List.forall₂_cons_left_iff, List.forall₂_nil_left_iff] at h
    obtain ⟨b', _, hb', ⟨n', _, hn', rfl, rfl⟩, rfl⟩ := h
    simp only [Store.knows_cons] at hknown
    exact himages (by simp [isSymbol, hkind]) (hcomposes.image_pair hs he hknown.1 hknown.2.1 hkind
      hb hn hb'.toImage hn'.toImage)
  | scalar hscalar =>
    cases hscalar with
    | symbol hkind _ => exact hleaf (by simp [children, hkind, Kind.children])
    | literal hliteral =>
      obtain ⟨k, hkind, -⟩ := hliteral.kind
      exact hleaf (by simp [children, hkind, Kind.children])
    | sum hkind hreal hterms =>
      rw [children, hkind, Kind.children] at h
      exact himages (by simp [isSymbol, hkind]) (hcomposes.image_sum hs he hknown hkind hreal hterms
        (h.imp fun _ _ h => h.toImage))
    | product hkind hreal ht ha =>
      rw [children, hkind, Kind.children] at h
      simp only [List.forall₂_cons_left_iff, List.forall₂_nil_left_iff] at h
      obtain ⟨t', _, ht', ⟨a', _, ha', rfl, rfl⟩, rfl⟩ := h
      simp only [Store.knows_cons] at hknown
      exact himages (by simp [isSymbol, hkind]) (hcomposes.image_product hs he hknown.1 hknown.2.1
        hkind hreal ht ha ht'.toImage ha'.toImage)
    | power hpower hreal hb hk hn =>
      obtain ⟨t, a, hkind, ht, ha⟩ := power?_eq_some.1 hpower
      rw [children, hkind, Kind.children] at h
      simp only [List.forall₂_cons_left_iff, List.forall₂_nil_left_iff] at h
      obtain ⟨t', _, ht', ⟨a', _, ha', rfl, rfl⟩, rfl⟩ := h
      simp only [Store.knows_cons] at hknown
      exact himages (by simp [isSymbol, hkind]) (hcomposes.image_power hs he hknown.2.1 hkind ht ha
        hreal hb hk hn ht'.toImage ha'.toImage)
    | call hkind hreal ht hf hF ha =>
      rw [children, hkind, Kind.children] at h
      simp only [List.forall₂_cons_left_iff, List.forall₂_nil_left_iff] at h
      obtain ⟨t', _, ht', ⟨a', _, ha', rfl, rfl⟩, rfl⟩ := h
      simp only [Store.knows_cons] at hknown
      exact himages (by simp [isSymbol, hkind]) (hcomposes.image_call hs he hknown.2.1 hkind hreal ht
        hf hF ha ht'.toImage ha'.toImage)
    | indexedSum hkind hreal hindex hl hu hb =>
      rw [children, hkind, Kind.children] at h
      simp only [List.forall₂_cons_left_iff, List.forall₂_nil_left_iff] at h
      obtain ⟨i', _, hi', ⟨l', _, hl', ⟨u', _, hu', ⟨b', _, hb', rfl, rfl⟩, rfl⟩, rfl⟩, rfl⟩ := h
      obtain rfl := hi'.symbol hindex
      simp only [Store.knows_cons] at hknown
      exact himages (by simp [isSymbol, hkind]) (hcomposes.image_indexedSum hs he hknown.2.1
        hknown.2.2.1 hknown.2.2.2.1 hkind (.indexedSum hkind hreal hindex hl hu hb) hl'.toImage
        hu'.toImage (hb'.scalar hb) fun _ _ => rfl)

end Rebuilding

/-! ## Powers -/

section Powers

/-- A product of integer literals is the literal of their product. -/
lemma delivers_product_literals (hs : Good s) (hd : 0 < d) {j k : ℤ} (ha : IsLiteral j a)
    (hb : IsLiteral k b) (hknown : s.Knows a) (hknown' : s.Knows b) :
    Delivers faithfulStores d s (product [a, b]) fun e _ => IsLiteral (j * k) e := by
  have hmonomials : List.Forall₂ (fun p e => IsMonomial p.1 p.2 e) [(j, 0), (k, 0)] [a, b] :=
    .cons (.literal (.inr rfl) ha) (.cons (.literal (.inr rfl) hb) .nil)
  refine ((achieves_product hs hd hmonomials (by simpa using ⟨hknown, hknown'⟩)).delivers
    faithfulStores_le).imp fun e _ he => ?_
  cases he with
  | literal _ he => simpa using he
  | chain _ hne _ _ _ => simp at hne

/-- The power of a product is the product of the powers, and the power of a power has the product
of the exponents. -/
lemma delivers_reducePower (hs : Good s) (hd : 0 < d) {k : ℕ} (hb : b.IsScalar F)
    (hn : IsLiteral k n) (hknown : s.Knows b) (hknown' : s.Knows n) :
    Delivers faithfulStores d s (reducePower b n) fun next _ =>
      ∀ e' ∈ next, HasValue F I ((fun ρ => b.value I ρ) ^ k) e' where
  yields := yields_reducePower hs hknown hknown' d
  ensures := by
    obtain ⟨hfactors, hprod⟩ := Meaning.factors_spec (M := meaning F I) hb
    have hknown'' := knows_factors (good_store.1 hs) hknown
    unfold reducePower
    refine .ite (fun _ => ?_) fun _ => ?_
    · refine ((Achieves.mapM hs _ fun f hf t ht hle => Meaning.achieves_power (M := meaning F I) ht
        (Meaning.denotes_value (hfactors f hf)) hn ((hknown'' f hf).mono hle)
        (hknown'.mono hle)).delivers faithfulStores_le).bind fun raised t ht _ hraised _ hpowers => ?_
      rw [Run.map_eq_bind]
      refine (delivers_product ht hd (List.forall₂_map_left_iff.2 hpowers) hraised).bind
        fun e u _ _ _ _ he => .pure ?_
      have hpow : (b.factors.map fun f => (meaning F I).value f ^ k).prod = (meaning F I).value b ^ k := by
        rw [← hprod, ← powMonoidHom_apply, map_list_prod, List.map_map]
        rfl
      rw [hpow] at he
      rintro _ ⟨⟩
      exact he
    · split
      · rename_i b' n' hpower
        obtain ⟨hb', j, -, hn'⟩ := (IsScalar.power_iff hpower hb.real).1 hb
        obtain ⟨hknownb, hknownn⟩ := knows_power? (good_store.1 hs) hknown hpower
        refine (delivers_product_literals hs hd hn' hn hknownn hknown').bind
          fun e t ht hle hknowne _ he => ?_
        rw [← Nat.cast_mul] at he
        rw [Run.map_eq_bind]
        refine ((Meaning.achieves_power (M := meaning F I) (d := d) ht (Meaning.denotes_value hb') he
          (hknownb.mono hle) hknowne).delivers faithfulStores_le).bind fun e' u _ _ _ _ he' => .pure ?_
        rw [pow_mul, ← (meaning F I).value_power hpower hn'] at he'
        rintro _ ⟨⟩
        exact he'
      · exact .pure (by simp)

end Powers

/-! ## Summations -/

section Summations

/-- The symbol of an index is clear of literals. -/
lemma Clear.of_literal {x r : Expr} {k : ℤ} (hr : IsLiteral k r) : Clear x r e := by
  intro a _ y _ _ hfree
  obtain ⟨m, hkind, -⟩ := hr.kind
  cases hfree with
  | self hsymbol _ => simp [isSymbol, hkind] at hsymbol
  | operand hc _ => simp [operands, hkind] at hc
  | body hb _ _ => simp [body?, hkind] at hb

/-- The bodies of a summation at the integers from `first` on. -/
lemma delivers_unrolled (hs : Good s) (hd : 0 < d) {index body : Expr} (hindex : s.Knows index)
    (hsymbol : index.isSymbol = true) (hb : body.IsScalar F) (hknown : s.Knows body) (count : ℕ)
    {first : ℤ} (hmin : Int64.minValue.toInt ≤ first) (hmax : first + count ≤ 2 ^ 63) :
    Delivers faithfulStores d s (unrolled index body first count) fun terms _ =>
      List.Forall₂ (HasValue F I) ((List.range count).map fun (j : ℕ) ρ =>
        body.value I (Function.update ρ index.ordinal ((first + j : ℤ) : A))) terms where
  yields := yields_unrolled hs hindex hknown first count d
  ensures := by
    induction count generalizing s first with
    | zero =>
      unfold unrolled
      exact .pure .nil
    | succ count ih =>
      push_cast at hmax
      unfold unrolled
      refine (delivers_int hs _).bind fun k t ht hle hk _ hliteral => ?_
      rw [Int64.toInt_ofInt_of_le hmin (by omega)] at hliteral
      refine (Delivers.mk (yields_substitute t _ body ht (by simpa using ⟨hindex.mono hle, hk⟩)
        (hknown.mono hle) d) (substitutesSymbol_substitute (I := I) hd ht (hindex.mono hle) hk
          (hknown.mono hle) hsymbol (.literal hliteral) hb (.of_literal hliteral))).bind
        fun term u hu hle' _ _ hterm => ?_
      have hle'' := hle.trans hle'
      refine (Delivers.mk (yields_unrolled hu (hindex.mono hle'') (hknown.mono hle'') _ _ d)
        (ih hu (hindex.mono hle'') (hknown.mono hle'') (by omega) (by omega))).bind fun terms w _ _ _ _ hterms => .pure ?_
      rw [List.range_succ_eq_map, List.map_cons, List.map_map]
      refine .cons ?_ ?_
      · convert hterm using 2 with ρ
        rw [replaced, value_literal hliteral, Nat.cast_zero, add_zero]
      · convert hterms using 3 with j
        simp only [Function.comp_apply, Nat.succ_eq_add_one, Nat.cast_add, Nat.cast_one]
        rw [add_assoc, add_comm (1 : ℤ)]

/-- A sum over a range of integers term by term. -/
lemma sum_range_eq_sum_Icc {B : Type} [AddCommMonoid B] (f : ℤ → B) (lo hi : ℤ) :
    ((List.range (hi - lo + 1).toNat).map fun j : ℕ => f (lo + j)).sum =
      ∑ k ∈ Finset.Icc lo hi, f k := by
  have hcount : hi - lo + 1 = hi + 1 - lo := by ring
  rw [hcount, Int.Icc_eq_finset_map, Finset.sum_map]
  rfl

end Summations

/-! ## One step -/

section Steps

/-- What a step on `e` makes of it, next to a memo. -/
def Reduces (F : Builtin → Prop) (I : Reading A) (d : ℕ) (s : Store) (m : Memo) (e : Expr)
    (x : Memoized Memo (Option Expr)) : Prop :=
  Ensures faithfulStores d (s, m) x fun next p =>
    Memo.Relates (Simplifies F I) p.1 p.2 ∧ ∀ e' ∈ next, Simplifies F I e e'

variable (hs : Good (s, m)) (hm : Memo.Relates (Simplifies F I) s m)

include hs hm

omit hs in
lemma reduces_none : Reduces F I d s m e (pure none) := .pure ⟨hm, by simp⟩

lemma reduces_option {x : Build (Option Expr)} [Growing x] (hx : Delivers faithfulStores d s x
      fun next _ => ∀ e' ∈ next, Simplifies F I e e') : Reduces F I d s m e (liftM x) := by
  refine (Delivers.lift hx (good_pair.1 hs).2).ensures.imp fun next p hrun _ hp => ⟨?_, hp.2⟩
  rw [hp.1]
  exact hm.mono (Growing.le_of_ok hrun)

lemma reduces_some {x : Build Expr} [Growing x] (hx : Delivers faithfulStores d s x
      fun e' _ => Simplifies F I e e') :
    Reduces F I d s m e (some <$> (liftM x : Memoized Memo Expr)) := by
  rw [Reduces, Run.map_eq_bind]
  refine (Delivers.lift hx (good_pair.1 hs).2).bind fun e' p _ hle _ _ hp => .pure ⟨?_, by simpa using hp.2⟩
  rw [hp.1]
  exact hm.mono hle

/-- A constant is replaced by its literal. -/
lemma reduces_constant {x : Build Value} [Growing x] {k : ℤ} (hx : Achieves d s x (Value.IsInt k))
    (h : ∀ e', IsLiteral k e' → Simplifies F I e e') : Reduces F I d s m e (do
      let v ← (liftM x : Memoized Memo Value)
      some <$> (liftM (constant .declared v) : Memoized Memo Expr)) := by
  refine (Delivers.lift (hx.delivers faithfulStores_le) (good_pair.1 hs).2).bind
    fun v p hp hle _ _ hv => ?_
  obtain ⟨t, m'⟩ := p
  obtain ⟨rfl, hv⟩ := hv
  exact reduces_some hp (hm.mono hle) (((achieves_constant_int (good_store.2 (good_pair.1 hp).1) hv
    _).delivers faithfulStores_le).imp fun e' _ => h e')

variable {visit : Expr → Memoized Memo Expr} {settings : NormalSettings}
  {normalize : Expr → Build Expr} [∀ e, Growing (normalize e)]

/-- One step on an application: constants are multiplied and raised, and powers of products and of
powers are written out. -/
lemma reduces_apply (hF : ∀ f, ¬F f) (hd : 0 < d) (he : s.Knows e) {t a : Expr}
    (hscalar : e.IsScalar F) (hkind : e.kind = .apply t a) : Reduces F I d s m e
      (reduceNode settings (settings.applyWith (Function.evaluateWith normalize))
        visit e) := by
  have hs' := good_store.2 (good_pair.1 hs).1
  have hsimplifies {e' : Expr} (h : HasValue F I (fun ρ => e.value I ρ) e') : Simplifies F I e e' :=
    .of_hasValue h hscalar (by simp [number?, hkind]) (by simp [isSymbol, hkind])
  have hliteral {k : ℤ} (hvalue : ∀ ρ : Valuation A, e.value I ρ = k) (e' : Expr)
      (h : IsLiteral k e') : Simplifies F I e e' := by
    refine hsimplifies ?_
    rw [show (fun ρ => e.value I ρ) = ((k : ℤ) : Valuation A → A) from funext hvalue]
    exact Meaning.denotes_literal (M := meaning F I) h
  unfold reduceNode
  rw [hkind]
  dsimp only
  split
  · -- Both parts are constants: a product of literals, or a literal raised to a power.
    rename_i v w hv hw
    rcases hscalar.apply_cases hkind with ⟨ht, ha⟩ | ⟨b, n, k, hpower, hb, -, hn⟩ | ⟨f, -, -, hf, -⟩
    · obtain ⟨hlt, hv⟩ := ht.literal_of_value? hv
      obtain ⟨hla, hw⟩ := ha.literal_of_value? hw
      refine reduces_constant hs hm (Evaluator.achieves_applyWith_number hs' hv hw) (hliteral fun ρ => ?_)
      rw [value_product hkind ht.function?, value_literal hlt, value_literal hla, Int.cast_mul]
    · obtain ⟨t', a', hkind', ht, ha⟩ := power?_eq_some.1 hpower
      rw [hkind, Kind.apply.injEq] at hkind'
      obtain ⟨rfl, rfl⟩ := hkind'
      rw [value?_function ht, Option.some.injEq] at hv
      rw [value?_tuple ha, Option.map_eq_some_iff] at hw
      obtain ⟨vs, hvs, rfl⟩ := hw
      subst hv
      obtain ⟨hliterals, hints⟩ := IsScalar.literals_of_values? (F := F)
        (by simpa using ⟨hb, .literal hn⟩) hvs
      simp only [List.map_cons, List.map_nil, List.forall₂_cons_right_iff,
        List.forall₂_nil_right_iff] at hints
      obtain ⟨x, _, hx, ⟨y, _, hy, rfl, rfl⟩, rfl⟩ := hints
      refine reduces_constant hs hm (Evaluator.achieves_applyWith_pow hs' hx hy) (hliteral fun ρ => ?_)
      rw [value_power hpower hn, hn.intValue, Int.toNat_natCast, value_literal (hliterals b (by simp)),
        Int.cast_pow]
    · -- There are no calls.
      exact absurd hf (hF f)
  · split
    · rename_i b n hpower
      obtain ⟨hb, k, -, hn⟩ := (IsScalar.power_iff hpower hscalar.real).1 hscalar
      obtain ⟨hknown, hknown'⟩ := knows_power? (good_pair.1 hs).1 he hpower
      refine reduces_option hs hm ((delivers_reducePower (I := I) hs' hd hb hn hknown hknown').imp
        fun next _ h e' he' => hsimplifies ?_)
      rw [show (fun ρ => e.value I ρ) = (fun ρ => b.value I ρ) ^ k from
        (meaning F I).value_power hpower hn]
      exact h e' he'
    · exact reduces_none hm

/-- One step on a sum: constants are added up. -/
lemma reduces_sum {terms : List Expr} (hscalar : e.IsScalar F) (hkind : e.kind = .sum terms)
    (apply : Value → Value → Build Value) :
    Reduces F I d s m e (reduceNode settings apply visit e) := by
  unfold reduceNode
  rw [hkind]
  dsimp only
  split
  · rename_i vs hvs
    obtain ⟨hliterals, hints⟩ :=
      IsScalar.literals_of_values? ((IsScalar.sum_iff hkind hscalar.real).1 hscalar) hvs
    refine reduces_constant hs hm (Evaluator.achieves_sum (good_store.2 (good_pair.1 hs).1) hints)
      fun e' he' => .of_hasValue ?_ hscalar (by simp [number?, hkind]) (by simp [isSymbol, hkind])
    have hvalue : (fun ρ => e.value I ρ) = (((terms.map intValue).sum : ℤ) : Valuation A → A) := by
      funext ρ
      rw [value_sum hkind, Pi.intCast_apply, Int.cast_list_sum, List.map_map]
      exact congrArg List.sum (List.map_congr_left fun t ht => value_literal (hliterals t ht))
    rw [hvalue]
    exact Meaning.denotes_literal (M := meaning F I) he'
  · exact reduces_none hm

/-- One step on a summation: it is written out over a short range of integers. -/
lemma reduces_indexedSum (hd : 0 < d) (he : s.Knows e) {index lower upper body : Expr}
    (hscalar : e.IsScalar F) (hkind : e.kind = .indexedSum index lower upper body)
    (apply : Value → Value → Build Value) :
    Reduces F I d s m e (reduceNode settings apply visit e) := by
  have hs' := good_store.2 (good_pair.1 hs).1
  obtain ⟨hindex, hl, hu, hb⟩ := hscalar.of_indexedSum hkind
  have hknown := (good_pair.1 hs).1.children he
  simp only [children, hkind, Kind.children, Store.knows_cons] at hknown
  have hsimplifies {e' : Expr} (h : HasValue F I (fun ρ => e.value I ρ) e') : Simplifies F I e e' :=
    .of_hasValue h hscalar (by simp [number?, hkind]) (by simp [isSymbol, hkind])
  unfold reduceNode
  rw [hkind]
  dsimp only
  split
  · rename_i lo hi hlo hhi
    have hvalue (ρ : Valuation A) : e.value I ρ =
        ∑ k ∈ Finset.Icc lo.toInt hi.toInt, body.value I (Function.update ρ index.ordinal (k : A)) := by
      rw [value_indexedSum hkind, value_literal (hl.literal_of_number? hlo),
        value_literal (hu.literal_of_number? hhi), map_intCast, map_intCast, Int.cast_id, Int.cast_id]
    refine .ite (fun hempty => ?_) fun hcount => .ite (fun _ => reduces_none hm) fun _ => ?_
    · refine reduces_some hs hm (((achieves_zero hs').delivers faithfulStores_le).imp
        fun e' _ he' => hsimplifies ?_)
      have hzero : (fun ρ => e.value I ρ) = ((0 : ℤ) : Valuation A → A) := by
        funext ρ
        rw [hvalue, Finset.Icc_eq_empty (by omega), Finset.sum_empty, Int.cast_zero, Pi.zero_apply]
      rw [hzero]
      exact Meaning.denotes_literal (M := meaning F I) he'
    · have hlo' := lo.minValue_le_toInt
      have hhi' := hi.toInt_lt
      refine (Delivers.lift (delivers_unrolled (I := I) hs' hd hknown.1 hindex hb hknown.2.2.2.1 _
        hlo' (by omega)) (good_pair.1 hs).2).bind fun terms p hp hle hterms _ h => ?_
      obtain ⟨t, m'⟩ := p
      obtain ⟨rfl, hvalues⟩ := h
      refine reduces_some hp (hm.mono hle) ((delivers_sum (good_store.2 (good_pair.1 hp).1) hd hterms
        hvalues).imp fun e' _ he' => hsimplifies ?_)
      convert he' using 1
      funext ρ
      rw [hvalue, ← sum_range_eq_sum_Icc, Pi.list_sum_apply, List.map_map]
      rfl
  · exact reduces_none hm

/-- One step on a scalar or an operand of one. -/
lemma reduces_reduceNode (hF : ∀ f, ¬F f) (hd : 0 < d) (he : s.Knows e) (hop : Operand F e) :
    Reduces F I d s m e (reduceNode settings
      (settings.applyWith (Function.evaluateWith normalize)) visit e) := by
  have hnone {apply : Value → Value → Build Value}
      (hrun : reduceNode settings apply visit e = pure none) :
      Reduces F I d s m e (reduceNode settings apply visit e) := by
    rw [hrun]
    exact reduces_none hm
  cases hop with
  | symbol hsymbol =>
    obtain ⟨name, hkind⟩ := exists_symbol hsymbol
    exact hnone (by simp [reduceNode, hkind])
  | function hkind => exact hnone (by simp [reduceNode, hkind])
  | pair hkind _ _ => exact hnone (by simp [reduceNode, hkind])
  | scalar hscalar =>
    have h := hscalar
    cases h with
    | symbol hkind _ => exact hnone (by simp [reduceNode, hkind])
    | literal hliteral =>
      obtain ⟨k, hkind, -⟩ := hliteral.kind
      exact hnone (by simp [reduceNode, hkind])
    | power hpower _ _ _ _ =>
      obtain ⟨t, a, hkind, -, -⟩ := power?_eq_some.1 hpower
      exact reduces_apply hs hm hF hd he hscalar hkind
    | product hkind _ _ _ | call hkind _ _ _ _ _ => exact reduces_apply hs hm hF hd he hscalar hkind
    | sum hkind _ _ => exact reduces_sum hs hm hscalar hkind _
    | indexedSum hkind _ _ _ _ _ => exact reduces_indexedSum hs hm hd he hscalar hkind _

end Steps

/-! ## Normalization -/

section Normalization

/-- Operands are visited and simplified, and only simplified ones are remembered. -/
def SimplifiesVisited (F : Builtin → Prop) (I : Reading A) (d : ℕ)
    (visit : Expr → Memoized Memo Expr) : Prop :=
  ∀ ⦃s : Store⦄ ⦃m : Memo⦄ ⦃e : Expr⦄, Good (s, m) → s.Knows e → Operand F e →
    Memo.Relates (Simplifies F I) s m →
      Delivers faithfulStores d (s, m) (visit e) fun e' p =>
        Memo.Relates (Simplifies F I) p.1 p.2 ∧ Simplifies F I e e'

variable {visit : Expr → Memoized Memo Expr} [∀ e, Growing (visit e)]

lemma growing_next (visit : Expr → Memoized Memo Expr) [∀ e, Growing (visit e)] (e : Expr)
    (next : Option Expr) : Growing (match next with
    | some next => if next == e then pure e else visit next
    | none => pure e : Memoized Memo Expr) := by
  cases next <;> infer_instance

lemma ensures_settleNode (hvisit : SimplifiesVisited F I d visit) (hs : Good (s, m))
    (hm : Memo.Relates (Simplifies F I) s m) {reduce : Memoized Memo (Option Expr)} [Growing reduce]
    (hyields : Yields (s, m) reduce) (hreduce : Reduces F I d s m e reduce) {rebuilt : Expr}
    (hop : Operand F e) (hknown : s.Knows rebuilt) (hrebuilt : Simplifies F I e rebuilt) :
    Ensures faithfulStores d (s, m) (settleNode visit reduce e rebuilt) fun e' p =>
      Memo.Relates (Simplifies F I) p.1 p.2 ∧ Simplifies F I e e' := by
  -- What is simplified further is as good as before.
  have hfurther {t : Store} {m : Memo} {next : Expr} (ht : Good (t, m)) (hknown : t.Knows next)
      (hm : Memo.Relates (Simplifies F I) t m) (hnext : Simplifies F I e next) :
      Ensures faithfulStores d (t, m) (visit next) fun e' p =>
        Memo.Relates (Simplifies F I) p.1 p.2 ∧ Simplifies F I e e' :=
    (hvisit ht hknown (hop.simplified hnext) hm).ensures.imp fun _ _ _ _ h => ⟨h.1, hnext.trans h.2⟩
  unfold settleNode
  have := growing_next visit e
  refine .ite (fun _ => ?_) fun _ => hfurther hs hknown hm hrebuilt
  refine (Delivers.mk (hyields d) hreduce).bind fun next p hp _ hnext _ h => ?_
  obtain ⟨t, m'⟩ := p
  split
  · rename_i next'
    exact .ite (fun _ => .pure ⟨h.1, .refl F I e⟩) fun _ =>
      hfurther hp (Store.knows_some.1 hnext) h.1 (h.2 next' rfl)
  · exact .pure ⟨h.1, .refl F I e⟩

/-- Normalization simplifies. -/
lemma simplifies_normalizeAux (hF : ∀ f, ¬F f) (hd : 0 < d) (depth : ℕ) (settings : NormalSettings) :
    SimplifiesVisited F I d (normalizeAux depth settings) := by
  induction depth generalizing settings with
  | zero =>
    intro s m e hs he _ _
    refine ⟨yields_normalizeAux 0 settings s m e hs he d, ?_⟩
    unfold normalizeAux
    exact .throw _
  | succ depth ih =>
    intro s m e hs he hop hm
    refine ⟨yields_normalizeAux (depth + 1) settings s m e hs he d, ?_⟩
    have hchildren := (good_pair.1 hs).1.children he
    unfold normalizeAux
    refine .memo ?_
    split
    · rename_i known hknown
      exact .pure ⟨hm, hm.get he hknown⟩
    refine (Delivers.mk (Yields.mapM hs _ (fun c hc t ht hle =>
      yields_normalizeAux depth settings _ _ c ht ((hchildren c hc).mono hle)) d)
      (Delivers.mapM (I := fun p => Memo.Relates (Simplifies F I) p.1 p.2) hs hm _
        fun c hc t ht hle hm => ih settings ht ((hchildren c hc).mono hle) (hop.children c hc) hm)).bind
      fun news p hp hle hnews _ h => ?_
    obtain ⟨t, m₁⟩ := p
    have hwf := good_store.2 (good_pair.1 hp).1
    refine (Delivers.lift ⟨yields_rebuild t e news hwf (he.mono hle) hnews d,
      ensures_rebuild hd hwf (he.mono hle) hop hnews h.2⟩ (good_pair.1 hp).2).bind
      fun rebuilt q hq hle₁ hrebuilt _ h₁ => ?_
    obtain ⟨u, m₂⟩ := q
    obtain ⟨rfl, hsimplified⟩ := h₁
    have he₁ := (he.mono hle).mono hle₁
    have hm₁ := h.1.mono hle₁
    have hcall : YieldsCalled (Function.evaluateWith fun body =>
        Build.forgetting ∅ (normalizeAux depth { toEvaluator := settings.toEvaluator } body)) :=
      Function.yields_evaluateWith fun s e hs he => yields_forgetting
        (yields_normalizeAux depth _ s ∅ e (good_pair.2 ⟨good_store.1 hs, knows_empty⟩) he)
    have hreduce := yields_reduceNode settings (settings.yields_applyWith hcall)
      (yields_normalizeAux depth settings) hq he₁
    refine (Delivers.mk (yields_settleNode (yields_normalizeAux depth settings) hq hreduce he₁ hrebuilt
      d) (ensures_settleNode (ih settings) hq hm₁ hreduce (reduces_reduceNode hq hm₁ hF hd he₁ hop) hop
        hrebuilt hsimplified)).bind fun result r hr hle₂ hresult _ h₂ => ?_
    exact .modifyMemo (.pure ⟨(h₂.1.insert (he₁.mono hle₂) h₂.2).insert hresult (.refl F I result), h₂.2⟩)

/-- **Normalization preserves meaning.**  Let `e` be made of symbols, integer literals, sums, products,
positive literal powers and summations over ranges.  If `e` has a normal form, and nothing has happened
in the final store that results could be wrong by, then the normal form has the value of `e`. -/
theorem value_normalizeWith (hs : s.WellFormed) (hd : 0 < d) (he : s.Knows e)
    (hscalar : e.IsScalar fun _ => False) {settings : NormalSettings} {e' : Expr} {t : Store}
    (hrun : normalizeWith settings e d s = .ok e' t) (ht : t.Faithful) :
    e'.IsScalar (fun _ => False) ∧ ∀ ρ : Valuation A, e'.value I ρ = e.value I ρ := by
  have hensures : Ensures faithfulStores d s (normalizeWith settings e) fun e' _ =>
      Simplifies (fun _ => False) I e e' := by
    unfold normalizeWith
    refine .read (.forgetting ?_)
    exact (simplifies_normalizeAux (fun _ => id) hd d settings (good_pair.2 ⟨hs, knows_empty⟩) he
      (.scalar hscalar) .empty).ensures.imp fun _ _ _ _ h => h.2
  obtain ⟨hscalar', hvalue⟩ := (hensures e' t hrun ht).scalar hscalar
  exact ⟨hscalar', congrFun hvalue⟩

/-- The sum of `y` from one to two is written out. -/
theorem value_normalizeWith_sum :
    let s₁ := (Store.initial.intern .reals (.symbol "y")).2
    let y := (Store.initial.intern .reals (.symbol "y")).1
    let s₂ := (s₁.intern .integers (.number (.int 1))).2
    let one := (s₁.intern .integers (.number (.int 1))).1
    let s₃ := (s₂.intern .integers (.number (.int 2))).2
    let two := (s₂.intern .integers (.number (.int 2))).1
    let index := (s₃.placeholder 1 .integers).1
    let s := (s₃.intern .reals (.indexedSum index one two y)).2
    let e := (s₃.intern .reals (.indexedSum index one two y)).1
    let I : Reading ℤ := .integers fun _ => id
    ∃ e' t, normalizeWith {} e 9 s = .ok e' t ∧ e'.isProduct = true ∧
      ∀ ρ : Valuation ℤ, e'.value I ρ = e.value I ρ := by
  intro s₁ y s₂ one s₃ two index s e I
  have hchecked : (match normalizeWith {} e 9 s with
      | .ok e' t => e'.isProduct && t.isFaithful
      | .error _ _ => false) = true := by
    decide +kernel
  cases hrun : normalizeWith {} e 9 s with
  | error _ _ =>
    rw [hrun] at hchecked
    cases hchecked
  | ok e' t =>
    rw [hrun, Bool.and_eq_true] at hchecked
    have hadm₁ : Store.initial.Admits .reals (.symbol "y") :=
      ⟨by simp [Kind.children], fun _ h => h.elim, trivial, by simp [Kind.index?]⟩
    obtain ⟨hs₁, hy, -⟩ := Store.wellFormed_initial.intern hadm₁
    have hadm₂ : s₁.Admits .integers (.number (.int 1)) :=
      ⟨by simp [Kind.children], fun _ h => h.elim, rfl, by simp [Kind.index?]⟩
    obtain ⟨hs₂, hone, -⟩ := hs₁.intern hadm₂
    have hadm₃ : s₂.Admits .integers (.number (.int 2)) :=
      ⟨by simp [Kind.children], fun _ h => h.elim, rfl, by simp [Kind.index?]⟩
    obtain ⟨hs₃, htwo, -⟩ := hs₂.intern hadm₃
    have hle₂ : s₁ ≤ s₂ := Store.le_intern _ _ _
    have hle₃ : s₂ ≤ s₃ := Store.le_intern _ _ _
    obtain ⟨hs₃', hindex, hplaceholder⟩ := hs₃.placeholderOf 1 .integers
    have hsame : (s₃.placeholder 1 .integers).2 = s₃ := rfl
    rw [hsame] at hs₃' hindex hplaceholder
    obtain ⟨p, hp, -, -, hsymbol⟩ := hplaceholder
    have hadm : s₃.Admits .reals (.indexedSum index one two y) :=
      ⟨by simpa [Kind.children] using
        ⟨hindex, hone.mono hle₃, htwo, (hy.mono hle₂).mono hle₃⟩, fun _ h => h.elim, trivial,
        by simpa [Kind.index?] using ⟨p, hp, hsymbol⟩⟩
    obtain ⟨hs, he, -⟩ := hs₃.intern hadm
    have hye : IsScalar (fun _ => False) y := .symbol rfl (.inr rfl)
    have hoe : IsScalar (fun _ => False) one := .literal (.of_kind (n := 1) rfl rfl)
    have hte : IsScalar (fun _ => False) two := .literal (.of_kind (n := 2) rfl rfl)
    exact ⟨e', t, rfl, hchecked.1, (value_normalizeWith hs (by decide) he
      (.indexedSum rfl (.inr rfl) rfl hoe hte hye) hrun (.of_isFaithful hchecked.2)).2⟩

end Normalization

end Expr

end TermGraph
