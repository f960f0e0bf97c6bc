import TermGraph.Proofs.Meaning.Delivery
import TermGraph.Proofs.Meaning.Scalars

/-!
# The value of substituted expressions

Substitution of `r` for a symbol `x` gives an expression whose value is that of the original one
where `x` has the value of `r`.  Two things can go wrong on the way: literal arithmetic may leave the
integers, and a summation that is rebuilt may be given an index that is already in use in its body.
`Store.Faithful` says that neither has happened so far.

* `Image F I T a e`: the values of `e` are those of `a` at the valuations changed by `T`.
* `Composes F I d rebuild`: nodes are rebuilt to what their new children make of them.
* `Composes.image_sum` and so on: nodes with images for children are rebuilt to images.
* `substitutes_of_isScalar`: scalars are sent to images, by induction on the scalar.
* `substitutesSymbol_substituteWith`: substitution puts the value of the replacement in.
-/

namespace TermGraph

open Store (Knows)

namespace Store

/-- Nothing has happened that results could be wrong by. -/
structure Faithful (s : Store) : Prop where
  /-- Every operation on integers gave an integer. -/
  exact : s.exact = true
  /-- No summation was given an index that occurs in its body. -/
  fresh : ∀ p ∈ s.bound, ¬Expr.Below p.1 p.2
  /-- Summations over ranges are real if their bodies are. -/
  real : ∀ {e index lower upper body : Expr}, s.Knows e →
    e.kind = .indexedSum index lower upper body → body.IsReal → e.IsReal

/-- The stores in which nothing has happened that results could be wrong by. -/
def faithfulStores : LowerSet Store where
  carrier := {s | s.Faithful}
  lower' _ _ hle ht := ⟨hle.exact ht.exact, fun p hp => ht.fresh p (hle.bound.subset hp),
    fun he hkind hbody => ht.real (he.mono hle) hkind hbody⟩

lemma faithfulStores_le : faithfulStores ≤ exactStores := fun _ h => h.exact

end Store

namespace Expr

/-- Whether an expression may contain the node with ordinal `i`; what lies deeper than `depth` levels
may be anything. -/
def mayContain (i : ℕ) : (depth : ℕ) → Expr → Bool
  | 0, _ => true
  | depth + 1, e => e.ordinal == i || e.children.any (mayContain i depth)

lemma Below.mayContain {a e : Expr} (h : Below a e) (depth : ℕ) :
    e.mayContain a.ordinal depth = true := by
  induction h generalizing depth with
  | refl => cases depth <;> simp [Expr.mayContain]
  | step hc _ ih =>
    cases depth with
    | zero => rfl
    | succ depth =>
      rw [Expr.mayContain, Bool.or_eq_true, List.any_eq_true]
      exact .inr ⟨_, hc, ih depth⟩

/-- Whether an expression is in the integers or the reals. -/
def isReal (e : Expr) : Bool :=
  e.domain == .integers || e.domain == .reals

lemma isReal_iff {e : Expr} : e.isReal = true ↔ e.IsReal := by
  unfold isReal IsReal
  cases e.domain <;> simp [BEq.beq, Domain.same]

end Expr

namespace Store

/-- A check that nothing has happened that results could be wrong by. -/
def isFaithful (s : Store) : Bool :=
  s.exact && (s.bound.all fun p => !p.2.mayContain p.1.ordinal (p.2.ordinal + 1)) &&
    s.nodes.all fun e =>
      match e.kind with
      | .indexedSum _ _ _ body => !body.isReal || e.isReal
      | _ => true

lemma Faithful.of_isFaithful {s : Store} (h : s.isFaithful = true) : s.Faithful := by
  simp only [isFaithful, Bool.and_eq_true, List.all_eq_true, Array.all_eq_true'] at h
  obtain ⟨⟨hexact, hfresh⟩, hreal⟩ := h
  refine ⟨hexact, fun p hp hbelow => ?_, fun {e index lower upper body} he hkind hbody => ?_⟩
  · have hp := hfresh p hp
    rw [hbelow.mayContain] at hp
    cases hp
  · have he := hreal e (Array.mem_of_getElem? he)
    simpa [hkind, Expr.isReal_iff, Expr.isReal_iff.2 hbody] using he

end Store

open Store (faithfulStores faithfulStores_le)

namespace Expr

variable {A : Type} [CommRing A] {F : Builtin → Prop} {I : Reading A} {s : Store} {m : Memo} {d : ℕ}
  {e a t b n x r : Expr} {v w : Valuation A → A}

/-- A scalar with the values `v`. -/
abbrev HasValue (F : Builtin → Prop) (I : Reading A) (v : Valuation A → A) (e : Expr) : Prop :=
  (meaning F I).Denotes v e

/-! ## Images -/

section Images

variable {T : Valuation A → Valuation A}

/-- The values of `e` are those of `a` at the valuations changed by `T`; literals and functions stay
as they are, and so does the exponent of a power. -/
structure Image (F : Builtin → Prop) (I : Reading A) (T : Valuation A → Valuation A) (a e : Expr) :
    Prop where
  /-- A scalar is sent to one with its values. -/
  scalar : a.IsScalar F → HasValue F I (fun ρ => a.value I (T ρ)) e
  /-- A literal is sent to itself. -/
  literal : a.number?.isSome = true → e = a
  /-- A function is sent to itself. -/
  function : a.function?.isSome = true → e = a
  /-- A pair of base and exponent is sent to one with the same exponent. -/
  pair : ∀ {b n : Expr} {k : ℕ}, a.kind = .tuple [b, n] → b.IsScalar F → IsLiteral k n →
    ∃ b', e.kind = .tuple [b', n] ∧ HasValue F I (fun ρ => b.value I (T ρ)) b'

namespace Image

/-- Of scalars that are no literals, only the values matter. -/
lemma of_scalar (h : HasValue F I (fun ρ => a.value I (T ρ)) e) (ha : a.IsScalar F)
    (hnumber : a.number? = none) : Image F I T a e where
  scalar _ := h
  literal h := by simp [hnumber] at h
  function h := by simp [ha.function?] at h
  pair hkind _ _ := absurd hkind (ha.kind_ne.2 _)

lemma of_literal {k : ℤ} (ha : IsLiteral k a) : Image F I T a a where
  scalar _ := ⟨.literal ha, funext fun ρ => by
    rw [value_literal ha]
    exact value_literal ha⟩
  literal _ := rfl
  function _ := rfl
  pair hkind _ _ := by
    obtain ⟨m, hkind', -⟩ := ha.kind
    simp [hkind'] at hkind

lemma of_function {f : Function} (ha : a.kind = .function f) : Image F I T a a where
  scalar h := absurd ha (h.kind_ne.1 f)
  literal _ := rfl
  function _ := rfl
  pair hkind _ _ := by simp [ha] at hkind

lemma of_pair (ha : a.kind = .tuple [b, n]) (he : e.kind = .tuple [t, n])
    (ht : HasValue F I (fun ρ => b.value I (T ρ)) t) : Image F I T a e where
  scalar h := absurd ha (h.kind_ne.2 _)
  literal h := by simp [number?, ha] at h
  function h := by simp [function?, ha] at h
  pair hkind hb hn := by
    rw [ha, Kind.tuple.injEq, List.cons.injEq, List.cons.injEq] at hkind
    obtain ⟨rfl, rfl, -⟩ := hkind
    exact ⟨t, he, ht⟩

/-- The images of a list of scalars. -/
lemma forall₂_scalar {l l' : List Expr} (h : List.Forall₂ (Image F I T) l l')
    (hl : ∀ a ∈ l, a.IsScalar F) :
    List.Forall₂ (HasValue F I) (l.map fun a ρ => a.value I (T ρ)) l' := by
  rw [List.forall₂_map_left_iff]
  induction h with
  | nil => exact .nil
  | cons ha _ ih =>
    rw [List.forall_mem_cons] at hl
    exact .cons (ha.scalar hl.1) (ih hl.2)

end Image

end Images

/-! ## Rebuilding -/

/-- The value of a summation with the index `i`. -/
noncomputable def rangeValue (I : Reading A) (i : ℕ) (lower upper body : Valuation A → A) :
    Valuation A → A :=
  fun ρ => ∑ k ∈ Finset.Icc (I.toInt (lower ρ)) (I.toInt (upper ρ)),
    body (Function.update ρ i (k : A))

/-- At depth `d`, a node is rebuilt to what its new children make of it. -/
structure Composes (F : Builtin → Prop) (I : Reading A) (d : ℕ) (rebuild : Rebuild) : Prop where
  /-- A sum of the new terms. -/
  sum : ∀ {s : Store} {e : Expr} {terms items : List Expr} {vs : List (Valuation A → A)}, Good s →
    s.Knows e → s.Knows items → e.kind = .sum terms → e.IsReal → items.length = terms.length →
    List.Forall₂ (HasValue F I) vs items →
    Ensures faithfulStores d s (rebuild e items) fun e' _ => HasValue F I vs.sum e'
  /-- A product of the new factors. -/
  product : ∀ {s : Store} {e t a t' a' : Expr} {v w : Valuation A → A}, Good s → s.Knows e →
    s.Knows t' → s.Knows a' → e.kind = .apply t a → e.IsReal → t.function? = none →
    HasValue F I v t' → HasValue F I w a' →
    Ensures faithfulStores d s (rebuild e [t', a']) fun e' _ => HasValue F I (v * w) e'
  /-- A pair of the new items. -/
  pair : ∀ {s : Store} {e b n b' n' : Expr}, Good s → s.Knows e → s.Knows b' → s.Knows n' →
    e.kind = .tuple [b, n] →
    Ensures faithfulStores d s (rebuild e [b', n']) fun e' _ => e'.kind = .tuple [b', n']
  /-- A power of the new base. -/
  power : ∀ {s : Store} {e t a a' b n : Expr} {v : Valuation A → A} {k : ℕ}, Good s → s.Knows e →
    s.Knows a' → e.kind = .apply t a → e.IsReal → t.kind = .function (.builtin .pow) →
    a'.kind = .tuple [b, n] → HasValue F I v b → 0 < k → IsLiteral k n →
    Ensures faithfulStores d s (rebuild e [t, a']) fun e' _ => HasValue F I (v ^ k) e'
  /-- A call with the new argument. -/
  call : ∀ {s : Store} {e t a a' : Expr} {f : Builtin} {v : Valuation A → A}, Good s → s.Knows e →
    s.Knows a' → e.kind = .apply t a → e.IsReal → t.kind = .function (.builtin f) → f ≠ .pow → F f →
    HasValue F I v a' →
    Ensures faithfulStores d s (rebuild e [t, a']) fun e' _ => HasValue F I (fun ρ => I.call f (v ρ)) e'
  /-- A summation of the new body over the new range. -/
  indexedSum : ∀ {s : Store} {e index lower upper body lower' upper' body' : Expr}
    {v w y : Valuation A → A}, Good s → s.Knows e → s.Knows lower' → s.Knows upper' →
    s.Knows body' → e.kind = .indexedSum index lower upper body → index.isSymbol = true → e.IsReal →
    HasValue F I v lower' → HasValue F I w upper' → HasValue F I y body' →
    Ensures faithfulStores d s (rebuild e [index, lower', upper', body']) fun e' _ =>
      HasValue F I (rangeValue I index.ordinal v w y) e'

namespace Composes

variable {rebuild : Rebuild} {T : Valuation A → Valuation A} (h : Composes F I d rebuild)

include h

/-- Sums over images are images. -/
lemma image_sum (hs : Good s) (he : s.Knows e) {terms items : List Expr} (hitems : s.Knows items)
    (hkind : e.kind = .sum terms) (hreal : e.IsReal) (hterms : ∀ c ∈ terms, c.IsScalar F)
    (himages : List.Forall₂ (Image F I T) terms items) :
    Ensures faithfulStores d s (rebuild e items) fun e' _ => Image F I T e e' := by
  refine (h.sum hs he hitems hkind hreal himages.length_eq.symm
    (Image.forall₂_scalar himages hterms)).imp fun e' _ _ _ hvalue =>
      .of_scalar ?_ (.sum hkind hreal hterms) (by simp [number?, hkind])
  convert hvalue using 1
  funext ρ
  rw [value_sum hkind, Pi.list_sum_apply, List.map_map]
  rfl

/-- Products of images are images. -/
lemma image_product (hs : Good s) (he : s.Knows e) {t' a' : Expr} (hknown : s.Knows t')
    (hknown' : s.Knows a') (hkind : e.kind = .apply t a) (hreal : e.IsReal) (ht : t.IsScalar F)
    (ha : a.IsScalar F) (himage : Image F I T t t') (himage' : Image F I T a a') :
    Ensures faithfulStores d s (rebuild e [t', a']) fun e' _ => Image F I T e e' := by
  refine (h.product hs he hknown hknown' hkind hreal ht.function? (himage.scalar ht)
    (himage'.scalar ha)).imp fun e' _ _ _ hvalue =>
      .of_scalar ?_ (.product hkind hreal ht ha) (by simp [number?, hkind])
  convert hvalue using 1
  funext ρ
  exact value_product hkind ht.function?

/-- Pairs over images are images. -/
lemma image_pair (hs : Good s) (ha : s.Knows a) {k : ℕ} {b' n' : Expr} (hknown : s.Knows b')
    (hknown' : s.Knows n') (hkind : a.kind = .tuple [b, n]) (hb : b.IsScalar F)
    (hn : IsLiteral k n) (himage : Image F I T b b') (himage' : Image F I T n n') :
    Ensures faithfulStores d s (rebuild a [b', n']) fun e' _ => Image F I T a e' := by
  obtain rfl := himage'.literal (by
    obtain ⟨m, hm, -⟩ := hn.number
    simp [hm])
  exact (h.pair hs ha hknown hknown' hkind).imp fun e' _ _ _ hkind' =>
    .of_pair hkind hkind' (himage.scalar hb)

/-- Powers of images are images. -/
lemma image_power (hs : Good s) (he : s.Knows e) {k : ℕ} {t' a' : Expr} (hknown : s.Knows a')
    (hkind : e.kind = .apply t a) (ht : t.kind = .function (.builtin .pow))
    (ha : a.kind = .tuple [b, n]) (hreal : e.IsReal) (hb : b.IsScalar F) (hk : 0 < k)
    (hn : IsLiteral k n) (himage : Image F I T t t') (himage' : Image F I T a a') :
    Ensures faithfulStores d s (rebuild e [t', a']) fun e' _ => Image F I T e e' := by
  have hpower : e.power? = some (b, n) := power?_eq_some.2 ⟨t, a, hkind, ht, ha⟩
  obtain rfl := himage.function (by simp [function?, ht])
  obtain ⟨b', hkind', hb'⟩ := himage'.pair ha hb hn
  refine (h.power hs he hknown hkind hreal ht hkind' hb' hk hn).imp fun e' _ _ _ hvalue =>
    .of_scalar ?_ (.power hpower hreal hb hk hn) (by simp [number?, hkind])
  convert hvalue using 1
  funext ρ
  exact value_power hpower hn

/-- Calls with images are images. -/
lemma image_call (hs : Good s) (he : s.Knows e) {f : Builtin} {t' a' : Expr} (hknown : s.Knows a')
    (hkind : e.kind = .apply t a) (hreal : e.IsReal) (ht : t.kind = .function (.builtin f))
    (hf : f ≠ .pow) (hF : F f) (ha : a.IsScalar F) (himage : Image F I T t t')
    (himage' : Image F I T a a') :
    Ensures faithfulStores d s (rebuild e [t', a']) fun e' _ => Image F I T e e' := by
  obtain rfl := himage.function (by simp [function?, ht])
  refine (h.call hs he hknown hkind hreal ht hf hF (himage'.scalar ha)).imp fun e' _ _ _ hvalue =>
    .of_scalar ?_ (.call hkind hreal ht hf hF ha) (by simp [number?, hkind])
  convert hvalue using 1
  funext ρ
  exact value_call hkind ht hf

/-- Summations over images are images, whatever a body is sent to that has the right values where the
index has a value. -/
lemma image_indexedSum (hs : Good s) (he : s.Knows e) {index lower upper body lower' upper' body' : Expr}
    (hknownl : s.Knows lower') (hknownu : s.Knows upper') (hknownb : s.Knows body')
    (hkind : e.kind = .indexedSum index lower upper body) (hscalar : e.IsScalar F)
    (himage : Image F I T lower lower') (himage' : Image F I T upper upper')
    (hb : HasValue F I v body') (hv : ∀ (ρ : Valuation A) (k : ℤ),
      v (Function.update ρ index.ordinal (k : A)) =
        body.value I (Function.update (T ρ) index.ordinal (k : A))) :
    Ensures faithfulStores d s (rebuild e [index, lower', upper', body']) fun e' _ =>
      Image F I T e e' := by
  obtain ⟨hindex, hl, hu, -⟩ := IsScalar.of_indexedSum hkind hscalar
  refine (h.indexedSum hs he hknownl hknownu hknownb hkind hindex hscalar.real (himage.scalar hl)
    (himage'.scalar hu) hb).imp fun e' _ _ _ hvalue =>
      .of_scalar ?_ hscalar (by simp [number?, hkind])
  convert hvalue using 1
  funext ρ
  rw [value_indexedSum hkind, rangeValue]
  exact Finset.sum_congr rfl fun k _ => (hv ρ k).symm

end Composes

/-! ## Substitution -/

section Substitution

/-- The table with `r` for `x` alone. -/
def single (x r : Expr) : Memo :=
  (∅ : Memo).insert x.ordinal r

/-- A valuation with the value of `r` for `x`. -/
noncomputable def replaced (I : Reading A) (x r : Expr) (ρ : Valuation A) : Valuation A :=
  Function.update ρ x.ordinal (r.value I ρ)

/-- All symbols that summations in `e` bind satisfy `P`. -/
def AllIndices (P : Expr → Prop) (e : Expr) : Prop :=
  ∀ a, Below a e → ∀ y ∈ a.kind.index?, P y

lemma allIndices_iff {P : Expr → Prop} :
    AllIndices P e ↔ (∀ y ∈ e.kind.index?, P y) ∧ ∀ c ∈ e.children, AllIndices P c := by
  refine ⟨fun h => ⟨h e .refl, fun c hc a ha => h a (.step hc ha)⟩, fun h a ha => ?_⟩
  cases ha with
  | refl => exact h.1
  | step hc ha => exact h.2 _ hc a ha

lemma AllIndices.child {P : Expr → Prop} {c : Expr} (h : AllIndices P e) (hc : c ∈ e.children) :
    AllIndices P c :=
  (allIndices_iff.1 h).2 c hc

lemma AllIndices.self {P : Expr → Prop} (h : AllIndices P e) {index lower upper body : Expr}
    (hkind : e.kind = .indexedSum index lower upper body) : P index :=
  (allIndices_iff.1 h).1 index (by simp [hkind, Kind.index?])

/-- An expression without children binds nothing. -/
lemma allIndices_of_leaf {P : Expr → Prop} (h : e.children = []) (h' : e.kind.index? = none) :
    AllIndices P e :=
  allIndices_iff.2 ⟨by simp [h'], by simp [h]⟩

/-- No symbol but `x` that a summation in `e` binds is free in `r`. -/
abbrev Clear (x r e : Expr) : Prop :=
  AllIndices (fun y => y.ordinal ≠ x.ordinal → ¬r.Free y.ordinal) e

lemma single_self (x r : Expr) : (single x r)[x.ordinal]? = some r := by
  simp [single]

lemma single_of_ne {i : ℕ} (h : i ≠ x.ordinal) : (single x r)[i]? = none := by
  simp [single, h.symm]

lemma contains_single {i : ℕ} : (single x r).contains i = true ↔ i = x.ordinal := by
  simpa [single] using eq_comm

/-- Nodes that are no symbols are not replaced. -/
lemma single_of_not_isSymbol (hx : x.isSymbol = true) (hknown : s.Knows x) (he : s.Knows e)
    (h : e.isSymbol = false) : (single x r)[e.ordinal]? = none := by
  refine single_of_ne fun heq => ?_
  rw [Store.WellFormed.eq_of_ordinal he hknown heq, hx] at h
  cases h

variable {rebuild : Rebuild} {map : Memo} {T : Valuation A → Valuation A}

/-- From `s` on, and with images in the memo, `e` is sent to an image. -/
def Substitutes (F : Builtin → Prop) (I : Reading A) (T : Valuation A → Valuation A) (d : ℕ)
    (rebuild : Rebuild) (map : Memo) (s : Store) (e : Expr) : Prop :=
  ∀ (t : Store) (m : Memo), Good (t, m) → s ≤ t → Memo.Relates (Image F I T) t m →
    Delivers faithfulStores d (t, m) (substituteFrom rebuild map e) fun e' p =>
      Memo.Relates (Image F I T) p.1 p.2 ∧ Image F I T e e'

lemma Substitutes.mono {t : Store} (h : Substitutes F I T d rebuild map s e) (hle : s ≤ t) :
    Substitutes F I T d rebuild map t e :=
  fun u m hu hle' => h u m hu (hle.trans hle')

variable [∀ e children, Growing (rebuild e children)]

/-- What is remembered for a node that is not replaced. -/
lemma substitutes_of_remember (hrebuild : YieldsRebuilt rebuild) (hmap : s.Knows map)
    (he : s.Knows e) {x : Memoized Memo Expr} [Growing x]
    (hrun : substituteFrom rebuild map e = .remember e x)
    (hx : ∀ (t : Store) (m : Memo), Good (t, m) → s ≤ t → Memo.Relates (Image F I T) t m →
      Ensures faithfulStores d (t, m) x fun e' p =>
        Memo.Relates (Image F I T) p.1 p.2 ∧ Image F I T e e') :
    Substitutes F I T d rebuild map s e := fun t m ht hle hm =>
  ⟨yields_substituteFrom hrebuild ht (hmap.mono hle) (he.mono hle) d, by
    rw [hrun]
    exact hm.ensures_remember (he.mono hle) (hx t m ht hle hm)⟩

/-- A symbol, literal or function that is not replaced stays as it is. -/
lemma substitutes_leaf (hrebuild : YieldsRebuilt rebuild) (hmap : s.Knows map) (he : s.Knows e)
    (hleaf : e.isSymbol = true ∨ e.number?.isSome = true ∨ e.function?.isSome = true)
    (hfree : map[e.ordinal]? = none) (himage : Image F I T e e) :
    Substitutes F I T d rebuild map s e := by
  have hrun : substituteFrom rebuild map e = .remember e (pure e) := by
    obtain ⟨ordinal, domain, kind⟩ := e
    cases kind <;> simp [isSymbol, number?, function?, Expr.kind] at hleaf
    all_goals
      unfold substituteFrom
      rw [hfree]
  exact substitutes_of_remember hrebuild hmap he hrun fun _ _ _ _ hm => .pure ⟨hm, himage⟩

/-- What a node is rebuilt to, next to a memo. -/
lemma ensures_rebuilt (hrebuild : YieldsRebuilt rebuild) (hs : Good (s, m))
    (hm : Memo.Relates (Image F I T) s m) (he : s.Knows e) {l : List Expr} (hl : s.Knows l)
    (h : Ensures faithfulStores d s (rebuild e l) fun e' _ => Image F I T e e') :
    Ensures faithfulStores d (s, m) (liftM (rebuild e l) : Memoized Memo Expr) fun e' p =>
      Memo.Relates (Image F I T) p.1 p.2 ∧ Image F I T e e' := by
  obtain ⟨hwf, hknown⟩ := good_pair.1 hs
  refine (Delivers.lift ⟨hrebuild s e l (good_store.2 hwf) he hl d, h⟩ hknown).ensures.imp
    fun e' p hrun _ hp => ⟨?_, hp.2⟩
  rw [hp.1]
  exact hm.mono (Growing.le_of_ok hrun)

/-- The images of a list of expressions. -/
lemma delivers_substituteAll (hrebuild : YieldsRebuilt rebuild) (hs : Good (s, m))
    (hmap : s.Knows map) (hm : Memo.Relates (Image F I T) s m) {l : List Expr} (hl : s.Knows l)
    (h : ∀ c ∈ l, Substitutes F I T d rebuild map s c) :
    Delivers faithfulStores d (s, m) (substituteAll rebuild map l) fun l' p =>
      Memo.Relates (Image F I T) p.1 p.2 ∧ List.Forall₂ (Image F I T) l l' where
  yields := yields_substituteAll hs (fun e he t m' ht hle =>
    yields_substituteFrom hrebuild ht (hmap.mono hle) ((hl e he).mono hle)) d
  ensures := by
    -- The items are sent from the states that the earlier ones have left.
    suffices h : ∀ (t : Store) (m : Memo), Good (t, m) → s ≤ t → Memo.Relates (Image F I T) t m →
        Ensures faithfulStores d (t, m) (substituteAll rebuild map l) fun l' p =>
          Memo.Relates (Image F I T) p.1 p.2 ∧ List.Forall₂ (Image F I T) l l' from
      h s m hs le_rfl hm
    induction l with
    | nil =>
      intro t m _ _ hm
      unfold substituteAll
      exact .pure ⟨hm, .nil⟩
    | cons c l ih =>
      intro t m ht hle hm
      rw [List.forall_mem_cons] at h
      unfold substituteAll
      refine (h.1 t m ht hle hm).bind fun c' p hp hle' _ _ hc => ?_
      intro l' q hrun hq
      obtain ⟨l'', q', hrest, hpure⟩ := Run.bind_eq_ok.1 hrun
      cases hpure
      obtain ⟨hm', hl'⟩ := ih (Store.knows_cons.1 hl).2 h.2 p.1 p.2 hp (hle.trans hle') hc.1 l'' q
        hrest hq
      exact ⟨hm', .cons hc.2 hl'⟩

variable (hrebuild : YieldsRebuilt rebuild) (hcomposes : Composes F I d rebuild) (hmap : s.Knows map)

include hrebuild hmap

/-- Sums are sent to sums. -/
lemma substitutes_sum (hcomposes : Composes F I d rebuild) (he : s.Knows e)
    (hwf : s.WellFormed) {terms : List Expr} (hkind : e.kind = .sum terms) (hreal : e.IsReal)
    (hterms : ∀ c ∈ terms, c.IsScalar F) (hfree : map[e.ordinal]? = none)
    (h : ∀ c ∈ terms, Substitutes F I T d rebuild map s c) :
    Substitutes F I T d rebuild map s e := by
  have hknown := hwf.children he
  rw [children, hkind, Kind.children] at hknown
  have hrun : substituteFrom rebuild map e =
      .remember e (do rebuild e (← substituteAll rebuild map terms)) := by
    obtain ⟨ordinal, domain, kind⟩ := e
    simp only [Expr.kind] at hkind
    subst hkind
    unfold substituteFrom
    rw [hfree]
  refine substitutes_of_remember hrebuild hmap he hrun fun t m ht hle hm => ?_
  refine (delivers_substituteAll hrebuild ht (hmap.mono hle) hm (hknown.mono hle)
    fun c hc => (h c hc).mono hle).bind
    fun items p hp hle' hitems _ himages => ?_
  exact ensures_rebuilt hrebuild hp himages.1 (he.mono (hle.trans hle')) hitems
    (hcomposes.image_sum (good_store.2 (good_pair.1 hp).1) (he.mono (hle.trans hle')) hitems hkind
      hreal hterms himages.2)

/-- Applications are sent to what they are rebuilt to. -/
lemma substitutes_apply (he : s.Knows e) (hkind : e.kind = .apply t a)
    (hfree : map[e.ordinal]? = none) (ht : Substitutes F I T d rebuild map s t)
    (ha : Substitutes F I T d rebuild map s a)
    (h : ∀ (u : Store) (t' a' : Expr), Good u → s ≤ u → u.Knows t' → u.Knows a' →
      Image F I T t t' → Image F I T a a' →
      Ensures faithfulStores d u (rebuild e [t', a']) fun e' _ => Image F I T e e') :
    Substitutes F I T d rebuild map s e := by
  have hrun : substituteFrom rebuild map e = .remember e (do
      let t' ← substituteFrom rebuild map t
      let a' ← substituteFrom rebuild map a
      rebuild e [t', a']) := by
    obtain ⟨ordinal, domain, kind⟩ := e
    simp only [Expr.kind] at hkind
    subst hkind
    rw [substituteFrom, hfree]
  refine substitutes_of_remember hrebuild hmap he hrun fun u m hu hle hm => ?_
  refine (ht u m hu hle hm).bind fun t' p hp hle₁ ht' _ himage => ?_
  refine (ha p.1 p.2 hp (hle.trans hle₁) himage.1).bind fun a' q hq hle₂ ha' _ himage' => ?_
  have hle₃ := hle.trans (hle₁.trans hle₂)
  have ht'' := ht'.mono hle₂
  exact ensures_rebuilt hrebuild hq himage'.1 (he.mono hle₃) (by simpa using ⟨ht'', ha'⟩)
    (h q.1 t' a' (good_store.2 (good_pair.1 hq).1) hle₃ ht'' ha' himage.2 himage'.2)

/-- Pairs of base and exponent are sent to such pairs. -/
lemma substitutes_pair (hcomposes : Composes F I d rebuild) (hwf : s.WellFormed) {k : ℕ}
    (ha : s.Knows a) (hkind : a.kind = .tuple [b, n]) (hb : b.IsScalar F) (hn : IsLiteral k n)
    (hfree : map[a.ordinal]? = none) (hbase : Substitutes F I T d rebuild map s b)
    (hexponent : Substitutes F I T d rebuild map s n) :
    Substitutes F I T d rebuild map s a := by
  have hknown := hwf.children ha
  rw [children, hkind, Kind.children] at hknown
  have hrun : substituteFrom rebuild map a =
      .remember a (do rebuild a (← substituteAll rebuild map [b, n])) := by
    obtain ⟨ordinal, domain, kind⟩ := a
    simp only [Expr.kind] at hkind
    subst hkind
    unfold substituteFrom
    rw [hfree]
  refine substitutes_of_remember hrebuild hmap ha hrun fun t m ht hle hm => ?_
  refine (delivers_substituteAll hrebuild ht (hmap.mono hle) hm (hknown.mono hle)
    (by simpa using ⟨hbase.mono hle, hexponent.mono hle⟩)).bind
    fun items p hp hle' hitems _ himages => ?_
  obtain ⟨hm', himages⟩ := himages
  cases himages with
  | cons himage hrest =>
    cases hrest with
    | cons himage' hnil =>
      cases hnil
      rw [Store.knows_cons, Store.knows_cons] at hitems
      exact ensures_rebuilt hrebuild hp hm' (ha.mono (hle.trans hle'))
        (by simpa using ⟨hitems.1, hitems.2.1⟩)
        (hcomposes.image_pair (good_store.2 (good_pair.1 hp).1) (ha.mono (hle.trans hle')) hitems.1
          hitems.2.1 hkind hb hn himage himage')

/-- Products are sent to products. -/
lemma substitutes_product (hcomposes : Composes F I d rebuild) (he : s.Knows e)
    (hkind : e.kind = .apply t a) (hreal : e.IsReal) (ht : t.IsScalar F) (ha : a.IsScalar F)
    (hfree : map[e.ordinal]? = none) (iht : Substitutes F I T d rebuild map s t)
    (iha : Substitutes F I T d rebuild map s a) : Substitutes F I T d rebuild map s e := by
  exact substitutes_apply hrebuild hmap he hkind hfree iht iha
    fun u t' a' hu hle ht' ha' himage himage' =>
      hcomposes.image_product hu (he.mono hle) ht' ha' hkind hreal ht ha himage himage'

/-- Powers are sent to powers. -/
lemma substitutes_power (hcomposes : Composes F I d rebuild) (hwf : s.WellFormed) (he : s.Knows e)
    {k : ℕ} (hpower : e.power? = some (b, n)) (hreal : e.IsReal) (hb : b.IsScalar F) (hk : 0 < k)
    (hn : IsLiteral k n)
    (hfree : ∀ c : Expr, s.Knows c → c.isSymbol = false → map[c.ordinal]? = none)
    (ihb : Substitutes F I T d rebuild map s b) : Substitutes F I T d rebuild map s e := by
  obtain ⟨t, a, hkind, ht, ha⟩ := power?_eq_some.1 hpower
  obtain ⟨hknownt, hknowna⟩ := hwf.knows_of_apply he hkind
  have hknownn := (hwf.knows_of_pair hknowna ha).2
  obtain ⟨m, hnumber, -⟩ := hn.number
  have hfunction : Substitutes F I T d rebuild map s t :=
    substitutes_leaf hrebuild hmap hknownt (.inr (.inr (by simp [function?, ht])))
      (hfree t hknownt (by simp [isSymbol, ht])) (.of_function ht)
  have hexponent : Substitutes F I T d rebuild map s n :=
    substitutes_leaf hrebuild hmap hknownn (.inr (.inl (by simp [hnumber])))
      (hfree n hknownn hn.isSymbol) (.of_literal hn)
  have hpair := substitutes_pair hrebuild hmap hcomposes hwf hknowna ha hb hn
    (hfree a hknowna (by simp [isSymbol, ha])) ihb hexponent
  exact substitutes_apply hrebuild hmap he hkind (hfree e he (by simp [isSymbol, hkind]))
    hfunction hpair fun u t' a' hu hle _ ha' himage himage' =>
      hcomposes.image_power hu (he.mono hle) ha' hkind ht ha hreal hb hk hn himage himage'

/-- Calls are sent to calls. -/
lemma substitutes_call (hcomposes : Composes F I d rebuild) (hwf : s.WellFormed) (he : s.Knows e)
    {f : Builtin} (hkind : e.kind = .apply t a) (hreal : e.IsReal)
    (ht : t.kind = .function (.builtin f)) (hf : f ≠ .pow) (hF : F f) (ha : a.IsScalar F)
    (hfree : ∀ c : Expr, s.Knows c → c.isSymbol = false → map[c.ordinal]? = none)
    (iha : Substitutes F I T d rebuild map s a) : Substitutes F I T d rebuild map s e := by
  have hknown := (hwf.knows_of_apply he hkind).1
  have hfunction : Substitutes F I T d rebuild map s t :=
    substitutes_leaf hrebuild hmap hknown (.inr (.inr (by simp [function?, ht])))
      (hfree t hknown (by simp [isSymbol, ht])) (.of_function ht)
  exact substitutes_apply hrebuild hmap he hkind (hfree e he (by simp [isSymbol, hkind]))
    hfunction iha fun u t' a' hu hle _ ha' himage himage' =>
      hcomposes.image_call hu (he.mono hle) ha' hkind hreal ht hf hF ha himage himage'

omit hmap in
/-- Summations are sent to summations, unless the symbol that is replaced is their own index. -/
lemma substitutes_indexedSum (hcomposes : Composes F I d rebuild) (hwf : s.WellFormed)
    (hr : s.Knows r) (he : s.Knows e) {index lower upper body : Expr}
    (hkind : e.kind = .indexedSum index lower upper body) (hscalar : e.IsScalar F)
    (hrscalar : r.IsScalar F)
    (hclear : index.ordinal ≠ x.ordinal → ¬r.Free index.ordinal)
    (hfree : (single x r)[e.ordinal]? = none)
    (ihl : Substitutes F I (replaced I x r) d rebuild (single x r) s lower)
    (ihu : Substitutes F I (replaced I x r) d rebuild (single x r) s upper)
    (ihb : Substitutes F I (replaced I x r) d rebuild (single x r) s body) :
    Substitutes F I (replaced I x r) d rebuild (single x r) s e := by
  have hmap : s.Knows (single x r) := knows_insert knows_empty hr _
  obtain ⟨-, -, -, hb⟩ := hscalar.of_indexedSum hkind
  have hknown := hwf.children he
  simp only [children, hkind, Kind.children, Store.knows_cons] at hknown
  have hrun : substituteFrom rebuild (single x r) e = .remember e (
      if (single x r).contains index.ordinal then do
        let lower ← substituteFrom rebuild (single x r) lower
        let upper ← substituteFrom rebuild (single x r) upper
        rebuild e [index, lower, upper, body]
      else do
        let lower ← substituteFrom rebuild (single x r) lower
        let upper ← substituteFrom rebuild (single x r) upper
        let body ← substituteFrom rebuild (single x r) body
        rebuild e [index, lower, upper, body]) := by
    obtain ⟨ordinal, domain, kind⟩ := e
    simp only [Expr.kind] at hkind
    subst hkind
    rw [substituteFrom, hfree]
  refine substitutes_of_remember hrebuild hmap he hrun fun t m ht hle hm => ?_
  split
  · rename_i hcontains
    rw [contains_single] at hcontains
    refine (ihl t m ht hle hm).bind fun lower' p hp hle₁ hl' _ himage => ?_
    refine (ihu p.1 p.2 hp (hle.trans hle₁) himage.1).bind fun upper' q hq hle₂ hu' _ himage' => ?_
    have hle₃ := hle.trans (hle₁.trans hle₂)
    refine ensures_rebuilt hrebuild hq himage'.1 (he.mono hle₃)
      (by simpa using ⟨hknown.1.mono hle₃, hl'.mono hle₂, hu', hknown.2.2.2.1.mono hle₃⟩)
      (hcomposes.image_indexedSum (good_store.2 (good_pair.1 hq).1) (he.mono hle₃) (hl'.mono hle₂) hu'
        (hknown.2.2.2.1.mono hle₃) hkind hscalar himage.2 himage'.2 (Meaning.denotes_value hb)
        fun ρ k => ?_)
    -- The index covers what `x` is replaced by.
    rw [hcontains, replaced, Function.update_idem]
    rfl
  · rename_i hcontains
    rw [contains_single] at hcontains
    refine (ihl t m ht hle hm).bind fun lower' p hp hle₁ hl' _ himage => ?_
    refine (ihu p.1 p.2 hp (hle.trans hle₁) himage.1).bind fun upper' q hq hle₂ hu' _ himage' => ?_
    have hle₃ := hle.trans (hle₁.trans hle₂)
    refine (ihb q.1 q.2 hq hle₃ himage'.1).bind fun body' q' hq' hle₄ hb' _ himage'' => ?_
    have hle₅ := hle₃.trans hle₄
    refine ensures_rebuilt hrebuild hq' himage''.1 (he.mono hle₅)
      (by simpa using ⟨hknown.1.mono hle₅, hl'.mono (hle₂.trans hle₄), hu'.mono hle₄, hb'⟩)
      (hcomposes.image_indexedSum (good_store.2 (good_pair.1 hq').1) (he.mono hle₅)
        (hl'.mono (hle₂.trans hle₄)) (hu'.mono hle₄) hb' hkind hscalar himage.2 himage'.2
        (himage''.2.scalar hb) fun ρ k => ?_)
    -- The value of `r` does not depend on the index.
    rw [replaced, replaced, Function.update_comm (Ne.symm hcontains),
      value_update hrscalar (hclear hcontains)]

omit hmap in
/-- Scalars are sent to scalars that have their values where `x` has that of `r`. -/
theorem substitutes_of_isScalar (hcomposes : Composes F I d rebuild) (hwf : s.WellFormed)
    (hx : s.Knows x) (hr : s.Knows r) (hsymbol : x.isSymbol = true) (hscalar : r.IsScalar F)
    (he : e.IsScalar F) (hknown : s.Knows e) (hclear : Clear x r e) :
    Substitutes F I (replaced I x r) d rebuild (single x r) s e := by
  have hmap : s.Knows (single x r) := knows_insert knows_empty hr _
  have hfree (c : Expr) (hc : s.Knows c) (h : c.isSymbol = false) :
      (single x r)[c.ordinal]? = none := single_of_not_isSymbol hsymbol hx hc h
  have hchildren {e : Expr} (he : s.Knows e) : ∀ c ∈ e.children, s.Knows c := hwf.children he
  induction he with
  | @symbol e name hkind hreal =>
    -- Either the symbol is `x`, which gives way to `r`, or it stays as it is.
    by_cases heq : e.ordinal = x.ordinal
    · obtain rfl := Store.WellFormed.eq_of_ordinal hknown hx heq
      intro t m ht hle hm
      have hrun : substituteFrom rebuild (single e r) e = pure r := by
        obtain ⟨ordinal, domain, kind⟩ := e
        simp only [Expr.kind] at hkind
        subst hkind
        unfold substituteFrom
        rw [single_self]
      rw [hrun]
      refine .pure ht (hr.mono hle) ⟨hm, .of_scalar ⟨hscalar, ?_⟩ (.symbol hkind hreal)
        (by simp [number?, hkind])⟩
      funext ρ
      rw [value_symbol hkind, replaced, Function.update_self]
      rfl
    · refine substitutes_leaf hrebuild hmap hknown (.inl (by simp [isSymbol, hkind]))
        (single_of_ne heq) (.of_scalar ⟨.symbol hkind hreal, ?_⟩ (.symbol hkind hreal)
          (by simp [number?, hkind]))
      funext ρ
      rw [value_symbol hkind, replaced, Function.update_of_ne heq]
      exact value_symbol hkind
  | @literal e k hliteral =>
    obtain ⟨m, hkind, -⟩ := hliteral.kind
    exact substitutes_leaf hrebuild hmap hknown (.inr (.inl (by simp [number?, hkind])))
      (hfree e hknown hliteral.isSymbol) (.of_literal hliteral)
  | @sum e terms hkind hreal hterms ih =>
    have hmem : e.children = terms := by rw [children, hkind, Kind.children]
    exact substitutes_sum hrebuild hmap hcomposes hknown hwf hkind hreal hterms
      (hfree e hknown (by simp [isSymbol, hkind])) fun c hc =>
        ih c hc (hchildren hknown c (hmem ▸ hc)) (hclear.child (hmem ▸ hc))
  | @product e t a hkind hreal ht ha iht iha =>
    have hmem : e.children = [t, a] := by rw [children, hkind, Kind.children]
    exact substitutes_product hrebuild hmap hcomposes hknown hkind hreal ht ha
      (hfree e hknown (by simp [isSymbol, hkind]))
      (iht (hchildren hknown t (by simp [hmem])) (hclear.child (by simp [hmem])))
      (iha (hchildren hknown a (by simp [hmem])) (hclear.child (by simp [hmem])))
  | @power e b n k hpower hreal hb hk hn ihb =>
    obtain ⟨t, a, hkind, -, ha⟩ := power?_eq_some.1 hpower
    have hmem : e.children = [t, a] := by rw [children, hkind, Kind.children]
    have hmem' : a.children = [b, n] := by rw [children, ha, Kind.children]
    exact substitutes_power hrebuild hmap hcomposes hwf hknown hpower hreal hb hk hn hfree
      (ihb (hchildren (hchildren hknown a (by simp [hmem])) b (by simp [hmem']))
        ((hclear.child (c := a) (by simp [hmem])).child (by simp [hmem'])))
  | @call e t a f hkind hreal ht hf hF ha iha =>
    have hmem : e.children = [t, a] := by rw [children, hkind, Kind.children]
    exact substitutes_call hrebuild hmap hcomposes hwf hknown hkind hreal ht hf hF ha hfree
      (iha (hchildren hknown a (by simp [hmem])) (hclear.child (by simp [hmem])))
  | @indexedSum e index lower upper body hkind hreal hindex hl hu hb ihl ihu ihb =>
    have hmem : e.children = [index, lower, upper, body] := by rw [children, hkind, Kind.children]
    exact substitutes_indexedSum hrebuild hcomposes hwf hr hknown hkind
      (.indexedSum hkind hreal hindex hl hu hb) hscalar
      (hclear.self hkind) (hfree e hknown (by simp [isSymbol, hkind]))
      (ihl (hchildren hknown lower (by simp [hmem])) (hclear.child (by simp [hmem])))
      (ihu (hchildren hknown upper (by simp [hmem])) (hclear.child (by simp [hmem])))
      (ihb (hchildren hknown body (by simp [hmem])) (hclear.child (by simp [hmem])))

/-- What substitution makes of a scalar. -/
def SubstitutesSymbol (F : Builtin → Prop) (I : Reading A) (d : ℕ) (substitute : Substitute) : Prop :=
  ∀ ⦃s : Store⦄ ⦃x r e : Expr⦄, Good s → s.Knows x → s.Knows r → s.Knows e → x.isSymbol = true →
    r.IsScalar F → e.IsScalar F → Clear x r e →
    Ensures faithfulStores d s (substitute [(x, r)] e) fun e' _ =>
      HasValue F I (fun ρ => e.value I (replaced I x r ρ)) e'

omit hmap in
lemma substitutesSymbol_substituteWith (hcomposes : Composes F I d rebuild) :
    SubstitutesSymbol F I d (substituteWith rebuild) := by
  intro s x r e hs hx hr he hsymbol hrscalar hescalar hclear
  unfold substituteWith
  by_cases heq : x.ordinal = r.ordinal
  · obtain rfl := Store.WellFormed.eq_of_ordinal hx hr heq
    have hempty : (replacements [(x, x)]).isEmpty = true := by simp [replacements]
    rw [if_pos hempty]
    refine .pure ⟨hescalar, funext fun ρ => ?_⟩
    have hsame : replaced I x x ρ = ρ := by
      obtain ⟨ordinal, domain, kind⟩ := x
      cases kind <;> simp [isSymbol, Expr.kind] at hsymbol
      rw [replaced, value_symbol rfl, Function.update_eq_self]
    rw [hsame]
    rfl
  · have hmap : replacements [(x, r)] = single x r := by simp [replacements, single, heq]
    rw [hmap, if_neg (by simp [single])]
    have hsub := substitutes_of_isScalar hrebuild hcomposes (good_store.1 hs) hx hr hsymbol hrscalar
      hescalar he hclear s ∅ (good_pair.2 ⟨good_store.1 hs, knows_empty⟩) le_rfl .empty
    exact .forgetting (hsub.ensures.imp fun e' p _ _ hp => hp.2.scalar hescalar)

end Substitution

end Expr

end TermGraph
