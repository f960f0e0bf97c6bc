import TermGraph.Proofs.Order.Totality
import TermGraph.Proofs.Store.Formation

/-!
# What products are made of

Where there are no custom domains, a product is a chain of applications that leans to the left: a
coefficient, then a factor for each base, in the order of the bases, then a matrix.  Factors are
taken apart and literals are multiplied before powers are merged.  So when the exponents of a base
add up to one, the base stands in the chain as it is, and a base that is a literal, a product or a
power in turn keeps the chain from being canonical.

* `Expr.Chained l e`: `e` applies the expressions in `l` one after the other.
* `Expr.ChainItem`: what such a chain is made of; `ChainItem.Valid` and `ChainItem.Precedes` say
  which items there are and in which order they stand.
* `Expr.IsCanonicalProduct e`: the canonical form.
* `Upkeep.itemizing`: that products are chains of items is kept up along with the invariant.
* `Store.Reachable.product_items`: it holds of every store that can be reached.
-/

namespace TermGraph

open Store (Knows)

namespace Expr

/-! ## Chains -/

/-- The base of a power; anything else is its own base. -/
def base (e : Expr) : Expr :=
  match e.power? with
  | some (b, _) => b
  | none => e

/-- Whether an expression is a literal, a product or a power. -/
def isCompound (e : Expr) : Bool :=
  e.number?.isSome || e.isProduct || e.power?.isSome

/-- `e` is the last of some expressions applied to the next, starting with the first. -/
inductive Chained : List Expr → Expr → Prop
  | single (e : Expr) : Chained [e] e
  | snoc {l : List Expr} {t a e : Expr} : Chained l t → e.kind = .apply t a →
    multiplies t a = true → Chained (l ++ [a]) e

section Facts

variable {e t a b n : Expr} {l : List Expr}

lemma number?_of_power? (h : e.power? = some (b, n)) : e.number? = none := by
  obtain ⟨t, a, hkind, -, -⟩ := power?_eq_some.1 h
  rw [number?, hkind]

lemma base_of_power? (h : e.power? = some (b, n)) : e.base = b := by
  rw [base, h]

lemma base_of_power?_eq_none (h : e.power? = none) : e.base = e := by
  rw [base, h]

lemma isProduct_eq_kind (e : Expr) : e.isProduct = e.kind.isProduct := by
  unfold isProduct
  cases e.kind <;> rfl

lemma isCompound_eq_false :
    e.isCompound = false ↔ e.number? = none ∧ e.isProduct = false ∧ e.power? = none := by
  simp [isCompound, and_assoc]

namespace Chained

/-- The factors of a product are those of all that is applied. -/
lemma factors_eq (h : Chained l e) : e.factors = l.flatMap factors := by
  induction h with
  | single e => simp
  | snoc _ hkind hm ih => rw [factors_of_kind hkind hm, ih, List.flatMap_append, List.flatMap_singleton]

/-- What is applied is known. -/
lemma knows {s : Store} (h : Chained l e) (hs : s.WellFormed) (he : s.Knows e) : s.Knows l := by
  induction h with
  | single e => simpa using he
  | snoc _ hkind _ ih =>
    obtain ⟨ht, ha⟩ := hs.knows_of_apply he hkind
    exact Store.knows_append.2 ⟨ih ht, by simpa using ha⟩

lemma length_pos (h : Chained l e) : 0 < l.length := by
  cases h <;> simp

/-- A product of scalars is a scalar. -/
lemma isScalar {s : Store} (h : Chained l e) (hs : s.WellFormed) (hb : s.Builtin) (he : s.Knows e)
    (hl : ∀ f ∈ l, f.domain.isScalar = true) : e.domain.isScalar = true := by
  induction h with
  | single e => exact hl e (by simp)
  | snoc _ hkind hm ih =>
    obtain ⟨ht, ha⟩ := hs.knows_of_apply he hkind
    obtain ⟨hnumeric, hnumeric'⟩ := isNumeric_of_multiplies hb ht ha hm
    exact (domain_of_apply hs he hkind hnumeric hnumeric').2.2
      ⟨ih ht fun f hf => hl f (by simp [hf]), hl _ (by simp)⟩

/-- Two or more expressions make a product. -/
lemma isProduct (h : Chained l e) (hlength : 2 ≤ l.length) : e.isProduct = true := by
  cases h with
  | single e => simp at hlength
  | snoc _ hkind hm => rw [isProduct_of_kind hkind, hm]

/-- A product applies what is applied before the last expression to it. -/
lemma of_product (h : Chained l e) (hkind : e.kind = .apply t a) (hlength : 2 ≤ l.length) :
    ∃ l', l = l' ++ [a] ∧ Chained l' t := by
  cases h with
  | single e => simp at hlength
  | snoc h hkind' _ =>
    rw [hkind, Kind.apply.injEq] at hkind'
    obtain ⟨rfl, rfl⟩ := hkind'
    exact ⟨_, rfl, h⟩

end Chained

end Facts

/-! ## Items -/

/-- A part of a product: the coefficient, a factor with the base that it stems from, or the matrix.
-/
inductive ChainItem where
  | coefficient (e : Expr)
  | raised (e base : Expr)
  | matrix (e : Expr)

namespace ChainItem

/-- The part itself. -/
def expr : ChainItem → Expr
  | .coefficient e | .raised e _ | .matrix e => e

/-- The order of the parts: the coefficient before all others, factors by their bases, and the
matrix behind all others. -/
def Precedes : ChainItem → ChainItem → Prop
  | .coefficient _, .raised _ _ | .coefficient _, .matrix _ | .raised _ _, .matrix _ => True
  | .raised _ b, .raised _ c => b.compare c = .lt
  | _, _ => False

end ChainItem

/-- What factors with one base are gathered under: a scalar other than one.  If it is a literal, a
product or a power, then it is the base of a power in the store. -/
structure IsBase (s : Store) (b : Expr) : Prop where
  /-- It is a scalar. -/
  isScalar : b.domain.isScalar = true
  /-- It is not one. -/
  not_one : b.isOne = false
  /-- Compound bases are those of powers. -/
  compound : b.isCompound = true → ∃ p n : Expr, s.Knows p ∧ p.power? = some (b, n)

/-- What a part of a product can be.  The coefficient is a literal other than zero and one.  A
factor is a scalar, and it is either a power of its base or the base itself.  The matrix is no
product. -/
def ChainItem.Valid (s : Store) : ChainItem → Prop
  | .coefficient e => e.number?.isSome = true ∧ e.isZero = false ∧ e.isOne = false
  | .raised e b => IsBase s b ∧ e.domain.isScalar = true ∧ (e = b ∨ ∃ n, e.power? = some (b, n))
  | .matrix e => e.isMatrixFactor = true ∧ e.isProduct = false

/-- The canonical form of a product. -/
structure IsCanonicalProduct (e : Expr) : Prop where
  /-- The chain leans to the left. -/
  argument : ∀ t a : Expr, e.kind = .apply t a → a.isProduct = false
  /-- Only the first factor may be a literal. -/
  literal : ∀ f ∈ e.factors.tail, f.number? = none
  /-- A literal is neither zero nor one. -/
  coefficient : ∀ f ∈ e.factors, f.number?.isSome = true → f.isZero = false ∧ f.isOne = false
  /-- The scalars stand in the order of their bases, and no two of them have one base. -/
  bases : (e.factors.filter isScalarFactor).Pairwise fun f g => f.base.compare g.base = .lt
  /-- Only the last factor may be a matrix. -/
  matrix : ∀ f ∈ e.factors.dropLast, f.isMatrixFactor = false

section Items

variable {s t : Store} {e b : Expr} {i j : ChainItem} {items : List ChainItem}

lemma IsBase.mono (h : IsBase s b) (hle : s ≤ t) : IsBase t b where
  isScalar := h.isScalar
  not_one := h.not_one
  compound hb := by
    obtain ⟨p, n, hp, hpower⟩ := h.compound hb
    exact ⟨p, n, hp.mono hle, hpower⟩

lemma ChainItem.Valid.mono (h : i.Valid s) (hle : s ≤ t) : i.Valid t := by
  cases i with
  | coefficient e => exact h
  | raised e b => exact ⟨h.1.mono hle, h.2⟩
  | matrix e => exact h

/-- What stands before something else is a scalar. -/
lemma ChainItem.Valid.isScalar_of_precedes (h : i.Valid s) (hs : s.WellFormed) (hi : s.Knows i.expr)
    (hij : i.Precedes j) : i.expr.domain.isScalar = true := by
  cases i with
  | coefficient e => exact isScalar_of_number hs hi h.1
  | raised e b => exact h.2.1
  | matrix e => cases j <;> cases hij

/-- An item is canonical unless it is a literal, a product or a power that stands for itself. -/
def ChainItem.IsPlain : ChainItem → Prop
  | .raised e b => e = b → b.isCompound = false
  | _ => True

lemma ChainItem.Valid.isProduct (h : i.Valid s) (hplain : i.IsPlain) : i.expr.isProduct = false := by
  cases i with
  | coefficient e =>
    obtain ⟨n, hn⟩ := Option.isSome_iff_exists.1 h.1
    rw [ChainItem.expr, Expr.isProduct, kind_of_number? hn]
  | raised e b =>
    rcases h.2.2 with rfl | ⟨n, hpower⟩
    · exact (isCompound_eq_false.1 (hplain rfl)).2.1
    · exact isProduct_of_power? hpower
  | matrix e => exact h.2

/-- Factors are no literals, and what they are gathered under is their base. -/
lemma ChainItem.Valid.raised {e : Expr} (h : (ChainItem.raised e b).Valid s)
    (hplain : (ChainItem.raised e b).IsPlain) :
    e.number? = none ∧ e.base = b := by
  rcases h.2.2 with rfl | ⟨n, hpower⟩
  · obtain ⟨hnumber, -, hpower⟩ := isCompound_eq_false.1 (hplain rfl)
    exact ⟨hnumber, base_of_power?_eq_none hpower⟩
  · exact ⟨number?_of_power? hpower, base_of_power? hpower⟩

/-- The matrix is neither a literal nor a scalar. -/
lemma ChainItem.Valid.matrix {e : Expr} (h : (ChainItem.matrix e).Valid s) :
    e.number? = none ∧ e.domain.isScalar = false := by
  simpa [isMatrixFactor] using h.1

/-- Only the first item is the coefficient. -/
lemma ChainItem.Valid.number?_of_precedes (h : j.Valid s) (hplain : j.IsPlain) (hij : i.Precedes j) :
    j.expr.number? = none := by
  cases j with
  | coefficient e => cases i <;> cases hij
  | raised e b => exact (h.raised hplain).1
  | matrix e => exact h.matrix.1

/-- Scalar factors stand in the order of their bases. -/
lemma ChainItem.compare_of_precedes (hi : i.Valid s) (hj : j.Valid s) (hi' : i.IsPlain)
    (hj' : j.IsPlain) (hij : i.Precedes j) (hfactor : i.expr.isScalarFactor = true)
    (hfactor' : j.expr.isScalarFactor = true) : i.expr.base.compare j.expr.base = .lt := by
  simp only [isScalarFactor, Bool.and_eq_true, Option.isNone_iff_eq_none] at hfactor hfactor'
  cases i with
  | coefficient e =>
    have hnumber := hi.1
    rw [show e.number? = none from hfactor.1] at hnumber
    cases hnumber
  | matrix e => cases j <;> cases hij
  | raised e b =>
    cases j with
    | coefficient f => cases hij
    | matrix f =>
      have hscalar := hj.matrix.2
      rw [show f.domain.isScalar = true from hfactor'.2] at hscalar
      cases hscalar
    | raised f c =>
      show e.base.compare f.base = .lt
      rw [(hi.raised hi').2, (hj.raised hj').2]
      exact hij

/-- What is not the last of some items stands before another one. -/
lemma exists_of_mem_dropLast {α : Type} {R : α → α → Prop} {l : List α} {a : α} (h : l.Pairwise R)
    (ha : a ∈ l.dropLast) : ∃ b ∈ l, R a b := by
  rcases List.eq_nil_or_concat l with rfl | ⟨l, b, rfl⟩
  · cases ha
  · rw [List.concat_eq_append] at h ha ⊢
    rw [List.dropLast_concat] at ha
    exact ⟨b, by simp, (List.pairwise_append.1 h).2.2 a ha b (by simp)⟩

/-- The order of a coefficient, powers in the order of their bases, and a matrix. -/
lemma pairwise_items {o : Option Expr} {pairs : List (Expr × Expr)} {matrices : List Expr}
    (hpairs : pairs.Pairwise fun p q => p.2.compare q.2 = .lt) (hmatrices : matrices.length ≤ 1) :
    (o.toList.map ChainItem.coefficient ++ pairs.map (fun p => ChainItem.raised p.1 p.2) ++
      matrices.map ChainItem.matrix).Pairwise ChainItem.Precedes := by
  refine List.pairwise_append.2 ⟨List.pairwise_append.2 ⟨?_, List.pairwise_map.2 hpairs, ?_⟩, ?_, ?_⟩
  · cases o <;> simp
  · exact List.forall_mem_map.2 fun e _ => List.forall_mem_map.2 fun p _ => trivial
  · match matrices with
    | [] | [_] => simp
    | _ :: _ :: _ => simp at hmatrices
  · refine List.forall_mem_append.2 ⟨?_, ?_⟩ <;>
      exact List.forall_mem_map.2 fun _ _ => List.forall_mem_map.2 fun _ _ => trivial

/-- A product is canonical unless a base that is a literal, a product or a power stands for itself.
-/
lemma isCanonicalProduct_of_items (hs : s.WellFormed) (hknown : s.Knows (items.map ChainItem.expr))
    (hvalid : ∀ i ∈ items, i.Valid s) (hplain : ∀ i ∈ items, i.IsPlain)
    (horder : items.Pairwise ChainItem.Precedes) (hchained : Chained (items.map ChainItem.expr) e)
    (hlength : 2 ≤ items.length) : e.IsCanonicalProduct := by
  have hsingle : ∀ f ∈ items.map ChainItem.expr, f.isProduct = false := by
    rw [List.forall_mem_map]
    exact fun i hi => (hvalid i hi).isProduct (hplain i hi)
  have hfactors : e.factors = items.map ChainItem.expr := by
    rw [hchained.factors_eq, List.flatMap_congr fun f hf => factors_of_isProduct (hsingle f hf)]
    simp
  refine ⟨fun t a hkind => ?_, ?_, ?_, ?_, ?_⟩ <;> try rw [hfactors]
  · obtain ⟨l', hl', -⟩ := hchained.of_product hkind (by simpa using hlength)
    exact hsingle a (by simp [hl'])
  · rw [← List.map_tail, List.forall_mem_map]
    intro j hj
    obtain ⟨i, rest, rfl⟩ := List.exists_cons_of_ne_nil (List.ne_nil_of_mem (List.mem_of_mem_tail hj))
    exact (hvalid j (List.mem_of_mem_tail hj)).number?_of_precedes (hplain j (List.mem_of_mem_tail hj))
      ((List.pairwise_cons.1 horder).1 j hj)
  · rw [List.forall_mem_map]
    intro i hi hnumber
    have hi' := hvalid i hi
    cases i with
    | coefficient f => exact hi'.2
    | raised f b => simp [ChainItem.expr, (hi'.raised (hplain _ hi)).1] at hnumber
    | matrix f => simp [ChainItem.expr, hi'.matrix.1] at hnumber
  · rw [List.pairwise_filter, List.pairwise_map]
    exact horder.imp_of_mem fun hi hj => ChainItem.compare_of_precedes (hvalid _ hi) (hvalid _ hj)
      (hplain _ hi) (hplain _ hj)
  · rw [← List.map_dropLast, List.forall_mem_map]
    intro i hi
    obtain ⟨j, -, hij⟩ := exists_of_mem_dropLast horder hi
    have himem := List.mem_of_mem_dropLast hi
    simp [isMatrixFactor, (hvalid i himem).isScalar_of_precedes hs
      (hknown _ (List.mem_map_of_mem himem)) hij]

/-- `e` is the chain of some items in their order. -/
structure MadeOf (s : Store) (items : List ChainItem) (e : Expr) : Prop where
  /-- The items are what they can be. -/
  valid : ∀ i ∈ items, i.Valid s
  /-- They stand in their order. -/
  order : items.Pairwise ChainItem.Precedes
  /-- They are applied one after the other. -/
  chained : Chained (items.map ChainItem.expr) e

lemma MadeOf.mono (h : MadeOf s items e) (hle : s ≤ t) : MadeOf t items e :=
  ⟨fun i hi => (h.valid i hi).mono hle, h.order, h.chained⟩

/-- What something else can be applied to is a scalar. -/
lemma MadeOf.isScalar (h : MadeOf s items e) (hs : s.WellFormed) (hb : s.Builtin) (he : s.Knows e)
    (hi : ∀ j ∈ items, j.Precedes i) : e.domain.isScalar = true := by
  refine h.chained.isScalar hs hb he ?_
  rw [List.forall_mem_map]
  exact fun j hj => (h.valid j hj).isScalar_of_precedes hs
    (h.chained.knows hs he _ (List.mem_map_of_mem hj)) (hi j hj)

end Items

end Expr

/-! ## Upkeep -/

namespace Store

variable {s t : Store} {domain : Domain} {kind : Kind}

/-- Products are chains of items, and powers are those of a base other than one to an exponent other
than zero and one. -/
structure Itemized (s : Store) : Prop where
  /-- Needless powers are not there. -/
  power : ∀ {e b n : Expr}, s.Knows e → e.power? = some (b, n) →
    b.isOne = false ∧ n.isZero = false ∧ n.isOne = false
  /-- Products are made of items. -/
  product : ∀ {e : Expr}, s.Knows e → e.isProduct = true →
    ∃ items, Expr.MadeOf s items e ∧ 2 ≤ items.length

namespace Itemized

/-- The targets of products are scalars. -/
lemma led (h : s.Itemized) (hs : s.WellFormed) : s.Led := by
  intro hb e t a he hkind hm
  obtain ⟨items, ⟨hvalid, horder, hchained⟩, hlength⟩ :=
    h.product he (by rw [Expr.isProduct_of_kind hkind, hm])
  obtain ⟨l, hl, hl'⟩ := hchained.of_product hkind (by simpa using hlength)
  refine hl'.isScalar hs hb (hs.knows_of_apply he hkind).1 fun f hf => ?_
  have hmem : f ∈ (items.map Expr.ChainItem.expr).dropLast := by simpa [hl] using hf
  rw [← List.map_dropLast, List.mem_map] at hmem
  obtain ⟨i, hi, rfl⟩ := hmem
  obtain ⟨j, -, hij⟩ := Expr.exists_of_mem_dropLast horder hi
  have himem := List.mem_of_mem_dropLast hi
  exact (hvalid i himem).isScalar_of_precedes hs
    (hchained.knows hs he _ (List.mem_map_of_mem himem)) hij

/-- A new node may be added that is no needless power, and a chain of items if it is a product. -/
lemma intern (h : s.Itemized)
    (hpower : ∀ e b n : Expr, e.kind = kind → e.power? = some (b, n) →
      b.isOne = false ∧ n.isZero = false ∧ n.isOne = false)
    (hproduct : ∀ e : Expr, e.kind = kind → e.isProduct = true →
      ∃ items, Expr.MadeOf s items e ∧ 2 ≤ items.length) :
    (s.intern domain kind).2.Itemized where
  power he hp := by
    rcases knows_of_knows_intern he with he | rfl
    · exact h.power he hp
    · exact hpower _ _ _ rfl hp
  product he hp := by
    have hle := s.le_intern domain kind
    rcases knows_of_knows_intern he with he | rfl
    · obtain ⟨items, hitems, hlength⟩ := h.product he hp
      exact ⟨items, hitems.mono hle, hlength⟩
    · obtain ⟨items, hitems, hlength⟩ := hproduct _ rfl hp
      exact ⟨items, hitems.mono hle, hlength⟩

lemma of_nodes (hle : s ≤ t) (hnodes : t.nodes = s.nodes) (h : s.Itemized) : t.Itemized where
  power he := h.power ((knows_iff_of_nodes hnodes).1 he)
  product he hp := by
    obtain ⟨items, hitems, hlength⟩ := h.product ((knows_iff_of_nodes hnodes).1 he) hp
    exact ⟨items, hitems.mono hle, hlength⟩

end Itemized

end Store

/-- That products are chains of items is kept up along with the invariant, unless there are custom
domains. -/
@[reducible] def Upkeep.itemizing : Upkeep where
  Holds s := s.Builtin → s.Itemized
  since := 0
  since_le _ := Nat.zero_le _
  of_nodes hle hnodes h hb := (h (hb.anti hle)).of_nodes hle hnodes
  intern {s domain kind} _ _ hkind _ h hb := by
    simp only [Kind.isPlain, Bool.and_eq_true, Bool.not_eq_true'] at hkind
    refine (h (hb.anti (s.le_intern domain kind))).intern
      (fun e b n he hpower => Expr.power_of_isFormed (he ▸ hkind.2) hpower) fun e he hproduct => ?_
    rw [Expr.isProduct_eq_kind, he, hkind.1.1] at hproduct
    cases hproduct

section Itemizing

local instance : Upkeep := Upkeep.itemizing

/-- Sums are neither products nor powers. -/
instance : Upkeep.Sums := ⟨fun {s domain terms} _ _ _ h hb =>
  (h (hb.anti (s.le_intern domain (.sum terms)))).intern
    (fun e b n he hpower => by simp [Expr.power?, he] at hpower)
    fun e he hproduct => by simp [Expr.isProduct, he] at hproduct⟩

namespace Expr

variable {s : Store} {d : ℕ}

/-! ## Factors -/

/-- What a factor is gathered under is a base. -/
lemma isBase_splitPower (hs : Good s) {factor : Expr} (h : s.Knows factor)
    (hfactor : factor.isScalarFactor = true) (hproduct : factor.isProduct = false) :
    Sound Good d s (splitPower factor) fun p t => t.Knows p ∧ (t.Builtin → IsBase t p.1) := by
  simp only [isScalarFactor, Bool.and_eq_true, Option.isNone_iff_eq_none] at hfactor
  unfold splitPower
  split
  · rename_i base exponent hpower
    refine .pure hs ⟨knows_power? hs.wellFormed h hpower, fun hb => ⟨?_, ?_, fun _ => ⟨_, _, h, hpower⟩⟩⟩
    · exact (domain_of_power? hs.wellFormed h hpower).2.1
    · exact ((hs.holds hb).power h hpower).1
  · rename_i hpower
    refine (yields_one hs d).bind fun n t ht hle hn => .pure ht ⟨⟨h.mono hle, hn⟩, fun _ => ?_⟩
    refine ⟨hfactor.2, by simp [isOne, hfactor.1], fun hcompound => ?_⟩
    rw [isCompound_eq_false.2 ⟨hfactor.1, hproduct, hpower⟩] at hcompound
    cases hcompound

/-- A base to a sum of exponents other than zero is an item. -/
lemma valid_raisedBase (hs : Good s) {base exponent : Expr} (hb : s.Knows base) (he : s.Knows exponent)
    (hbase : s.Builtin → IsBase s base) (hzero : ¬exponent.isZero = true) :
    Sound Good d s (raisedBase base exponent) fun e t =>
      t.Knows e ∧ (t.Builtin → (ChainItem.raised e base).Valid t) := by
  unfold raisedBase
  split
  · exact .pure hs ⟨hb, fun h => ⟨hbase h, (hbase h).isScalar, .inl rfl⟩⟩
  · rename_i hone
    refine (sound_power hs hb he).imp fun e t hle he => ⟨he.1, fun h => ?_⟩
    have hbase := hbase (h.anti hle)
    refine ⟨hbase.mono hle, he.2.1 hbase.isScalar, .inr ⟨exponent, he.2.2 ?_ (by simpa using hone)⟩⟩
    simpa [hbase.not_one] using hzero

variable {sum : List Expr → Build Expr} [∀ l, Growing (sum l)]

/-- Raised bases are items, in the order of their groups. -/
lemma items_raisedBases (hsum : YieldsAll sum) (hs : Good s) {groups : List (Expr × List Expr)}
    (h : s.Knows groups) (hbase : s.Builtin → ∀ g ∈ groups, IsBase s g.1) :
    Sound Good d s (raisedBases sum groups) fun l t => t.Knows l ∧ (t.Builtin →
      ∃ pairs : List (Expr × Expr), l = pairs.map Prod.fst ∧
        (∀ p ∈ pairs, (ChainItem.raised p.1 p.2).Valid t) ∧
        (pairs.map Prod.snd).Sublist (groups.map Prod.fst)) := by
  induction groups generalizing s with
  | nil => exact .pure hs ⟨by simp, fun _ => ⟨[], by simp⟩⟩
  | cons group groups ih =>
    obtain ⟨base, exponents⟩ := group
    simp only [Store.knows_cons, Store.knows_pair] at h
    obtain ⟨⟨hknown, hexponents⟩, hgroups⟩ := h
    have hlater {t : Store} (hle : s ≤ t) (hb : t.Builtin) : ∀ g ∈ groups, IsBase t g.1 :=
      fun g hg => (hbase (hb.anti hle) g (by simp [hg])).mono hle
    rw [raisedBases]
    refine (hsum s exponents hs hexponents d).bind fun exponent t ht hle hexponent => ?_
    split
    · refine (ih ht (hgroups.mono hle) (hlater hle)).imp fun l u _ hl => ⟨hl.1, fun hb => ?_⟩
      obtain ⟨pairs, hpairs, hvalid, hsub⟩ := hl.2 hb
      exact ⟨pairs, hpairs, hvalid, hsub.cons _⟩
    rename_i hzero
    refine (valid_raisedBase ht (hknown.mono hle) hexponent
      (fun hb => (hbase (hb.anti hle) (base, exponents) (by simp)).mono hle) hzero).bind
      fun e u hu hle' he => ?_
    refine (ih hu ((hgroups.mono hle).mono hle') (hlater (hle.trans hle'))).bind
      fun l v hv hle'' hl => .pure hv ⟨Store.knows_cons.2 ⟨he.1.mono hle'', hl.1⟩, fun hb => ?_⟩
    obtain ⟨pairs, rfl, hvalid, hsub⟩ := hl.2 hb
    exact ⟨(e, base) :: pairs, rfl,
      List.forall_mem_cons.2 ⟨(he.2 (hb.anti hle'')).mono hle'', hvalid⟩, hsub.cons_cons _⟩

/-- Merged powers are items in the order of their bases. -/
lemma items_mergePowers (hsum : YieldsAll sum) (hs : Good s) {scalars : List Expr}
    (h : s.Knows scalars) (hfactors : ∀ e ∈ scalars, e.isScalarFactor = true ∧ e.isProduct = false) :
    Sound Good d s (mergePowers sum scalars) fun l t => t.Knows l ∧ (t.Builtin →
      ∃ pairs : List (Expr × Expr), l = pairs.map Prod.fst ∧
        (∀ p ∈ pairs, (ChainItem.raised p.1 p.2).Valid t) ∧
        pairs.Pairwise fun p q => p.2.compare q.2 = .lt) := by
  unfold mergePowers
  refine (Sound.mapM (P := fun (p : Expr × Expr) t => t.Knows p ∧ (t.Builtin → IsBase t p.1))
    (fun p t u hle hp => ⟨hp.1.mono hle, fun hb => (hp.2 (hb.anti hle)).mono hle⟩) scalars hs
    fun e he t ht hle => isBase_splitPower ht ((h e he).mono hle) (hfactors e he).1
      (hfactors e he).2).bind fun split t ht _ hsplit => ?_
  have hgroups : t.Knows (gather (fun e => [e]) (fun es e => es ++ [e]) split) := by
    refine gather_forall (fun p hp => (hsplit p hp).1.1) (fun p hp => ?_) fun es p hp hes => ?_
    · simpa using (hsplit p hp).1.2
    · exact Store.knows_append.2 ⟨hes, by simpa using (hsplit p hp).1.2⟩
  refine (items_raisedBases hsum ht hgroups fun hb =>
    gather_keys_forall fun p hp => (hsplit p hp).2 hb).imp fun l u _ hl => ⟨hl.1, fun hb => ?_⟩
  obtain ⟨pairs, hpairs, hvalid, hsub⟩ := hl.2 hb
  refine ⟨pairs, hpairs, hvalid, ?_⟩
  have horder : (gather (fun e => [e]) (fun es e => es ++ [e]) split).Pairwise
      fun p q => p.1.compare q.1 = .lt :=
    pairwise_gather_of_knows ht.wellFormed fun p hp => (hsplit p hp).1.1
  rw [← List.pairwise_map (R := fun b c : Expr => b.compare c = .lt)] at horder ⊢
  exact horder.sublist hsub

/-! ## Chains of items -/

omit [∀ l, Growing (sum l)] in
/-- An item that is applied to those before it is multiplied. -/
lemma sound_rawApply_item (hs : Good s) {e a : Expr} (he : s.Knows e) (ha : s.Knows a)
    (h : s.Builtin → ∃ (items : List ChainItem) (i : ChainItem), a = i.expr ∧
      MadeOf s items e ∧ i.Valid s ∧ ∀ j ∈ items, j.Precedes i) :
    Sound Good d s (rawApply e a) fun f t => t.Knows f ∧ f.kind = .apply e a ∧
      (t.Builtin → multiplies e a = true) := by
  unfold rawApply
  refine (sound_applyDomain hs e a d).bind fun domain t ht hle hdomain => ?_
  have hadm := admits_apply (he.mono hle) (ha.mono hle) hdomain
  obtain ⟨hwf, hknown, hcode⟩ := ht.wellFormed.intern hadm
  have hle' := t.le_intern domain (.apply e a)
  have hkind := hwf.kind_eq_apply hknown ((he.mono hle).mono hle') ((ha.mono hle).mono hle') hcode
  -- The target is a scalar, so only a number or a matrix has a domain next to it.
  have hmultiplies (hb : s.Builtin) : multiplies e a = true := by
    obtain ⟨items, i, -, hitems, -, horder⟩ := h hb
    have hscalar := hitems.isScalar hs.wellFormed hb he horder
    exact (multiplies_of_isScalar hs.wellFormed he (hb e he) (hb a ha) hscalar hdomain).2.2
  refine ⟨.of_wellFormed hwf ?_, hknown, hkind, fun hb => hmultiplies (hb.anti (hle.trans hle'))⟩
  show (t.intern domain (.apply e a)).2.Builtin → (t.intern domain (.apply e a)).2.Itemized
  intro hb
  have hb₁ := hb.anti hle'
  have hb₂ := hb₁.anti hle
  obtain ⟨items, i, rfl, hitems, hi, horder⟩ := h hb₂
  refine (ht.holds hb₁).intern (fun f b n hf hpower => ?_) fun f hf _ => ?_
  · obtain ⟨_, _, hf', hfunction, -⟩ := power?_eq_some.1 hpower
    rw [hf, Kind.apply.injEq] at hf'
    have hm := hmultiplies hb₂
    simp [multiplies, function?, hf'.1, hfunction] at hm
  · refine ⟨items ++ [i], ⟨?_, ?_, ?_⟩, ?_⟩
    · refine List.forall_mem_append.2 ⟨fun j hj => (hitems.valid j hj).mono hle, ?_⟩
      simpa using hi.mono hle
    · exact List.pairwise_append.2 ⟨hitems.order, by simp, by simpa using horder⟩
    · rw [List.map_append]
      exact hitems.chained.snoc hf (hmultiplies hb₂)
    · have hpos := hitems.chained.length_pos
      simp only [List.length_map, List.length_append, List.length_singleton] at hpos ⊢
      omega

omit [∀ l, Growing (sum l)] in
/-- Items can be applied one after the other. -/
lemma yields_foldlM_items (hs : Good s) {e : Expr} {rest : List Expr} (he : s.Knows e)
    (hrest : s.Knows rest) (h : s.Builtin → ∃ first items : List ChainItem,
      rest = items.map ChainItem.expr ∧ Chained (first.map ChainItem.expr) e ∧
      (∀ i ∈ first ++ items, i.Valid s) ∧
      (first ++ items).Pairwise ChainItem.Precedes) : Yields s (rest.foldlM rawApply e) := by
  induction rest generalizing s e with
  | nil => exact .pure hs he
  | cons a rest ih =>
    intro d
    rw [Store.knows_cons] at hrest
    rw [List.foldlM_cons]
    have hsplit (hb : s.Builtin) : ∃ (first : List ChainItem) (i : ChainItem)
        (items : List ChainItem), a = i.expr ∧ rest = items.map ChainItem.expr ∧
        Chained (first.map ChainItem.expr) e ∧
        (∀ j ∈ (first ++ [i]) ++ items, j.Valid s) ∧
        ((first ++ [i]) ++ items).Pairwise ChainItem.Precedes := by
      obtain ⟨first, items, hitems, hchained, hvalid, horder⟩ := h hb
      obtain ⟨i, items, rfl, rfl, rfl⟩ := List.map_eq_cons_iff.1 hitems.symm
      exact ⟨first, i, items, rfl, rfl, hchained, by simpa using hvalid, by simpa using horder⟩
    refine (sound_rawApply_item hs he hrest.1 fun hb => ?_).bind fun f t ht hle hf => ?_
    · obtain ⟨first, i, items, rfl, -, hchained, hvalid, horder⟩ := hsplit hb
      rw [List.pairwise_append, List.pairwise_append] at horder
      exact ⟨first, i, rfl, ⟨fun j hj => hvalid j (by simp [hj]), horder.1.1, hchained⟩,
        hvalid i (by simp), fun j hj => horder.1.2.2 j hj i (by simp)⟩
    · refine ih ht hf.1 (hrest.2.mono hle) (fun hb => ?_) d
      obtain ⟨first, i, items, rfl, rfl, hchained, hvalid, horder⟩ := hsplit (hb.anti hle)
      refine ⟨first ++ [i], items, rfl, ?_, fun j hj => (hvalid j hj).mono hle, horder⟩
      rw [List.map_append]
      exact hchained.snoc hf.2.1 (hf.2.2 hb)

omit [∀ l, Growing (sum l)] in
/-- A coefficient other than zero is an item unless it is one. -/
lemma valid_coefficientFactor (hs : Good s) {c : Number} (hzero : ¬c.isZero = true) :
    Sound Good d s (coefficientFactor c) fun l t => t.Knows l ∧
      ∃ o : Option Expr, l = o.toList ∧ ∀ e ∈ o, (ChainItem.coefficient e).Valid t := by
  unfold coefficientFactor
  split
  · exact .pure hs ⟨by simp, none, rfl, by simp⟩
  · rename_i hone
    refine (sound_number hs c).bind fun e t ht _ he => .pure ht ⟨by simpa using he.1, some e, rfl, ?_⟩
    obtain ⟨-, -, m, hm, hcode⟩ := he
    obtain ⟨hmzero, hmone⟩ := Number.isZero_isOne_of_code hcode
    simpa [ChainItem.Valid, Expr.isZero, Expr.isOne, hm, hmzero, hmone] using
      And.intro (by simpa using hzero) (by simpa using hone)

/-- Factors that are no products, with at most one matrix among them, are assembled to a chain of
items. -/
lemma yields_assemble_items (hsum : YieldsAll sum) (hs : Good s) {factors : List Expr}
    (h : s.Knows factors) (hfactors : ∀ f ∈ factors, f.isProduct = false)
    (hmatrices : s.Builtin → (factors.filter isMatrixFactor).length ≤ 1) :
    Yields s (assemble sum factors) := by
  intro d
  have hsub {p : Expr → Bool} : s.Knows (factors.filter p) := h.of_subset List.filter_sublist.subset
  unfold assemble
  refine (yields_settle hs _ d).bind fun c t ht hle _ => ?_
  split
  · exact yields_number ht c d
  rename_i hzero
  refine (items_mergePowers hsum ht (hsub.mono hle) fun e he => ?_).bind
    fun scalars u hu hle' hscalars => ?_
  · rw [List.mem_filter] at he
    exact ⟨he.2, hfactors e he.1⟩
  refine (valid_coefficientFactor hu hzero).bind fun front v hv hle'' hfront => ?_
  have hknown : v.Knows (front ++ scalars ++ factors.filter isMatrixFactor) :=
    Store.knows_append.2 ⟨Store.knows_append.2 ⟨hfront.1, hscalars.1.mono hle''⟩,
      hsub.mono (hle.trans (hle'.trans hle''))⟩
  have hitems (hb : v.Builtin) : ∃ items : List ChainItem,
      front ++ scalars ++ factors.filter isMatrixFactor = items.map ChainItem.expr ∧
      (∀ i ∈ items, i.Valid v) ∧ items.Pairwise ChainItem.Precedes := by
    obtain ⟨o, rfl, hcoefficient⟩ := hfront.2
    obtain ⟨pairs, rfl, hraised, horder⟩ := hscalars.2 (hb.anti hle'')
    refine ⟨o.toList.map .coefficient ++ pairs.map (fun p => .raised p.1 p.2) ++
      (factors.filter isMatrixFactor).map .matrix, ?_, ?_, ?_⟩
    · simp [ChainItem.expr, Function.comp_def]
    · simp only [List.forall_mem_append, List.forall_mem_map]
      refine ⟨⟨fun e he => hcoefficient e (by simpa using he), fun p hp => (hraised p hp).mono hle''⟩,
        fun f hf => ?_⟩
      rw [List.mem_filter] at hf
      exact ⟨hf.2, hfactors f hf.1⟩
    · exact pairwise_items horder (hmatrices (hb.anti (hle.trans (hle'.trans hle''))))
  unfold leftChain
  split
  · exact yields_number hv c d
  · rename_i first rest hlist
    rw [hlist] at hknown hitems
    rw [Store.knows_cons] at hknown
    refine yields_foldlM_items hv hknown.1 hknown.2 (fun hb => ?_) d
    obtain ⟨items, heq, hvalid, horder⟩ := hitems hb
    obtain ⟨i, items, rfl, rfl, rfl⟩ := List.map_eq_cons_iff.1 heq.symm
    exact ⟨[i], items, rfl, .single _, hvalid, horder⟩

/-- Merging matrices leaves factors that are no products, with at most one matrix among them. -/
lemma sound_mergeMatrices_items {product : List Expr → Build Expr} [∀ l, Growing (product l)]
    (hproduct : YieldsAll product) (hs : Good s) {factors : List Expr} (h : s.Knows factors)
    (hfactors : ∀ f ∈ factors, f.isProduct = false) :
    Sound Good d s (mergeMatrices product factors) fun l t => t.Knows l ∧
      (∀ f ∈ l, f.isProduct = false) ∧ (t.Builtin → (l.filter isMatrixFactor).length ≤ 1) := by
  unfold mergeMatrices
  simp only
  split
  · refine (yields_chainWith hproduct s _ hs (h.of_subset List.filter_sublist.subset) d).bind
      fun e t ht hle he => .pure ht ⟨?_, ?_, fun hb => ?_⟩
    · exact Store.knows_append.2
        ⟨(h.of_subset List.filter_sublist.subset).mono hle, knows_factors ht.wellFormed he⟩
    · refine List.forall_mem_append.2 ⟨fun f hf => hfactors f (List.mem_filter.1 hf).1, fun f hf => ?_⟩
      exact isProduct_of_mem_factors hf
    · have hnone : (factors.filter fun e => !e.isMatrixFactor).filter isMatrixFactor = [] :=
        List.filter_eq_nil_iff.2 fun f hf => by simpa using (List.mem_filter.1 hf).2
      rw [List.filter_append, hnone, List.nil_append]
      exact length_matrixFactors ht.wellFormed ((ht.holds hb).led ht.wellFormed) hb he
  · rename_i hlength
    exact .pure hs ⟨h, hfactors, fun _ => not_lt.1 hlength⟩

/-- Canonical products are chains of items. -/
lemma yields_productAux_items (depth : ℕ) : YieldsAll (productAux depth) := by
  induction depth with
  | zero =>
    intro s input hs _
    unfold productAux
    exact .throw hs _
  | succ depth ih =>
    intro s input hs hinput d
    have hfactors : s.Knows (input.flatMap Expr.factors) := by
      intro e he
      obtain ⟨c, hc, hmem⟩ := List.mem_flatMap.1 he
      exact knows_factors hs.wellFormed (hinput c hc) e hmem
    unfold productAux
    refine (yields_settle hs _ d).bind fun c t ht hle _ => ?_
    split
    · exact yields_number ht c d
    refine (sound_mergeMatrices_items (yields_foldProduct fun s a b hs ha hb => ?_) ht
      (hfactors.mono hle) fun f hf => ?_).bind fun merged u hu hle' hmerged => ?_
    · refine (yields_applyDomain hs a b).bind fun _ t ht hle _ => ih t _ ht ?_
      grind
    · obtain ⟨c, -, hmem⟩ := List.mem_flatMap.1 hf
      exact isProduct_of_mem_factors hmem
    · exact yields_assemble_items (yields_sumWith ih) hu hmerged.1 hmerged.2.1 hmerged.2.2 d

end Expr

instance : Upkeep.Products := Expr.products_of Expr.yields_productAux_items

end Itemizing

namespace Store.Reachable

variable {s : Store} {e : Expr}

/-- In every store that can be reached, products are chains of items, unless there are custom
domains. -/
lemma itemized (h : s.Reachable) (hb : s.Builtin) : s.Itemized := by
  let _ := Upkeep.itemizing
  have hblank {s : Store} (hs : s.Blank) : s.Itemized := by
    have hsymbol {e : Expr} (he : s.Knows e) (t a : Expr) : e.kind ≠ .apply t a := by
      obtain ⟨name, hkind⟩ := hs.exists_symbol he
      simp [hkind]
    refine ⟨fun he hpower => ?_, fun {e} he hproduct => ?_⟩
    · obtain ⟨t, a, hkind, -⟩ := Expr.power?_eq_some.1 hpower
      exact absurd hkind (hsymbol he t a)
    · obtain ⟨t, a, hkind, -⟩ := Expr.exists_of_isProduct hproduct
      exact absurd hkind (hsymbol he t a)
  exact (h.good fun hs _ => hblank hs).holds hb

/-- **What products are made of.**  In every store that can be reached and has no custom domains, a
product is a chain of two or more items that leans to the left: at most one coefficient, which is a
literal other than zero and one, then powers of different bases in the order of the bases, or the
bases themselves, then at most one matrix.  Unless a base that is a literal, a product or a power
stands for itself, the items are the factors: the argument of no product is a product, only the
first factor may be a literal, and it is neither zero nor one, the scalars have different bases in
ascending order, and only the last factor may be a matrix. -/
theorem product_items (h : s.Reachable) (hb : s.Builtin) (he : s.Knows e)
    (hproduct : e.isProduct = true) : ∃ items : List Expr.ChainItem,
      2 ≤ items.length ∧ (∀ i ∈ items, i.Valid s) ∧ items.Pairwise Expr.ChainItem.Precedes ∧
      Expr.Chained (items.map Expr.ChainItem.expr) e ∧
      ((∀ b : Expr, .raised b b ∈ items → b.isCompound = false) → e.IsCanonicalProduct) := by
  have hwf := h.wellFormed
  obtain ⟨items, ⟨hvalid, horder, hchained⟩, hlength⟩ := (h.itemized hb).product he hproduct
  refine ⟨items, hlength, hvalid, horder, hchained, fun hplain => ?_⟩
  refine Expr.isCanonicalProduct_of_items hwf (hchained.knows hwf he) hvalid (fun i hi => ?_) horder
    hchained hlength
  cases i with
  | raised e b =>
    rintro rfl
    exact hplain e hi
  | coefficient _ | matrix _ => trivial

/-- The exponents of `2 * i` in `2 * (2 * i) ^ 2 / (2 * i)` add up to one, so that it stands for
itself in the chain, which is not canonical. -/
theorem product_items_bare_base :
    let s₁ := finalState ((Operation.number (.int 2)).run 9 initial)
    let s₂ := finalState ((Operation.product [s₁.nodes[50]!, s₁.nodes[0]!]).run 9 s₁)
    let s₃ := finalState ((Operation.power s₂.nodes[52]! s₂.nodes[50]!).run 9 s₂)
    let s₄ := finalState ((Operation.product [s₃.nodes[50]!, s₃.nodes[55]!]).run 9 s₃)
    let s := finalState ((Operation.div s₄.nodes[56]! s₄.nodes[52]!).run 9 s₄)
    let e := s.nodes[60]!
    initial.Reaches s ∧ s.Builtin ∧ s.Knows e ∧ e.isProduct = true ∧ ¬e.IsCanonicalProduct ∧
      ∃ (items : List Expr.ChainItem) (c : Expr), Expr.Chained (items.map Expr.ChainItem.expr) e ∧
        .raised c c ∈ items ∧ c.isCompound = true := by
  intro s₁ s₂ s₃ s₄ s e
  have hbare {s : Store} {e : Expr} (h : s.Reachable) (hb : s.Builtin) (he : s.Knows e)
      (hproduct : e.isProduct = true) (hcanonical : ¬e.IsCanonicalProduct) :
      ∃ (items : List Expr.ChainItem) (c : Expr), Expr.Chained (items.map Expr.ChainItem.expr) e ∧
        .raised c c ∈ items ∧ c.isCompound = true := by
    obtain ⟨items, -, -, -, hchained, hplain⟩ := product_items h hb he hproduct
    refine ⟨items, ?_⟩
    by_contra hnone
    refine hcanonical (hplain fun c hc => Bool.eq_false_iff.2 fun hcompound => hnone ?_)
    exact ⟨c, hchained, hc, hcompound⟩
  have h₁ : initial.Reaches s₁ := .step _ 9 .refl trivial
  have h₂ : initial.Reaches s₂ :=
    .step _ 9 h₁ (h₁.knows_getElem!_pair (by decide +kernel) (by decide +kernel))
  have h₃ : initial.Reaches s₃ :=
    .step _ 9 h₂ (h₂.knows_getElem!_pair (by decide +kernel) (by decide +kernel))
  have h₄ : initial.Reaches s₄ :=
    .step _ 9 h₃ (h₃.knows_getElem!_pair (by decide +kernel) (by decide +kernel))
  have h : initial.Reaches s :=
    .step _ 9 h₄ (h₄.knows_getElem!_pair (by decide +kernel) (by decide +kernel))
  have hb : s.Builtin := .of_nodes (by decide +kernel)
  have he : s.Knows e := h.knows_getElem! (by decide +kernel)
  have hproduct : e.isProduct = true := by decide +kernel
  have hargument {e : Expr} (hproduct : e.isProduct = true) (h : e.IsCanonicalProduct) :
      e.children[1]!.isProduct = false := by
    obtain ⟨t, a, hkind, -⟩ := Expr.exists_of_isProduct hproduct
    simpa [Expr.children, hkind, Kind.children] using h.argument t a hkind
  have hcanonical : ¬e.IsCanonicalProduct := fun h =>
    absurd (hargument hproduct h) (by decide +kernel)
  exact ⟨h, hb, he, hproduct, hcanonical, hbare h.reachable hb he hproduct hcanonical⟩

end Store.Reachable

end TermGraph
