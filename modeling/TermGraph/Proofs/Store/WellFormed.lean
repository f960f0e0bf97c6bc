import TermGraph.Proofs.Store.Growth

/-!
# Well-formed stores

A store is well formed when its nodes, its table and its placeholders fit together: every node
lies at its own ordinal above its children, and the table leads from the structure of a node to
that node and to no other.

* `s.Knows a`: the store `s` holds every expression in `a`.  It makes sense for expressions, for
  the functions and values that hold expressions, and for lists, pairs and memos of such.
* `Store.holds` checks, by evaluation, that a scalar is known.
* `Store.WellFormed` is the invariant, and `Store.Admits` is what a new node must satisfy for the
  invariant to be kept.
* `Store.Blank`: the store is well formed and has symbols only, as before the first operation, with
  placeholders made ahead (`Store.initial`) or not (`Store.bare`).
* `Yields s x`: run from a state `s`, the computation `x` keeps the invariant, and the store knows
  its result.
-/

namespace TermGraph

namespace Value

/-- The functions that a value holds, however deep. -/
inductive Holds (f : Function) : Value → Prop
  | function : Holds f (.function f)
  | item {identity : ℕ} {element : HostType} {items : List Value} {v : Value} :
    v ∈ items → Holds f v → Holds f (.array identity element items)
  | component {items : List Value} {v : Value} : v ∈ items → Holds f v → Holds f (.tuple items)
  | member {identity : ℕ} {type : HostType} {fields : List (String × Value)}
      {table : Option (List (List Value × Value))} {entry : String × Value} :
    entry ∈ fields → Holds f entry.2 → Holds f (.object identity type fields table)
  | row {identity : ℕ} {type : HostType} {fields : List (String × Value)}
      {rows : List (List Value × Value)} {row : List Value × Value} :
    row ∈ rows → Holds f row.2 → Holds f (.object identity type fields (some rows))

end Value

/-- The functions that a node holds in its own data. -/
def Kind.Holds (f : Function) : Kind → Prop
  | .function g => g = f
  | .object v _ => v.Holds f
  | _ => False

/-! ## What a store knows -/

/-- Data whose expressions a store may hold. -/
class Knowable (α : Type) where
  /-- The store holds every expression in `a`. -/
  KnownBy : Store → α → Prop
  /-- What is known stays known. -/
  mono : ∀ {s t : Store} {a : α}, s ≤ t → KnownBy s a → KnownBy t a

namespace Store

/-- The store holds every expression in `a`. -/
def Knows {α : Type} [Knowable α] (s : Store) (a : α) : Prop :=
  Knowable.KnownBy s a

variable {α β : Type} [Knowable α] [Knowable β] {s t : Store}

@[grind →]
lemma Knows.mono {a : α} (h : s.Knows a) (hle : s ≤ t) : t.Knows a :=
  Knowable.mono hle h

instance : Knowable Expr where
  KnownBy s e := s.nodes[e.ordinal]? = some e
  mono hle h := hle.nodes h

instance : Knowable (List α) where
  KnownBy s l := ∀ a ∈ l, s.Knows a
  mono hle h a ha := (h a ha).mono hle

instance : Knowable (Option α) where
  KnownBy s o := ∀ a ∈ o, s.Knows a
  mono hle h a ha := (h a ha).mono hle

instance : Knowable (α × β) where
  KnownBy s p := s.Knows p.1 ∧ s.Knows p.2
  mono hle h := ⟨h.1.mono hle, h.2.mono hle⟩

instance : Knowable Function where
  KnownBy s f :=
    match f with
    | .lambda _ _ params body => s.Knows params ∧ s.Knows body
    | _ => True
  mono {s t f} hle h := by
    cases f with
    | lambda _ _ params body => exact ⟨h.1.mono hle, h.2.mono hle⟩
    | builtin _ | native _ _ _ => trivial

instance : Knowable Value where
  KnownBy s v := ∀ f, v.Holds f → s.Knows f
  mono hle h f hf := (h f hf).mono hle

instance : Knowable Memo where
  KnownBy s m := ∀ (k : ℕ) (e : Expr), m[k]? = some e → s.Knows e
  mono hle h k e hk := (h k e hk).mono hle

instance : Knowable DerivativeTable where
  KnownBy s m := ∀ (k : List ℕ) (e : Expr), m[k]? = some e → s.Knows e
  mono hle h k e hk := (h k e hk).mono hle

instance : Knowable (Except Error α) where
  KnownBy s x := ∀ a, x = .ok a → s.Knows a
  mono hle h a ha := (h a ha).mono hle

instance : Knowable Normalizer where
  KnownBy s n := s.Knows n.memo
  mono hle h := Knows.mono h hle

/-- Data without expressions. -/
class Plain (α : Type) : Prop

instance [Plain α] : Knowable α where
  KnownBy _ _ := True
  mono _ _ := trivial

instance : Plain Unit where
instance : Plain Bool where
instance : Plain ℕ where
instance : Plain Float where
instance : Plain Binary64 where
instance : Plain Number where
instance : Plain Domain where
instance : Plain Matrix where
instance : Plain Store where

@[simp, grind .] lemma knows_plain {γ : Type} [Plain γ] (a : γ) : s.Knows a := trivial

lemma knows_iff_getElem? {e : Expr} : s.Knows e ↔ s.nodes[e.ordinal]? = some e := Iff.rfl

/-- Which expressions are known depends on the nodes alone. -/
lemma knows_iff_of_nodes {e : Expr} (hnodes : t.nodes = s.nodes) : t.Knows e ↔ s.Knows e := by
  rw [knows_iff_getElem?, knows_iff_getElem?, hnodes]

@[simp, grind .] lemma knows_nil : s.Knows ([] : List α) := by simp [Knows, Knowable.KnownBy]

@[simp, grind =] lemma knows_cons {a : α} {l : List α} : s.Knows (a :: l) ↔ s.Knows a ∧ s.Knows l := by
  simp [Knows, Knowable.KnownBy]

@[simp, grind =] lemma knows_append {l m : List α} : s.Knows (l ++ m) ↔ s.Knows l ∧ s.Knows m := by
  simp only [Knows, Knowable.KnownBy, List.mem_append]
  exact ⟨fun h => ⟨fun a ha => h a (.inl ha), fun a ha => h a (.inr ha)⟩,
    fun h a ha => ha.elim (h.1 a) (h.2 a)⟩

@[simp, grind .] lemma knows_none : s.Knows (none : Option α) := by simp [Knows, Knowable.KnownBy]

@[simp, grind =] lemma knows_some {a : α} : s.Knows (some a) ↔ s.Knows a := by
  simp [Knows, Knowable.KnownBy]

@[simp, grind =] lemma knows_pair {a : α} {b : β} : s.Knows (a, b) ↔ s.Knows a ∧ s.Knows b := Iff.rfl

/-- A list is known if all its items are known somehow. -/
lemma Knows.of_subset {l m : List α} (h : s.Knows l) (hsub : m ⊆ l) : s.Knows m :=
  fun a ha => h a (hsub ha)

@[simp] lemma knows_reverse {l : List α} : s.Knows l.reverse ↔ s.Knows l := by
  simp [Knows, Knowable.KnownBy]

lemma Knows.toList {o : Option α} (h : s.Knows o) : s.Knows o.toList := by
  cases o with
  | none => simp
  | some a => simpa using h

section Values

variable {identity : ℕ} {element : HostType} {items : List Value}

@[simp] lemma knows_number (n : Number) : s.Knows (Value.number n) := fun _ h => nomatch h

@[simp] lemma knows_matrix (m : Matrix) : s.Knows (Value.matrix identity m) := fun _ h => nomatch h

@[simp] lemma knows_field (name : String) : s.Knows (Value.field name) := fun _ h => nomatch h

@[simp, grind =] lemma knows_function {f : Function} : s.Knows (Value.function f) ↔ s.Knows f := by
  refine ⟨fun h => h f .function, fun h g hg => ?_⟩
  cases hg
  exact h

@[simp, grind .] lemma knows_builtin (b : Builtin) : s.Knows (Function.builtin b) := trivial

@[simp, grind .] lemma knows_native (name : String) (definition : Native) :
    s.Knows (Function.native identity name definition) := trivial

@[simp, grind =] lemma knows_lambda {name : String} {params : List Expr} {body : Expr} :
    s.Knows (Function.lambda identity name params body) ↔ s.Knows params ∧ s.Knows body := Iff.rfl

@[simp, grind =] lemma knows_tuple : s.Knows (Value.tuple items) ↔ s.Knows items := by
  refine ⟨fun h v hv f hf => h f (.component hv hf), fun h f hf => ?_⟩
  cases hf with
  | component hv hf => exact h _ hv f hf

@[simp, grind =] lemma knows_array : s.Knows (Value.array identity element items) ↔ s.Knows items := by
  refine ⟨fun h v hv f hf => h f (.item hv hf), fun h f hf => ?_⟩
  cases hf with
  | item hv hf => exact h _ hv f hf

end Values

end Store

/-! ## Checks

Where a store is the outcome of operations, what it knows is found by evaluation.  Expressions have no
decidable equality, so the nodes of scalars are compared by a program. -/

/-- A check that two domains without data are the same. -/
def Domain.isCopy : Domain → Domain → Bool
  | .universal, .universal | .matrices, .matrices | .reals, .reals | .integers, .integers
  | .functions, .functions | .fields, .fields => true
  | _, _ => false

lemma Domain.eq_of_isCopy {d d' : Domain} (h : d.isCopy d' = true) : d = d' := by
  cases d <;> cases d' <;> first | rfl | cases h

mutual

/-- A check that two scalars are the same. -/
def Expr.isCopy : Expr → Expr → Bool
  | .node i d k, .node i' d' k' => i == i' && d.isCopy d' && k.isCopy k'

/-- A check that two structures of scalars are the same. -/
def Kind.isCopy (k k' : Kind) : Bool :=
  match k with
  | .symbol name =>
    match k' with
    | .symbol name' => name == name'
    | _ => false
  | .number n =>
    match k' with
    | .number n' => decide (n = n')
    | _ => false
  | .function (.builtin f) =>
    match k' with
    | .function (.builtin f') => decide (f = f')
    | _ => false
  | .apply t a =>
    match k' with
    | .apply t' a' => t.isCopy t' && a.isCopy a'
    | _ => false
  | .indexedSum i l u b =>
    match k' with
    | .indexedSum i' l' u' b' => i.isCopy i' && l.isCopy l' && u.isCopy u' && b.isCopy b'
    | _ => false
  | _ => false

end

mutual

lemma Expr.eq_of_isCopy : ∀ {e e' : Expr}, e.isCopy e' = true → e = e'
  | .node i d k, .node i' d' k', h => by
    simp only [Expr.isCopy, Bool.and_eq_true, beq_iff_eq] at h
    rw [h.1.1, Domain.eq_of_isCopy h.1.2, Kind.eq_of_isCopy h.2]

lemma Kind.eq_of_isCopy : ∀ {k k' : Kind}, k.isCopy k' = true → k = k'
  | .symbol name, k', h => by
    cases k' with
    | symbol name' => exact congrArg Kind.symbol (beq_iff_eq.1 h)
    | _ => cases h
  | .number n, k', h => by
    cases k' with
    | number n' => exact congrArg Kind.number (of_decide_eq_true h)
    | _ => cases h
  | .function (.builtin f), k', h => by
    cases k' with
    | function g =>
      cases g with
      | builtin f' => exact congrArg (fun f => Kind.function (.builtin f)) (of_decide_eq_true h)
      | _ => cases h
    | _ => cases h
  | .apply t a, k', h => by
    cases k' with
    | apply t' a' =>
      rw [Kind.isCopy, Bool.and_eq_true] at h
      rw [Expr.eq_of_isCopy h.1, Expr.eq_of_isCopy h.2]
    | _ => cases h
  | .indexedSum i l u b, k', h => by
    cases k' with
    | indexedSum i' l' u' b' =>
      simp only [Kind.isCopy, Bool.and_eq_true] at h
      rw [Expr.eq_of_isCopy h.1.1.1, Expr.eq_of_isCopy h.1.1.2, Expr.eq_of_isCopy h.1.2,
        Expr.eq_of_isCopy h.2]
    | _ => cases h
  | .function (.native _ _ _), _, h | .function (.lambda _ _ _ _), _, h | .object _ _, _, h
  | .field _, _, h | .tuple _, _, h | .sum _, _, h | .generator _ _ _, _, h | .chain _, _, h
  | .inverse _, _, h | .transpose _, _, h | .collectionSum _ _ _, _, h => by cases h

end

namespace Store

/-- A check that the store knows a scalar. -/
def holds (s : Store) (e : Expr) : Bool :=
  s.nodes[e.ordinal]?.any e.isCopy

lemma Knows.of_holds {s : Store} {e : Expr} (h : s.holds e = true) : s.Knows e := by
  obtain ⟨e', he', hcopy⟩ := (Option.any_eq_true _ _).1 h
  rw [← Expr.eq_of_isCopy hcopy] at he'
  exact he'

end Store

/-! ## The invariant -/

@[simp] lemma Expr.beq_iff_ordinal {a b : Expr} : (a == b) = true ↔ a.ordinal = b.ordinal := by
  show (a.ordinal == b.ordinal) = true ↔ _
  rw [beq_iff_eq]

/-- Whether a domain is not a custom one. -/
def Domain.isBuiltin : Domain → Bool
  | .custom _ _ _ _ => false
  | _ => true

/-- Host types have no custom domains. -/
lemma Domain.isBuiltin_ofType (type : HostType) (resolver : Resolver) :
    (Domain.ofType type resolver).isBuiltin = true := by
  cases type <;> rfl

namespace Kind

/-- The domain of a node is that of its kind; symbols, captured values and summations may have
any. -/
def Typed (kind : Kind) (domain : Domain) : Prop :=
  match kind with
  | .number n => domain = if n.isInt then .integers else .reals
  | .field _ => domain = .fields
  | .function _ => domain = .functions
  | .tuple _ => domain = .universal
  | .apply target argument => Expr.applyDomain? target argument = some domain
  | .sum terms => Expr.sumDomain terms = .ok domain
  | .generator _ _ _ | .chain _ | .inverse _ | .transpose _ => domain = .matrices
  | .symbol _ | .object _ _ | .indexedSum _ _ _ _ | .collectionSum _ _ _ => True

/-- The symbol that a summation binds. -/
def index? : Kind → Option Expr
  | .indexedSum index _ _ _ => some index
  | .collectionSum index _ _ => some index
  | _ => none

end Kind

namespace Store

/-- The store can take a node of a domain and kind. -/
structure Admits (s : Store) (domain : Domain) (kind : Kind) : Prop where
  /-- The children are there. -/
  children : s.Knows kind.children
  /-- What the functions in the node refer to is there. -/
  functions : ∀ f, kind.Holds f → s.Knows f
  /-- The domain is the right one. -/
  typed : kind.Typed domain
  /-- Summations bind placeholders. -/
  index : ∀ i ∈ kind.index?, ∃ p ∈ s.placeholders, p.symbol = i

/-- Nodes, table and placeholders fit together. -/
structure WellFormed (s : Store) : Prop where
  /-- A node lies at its own ordinal. -/
  ordinal : ∀ {i : ℕ} {e : Expr}, s.nodes[i]? = some e → e.ordinal = i
  /-- The children of a node are nodes, and so on. -/
  admits : ∀ {e : Expr}, s.Knows e → s.Admits e.domain e.kind
  /-- Children are older. -/
  below : ∀ {e c : Expr}, s.Knows e → c ∈ e.children → c.ordinal < e.ordinal
  /-- The table leads to nodes of the structure looked up. -/
  table_sound : ∀ {code : List ℕ} {e : Expr}, s.table[code]? = some e →
    s.Knows e ∧ e.kind.code = some code
  /-- The table leads to every node that has a structure. -/
  table_complete : ∀ {code : List ℕ} {e : Expr}, s.Knows e → e.kind.code = some code →
    s.table[code]? = some e
  /-- Placeholders are symbols of their domain. -/
  placeholder : ∀ {p : Placeholder}, p ∈ s.placeholders → s.Knows p.symbol ∧
    p.symbol = .node p.symbol.ordinal p.domain (.symbol (placeholderName p.level))
  /-- No two placeholders share a symbol. -/
  distinct : (s.placeholders.map fun p => p.symbol.ordinal).Nodup
  /-- The row index is there. -/
  rowIndex : s.Knows Expr.rowIndex
  /-- The column index is there. -/
  colIndex : s.Knows Expr.colIndex

variable {s t : Store} {domain : Domain} {kind : Kind}

lemma Admits.mono (h : s.Admits domain kind) (hle : s ≤ t) : t.Admits domain kind where
  children := h.children.mono hle
  functions f hf := (h.functions f hf).mono hle
  typed := h.typed
  index i hi := by
    obtain ⟨p, hp, rfl⟩ := h.index i hi
    exact ⟨p, hle.placeholders.subset hp, rfl⟩

namespace WellFormed

lemma lt_size {e : Expr} (h : s.Knows e) : e.ordinal < s.nodes.size :=
  (Array.getElem?_eq_some_iff.1 h).1

/-- Known expressions are one and the same if their ordinals are. -/
lemma eq_of_ordinal {a b : Expr} (ha : s.Knows a) (hb : s.Knows b) (h : a.ordinal = b.ordinal) :
    a = b := by
  rw [knows_iff_getElem?, h] at ha
  exact Option.some.inj (ha.symm.trans hb)

lemma children (hs : s.WellFormed) {e : Expr} (h : s.Knows e) : s.Knows e.children :=
  (hs.admits h).children

/-- The sides of an application are nodes. -/
lemma knows_of_apply (hs : s.WellFormed) {e t a : Expr} (h : s.Knows e) (hkind : e.kind = .apply t a) :
    s.Knows t ∧ s.Knows a := by
  have hchildren := hs.children h
  rw [Expr.children, hkind, Kind.children, knows_cons, knows_cons] at hchildren
  exact ⟨hchildren.1, hchildren.2.1⟩

/-- The sides of a pair are nodes. -/
lemma knows_of_pair (hs : s.WellFormed) {e a b : Expr} (h : s.Knows e) (hkind : e.kind = .tuple [a, b]) :
    s.Knows a ∧ s.Knows b := by
  have hchildren := hs.children h
  rw [Expr.children, hkind, Kind.children, knows_cons, knows_cons] at hchildren
  exact ⟨hchildren.1, hchildren.2.1⟩

/-- The invariant is about nodes, table and placeholders alone. -/
lemma of_eq (hs : s.WellFormed) (hle : s ≤ t) (hnodes : t.nodes = s.nodes)
    (htable : t.table = s.table) (hplaceholders : t.placeholders = s.placeholders) : t.WellFormed := by
  obtain ⟨nodes, table, placeholders, identity, tallies, exact, bound⟩ := t
  obtain ⟨nodes', table', placeholders', identity', tallies', exact', bound'⟩ := s
  subst hnodes htable hplaceholders
  exact ⟨hs.ordinal, fun h => (hs.admits h).mono hle, hs.below, hs.table_sound,
    hs.table_complete, hs.placeholder, hs.distinct, hs.rowIndex, hs.colIndex⟩

/-- A store with one more node at its end, which the table leads to if it has a structure. -/
lemma push (hs : s.WellFormed) (hadm : s.Admits domain kind) {table : Std.TreeMap (List ℕ) Expr}
    (htable : ∀ (code : List ℕ) (e : Expr), table[code]? = some e ↔
      s.table[code]? = some e ∨
        kind.code = some code ∧ e = .node s.nodes.size domain kind)
    (hle : s ≤ { s with nodes := s.nodes.push (.node s.nodes.size domain kind), table := table }) :
    { s with nodes := s.nodes.push (.node s.nodes.size domain kind), table := table }.WellFormed
    where
  ordinal {i e} h := by
    rw [Array.getElem?_push] at h
    split at h
    · cases h
      simp only [Expr.ordinal]
      omega
    · exact hs.ordinal h
  admits {e} h := by
    rw [knows_iff_getElem?, Array.getElem?_push] at h
    split at h
    · cases h
      exact hadm.mono hle
    · exact (hs.admits h).mono hle
  below {e c} h hc := by
    rw [knows_iff_getElem?, Array.getElem?_push] at h
    split at h
    · cases h
      exact lt_size (hadm.children c hc)
    · exact hs.below h hc
  table_sound {code e} h := by
    rcases (htable code e).1 h with hold | ⟨hcode, rfl⟩
    · obtain ⟨hknown, hcode⟩ := hs.table_sound hold
      exact ⟨hknown.mono hle, hcode⟩
    · exact ⟨by simp [knows_iff_getElem?, Expr.ordinal], hcode⟩
  table_complete {code e} h hcode := by
    rw [knows_iff_getElem?, Array.getElem?_push] at h
    split at h
    · cases h
      exact (htable code _).2 (.inr ⟨hcode, rfl⟩)
    · exact (htable code e).2 (.inl (hs.table_complete h hcode))
  placeholder hp := ⟨(hs.placeholder hp).1.mono hle, (hs.placeholder hp).2⟩
  distinct := hs.distinct
  rowIndex := hs.rowIndex.mono hle
  colIndex := hs.colIndex.mono hle

/-- The node of an admitted kind is known, and has the structure that was asked for. -/
lemma intern (hs : s.WellFormed) (hadm : s.Admits domain kind) :
    (s.intern domain kind).2.WellFormed ∧
      (s.intern domain kind).2.Knows (s.intern domain kind).1 ∧
      (s.intern domain kind).1.kind.code = kind.code := by
  have hle := le_intern domain kind s
  rw [Store.intern] at hle ⊢
  cases hcode : kind.code with
  | none =>
    simp only [hcode] at hle ⊢
    refine ⟨hs.push hadm (fun code e => ?_) hle, by simp [knows_iff_getElem?, Expr.ordinal], hcode⟩
    simp [hcode]
  | some code =>
    simp only [hcode] at hle ⊢
    cases hfound : s.table[code]? with
    | some e =>
      obtain ⟨hknown, hcode'⟩ := hs.table_sound hfound
      exact ⟨hs, hknown, hcode'⟩
    | none =>
      simp only [hfound] at hle ⊢
      refine ⟨hs.push hadm (fun code' e => ?_) hle, by simp [knows_iff_getElem?, Expr.ordinal],
        hcode⟩
      rw [Std.TreeMap.getElem?_insert]
      by_cases heq : code = code'
      · subst heq
        simp [hfound, hcode, eq_comm]
      · simp [heq, hcode]

/-- The placeholder of a level is a placeholder, and known. -/
lemma placeholderOf (hs : s.WellFormed) (level : ℕ) (domain : Domain) :
    (s.placeholder level domain).2.WellFormed ∧
      (s.placeholder level domain).2.Knows (s.placeholder level domain).1 ∧
      ∃ p ∈ (s.placeholder level domain).2.placeholders, p.level = level ∧
        p.domain.same domain = true ∧ p.symbol = (s.placeholder level domain).1 := by
  have hle := le_placeholder level domain s
  rw [Store.placeholder] at hle ⊢
  cases hfound : s.placeholders.find? fun p => p.level == level && p.domain == domain with
  | some p =>
    have hmem := List.mem_of_find?_eq_some hfound
    have hp := List.find?_some hfound
    simp only [Bool.and_eq_true, beq_iff_eq] at hp
    exact ⟨hs, (hs.placeholder hmem).1, p, hmem, hp.1, hp.2, rfl⟩
  | none =>
    simp only [hfound] at hle ⊢
    have hadm : s.Admits domain (.symbol (placeholderName level)) :=
      ⟨by simp [Kind.children], fun _ h => h.elim, trivial, by simp [Kind.index?]⟩
    obtain ⟨hwf, hknown, -⟩ := hs.intern hadm
    have hnew : (s.intern domain (.symbol (placeholderName level))) =
      (.node s.nodes.size domain (.symbol (placeholderName level)),
        { s with nodes :=
          s.nodes.push (.node s.nodes.size domain (.symbol (placeholderName level))) }) := rfl
    rw [hnew] at hwf hknown hle ⊢
    dsimp only at hwf hknown hle ⊢
    refine ⟨?_, hknown, ⟨level, domain, _⟩, by simp, rfl, domain.same_self, rfl⟩
    exact {
      ordinal := hwf.ordinal
      admits := fun h => (hwf.admits h).mono
        ⟨id, id, List.prefix_append _ _, le_rfl, id, List.suffix_refl _⟩
      below := hwf.below
      table_sound := hwf.table_sound
      table_complete := hwf.table_complete
      placeholder := fun {p} hp => by
        rcases List.mem_append.1 hp with hp | hp
        · exact hwf.placeholder hp
        · rw [List.mem_singleton] at hp
          subst hp
          exact ⟨hknown, rfl⟩
      distinct := by
        rw [List.map_append, List.nodup_append]
        refine ⟨hs.distinct, by simp, fun i hi j hj => ?_⟩
        -- The new symbol lies behind all symbols that were known before.
        obtain ⟨p, hp, rfl⟩ := List.mem_map.1 hi
        have hlt := lt_size (hs.placeholder hp).1
        simp only [List.map_cons, List.map_nil, List.mem_singleton, Expr.ordinal] at hj
        omega
      rowIndex := hwf.rowIndex
      colIndex := hwf.colIndex }

end WellFormed

/-- Nothing has been built: the nodes are the index symbols, placeholders, and whatever symbols have been
made. -/
structure Blank (s : Store) : Prop extends s.WellFormed where
  /-- All nodes are symbols. -/
  exists_symbol : ∀ {e : Expr}, s.Knows e → ∃ name, e.kind = .symbol name

/-- A store of symbols in their order, with nothing in its table. -/
lemma blank_of_isSymbol {n : ℕ} (hsymbols : ∀ e ∈ s.nodes.toList, e.isSymbol = true)
    (hordinals : s.nodes.toList.map Expr.ordinal = List.range n) (htable : s.table = ∅)
    (hplaceholders : ∀ p ∈ s.placeholders, p.symbol ∈ s.nodes ∧
      p.symbol = .node p.symbol.ordinal p.domain (.symbol (placeholderName p.level)))
    (hdistinct : (s.placeholders.map fun p => p.symbol.ordinal).Nodup)
    (hrow : s.Knows Expr.rowIndex) (hcol : s.Knows Expr.colIndex) : s.Blank := by
  have hordinal {i : ℕ} {e : Expr} (h : s.nodes[i]? = some e) : e.ordinal = i := by
    have hi := congrArg (·[i]?) hordinals
    simp only [List.getElem?_map, Array.getElem?_toList, h, Option.map_some] at hi
    obtain ⟨_, hget⟩ := List.getElem?_eq_some_iff.1 hi.symm
    simpa using hget.symm
  have hsymbol {e : Expr} (h : s.Knows e) : ∃ name, e.kind = .symbol name := by
    have he := hsymbols e (Array.mem_toList_iff.2 (Array.mem_of_getElem? h))
    rw [Expr.isSymbol] at he
    split at he
    · exact ⟨_, ‹_›⟩
    · cases he
  refine ⟨⟨hordinal, fun {e} h => ?_, fun {e c} h hc => ?_, fun {code e} h => ?_,
    fun {code e} h hcode => ?_, fun {p} hp => ?_, hdistinct, hrow, hcol⟩, hsymbol⟩
  · obtain ⟨name, hkind⟩ := hsymbol h
    rw [hkind]
    exact ⟨by simp [Kind.children], fun _ h => h.elim, trivial, by simp [Kind.index?]⟩
  · obtain ⟨name, hkind⟩ := hsymbol h
    rw [Expr.children, hkind] at hc
    cases hc
  · simp [htable] at h
  · obtain ⟨name, hkind⟩ := hsymbol h
    rw [hkind] at hcode
    cases hcode
  · obtain ⟨hmem, hp⟩ := hplaceholders p hp
    refine ⟨?_, hp⟩
    obtain ⟨i, hi⟩ := Array.getElem?_of_mem hmem
    rw [knows_iff_getElem?, hordinal hi]
    exact hi

/-- Before anything is built, the store holds the index symbols and the first placeholders. -/
lemma blank_initial : initial.Blank := by
  refine blank_of_isSymbol (n := 50) (by decide) (by decide) rfl (fun p hp => ?_) (by decide) rfl rfl
  have hp' : p ∈ firstPlaceholders := hp
  simp only [firstPlaceholders, List.mem_flatMap, List.mem_map] at hp'
  obtain ⟨⟨row, domain⟩, hrow, k, hk, rfl⟩ := hp'
  refine ⟨Array.mem_toList_iff.1 ?_, rfl⟩
  simp only [initial, List.mem_cons, List.mem_map]
  exact .inr (.inr ⟨_, hp, rfl⟩)

lemma wellFormed_initial : initial.WellFormed :=
  blank_initial.toWellFormed

/-- The store in which no placeholder has been made yet. -/
def bare : Store :=
  { initial with nodes := #[Expr.rowIndex, Expr.colIndex], placeholders := [] }

lemma blank_bare : bare.Blank :=
  blank_of_isSymbol (n := 2) (by decide) (by decide) rfl (by simp [bare]) (by decide) rfl rfl

end Store

/-! ## Structures -/

namespace Kind

lemma eq_apply_of_code {k : Kind} {t a : Expr} (h : k.code = (Kind.apply t a).code) :
    ∃ t' a', k = .apply t' a' ∧ t'.ordinal = t.ordinal ∧ a'.ordinal = a.ordinal := by
  cases k <;> simp [code] at h
  case apply t' a' => exact ⟨t', a', rfl, h⟩

lemma eq_tuple_of_code {k : Kind} {items : List Expr} (h : k.code = (Kind.tuple items).code) :
    ∃ items', k = .tuple items' ∧ items'.map Expr.ordinal = items.map Expr.ordinal := by
  cases k <;> simp [code] at h
  case tuple items' => exact ⟨items', rfl, h⟩

lemma eq_sum_of_code {k : Kind} {terms : List Expr} (h : k.code = (Kind.sum terms).code) :
    ∃ terms', k = .sum terms' ∧ terms'.map Expr.ordinal = terms.map Expr.ordinal := by
  cases k <;> simp [code] at h
  case sum terms' => exact ⟨terms', rfl, h⟩

lemma eq_chain_of_code {k : Kind} {factors : List Expr}
    (h : k.code = (Kind.chain factors).code) :
    ∃ factors', k = .chain factors' ∧ factors'.map Expr.ordinal = factors.map Expr.ordinal := by
  cases k <;> simp [code] at h
  case chain factors' => exact ⟨factors', rfl, h⟩

end Kind

namespace Store.WellFormed

variable {s : Store} {a b e t : Expr} {items : List Expr}

/-- Nodes of one structure are one node. -/
lemma eq_of_code (hs : s.WellFormed) (ha : s.Knows a) (hb : s.Knows b)
    (h : a.kind.code = b.kind.code) {code : List ℕ} (hcode : b.kind.code = some code) : a = b := by
  have hfound := hs.table_complete ha (h.trans hcode)
  rw [hs.table_complete hb hcode] at hfound
  exact (Option.some.inj hfound).symm

/-- Nodes of one kind are one node, except for symbols. -/
lemma eq_of_kind {kind : Kind} (hs : s.WellFormed) (ha : s.Knows a) (hb : s.Knows b)
    (h : a.kind = kind) (h' : b.kind = kind) (hcode : kind.code ≠ none) : a = b := by
  obtain ⟨code, hcode⟩ := Option.ne_none_iff_exists'.1 hcode
  exact hs.eq_of_code ha hb (by rw [h, h']) (by rw [h', hcode])

/-- Lists of nodes are equal if their ordinals are. -/
lemma eq_of_ordinals {l m : List Expr} (hl : s.Knows l) (hm : s.Knows m)
    (h : l.map Expr.ordinal = m.map Expr.ordinal) : l = m := by
  induction l generalizing m with
  | nil =>
    cases m with
    | nil => rfl
    | cons b m => cases h
  | cons a l ih =>
    cases m with
    | nil => cases h
    | cons b m =>
      rw [List.map_cons, List.map_cons, List.cons.injEq] at h
      rw [knows_cons] at hl hm
      rw [eq_of_ordinal hl.1 hm.1 h.1, ih hl.2 hm.2 h.2]


/-- A node with the structure of an application is that application. -/
lemma kind_eq_apply (hs : s.WellFormed) (he : s.Knows e) (ht : s.Knows t) (ha : s.Knows a)
    (h : e.kind.code = (Kind.apply t a).code) : e.kind = .apply t a := by
  obtain ⟨t', a', hkind, ht', ha'⟩ := Kind.eq_apply_of_code h
  obtain ⟨hknown, hknown'⟩ := hs.knows_of_apply he hkind
  rw [hkind, eq_of_ordinal hknown ht ht', eq_of_ordinal hknown' ha ha']

/-- A node with the structure of a tuple is that tuple. -/
lemma kind_eq_tuple (hs : s.WellFormed) (he : s.Knows e) (hitems : s.Knows items)
    (h : e.kind.code = (Kind.tuple items).code) : e.kind = .tuple items := by
  obtain ⟨items', hkind, hordinals⟩ := Kind.eq_tuple_of_code h
  have hitems' : s.Knows items' := by
    have hchildren := hs.children he
    rwa [Expr.children, hkind] at hchildren
  rw [hkind, eq_of_ordinals hitems' hitems hordinals]

/-- A node with the structure of a product of matrices is that product. -/
lemma kind_eq_chain (hs : s.WellFormed) (he : s.Knows e) (hitems : s.Knows items)
    (h : e.kind.code = (Kind.chain items).code) : e.kind = .chain items := by
  obtain ⟨items', hkind, hordinals⟩ := Kind.eq_chain_of_code h
  have hitems' : s.Knows items' := by
    have hchildren := hs.children he
    rwa [Expr.children, hkind] at hchildren
  rw [hkind, eq_of_ordinals hitems' hitems hordinals]

/-- A node with the structure of a sum is that sum. -/
lemma kind_eq_sum (hs : s.WellFormed) (he : s.Knows e) (hitems : s.Knows items)
    (h : e.kind.code = (Kind.sum items).code) : e.kind = .sum items := by
  obtain ⟨items', hkind, hordinals⟩ := Kind.eq_sum_of_code h
  have hitems' : s.Knows items' := by
    have hchildren := hs.children he
    rwa [Expr.children, hkind] at hchildren
  rw [hkind, eq_of_ordinals hitems' hitems hordinals]

end Store.WellFormed

/-! ## Runs from well-formed stores -/

namespace Kind

/-- Whether a node of this kind multiplies numbers or matrices. -/
def isProduct : Kind → Bool
  | .apply target argument => Expr.multiplies target argument
  | _ => false

/-- Whether a node of this kind is a sum. -/
def isSum : Kind → Bool
  | .sum _ => true
  | _ => false

/-- Whether a node of this kind is ever needed: sums and matrix products of fewer than two items are
not, a power of one or to the exponent zero or one is not, and a call of a function with a body is not
either, unless a custom domain has a say. -/
def isFormed : Kind → Bool
  | .apply target argument =>
    match target.function? with
    | some (.lambda _ _ _ _) => !argument.domain.isBuiltin
    | some (.builtin .pow) =>
      match argument.kind with
      | .tuple [base, exponent] => !(exponent.isZero || base.isOne || exponent.isOne)
      | _ => true
    | _ => true
  | .sum items | .chain items => 2 ≤ items.length
  | _ => true

/-- A kind of node that may be needed and is neither a product nor a sum. -/
def isPlain (kind : Kind) : Bool :=
  !kind.isProduct && !kind.isSum && kind.isFormed

end Kind

namespace Expr

/-- A captured value whose identity is `n` or later. -/
def IsCapturedSince (n : ℕ) (e : Expr) : Prop :=
  ∃ v resolver, e.kind = .object v resolver ∧ n ≤ v.identity

/-- Two expressions that may be neighbours in a product of matrices: they are not both constant, and
unless `odd` holds of one of them, neither is the inverse of the other. -/
def Apart (odd : Expr → Prop) (a b : Expr) : Prop :=
  (a.matrix? = none ∨ b.matrix? = none) ∧ (cancels a b = true → odd a ∨ odd b)

/-- An expression that may be a factor of a product of matrices: it has no factors of its own, and
unless `odd` holds of it, it is no scalar. -/
structure IsLink (odd : Expr → Prop) (e : Expr) : Prop where
  /-- It is no product of matrices. -/
  not_chain : ∀ items, e.kind ≠ .chain items
  /-- It is no product of numbers and matrices. -/
  not_product : e.isProduct = false
  /-- It is no scalar. -/
  not_scalar : e.domain.isScalar = true → odd e

/-- The factors of a product of matrices that does not reduce further. -/
structure Linked (odd : Expr → Prop) (items : List Expr) : Prop where
  /-- All may be factors. -/
  isLink : ∀ e ∈ items, e.IsLink odd
  /-- Neighbours may be neighbours. -/
  isChain : items.IsChain (Apart odd)

section Links

variable {odd odd' : Expr → Prop} {a b : Expr} {items : List Expr}

lemma cancels_comm (a b : Expr) : cancels a b = cancels b a := by
  rw [cancels, cancels, Bool.or_comm]

lemma Apart.symm (h : Apart odd a b) : Apart odd b a :=
  ⟨h.1.symm, fun hcancels => (h.2 (cancels_comm b a ▸ hcancels)).symm⟩

lemma IsLink.imp (h : a.IsLink odd) (himp : a.domain.isScalar = true → odd' a) : a.IsLink odd' :=
  ⟨h.not_chain, h.not_product, himp⟩

/-- Captured values have no factors. -/
lemma IsCapturedSince.isLink {n : ℕ} (h : a.IsCapturedSince n) : a.IsLink (IsCapturedSince n) := by
  obtain ⟨v, resolver, hkind, -⟩ := id h
  exact ⟨by simp [hkind], by simp [isProduct, hkind], fun _ => h⟩

lemma linked_nil : Linked odd [] := ⟨by simp, .nil⟩

lemma Linked.cons (h : Linked odd items) (ha : a.IsLink odd) (hhead : ∀ b ∈ items.head?, Apart odd a b) :
    Linked odd (a :: items) :=
  ⟨List.forall_mem_cons.2 ⟨ha, h.isLink⟩, List.isChain_cons.2 ⟨hhead, h.isChain⟩⟩

lemma Linked.tail (h : Linked odd (a :: items)) : Linked odd items :=
  ⟨(List.forall_mem_cons.1 h.isLink).2, h.isChain.tail⟩

/-- A product of matrices reduces no further in the other order either. -/
lemma Linked.reverse (h : Linked odd items) : Linked odd items.reverse :=
  ⟨fun e he => h.isLink e (List.mem_reverse.1 he),
    List.isChain_reverse.2 (h.isChain.imp fun _ _ => Apart.symm)⟩

end Links

/-- A matrix that may be inverted or transposed: it is neither a scalar nor constant. -/
structure IsSymbolic (e : Expr) : Prop where
  /-- It is no scalar. -/
  not_scalar : e.domain.isScalar = false
  /-- It is not constant. -/
  not_constant : e.matrix? = none

end Expr

/-- A node of a kind and domain that does not reduce: a captured value lies in no custom domain, a
constant matrix is no scalar, the factors of a product of matrices neither cancel nor fold, and an
inverse or transpose is not that of another one, of a scalar or of a constant.  Factors of which `odd`
holds may be scalars and may cancel. -/
def Kind.Irreducible (odd : Expr → Prop) (domain : Domain) : Kind → Prop
  | .object v _ => domain.isBuiltin = true ∧
    ((∃ identity m, v = .matrix identity m) → domain.isScalar = false)
  | .chain items => Expr.Linked odd items
  | .inverse a => a.IsSymbolic ∧ ∀ b, a.kind ≠ .inverse b
  | .transpose a => a.IsSymbolic ∧ ∀ b, a.kind ≠ .transpose b
  | _ => True

/-- A further property of stores that is kept up along with the invariant.  It is about the nodes, and
new nodes of plain kinds that do not reduce do not harm it.  Products and sums are left out here. -/
class Upkeep where
  /-- The property. -/
  Holds : Store → Prop
  /-- An identity from which on none has been handed out at first.  What is captured under such an
  identity is not compared with what is there. -/
  since : ℕ
  /-- The identities before it have been handed out. -/
  since_le : ∀ {s : Store}, Holds s → since ≤ s.nextIdentity
  /-- It holds as long as the nodes stay as they are. -/
  of_nodes : ∀ {s t : Store}, s ≤ t → t.nodes = s.nodes → Holds s → Holds t
  /-- New nodes of plain kinds that do not reduce keep it up. -/
  intern : ∀ {s : Store} {domain : Domain} {kind : Kind}, s.WellFormed → s.Admits domain kind →
    kind.isPlain = true → kind.Irreducible (Expr.IsCapturedSince since) domain → Holds s →
    Holds (s.intern domain kind).2

/-- Nothing is kept up but the invariant, where nothing else is said. -/
instance (priority := low) Upkeep.invariantAlone : Upkeep where
  Holds _ := True
  since := 0
  since_le _ := Nat.zero_le _
  of_nodes _ _ _ := trivial
  intern _ _ _ _ _ := trivial

/-- New sums keep up what is kept up. -/
class Upkeep.Sums [Upkeep] : Prop where
  /-- A sum of two or more terms does no harm. -/
  intern : ∀ {s : Store} {domain : Domain} {terms : List Expr}, s.WellFormed →
    s.Admits domain (.sum terms) → 2 ≤ terms.length → Upkeep.Holds s →
    Upkeep.Holds (s.intern domain (.sum terms)).2

instance : Upkeep.Sums := ⟨fun _ _ _ _ => trivial⟩

section Good

variable {σ μ : Type} [HoldsStore σ] [Knowable σ] [Knowable μ] {s : Store} {m : μ}

/-- The store of a state is well formed, has what is kept up, and knows all that the state holds. -/
def Good [Upkeep] (s : σ) : Prop :=
  (store s).WellFormed ∧ Upkeep.Holds (store s) ∧ (store s).Knows s

namespace Good

variable [Upkeep]

lemma wellFormed {s : σ} (h : Good s) : (store s).WellFormed := h.1

lemma holds {s : σ} (h : Good s) : Upkeep.Holds (store s) := h.2.1

lemma of_wellFormed (hs : s.WellFormed) (h : Upkeep.Holds s) : Good s := ⟨hs, h, trivial⟩

lemma knows_memo (h : Good (s, m)) : s.Knows m := h.2.2.2

lemma of_pair (h : Good (s, m)) : Good s := ⟨h.1, h.2.1, trivial⟩

lemma pair (h : Good s) (hm : s.Knows m) : Good (s, m) := ⟨h.1, h.2.1, trivial, hm⟩

end Good

lemma good_store : Good s ↔ s.WellFormed := by
  simp [Good, Upkeep.Holds]

lemma good_pair : Good (s, m) ↔ s.WellFormed ∧ s.Knows m := by
  simp [Good, Upkeep.Holds]

end Good

section Yields

variable {σ α β γ : Type} [HoldsStore σ] [Knowable σ] [Knowable α] [Knowable β]

/-- Run from `s`, `x` keeps the invariant, and the store knows its result. -/
def Yields [Upkeep] (s : σ) (x : Run σ α) : Prop :=
  ∀ d, Sound Good d s x fun a t => (store t).Knows a

namespace Yields

variable [Upkeep] {s : σ} {x : Run σ α}

lemma pure (hs : Good s) {a : α} (ha : (store s).Knows a) : Yields s (Pure.pure a : Run σ α) :=
  fun _ => .pure hs ha

lemma throw (hs : Good s) (e : Error) : Yields s (MonadExcept.throw e : Run σ α) :=
  fun _ => .throw hs e

lemma read (hs : Good s) : Yields s (MonadReader.read : Run σ ℕ) :=
  fun _ => ⟨hs, trivial⟩

lemma bind {f : α → Run σ β} [Growing x] (hx : Yields s x)
    (hf : ∀ a t, Good t → store s ≤ store t → (store t).Knows a → Yields t (f a)) :
    Yields s (x >>= f) :=
  fun d => (hx d).bind fun a t ht hle ha => hf a t ht hle ha d

lemma map {g : α → β} [Growing x] (hx : Yields s x)
    (hg : ∀ (a : α) (t : σ), store s ≤ store t → (store t).Knows a → (store t).Knows (g a)) :
    Yields s (g <$> x) :=
  fun d => (hx d).map hg

lemma ite {c : Prop} [Decidable c] {y : Run σ α} (hx : c → Yields s x) (hy : ¬c → Yields s y) :
    Yields s (if c then x else y) := by
  split
  · exact hx ‹_›
  · exact hy ‹_›

lemma mapM {f : γ → Run σ β} [∀ a, Growing (f a)] (hs : Good s) (l : List γ)
    (hf : ∀ a ∈ l, ∀ t, Good t → store s ≤ store t → Yields t (f a)) : Yields s (l.mapM f) :=
  fun d => .mapM (fun _ _ _ hle hb => hb.mono hle) l hs fun a ha t ht hle => hf a ha t ht hle d

lemma foldlM {f : β → γ → Run σ β} [∀ b a, Growing (f b a)] (hs : Good s) {b : β}
    (hb : (store s).Knows b) (l : List γ)
    (hf : ∀ b, ∀ a ∈ l, ∀ t, Good t → store s ≤ store t → (store t).Knows b → Yields t (f b a)) :
    Yields s (l.foldlM f b) :=
  fun d => .foldlM l hs hb fun b a ha t ht hle hb => hf b a ha t ht hle hb d

lemma optionMapM {f : γ → Run σ β} [∀ a, Growing (f a)] (hs : Good s) (o : Option γ)
    (hf : ∀ a, Yields s (f a)) : Yields s (o.mapM f) := by
  cases o with
  | none => exact pure hs (by simp)
  | some a => exact (hf a).map fun b t _ hb => by simpa using hb

lemma ofExcept {s : Store} {ε : Type} {toError : ε → Error} (hs : Good s) {o : Except ε α}
    (h : ∀ a, o = .ok a → s.Knows a) : Yields s (Build.ofExcept toError o) := by
  cases o with
  | ok a => exact pure hs (h a rfl)
  | error e => exact throw hs (toError e)

end Yields

end Yields

/-! ## Runs that achieve something -/

section Achieves

variable {α γ : Type} [Knowable α]

/-- Run from `s` at depth `d`, `x` keeps the invariant; and unless an operation on integers gives no
integer, it gives a result that satisfies `Q`. -/
structure Achieves (d : ℕ) (s : Store) (x : Build α) (Q : α → Prop) : Prop where
  /-- The invariant is kept, and the store knows the result. -/
  yields : Sound Good d s x fun a t => t.Knows a
  /-- An exact run gives a result, and a right one. -/
  exact : Exact d s x fun a _ => Q a

namespace Achieves

variable {d : ℕ} {s : Store} {x : Build α} {Q : α → Prop}

lemma pure (hs : Good s) {a : α} (ha : s.Knows a) (h : Q a) :
    Achieves d s (Pure.pure a : Build α) Q :=
  ⟨.pure hs ha, .pure h⟩

/-- The exact runs of a computation with a first step. -/
lemma bind {f : α → Build γ} {R : γ → Store → Prop} [Growing x] [∀ a, Growing (f a)]
    (hx : Achieves d s x Q)
    (hf : ∀ a t, Good t → s ≤ t → t.Knows a → t.exact = true → Q a → Exact d t (f a) R) :
    Exact d s (x >>= f) R :=
  hx.exact.bind fun a t hrun hexact hq =>
    hf a t (hx.yields.of_ok hrun).1 (Growing.le_of_ok hrun) (hx.yields.of_ok hrun).2 hexact hq

lemma imp {R : α → Prop} (hx : Achieves d s x Q) (h : ∀ a, Q a → R a) : Achieves d s x R :=
  ⟨hx.yields, hx.exact.imp fun a _ _ _ => h a⟩

lemma mapM {f : γ → Build α} [∀ c, Growing (f c)] {P : γ → α → Prop} (hs : Good s) (l : List γ)
    (hf : ∀ c ∈ l, ∀ t, Good t → s ≤ t → Achieves d t (f c) (P c)) :
    Achieves d s (l.mapM f) (List.Forall₂ P l) where
  yields := .mapM (fun _ _ _ hle hb => hb.mono hle) l hs fun c hc t ht hle => (hf c hc t ht hle).yields
  exact := by
    induction l generalizing s with
    | nil =>
      rw [List.mapM_nil]
      exact .pure .nil
    | cons c l ih =>
      rw [List.mapM_cons]
      refine (hf c (by simp) s hs le_rfl).bind fun a t ht hle _ _ ha => ?_
      refine (ih ht fun c' hc' u hu hle' =>
        hf c' (by simp [hc']) u hu (hle.trans hle')).bind fun as u _ _ has => ?_
      exact .pure (.cons ha has)

end Achieves

end Achieves

end TermGraph
