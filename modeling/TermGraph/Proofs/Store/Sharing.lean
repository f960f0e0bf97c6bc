import TermGraph.Proofs.Store.Derivation
import TermGraph.Proofs.Store.Normalization

/-!
# Sharing

Whatever is asked of a store, in whatever order and with whatever failures in between, equal
structures are one node.

* `Operation` lists what can be asked, and `Store.Reaches` is the relation between stores before
  and after any number of operations.  `Store.Reachable` are the stores reached from a blank one.
* `HostType.code_append_inj`: types with one code are one type.
* `Expr.unfolding` is the tree that an expression stands for when sharing is forgotten.
* `Kind.label_of_code` and `Kind.code_eq_of_label`: structures tell apart exactly what labels and
  children tell apart.
* `Store.Reachable.shared` is the main result: ordinals are distinct and decrease towards the
  leaves, the table leads from structures to their nodes, nodes never change, nodes with one
  unfolding are one node, and who asks for a node gets one with that label and those children.
-/

namespace TermGraph

open Store (Knows)

/-! ## Codes of types -/

namespace HostType

lemma nameCode_append_inj {a b : String} {l m : List ℕ} (h : nameCode a ++ l = nameCode b ++ m) :
    a = b ∧ l = m := by
  obtain ⟨hlength, hrest⟩ := List.cons.inj h
  obtain ⟨hname, hlm⟩ := List.append_inj hrest (by simpa using hlength)
  refine ⟨String.toList_inj.1 (List.map_injective_iff.2 (fun c d hcd => ?_) hname), hlm⟩
  exact Char.toNat_inj.1 hcd

end HostType

mutual

/-- Types with one code are one type, also where something follows. -/
theorem HostType.code_append_inj : ∀ {a b : HostType} {l m : List ℕ}, a.code ++ l = b.code ++ m →
    a = b ∧ l = m
  | .any, b, l, m, h | .int, b, l, m, h | .real, b, l, m, h | .matrix, b, l, m, h
  | .function, b, l, m, h => by
    cases b <;> simp_all [HostType.code]
  | .array a, b, l, m, h => by
    cases b <;> simp only [HostType.code, List.cons_append, List.nil_append, List.cons.injEq,
      Nat.reduceEqDiff, OfNat.ofNat_ne_zero, OfNat.ofNat_ne_one, false_and, true_and] at h
    case array b =>
      obtain ⟨rfl, rfl⟩ := HostType.code_append_inj h
      exact ⟨rfl, rfl⟩
  | .record a fields indexers, b, l, m, h => by
    cases b <;> simp only [HostType.code, List.cons_append, List.nil_append, List.cons.injEq,
      Nat.reduceEqDiff, OfNat.ofNat_ne_zero, OfNat.ofNat_ne_one, false_and, true_and, List.append_assoc] at h
    case record b fields' indexers' =>
      obtain ⟨hname, hfields⟩ := HostType.nameCode_append_inj h
      obtain ⟨hfields, hindexers⟩ := FieldTypes.code_append_inj hfields
      obtain ⟨hindexers, hrest⟩ := IndexerTypes.code_append_inj hindexers
      exact ⟨by rw [hname, hfields, hindexers], hrest⟩

/-- Fields with one code are the same fields, also where something follows. -/
theorem FieldTypes.code_append_inj : ∀ {a b : FieldTypes} {l m : List ℕ}, a.code ++ l = b.code ++ m →
    a = b ∧ l = m
  | .nil, b, l, m, h => by
    cases b <;> simp_all [FieldTypes.code]
  | .cons name type rest, b, l, m, h => by
    cases b <;> simp only [FieldTypes.code, List.cons_append, List.nil_append, List.cons.injEq,
      one_ne_zero, false_and, true_and, List.append_assoc] at h
    case cons name' type' rest' =>
      obtain ⟨hname, htype⟩ := HostType.nameCode_append_inj h
      obtain ⟨htype, hrest⟩ := HostType.code_append_inj htype
      obtain ⟨hrest, hlm⟩ := FieldTypes.code_append_inj hrest
      exact ⟨by rw [hname, htype, hrest], hlm⟩

/-- Indexers with one code are the same indexers, also where something follows. -/
theorem IndexerTypes.code_append_inj : ∀ {a b : IndexerTypes} {l m : List ℕ},
    a.code ++ l = b.code ++ m → a = b ∧ l = m
  | .nil, b, l, m, h => by
    cases b <;> simp_all [IndexerTypes.code]
  | .cons arity type rest, b, l, m, h => by
    cases b <;> simp only [IndexerTypes.code, List.cons_append, List.nil_append, List.cons.injEq,
      one_ne_zero, false_and, true_and, List.append_assoc] at h
    case cons arity' type' rest' =>
      obtain ⟨htype, hrest⟩ := HostType.code_append_inj h.2
      obtain ⟨hrest, hlm⟩ := IndexerTypes.code_append_inj hrest
      exact ⟨by rw [h.1, htype, hrest], hlm⟩

end

lemma HostType.code_injective : Function.Injective HostType.code := fun a b h =>
  (HostType.code_append_inj (a := a) (b := b) (l := []) (m := []) (by rw [h])).1

/-! ## Unfoldings -/

/-- The data of a node apart from its children.  Symbols and functions are compared by identity,
literals by the literal that stands for them, and captured values by identity, type and
resolver. -/
inductive Label where
  | symbol (ordinal : ℕ)
  | number (value : Number)
  | object (identity : ℕ) (type : HostType) (resolver : ℕ)
  | field (name : String)
  | function (code : List ℕ)
  | tuple
  | apply
  | sum
  | generator (rows cols : ℕ)
  | chain
  | inverse
  | transpose
  | indexedSum
  | collectionSum

/-- A tree of labels. -/
inductive Tree where
  | node (label : Label) (children : List Tree)

/-- The label of a node with an ordinal. -/
def Kind.label (ordinal : ℕ) : Kind → Label
  | .symbol _ => .symbol ordinal
  | .number n => .number n.canonical
  | .object v resolver => .object v.identity v.hostType resolver
  | .field name => .field name
  | .function f => .function f.code
  | .tuple _ => .tuple
  | .apply _ _ => .apply
  | .sum _ => .sum
  | .generator rows cols _ => .generator rows cols
  | .chain _ => .chain
  | .inverse _ => .inverse
  | .transpose _ => .transpose
  | .indexedSum _ _ _ _ => .indexedSum
  | .collectionSum _ _ _ => .collectionSum

namespace Expr

mutual

/-- The tree of an expression, without sharing. -/
def unfolding : Expr → Tree
  | .node i _ (.symbol name) => .node ((Kind.symbol name).label i) []
  | .node i _ (.number n) => .node ((Kind.number n).label i) []
  | .node i _ (.object v r) => .node ((Kind.object v r).label i) []
  | .node i _ (.field name) => .node ((Kind.field name).label i) []
  | .node i _ (.function f) => .node ((Kind.function f).label i) []
  | .node _ _ (.tuple items) => .node .tuple (unfoldings items)
  | .node _ _ (.apply target argument) => .node .apply [target.unfolding, argument.unfolding]
  | .node _ _ (.sum terms) => .node .sum (unfoldings terms)
  | .node _ _ (.generator rows cols element) => .node (.generator rows cols) [element.unfolding]
  | .node _ _ (.chain factors) => .node .chain (unfoldings factors)
  | .node _ _ (.inverse inner) => .node .inverse [inner.unfolding]
  | .node _ _ (.transpose inner) => .node .transpose [inner.unfolding]
  | .node _ _ (.indexedSum index lower upper body) =>
    .node .indexedSum [index.unfolding, lower.unfolding, upper.unfolding, body.unfolding]
  | .node _ _ (.collectionSum index collection body) =>
    .node .collectionSum [index.unfolding, collection.unfolding, body.unfolding]

/-- The trees of a list of expressions. -/
def unfoldings : List Expr → List Tree
  | [] => []
  | e :: es => e.unfolding :: unfoldings es

end

lemma unfoldings_eq_map (es : List Expr) : unfoldings es = es.map unfolding := by
  induction es with
  | nil => rfl
  | cons e es ih => rw [unfoldings, ih, List.map_cons]

/-- An unfolding is the label over the unfoldings of the children. -/
lemma unfolding_eq (e : Expr) :
    e.unfolding = .node (e.kind.label e.ordinal) (e.children.map unfolding) := by
  obtain ⟨ordinal, domain, kind⟩ := e
  cases kind <;>
    simp [unfolding, unfoldings_eq_map, children, Kind.children, Expr.kind, Expr.ordinal, Kind.label]

end Expr

lemma Number.code_eq_of_canonical {m n : Number} (h : m.canonical = n.canonical) :
    m.code = n.code := by
  cases m <;> cases n <;> simp_all [canonical, code]

lemma Number.canonical_eq_of_code {m n : Number} (h : m.code = n.code) :
    m.canonical = n.canonical := by
  cases m <;> cases n <;> simp [code] at h <;> simp only [canonical]
  case int.int a b => exact congrArg (fun bits => Number.int ⟨bits⟩) (UInt64.toNat_inj.1 h)
  case float.float x y => exact congrArg (fun bits => Number.float ⟨bits⟩) (UInt64.toNat_inj.1 h)

/-- The structure determines label and children. -/
lemma Kind.label_of_code {k l : Kind} {code : List ℕ} (hk : k.code = some code) (hl : l.code = some code)
    (i : ℕ) : k.label i = l.label i ∧ k.children.map Expr.ordinal = l.children.map Expr.ordinal := by
  have h := hk.trans hl.symm
  cases k <;> cases l <;> simp [Kind.code] at h hk
  case number.number m n => exact ⟨by simp [label, Number.canonical_eq_of_code h], rfl⟩
  case object.object v r w r' =>
    obtain ⟨hidentity, hresolver, htype⟩ := h
    exact ⟨by simp [label, hidentity, hresolver, HostType.code_injective htype], rfl⟩
  case field.field a b =>
    have hname := List.map_injective_iff.2 (fun _ _ => Char.toNat_inj.1) h
    exact ⟨by simp [label, String.toList_inj.1 hname], rfl⟩
  all_goals simp [label, children, h]

/-- Label and children determine the structure. -/
lemma Kind.code_eq_of_label {k l : Kind} {i j : ℕ} (hlabel : k.label i = l.label j)
    (hchildren : k.children = l.children) : k.code = l.code := by
  cases k <;> cases l <;> simp only [label, reduceCtorEq, Label.number.injEq, Label.object.injEq,
    Label.field.injEq, Label.function.injEq, Label.generator.injEq] at hlabel
  case number.number m n => simp [code, Number.code_eq_of_canonical hlabel]
  all_goals simp_all [code, children]

namespace Store

variable {s t : Store}

/-- In a well-formed store, expressions with one unfolding are one node. -/
lemma WellFormed.eq_of_unfolding (hs : s.WellFormed) {a b : Expr} (ha : s.Knows a)
    (hb : s.Knows b) (h : a.unfolding = b.unfolding) : a = b := by
  induction hsize : sizeOf a using Nat.strongRecOn generalizing a b with
  | _ n ih =>
    subst hsize
    rw [a.unfolding_eq, b.unfolding_eq, Tree.node.injEq] at h
    obtain ⟨hlabel, hmap⟩ := h
    have hchildren : a.children = b.children := by
      have ha' := hs.children ha
      have hb' := hs.children hb
      have hlength : a.children.length = b.children.length := by
        simpa using congrArg List.length hmap
      refine List.ext_getElem hlength fun i hi hi' => ?_
      refine ih _ (Expr.sizeOf_lt_of_mem_children (List.getElem_mem hi))
        (ha' _ (List.getElem_mem hi)) (hb' _ (List.getElem_mem hi')) ?_ rfl
      simpa [hi, hi'] using congrArg (·[i]?) hmap
    cases hcode : a.kind.code with
    | none =>
      -- Only symbols lack a structure, and their label is the ordinal.
      refine eq_of_ordinal ha hb ?_
      cases hkind : a.kind <;> rw [hkind] at hcode hlabel <;> simp only [Kind.code, reduceCtorEq] at hcode
      cases hkind' : b.kind <;> rw [hkind'] at hlabel <;>
        simp only [Kind.label, reduceCtorEq, Label.symbol.injEq] at hlabel
      exact hlabel
    | some code =>
      have hcode' : b.kind.code = some code :=
        (Kind.code_eq_of_label hlabel hchildren).symm.trans hcode
      have hfound := hs.table_complete ha hcode
      rw [hs.table_complete hb hcode'] at hfound
      exact (Option.some.inj hfound).symm

/-- Known expressions with the same ordinals are the same. -/
lemma eq_of_map_ordinal {l m : List Expr} (hl : s.Knows l) (hm : s.Knows m)
    (h : l.map Expr.ordinal = m.map Expr.ordinal) : l = m := by
  induction l generalizing m with
  | nil => exact (List.map_eq_nil_iff.1 h.symm).symm
  | cons a l ih =>
    cases m with
    | nil => cases h
    | cons b m =>
      obtain ⟨hab, hlm⟩ := List.cons.inj h
      rw [knows_cons] at hl hm
      rw [WellFormed.eq_of_ordinal hl.1 hm.1 hab, ih hl.2 hm.2 hlm]

/-- Who asks a well-formed store for a node gets one with the label and the children asked for. -/
lemma WellFormed.label_intern (hs : s.WellFormed) {kind : Kind} (hkind : s.Knows kind.children)
    (domain : Domain) :
    (s.intern domain kind).1.kind.label (s.intern domain kind).1.ordinal =
        kind.label (s.intern domain kind).1.ordinal ∧
      (s.intern domain kind).1.children = kind.children := by
  rw [Store.intern]
  split
  · exact ⟨rfl, rfl⟩
  · rename_i code hcode
    split
    · rename_i e hfound
      obtain ⟨hknown, hcode'⟩ := hs.table_sound hfound
      obtain ⟨hlabel, hchildren⟩ := Kind.label_of_code hcode' hcode e.ordinal
      exact ⟨hlabel, eq_of_map_ordinal (hs.children hknown) hkind hchildren⟩
    · exact ⟨rfl, rfl⟩

end Store

/-! ## Operations -/

/-- What can be asked of a store: to build, to transform and to normalize expressions, to take an
identity for something new, and to apply concrete values. -/
inductive Operation where
  | identity
  | symbol (name : String) (domain : Domain)
  | number (value : Number)
  | fieldName (name : String)
  | function (f : Function)
  | constant (resolver : Resolver) (value : Value)
  | tuple (items : List Expr)
  | sum (terms : List Expr)
  | product (factors : List Expr)
  | apply (target argument : Expr)
  | call (f : Function) (args : List Expr)
  | power (base exponent : Expr)
  | neg (a : Expr)
  | sub (a b : Expr)
  | div (a b : Expr)
  | member (e : Expr) (name : String)
  | element (e : Expr) (index : List Expr)
  | generator (rows cols : ℕ) (entry : Expr)
  | chain (factors : List Expr)
  | inverse (a : Expr)
  | transpose (a : Expr)
  | beginIndexedSum (lower upper : Expr)
  | endIndexedSum (lower upper temporary body : Expr)
  | beginCollectionSum (collection : Expr)
  | endCollectionSum (collection temporary body : Expr)
  | rebuild (e : Expr) (children : List Expr)
  | substitute (pairs : List (Expr × Expr)) (e : Expr)
  | derive (e x : Expr)
  | gradient (e : Expr) (xs : List Expr)
  | normalize (normalizer : Normalizer) (e : Expr)
  | applyValue (ev : Evaluator) (target argument : Value)

namespace Operation

/-- Carries an operation out.  The results are in the store. -/
def run : Operation → Build Unit
  | .identity => discard Build.fresh
  | .symbol name domain => discard (Expr.symbol name domain)
  | .number n => discard (Expr.number n)
  | .fieldName name => discard (Expr.fieldName name)
  | .function f => discard (Expr.ofFunction f)
  | .constant resolver v => discard (Expr.constant resolver v)
  | .tuple items => discard (Expr.tuple items)
  | .sum terms => discard (Expr.sum terms)
  | .product factors => discard (Expr.product factors)
  | .apply target argument => discard (Expr.apply target argument)
  | .call f args => discard (Expr.call f args)
  | .power base exponent => discard (Expr.power base exponent)
  | .neg a => discard a.neg
  | .sub a b => discard (a.sub b)
  | .div a b => discard (a.div b)
  | .member e name => discard (e.member name)
  | .element e index => discard (e.element index)
  | .generator rows cols entry => discard (Expr.generator rows cols entry)
  | .chain factors => discard (Expr.chain factors)
  | .inverse a => discard a.inverse
  | .transpose a => discard a.transpose
  | .beginIndexedSum lower upper => discard (Expr.beginIndexedSum lower upper)
  | .endIndexedSum lower upper temporary body =>
    discard (Expr.endIndexedSum lower upper temporary body)
  | .beginCollectionSum collection => discard (Expr.beginCollectionSum collection)
  | .endCollectionSum collection temporary body =>
    discard (Expr.endCollectionSum collection temporary body)
  | .rebuild e children => discard (e.rebuild children)
  | .substitute pairs e => discard (Expr.substitute pairs e)
  | .derive e x => discard (e.derive x)
  | .gradient e xs => discard (e.gradient xs)
  | .normalize normalizer e => discard (normalizer.normalize e)
  | .applyValue ev target argument => discard (ev.apply target argument)

/-- The store knows what the operation works on. -/
def KnownBy (s : Store) : Operation → Prop
  | .identity | .symbol _ _ | .number _ | .fieldName _ => True
  | .function f => s.Knows f
  | .constant _ v => s.Knows v
  | .tuple l | .sum l | .product l | .chain l => s.Knows l
  | .apply a b | .power a b | .sub a b | .div a b | .beginIndexedSum a b => s.Knows [a, b]
  | .call f args => s.Knows f ∧ s.Knows args
  | .neg a | .member a _ | .generator _ _ a | .inverse a | .transpose a | .beginCollectionSum a =>
    s.Knows a
  | .element e l | .rebuild e l | .gradient e l => s.Knows e ∧ s.Knows l
  | .endIndexedSum a b c d => s.Knows [a, b, c, d]
  | .endCollectionSum a b c => s.Knows [a, b, c]
  | .substitute pairs e => s.Knows pairs ∧ s.Knows e
  | .derive e x => s.Knows [e, x]
  | .normalize normalizer e => s.Knows normalizer ∧ s.Knows e
  | .applyValue _ target argument => s.Knows target ∧ s.Knows argument

instance growing_run (op : Operation) : Growing op.run := by
  have hdiscard {α : Type} (x : Build α) [Growing x] : Growing (discard x) := growing_map _ x
  cases op <;> (unfold run; infer_instance)

/-- One operation keeps the invariant. -/
lemma yields_run [Upkeep] [Upkeep.Products] {s : Store} (hs : Good s) {op : Operation} (h : op.KnownBy s) :
    Yields s op.run := by
  have hdiscard {α : Type} [Knowable α] {x : Build α} [Growing x] (hx : Yields s x) :
      Yields s (discard x) := hx.map fun _ _ _ _ => trivial
  cases op <;> simp only [KnownBy, Store.knows_cons] at h <;> unfold run
  case identity => exact hdiscard (yields_fresh hs)
  case symbol => exact hdiscard (Expr.yields_symbol hs _ _)
  case number => exact hdiscard (Expr.yields_number hs _)
  case fieldName => exact hdiscard (Expr.yields_fieldName hs _)
  case function => exact hdiscard (Expr.yields_ofFunction hs h)
  case constant => exact hdiscard (Expr.yields_constant _ _ hs h)
  case tuple => exact hdiscard (Expr.yields_tuple hs h)
  case sum => exact hdiscard (Expr.yields_sum s _ hs h)
  case product => exact hdiscard (Expr.yields_product s _ hs h)
  case apply => exact hdiscard (Expr.yields_apply s _ _ hs h.1 h.2.1)
  case call => exact hdiscard (Expr.yields_call hs h.1 h.2)
  case power => exact hdiscard (Expr.yields_power hs h.1 h.2.1)
  case neg => exact hdiscard (Expr.yields_neg hs h)
  case sub => exact hdiscard (Expr.yields_sub hs h.1 h.2.1)
  case div => exact hdiscard (Expr.yields_div hs h.1 h.2.1)
  case member => exact hdiscard (Expr.yields_member hs h _)
  case element => exact hdiscard (Expr.yields_element hs h.1 h.2)
  case generator => exact hdiscard (Expr.yields_generator hs h _ _)
  case chain => exact hdiscard (Expr.yields_chain s _ hs h)
  case inverse => exact hdiscard (Expr.yields_inverse hs h)
  case transpose => exact hdiscard (Expr.yields_transpose hs h)
  case beginIndexedSum => exact hdiscard (Expr.yields_beginIndexedSum hs _ _)
  case endIndexedSum =>
    exact hdiscard (Expr.yields_endIndexedSumWith Expr.yields_substitute hs h.1 h.2.1 h.2.2.1
      h.2.2.2.1)
  case beginCollectionSum => exact hdiscard (Expr.yields_beginCollectionSum hs _)
  case endCollectionSum =>
    exact hdiscard (Expr.yields_endCollectionSumWith Expr.yields_substitute hs h.1 h.2.1 h.2.2.1)
  case rebuild => exact hdiscard (Expr.yields_rebuild s _ _ hs h.1 h.2)
  case substitute => exact hdiscard (Expr.yields_substitute s _ _ hs h.1 h.2)
  case derive => exact hdiscard (Expr.yields_derive hs h.1 _)
  case gradient => exact hdiscard (Expr.yields_gradient hs h.1 _)
  case normalize => exact hdiscard (Normalizer.yields_normalize hs h.1 h.2)
  case applyValue => exact hdiscard (Evaluator.yields_apply _ s _ _ hs h.1 h.2)

end Operation

namespace Store

/-- Some number of operations, successful or not, each at a depth of its own, lead from `s` to
`t`. -/
inductive Reaches (s : Store) : Store → Prop
  | refl : Reaches s s
  | step {t : Store} (op : Operation) (depth : ℕ) :
    Reaches s t → op.KnownBy t → Reaches s (finalState (op.run depth t))

namespace Reaches

variable {s t : Store}

/-- The invariant and all that is kept up with it hold of all stores that are reached. -/
lemma good [Upkeep] [Upkeep.Products] (hs : Good s) (h : s.Reaches t) : Good t := by
  induction h with
  | refl => exact hs
  | step op depth _ hknown ih => exact (Operation.yields_run ih hknown depth).final

lemma wellFormed (hs : s.WellFormed) (h : s.Reaches t) : t.WellFormed :=
  good_store.1 (h.good (good_store.2 hs))

lemma le (h : s.Reaches t) : s ≤ t := by
  induction h with
  | refl => exact le_rfl
  | step op depth _ _ ih => exact ih.trans (Growing.le_final (x := op.run) depth _)

/-- What is reached from a store that is reached is reached. -/
lemma trans {u : Store} (h : s.Reaches t) (h' : t.Reaches u) : s.Reaches u := by
  induction h' with
  | refl => exact h
  | step op depth _ hknown ih => exact .step op depth ih hknown

/-- What lies in a store that is reached is known. -/
lemma knows_getElem! (h : initial.Reaches s) {i : ℕ} (hi : i < s.nodes.size) :
    s.Knows s.nodes[i]! := by
  have hget : s.nodes[i]? = some s.nodes[i]! := by
    rw [getElem!_pos s.nodes i hi]
    simp [hi]
  rw [knows_iff_getElem?, (h.wellFormed wellFormed_initial).ordinal hget, hget]

lemma knows_getElem!_pair (h : initial.Reaches s) {i j : ℕ} (hi : i < s.nodes.size)
    (hj : j < s.nodes.size) : s.Knows [s.nodes[i]!, s.nodes[j]!] :=
  knows_cons.2 ⟨h.knows_getElem! hi, knows_cons.2 ⟨h.knows_getElem! hj, knows_nil⟩⟩

end Reaches

/-- Operations lead to the store from one in which nothing has been built. -/
def Reachable (s : Store) : Prop :=
  ∃ s₀ : Store, s₀.Blank ∧ s₀.Reaches s

lemma Blank.reachable {s : Store} (h : s.Blank) : s.Reachable :=
  ⟨s, h, .refl⟩

lemma Reaches.reachable {s : Store} (h : initial.Reaches s) : s.Reachable :=
  ⟨initial, blank_initial, h⟩

namespace Reachable

variable {s t : Store}

lemma trans (h : s.Reachable) (h' : s.Reaches t) : t.Reachable := by
  obtain ⟨s₀, hs₀, hs⟩ := h
  exact ⟨s₀, hs₀, hs.trans h'⟩

lemma step (h : s.Reachable) (op : Operation) (depth : ℕ) (hknown : op.KnownBy s) :
    (finalState (op.run depth s)).Reachable :=
  h.trans (.step op depth .refl hknown)

/-- What holds where nothing has been built, and is kept up, holds in all stores that can be reached. -/
lemma good [Upkeep] [Upkeep.Products] (hblank : ∀ {s : Store}, s.Blank → Upkeep.Holds s)
    (h : s.Reachable) : Good s := by
  obtain ⟨s₀, hs₀, hs⟩ := h
  exact hs.good (.of_wellFormed hs₀.toWellFormed (hblank hs₀))

lemma wellFormed (h : s.Reachable) : s.WellFormed := by
  obtain ⟨s₀, hs₀, hs⟩ := h
  exact hs.wellFormed hs₀.toWellFormed

/-- **Sharing.**  In every store `s` that can be reached, no two nodes have one ordinal, children
are nodes with smaller ordinals, the table leads from the structures of the nodes to the nodes and from
nothing else, and nodes with one unfolding are one node.  Who asks `s` for a node gets one with the label
and the children asked for.  And in every store `t` that can be reached from there, every node is what it
was in `s`. -/
theorem shared (hs : s.Reachable) (ht : s.Reaches t) :
    (∀ (i j : ℕ) (a b : Expr), s.nodes[i]? = some a → s.nodes[j]? = some b → a.ordinal = b.ordinal → i = j) ∧
    (∀ e : Expr, s.Knows e → ∀ c ∈ e.children, s.Knows c ∧ c.ordinal < e.ordinal) ∧
    (∀ (code : List ℕ) (e : Expr), s.table[code]? = some e ↔ s.Knows e ∧ e.kind.code = some code) ∧
    (∀ (i : ℕ) (e : Expr), s.nodes[i]? = some e → t.nodes[i]? = some e) ∧
    (∀ a b : Expr, s.Knows a → s.Knows b → a.unfolding = b.unfolding → a = b) ∧
    (∀ (domain : Domain) (kind : Kind), s.Knows kind.children →
      (s.intern domain kind).1.kind.label (s.intern domain kind).1.ordinal =
          kind.label (s.intern domain kind).1.ordinal ∧
        (s.intern domain kind).1.children = kind.children) := by
  have hwf := hs.wellFormed
  refine ⟨fun i j a b ha hb h => ?_, fun e he c hc => ?_, fun _ _ => ⟨hwf.table_sound, fun h => ?_⟩,
    fun _ _ => ht.le.nodes, fun _ _ => hwf.eq_of_unfolding, fun domain _ h => hwf.label_intern h domain⟩
  · rw [← hwf.ordinal ha, ← hwf.ordinal hb, h]
  · exact ⟨hwf.children he c hc, hwf.below he hc⟩
  · exact hwf.table_complete h.1 h.2

/-- An array is captured as one of integers and as one of reals, which makes two nodes; then it is captured
as one of integers again, which makes none, and a symbol is made. -/
theorem shared_arrays :
    let ints := Operation.constant .declared (.array 1 .int [])
    let reals := Operation.constant .declared (.array 1 .real [])
    let symbol := Operation.symbol "x" .reals
    let s := finalState (reals.run 0 (finalState (ints.run 0 initial)))
    let t := finalState (symbol.run 0 (finalState (ints.run 0 s)))
    s.nodes.size = initial.nodes.size + 2 ∧ t.nodes.size = s.nodes.size + 1 ∧
      (∀ (i : ℕ) (e : Expr), s.nodes[i]? = some e → t.nodes[i]? = some e) ∧
      ∀ a b : Expr, s.Knows a → s.Knows b → a.unfolding = b.unfolding → a = b := by
  intro ints reals symbol s t
  have hs : initial.Reaches s := .step reals 0 (.step ints 0 .refl fun _ h => nomatch h) fun _ h => nomatch h
  have ht : s.Reaches t := .step symbol 0 (.step ints 0 .refl fun _ h => nomatch h) trivial
  obtain ⟨-, -, -, hkept, hone, -⟩ := shared hs.reachable ht
  exact ⟨by decide +kernel, by decide +kernel, hkept, hone⟩

end Reachable

end Store

end TermGraph
