import TermGraph.Proofs.Typing.Refinement

/-!
# Substitution keeps types

Substitution sends every node to one that may stand in its place, if replacements may stand in the
place of what they replace and nodes are rebuilt to such nodes over such children.

* `Expr.Part k e`: `e` occurs in an expression of rank `k`.
* `Expr.Rebuilds d j k rebuild`: parts of expressions of rank `k` are rebuilt to what may stand in their
  place, over children with ranks that are at most `j` greater.
* `Expr.completes_substituteFrom`: then they are sent to such nodes, by induction on the node.
* `Expr.completes_substituteWith`, `Expr.renames_substituteWith`: so substitution succeeds, in particular
  where an index takes the place of another one.
-/

namespace TermGraph

open Store (Knows typedStores typedStores_le)

namespace Expr

variable {s : Store} {m : Memo} {d j k : ℕ} {e a b n r x : Expr} {l : List Expr}

/-! ## Parts -/

/-- An expression of rank `k`, a pair of such expressions, or a function. -/
inductive Part (k : ℕ) (e : Expr) : Prop
  | ranked (ranked : Ranked k e) : Part k e
  | pair {b n : Expr} (kind : e.kind = .tuple [b, n]) (base : Ranked k b) (exponent : Ranked k n) :
    Part k e
  | function {f : Function} (kind : e.kind = .function f) : Part k e

/-- The children of a part are parts. -/
lemma Part.children (h : Part k e) : ∀ c ∈ e.children, Part k c := by
  cases h with
  | pair hkind hb hn => simpa [Expr.children, hkind, Kind.children] using ⟨.ranked hb, .ranked hn⟩
  | function hkind => simp [Expr.children, hkind, Kind.children]
  | ranked h =>
    cases h with
    | symbol h _ =>
      unfold isSymbol at h
      cases hkind : e.kind <;> simp [hkind] at h
      simp [Expr.children, hkind, Kind.children]
    | literal h _ =>
      unfold number? at h
      cases hkind : e.kind <;> simp [hkind] at h
      simp [Expr.children, hkind, Kind.children]
    | sum hkind _ _ h =>
      rw [Expr.children, hkind]
      exact fun c hc => .ranked (h c hc)
    | product hkind _ _ _ _ ht ha =>
      simpa [Expr.children, hkind, Kind.children] using ⟨.ranked ht, .ranked ha⟩
    | power hpower _ _ _ hle _ hb hn =>
      obtain ⟨t, a, hkind, ht, ha⟩ := power?_eq_some.1 hpower
      simpa [Expr.children, hkind, Kind.children] using ⟨.function ht, .pair ha hb (hn.mono hle)⟩
    | call hkind ht _ _ _ ha =>
      simpa [Expr.children, hkind, Kind.children] using ⟨.function ht, .ranked ha⟩
    | matrix _ _ h => exact fun c hc => .ranked (h c hc)
    | @indexedSum i _ index lower upper body hkind _ hindex _ _ hl hu hb =>
      have hi : Ranked (i + 1) index := .symbol hindex.1 (.inl hindex.2)
      have hlt : i ≤ i + 1 := i.le_succ
      simpa [Expr.children, hkind, Kind.children] using
        ⟨.ranked hi, .ranked (hl.mono hlt), .ranked (hu.mono hlt), .ranked (hb.mono hlt)⟩

/-! ## Substitution -/

/-- A node that is not replaced stays, or is rebuilt over what a stretch of its children is sent to. -/
lemma substituteFrom_of_none (rebuild : Rebuild) {map : Memo} (hfree : map[e.ordinal]? = none) :
    substituteFrom rebuild map e = .remember e (pure e) ∨
      ∃ before l after, e.children = before ++ l ++ after ∧
        substituteFrom rebuild map e = .remember e (do
          let items ← substituteAll rebuild map l
          rebuild e (before ++ items ++ after)) := by
  obtain ⟨ordinal, domain, kind⟩ := e
  cases kind with
  | symbol _ | number _ | object _ _ | field _ | function _ =>
    left
    rw [substituteFrom, hfree]
    all_goals simp
  | tuple l | sum l | chain l =>
    refine .inr ⟨[], l, [], by simp [children, Expr.kind, Kind.children], ?_⟩
    rw [substituteFrom, hfree]
    simp
  | apply t a =>
    refine .inr ⟨[], [t, a], [], rfl, ?_⟩
    rw [substituteFrom, hfree]
    simp [substituteAll]
  | generator _ _ c | inverse c | transpose c =>
    refine .inr ⟨[], [c], [], rfl, ?_⟩
    rw [substituteFrom, hfree]
    simp [substituteAll]
  | indexedSum index lower upper body =>
    cases hcontains : map.contains index.ordinal with
    | true =>
      refine .inr ⟨[index], [lower, upper], [body], rfl, ?_⟩
      rw [substituteFrom, hfree]
      simp [substituteAll, hcontains]
    | false =>
      refine .inr ⟨[index], [lower, upper, body], [], rfl, ?_⟩
      rw [substituteFrom, hfree]
      simp [substituteAll, hcontains]
  | collectionSum index collection body =>
    cases hcontains : map.contains index.ordinal with
    | true =>
      refine .inr ⟨[index], [collection], [body], rfl, ?_⟩
      rw [substituteFrom, hfree]
      simp [substituteAll, hcontains]
    | false =>
      refine .inr ⟨[index], [collection, body], [], rfl, ?_⟩
      rw [substituteFrom, hfree]
      simp [substituteAll, hcontains]

/-- At depth `d`, parts of expressions of rank `k` are rebuilt over replacements to replacements. -/
def Rebuilds (d j k : ℕ) (rebuild : Rebuild) : Prop :=
  ∀ ⦃s : Store⦄ ⦃e : Expr⦄ ⦃items : List Expr⦄, Good s → s.Knows e → s.Knows items → Part k e →
    List.Forall₂ (ReplacedBy j) e.children items →
      Resolves typedStores d s (rebuild e items) fun r _ => ReplacedBy j e r

variable {rebuild : Rebuild} {map : Memo} [∀ e children, Growing (rebuild e children)]

/-- What a list of nodes is sent to. -/
lemma resolves_substituteAll (hs : Good (s, m)) (hm : Memo.Relates (ReplacedBy j) s m)
    (h : ∀ c ∈ l, ∀ (t : Store) (m : Memo), Good (t, m) → s ≤ t → Memo.Relates (ReplacedBy j) t m →
      Completes typedStores d (t, m) (substituteFrom rebuild map c) fun r p =>
        Memo.Relates (ReplacedBy j) p.1 p.2 ∧ ReplacedBy j c r) :
    Resolves typedStores d (s, m) (substituteAll rebuild map l) fun items p =>
      Memo.Relates (ReplacedBy j) p.1 p.2 ∧ List.Forall₂ (ReplacedBy j) l items := by
  induction l generalizing s m with
  | nil =>
    unfold substituteAll
    exact .pure ⟨hm, .nil⟩
  | cons c l ih =>
    rw [List.forall_mem_cons] at h
    unfold substituteAll
    refine (h.1 s m hs le_rfl hm).bind fun r p hp hle _ _ hr => ?_
    refine (ih hp hr.1 fun c hc t m ht hle' => h.2 c hc t m ht (hle.trans hle')).bind
      fun items q _ _ hitems => .pure ⟨hitems.1, .cons hr.2 hitems.2⟩

/-- Parts of expressions of rank `k` are sent to replacements. -/
lemma completes_substituteFrom (hyields : YieldsRebuilt rebuild) (hrebuild : Rebuilds d j k rebuild)
    (hs : Good (s, m)) (hknown : s.Knows map) (hmap : Memo.Relates (ReplacedBy j) s map)
    (hm : Memo.Relates (ReplacedBy j) s m) (he : s.Knows e) (hpart : Part k e) :
    Completes typedStores d (s, m) (substituteFrom rebuild map e) fun r p =>
      Memo.Relates (ReplacedBy j) p.1 p.2 ∧ ReplacedBy j e r := by
  induction hsize : sizeOf e using Nat.strongRecOn generalizing s m e with
  | _ i ih =>
    subst hsize
    refine ⟨yields_substituteFrom hyields hs hknown he d, ?_⟩
    cases hfound : map[e.ordinal]? with
    | some r =>
      have hrun : substituteFrom rebuild map e = pure r := by
        unfold substituteFrom
        rw [hfound]
      rw [hrun]
      exact .pure ⟨hm, hmap.get he hfound⟩
    | none =>
      obtain hrun | ⟨before, l, after, hchildren, hrun⟩ := substituteFrom_of_none rebuild hfound
      · rw [hrun]
        exact hm.resolves_remember he (.pure ⟨hm, .refl j e⟩)
      · rw [hrun]
        refine hm.resolves_remember he ?_
        have hknowns := (good_pair.1 hs).1.children he
        rw [hchildren] at hknowns
        simp only [Store.knows_append] at hknowns
        have hmem {c : Expr} (hc : c ∈ l) : c ∈ e.children := by
          rw [hchildren]
          simp [hc]
        -- A child is sent to its replacement from any later state.
        have hchild : ∀ c ∈ l, ∀ (t : Store) (m : Memo), Good (t, m) → s ≤ t →
            Memo.Relates (ReplacedBy j) t m →
              Completes typedStores d (t, m) (substituteFrom rebuild map c) fun r p =>
                Memo.Relates (ReplacedBy j) p.1 p.2 ∧ ReplacedBy j c r := fun c hc t m ht hle hm =>
          ih _ (sizeOf_lt_of_mem_children (hmem hc)) ht (hknown.mono hle) (hmap.mono hle) hm
            ((hknowns.1.2 c hc).mono hle) (hpart.children c (hmem hc)) rfl
        have hitems : Completes typedStores d (s, m) (substituteAll rebuild map l) fun items p =>
            Memo.Relates (ReplacedBy j) p.1 p.2 ∧ List.Forall₂ (ReplacedBy j) l items :=
          ⟨yields_substituteAll hs (fun c hc t m ht hle => yields_substituteFrom hyields ht
            (hknown.mono hle) ((hknowns.1.2 c hc).mono hle)) d, resolves_substituteAll hs hm hchild⟩
        refine hitems.bind fun items p hp hle hitems _ hreplaced => ?_
        have hall : p.1.Knows (before ++ items ++ after) := Store.knows_append.2
          ⟨Store.knows_append.2 ⟨hknowns.1.1.mono hle, hitems⟩, hknowns.2.mono hle⟩
        have hforall : List.Forall₂ (ReplacedBy j) e.children (before ++ items ++ after) := by
          rw [hchildren]
          have hrefl (l : List Expr) : List.Forall₂ (ReplacedBy j) l l :=
            List.forall₂_same.2 fun c _ => .refl j c
          exact List.rel_append (List.rel_append (hrefl before) hreplaced.2) (hrefl after)
        obtain ⟨hwf, hmemo⟩ := good_pair.1 hp
        have hlift : Completes typedStores d p.1 (rebuild e (before ++ items ++ after)) fun r _ =>
            ReplacedBy j e r :=
          ⟨hyields p.1 e _ (good_store.2 hwf) (he.mono hle) hall d,
            hrebuild (good_store.2 hwf) (he.mono hle) hall hpart hforall⟩
        exact (hlift.lift hmemo).resolves.imp fun r q hq _ hr =>
          ⟨hr.1 ▸ hreplaced.1.mono (Growing.le_of_ok hq), hr.2⟩

/-! ## Replacements -/

/-- An expression with the type of a symbol may stand in its place. -/
lemma ReplacedBy.of_isSymbol (hx : x.isSymbol = true) (hnumeric : x.domain.IsNumeric)
    (hr : Suits (x.domain.isScalar = true) j r) (hwhole : x.domain = .integers → r.Whole) :
    ReplacedBy j x r := by
  have hranked : Ranked 0 x := .symbol hx hnumeric
  have hnumber : x.number? = none := by
    unfold isSymbol at hx
    unfold number?
    cases hkind : x.kind <;> simp [hkind] at hx ⊢
  refine .of_least hranked (fun i _ => i.zero_le) hnumber ?_ fun h => hwhole (h.domain_of_isSymbol hx)
  rwa [Nat.zero_add]

omit [∀ e children, Growing (rebuild e children)] in
/-- The replacements of some pairs. -/
lemma relates_replacements {R : Expr → Expr → Prop} {pairs : List (Expr × Expr)}
    (h : ∀ p ∈ pairs, s.Knows p.1 ∧ R p.1 p.2) : Memo.Relates R s (replacements pairs) := by
  unfold replacements
  refine List.foldlRecOn pairs _ .empty fun map hmap p hp => ?_
  dsimp only
  split
  · exact hmap
  · exact hmap.insert (h p hp).1 (h p hp).2

/-- Parts of expressions of rank `k` are sent to replacements. -/
lemma completes_substituteWith (hyields : YieldsRebuilt rebuild) (hrebuild : Rebuilds d j k rebuild)
    (hs : Good s) {pairs : List (Expr × Expr)} (hpairs : s.Knows pairs)
    (hreplaced : ∀ p ∈ pairs, ReplacedBy j p.1 p.2) (he : s.Knows e) (hpart : Part k e) :
    Completes typedStores d s (substituteWith rebuild pairs e) fun r _ => ReplacedBy j e r where
  yields := yields_substituteWith hyields hs hpairs he d
  resolves := by
    unfold substituteWith
    refine .ite (fun _ => .pure (.refl j e)) fun _ => .forgetting ?_
    have hmap := relates_replacements fun p hp => ⟨(hpairs p hp).1, hreplaced p hp⟩
    exact (completes_substituteFrom hyields hrebuild (good_pair.2 ⟨good_store.1 hs, knows_empty⟩)
      (knows_replacements hpairs) hmap .empty he hpart).resolves.imp fun _ _ _ _ h => h.2

/-- At depth `d`, an index takes the place of another one in expressions of rank `k`. -/
def Renames (d k : ℕ) (substitute : Substitute) : Prop :=
  ∀ ⦃s : Store⦄ ⦃x r e : Expr⦄, Good s → s.Knows x → s.Knows r → s.Knows e →
    x.isSymbol = true ∧ x.domain = .integers → r.isSymbol = true ∧ r.domain = .integers →
      Ranked k e → Completes typedStores d s (substitute [(x, r)] e) fun e' _ => RefinedBy 0 e e'

lemma renames_substituteWith (hyields : YieldsRebuilt rebuild) (hrebuild : Rebuilds d 0 k rebuild) :
    Renames d k (substituteWith rebuild) := by
  intro s x r e hs hx hr he hxi hri hranked
  have hreplaced : ReplacedBy 0 x r := .of_isSymbol hxi.1 (.inl hxi.2)
    ⟨.symbol hri.1 (.inl hri.2), fun _ => by rw [hri.2]; rfl⟩ fun _ => .symbol hri.1 hri.2
  exact (completes_substituteWith hyields hrebuild hs (by simpa using ⟨hx, hr⟩)
    (by simpa using hreplaced) he (.ranked hranked)).imp fun _ _ h => h.toRefinedBy

end Expr

end TermGraph
