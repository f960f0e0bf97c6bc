import TermGraph.Proofs.Program.Scopes
import TermGraph.Proofs.Store.Formation

/-!
# Derivatives of what does not depend on the variable

A derivative by a symbol that is not in the graph below an expression is the literal zero.  Every rule
for derivatives tells that what it works on has derivative zero, before it asks for partial derivatives
of functions, for rules about members, or for a new node.

* `Succeeds d s x Q`: run from `s` at depth `d`, `x` gives a result that satisfies `Q`.
* `Expr.Inert x a`: nothing about the node `a` keeps its derivative by `x` from being zero.
* `Expr.vanishes_deriveFrom`: derivation succeeds with zero, and with zeros only in its table.
* `Store.Reachable.derive_eq_zero`: the statement for all expressions of stores that can be reached.
-/

namespace TermGraph

open Store (Knows)

/-! ## Runs that succeed -/

section Succeeds

variable {σ α β : Type} {d : ℕ} {s : σ}

/-- Run from `s` at depth `d`, `x` gives a result that satisfies `Q` together with the final state. -/
def Succeeds (d : ℕ) (s : σ) (x : Run σ α) (Q : α → σ → Prop) : Prop :=
  ∃ a t, x d s = .ok a t ∧ Q a t

namespace Succeeds

variable {x : Run σ α} {Q R : α → σ → Prop}

lemma pure {a : α} (h : Q a s) : Succeeds d s (Pure.pure a : Run σ α) Q := ⟨a, s, rfl, h⟩

lemma bind {f : α → Run σ β} {R : β → σ → Prop} (hx : Succeeds d s x Q)
    (hf : ∀ a t, Q a t → Succeeds d t (f a) R) : Succeeds d s (x >>= f) R := by
  obtain ⟨a, t, hrun, hq⟩ := hx
  rw [Succeeds, Run.bind_apply_ok hrun]
  exact hf a t hq

lemma imp (hx : Succeeds d s x Q) (h : ∀ a t, Q a t → R a t) : Succeeds d s x R := by
  obtain ⟨a, t, hrun, hq⟩ := hx
  exact ⟨a, t, hrun, h a t hq⟩

variable {μ : Type} {m : μ}

lemma lift {s : Store} {x : Build α} {Q : α → Store → Prop} (hx : Succeeds d s x Q) :
    Succeeds d (s, m) (liftM x : Memoized μ α) fun a p => Q a p.1 ∧ p.2 = m := by
  obtain ⟨a, t, hrun, hq⟩ := hx
  refine ⟨a, (t, m), ?_, hq, rfl⟩
  show Memoized.lift x d (s, m) = _
  rw [Memoized.lift, hrun]

lemma forgetting {s : Store} {x : Memoized μ α} {Q : α → Store × μ → Prop}
    (hx : Succeeds d (s, m) x Q) :
    Succeeds d s (Build.forgetting m x) fun a t => ∃ m', Q a (t, m') := by
  obtain ⟨a, ⟨t, m'⟩, hrun, hq⟩ := hx
  have hmemo : Build.withMemo m x d s = .ok (.ok a, m') t := by rw [Build.withMemo, hrun]
  refine ⟨a, t, ?_, m', hq⟩
  unfold Build.forgetting
  rw [Run.bind_apply_ok hmemo]
  rfl

end Succeeds

end Succeeds

/-! ## Literals that are zero -/

namespace Expr

variable {z : Expr} {zs : List Expr} {s : Store} {d : ℕ}

/-- The integer literal zero. -/
structure IsNought (z : Expr) : Prop where
  /-- It is the literal. -/
  kind : z.kind = .number (.int 0)
  /-- It lies in the integers. -/
  domain : z.domain = .integers

lemma IsNought.number? (h : z.IsNought) : z.number? = some (.int 0) := by
  rw [Expr.number?, h.kind]

lemma IsNought.isZero (h : z.IsNought) : z.isZero = true := by
  rw [Expr.isZero, h.number?]
  rfl

lemma succeeds_zero (hs : s.WellFormed) :
    Succeeds d s zero fun z t => t.WellFormed ∧ z.IsNought := by
  have hadm : s.Admits .integers (.number (.int 0)) :=
    ⟨by simp [Kind.children], fun _ h => h.elim, rfl, by simp [Kind.index?]⟩
  obtain ⟨hwf, hknown, hcode⟩ := hs.intern hadm
  have hkind := Kind.eq_number_of_code hcode
  have htyped := (hwf.admits hknown).typed
  rw [hkind] at htyped
  exact ⟨_, _, rfl, hwf, hkind, htyped⟩

lemma allTerms_noughts (h : ∀ z ∈ zs, z.IsNought) : allTerms zs = zs := by
  induction zs with
  | nil => rfl
  | cons z zs ih =>
    rw [List.forall_mem_cons] at h
    obtain ⟨ordinal, domain, kind⟩ := z
    obtain rfl : kind = .number (.int 0) := h.1.kind
    rw [allTerms, ih h.2]
    rfl

lemma nonLiterals_noughts (h : ∀ z ∈ zs, z.IsNought) : nonLiterals zs = [] :=
  List.filter_eq_nil_iff.2 fun z hz => by simp [(h z hz).number?]

lemma combine_noughts (h : ∀ z ∈ zs, z.IsNought) :
    ∀ t ∈ combine .add (literals zs), t.value = .int 0 := by
  have hliterals : literals zs = List.replicate zs.length (.int 0) := by
    induction zs with
    | nil => rfl
    | cons z zs ih =>
      rw [List.forall_mem_cons] at h
      rw [literals, List.filterMap_cons, h.1.number?, List.length_cons, List.replicate_succ,
        ← ih h.2]
      rfl
  intro t ht
  rw [hliterals] at ht
  cases zs with
  | nil => cases ht
  | cons z zs =>
    cases ht
    -- Adding zero keeps the total at zero.
    refine List.foldlRecOn (motive := fun t : Number.Tracked => t.value = .int 0) _ _ rfl ?_
    intro t ht n hn
    rw [List.eq_of_mem_replicate hn, Number.Tracked.combine, ht]
    rfl

/-- Zeros add up to zero. -/
lemma succeeds_sum (hs : s.WellFormed) (h : ∀ z ∈ zs, z.IsNought) :
    Succeeds d s (sum zs) fun z t => t.WellFormed ∧ z.IsNought := by
  have hconstant : Succeeds d s ((combine .add (literals zs)).mapM fun total => do
      number (← Build.settle total)) fun c t => t.WellFormed ∧ ∀ z ∈ c, z.IsNought := by
    cases htotal : combine .add (literals zs) with
    | none => exact .pure ⟨hs, by simp⟩
    | some total =>
      have hsettle : Succeeds d s (Build.settle total) fun n t => t.WellFormed ∧ n = .int 0 :=
        ⟨_, _, rfl, hs.of_eq (Growing.le_final (x := Build.settle total) d s) rfl rfl rfl,
          combine_noughts h total htotal⟩
      have hliteral := hsettle.bind (f := number) fun n t ht => by
        rw [ht.2]
        exact succeeds_zero ht.1
      exact hliteral.bind fun z t hz => .pure ⟨hz.1, by simpa using hz.2⟩
  unfold sum sumWith
  simp only [allTerms_noughts h, nonLiterals_noughts h]
  refine hconstant.bind fun c t ht => ?_
  cases c with
  | none => exact succeeds_zero ht.1
  | some z =>
    have hz : z.IsNought := ht.2 z rfl
    simp only [Option.filter_some, hz.isZero]
    exact .pure ⟨ht.1, hz⟩

end Expr

/-! ## Nodes whose derivative is zero -/

/-- The children of a node, but for the argument of an application. -/
def Kind.operandsInPlace : Kind → List Expr
  | .apply target _ => [target]
  | kind => kind.children

namespace Expr

/-- A tuple of several items. -/
def IsTuple (e : Expr) : Prop :=
  ∃ items, e.kind = .tuple items

/-- Nothing about the node `a` keeps its derivative by `x` from being zero. -/
structure Inert (x a : Expr) : Prop where
  /-- It is not the variable. -/
  ordinal : a.ordinal ≠ x.ordinal
  /-- It is well typed. -/
  typed : a.kind.Typed a.domain
  /-- It is needed. -/
  formed : a.kind.isFormed = true
  /-- No custom domain has a say. -/
  builtin : a.domain.isBuiltin = true
  /-- Tuples are arguments of applications. -/
  arguments : ∀ c ∈ a.kind.operandsInPlace, ¬c.IsTuple

variable {x e t a : Expr} {i : ℕ} {domain : Domain}

lemma IsTuple.operandsInPlace (h : a.IsTuple) : a.kind.operandsInPlace = a.children := by
  obtain ⟨items, hkind⟩ := h
  rw [children, hkind]
  rfl

lemma IsTuple.domain_eq (h : a.IsTuple) (htyped : a.kind.Typed a.domain) : a.domain = .universal := by
  obtain ⟨items, hkind⟩ := h
  rwa [hkind] at htyped

/-- Functions with a body are not called. -/
lemma Inert.not_lambda (h : Inert x (node i domain (.apply t a))) (ha : a.domain.isBuiltin = true)
    {f : Function} (hf : t.function? = some f) : ∀ i name params body,
      f ≠ .lambda i name params body := by
  rintro i name params body rfl
  simpa [Expr.kind, Kind.isFormed, hf, ha] using h.formed

/-- An application multiplies, calls a function, or takes a member of a host value. -/
lemma applicationRule?_cases (ht : t.domain.isBuiltin = true) (ha : a.domain.isBuiltin = true)
    (h : applyDomain? t a = some domain) :
    (applicationRule? t = some .product ∧ a.domain ≠ .universal) ∨
    (∃ f, applicationRule? t = some (.chain f) ∧ t.function? = some f ∧
      f.resultDomain? a = some domain) ∨
    applicationRule? t = some .access := by
  rw [applyDomain?_builtin ht ha, Domain.leftApply?] at h
  unfold applicationRule?
  cases hdomain : t.domain <;> rw [hdomain] at h ht
  case matrices | reals | integers =>
    refine .inl ⟨rfl, fun hargument => ?_⟩
    rw [hargument] at h
    cases h
  case host => exact .inr (.inr rfl)
  case functions =>
    refine .inr (.inl ?_)
    simp only [Domain.firstAnswer, Domain.lineage, List.findSome?_cons] at h ⊢
    cases hf : t.function? with
    | none => simp [hf] at h
    | some f => exact ⟨f, rfl, rfl, by simpa [hf] using h⟩
  case universal | fields => cases h
  case custom => cases ht

/-- A function of one argument is not called with several, unless it has a body. -/
lemma arity_ne_one_of_isTuple {f : Function} (htuple : a.IsTuple) (hdomain : a.domain = .universal)
    (hf : ∀ i name params body, f ≠ .lambda i name params body)
    (h : f.resultDomain? a = some domain) : f.arity ≠ 1 := by
  obtain ⟨items, hkind⟩ := htuple
  intro harity
  have hargs : f.arguments a = [a] := by simp [Function.arguments, hkind, harity]
  cases f with
  | lambda i name params body => exact hf _ _ _ _ rfl
  | builtin _ | native _ _ _ =>
    simp only [Function.resultDomain?, hargs, List.all_cons, hdomain] at h
    simp [Domain.isScalar, Domain.within, Domain.lineage, BEq.beq, Domain.same] at h

/-! ## Derivation -/

/-- The store is well formed, and all derivatives in the table are zero. -/
structure Vanishing (p : Store × DerivativeTable) : Prop where
  /-- The store is well formed. -/
  wellFormed : p.1.WellFormed
  /-- Only zeros are remembered. -/
  nought : ∀ (k : List ℕ) (z : Expr), p.2[k]? = some z → z.IsNought

variable {p : Store × DerivativeTable} {d : ℕ} {es : List Expr}

/-- Run from `p` at depth `d`, `y` gives zero, and remembers zeros only. -/
def Vanishes (d : ℕ) (p : Store × DerivativeTable) (y : Memoized DerivativeTable Expr) : Prop :=
  Succeeds d p y fun z q => Vanishing q ∧ z.IsNought

lemma vanishes_lift {y : Build Expr} (hp : Vanishing p)
    (hy : Succeeds d p.1 y fun z t => t.WellFormed ∧ z.IsNought) :
    Vanishes d p (liftM y : Memoized DerivativeTable Expr) := by
  refine (Succeeds.lift (m := p.2) hy).imp fun z q hq => ⟨⟨hq.1.1, ?_⟩, hq.1.2⟩
  rw [hq.2]
  exact hp.nought

lemma vanishes_sum (hp : Vanishing p) {zs : List Expr} (h : ∀ z ∈ zs, z.IsNought) :
    Vanishes d p (liftM (sum zs) : Memoized DerivativeTable Expr) :=
  vanishes_lift hp (succeeds_sum hp.wellFormed h)

/-- A zero that is remembered is as good as a new one. -/
lemma vanishes_rememberDerivative {y : Memoized DerivativeTable Expr} (hp : Vanishing p)
    (hy : Vanishes d p y) : Vanishes d p (Memoized.rememberDerivative e x y) := by
  unfold Memoized.rememberDerivative
  have hmemo : Succeeds d p (Memoized.memo : Memoized DerivativeTable DerivativeTable)
      fun table q => q = p ∧ table = p.2 := ⟨_, _, rfl, rfl, rfl⟩
  refine hmemo.bind fun table q hq => ?_
  obtain ⟨rfl, rfl⟩ := hq
  cases hfound : q.2[[e.ordinal, x.ordinal]]? with
  | some z => exact .pure ⟨hp, hp.nought _ z hfound⟩
  | none =>
    refine hy.bind fun z q hz => ?_
    have hinsert : Succeeds d q (Memoized.modifyMemo (·.insert [e.ordinal, x.ordinal] z) :
        Memoized DerivativeTable Unit) fun _ r => Vanishing r := by
      refine ⟨_, _, rfl, hz.1.wellFormed, fun k z' hk => ?_⟩
      rw [Std.TreeMap.getElem?_insert] at hk
      split at hk
      · cases hk
        exact hz.2
      · exact hz.1.nought k z' hk
    exact hinsert.bind fun _ r hr => .pure ⟨hr, hz.2⟩

/-- From every state in which only zeros are remembered, the derivative of `e` by `x` is zero. -/
def VanishesBy (x e : Expr) : Prop :=
  ∀ (d : ℕ) (p : Store × DerivativeTable), Vanishing p → Vanishes d p (deriveFrom x e)

lemma succeeds_deriveAll (h : ∀ e ∈ es, VanishesBy x e) (hp : Vanishing p) :
    Succeeds d p (deriveAll x es) fun zs q => Vanishing q ∧ ∀ z ∈ zs, z.IsNought := by
  induction es generalizing p with
  | nil =>
    unfold deriveAll deriveAllWith
    exact .pure ⟨hp, by simp⟩
  | cons e es ih =>
    rw [List.forall_mem_cons] at h
    unfold deriveAll deriveAllWith
    refine (h.1 d p hp).bind fun z q hz => (ih h.2 hz.1).bind fun zs r hzs => ?_
    exact .pure ⟨hzs.1, List.forall_mem_cons.2 ⟨hz.2, hzs.2⟩⟩

/-- Arguments with derivative zero contribute nothing. -/
lemma chainTerm_nought (f : Function) (args : List Expr) (k : ℕ) {z : Expr} (hz : z.IsNought) :
    f.chainTerm args k z = pure [] := by
  rw [Function.chainTerm, if_pos hz.isZero]

lemma succeeds_chainTerms (f : Function) (args : List Expr) (k : ℕ)
    (h : ∀ e ∈ es, VanishesBy x e) (hp : Vanishing p) :
    Succeeds d p (chainTerms x f args k es) fun ts q => Vanishing q ∧ ts = [] := by
  induction es generalizing p k with
  | nil =>
    unfold chainTerms chainTermsWith
    exact .pure ⟨hp, rfl⟩
  | cons e es ih =>
    rw [List.forall_mem_cons] at h
    unfold chainTerms chainTermsWith
    refine (h.1 d p hp).bind fun z q hz => ?_
    rw [chainTerm_nought f args k hz.2]
    refine (ih (k + 1) h.2 hz.1).bind fun ts r hts => ?_
    exact .pure ⟨hts.1, by simp [hts.2]⟩

lemma succeeds_chainDerivatives (before : List Expr) (h : ∀ e ∈ es, VanishesBy x e)
    (hp : Vanishing p) :
    Succeeds d p (chainDerivatives x before es) fun ts q => Vanishing q ∧ ts = [] := by
  induction es generalizing p before with
  | nil =>
    unfold chainDerivatives chainDerivativesWith
    exact .pure ⟨hp, rfl⟩
  | cons e es ih =>
    rw [List.forall_mem_cons] at h
    unfold chainDerivatives chainDerivativesWith
    refine (h.1 d p hp).bind fun z q hz => ?_
    rw [if_pos hz.2.isZero]
    exact ih (e :: before) h.2 hz.1

/-- The derivative of an expression is zero if all nodes below it are inert and it is no tuple. -/
lemma vanishes_deriveFrom (h : ∀ a, Below a e → Inert x a) (htuple : ¬e.IsTuple) :
    VanishesBy x e := by
  induction hsize : sizeOf e using Nat.strongRecOn generalizing e with
  | _ n ih =>
    subst hsize
    intro d p hp
    have hinert := h e .refl
    -- What the induction gives for a child that is no tuple.
    have hchild {c : Expr} (hc : c ∈ e.children) (hplain : ¬c.IsTuple) : VanishesBy x c :=
      ih _ (sizeOf_lt_of_mem_children hc) (fun a ha => h a (.step hc ha)) hplain rfl
    -- It is enough to follow the rule for the kind of node.
    have hrule {y : Memoized DerivativeTable Expr} (hy : Vanishes d p y) :
        Vanishes d p (Memoized.rememberDerivative e x (if e == x then liftM one else y)) := by
      rw [if_neg fun heq => hinert.ordinal (beq_iff_ordinal.1 heq)]
      exact vanishes_rememberDerivative hp hy
    have hbelow := hinert.arguments
    have htyped := hinert.typed
    obtain ⟨ordinal, domain, kind⟩ := e
    simp only [children, Expr.kind] at hchild hbelow htyped
    unfold deriveFrom deriveWith
    cases kind with
    | symbol _ | number _ | object _ _ | field _ | function _ =>
      exact hrule (vanishes_lift hp (succeeds_zero hp.wellFormed))
    | tuple items => exact absurd ⟨items, rfl⟩ htuple
    | sum items =>
      refine hrule ((succeeds_deriveAll (fun c hc => hchild hc (hbelow c hc)) hp).bind
        fun zs q hzs => ?_)
      exact vanishes_sum hzs.1 hzs.2
    | apply t a =>
      have hmemt : t ∈ (Kind.apply t a).children := by simp [Kind.children]
      have hmema : a ∈ (Kind.apply t a).children := by simp [Kind.children]
      have ht := h t (.step hmemt .refl)
      have ha := h a (.step hmema .refl)
      have htarget := hchild hmemt (hbelow t (by simp [Kind.operandsInPlace]))
      rcases applicationRule?_cases ht.builtin ha.builtin htyped with
        ⟨hproduct, hdomain⟩ | ⟨f, hcall, hf, hresult⟩ | haccess
      · have hargument := hchild hmema fun htuple => hdomain (htuple.domain_eq ha.typed)
        simp only [hproduct]
        refine hrule ((htarget d p hp).bind fun dt q hdt => ?_)
        refine (hargument d q hdt.1).bind fun da r hda => ?_
        rw [productUnlessZero, if_pos hdt.2.isZero, productUnlessZero, if_pos hda.2.isZero]
        refine (vanishes_lift hda.1 (succeeds_zero hda.1.wellFormed)).bind fun left u hleft => ?_
        refine (vanishes_lift hleft.1 (succeeds_zero hleft.1.wellFormed)).bind fun right v hright => ?_
        exact vanishes_sum hright.1 (by simp [hleft.2, hright.2])
      · simp only [hcall]
        by_cases hargument : a.IsTuple
        · -- The items of the tuple are no tuples themselves, and the function takes more than one.
          have hitems : ∀ c ∈ a.children, VanishesBy x c := fun c hc =>
            ih _ ((sizeOf_lt_of_mem_children hc).trans (sizeOf_lt_of_mem_children hmema))
              (fun b hb => h b (.step hmema (.step hc hb)))
              (ha.arguments c (hargument.operandsInPlace ▸ hc)) rfl
          have harity := arity_ne_one_of_isTuple hargument (hargument.domain_eq ha.typed)
            (hinert.not_lambda ha.builtin hf) hresult
          obtain ⟨items, hkind⟩ := hargument
          obtain ⟨_, _, _⟩ := a
          obtain rfl : _ = Kind.tuple items := hkind
          refine hrule ?_
          dsimp only
          rw [if_neg harity]
          refine (succeeds_chainTerms f items 0 hitems hp).bind fun ts q hts => ?_
          rw [hts.2]
          exact vanishes_sum hts.1 (by simp)
        · have hsingle : Vanishes d p (do
              let z ← deriveFrom x a
              let ts ← (liftM (f.chainTerm [a] 0 z) : Memoized DerivativeTable (List Expr))
              liftM (sum ts)) := by
            refine (hchild hmema hargument d p hp).bind fun z q hz => ?_
            rw [chainTerm_nought f [a] 0 hz.2]
            exact vanishes_sum hz.1 (List.forall_mem_nil _)
          obtain ⟨_, _, kind⟩ := a
          cases kind with
          | tuple items => exact absurd ⟨items, rfl⟩ hargument
          | _ => exact hrule hsingle
      · simp only [haccess]
        refine hrule ((htarget d p hp).bind fun z q hz => ?_)
        rw [if_pos hz.2.isZero]
        exact vanishes_lift hz.1 (succeeds_zero hz.1.wellFormed)
    | chain factors =>
      refine hrule ((succeeds_chainDerivatives [] (fun c hc => hchild hc (hbelow c hc)) hp).bind
        fun ts q hts => ?_)
      rw [hts.2]
      exact vanishes_sum hts.1 (by simp)
    | inverse inner | generator _ _ inner =>
      have hinner := hchild (c := inner) (by simp [Kind.children])
        (hbelow inner (by simp [Kind.operandsInPlace, Kind.children]))
      refine hrule ((hinner d p hp).bind fun z q hz => ?_)
      rw [if_pos hz.2.isZero]
      exact .pure hz
    | transpose inner =>
      have hinner := hchild (c := inner) (by simp [Kind.children])
        (hbelow inner (by simp [Kind.operandsInPlace, Kind.children]))
      refine hrule ((hinner d p hp).bind fun z q hz => ?_)
      rw [transpose, if_pos (by rw [hz.2.domain]; rfl)]
      exact .pure hz
    | indexedSum index lower upper body =>
      have hbody := hchild (c := body) (by simp [Kind.children])
        (hbelow body (by simp [Kind.operandsInPlace, Kind.children]))
      refine hrule ((hbody d p hp).bind fun z q hz => ?_)
      rw [if_pos hz.2.isZero]
      exact .pure hz
    | collectionSum index collection body =>
      have hcollection := hchild (c := collection) (by simp [Kind.children])
        (hbelow collection (by simp [Kind.operandsInPlace, Kind.children]))
      have hbody := hchild (c := body) (by simp [Kind.children])
        (hbelow body (by simp [Kind.operandsInPlace, Kind.children]))
      refine hrule ((hcollection d p hp).bind fun z q hz => ?_)
      simp only [hz.2.isZero]
      refine (hbody d q hz.1).bind fun z' r hz' => ?_
      rw [if_pos hz'.2.isZero]
      exact .pure hz'

/-- Tuples stand in `e` as arguments of applications only. -/
def TuplesAreArguments (e : Expr) : Prop :=
  ¬e.IsTuple ∧ ∀ a, Below a e → ∀ c ∈ a.kind.operandsInPlace, ¬c.IsTuple

end Expr

namespace Store.Reachable

variable {s : Store}

/-- **Independence.**  Let `e` be an expression without custom domains in which tuples are arguments of
applications only, and `x` a symbol that is not in the graph below `e`.  Then the derivative of `e` by
`x` is found at every depth, and it is the integer literal zero. -/
theorem derive_eq_zero (hs : s.Reachable) {e x : Expr} (he : s.Knows e) (hx : s.Knows x)
    (hsymbol : x.isSymbol = true) (hbelow : ¬Expr.Below x e) (htuples : e.TuplesAreArguments)
    (hbuiltin : ∀ a, Expr.Below a e → a.domain.isBuiltin = true) (depth : ℕ) :
    ∃ z t, e.derive x depth s = .ok z t ∧ t.Knows z ∧ z.kind = .number (.int 0) := by
  have hwf := hs.wellFormed
  have hinert : ∀ a, Expr.Below a e → Expr.Inert x a := fun a ha => by
    have hknown := ha.knows hwf he
    refine ⟨fun hordinal => hbelow ?_, (hwf.admits hknown).typed, hs.formed a hknown, hbuiltin a ha,
      htuples.2 a ha⟩
    rwa [← WellFormed.eq_of_ordinal hknown hx hordinal]
  have hderive : Succeeds depth s (e.derive x) fun z t => z.IsNought := by
    unfold Expr.derive Expr.checkVariable
    rw [if_pos hsymbol]
    have hp : Expr.Vanishing (s, ∅) := ⟨hwf, fun k z h => by simp at h⟩
    exact (Succeeds.forgetting (Expr.vanishes_deriveFrom hinert htuples.1 depth _ hp)).imp
      fun z t ⟨_, hz⟩ => hz.2
  obtain ⟨z, t, hrun, hz⟩ := hderive
  exact ⟨z, t, hrun, ((Expr.yields_derive (good_store.2 hwf) he x depth).of_ok hrun).2, hz.kind⟩

/-- A function without partial derivatives, called with a symbol twice, does not depend on another
symbol. -/
theorem derive_native_eq_zero :
    let g : Function := .native 0 "g" ⟨2, .argument 0, none⟩
    let x : Expr := .node 50 .reals (.symbol "x")
    let y : Expr := .node 51 .reals (.symbol "y")
    let pair : Expr := .node 53 .universal (.tuple [y, y])
    let e : Expr := .node 54 .reals (.apply (.node 52 .functions (.function g)) pair)
    let s := finalState ((Operation.call g [y, y]).run 9 (finalState ((Operation.symbol "y" .reals).run 9
      (finalState ((Operation.symbol "x" .reals).run 9 initial)))))
    initial.Reaches s ∧ s.Knows e ∧ s.Knows x ∧ x.isSymbol = true ∧ ¬Expr.Below x e ∧
      e.TuplesAreArguments ∧ (∀ a, Expr.Below a e → a.domain.isBuiltin = true) ∧
      ∃ z t, e.derive x 0 s = .ok z t ∧ t.Knows z ∧ z.kind = .number (.int 0) := by
  intro g x y pair e s
  have hs : initial.Reaches s := by
    refine .step _ 9 (.step _ 9 (.step _ 9 .refl trivial) trivial) ⟨trivial, ?_⟩
    simp only [knows_cons]
    exact ⟨rfl, rfl, by simp⟩
  have hbelow : ∀ a, Expr.Below a e → a.ordinal ≠ x.ordinal ∧ a.domain.isBuiltin = true ∧
      ∀ c ∈ a.kind.operandsInPlace, ¬c.IsTuple := by
    have hleaf {a : Expr} (hordinal : a.ordinal ≠ x.ordinal) (hbuiltin : a.domain.isBuiltin = true)
        (hnil : a.children = []) (hnil' : a.kind.operandsInPlace = []) : ∀ b, Expr.Below b a →
          b.ordinal ≠ x.ordinal ∧ b.domain.isBuiltin = true ∧
            ∀ c ∈ b.kind.operandsInPlace, ¬c.IsTuple :=
      Expr.forall_below_iff.2 ⟨⟨hordinal, hbuiltin, by simp [hnil']⟩, by simp [hnil]⟩
    have hy := hleaf (a := y) (by decide) rfl rfl rfl
    refine Expr.forall_below_iff.2 ⟨⟨by decide, rfl, ?_⟩, ?_⟩
    · simp [e, Expr.kind, Kind.operandsInPlace, Expr.IsTuple]
    refine List.forall_mem_cons.2 ⟨hleaf (by decide) rfl rfl rfl, List.forall_mem_singleton.2 ?_⟩
    refine Expr.forall_below_iff.2 ⟨⟨by decide, rfl, ?_⟩, ?_⟩
    · simp [pair, y, Expr.kind, Kind.operandsInPlace, Kind.children, Expr.IsTuple]
    · exact List.forall_mem_cons.2 ⟨hy, List.forall_mem_singleton.2 hy⟩
  have hx : ¬Expr.Below x e := fun h => (hbelow x h).1 rfl
  have htuples : e.TuplesAreArguments :=
    ⟨by simp [Expr.IsTuple, e, Expr.kind], fun a ha => (hbelow a ha).2.2⟩
  have hbuiltin : ∀ a, Expr.Below a e → a.domain.isBuiltin = true := fun a ha => (hbelow a ha).2.1
  exact ⟨hs, rfl, rfl, rfl, hx, htuples, hbuiltin,
    derive_eq_zero hs.reachable (e := e) (x := x) rfl rfl rfl hx htuples hbuiltin 0⟩

end Store.Reachable

end TermGraph
