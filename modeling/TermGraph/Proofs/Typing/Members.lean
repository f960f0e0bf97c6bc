import TermGraph.Proofs.Meaning.Delivery
import TermGraph.Proofs.Polynomial.Literal

/-!
# Members of host values

A member of a host value is typed by the resolver in the domain of the value, and it keeps this resolver
in its own domain.  So the type of a member at the end of a path of names is found by the resolver of the
value at its front alone, and so is the message for the first name that is not known.

* `Tracks d s x o Q`: the run of `x` gives a result or fails with a message, as `o` says.
* `IsMember base path e`: `e` is the member of `base` at the end of a path.
* `tracks_memberAt`: the accesses of a path do as `memberType` says.
* `tracks_substitute`: the same path from another symbol is typed by the resolver of that symbol.
-/

namespace TermGraph

open Store (Knows)

/-! ## Runs that track a pure computation -/

section Tracks

variable {σ α β γ δ : Type} {d : ℕ} {s : σ} {x : Run σ α} {o : Except String β}
  {Q : β → α → σ → Prop}

/-- Run from `s` at depth `d`, `x` does as `o` says: it gives a result that satisfies `Q`, or it fails
with the message. -/
def Tracks (d : ℕ) (s : σ) (x : Run σ α) (o : Except String β) (Q : β → α → σ → Prop) : Prop :=
  match x d s with
  | .ok a t => ∃ b, o = .ok b ∧ Q b a t
  | .error e _ => o = .error e.message

namespace Tracks

lemma of_ok (h : Tracks d s x o Q) {a : α} {t : σ} (hx : x d s = .ok a t) : ∃ b, o = .ok b ∧ Q b a t := by
  rwa [Tracks, hx] at h

lemma of_error (h : Tracks d s x o Q) {e : Error} {t : σ} (hx : x d s = .error e t) :
    o = .error e.message := by
  rwa [Tracks, hx] at h

lemma pure {a : α} {b : β} (h : Q b a s) : Tracks d s (Pure.pure a : Run σ α) (.ok b) Q := ⟨b, rfl, h⟩

lemma throw {e : Error} {m : String} (h : e.message = m) :
    Tracks d s (MonadExcept.throw e : Run σ α) (.error m) Q := by
  subst h
  rfl

lemma bind {f : α → Run σ γ} {g : β → Except String δ} {R : δ → γ → σ → Prop} (hx : Tracks d s x o Q)
    (hf : ∀ b a t, o = .ok b → Q b a t → Tracks d t (f a) (g b) R) :
    Tracks d s (x >>= f) (o >>= g) R := by
  rw [Tracks, Run.bind_apply]
  cases h : x d s with
  | ok a t =>
    obtain ⟨b, rfl, hb⟩ := hx.of_ok h
    exact hf b a t rfl hb
  | error e t =>
    obtain rfl := hx.of_error h
    rfl

/-- A step that cannot fail. -/
lemma step {f : α → Run σ γ} {o : Except String δ} {R : δ → γ → σ → Prop} {a : α} {t : σ}
    (hx : x d s = .ok a t) (hf : Tracks d t (f a) o R) : Tracks d s (x >>= f) o R := by
  rw [Tracks, Run.bind_apply_ok hx]
  exact hf

lemma imp {R : β → α → σ → Prop} (hx : Tracks d s x o Q) (h : ∀ b a t, Q b a t → R b a t) :
    Tracks d s x o R := by
  rw [Tracks]
  cases hr : x d s with
  | ok a t =>
    obtain ⟨b, ho, hb⟩ := hx.of_ok hr
    exact ⟨b, ho, h b a t hb⟩
  | error e t => exact hx.of_error hr

/-- The value is the one that was expected. -/
lemma expected (hx : Tracks d s x o Q) : Tracks d s x o fun b a t => o = .ok b ∧ Q b a t := by
  rw [Tracks]
  cases hr : x d s with
  | ok a t =>
    obtain ⟨b, ho, hb⟩ := hx.of_ok hr
    exact ⟨b, ho, ho, hb⟩
  | error e t => exact hx.of_error hr

/-- A change of the store. -/
lemma change {s : Store} (f : Store → α × Store) {b : β} {Q : β → α → Store → Prop}
    (h : Q b (f s).1 (f s).2) : Tracks d s (Build.step f) (.ok b) Q := ⟨b, rfl, h⟩

/-- A run on the store next to a memo. -/
lemma lift {μ : Type} {s : Store} {m : μ} {x : Build α} {Q : β → α → Store → Prop}
    (hx : Tracks d s x o Q) :
    Tracks d (s, m) (liftM x : Memoized μ α) o fun b a p => p.2 = m ∧ Q b a p.1 := by
  show Tracks d (s, m) (Memoized.lift x) o _
  rw [Tracks, Memoized.lift]
  cases hr : x d s with
  | ok a t =>
    obtain ⟨b, ho, hb⟩ := hx.of_ok hr
    exact ⟨b, ho, rfl, hb⟩
  | error e t => exact hx.of_error hr

/-- A run with a memo that is forgotten. -/
lemma forgetting {μ : Type} {s : Store} {m : μ} {x : Memoized μ α} {Q : β → α → Store → Prop}
    (hx : Tracks d (s, m) x o fun b a p => Q b a p.1) : Tracks d s (Build.forgetting m x) o Q := by
  unfold Build.forgetting
  rw [Tracks, Run.bind_apply, Build.withMemo]
  cases hr : x d (s, m) with
  | ok a p => exact hx.of_ok hr
  | error e p => exact hx.of_error hr

end Tracks

end Tracks

/-! ## Growth without summations -/

namespace Store

variable {s t u : Store}

/-- `t` knows everything that `s` knows, and has no further placeholders or summations. -/
structure Bindless (s t : Store) : Prop where
  /-- What was known is known. -/
  le : s ≤ t
  /-- The placeholders are the same. -/
  placeholders : t.placeholders = s.placeholders
  /-- New nodes bind nothing. -/
  index : ∀ e : Expr, t.Knows e → s.Knows e ∨ e.kind.index? = none

namespace Bindless

lemma refl (s : Store) : Bindless s s := ⟨le_rfl, rfl, fun _ => .inl⟩

lemma trans (h : Bindless s t) (h' : Bindless t u) : Bindless s u where
  le := h.le.trans h'.le
  placeholders := h'.placeholders.trans h.placeholders
  index e he := (h'.index e he).elim (h.index e) .inr

lemma intern (domain : Domain) (kind : Kind) (hkind : kind.index? = none) (s : Store) :
    Bindless s (s.intern domain kind).2 := by
  have hpush (e : Expr) (he : ({ s with nodes := s.nodes.push (.node s.nodes.size domain kind) } :
      Store).Knows e) : s.Knows e ∨ e.kind.index? = none := by
    rw [knows_iff_getElem?, Array.getElem?_push] at he
    split at he
    · cases he
      exact .inr hkind
    · exact .inl he
  refine ⟨le_intern domain kind s, ?_, fun e he => ?_⟩
  · rw [Store.intern]
    split
    · rfl
    · split <;> rfl
  · rw [Store.intern] at he
    split at he
    · exact hpush e he
    · split at he
      · exact .inl he
      · exact hpush e he

end Bindless

end Store

/-! ## Names and fields -/

lemma Kind.eq_field_of_code {k : Kind} {name : String} (h : k.code = (Kind.field name).code) :
    k = .field name := by
  cases k <;> simp [Kind.code] at h
  case field n =>
    rw [List.map_inj_right fun _ _ => Char.toNat_inj.1] at h
    rw [String.toList_inj.1 h]

/-- Only records have fields. -/
lemma Resolver.toOption_fieldType (r : Resolver) {τ : HostType} (name : String)
    (hτ : ∀ n fields indexers, τ ≠ .record n fields indexers) : (r.fieldType τ name).toOption = none := by
  have hdeclared (n : String) : τ.fieldType n = .error (.unknownMember τ n) := by
    cases τ with
    | record n fields indexers => exact absurd rfl (hτ n fields indexers)
    | _ => rfl
  simp only [fieldType, hdeclared]
  cases r.derived τ name <;> rfl

/-! ## Levels of nesting -/

/-- Levels of nesting by node. -/
abbrev Levels := Std.TreeMap ℕ ℕ

namespace Levels

/-- All levels in a table are zero. -/
def Flat (m : Levels) : Prop := ∀ k n : ℕ, m[k]? = some n → n = 0

lemma Flat.insert {m : Levels} (h : m.Flat) (k : ℕ) : Flat (m.insert k 0) := by
  intro k' n hn
  rw [Std.TreeMap.getElem?_insert] at hn
  split at hn
  · cases hn
    rfl
  · exact h k' n hn

/-- If all levels in a table are zero, the one that is found is, and so are all in the table then. -/
def Keeps (x : StateM Levels ℕ) : Prop :=
  ∀ m : Levels, m.Flat → (x.run m).1 = 0 ∧ Flat (x.run m).2

end Levels

/-! ## Paths of members -/

namespace Expr

variable {s t : Store} {d n : ℕ} {r : Resolver} {τ : HostType} {name : String} {path : List String}
  {base target argument e : Expr}

/-! ### The domain of a member -/

lemma leftApply?_field (ht : target.domain = .ofType τ r) (hfunction : target.function? = none) :
    Domain.leftApply? target (.node n .fields (.field name)) =
      (r.fieldType τ name).toOption.map fun found => .ofType found r := by
  unfold Domain.leftApply?
  rw [ht, hfunction]
  cases τ with
  | record n fields indexers =>
    show (Domain.ofField (.record n fields indexers) r name).toOption = _
    unfold Domain.ofField
    cases r.fieldType (.record n fields indexers) name <;> rfl
  | array element =>
    show (Domain.ofField (.array element) r name).toOption = _
    unfold Domain.ofField
    cases r.fieldType (.array element) name <;> rfl
  | any | int | real | matrix | function =>
    rw [r.toOption_fieldType name (by simp)]
    rfl

/-- A member is typed by the resolver of the value that it is a member of. -/
lemma applyDomain?_field (n : ℕ) (name : String) (ht : target.domain = .ofType τ r)
    (hfunction : target.function? = none) :
    applyDomain? target (.node n .fields (.field name)) =
      (r.fieldType τ name).toOption.map fun found => .ofType found r := by
  have heither (other : Expr) : Domain.eitherApply? target other = none := by
    unfold Domain.eitherApply?
    rw [ht]
    cases τ <;> rfl
  unfold applyDomain?
  rw [leftApply?_field ht hfunction, heither]
  cases r.fieldType τ name <;> rfl

lemma commutes_field (ht : target.domain = .ofType τ r) :
    target.commutes (.node n .fields (.field name)) = false := by
  unfold commutes
  rw [ht]
  cases τ <;> rfl

/-- An access to a member stays as it stands. -/
lemma applyAux_field (depth : ℕ) (ht : target.domain = .ofType τ r) (hfunction : target.function? = none) :
    applyAux (depth + 1) target (.node n .fields (.field name)) =
      rawApply target (.node n .fields (.field name)) := by
  have hlinear : (node n .fields (.field name)).domain.isLinear = false := rfl
  unfold applyAux rawApply
  simp only [hfunction, hlinear, Bool.and_false, Bool.false_eq_true, if_false, kind, commutes_field ht,
    Bool.false_and]

lemma message_unsupportedApplication (target argument : Expr) :
    (Error.unsupportedApplication target argument).message =
      "cannot apply " ++ Error.quoted target.text target.domain.text ++ " to " ++
        Error.quoted argument.text argument.domain.text := rfl

/-- The message that says that a value has no such member. -/
def noMember (text : String) (τ : HostType) (r : Resolver) (name : String) : String :=
  "cannot apply " ++ Error.quoted text (Domain.ofType τ r).text ++ " to " ++
    Error.quoted ("." ++ name) Domain.fields.text

lemma text_field : (node n .fields (.field name)).text = "." ++ name := by
  simp [text, render, Rendering.single]

/-- The application that is found or made is the one that was asked for. -/
lemma exists_intern_apply (hs : s.WellFormed) (ht : s.Knows target) (ha : s.Knows argument) {domain : Domain}
    (h : applyDomain? target argument = some domain) :
    ∃ k, (s.intern domain (.apply target argument)).1 = .node k domain (.apply target argument) := by
  obtain ⟨hwf, hknown, hcode⟩ := hs.intern (admits_apply ht ha h)
  have hle := Store.le_intern domain (.apply target argument) s
  have hkind := hwf.kind_eq_apply hknown (ht.mono hle) (ha.mono hle) hcode
  have htyped := (hwf.admits hknown).typed
  rw [hkind, Kind.Typed, h, Option.some.injEq] at htyped
  generalize (s.intern domain (.apply target argument)).1 = e at hkind htyped
  obtain ⟨k, domain', kind⟩ := e
  obtain rfl : kind = _ := hkind
  obtain rfl : domain = domain' := htyped
  exact ⟨k, rfl⟩

/-- The domain of a member, or the failure for a member that the resolver does not know. -/
lemma tracks_applyDomain_field (hdomain : target.domain = .ofType τ r)
    (hfunction : target.function? = none) :
    Tracks d s (applyDomain target (node n .fields (.field name)))
      ((r.fieldType τ name).mapError fun _ => noMember target.text τ r name) fun found domain t =>
        t = s ∧ domain = .ofType found r ∧ r.fieldType τ name = .ok found := by
  have happly := applyDomain?_field n name hdomain hfunction
  unfold applyDomain
  cases hfield : r.fieldType τ name with
  | error err =>
    have hnone : applyDomain? target (node n .fields (.field name)) = none := by rw [happly, hfield]; rfl
    simp only [hnone]
    exact .throw (by rw [message_unsupportedApplication, hdomain, text_field, noMember, domain])
  | ok found =>
    have hsome : applyDomain? target (node n .fields (.field name)) = some (.ofType found r) := by
      rw [happly, hfield]
      rfl
    simp only [hsome]
    exact .pure ⟨rfl, rfl, rfl⟩

/-- An access gives the application, or fails for a member that the resolver does not know. -/
lemma tracks_rawApply_field (hs : s.WellFormed) (ht : s.Knows target)
    (ha : s.Knows (node n .fields (.field name))) (hdomain : target.domain = .ofType τ r)
    (hfunction : target.function? = none) :
    Tracks d s (rawApply target (node n .fields (.field name)))
      ((r.fieldType τ name).mapError fun _ => noMember target.text τ r name) fun found e t =>
        t.WellFormed ∧ s.Bindless t ∧ t.Knows e ∧ ∃ k, e = node k (.ofType found r)
          (.apply target (node n .fields (.field name))) := by
  rw [← bind_pure (Except.mapError _ _)]
  unfold rawApply
  refine (tracks_applyDomain_field hdomain hfunction).bind ?_
  rintro found _ _ - ⟨rfl, rfl, hfield⟩
  have happly := applyDomain?_field n name hdomain hfunction
  rw [hfield] at happly
  obtain ⟨hwf, hknown, -⟩ := hs.intern (admits_apply ht ha happly)
  exact .change _ ⟨hwf, .intern _ _ rfl _, hknown, exists_intern_apply hs ht ha happly⟩

/-! ### Paths -/

/-- The member of `e` at the end of a path, the last name first. -/
def memberAt (e : Expr) : List String → Build Expr
  | [] => pure e
  | name :: path => do member (← memberAt e path) name

/-- The text of the member at the end of a path, the last name first. -/
def memberText (text : String) : List String → String
  | [] => text
  | name :: path => memberText text path ++ "." ++ name

/-- The type of the member at the end of a path, the last name first, of a value of the type `τ` that is
written `text`; or the message for the first member that the resolver does not know. -/
def memberType (r : Resolver) (text : String) (τ : HostType) : List String → Except String HostType
  | [] => .ok τ
  | name :: path => do
    let found ← memberType r text τ path
    (r.fieldType found name).mapError fun _ => noMember (memberText text path) found r name

/-- `e` is the member of `base` at the end of a path, the last name first. -/
inductive IsMember (base : Expr) : List String → Expr → Prop
  /-- The end of the empty path. -/
  | self : IsMember base [] base
  /-- One more access. -/
  | access (k n : ℕ) (domain : Domain) (name : String) {path : List String} {target : Expr}
      (h : IsMember base path target) :
      IsMember base (name :: path) (.node k domain (.apply target (.node n .fields (.field name))))

/-- The level that is found for an expression is zero if the one that is computed is. -/
lemma keeps_knownLevel {level : StateM Levels ℕ} (h : Levels.Keeps level) :
    Levels.Keeps (knownLevel e level) := by
  intro m hm
  unfold knownLevel
  simp only [StateT.run_bind, StateT.run_get, pure_bind]
  cases hfound : m[e.ordinal]? with
  | some n => exact ⟨hm _ _ hfound, hm⟩
  | none =>
    obtain ⟨hzero, hflat⟩ := h m hm
    have hinsert := hflat.insert e.ordinal
    rw [← hzero] at hinsert
    exact ⟨hzero, hinsert⟩

lemma keeps_nestingFrom_symbol (hbase : base.isSymbol = true) : Levels.Keeps (nestingFrom base) := by
  obtain ⟨k, domain, kind⟩ := base
  cases kind with
  | symbol => exact keeps_knownLevel fun m hm => ⟨rfl, hm⟩
  | _ => cases hbase

namespace IsMember

lemma function? (h : IsMember base path e) (hbase : base.isSymbol = true) : e.function? = none := by
  cases h with
  | self =>
    unfold isSymbol at hbase
    unfold Expr.function?
    cases hkind : base.kind <;> simp [hkind] at hbase ⊢
  | access => rfl

/-- Neither symbols nor members need parentheses. -/
lemma strength (h : IsMember base path e) (hbase : base.isSymbol = true) : e.strength = .atom := by
  cases h with
  | self =>
    unfold isSymbol at hbase
    unfold Expr.strength
    cases hkind : base.kind <;> simp [hkind] at hbase ⊢
  | @access k n domain name path target h =>
    have hlinear : (node n .fields (.field name)).domain.isLinear = false := rfl
    simp [Expr.strength, kind, isProduct, multiplies, power?, hlinear]

lemma text (h : IsMember base path e) (hbase : base.isSymbol = true) :
    e.text = memberText base.text path := by
  induction h with
  | self => rfl
  | @access k n domain name path target h ih =>
    rw [memberText, ← ih]
    have hlinear : (node n .fields (.field name)).domain.isLinear = false := rfl
    have hfunction := h.function? hbase
    have hstrength := h.strength hbase
    obtain ⟨ordinal, domain', kind⟩ := target
    cases kind <;> simp [Expr.function?, Expr.kind] at hfunction <;>
      simp [Expr.text, render, multiplies, Rendering.single, hlinear, enclosed, hstrength]

/-- There is no summation in a member of a symbol. -/
lemma nesting (h : IsMember base path e) (hbase : base.isSymbol = true) : e.nesting = 0 := by
  have hkeeps : Levels.Keeps (nestingFrom e) := by
    induction h with
    | self => exact keeps_nestingFrom_symbol hbase
    | access k n domain name h ih =>
      refine keeps_knownLevel fun m hm => ?_
      have hfield : Levels.Keeps (nestingFrom (node n .fields (.field name))) :=
        keeps_knownLevel fun m hm => ⟨rfl, hm⟩
      obtain ⟨hzero, hflat⟩ := ih m hm
      obtain ⟨hzero', hflat'⟩ := hfield _ hflat
      exact ⟨Nat.max_eq_zero_iff.2 ⟨hzero, hzero'⟩, hflat'⟩
  exact (hkeeps ∅ fun k n hk => by simp at hk).1

/-- An expression is a member of one base alone. -/
lemma base_eq {base' : Expr} (h : IsMember base path e) (h' : IsMember base' path e) : base = base' := by
  induction h with
  | self =>
    cases h' with
    | self => rfl
  | access k n domain name h ih =>
    cases h' with
    | access _ _ _ _ h' => exact ih h'

/-- An expression is a member of a symbol at the end of one path alone. -/
lemma path_eq {path' : List String} (hbase : base.isSymbol = true) (h : IsMember base path e)
    (h' : IsMember base path' e) : path = path' := by
  induction h generalizing path' with
  | self =>
    cases h' with
    | self => rfl
    | access => cases hbase
  | access k n domain name h ih =>
    cases h' with
    | self => cases hbase
    | access _ _ _ _ h' => rw [ih h']

end IsMember

/-- The store has `e`, which is a member of `base` at the end of a path and has the type `τ`. -/
structure MemberIn (s : Store) (base : Expr) (r : Resolver) (path : List String) (τ : HostType)
    (e : Expr) : Prop where
  /-- The store has it. -/
  known : s.Knows e
  /-- It is the member. -/
  isMember : IsMember base path e
  /-- Its domain is that of the type. -/
  domain : e.domain = .ofType τ r

lemma MemberIn.mono (h : MemberIn s base r path τ e) (hle : s ≤ t) : MemberIn t base r path τ e :=
  ⟨h.known.mono hle, h.isMember, h.domain⟩

/-- The name that is found or made is the one that was asked for. -/
lemma exists_intern_field (hs : s.WellFormed) (name : String) : ∃ n,
    (s.intern .fields (.field name)).1 = node n .fields (.field name) ∧
      (s.intern .fields (.field name)).2.WellFormed ∧
      (s.intern .fields (.field name)).2.Knows (node n .fields (.field name)) := by
  have hadm : s.Admits .fields (.field name) :=
    ⟨by simp [Kind.children], fun _ h => h.elim, rfl, by simp [Kind.index?]⟩
  obtain ⟨hwf, hknown, hcode⟩ := hs.intern hadm
  generalize s.intern .fields (.field name) = result at hwf hknown hcode ⊢
  obtain ⟨⟨n, domain, kind⟩, t⟩ := result
  obtain rfl : kind = _ := Kind.eq_field_of_code hcode
  obtain rfl : domain = _ := (hwf.admits hknown).typed
  exact ⟨n, rfl, hwf, hknown⟩

/-- One more access to a member. -/
lemma tracks_applyAux_field (depth : ℕ) (hs : s.WellFormed) (hbase : base.isSymbol = true)
    (h : MemberIn s base r path τ e) (hfield : s.Knows (node n .fields (.field name))) :
    Tracks d s (applyAux (depth + 1) e (node n .fields (.field name)))
      ((r.fieldType τ name).mapError fun _ => noMember (memberText base.text path) τ r name)
      fun found e' t => t.WellFormed ∧ s.Bindless t ∧ MemberIn t base r (name :: path) found e' := by
  have hfunction := h.isMember.function? hbase
  rw [applyAux_field depth h.domain hfunction, ← h.isMember.text hbase]
  refine (tracks_rawApply_field hs h.known hfield h.domain hfunction).imp ?_
  rintro found _ t ⟨hwf, hquiet, hknown, k, rfl⟩
  exact ⟨hwf, hquiet, hknown, .access k n _ name h.isMember, rfl⟩

/-- The member of a symbol at the end of a path. -/
lemma tracks_memberAt (hd : 0 < d) (hs : s.WellFormed) (hknown : s.Knows base)
    (hbase : base.isSymbol = true) (hdomain : base.domain = .ofType τ r) (path : List String) :
    Tracks d s (memberAt base path) (memberType r base.text τ path) fun found e t =>
      t.WellFormed ∧ s.Bindless t ∧ MemberIn t base r path found e := by
  induction path with
  | nil => exact .pure ⟨hs, .refl s, hknown, .self, hdomain⟩
  | cons name path ih =>
    unfold memberAt memberType
    refine ih.bind ?_
    rintro found e t - ⟨ht, hquiet, he⟩
    obtain ⟨n, hfield, hwf, hfieldKnown⟩ := exists_intern_field ht name
    have hquiet' := Store.Bindless.intern .fields (.field name) rfl t
    obtain ⟨depth, rfl⟩ := Nat.exists_eq_add_of_lt hd
    unfold member fieldName
    refine .step (step_apply _ _ t) ?_
    rw [hfield]
    unfold apply
    refine .step (Run.read_apply _ _) ?_
    rw [Nat.zero_add]
    refine (tracks_applyAux_field depth hwf hbase (he.mono hquiet'.le) hfieldKnown).imp ?_
    rintro found' e' u ⟨hu, hquiet'', he'⟩
    exact ⟨hu, (hquiet.trans hquiet').trans hquiet'', he'⟩

/-! ### The same path from another base -/

/-- What `a` becomes when `index` takes the place of `v`: names stay, and a member of `v` becomes the
member of `index` at the end of the same path. -/
structure Moves (v index : Expr) (r : Resolver) (τ : HostType) (s : Store) (a x : Expr) : Prop where
  /-- Names stay. -/
  field : ∀ name, a.kind = .field name → x = a
  /-- Members become members. -/
  member : ∀ path, IsMember v path a → ∃ found, memberType r index.text τ path = .ok found ∧
    MemberIn s index r path found x

/-- The store has grown. -/
lemma Moves.mono {v index a x : Expr} (h : Moves v index r τ s a x) (hle : s ≤ t) :
    Moves v index r τ t a x where
  field := h.field
  member path hpath := by
    obtain ⟨found, htype, hx⟩ := h.member path hpath
    exact ⟨found, htype, hx.mono hle⟩

end Expr

section Substitution

variable {s t : Store} {m : Memo}

/-- A memo of what the parts of members become. -/
def Memo.Moved (v index : Expr) (r : Resolver) (τ : HostType) (p : Store × Memo) : Prop :=
  Memo.Relates (Expr.Moves v index r τ p.1) p.1 p.2

lemma Memo.Moved.mono {v index : Expr} {r : Resolver} {τ : HostType} (h : Memo.Moved v index r τ (s, m))
    (hle : s ≤ t) : Memo.Moved v index r τ (t, m) := by
  intro k e hk
  obtain ⟨a, ha, hka, hmoves⟩ := h k e hk
  exact ⟨a, ha.mono hle, hka, hmoves.mono hle⟩

/-- A result that was remembered is as good as a new one. -/
lemma Memo.Relates.tracks_remember {β : Type} {R : Expr → Expr → Prop} {d : ℕ} {a : Expr}
    {x : Memoized Memo Expr} {o : Except String β} {Q : β → Expr → Store × Memo → Prop}
    (hm : Memo.Relates R s m) (ha : s.Knows a)
    (hfound : ∀ known, R a known → ∃ b, o = .ok b ∧ Q b known (s, m))
    (hx : Tracks d (s, m) x o fun b e p => Q b e (p.1, p.2.insert a.ordinal e)) :
    Tracks d (s, m) (Memoized.remember a x) o Q := by
  unfold Memoized.remember
  rw [Tracks, Run.bind_apply_ok (x := Memoized.memo) rfl]
  cases hlookup : m[a.ordinal]? with
  | some known => exact hfound known (hm.get ha hlookup)
  | none =>
    dsimp only
    rw [Run.bind_apply]
    cases hr : x d (s, m) with
    | error e p => exact hx.of_error hr
    | ok e p => exact hx.of_ok hr

namespace Expr

variable {d n k : ℕ} {r : Resolver} {τ : HostType} {name : String} {path : List String} {domain : Domain}
  {v index target e x : Expr} {map : Memo}

/-- An access to another target is made anew. -/
lemma rebuildAux_access (k : ℕ) (domain : Domain) (depth : ℕ) (hne : x.ordinal ≠ target.ordinal) :
    rebuildAux (depth + 1) (.node k domain (.apply target (.node n .fields (.field name))))
      [x, .node n .fields (.field name)] = applyAux depth x (.node n .fields (.field name)) := by
  unfold rebuildAux
  have hchildren : (node k domain (.apply target (.node n .fields (.field name)))).children =
    [target, .node n .fields (.field name)] := rfl
  simp [hchildren, hne, kind]

/-- Substitution leaves names alone. -/
lemma tracks_substituteFrom_field (rebuild : Rebuild) (hv : v.isSymbol = true) (hmap : map[n]? = none)
    (hm : Memo.Moved v index r τ (s, m)) (hknown : s.Knows (node n .fields (.field name))) :
    Tracks d (s, m) (substituteFrom rebuild map (.node n .fields (.field name))) (.ok ()) fun _ x p =>
      x = node n .fields (.field name) ∧ p.1 = s ∧ Memo.Moved v index r τ p := by
  have hordinal : map[(node n .fields (.field name)).ordinal]? = none := hmap
  unfold substituteFrom
  simp only [hordinal]
  refine Memo.Relates.tracks_remember hm hknown (fun x hx => ?_) (.pure ?_)
  · exact ⟨(), rfl, hx.field name rfl, rfl, hm⟩
  · refine ⟨rfl, rfl, Memo.Relates.insert hm hknown ⟨fun _ _ => rfl, fun path hpath => ?_⟩⟩
    cases hpath
    cases hv

/-- A member of `v` becomes the member of `index` at the end of the same path, typed by the resolver of
`index`, or the substitution fails for the first name that this resolver does not know. -/
lemma tracks_substituteFrom (hd : 1 < d) (hv : v.isSymbol = true) (hindex : index.isSymbol = true)
    (hne : v ≠ index) (hdomain : index.domain = .ofType τ r)
    (hmap : ∀ k, map[k]? = if k = v.ordinal then some index else none) (h : IsMember v path e)
    (hs : s.WellFormed) (he : s.Knows e) (hvknown : s.Knows v) (hindexknown : s.Knows index)
    (hm : Memo.Moved v index r τ (s, m)) :
    Tracks d (s, m) (substituteFrom rebuild map e) (memberType r index.text τ path) fun found x p =>
      p.1.WellFormed ∧ s.Bindless p.1 ∧ Memo.Moved v index r τ p ∧ MemberIn p.1 index r path found x := by
  induction h with
  | self =>
    unfold substituteFrom
    simp only [hmap, if_true]
    exact .pure ⟨hs, .refl s, hm, hindexknown, .self, hdomain⟩
  | @access k n domain name path target h ih =>
    have hfree (a : Expr) (ha : s.Knows a) (hsymbol : a.isSymbol = false) : map[a.ordinal]? = none := by
      rw [hmap, if_neg]
      intro hordinal
      rw [Store.WellFormed.eq_of_ordinal ha hvknown hordinal, hv] at hsymbol
      cases hsymbol
    have hchildren := hs.children he
    simp only [children, kind, Kind.children, Store.knows_cons] at hchildren
    have hnone := hfree _ he rfl
    unfold substituteFrom
    simp only [hnone]
    refine Memo.Relates.tracks_remember hm he (fun x hx => ?_) ?_
    · obtain ⟨found, htype, hx⟩ := hx.member _ (.access k n domain name h)
      exact ⟨found, htype, hs, .refl s, hm, hx⟩
    refine (Tracks.expected (Q := fun found x p => p.1.WellFormed ∧ s.Bindless p.1 ∧
      Memo.Moved v index r τ p ∧ MemberIn p.1 index r (name :: path) found x) ?_).imp ?_
    · unfold memberType
      refine (ih hchildren.1).bind ?_
      rintro found x ⟨t, m'⟩ - ⟨ht, hquiet, hm', hx⟩
      have hfieldKnown := hchildren.2.1.mono hquiet.le
      rw [← pure_bind () fun _ => Except.mapError _ _]
      refine (tracks_substituteFrom_field rebuild hv (hfree _ hchildren.2.1 rfl) hm' hfieldKnown).bind ?_
      rintro - _ ⟨_, m''⟩ - ⟨rfl, rfl, hm''⟩
      obtain ⟨depth, rfl⟩ : ∃ depth, d = depth + 2 := ⟨d - 2, by omega⟩
      -- The target has become another node, since the bases differ.
      have hmoved : x.ordinal ≠ target.ordinal := fun hordinal => by
        obtain rfl := Store.WellFormed.eq_of_ordinal hx.known (hchildren.1.mono hquiet.le) hordinal
        exact hne (h.base_eq hx.isMember)
      have haccess := tracks_applyAux_field (d := depth + 2) depth ht hindex hx hfieldKnown
      rw [← rebuildAux_access k domain (depth + 1) hmoved] at haccess
      unfold rebuild
      refine (Tracks.lift (.step (Run.read_apply _ _) haccess)).imp ?_
      rintro found' x' ⟨u, _⟩ ⟨rfl, hu, hquiet', hx'⟩
      exact ⟨hu, hquiet.trans hquiet', hm''.mono hquiet'.le, hx'⟩
    · rintro found x ⟨t, m'⟩ ⟨htype, ht, hquiet, hm', hx⟩
      refine ⟨ht, hquiet, Memo.Relates.insert hm' (he.mono hquiet.le)
        ⟨(fun _ hname => by cases hname), fun path' hpath' => ?_⟩, hx⟩
      obtain rfl := (IsMember.access k n domain name h).path_eq hv hpath'
      exact ⟨found, htype, hx⟩

/-- The member of `v` at the end of a path with `index` in the place of `v`. -/
lemma tracks_substitute (hd : 1 < d) (hv : v.isSymbol = true) (hindex : index.isSymbol = true)
    (hne : v ≠ index) (hdomain : index.domain = .ofType τ r) (h : IsMember v path e)
    (hs : s.WellFormed) (he : s.Knows e) (hvknown : s.Knows v) (hindexknown : s.Knows index) :
    Tracks d s (substitute [(v, index)] e) (memberType r index.text τ path) fun found x t =>
      t.WellFormed ∧ s.Bindless t ∧ MemberIn t index r path found x := by
  have hmap : replacements [(v, index)] = (∅ : Memo).insert v.ordinal index := by
    have hordinal : v.ordinal ≠ index.ordinal := fun h =>
      hne (Store.WellFormed.eq_of_ordinal hvknown hindexknown h)
    simp [replacements, hordinal]
  unfold substitute substituteWith
  simp only [hmap, Std.TreeMap.isEmpty_insert, Bool.false_eq_true, if_false]
  refine .forgetting ((tracks_substituteFrom hd hv hindex hne hdomain (fun k => ?_) h hs he hvknown
    hindexknown .empty).imp ?_)
  · rw [Std.TreeMap.getElem?_insert]
    by_cases hk : k = v.ordinal
    · simp [hk]
    · simp [hk, Ne.symm hk]
  · rintro found x ⟨t, m⟩ ⟨ht, hquiet, -, hx⟩
    exact ⟨ht, hquiet, hx⟩

end Expr

end Substitution

end TermGraph
