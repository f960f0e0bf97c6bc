import TermGraph.Proofs.Store.Growth

/-!
# Caches of derivatives

A derivation by one variable reads and writes the derivatives by this variable only.  Derivatives by
other variables, from whatever derivations, are therefore of no account.

* `DerivativeTable.SameBy`: tables with the same derivatives by a variable.
* `Alike`: runs from such tables with the same outcome and the same store at the end.
* `Confined i x`: derivatives by other variables than the one with ordinal `i` are neither read nor
  written.  It is a class, so that it is inferred along the syntax of a computation.
* `DerivativeTable.Used`: what becomes of a table by further derivations.
* `Expr.gradient_eq_mapM`: a gradient is made of the single derivatives.
-/

namespace TermGraph

variable {α β : Type}

/-! ## Tables with the same derivatives -/

namespace DerivativeTable

/-- The tables have the same derivatives by the variable with ordinal `i`. -/
def SameBy (i : ℕ) (T U : DerivativeTable) : Prop :=
  ∀ k : ℕ, T[[k, i]]? = U[[k, i]]?

variable {i j : ℕ} {T U W : DerivativeTable}

namespace SameBy

@[refl] lemma refl (i : ℕ) (T : DerivativeTable) : SameBy i T T := fun _ => rfl

lemma symm (h : SameBy i T U) : SameBy i U T := fun k => (h k).symm

lemma trans (h : SameBy i T U) (h' : SameBy i U W) : SameBy i T W := fun k => (h k).trans (h' k)

lemma insert (h : SameBy i T U) (k : List ℕ) (d : Expr) : SameBy i (T.insert k d) (U.insert k d) := by
  intro k'
  rw [Std.TreeMap.getElem?_insert, Std.TreeMap.getElem?_insert, h k']

/-- A derivative by another variable changes nothing. -/
lemma insert_of_ne (T : DerivativeTable) (h : j ≠ i) (k : ℕ) (d : Expr) :
    SameBy j T (T.insert [k, i] d) := by
  intro k'
  rw [Std.TreeMap.getElem?_insert, if_neg]
  rw [Std.LawfulEqCmp.compare_eq_iff_eq]
  rintro ⟨⟩
  exact h rfl

end SameBy

/-- `U` differs from `T` in derivatives by the variable with ordinal `i` only. -/
def Altered (i : ℕ) (T U : DerivativeTable) : Prop :=
  ∀ j : ℕ, j ≠ i → SameBy j T U

namespace Altered

@[refl] lemma refl (i : ℕ) (T : DerivativeTable) : Altered i T T := fun j _ => .refl j T

lemma trans (h : Altered i T U) (h' : Altered i U W) : Altered i T W := fun j hj => (h j hj).trans (h' j hj)

lemma insert (h : Altered i T U) (k : ℕ) (d : Expr) : Altered i T (U.insert [k, i] d) :=
  fun j hj => (h j hj).trans (.insert_of_ne U hj k d)

end Altered

end DerivativeTable

open DerivativeTable (SameBy Altered)

/-- Two runs with the same outcome and the same store at the end, and tables with the same derivatives
by the variable with ordinal `i`. -/
inductive Alike (i : ℕ) : EStateM.Result Error (Store × DerivativeTable) α →
    EStateM.Result Error (Store × DerivativeTable) α → Prop
  | ok (a : α) (t : Store) {T U : DerivativeTable} :
    SameBy i T U → Alike i (.ok a (t, T)) (.ok a (t, U))
  | error (e : Error) (t : Store) {T U : DerivativeTable} :
    SameBy i T U → Alike i (.error e (t, T)) (.error e (t, U))

/-! ## Confined computations -/

/-- Every run of `x` reads and writes derivatives by the variable with ordinal `i` only. -/
class Confined (i : ℕ) (x : Memoized DerivativeTable α) : Prop where
  /-- Only the derivatives by this variable count. -/
  alike : ∀ (d : ℕ) (s : Store) {T U : DerivativeTable}, SameBy i T U →
    Alike i (x d (s, T)) (x d (s, U))
  /-- The table gets derivatives by this variable only, also if the run fails. -/
  altered : ∀ (d : ℕ) (p : Store × DerivativeTable), Altered i p.2 (finalState (x d p)).2

section Confined

variable {i : ℕ}

lemma Confined.of_ok {x : Memoized DerivativeTable α} [Confined i x] {d : ℕ}
    {p q : Store × DerivativeTable} {a : α} (h : x d p = .ok a q) : Altered i p.2 q.2 := by
  have hfinal := Confined.altered (i := i) (x := x) d p
  rwa [h] at hfinal

lemma Confined.of_error {x : Memoized DerivativeTable α} [Confined i x] {d : ℕ}
    {p q : Store × DerivativeTable} {e : Error} (h : x d p = .error e q) : Altered i p.2 q.2 := by
  have hfinal := Confined.altered (i := i) (x := x) d p
  rwa [h] at hfinal

instance confined_pure (a : α) : Confined i (pure a : Memoized DerivativeTable α) :=
  ⟨fun _ s _ _ h => .ok a s h, fun _ _ => .refl _ _⟩

instance confined_throw (e : Error) : Confined i (throw e : Memoized DerivativeTable α) :=
  ⟨fun _ s _ _ h => .error e s h, fun _ _ => .refl _ _⟩

instance confined_bind (x : Memoized DerivativeTable α) (f : α → Memoized DerivativeTable β)
    [Confined i x] [∀ a, Confined i (f a)] : Confined i (x >>= f) := by
  refine ⟨fun d s T U h => ?_, fun d p => ?_⟩
  · have hx := Confined.alike (x := x) d s h
    rw [Run.bind_apply, Run.bind_apply]
    generalize x d (s, T) = r, x d (s, U) = r' at hx
    cases hx with
    | ok a t h => exact Confined.alike d t h
    | error e t h => exact .error e t h
  · rw [Run.bind_apply]
    cases hr : x d p with
    | ok a q => exact (Confined.of_ok hr).trans (Confined.altered d q)
    | error e q => exact Confined.of_error hr

instance confined_ite (c : Prop) [Decidable c] (x y : Memoized DerivativeTable α) [Confined i x]
    [Confined i y] : Confined i (if c then x else y) := by
  split <;> infer_instance

instance confined_monadLift (x : Build α) :
    Confined i (liftM x : Memoized DerivativeTable α) := by
  refine ⟨fun d s T U h => ?_, fun d p => ?_⟩
  · show Alike i (Memoized.lift x d (s, T)) (Memoized.lift x d (s, U))
    rw [Memoized.lift, Memoized.lift]
    cases x d s with
    | ok a t => exact .ok a t h
    | error e t => exact .error e t h
  · obtain ⟨s, T⟩ := p
    show Altered i T (finalState (Memoized.lift x d (s, T))).2
    rw [Memoized.lift]
    cases x d s <;> exact .refl _ _

end Confined

/-! ## Derivations -/

namespace Memoized

variable {e x r : Expr} {T : DerivativeTable} {y : Memoized DerivativeTable Expr} {d : ℕ} {s : Store}

/-- A derivative that is in the table is the answer. -/
lemma rememberDerivative_of_some (h : T[[e.ordinal, x.ordinal]]? = some r) :
    rememberDerivative e x y d (s, T) = .ok r (s, T) := by
  rw [rememberDerivative, Run.bind_apply_ok (x := Memoized.memo) rfl, h]
  rfl

/-- A derivative that is not in the table is found and put there. -/
lemma rememberDerivative_of_none (h : T[[e.ordinal, x.ordinal]]? = none) :
    rememberDerivative e x y d (s, T) = (do
      let r ← y
      modifyMemo (·.insert [e.ordinal, x.ordinal] r)
      pure r : Memoized DerivativeTable Expr) d (s, T) := by
  rw [rememberDerivative, Run.bind_apply_ok (x := Memoized.memo) rfl, h]

instance confined_rememberDerivative (e x : Expr) (y : Memoized DerivativeTable Expr)
    [Confined x.ordinal y] : Confined x.ordinal (rememberDerivative e x y) := by
  refine ⟨fun d s T U h => ?_, fun d p => ?_⟩
  · cases hT : T[[e.ordinal, x.ordinal]]? with
    | some r =>
      rw [rememberDerivative_of_some hT, rememberDerivative_of_some ((h _).symm.trans hT)]
      exact .ok r s h
    | none =>
      rw [rememberDerivative_of_none hT, rememberDerivative_of_none ((h _).symm.trans hT),
        Run.bind_apply, Run.bind_apply]
      have hy := Confined.alike (x := y) d s h
      generalize y d (s, T) = r, y d (s, U) = r' at hy
      cases hy with
      | ok r t h => exact .ok r t (h.insert _ r)
      | error err t h => exact .error err t h
  · obtain ⟨s, T⟩ := p
    cases hT : T[[e.ordinal, x.ordinal]]? with
    | some r =>
      rw [rememberDerivative_of_some hT]
      exact .refl _ _
    | none =>
      rw [rememberDerivative_of_none hT, Run.bind_apply]
      cases hr : y d (s, T) with
      | ok r q => exact (Confined.of_ok hr).insert _ r
      | error err q => exact Confined.of_error hr

end Memoized

namespace Expr

section Derive

variable {x : Expr} {es : List Expr}

lemma confined_deriveAll (h : ∀ e ∈ es, Confined x.ordinal (deriveFrom x e)) :
    Confined x.ordinal (deriveAll x es) := by
  induction es with
  | nil =>
    unfold deriveAll deriveAllWith
    infer_instance
  | cons e es ih =>
    have := h e (by simp)
    have := ih fun e' he' => h e' (by simp [he'])
    unfold deriveAll deriveAllWith
    infer_instance

lemma confined_chainTerms (h : ∀ e ∈ es, Confined x.ordinal (deriveFrom x e)) (f : Function)
    (args : List Expr) (k : ℕ) : Confined x.ordinal (chainTerms x f args k es) := by
  induction es generalizing k with
  | nil =>
    unfold chainTerms chainTermsWith
    infer_instance
  | cons e es ih =>
    have := h e (by simp)
    have := ih (fun e' he' => h e' (by simp [he'])) (k + 1)
    unfold chainTerms chainTermsWith
    infer_instance

lemma confined_chainDerivatives (h : ∀ e ∈ es, Confined x.ordinal (deriveFrom x e))
    (before : List Expr) : Confined x.ordinal (chainDerivatives x before es) := by
  induction es generalizing before with
  | nil =>
    unfold chainDerivatives chainDerivativesWith
    infer_instance
  | cons e es ih =>
    have := h e (by simp)
    have := ih (fun e' he' => h e' (by simp [he'])) (e :: before)
    unfold chainDerivatives chainDerivativesWith
    infer_instance

end Derive

/-- Derivation by a variable reads and writes the derivatives by this variable only. -/
instance confined_deriveFrom (x e : Expr) : Confined x.ordinal (deriveFrom x e) := by
  induction h : sizeOf e using Nat.strongRecOn generalizing e with
  | _ n ih =>
    subst h
    have hchild : ∀ c ∈ e.children, Confined x.ordinal (deriveFrom x c) := fun c hc =>
      ih _ (sizeOf_lt_of_mem_children hc) c rfl
    obtain ⟨ordinal, domain, kind⟩ := e
    unfold deriveFrom deriveWith
    refine @Memoized.confined_rememberDerivative _ _ _ ?_
    refine @confined_ite _ _ _ _ _ _ inferInstance ?_
    cases kind with
    | tuple items | sum items =>
      have : Confined x.ordinal (deriveAll x items) := confined_deriveAll hchild
      infer_instance
    | apply target argument =>
      have := hchild target (by simp [children, Kind.children, Expr.kind])
      have := hchild argument (by simp [children, Kind.children, Expr.kind])
      dsimp only
      split
      · infer_instance
      · split
        · rename_i items
          have hitems : ∀ c ∈ items, Confined x.ordinal (deriveFrom x c) := by
            intro c hc
            have := List.sizeOf_lt_of_mem hc
            exact ih _ (by simp; omega) c rfl
          have := confined_chainTerms hitems
          infer_instance
        · infer_instance
      all_goals infer_instance
    | chain factors =>
      have : ∀ before, Confined x.ordinal (chainDerivatives x before factors) :=
        confined_chainDerivatives hchild
      infer_instance
    | generator _ _ inner | inverse inner | transpose inner =>
      have := hchild inner (by simp [children, Kind.children, Expr.kind])
      infer_instance
    | indexedSum _ _ _ body =>
      have := hchild body (by simp [children, Kind.children, Expr.kind])
      infer_instance
    | collectionSum _ collection body =>
      have := hchild collection (by simp [children, Kind.children, Expr.kind])
      have := hchild body (by simp [children, Kind.children, Expr.kind])
      infer_instance
    | symbol _ | number _ | object _ _ | field _ | function _ => infer_instance

end Expr

/-! ## Tables that have been used -/

namespace Build

variable {μ : Type} {x : Memoized μ α} {f : α → Memoized μ β} {d : ℕ} {s t : Store} {m m' : μ} {a : α}
  {e : Error}

lemma forgetting_of_ok (h : x d (s, m) = .ok a (t, m')) : forgetting m x d s = .ok a t := by
  unfold forgetting
  rw [Run.bind_apply, withMemo, h]
  rfl

lemma forgetting_of_error (h : x d (s, m) = .error e (t, m')) : forgetting m x d s = .error e t := by
  unfold forgetting
  rw [Run.bind_apply, withMemo, h]
  rfl

/-- The memo of the first step is that of the rest. -/
lemma forgetting_bind_of_ok (h : x d (s, m) = .ok a (t, m')) :
    forgetting m (x >>= f) d s = forgetting m' (f a) d t := by
  unfold forgetting
  rw [Run.bind_apply, Run.bind_apply, withMemo, withMemo, Run.bind_apply_ok h]

lemma forgetting_bind_of_error (h : x d (s, m) = .error e (t, m')) :
    forgetting m (x >>= f) d s = .error e t :=
  forgetting_of_error (by rw [Run.bind_apply, h])

lemma forgetting_map (g : α → β) (x : Memoized μ α) (m : μ) :
    forgetting m (g <$> x) = g <$> forgetting m x := by
  funext d s
  rw [Run.map_eq_bind, Run.map_eq_bind, Run.bind_apply]
  cases h : x d (s, m) with
  | ok a p =>
    rw [forgetting_bind_of_ok h, forgetting_of_ok h]
    rfl
  | error e p => rw [forgetting_bind_of_error h, forgetting_of_error h]

end Build

namespace DerivativeTable

variable {i : ℕ} {T U W : DerivativeTable} {V : Set ℕ}

/-- `U` comes from `T` by derivations by variables with ordinals in `V`, of any expressions, with
success or without.  What happens to the store in between is left open. -/
inductive Used (V : Set ℕ) (T : DerivativeTable) : DerivativeTable → Prop
  | refl : Used V T T
  | call {U : DerivativeTable} (x e : Expr) (d : ℕ) (s : Store) : Used V T U → x.ordinal ∈ V →
    Used V T (finalState (Expr.deriveFrom x e d (s, U))).2

namespace Used

/-- Derivatives by other variables stay as they are. -/
lemma sameBy (h : Used V T U) (hi : i ∉ V) : SameBy i T U := by
  induction h with
  | refl => exact .refl _ _
  | @call U x e d s _ hx ih =>
    have hne : i ≠ x.ordinal := fun heq => hi (heq ▸ hx)
    exact ih.trans (Confined.altered d (s, U) i hne)

end Used

end DerivativeTable

namespace Expr

open DerivativeTable (Used)

variable {x e : Expr} {T U : DerivativeTable}

/-- Tables with the same derivatives by the variable are as good as each other. -/
lemma forgetting_deriveFrom (h : SameBy x.ordinal T U) (e : Expr) :
    Build.forgetting T (deriveFrom x e) = Build.forgetting U (deriveFrom x e) := by
  funext d s
  have halike := Confined.alike (x := deriveFrom x e) d s h
  generalize hT : deriveFrom x e d (s, T) = r, hU : deriveFrom x e d (s, U) = r' at halike
  cases halike with
  | ok a t _ => rw [Build.forgetting_of_ok hT, Build.forgetting_of_ok hU]
  | error err t _ => rw [Build.forgetting_of_error hT, Build.forgetting_of_error hU]

/-- A gradient by variables that the table has no derivatives by. -/
lemma forgetting_gradientFrom (e : Expr) {xs : List Expr} (hxs : (xs.map ordinal).Nodup)
    (h : ∀ x ∈ xs, SameBy x.ordinal T ∅) :
    Build.forgetting T (gradientFrom e xs) = xs.mapM (derive e) := by
  induction xs generalizing T with
  | nil => rfl
  | cons x xs ih =>
    rw [List.map_cons, List.nodup_cons] at hxs
    rw [List.forall_mem_cons] at h
    funext d s
    rw [List.mapM_cons, gradientFrom, derive, checkVariable]
    split
    · show Build.forgetting T (deriveFrom x e >>= fun r => (r :: ·) <$> gradientFrom e xs) d s =
        (Build.forgetting ∅ (deriveFrom x e) >>= fun r => (r :: ·) <$> xs.mapM (derive e)) d s
      rw [← forgetting_deriveFrom h.1, Run.bind_apply]
      cases hr : deriveFrom x e d (s, T) with
      | ok r p =>
        have haltered : Altered x.ordinal T p.2 := Confined.of_ok hr
        -- The rest finds no derivatives by its own variables either.
        have hrest : ∀ y ∈ xs, SameBy y.ordinal p.2 ∅ := fun y hy =>
          (haltered _ fun heq => hxs.1 (heq ▸ List.mem_map_of_mem hy)).symm.trans (h.2 y hy)
        rw [Build.forgetting_bind_of_ok hr, Build.forgetting_of_ok hr, Build.forgetting_map,
          ih hxs.2 hrest]
      | error err p => rw [Build.forgetting_bind_of_error hr, Build.forgetting_of_error hr]
    · rfl

/-- A gradient is made of the single derivatives, found one after the other, and fails like the first
of them that fails. -/
theorem gradient_eq_mapM (e : Expr) {xs : List Expr} (hxs : (xs.map ordinal).Nodup) :
    gradient e xs = xs.mapM (derive e) :=
  forgetting_gradientFrom e hxs fun _ _ => .refl _ _

end Expr

end TermGraph
