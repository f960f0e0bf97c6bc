import TermGraph.Proofs.Memo.Persistence
import TermGraph.Proofs.Store.Growth

/-!
# Computations with a memo and without one

A computation that remembers results comes to what it comes to without remembering them, as long as what
it remembers is right.  That a result is right means that it would be found again, and this depends on when
it is asked for: a computation that makes symbols finds other nodes each time.  So everything here is about
runs that make no symbol and take no identity, which are called quiet.

* `Foretold s o y`: the quiet runs of `y` in `s` and in later stores come to `o`, and make no nodes.
* `Settled s o y`: at enough depth all runs of `y` in `s` and in later stores come to `o`, and make no
  nodes.
* `Mirrors sure T p x y`: from the state `p`, the runs of `x` come to what `y` comes to afterwards.  If
  `sure` is false, it is foretold by every run of `x`; if it is true, it is settled by the quiet runs.  What
  is remembered has to satisfy `T`, and does so afterwards.
* `Foretold.eq_of_settled`: what is foretold and what is settled is the same.

`y` comes as a family, as it may have a bound on its recursion of its own.
-/

namespace TermGraph

open Store (Quiet Still)

variable {σ τ μ ν α β : Type}

/-! ## Outcomes -/

/-- What a run comes to, apart from the state at its end. -/
def outcome : EStateM.Result Error σ α → Except Error α
  | .ok a _ => .ok a
  | .error e _ => .error e

@[simp] lemma outcome_ok (a : α) (s : σ) : outcome (.ok a s : EStateM.Result Error σ α) = .ok a := rfl

@[simp] lemma outcome_error (e : Error) (s : σ) :
    outcome (.error e s : EStateM.Result Error σ α) = .error e := rfl

lemma exists_of_outcome_ok {r : EStateM.Result Error σ α} {a : α} (h : outcome r = .ok a) :
    ∃ s, r = .ok a s := by
  cases r with
  | ok b s =>
    cases h
    exact ⟨s, rfl⟩
  | error e s => cases h

lemma exists_of_outcome_error {r : EStateM.Result Error σ α} {e : Error} (h : outcome r = .error e) :
    ∃ s, r = .error e s := by
  cases r with
  | ok b s => cases h
  | error e' s =>
    cases h
    exact ⟨s, rfl⟩

lemma exists_of_isSome {o : Except Error α} (h : o.toOption.isSome = true) : ∃ a, o = .ok a := by
  cases o with
  | ok a => exact ⟨a, rfl⟩
  | error e => cases h

/-- The run came to its end without exceeding its depth. -/
def Finishes (r : EStateM.Result Error σ α) : Prop :=
  outcome r ≠ .error .depthExceeded

lemma Finishes.of_ok (a : α) (s : σ) : Finishes (.ok a s : EStateM.Result Error σ α) := by
  simp [Finishes]

lemma Finishes.of_isSome {r : EStateM.Result Error σ α} (h : (outcome r).toOption.isSome = true) : Finishes r := by
  intro hr
  rw [hr] at h
  cases h

/-- A run that ends is the same at a greater depth. -/
lemma Finishes.eq_of_le {x : Run σ α} [Persists x x] {d d' : ℕ} {s : σ} (h : Finishes (x d s)) (hle : d ≤ d') :
    x d' s = x d s :=
  Persists.eq_of_le hle fun t ht => h (by rw [ht]; rfl)

/-- The first step of a run that ends does so. -/
lemma Finishes.of_bind {x : Run σ α} {f : α → Run σ β} {d : ℕ} {s : σ} (h : Finishes ((x >>= f) d s)) :
    Finishes (x d s) := by
  intro hx
  obtain ⟨t, hr⟩ := exists_of_outcome_error hx
  exact h (by rw [Run.bind_apply_error hr]; rfl)

/-- A run that made no nodes but composite ones, and took no identity, was quiet. -/
lemma Store.Quiet.of_le {s t : Store} (h : s ≤ t)
    (hnew : ((t.nodes.toList.drop s.nodes.size).all fun e => !e.isSymbol) = true)
    (hidentity : t.nextIdentity = s.nextIdentity) : Quiet s t := by
  refine ⟨fun {i e} he hsymbol => ?_, hidentity⟩
  by_cases hi : i < s.nodes.size
  · have hold : s.nodes[i]? = some s.nodes[i] := by simp [hi]
    rwa [← h.nodes hold, he] at hold
  · have hmem : e ∈ t.nodes.toList.drop s.nodes.size := by
      refine List.mem_of_getElem? (i := i - s.nodes.size) ?_
      rw [List.getElem?_drop, Nat.add_sub_cancel' (not_lt.1 hi), Array.getElem?_toList, he]
    have hnot := List.all_eq_true.1 hnew e hmem
    rw [hsymbol] at hnot
    cases hnot

/-! ## What is foretold and what is settled -/

section Agrees

variable [HoldsStore σ] [HoldsStore τ]

/-- The run `r` from the state `q` comes to `o`, and makes no nodes. -/
def ComesTo (q : τ) (o : Except Error α) (r : EStateM.Result Error τ α) : Prop :=
  outcome r = o ∧ Still (store q) (store (finalState r))

/-- The quiet runs of `y` from `s` on come to `o`, and make no nodes. -/
def Foretold (s : Store) (o : Except Error α) (y : ℕ → Run τ α) : Prop :=
  ∀ (m d : ℕ) (q : τ), s ≤ store q → Finishes (y m d q) →
    Quiet (store q) (store (finalState (y m d q))) → ComesTo q o (y m d q)

/-- At enough depth, the runs of `y` from `s` on come to `o`, and make no nodes. -/
def Settled (s : Store) (o : Except Error α) (y : ℕ → Run τ α) : Prop :=
  ∃ N, ∀ (m d : ℕ) (q : τ), N ≤ m → N ≤ d → s ≤ store q → ComesTo q o (y m d q)

/-- What is known about `y` after a run: for every run what is foretold, for quiet ones what is settled. -/
def Agrees (sure : Bool) (s : Store) (o : Except Error α) (y : ℕ → Run τ α) : Prop :=
  if sure then Settled s o y else Foretold s o y

variable {sure : Bool} {s t : Store} {o o' : Except Error α} {y : ℕ → Run τ α} {g : ℕ → α → Run τ β}
  {e : Error} {a : α}

/-- What is foretold and what is settled is the same. -/
lemma Foretold.eq_of_settled (h : Foretold s o y) (h' : Settled t o' y) (hends : o' ≠ .error .depthExceeded)
    (q : τ) (hs : s ≤ store q) (ht : t ≤ store q) : o = o' := by
  obtain ⟨N, hN⟩ := h'
  obtain ⟨houtcome, hstill⟩ := hN N N q le_rfl le_rfl ht
  rw [← (h N N q hs (by rwa [Finishes, houtcome]) hstill.quiet).1, houtcome]

lemma Agrees.mono (h : Agrees sure s o y) (hst : s ≤ t) : Agrees sure t o y := by
  cases sure with
  | false => exact fun m d q hq => h m d q (hst.trans hq)
  | true =>
    obtain ⟨N, hN⟩ := h
    exact ⟨N, fun m d q hm hd hq => hN m d q hm hd (hst.trans hq)⟩

/-- What holds of a family holds of the family with a level in front. -/
lemma Agrees.succ {z : ℕ → Run τ α} (h : Agrees sure s o y) (hsucc : ∀ m, z (m + 1) = y m)
    (hzero : z 0 = throw .depthExceeded) : Agrees sure s o z := by
  cases sure with
  | false =>
    intro m d q hq hends hquiet
    cases m with
    | zero =>
      rw [hzero] at hends
      exact absurd rfl hends
    | succ m =>
      rw [hsucc] at hends hquiet ⊢
      exact h m d q hq hends hquiet
  | true =>
    obtain ⟨N, hN⟩ := h
    refine ⟨N + 1, fun m d q hm hd hq => ?_⟩
    obtain ⟨m, rfl⟩ : ∃ k, m = k + 1 := ⟨m - 1, by omega⟩
    rw [hsucc]
    exact hN m d q (by omega) (by omega) hq

section Bind

variable [∀ m, Growing (y m)] [∀ m a, Growing (g m a)]

lemma Agrees.bind_error (h : Agrees sure s (.error e) y) :
    Agrees sure s (.error e) fun m => y m >>= g m := by
  have hbind {m d : ℕ} {q : τ} (hy : ComesTo q (.error e) (y m d q)) :
      ComesTo q (.error e) ((y m >>= g m) d q) := by
    obtain ⟨houtcome, hstill⟩ := hy
    obtain ⟨q', hr⟩ := exists_of_outcome_error houtcome
    rw [hr] at hstill
    rw [Run.bind_apply_error hr]
    exact ⟨rfl, hstill⟩
  cases sure with
  | false =>
    intro m d q hq hends hquiet
    exact hbind (h m d q hq hends.of_bind (hquiet.left (Growing.le_final d q) (Growing.le_bind _ _ d q)))
  | true =>
    obtain ⟨N, hN⟩ := h
    exact ⟨N, fun m d q hm hd hq => hbind (hN m d q hm hd hq)⟩

lemma Agrees.bind_ok {o : Except Error β} (h : Agrees sure s (.ok a) y)
    (h' : Agrees sure s o fun m => g m a) : Agrees sure s o fun m => y m >>= g m := by
  cases sure with
  | false =>
    intro m d q hq hends hquiet
    have hfirst := Growing.le_bind (y m) (g m) d q
    obtain ⟨houtcome, hstill⟩ := h m d q hq hends.of_bind (hquiet.left (Growing.le_final d q) hfirst)
    obtain ⟨q', hr⟩ := exists_of_outcome_ok houtcome
    have hle := Growing.le_of_ok hr
    beta_reduce at hends hquiet ⊢
    rw [hr] at hstill hfirst
    rw [Run.bind_apply_ok hr] at hends hquiet hfirst ⊢
    obtain ⟨hrest, hstill'⟩ := h' m d q' (hq.trans hle) hends (hquiet.right hle hfirst)
    exact ⟨hrest, hstill.trans hstill'⟩
  | true =>
    obtain ⟨N, hN⟩ := h
    obtain ⟨N', hN'⟩ := h'
    refine ⟨max N N', fun m d q hm hd hq => ?_⟩
    rw [max_le_iff] at hm hd
    obtain ⟨houtcome, hstill⟩ := hN m d q hm.1 hd.1 hq
    obtain ⟨q', hr⟩ := exists_of_outcome_ok houtcome
    rw [hr] at hstill
    obtain ⟨hrest, hstill'⟩ := hN' m d q' hm.2 hd.2 (hq.trans (Growing.le_of_ok hr))
    beta_reduce
    rw [Run.bind_apply_ok hr]
    exact ⟨hrest, hstill.trans hstill'⟩

end Bind

/-! ## Mirrors -/

/-- From the state `p` on, runs of `x` come to what `y` comes to afterwards, and keep `T` true of the
state. -/
def Mirrors (sure : Bool) (T : σ → Prop) (p : σ) (x : Run σ α) (y : ℕ → Run τ α) : Prop :=
  ∀ d, T p → (sure = true → Quiet (store p) (store (finalState (x d p)))) →
    T (finalState (x d p)) ∧
      (Finishes (x d p) → Agrees sure (store (finalState (x d p))) (outcome (x d p)) y)

variable {T : σ → Prop} {p : σ} {x : Run σ α} {f : α → Run σ β}

namespace Mirrors

/-- What is remembered after a run that succeeded. -/
lemma of_ok {d : ℕ} {q : σ} (h : Mirrors sure T p x y) (hp : T p)
    (hquiet : sure = true → Quiet (store p) (store q)) (hr : x d p = .ok a q) : T q := by
  have hT := (h d hp (by rwa [hr])).1
  rwa [hr] at hT

lemma foretold (h : Mirrors false T p x y) (hp : T p) (d : ℕ) :
    T (finalState (x d p)) ∧
      (Finishes (x d p) → Foretold (store (finalState (x d p))) (outcome (x d p)) y) :=
  h d hp fun hsure => absurd hsure Bool.false_ne_true

lemma settled {d : ℕ} (h : Mirrors true T p x y) (hp : T p)
    (hquiet : Quiet (store p) (store (finalState (x d p)))) (hfinishes : Finishes (x d p)) :
    Settled (store (finalState (x d p))) (outcome (x d p)) y :=
  (h d hp fun _ => hquiet).2 hfinishes

lemma pure (a : α) : Mirrors sure T p (Pure.pure a) (fun _ => (Pure.pure a : Run τ α)) := by
  refine fun d hp _ => ⟨hp, fun _ => ?_⟩
  cases sure with
  | false => exact fun _ _ q _ _ _ => ⟨rfl, .refl _⟩
  | true => exact ⟨0, fun _ _ q _ _ _ => ⟨rfl, .refl _⟩⟩

lemma throw (e : Error) : Mirrors sure T p (MonadExcept.throw e : Run σ α)
    (fun _ => (MonadExcept.throw e : Run τ α)) := by
  refine fun d hp _ => ⟨hp, fun _ => ?_⟩
  cases sure with
  | false => exact fun _ _ q _ _ _ => ⟨rfl, .refl _⟩
  | true => exact ⟨0, fun _ _ q _ _ _ => ⟨rfl, .refl _⟩⟩

lemma ite {c : Prop} [Decidable c] {x' : Run σ α} {y' : ℕ → Run τ α} (h : c → Mirrors sure T p x y)
    (h' : ¬c → Mirrors sure T p x' y') :
    Mirrors sure T p (if c then x else x') fun m => if c then y m else y' m := by
  by_cases hc : c
  · simpa only [if_pos hc] using h hc
  · simpa only [if_neg hc] using h' hc

lemma bind [Growing x] [∀ a, Growing (f a)] [∀ m, Growing (y m)] [∀ m a, Growing (g m a)]
    (hx : Mirrors sure T p x y)
    (hf : ∀ a q d, x d p = .ok a q → Mirrors sure T q (f a) fun m => g m a) :
    Mirrors sure T p (x >>= f) fun m => y m >>= g m := by
  intro d hp hquiet
  have hfirst := Growing.le_bind x f d p
  obtain ⟨hT, hagrees⟩ := hx d hp fun h => (hquiet h).left (Growing.le_final d p) hfirst
  cases hr : x d p with
  | error e q =>
    rw [hr] at hT hagrees
    rw [Run.bind_apply_error hr]
    exact ⟨hT, fun hends => (hagrees fun h => hends (by cases h; rfl)).bind_error⟩
  | ok a q =>
    have hle := Growing.le_of_ok hr
    rw [hr] at hT hagrees hfirst
    rw [Run.bind_apply_ok hr] at hquiet hfirst ⊢
    obtain ⟨hT', hagrees'⟩ := hf a q d hr d hT fun h => (hquiet h).right hle hfirst
    exact ⟨hT', fun hends => ((hagrees (.of_ok a q)).mono hfirst).bind_ok (hagrees' hends)⟩

/-- The rest of a computation need not be seen to be growing by inference. -/
lemma bind_of [Growing x] [∀ m, Growing (y m)] (hx : Mirrors sure T p x y)
    (hf : ∀ a q d, x d p = .ok a q → Mirrors sure T q (f a) fun m => g m a) (hgrowing : ∀ a, Growing (f a))
    (hgrowing' : ∀ m a, Growing (g m a)) : Mirrors sure T p (x >>= f) fun m => y m >>= g m :=
  hx.bind hf

lemma map {g : α → β} [Growing x] [∀ m, Growing (y m)] (hx : Mirrors sure T p x y) :
    Mirrors sure T p (g <$> x) fun m => g <$> y m := by
  simp only [Run.map_eq_bind]
  exact hx.bind fun a q _ _ => .pure (g a)

/-- A list is mirrored if its elements are, from all states with an invariant. -/
lemma mapM {f : α → Run σ β} {g : ℕ → α → Run τ β} [∀ a, Growing (f a)] [∀ m a, Growing (g m a)]
    (I : σ → Prop) (l : List α) (hp : I p)
    (h : ∀ a ∈ l, ∀ q, I q → Mirrors sure T q (f a) (fun m => g m a) ∧
      ∀ b d q', f a d q = .ok b q' → I q') :
    Mirrors sure T p (l.mapM f) fun m => l.mapM (g m) := by
  induction l generalizing p with
  | nil =>
    simp only [List.mapM_nil]
    exact .pure []
  | cons a l ih =>
    simp only [List.mapM_cons]
    obtain ⟨hfirst, hrest⟩ := h a (by simp) p hp
    refine hfirst.bind fun b q d hr => ?_
    exact (ih (hrest b d q hr) fun a' ha' => h a' (by simp [ha'])).bind fun bs _ _ _ => .pure _

/-- A fold is mirrored if its steps are, from all states and values with an invariant. -/
lemma foldlM {f : β → α → Run σ β} {g : ℕ → β → α → Run τ β} [∀ b a, Growing (f b a)]
    [∀ m b a, Growing (g m b a)] (I : β → σ → Prop) (l : List α) {b : β} (hp : I b p)
    (h : ∀ a ∈ l, ∀ b q, I b q → Mirrors sure T q (f b a) (fun m => g m b a) ∧
      ∀ b' d q', f b a d q = .ok b' q' → I b' q') :
    Mirrors sure T p (l.foldlM f b) fun m => l.foldlM (g m) b := by
  induction l generalizing p b with
  | nil =>
    simp only [List.foldlM_nil]
    exact .pure b
  | cons a l ih =>
    simp only [List.foldlM_cons]
    obtain ⟨hfirst, hrest⟩ := h a (by simp) b p hp
    refine hfirst.bind fun b' q d hr => ?_
    exact ih (hrest b' d q hr) fun a' ha' => h a' (by simp [ha'])

end Mirrors

end Agrees

/-! ## Computations without a memo -/

section Build

variable {sure : Bool} {s : Store} {m : μ} {T : Store × μ → Prop}

/-- Nothing is remembered. -/
abbrev Unremembered (_ : Store) : Prop := True

/-- Without a memo, a computation comes to the same again. -/
lemma mirrors_self (x : Build α) [Growing x] [Persists x x] :
    Mirrors sure Unremembered s x fun _ => x := by
  refine fun d _ hquiet => ⟨trivial, fun hends => ?_⟩
  have hrepeats {q : Store} {d' : ℕ} (h : Again q (x d s) (x d' q)) : ComesTo q (outcome (x d s)) (x d' q) := by
    cases hr : x d s with
    | ok a t =>
      rw [hr] at h
      obtain ⟨v, hstill, hr'⟩ := h.exists_of_ok
      rw [hr']
      exact ⟨rfl, hstill⟩
    | error e t =>
      rw [hr] at h
      obtain ⟨v, hstill, hr'⟩ := h.exists_of_error
      rw [hr']
      exact ⟨rfl, hstill⟩
  cases sure with
  | false =>
    intro _ d' q hq hends' hquiet'
    have hmax := hends.eq_of_le (le_max_left d d')
    have hmax' := hends'.eq_of_le (le_max_right d d')
    beta_reduce at hquiet' ⊢
    refine hrepeats ?_
    rw [← hmax, ← hmax']
    rw [← hmax] at hq
    rw [← hmax'] at hquiet'
    exact Growing.again (x := x) _ s hq (.inr hquiet')
  | true =>
    refine ⟨d, fun _ d' q _ hd hq => hrepeats ?_⟩
    have hle := hends.eq_of_le hd
    have hquiet' := hquiet rfl
    rw [← hle] at hq hquiet' ⊢
    exact Growing.again (x := x) d' s hq (.inl hquiet')

/-- `T` does not mind a greater store. -/
def Lasting (T : Store × μ → Prop) : Prop :=
  ∀ {s t : Store} {m : μ}, s ≤ t → T (s, m) → T (t, m)

lemma outcome_lift (x : Build α) (d : ℕ) (p : Store × μ) :
    outcome ((liftM x : Memoized μ α) d p) = outcome (x d p.1) ∧
      store (finalState ((liftM x : Memoized μ α) d p)) = finalState (x d p.1) := by
  obtain ⟨s, m⟩ := p
  show outcome (Memoized.lift x d (s, m)) = _ ∧ store (finalState (Memoized.lift x d (s, m))) = _
  rw [lift_apply]
  cases x d s <;> exact ⟨rfl, rfl⟩

/-- A computation without a memo beside one. -/
lemma Mirrors.lift {x : Build α} [Growing x] {y : ℕ → Build α} (hT : Lasting T)
    (hx : Mirrors sure Unremembered s x y) :
    Mirrors sure T (s, m) (liftM x) fun k => (liftM (y k) : Memoized ν α) := by
  have hagrees {t : Store} {o : Except Error α} (h : Agrees sure t o y) :
      Agrees sure t o fun k => (liftM (y k) : Memoized ν α) := by
    cases sure with
    | false =>
      intro k d q hq hends hquiet
      rw [Finishes, (outcome_lift (y k) d q).1] at hends
      rw [(outcome_lift (y k) d q).2] at hquiet
      rw [ComesTo, (outcome_lift (y k) d q).1, (outcome_lift (y k) d q).2]
      exact h k d q.1 hq hends hquiet
    | true =>
      obtain ⟨N, hN⟩ := h
      refine ⟨N, fun k d q hk hd hq => ?_⟩
      rw [ComesTo, (outcome_lift (y k) d q).1, (outcome_lift (y k) d q).2]
      exact hN k d q.1 hk hd hq
  intro d hp hquiet
  have hfinal : finalState ((liftM x : Memoized μ α) d (s, m)) = (finalState (x d s), m) :=
    finalState_lift x d s m
  obtain ⟨-, hx⟩ := hx d trivial (by simpa only [hfinal, store_pair, store_self] using hquiet)
  rw [Finishes, (outcome_lift x d (s, m)).1, hfinal]
  exact ⟨hT (Growing.le_final (x := x) d s) hp, fun hends => hagrees (hx hends)⟩

lemma outcome_forgetting (m : μ) (x : Memoized μ α) (d : ℕ) (s : Store) :
    outcome (Build.forgetting m x d s) = outcome (x d (s, m)) ∧
      finalState (Build.forgetting m x d s) = (finalState (x d (s, m))).1 := by
  rw [Build.forgetting, Run.bind_apply, Build.withMemo]
  cases x d (s, m) <;> exact ⟨rfl, rfl⟩

/-- A computation with a memo of its own. -/
lemma Mirrors.forgetting {x : Memoized μ α} {y : ℕ → Memoized ν α} {n : ν} (hT : T (s, m))
    (hx : Mirrors sure T (s, m) x y) :
    Mirrors sure Unremembered s (Build.forgetting m x) fun k => Build.forgetting n (y k) := by
  have hagrees {t : Store} {o : Except Error α} (h : Agrees sure t o y) :
      Agrees sure t o fun k => Build.forgetting n (y k) := by
    cases sure with
    | false =>
      intro k d q hq hends hquiet
      rw [Finishes, (outcome_forgetting n (y k) d q).1] at hends
      rw [(outcome_forgetting n (y k) d q).2] at hquiet
      rw [ComesTo, (outcome_forgetting n (y k) d q).1, (outcome_forgetting n (y k) d q).2]
      exact h k d (q, n) hq hends hquiet
    | true =>
      obtain ⟨N, hN⟩ := h
      refine ⟨N, fun k d q hk hd hq => ?_⟩
      rw [ComesTo, (outcome_forgetting n (y k) d q).1, (outcome_forgetting n (y k) d q).2]
      exact hN k d (q, n) hk hd hq
  intro d _ hquiet
  rw [(outcome_forgetting m x d s).2] at hquiet
  obtain ⟨-, hx⟩ := hx d hT hquiet
  rw [Finishes, (outcome_forgetting m x d s).1, (outcome_forgetting m x d s).2]
  exact ⟨trivial, fun hends => hagrees (hx hends)⟩

end Build

end TermGraph
