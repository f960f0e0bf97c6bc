import TermGraph.Proofs.Program.Assignment
import TermGraph.Proofs.Program.Safety

/-!
# Registers as variables

The machine keeps all registers in one frame: a register that nothing was written to reads as zero, and
what a round of a loop wrote is still there in the next round and after the loop.  No program of a
batch can tell.  The machine here keeps environments in place of frames: a register can be read if it
is an argument, the variable of a loop around, or the result of an instruction before, in the same
block or a block around.  What the body of a loop writes is gone at the end of each round, and a
read of any other register gets stuck.

* `Environment`: the registers that can be read.
* `Instruction.runScoped`, `Program.runScoped`: running instructions in environments.
* `Follows x y R`: a run in environments is never stuck and goes the way of a run over a frame.
* `Program.SingleAssignment.runScoped_eq`: where each register is assigned once, both machines run a
  program in the same way.
* `Job.scoped_unit`: this holds of all programs of a batch.
-/

namespace TermGraph

/-! ## The machine -/

/-- The registers that can be read, with their values. -/
abbrev Environment := ℕ → Option Value

namespace Environment

/-- In the beginning the arguments can be read. -/
def initial (args : List Value) : Environment :=
  fun k => args[k]?

/-- A register is given a value. -/
def bind (env : Environment) (r : ℕ) (v : Value) : Environment :=
  Function.update env r (some v)

/-- The value of a register.  If it cannot be read, the run is stuck. -/
def read (env : Environment) (r : ℕ) : OptionT Build Value :=
  OptionT.mk (pure (env r))

/-- The registers that can be read. -/
def scope (env : Environment) : Set ℕ :=
  {r | env r ≠ none}

end Environment

namespace Instruction

/-- Runs a body for the values of a list and adds up its results.  Nothing else is left of a round. -/
def sumScoped (ev : Evaluator) (round : Value → OptionT Build Value) :
    List Value → Value → OptionT Build Value
  | [], sum => pure sum
  | v :: vs, sum => do
    let w ← round v
    let sum ← ev.add sum w
    sumScoped ev round vs sum

/-- Runs a body for the given rows and columns and gathers its results, the last one first. -/
def gatherScoped (round : Value → Value → OptionT Build Value) :
    List (ℕ × ℕ) → List Float → OptionT Build (List Float)
  | [], entries => pure entries
  | (i, j) :: rest, entries => do
    match ← round (.number (.int (Int64.ofNat i))) (.number (.int (Int64.ofNat j))) with
    | .number n => gatherScoped round rest (n.toFloat :: entries)
    | v => OptionT.lift (throw (.evaluation (.entryNotANumber v)))

mutual

/-- Runs one instruction in an environment. -/
def runScoped (ev : Evaluator) (data : Array Value) (i : Instruction) (env : Environment) :
    OptionT Build Environment :=
  match i with
  | .loadData dst slot =>
    match data[slot]? with
    | some v => pure (env.bind dst v)
    | none => OptionT.lift (throw (.evaluation (.missingConstant slot)))
  | .loadNumber dst n => pure (env.bind dst (.number n))
  | .tuple dst items => do
    let vs ← items.mapM env.read
    pure (env.bind dst (.tuple vs))
  | .apply dst target argument => do
    let t ← env.read target
    let a ← env.read argument
    let v ← ev.apply t a
    pure (env.bind dst v)
  | .add dst left right => do
    let l ← env.read left
    let r ← env.read right
    let v ← ev.add l r
    pure (env.bind dst v)
  | .inverse dst src => do
    let x ← env.read src
    let v ← ev.inverse x
    pure (env.bind dst v)
  | .transpose dst src => do
    let x ← env.read src
    let v ← ev.transpose x
    pure (env.bind dst v)
  | .rangeLoop dst counter lower upper body result => do
    let l ← env.read lower
    let first ← bound l
    let u ← env.read upper
    let last ← bound u
    let round v := do
      let env ← runAllScoped ev data body (env.bind counter v)
      env.read result
    let values := (List.range (last - first + 1).toNat).map fun k : ℕ =>
      Value.number (.int (Int64.ofInt (first + k)))
    let sum ← sumScoped ev round values (.number .zero)
    pure (env.bind dst sum)
  | .eachLoop dst item collection body result => do
    match ← env.read collection with
    | .array _ _ items =>
      let round v := do
        let env ← runAllScoped ev data body (env.bind item v)
        env.read result
      let sum ← sumScoped ev round items (.number .zero)
      pure (env.bind dst sum)
    | v => OptionT.lift (throw (.evaluation (.notIterable v)))
  | .gridLoop dst row col rows cols body result => do
    let round v w := do
      let env ← runAllScoped ev data body ((env.bind row v).bind col w)
      env.read result
    let entries ← gatherScoped round (Expr.positions rows cols) []
    let m ← Value.ofMatrix (.ofColumns rows cols entries.reverse.toArray)
    pure (env.bind dst m)

/-- Runs instructions one after the other, each in the environment that the one before leaves. -/
def runAllScoped (ev : Evaluator) (data : Array Value) :
    List Instruction → Environment → OptionT Build Environment
  | [], env => pure env
  | i :: is, env => do
    let env ← runScoped ev data i env
    runAllScoped ev data is env

end

end Instruction

/-- Runs a program on arguments, in environments.  At the end all results are read. -/
def Program.runScoped (p : Program) (ev : Evaluator) (data : Array Value) (args : List Value) :
    OptionT Build Evaluation := do
  if args.length ≠ p.params then
    OptionT.lift (throw (.argumentCount p.params args.length))
  let env ← Instruction.runAllScoped ev data p.instructions (.initial args)
  let value ← env.read p.value
  let outputs ← p.outputs.mapM env.read
  let arrays ← p.arrays.mapM fun items => items.mapM env.read
  return ⟨value, outputs, arrays⟩

/-! ## Going along -/

section Follows

variable {α β γ δ : Type}

/-- The computation `x` is never stuck, and it goes the way of `y`: both end with related results or with
the same error, and leave the same store. -/
def Follows (x : OptionT Build α) (y : Build β) (R : α → β → Prop) : Prop :=
  ∀ d s, (∃ a b t, x.run d s = .ok (some a) t ∧ y d s = .ok b t ∧ R a b) ∨
    ∃ e t, x.run d s = .error e t ∧ y d s = .error e t

namespace Follows

variable {x : OptionT Build α} {y : Build β} {R : α → β → Prop} {a : α} {b : β}

lemma pure (h : R a b) : Follows (Pure.pure a) (Pure.pure b) R :=
  fun _ t => .inl ⟨a, b, t, rfl, rfl, h⟩

lemma throw (e : Error) : Follows (OptionT.lift (MonadExcept.throw e) : OptionT Build α)
    (MonadExcept.throw e : Build β) R :=
  fun _ t => .inr ⟨e, t, rfl, rfl⟩

lemma bind {f : α → OptionT Build γ} {g : β → Build δ} {Q : γ → δ → Prop} (h : Follows x y R)
    (hfg : ∀ a b, R a b → Follows (f a) (g b) Q) : Follows (x >>= f) (y >>= g) Q := by
  intro d s
  have hrun : (x >>= f).run d s = (x.run >>= fun o => match o with
    | some a => (f a).run
    | none => Pure.pure none : Build (Option γ)) d s := rfl
  rw [hrun, Run.bind_apply, Run.bind_apply]
  rcases h d s with ⟨a, b, t, hx, hy, hab⟩ | ⟨e, t, hx, hy⟩
  · rw [hx, hy]
    exact hfg a b hab d t
  · rw [hx, hy]
    exact .inr ⟨e, t, rfl, rfl⟩

/-- A step that both computations take. -/
lemma step {f : β → OptionT Build γ} {g : β → Build δ} {Q : γ → δ → Prop} (y : Build β)
    (hfg : ∀ b, Follows (f b) (g b) Q) : Follows (liftM y >>= f) (y >>= g) Q := by
  have hlift : Follows (liftM y : OptionT Build β) y Eq := by
    intro d s
    have hrun : (liftM y : OptionT Build β).run d s =
        (y >>= fun b => Pure.pure (some b) : Build (Option β)) d s := rfl
    rw [hrun, Run.bind_apply]
    cases y d s with
    | ok b t => exact .inl ⟨b, b, t, rfl, rfl, rfl⟩
    | error e t => exact .inr ⟨e, t, rfl, rfl⟩
  refine hlift.bind fun a b hab => ?_
  rw [hab]
  exact hfg b

lemma imp {Q : α → β → Prop} (h : Follows x y R) (himp : ∀ a b, R a b → Q a b) : Follows x y Q := by
  intro d s
  rcases h d s with ⟨a, b, t, hx, hy, hab⟩ | herror
  · exact .inl ⟨a, b, t, hx, hy, himp a b hab⟩
  · exact .inr herror

/-- Computations with the same results are the same. -/
lemma run_eq {x : OptionT Build β} (h : Follows x y Eq) : x.run = some <$> y := by
  funext d s
  rw [Run.map_eq_bind, Run.bind_apply]
  rcases h d s with ⟨a, b, t, hx, hy, rfl⟩ | ⟨e, t, hx, hy⟩
  · rw [hx, hy]
    rfl
  · rw [hx, hy]

end Follows

end Follows

lemma mapM_eq_pure {m : Type → Type} [Monad m] [LawfulMonad m] {α β : Type} {l : List α}
    {f : α → m β} {g : α → β} (h : ∀ a ∈ l, f a = pure (g a)) : l.mapM f = pure (l.map g) := by
  induction l with
  | nil => rfl
  | cons a l ih =>
    rw [List.forall_mem_cons] at h
    rw [List.mapM_cons, h.1, pure_bind, ih h.2, pure_bind, List.map_cons]

/-! ## Frames and environments -/

/-- Two frames of one size have the same values in all registers that are not in the list. -/
structure Frame.KeepsBut (l : List ℕ) (f f' : Frame) : Prop where
  /-- The frames have one size. -/
  size : f'.size = f.size
  /-- The values are the same. -/
  read : ∀ r ∉ l, f'.read r = f.read r

namespace Frame.KeepsBut

variable {f f' f'' : Frame} {l l' : List ℕ} {r : ℕ}

lemma refl (l : List ℕ) (f : Frame) : KeepsBut l f f := ⟨rfl, fun _ _ => rfl⟩

lemma trans (h : KeepsBut l f f') (h' : KeepsBut l f' f'') : KeepsBut l f f'' :=
  ⟨h'.size.trans h.size, fun r hr => (h'.read r hr).trans (h.read r hr)⟩

lemma mono (h : KeepsBut l f f') (hsub : l ⊆ l') : KeepsBut l' f f' :=
  ⟨h.size, fun r hr => h.read r fun hmem => hr (hsub hmem)⟩

lemma write (hr : r ∈ l) (v : Value) : KeepsBut l f (f.write r v) :=
  ⟨size_write f r v, fun _ hk => read_write_of_ne (ne_of_mem_of_not_mem hr hk) v⟩

end Frame.KeepsBut

namespace Environment

/-- The frame holds what can be read, and the registers in `l` can be given values: they are different
ones, they are there, and none of them can be read. -/
structure Fits (env : Environment) (f : Frame) (l : List ℕ) : Prop where
  /-- The frame holds what can be read. -/
  held : ∀ r v, env r = some v → f.read r = v
  /-- No register in `l` can be read. -/
  fresh : ∀ r ∈ l, env r = none
  /-- They are different ones. -/
  nodup : l.Nodup
  /-- They are there. -/
  size : ∀ r ∈ l, r < f.size

variable {env : Environment} {f f' : Frame} {l l' rs : List ℕ} {r : ℕ}

lemma scope_bind (env : Environment) (r : ℕ) (v : Value) :
    (env.bind r v).scope = insert r env.scope := by
  ext k
  by_cases hk : k = r <;> simp [scope, bind, Function.update_apply, hk]

namespace Fits

lemma read (h : env.Fits f l) (hr : r ∈ env.scope) : env.read r = pure (f.read r) := by
  obtain ⟨v, hv⟩ := Option.ne_none_iff_exists'.1 hr
  rw [Environment.read, hv, h.held r v hv]
  rfl

lemma mapM_read (h : env.Fits f l) (hrs : ∀ r ∈ rs, r ∈ env.scope) :
    rs.mapM env.read = pure (rs.map f.read) :=
  mapM_eq_pure fun r hr => h.read (hrs r hr)

lemma perm (h : env.Fits f l) (hperm : l.Perm l') : env.Fits f l' where
  held := h.held
  fresh r hr := h.fresh r (hperm.mem_iff.2 hr)
  nodup := hperm.nodup_iff.1 h.nodup
  size r hr := h.size r (hperm.mem_iff.2 hr)

lemma sublist (h : env.Fits f l) (hsub : l'.Sublist l) : env.Fits f l' where
  held := h.held
  fresh r hr := h.fresh r (hsub.subset hr)
  nodup := h.nodup.sublist hsub
  size r hr := h.size r (hsub.subset hr)

/-- Registers that cannot be read are written. -/
lemma keepsBut (h : env.Fits f l) (hkeeps : f.KeepsBut l f') : env.Fits f' l where
  held r v hv := by
    have hr : r ∉ l := fun hmem => by simp [h.fresh r hmem] at hv
    exact (hkeeps.read r hr).trans (h.held r v hv)
  fresh := h.fresh
  nodup := h.nodup
  size r hr := hkeeps.size ▸ h.size r hr

/-- One of the registers that were written can be read from now on. -/
lemma bind (h : env.Fits f (l ++ l')) (hkeeps : f.KeepsBut l f') (hr : r ∈ l) :
    (env.bind r (f'.read r)).Fits f' l' := by
  have hkept := h.keepsBut (hkeeps.mono (List.subset_append_left l l'))
  refine ⟨fun k v hv => ?_, fun k hk => ?_, (List.nodup_append'.1 h.nodup).2.1,
    fun k hk => hkept.size k (List.mem_append_right l hk)⟩
  · by_cases hkr : k = r
    · subst hkr
      simpa [Environment.bind] using hv
    · exact hkept.held k v (by simpa [Environment.bind, hkr] using hv)
  · -- The registers in `l'` are other ones, so they still cannot be read.
    have hkr : k ≠ r := fun heq => (List.nodup_append'.1 h.nodup).2.2 hr (heq ▸ hk)
    simpa [Environment.bind, hkr] using hkept.fresh k (List.mem_append_right l hk)

/-- A register is written and can be read from now on. -/
lemma write (h : env.Fits f (r :: l)) (v : Value) : (env.bind r v).Fits (f.write r v) l := by
  have hread : (f.write r v).read r = v := Frame.read_write_self (h.size r (by simp)) v
  have hbind := Fits.bind (l := [r]) h (.write (List.mem_singleton_self r) v)
    (List.mem_singleton_self r)
  rwa [hread] at hbind

end Fits

end Environment

/-! ## Both machines agree -/

namespace Instruction

variable {ev : Evaluator} {data : Array Value} {env : Environment} {f f₀ : Frame}
  {l rs : List ℕ} {dst item row col result : ℕ} {body : List Instruction}

/-- One instruction gives register `dst` a value, and it writes registers in `l` only. -/
def Gives (env : Environment) (f : Frame) (dst : ℕ) (l : List ℕ) (env' : Environment) (f' : Frame) :
    Prop :=
  env' = env.bind dst (f'.read dst) ∧ f.KeepsBut l f'

/-- Several instructions leave the registers `rs` to be read, and they write registers in `l` only. -/
def Leaves (f : Frame) (rs l : List ℕ) (env' : Environment) (f' : Frame) : Prop :=
  env'.Fits f' [] ∧ (∀ r ∈ rs, r ∈ env'.scope) ∧ f.KeepsBut l f'

/-- The value that an instruction computes goes to its register. -/
lemma follows_write (h : env.Fits f l) (hdst : dst ∈ l) (x : Build Value) :
    Follows (liftM x >>= fun v => pure (env.bind dst v)) (x >>= fun v => pure (f.write dst v))
      (Gives env f dst l) := by
  refine .step x fun v => .pure ⟨?_, .write hdst v⟩
  rw [Frame.read_write_self (h.size dst hdst)]

/-- The result of a loop goes to its register, whatever its rounds wrote. -/
lemma gives_write {f' : Frame} (h : env.Fits f l) (hdst : dst ∈ l) (hkeeps : f.KeepsBut l f')
    (v : Value) : Gives env f dst l (env.bind dst v) (f'.write dst v) := by
  refine ⟨?_, hkeeps.trans (.write hdst v)⟩
  rw [Frame.read_write_self (hkeeps.size ▸ h.size dst hdst)]

/-- The rounds of a sum go along, if each round does. -/
lemma follows_sumScoped {round : Value → OptionT Build Value} {body : Frame → Build Frame}
    (hround : ∀ f v, f₀.KeepsBut l f → Follows (round v) (body (f.write item v))
      fun w f' => w = f'.read result ∧ f₀.KeepsBut l f') (vs : List Value) (sum : Value)
    (hf : f₀.KeepsBut l f) :
    Follows (sumScoped ev round vs sum) (sumItems ev body item result vs sum f)
      fun w p => w = p.1 ∧ f₀.KeepsBut l p.2 := by
  induction vs generalizing sum f with
  | nil => exact .pure ⟨rfl, hf⟩
  | cons v vs ih =>
    rw [sumScoped, sumItems]
    refine (hround f v hf).bind fun w f' hw => ?_
    obtain ⟨rfl, hf'⟩ := hw
    exact .step _ fun sum => ih sum hf'

/-- The rounds of a matrix go along, if each round does. -/
lemma follows_gatherScoped {round : Value → Value → OptionT Build Value}
    {body : Frame → Build Frame}
    (hround : ∀ f v w, f₀.KeepsBut l f → Follows (round v w) (body ((f.write row v).write col w))
      fun w f' => w = f'.read result ∧ f₀.KeepsBut l f') (positions : List (ℕ × ℕ))
    (entries : List Float) (hf : f₀.KeepsBut l f) :
    Follows (gatherScoped round positions entries)
      (gatherEntries body row col result positions entries f)
      fun es p => es = p.1 ∧ f₀.KeepsBut l p.2 := by
  induction positions generalizing entries f with
  | nil => exact .pure ⟨rfl, hf⟩
  | cons p positions ih =>
    obtain ⟨i, j⟩ := p
    rw [gatherScoped, gatherEntries]
    refine (hround f _ _ hf).bind fun w f' hw => ?_
    obtain ⟨rfl, hf'⟩ := hw
    cases f'.read result with
    | number n => exact ih (n.toFloat :: entries) hf'
    | _ => exact .throw _

/-- One round: the body runs and its result is read. -/
lemma follows_round {l' : List ℕ} (hbody : Follows (runAllScoped ev data body env)
      (runAll ev data body f) (Leaves f [result] l')) (hf : f₀.KeepsBut l f) (hsub : l' ⊆ l) :
    Follows (do
        let env ← runAllScoped ev data body env
        env.read result) (runAll ev data body f)
      fun w f' => w = f'.read result ∧ f₀.KeepsBut l f' := by
  rw [← bind_pure (runAll ev data body f)]
  refine hbody.bind fun env' f' h => ?_
  obtain ⟨hfits, hresult, hkeeps⟩ := h
  rw [hfits.read (hresult result (by simp))]
  exact .pure ⟨rfl, hf.trans (hkeeps.mono hsub)⟩

mutual

/-- An instruction that reads what is in scope and gives values to new registers runs in an environment
as it does over a frame. -/
theorem follows_run (ev : Evaluator) (data : Array Value) :
    ∀ (i : Instruction) (env : Environment) (f : Frame), env.Fits f i.definitions →
      i.Assigned env.scope → Follows (i.runScoped ev data env) (i.run ev data f)
        (Gives env f i.target i.definitions)
  | .loadData dst slot, env, f, h, _ => by
    rw [runScoped, run]
    cases data[slot]? with
    | some v => exact .pure (gives_write h (target_mem_definitions _) (.refl _ f) v)
    | none => exact .throw _
  | .loadNumber dst n, env, f, h, _ => by
    rw [runScoped, run]
    exact .pure (gives_write h (target_mem_definitions _) (.refl _ f) _)
  | .tuple dst items, env, f, h, hreads => by
    rw [Assigned] at hreads
    rw [runScoped, run, h.mapM_read hreads, pure_bind]
    exact .pure (gives_write h (target_mem_definitions _) (.refl _ f) _)
  | .apply dst t a, env, f, h, hreads => by
    rw [Assigned] at hreads
    rw [runScoped, run, h.read hreads.1, h.read hreads.2, pure_bind, pure_bind]
    exact follows_write h (target_mem_definitions _) _
  | .add dst a b, env, f, h, hreads => by
    rw [Assigned] at hreads
    rw [runScoped, run, h.read hreads.1, h.read hreads.2, pure_bind, pure_bind]
    exact follows_write h (target_mem_definitions _) _
  | .inverse dst src, env, f, h, hreads => by
    rw [Assigned] at hreads
    rw [runScoped, run, h.read hreads, pure_bind]
    exact follows_write h (target_mem_definitions _) _
  | .transpose dst src, env, f, h, hreads => by
    rw [Assigned] at hreads
    rw [runScoped, run, h.read hreads, pure_bind]
    exact follows_write h (target_mem_definitions _) _
  | .rangeLoop dst counter lower upper body result, env, f, h, hreads => by
    rw [Assigned] at hreads
    obtain ⟨hlower, hupper, hbody⟩ := hreads
    have hperm := definitions_rangeLoop_perm dst counter lower upper result body
    -- Every round starts in `env`, over whatever the rounds before left in the frame.
    have hround (f' : Frame) (v : Value) (hf' : f.KeepsBut _ f') :=
      have hfits := ((h.keepsBut hf').perm hperm).sublist (List.sublist_cons_self ..)
      follows_round (follows_runAll ev data body _ _ [result] (hfits.write v)
          (by rwa [Environment.scope_bind]))
        (hf'.trans (.write (hperm.mem_iff.2 (by simp)) v))
        fun r hr => hperm.mem_iff.2 (.tail _ (.tail _ hr))
    rw [runScoped, run, h.read hlower, h.read hupper, pure_bind]
    refine .step _ fun first => ?_
    rw [pure_bind]
    refine .step _ fun last => ?_
    dsimp only
    rw [sumRange_eq_sumItems]
    refine (follows_sumScoped hround _ _ (.refl _ f)).bind fun sum p hp => ?_
    obtain ⟨rfl, hkeeps⟩ := hp
    exact .pure (gives_write h (target_mem_definitions _) hkeeps _)
  | .eachLoop dst item collection body result, env, f, h, hreads => by
    rw [Assigned] at hreads
    obtain ⟨hcollection, hbody⟩ := hreads
    have hperm := definitions_eachLoop_perm dst item collection result body
    have hround (f' : Frame) (v : Value) (hf' : f.KeepsBut _ f') :=
      have hfits := ((h.keepsBut hf').perm hperm).sublist (List.sublist_cons_self ..)
      follows_round (follows_runAll ev data body _ _ [result] (hfits.write v)
          (by rwa [Environment.scope_bind]))
        (hf'.trans (.write (hperm.mem_iff.2 (by simp)) v))
        fun r hr => hperm.mem_iff.2 (.tail _ (.tail _ hr))
    rw [runScoped, run, h.read hcollection, pure_bind]
    cases f.read collection with
    | array _ _ items =>
      refine (follows_sumScoped hround items _ (.refl _ f)).bind fun sum p hp => ?_
      obtain ⟨rfl, hkeeps⟩ := hp
      exact .pure (gives_write h (target_mem_definitions _) hkeeps _)
    | _ => exact .throw _
  | .gridLoop dst row col rows cols body result, env, f, h, hreads => by
    rw [Assigned] at hreads
    have hperm := definitions_gridLoop_perm dst row col rows cols result body
    have hround (f' : Frame) (v w : Value) (hf' : f.KeepsBut _ f') :=
      have hfits := ((h.keepsBut hf').perm hperm).sublist (List.sublist_cons_self ..)
      follows_round (follows_runAll ev data body _ _ [result] ((hfits.write v).write w)
          (by rwa [Environment.scope_bind, Environment.scope_bind]))
        ((hf'.trans (.write (hperm.mem_iff.2 (by simp)) v)).trans
          (.write (hperm.mem_iff.2 (by simp)) w))
        fun r hr => hperm.mem_iff.2 (.tail _ (.tail _ (.tail _ hr)))
    rw [runScoped, run]
    refine (follows_gatherScoped hround (Expr.positions rows cols) [] (.refl _ f)).bind
      fun entries p hp => ?_
    obtain ⟨rfl, hkeeps⟩ := hp
    exact .step _ fun m => .pure (gives_write h (target_mem_definitions _) hkeeps m)

/-- The same holds of instructions one after the other. -/
theorem follows_runAll (ev : Evaluator) (data : Array Value) :
    ∀ (is : List Instruction) (env : Environment) (f : Frame) (rs : List ℕ),
      env.Fits f (definitionsAll is) → AssignedAll env.scope is rs →
      Follows (runAllScoped ev data is env) (runAll ev data is f)
        (Leaves f rs (definitionsAll is))
  | [], env, f, rs, h, hreads => by
    rw [AssignedAll] at hreads
    rw [runAllScoped, runAll]
    exact .pure ⟨h, hreads, .refl _ f⟩
  | i :: is, env, f, rs, h, hreads => by
    rw [AssignedAll] at hreads
    have hperm := definitionsAll_cons_perm i is
    have hsplit := h.perm hperm
    -- What the rest gives values is new to the first instruction, and stays so.
    rw [runAllScoped, runAll]
    refine (follows_run ev data i env f (hsplit.sublist (List.sublist_append_left ..))
      hreads.1).bind fun env' f' hi => ?_
    obtain ⟨rfl, hkeeps⟩ := hi
    refine (follows_runAll ev data is _ f' rs (hsplit.bind hkeeps (target_mem_definitions i)) ?_).imp
      fun env'' f'' hrest => ⟨hrest.1, hrest.2.1, ?_⟩
    · rw [Environment.scope_bind]
      exact hreads.2
    · refine (hkeeps.mono fun r hr => hperm.mem_iff.2 (List.mem_append_left _ hr)).trans
        (hrest.2.2.mono fun r hr => hperm.mem_iff.2 (List.mem_append_right _ hr))

end

end Instruction

namespace Program

variable {p : Program}

/-- Both machines run a program in the same way if each register is assigned once. -/
theorem SingleAssignment.runScoped_eq (h : p.SingleAssignment) (ev : Evaluator)
    (data : Array Value) (args : List Value) :
    (p.runScoped ev data args).run = some <$> p.run ev data args := by
  refine Follows.run_eq ?_
  unfold runScoped run
  by_cases hlength : args.length = p.params
  · rw [if_neg (not_not.2 hlength), if_neg (not_not.2 hlength)]
    have hle : args.length ≤ p.registers := hlength.trans_le h.once.le
    have hscope : (Environment.initial args).scope = {k | k < p.params} := by
      ext k
      simp [Environment.scope, Environment.initial, ← hlength]
    -- The registers beyond the arguments are new, and they are in the frame.
    have hfits : (Environment.initial args).Fits (.initial args p.registers)
        (Instruction.definitionsAll p.instructions) := by
      refine ⟨fun r v hv => ?_, fun r hr => ?_, h.once.nodup, fun r hr => ?_⟩
      · obtain ⟨hr, rfl⟩ := List.getElem?_eq_some_iff.1 hv
        exact Frame.read_initial hr
      · exact List.getElem?_eq_none (hlength.trans_le (h.once.mem_iff.1 hr).1)
      · rw [Frame.size_initial hle]
        exact (h.once.mem_iff.1 hr).2
    refine (Instruction.follows_runAll ev data p.instructions _ _ p.results hfits
      (hscope ▸ h.assigned)).bind fun env frame hleaves => ?_
    obtain ⟨hheld, hresults, -⟩ := hleaves
    simp only [results, List.forall_mem_cons, List.forall_mem_append, List.forall_mem_flatten] at hresults
    obtain ⟨hvalue, houtputs, harrays⟩ := hresults
    have harrays : (p.arrays.mapM fun items => items.mapM env.read) =
        pure (p.arrays.map fun items => items.map frame.read) :=
      mapM_eq_pure fun items hitems => hheld.mapM_read (harrays items hitems)
    rw [hheld.read hvalue, hheld.mapM_read houtputs, harrays, pure_bind, pure_bind, pure_bind]
    exact .pure rfl
  · rw [if_pos hlength, if_pos hlength]
    exact (Follows.throw (R := fun _ _ => False) _).bind fun _ _ h => h.elim

end Program

/-! ## Functions of a job -/

lemma Loops.ids_cons (i k : ℕ) (loops : Loops) :
    Loops.ids ((i, k) :: loops) = insert k (Loops.ids loops) := by
  ext j
  simp [Loops.ids]

lemma Origins.ids_bind (Γ : Origins) (id : ℕ) (o : Origin) :
    (Γ.bind id o).ids = insert id Γ.ids := by
  ext j
  by_cases hj : j = id
  · subst hj
    simp [Origins.ids, Origins.bind_self]
  · simp [Origins.ids, Origins.bind_of_ne _ _ _ hj, hj]

lemma Fresh.sublist {Γ : Origins} {loops : Loops} {l l' : List Binder} (h : Fresh Γ loops l)
    (hsub : l'.Sublist l) : Fresh Γ loops l' :=
  ⟨h.nodup.sublist hsub, fun id hid => h.locals id (hsub.subset hid),
    fun k hk => h.counters k (hsub.subset hk)⟩

section Resolves

variable {params : List Expr} {data : List Value}

mutual

/-- A computation that resolves is scoped, if what it binds is new. -/
lemma Code.Resolves.scoped : ∀ {c : Code} {Γ : Origins} {loops : Loops} {e : Expr},
    c.Resolves params data Γ loops e → Fresh Γ loops c.binders →
    c.Scoped params.length Γ.ids loops.ids
  | .param k, _, _, _, h, _ => by
    rw [Code.Resolves] at h
    rw [Code.Scoped]
    exact h.1
  | .hoisted id, _, _, _, h, _ => by
    rw [Code.Resolves] at h
    obtain ⟨o, ho, -⟩ := h
    rw [Code.Scoped]
    simp [Origins.ids, ho]
  | .loopVariable k, _, _, _, h, _ => by
    rw [Code.Resolves] at h
    obtain ⟨⟨p, hp, rfl⟩, -⟩ := h
    rw [Code.Scoped]
    exact List.mem_map_of_mem hp
  | .captured _, _, _, _, _, _ => by rw [Code.Scoped]; trivial
  | .number _, _, _, _, _, _ => by rw [Code.Scoped]; trivial
  | .unbound _, _, _, _, _, _ => by rw [Code.Scoped]; trivial
  | .tuple items, _, _, _, h, hfresh => by
    rw [Code.Resolves] at h
    rw [Code.binders] at hfresh
    obtain ⟨es, -, hall⟩ := h
    rw [Code.Scoped]
    exact Code.ResolvesAll.scoped hall hfresh
  | .apply target argument, _, _, _, h, hfresh => by
    rw [Code.Resolves] at h
    rw [Code.binders] at hfresh
    obtain ⟨t, a, -, ht, ha⟩ := h
    rw [Code.Scoped]
    exact ⟨ht.scoped hfresh.left, ha.scoped hfresh.right⟩
  | .sum terms, _, _, _, h, hfresh => by
    rw [Code.Resolves] at h
    rw [Code.binders] at hfresh
    obtain ⟨es, -, hall⟩ := h
    rw [Code.Scoped]
    exact Code.ResolvesAll.scoped hall hfresh
  | .multiply factors, _, _, _, h, hfresh => by
    rw [Code.Resolves] at h
    rw [Code.binders] at hfresh
    obtain ⟨es, -, hall⟩ := h
    rw [Code.Scoped]
    exact Code.ResolvesAll.scoped hall hfresh
  | .inverse inner, _, _, _, h, hfresh => by
    rw [Code.Resolves] at h
    rw [Code.binders] at hfresh
    obtain ⟨i, -, hi⟩ := h
    rw [Code.Scoped]
    exact hi.scoped hfresh
  | .transpose inner, _, _, _, h, hfresh => by
    rw [Code.Resolves] at h
    rw [Code.binders] at hfresh
    obtain ⟨i, -, hi⟩ := h
    rw [Code.Scoped]
    exact hi.scoped hfresh
  | .generate rows cols row col element, _, _, _, h, hfresh => by
    rw [Code.Resolves] at h
    rw [Code.binders] at hfresh
    obtain ⟨b, -, hb⟩ := h
    -- The row index is in scope where the column index is bound, so that the two differ.
    obtain ⟨hrow, hfresh⟩ := hfresh.underLoop Expr.rowIndex.ordinal
    obtain ⟨hcol, hfresh⟩ := hfresh.underLoop Expr.colIndex.ordinal
    rw [Loops.ids_cons] at hcol
    have hbody := Block.Resolves.scoped hb hfresh
    rw [Loops.ids_cons, Loops.ids_cons] at hbody
    rw [Code.Scoped]
    exact ⟨hrow, hcol, hbody⟩
  | .range counter lower upper body, _, _, _, h, hfresh => by
    rw [Code.Resolves] at h
    rw [Code.binders] at hfresh
    obtain ⟨i, l, u, b, -, hl, hu, hb⟩ := h
    obtain ⟨hcounter, hbody⟩ := hfresh.right.underLoop i.ordinal
    have hbody := Block.Resolves.scoped hb hbody
    rw [Loops.ids_cons] at hbody
    rw [Code.Scoped]
    exact ⟨⟨hl.scoped hfresh.left.left, hu.scoped hfresh.left.right⟩, hcounter, hbody⟩
  | .each counter collection body, _, _, _, h, hfresh => by
    rw [Code.Resolves] at h
    rw [Code.binders] at hfresh
    obtain ⟨i, c, b, -, hc, hb⟩ := h
    obtain ⟨hcounter, hbody⟩ := hfresh.right.underLoop i.ordinal
    have hbody := Block.Resolves.scoped hb hbody
    rw [Loops.ids_cons] at hbody
    rw [Code.Scoped]
    exact ⟨hc.scoped hfresh.left, hcounter, hbody⟩

/-- The same holds of the computations of a list. -/
lemma Code.ResolvesAll.scoped : ∀ {cs : List Code} {Γ : Origins} {loops : Loops} {es : List Expr},
    Code.ResolvesAll params data Γ loops cs es → Fresh Γ loops (Code.bindersAll cs) →
    Code.ScopedAll params.length Γ.ids loops.ids cs
  | [], _, _, _, _, _ => by rw [Code.ScopedAll]; trivial
  | c :: cs, _, _, e :: es, h, hfresh => by
    rw [Code.ResolvesAll] at h
    rw [Code.bindersAll] at hfresh
    rw [Code.ScopedAll]
    exact ⟨h.1.scoped hfresh.left, Code.ResolvesAll.scoped h.2 hfresh.right⟩

/-- The same holds of a block. -/
lemma Block.Resolves.scoped : ∀ {block : Block} {Γ : Origins} {loops : Loops} {e : Expr},
    block.Resolves params data Γ loops e → Fresh Γ loops block.binders →
    block.Scoped params.length Γ.ids loops.ids
  | .result value, _, _, _, h, hfresh => by
    rw [Block.Resolves] at h
    rw [Block.binders] at hfresh
    rw [Block.Scoped]
    exact h.scoped hfresh
  | .bind id code rest, _, loops, _, h, hfresh => by
    rw [Block.Resolves] at h
    rw [Block.binders] at hfresh
    obtain ⟨a, -, hcode, hrest⟩ := h
    obtain ⟨hid, hfreshRest⟩ := hfresh.right.underLocal ⟨a, loops⟩
    have hrest := Block.Resolves.scoped hrest hfreshRest
    rw [Origins.ids_bind] at hrest
    rw [Block.Scoped]
    exact ⟨hcode.scoped hfresh.left, hid, hrest⟩

end

/-- The locals of a list are scoped, and what is bound after them is new where they are in scope. -/
lemma ResolvesLocals.scoped {roots : List Expr} {loops : Loops} {Γ Γ' : Origins}
    {locals : List (ℕ × Code)} {l : List Binder}
    (h : ResolvesLocals params data roots loops Γ locals Γ')
    (hfresh : Fresh Γ loops (bindersLocals locals ++ l)) :
    ScopedLocals params.length loops.ids Γ.ids locals Γ'.ids ∧ Fresh Γ' loops l := by
  induction locals generalizing Γ with
  | nil =>
    obtain rfl : Γ = Γ' := h
    exact ⟨rfl, hfresh⟩
  | cons entry locals ih =>
    obtain ⟨id, code⟩ := entry
    obtain ⟨a, -, hcode, hrest⟩ := h
    have hsplit : bindersLocals ((id, code) :: locals) ++ l =
        code.binders ++ .hoisted id :: (bindersLocals locals ++ l) := by
      simp [bindersLocals]
    rw [hsplit] at hfresh
    obtain ⟨hid, hfreshRest⟩ := hfresh.right.underLocal ⟨a, loops⟩
    obtain ⟨hscoped, hl⟩ := ih hrest hfreshRest
    rw [Origins.ids_bind] at hscoped
    exact ⟨⟨hcode.scoped hfresh.left, hid, hscoped⟩, hl⟩

end Resolves

namespace SourceFunction

variable {f : SourceFunction} {data : List Value} {job : Job}

/-- A function that was lowered from a job is scoped. -/
lemma Resolves.scoped (h : f.Resolves data job) : f.Scoped := by
  obtain ⟨hparams, honce, Γ, hlocals, hvalue, houtputs, harrays⟩ := h
  have hlength : f.params.length = job.params.length := by
    rw [hparams, Job.parameters, List.length_map]
  have hfresh : Fresh .empty [] (bindersLocals f.locals ++ (f.value.binders ++
      (Code.bindersAll f.outputs ++ f.arrays.flatMap Code.bindersAll))) :=
    ⟨honce, by simp [Origins.ids, Origins.empty], by simp [Loops.ids]⟩
  obtain ⟨hscoped, hfresh⟩ := hlocals.scoped hfresh
  have hempty : Origins.empty.ids = ∅ := by simp [Origins.ids, Origins.empty]
  have hnone : Loops.ids [] = ∅ := by simp [Loops.ids]
  rw [hempty, hnone] at hscoped
  have hvalue := hvalue.scoped hfresh.left
  have houtputs := Code.scopedAll_iff.1 (houtputs.scoped hfresh.right.left)
  rw [hnone] at hvalue houtputs
  unfold Scoped
  rw [hlength]
  refine ⟨Γ.ids, hscoped, hvalue, houtputs, fun items hitems => ?_⟩
  -- What the items of one array bind is part of what all arrays bind.
  obtain ⟨es, -, hall⟩ := exists_of_mem_forall₂ harrays hitems
  have hsub : (Code.bindersAll items).Sublist (f.arrays.flatMap Code.bindersAll) := by
    rw [List.flatMap_def]
    exact List.sublist_flatten_of_mem (List.mem_map_of_mem hitems)
  have hscopedItems := Code.scopedAll_iff.1 (hall.scoped (hfresh.right.right.sublist hsub))
  rwa [hnone] at hscopedItems

end SourceFunction

/-! ## Batches -/

namespace Job

variable {s : Store}

open Instruction

/-- **Registers are variables.**  In every program of a batch, no register is named that is not there;
each register beyond the arguments is written by one instruction or is the variable of one loop, and
the arguments are never written.  Every run of the program, failing or not, is a run of the same program
in environments: what an instruction reads is an argument, the variable of a loop around, or was
written before by an instruction in the same block or a block around, in the same round. -/
theorem scoped_unit (hs : s.WellFormed) {jobs : List Job}
    (hjobs : ∀ job ∈ jobs, ∀ r ∈ job.roots, s.Knows r) :
    ∀ f ∈ (unit jobs).functions, ∀ p, f.compile = .ok p →
      p.registers ≤ maxRegisters ∧ (∀ r ∈ p.names, r < p.registers) ∧
      (∀ r, p.params ≤ r → r < p.registers →
        (destinationsAll p.instructions).count r + (loopVariablesAll p.instructions).count r = 1) ∧
      (∀ r < p.params, r ∉ destinationsAll p.instructions ∧ r ∉ loopVariablesAll p.instructions) ∧
      ∀ ev data args,
        (p.runScoped ev data args).run = some <$> p.run ev data args := by
  intro f hf p hp
  obtain ⟨job, -, hresolves⟩ := exists_of_mem_forall₂ (resolved_unit hs hjobs).1.flip hf
  have hassignment := hresolves.scoped.singleAssignment hp
  exact ⟨SourceFunction.registers_le_of_compile hp, hassignment.lt_registers,
    fun r => hassignment.count_eq_one, fun r => hassignment.notMem_of_lt, hassignment.runScoped_eq⟩

/-- A matrix of six equal sums, and the sum itself.  Its instructions stand twice in the program, with
other registers: once in the body of the loop over rows and columns, and once after it. -/
theorem scoped_unit_matrix :
    let x : Expr := .node 50 .reals (.symbol "x")
    let n : Expr := .node 51 .integers (.symbol "n")
    let k : Expr := .node 2 .integers (.symbol "_1")
    let one : Expr := .node 52 .integers (.number (.int 1))
    let b : Expr := .node 53 .reals (.apply x k)
    let e : Expr := .node 54 .reals (.indexedSum k one n b)
    let g : Expr := .node 55 .matrices (.generator 2 3 e)
    let s₁ := (Store.initial.intern .reals (.symbol "x")).2
    let s₂ := (s₁.intern .integers (.symbol "n")).2
    let s₃ := (s₂.intern .integers (.number (.int 1))).2
    let s₄ := (s₃.intern .reals (.apply x k)).2
    let s₅ := (s₄.intern .reals (.indexedSum k one n b)).2
    let s := (s₅.intern .matrices (.generator 2 3 e)).2
    let jobs : List Job := [{ value := g, params := [x, n], outputs := [e] }]
    s.WellFormed ∧ (∀ job ∈ jobs, ∀ r ∈ job.roots, s.Knows r) ∧
      ∃ f ∈ (unit jobs).functions, ∃ p, f.compile = .ok p ∧
        (p.params, p.registers) = (2, 13) ∧
        destinationsAll p.instructions = [8, 4, 7, 6, 9, 12, 11] ∧
        loopVariablesAll p.instructions = [2, 3, 5, 10] ∧
        p.registers ≤ maxRegisters ∧ (∀ r ∈ p.names, r < p.registers) ∧
        (∀ r, p.params ≤ r → r < p.registers →
          (destinationsAll p.instructions).count r + (loopVariablesAll p.instructions).count r = 1) ∧
        (∀ r < p.params, r ∉ destinationsAll p.instructions ∧ r ∉ loopVariablesAll p.instructions) ∧
        ∀ ev data args,
          (p.runScoped ev data args).run = some <$> p.run ev data args := by
  intro x n k one b e g s₁ s₂ s₃ s₄ s₅ s jobs
  obtain ⟨hs₅, -, -, he⟩ := Store.wellFormed_range
  have hg : s₅.Admits .matrices (.generator 2 3 e) :=
    ⟨List.forall_mem_singleton.2 he, fun _ h => h.elim, rfl, by simp [Kind.index?]⟩
  obtain ⟨hs, hknown, -⟩ := hs₅.intern hg
  have hroots : ∀ job ∈ jobs, ∀ r ∈ job.roots, s.Knows r := by
    simpa [jobs, Job.roots] using ⟨hknown, he.mono (Store.le_intern _ _ s₅)⟩
  have hcompiled : (unit jobs).functions.map (fun f => f.compile.toOption.map fun p =>
      (p.params, p.registers, destinationsAll p.instructions, loopVariablesAll p.instructions)) =
      [some (2, 13, [8, 4, 7, 6, 9, 12, 11], [2, 3, 5, 10])] := by
    decide +kernel
  obtain ⟨f, hf, hcompiled⟩ := List.map_eq_singleton_iff.1 hcompiled
  have hmem : f ∈ (unit jobs).functions := by simp [hf]
  obtain ⟨p, hp, hvalues⟩ := Option.map_eq_some_iff.1 hcompiled
  have hp : f.compile = .ok p := by
    cases hrun : f.compile with
    | error ds => simp [hrun, Except.toOption] at hp
    | ok q => simpa [hrun, Except.toOption] using hp
  simp only [Prod.mk.injEq] at hvalues
  obtain ⟨hparams, hregisters, hdestinations, hvariables⟩ := hvalues
  exact ⟨hs, hroots, f, hmem, p, hp, by rw [hparams, hregisters], hdestinations, hvariables,
    scoped_unit hs hroots f hmem p hp⟩

end Job

end TermGraph
