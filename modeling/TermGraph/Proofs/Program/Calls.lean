import TermGraph.Proofs.Program.Registers

/-!
# Calls of compiled functions

A batch that compiles gives one function for each job, and a call of the function does what plain
evaluation of the job does: both fail, or both give the same value, outputs and arrays.

Two things keep this from being true of every job.  A symbol that is bound again in its own scope
may be read from a local of the outer scope, so the results of a job must bind no symbol again.
And functions with a body give the same values again only if they are `Repeatable`.

* `CompiledFunction.Agrees`: calls of a function agree with plain evaluation of a job.
* `Queue.agrees_compileAll`: the functions of a batch agree with its jobs.
-/

namespace TermGraph

variable {F : Function → Prop} {d : ℕ} {s : Store}

/-! ## The same results -/

lemma Value.Alike.trans_symm {u v w : Value} (hu : u.Alike F w) (hv : v.Alike F w) : u.Alike F v :=
  ⟨hu.erase.trans hv.erase.symm, hu.within⟩

lemma forall₂_trans_symm {α β : Type} {R : α → β → Prop} {Q : α → α → Prop}
    (h : ∀ a b c, R a c → R b c → Q a b) {l l' : List α} {m : List β} (hl : List.Forall₂ R l m)
    (hl' : List.Forall₂ R l' m) : List.Forall₂ Q l l' := by
  induction hl generalizing l' with
  | nil =>
    cases hl'
    exact .nil
  | cons ha _ ih =>
    cases hl' with
    | cons hb hrest => exact .cons (h _ _ _ ha hb) (ih hrest)

lemma Evaluation.Alike.trans_symm {r r' o : Evaluation} (h : r.Alike F o) (h' : r'.Alike F o) :
    r.Alike F r' := by
  have hvalues {l l' m : List Value} (hl : List.Forall₂ (Value.Alike F) l m)
      (hl' : List.Forall₂ (Value.Alike F) l' m) : List.Forall₂ (Value.Alike F) l l' :=
    forall₂_trans_symm (fun _ _ _ hv hw => hv.trans_symm hw) hl hl'
  refine ⟨h.value.trans_symm h'.value, hvalues h.outputs h'.outputs, ?_⟩
  exact forall₂_trans_symm (R := List.Forall₂ (Value.Alike F))
    (fun _ _ _ hl hl' => hvalues hl hl') h.arrays h'.arrays

/-- Two computations that answer the same partial value do the same. -/
lemma Answers.similar {α β : Type} {R : α → β → Prop} {Q : α → α → Prop} {x y : Build α}
    {o : Option β} (hx : Answers d s x o R) (hy : Answers d s y o R)
    (h : ∀ a b c, R a c → R b c → Q a b) {u : Store} (hle : s ≤ u) (hu : u.WellFormed) :
    Similar Q (x d u) (y d u) := by
  have hx' := hx u hle hu
  have hy' := hy u hle hu
  cases o with
  | none =>
    cases hrun : x d u with
    | ok a v => rw [hrun] at hx'; exact hx'.elim
    | error e v =>
      cases hrun' : y d u with
      | ok b w => rw [hrun'] at hy'; exact hy'.elim
      | error e' w => trivial
  | some c =>
    cases hrun : x d u with
    | error e v => rw [hrun] at hx'; exact hx'.elim
    | ok a v =>
      cases hrun' : y d u with
      | error e' w => rw [hrun'] at hy'; exact hy'.elim
      | ok b w =>
        rw [hrun] at hx'
        rw [hrun'] at hy'
        exact h a b c hx'.2 hy'.2

/-! ## Toolchains -/

namespace Toolchain

/-- The programs of a unit are those of its functions in order. -/
lemma forall₂_buildAll {fs : List SourceFunction} {ps : List Program} (h : buildAll fs = .ok ps) :
    List.Forall₂ (fun f p => f.compile = .ok p) fs ps := by
  induction fs generalizing ps with
  | nil =>
    cases h
    exact .nil
  | cons f fs ih =>
    rw [buildAll] at h
    split at h
    · rename_i p ps' hp hps
      cases h
      exact .cons hp (ih hps)
    all_goals cases h

lemma compile_eq_compileBundled {t : Toolchain} (ht : t.fault = none) (u : SourceUnit) :
    t.compile u = t.compileBundled u := by
  rw [compile, ht]

/-- A unit that compiles gives the linked programs of its functions. -/
lemma forall₂_compile {t : Toolchain} (ht : t.fault = none) {u : SourceUnit}
    {functions : List CompiledFunction} (h : t.compile u = .ok functions) :
    List.Forall₂ (fun f c => ∃ p, f.compile = .ok p ∧ c = t.link u f p) u.functions functions := by
  rw [compile_eq_compileBundled ht, compileBundled] at h
  split at h
  · rename_i programs hbuilt
    obtain rfl := Except.ok.inj h
    have hall := forall₂_buildAll hbuilt
    clear h hbuilt
    generalize u.functions = fs at hall ⊢
    induction hall with
    | nil => exact .nil
    | cons hp _ ih => exact .cons ⟨_, hp, rfl⟩ ih
  · cases h

end Toolchain

/-! ## Calls -/

/-- A call with arguments that pass the check runs the program. -/
lemma CompiledFunction.call_eq {f : CompiledFunction} {args : List Value}
    (hlength : args.length = f.params.length) (htypes : checkTypes 0 f.params args = .ok ()) :
    f.call args = f.program.run f.evaluator f.data args := by
  unfold call
  rw [if_neg (by simpa using hlength), htypes]
  rfl

/-- Calls of a function with arguments that fit its parameters do what plain evaluation of the job
does, in every store after `s`: both fail, or both give the same results up to the identities of
matrices. -/
structure CompiledFunction.Agrees (F : Function → Prop) (d : ℕ) (s : Store) (f : CompiledFunction)
    (job : Job) : Prop where
  /-- The parameters are those of the job. -/
  params : f.params = job.parameters
  /-- Calls do what plain evaluation does. -/
  call : ∀ args, args.length = f.params.length → checkTypes 0 f.params args = .ok () →
    (∀ v ∈ args, v.Within F) → ∀ u, s ≤ u → u.WellFormed →
      Similar (Evaluation.Alike F) (f.call args d u) (job.evaluate (.concrete f.evaluator) args d u)

namespace Job

variable {t : Toolchain} {job : Job} {u : SourceUnit} {f : SourceFunction} {p : Program}

/-- The linked program of a function that realizes a job agrees with the job. -/
lemma Realizes.agrees (hF : Arithmetic.Faithful t.toEvaluator d s F) (hjob : job.Lowerable s F)
    (hu : ∀ v ∈ u.data, v.Within F) (h : Realizes (.observed t.toEvaluator d s) u.data job f)
    (hp : f.compile = .ok p) : (t.link u f p).Agrees F d s job := by
  refine ⟨h.params, fun args hlength htypes hargs v hle hv => ?_⟩
  have hparams : (t.link u f p).params = f.params := rfl
  rw [hparams] at hlength htypes
  have hjobArgs : args.length = job.params.length := by
    rw [hlength, h.params, parameters, List.length_map]
  have hrun := SourceFunction.answers_run hF h.closed hp hlength hargs hu
  rw [h.value args hjobArgs] at hrun
  rw [CompiledFunction.call_eq (f := t.link u f p) hlength htypes]
  exact hrun.similar (answers_evaluate hF hjob.functions hargs)
    (fun _ _ _ => Evaluation.Alike.trans_symm) hle hv

end Job

/-- The functions that come with the slots of their jobs, through what lies in between. -/
lemma forall₂_zip_slots {σ τ : Type} {R : Job → σ → Prop} {L : σ → τ → Prop}
    {jobs : List (ℕ × Job)} {fs : List σ} {cs : List τ}
    (hjobs : List.Forall₂ R (jobs.map Prod.snd) fs) (hfs : List.Forall₂ L fs cs) :
    List.Forall₂ (fun job c => c.1 = job.1 ∧ ∃ f, R job.2 f ∧ L f c.2) jobs
      ((jobs.map Prod.fst).zip cs) := by
  induction jobs generalizing fs cs with
  | nil =>
    cases hjobs
    cases hfs
    exact .nil
  | cons job jobs ih =>
    cases hjobs with
    | cons hjob hrest =>
      cases hfs with
      | cons hf hfs => exact .cons ⟨rfl, _, hjob, hf⟩ (ih hrest hfs)

/-- **Calls agree with plain evaluation.**  If a batch of jobs compiles whose results bind no symbol
again in its own scope, then each job gets a function with the parameters of the job, and calling
it with arguments that fit does what plain evaluation of the job does. -/
theorem Queue.agrees_compileAll {q : Queue} {t : Toolchain} (ht : t.fault = none)
    (hs : s.WellFormed) (hF : Arithmetic.Faithful t.toEvaluator d s F)
    (hjobs : ∀ job ∈ q.jobs, job.2.Lowerable s F) {functions : List (ℕ × CompiledFunction)}
    (hq : (q.compileAll t).1 = .ok functions) :
    List.Forall₂ (fun job f => f.1 = job.1 ∧ f.2.Agrees F d s job.2) q.drain.1 functions := by
  have hdrained : ∀ job ∈ q.drain.1.map Prod.snd, job.Lowerable s F := by
    intro job hjob
    obtain ⟨entry, hentry, rfl⟩ := List.mem_map.1 hjob
    exact hjobs entry ((Sorting.sort_perm _ _).subset hentry)
  obtain ⟨hrealizes, hdata⟩ := Job.realizes_unit (.observed t.toEvaluator d s) hs hdrained
  have houtcome : (t.compile q.unit).map (fun fs => (q.drain.1.map Prod.fst).zip fs) =
      .ok functions := hq
  cases hcompiled : t.compile q.unit with
  | error e =>
    rw [hcompiled] at houtcome
    cases houtcome
  | ok fs =>
    rw [hcompiled] at houtcome
    obtain rfl : (q.drain.1.map Prod.fst).zip fs = functions := Except.ok.inj houtcome
    have hlinked := Toolchain.forall₂_compile ht hcompiled
    have hzipped := forall₂_zip_slots hrealizes hlinked
    have hall : ∀ job ∈ q.drain.1, job.2.Lowerable s F := fun job hjob =>
      hdrained job.2 (List.mem_map_of_mem hjob)
    refine List.Forall₂.imp (fun job c h => ?_) ((List.forall₂_and_left _ _).2 ⟨hall, hzipped⟩)
    obtain ⟨hjob, hslot, f, hrealized, p, hp, hc⟩ := h
    refine ⟨hslot, ?_⟩
    rw [hc]
    exact hrealized.agrees hF hjob hdata hp

/-- The sum of `x * k` for `k` from one to `n`, returned and put out: the function binds it to a local
and reads that twice, and it agrees with plain evaluation. -/
theorem Queue.agrees_compileAll_sum :
    let x : Expr := .node 50 .reals (.symbol "x")
    let n : Expr := .node 51 .integers (.symbol "n")
    let k : Expr := .node 2 .integers (.symbol "_1")
    let one : Expr := .node 52 .integers (.number (.int 1))
    let b : Expr := .node 53 .reals (.apply x k)
    let e : Expr := .node 54 .reals (.indexedSum k one n b)
    let s₁ := (Store.initial.intern .reals (.symbol "x")).2
    let s₂ := (s₁.intern .integers (.symbol "n")).2
    let s₃ := (s₂.intern .integers (.number (.int 1))).2
    let s₄ := (s₃.intern .reals (.apply x k)).2
    let s := (s₄.intern .reals (.indexedSum k one n b)).2
    let q : Queue := { jobs := [(0, { value := e, params := [x, n], outputs := [e] })], slots := 1 }
    (q.unit.functions.map fun f => (f.locals.map fun l => l.2.text, f.value.text, f.outputs.map Code.text)) =
        [(["sum(v0 in 1..=p1, \x7b apply(p0, v0) \x7d)"], "t0", ["t0"])] ∧
      ∃ functions, (q.compileAll {}).1 = .ok functions ∧
        List.Forall₂ (fun job f => f.1 = job.1 ∧ f.2.Agrees (fun _ => False) 1 s job.2) q.drain.1
          functions := by
  intro x n k one b e s₁ s₂ s₃ s₄ s q
  obtain ⟨hs, -, -, he⟩ := Store.wellFormed_range
  have hF : Arithmetic.Faithful {} 1 s fun _ => False :=
    ⟨fun _ h => h.elim, fun _ h => h.elim⟩
  have hmentions : e.Mentions fun _ => False := by
    have hb : b.Mentions fun _ => False := Expr.mentions_iff.2 ⟨fun _ h => h.elim, by
      simpa [b, Expr.children, Expr.kind, Kind.children] using
        ⟨Expr.mentions_of_isSymbol rfl, Expr.mentions_of_isSymbol rfl⟩⟩
    have hone : one.Mentions fun _ => False :=
      Expr.mentions_iff.2 ⟨fun _ h => h.elim, fun _ h => by cases h⟩
    exact Expr.mentions_iff.2 ⟨fun _ h => h.elim, by
      simpa [e, Expr.children, Expr.kind, Kind.children] using
        ⟨Expr.mentions_of_isSymbol rfl, hone, Expr.mentions_of_isSymbol rfl, hb⟩⟩
  have hjob : Job.Lowerable s (fun _ => False) { value := e, params := [x, n], outputs := [e] } := by
    refine ⟨?_, ?_, ?_⟩ <;> simp only [Job.roots, List.flatten_nil, List.append_nil,
      List.forall_mem_cons, List.not_mem_nil, false_implies, implies_true, and_true, and_self]
    · exact he
    · exact .of_scan (d := 3) (by decide)
    · exact hmentions
  refine ⟨by decide +kernel, ?_⟩
  cases hcompiled : (q.compileAll {}).1 with
  | error _ =>
    have hsome : (q.compileAll {}).1.toOption.isSome = true := by decide +kernel
    rw [hcompiled] at hsome
    cases hsome
  | ok functions =>
    exact ⟨functions, rfl, Queue.agrees_compileAll rfl hs hF (by simpa [q] using hjob) hcompiled⟩

end TermGraph
