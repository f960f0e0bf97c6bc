import TermGraph.Proofs.Program.Calls
import TermGraph.Proofs.Program.Capturing

/-!
# Jobs of a batch do not interfere

What a batch makes of a job is what is made of the job when it is compiled alone.  The functions of
a batch share one pool of constants, so a job meets other slots in it; but the programs load the
same constants from them, and a problem has nothing to do with slots.

* `Queue.enqueue_ok` and `Queue.enqueue_error`: a valid job is queued under the slot that is answered,
  behind all others, and any other job leaves the queue as it is.
* `Queue.Reached`: the queues that adding and compiling jobs leads to.
* `Job.twins_linearizeAll`: the functions of a batch are twins of those of its jobs alone.
* `Toolchain.compile_eq`: a unit compiles if all its functions do, and else has their problems.
* `Queue.Reached.compileAll_enqueueAll`: batches are atomic, and their jobs do not interfere.
-/

namespace TermGraph

variable {s : Store}

/-! ## Queues -/

namespace Job

/-- The parameters are symbols, and no two of them are the same. -/
def HasDistinctSymbols (job : Job) : Prop :=
  (∀ p ∈ job.params, p.isSymbol = true) ∧ (job.params.map Expr.ordinal).Nodup

lemma checkParams_eq_ok {before l : List Expr} (hbefore : (before.map Expr.ordinal).Nodup) :
    checkParams before l = .ok () ↔
      (∀ p ∈ l, p.isSymbol = true) ∧ ((before ++ l).map Expr.ordinal).Nodup := by
  induction l generalizing before with
  | nil => simpa [checkParams] using hbefore
  | cons p l ih =>
    have hmem : before.contains p = true ↔ p.ordinal ∈ before.map Expr.ordinal := by
      rw [List.contains_iff_exists_mem_beq, List.mem_map]
      refine exists_congr fun a => and_congr_right fun _ => ?_
      rw [Expr.beq_iff_ordinal, eq_comm]
    have hsplit : before ++ p :: l = (before ++ [p]) ++ l := by simp
    rw [checkParams, List.forall_mem_cons]
    cases hsymbol : p.isSymbol with
    | false => simp
    | true =>
      cases hcontains : before.contains p with
      | true =>
        -- The parameter stands among those before and once more.
        have hnot : ¬((before ++ p :: l).map Expr.ordinal).Nodup := fun h => by
          rw [List.map_append, List.map_cons, List.nodup_append] at h
          exact h.2.2 _ (hmem.1 hcontains) _ (by simp) rfl
        refine iff_of_false ?_ fun h => hnot h.2
        simp
      | false =>
        have hnew : p.ordinal ∉ before.map Expr.ordinal := fun h => by
          rw [hmem.2 h] at hcontains
          cases hcontains
        have hbefore' : ((before ++ [p]).map Expr.ordinal).Nodup := by
          rw [List.map_append]
          exact (List.perm_append_singleton _ _).nodup_iff.2 (List.nodup_cons.2 ⟨hnew, hbefore⟩)
        rw [hsplit]
        simpa using ih hbefore'

/-- A job passes validation if its parameters are distinct symbols. -/
lemma validate_eq_ok {job : Job} : job.validate = .ok () ↔ job.HasDistinctSymbols := by
  rw [validate, checkParams_eq_ok (by simp), List.nil_append, HasDistinctSymbols]

end Job

namespace Queue

/-- The answer to a request to queue a job, and the queue afterwards. -/
def answer (job : Job) (q : Queue) : Except Error ℕ × Queue :=
  match enqueue job q with
  | .ok slot q => (.ok slot, q)
  | .error e q => (.error e, q)

/-- The answers to a sequence of requests, and the queue afterwards. -/
def answers : List Job → Queue → List (Except Error ℕ) × Queue
  | [], q => ([], q)
  | job :: jobs, q =>
    ((answer job q).1 :: (answers jobs (answer job q).2).1, (answers jobs (answer job q).2).2)

/-- The jobs that were queued, under the slots that were answered. -/
def accepted : List Job → List (Except Error ℕ) → List (ℕ × Job)
  | job :: jobs, .ok slot :: answers => (slot, job) :: accepted jobs answers
  | _ :: jobs, .error _ :: answers => accepted jobs answers
  | _, _ => []

/-- The queues that requests and compilations lead to. -/
inductive Reached : Queue → Prop
  | empty : Reached {}
  | answer {q : Queue} (job : Job) : Reached q → Reached (q.answer job).2
  | compiled {q : Queue} (t : Toolchain) : Reached q → Reached (q.compileAll t).2

/-- The slots of the jobs are different, and the jobs are valid. -/
structure Valid (q : Queue) : Prop where
  /-- No slot is in use or free twice. -/
  nodup : (q.free ++ q.jobs.map Prod.fst).Nodup
  /-- The next new slot is new. -/
  below : ∀ k ∈ q.free ++ q.jobs.map Prod.fst, k < q.slots
  /-- The jobs have passed validation. -/
  jobs : ∀ p ∈ q.jobs, p.2.validate = .ok ()

variable {q : Queue} {job : Job}

/-- A job that is not valid leaves the queue as it is. -/
lemma enqueue_error {e : Error} (h : job.validate = .error e) (q : Queue) :
    enqueue job q = .error e q := by
  rw [enqueue, h]
  rfl

/-- A valid job gets a slot and is the last one of the queue. -/
lemma enqueue_ok (h : job.validate = .ok ()) (q : Queue) : enqueue job q = match q.free with
    | slot :: free => .ok slot { q with jobs := q.jobs ++ [(slot, job)], free := free }
    | [] => .ok q.slots { q with jobs := q.jobs ++ [(q.slots, job)], slots := q.slots + 1 } := by
  obtain ⟨jobs, free, slots⟩ := q
  rw [enqueue, h]
  cases free <;> rfl

/-- Whether a job was queued, and under which slot. -/
lemma answer_cases (job : Job) (q : Queue) :
    (∃ slot, (q.answer job).1 = .ok slot ∧ job.HasDistinctSymbols ∧
      (q.answer job).2.jobs = q.jobs ++ [(slot, job)]) ∨
    ∃ e, (q.answer job).1 = .error e ∧ ¬job.HasDistinctSymbols ∧ (q.answer job).2 = q := by
  rw [← Job.validate_eq_ok]
  cases hv : job.validate with
  | error e =>
    rw [answer, enqueue_error hv]
    exact .inr ⟨e, rfl, by simp, rfl⟩
  | ok u =>
    obtain ⟨jobs, free, slots⟩ := q
    rw [answer, enqueue_ok hv]
    cases free with
    | nil => exact .inl ⟨slots, rfl, rfl, rfl⟩
    | cons slot free => exact .inl ⟨slot, rfl, rfl, rfl⟩

/-- Requests are answered with a slot if the job is valid, and the queue then holds it there. -/
lemma answers_spec (jobs : List Job) (q : Queue) :
    List.Forall₂ (fun job a => (∃ slot, a = .ok slot) ↔ job.HasDistinctSymbols) jobs
      (q.answers jobs).1 ∧
    (q.answers jobs).2.jobs = q.jobs ++ accepted jobs (q.answers jobs).1 := by
  induction jobs generalizing q with
  | nil => exact ⟨.nil, (List.append_nil _).symm⟩
  | cons job jobs ih =>
    obtain ⟨hanswers, hjobs⟩ := ih (q.answer job).2
    rw [answers]
    rcases answer_cases job q with ⟨slot, hslot, hvalid, hqueued⟩ | ⟨e, herror, hinvalid, hkept⟩
    · refine ⟨.cons (iff_of_true ⟨slot, hslot⟩ hvalid) hanswers, ?_⟩
      rw [hjobs, hqueued, hslot, accepted, List.append_assoc]
      rfl
    · refine ⟨.cons (iff_of_false (fun ⟨slot, hslot⟩ => ?_) hinvalid) hanswers, ?_⟩
      · rw [herror] at hslot
        cases hslot
      · rw [hjobs, herror, accepted, hkept]

lemma drain_perm (q : Queue) : q.drain.1.Perm q.jobs := Sorting.sort_perm _ _

lemma Valid.answer (h : q.Valid) (job : Job) : (q.answer job).2.Valid := by
  cases hv : job.validate with
  | error e =>
    rw [Queue.answer, enqueue_error hv]
    exact h
  | ok u =>
    rw [Queue.answer, enqueue_ok hv]
    obtain ⟨jobs, free, slots⟩ := q
    obtain ⟨hnodup, hbelow, hjobs⟩ := h
    have hjobs' (k : ℕ) : ∀ p ∈ jobs ++ [(k, job)], p.2.validate = .ok () := by
      simpa [or_imp, forall_and, hv] using hjobs
    cases free with
    | cons slot free =>
      refine ⟨?_, fun k hk => hbelow k ?_, hjobs' slot⟩
      · simp only [List.map_append, List.map_cons, List.map_nil, ← List.append_assoc]
        exact (List.perm_append_singleton _ _).nodup_iff.2 hnodup
      · simpa [or_comm, or_assoc, or_left_comm] using hk
    | nil =>
      have hnew : slots ∉ jobs.map Prod.fst := fun hmem => (hbelow slots hmem).ne rfl
      refine ⟨?_, fun k hk => ?_, hjobs' slots⟩
      · simp only [List.nil_append, List.map_append, List.map_cons, List.map_nil]
        exact (List.perm_append_singleton _ _).nodup_iff.2 (List.nodup_cons.2 ⟨hnew, hnodup⟩)
      · simp only [List.nil_append, List.map_append, List.map_cons, List.map_nil, List.mem_append,
          List.mem_singleton] at hk
        rcases hk with hk | rfl
        · exact (hbelow k hk).trans (Nat.lt_succ_self _)
        · exact Nat.lt_succ_self _

lemma Valid.compiled (h : q.Valid) (t : Toolchain) : (q.compileAll t).2.Valid := by
  have hslots : ((q.compileAll t).2.free ++ (q.compileAll t).2.jobs.map Prod.fst).Perm
      (q.free ++ q.jobs.map Prod.fst) := by
    show ((q.drain.1.map Prod.fst).reverse ++ q.free ++ []).Perm _
    rw [List.append_nil]
    refine List.perm_append_comm.trans (List.Perm.append_left _ ?_)
    exact (List.reverse_perm _).trans (q.drain_perm.map _)
  refine ⟨hslots.nodup_iff.2 h.nodup, fun k hk => h.below k (hslots.subset hk), fun p hp => ?_⟩
  cases hp

lemma Reached.valid (h : q.Reached) : q.Valid := by
  induction h with
  | empty => exact ⟨by simp, by simp, by simp⟩
  | answer job _ ih => exact ih.answer job
  | compiled t _ ih => exact ih.compiled t

lemma Reached.answers (h : q.Reached) (jobs : List Job) : (q.answers jobs).2.Reached := by
  induction jobs generalizing q with
  | nil => exact h
  | cons job jobs ih => exact ih (.answer job h)

end Queue

/-! ## Functions of one job over two pools -/

/-- Two functions over two lists of constants that compile to programs that run the same way, or
else have the same problems. -/
structure SourceFunction.Twins (data data' : List Value) (f f' : SourceFunction) : Prop where
  /-- The parameters are the same. -/
  params : f'.params = f.params
  /-- Programs run the same way. -/
  programs : ∀ p, f.compile = .ok p → ∃ p', f'.compile = .ok p' ∧ ∀ ev args,
    p'.run ev data'.toArray args = p.run ev data.toArray args
  /-- Problems are the same up to the name. -/
  problems : ∀ ds, f.compile = .error ds → f'.compile = .error (ds.map (.of f'.name))

namespace Job

/-- The function of a job alone, with its constants. -/
def aloneUnit (job : Job) : SourceFunction × Pool :=
  job.linearize ("f" ++ Nat.repr 0) {}

lemma unit_singleton (job : Job) : unit [job] = ⟨[job.aloneUnit.1], job.aloneUnit.2.data⟩ := rfl

/-- A job has twins over any two pools. -/
lemma linearize_twins {job : Job} (hs : s.WellFormed) (h : ∀ r ∈ job.roots, s.Knows r) (name : String)
    {pool : Pool} (hpool : pool.Holds s) :
    (job.linearize name pool).1.name = name ∧ (job.linearize name pool).2.Holds s ∧
      pool.data <+: (job.linearize name pool).2.data ∧
      ∀ data, (job.linearize name pool).2.data <+: data →
        SourceFunction.Twins job.aloneUnit.2.data data job.aloneUnit.1 (job.linearize name pool).1 := by
  obtain ⟨captures, f, hknows, hparams, hrun⟩ := uniform_linearize hs h
  -- Some numbering is enough to know the pool; the code is compared for each list of constants.
  obtain ⟨ρ, -, hρ, -, -⟩ := hpool.exists_loadsAlike hpool hknows (List.prefix_refl _)
    (List.prefix_refl _)
  have hfinal : (job.linearize name pool).2 = pool.captureAll captures := by rw [hrun name pool ρ hρ]
  refine ⟨by rw [hrun name pool ρ hρ], ?_, ?_, fun data hdata => ?_⟩
  · rw [hfinal]
    exact hpool.captureAll hknows
  · rw [hfinal]
    exact Pool.data_prefix_captureAll _ _
  · rw [hfinal] at hdata
    obtain ⟨ρ, ρ', hρ, hρ', hloads⟩ := Pool.holds_empty.exists_loadsAlike hpool hknows
      (List.prefix_refl _) hdata
    rw [aloneUnit, hrun _ {} ρ hρ, hrun name pool ρ' hρ']
    refine ⟨rfl, fun p hp => ?_, fun ds hds => ?_⟩
    · rw [SourceFunction.compile_renumber] at hp ⊢
      cases hcompile : f.compile with
      | ok p₀ =>
        rw [hcompile] at hp
        obtain rfl : p₀.renumber ρ = p := Except.ok.inj hp
        exact ⟨_, rfl, fun ev args => (Program.run_renumber hloads p₀ args).symm⟩
      | error ds =>
        rw [hcompile] at hp
        cases hp
    · rw [SourceFunction.compile_renumber] at hds ⊢
      cases hcompile : f.compile with
      | ok p₀ =>
        rw [hcompile] at hds
        cases hds
      | error ds₀ =>
        rw [hcompile] at hds
        obtain rfl : ds₀.map (.of _) = ds := Except.error.inj hds
        simp only [List.map_map]
        rfl

/-- The functions of a batch are twins of those of its jobs alone. -/
lemma twins_linearizeAll (hs : s.WellFormed) {jobs : List Job}
    (h : ∀ job ∈ jobs, ∀ r ∈ job.roots, s.Knows r) (k : ℕ) {pool : Pool} (hpool : pool.Holds s) :
    pool.data <+: (linearizeAll k pool jobs).2.data ∧
      ∀ data, (linearizeAll k pool jobs).2.data <+: data →
        List.Forall₂ (fun p f => f.name = "f" ++ Nat.repr p.2 ∧
          SourceFunction.Twins p.1.aloneUnit.2.data data p.1.aloneUnit.1 f)
          (jobs.zipIdx k) (linearizeAll k pool jobs).1 := by
  induction jobs generalizing k pool with
  | nil => exact ⟨List.prefix_refl _, fun _ _ => .nil⟩
  | cons job jobs ih =>
    obtain ⟨hname, hfinal, hgrown, htwins⟩ :=
      linearize_twins hs (h job (by simp)) ("f" ++ Nat.repr k) hpool
    obtain ⟨hgrown', hrest⟩ := ih (fun j hj => h j (by simp [hj])) (k + 1) hfinal
    rw [List.zipIdx_cons]
    exact ⟨hgrown.trans hgrown', fun data hdata =>
      .cons ⟨hname, htwins data (hgrown'.trans hdata)⟩ (hrest data hdata)⟩

end Job

/-! ## Units -/

/-- The problems of a function. -/
def SourceFunction.problems (f : SourceFunction) : List Diagnostic :=
  match f.compile with
  | .ok _ => []
  | .error ds => ds

namespace Toolchain

variable {t : Toolchain} {fs : List SourceFunction}

lemma buildAll_ok (h : ∀ f ∈ fs, ∃ p, f.compile = .ok p) : ∃ ps, buildAll fs = .ok ps := by
  induction fs with
  | nil => exact ⟨[], rfl⟩
  | cons f fs ih =>
    obtain ⟨p, hp⟩ := h f (by simp)
    obtain ⟨ps, hps⟩ := ih fun g hg => h g (by simp [hg])
    exact ⟨p :: ps, by rw [buildAll, hp, hps]⟩

/-- One function with problems fails the unit with the problems of all functions in order. -/
lemma buildAll_error (h : ∃ f ∈ fs, ∃ ds, f.compile = .error ds) :
    buildAll fs = .error (fs.flatMap SourceFunction.problems) := by
  induction fs with
  | nil =>
    obtain ⟨f, hf, -⟩ := h
    cases hf
  | cons f fs ih =>
    rw [buildAll, List.flatMap_cons, SourceFunction.problems]
    by_cases hrest : ∃ f ∈ fs, ∃ ds, f.compile = .error ds
    · rw [ih hrest]
      cases f.compile <;> rfl
    · have hall : ∀ g ∈ fs, ∃ p, g.compile = .ok p := fun g hg => by
        cases hg' : g.compile with
        | ok p => exact ⟨p, rfl⟩
        | error ds => exact absurd ⟨g, hg, ds, hg'⟩ hrest
      obtain ⟨ps, hps⟩ := buildAll_ok hall
      obtain ⟨g, hg, ds, hds⟩ := h
      have hnone : fs.flatMap SourceFunction.problems = [] := by
        rw [List.flatMap_eq_nil_iff]
        intro g hg
        obtain ⟨p, hp⟩ := hall g hg
        rw [SourceFunction.problems, hp]
      rcases List.mem_cons.1 hg with rfl | hg
      · rw [hps, hds, hnone, List.append_nil]
      · exact absurd ⟨g, hg, ds, hds⟩ hrest

lemma compile_ok (ht : t.fault = none) {u : SourceUnit}
    (h : ∀ f ∈ u.functions, ∃ p, f.compile = .ok p) : ∃ functions, t.compile u = .ok functions := by
  obtain ⟨programs, hprograms⟩ := buildAll_ok h
  rw [compile_eq_compileBundled ht, compileBundled, hprograms]
  exact ⟨_, rfl⟩

lemma compile_error (ht : t.fault = none) {u : SourceUnit}
    (h : ∃ f ∈ u.functions, ∃ ds, f.compile = .error ds) :
    t.compile u = .error (.compilation (u.functions.flatMap SourceFunction.problems)) := by
  rw [compile_eq_compileBundled ht, compileBundled, buildAll_error h]

end Toolchain

/-! ## Batches -/

namespace Job

/-- What becomes of a job that is compiled alone. -/
def alone (job : Job) (t : Toolchain) : Except Error (List (ℕ × CompiledFunction)) :=
  ((({} : Queue).answer job).2.compileAll t).1

/-- The problems of a job that is compiled alone. -/
def problemsAlone (job : Job) (t : Toolchain) : List Diagnostic :=
  match job.alone t with
  | .error (.compilation ds) => ds
  | _ => []

variable {job : Job} {t : Toolchain}

lemma alone_eq (hv : job.validate = .ok ()) :
    job.alone t = (t.compile (unit [job])).map fun functions => [0].zip functions := by
  have hqueued : (({} : Queue).answer job).2 = { jobs := [(0, job)], slots := 1 } := by
    rw [Queue.answer, Queue.enqueue_ok hv]
    rfl
  rw [alone, hqueued]
  rfl

lemma alone_ok (ht : t.fault = none) (hv : job.validate = .ok ()) {p : Program}
    (hp : job.aloneUnit.1.compile = .ok p) :
    job.alone t = .ok [(0, t.link (unit [job]) job.aloneUnit.1 p)] := by
  obtain ⟨functions, hfunctions⟩ := Toolchain.compile_ok (u := unit [job]) ht fun f hf => by
    rw [unit_singleton] at hf
    exact ⟨p, List.mem_singleton.1 hf ▸ hp⟩
  have hlinked := Toolchain.forall₂_compile ht hfunctions
  rw [alone_eq hv, hfunctions]
  rw [unit_singleton] at hlinked ⊢
  obtain ⟨c, rest, ⟨p', hp', rfl⟩, hnil, rfl⟩ := List.forall₂_cons_left_iff.1 hlinked
  cases hnil
  obtain rfl : p' = p := Except.ok.inj (hp'.symm.trans hp)
  rfl

lemma alone_error (ht : t.fault = none) (hv : job.validate = .ok ()) {ds : List Diagnostic}
    (hds : job.aloneUnit.1.compile = .error ds) : job.alone t = .error (.compilation ds) := by
  have hunit : (unit [job]).functions = [job.aloneUnit.1] := rfl
  rw [alone_eq hv, Toolchain.compile_error ht ⟨_, by rw [hunit]; simp, ds, hds⟩, hunit,
    List.flatMap_singleton, SourceFunction.problems, hds]
  rfl

lemma problemsAlone_eq (ht : t.fault = none) (hv : job.validate = .ok ()) :
    job.problemsAlone t = job.aloneUnit.1.problems := by
  rw [problemsAlone, SourceFunction.problems]
  cases hcompile : job.aloneUnit.1.compile with
  | ok p => rw [alone_ok ht hv hcompile]
  | error ds => rw [alone_error ht hv hcompile]

end Job

/-- Twins that are linked are called with the same outcome. -/
lemma SourceFunction.Twins.call {t : Toolchain} {u u' : SourceUnit} {f f' : SourceFunction}
    (h : f.Twins u.data u'.data f') {p p' : Program} (hp : f.compile = .ok p)
    (hp' : f'.compile = .ok p') : (t.link u' f' p').call = (t.link u f p).call := by
  obtain ⟨p'', hcompile, hrun⟩ := h.programs p hp
  obtain rfl : p'' = p' := Except.ok.inj (hcompile.symm.trans hp')
  have hparams : (t.link u' f' p'').params = (t.link u f p).params := h.params
  funext args
  have hprogram : (t.link u' f' p'').program.run (t.link u' f' p'').evaluator
      (t.link u' f' p'').data args =
    (t.link u f p).program.run (t.link u f p).evaluator (t.link u f p).data args :=
    hrun t.toEvaluator args
  unfold CompiledFunction.call
  rw [hparams, hprogram]

lemma exists_of_mem_forall₂ {α β : Type} {R : α → β → Prop} {l : List α} {m : List β} {a : α}
    (h : List.Forall₂ R l m) (ha : a ∈ l) : ∃ b ∈ m, R a b := by
  induction h with
  | nil => cases ha
  | cons hR _ ih =>
    rcases List.mem_cons.1 ha with rfl | ha
    · exact ⟨_, by simp, hR⟩
    · obtain ⟨b, hb, hab⟩ := ih ha
      exact ⟨b, by simp [hb], hab⟩

namespace Queue

variable {q : Queue} {t : Toolchain}

lemma compileAll_fst (q : Queue) (t : Toolchain) : (q.compileAll t).1 =
    (t.compile q.unit).map fun functions => (q.drain.1.map Prod.fst).zip functions := rfl

/-- The functions of the unit of a queue are twins of those of its jobs alone. -/
lemma twins_unit (hs : s.WellFormed) (h : ∀ p ∈ q.jobs, ∀ r ∈ p.2.roots, s.Knows r) :
    List.Forall₂ (fun p f => f.name = "f" ++ Nat.repr p.2 ∧
      SourceFunction.Twins p.1.2.aloneUnit.2.data q.unit.data p.1.2.aloneUnit.1 f)
      q.drain.1.zipIdx q.unit.functions := by
  have hdrained : ∀ job ∈ q.drain.1.map Prod.snd, ∀ r ∈ job.roots, s.Knows r := by
    intro job hjob
    obtain ⟨p, hp, rfl⟩ := List.mem_map.1 hjob
    exact h p (q.drain_perm.subset hp)
  have htwins := (Job.twins_linearizeAll hs hdrained 0 Pool.holds_empty).2 _ (List.prefix_refl _)
  rw [List.zipIdx_map, List.forall₂_map_left_iff] at htwins
  exact htwins

lemma forall₂_drain (hs : s.WellFormed) (h : ∀ p ∈ q.jobs, ∀ r ∈ p.2.roots, s.Knows r) :
    List.Forall₂ (fun p f => SourceFunction.Twins p.2.aloneUnit.2.data q.unit.data p.2.aloneUnit.1 f)
      q.drain.1 q.unit.functions := by
  rw [← List.zipIdx_map_fst 0 q.drain.1, List.forall₂_map_left_iff]
  exact (twins_unit hs h).imp fun _ _ htwins => htwins.2

/-- The unit of a queue compiles if each job compiles alone. -/
lemma functions_compile_iff (hs : s.WellFormed) (h : ∀ p ∈ q.jobs, ∀ r ∈ p.2.roots, s.Knows r) :
    (∀ f ∈ q.unit.functions, ∃ program, f.compile = .ok program) ↔
      ∀ p ∈ q.jobs, ∃ program, p.2.aloneUnit.1.compile = .ok program := by
  have hdrained : (∀ p ∈ q.jobs, ∃ program, p.2.aloneUnit.1.compile = .ok program) ↔
      ∀ p ∈ q.drain.1, ∃ program, p.2.aloneUnit.1.compile = .ok program :=
    forall_congr' fun p => imp_congr_left q.drain_perm.symm.mem_iff
  rw [hdrained]
  have htwins := forall₂_drain hs h
  generalize q.drain.1 = jobs at htwins ⊢
  generalize q.unit.functions = fs at htwins ⊢
  induction htwins with
  | nil => simp
  | @cons p f jobs fs hf _ ih =>
    rw [List.forall_mem_cons, List.forall_mem_cons]
    refine and_congr ⟨fun ⟨program, hprogram⟩ => ?_, fun ⟨program, hprogram⟩ => ?_⟩ ih
    · cases hcompile : p.2.aloneUnit.1.compile with
      | ok program' => exact ⟨program', rfl⟩
      | error ds =>
        rw [hf.problems ds hcompile] at hprogram
        cases hprogram
    · obtain ⟨program', hprogram', -⟩ := hf.programs program hprogram
      exact ⟨program', hprogram'⟩

/-- The problems of the unit of a queue are those of its jobs alone. -/
lemma problems_unit (ht : t.fault = none) (hq : q.Valid) (hs : s.WellFormed)
    (h : ∀ p ∈ q.jobs, ∀ r ∈ p.2.roots, s.Knows r) :
    q.unit.functions.flatMap SourceFunction.problems = q.drain.1.zipIdx.flatMap fun p =>
      (p.1.2.problemsAlone t).map (.of ("f" ++ Nat.repr p.2)) := by
  have hvalid : ∀ p ∈ q.drain.1.zipIdx, p.1.2.validate = .ok () := fun p hp =>
    hq.jobs p.1 (q.drain_perm.subset (List.fst_mem_of_mem_zipIdx hp))
  have htwins := (List.forall₂_and_left _ _).2 ⟨hvalid, twins_unit hs h⟩
  refine (List.forall₂_eq_eq_eq.le _ _ (List.rel_flatMap htwins fun p f hf => ?_)).symm
  obtain ⟨hv, hname, htwins⟩ := hf
  rw [List.forall₂_eq_eq_eq, Job.problemsAlone_eq ht hv, SourceFunction.problems,
    SourceFunction.problems]
  cases hcompile : p.1.2.aloneUnit.1.compile with
  | ok program =>
    obtain ⟨program', hprogram', -⟩ := htwins.programs program hcompile
    rw [hprogram']
    rfl
  | error ds => rw [htwins.problems ds hcompile, hname]

/-- A job compiles alone if its function does. -/
lemma alone_iff (ht : t.fault = none) (hq : q.Valid) :
    (∀ p ∈ q.jobs, ∃ program, p.2.aloneUnit.1.compile = .ok program) ↔
      ∀ p ∈ q.jobs, ∃ functions, p.2.alone t = .ok functions := by
  refine forall₂_congr fun p hp => ⟨fun ⟨program, hprogram⟩ => ?_, fun ⟨functions, hok⟩ => ?_⟩
  · exact ⟨_, Job.alone_ok ht (hq.jobs p hp) hprogram⟩
  · cases hcompile : p.2.aloneUnit.1.compile with
    | ok program => exact ⟨program, rfl⟩
    | error ds =>
      rw [Job.alone_error ht (hq.jobs p hp) hcompile] at hok
      cases hok

/-- A queue compiles if its jobs compile alone. -/
lemma compileAll_ok_iff (ht : t.fault = none) (hq : q.Valid) (hs : s.WellFormed)
    (h : ∀ p ∈ q.jobs, ∀ r ∈ p.2.roots, s.Knows r) :
    (∃ functions, (q.compileAll t).1 = .ok functions) ↔
      ∀ p ∈ q.jobs, ∃ functions, p.2.alone t = .ok functions := by
  rw [← alone_iff ht hq, ← functions_compile_iff hs h, compileAll_fst]
  refine ⟨fun ⟨functions, hok⟩ f hf => ?_, fun hall => ?_⟩
  · cases hcompile : f.compile with
    | ok program => exact ⟨program, rfl⟩
    | error ds =>
      rw [Toolchain.compile_error ht ⟨f, hf, ds, hcompile⟩] at hok
      cases hok
  · obtain ⟨functions, hfunctions⟩ := Toolchain.compile_ok ht hall
    exact ⟨_, by rw [hfunctions]; rfl⟩

/-- The functions of a batch are those of its jobs alone, each under the slot of its job. -/
lemma functions_compileAll (ht : t.fault = none) (hq : q.Valid) (hs : s.WellFormed)
    (h : ∀ p ∈ q.jobs, ∀ r ∈ p.2.roots, s.Knows r) {functions : List (ℕ × CompiledFunction)}
    (hok : (q.compileAll t).1 = .ok functions) :
    functions.map Prod.fst = q.drain.1.map Prod.fst ∧
      ∀ p ∈ q.jobs, ∃ f g, (p.1, f) ∈ functions ∧ p.2.alone t = .ok [(0, g)] ∧
        f.params = g.params ∧ f.call = g.call := by
  rw [compileAll_fst] at hok
  cases hcompiled : t.compile q.unit with
  | error e =>
    rw [hcompiled] at hok
    cases hok
  | ok cs =>
    rw [hcompiled] at hok
    obtain rfl : (q.drain.1.map Prod.fst).zip cs = functions := Except.ok.inj hok
    have htwins := forall₂_drain hs h
    have hlinked := Toolchain.forall₂_compile ht hcompiled
    have hpairs := forall₂_zip_slots
      (R := fun job f => job.aloneUnit.1.Twins job.aloneUnit.2.data q.unit.data f)
      (List.forall₂_map_left_iff.2 htwins) hlinked
    have hcompiles := (functions_compile_iff hs h).1 fun f hf => by
      obtain ⟨c, -, program, hprogram, -⟩ := exists_of_mem_forall₂ hlinked hf
      exact ⟨program, hprogram⟩
    refine ⟨List.map_fst_zip (by rw [List.length_map, htwins.length_eq, hlinked.length_eq]),
      fun p hp => ?_⟩
    obtain ⟨c, hc, hslot, f, htwin, program, hprogram, hlink⟩ :=
      exists_of_mem_forall₂ hpairs (q.drain_perm.symm.subset hp)
    obtain ⟨program₀, hprogram₀⟩ := hcompiles p hp
    have hcall := SourceFunction.Twins.call (t := t) (u := Job.unit [p.2]) htwin hprogram₀ hprogram
    refine ⟨c.2, _, ?_, Job.alone_ok ht (hq.jobs p hp) hprogram₀, ?_, ?_⟩
    · rw [← hslot]
      exact hc
    · rw [hlink]
      exact htwin.params
    · rw [hlink]
      exact hcall

/-- A batch that fails has the problems of its jobs alone. -/
lemma problems_compileAll (ht : t.fault = none) (hq : q.Valid) (hs : s.WellFormed)
    (h : ∀ p ∈ q.jobs, ∀ r ∈ p.2.roots, s.Knows r) {e : Error}
    (herror : (q.compileAll t).1 = .error e) :
    e = .compilation (q.drain.1.zipIdx.flatMap fun p =>
      (p.1.2.problemsAlone t).map (.of ("f" ++ Nat.repr p.2))) := by
  rw [compileAll_fst] at herror
  by_cases hall : ∀ f ∈ q.unit.functions, ∃ program, f.compile = .ok program
  · obtain ⟨functions, hfunctions⟩ := Toolchain.compile_ok ht hall
    rw [hfunctions] at herror
    cases herror
  · push Not at hall
    obtain ⟨f, hf, hnone⟩ := hall
    cases hcompile : f.compile with
    | ok program => exact absurd hcompile (hnone program)
    | error ds =>
      rw [Toolchain.compile_error ht ⟨f, hf, ds, hcompile⟩, problems_unit ht hq hs h] at herror
      exact (Except.error.inj herror).symm

/-- The queued jobs that come from expressions of `s` still do after further requests. -/
lemma knows_answers {jobs : List Job} (hq : ∀ p ∈ q.jobs, ∀ r ∈ p.2.roots, s.Knows r)
    (hjobs : ∀ job ∈ jobs, ∀ r ∈ job.roots, s.Knows r) :
    ∀ p ∈ (q.answers jobs).2.jobs, ∀ r ∈ p.2.roots, s.Knows r := by
  induction jobs generalizing q with
  | nil => exact hq
  | cons job jobs ih =>
    rw [List.forall_mem_cons] at hjobs
    refine ih ?_ hjobs.2
    rcases answer_cases job q with ⟨slot, -, -, hqueued⟩ | ⟨e, -, -, hkept⟩
    · rw [hqueued]
      intro p hp
      rcases List.mem_append.1 hp with hp | hp
      · exact hq p hp
      · obtain rfl := List.mem_singleton.1 hp
        exact hjobs.1
    · rwa [hkept]

/-- **Batches are atomic, and their jobs do not interfere.**  A job whose parameters are not distinct
symbols is refused, and the queue stays as it is.  Of a sequence of requests exactly those with other jobs
are answered by a slot, and the queue then holds these jobs under the slots that were answered, behind the
jobs that it had before.  It compiles if and only if each of its jobs compiles alone.  Then each job gets
one function under its slot, which is called with the same outcome as the function of the job alone.
Otherwise the batch has the problems that the jobs have alone, one after the other and under the names that
the functions have in the batch.  In either case the queue is empty afterwards. -/
theorem Reached.compileAll_answers (hq : q.Reached) (ht : t.fault = none) (hs : s.WellFormed)
    (hknown : ∀ p ∈ q.jobs, ∀ r ∈ p.2.roots, s.Knows r) (jobs : List Job)
    (hjobs : ∀ job ∈ jobs, ∀ r ∈ job.roots, s.Knows r) :
    let q' := (q.answers jobs).2
    (∀ (p : Queue) (job : Job), ¬job.HasDistinctSymbols → ∃ e, enqueue job p = .error e p) ∧
    List.Forall₂ (fun job a => (∃ slot, a = .ok slot) ↔ job.HasDistinctSymbols) jobs
      (q.answers jobs).1 ∧
    q'.jobs = q.jobs ++ accepted jobs (q.answers jobs).1 ∧ (q'.jobs.map Prod.fst).Nodup ∧
    ((∃ functions, (q'.compileAll t).1 = .ok functions) ↔
      ∀ p ∈ q'.jobs, ∃ functions, p.2.alone t = .ok functions) ∧
    (∀ functions, (q'.compileAll t).1 = .ok functions →
      (functions.map Prod.fst).Perm (q'.jobs.map Prod.fst) ∧
      ∀ p ∈ q'.jobs, ∃ f g, (p.1, f) ∈ functions ∧ p.2.alone t = .ok [(0, g)] ∧
        f.params = g.params ∧ f.call = g.call) ∧
    (∀ e, (q'.compileAll t).1 = .error e → e = .compilation (q'.drain.1.zipIdx.flatMap fun p =>
      (p.1.2.problemsAlone t).map (.of ("f" ++ Nat.repr p.2)))) ∧
    (q'.compileAll t).2.jobs = [] := by
  intro q'
  have hvalid : q'.Valid := (hq.answers jobs).valid
  have hroots : ∀ p ∈ q'.jobs, ∀ r ∈ p.2.roots, s.Knows r := knows_answers hknown hjobs
  obtain ⟨hanswers, hqueued⟩ := answers_spec jobs q
  refine ⟨fun p job hjob => ?_, hanswers, hqueued, (List.nodup_append.1 hvalid.nodup).2.1,
    compileAll_ok_iff ht hvalid hs hroots, fun functions hok => ?_,
    fun e herror => problems_compileAll ht hvalid hs hroots herror, rfl⟩
  · cases hv : job.validate with
    | ok u => exact absurd (Job.validate_eq_ok.1 hv) hjob
    | error e => exact ⟨e, enqueue_error hv p⟩
  · obtain ⟨hslots, hfunctions⟩ := functions_compileAll ht hvalid hs hroots hok
    rw [hslots]
    exact ⟨q'.drain_perm.map Prod.fst, hfunctions⟩

/-- Three requests, of which the second one names a parameter twice.  The two jobs that are queued call the
sine; they share its slot, and are called as if each had a slot of its own. -/
theorem compileAll_answers_sine :
    let x := (Store.initial.intern .reals (.symbol "x")).1
    let s := (Store.initial.intern .reals (.symbol "x")).2
    let sine := (s.intern .functions (.function (.builtin .sin))).1
    let t := (s.intern .functions (.function (.builtin .sin))).2
    let e := (t.intern .reals (.apply sine x)).1
    let job : Job := { value := e, params := [x] }
    let jobs : List Job := [job, { job with params := [x, x] }, { job with outputs := [x] }]
    let q := (({} : Queue).answers jobs).2
    q.jobs = [(0, job), (1, { job with outputs := [x] })] ∧
    accepted jobs (({} : Queue).answers jobs).1 = q.jobs ∧
    ∃ functions, (q.compileAll {}).1 = .ok functions ∧ q.unit.data.length = 1 ∧
      ∀ p ∈ q.jobs, ∃ f g, (p.1, f) ∈ functions ∧ p.2.alone {} = .ok [(0, g)] ∧
        f.params = g.params ∧ f.call = g.call := by
  intro x s sine t e job jobs q
  have hadm : Store.initial.Admits .reals (.symbol "x") :=
    ⟨by simp [Kind.children], fun _ h => h.elim, trivial, by simp [Kind.index?]⟩
  obtain ⟨hs, hx, -⟩ := Store.wellFormed_initial.intern hadm
  have hadm' : s.Admits .functions (.function (.builtin .sin)) :=
    ⟨by simp [Kind.children], by rintro f rfl; trivial, rfl, by simp [Kind.index?]⟩
  obtain ⟨ht, hsine, -⟩ := hs.intern hadm'
  have hx' : t.Knows x := hx.mono (Store.le_intern _ _ s)
  have hadm'' : t.Admits .reals (.apply sine x) :=
    ⟨by simpa [Kind.children] using ⟨hsine, hx'⟩, fun _ h => h.elim, rfl, by simp [Kind.index?]⟩
  obtain ⟨hu, he, -⟩ := ht.intern hadm''
  have hx'' := hx'.mono (Store.le_intern .reals (.apply sine x) t)
  have hroots : ∀ job ∈ jobs, ∀ r ∈ job.roots, (t.intern .reals (.apply sine x)).2.Knows r := by
    simpa [Job.roots, job, jobs] using ⟨he, hx''⟩
  have hall := Reached.empty.compileAll_answers (t := {}) rfl hu (fun _ hp => absurd hp List.not_mem_nil) jobs hroots
  obtain ⟨-, -, hqueued, -, -, hfunctions, -⟩ := hall
  refine ⟨rfl, hqueued.symm, ?_⟩
  cases hcompiled : (q.compileAll {}).1 with
  | error _ =>
    have hsome : (q.compileAll {}).1.toOption.isSome = true := by decide +kernel
    rw [hcompiled] at hsome
    cases hsome
  | ok functions => exact ⟨functions, rfl, by decide +kernel, (hfunctions _ hcompiled).2⟩

end Queue

end TermGraph
