import TermGraph.Program.Linear
import TermGraph.Program.Machine

/-!
# Batches of functions

Jobs are queued and compiled together; one problem in any of them fails the whole batch, and the
queue is empty afterwards in either case.

A queued job takes a slot: the one that was given back last, or else a new one.  A batch is
compiled in the order of the slots, and its functions are called `f0`, `f1` and so on.

A toolchain turns the statement lists of a batch into programs and is handed the constants that
they capture.  Besides the bundled one there are toolchains from outside, such as those that fail
on purpose.
-/

namespace TermGraph

/-- What a toolchain makes of a unit. -/
structure CompiledUnit where
  /-- What it keeps of the captured constants that it is handed. -/
  load : List Value → Except Error (Array Value)
  /-- The program of the function of a name. -/
  entry : String → Option Program

/-- A toolchain from outside: any way to turn a unit into programs, or to report what is wrong. -/
structure ForeignToolchain where
  /-- What it makes of a unit. -/
  build : SourceUnit → Except (List Diagnostic) CompiledUnit

/-- A toolchain, with the evaluator of the functions that it makes. -/
structure Toolchain extends Evaluator where
  /-- The toolchain from outside that stands in for the bundled one, if any. -/
  fault : Option ForeignToolchain := none

/-- A function that can be called. -/
structure CompiledFunction where
  /-- Its name. -/
  name : String
  /-- The parameters. -/
  params : List Parameter
  /-- The instructions. -/
  program : Program
  /-- The captured constants. -/
  data : Array Value
  /-- What values are evaluated with. -/
  evaluator : Evaluator

namespace CompiledFunction

/-- The first argument that does not fit its parameter. -/
def checkTypes (k : Nat) : List Parameter → List Value → Except Error Unit
  | p :: ps, v :: vs =>
    if p.type.accepts v then checkTypes (k + 1) ps vs
    else .error (.argumentType k p.type v.hostType)
  | _, _ => .ok ()

/-- Calls a function with one value for each parameter. -/
def call (f : CompiledFunction) (args : List Value) : Build Evaluation := do
  if args.length ≠ f.params.length then
    throw (.argumentCount f.params.length args.length)
  Build.ofExcept id (checkTypes 0 f.params args)
  f.program.run f.evaluator f.data args

end CompiledFunction

namespace Job

/-- The parameters from a position on must be symbols, and none may stand among those `before`. -/
def checkParams (before : List Expr) : List Expr → Except Error Unit
  | [] => .ok ()
  | p :: ps =>
    if !p.isSymbol then .error (.notASymbol p)
    else if before.contains p then .error (.evaluation (.repeatedParameter p))
    else checkParams (before ++ [p]) ps

/-- The parameters must be distinct symbols. -/
def validate (job : Job) : Except Error Unit :=
  checkParams [] job.params

/-- The statement lists of jobs, named by position, over one pool of constants. -/
def linearizeAll (k : Nat) (pool : Pool) : List Job → List SourceFunction × Pool
  | [] => ([], pool)
  | job :: jobs =>
    let (source, pool) := job.linearize ("f" ++ Nat.repr k) pool
    let (sources, pool) := linearizeAll (k + 1) pool jobs
    (source :: sources, pool)

/-- The unit of a list of jobs. -/
def unit (jobs : List Job) : SourceUnit :=
  let (sources, pool) := linearizeAll 0 {} jobs
  ⟨sources, pool.data⟩

end Job

namespace Toolchain

/-- The programs of some functions, or all problems of all of them. -/
def buildAll : List SourceFunction → Except (List Diagnostic) (List Program)
  | [] => .ok []
  | f :: fs =>
    match f.compile, buildAll fs with
    | .ok p, .ok ps => .ok (p :: ps)
    | .ok _, .error ds => .error ds
    | .error ds, .ok _ => .error ds
    | .error ds, .error ds' => .error (ds ++ ds')

/-- The function of a unit that the bundled toolchain makes of a program. -/
def link (t : Toolchain) (u : SourceUnit) (f : SourceFunction) (p : Program) : CompiledFunction :=
  ⟨f.name, f.params, p, u.data.toArray, t.toEvaluator⟩

/-- The functions of a unit, made by the bundled toolchain. -/
def compileBundled (t : Toolchain) (u : SourceUnit) : Except Error (List CompiledFunction) :=
  match buildAll u.functions with
  | .ok programs => .ok (List.zipWith (t.link u) u.functions programs)
  | .error ds => .error (.compilation ds)

/-- The functions of a unit, made by a toolchain from outside. -/
def compileForeign (t : Toolchain) (foreign : ForeignToolchain) (u : SourceUnit) :
    Except Error (List CompiledFunction) := do
  let made ← (foreign.build u).mapError .compilation
  let data ← made.load u.data
  u.functions.mapM fun f =>
    match made.entry f.name with
    | some p => .ok ⟨f.name, f.params, p, data, t.toEvaluator⟩
    | none => .error (.compilation [⟨false, some f.name, .noEntryPoint⟩])

/-- The functions of a unit. -/
def compile (t : Toolchain) (u : SourceUnit) : Except Error (List CompiledFunction) :=
  match t.fault with
  | none => t.compileBundled u
  | some foreign => t.compileForeign foreign u

end Toolchain

namespace ForeignToolchain

/-! Toolchains that fail on purpose. -/

/-- The bundled toolchain, with a change to what it makes of a unit. -/
def changed (change : CompiledUnit → CompiledUnit) : ForeignToolchain :=
  ⟨fun u => (Toolchain.buildAll u.functions).map fun programs =>
    change ⟨fun data => .ok data.toArray, fun name =>
      ((u.functions.map SourceFunction.name).zip programs).lookup name⟩⟩

/-- It builds nothing. -/
def offline : ForeignToolchain :=
  ⟨fun u => .error (⟨true, none, .complaint "backend is slow"⟩ ::
    u.functions.map fun f => ⟨false, some f.name, .complaint "backend offline"⟩)⟩

/-- It refuses the captured constants. -/
def refusesData : ForeignToolchain :=
  changed fun made =>
    { made with load := fun data => .error (.evaluation (.constantsRefused data.length)) }

/-- It forgets the captured constants. -/
def forgetsData : ForeignToolchain :=
  changed fun made => { made with load := fun _ => .ok #[] }

/-- It has no entry points. -/
def noEntryPoints : ForeignToolchain :=
  changed fun made => { made with entry := fun _ => none }

end ForeignToolchain

/-- Jobs in their slots. -/
structure Queue where
  /-- The queued jobs with their slots, in order of adding. -/
  jobs : List (Nat × Job) := []
  /-- The slots that were given back, the last one first. -/
  free : List Nat := []
  /-- The slots that were ever in use. -/
  slots : Nat := 0

namespace Queue

/-- Takes a slot that was given back, or else a new one. -/
def takeSlot : EStateM Error Queue Nat := do
  let q ← get
  match q.free with
  | slot :: free =>
    set { q with free := free }
    return slot
  | [] =>
    set { q with slots := q.slots + 1 }
    return q.slots

/-- Queues a job that is valid, and gives its slot. -/
def enqueue (job : Job) : EStateM Error Queue Nat := do
  ofExcept job.validate
  let slot ← takeSlot
  modify fun q => { q with jobs := q.jobs ++ [(slot, job)] }
  return slot

/-- The slot of a job that is queued, and the queue with it. -/
def add (q : Queue) (job : Job) : Except Error (Nat × Queue) :=
  match enqueue job q with
  | .ok slot q => .ok (slot, q)
  | .error e _ => .error e

/-- The queued jobs by slot, and the empty queue. -/
def drain (q : Queue) : List (Nat × Job) × Queue :=
  let jobs := Sorting.sort (fun a b => decide (a.1 ≤ b.1)) q.jobs
  (jobs, { q with jobs := [], free := (jobs.map Prod.fst).reverse ++ q.free })

/-- The unit of the queued jobs. -/
def unit (q : Queue) : SourceUnit :=
  Job.unit (q.drain.1.map Prod.snd)

/-- Compiles all queued jobs.  The functions come with the slots of their jobs. -/
def compileAll (q : Queue) (t : Toolchain) : Except Error (List (Nat × CompiledFunction)) × Queue :=
  let (jobs, rest) := q.drain
  let outcome := t.compile (Job.unit (jobs.map Prod.snd))
  (outcome.map fun functions => (jobs.map Prod.fst).zip functions, rest)

end Queue

namespace Expr

/-- Compiles an expression as a function of some symbols. -/
def compile (e : Expr) (params : List Expr) : Except Error CompiledFunction := do
  let job : Job := { value := e, params := params }
  job.validate
  let functions ← Toolchain.compile {} (Job.unit [job])
  match functions with
  | f :: _ => .ok f
  | [] => .error (.compilation [])

end Expr

end TermGraph
