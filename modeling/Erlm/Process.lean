import Erlm.Main
import Erlm.Usage

/-!
# `main` and `do_something`

The program around its main loop. `main` reads the command line and hands the path of a script to
`do_something`: an events manager and a Duktape heap are made, the script is loaded into the heap,
its program is run, and both are given back. A heap must not be used once it was destroyed. What is
printed is left out, but for what it calls.
-/

namespace Erlm

/-- `struct erlm_config` -/
structure ErlmConfig where
  no_run : ℤ
  verbose : ℤ
  deriving Repr, DecidableEq

def erlmConfigDefaults : ErlmConfig := ⟨0, 0⟩

section Context

variable {ω : Type}

/-- The context of `duk_create_heap_default`; its global object has the `builtins`. -/
def Ctx.create (engine : Engine ω) (builtins : Props) (world : ω) : Ctx ω where
  engine
  stack := []
  reserve := DUK_API_ENTRY_STACK
  this := .undefined
  store := fun r => if r = globalRef then builtins else []
  world
  calls := []

/-- `duk_elm_create_context` after the heap was made. -/
def dukElmStashManager (events_manager : ℤ) : DukM ω Unit := do
  dukPushGlobalStash
  dukPushInt events_manager
  dukPutPropString (-2) eventsManager
  dukPop

end Context

/-- The context of the newest heap, and each heap with how often it was destroyed. -/
structure Process where
  ctx : Ctx Os
  heaps : Heap Unit

abbrev ProcessM := EStateM Fault Process

section Process

variable {α : Type}

/-- The process goes on with another context of the same heap. -/
def Process.withCtx (p : Process) (ctx : Ctx Os) : Process := { p with ctx }

def inContext (heap : ℕ) (m : DukM Os α) : ProcessM α := fun p =>
  match p.heaps.get? heap with
  | none => .error .undefinedBehaviour p
  | some _ =>
    match m p.ctx with
    | .ok a ctx => .ok a (p.withCtx ctx)
    | .error fault ctx => .error fault (p.withCtx ctx)

/-- A call of the event layer from outside of a context. -/
def callEvents (m : EventM α) : ProcessM α := fun p =>
  match onEvents m p.ctx with
  | .ok a ctx => .ok a (p.withCtx ctx)
  | .error fault ctx => .error fault (p.withCtx ctx)

def dukCreateHeapDefault (engine : Engine Os) (builtins : Props) : ProcessM ℕ := fun p =>
  .ok p.heaps.next ⟨Ctx.create engine builtins p.ctx.world, p.heaps.alloc ()⟩

def dukDestroyHeap (heap : ℕ) : ProcessM Unit := fun p =>
  match p.heaps.get? heap with
  | none => .error .undefinedBehaviour p
  | some _ => .ok () { p with heaps := p.heaps.release heap }

def dukElmCreateContext (engine : Engine Os) (builtins : Props) (events_manager : ℤ) :
    ProcessM ℕ := do
  let ctx ← dukCreateHeapDefault engine builtins
  inContext ctx (dukElmStashManager events_manager)
  return ctx

end Process

section Program

variable (erl : Erl) (engine : Engine Os) (builtins : Props) (isError : JsVal → Bool)
  (inherits : JsVal → Bytes → Bool) (files : Bytes → Option File) (page : ℕ)

end Program

section Main

def helpOption : ArgparseOption :=
  ⟨.boolean, 104, some (ascii ['h', 'e', 'l', 'p']), none,
    "show this help message and exit".toUTF8.toList, some argparseHelpCb, 0, 0⟩

/-- The options of `main`. Its variables are 0 for `config.no_run` and 1 for `config.verbose`. -/
def erlmOptions : List ArgparseOption :=
  [helpOption,
    ⟨.boolean, 110, some (ascii ['n', 'o', '-', 'r', 'u', 'n']), some 0,
      "avoid running the elm program".toUTF8.toList, none, 0, 0⟩,
    ⟨.boolean, 118, some (ascii ['v', 'e', 'r', 'b', 'o', 's', 'e']), some 1,
      "prints logging information to the stderr".toUTF8.toList, none, 0, 0⟩]

def ErlmConfig.values (config : ErlmConfig) : Variables where
  ints v := if v = 0 then config.no_run else if v = 1 then config.verbose else 0
  strings _ := none

def Variables.config (values : Variables) : ErlmConfig := ⟨values.ints 0, values.ints 1⟩

/-- What `main` reads off the command line, nothing where it prints its usage. -/
def commandLine (program : Bytes) (args : List Bytes) :
    Except Stop (Option (ErlmConfig × Bytes)) := do
  let ((argc, argv), values) ← argparseParse erlmOptions 0 erlmConfigDefaults.values program args
  if argc ≠ 1 then return none
  else
    match (argv[0]?).join with
    | none => throw .undefinedBehaviour
    | some filepath => return some (values.config, filepath)

variable (erl : Erl) (engine : Engine Os) (builtins : Props) (isError : JsVal → Bool)
  (inherits : JsVal → Bytes → Bool) (files : Bytes → Option File) (page : ℕ)

end Main

end Erlm
