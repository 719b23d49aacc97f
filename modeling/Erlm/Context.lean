import Erlm.Lib.Pages
import Erlm.Value

/-!
# The Duktape context

A context has a value stack of limited size: a push beyond it throws a RangeError. The limit counts
what the program pushes; for what a Duktape function pushes and pops again in between, Duktape keeps
extra entries of its own. Entries are named by an index, from the bottom if it is not negative and
from the top, at -1, if it is. A call hands control to a script, which may do anything to the
objects it shares and to the world outside, and comes back with a value or an error.
-/

namespace Erlm

/-- How a computation ends other than by returning: an error Duktape throws, the `abort` of the
program, or behaviour C leaves undefined. -/
inductive Fault
  | thrown (v : JsVal)
  | abort
  | undefinedBehaviour
  deriving Repr

/-- What the scripts and Duktape's built-in objects do, `ω` being the world outside the context:
what a lookup finds on the built-in prototypes, the length an array gets when its `length` is
set to a value if it is a valid one, and the outcome of calling a function. -/
structure Engine (ω : Type) where
  inherited : JsVal → Bytes → JsVal
  arrayLength : JsVal → Option ℕ
  call : JsVal → List JsVal → Store → ω → Except JsVal JsVal × Store × ω

/-- A context. The stack has its top first, and `calls` are the calls made so far, each a function
and its arguments. -/
structure Ctx (ω : Type) where
  engine : Engine ω
  stack : List JsVal
  reserve : ℕ
  this : JsVal
  store : Store
  world : ω
  calls : List (JsVal × List JsVal)

/-- A computation in a context. -/
abbrev DukM (ω : Type) := EStateM Fault (Ctx ω)

/-- The object of the global stash. -/
def stashRef : ℕ := 0

/-- The global object of the scripts. -/
def globalRef : ℕ := 2

variable {ω α σ : Type}

namespace Ctx

def withStack (c : Ctx ω) (stack : List JsVal) : Ctx ω := { c with stack := stack }

/-- The place of an index, counted from the top. -/
def slot (c : Ctx ω) (idx : ℤ) : Option ℕ :=
  if idx < 0 then if -idx ≤ c.stack.length then some (-idx - 1).toNat else none
  else if idx < c.stack.length then some (c.stack.length - 1 - idx.toNat) else none

/-- The value at an index, `undefined` if there is none. -/
def get (c : Ctx ω) (idx : ℤ) : JsVal := ((c.slot idx).bind (c.stack[·]?)).getD .undefined

/-- A property of the value at an index, or the error that looking it up throws. Of the keys that
are no strings only enumerators occur here, which have no primitive value. -/
def property (c : Ctx ω) (idx : ℤ) (key : JsVal) : Except ErrorKind JsVal :=
  if (c.slot idx).isNone then .error .rangeError
  else match c.get idx, key with
    | .undefined, _ | .null, _ => .error .typeError
    | v, .string key => .ok (v.lookup c.store c.engine.inherited key)
    | _, _ => .error .typeError

/-- A context with an empty stack and no scripts: every call throws undefined. -/
def bare (reserve : ℕ) (world : ω) : Ctx ω where
  engine := ⟨fun _ _ => .undefined, fun _ => none,
    fun _ _ store world => (.error .undefined, store, world)⟩
  stack := []
  reserve := reserve
  this := .undefined
  store := fun _ => []
  world := world
  calls := []

/-- One in which every call returns null and does nothing. -/
def idle (reserve : ℕ) (world : ω) : Ctx ω :=
  { bare reserve world with
    engine.call := fun _ _ store world => (.ok .null, store, world) }

end Ctx

def dukThrow (kind : ErrorKind) : DukM ω α := throw (.thrown (.error kind))

section Stack

def dukGet (idx : ℤ) : DukM ω JsVal := fun c => .ok (c.get idx) c

/-- The place of an index that must be valid. -/
def dukRequireSlot (idx : ℤ) : DukM ω ℕ := fun c =>
  match c.slot idx with
  | some i => .ok i c
  | none => dukThrow .rangeError c

def dukPush (v : JsVal) : DukM ω Unit := fun c =>
  if c.stack.length < c.reserve then .ok () (c.withStack (v :: c.stack))
  else dukThrow .rangeError c

def dukPopN (n : ℕ) : DukM ω Unit := fun c =>
  if n ≤ c.stack.length then .ok () (c.withStack (c.stack.drop n))
  else dukThrow .rangeError c

def dukPop : DukM ω Unit := dukPopN 1

def dukRemove (idx : ℤ) : DukM ω Unit := do
  let i ← dukRequireSlot idx
  modify fun c => c.withStack (c.stack.eraseIdx i)

/-- Moves the top down to an index. -/
def dukInsert (idx : ℤ) : DukM ω Unit := do
  let i ← dukRequireSlot idx
  modify fun c => c.withStack ((c.stack.drop 1).insertIdx i (c.get (-1)))

def dukDup (idx : ℤ) : DukM ω Unit := do
  let _ ← dukRequireSlot idx
  dukPush (← dukGet idx)

/-- The index from the bottom of a valid index. -/
def dukNormalizeIndex (idx : ℤ) : DukM ω ℤ := fun c =>
  .ok (if idx < 0 then c.stack.length + idx else idx) c

def dukGetTop : DukM ω ℕ := fun c => .ok c.stack.length c

def dukPushInt (n : ℤ) : DukM ω Unit := dukPush (.number (.ofInt n))

/-- A `NULL` string is pushed as null. -/
def dukPushString : Option Bytes → DukM ω Unit
  | some s => dukPush (.string (cString s))
  | none => dukPush .null

/-- The index of the array pushed. -/
def dukPushArray : DukM ω ℤ := do
  let array_index ← dukGetTop
  dukPush (.ofList [])
  return array_index

def dukPushThis : DukM ω Unit := fun c => dukPush c.this c

def dukPushGlobalStash : DukM ω Unit := dukPush (.ref stashRef)

/-- The number at an index as an `int`, 0 if there is no number. -/
def dukGetInt (idx : ℤ) : DukM ω ℤ := do
  match ← dukGet idx with
  | .number d => return d.toCInt
  | _ => return 0

/-- The characters of a string as a C string, `NULL` if there is no string. -/
def dukGetString (idx : ℤ) : DukM ω (Option Bytes) := do
  match ← dukGet idx with
  | .string s => return some (cString s)
  | _ => return none

/-- Only the keys of an enumerator are converted here, which are strings already. -/
def dukToString (idx : ℤ) : DukM ω (Option Bytes) := dukGetString idx

/-- The length of an array. -/
def dukGetLength (idx : ℤ) : DukM ω ℕ := do
  match ← dukGet idx with
  | .array elems _ _ => return elems.length
  | _ => return 0

end Stack

section Properties

/-- Pushes a property of the value at an index. -/
def dukGetProp (idx : ℤ) (key : Bytes) : DukM ω Unit := do
  let _ ← dukRequireSlot idx
  let c ← get
  match c.get idx with
  | .undefined | .null => dukThrow .typeError
  | v => dukPush (v.lookup c.store c.engine.inherited key)

/-- A `NULL` key is taken for null, whose property key is `null`. -/
def dukGetPropString (idx : ℤ) : Option Bytes → DukM ω Unit
  | some key => dukGetProp idx (cString key)
  | none => dukGetProp idx (ascii ['n', 'u', 'l', 'l'])

def dukGetPropIndex (idx : ℤ) (i : ℕ) : DukM ω Unit := dukGetProp idx (decimal i)

/-- `duk_get_prop`: a property of the value at an index takes the place of its key on the top. -/
def dukGetPropTop (idx : ℤ) : DukM ω Unit := do
  let c ← get
  match c.property idx (c.get (-1)) with
  | .ok v => modify fun c => c.withStack (v :: c.stack.drop 1)
  | .error kind => dukThrow kind

/-- Whether the value at an index has a property, `inherits` telling those of the built-in
prototypes. -/
def dukHasPropString (inherits : JsVal → Bytes → Bool) (idx : ℤ) (key : Bytes) :
    DukM ω Bool := do
  let _ ← dukRequireSlot idx
  let c ← get
  let v := c.get idx
  if v.isObject then return v.has c.store inherits (cString key) else dukThrow .typeError

/-- Puts the value on the top, by `put` if the value at the index is an array. -/
def dukPutProp (idx : ℤ) (key : Bytes)
    (put : List (Option JsVal) → Props → Option JsVal → JsVal → Option JsVal) : DukM ω Unit := do
  let i ← dukRequireSlot idx
  let v ← dukGet (-1)
  let c ← get
  match c.get idx with
  | .array elems named proto =>
    match put elems named proto v with
    | some w => modify fun c => c.withStack (c.stack.set i w)
    | none => dukThrow .rangeError
  | .object props => modify fun c => c.withStack (c.stack.set i (.object (Assoc.put props key v)))
  | .function f props =>
    modify fun c => c.withStack (c.stack.set i (.function f (Assoc.put props key v)))
  | .ref r =>
    modify fun c => { c with store := Function.update c.store r (Assoc.put (c.store r) key v) }
  | _ => dukThrow .typeError
  dukPop

def dukPutPropString (idx : ℤ) (key : Bytes) : DukM ω Unit := do
  let c ← get
  dukPutProp idx (cString key) fun elems named proto v =>
    JsVal.arrayPut c.engine.arrayLength elems named proto (cString key) v

def dukPutPropIndex (idx : ℤ) (i : ℕ) : DukM ω Unit :=
  dukPutProp idx (decimal i) fun elems named proto v =>
    some (.array (JsVal.putAt elems i v) named proto)

/-- Takes the top off and puts it into the global object. -/
def dukPutGlobalString (key : Bytes) : DukM ω Unit := do
  let _ ← dukRequireSlot (-1)
  let v ← dukGet (-1)
  modify fun c =>
    { c with store := Function.update c.store globalRef (Assoc.put (c.store globalRef) key v) }
  dukPop

def dukGetGlobalString (key : Bytes) : DukM ω Unit := do
  let c ← get
  dukPush ((JsVal.ref globalRef).lookup c.store c.engine.inherited key)

/-- Deletes a property of a shared object. -/
def dukDelPropIndex (idx : ℤ) (i : ℕ) : DukM ω Unit := do
  let _ ← dukRequireSlot idx
  match ← dukGet idx with
  | .ref r =>
    modify fun c =>
      { c with store := Function.update c.store r (Assoc.erase (c.store r) (decimal i)) }
  | _ => dukThrow .typeError

end Properties

section Enumeration

inductive EnumFlags
  | arrayIndicesOnly
  | ownPropertiesOnly
  deriving Repr, DecidableEq

def EnumFlags.props (flags : EnumFlags) (store : Store) (v : JsVal) : Props :=
  match flags with
  | arrayIndicesOnly => (v.indexed store).map fun p => (decimal p.1, p.2)
  | ownPropertiesOnly => v.ownProps store

/-- Pushes an enumerator of the value at an index, which must be an object. -/
def dukEnum (idx : ℤ) (flags : EnumFlags) : DukM ω Unit := do
  let c ← get
  let v := c.get idx
  if v.isObject then dukPush (.enumerator (flags.props c.store v)) else dukThrow .typeError

/-- Pushes the next key and its value, if there is one. Nothing changes an object while it is
enumerated here, so the enumerator has the values it started with. -/
def dukNext (idx : ℤ) : DukM ω Bool := do
  let i ← dukRequireSlot idx
  match ← dukGet idx with
  | .enumerator [] => return false
  | .enumerator ((key, v) :: pending) =>
    modify fun c => c.withStack (c.stack.set i (.enumerator pending))
    dukPush (.string key)
    dukPush v
    return true
  | _ => dukThrow .typeError

/-- `duk_next` without the value. -/
def dukNextKey (idx : ℤ) : DukM ω Bool := do
  let i ← dukRequireSlot idx
  match ← dukGet idx with
  | .enumerator [] => return false
  | .enumerator ((key, _) :: pending) =>
    modify fun c => c.withStack (c.stack.set i (.enumerator pending))
    dukPush (.string key)
    return true
  | _ => dukThrow .typeError

/-- How many entries an enumerator has left. -/
def dukPending (idx : ℤ) : DukM ω ℕ := do
  match ← dukGet idx with
  | .enumerator pending => return pending.length
  | _ => return 0

def whileNextN (idx : ℤ) (body : σ → DukM ω σ) : ℕ → σ → DukM ω σ
  | 0, s => return s
  | n + 1, s => do
    if ← dukNext idx then
      let s ← body s
      whileNextN idx body n s
    else return s

/-- The loop `while (duk_next(ctx, idx, 1))`, a state carried from round to round. Each round takes
one entry, so there is one more call than the enumerator has entries. -/
def whileNext (idx : ℤ) (body : σ → DukM ω σ) (s : σ) : DukM ω σ := do
  let n ← dukPending idx
  whileNextN idx body (n + 1) s

def whileNextBreakN (idx : ℤ) (body : σ → DukM ω (σ ⊕ σ)) : ℕ → σ → DukM ω σ
  | 0, s => return s
  | n + 1, s => do
    if ← dukNext idx then
      match ← body s with
      | .inl s => whileNextBreakN idx body n s
      | .inr s => return s
    else return s

/-- The same loop with a body that can break out of it. -/
def whileNextBreak (idx : ℤ) (body : σ → DukM ω (σ ⊕ σ)) (s : σ) : DukM ω σ := do
  let n ← dukPending idx
  whileNextBreakN idx body (n + 1) s

end Enumeration

section Calls

/-- Takes a function and the `nargs` arguments above it off the stack and calls it. Only a function
can be called. -/
def dukInvoke (nargs : ℕ) : DukM ω (Except JsVal JsVal) := fun c =>
  match c.stack.drop nargs with
  | [] => dukThrow .typeError c
  | f :: rest =>
    let args := (c.stack.take nargs).reverse
    if f.isFunction then
      let (outcome, store, world) := c.engine.call f args c.store c.world
      .ok outcome { c with stack := rest, store, world, calls := c.calls ++ [(f, args)] }
    else .ok (.error (.error .typeError)) (c.withStack rest)

/-- The outcome of a call takes the place of the function. -/
def dukResult (v : JsVal) : DukM ω Unit := modify fun c => c.withStack (v :: c.stack)

def dukCall (nargs : ℕ) : DukM ω Unit := do
  match ← dukInvoke nargs with
  | .ok v => dukResult v
  | .error e => throw (.thrown e)

/-- A protected call leaves an error on the stack like a value. -/
def dukPcall (nargs : ℕ) : DukM ω Unit := do
  match ← dukInvoke nargs with
  | .ok v => dukResult v
  | .error e => dukResult e

def DUK_EXEC_SUCCESS : ℤ := 0

def DUK_EXEC_ERROR : ℤ := 1

/-- Leaves the outcome of a protected call on the stack, and returns which it is. -/
def dukExec : Except JsVal JsVal → DukM ω ℤ
  | .ok v => do
    dukResult v
    return DUK_EXEC_SUCCESS
  | .error e => do
    dukResult e
    return DUK_EXEC_ERROR

/-- A protected call of the property of the value at an index whose key stands below the arguments.
Looking it up is protected too. -/
def dukPcallProp (idx : ℤ) (nargs : ℕ) : DukM ω ℤ := do
  let c ← get
  match c.stack.drop nargs with
  | [] => dukThrow .typeError
  | key :: rest =>
    match c.property idx key with
    | .ok f =>
      modify fun c => c.withStack (c.stack.take nargs ++ f :: rest)
      dukExec (← dukInvoke nargs)
    | .error kind =>
      modify fun c => c.withStack rest
      dukExec (.error (.error kind))

/-- The function that compiles a source and runs it. -/
def evalFunction : JsVal := .function 1 []

/-- A protected call of the source that starts where `memory` does and goes on to the first zero
byte: past `memory` nothing can be read. -/
def dukPevalString (memory : Bytes) : DukM ω ℤ :=
  match Pages.read 0 memory with
  | none => throw .undefinedBehaviour
  | some source => do
    dukPush evalFunction
    dukPush (.string source)
    dukExec (← dukInvoke 1)

/-- The entries a native function may push at least. -/
def DUK_API_ENTRY_STACK : ℕ := 64

/-- The frame of a native function: a stack of its own with the arguments and room for `entry`
more. -/
def Ctx.enter (c : Ctx ω) (entry : ℕ) (this : JsVal) (args : List JsVal) : Ctx ω :=
  { c with stack := args.reverse, reserve := args.length + entry, this }

/-- Leaves it for the frame of its caller. -/
def Ctx.backTo (caller c : Ctx ω) : Ctx ω :=
  { c with stack := caller.stack, reserve := caller.reserve, this := caller.this }

/-- A script's call of a native function, which returns 1 for the value on its top, 0 for undefined
and a negative code for an error. -/
def dukNative (entry : ℕ) (f : DukM ω ℤ) (this : JsVal) (args : List JsVal) :
    DukM ω (Except JsVal JsVal) := fun c =>
  match f (c.enter entry this args) with
  | .ok code c' =>
    if code < 0 then .ok (.error (.error .error)) (c.backTo c')
    else .ok (.ok (if code = 1 then c'.get (-1) else .undefined)) (c.backTo c')
  | .error (.thrown e) c' => .ok (.error e) (c.backTo c')
  | .error fault c' => .error fault (c.backTo c')

end Calls

end Erlm
