import Erlm.Context
import Erlm.Term

/-!
# `duk_erlang.c`

`duk_erlang_get_term` turns the value at a stack index into an Erlang term and
`duk_erlang_push_term` pushes the value of a term. Going down into a value takes entries of the
value stack, so its size bounds the depth of the recursion.
-/

namespace Erlm

open ETerm (ofList)

variable {ω : Type}

section Get

/-- Where the loop of `duk_erlang_get_array` stands. -/
structure ArrayState where
  buffer : List (Option ETerm)
  array_index : ℕ

/-- Builds the list from the back. A slot that was never written holds garbage. -/
def consAll (buffer : List (Option ETerm)) : ℕ → ETerm → DukM ω ETerm
  | 0, list => return list
  | array_index + 1, list =>
    match buffer[array_index]? with
    | some (some elem) => consAll buffer array_index (.cons elem list)
    | _ => throw .undefinedBehaviour

/-- A round of the loop, which writes the next slot of the buffer. -/
def arrayRound (getTerm : ℤ → DukM ω ETerm) (s : ArrayState) : DukM ω ArrayState := do
  let elem ← getTerm (-1)
  if s.buffer.length ≤ s.array_index then throw .undefinedBehaviour
  else
    dukPopN 2
    return { buffer := s.buffer.set s.array_index (some elem), array_index := s.array_index + 1 }

def dukErlangGetArray (getTerm : ℤ → DukM ω ETerm) (idx : ℤ) : DukM ω ETerm := do
  let array_length ← dukGetLength idx
  let buffer := List.replicate array_length none
  let list := ETerm.nil
  dukEnum idx .arrayIndicesOnly
  let s ← whileNext (-1) (arrayRound getTerm) (ArrayState.mk buffer 0)
  dukPop
  -- `array_index` starts at `array_length - 1`, as an `int`
  consAll s.buffer (toInt (array_length - 1 : ℤ) + 1).toNat list

/-- A round of the loop of `duk_erlang_get_object`. -/
def objectRound (getTerm : ℤ → DukM ω ETerm) (keyword_list : ETerm) : DukM ω ETerm := do
  let key := erlMkString ((← dukGetString (-2)).getD [])
  let value ← getTerm (-1)
  dukPopN 2
  return .cons (.tuple [key, value]) keyword_list

def dukErlangGetObject (getTerm : ℤ → DukM ω ETerm) (idx : ℤ) : DukM ω ETerm := do
  dukEnum idx .ownPropertiesOnly
  let keyword_list ← whileNext (-1) (objectRound getTerm) ETerm.nil
  dukPop
  return keyword_list

def atomOf (s : List Char) : ETerm := .atom (ascii s)

/-- One call of `duk_erlang_get_term`, the calls below it being `getTerm`. -/
def dukErlangGetTermBody (getTerm : ℤ → DukM ω ETerm) (idx : ℤ) : DukM ω ETerm := do
  match ← dukGet idx with
  | .undefined => return atomOf ['u', 'n', 'd', 'e', 'f', 'i', 'n', 'e', 'd']
  | .null => return atomOf ['n', 'u', 'l', 'l']
  | .boolean b =>
    if b then return atomOf ['t', 'r', 'u', 'e']
    return atomOf ['f', 'a', 'l', 's', 'e']
  | .number d => return .float d
  | .string s => return erlMkString s
  | .array _ _ _ => dukErlangGetArray getTerm idx
  | _ => dukErlangGetObject getTerm idx

def dukErlangGetTermN : ℕ → ℤ → DukM ω ETerm
  | 0, _ => dukThrow .rangeError
  | depth + 1, idx => dukErlangGetTermBody (dukErlangGetTermN depth) idx

/-- Every level but the first has at least one entry of the value stack to itself, so no more levels
than the stack has entries are ever needed. -/
def dukErlangGetTerm (idx : ℤ) : DukM ω ETerm := do
  let c ← get
  dukErlangGetTermN (c.reserve + 1) idx

end Get

section Push

def isObjectAlikeLoop : ℕ → ETerm → Bool
  | 0, _ => true
  | n + 1, .cons (.tuple [.atom _, _]) tl => isObjectAlikeLoop n tl
  | _ + 1, _ => false

/-- An improper list has no length, so its elements are not looked at. -/
def dukErlangIsObjectAlike (term : ETerm) : Bool :=
  term.isList && isObjectAlikeLoop (erlLength term).toNat term

mutual

def dukErlangPushTerm : ETerm → DukM ω Unit
  | .integer i => dukPushInt i.toInt
  | .unsigned u => dukPushInt u.toInt
  | .float d => dukPush (.number d)
  | .atom name => dukPushString (erlAtomPtrUtf8 name)
  | .tuple elems => do
    let _ ← dukPushArray
    dukErlangPushElements elems 0
  | .binary bytes => dukPush (.string bytes)
  | .nil => dukPushString (erlIolistToString .nil)
  | .cons hd tl => do
    let term := ETerm.cons hd tl
    if erlIolistLength term ≥ 0 then
      dukPushString (erlIolistToString term)
    else if dukErlangIsObjectAlike term then
      let list_length := erlLength term
      let array_index ← dukPushArray
      -- the first round of the loop, as the recursion is on the cells
      if 0 < list_length then
        match hd with
        | .tuple [.atom name, value] =>
          dukErlangPushTerm value
          dukPutPropString array_index (erlAtomPtrUtf8 name)
          dukErlangPushPairs tl array_index (list_length.toNat - 1)
        | _ => throw .undefinedBehaviour
    else
      let list_length := erlLength term
      let array_index ← dukPushArray
      if 0 < list_length then
        dukErlangPushTerm hd
        dukPutPropIndex array_index 0
        dukErlangPushCells tl array_index (list_length.toNat - 1) 1
  | .longlong _ | .ulonglong _ | .other _ => throw .abort
termination_by structural t => t

/-- The loop over the elements of a tuple. -/
def dukErlangPushElements : List ETerm → ℕ → DukM ω Unit
  | [], _ => return
  | elem :: elems, i => do
    dukErlangPushTerm elem
    dukPutPropIndex (-2) i
    dukErlangPushElements elems (i + 1)
termination_by structural elems => elems

/-- The loop over a keyword list, `n` rounds of it. -/
def dukErlangPushPairs : ETerm → ℤ → ℕ → DukM ω Unit
  | .cons (.tuple [.atom name, value]) tl, array_index, n + 1 => do
    dukErlangPushTerm value
    dukPutPropString array_index (erlAtomPtrUtf8 name)
    dukErlangPushPairs tl array_index n
  | _, _, 0 => return
  | _, _, _ + 1 => throw .undefinedBehaviour
termination_by structural t => t

/-- The loop over any other list, `n` rounds of it from index `i` on. -/
def dukErlangPushCells : ETerm → ℤ → ℕ → ℕ → DukM ω Unit
  | .cons hd tl, array_index, n + 1, i => do
    dukErlangPushTerm hd
    dukPutPropIndex array_index i
    dukErlangPushCells tl array_index n (i + 1)
  | _, _, 0, _ => return
  | _, _, _ + 1, _ => throw .undefinedBehaviour
termination_by structural t => t

end

end Push

end Erlm
