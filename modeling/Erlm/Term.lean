import Erlm.Double

/-!
# Erlang terms

The terms of `erl_interface` and what its functions do with them, as documented. A list is a chain
of cells; it is proper when the chain ends in the empty list. Decoding and encoding the external
format are the two functions of an `Erl`.
-/

namespace Erlm

/-- A decoded term. `unsigned` is `ERL_U_INTEGER`, which `erl_decode` uses for what an `int` cannot
hold; `other` stands for the term types this program does not look into. -/
inductive ETerm
  | integer (i : BitVec 32)
  | unsigned (u : BitVec 32)
  | longlong (i : BitVec 64)
  | ulonglong (u : BitVec 64)
  | float (d : Double)
  | atom (name : Bytes)
  | tuple (elems : List ETerm)
  | binary (bytes : Bytes)
  | nil
  | cons (hd tl : ETerm)
  | other (kind : ℕ)
  deriving Repr, Inhabited

/-- The external term format. `decode` reads one term off the start of a buffer, and `encode`
is what `erl_encode` stores, `erl_term_len` its length. -/
structure Erl where
  decode : Bytes → Option ETerm
  encode : ETerm → Bytes

namespace ETerm

/-- `ERL_IS_LIST` -/
def isList : ETerm → Bool
  | .nil => true
  | .cons _ _ => true
  | _ => false

def isInteger : ETerm → Bool
  | .integer _ => true
  | _ => false

/-- The proper list of some terms. -/
def ofList : List ETerm → ETerm
  | [] => .nil
  | t :: ts => .cons t (ofList ts)

/-- The elements of a proper list. -/
def toList? : ETerm → Option (List ETerm)
  | .nil => some []
  | .cons hd tl => (toList? tl).map (hd :: ·)
  | _ => none

@[simp] theorem toList?_ofList (ts : List ETerm) : (ofList ts).toList? = some ts := by
  induction ts with
  | nil => rfl
  | cons t ts ih => rw [ofList, toList?, ih, Option.map_some]

theorem ofList_of_toList? : ∀ {t : ETerm} {ts : List ETerm}, t.toList? = some ts → t = ofList ts
  | .nil, ts, h => by
    simp only [toList?, Option.some.injEq] at h
    rw [← h, ofList]
  | .cons hd tl, ts, h => by
    simp only [toList?, Option.map_eq_some_iff] at h
    obtain ⟨us, hus, rfl⟩ := h
    rw [ofList, ← ofList_of_toList? hus]

theorem ofList_injective : Function.Injective ofList := by
  intro ts us h
  have := congrArg toList? h
  simpa using this

@[simp] theorem isList_ofList (ts : List ETerm) : (ofList ts).isList = true := by
  cases ts <;> rfl

end ETerm

open ETerm (ofList)

/-- The length of a proper list, -1 for anything else. -/
def erlLength : ETerm → ℤ
  | .nil => 0
  | .cons _ tl => if erlLength tl < 0 then -1 else erlLength tl + 1
  | _ => -1

/-- The bytes of what may stand in an iolist: a byte, a binary or an iolist, whose tail may be a
binary but not a byte. -/
def iodata : ETerm → Option Bytes
  | .integer i => if i.toNat ≤ 255 then some [UInt8.ofNat i.toNat] else none
  | .binary bytes => some bytes
  | .nil => some []
  | .cons hd tl =>
    if tl.isInteger then none
    else do
      let a ← iodata hd
      let b ← iodata tl
      return a ++ b
  | _ => none

def isIolist (t : ETerm) : Bool := t.isList && (iodata t).isSome

/-- The number of bytes of an iolist, -1 for anything else. -/
def erlIolistLength (t : ETerm) : ℤ :=
  if t.isList then
    match iodata t with
    | some bytes => bytes.length
    | none => -1
  else -1

/-- The bytes of an iolist, `NULL` if one of them is zero. -/
def erlIolistToString (t : ETerm) : Option Bytes :=
  (iodata t).bind fun bytes => if 0 ∈ bytes then none else some bytes

/-- Elements are counted from one. -/
def erlElement (i : ℕ) : ETerm → Option ETerm
  | .tuple elems => if i = 0 then none else elems[i - 1]?
  | _ => none

def erlMkString (s : Bytes) : ETerm :=
  ofList ((cString s).map fun b => .integer (BitVec.ofNat 32 b.toNat))

/-- The Latin-1 spelling of UTF-8 text, none if it has a character beyond. -/
def latin1 : Bytes → Option Bytes
  | [] => some []
  | [b] => if b < 0x80 then some [b] else none
  | b :: c :: rest =>
    if b < 0x80 then (latin1 (c :: rest)).map (b :: ·)
    else if (b = 0xc2 || b = 0xc3) && (0x80 ≤ c && c < 0xc0) then
      (latin1 rest).map ((b <<< 6 ||| c &&& 0x3f) :: ·)
    else none

/-- `ERL_ATOM_PTR` of an atom with a UTF-8 name: its name in Latin-1, `NULL` if it has none. -/
def erlAtomPtr (name : Bytes) : Option Bytes := (latin1 name).map cString

/-- `ERL_ATOM_PTR_UTF8` -/
def erlAtomPtrUtf8 (name : Bytes) : Bytes := cString name

section Lists

theorem erlLength_ofList (ts : List ETerm) : erlLength (ofList ts) = ts.length := by
  induction ts with
  | nil => rfl
  | cons t ts ih =>
    simp only [ofList, erlLength, ih, List.length_cons]
    rw [if_neg (by omega)]
    push_cast
    rfl

/-- Only a proper list has a length. -/
theorem erlLength_of_toList?_none : ∀ {t : ETerm}, t.toList? = none → erlLength t = -1
  | .cons hd tl, h => by
    simp only [ETerm.toList?, Option.map_eq_none_iff] at h
    rw [erlLength, if_pos (by rw [erlLength_of_toList?_none h]; omega)]
  | .integer _, _ | .unsigned _, _ | .longlong _, _ | .ulonglong _, _ | .float _, _ | .atom _, _
  | .tuple _, _ | .binary _, _ | .other _, _ => rfl

end Lists

end Erlm
