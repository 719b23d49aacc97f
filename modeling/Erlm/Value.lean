import Erlm.Double
import Erlm.Lib.Assoc

/-!
# JavaScript values

Values as Duktape keeps them, strings as the bytes of their internal encoding. A value a native
function has just built belongs to nobody else and stands here by value; an object scripts share is
a reference into the `Store`. The prototype of an array is recorded only where a put on
`__proto__` replaced `Array.prototype`.
-/

namespace Erlm

inductive ErrorKind
  | error
  | typeError
  | rangeError
  deriving Repr, DecidableEq

inductive JsVal
  | undefined
  | null
  | boolean (b : Bool)
  | number (d : Double)
  | string (s : Bytes)
  | array (elems : List (Option JsVal)) (named : List (Bytes × JsVal)) (proto : Option JsVal)
  | object (props : List (Bytes × JsVal))
  | function (f : ℕ) (props : List (Bytes × JsVal))
  | enumerator (pending : List (Bytes × JsVal))
  | error (kind : ErrorKind)
  | ref (r : ℕ)
  deriving Repr, Inhabited

abbrev Props := List (Bytes × JsVal)

/-- The properties of the shared objects. -/
abbrev Store := ℕ → Props

/-- The text of an ASCII literal. -/
def ascii (s : List Char) : Bytes := s.map fun c => UInt8.ofNat c.toNat

/-- The decimal spelling of an index, its property key. -/
def decimal (n : ℕ) : Bytes :=
  if n = 0 then [48] else (Nat.digits 10 n).reverse.map fun d => UInt8.ofNat (48 + d)

theorem ofDigits_decimal (n : ℕ) :
    Nat.ofDigits 10 ((decimal n).map fun b => b.toNat - 48).reverse = n := by
  by_cases h : n = 0
  · subst h
    rfl
  · have hdigits : (decimal n).map (fun b => b.toNat - 48) = (Nat.digits 10 n).reverse := by
      rw [decimal, if_neg h, List.map_map]
      refine (List.map_congr_left fun d hd => ?_).trans (List.map_id _)
      have := Nat.digits_lt_base (b := 10) (by norm_num) (List.mem_reverse.1 hd)
      simp only [Function.comp_apply, UInt8.toNat_ofNat', id]
      omega
    rw [hdigits, List.reverse_reverse, Nat.ofDigits_digits]

theorem decimal_injective : Function.Injective decimal := by
  intro m n h
  rw [← ofDigits_decimal m, h, ofDigits_decimal]

/-- The array index a key spells, none for any other key. -/
def arrayIndex? (key : Bytes) : Option ℕ :=
  if key ≠ [] ∧ key.all (fun b => 48 ≤ b && b ≤ 57) ∧ (key.head? ≠ some 48 ∨ key = [48]) then
    let i := key.foldl (fun i b => 10 * i + (b.toNat - 48)) 0
    if i < 2 ^ 32 - 1 then some i else none
  else none

def lengthKey : Bytes := ascii ['l', 'e', 'n', 'g', 't', 'h']

def protoKey : Bytes := ascii ['_', '_', 'p', 'r', 'o', 't', 'o', '_', '_']

namespace JsVal

def isArray : JsVal → Bool
  | array _ _ _ => true
  | _ => false

def isFunction : JsVal → Bool
  | function _ _ => true
  | _ => false

/-- `DUK_TYPE_OBJECT` -/
def isObject : JsVal → Bool
  | array _ _ _ | object _ | function _ _ | enumerator _ | error _ | ref _ => true
  | _ => false

/-- The array `[x₀, x₁, …]`. -/
def ofList (vs : List JsVal) : JsVal := array (vs.map some) [] none

/-- A value's own property. -/
def own (store : Store) (v : JsVal) (key : Bytes) : Option JsVal :=
  match v with
  | array elems named _ =>
    match arrayIndex? key with
    | some i => (elems[i]?).join
    | none =>
      if key = lengthKey then some (number (Double.ofInt elems.length)) else Assoc.get? named key
  | object props => Assoc.get? props key
  | function _ props => Assoc.get? props key
  | ref r => Assoc.get? (store r) key
  | _ => none

/-- A property looked up along the prototypes, `inherited` giving what the built-in ones hold. -/
def lookup (store : Store) (inherited : JsVal → Bytes → JsVal) : JsVal → Bytes → JsVal
  | array elems named (some proto), key =>
    ((array elems named (some proto)).own store key).getD (lookup store inherited proto key)
  | v, key => (v.own store key).getD (inherited v key)

/-- Whether a value or one of its prototypes has a property, `inherits` telling for the built-in
ones. -/
def has (store : Store) (inherits : JsVal → Bytes → Bool) : JsVal → Bytes → Bool
  | array elems named (some proto), key =>
    ((array elems named (some proto)).own store key).isSome || has store inherits proto key
  | v, key => (v.own store key).isSome || inherits v key

/-- The elements present in a list of slots, with their indices. -/
def present (elems : List (Option JsVal)) : List (ℕ × JsVal) :=
  elems.zipIdx.filterMap fun p => p.1.map (p.2, ·)

/-- The index properties of a value, its own first and then those only its prototypes have. -/
def indexed (store : Store) : JsVal → List (ℕ × JsVal)
  | array elems _ none => present elems
  | array elems _ (some proto) =>
    present elems ++ (indexed store proto).filter fun p => (elems[p.1]?).join.isNone
  | object props => props.filterMap fun p => (arrayIndex? p.1).map (·, p.2)
  | function _ props => props.filterMap fun p => (arrayIndex? p.1).map (·, p.2)
  | ref r => (store r).filterMap fun p => (arrayIndex? p.1).map (·, p.2)
  | _ => []

/-- The own enumerable properties of a value. -/
def ownProps (store : Store) : JsVal → Props
  | array elems named _ => (present elems).map (fun p => (decimal p.1, p.2)) ++ named
  | object props => props
  | function _ props => props
  | ref r => store r
  | _ => []

/-- The slots of an array after a put at an index. -/
def putAt (elems : List (Option JsVal)) (i : ℕ) (v : JsVal) : List (Option JsVal) :=
  if i < elems.length then elems.set i (some v)
  else elems ++ List.replicate (i - elems.length) none ++ [some v]

/-- The slots of an array after its length was set. -/
def resize (elems : List (Option JsVal)) (n : ℕ) : List (Option JsVal) :=
  elems.take n ++ List.replicate (n - elems.length) none

/-- Whether a put on `__proto__` meets the accessor of `Object.prototype`. -/
def hasProtoAccessor : Option JsVal → Bool
  | none => true
  | some null => false
  | some (array _ named proto) => (Assoc.get? named protoKey).isNone && hasProtoAccessor proto
  | some (object props) => (Assoc.get? props protoKey).isNone
  | some _ => true

/-- An array after a put of `v` under a string key. Setting an invalid length throws; the accessor
of `__proto__` takes an object or null and ignores anything else. -/
def arrayPut (arrayLength : JsVal → Option ℕ) (elems : List (Option JsVal)) (named : Props)
    (proto : Option JsVal) (key : Bytes) (v : JsVal) : Option JsVal :=
  match arrayIndex? key with
  | some i => some (array (putAt elems i v) named proto)
  | none =>
    if key = lengthKey then (arrayLength v).map fun n => array (resize elems n) named proto
    else if key = protoKey ∧ (Assoc.get? named protoKey).isNone ∧ hasProtoAccessor proto then
      some (array elems named (if v.isObject || v matches null then some v else proto))
    else some (array elems (Assoc.put named key v) proto)

end JsVal

end Erlm
