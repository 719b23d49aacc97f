import Erlm.DukErlang

/-!
# Plain data

The finite values made of undefined, null, booleans, numbers, strings, hole-free arrays and plain
objects, as a tree (`JsData`), with the term each of them is meant to become (`JsData.termOf`) and
the entries of the value stack the conversion takes (`JsData.slots`). For terms, `convert` is the
value each is meant to become, none where the program aborts or Duktape throws, and `slots` the
entries pushing it takes.
-/

namespace Erlm

open ETerm (ofList)

inductive JsData
  | undefined
  | null
  | boolean (b : Bool)
  | number (d : Double)
  | string (s : Bytes)
  | array (elems : List JsData)
  | object (props : List (Bytes × JsData))
  deriving Repr, Inhabited

namespace JsData

/-- Induction over a value: an array from its elements, an object from its properties. -/
@[elab_as_elim, induction_eliminator]
theorem ind {motive : JsData → Prop} (undefined : motive undefined) (null : motive null)
    (boolean : ∀ b, motive (boolean b)) (number : ∀ d, motive (number d))
    (string : ∀ s, motive (string s))
    (array : ∀ elems, (∀ d ∈ elems, motive d) → motive (array elems))
    (object : ∀ props, (∀ p ∈ props, motive p.2) → motive (object props)) (d : JsData) :
    motive d := by
  refine @JsData.rec motive (fun ds => ∀ d ∈ ds, motive d) (fun ps => ∀ p ∈ ps, motive p.2)
    (fun p => motive p.2) undefined null boolean number string array object ?_ ?_ ?_ ?_ ?_ d
  · simp
  · intro d ds hd hds e he
    rcases List.mem_cons.1 he with rfl | he
    · exact hd
    · exact hds e he
  · simp
  · intro p ps hp hps q hq
    rcases List.mem_cons.1 hq with rfl | hq
    · exact hp
    · exact hps q hq
  · exact fun _ _ h => h

mutual

/-- The value in Duktape. -/
def toJs : JsData → JsVal
  | undefined => .undefined
  | null => .null
  | boolean b => .boolean b
  | number d => .number d
  | string s => .string s
  | array elems => .ofList (toJsList elems)
  | object props => .object (toJsProps props)

def toJsList : List JsData → List JsVal
  | [] => []
  | d :: ds => toJs d :: toJsList ds

def toJsProps : List (Bytes × JsData) → Props
  | [] => []
  | (key, d) :: ps => (key, toJs d) :: toJsProps ps

end

mutual

/-- The term of a value. An object's properties come out last first. -/
def termOf : JsData → ETerm
  | undefined => atomOf ['u', 'n', 'd', 'e', 'f', 'i', 'n', 'e', 'd']
  | null => atomOf ['n', 'u', 'l', 'l']
  | boolean true => atomOf ['t', 'r', 'u', 'e']
  | boolean false => atomOf ['f', 'a', 'l', 's', 'e']
  | number d => .float d
  | string s => erlMkString s
  | array elems => ofList (termOfList elems)
  | object props => ofList (termOfProps props).reverse

def termOfList : List JsData → List ETerm
  | [] => []
  | d :: ds => termOf d :: termOfList ds

def termOfProps : List (Bytes × JsData) → List ETerm
  | [] => []
  | (key, d) :: ps => .tuple [erlMkString key, termOf d] :: termOfProps ps

end

mutual

/-- The entries of the value stack `duk_erlang_get_term` takes: an enumerator for each level it is
in, and the key and the value it is at. -/
def slots : JsData → ℕ
  | array elems => 1 + slotsList elems
  | object props => 1 + slotsProps props
  | _ => 0

def slotsList : List JsData → ℕ
  | [] => 0
  | d :: ds => max (2 + slots d) (slotsList ds)

def slotsProps : List (Bytes × JsData) → ℕ
  | [] => 0
  | (_, d) :: ps => max (2 + slots d) (slotsProps ps)

end

mutual

/-- A property of the value and of every value in it. -/
def All (P : JsData → Prop) : JsData → Prop
  | array elems => P (array elems) ∧ AllList P elems
  | object props => P (object props) ∧ AllProps P props
  | d => P d

def AllList (P : JsData → Prop) : List JsData → Prop
  | [] => True
  | d :: ds => All P d ∧ AllList P ds

def AllProps (P : JsData → Prop) : List (Bytes × JsData) → Prop
  | [] => True
  | (_, d) :: ps => All P d ∧ AllProps P ps

end

/-- No array in the value has more elements than an `int` can count. Duktape stops far below that:
no object of it has more than `0x3fffffff` properties. -/
def Small : JsData → Prop := All fun
  | array elems => elems.length < 2 ^ 31
  | _ => True

theorem toJsList_eq (ds : List JsData) : toJsList ds = ds.map toJs := by
  induction ds with
  | nil => rfl
  | cons d ds ih => simp [toJsList, ih]

theorem toJsProps_eq (ps : List (Bytes × JsData)) :
    toJsProps ps = ps.map fun p => (p.1, p.2.toJs) := by
  induction ps with
  | nil => rfl
  | cons p ps ih => simp [toJsProps, ih]

theorem termOfList_eq (ds : List JsData) : termOfList ds = ds.map termOf := by
  induction ds with
  | nil => rfl
  | cons d ds ih => simp [termOfList, ih]

theorem termOfProps_eq (ps : List (Bytes × JsData)) :
    termOfProps ps = ps.map fun p => .tuple [erlMkString p.1, p.2.termOf] := by
  induction ps with
  | nil => rfl
  | cons p ps ih => simp [termOfProps, ih]

theorem slotsList_le {ds : List JsData} {n : ℕ} :
    slotsList ds ≤ n ↔ ∀ d ∈ ds, 2 + d.slots ≤ n := by
  induction ds with
  | nil => simp [slotsList]
  | cons d ds ih => simp [slotsList, ih]

theorem slotsProps_le {ps : List (Bytes × JsData)} {n : ℕ} :
    slotsProps ps ≤ n ↔ ∀ p ∈ ps, 2 + p.2.slots ≤ n := by
  induction ps with
  | nil => simp [slotsProps]
  | cons p ps ih => simp [slotsProps, ih]

theorem allList_iff {P : JsData → Prop} {ds : List JsData} :
    AllList P ds ↔ ∀ d ∈ ds, d.All P := by
  induction ds with
  | nil => simp [AllList]
  | cons d ds ih => simp [AllList, ih]

theorem allProps_iff {P : JsData → Prop} {ps : List (Bytes × JsData)} :
    AllProps P ps ↔ ∀ p ∈ ps, p.2.All P := by
  induction ps with
  | nil => simp [AllProps]
  | cons p ps ih => simp [AllProps, ih]

theorem toJs_array (ds : List JsData) : (array ds).toJs = .ofList (ds.map toJs) :=
  congrArg JsVal.ofList (toJsList_eq ds)

theorem toJs_object (ps : List (Bytes × JsData)) :
    (object ps).toJs = .object (ps.map fun p => (p.1, p.2.toJs)) :=
  congrArg JsVal.object (toJsProps_eq ps)

theorem termOf_array (ds : List JsData) : termOf (array ds) = ofList (ds.map termOf) :=
  congrArg ofList (termOfList_eq ds)

theorem termOf_object (ps : List (Bytes × JsData)) :
    termOf (object ps)
      = ofList (ps.map fun p => .tuple [erlMkString p.1, p.2.termOf]).reverse :=
  congrArg (fun ts => ofList (List.reverse ts)) (termOfProps_eq ps)

theorem all_array {P : JsData → Prop} {ds : List JsData} :
    (array ds).All P ↔ P (array ds) ∧ ∀ d ∈ ds, d.All P :=
  and_congr_right fun _ => allList_iff

theorem all_object {P : JsData → Prop} {ps : List (Bytes × JsData)} :
    (object ps).All P ↔ P (object ps) ∧ ∀ p ∈ ps, p.2.All P :=
  and_congr_right fun _ => allProps_iff

end JsData

section Convert

/-- The terms that can be pushed. -/
inductive Supported : ETerm → Prop
  | integer (i : BitVec 32) : Supported (.integer i)
  | unsigned (u : BitVec 32) : Supported (.unsigned u)
  | float (d : Double) : Supported (.float d)
  | atom (name : Bytes) : Supported (.atom name)
  | tuple {elems : List ETerm} (h : ∀ e ∈ elems, Supported e) : Supported (.tuple elems)
  | binary (bytes : Bytes) : Supported (.binary bytes)
  | nil : Supported .nil
  | cons {hd tl : ETerm} (hhd : Supported hd) (htl : Supported tl) : Supported (.cons hd tl)

/-- What an iolist is pushed as: its text, or null if that has a zero byte. -/
def textOf (t : ETerm) : JsVal :=
  match erlIolistToString t with
  | some s => .string (cString s)
  | none => .null

/-- A put under an atom's name. -/
def putNamed (arrayLength : JsVal → Option ℕ) (array : JsVal) (name : Bytes) (v : JsVal) :
    Option JsVal :=
  match array with
  | .array elems named proto =>
    JsVal.arrayPut arrayLength elems named proto (cString (erlAtomPtrUtf8 name)) v
  | _ => none

variable (arrayLength : JsVal → Option ℕ)

mutual

/-- The value a term becomes, if nothing is in the way. -/
def convert : ETerm → Option JsVal
  | .integer i => some (.number (.ofInt i.toInt))
  | .unsigned u => some (.number (.ofInt u.toInt))
  | .float d => some (.number d)
  | .atom name => some (.string (cString (erlAtomPtrUtf8 name)))
  | .tuple elems => (convertElements elems).map .ofList
  | .binary bytes => some (.string bytes)
  | .nil => some (textOf .nil)
  | .cons hd tl =>
    if erlIolistLength (.cons hd tl) ≥ 0 then some (textOf (.cons hd tl))
    else if dukErlangIsObjectAlike (.cons hd tl) then
      if 0 < erlLength (.cons hd tl) then
        match hd with
        | .tuple [.atom name, value] => do
          let v ← convert value
          let array ← putNamed arrayLength (.ofList []) name v
          convertPairs tl array
        | _ => none
      else some (.ofList [])
    else do
      let v ← convert hd
      let vs ← convertCells tl
      return .ofList (v :: vs)
  | .longlong _ | .ulonglong _ | .other _ => none
termination_by structural t => t

def convertElements : List ETerm → Option (List JsVal)
  | [] => some []
  | elem :: elems => do
    let v ← convert elem
    let vs ← convertElements elems
    return v :: vs
termination_by structural elems => elems

def convertPairs : ETerm → JsVal → Option JsVal
  | .cons (.tuple [.atom name, value]) tl, array => do
    let v ← convert value
    let array ← putNamed arrayLength array name v
    convertPairs tl array
  | _, array => some array
termination_by structural t => t

def convertCells : ETerm → Option (List JsVal)
  | .cons hd tl => do
    let v ← convert hd
    let vs ← convertCells tl
    return v :: vs
  | _ => some []
termination_by structural t => t

end

mutual

/-- The entries of the value stack that pushing a term takes, the one it leaves included. -/
def slots : ETerm → ℕ
  | .tuple elems => 1 + slotsElements elems
  | .cons hd tl =>
    if erlIolistLength (.cons hd tl) ≥ 0 then 1
    else if dukErlangIsObjectAlike (.cons hd tl) then
      match hd with
      | .tuple [.atom _, value] =>
        if 0 < erlLength (.cons hd tl) then 1 + max (slots value) (slotsPairs tl) else 1
      | _ => 1
    else 1 + max (slots hd) (slotsCells tl)
  | _ => 1
termination_by structural t => t

def slotsElements : List ETerm → ℕ
  | [] => 0
  | elem :: elems => max (slots elem) (slotsElements elems)
termination_by structural elems => elems

def slotsPairs : ETerm → ℕ
  | .cons (.tuple [.atom _, value]) tl => max (slots value) (slotsPairs tl)
  | _ => 0
termination_by structural t => t

def slotsCells : ETerm → ℕ
  | .cons hd tl => max (slots hd) (slotsCells tl)
  | _ => 0
termination_by structural t => t

end

theorem isObjectAlikeLoop_succ {n : ℕ} {t : ETerm} (h : isObjectAlikeLoop (n + 1) t = true) :
    ∃ name value tl, t = .cons (.tuple [.atom name, value]) tl
      ∧ isObjectAlikeLoop n tl = true := by
  unfold isObjectAlikeLoop at h
  split at h
  · cases ‹_ + 1 = 0›
  · rename_i heq
    exact ⟨_, _, _, rfl, by cases heq; exact h⟩
  · cases h

variable {arrayLength : JsVal → Option ℕ} {hd tl : ETerm}

/-- The head of a keyword list is a pair. -/
theorem exists_pair_of_alike (halike : dukErlangIsObjectAlike (.cons hd tl) = true)
    (h : 0 < erlLength (.cons hd tl)) : ∃ name value, hd = .tuple [.atom name, value] := by
  obtain ⟨n, hn⟩ := Int.eq_succ_of_zero_lt h
  rw [dukErlangIsObjectAlike, hn] at halike
  obtain ⟨name, value, tl', heq, -⟩ := isObjectAlikeLoop_succ halike
  exact ⟨name, value, (ETerm.cons.inj heq).1⟩

/-- A list becomes its text or what one of the two loops makes of it. An improper list is taken for
an empty keyword list. -/
theorem convert_cons : convert arrayLength (.cons hd tl)
    = if erlIolistLength (.cons hd tl) ≥ 0 then some (textOf (.cons hd tl))
      else if dukErlangIsObjectAlike (.cons hd tl) then
        if 0 < erlLength (.cons hd tl) then convertPairs arrayLength (.cons hd tl) (.ofList [])
        else some (.ofList [])
      else (convertCells arrayLength (.cons hd tl)).map .ofList := by
  rw [convert.eq_def]
  refine if_congr Iff.rfl rfl ?_
  split_ifs with halike hlen
  · obtain ⟨name, value, rfl⟩ := exists_pair_of_alike halike hlen
    rw [convertPairs]
  · rfl
  · rw [convertCells]
    rcases convert arrayLength hd with _ | v
    · rfl
    · rcases convertCells arrayLength tl with _ | vs <;> rfl

theorem slots_cons : slots (.cons hd tl)
    = if erlIolistLength (.cons hd tl) ≥ 0 then 1
      else if dukErlangIsObjectAlike (.cons hd tl) then
        if 0 < erlLength (.cons hd tl) then 1 + slotsPairs (.cons hd tl) else 1
      else 1 + slotsCells (.cons hd tl) := by
  rw [slots.eq_def]
  refine if_congr Iff.rfl rfl ?_
  split_ifs with halike hlen
  · obtain ⟨name, value, rfl⟩ := exists_pair_of_alike halike hlen
    rw [slotsPairs]
  · split <;> rfl
  · rw [slotsCells]

theorem convert_text (hio : erlIolistLength (.cons hd tl) ≥ 0) :
    convert arrayLength (.cons hd tl) = some (textOf (.cons hd tl)) := by
  rw [convert_cons, if_pos hio]

theorem slots_text (hio : erlIolistLength (.cons hd tl) ≥ 0) : slots (.cons hd tl) = 1 := by
  rw [slots_cons, if_pos hio]

theorem convert_pairs (hio : ¬ erlIolistLength (.cons hd tl) ≥ 0)
    (halike : dukErlangIsObjectAlike (.cons hd tl) = true) (h : 0 < erlLength (.cons hd tl)) :
    convert arrayLength (.cons hd tl)
      = convertPairs arrayLength (.cons hd tl) (.ofList []) := by
  rw [convert_cons, if_neg hio, if_pos halike, if_pos h]

theorem slots_pairs (hio : ¬ erlIolistLength (.cons hd tl) ≥ 0)
    (halike : dukErlangIsObjectAlike (.cons hd tl) = true) (h : 0 < erlLength (.cons hd tl)) :
    slots (.cons hd tl) = 1 + slotsPairs (.cons hd tl) := by
  rw [slots_cons, if_neg hio, if_pos halike, if_pos h]

theorem convert_improper (hio : ¬ erlIolistLength (.cons hd tl) ≥ 0)
    (halike : dukErlangIsObjectAlike (.cons hd tl) = true) (h : ¬ 0 < erlLength (.cons hd tl)) :
    convert arrayLength (.cons hd tl) = some (.ofList []) := by
  rw [convert_cons, if_neg hio, if_pos halike, if_neg h]

theorem slots_improper (hio : ¬ erlIolistLength (.cons hd tl) ≥ 0)
    (halike : dukErlangIsObjectAlike (.cons hd tl) = true) (h : ¬ 0 < erlLength (.cons hd tl)) :
    slots (.cons hd tl) = 1 := by
  rw [slots_cons, if_neg hio, if_pos halike, if_neg h]

theorem convert_cells (hio : ¬ erlIolistLength (.cons hd tl) ≥ 0)
    (halike : ¬ dukErlangIsObjectAlike (.cons hd tl) = true) :
    convert arrayLength (.cons hd tl)
      = (convertCells arrayLength (.cons hd tl)).map .ofList := by
  rw [convert_cons, if_neg hio, if_neg halike]

theorem slots_cells (hio : ¬ erlIolistLength (.cons hd tl) ≥ 0)
    (halike : ¬ dukErlangIsObjectAlike (.cons hd tl) = true) :
    slots (.cons hd tl) = 1 + slotsCells (.cons hd tl) := by
  rw [slots_cons, if_neg hio, if_neg halike]

end Convert

end Erlm
