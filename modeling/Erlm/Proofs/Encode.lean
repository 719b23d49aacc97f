import Erlm.Proofs.Get

/-!
# Telling outgoing values apart

A string becomes a list of integers, an object a list of pairs and an array a list of anything but
these two, so the term says which of the three it came from unless it is empty. `recover` reads a
value back from its term (`recover_termOf`): two values with the same term differ only in what was
written where something is empty (`collapse_eq_of_same_term`).
-/

namespace Erlm

open ETerm (ofList)

namespace JsData

/-- No undefined, and no zero byte in a string or a key. -/
def Clean : JsData → Prop := All fun
  | undefined => False
  | string s => 0 ∉ s
  | object props => ∀ p ∈ props, 0 ∉ p.1
  | _ => True

mutual

/-- Every empty string and every empty object replaced by the empty array. -/
def collapse : JsData → JsData
  | string s => if s = [] then array [] else string s
  | array elems => array (collapseList elems)
  | object props => if props = [] then array [] else object (collapseProps props)
  | d => d

def collapseList : List JsData → List JsData
  | [] => []
  | d :: ds => collapse d :: collapseList ds

def collapseProps : List (Bytes × JsData) → List (Bytes × JsData)
  | [] => []
  | (key, d) :: ps => (key, collapse d) :: collapseProps ps

end

theorem collapseList_eq (ds : List JsData) : collapseList ds = ds.map collapse := by
  induction ds with
  | nil => rfl
  | cons d ds ih => rw [collapseList, ih, List.map_cons]

theorem collapseProps_eq (ps : List (Bytes × JsData)) :
    collapseProps ps = ps.map fun p => (p.1, p.2.collapse) := by
  induction ps with
  | nil => rfl
  | cons p ps ih => rw [collapseProps, ih, List.map_cons]

end JsData

open JsData (termOf)

/-- The bytes a list of integers spells. -/
def spelled : ETerm → Bytes
  | .cons (.integer i) tl => UInt8.ofNat i.toNat :: spelled tl
  | _ => []

mutual

/-- The value a term came from, read off its first element where the term is a list. -/
def recover : ETerm → JsData
  | .atom name =>
    if name = ascii ['n', 'u', 'l', 'l'] then .null
    else .boolean (name = ascii ['t', 'r', 'u', 'e'])
  | .float d => .number d
  | .cons (.integer i) tl => .string (UInt8.ofNat i.toNat :: spelled tl)
  | .cons (.tuple [key, value]) tl =>
    .object (recoverProps tl ++ [(spelled key, recover value)])
  | .cons hd tl => .array (recover hd :: recoverElems tl)
  | _ => .array []
termination_by structural t => t

def recoverElems : ETerm → List JsData
  | .cons hd tl => recover hd :: recoverElems tl
  | _ => []
termination_by structural t => t

/-- The properties, which the list has last first. -/
def recoverProps : ETerm → List (Bytes × JsData)
  | .cons (.tuple [key, value]) tl => recoverProps tl ++ [(spelled key, recover value)]
  | _ => []
termination_by structural t => t

end

theorem spelled_erlMkString {s : Bytes} (h : 0 ∉ s) : spelled (erlMkString s) = s := by
  rw [erlMkString, cString_of_notMem h]
  clear h
  induction s with
  | nil => rfl
  | cons b s ih =>
    rw [List.map_cons, ofList, spelled, ih]
    simp

/-- An element of an array is neither a byte nor a pair. -/
theorem recover_cons_termOf (d : JsData) (tl : ETerm) :
    recover (.cons d.termOf tl) = .array (recover d.termOf :: recoverElems tl) := by
  cases d with
  | undefined | null | number d => rfl
  | boolean b => cases b <;> rfl
  | string s =>
    rw [termOf, erlMkString]
    cases (cString s).map _ <;> rfl
  | array ds =>
    rw [JsData.termOf_array]
    cases ds.map JsData.termOf <;> rfl
  | object ps =>
    rw [JsData.termOf_object]
    cases (List.map _ ps).reverse <;> rfl

theorem recoverElems_ofList (ts : List ETerm) : recoverElems (ofList ts) = ts.map recover := by
  induction ts with
  | nil => rfl
  | cons t ts ih => rw [ofList, recoverElems, ih, List.map_cons]

theorem recoverProps_pairs (ps : List (Bytes × JsData)) (hkeys : ∀ p ∈ ps, 0 ∉ p.1) :
    recoverProps (ofList (ps.map fun p => .tuple [erlMkString p.1, p.2.termOf]))
      = (ps.map fun p => (p.1, recover p.2.termOf)).reverse := by
  induction ps with
  | nil => rfl
  | cons p ps ih =>
    rw [List.map_cons, ofList, recoverProps, ih fun q hq => hkeys q (List.mem_cons_of_mem _ hq),
      spelled_erlMkString (hkeys p List.mem_cons_self), List.map_cons, List.reverse_cons]

theorem recover_erlMkString {s : Bytes} (h : 0 ∉ s) (hne : s ≠ []) :
    recover (erlMkString s) = .string s := by
  have hspelled := spelled_erlMkString h
  obtain ⟨b, s', rfl⟩ := List.exists_cons_of_ne_nil hne
  rw [erlMkString, cString_of_notMem h, List.map_cons, ofList] at hspelled ⊢
  rw [recover, ← spelled, hspelled]

theorem recover_pairs {ps : List (Bytes × JsData)} (hkeys : ∀ p ∈ ps, 0 ∉ p.1) (hne : ps ≠ []) :
    recover (JsData.object ps).termOf = .object (ps.map fun p => (p.1, recover p.2.termOf)) := by
  have hprops := recoverProps_pairs ps.reverse (by simpa using hkeys)
  obtain ⟨p, qs, hp⟩ := List.exists_cons_of_ne_nil (List.reverse_ne_nil_iff.2 hne)
  rw [← List.map_reverse, List.reverse_reverse, hp, List.map_cons, ofList] at hprops
  rw [JsData.termOf_object, ← List.map_reverse, hp, List.map_cons, ofList, recover,
    ← recoverProps, hprops]

theorem recover_termOf {d : JsData} (h : d.Clean) : recover d.termOf = d.collapse := by
  induction d with
  | undefined => exact absurd h id
  | null | number d => rfl
  | boolean b => cases b <;> rfl
  | string s =>
    rw [JsData.collapse]
    split_ifs with hs
    · rw [hs]
      rfl
    · exact recover_erlMkString h hs
  | array ds ih =>
    have hds := (JsData.all_array.1 h).2
    rw [JsData.collapse, JsData.collapseList_eq,
      ← List.map_congr_left fun e he => ih e he (hds e he)]
    cases ds with
    | nil => rfl
    | cons e es =>
      rw [JsData.termOf_array, List.map_cons, ofList, recover_cons_termOf, recoverElems_ofList,
        List.map_map]
      rfl
  | object ps ih =>
    obtain ⟨hkeys, hps⟩ := JsData.all_object.1 h
    rw [JsData.collapse]
    split_ifs with hnil
    · rw [hnil]
      rfl
    · rw [recover_pairs hkeys hnil, JsData.collapseProps_eq,
        List.map_congr_left fun p hp => by rw [ih p hp (hps p hp)]]

/-- Two values that come out as the same term are equal up to what is empty in them. -/
theorem collapse_eq_of_same_term {ω : Type} {d d' : JsData} {c c' x x' : Ctx ω}
    {st st' : List JsVal} {idx idx' : ℤ} {t : ETerm} (hsmall : d.Small) (hsmall' : d'.Small)
    (hclean : d.Clean) (hclean' : d'.Clean)
    (hv : (c.withStack st).get idx = d.toJs) (hv' : (c'.withStack st').get idx' = d'.toJs)
    (hle : st.length ≤ c.reserve) (hle' : st'.length ≤ c'.reserve)
    (h : dukErlangGetTerm idx (c.withStack st) = .ok t x)
    (h' : dukErlangGetTerm idx' (c'.withStack st') = .ok t x') : d.collapse = d'.collapse := by
  have ht := eq_termOf_of_dukErlangGetTerm hsmall hv hle h
  have ht' := eq_termOf_of_dukErlangGetTerm hsmall' hv' hle' h'
  rw [← recover_termOf hclean, ← recover_termOf hclean', ← ht, ← ht']

/-- `["", null]` and `[[], null]` come out as the same term. -/
theorem collapse_empty :
    (JsData.array [.string [], .null]).collapse = (JsData.array [.array [], .null]).collapse := by
  have hsmall : (JsData.array [.string [], .null]).Small := by
    simp [JsData.Small, JsData.All, JsData.AllList]
  have hsmall' : (JsData.array [.array [], .null]).Small := by
    simp [JsData.Small, JsData.All, JsData.AllList]
  have hclean : (JsData.array [.string [], .null]).Clean := by
    simp [JsData.Clean, JsData.All, JsData.AllList]
  have hclean' : (JsData.array [.array [], .null]).Clean := by
    simp [JsData.Clean, JsData.All, JsData.AllList]
  have h : dukErlangGetTerm (-1)
      ((Ctx.bare 8 ()).withStack [(JsData.array [.string [], .null]).toJs])
        = .ok (termOf (.array [.string [], .null]))
          ((Ctx.bare 8 ()).withStack [(JsData.array [.string [], .null]).toJs]) := rfl
  have h' : dukErlangGetTerm (-1)
      ((Ctx.bare 8 ()).withStack [(JsData.array [.array [], .null]).toJs])
        = .ok (termOf (.array [.string [], .null]))
          ((Ctx.bare 8 ()).withStack [(JsData.array [.array [], .null]).toJs]) := rfl
  exact collapse_eq_of_same_term hsmall hsmall' hclean hclean' rfl rfl (by decide) (by decide) h h'

end Erlm
