import Erlm.Proofs.RoundTrip

/-!
# Values sent back and forth

A value that is sent out and comes back over and over changes at most twice: the first trip makes
text of what has no term of its own and nested arrays of objects (`JsData.returned`), the second
joins each array without a number in it into one string, and from then on the value stays what it is
(`echo_settles`).
-/

namespace Erlm

open ETerm (ofList)
open JsData (termOf)

namespace JsData

mutual

def hasNumber : JsData → Bool
  | number _ => true
  | array elems => hasNumberList elems
  | object props => hasNumberProps props
  | _ => false

def hasNumberList : List JsData → Bool
  | [] => false
  | d :: ds => hasNumber d || hasNumberList ds

def hasNumberProps : List (Bytes × JsData) → Bool
  | [] => false
  | (_, d) :: ps => hasNumber d || hasNumberProps ps

end

mutual

/-- The text in a value, in the order it has in its term. -/
def text : JsData → Bytes
  | undefined => ascii ['u', 'n', 'd', 'e', 'f', 'i', 'n', 'e', 'd']
  | null => ascii ['n', 'u', 'l', 'l']
  | boolean true => ascii ['t', 'r', 'u', 'e']
  | boolean false => ascii ['f', 'a', 'l', 's', 'e']
  | number _ => []
  | string s => cString s
  | array elems => textList elems
  | object props => textProps props

def textList : List JsData → Bytes
  | [] => []
  | d :: ds => text d ++ textList ds

def textProps : List (Bytes × JsData) → Bytes
  | [] => []
  | (key, d) :: ps => textProps ps ++ (cString key ++ text d)

end

mutual

/-- What a value is once it stays the same: its text, or an array if there is a number in it. -/
def settled : JsData → JsData
  | number d => number d
  | array elems =>
    if hasNumberList elems then array (settledList elems) else string (textList elems)
  | object props =>
    if hasNumberProps props then array (settledProps props).reverse else string (textProps props)
  | d => string d.text

def settledList : List JsData → List JsData
  | [] => []
  | d :: ds => settled d :: settledList ds

def settledProps : List (Bytes × JsData) → List JsData
  | [] => []
  | (key, d) :: ps =>
    (if hasNumber d then array [string (cString key), settled d]
      else string (cString key ++ text d)) :: settledProps ps

end

mutual

/-- What comes back of a value. -/
def returned : JsData → JsData
  | number d => number d
  | array elems =>
    match iodata (ofList (termOfList elems)) with
    | some s => string s
    | none => array (returnedList elems)
  | object props => if props = [] then string [] else array (returnedProps props).reverse
  | d => string d.text

def returnedList : List JsData → List JsData
  | [] => []
  | d :: ds => returned d :: returnedList ds

def returnedProps : List (Bytes × JsData) → List JsData
  | [] => []
  | (key, d) :: ps => array [string (cString key), returned d] :: returnedProps ps

end

variable {ds : List JsData} {ps : List (Bytes × JsData)}

theorem hasNumberList_eq (ds : List JsData) : hasNumberList ds = (ds.map hasNumber).any id := by
  induction ds with
  | nil => rfl
  | cons d ds ih => rw [hasNumberList, ih, List.map_cons, List.any_cons, id]

theorem hasNumberProps_eq (ps : List (Bytes × JsData)) :
    hasNumberProps ps = (ps.map fun p => p.2.hasNumber).any id := by
  induction ps with
  | nil => rfl
  | cons p ps ih => rw [hasNumberProps, ih, List.map_cons, List.any_cons, id]

theorem textList_eq (ds : List JsData) : textList ds = (ds.map text).flatten := by
  induction ds with
  | nil => rfl
  | cons d ds ih => rw [textList, ih, List.map_cons, List.flatten_cons]

theorem textProps_eq (ps : List (Bytes × JsData)) :
    textProps ps = (ps.map fun p => cString p.1 ++ p.2.text).reverse.flatten := by
  induction ps with
  | nil => rfl
  | cons p ps ih =>
    rw [textProps, ih, List.map_cons, List.reverse_cons, List.flatten_concat]

theorem settledList_eq (ds : List JsData) : settledList ds = ds.map settled := by
  induction ds with
  | nil => rfl
  | cons d ds ih => rw [settledList, ih, List.map_cons]

/-- What a property settles as. -/
def settledPair (p : Bytes × JsData) : JsData :=
  if p.2.hasNumber then array [string (cString p.1), p.2.settled]
  else string (cString p.1 ++ p.2.text)

theorem settledProps_eq (ps : List (Bytes × JsData)) : settledProps ps = ps.map settledPair := by
  induction ps with
  | nil => rfl
  | cons p ps ih =>
    rw [settledProps, ih, List.map_cons]
    rfl

theorem returnedList_eq (ds : List JsData) : returnedList ds = ds.map returned := by
  induction ds with
  | nil => rfl
  | cons d ds ih => rw [returnedList, ih, List.map_cons]

/-- What comes back of a property. -/
def returnedPair (p : Bytes × JsData) : JsData := array [string (cString p.1), p.2.returned]

theorem returnedProps_eq (ps : List (Bytes × JsData)) :
    returnedProps ps = ps.map returnedPair := by
  induction ps with
  | nil => rfl
  | cons p ps ih =>
    rw [returnedProps, ih, List.map_cons]
    rfl

theorem hasNumber_array (ds : List JsData) : (array ds).hasNumber = (ds.map hasNumber).any id :=
  hasNumberList_eq ds

theorem hasNumber_object (ps : List (Bytes × JsData)) :
    (object ps).hasNumber = (ps.map fun p => p.2.hasNumber).any id :=
  hasNumberProps_eq ps

theorem text_array (ds : List JsData) : (array ds).text = (ds.map text).flatten :=
  textList_eq ds

theorem text_object (ps : List (Bytes × JsData)) :
    (object ps).text = (ps.map fun p => cString p.1 ++ p.2.text).reverse.flatten :=
  textProps_eq ps

theorem settled_array (ds : List JsData) : (array ds).settled
    = if (array ds).hasNumber then array (ds.map settled) else string (array ds).text := by
  rw [← settledList_eq]
  rfl

theorem settled_object (ps : List (Bytes × JsData)) : (object ps).settled
    = if (object ps).hasNumber then array (ps.map settledPair).reverse
      else string (object ps).text := by
  rw [← settledProps_eq]
  rfl

theorem returned_array (ds : List JsData) : (array ds).returned
    = (iodata (termOf (array ds))).elim (array (ds.map returned)) string := by
  rw [← returnedList_eq, returned, termOf]
  cases iodata (ofList (termOfList ds)) <;> rfl

theorem returned_object (ps : List (Bytes × JsData)) : (object ps).returned
    = if ps = [] then string [] else array (ps.map returnedPair).reverse := by
  rw [← returnedProps_eq]
  rfl

theorem zero_notMem_text (d : JsData) : 0 ∉ d.text := by
  induction d with
  | undefined | null => decide
  | boolean b => cases b <;> decide
  | number d => exact List.not_mem_nil
  | string s => exact zero_notMem_cString s
  | array ds ih =>
    rw [text_array, List.mem_flatten]
    rintro ⟨s, hs, hmem⟩
    obtain ⟨d, hd, rfl⟩ := List.mem_map.1 hs
    exact ih d hd hmem
  | object ps ih =>
    rw [text_object, List.mem_flatten]
    rintro ⟨s, hs, hmem⟩
    obtain ⟨p, hp, rfl⟩ := List.mem_map.1 (List.mem_reverse.1 hs)
    rcases List.mem_append.1 hmem with hkey | hvalue
    · exact zero_notMem_cString p.1 hkey
    · exact ih p hp hvalue

end JsData

section Text

/-- What is pushed as text has no number in it, and is pushed as its text. -/
def TextOnly (d : JsData) : Prop :=
  ∀ s, iodata (termOf d) = some s → d.hasNumber = false ∧ d.text = s

theorem textOnly_list : ∀ {ds : List JsData} {s : Bytes}, (∀ d ∈ ds, TextOnly d) →
    iodata (ofList (ds.map termOf)) = some s →
      (JsData.array ds).hasNumber = false ∧ (JsData.array ds).text = s
  | [], s, _, hs => ⟨rfl, Option.some.inj hs⟩
  | d :: ds, s, h, hs => by
    rw [List.map_cons, iodata_ofList_cons] at hs
    obtain ⟨a, ha, hs⟩ := Option.bind_eq_some_iff.1 hs
    obtain ⟨b, hb, rfl⟩ := Option.map_eq_some_iff.1 hs
    obtain ⟨hd, hds⟩ := List.forall_mem_cons.1 h
    obtain ⟨hnumber, rfl⟩ := hd a ha
    obtain ⟨hnumbers, rfl⟩ := textOnly_list hds hb
    rw [JsData.hasNumber_array] at hnumbers ⊢
    rw [List.map_cons, List.any_cons, hnumber, hnumbers]
    exact ⟨rfl, rfl⟩

/-- A pair is not text. -/
theorem iodata_pairs {p : Bytes × JsData} (ps : List (Bytes × JsData)) :
    ¬ (iodata (termOf (.object (p :: ps)))).isSome = true := by
  rw [JsData.termOf_object, List.map_cons, iodata_ofList_isSome]
  intro h
  have := h _ (List.mem_reverse.2 List.mem_cons_self)
  cases this

theorem textOnly (d : JsData) : TextOnly d := by
  induction d with
  | undefined | null | number => exact fun s h => by cases h
  | boolean b => exact fun s h => by cases b <;> cases h
  | string s' =>
    intro s h
    rw [termOf, iodata_erlMkString] at h
    exact ⟨rfl, Option.some.inj h⟩
  | array ds ih =>
    intro s h
    rw [JsData.termOf_array] at h
    exact textOnly_list ih h
  | object ps ih =>
    intro s h
    cases ps with
    | nil => exact ⟨rfl, Option.some.inj h⟩
    | cons p ps => exact absurd (Option.isSome_of_eq_some h) (iodata_pairs ps)

end Text

section Trip

variable {len : JsVal → Option ℕ}

/-- A key is a string, so no pair of an object is one of a keyword list. -/
theorem exists_ne_pair (p : Bytes × JsData) (ps : List (Bytes × JsData)) :
    ∃ t ∈ ((p :: ps).map fun p => ETerm.tuple [erlMkString p.1, termOf p.2]).reverse,
      ∀ name value, t ≠ .tuple [.atom name, value] := by
  refine ⟨.tuple [erlMkString p.1, termOf p.2], by simp, fun name value heq => ?_⟩
  simp only [ETerm.tuple.injEq, List.cons.injEq] at heq
  have hlist := congrArg ETerm.isList heq.1
  rw [erlMkString, ETerm.isList_ofList] at hlist
  cases hlist

theorem exists_ne_pair_of_array {ds : List JsData} (h : iodata (ofList (ds.map termOf)) = none) :
    ∃ t ∈ ds.map termOf, ∀ name value, t ≠ .tuple [.atom name, value] := by
  cases ds with
  | nil => cases h
  | cons d ds => exact ⟨termOf d, List.mem_cons_self, fun _ _ => termOf_ne_tuple d _⟩

theorem convert_erlMkString (s : Bytes) :
    convert len (erlMkString s) = some (.string (cString s)) := by
  rw [← textOf_erlMkString]
  exact convert_of_iodata (Option.isSome_of_eq_some (iodata_erlMkString s))

/-- The term of any value is pushed as what comes back of it. -/
theorem convert_returned (d : JsData) : convert len (termOf d) = some d.returned.toJs := by
  induction d with
  | undefined | null | number => rfl
  | boolean b => cases b <;> rfl
  | string s => exact convert_erlMkString s
  | array ds ih =>
    rw [JsData.returned_array, JsData.termOf_array]
    rcases hio : iodata (ofList (ds.map termOf)) with _ | s
    · rw [convert_ofList (by rw [hio]; exact Bool.false_ne_true) (exists_ne_pair_of_array hio),
        Option.elim_none, JsData.toJs_array, List.map_map]
      exact convertElements_map.2 ih
    · have htext := (textOnly (.array ds) s (by rw [JsData.termOf_array, hio])).2
      rw [convert_of_iodata (Option.isSome_of_eq_some hio), textOf_eq hio,
        if_neg (htext ▸ JsData.zero_notMem_text _)]
      rfl
  | object ps ih =>
    cases ps with
    | nil => rfl
    | cons p ps =>
      have hio := @iodata_pairs p ps
      rw [JsData.termOf_object] at hio ⊢
      rw [convert_ofList hio (exists_ne_pair p ps), JsData.returned_object,
        if_neg (List.cons_ne_nil _ _), JsData.toJs_array, ← List.map_reverse, ← List.map_reverse,
        List.map_map]
      refine convertElements_map.2 fun q hq => ?_
      rw [convert, convertElements, convertElements, convertElements, convert_erlMkString,
        ih q (List.mem_reverse.1 hq)]
      rfl

/-- What comes back the first time: no array of it is empty, and no string has a zero byte. -/
def JsData.Printed : JsData → Prop := JsData.All fun
  | .number _ => True
  | .string s => 0 ∉ s
  | .array ds => ds ≠ []
  | _ => False

theorem printed_text (d : JsData) : (JsData.string d.text).Printed := JsData.zero_notMem_text d

theorem printed_returned (d : JsData) : d.returned.Printed := by
  induction d with
  | undefined => exact printed_text .undefined
  | null => exact printed_text .null
  | boolean b => exact printed_text (.boolean b)
  | number => trivial
  | string s => exact printed_text (.string s)
  | array ds ih =>
    rw [JsData.returned_array]
    rcases hio : iodata (termOf (.array ds)) with _ | s
    · refine JsData.all_array.2 ⟨?_, List.forall_mem_map.2 ih⟩
      intro hnil
      rw [List.map_eq_nil_iff.1 hnil] at hio
      cases hio
    · rw [← (textOnly (.array ds) s hio).2]
      exact printed_text (.array ds)
  | object ps ih =>
    rw [JsData.returned_object]
    split_ifs with hnil
    · exact printed_text (.string [])
    · refine JsData.all_array.2 ⟨?_, ?_⟩
      · simpa using hnil
      · simp only [List.mem_reverse, List.forall_mem_map]
        intro p hp
        refine JsData.all_array.2 ⟨List.cons_ne_nil _ _, ?_⟩
        simp only [List.mem_cons, List.not_mem_nil, or_false]
        rintro d (rfl | rfl)
        · exact zero_notMem_cString p.1
        · exact ih p hp

end Trip

section Settle

/-- Of what came back once, exactly what has no number in it is pushed as text. -/
theorem iodata_printed {d : JsData} (h : d.Printed) :
    iodata (termOf d) = if d.hasNumber then none else some d.text := by
  have hsome : (iodata (termOf d)).isSome = true ↔ d.hasNumber = false := by
    induction d with
    | undefined | null | boolean | object => simp [JsData.Printed, JsData.All] at h
    | number d => exact iff_of_false Bool.false_ne_true Bool.noConfusion
    | string s => exact iff_of_true (by rw [termOf, iodata_erlMkString]; rfl) rfl
    | array ds ih =>
      have hds := (JsData.all_array.1 h).2
      rw [JsData.termOf_array, iodata_ofList_isSome, List.forall_mem_map,
        JsData.hasNumber_array, List.any_eq_false, List.forall_mem_map]
      refine forall₂_congr fun d hd => ?_
      rw [ih d hd (hds d hd), id, Bool.not_eq_true]
  split_ifs with hnumber
  · rw [hnumber] at hsome
    exact Option.not_isSome_iff_eq_none.1 fun hio => Bool.noConfusion (hsome.1 hio)
  · obtain ⟨s, hs⟩ := Option.isSome_iff_exists.1 (hsome.2 (Bool.not_eq_true _ ▸ hnumber))
    rw [hs, (textOnly d s hs).2]

theorem returned_of_printed {d : JsData} (h : d.Printed) : d.returned = d.settled := by
  induction d with
  | undefined | null | boolean | object => simp [JsData.Printed, JsData.All] at h
  | number d => rfl
  | string s => rfl
  | array ds ih =>
    have hds := (JsData.all_array.1 h).2
    rw [JsData.returned_array, JsData.settled_array, iodata_printed h]
    split_ifs
    · rw [Option.elim_none, List.map_congr_left fun d hd => ih d hd (hds d hd)]
    · rfl

theorem cString_cString (s : Bytes) : cString (cString s) = cString s :=
  cString_of_notMem (zero_notMem_cString s)

theorem text_returnedPair {p : Bytes × JsData}
    (h : p.2.returned.hasNumber = p.2.hasNumber ∧ p.2.returned.text = p.2.text) :
    (JsData.returnedPair p).hasNumber = p.2.hasNumber
      ∧ (JsData.returnedPair p).text = cString p.1 ++ p.2.text := by
  constructor
  · rw [JsData.returnedPair, JsData.hasNumber_array]
    exact (Bool.or_false _).trans h.1
  · rw [JsData.returnedPair, JsData.text_array, List.map_cons, List.map_singleton, h.2,
      List.flatten_cons, List.flatten_singleton]
    exact congrArg (· ++ p.2.text) (cString_cString p.1)

/-- A trip keeps the text of a value and whether there is a number in it. -/
theorem text_returned (d : JsData) :
    d.returned.hasNumber = d.hasNumber ∧ d.returned.text = d.text := by
  induction d with
  | undefined | null | number => exact ⟨rfl, rfl⟩
  | boolean b => cases b <;> exact ⟨rfl, rfl⟩
  | string s => exact ⟨rfl, cString_cString s⟩
  | array ds ih =>
    rw [JsData.returned_array]
    rcases hio : iodata (termOf (.array ds)) with _ | s
    · simp only [Option.elim_none, JsData.hasNumber_array, JsData.text_array, List.map_map]
      exact ⟨congrArg (List.any · id) (List.map_congr_left fun d hd => (ih d hd).1),
        congrArg List.flatten (List.map_congr_left fun d hd => (ih d hd).2)⟩
    · obtain ⟨hnumber, rfl⟩ := textOnly (.array ds) s hio
      exact ⟨hnumber.symm, cString_of_notMem (JsData.zero_notMem_text _)⟩
  | object ps ih =>
    rw [JsData.returned_object]
    split_ifs with hnil
    · rw [hnil]
      exact ⟨rfl, rfl⟩
    · simp only [JsData.hasNumber_array, JsData.hasNumber_object, JsData.text_array,
        JsData.text_object, List.map_reverse, List.any_reverse, List.map_map]
      exact ⟨congrArg (List.any · id)
          (List.map_congr_left fun p hp => (text_returnedPair (ih p hp)).1),
        congrArg (fun ss => (List.reverse ss).flatten)
          (List.map_congr_left fun p hp => (text_returnedPair (ih p hp)).2)⟩

theorem settled_of_not_hasNumber {d : JsData} (h : d.hasNumber = false) :
    d.settled = .string d.text := by
  cases d with
  | undefined | null | string => rfl
  | boolean b => cases b <;> rfl
  | number => cases h
  | array ds =>
    rw [JsData.settled_array, h]
    rfl
  | object ps =>
    rw [JsData.settled_object, h]
    rfl

theorem settled_returnedPair {p : Bytes × JsData} (h : p.2.returned.settled = p.2.settled) :
    (JsData.returnedPair p).settled = JsData.settledPair p := by
  have hpair := text_returnedPair (text_returned p.2)
  unfold JsData.settledPair
  split_ifs with hnumber
  · have hkey : (JsData.string (cString p.1)).settled = .string (cString p.1) :=
      congrArg JsData.string (cString_cString p.1)
    have hall := hpair.1.trans hnumber
    rw [JsData.returnedPair] at hall ⊢
    rw [JsData.settled_array, if_pos hall, List.map_cons, List.map_singleton, hkey, h]
  · rw [Bool.not_eq_true] at hnumber
    rw [settled_of_not_hasNumber (hpair.1.trans hnumber), hpair.2]

theorem settled_returned_of_not_hasNumber {d : JsData} (h : ¬ d.hasNumber = true) :
    d.returned.settled = d.settled := by
  obtain ⟨hnumber, htext⟩ := text_returned d
  rw [Bool.not_eq_true] at h
  rw [settled_of_not_hasNumber h, settled_of_not_hasNumber (hnumber.trans h), htext]

/-- What came back of a value settles as the value does. -/
theorem settled_returned (d : JsData) : d.returned.settled = d.settled := by
  induction d with
  | undefined | null | number => rfl
  | boolean b => cases b <;> rfl
  | string s => exact congrArg JsData.string (cString_cString s)
  | array ds ih =>
    by_cases h : (JsData.array ds).hasNumber = true
    · have hio : iodata (termOf (.array ds)) = none := by
        by_contra hio
        obtain ⟨s, hs⟩ := Option.ne_none_iff_exists'.1 hio
        exact Bool.noConfusion (h.symm.trans (textOnly (.array ds) s hs).1)
      have hreturned : (JsData.array ds).returned = .array (ds.map JsData.returned) := by
        rw [JsData.returned_array, hio, Option.elim_none]
      have hnumber := (text_returned (.array ds)).1.trans h
      rw [hreturned] at hnumber ⊢
      rw [JsData.settled_array, if_pos hnumber, JsData.settled_array, if_pos h, List.map_map]
      exact congrArg JsData.array (List.map_congr_left ih)
    · exact settled_returned_of_not_hasNumber h
  | object ps ih =>
    by_cases h : (JsData.object ps).hasNumber = true
    · have hne : ps ≠ [] := by
        rintro rfl
        cases h
      have hreturned : (JsData.object ps).returned
          = .array (ps.map JsData.returnedPair).reverse := by
        rw [JsData.returned_object, if_neg hne]
      have hnumber := (text_returned (.object ps)).1.trans h
      rw [hreturned] at hnumber ⊢
      rw [JsData.settled_array, if_pos hnumber, JsData.settled_object, if_pos h,
        List.map_reverse, List.map_map]
      exact congrArg (fun ds => JsData.array (List.reverse ds))
        (List.map_congr_left fun p hp => settled_returnedPair (ih p hp))
    · exact settled_returned_of_not_hasNumber h

theorem returned_returned (d : JsData) : d.returned.returned = d.settled :=
  (returned_of_printed (printed_returned d)).trans (settled_returned d)

theorem returned_settled (d : JsData) : d.settled.returned = d.settled := by
  rw [← returned_returned d, returned_returned, settled_returned, returned_returned]

end Settle

section Sizes

namespace JsData

/-- No array and no object in the value has more entries than an `int` can count. -/
def Sized : JsData → Prop := All fun
  | array elems => elems.length < 2 ^ 31
  | object props => props.length < 2 ^ 31
  | _ => True

theorem Sized.small {d : JsData} (h : d.Sized) : d.Small := by
  induction d with
  | undefined | null | boolean | number | string => trivial
  | array ds ih =>
    obtain ⟨hlen, hds⟩ := all_array.1 h
    exact all_array.2 ⟨hlen, fun d hd => ih d hd (hds d hd)⟩
  | object ps ih => exact all_object.2 ⟨trivial, fun p hp => ih p hp ((all_object.1 h).2 p hp)⟩

theorem Sized.returned {d : JsData} (h : d.Sized) : d.returned.Sized := by
  induction d with
  | undefined | null | boolean | number | string => trivial
  | array ds ih =>
    obtain ⟨hlen, hds⟩ := all_array.1 h
    rw [returned_array]
    rcases iodata (termOf (array ds)) with _ | s
    · refine all_array.2 ⟨?_, List.forall_mem_map.2 fun d hd => ih d hd (hds d hd)⟩
      show (ds.map JsData.returned).length < 2 ^ 31
      rwa [List.length_map]
    · trivial
  | object ps ih =>
    obtain ⟨hlen, hps⟩ := all_object.1 h
    rw [returned_object]
    split_ifs
    · trivial
    · refine all_array.2 ⟨?_, ?_⟩
      · show (ps.map returnedPair).reverse.length < 2 ^ 31
        rwa [List.length_reverse, List.length_map]
      · simp only [List.mem_reverse, List.forall_mem_map]
        intro p hp
        refine all_array.2 ⟨show 2 < 2 ^ 31 by decide, ?_⟩
        simp only [List.mem_cons, List.not_mem_nil, or_false]
        rintro d (rfl | rfl)
        · trivial
        · exact ih p hp (hps p hp)

/-- A trip at most doubles the entries a value takes, as a property becomes an array. -/
theorem slots_returned_le (d : JsData) : d.returned.slots ≤ 2 * d.slots := by
  induction d with
  | undefined | null | boolean | number | string => exact Nat.zero_le _
  | array ds ih =>
    obtain ⟨hone, hds⟩ := (@slots_array_le ds 0 _).1 (Nat.zero_add _).le
    rw [returned_array]
    rcases iodata (termOf (array ds)) with _ | s
    · rw [Option.elim_none, ← Nat.zero_add (slots _), slots_array_le, List.forall_mem_map]
      refine ⟨by omega, fun d hd => ?_⟩
      have hle := hds d hd
      have hd := ih d hd
      omega
    · exact Nat.zero_le _
  | object ps ih =>
    obtain ⟨hone, hps⟩ := (@slots_object_le ps 0 _).1 (Nat.zero_add _).le
    rw [returned_object]
    split_ifs
    · exact Nat.zero_le _
    · rw [← Nat.zero_add (slots _), slots_array_le]
      simp only [List.mem_reverse, List.forall_mem_map]
      refine ⟨by omega, fun p hp => ?_⟩
      have hle := hps p hp
      have hp := ih p hp
      rw [returnedPair, slots_array_le]
      simp only [List.mem_cons, List.not_mem_nil, or_false]
      refine ⟨by omega, ?_⟩
      rintro d (rfl | rfl)
      · show 0 + 3 + 3 + 0 ≤ _
        omega
      · omega

/-- What came back once takes no more entries another time. -/
theorem Printed.slots_returned_le {d : JsData} (h : d.Printed) : d.returned.slots ≤ d.slots := by
  induction d with
  | undefined | null | boolean | object => simp [Printed, All] at h
  | number | string => exact Nat.zero_le _
  | array ds ih =>
    have hall := (all_array.1 h).2
    obtain ⟨hone, hds⟩ := (@slots_array_le ds 0 _).1 (Nat.zero_add _).le
    rw [returned_array]
    rcases iodata (termOf (array ds)) with _ | s
    · rw [Option.elim_none, ← Nat.zero_add (slots _), slots_array_le, List.forall_mem_map]
      refine ⟨hone, fun d hd => ?_⟩
      have hle := hds d hd
      have hd := ih d hd (hall d hd)
      omega
    · exact Nat.zero_le _

end JsData

theorem slotsCells_le {ts : List ETerm} {n : ℕ} (h : ∀ t ∈ ts, slots t ≤ n) :
    slotsCells (ofList ts) ≤ n := by
  induction ts with
  | nil => exact Nat.zero_le _
  | cons t ts ih =>
    obtain ⟨ht, hts⟩ := List.forall_mem_cons.1 h
    rw [ofList, slotsCells]
    exact max_le ht (ih hts)

/-- A list that is no keyword list takes one entry more than its elements. -/
theorem slots_ofList_le {ts : List ETerm} {n : ℕ}
    (halike : ∃ t ∈ ts, ∀ name value, t ≠ .tuple [.atom name, value])
    (h : ∀ t ∈ ts, slots t ≤ n) : slots (ofList ts) ≤ 1 + n := by
  obtain ⟨t, ht, hne⟩ := halike
  cases ts with
  | nil => exact absurd ht List.not_mem_nil
  | cons u us =>
    have hcells := slotsCells_le h
    rw [ofList] at hcells ⊢
    by_cases hio : erlIolistLength (.cons u (ofList us)) ≥ 0
    · rw [slots_text hio]
      exact Nat.le_add_right 1 n
    · have halike : ¬ dukErlangIsObjectAlike (.cons u (ofList us)) = true := by
        intro h
        obtain ⟨name, value, rfl⟩ := (@isObjectAlike_ofList (u :: us)).1 h t ht
        exact hne name value rfl
      rw [slots_cells hio halike]
      omega

theorem slots_erlMkString (s : Bytes) : slots (erlMkString s) = 1 := by
  have hio := iodata_erlMkString s
  rw [erlMkString] at hio ⊢
  generalize cString s = s' at hio ⊢
  cases s' with
  | nil => rfl
  | cons b s' =>
    rw [List.map_cons, ofList] at hio ⊢
    exact slots_text ((erlIolistLength_nonneg rfl).2 (Option.isSome_of_eq_some hio))

/-- Pushing the term of a value takes one entry more than reading the value. -/
theorem slots_termOf_le (d : JsData) : slots (termOf d) ≤ 1 + d.slots := by
  induction d with
  | undefined | null | number => exact Nat.le_add_right 1 _
  | boolean b => cases b <;> exact Nat.le_add_right 1 _
  | string s => exact (slots_erlMkString s).le.trans (Nat.le_add_right 1 _)
  | array ds ih =>
    obtain ⟨hone, hds⟩ := (@slots_array_le ds 0 _).1 (Nat.zero_add _).le
    rw [JsData.termOf_array]
    cases ds with
    | nil => exact Nat.le_add_right 1 _
    | cons d ds =>
      refine slots_ofList_le ⟨termOf d, List.mem_cons_self, fun _ _ => termOf_ne_tuple d _⟩ ?_
      rw [List.forall_mem_map]
      intro e he
      have hle := hds e he
      have he := ih e he
      omega
  | object ps ih =>
    obtain ⟨hone, hps⟩ := (@slots_object_le ps 0 _).1 (Nat.zero_add _).le
    rw [JsData.termOf_object]
    cases ps with
    | nil => exact Nat.le_add_right 1 _
    | cons p ps =>
      refine slots_ofList_le (exists_ne_pair p ps) ?_
      simp only [List.mem_reverse, List.forall_mem_map]
      intro q hq
      have hle := hps q hq
      have hq := ih q hq
      rw [slots, slotsElements, slotsElements, slotsElements, slots_erlMkString]
      omega

end Sizes

section Echo

variable {ω : Type}

/-- The value on top goes out as a term, and what the term is pushed as takes its place. -/
def echo : DukM ω Unit := do
  let term ← dukErlangGetTerm (-1)
  dukPop
  dukErlangPushTerm term

def echoes : ℕ → DukM ω Unit
  | 0 => return
  | n + 1 => do
    echo
    echoes n

theorem echoes_succ (n : ℕ) : (echoes (n + 1) : DukM ω Unit) = echo >>= fun _ => echoes n :=
  rfl

variable {c : Ctx ω} {st : List JsVal} {d : JsData}

theorem echo_run (hd : d.Small) (hroom : st.length + 1 + d.slots ≤ c.reserve) :
    echo (c.withStack (d.toJs :: st)) = .ok () (c.withStack (d.returned.toJs :: st)) := by
  have hslots := slots_termOf_le d
  have hget : (c.withStack (d.toJs :: st)).get (-1) = d.toJs := by simp
  unfold echo
  rw [bind_ok (dukErlangGetTerm_ok hd hget (by simpa using hroom)), bind_ok (dukPop_ok _)]
  exact dukErlangPushTerm_ok (convert_returned d) (by omega)

/-- A value that comes back as itself stays the same however often it goes out. -/
theorem echoes_run (hd : d.Small) (hroom : st.length + 1 + d.slots ≤ c.reserve)
    (hsame : d.returned = d) : ∀ n : ℕ,
      echoes n (c.withStack (d.toJs :: st)) = .ok () (c.withStack (d.toJs :: st))
  | 0 => rfl
  | n + 1 => by
    have hecho := echo_run hd hroom
    rw [hsame] at hecho
    rw [echoes_succ, bind_ok hecho]
    exact echoes_run hd hroom hsame n

/-- Whatever a value is, from the second trip on it stays the same. -/
theorem echo_settles (hd : d.Sized) (hroom : st.length + 1 + 2 * d.slots ≤ c.reserve) (n : ℕ) :
    echoes (n + 2) (c.withStack (d.toJs :: st)) = .ok () (c.withStack (d.settled.toJs :: st)) := by
  have hfirst := JsData.slots_returned_le d
  have hsecond := (printed_returned d).slots_returned_le
  rw [echoes_succ, bind_ok (echo_run hd.small (by omega)), echoes_succ,
    bind_ok (echo_run hd.returned.small (by omega)), ← returned_returned]
  refine echoes_run hd.returned.returned.small (by omega) ?_ n
  rw [returned_returned d, returned_settled]

/-- `{a: [null, "b"], c: 1}` becomes `[["c", 1], ["a", ["null", "b"]]]`, and then
`[["c", 1], "anullb"]`. -/
theorem echo_settles_object :
    echoes 3 ((Ctx.bare 16 ()).withStack [(JsData.object [([97], .array [.null, .string [98]]),
        ([99], .number (.ofInt 1))]).toJs])
      = .ok () ((Ctx.bare 16 ()).withStack [(JsData.object [([97], .array [.null, .string [98]]),
        ([99], .number (.ofInt 1))]).settled.toJs]) :=
  echo_settles (by simp [JsData.Sized, JsData.All, JsData.AllList, JsData.AllProps]) (by decide) 1

end Echo

end Erlm
