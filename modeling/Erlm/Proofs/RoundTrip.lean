import Erlm.Proofs.Get
import Erlm.Proofs.Push

/-!
# From JavaScript to Erlang and back

A value that is turned into a term and pushed back is itself again exactly when it is stable: a
number, a string without a zero byte, or an array of stable values that are not all strings
(`roundTrip_iff_stable`). Anything else comes back as text or as nested arrays.
-/

namespace Erlm

open ETerm (ofList)
open JsData (termOf)

namespace JsData

def isNumber : JsData → Bool
  | number _ => true
  | _ => false

def isArray : JsData → Bool
  | array _ => true
  | _ => false

/-- A number, a string without U+0000, or an array of stable values at least one of which is a
number or an array. -/
def Stable : JsData → Prop := All fun
  | number _ => True
  | string s => 0 ∉ s
  | array elems => ∃ d ∈ elems, d.isNumber = true ∨ d.isArray = true
  | _ => False

end JsData

section Text

theorem iodata_ofList_cons (t : ETerm) (ts : List ETerm) :
    iodata (ofList (t :: ts)) = (iodata t).bind fun a => (iodata (ofList ts)).map (a ++ ·) := by
  have htail : (ofList ts).isInteger = false := by cases ts <;> rfl
  rw [ofList, iodata, htail]
  rcases iodata t with _ | a
  · rfl
  · rcases iodata (ofList ts) with _ | b <;> rfl

/-- A proper list is an iolist when every element is part of one. -/
theorem iodata_ofList_isSome {ts : List ETerm} :
    (iodata (ofList ts)).isSome = true ↔ ∀ t ∈ ts, (iodata t).isSome = true := by
  induction ts with
  | nil => exact iff_of_true rfl fun t ht => absurd ht List.not_mem_nil
  | cons t ts ih =>
    rw [iodata_ofList_cons, List.forall_mem_cons, ← ih]
    rcases iodata t with _ | a
    · simp
    · rcases iodata (ofList ts) with _ | b <;> simp

theorem erlIolistLength_nonneg {t : ETerm} (hlist : t.isList = true) :
    erlIolistLength t ≥ 0 ↔ (iodata t).isSome = true := by
  rw [erlIolistLength, if_pos hlist]
  rcases iodata t with _ | bytes <;> simp

theorem iodata_byte (b : UInt8) : iodata (.integer (BitVec.ofNat 32 b.toNat)) = some [b] := by
  have hnat : (BitVec.ofNat 32 b.toNat).toNat = b.toNat := by
    rw [BitVec.toNat_ofNat]
    exact Nat.mod_eq_of_lt (by have := b.toNat_lt; omega)
  refine (if_pos (by have := b.toNat_lt; omega)).trans ?_
  rw [hnat, UInt8.ofNat_toNat]

theorem iodata_bytes (s : Bytes) :
    iodata (ofList (s.map fun b => .integer (BitVec.ofNat 32 b.toNat))) = some s := by
  induction s with
  | nil => rfl
  | cons b s ih =>
    rw [List.map_cons, iodata_ofList_cons, iodata_byte, ih]
    rfl

theorem iodata_erlMkString (s : Bytes) : iodata (erlMkString s) = some (cString s) :=
  iodata_bytes _

theorem textOf_erlMkString (s : Bytes) : textOf (erlMkString s) = .string (cString s) := by
  rw [textOf, erlIolistToString, iodata_erlMkString, Option.bind_some,
    if_neg (zero_notMem_cString s)]
  simp only [cString_of_notMem (zero_notMem_cString s)]

/-- An iolist is pushed as text. -/
theorem convert_of_iodata {len : JsVal → Option ℕ} {ts : List ETerm}
    (h : (iodata (ofList ts)).isSome = true) :
    convert len (ofList ts) = some (textOf (ofList ts)) := by
  cases ts with
  | nil => rfl
  | cons t ts => exact convert_text ((erlIolistLength_nonneg rfl).2 h)

theorem textOf_eq {t : ETerm} {s : Bytes} (h : iodata t = some s) :
    textOf t = if 0 ∈ s then .null else .string s := by
  rw [textOf, erlIolistToString, h, Option.bind_some]
  split_ifs with hs
  · rfl
  · simp only [cString_of_notMem hs]

theorem textOf_cases (t : ETerm) : textOf t = .null ∨ ∃ s, textOf t = .string s := by
  unfold textOf
  split
  · exact Or.inr ⟨_, rfl⟩
  · exact Or.inl rfl

end Text

section Cells

variable {len : JsVal → Option ℕ}

theorem convertElements_eq_some {ts : List ETerm} {vs : List JsVal} :
    convertElements len ts = some vs
      ↔ List.Forall₂ (fun t v => convert len t = some v) ts vs := by
  induction ts generalizing vs with
  | nil => simp [convertElements, eq_comm]
  | cons t ts ih =>
    rw [convertElements]
    simp only [Option.pure_def, Option.bind_eq_bind, Option.bind_eq_some_iff, Option.some.injEq,
      List.forall₂_cons_left_iff, ih]
    constructor
    · rintro ⟨v, hv, us, hus, rfl⟩
      exact ⟨v, us, hv, hus, rfl⟩
    · rintro ⟨v, us, hv, hus, rfl⟩
      exact ⟨v, hv, us, hus, rfl⟩

theorem JsVal.ofList_injective : Function.Injective JsVal.ofList := by
  intro vs ws h
  simp only [JsVal.ofList, JsVal.array.injEq, and_true] at h
  exact (List.map_inj_right fun _ _ => Option.some.inj).1 h

/-- An array of converted elements is the one expected when each element is. -/
theorem convertElements_map {ι : Type} {f : ι → ETerm} {g : ι → JsVal} {xs : List ι} :
    (convertElements len (xs.map f)).map JsVal.ofList = some (.ofList (xs.map g))
      ↔ ∀ x ∈ xs, convert len (f x) = some (g x) := by
  have hiff : convertElements len (xs.map f) = some (xs.map g)
      ↔ ∀ x ∈ xs, convert len (f x) = some (g x) := by
    rw [convertElements_eq_some, List.forall₂_map_left_iff, List.forall₂_map_right_iff,
      List.forall₂_same]
  rw [← hiff, Option.map_eq_some_iff]
  constructor
  · rintro ⟨vs, hvs, heq⟩
    rwa [JsVal.ofList_injective heq] at hvs
  · exact fun h => ⟨_, h, rfl⟩

theorem convertElements_isSome {ts : List ETerm} :
    (convertElements len ts).isSome = true ↔ ∀ t ∈ ts, (convert len t).isSome = true := by
  induction ts with
  | nil => simp [convertElements]
  | cons t ts ih =>
    rw [List.forall_mem_cons, ← ih, convertElements]
    rcases convert len t with _ | v
    · simp
    · rcases convertElements len ts with _ | vs <;> simp

theorem convertCells_ofList (ts : List ETerm) :
    convertCells len (ofList ts) = convertElements len ts := by
  induction ts with
  | nil => rfl
  | cons t ts ih => rw [ofList, convertCells, convertElements, ih]

theorem isObjectAlikeLoop_ofList {ts : List ETerm} :
    isObjectAlikeLoop ts.length (ofList ts) = true ↔
      ∀ t ∈ ts, ∃ name value, t = .tuple [.atom name, value] := by
  induction ts with
  | nil => simp [ofList, isObjectAlikeLoop]
  | cons t ts ih =>
    rw [List.forall_mem_cons, ← ih, ofList, List.length_cons]
    constructor
    · intro h
      obtain ⟨name, value, tl, heq, htl⟩ := isObjectAlikeLoop_succ h
      obtain ⟨rfl, rfl⟩ := ETerm.cons.inj heq
      exact ⟨⟨name, value, rfl⟩, htl⟩
    · rintro ⟨⟨name, value, rfl⟩, hts⟩
      exact hts

theorem isObjectAlike_ofList {ts : List ETerm} :
    dukErlangIsObjectAlike (ofList ts) = true ↔
      ∀ t ∈ ts, ∃ name value, t = .tuple [.atom name, value] := by
  rw [dukErlangIsObjectAlike, ETerm.isList_ofList, Bool.true_and, erlLength_ofList,
    Int.toNat_natCast, isObjectAlikeLoop_ofList]

/-- A keyword list becomes what its pairs put into an empty array. -/
theorem convert_pairs_ofList {es : List ETerm} (hes : es ≠ [])
    (htext : erlIolistLength (ofList es) < 0)
    (halike : dukErlangIsObjectAlike (ofList es) = true) :
    convert len (ofList es) = convertPairs len (ofList es) (.ofList []) := by
  cases es with
  | nil => exact absurd rfl hes
  | cons e es =>
    have hpos : 0 < erlLength (ofList (e :: es)) := by
      rw [erlLength_ofList, List.length_cons]
      omega
    obtain ⟨name, value, rfl⟩ := isObjectAlike_ofList.1 halike e List.mem_cons_self
    exact convert_pairs (by rw [ofList] at htext; omega) halike hpos

/-- A list that is neither text nor a keyword list is pushed as an array, element by element. -/
theorem convert_ofList {ts : List ETerm} (hio : ¬ (iodata (ofList ts)).isSome = true)
    (halike : ∃ t ∈ ts, ∀ name value, t ≠ .tuple [.atom name, value]) :
    convert len (ofList ts) = (convertElements len ts).map .ofList := by
  obtain ⟨t, ht, hne⟩ := halike
  cases ts with
  | nil => simp at ht
  | cons u us =>
    rw [← convertCells_ofList]
    refine convert_cells (fun h => hio ((erlIolistLength_nonneg rfl).1 h)) fun h => ?_
    obtain ⟨name, value, rfl⟩ := (@isObjectAlike_ofList (u :: us)).1 h t ht
    exact hne name value rfl

end Cells

section Stable

variable {len : JsVal → Option ℕ}

theorem termOf_ne_tuple (d : JsData) (elems : List ETerm) : termOf d ≠ .tuple elems := by
  have hne (ts : List ETerm) : ofList ts ≠ .tuple elems := by cases ts <;> simp [ofList]
  cases d with
  | string s => exact hne _
  | array ds => exact hne _
  | object ps => exact hne _
  | boolean b => cases b <;> simp [termOf, atomOf]
  | undefined | null | number _ => simp [termOf, atomOf]

theorem iodata_termOf_of_stable {d : JsData} :
    d.Stable → d.isNumber = true ∨ d.isArray = true → iodata (termOf d) = none := by
  induction d with
  | undefined | null | boolean | string | object => simp [JsData.isNumber, JsData.isArray]
  | number d => exact fun _ _ => rfl
  | array ds ih =>
    intro hstable _
    obtain ⟨⟨e, he, hkind⟩, hall⟩ := JsData.all_array.1 hstable
    have hnone := ih e he (hall e he) hkind
    rw [JsData.termOf_array, ← Option.not_isSome_iff_eq_none, iodata_ofList_isSome]
    intro h
    have := h (termOf e) (List.mem_map_of_mem he)
    simp [hnone] at this

theorem textOf_ne {v : JsVal} (hnull : v ≠ .null) (hstring : ∀ s, v ≠ .string s) (t : ETerm) :
    textOf t ≠ v := by
  intro h
  rcases textOf_cases t with ht | ⟨s, ht⟩
  · exact hnull (h.symm.trans ht)
  · exact hstring s (h.symm.trans ht)

/-- A value and what its term is pushed as. -/
theorem convert_termOf (d : JsData) : convert len (termOf d) = some d.toJs ↔ d.Stable := by
  induction d with
  | undefined => simp [termOf, atomOf, convert, JsData.toJs, JsData.Stable, JsData.All]
  | null => simp [termOf, atomOf, convert, JsData.toJs, JsData.Stable, JsData.All]
  | boolean b => cases b <;> simp [termOf, atomOf, convert, JsData.toJs, JsData.Stable, JsData.All]
  | number d => simp [termOf, convert, JsData.toJs, JsData.Stable, JsData.All]
  | string s =>
    have htext : convert len (termOf (.string s)) = some (.string (cString s)) := by
      rw [termOf, ← textOf_erlMkString]
      exact convert_of_iodata (Option.isSome_iff_exists.2 ⟨_, iodata_erlMkString s⟩)
    have hstable : (JsData.string s).Stable ↔ 0 ∉ s := Iff.rfl
    rw [htext, hstable, JsData.toJs, Option.some.injEq, JsVal.string.injEq, cString_eq_self]
  | array ds ih =>
    rw [JsData.Stable, JsData.all_array, JsData.termOf_array, JsData.toJs_array]
    by_cases hio : (iodata (ofList (ds.map termOf))).isSome = true
    · -- all text: it comes back as a string, and no stable element is a number or an array
      rw [convert_of_iodata hio]
      refine iff_of_false ?_ ?_
      · rw [Option.some.injEq]
        exact textOf_ne (by simp [JsVal.ofList]) (by simp [JsVal.ofList]) _
      · rintro ⟨⟨e, he, hkind⟩, hall⟩
        have hsome := iodata_ofList_isSome.1 hio (termOf e) (List.mem_map_of_mem he)
        simp [iodata_termOf_of_stable (hall e he) hkind] at hsome
    · have hne : ∃ e ∈ ds, ¬ (iodata (termOf e)).isSome = true := by
        rw [iodata_ofList_isSome, List.forall_mem_map] at hio
        push Not at hio
        simpa using hio
      obtain ⟨e, he, hnone⟩ := hne
      rw [convert_ofList hio ⟨termOf e, List.mem_map_of_mem he,
        fun name value => termOf_ne_tuple e _⟩]
      have hcells : (convertElements len (ds.map termOf)).map JsVal.ofList
          = some (.ofList (ds.map JsData.toJs)) ↔ ∀ d ∈ ds, d.Stable := by
        rw [convertElements_map]
        exact forall₂_congr ih
      rw [hcells]
      refine ⟨fun h => ⟨⟨e, he, ?_⟩, h⟩, fun h => h.2⟩
      -- of the stable values only strings are text
      have hstable := h e he
      cases e with
      | undefined | null | boolean _ | object _ => simp [JsData.Stable, JsData.All] at hstable
      | number _ => exact Or.inl rfl
      | array _ => exact Or.inr rfl
      | string s => simp [termOf, iodata_erlMkString] at hnone
  | object ps =>
    refine iff_of_false (fun h => ?_) (by simp [JsData.Stable, JsData.All])
    rw [termOf, JsData.toJs] at h
    by_cases hio : (iodata (ofList (JsData.termOfProps ps).reverse)).isSome = true
    · rw [convert_of_iodata hio, Option.some.injEq] at h
      exact textOf_ne (by simp) (by simp) _ h
    · -- a key is a string, so the first element of a pair is a list
      have hpair : ∃ t ∈ (JsData.termOfProps ps).reverse,
          ∀ name value, t ≠ .tuple [.atom name, value] := by
        cases ps with
        | nil => exact absurd rfl hio
        | cons p ps =>
          refine ⟨.tuple [erlMkString p.1, termOf p.2], by simp [JsData.termOfProps], ?_⟩
          intro name value heq
          simp only [ETerm.tuple.injEq, List.cons.injEq] at heq
          have := congrArg ETerm.isList heq.1
          rw [erlMkString, ETerm.isList_ofList] at this
          simp [ETerm.isList] at this
      rw [convert_ofList hio hpair, Option.map_eq_some_iff] at h
      obtain ⟨vs, -, heq⟩ := h
      simp [JsVal.ofList] at heq

end Stable

section RoundTrip

variable {ω : Type} {c : Ctx ω} {st : List JsVal} {idx : ℤ} {d : JsData}

/-- Given the space, a value comes back as itself exactly when it is stable. -/
theorem roundTrip_iff_stable (hd : d.Small) (hv : (c.withStack st).get idx = d.toJs)
    (hget : st.length + d.slots ≤ c.reserve) (hpush : st.length + slots (termOf d) ≤ c.reserve) :
    (∃ c', (dukErlangGetTerm idx >>= dukErlangPushTerm) (c.withStack st) = .ok () c'
      ∧ c'.stack = d.toJs :: st) ↔ d.Stable := by
  rw [← convert_termOf, bind_ok (dukErlangGetTerm_ok hd hv hget)]
  constructor
  · rintro ⟨c', hrun, hstack⟩
    obtain ⟨v, hv, -, rfl⟩ := dukErlangPushTerm_eq_ok.1 hrun
    rw [hv, List.head_eq_of_cons_eq hstack]
  · exact fun hconv => ⟨_, dukErlangPushTerm_ok hconv hpush, rfl⟩

/-- `[["a"], [0]]` is not stable, as `["a"]` comes back as the string `a`. -/
theorem roundTrip_strings :
    ¬ ∃ c', (dukErlangGetTerm (-1) >>= dukErlangPushTerm)
      ((Ctx.bare 8 ()).withStack
        [(JsData.array [.array [.string [97]], .array [.number (.ofInt 0)]]).toJs]) = .ok () c'
      ∧ c'.stack = [(JsData.array [.array [.string [97]], .array [.number (.ofInt 0)]]).toJs,
        (JsData.array [.array [.string [97]], .array [.number (.ofInt 0)]]).toJs] := by
  rw [roundTrip_iff_stable (by simp [JsData.Small, JsData.All, JsData.AllList]) rfl (by decide)
    (by decide)]
  simp [JsData.Stable, JsData.All, JsData.AllList, JsData.isNumber, JsData.isArray]

end RoundTrip

end Erlm
