import Erlm.Proofs.RoundTrip

/-!
# Integers on their way in

`erl_decode` gives an integer one of three representations, by its size. Those that fit in an `int`
keep their value wherever they stand in a term, and no others do; what needs a long-long term makes
the program abort (`integersKept_or_abort`).
-/

namespace Erlm

open ETerm (ofList)

/-- An Erlang term made of integers, tuples and proper lists. -/
inductive IntTerm
  | integer (n : ℤ)
  | tuple (elems : List IntTerm)
  | list (elems : List IntTerm)
  deriving Repr, Inhabited

namespace IntTerm

section Fold

variable {β : Type} (leaf : ℤ → β) (node : List β → β) (chain : List β → β)

mutual

def fold : IntTerm → β
  | integer n => leaf n
  | tuple elems => node (foldList elems)
  | list elems => chain (foldList elems)

def foldList : List IntTerm → List β
  | [] => []
  | t :: ts => fold t :: foldList ts

end

theorem foldList_eq (ts : List IntTerm) :
    foldList leaf node chain ts = ts.map (fold leaf node chain) := by
  induction ts with
  | nil => rfl
  | cons t ts ih => rw [foldList, ih, List.map_cons]

theorem fold_tuple (ts : List IntTerm) :
    (tuple ts).fold leaf node chain = node (ts.map (fold leaf node chain)) := by
  rw [fold, foldList_eq]

theorem fold_list (ts : List IntTerm) :
    (list ts).fold leaf node chain = chain (ts.map (fold leaf node chain)) := by
  rw [fold, foldList_eq]

end Fold

/-- What `erl_decode` makes of an integer. -/
def representInt (n : ℤ) : ETerm :=
  if -2 ^ 31 ≤ n ∧ n < 2 ^ 31 then .integer (BitVec.ofInt 32 n)
  else if 0 ≤ n ∧ n < 2 ^ 32 then .unsigned (BitVec.ofInt 32 n)
  else .longlong (BitVec.ofInt 64 n)

/-- The term as `erl_decode` represents it. -/
def represent : IntTerm → ETerm := fold representInt .tuple ofList

/-- The value the term stands for: its integers as numbers, its tuples and lists as arrays. -/
def value : IntTerm → JsVal := fold (fun n => .number (.ofInt n)) .ofList .ofList

/-- The integers in the term. -/
def leaves : IntTerm → List ℤ := fold (fun n => [n]) List.flatten List.flatten

/-- Every integer is one a double can hold, and no list is an iolist or a keyword list. -/
inductive Plain : IntTerm → Prop
  | integer (n : ℤ) (h : |n| ≤ 2 ^ 53) : Plain (integer n)
  | tuple {ts : List IntTerm} (h : ∀ t ∈ ts, Plain t) : Plain (tuple ts)
  | list {ts : List IntTerm} (h : ∀ t ∈ ts, Plain t) (hio : isIolist (list ts).represent = false)
      (halike : dukErlangIsObjectAlike (list ts).represent = false) : Plain (list ts)

theorem forall_leaves_tuple {P : ℤ → Prop} {ts : List IntTerm} :
    (∀ n ∈ (tuple ts).leaves, P n) ↔ ∀ t ∈ ts, ∀ n ∈ t.leaves, P n := by
  rw [leaves, fold_tuple]
  simp only [List.mem_flatten, List.mem_map]
  constructor
  · exact fun h t ht n hn => h n ⟨_, ⟨t, ht, rfl⟩, hn⟩
  · rintro h n ⟨_, ⟨t, ht, rfl⟩, hn⟩
    exact h t ht n hn

theorem forall_leaves_list {P : ℤ → Prop} {ts : List IntTerm} :
    (∀ n ∈ (list ts).leaves, P n) ↔ ∀ t ∈ ts, ∀ n ∈ t.leaves, P n := by
  rw [← forall_leaves_tuple, leaves, fold_list, fold_tuple]

end IntTerm

section Representation

variable {len : JsVal → Option ℕ} {n : ℤ}

theorem toInt_ofInt_of_isInt (h : IsInt n) : (BitVec.ofInt 32 n).toInt = n := by
  rw [BitVec.toInt_ofInt]
  exact toInt_of_isInt h

theorem convert_representInt (h : IsInt n) :
    convert len (IntTerm.representInt n) = some (.number (.ofInt n)) := by
  unfold IsInt at h
  rw [IntTerm.representInt, if_pos h, convert, toInt_ofInt_of_isInt h]

/-- The sign of an integer can be read off its double. -/
theorem Double.negative_ofInt (n : ℤ) : (Double.ofInt n).negative = decide (n < 0) := by
  unfold Double.ofInt
  split_ifs with h
  · subst h
    rfl
  · rfl

/-- What an `int` cannot hold comes out with the wrong sign or not at all. -/
theorem convert_representInt_ne (h : ¬ IsInt n) :
    convert len (IntTerm.representInt n) ≠ some (.number (.ofInt n)) := by
  unfold IsInt at h
  rw [IntTerm.representInt, if_neg h]
  split_ifs with hu
  · -- from `2 ^ 31` on, the sign bit is set
    have hlow : 2 ^ 31 ≤ n := by
      by_contra hlt
      exact h ⟨by omega, by omega⟩
    have hneg : (BitVec.ofInt 32 n).toInt < 0 := by
      rw [BitVec.toInt_ofInt, Int.bmod_def]
      omega
    rw [convert, Ne, Option.some.injEq, JsVal.number.injEq]
    intro heq
    have hsign := congrArg Double.negative heq
    rw [Double.negative_ofInt, Double.negative_ofInt, decide_eq_true hneg, Eq.comm,
      decide_eq_true_eq] at hsign
    omega
  · rw [convert]
    simp

end Representation

section Leaves

variable {len : JsVal → Option ℕ}

namespace IntTerm

theorem represent_tuple (ts : List IntTerm) :
    (tuple ts).represent = .tuple (ts.map represent) := fold_tuple _ _ _ ts

theorem represent_list (ts : List IntTerm) :
    (list ts).represent = ofList (ts.map represent) := fold_list _ _ _ ts

/-- A list that is neither text nor a keyword list becomes the array of its elements. -/
theorem convert_list {ts : List IntTerm} (hio : isIolist (list ts).represent = false)
    (halike : dukErlangIsObjectAlike (list ts).represent = false) :
    convert len (list ts).represent
      = (convertElements len (ts.map represent)).map .ofList := by
  rw [represent_list] at *
  refine convert_ofList ?_ ?_
  · rw [isIolist, ETerm.isList_ofList, Bool.true_and] at hio
    simp [hio]
  · by_contra hall
    push Not at hall
    exact absurd (isObjectAlike_ofList.2 hall) (by simp [halike])

/-- The value expected is what a term converts to exactly when all its integers fit. -/
theorem Plain.convert_eq (len : JsVal → Option ℕ) {t : IntTerm} (h : t.Plain) :
    convert len t.represent = some t.value ↔ ∀ n ∈ t.leaves, IsInt n := by
  induction h with
  | integer n _ =>
    have hleaf : (∀ m ∈ (IntTerm.integer n).leaves, IsInt m) ↔ IsInt n := List.forall_mem_singleton
    rw [hleaf]
    refine ⟨fun hconv => ?_, convert_representInt⟩
    by_contra hn
    exact convert_representInt_ne hn hconv
  | tuple _ ih =>
    rw [forall_leaves_tuple, represent_tuple, convert, value, fold_tuple, convertElements_map]
    exact forall₂_congr ih
  | list _ hio halike ih =>
    rw [forall_leaves_list, convert_list hio halike, value, fold_list, convertElements_map]
    exact forall₂_congr ih

/-- Where no integer needs the unsigned representation, a term converts when all its integers
fit. -/
theorem Plain.convert_isSome {t : IntTerm} (h : t.Plain) :
    (∀ n ∈ t.leaves, ¬ (2 ^ 31 ≤ n ∧ n < 2 ^ 32)) →
      ((convert len t.represent).isSome = true ↔ ∀ n ∈ t.leaves, IsInt n) := by
  induction h with
  | integer n _ =>
    intro hu
    have hleaf : (∀ m ∈ (IntTerm.integer n).leaves, IsInt m) ↔ IsInt n := List.forall_mem_singleton
    have hn : ¬ (2 ^ 31 ≤ n ∧ n < 2 ^ 32) := hu n (List.mem_singleton_self n)
    rw [hleaf]
    refine ⟨fun hconv => ?_, fun hint => ?_⟩
    · by_contra hint
      unfold IsInt at hint
      have hrep : (IntTerm.integer n).represent = .longlong (BitVec.ofInt 64 n) := by
        show representInt n = _
        rw [representInt, if_neg hint, if_neg (by omega)]
      rw [hrep, convert] at hconv
      cases hconv
    · exact Option.isSome_iff_exists.2 ⟨_, convert_representInt hint⟩
  | tuple _ ih =>
    rw [forall_leaves_tuple, forall_leaves_tuple, represent_tuple, convert, Option.isSome_map,
      convertElements_isSome, List.forall_mem_map]
    exact fun hu => forall₂_congr fun t ht => ih t ht (hu t ht)
  | list _ hio halike ih =>
    rw [forall_leaves_list, forall_leaves_list, convert_list hio halike, Option.isSome_map,
      convertElements_isSome, List.forall_mem_map]
    exact fun hu => forall₂_congr fun t ht => ih t ht (hu t ht)

end IntTerm

end Leaves

section Abort

variable {ω α : Type} {c : Ctx ω}

/-- The run ends in the `abort` of the program. -/
abbrev Aborts : DukM ω α → Ctx ω → Prop := FailsWith fun e => e = .abort

/-- If a term does not convert, pushing it aborts where there is room. -/
def AbortsOrConverts (c : Ctx ω) (t : ETerm) : Prop :=
  convert c.engine.arrayLength t = none →
    ∀ st, st.length + slots t ≤ c.reserve → Aborts (dukErlangPushTerm t) (c.withStack st)

theorem slotsCells_ofList (ts : List ETerm) : slotsCells (ofList ts) = slotsElements ts := by
  induction ts with
  | nil => rfl
  | cons t ts ih => rw [ofList, slotsCells, slotsElements, ih]

theorem convertElements_tail {len : JsVal → Option ℕ} {e : ETerm} {es : List ETerm} {v : JsVal}
    (he : convert len e = some v) (h : convertElements len (e :: es) = none) :
    convertElements len es = none := by
  rw [convertElements, he] at h
  rcases hes : convertElements len es with _ | vs
  · rfl
  · simp [hes] at h

/-- The elements before the first one that does not convert are pushed and put. -/
theorem pushElements_aborts {es : List ETerm} (hall : ∀ e ∈ es, AbortsOrConverts c e)
    (hnone : convertElements c.engine.arrayLength es = none) (vs st : List JsVal)
    (hroom : st.length + 1 + slotsElements es ≤ c.reserve) :
    Aborts (dukErlangPushElements es vs.length) (c.withStack (.ofList vs :: st)) := by
  induction es generalizing vs with
  | nil => cases hnone
  | cons e es ih =>
    obtain ⟨he, hes⟩ := List.forall_mem_cons.1 hall
    rw [slotsElements] at hroom
    rw [dukErlangPushElements_cons]
    rcases hconv : convert c.engine.arrayLength e with _ | v
    · exact fails_bind_left (he hconv _ (by rw [List.length_cons]; omega)) _
    · have hrest := convertElements_tail hconv hnone
      have hput := dukPutPropIndex_ofList (Ctx.slot_neg_two c v (.ofList vs) st)
      have hlater := ih hes hrest (vs ++ [v]) (by omega)
      rw [List.length_append, List.length_singleton] at hlater
      exact fails_bind_right (dukErlangPushTerm_ok hconv (by rw [List.length_cons]; omega)) rfl
        (fails_bind_right hput rfl hlater)

/-- The loop over a list does what the loop over the same elements of a tuple does. -/
theorem dukErlangPushCells_ofList (es : List ETerm) (vs st : List JsVal) :
    dukErlangPushCells (ofList es) st.length es.length vs.length (c.withStack (.ofList vs :: st))
      = dukErlangPushElements es vs.length (c.withStack (.ofList vs :: st)) := by
  induction es generalizing vs with
  | nil => rfl
  | cons e es ih =>
    rw [ofList, List.length_cons, dukErlangPushCells_succ, dukErlangPushElements_cons]
    rcases h : dukErlangPushTerm e (c.withStack (.ofList vs :: st)) with ⟨⟨⟩, c'⟩ | ⟨err, c'⟩
    · obtain ⟨v, -, -, rfl⟩ := dukErlangPushTerm_eq_ok.1 h
      have hcells := dukPutPropIndex_ofList (Ctx.slot_bottom c [v] (.ofList vs) st)
      have helements := dukPutPropIndex_ofList (Ctx.slot_neg_two c v (.ofList vs) st)
      have hrest := ih (vs ++ [v])
      rw [List.length_append, List.length_singleton] at hrest
      rw [bind_ok h, bind_ok h, bind_ok helements]
      exact (bind_ok hcells).trans hrest
    · rw [bind_error h, bind_error h]

theorem tuple_aborts {es : List ETerm} (hall : ∀ e ∈ es, AbortsOrConverts c e) :
    AbortsOrConverts c (.tuple es) := by
  intro hnone st hroom
  rw [convert, Option.map_eq_none_iff] at hnone
  rw [slots] at hroom
  rw [dukErlangPushTerm_tuple]
  exact fails_bind_right (dukPushArray_ok (by omega)) rfl
    (pushElements_aborts hall hnone [] st (by omega))

theorem list_aborts {es : List ETerm} (hio : isIolist (ofList es) = false)
    (halike : dukErlangIsObjectAlike (ofList es) = false)
    (hall : ∀ e ∈ es, AbortsOrConverts c e) : AbortsOrConverts c (ofList es) := by
  intro hnone st hroom
  cases es with
  | nil => cases hio
  | cons e es =>
    have hio' : ¬ erlIolistLength (ofList (e :: es)) ≥ 0 := by
      rw [erlIolistLength_nonneg (ETerm.isList_ofList _)]
      rw [isIolist, ETerm.isList_ofList, Bool.true_and] at hio
      simp [hio]
    have halike' : ¬ dukErlangIsObjectAlike (ofList (e :: es)) = true := by simp [halike]
    rw [ofList] at hio' halike' hnone hroom ⊢
    rw [convert_cells hio' halike', ← ofList, convertCells_ofList,
      Option.map_eq_none_iff] at hnone
    rw [slots_cells hio' halike', ← ofList, slotsCells_ofList] at hroom
    rw [dukErlangPushTerm_cells hio' halike' (by rw [← ofList, erlLength_ofList])]
    obtain ⟨err, c', habort, hrun⟩ := pushElements_aborts hall hnone [] st (by omega)
    exact fails_bind_right (dukPushArray_ok (by omega)) rfl
      ⟨err, c', habort, (dukErlangPushCells_ofList (e :: es) [] st).trans hrun⟩

theorem IntTerm.Plain.aborts {t : IntTerm} (h : t.Plain) : AbortsOrConverts c t.represent := by
  induction h with
  | integer n _ =>
    intro hnone st _
    have hrep : (IntTerm.integer n).represent = representInt n := rfl
    rw [hrep, representInt] at hnone ⊢
    split_ifs at hnone ⊢ with h1 h2
    · cases hnone
    · cases hnone
    · exact ⟨_, _, rfl, rfl⟩
  | tuple _ ih =>
    rw [represent_tuple]
    exact tuple_aborts (List.forall_mem_map.2 ih)
  | list _ hio halike ih =>
    rw [represent_list] at hio halike ⊢
    exact list_aborts hio halike (List.forall_mem_map.2 ih)

end Abort

section Kept

variable {ω : Type} {c : Ctx ω} {st : List JsVal} {t : IntTerm}

/-- Pushing the term as `erl_decode` represents it leaves the value it stands for. -/
def IntegersKept (c : Ctx ω) (st : List JsVal) (t : IntTerm) : Prop :=
  dukErlangPushTerm t.represent (c.withStack st) = .ok () (c.withStack (t.value :: st))

/-- With room, every integer of a term keeps its value exactly when every one of them fits in an
`int`. -/
theorem integersKept_iff (ht : t.Plain) :
    IntegersKept c st t
      ↔ (∀ n ∈ t.leaves, IsInt n) ∧ st.length + slots t.represent ≤ c.reserve := by
  rw [← ht.convert_eq c.engine.arrayLength]
  constructor
  · intro hkept
    obtain ⟨-, -, hroom, -⟩ := dukErlangPushTerm_eq_ok.1 hkept
    exact ⟨convert_of_dukErlangPushTerm hkept, hroom⟩
  · exact fun ⟨hconv, hroom⟩ => dukErlangPushTerm_ok hconv hroom

/-- A term that needs no unsigned representation keeps its integers or makes the program abort. -/
theorem integersKept_or_abort (ht : t.Plain) (hu : ∀ n ∈ t.leaves, ¬ (2 ^ 31 ≤ n ∧ n < 2 ^ 32)) :
    (IntegersKept c st t
        ↔ (∀ n ∈ t.leaves, IsInt n) ∧ st.length + slots t.represent ≤ c.reserve)
      ∧ ((¬ ∀ n ∈ t.leaves, IsInt n) → st.length + slots t.represent ≤ c.reserve →
        Aborts (dukErlangPushTerm t.represent) (c.withStack st)) := by
  refine ⟨integersKept_iff ht, fun hbig hroom => ht.aborts ?_ st hroom⟩
  rwa [← ht.convert_isSome hu, Option.not_isSome_iff_eq_none] at hbig

/-- `{1, 2 ^ 32}` needs a long-long term. -/
theorem aborts_longlong :
    Aborts (dukErlangPushTerm (IntTerm.tuple [.integer 1, .integer (2 ^ 32)]).represent)
      ((Ctx.bare 8 ()).withStack []) := by
  have hplain : (IntTerm.tuple [.integer 1, .integer (2 ^ 32)]).Plain := by
    refine .tuple fun t ht => ?_
    simp only [List.mem_cons, List.not_mem_nil, or_false] at ht
    rcases ht with rfl | rfl
    · exact .integer _ (by norm_num)
    · exact .integer _ (by norm_num)
  have hleaves : (IntTerm.tuple [.integer 1, .integer (2 ^ 32)]).leaves = [1, 2 ^ 32] := rfl
  refine (integersKept_or_abort hplain ?_).2 ?_ ?_
  · rw [hleaves]
    norm_num
  · rw [hleaves]
    norm_num [IsInt]
  · decide

/-- A double can hold `2 ^ 32`, but the number is not pushed. -/
theorem not_integersKept_longlong :
    (IntTerm.integer (2 ^ 32)).Plain
      ∧ ¬ IntegersKept (Ctx.bare 8 ()) [] (IntTerm.integer (2 ^ 32)) := by
  have hplain : (IntTerm.integer (2 ^ 32)).Plain := .integer _ (by norm_num)
  refine ⟨hplain, fun hkept => ?_⟩
  have hfits := ((integersKept_iff hplain).1 hkept).1 (2 ^ 32) (List.mem_singleton_self _)
  norm_num [IsInt] at hfits

end Kept

end Erlm
