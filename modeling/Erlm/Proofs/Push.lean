import Erlm.Data
import Erlm.Proofs.Context

/-!
# `duk_erlang_push_term` and the recursive conversion

On any stack, `duk_erlang_push_term` pushes the value its term converts to, if there is one and the
stack has room, and fails otherwise (`dukErlangPushTerm_moves`).
-/

namespace Erlm

open ETerm (ofList)

variable {ω : Type} {c : Ctx ω}

section Lists

/-- A list of some length has a tail of one less. -/
theorem erlLength_cons_eq {hd tl : ETerm} {n : ℕ} (h : erlLength (.cons hd tl) = n) :
    ∃ m : ℕ, n = m + 1 ∧ erlLength tl = m := by
  rw [erlLength] at h
  split_ifs at h with hneg
  exact ⟨(erlLength tl).toNat, by omega, by omega⟩

/-- A list that is not taken for a keyword list is proper. -/
theorem erlLength_pos_of_not_alike {hd tl : ETerm}
    (h : ¬ dukErlangIsObjectAlike (.cons hd tl) = true) : 0 < erlLength (.cons hd tl) := by
  by_contra hpos
  rw [dukErlangIsObjectAlike, Int.toNat_of_nonpos (by omega)] at h
  exact h rfl

/-- The ways `duk_erlang_push_term` takes with a list: text, a keyword list, an improper list and
any other. -/
inductive ListCase : ETerm → ETerm → Prop
  | text {hd tl : ETerm} (hio : erlIolistLength (.cons hd tl) ≥ 0) : ListCase hd tl
  | pairs {name : Bytes} {value tl : ETerm} {m : ℕ}
      (hio : ¬ erlIolistLength (.cons (.tuple [.atom name, value]) tl) ≥ 0)
      (halike : dukErlangIsObjectAlike (.cons (.tuple [.atom name, value]) tl) = true)
      (hlen : erlLength (.cons (.tuple [.atom name, value]) tl) = ↑(m + 1))
      (hloop : isObjectAlikeLoop (m + 1) (.cons (.tuple [.atom name, value]) tl) = true) :
      ListCase (.tuple [.atom name, value]) tl
  | improper {hd tl : ETerm} (hio : ¬ erlIolistLength (.cons hd tl) ≥ 0)
      (halike : dukErlangIsObjectAlike (.cons hd tl) = true)
      (hlen : ¬ 0 < erlLength (.cons hd tl)) : ListCase hd tl
  | cells {hd tl : ETerm} {m : ℕ} (hio : ¬ erlIolistLength (.cons hd tl) ≥ 0)
      (halike : ¬ dukErlangIsObjectAlike (.cons hd tl) = true)
      (hlen : erlLength (.cons hd tl) = ↑(m + 1)) : ListCase hd tl

theorem listCase (hd tl : ETerm) : ListCase hd tl := by
  by_cases hio : erlIolistLength (.cons hd tl) ≥ 0
  · exact .text hio
  by_cases halike : dukErlangIsObjectAlike (.cons hd tl) = true
  · by_cases hlen : 0 < erlLength (.cons hd tl)
    · obtain ⟨name, value, rfl⟩ := exists_pair_of_alike halike hlen
      obtain ⟨m, hm⟩ := Int.eq_succ_of_zero_lt hlen
      have hloop := halike
      rw [dukErlangIsObjectAlike, hm] at hloop
      exact .pairs hio halike hm hloop
    · exact .improper hio halike hlen
  · obtain ⟨n, hn⟩ := Int.eq_ofNat_of_zero_le (erlLength_pos_of_not_alike halike).le
    obtain ⟨m, rfl, -⟩ := erlLength_cons_eq hn
    exact .cells hio halike hn

end Lists

section Equations

theorem dukErlangPushElements_cons (elem : ETerm) (elems : List ETerm) (i : ℕ) :
    (dukErlangPushElements (elem :: elems) i : DukM ω Unit)
      = dukErlangPushTerm elem >>= fun _ => dukPutPropIndex (-2) i >>= fun _ =>
        dukErlangPushElements elems (i + 1) :=
  rfl

theorem dukErlangPushCells_succ (hd tl : ETerm) (array_index : ℤ) (n i : ℕ) :
    (dukErlangPushCells (.cons hd tl) array_index (n + 1) i : DukM ω Unit)
      = dukErlangPushTerm hd >>= fun _ => dukPutPropIndex array_index i >>= fun _ =>
        dukErlangPushCells tl array_index n (i + 1) :=
  rfl

theorem dukErlangPushPairs_succ (name : Bytes) (value tl : ETerm) (array_index : ℤ) (n : ℕ) :
    (dukErlangPushPairs (.cons (.tuple [.atom name, value]) tl) array_index (n + 1) : DukM ω Unit)
      = dukErlangPushTerm value >>= fun _ =>
        dukPutPropString array_index (erlAtomPtrUtf8 name) >>= fun _ =>
          dukErlangPushPairs tl array_index n :=
  rfl

theorem dukErlangPushCells_zero (t : ETerm) (idx : ℤ) (i : ℕ) :
    (dukErlangPushCells t idx 0 i : DukM ω Unit) = pure () := by
  cases t <;> rw [dukErlangPushCells]

theorem dukErlangPushPairs_zero (t : ETerm) (idx : ℤ) :
    (dukErlangPushPairs t idx 0 : DukM ω Unit) = pure () := by
  cases t <;> rw [dukErlangPushPairs]

theorem dukErlangPushTerm_tuple (elems : List ETerm) :
    (dukErlangPushTerm (.tuple elems) : DukM ω Unit)
      = dukPushArray >>= fun _ => dukErlangPushElements elems 0 :=
  rfl

variable {hd tl : ETerm}

/-- A list is pushed as text, or as an array that one of the two loops fills. What comes before the
loop is the first round of it. -/
theorem dukErlangPushTerm_cons : (dukErlangPushTerm (.cons hd tl) : DukM ω Unit)
    = if erlIolistLength (.cons hd tl) ≥ 0 then dukPushString (erlIolistToString (.cons hd tl))
      else if dukErlangIsObjectAlike (.cons hd tl) then
        dukPushArray >>= fun array_index =>
          dukErlangPushPairs (.cons hd tl) array_index (erlLength (.cons hd tl)).toNat
      else
        dukPushArray >>= fun array_index =>
          dukErlangPushCells (.cons hd tl) array_index (erlLength (.cons hd tl)).toNat 0 := by
  rw [dukErlangPushTerm.eq_def]
  refine if_congr Iff.rfl rfl ?_
  by_cases hlen : 0 < erlLength (.cons hd tl)
  · obtain ⟨m, hm⟩ : ∃ m : ℕ, erlLength (.cons hd tl) = ↑(m + 1) := Int.eq_succ_of_zero_lt hlen
    split_ifs with halike
    · obtain ⟨name, value, rfl⟩ := exists_pair_of_alike halike hlen
      simp only [hm, if_pos (Int.natCast_succ_pos m), Int.toNat_natCast, Nat.add_sub_cancel,
        dukErlangPushPairs_succ]
    · simp only [hm, if_pos (Int.natCast_succ_pos m), Int.toNat_natCast, Nat.add_sub_cancel,
        dukErlangPushCells_succ]
  · simp only [if_neg hlen, Int.toNat_of_nonpos (Int.not_lt.1 hlen), dukErlangPushPairs_zero,
      dukErlangPushCells_zero]

theorem dukErlangPushTerm_text (hio : erlIolistLength (.cons hd tl) ≥ 0) :
    (dukErlangPushTerm (.cons hd tl) : DukM ω Unit)
      = dukPushString (erlIolistToString (.cons hd tl)) := by
  rw [dukErlangPushTerm_cons, if_pos hio]

theorem dukErlangPushTerm_pairs (hio : ¬ erlIolistLength (.cons hd tl) ≥ 0)
    (halike : dukErlangIsObjectAlike (.cons hd tl) = true) {n : ℕ}
    (hlen : erlLength (.cons hd tl) = n) :
    (dukErlangPushTerm (.cons hd tl) : DukM ω Unit)
      = dukPushArray >>= fun array_index =>
        dukErlangPushPairs (.cons hd tl) array_index n := by
  rw [dukErlangPushTerm_cons, if_neg hio, if_pos halike, hlen, Int.toNat_natCast]

theorem dukErlangPushTerm_improper (hio : ¬ erlIolistLength (.cons hd tl) ≥ 0)
    (halike : dukErlangIsObjectAlike (.cons hd tl) = true) (hlen : ¬ 0 < erlLength (.cons hd tl)) :
    (dukErlangPushTerm (.cons hd tl) : DukM ω Unit) = dukPushArray >>= fun _ => pure () := by
  rw [dukErlangPushTerm_cons, if_neg hio, if_pos halike, Int.toNat_of_nonpos (Int.not_lt.1 hlen)]
  simp only [dukErlangPushPairs_zero]

theorem dukErlangPushTerm_cells (hio : ¬ erlIolistLength (.cons hd tl) ≥ 0)
    (halike : ¬ dukErlangIsObjectAlike (.cons hd tl) = true) {n : ℕ}
    (hlen : erlLength (.cons hd tl) = n) :
    (dukErlangPushTerm (.cons hd tl) : DukM ω Unit) = dukPushArray >>= fun array_index =>
      dukErlangPushCells (.cons hd tl) array_index n 0 := by
  rw [dukErlangPushTerm_cons, if_neg hio, if_neg halike, hlen, Int.toNat_natCast]

end Equations

section Text

theorem dukPushString_text (t : ETerm) :
    (dukPushString (erlIolistToString t) : DukM ω Unit) = dukPush (textOf t) := by
  unfold textOf
  cases erlIolistToString t <;> rfl

end Text

section Puts

theorem arrayPut_isArray {len : JsVal → Option ℕ} {elems : List (Option JsVal)} {named : Props}
    {proto : Option JsVal} {key : Bytes} {v w : JsVal}
    (h : JsVal.arrayPut len elems named proto key v = some w) : w.isArray = true := by
  unfold JsVal.arrayPut at h
  split at h
  · cases h
    rfl
  · split_ifs at h <;> try cases h; rfl
    obtain ⟨n, -, rfl⟩ := Option.map_eq_some_iff.1 h
    rfl

theorem putNamed_isArray {len : JsVal → Option ℕ} {array w : JsVal} {name : Bytes} {v : JsVal}
    (h : putNamed len array name v = some w) : w.isArray = true := by
  unfold putNamed at h
  split at h
  · exact arrayPut_isArray h
  · cases h

theorem exists_of_isArray {v : JsVal} (h : v.isArray = true) :
    ∃ elems named proto, v = .array elems named proto := by
  cases v <;> simp [JsVal.isArray] at h
  exact ⟨_, _, _, rfl⟩

theorem dukPutPropString_moves {array : JsVal} (harray : array.isArray = true) (v : JsVal)
    (st : List JsVal) (name : Bytes) (htop : st.length + 1 ≤ c.reserve) :
    Moves c (dukPutPropString st.length (erlAtomPtrUtf8 name)) (v :: array :: st)
      ((putNamed c.engine.arrayLength array name v).map fun w => ((), w :: st))
      (st.length + 1) := by
  obtain ⟨elems, named, proto, rfl⟩ := exists_of_isArray harray
  have hslot := Ctx.slot_bottom c [v] (.array elems named proto) st
  rcases hput : putNamed c.engine.arrayLength (.array elems named proto) name v with _ | w
  · exact Moves.of_fails (dukPutPropString_fails hslot hput)
  · exact Moves.of_ok htop (dukPutPropString_ok hslot hput)

theorem putAt_length (vs : List JsVal) (v : JsVal) :
    JsVal.putAt (vs.map some) vs.length v = (vs ++ [v]).map some := by
  simp [JsVal.putAt]

/-- Putting a value after the last element of an array appends it. -/
theorem dukPutPropIndex_ofList {idx : ℤ} {v : JsVal} {vs : List JsVal} {st : List JsVal}
    (h : (c.withStack (v :: .ofList vs :: st)).slot idx = some 1) :
    dukPutPropIndex idx vs.length (c.withStack (v :: .ofList vs :: st))
      = .ok () (c.withStack (.ofList (vs ++ [v]) :: st)) := by
  have hput := dukPutPropIndex_ok h vs.length
  rw [putAt_length] at hput
  exact hput

theorem dukPutPropIndex_moves {idx : ℤ} {v : JsVal} {vs : List JsVal} {st : List JsVal}
    (h : (c.withStack (v :: .ofList vs :: st)).slot idx = some 1)
    (htop : st.length + 1 ≤ c.reserve) :
    Moves c (dukPutPropIndex idx vs.length) (v :: .ofList vs :: st)
      ((some ()).map fun _ => ((), .ofList (vs ++ [v]) :: st)) (st.length + 1) :=
  Moves.of_ok htop (dukPutPropIndex_ofList h)

end Puts

section Terms

/-- Pushing the term does what `convert` says. -/
def TermMoves (c : Ctx ω) (t : ETerm) : Prop :=
  ∀ st, Moves c (dukErlangPushTerm t) st
    ((convert c.engine.arrayLength t).map fun v => ((), v :: st)) (st.length + slots t)

/-- Pushing the elements of a tuple appends their values to the array on the top. -/
def ElementsMove (c : Ctx ω) (es : List ETerm) : Prop :=
  ∀ (vs st : List JsVal), st.length + 1 ≤ c.reserve →
    Moves c (dukErlangPushElements es vs.length) (.ofList vs :: st)
      ((convertElements c.engine.arrayLength es).map fun ws => ((), .ofList (vs ++ ws) :: st))
      (st.length + 1 + slotsElements es)

/-- Pushing the cells of a list appends their values to the array on the top. -/
def CellsMove (c : Ctx ω) (tl : ETerm) : Prop :=
  ∀ (n : ℕ) (vs st : List JsVal), erlLength tl = n → st.length + 1 ≤ c.reserve →
    Moves c (dukErlangPushCells tl st.length n vs.length) (.ofList vs :: st)
      ((convertCells c.engine.arrayLength tl).map fun ws => ((), .ofList (vs ++ ws) :: st))
      (st.length + 1 + slotsCells tl)

/-- Pushing the pairs of a keyword list puts their values on the array on the top. -/
def PairsMove (c : Ctx ω) (tl : ETerm) : Prop :=
  ∀ (n : ℕ) (array : JsVal) (st : List JsVal), erlLength tl = n →
    isObjectAlikeLoop n tl = true → array.isArray = true → st.length + 1 ≤ c.reserve →
    Moves c (dukErlangPushPairs tl st.length n) (array :: st)
      ((convertPairs c.engine.arrayLength tl array).map fun w => ((), w :: st))
      (st.length + 1 + slotsPairs tl)

theorem elementsMove_nil : ElementsMove c [] := by
  intro vs st htop
  rw [convertElements, Option.map_some, List.append_nil]
  exact Moves.of_ok htop rfl

theorem elementsMove_cons {e : ETerm} {es : List ETerm} (he : TermMoves c e)
    (hes : ElementsMove c es) : ElementsMove c (e :: es) := by
  intro vs st htop
  have hrest : ∀ v, Moves c (dukErlangPushElements es (vs.length + 1))
      (.ofList (vs ++ [v]) :: st) ((convertElements c.engine.arrayLength es).map
        fun ws => ((), .ofList (vs ++ v :: ws) :: st)) (st.length + 1 + slotsElements es) := by
    intro v
    have h := hes (vs ++ [v]) st htop
    simpa only [List.length_append, List.length_singleton, List.append_assoc,
      List.singleton_append] using h
  rw [dukErlangPushElements_cons]
  refine (Moves.bind (he (.ofList vs :: st)) fun v _ _ =>
    Moves.bind (dukPutPropIndex_moves (Ctx.slot_neg_two _ _ _ _) htop) fun _ _ _ =>
      hrest v).congr ?_ ?_
  · rw [convertElements]
    rcases convert c.engine.arrayLength e with _ | v
    · rfl
    · rcases convertElements c.engine.arrayLength es with _ | ws <;> rfl
  · rw [slotsElements, List.length_cons]
    omega

theorem cellsMove_nil : CellsMove c .nil := by
  rintro n vs st hn htop
  have hzero : n = 0 := by simpa [erlLength] using hn.symm
  have hnil : convertCells c.engine.arrayLength .nil = some [] := rfl
  subst hzero
  rw [hnil, Option.map_some, List.append_nil]
  exact Moves.of_ok htop rfl

theorem cellsMove_cons {hd tl : ETerm} (hhd : TermMoves c hd) (htl : CellsMove c tl) :
    CellsMove c (.cons hd tl) := by
  rintro n vs st hn htop
  obtain ⟨n, rfl, hlen⟩ := erlLength_cons_eq hn
  have hrest : ∀ v, Moves c (dukErlangPushCells tl st.length n (vs.length + 1))
      (.ofList (vs ++ [v]) :: st) ((convertCells c.engine.arrayLength tl).map
        fun ws => ((), .ofList (vs ++ v :: ws) :: st)) (st.length + 1 + slotsCells tl) := by
    intro v
    have h := htl n (vs ++ [v]) st hlen htop
    simpa only [List.length_append, List.length_singleton, List.append_assoc,
      List.singleton_append] using h
  rw [dukErlangPushCells_succ]
  refine (Moves.bind (hhd (.ofList vs :: st)) fun v _ _ =>
    Moves.bind (dukPutPropIndex_moves (Ctx.slot_bottom c [v] _ st) htop) fun _ _ _ =>
      hrest v).congr ?_ ?_
  · rw [convertCells]
    rcases convert c.engine.arrayLength hd with _ | v
    · rfl
    · rcases convertCells c.engine.arrayLength tl with _ | ws <;> rfl
  · rw [slotsCells, List.length_cons]
    omega

theorem pairsMove_nil : PairsMove c .nil := by
  rintro n array st hn halike harray htop
  have hzero : n = 0 := by simpa [erlLength] using hn.symm
  subst hzero
  exact Moves.of_ok htop rfl

theorem pairsMove_cons {hd tl : ETerm}
    (hvalue : ∀ name value, hd = .tuple [.atom name, value] → TermMoves c value)
    (htl : PairsMove c tl) : PairsMove c (.cons hd tl) := by
  rintro n array st hn halike harray htop
  obtain ⟨n, rfl, hlen⟩ := erlLength_cons_eq hn
  obtain ⟨name, value, tl', heq, htail⟩ := isObjectAlikeLoop_succ halike
  cases heq
  rw [dukErlangPushPairs_succ]
  refine (Moves.bind (hvalue name value rfl (array :: st)) fun v _ _ =>
    Moves.bind (dukPutPropString_moves harray v st name htop) fun w hw _ =>
      htl n w st hlen htail (putNamed_isArray hw) htop).congr ?_ ?_
  · rw [convertPairs]
    rcases convert c.engine.arrayLength value with _ | v
    · rfl
    · rcases h : putNamed c.engine.arrayLength array name v with _ | w
      · simp [h]
      · simp [h]
  · rw [slotsPairs, List.length_cons]
    omega

variable {hd tl : ETerm}

theorem termMoves_tuple {es : List ETerm} (hes : ElementsMove c es) : TermMoves c (.tuple es) := by
  intro st
  rw [dukErlangPushTerm_tuple]
  refine (Moves.bind (dukPushArray_moves st) fun _ _ htop => hes [] st htop).congr ?_ ?_
  · rw [Option.bind_some, convert, Option.map_map]
    rfl
  · rw [slots]
    omega

theorem termMoves_pairs {m : ℕ} (hio : ¬ erlIolistLength (.cons hd tl) ≥ 0)
    (halike : dukErlangIsObjectAlike (.cons hd tl) = true)
    (hlen : erlLength (.cons hd tl) = ↑(m + 1))
    (hloop : isObjectAlikeLoop (m + 1) (.cons hd tl) = true)
    (hpairs : PairsMove c (.cons hd tl)) : TermMoves c (.cons hd tl) := by
  intro st
  have hpos : 0 < erlLength (.cons hd tl) := by omega
  rw [dukErlangPushTerm_pairs hio halike hlen, convert_pairs hio halike hpos,
    slots_pairs hio halike hpos]
  refine (Moves.bind (dukPushArray_moves st) fun _ _ htop =>
    hpairs (m + 1) (.ofList []) st hlen hloop rfl htop).congr ?_ ?_
  · rw [Option.bind_some]
  · omega

/-- An improper list is pushed as an empty array. -/
theorem termMoves_improper (hio : ¬ erlIolistLength (.cons hd tl) ≥ 0)
    (halike : dukErlangIsObjectAlike (.cons hd tl) = true) (hlen : ¬ 0 < erlLength (.cons hd tl)) :
    TermMoves c (.cons hd tl) := by
  intro st
  rw [dukErlangPushTerm_improper hio halike hlen, convert_improper hio halike hlen,
    slots_improper hio halike hlen]
  refine (Moves.bind (dukPushArray_moves st) fun _ _ htop =>
    (Moves.of_ok htop rfl
      : Moves c (pure () : DukM ω Unit) _ (some ((), .ofList [] :: st)) _)).congr rfl ?_
  omega

theorem termMoves_cells {m : ℕ} (hio : ¬ erlIolistLength (.cons hd tl) ≥ 0)
    (halike : ¬ dukErlangIsObjectAlike (.cons hd tl) = true)
    (hlen : erlLength (.cons hd tl) = ↑(m + 1))
    (hcells : CellsMove c (.cons hd tl)) : TermMoves c (.cons hd tl) := by
  intro st
  rw [dukErlangPushTerm_cells hio halike hlen, convert_cells hio halike, slots_cells hio halike]
  refine (Moves.bind (dukPushArray_moves st) fun _ _ htop =>
    hcells (m + 1) [] st hlen htop).congr ?_ ?_
  · rw [Option.bind_some, Option.map_map]
    rfl
  · omega

/-- A list is text, a keyword list or an array of its elements. -/
theorem termMoves_cons (hcells : CellsMove c (.cons hd tl)) (hpairs : PairsMove c (.cons hd tl)) :
    TermMoves c (.cons hd tl) := by
  cases listCase hd tl with
  | text hio =>
    intro st
    rw [dukErlangPushTerm_text hio, dukPushString_text, convert_text hio, slots_text hio]
    exact dukPush_moves _ st
  | pairs hio halike hlen hloop => exact termMoves_pairs hio halike hlen hloop hpairs
  | improper hio halike hlen => exact termMoves_improper hio halike hlen
  | cells hio halike hlen => exact termMoves_cells hio halike hlen hcells

mutual

theorem dukErlangPushTerm_moves : ∀ t : ETerm, TermMoves c t
  | .integer _ | .unsigned _ | .float _ | .atom _ | .binary _ | .nil => fun st => dukPush_moves _ st
  | .longlong _ | .ulonglong _ | .other _ => fun _ => Moves.of_fails ⟨_, _, trivial, rfl⟩
  | .tuple es => termMoves_tuple (dukErlangPushElements_moves es)
  | .cons hd tl => by
    refine termMoves_cons (cellsMove_cons (dukErlangPushTerm_moves hd)
      (dukErlangPushCells_moves tl)) (pairsMove_cons ?_ (dukErlangPushPairs_moves tl))
    rintro name value rfl
    exact dukErlangPushTerm_moves value

theorem dukErlangPushElements_moves : ∀ es : List ETerm, ElementsMove c es
  | [] => elementsMove_nil
  | e :: es => elementsMove_cons (dukErlangPushTerm_moves e) (dukErlangPushElements_moves es)

theorem dukErlangPushCells_moves : ∀ tl : ETerm, CellsMove c tl
  | .nil => cellsMove_nil
  | .cons hd tl => cellsMove_cons (dukErlangPushTerm_moves hd) (dukErlangPushCells_moves tl)
  | .integer _ | .unsigned _ | .float _ | .atom _ | .binary _ | .longlong _ | .ulonglong _
  | .tuple _ | .other _ => fun n _ _ hn => by simp [erlLength] at hn

theorem dukErlangPushPairs_moves : ∀ tl : ETerm, PairsMove c tl
  | .nil => pairsMove_nil
  | .cons hd tl => by
    refine pairsMove_cons ?_ (dukErlangPushPairs_moves tl)
    rintro name value rfl
    exact dukErlangPushTerm_moves value
  | .integer _ | .unsigned _ | .float _ | .atom _ | .binary _ | .longlong _ | .ulonglong _
  | .tuple _ | .other _ => fun n _ _ hn => by simp [erlLength] at hn

end

/-- A term that converts is pushed as its value, if there is room. -/
theorem dukErlangPushTerm_ok {t : ETerm} {v : JsVal} {st : List JsVal}
    (hv : convert c.engine.arrayLength t = some v) (hfits : st.length + slots t ≤ c.reserve) :
    dukErlangPushTerm t (c.withStack st) = .ok () (c.withStack (v :: st)) :=
  (dukErlangPushTerm_moves t st).1 _ _ (by rw [hv, Option.map_some]) hfits

/-- A term that does not convert, or has no room, is not pushed. -/
theorem dukErlangPushTerm_fails {t : ETerm} {st : List JsVal}
    (h : convert c.engine.arrayLength t = none ∨ c.reserve < st.length + slots t) :
    Fails (dukErlangPushTerm t) (c.withStack st) :=
  (dukErlangPushTerm_moves t st).2 (h.imp_left fun h => by rw [h, Option.map_none])

theorem dukErlangPushTerm_eq_ok {t : ETerm} {st : List JsVal} {c' : Ctx ω} :
    dukErlangPushTerm t (c.withStack st) = .ok () c'
      ↔ ∃ v, convert c.engine.arrayLength t = some v ∧ st.length + slots t ≤ c.reserve
        ∧ c' = c.withStack (v :: st) := by
  constructor
  · intro h
    have hconv : convert c.engine.arrayLength t ≠ none := fun hnone =>
      not_fails_of_ok h (dukErlangPushTerm_fails (Or.inl hnone))
    have hroom : st.length + slots t ≤ c.reserve := by
      by_contra hfull
      exact not_fails_of_ok h (dukErlangPushTerm_fails (Or.inr (by omega)))
    obtain ⟨v, hv⟩ := Option.ne_none_iff_exists'.1 hconv
    rw [dukErlangPushTerm_ok hv hroom] at h
    cases h
    exact ⟨v, hv, hroom, rfl⟩
  · rintro ⟨v, hv, hroom, rfl⟩
    exact dukErlangPushTerm_ok hv hroom

/-- Whatever is pushed is what the term converts to. -/
theorem convert_of_dukErlangPushTerm {t : ETerm} {v : JsVal} {st : List JsVal}
    (h : dukErlangPushTerm t (c.withStack st) = .ok () (c.withStack (v :: st))) :
    convert c.engine.arrayLength t = some v := by
  obtain ⟨w, hw, -, hc⟩ := dukErlangPushTerm_eq_ok.1 h
  have hstack := congrArg Ctx.stack hc
  rw [Ctx.withStack_stack, Ctx.withStack_stack] at hstack
  rw [hw, List.head_eq_of_cons_eq hstack]

end Terms

end Erlm
