import Erlm.Lib.Squeeze
import Erlm.Proofs.Reads
import Erlm.Proofs.Unroll

/-!
# Arrays with holes

`duk_erlang_get_array` makes its buffer as long as the array, fills it from the front with the
index properties there are, those of the prototypes behind the array's own, and reads all of it. So
an array with holes comes out right only by chance (`encodesArray_iff`).
-/

namespace Erlm

open ETerm (ofList)

variable {ω : Type} {c : Ctx ω} {st : List JsVal} {idx : ℤ} {read : JsVal → Option ETerm}

section Buffer

/-- The slots written so far are those of the first entries. -/
theorem foldlM_arrayStep (ps : Props) (done : List ETerm) (k : ℕ) (s : ArrayState) :
    ps.foldlM (arrayStep read) ⟨done.map some ++ List.replicate k none, done.length⟩ = some s
      ↔ ps.length ≤ k ∧ ∃ ts, List.Forall₂ (fun p t => read p.2 = some t) ps ts
        ∧ s = ⟨(done ++ ts).map some ++ List.replicate (k - ts.length) none,
          (done ++ ts).length⟩ := by
  induction ps generalizing done k with
  | nil =>
    simp only [List.foldlM_nil, List.forall₂_nil_left_iff, exists_eq_left, List.append_nil,
      List.length_nil, Nat.sub_zero, Nat.zero_le, true_and]
    exact Option.some_inj.trans eq_comm
  | cons p ps ih =>
    rw [List.foldlM_cons, Option.bind_eq_bind, Option.bind_eq_some_iff]
    rcases k with _ | k
    · refine iff_of_false ?_ (by simp)
      intro h
      obtain ⟨s', hstep, -⟩ := h
      rcases hread : read p.2 with _ | t <;> simp [arrayStep, hread] at hstep
    · rcases hread : read p.2 with _ | t
      · refine iff_of_false ?_ ?_
        · intro h
          obtain ⟨s', hstep, -⟩ := h
          simp [arrayStep, hread] at hstep
        · intro h
          obtain ⟨-, ts, hts, -⟩ := h
          rcases hts with _ | ⟨ht, -⟩
          rw [hread] at ht
          cases ht
      · have hstep : arrayStep read ⟨done.map some ++ List.replicate (k + 1) none, done.length⟩ p
            = some ⟨(done ++ [t]).map some ++ List.replicate k none, (done ++ [t]).length⟩ := by
          simp [arrayStep, hread, List.replicate_succ]
        simp only [hstep, Option.some.injEq, exists_eq_left', ih, List.length_cons,
          Nat.add_le_add_iff_right, List.forall₂_cons_left_iff, hread]
        refine and_congr_right fun _ => ⟨?_, ?_⟩
        · intro h
          obtain ⟨ts, hts, rfl⟩ := h
          exact ⟨t :: ts, ⟨t, ts, rfl, hts, rfl⟩, by simp⟩
        · intro h
          obtain ⟨_, ⟨t, ts, rfl, hts, rfl⟩, rfl⟩ := h
          exact ⟨ts, hts, by simp⟩

/-- The slots that were written are read. -/
theorem collect_written (ts : List ETerm) (rest : List (Option ETerm)) :
    ∀ m ≤ ts.length, ∀ us : List ETerm,
      collect (ts.map some ++ rest) m (ofList us) = some (ofList (ts.take m ++ us))
  | 0, _, _ => rfl
  | m + 1, hm, us => by
    have hslot : (ts.map some ++ rest)[m]? = some (some ts[m]) := by
      rw [List.getElem?_append_left (by simpa using hm), List.getElem?_map,
        List.getElem?_eq_getElem hm, Option.map_some]
    have ih := collect_written ts rest m (by omega) (ts[m] :: us)
    rw [collect, hslot, List.take_succ_eq_append_getElem hm, List.append_assoc]
    exact ih

/-- The others are not. -/
theorem collect_unwritten (ts : List ETerm) (k : ℕ) {m : ℕ} (hm : ts.length < m) (list : ETerm) :
    collect (ts.map some ++ List.replicate k none) m list = none := by
  obtain ⟨m, rfl⟩ : ∃ n, m = n + 1 := ⟨m - 1, by omega⟩
  rw [collect, List.getElem?_append_right (by simp; omega), List.getElem?_replicate]
  split_ifs <;> rfl

/-- How many slots are read: `array_index` starts below zero for a length an `int` cannot hold. -/
theorem slots_read {n : ℕ} (hn : n < 2 ^ 32) :
    (toInt ((n : ℤ) - 1) + 1).toNat = if n ≤ 2 ^ 31 then n else 0 := by
  unfold toInt
  rw [Int.bmod_def]
  split_ifs <;> omega

/-- As many terms as the array has elements come out exactly if there is an index property for each
slot. -/
theorem arrayTerm_eq_some {n : ℕ} (hn : n < 2 ^ 32) {ps : Props} {us : List ETerm}
    (hus : us.length = n) : arrayTerm read n ps = some (ofList us)
      ↔ n ≤ 2 ^ 31 ∧ List.Forall₂ (fun p t => read p.2 = some t) ps us := by
  have hfold := @foldlM_arrayStep read ps [] n
  simp only [List.map_nil, List.nil_append, List.length_nil] at hfold
  rw [arrayTerm, Option.bind_eq_bind, Option.bind_eq_some_iff, slots_read hn]
  constructor
  · intro h
    obtain ⟨s, hs, hcollect⟩ := h
    obtain ⟨hle, ts, hts, rfl⟩ := (hfold s).1 hs
    split_ifs at hcollect with hsmall
    · have hlen : n ≤ ts.length := by
        by_contra hlt
        rw [collect_unwritten ts _ (by omega)] at hcollect
        cases hcollect
      have hall := collect_written ts (List.replicate (n - ts.length) none) n hlen []
      rw [List.append_nil, List.take_of_length_le (by rw [← hts.length_eq]; exact hle)] at hall
      obtain rfl := ETerm.ofList_injective (Option.some.inj (hall.symm.trans hcollect))
      exact ⟨hsmall, hts⟩
    · have hnil : ofList [] = ofList us := Option.some.inj hcollect
      rw [← ETerm.ofList_injective hnil] at hus
      simp only [List.length_nil] at hus
      omega
  · intro h
    obtain ⟨hsmall, hts⟩ := h
    refine ⟨_, (hfold _).2 ⟨(hts.length_eq.trans hus).le, us, hts, rfl⟩, ?_⟩
    have hall := collect_written us (List.replicate (n - us.length) none) n hus.ge []
    rw [List.append_nil, List.take_of_length_le hus.le] at hall
    rw [if_pos hsmall]
    exact hall

end Buffer

section Readable

/-- Every array inside, down to that depth, has no more index properties than slots and one for each
slot that is read. -/
def Readable (store : Store) : ℕ → JsVal → Prop
  | 0, _ => False
  | depth + 1, v =>
    match v with
    | .undefined | .null | .boolean _ | .number _ | .string _ => True
    | .array elems _ _ =>
      let ps := EnumFlags.arrayIndicesOnly.props store v
      (ps.length ≤ elems.length ∧ (toInt (elems.length - 1 : ℤ) + 1).toNat ≤ ps.length)
        ∧ ∀ p ∈ ps, Readable store depth p.2
    | _ => ∀ p ∈ EnumFlags.ownPropertiesOnly.props store v, Readable store depth p.2

theorem isSome_collect_written (ts : List ETerm) (k m : ℕ) :
    (collect (ts.map some ++ List.replicate k none) m .nil).isSome = true ↔ m ≤ ts.length := by
  rcases Nat.lt_or_ge ts.length m with hlt | hle
  · rw [collect_unwritten ts k hlt]
    exact iff_of_false (by simp) (by omega)
  · have hall := collect_written ts (List.replicate k none) m hle []
    rw [ofList] at hall
    rw [hall]
    exact iff_of_true rfl hle

theorem exists_forall₂_iff {ps : Props} :
    (∃ ts, List.Forall₂ (fun p t => read p.2 = some t) ps ts)
      ↔ ∀ p ∈ ps, (read p.2).isSome = true := by
  induction ps with
  | nil => simp
  | cons p ps ih =>
    rw [List.forall_mem_cons, ← ih, Option.isSome_iff_exists]
    constructor
    · intro h
      rcases h with ⟨_, _ | @⟨_, t, _, ts, ht, hts⟩⟩
      exact ⟨⟨t, ht⟩, ts, hts⟩
    · intro h
      obtain ⟨⟨t, ht⟩, ts, hts⟩ := h
      exact ⟨t :: ts, .cons ht hts⟩

theorem isSome_arrayTerm {n : ℕ} {ps : Props} : (arrayTerm read n ps).isSome = true
    ↔ (ps.length ≤ n ∧ (toInt (n - 1 : ℤ) + 1).toNat ≤ ps.length)
      ∧ ∀ p ∈ ps, (read p.2).isSome = true := by
  have hfold := @foldlM_arrayStep read ps [] n
  simp only [List.map_nil, List.nil_append, List.length_nil] at hfold
  rw [← exists_forall₂_iff, arrayTerm, Option.bind_eq_bind]
  constructor
  · intro h
    obtain ⟨t, ht⟩ := Option.isSome_iff_exists.1 h
    obtain ⟨s, hs, hcollect⟩ := Option.bind_eq_some_iff.1 ht
    obtain ⟨hle, ts, hts, rfl⟩ := (hfold s).1 hs
    have hread := Option.isSome_iff_exists.2 ⟨t, hcollect⟩
    rw [isSome_collect_written, ← hts.length_eq] at hread
    exact ⟨⟨hle, hread⟩, ts, hts⟩
  · intro h
    obtain ⟨⟨hle, hread⟩, ts, hts⟩ := h
    rw [(hfold _).2 ⟨hle, ts, hts, rfl⟩, Option.bind_some, isSome_collect_written,
      ← hts.length_eq]
    exact hread

theorem isSome_objectTerm {ps : Props} :
    (objectTerm read ps).isSome = true ↔ ∀ p ∈ ps, (read p.2).isSome = true := by
  have hfold : ∀ list, (ps.foldlM (objectStep read) list).isSome = true
      ↔ ∀ p ∈ ps, (read p.2).isSome = true := by
    induction ps with
    | nil => exact fun _ => by simp
    | cons p ps ih =>
      intro list
      rw [List.foldlM_cons, Option.bind_eq_bind, objectStep, List.forall_mem_cons]
      rcases read p.2 with _ | t
      · simp
      · simp [ih]
  exact hfold .nil

/-- The values that have a term. -/
theorem isSome_readTerm {store : Store} (depth : ℕ) (v : JsVal) :
    (readTerm store depth v).isSome = true ↔ Readable store depth v := by
  induction depth generalizing v with
  | zero => simp [readTerm, Readable]
  | succ depth ih =>
    cases v with
    | undefined | null | boolean | number | string => exact iff_of_true rfl trivial
    | array elems named proto =>
      exact isSome_arrayTerm.trans (and_congr_right fun _ => forall₂_congr fun p _ => ih p.2)
    | object | function | enumerator | error | ref =>
      exact isSome_objectTerm.trans (forall₂_congr fun p _ => ih p.2)

end Readable

section Undefined

/-- The conversion of an array or an object is a list. -/
theorem isList_collect {buffer : List (Option ETerm)} {t : ETerm} :
    ∀ {n : ℕ} {list : ETerm}, list.isList = true → collect buffer n list = some t →
      t.isList = true
  | 0, _, hlist, h => by
    obtain rfl := Option.some.inj h
    exact hlist
  | n + 1, list, _, h => by
    rw [collect] at h
    split at h
    · exact isList_collect rfl h
    · cases h

theorem isList_arrayTerm {n : ℕ} {ps : Props} {t : ETerm} (h : arrayTerm read n ps = some t) :
    t.isList = true := by
  obtain ⟨s, -, hcollect⟩ := Option.bind_eq_some_iff.1 h
  exact isList_collect rfl hcollect

theorem isList_objectTerm {ps : Props} {t : ETerm} (h : objectTerm read ps = some t) :
    t.isList = true := by
  have hfold : ∀ (ps : Props) (list t : ETerm), list.isList = true →
      ps.foldlM (objectStep read) list = some t → t.isList = true := by
    intro ps
    induction ps with
    | nil =>
      intro list t hlist h
      obtain rfl := Option.some.inj h
      exact hlist
    | cons p ps ih =>
      intro list t _ h
      rw [List.foldlM_cons, Option.bind_eq_bind, Option.bind_eq_some_iff] at h
      obtain ⟨list', hstep, h⟩ := h
      obtain ⟨value, -, rfl⟩ := Option.map_eq_some_iff.1 hstep
      exact ih _ t rfl h
  exact hfold ps .nil t rfl h

/-- Only undefined reads as undefined. -/
theorem eq_undefined_of_readTerm {store : Store} {depth : ℕ} {v : JsVal}
    (h : readTerm store (depth + 1) v = readTerm store (depth + 1) .undefined) :
    v = .undefined := by
  have hundefined : readTerm store (depth + 1) .undefined
      = some (atomOf ['u', 'n', 'd', 'e', 'f', 'i', 'n', 'e', 'd']) := rfl
  rw [hundefined] at h
  cases v with
  | undefined => rfl
  | null => exact absurd (Option.some.inj h) (by simp [atomOf, ascii])
  | boolean b => cases b <;> exact absurd (Option.some.inj h) (by simp [atomOf, ascii])
  | number d => cases h
  | string s =>
    have := congrArg ETerm.isList (Option.some.inj h)
    rw [erlMkString, ETerm.isList_ofList] at this
    cases this
  | array elems named proto => cases isList_arrayTerm h
  | object | function | enumerator | error | ref => cases isList_objectTerm h

end Undefined

section Encodes

/-- `duk_erlang_get_array` returns the list of the encodings of the array's elements, undefined for
a hole, and leaves the stack as it was. -/
def EncodesArray (c : Ctx ω) (st : List JsVal) (idx : ℤ) (elems : List (Option JsVal)) : Prop :=
  ∃ ts, dukErlangGetArray (dukErlangGetTermN c.reserve) idx (c.withStack st)
      = .ok (ofList ts) (c.withStack st)
    ∧ List.Forall₂ (fun e t => readTerm c.store c.reserve (e.getD .undefined) = some t) elems ts

/-- There are as many values as places, and those from the first hole on are undefined. -/
def FallIntoPlace (elems : List (Option JsVal)) (vs : List JsVal) : Prop :=
  vs.length = elems.length ∧ ∀ v ∈ vs.drop (elems.takeWhile Option.isSome).length, v = .undefined

/-- The values of an array's index properties are those of its elements and then the others. -/
theorem elements_array (store : Store) (elems : List (Option JsVal)) (named : Props)
    (proto : Option JsVal) :
    ∃ more, (JsVal.array elems named proto).elements store = elems.reduceOption ++ more := by
  rcases proto with _ | v
  · exact ⟨[], by rw [JsVal.elements, JsVal.indexed, map_snd_present, List.append_nil]⟩
  · exact ⟨_, by rw [JsVal.elements, JsVal.indexed, List.map_append, map_snd_present]⟩

/-- The values and the elements read alike, and all can be read. -/
theorem readAlike_iff {vs : List JsVal} {elems : List (Option JsVal)} :
    (∃ ts, List.Forall₂ (fun v t => read v = some t) vs ts
        ∧ List.Forall₂ (fun e t => read (e.getD .undefined) = some t) elems ts)
      ↔ (∀ v ∈ vs, (read v).isSome = true)
        ∧ List.Forall₂ (fun e v => read (e.getD .undefined) = read v) elems vs := by
  induction vs generalizing elems with
  | nil => simp
  | cons v vs ih =>
    rcases elems with _ | ⟨e, elems⟩
    · simp
    · rw [List.forall_mem_cons, List.forall₂_cons, and_and_and_comm, ← ih, Option.isSome_iff_exists]
      constructor
      · intro h
        obtain ⟨_, hvs, helems⟩ := h
        rcases hvs with _ | @⟨_, t, _, ts, hv, hvs⟩
        rcases helems with _ | ⟨he, helems⟩
        exact ⟨⟨⟨t, hv⟩, he.trans hv.symm⟩, ts, hvs, helems⟩
      · intro h
        obtain ⟨⟨⟨t, hv⟩, he⟩, ts, hvs, helems⟩ := h
        exact ⟨t :: ts, .cons hv hvs, .cons (he.trans hv) helems⟩

variable {elems : List (Option JsVal)} {named : Props} {proto : Option JsVal}

theorem arrayTerm_encodes_iff (hlen : elems.length < 2 ^ 32) {ps : Props} :
    (∃ ts, arrayTerm read elems.length ps = some (ofList ts)
        ∧ List.Forall₂ (fun e t => read (e.getD .undefined) = some t) elems ts)
      ↔ elems.length ≤ 2 ^ 31 ∧ (∀ v ∈ ps.map Prod.snd, (read v).isSome = true)
        ∧ List.Forall₂ (fun e v => read (e.getD .undefined) = read v) elems
          (ps.map Prod.snd) := by
  rw [← readAlike_iff, ← exists_and_left]
  refine exists_congr fun ts => ?_
  rw [← and_assoc]
  refine and_congr_left fun helems => ?_
  rw [arrayTerm_eq_some hlen helems.length_eq.symm, List.forall₂_map_left_iff]

/-- The conversion in terms of the buffer alone. -/
theorem encodesArray_iff_arrayTerm (hv : (c.withStack st).get idx = .array elems named proto) :
    EncodesArray c st idx elems
      ↔ st.length + need c.store (c.reserve + 1) (.array elems named proto) ≤ c.reserve
        ∧ ∃ ts, arrayTerm (readTerm c.store c.reserve) elems.length
            (EnumFlags.arrayIndicesOnly.props c.store (.array elems named proto))
              = some (ofList ts)
          ∧ List.Forall₂ (fun e t => readTerm c.store c.reserve (e.getD .undefined) = some t)
            elems ts := by
  have hreaches := dukErlangGetArray_reaches
    (@convertsTop_getTermN _ c c.reserve (st.length + 3) (by omega)) hv rfl
  simp only [EncodesArray, hreaches.eq_ok_iff, and_assoc, exists_and_left]
  rfl

/-- An array is encoded exactly if its length and the conversion of what is in it fit, and its
index properties fall into place. -/
theorem encodesArray_iff (hv : (c.withStack st).get idx = .array elems named proto)
    (hlen : elems.length < 2 ^ 32) : EncodesArray c st idx elems
      ↔ elems.length ≤ 2 ^ 31
        ∧ st.length + need c.store (c.reserve + 1) (.array elems named proto) ≤ c.reserve
        ∧ (∀ v ∈ (JsVal.array elems named proto).elements c.store,
          Readable c.store c.reserve v)
        ∧ FallIntoPlace elems ((JsVal.array elems named proto).elements c.store) := by
  have helements : (EnumFlags.arrayIndicesOnly.props c.store (.array elems named proto)).map
      Prod.snd = (JsVal.array elems named proto).elements c.store := by
    simp [EnumFlags.props, JsVal.elements, Function.comp_def]
  obtain ⟨more, hmore⟩ := elements_array c.store elems named proto
  rw [encodesArray_iff_arrayTerm hv, arrayTerm_encodes_iff hlen, helements, and_left_comm]
  simp only [isSome_readTerm]
  refine and_congr_right fun _ => and_congr_right fun hroom => and_congr_right fun _ => ?_
  have hneed : 1 ≤ need c.store (c.reserve + 1) (.array elems named proto) := Nat.le_add_right 1 _
  obtain ⟨depth, hdepth⟩ : ∃ depth, c.reserve = depth + 1 := ⟨c.reserve - 1, by omega⟩
  rw [hmore, FallIntoPlace, hdepth]
  exact Squeeze.forall₂_squeeze_iff (fun v h => eq_undefined_of_readTerm h) elems more

/-- `[1, ,]`, with an undefined on its prototype to fall into the hole. -/
def filledArray : JsVal :=
  .array [some (.number (.ofInt 1)), none] [] (some (.array [none, some .undefined] [] none))

theorem encodesArray_filled :
    EncodesArray (Ctx.bare 64 ()) [filledArray] (-1) [some (.number (.ofInt 1)), none]
      ↔ 2 ≤ 2 ^ 31
        ∧ 1 + need (fun _ => []) 65 filledArray ≤ 64
        ∧ (∀ v ∈ filledArray.elements fun _ => [], Readable (fun _ => []) 64 v)
        ∧ FallIntoPlace [some (.number (.ofInt 1)), none] (filledArray.elements fun _ => []) :=
  encodesArray_iff (c := Ctx.bare 64 ()) (Ctx.get_neg_one _ _ _) (by decide)

/-- `[ , 1]`: the element goes to slot 0, and slot 1 is read without having been written. -/
theorem not_encodesArray_hole :
    ¬ EncodesArray (Ctx.bare 64 ()) [.array [none, some (.number (.ofInt 1))] [] none] (-1)
      [none, some (.number (.ofInt 1))] := by
  intro h
  rw [encodesArray_iff_arrayTerm (c := Ctx.bare 64 ()) (Ctx.get_neg_one _ _ _)] at h
  obtain ⟨-, ts, hts, helems⟩ := h
  rw [arrayTerm_eq_some (by decide) helems.length_eq.symm] at hts
  have hone : 1 = ts.length := hts.2.length_eq
  have htwo : 2 = ts.length := helems.length_eq
  omega

end Encodes

end Erlm
