import Erlm.Data
import Erlm.Proofs.Context

/-!
# `duk_erlang_get_term` and the recursive encoding

Run on plain data at any index of a stack, `duk_erlang_get_term` returns the term of the data and
leaves the stack as it was if the stack has room for it, and throws otherwise
(`dukErlangGetTerm_ok`, `dukErlangGetTerm_throws`).
-/

namespace Erlm

open ETerm (ofList)
open JsData (toJs termOf)

variable {ω : Type}

/-- `getTerm` is right about a value that stands in a stack of `n` entries. -/
def Gets (c : Ctx ω) (getTerm : ℤ → DukM ω ETerm) (d : JsData) (n : ℕ) : Prop :=
  ∀ (idx : ℤ) (st : List JsVal), st.length = n → n ≤ c.reserve →
    (c.withStack st).get idx = d.toJs →
    (n + d.slots ≤ c.reserve → getTerm idx (c.withStack st) = .ok d.termOf (c.withStack st))
      ∧ (c.reserve < n + d.slots → Throws (getTerm idx) (c.withStack st))

theorem gets_of_slots_eq_zero {c : Ctx ω} {getTerm : ℤ → DukM ω ETerm} {d : JsData} {n : ℕ}
    (hd : d.slots = 0) (h : ∀ (idx : ℤ) (c : Ctx ω), c.get idx = d.toJs →
      getTerm idx c = .ok d.termOf c) : Gets c getTerm d n := by
  intro idx st hn hle hv
  rw [hd]
  exact ⟨fun _ => h idx _ hv, fun hlt => absurd hlt (by omega)⟩

section Array

variable {c : Ctx ω} {st : List JsVal} {getTerm : ℤ → DukM ω ETerm} {ds : List JsData}

/-- The elements of an array under their keys. -/
def keyed (ds : List JsData) : List (Bytes × JsData) :=
  ds.zipIdx.map fun p => (decimal p.2, p.1)

@[simp] theorem length_keyed (ds : List JsData) : (keyed ds).length = ds.length := by
  simp [keyed]

theorem map_snd_keyed (ds : List JsData) : (keyed ds).map Prod.snd = ds := by
  simp [keyed, Function.comp_def]

theorem mem_keyed_iff {ds : List JsData} {P : JsData → Prop} :
    (∀ p ∈ keyed ds, P p.2) ↔ ∀ d ∈ ds, P d := by
  conv_rhs => rw [← map_snd_keyed ds]
  simp only [Prod.forall, List.mem_map, Prod.exists, exists_eq_right, forall_exists_index]
  exact forall_comm

theorem present_map_some (vs : List JsVal) :
    JsVal.present (vs.map some) = vs.zipIdx.map fun p => (p.2, p.1) := by
  simp [JsVal.present, List.zipIdx_map, List.filterMap_map]

/-- What the enumerator of an array holds. -/
theorem props_array (store : Store) (ds : List JsData) :
    EnumFlags.arrayIndicesOnly.props store (toJs (.array ds)) = entries toJs (keyed ds) := by
  rw [EnumFlags.props, JsData.toJs_array, JsVal.ofList, JsVal.indexed, present_map_some]
  simp [entries, keyed, List.zipIdx_map, Function.comp_def]

theorem consAll_run (c : Ctx ω) (ts : List ETerm) : ∀ m ≤ ts.length,
    consAll (ts.map some) m (ofList (ts.drop m)) c = .ok (ofList ts) c
  | 0, _ => rfl
  | m + 1, h => by
    have hm : (ts.map some)[m]? = some (some ts[m]) := by
      rw [List.getElem?_map, List.getElem?_eq_getElem h, Option.map_some]
    rw [consAll, hm]
    have ih := consAll_run c ts m (by omega)
    rwa [List.drop_eq_getElem_cons h, ofList] at ih

/-- The slots filled so far are those of the elements before the ones left. -/
def Filled (ds : List JsData) (rest : List (Bytes × JsData)) (s : ArrayState) : Prop :=
  ∃ done, ds = done ++ rest.map Prod.snd ∧ s.array_index = done.length
    ∧ s.buffer = done.map (fun d => some d.termOf) ++ List.replicate rest.length none

theorem arrayRound_ok (hgets : ∀ d ∈ ds, Gets c getTerm d (st.length + 3)) :
    RoundOk c st toJs (arrayRound getTerm) (Filled ds)
      fun d => st.length + 3 + d.slots ≤ c.reserve := by
  rintro key d post s ⟨done, hds, hidx, hbuf⟩ hfits
  have hd : d ∈ ds := by simp [hds]
  have hterm := ((hgets d hd) (-1)
    (toJs d :: .string key :: .enumerator (entries toJs post) :: st) (by simp) (by omega)
    (Ctx.get_neg_one _ _ _)).1 hfits
  have hlen : ¬ s.buffer.length ≤ s.array_index := by
    rw [hbuf, hidx]
    simp
  refine ⟨{ buffer := s.buffer.set s.array_index (some d.termOf)
            array_index := s.array_index + 1 }, ?_, done ++ [d], ?_, ?_, ?_⟩
  · rw [arrayRound, bind_ok hterm, if_neg hlen, bind_ok (dukPop2_ok _ _)]
    rfl
  · simp [hds]
  · simp [hidx]
  · rw [hbuf, hidx]
    simp [List.replicate_succ]

theorem arrayRound_throws (hgets : ∀ d ∈ ds, Gets c getTerm d (st.length + 3))
    (hroom : st.length + 3 ≤ c.reserve) (key : Bytes) (d : JsData) (post : List (Bytes × JsData))
    (s : ArrayState) (h : Filled ds ((key, d) :: post) s)
    (hfits : ¬ st.length + 3 + d.slots ≤ c.reserve) :
    Throws (arrayRound getTerm s)
      (c.withStack (toJs d :: .string key :: .enumerator (entries toJs post) :: st)) := by
  obtain ⟨done, hds, -, -⟩ := h
  have hd : d ∈ ds := by simp [hds]
  exact fails_bind_left (((hgets d hd) (-1) _ (by simp) (by omega) (Ctx.get_neg_one _ _ _)).2
    (by omega)) _

theorem filled_start (ds : List JsData) :
    Filled ds (keyed ds) (ArrayState.mk (List.replicate ds.length none) 0) :=
  ⟨[], by simp [map_snd_keyed], rfl, by simp⟩

theorem dukGetLength_run {idx : ℤ} (h : (c.withStack st).get idx = toJs (.array ds)) :
    dukGetLength idx (c.withStack st) = .ok ds.length (c.withStack st) := by
  rw [dukGetLength, bind_ok (dukGet_run _ _), h]
  simp only [JsData.toJs_array, JsVal.ofList, List.length_map]
  rfl

theorem slots_array_le {n m : ℕ} : n + (JsData.array ds).slots ≤ m ↔
    n + 1 ≤ m ∧ ∀ d ∈ ds, n + 3 + d.slots ≤ m := by
  rw [JsData.slots]
  constructor
  · intro h
    have hle : JsData.slotsList ds ≤ m - n - 1 := by omega
    rw [JsData.slotsList_le] at hle
    exact ⟨by omega, fun d hd => by have := hle d hd; omega⟩
  · rintro ⟨h1, h2⟩
    have hle : JsData.slotsList ds ≤ m - n - 1 :=
      JsData.slotsList_le.2 fun d hd => by have := h2 d hd; omega
    omega

theorem dukErlangGetArray_ok {idx : ℤ} (hgets : ∀ d ∈ ds, Gets c getTerm d (st.length + 3))
    (hv : (c.withStack st).get idx = toJs (.array ds)) (hsmall : ds.length < 2 ^ 31)
    (hfits : st.length + (JsData.array ds).slots ≤ c.reserve) :
    dukErlangGetArray getTerm idx (c.withStack st) = .ok (termOf (.array ds)) (c.withStack st) := by
  rw [slots_array_le] at hfits
  obtain ⟨s, hloop, done, hds, -, hbuf⟩ := whileNextN_ok (arrayRound_ok hgets) (keyed ds)
    ((keyed ds).length + 1) _ (Nat.lt_succ_self _) (filled_start ds)
    (fun hne => by
      obtain ⟨d, hd⟩ := List.exists_mem_of_ne_nil ds (by simpa [keyed] using hne)
      have := hfits.2 d hd
      omega)
    (mem_keyed_iff.2 hfits.2)
  have hlist : s.buffer = (ds.map termOf).map some := by
    rw [hbuf, hds]
    simp
  have hcount : (toInt ((ds.length : ℤ) - 1) + 1).toNat = (ds.map termOf).length := by
    rw [toInt_of_isInt ⟨by omega, by omega⟩, List.length_map]
    omega
  have hcons := consAll_run (c.withStack st) (ds.map termOf) _ le_rfl
  rw [List.drop_length, ofList] at hcons
  rw [dukErlangGetArray, bind_ok (dukGetLength_run hv),
    bind_ok (dukEnum_ok hv rfl (by omega) _), props_array,
    bind_ok ((whileNext_eq _ _ _).trans hloop), bind_ok (dukPop_ok _), hlist, hcount, hcons,
    JsData.termOf_array]

theorem dukErlangGetArray_throws {idx : ℤ} (hgets : ∀ d ∈ ds, Gets c getTerm d (st.length + 3))
    (hv : (c.withStack st).get idx = toJs (.array ds))
    (hfits : c.reserve < st.length + (JsData.array ds).slots) :
    Throws (dukErlangGetArray getTerm idx) (c.withStack st) := by
  rw [dukErlangGetArray]
  refine fails_bind_right (dukGetLength_run hv) rfl ?_
  by_cases hroom : st.length < c.reserve
  · refine fails_bind_right (dukEnum_ok hv rfl hroom _) rfl (fails_bind_left ?_ _)
    rw [props_array]
    obtain ⟨d, hd, hnot⟩ : ∃ d ∈ ds, ¬ st.length + 3 + d.slots ≤ c.reserve := by
      by_contra hall
      push Not at hall
      have := slots_array_le.2 ⟨Nat.succ_le_of_lt hroom, hall⟩
      omega
    obtain ⟨p, hp, rfl⟩ : ∃ p ∈ keyed ds, p.2 = d := by
      rw [← map_snd_keyed ds] at hd
      simpa using hd
    obtain ⟨e, c', hk, he⟩ := whileNextN_throws (arrayRound_ok hgets) (arrayRound_throws hgets)
      (keyed ds) ((keyed ds).length + 1) _ (Nat.lt_succ_self _) (filled_start ds)
      (Or.inl ⟨p, hp, hnot⟩)
    exact ⟨e, c', hk, (whileNext_eq _ _ _).trans he⟩
  · exact fails_bind_left (dukEnum_full hv rfl (by omega) _) _

end Array

section Object

variable {c : Ctx ω} {st : List JsVal} {getTerm : ℤ → DukM ω ETerm} {ps : List (Bytes × JsData)}

theorem erlMkString_cString (s : Bytes) : erlMkString (cString s) = erlMkString s := by
  rw [erlMkString, cString_of_notMem (zero_notMem_cString s), erlMkString]

/-- The keyword list has the properties before the ones left, the last first. -/
def Collected (ps rest : List (Bytes × JsData)) (keyword_list : ETerm) : Prop :=
  ∃ done, ps = done ++ rest ∧ keyword_list = ofList (JsData.termOfProps done).reverse

theorem keyString_run (v : JsVal) (key : Bytes) (st : List JsVal) :
    dukGetString (-2) (c.withStack (v :: .string key :: st))
      = .ok (some (cString key)) (c.withStack (v :: .string key :: st)) := by
  rw [dukGetString, bind_ok (dukGet_run _ _), Ctx.get_neg_two]
  rfl

theorem objectRound_ok (hgets : ∀ p ∈ ps, Gets c getTerm p.2 (st.length + 3)) :
    RoundOk c st toJs (objectRound getTerm) (Collected ps)
      fun d => st.length + 3 + d.slots ≤ c.reserve := by
  rintro key d post s ⟨done, hps, rfl⟩ hfits
  have hd : (key, d) ∈ ps := by simp [hps]
  have hterm := ((hgets _ hd) (-1)
    (toJs d :: .string key :: .enumerator (entries toJs post) :: st) (by simp) (by omega)
    (Ctx.get_neg_one _ _ _)).1 hfits
  refine ⟨.cons (.tuple [erlMkString (cString key), d.termOf])
    (ofList (JsData.termOfProps done).reverse), ?_, done ++ [(key, d)], by simp [hps], ?_⟩
  · rw [objectRound, bind_ok (keyString_run _ _ _), bind_ok hterm, bind_ok (dukPop2_ok _ _)]
    rfl
  · simp [JsData.termOfProps_eq, erlMkString_cString, ofList]

theorem objectRound_throws (hgets : ∀ p ∈ ps, Gets c getTerm p.2 (st.length + 3))
    (hroom : st.length + 3 ≤ c.reserve) (key : Bytes) (d : JsData) (post : List (Bytes × JsData))
    (s : ETerm) (h : Collected ps ((key, d) :: post) s)
    (hfits : ¬ st.length + 3 + d.slots ≤ c.reserve) :
    Throws (objectRound getTerm s)
      (c.withStack (toJs d :: .string key :: .enumerator (entries toJs post) :: st)) := by
  obtain ⟨done, hps, -⟩ := h
  have hd : (key, d) ∈ ps := by simp [hps]
  exact fails_bind_right (keyString_run _ _ _) rfl (fails_bind_left (((hgets _ hd) (-1) _ (by simp)
    (by omega) (Ctx.get_neg_one _ _ _)).2 (by simp only; omega)) _)

theorem props_object (store : Store) (ps : List (Bytes × JsData)) :
    EnumFlags.ownPropertiesOnly.props store (toJs (.object ps)) = entries toJs ps := by
  rw [EnumFlags.props, JsData.toJs_object]
  rfl

theorem slots_object_le {n m : ℕ} : n + (JsData.object ps).slots ≤ m ↔
    n + 1 ≤ m ∧ ∀ p ∈ ps, n + 3 + p.2.slots ≤ m := by
  rw [JsData.slots]
  constructor
  · intro h
    have hle : JsData.slotsProps ps ≤ m - n - 1 := by omega
    rw [JsData.slotsProps_le] at hle
    exact ⟨by omega, fun p hp => by have := hle p hp; omega⟩
  · rintro ⟨h1, h2⟩
    have hle : JsData.slotsProps ps ≤ m - n - 1 :=
      JsData.slotsProps_le.2 fun p hp => by have := h2 p hp; omega
    omega

theorem dukErlangGetObject_ok {idx : ℤ} (hgets : ∀ p ∈ ps, Gets c getTerm p.2 (st.length + 3))
    (hv : (c.withStack st).get idx = toJs (.object ps))
    (hfits : st.length + (JsData.object ps).slots ≤ c.reserve) :
    dukErlangGetObject getTerm idx (c.withStack st)
      = .ok (termOf (.object ps)) (c.withStack st) := by
  rw [slots_object_le] at hfits
  obtain ⟨s, hloop, done, hps, rfl⟩ := whileNextN_ok (objectRound_ok hgets) ps
    (ps.length + 1) ETerm.nil (Nat.lt_succ_self _) ⟨[], rfl, rfl⟩
    (fun hne => by
      obtain ⟨p, hp⟩ := List.exists_mem_of_ne_nil ps hne
      have := hfits.2 p hp
      omega)
    hfits.2
  rw [List.append_nil] at hps
  rw [dukErlangGetObject, bind_ok (dukEnum_ok hv rfl (by omega) _), props_object,
    bind_ok ((whileNext_eq _ _ _).trans hloop), bind_ok (dukPop_ok _), termOf, hps]
  rfl

theorem dukErlangGetObject_throws {idx : ℤ} (hgets : ∀ p ∈ ps, Gets c getTerm p.2 (st.length + 3))
    (hv : (c.withStack st).get idx = toJs (.object ps))
    (hfits : c.reserve < st.length + (JsData.object ps).slots) :
    Throws (dukErlangGetObject getTerm idx) (c.withStack st) := by
  rw [dukErlangGetObject]
  by_cases hroom : st.length < c.reserve
  · refine fails_bind_right (dukEnum_ok hv rfl hroom _) rfl (fails_bind_left ?_ _)
    rw [props_object]
    obtain ⟨p, hp, hnot⟩ : ∃ p ∈ ps, ¬ st.length + 3 + p.2.slots ≤ c.reserve := by
      by_contra hall
      push Not at hall
      have := slots_object_le.2 ⟨Nat.succ_le_of_lt hroom, hall⟩
      omega
    obtain ⟨e, c', hk, he⟩ := whileNextN_throws (objectRound_ok hgets) (objectRound_throws hgets)
      ps (ps.length + 1) ETerm.nil (Nat.lt_succ_self _) ⟨[], rfl, rfl⟩ (Or.inl ⟨p, hp, hnot⟩)
    exact ⟨e, c', hk, (whileNext_eq _ _ _).trans he⟩
  · exact fails_bind_left (dukEnum_full hv rfl (by omega) _) _

end Object

section Term

variable {c : Ctx ω}

theorem getTermN_succ (depth : ℕ) (idx : ℤ) (c : Ctx ω) :
    (dukErlangGetTermN (depth + 1) idx) c
      = dukErlangGetTermBody (dukErlangGetTermN depth) idx c := rfl

/-- With as many levels as the stack has entries left, every value is gone through to the end. -/
theorem dukErlangGetTermN_gets (d : JsData) (hd : d.Small) : ∀ (depth n : ℕ),
    c.reserve < depth + n → Gets c (dukErlangGetTermN depth) d n := by
  induction d with
  | undefined | null | number d | string s =>
    rintro (- | depth) n hdepth
    · exact fun idx st hn hle => absurd hdepth (by omega)
    · refine gets_of_slots_eq_zero rfl fun idx c hv => ?_
      rw [getTermN_succ, dukErlangGetTermBody, bind_ok (dukGet_run _ _), hv]
      rfl
  | boolean b =>
    rintro (- | depth) n hdepth
    · exact fun idx st hn hle => absurd hdepth (by omega)
    · refine gets_of_slots_eq_zero rfl fun idx c hv => ?_
      rw [getTermN_succ, dukErlangGetTermBody, bind_ok (dukGet_run _ _), hv]
      cases b <;> rfl
  | array ds ih =>
    obtain ⟨hlen, hds⟩ := JsData.all_array.1 hd
    rintro (- | depth) n hdepth idx st rfl hle hv
    · exact absurd hdepth (by omega)
    · have hgets : ∀ d ∈ ds, Gets c (dukErlangGetTermN depth) d (st.length + 3) :=
        fun d hd => ih d hd (hds d hd) depth _ (by omega)
      have hrun : dukErlangGetTermN (depth + 1) idx (c.withStack st)
          = dukErlangGetArray (dukErlangGetTermN depth) idx (c.withStack st) := by
        rw [getTermN_succ, dukErlangGetTermBody, bind_ok (dukGet_run _ _), hv]
        rfl
      refine ⟨fun hfits => ?_, fun hfull => ?_⟩
      · rw [hrun]
        exact dukErlangGetArray_ok hgets hv hlen hfits
      · obtain ⟨e, c', hk, he⟩ := dukErlangGetArray_throws hgets hv hfull
        exact ⟨e, c', hk, hrun.trans he⟩
  | object ps ih =>
    have hps := (JsData.all_object.1 hd).2
    rintro (- | depth) n hdepth idx st rfl hle hv
    · exact absurd hdepth (by omega)
    · have hgets : ∀ p ∈ ps, Gets c (dukErlangGetTermN depth) p.2 (st.length + 3) :=
        fun p hp => ih p hp (hps p hp) depth _ (by omega)
      have hrun : dukErlangGetTermN (depth + 1) idx (c.withStack st)
          = dukErlangGetObject (dukErlangGetTermN depth) idx (c.withStack st) := by
        rw [getTermN_succ, dukErlangGetTermBody, bind_ok (dukGet_run _ _), hv]
        rfl
      refine ⟨fun hfits => ?_, fun hfull => ?_⟩
      · rw [hrun]
        exact dukErlangGetObject_ok hgets hv hfits
      · obtain ⟨e, c', hk, he⟩ := dukErlangGetObject_throws hgets hv hfull
        exact ⟨e, c', hk, hrun.trans he⟩

variable {d : JsData} {st : List JsVal} {idx : ℤ}

theorem dukErlangGetTerm_gets (hd : d.Small) : Gets c dukErlangGetTerm d st.length := by
  intro idx st' hn hle hv
  have hrun : dukErlangGetTerm idx (c.withStack st')
      = dukErlangGetTermN (c.reserve + 1) idx (c.withStack st') := by
    rw [dukErlangGetTerm, bind_ok (get_run _), Ctx.withStack_reserve]
  have hgets := dukErlangGetTermN_gets d hd (c.reserve + 1) st.length (by omega) idx st' hn hle hv
  refine ⟨fun hfits => hrun.trans (hgets.1 hfits), fun hfull => ?_⟩
  obtain ⟨e, c', hk, he⟩ := hgets.2 hfull
  exact ⟨e, c', hk, hrun.trans he⟩

/-- On plain data the conversion returns its term and leaves the stack as it was. -/
theorem dukErlangGetTerm_ok (hd : d.Small) (hv : (c.withStack st).get idx = d.toJs)
    (hfits : st.length + d.slots ≤ c.reserve) :
    dukErlangGetTerm idx (c.withStack st) = .ok d.termOf (c.withStack st) :=
  (dukErlangGetTerm_gets hd idx st rfl (by omega) hv).1 hfits

/-- If the conversion returns at all, it returns the term. -/
theorem eq_termOf_of_dukErlangGetTerm {t : ETerm} {c' : Ctx ω} (hd : d.Small)
    (hv : (c.withStack st).get idx = d.toJs) (hle : st.length ≤ c.reserve)
    (h : dukErlangGetTerm idx (c.withStack st) = .ok t c') : t = d.termOf := by
  obtain ⟨hok, hfails⟩ := dukErlangGetTerm_gets hd idx st rfl hle hv
  rcases Nat.lt_or_ge c.reserve (st.length + d.slots) with hfull | hfits
  · exact absurd (hfails hfull) (not_fails_of_ok h)
  · rw [hok hfits] at h
    cases h
    rfl

/-- On data too deep for the stack it throws. -/
theorem dukErlangGetTerm_throws (hd : d.Small) (hv : (c.withStack st).get idx = d.toJs)
    (hle : st.length ≤ c.reserve) (hfull : c.reserve < st.length + d.slots) :
    Throws (dukErlangGetTerm idx) (c.withStack st) :=
  (dukErlangGetTerm_gets hd idx st rfl hle hv).2 hfull

end Term

section Plain

namespace JsData

/-- No zero byte in a string or a key. -/
def NulFree : JsData → Prop := All fun
  | string s => 0 ∉ s
  | object props => ∀ p ∈ props, 0 ∉ p.1
  | _ => True

end JsData

/-- The list of the bytes of a string. -/
def byteList (s : Bytes) : ETerm := ofList (s.map fun b => .integer (BitVec.ofNat 32 b.toNat))

namespace JsData

mutual

/-- The plain recursive encoding: a list for a string, an array or an object, which has its
properties last first. -/
def encode : JsData → ETerm
  | undefined => atomOf ['u', 'n', 'd', 'e', 'f', 'i', 'n', 'e', 'd']
  | null => atomOf ['n', 'u', 'l', 'l']
  | boolean b => if b then atomOf ['t', 'r', 'u', 'e'] else atomOf ['f', 'a', 'l', 's', 'e']
  | number d => .float d
  | string s => byteList s
  | array elems => ofList (encodeList elems)
  | object props => ofList (encodeProps props).reverse

def encodeList : List JsData → List ETerm
  | [] => []
  | d :: ds => encode d :: encodeList ds

def encodeProps : List (Bytes × JsData) → List ETerm
  | [] => []
  | (key, d) :: ps => .tuple [byteList key, encode d] :: encodeProps ps

end

theorem encodeList_eq (ds : List JsData) : encodeList ds = ds.map encode := by
  induction ds with
  | nil => rfl
  | cons d ds ih => rw [encodeList, ih, List.map_cons]

theorem encodeProps_eq (ps : List (Bytes × JsData)) :
    encodeProps ps = ps.map fun p => .tuple [byteList p.1, p.2.encode] := by
  induction ps with
  | nil => rfl
  | cons p ps ih => rw [encodeProps, ih, List.map_cons]

end JsData

theorem erlMkString_of_notMem {s : Bytes} (h : 0 ∉ s) : erlMkString s = byteList s := by
  rw [erlMkString, cString_of_notMem h, byteList]

/-- Without zero bytes, C strings make no difference. -/
theorem JsData.NulFree.termOf_eq {d : JsData} (h : d.NulFree) : d.termOf = d.encode := by
  induction d with
  | undefined | null | number d => rfl
  | boolean b => cases b <;> rfl
  | string s => exact erlMkString_of_notMem h
  | array ds ih =>
    have hds := (JsData.all_array.1 h).2
    rw [termOf_array, encode, encodeList_eq,
      List.map_congr_left fun e he => ih e he (hds e he)]
  | object ps ih =>
    obtain ⟨hkeys, hps⟩ := JsData.all_object.1 h
    rw [termOf_object, encode, encodeProps_eq, List.map_congr_left fun p hp => by
      rw [erlMkString_of_notMem (hkeys p hp), ih p hp (hps p hp)]]

variable {c : Ctx ω} {d : JsData} {st : List JsVal} {idx : ℤ}

/-- The program over the value stack computes the plain encoding and leaves the stack as it was. -/
theorem dukErlangGetTerm_encode (hsmall : d.Small) (hnul : d.NulFree)
    (hv : (c.withStack st).get idx = d.toJs) (hroom : st.length + d.slots ≤ c.reserve) :
    dukErlangGetTerm idx (c.withStack st) = .ok d.encode (c.withStack st) := by
  rw [dukErlangGetTerm_ok hsmall hv hroom, hnul.termOf_eq]

/-- The object `{a: [true, "b"], c: null}` below a number. -/
theorem dukErlangGetTerm_encode_object :
    dukErlangGetTerm (-2) ((Ctx.bare 12 ()).withStack [.number (.ofInt 1),
        (JsData.object [([97], .array [.boolean true, .string [98]]), ([99], .null)]).toJs])
      = .ok (JsData.object [([97], .array [.boolean true, .string [98]]), ([99], .null)]).encode
        ((Ctx.bare 12 ()).withStack [.number (.ofInt 1),
          (JsData.object [([97], .array [.boolean true, .string [98]]), ([99], .null)]).toJs]) := by
  refine dukErlangGetTerm_encode ?_ ?_ rfl (by decide)
  · simp [JsData.Small, JsData.All, JsData.AllProps, JsData.AllList]
  · simp [JsData.NulFree, JsData.All, JsData.AllProps, JsData.AllList]

end Plain

end Erlm
