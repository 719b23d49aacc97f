import Erlm.Proofs.Keywords

/-!
# The plain recursive conversion of terms

`Becomes` says which value a term stands for, without stacks, indices or C strings. The program
pushes such a value exactly when no atom that reaches it has a zero byte, and no key of a value that
is overwritten is cut off to `length` (`pushesPlain_iff`).
-/

namespace Erlm

open ETerm (ofList)

/-- The plain conversion: an array for a tuple, and for a list its text if it is an iolist, an
array object with the last value given for each key if it is a keyword list, an array otherwise. -/
inductive Becomes : ETerm → JsVal → Prop
  | integer (i : BitVec 32) : Becomes (.integer i) (.number (.ofInt i.toInt))
  | float (d : Double) : Becomes (.float d) (.number d)
  | atom (name : Bytes) : Becomes (.atom name) (.string name)
  | binary (s : Bytes) : Becomes (.binary s) (.string s)
  | tuple {es : List ETerm} {vs : List JsVal} (hlen : es.length = vs.length)
      (h : ∀ p ∈ es.zip vs, Becomes p.1 p.2) : Becomes (.tuple es) (.ofList vs)
  | text {ts : List ETerm} {s : Bytes} (hio : iodata (ofList ts) = some s) :
      Becomes (ofList ts) (if 0 ∈ s then .null else .string s)
  | keywords {ps : List (Bytes × ETerm)} {v : JsVal} (hne : ps ≠ []) (harray : v.isArray = true)
      (held : Bytes → JsVal)
      (hown : ∀ key value, Assoc.get? ps.reverse key = some value →
        v.own (fun _ => []) key = some (held key))
      (hlast : ∀ key value, Assoc.get? ps.reverse key = some value → Becomes value (held key))
      (hrest : ∀ key, key ≠ lengthKey → Assoc.get? ps.reverse key = none →
        v.own (fun _ => []) key = none) :
      Becomes (keywordList ps) v
  | list {ts : List ETerm} {vs : List JsVal} (hio : ¬ (iodata (ofList ts)).isSome = true)
      (hne : ∃ t ∈ ts, ∀ name value, t ≠ .tuple [.atom name, value])
      (hlen : ts.length = vs.length) (h : ∀ p ∈ ts.zip vs, Becomes p.1 p.2) :
      Becomes (ofList ts) (.ofList vs)

/-- With room, some value the term stands for is pushed, whatever the scripts do. -/
def PushesPlain (t : ETerm) : Prop :=
  ∀ (ω : Type) (c : Ctx ω) (st : List JsVal), st.length + slots t ≤ c.reserve →
    ∃ v, dukErlangPushTerm t (c.withStack st) = .ok () (c.withStack (v :: st)) ∧ Becomes t v

/-- No zero byte in an atom that reaches the value, and no key cut off to `length` in one that is
overwritten. -/
inductive Faithful : ETerm → Prop
  | integer (i : BitVec 32) : Faithful (.integer i)
  | float (d : Double) : Faithful (.float d)
  | atom {name : Bytes} (h : 0 ∉ name) : Faithful (.atom name)
  | binary (s : Bytes) : Faithful (.binary s)
  | tuple {es : List ETerm} (h : ∀ e ∈ es, Faithful e) : Faithful (.tuple es)
  | text {ts : List ETerm} (hio : (iodata (ofList ts)).isSome = true) : Faithful (ofList ts)
  | keywords {ps : List (Bytes × ETerm)} (hne : ps ≠ []) (hkeys : ∀ p ∈ ps, PlainKey p.1)
      (hlast : ∀ key value, Assoc.get? ps.reverse key = some value → Faithful value)
      (hvalues : ∀ p ∈ ps, Built NotLength p.2) : Faithful (keywordList ps)
  | list {ts : List ETerm} (hio : ¬ (iodata (ofList ts)).isSome = true)
      (hne : ∃ t ∈ ts, ∀ name value, t ≠ .tuple [.atom name, value])
      (h : ∀ t ∈ ts, Faithful t) : Faithful (ofList ts)

section Forward

variable {len : JsVal → Option ℕ}

/-- Elements that convert well convert to a list of what they become. -/
theorem convertElements_becomes {ts : List ETerm}
    (h : ∀ t ∈ ts, ∃ v, convert len t = some v ∧ Becomes t v) :
    ∃ vs, convertElements len ts = some vs ∧ ts.length = vs.length
      ∧ ∀ p ∈ ts.zip vs, Becomes p.1 p.2 := by
  induction ts with
  | nil => exact ⟨[], rfl, rfl, fun p hp => absurd hp List.not_mem_nil⟩
  | cons t ts ih =>
    obtain ⟨⟨v, hv, hbecomes⟩, hts⟩ := List.forall_mem_cons.1 h
    obtain ⟨vs, hvs, hlen, hrest⟩ := ih hts
    refine ⟨v :: vs, ?_, by rw [List.length_cons, List.length_cons, hlen], ?_⟩
    · rw [convertElements, hv, hvs]
      rfl
    · rw [List.zip_cons_cons, List.forall_mem_cons]
      exact ⟨hbecomes, hrest⟩

theorem Faithful.converts (len : JsVal → Option ℕ) {t : ETerm} (h : Faithful t) :
    ∃ v, convert len t = some v ∧ Becomes t v := by
  induction h with
  | integer i => exact ⟨_, rfl, .integer i⟩
  | float d => exact ⟨_, rfl, .float d⟩
  | @atom name h =>
    refine ⟨_, rfl, ?_⟩
    rw [erlAtomPtrUtf8, cString_of_notMem h, cString_of_notMem h]
    exact .atom name
  | binary s => exact ⟨_, rfl, .binary s⟩
  | tuple _ ih =>
    obtain ⟨vs, hvs, hlen, hrest⟩ := convertElements_becomes ih
    exact ⟨.ofList vs, by rw [convert, hvs, Option.map_some], .tuple hlen hrest⟩
  | text hio =>
    obtain ⟨s, hs⟩ := Option.isSome_iff_exists.1 hio
    refine ⟨_, convert_of_iodata hio, ?_⟩
    rw [textOf_eq hs]
    exact .text hs
  | @keywords ps hne hkeys hlast hvalues ih =>
    obtain ⟨v, hv, harray, hown, hrest⟩ := convertPairs_plain len (fun _ => [])
      hkeys (fun p hp => (hvalues p hp).convert_isSome len)
      (rfl : (JsVal.ofList []).isArray = true)
    have hheld : ∀ key value, Assoc.get? ps.reverse key = some value →
        ∃ w, v.own (fun _ => []) key = some w ∧ Becomes value w := by
      intro key value hget
      obtain ⟨w, hw, hbecomes⟩ := ih key value hget
      exact ⟨w, by rw [hown key value hget, hw], hbecomes⟩
    refine ⟨v, by rw [convert_keywordList hne, hv], .keywords hne harray
      (fun key => (v.own (fun _ => []) key).getD .undefined) ?_ ?_ fun key hlen hget => ?_⟩
    · intro key value hget
      obtain ⟨w, hw, -⟩ := hheld key value hget
      rw [hw, Option.getD_some]
    · intro key value hget
      obtain ⟨w, hw, hbecomes⟩ := hheld key value hget
      rwa [hw, Option.getD_some]
    · rw [hrest key hlen hget, own_ofList_nil hlen]
  | list hio hne _ ih =>
    obtain ⟨vs, hvs, hlen, hrest⟩ := convertElements_becomes ih
    exact ⟨.ofList vs, by rw [convert_ofList hio hne, hvs, Option.map_some],
      .list hio hne hlen hrest⟩

end Forward

section Inversion

variable {v : JsVal}

theorem ofList_ne_atom (ts : List ETerm) (name : Bytes) : ofList ts ≠ .atom name := by
  cases ts <;> exact ETerm.noConfusion

theorem ofList_ne_tuple (ts es : List ETerm) : ofList ts ≠ .tuple es := by
  cases ts <;> exact ETerm.noConfusion

theorem keywordList_injective : Function.Injective keywordList := by
  intro ps qs h
  refine (List.map_inj_right ?_).1 (ETerm.ofList_injective h)
  rintro ⟨name, value⟩ ⟨name', value'⟩ heq
  cases heq
  rfl

theorem not_pair_of_mem {ps : List (Bytes × ETerm)} {ts : List ETerm}
    (hts : keywordList ps = ofList ts) :
    ¬ ∃ t ∈ ts, ∀ name value, t ≠ .tuple [.atom name, value] := by
  rw [← ETerm.ofList_injective hts]
  rintro ⟨t, ht, hne⟩
  obtain ⟨p, -, rfl⟩ := List.mem_map.1 ht
  exact hne p.1 p.2 rfl

theorem Becomes.of_atom {name : Bytes} (h : Becomes (.atom name) v) : v = .string name := by
  generalize ht : ETerm.atom name = t at h
  cases h with
  | atom => cases ht; rfl
  | integer | float | binary | tuple => cases ht
  | text | list => exact absurd ht.symm (ofList_ne_atom _ _)
  | keywords => exact absurd ht.symm (ofList_ne_atom _ _)

theorem Becomes.of_tuple {es : List ETerm} (h : Becomes (.tuple es) v) :
    ∃ vs, v = .ofList vs ∧ es.length = vs.length ∧ ∀ p ∈ es.zip vs, Becomes p.1 p.2 := by
  generalize ht : ETerm.tuple es = t at h
  cases h with
  | tuple hlen hall =>
    cases ht
    exact ⟨_, rfl, hlen, hall⟩
  | integer | float | binary | atom => cases ht
  | text | list => exact absurd ht.symm (ofList_ne_tuple _ _)
  | keywords => exact absurd ht.symm (ofList_ne_tuple _ _)

theorem Becomes.of_list {ts : List ETerm} (hio : ¬ (iodata (ofList ts)).isSome = true)
    (hne : ∃ t ∈ ts, ∀ name value, t ≠ .tuple [.atom name, value]) (h : Becomes (ofList ts) v) :
    ∃ vs, v = .ofList vs ∧ ts.length = vs.length ∧ ∀ p ∈ ts.zip vs, Becomes p.1 p.2 := by
  generalize ht : ofList ts = t at h
  cases h with
  | integer | float | binary => cases ts <;> cases ht
  | atom => exact absurd ht (ofList_ne_atom _ _)
  | tuple => exact absurd ht (ofList_ne_tuple _ _)
  | text hs =>
    rw [← ht] at hs
    exact absurd (Option.isSome_iff_exists.2 ⟨_, hs⟩) hio
  | keywords => exact absurd hne (not_pair_of_mem ht.symm)
  | list _ _ hlen hall =>
    cases ETerm.ofList_injective ht
    exact ⟨_, rfl, hlen, hall⟩

theorem Becomes.of_keywords {ps : List (Bytes × ETerm)} (hne : ps ≠ [])
    (h : Becomes (keywordList ps) v) :
    ∀ key value, Assoc.get? ps.reverse key = some value →
      ∃ w, v.own (fun _ => []) key = some w ∧ Becomes value w := by
  generalize ht : keywordList ps = t at h
  cases h with
  | integer | float | binary => cases ps <;> cases ht
  | atom => exact absurd ht (ofList_ne_atom _ _)
  | tuple => exact absurd ht (ofList_ne_tuple _ _)
  | text hs =>
    rw [← ht] at hs
    exact absurd (Option.isSome_iff_exists.2 ⟨_, hs⟩) (iodata_keywordList hne)
  | list _ hpair => exact absurd hpair (not_pair_of_mem ht)
  | keywords _ _ held hown hlast =>
    cases keywordList_injective ht
    exact fun key value hget => ⟨held key, hown key value hget, hlast key value hget⟩

end Inversion

section Backward

/-- An element of a list of converted terms and what it became. -/
theorem exists_becomes {len : JsVal → Option ℕ} {ts : List ETerm} {vs : List JsVal}
    (hconv : convertElements len ts = some vs) (h : ∀ p ∈ ts.zip vs, Becomes p.1 p.2) {t : ETerm}
    (ht : t ∈ ts) : ∃ v, convert len t = some v ∧ Becomes t v := by
  rw [convertElements_eq_some] at hconv
  induction hconv with
  | nil => exact absurd ht List.not_mem_nil
  | @cons t' v ts vs hv _ ih =>
    rw [List.zip_cons_cons, List.forall_mem_cons] at h
    rcases List.mem_cons.1 ht with rfl | ht
    · exact ⟨v, hv, h.1⟩
    · exact ih h.2 ht

/-- A key that has no meaning of its own to an array. -/
def OrdinaryKey (key : Bytes) : Prop := key ≠ lengthKey ∧ key ≠ protoKey

/-- A key with a zero byte would not be found again on the array. -/
theorem faithful_keywords {ps : List (Bytes × ETerm)} {v : JsVal} (hne : ps ≠ [])
    (hkeys : ∀ p ∈ ps, OrdinaryKey p.1) (hbuilt : ∀ p ∈ ps, Built OrdinaryKey p.2)
    (ih : ∀ p ∈ ps, ∀ w, convert (fun _ => none) p.2 = some w → Becomes p.2 w → Faithful p.2)
    (hconv : convert (fun _ => none) (keywordList ps) = some v)
    (hbecomes : Becomes (keywordList ps) v) : Faithful (keywordList ps) := by
  rw [convert_keywordList hne] at hconv
  have hvalues := convert_isSome_of_convertPairs hconv
  have hheld := hbecomes.of_keywords hne
  have hplain : ∀ p ∈ ps, PlainKey p.1 := by
    intro p hp
    have hmem : p.1 ∈ ps.reverse.map Prod.fst :=
      List.mem_map_of_mem (List.mem_reverse.2 hp)
    obtain ⟨value, hget⟩ := Assoc.exists_get? hmem
    obtain ⟨w, hown, -⟩ := hheld p.1 value hget
    have hkey := JsVal.mem_ownKeys_of_own hown (hkeys p hp).1
    rcases mem_ownKeys_convertPairs hconv hkey with hold | ⟨⟨q, -, hq⟩, -⟩
    · rw [ownKeys_ofList_nil] at hold
      exact absurd hold List.not_mem_nil
    · exact ⟨hq ▸ zero_notMem_cString q.1, hkeys p hp⟩
  obtain ⟨w, hw, harray, hlast, -⟩ := convertPairs_plain _ (fun _ => []) hplain hvalues
    (rfl : (JsVal.ofList []).isArray = true)
  rw [hconv, Option.some.injEq] at hw
  subst hw
  refine .keywords hne hplain (fun key value hget => ?_) fun p hp =>
    (hbuilt p hp).notLength (hvalues p hp)
  obtain ⟨w, hown, hw⟩ := hheld key value hget
  rw [hlast key value hget] at hown
  have hmem : (key, value) ∈ ps := List.mem_reverse.1 (Assoc.get?_mem hget)
  exact ih _ hmem w hown hw

theorem Built.faithful {t : ETerm} (h : Built OrdinaryKey t) :
    ∀ v, convert (fun _ => none) t = some v → Becomes t v → Faithful t := by
  induction h with
  | integer i => exact fun _ _ _ => .integer i
  | float d => exact fun _ _ _ => .float d
  | atom name =>
    intro v hconv hbecomes
    rw [hbecomes.of_atom, convert, erlAtomPtrUtf8, Option.some.injEq, JsVal.string.injEq,
      cString_of_notMem (zero_notMem_cString name)] at hconv
    exact .atom (cString_eq_self.1 hconv)
  | binary s => exact fun _ _ _ => .binary s
  | tuple _ ih =>
    intro v hconv hbecomes
    obtain ⟨vs, rfl, -, hall⟩ := hbecomes.of_tuple
    rw [convert, Option.map_eq_some_iff] at hconv
    obtain ⟨ws, hws, heq⟩ := hconv
    rw [JsVal.ofList_injective heq] at hws
    refine .tuple fun e he => ?_
    obtain ⟨w, hw, hbecomes⟩ := exists_becomes hws hall he
    exact ih e he w hw hbecomes
  | @keywords ps hkeys hbuilt ih =>
    intro v hconv hbecomes
    by_cases hne : ps = []
    · subst hne
      exact @Faithful.text [] rfl
    · exact faithful_keywords hne hkeys hbuilt ih hconv hbecomes
  | @list ts _ hne ih =>
    intro v hconv hbecomes
    by_cases hio : (iodata (ofList ts)).isSome = true
    · exact .text hio
    · obtain ⟨vs, rfl, -, hall⟩ := hbecomes.of_list hio hne
      rw [convert_ofList hio hne, Option.map_eq_some_iff] at hconv
      obtain ⟨ws, hws, heq⟩ := hconv
      rw [JsVal.ofList_injective heq] at hws
      refine .list hio hne fun t ht => ?_
      obtain ⟨w, hw, hbecomes⟩ := exists_becomes hws hall ht
      exact ih t ht w hw hbecomes

end Backward

section Refinement

variable {t : ETerm}

theorem Faithful.pushesPlain (h : Faithful t) : PushesPlain t := by
  intro ω c st hroom
  obtain ⟨v, hv, hbecomes⟩ := h.converts c.engine.arrayLength
  exact ⟨v, dukErlangPushTerm_ok hv hroom, hbecomes⟩

/-- A term of the kinds supported is pushed as the value it stands for exactly when C strings do
not cut off what reaches that value. -/
theorem pushesPlain_iff (ht : Built OrdinaryKey t) : PushesPlain t ↔ Faithful t := by
  refine ⟨fun h => ?_, Faithful.pushesPlain⟩
  obtain ⟨v, hpush, hbecomes⟩ := h Unit (Ctx.bare (slots t) ()) [] (by simp [Ctx.bare])
  exact ht.faithful v (convert_of_dukErlangPushTerm hpush) hbecomes

/-- `[{a, {1, <<0>>}}, {a, b}]`, with a key given twice. -/
theorem pushesPlain_twice :
    PushesPlain (keywordList [([97], .tuple [.integer 1, .binary [0]]), ([97], .atom [98])])
      ↔ Faithful
        (keywordList [([97], .tuple [.integer 1, .binary [0]]), ([97], .atom [98])]) := by
  refine pushesPlain_iff (.keywords (fun p hp => ?_) fun p hp => ?_)
  · simp only [List.mem_cons, List.not_mem_nil, or_false] at hp
    rcases hp with rfl | rfl <;> exact ⟨by decide, by decide⟩
  · simp only [List.mem_cons, List.not_mem_nil, or_false] at hp
    rcases hp with rfl | rfl
    · refine .tuple fun e he => ?_
      simp only [List.mem_cons, List.not_mem_nil, or_false] at he
      rcases he with rfl | rfl
      · exact .integer 1
      · exact .binary [0]
    · exact .atom [98]

/-- The atom `'a\0b'` is pushed as `a`. -/
theorem not_pushesPlain_nul : ¬ PushesPlain (.atom [97, 0, 98]) := by
  intro h
  obtain ⟨v, hpush, hbecomes⟩ := h Unit (Ctx.bare 1 ()) [] le_rfl
  have hconv := convert_of_dukErlangPushTerm hpush
  rw [hbecomes.of_atom] at hconv
  exact absurd hconv (by simp [convert, erlAtomPtrUtf8, cString])

end Refinement

end Erlm
