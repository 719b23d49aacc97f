import Erlm.Proofs.ArrayObject
import Erlm.Proofs.RoundTrip

/-!
# Keyword lists on their way in

A keyword list is pushed as an array whose named properties are its pairs. With distinct keys it is
the object expected exactly when no key has a zero byte or is `length` or `__proto__`, and no key
inside a value is cut off to `length` (`objectOf_iff`).
-/

namespace Erlm

open ETerm (ofList)

/-- The list of the pairs `{Key, Value}`. -/
def keywordList (ps : List (Bytes × ETerm)) : ETerm :=
  ofList (ps.map fun p => .tuple [.atom p.1, p.2])

/-- The terms made of signed integers, floats, atoms, binaries, tuples and proper lists, `K` being
what holds of the keys of the keyword lists among them. -/
inductive Built (K : Bytes → Prop) : ETerm → Prop
  | integer (i : BitVec 32) : Built K (.integer i)
  | float (d : Double) : Built K (.float d)
  | atom (name : Bytes) : Built K (.atom name)
  | binary (s : Bytes) : Built K (.binary s)
  | tuple {es : List ETerm} (h : ∀ e ∈ es, Built K e) : Built K (.tuple es)
  | keywords {ps : List (Bytes × ETerm)} (hkeys : ∀ p ∈ ps, K p.1) (h : ∀ p ∈ ps, Built K p.2) :
      Built K (keywordList ps)
  | list {ts : List ETerm} (h : ∀ t ∈ ts, Built K t)
      (hne : ∃ t ∈ ts, ∀ name value, t ≠ .tuple [.atom name, value]) : Built K (ofList ts)

/-- A key without a zero byte that has no meaning of its own to an array. -/
def PlainKey (key : Bytes) : Prop := 0 ∉ key ∧ key ≠ lengthKey ∧ key ≠ protoKey

/-- A key that is not cut off to `length`. -/
def NotLength (key : Bytes) : Prop := cString key ≠ lengthKey

section Puts

variable {len : JsVal → Option ℕ} {store : Store} {name k : Bytes} {a v w : JsVal}

theorem putNamed_eq_arrayPut {elems : List (Option JsVal)} {named : Props} {proto : Option JsVal} :
    putNamed len (.array elems named proto) name v
      = JsVal.arrayPut len elems named proto (cString name) v := by
  rw [putNamed, erlAtomPtrUtf8, cString_of_notMem (zero_notMem_cString name)]

theorem putNamed_plain (len : JsVal → Option ℕ) (store : Store) (harray : a.isArray = true)
    (hname : PlainKey name) (v : JsVal) :
    ∃ w, putNamed len a name v = some w ∧ w.isArray = true ∧ w.own store name = some v
      ∧ (∀ k, k ≠ name → k ≠ lengthKey → w.own store k = a.own store k)
      ∧ (a.own store name = none → List.Perm (w.ownKeys store) (name :: a.ownKeys store)) := by
  obtain ⟨elems, named, proto, rfl⟩ := exists_of_isArray harray
  obtain ⟨hnul, hlen, hproto⟩ := hname
  obtain ⟨elems', named', hput, hrest⟩ :=
    @JsVal.arrayPut_plain len store elems named proto name v hlen hproto
  exact ⟨_, by rw [putNamed_eq_arrayPut, cString_of_notMem hnul, hput], rfl, hrest⟩

theorem mem_ownKeys_putNamed (h : putNamed len a name v = some w) (hk : k ∈ w.ownKeys store) :
    k ∈ a.ownKeys store ∨ k = cString name ∧ k ≠ lengthKey := by
  cases a with
  | array elems named proto =>
    rw [putNamed_eq_arrayPut] at h
    refine (JsVal.mem_ownKeys_arrayPut h hk).imp_right ?_
    rintro ⟨rfl, hlen⟩
    exact ⟨rfl, hlen⟩
  | _ => cases h

theorem putNamed_notLength (len : JsVal → Option ℕ) (harray : a.isArray = true)
    (hname : NotLength name) (v : JsVal) :
    ∃ w, putNamed len a name v = some w ∧ w.isArray = true := by
  obtain ⟨elems, named, proto, rfl⟩ := exists_of_isArray harray
  obtain ⟨elems', named', proto', hput⟩ :=
    @JsVal.arrayPut_isSome len elems named proto _ v hname
  exact ⟨_, by rw [putNamed_eq_arrayPut, hput], rfl⟩

/-- Where no value is a valid length, a key cut off to `length` throws. -/
theorem putNamed_length (hname : ¬ NotLength name) : putNamed (fun _ => none) a name v = none := by
  cases a with
  | array elems named proto =>
    rw [putNamed_eq_arrayPut, not_not.1 hname]
    unfold JsVal.arrayPut
    simp only [arrayIndex?_lengthKey, if_true, Option.map_none]
  | _ => rfl

end Puts

section Pairs

variable {len : JsVal → Option ℕ} {store : Store} {k : Bytes} {a w : JsVal}
  {ps : List (Bytes × ETerm)}

theorem convertPairs_keywords (p : Bytes × ETerm) (ps : List (Bytes × ETerm)) (a : JsVal) :
    convertPairs len (keywordList (p :: ps)) a = (convert len p.2).bind fun v =>
      (putNamed len a p.1 v).bind fun a' => convertPairs len (keywordList ps) a' := by
  rw [keywordList, List.map_cons, ofList, convertPairs]
  rfl

theorem convertPairs_keywords_eq_some {p : Bytes × ETerm} :
    convertPairs len (keywordList (p :: ps)) a = some w ↔
      ∃ v a', convert len p.2 = some v ∧ putNamed len a p.1 v = some a'
        ∧ convertPairs len (keywordList ps) a' = some w := by
  rw [convertPairs_keywords]
  simp only [Option.bind_eq_some_iff]
  constructor
  · rintro ⟨v, hv, a', ha, hw⟩
    exact ⟨v, a', hv, ha, hw⟩
  · rintro ⟨v, a', hv, ha, hw⟩
    exact ⟨v, hv, a', ha, hw⟩

/-- Plain keys all get through, and each holds the last value given for it. -/
theorem convertPairs_plain (len : JsVal → Option ℕ) (store : Store)
    (hkeys : ∀ p ∈ ps, PlainKey p.1)
    (hvalues : ∀ p ∈ ps, (convert len p.2).isSome = true) (harray : a.isArray = true) :
    ∃ w, convertPairs len (keywordList ps) a = some w ∧ w.isArray = true
      ∧ (∀ key value, Assoc.get? ps.reverse key = some value →
        w.own store key = convert len value)
      ∧ ∀ key, key ≠ lengthKey → Assoc.get? ps.reverse key = none →
        w.own store key = a.own store key := by
  induction ps generalizing a with
  | nil =>
    refine ⟨a, rfl, harray, fun key value h => ?_, fun _ _ _ => rfl⟩
    cases h
  | cons p ps ih =>
    obtain ⟨hp, hps⟩ := List.forall_mem_cons.1 hkeys
    obtain ⟨hvp, hvps⟩ := List.forall_mem_cons.1 hvalues
    obtain ⟨v, hv⟩ := Option.isSome_iff_exists.1 hvp
    obtain ⟨a', hput, ha', hself, hother, -⟩ := putNamed_plain len store harray hp v
    obtain ⟨w, hw, hwa, hlast, hrest⟩ := ih hps hvps ha'
    refine ⟨w, convertPairs_keywords_eq_some.2 ⟨v, a', hv, hput, hw⟩, hwa, ?_, ?_⟩
    · intro key value hget
      rw [List.reverse_cons, Assoc.get?_append] at hget
      rcases hkey : Assoc.get? ps.reverse key with _ | value'
      · rw [hkey, Option.none_or, Assoc.get?] at hget
        split_ifs at hget with heq
        · cases hget
          subst heq
          rw [hrest _ hp.2.1 hkey, hself, hv]
        · cases hget
      · rw [hkey, Option.some_or, Option.some.injEq] at hget
        rw [hlast key value' hkey, hget]
    · intro key hlen hget
      rw [List.reverse_cons, Assoc.get?_append, Option.or_eq_none_iff, Assoc.get?] at hget
      obtain ⟨hnone, hp⟩ := hget
      split_ifs at hp with heq
      rw [hrest key hlen hnone, hother key (Ne.symm heq) hlen]

/-- Distinct plain keys become own keys, each once. -/
theorem convertPairs_ownKeys (store : Store) (hkeys : ∀ p ∈ ps, PlainKey p.1)
    (harray : a.isArray = true)
    (hdistinct : (ps.map Prod.fst).Nodup) (hnew : ∀ p ∈ ps, a.own store p.1 = none)
    (hw : convertPairs len (keywordList ps) a = some w) :
    List.Perm (w.ownKeys store) (ps.map Prod.fst ++ a.ownKeys store) := by
  induction ps generalizing a with
  | nil =>
    cases hw
    exact List.Perm.refl _
  | cons p ps ih =>
    obtain ⟨hp, hps⟩ := List.forall_mem_cons.1 hkeys
    obtain ⟨hnewp, hnewps⟩ := List.forall_mem_cons.1 hnew
    obtain ⟨hnotin, hdistinct⟩ := List.nodup_cons.1 hdistinct
    obtain ⟨v, a', -, hput, hw⟩ := convertPairs_keywords_eq_some.1 hw
    obtain ⟨a'', hput', ha', -, hother, hperm⟩ :=
      putNamed_plain len store harray hp v
    rw [hput, Option.some.injEq] at hput'
    subst hput'
    have hnew' : ∀ q ∈ ps, a'.own store q.1 = none := by
      intro q hq
      have hne : q.1 ≠ p.1 := fun heq => hnotin (heq ▸ List.mem_map_of_mem hq)
      rw [hother q.1 hne (hps q hq).2.1, hnewps q hq]
    refine (ih hps ha' hdistinct hnew' hw).trans ?_
    exact ((hperm hnewp).append_left _).trans List.perm_middle

/-- Every key on the array was there before or is what a pair's key is cut off to. -/
theorem mem_ownKeys_convertPairs (hw : convertPairs len (keywordList ps) a = some w)
    (hk : k ∈ w.ownKeys store) :
    k ∈ a.ownKeys store ∨ (∃ p ∈ ps, k = cString p.1) ∧ k ≠ lengthKey := by
  induction ps generalizing a with
  | nil =>
    cases hw
    exact Or.inl hk
  | cons p ps ih =>
    obtain ⟨v, a', -, hput, hw⟩ := convertPairs_keywords_eq_some.1 hw
    rcases ih hw with hk | ⟨⟨q, hq, rfl⟩, hlen⟩
    · rcases mem_ownKeys_putNamed hput hk with hk | ⟨rfl, hlen⟩
      · exact Or.inl hk
      · exact Or.inr ⟨⟨p, List.mem_cons_self, rfl⟩, hlen⟩
    · exact Or.inr ⟨⟨q, List.mem_cons_of_mem _ hq, rfl⟩, hlen⟩

/-- Distinct keys reach `__proto__` at most once, which only sets the prototype. -/
theorem protoKey_notMem_ownKeys {elems : List (Option JsVal)} {named : Props}
    {proto : Option JsVal} (hkeys : ∀ p ∈ ps, 0 ∉ p.1 ∧ p.1 ≠ lengthKey)
    (hdistinct : (ps.map Prod.fst).Nodup)
    (hproto : protoKey ∈ ps.map Prod.fst → proto = none)
    (hold : protoKey ∉ (JsVal.array elems named proto).ownKeys store)
    (hw : convertPairs len (keywordList ps) (.array elems named proto) = some w) :
    protoKey ∉ w.ownKeys store := by
  induction ps generalizing elems named proto with
  | nil =>
    cases hw
    exact hold
  | cons p ps ih =>
    obtain ⟨⟨hnul, hlen⟩, hps⟩ := List.forall_mem_cons.1 hkeys
    obtain ⟨hnotin, hdistinct⟩ := List.nodup_cons.1 hdistinct
    obtain ⟨v, a', -, hput, hw⟩ := convertPairs_keywords_eq_some.1 hw
    rw [putNamed_eq_arrayPut, cString_of_notMem hnul] at hput
    by_cases hp : p.1 = protoKey
    · obtain rfl := hproto (hp ▸ List.mem_cons_self)
      obtain ⟨proto', hput'⟩ := JsVal.arrayPut_protoKey len v hold
      rw [hp, hput', Option.some.injEq] at hput
      subst hput
      refine ih hps hdistinct (fun hmem => absurd (hp ▸ hmem) hnotin) ?_ hw
      rwa [JsVal.ownKeys_array] at hold ⊢
    · obtain ⟨elems', named', hput', -, -, -⟩ :=
        @JsVal.arrayPut_plain len store elems named proto p.1 v hlen hp
      rw [hput', Option.some.injEq] at hput
      subst hput
      refine ih hps hdistinct (fun hmem => hproto (List.mem_cons_of_mem _ hmem)) ?_ hw
      intro hmem
      rcases JsVal.mem_ownKeys_arrayPut hput' hmem with hmem | ⟨heq, -⟩
      · exact hold hmem
      · exact hp heq.symm

/-- Keys that are not cut off to `length` all get through. -/
theorem convertPairs_isSome (hkeys : ∀ p ∈ ps, NotLength p.1)
    (hvalues : ∀ p ∈ ps, (convert len p.2).isSome = true) (harray : a.isArray = true) :
    (convertPairs len (keywordList ps) a).isSome = true := by
  induction ps generalizing a with
  | nil => rfl
  | cons p ps ih =>
    obtain ⟨hp, hps⟩ := List.forall_mem_cons.1 hkeys
    obtain ⟨hvp, hvps⟩ := List.forall_mem_cons.1 hvalues
    obtain ⟨v, hv⟩ := Option.isSome_iff_exists.1 hvp
    obtain ⟨a', hput, ha'⟩ := putNamed_notLength len harray hp v
    rw [convertPairs_keywords, hv, Option.bind_some, hput, Option.bind_some]
    exact ih hps hvps ha'

theorem convert_isSome_of_convertPairs (hw : convertPairs len (keywordList ps) a = some w) :
    ∀ p ∈ ps, (convert len p.2).isSome = true := by
  induction ps generalizing a with
  | nil => exact fun p hp => absurd hp List.not_mem_nil
  | cons p ps ih =>
    obtain ⟨v, a', hv, -, hw⟩ := convertPairs_keywords_eq_some.1 hw
    exact List.forall_mem_cons.2 ⟨Option.isSome_iff_exists.2 ⟨v, hv⟩, ih hw⟩

/-- Where no value is a valid length, no key may be cut off to `length`. -/
theorem notLength_of_convertPairs
    (hw : convertPairs (fun _ => none) (keywordList ps) a = some w) :
    ∀ p ∈ ps, NotLength p.1 := by
  induction ps generalizing a with
  | nil => exact fun p hp => absurd hp List.not_mem_nil
  | cons p ps ih =>
    obtain ⟨v, a', -, hput, hw⟩ := convertPairs_keywords_eq_some.1 hw
    refine List.forall_mem_cons.2 ⟨?_, ih hw⟩
    by_contra hp
    rw [putNamed_length hp] at hput
    cases hput

end Pairs

section Convert

variable {len : JsVal → Option ℕ} {ps : List (Bytes × ETerm)}

theorem iodata_keywordList (hne : ps ≠ []) : ¬ (iodata (keywordList ps)).isSome = true := by
  obtain ⟨p, qs, rfl⟩ := List.exists_cons_of_ne_nil hne
  rw [keywordList, iodata_ofList_isSome]
  exact fun h => absurd (h _ List.mem_cons_self) (by simp [iodata])

theorem isObjectAlike_keywordList (ps : List (Bytes × ETerm)) :
    dukErlangIsObjectAlike (keywordList ps) = true := by
  rw [keywordList, isObjectAlike_ofList, List.forall_mem_map]
  exact fun p _ => ⟨p.1, p.2, rfl⟩

theorem convert_keywordList (hne : ps ≠ []) :
    convert len (keywordList ps) = convertPairs len (keywordList ps) (.ofList []) := by
  have hio := iodata_keywordList hne
  have htext : erlIolistLength (keywordList ps) < 0 := by
    rw [← not_le]
    exact fun h => hio ((erlIolistLength_nonneg (ETerm.isList_ofList _)).1 h)
  exact convert_pairs_ofList (by simpa using hne) htext (isObjectAlike_keywordList ps)

/-- A term without keys cut off to `length` can always be pushed. -/
theorem Built.convert_isSome (len : JsVal → Option ℕ) {t : ETerm} (h : Built NotLength t) :
    (convert len t).isSome = true := by
  induction h with
  | integer | float | atom | binary => rfl
  | tuple _ ih => rwa [convert, Option.isSome_map, convertElements_isSome]
  | @keywords ps hkeys _ ih =>
    by_cases hne : ps = []
    · rw [hne]
      rfl
    · rw [convert_keywordList hne]
      exact convertPairs_isSome hkeys ih rfl
  | @list ts _ hne ih =>
    by_cases hio : (iodata (ofList ts)).isSome = true
    · rw [convert_of_iodata hio]
      rfl
    · rwa [convert_ofList hio hne, Option.isSome_map, convertElements_isSome]

theorem Built.convert_isSome_of_iodata {K : Bytes → Prop} {t : ETerm} (h : Built K t)
    (hio : (iodata t).isSome = true) : (convert len t).isSome = true := by
  rcases h with i | d | name | s | h | ⟨hkeys, h⟩ | ⟨h, hne⟩
  · rfl
  · rfl
  · rfl
  · rfl
  · cases hio
  · rw [keywordList] at hio ⊢
    rw [convert_of_iodata hio]
    rfl
  · rw [convert_of_iodata hio]
    rfl

/-- And no other term can be, where no value is a valid length. -/
theorem Built.notLength {K : Bytes → Prop} {t : ETerm} (h : Built K t) :
    (convert (fun _ => none) t).isSome = true → Built NotLength t := by
  induction h with
  | integer i => exact fun _ => .integer i
  | float d => exact fun _ => .float d
  | atom name => exact fun _ => .atom name
  | binary s => exact fun _ => .binary s
  | tuple _ ih =>
    intro hconv
    rw [convert, Option.isSome_map, convertElements_isSome] at hconv
    exact .tuple fun e he => ih e he (hconv e he)
  | @keywords ps _ _ ih =>
    intro hconv
    by_cases hne : ps = []
    · subst hne
      exact .keywords (fun p hp => absurd hp List.not_mem_nil)
        fun p hp => absurd hp List.not_mem_nil
    · rw [convert_keywordList hne] at hconv
      obtain ⟨w, hw⟩ := Option.isSome_iff_exists.1 hconv
      exact .keywords (notLength_of_convertPairs hw)
        fun p hp => ih p hp (convert_isSome_of_convertPairs hw p hp)
  | @list ts hts hne ih =>
    intro hconv
    refine .list (fun t ht => ih t ht ?_) hne
    by_cases hio : (iodata (ofList ts)).isSome = true
    · exact (hts t ht).convert_isSome_of_iodata (iodata_ofList_isSome.1 hio t ht)
    · rw [convert_ofList hio hne, Option.isSome_map, convertElements_isSome] at hconv
      exact hconv t ht

end Convert

section Object

variable {ps : List (Bytes × ETerm)}

/-- With room, the list is pushed as a value on which each key reads back as the conversion of its
value and whose own keys are those given, whatever the scripts do. -/
def ObjectOf (ps : List (Bytes × ETerm)) : Prop :=
  ∀ (ω : Type) (c : Ctx ω) (st : List JsVal),
    st.length + slots (keywordList ps) ≤ c.reserve →
      ∃ v, dukErlangPushTerm (keywordList ps) (c.withStack st) = .ok () (c.withStack (v :: st))
        ∧ (∀ p ∈ ps, c.prop v p.1 = convert c.engine.arrayLength p.2)
        ∧ List.Perm (v.ownKeys c.store) (ps.map Prod.fst)

theorem ownKeys_ofList_nil (store : Store) : (JsVal.ofList []).ownKeys store = [] := rfl

theorem own_ofList_nil {store : Store} {key : Bytes} (h : key ≠ lengthKey) :
    (JsVal.ofList []).own store key = none := by
  unfold JsVal.ofList JsVal.own
  rcases arrayIndex? key with _ | i
  · simp only [if_neg h]
    rfl
  · rfl

/-- An own property hides what the prototypes have. -/
theorem prop_of_own {ω : Type} {c : Ctx ω} {v w : JsVal} {key : Bytes} (hv : v.isArray = true)
    (h : v.own c.store key = some w) : c.prop v key = some w := by
  obtain ⟨elems, named, proto, rfl⟩ := exists_of_isArray hv
  cases proto with
  | none => simp only [Ctx.prop, JsVal.lookup, h, Option.getD_some]
  | some proto => simp only [Ctx.prop, JsVal.lookup, h, Option.getD_some]

/-- With distinct keys the last value given for a key is the only one. -/
theorem get?_reverse_of_mem (hdistinct : (ps.map Prod.fst).Nodup) {p : Bytes × ETerm}
    (hp : p ∈ ps) : Assoc.get? ps.reverse p.1 = some p.2 := by
  refine Assoc.get?_of_mem ?_ (List.mem_reverse.2 hp)
  rwa [List.map_reverse, List.nodup_reverse]

theorem objectOf_of_plain (hne : ps ≠ []) (hdistinct : (ps.map Prod.fst).Nodup)
    (hkeys : ∀ p ∈ ps, PlainKey p.1) (hvalues : ∀ p ∈ ps, Built NotLength p.2) :
    ObjectOf ps := by
  intro ω c st hroom
  obtain ⟨v, hv, harray, hlast, -⟩ := convertPairs_plain c.engine.arrayLength c.store hkeys
    (fun p hp => (hvalues p hp).convert_isSome c.engine.arrayLength)
    (rfl : (JsVal.ofList []).isArray = true)
  have hperm := convertPairs_ownKeys c.store hkeys rfl hdistinct
    (fun p hp => own_ofList_nil (hkeys p hp).2.1) hv
  rw [ownKeys_ofList_nil, List.append_nil] at hperm
  refine ⟨v, dukErlangPushTerm_ok ?_ hroom, fun p hp => ?_, hperm⟩
  · rw [convert_keywordList hne, hv]
  · obtain ⟨w, hw⟩ := Option.isSome_iff_exists.1
      ((hvalues p hp).convert_isSome c.engine.arrayLength)
    rw [hw]
    refine prop_of_own harray ?_
    rw [hlast p.1 p.2 (get?_reverse_of_mem hdistinct hp), hw]

/-- It is enough to look at an engine that takes no value for a length. -/
theorem plain_of_objectOf (hne : ps ≠ []) (hdistinct : (ps.map Prod.fst).Nodup)
    (hbuilt : ∀ p ∈ ps, Built (fun _ => True) p.2) (h : ObjectOf ps) :
    ∀ p ∈ ps, PlainKey p.1 ∧ Built NotLength p.2 := by
  obtain ⟨v, hpush, -, hperm⟩ :=
    h Unit (Ctx.bare (slots (keywordList ps)) ()) [] (by simp [Ctx.bare])
  have hv : convertPairs (fun _ => none) (keywordList ps) (.ofList []) = some v := by
    rw [← convert_keywordList hne]
    exact convert_of_dukErlangPushTerm hpush
  have hmem : ∀ p ∈ ps, p.1 ∈ v.ownKeys fun _ => [] := fun p hp =>
    hperm.mem_iff.2 (List.mem_map_of_mem hp)
  have hcut : ∀ p ∈ ps, 0 ∉ p.1 ∧ p.1 ≠ lengthKey := by
    intro p hp
    rcases mem_ownKeys_convertPairs hv (hmem p hp) with hold | ⟨⟨q, -, hq⟩, hlen⟩
    · rw [ownKeys_ofList_nil] at hold
      exact absurd hold List.not_mem_nil
    · exact ⟨hq ▸ zero_notMem_cString q.1, hlen⟩
  have hproto : protoKey ∉ v.ownKeys fun _ => [] :=
    protoKey_notMem_ownKeys hcut hdistinct (fun _ => rfl) List.not_mem_nil hv
  intro p hp
  refine ⟨⟨(hcut p hp).1, (hcut p hp).2, fun heq => hproto (heq ▸ hmem p hp)⟩, ?_⟩
  exact (hbuilt p hp).notLength (convert_isSome_of_convertPairs hv p hp)

/-- A keyword list with distinct keys becomes the object it spells exactly when its keys are
plain and no key inside its values is cut off to `length`. -/
theorem objectOf_iff (hne : ps ≠ []) (hdistinct : (ps.map Prod.fst).Nodup)
    (hbuilt : ∀ p ∈ ps, Built (fun _ => True) p.2) :
    ObjectOf ps ↔ ∀ p ∈ ps, PlainKey p.1 ∧ Built NotLength p.2 :=
  ⟨plain_of_objectOf hne hdistinct hbuilt, fun h => objectOf_of_plain hne hdistinct
    (fun p hp => (h p hp).1) fun p hp => (h p hp).2⟩

/-- `[{a, 1}, {'0', <<"b">>}]` becomes an object. -/
theorem objectOf_index :
    ObjectOf [([97], .integer 1), ([48], .binary [98])]
      ↔ ∀ p ∈ [([97], ETerm.integer 1), ([48], .binary [98])],
        PlainKey p.1 ∧ Built NotLength p.2 := by
  refine objectOf_iff (List.cons_ne_nil _ _) (by decide) fun p hp => ?_
  simp only [List.mem_cons, List.not_mem_nil, or_false] at hp
  rcases hp with rfl | rfl
  · exact .integer 1
  · exact .binary [98]

/-- `[{length, 1}]` does not. -/
theorem not_objectOf_length : ¬ ObjectOf [(lengthKey, .integer 1)] := by
  intro h
  have hplain := plain_of_objectOf (List.cons_ne_nil _ _) (by decide)
    (List.forall_mem_singleton.2 (.integer 1)) h
  exact (hplain _ List.mem_cons_self).1.2.1 rfl

end Object

end Erlm
