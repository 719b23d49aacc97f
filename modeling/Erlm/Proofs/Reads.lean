import Erlm.Proofs.Get

/-!
# `duk_erlang_get_term` on any value

The conversion with the value stack taken away is a function of the value and of the objects it
refers to (`readTerm`): a sparse array that leaves slots of the buffer unwritten, or has more
elements than slots, has no term. With room for the enumerator of each level and for the key and
the value it is at (`need`) the program returns that term or runs into undefined behaviour, and
without it throws (`dukErlangGetTermN_reaches`).
-/

namespace Erlm

variable {ω α β σ : Type}

section Reaches

/-- From the stack `st`, `m` goes up to `top` entries. With room for them it ends as `r` says, in
undefined behaviour if `r` says nothing; without, it throws. -/
structure Reaches (c : Ctx ω) (m : DukM ω α) (st : List JsVal) (r : Option (α × List JsVal))
    (top : ℕ) : Prop where
  ends : ∀ a st', r = some (a, st') → top ≤ c.reserve →
    m (c.withStack st) = .ok a (c.withStack st')
  undefined : r = none → top ≤ c.reserve → FailsWith (· = .undefinedBehaviour) m (c.withStack st)
  full : c.reserve < top → Throws m (c.withStack st)

variable {c : Ctx ω} {st : List JsVal}

theorem Reaches.of_ok {m : DukM ω α} {a : α} {st' : List JsVal} {top : ℕ} (htop : top ≤ c.reserve)
    (h : m (c.withStack st) = .ok a (c.withStack st')) : Reaches c m st (some (a, st')) top := by
  refine ⟨fun b st'' hr _ => ?_, fun hr => ?_, fun hfull => absurd htop (by omega)⟩
  · cases hr
    exact h
  · cases hr

theorem Reaches.of_undefined {m : DukM ω α} {top : ℕ} (htop : top ≤ c.reserve)
    (h : FailsWith (· = .undefinedBehaviour) m (c.withStack st)) : Reaches c m st none top := by
  refine ⟨fun b st'' hr => ?_, fun _ _ => h, fun hfull => absurd htop (by omega)⟩
  cases hr

theorem Reaches.of_full {m : DukM ω α} {r : Option (α × List JsVal)} {top : ℕ}
    (htop : c.reserve < top) (h : Throws m (c.withStack st)) : Reaches c m st r top :=
  ⟨fun _ _ _ hle => absurd hle (by omega), fun _ hle => absurd hle (by omega), fun _ => h⟩

/-- A computation that goes on as another one does from some other stack. -/
theorem Reaches.of_eq {m m' : DukM ω α} {st' : List JsVal} {r : Option (α × List JsVal)} {top : ℕ}
    (heq : m (c.withStack st) = m' (c.withStack st')) (h : Reaches c m' st' r top) :
    Reaches c m st r top := by
  refine ⟨fun a st'' hr htop => heq.trans (h.ends a st'' hr htop), fun hr htop => ?_,
    fun hfull => ?_⟩
  · obtain ⟨e, st'', he, hrun⟩ := h.undefined hr htop
    exact ⟨e, st'', he, heq.trans hrun⟩
  · obtain ⟨e, st'', he, hrun⟩ := h.full hfull
    exact ⟨e, st'', he, heq.trans hrun⟩

theorem Reaches.congr {m : DukM ω α} {r r' : Option (α × List JsVal)} {top top' : ℕ}
    (h : Reaches c m st r top) (hr : r = r') (htop : top = top') : Reaches c m st r' top' := by
  subst hr htop
  exact h

theorem Reaches.eq_ok_iff {m : DukM ω α} {r : Option α} {st' : List JsVal} {top : ℕ}
    (h : Reaches c m st (r.map fun a => (a, st')) top) {a : α} :
    m (c.withStack st) = .ok a (c.withStack st') ↔ top ≤ c.reserve ∧ r = some a := by
  constructor
  · intro hok
    have htop : top ≤ c.reserve := by
      by_contra hfull
      exact not_fails_of_ok hok (h.full (by omega))
    refine ⟨htop, ?_⟩
    rcases r with _ | b
    · exact absurd (h.undefined rfl htop) (not_fails_of_ok hok)
    · have hrun := h.ends b st' rfl htop
      rw [hok] at hrun
      cases hrun
      rfl
  · intro h
    obtain ⟨htop, rfl⟩ := h
    exact h.ends a st' rfl htop

/-- One after the other: the second goes on where the first stopped, `k` saying which stack the
first leaves with which outcome. -/
theorem Reaches.bind {γ : Type} {m : DukM ω α} {f : α → DukM ω β} {r : Option γ}
    {k : γ → α × List JsVal} {g : γ → Option (β × List JsVal)} {top : ℕ} {n : γ → ℕ}
    (hm : Reaches c m st (r.map k) top)
    (hf : ∀ x, r = some x → top ≤ c.reserve → Reaches c (f (k x).1) (k x).2 (g x) (n x)) :
    Reaches c (m >>= f) st (r.bind g) (max top (r.elim 0 n)) := by
  by_cases hle : top ≤ c.reserve
  · rcases r with _ | x
    · rw [Option.elim_none, Nat.max_eq_left (Nat.zero_le _)]
      exact .of_undefined hle (fails_bind_left (hm.undefined rfl hle) f)
    · have hok := hm.ends _ _ rfl hle
      have hx := hf x rfl hle
      rw [Option.elim_some]
      refine ⟨fun b st' hr htop => ?_, fun hr htop => ?_, fun hfull => ?_⟩
      · rw [bind_ok hok]
        exact hx.ends b st' hr (by omega)
      · exact fails_bind_right hok rfl (hx.undefined hr (by omega))
      · exact fails_bind_right hok rfl (hx.full (by omega))
  · exact .of_full (by omega) (fails_bind_left (hm.full (by omega)) f)

end Reaches

section Values

/-- A round of the loop of `duk_erlang_get_array`, with `read` for the conversion of the value. -/
def arrayStep (read : JsVal → Option ETerm) (s : ArrayState) (p : Bytes × JsVal) :
    Option ArrayState := do
  let elem ← read p.2
  if s.buffer.length ≤ s.array_index then none
  else
    return { buffer := s.buffer.set s.array_index (some elem), array_index := s.array_index + 1 }

/-- The list of the first slots, none if one of them was never written. -/
def collect (buffer : List (Option ETerm)) : ℕ → ETerm → Option ETerm
  | 0, list => some list
  | array_index + 1, list =>
    match buffer[array_index]? with
    | some (some elem) => collect buffer array_index (.cons elem list)
    | _ => none

/-- The term of an array of that length with these index properties. -/
def arrayTerm (read : JsVal → Option ETerm) (array_length : ℕ) (ps : Props) : Option ETerm := do
  let s ← ps.foldlM (arrayStep read) (ArrayState.mk (List.replicate array_length none) 0)
  collect s.buffer (toInt (array_length - 1 : ℤ) + 1).toNat .nil

def objectStep (read : JsVal → Option ETerm) (keyword_list : ETerm) (p : Bytes × JsVal) :
    Option ETerm :=
  (read p.2).map fun value => .cons (.tuple [erlMkString (cString p.1), value]) keyword_list

/-- The term of an object with these properties. -/
def objectTerm (read : JsVal → Option ETerm) (ps : Props) : Option ETerm :=
  ps.foldlM (objectStep read) .nil

/-- The term of a value, none for a value that goes down further than that. -/
def readTerm (store : Store) : ℕ → JsVal → Option ETerm
  | 0, _ => none
  | depth + 1, v =>
    match v with
    | .undefined => some (atomOf ['u', 'n', 'd', 'e', 'f', 'i', 'n', 'e', 'd'])
    | .null => some (atomOf ['n', 'u', 'l', 'l'])
    | .boolean b =>
      some (if b then atomOf ['t', 'r', 'u', 'e'] else atomOf ['f', 'a', 'l', 's', 'e'])
    | .number d => some (.float d)
    | .string s => some (erlMkString s)
    | .array elems _ _ =>
      arrayTerm (readTerm store depth) elems.length (EnumFlags.arrayIndicesOnly.props store v)
    | _ => objectTerm (readTerm store depth) (EnumFlags.ownPropertiesOnly.props store v)

/-- The entries a loop takes above its enumerator, up to the round that is its last. -/
def visit (next : σ → Bytes × JsVal → Option σ) (need : JsVal → ℕ) : Props → σ → ℕ
  | [], _ => 0
  | p :: ps, s => max (2 + need p.2) ((next s p).elim 0 (visit next need ps))

/-- The entries of the value stack the conversion of a value takes. -/
def need (store : Store) : ℕ → JsVal → ℕ
  | 0, _ => 0
  | depth + 1, v =>
    match v with
    | .array elems _ _ =>
      1 + visit (arrayStep (readTerm store depth)) (need store depth)
        (EnumFlags.arrayIndicesOnly.props store v)
        (ArrayState.mk (List.replicate elems.length none) 0)
    | .undefined | .null | .boolean _ | .number _ | .string _ => 0
    | _ =>
      1 + visit (objectStep (readTerm store depth)) (need store depth)
        (EnumFlags.ownPropertiesOnly.props store v) .nil

end Values

section Loop

variable {c : Ctx ω} {st : List JsVal} {body : σ → DukM ω σ}
  {next : σ → Bytes × JsVal → Option σ} {needs : JsVal → ℕ}

/-- A loop over the entries of an enumerator folds its rounds. -/
theorem whileNextN_reaches (hround : ∀ s key v ps, st.length + 3 ≤ c.reserve →
      Reaches c (body s) (v :: .string key :: .enumerator ps :: st)
        ((next s (key, v)).map fun s' => (s', .enumerator ps :: st)) (st.length + 3 + needs v))
    (hroom : st.length + 1 ≤ c.reserve) :
    ∀ (ps : Props) (n : ℕ) (s : σ), ps.length < n →
      Reaches c (whileNextN (-1) body n s) (.enumerator ps :: st)
        ((ps.foldlM next s).map fun s' => (s', .enumerator [] :: st))
        (st.length + 1 + visit next needs ps s)
  | _, 0, _, hn => absurd hn (Nat.not_lt_zero _)
  | [], n + 1, s, _ =>
    .of_ok hroom (whileNextN_done (dukNext_nil (Ctx.slot_neg_one _ _ _) rfl))
  | (key, v) :: ps, n + 1, s, hn => by
    by_cases hentry : st.length + 3 ≤ c.reserve
    · have hnext := @dukNext_cons _ c _ (-1) 0 key v ps (Ctx.slot_neg_one c _ st) rfl
        (by simpa using hentry)
      have hrun : whileNextN (-1) body (n + 1) s (c.withStack (.enumerator ((key, v) :: ps) :: st))
          = (body s >>= fun s => whileNextN (-1) body n s)
            (c.withStack (v :: .string key :: .enumerator ps :: st)) := by
        rw [whileNextN_succ, bind_ok hnext, if_pos rfl]
        rfl
      refine (Reaches.of_eq hrun (Reaches.bind (hround s key v ps hentry) fun s' _ _ =>
        whileNextN_reaches hround hroom ps n s' (Nat.lt_of_succ_lt_succ hn))).congr ?_ ?_
      · rw [List.foldlM_cons]
        rcases next s (key, v) with _ | s' <;> rfl
      · rw [visit]
        rcases next s (key, v) with _ | s' <;> simp only [Option.elim_none, Option.elim_some] <;>
          omega
    · refine .of_full ?_ (whileNextN_next_fails (dukNext_full (Ctx.slot_neg_one _ _ _) rfl ?_))
      · rw [visit]
        omega
      · simp only [List.length_cons]
        omega

theorem whileNext_reaches (hround : ∀ s key v ps, st.length + 3 ≤ c.reserve →
      Reaches c (body s) (v :: .string key :: .enumerator ps :: st)
        ((next s (key, v)).map fun s' => (s', .enumerator ps :: st)) (st.length + 3 + needs v))
    (hroom : st.length + 1 ≤ c.reserve) (ps : Props) (s : σ) :
    Reaches c (whileNext (-1) body s) (.enumerator ps :: st)
      ((ps.foldlM next s).map fun s' => (s', .enumerator [] :: st))
      (st.length + 1 + visit next needs ps s) := by
  refine Reaches.of_eq ?_ (whileNextN_reaches hround hroom ps (ps.length + 1) s
    (Nat.lt_succ_self _))
  rw [whileNext, bind_ok (dukPending_run (Ctx.get_neg_one _ _ _))]

/-- With the enumerator pushed and popped around it. -/
theorem dukEnum_reaches {idx : ℤ} {v : JsVal} {flags : EnumFlags} {s : σ}
    {f : σ → DukM ω β} {g : σ → Option (β × List JsVal)}
    (hround : ∀ s key v ps, st.length + 3 ≤ c.reserve →
      Reaches c (body s) (v :: .string key :: .enumerator ps :: st)
        ((next s (key, v)).map fun s' => (s', .enumerator ps :: st)) (st.length + 3 + needs v))
    (hf : ∀ s', st.length ≤ c.reserve → Reaches c (f s') st (g s') st.length)
    (hv : (c.withStack st).get idx = v) (hobj : v.isObject = true) :
    Reaches c (do
        dukEnum idx flags
        let s ← whileNext (-1) body s
        dukPop
        f s) st (((flags.props c.store v).foldlM next s).bind g)
      (st.length + (1 + visit next needs (flags.props c.store v) s)) := by
  by_cases hroom : st.length < c.reserve
  · refine (Reaches.of_eq (bind_ok (dukEnum_ok hv hobj hroom flags)) (Reaches.bind
      (whileNext_reaches hround hroom (flags.props c.store v) s) (g := g)
      (n := fun _ => st.length) fun s' _ _ =>
        Reaches.of_eq (bind_ok (dukPop_ok _)) (hf s' hroom.le))).congr rfl ?_
    rcases (flags.props c.store v).foldlM next s with _ | s' <;>
      simp only [Option.elim_none, Option.elim_some] <;> omega
  · exact .of_full (by omega) (fails_bind_left (dukEnum_full hv hobj (by omega) flags) _)

end Loop

section Rounds

variable {c : Ctx ω} {st : List JsVal} {getTerm : ℤ → DukM ω ETerm} {read : JsVal → Option ETerm}
  {needs : JsVal → ℕ} {v : JsVal} {top : ℕ}

theorem arrayRound_reaches {key : JsVal} (hget : Reaches c (getTerm (-1)) (v :: key :: st)
      ((read v).map fun t => (t, v :: key :: st)) top) (k : Bytes) (s : ArrayState) :
    Reaches c (arrayRound getTerm s) (v :: key :: st)
      ((arrayStep read s (k, v)).map fun s' => (s', st)) top := by
  refine (Reaches.bind hget (g := fun elem => if s.buffer.length ≤ s.array_index then none
    else some (⟨s.buffer.set s.array_index (some elem), s.array_index + 1⟩, st))
    (n := fun _ => 0) fun elem _ hle => ?_).congr ?_ ?_
  · split_ifs with hlen
    · exact .of_undefined (Nat.zero_le _) ⟨_, _, rfl, rfl⟩
    · exact .of_ok (Nat.zero_le _) (bind_ok (dukPop2_ok v key))
  · rw [arrayStep]
    rcases read v with _ | elem
    · rfl
    · simp only [Option.bind_some, Option.bind_eq_bind]
      split_ifs <;> rfl
  · rcases read v with _ | elem <;> exact Nat.max_eq_left (Nat.zero_le _)

theorem objectRound_reaches {k : Bytes} (hget : Reaches c (getTerm (-1)) (v :: .string k :: st)
      ((read v).map fun t => (t, v :: .string k :: st)) top) (keyword_list : ETerm) :
    Reaches c (objectRound getTerm keyword_list) (v :: .string k :: st)
      ((objectStep read keyword_list (k, v)).map fun list => (list, st)) top := by
  refine (Reaches.of_eq (bind_ok (keyString_run v k st)) (Reaches.bind hget
    (g := fun value => some (.cons (.tuple [erlMkString (cString k), value]) keyword_list, st))
    (n := fun _ => 0) fun value _ hle =>
      .of_ok (Nat.zero_le _) (bind_ok (dukPop2_ok v (.string k))))).congr ?_ ?_
  · rw [objectStep]
    rcases read v with _ | value <;> rfl
  · rcases read v with _ | value <;> exact Nat.max_eq_left (Nat.zero_le _)

theorem consAll_reaches (buffer : List (Option ETerm)) {top : ℕ} (htop : top ≤ c.reserve) :
    ∀ (n : ℕ) (list : ETerm), Reaches c (consAll buffer n list) st
      ((collect buffer n list).map fun t => (t, st)) top
  | 0, _ => .of_ok htop rfl
  | n + 1, list => by
    rw [consAll, collect]
    rcases buffer[n]? with _ | _ | elem
    · exact .of_undefined htop ⟨_, st, rfl, rfl⟩
    · exact .of_undefined htop ⟨_, st, rfl, rfl⟩
    · exact consAll_reaches buffer htop n (.cons elem list)

end Rounds

section Term

variable {c : Ctx ω}

theorem dukGetLength_array {st : List JsVal} {idx : ℤ} {elems : List (Option JsVal)}
    {named : Props} {proto : Option JsVal}
    (h : (c.withStack st).get idx = .array elems named proto) :
    dukGetLength idx (c.withStack st) = .ok elems.length (c.withStack st) := by
  rw [dukGetLength, bind_ok (dukGet_run _ _), h]
  rfl

/-- `getTerm` converts the top of a stack of `n` entries as `read` says. -/
def ConvertsTop (c : Ctx ω) (getTerm : ℤ → DukM ω ETerm) (read : JsVal → Option ETerm)
    (needs : JsVal → ℕ) (n : ℕ) : Prop :=
  ∀ (v : JsVal) (st : List JsVal), st.length = n → n ≤ c.reserve →
    (c.withStack st).get (-1) = v →
    Reaches c (getTerm (-1)) st ((read v).map fun t => (t, st)) (n + needs v)

variable {getTerm : ℤ → DukM ω ETerm} {read : JsVal → Option ETerm} {needs : JsVal → ℕ}

theorem dukErlangGetArray_reaches {st : List JsVal} {idx : ℤ} {v : JsVal}
    {elems : List (Option JsVal)} {named : Props} {proto : Option JsVal}
    (hget : ConvertsTop c getTerm read needs (st.length + 3))
    (hv : (c.withStack st).get idx = v) (harray : v = .array elems named proto) :
    Reaches c (dukErlangGetArray getTerm idx) st
      ((arrayTerm read elems.length (EnumFlags.arrayIndicesOnly.props c.store v)).map
        fun t => (t, st))
      (st.length + (1 + visit (arrayStep read) needs (EnumFlags.arrayIndicesOnly.props c.store v)
        (ArrayState.mk (List.replicate elems.length none) 0))) := by
  refine (Reaches.of_eq (bind_ok (dukGetLength_array (hv.trans harray)))
    (dukEnum_reaches (fun s key w ps hentry => ?_)
      (fun s hroom => consAll_reaches s.buffer hroom _ _) hv (harray ▸ rfl))).congr ?_ rfl
  · exact arrayRound_reaches (hget w (w :: .string key :: .enumerator ps :: st) rfl hentry
      (Ctx.get_neg_one _ _ _)) key s
  · rw [arrayTerm, Option.bind_eq_bind, Option.map_bind]
    rfl

theorem dukErlangGetObject_reaches {st : List JsVal} {idx : ℤ} {v : JsVal}
    (hget : ConvertsTop c getTerm read needs (st.length + 3))
    (hv : (c.withStack st).get idx = v) (hobj : v.isObject = true) :
    Reaches c (dukErlangGetObject getTerm idx) st
      ((objectTerm read (EnumFlags.ownPropertiesOnly.props c.store v)).map fun t => (t, st))
      (st.length + (1 + visit (objectStep read) needs
        (EnumFlags.ownPropertiesOnly.props c.store v) .nil)) := by
  refine (dukEnum_reaches (fun list key w ps hentry => ?_)
    (fun list hroom => .of_ok (a := list) hroom rfl) hv hobj).congr ?_ rfl
  · exact objectRound_reaches (hget w (w :: .string key :: .enumerator ps :: st) rfl hentry
      (Ctx.get_neg_one _ _ _)) list
  · rw [objectTerm, Option.map_eq_bind]
    rfl

/-- With more levels than the stack has entries left, every value is gone through to the end. -/
theorem dukErlangGetTermN_reaches : ∀ (depth : ℕ) (v : JsVal) (idx : ℤ) (st : List JsVal),
    c.reserve < depth + st.length → st.length ≤ c.reserve → (c.withStack st).get idx = v →
    Reaches c (dukErlangGetTermN depth idx) st
      ((readTerm c.store depth v).map fun t => (t, st)) (st.length + need c.store depth v)
  | 0, _, _, _, hdepth, hle, _ => absurd hdepth (by omega)
  | depth + 1, v, idx, st, hdepth, hle, hv => by
    have hget : ConvertsTop c (dukErlangGetTermN depth) (readTerm c.store depth)
        (need c.store depth) (st.length + 3) := by
      intro w st' hst' hroom hw
      exact (dukErlangGetTermN_reaches depth w (-1) st' (by omega) (by omega) hw).congr rfl
        (by rw [hst'])
    have hrun : ∀ m : DukM ω ETerm, (∀ c : Ctx ω, c.get idx = v →
          dukErlangGetTermBody (dukErlangGetTermN depth) idx c = m c) →
        dukErlangGetTermN (depth + 1) idx (c.withStack st) = m (c.withStack st) :=
      fun m hm => hm _ hv
    cases v with
    | undefined | null | number | string =>
      refine Reaches.of_ok hle (hrun (fun c => .ok _ c) fun c hv => ?_)
      rw [dukErlangGetTermBody, bind_ok (dukGet_run _ _), hv]
      rfl
    | boolean b =>
      refine Reaches.of_ok hle (hrun (fun c => .ok _ c) fun c hv => ?_)
      rw [dukErlangGetTermBody, bind_ok (dukGet_run _ _), hv]
      cases b <;> rfl
    | array elems named proto =>
      refine Reaches.of_eq (hrun (dukErlangGetArray _ _) fun c hv => ?_)
        (dukErlangGetArray_reaches hget hv rfl)
      rw [dukErlangGetTermBody, bind_ok (dukGet_run _ _), hv]
    | object | function | enumerator | error | ref =>
      refine Reaches.of_eq (hrun (dukErlangGetObject _ _) fun c hv => ?_)
        (dukErlangGetObject_reaches hget hv rfl)
      rw [dukErlangGetTermBody, bind_ok (dukGet_run _ _), hv]

theorem convertsTop_getTermN {depth n : ℕ} (hdepth : c.reserve < depth + n) :
    ConvertsTop c (dukErlangGetTermN depth) (readTerm c.store depth) (need c.store depth) n := by
  rintro v st rfl hle hv
  exact dukErlangGetTermN_reaches depth v (-1) st hdepth hle hv

/-- Plain data reads as its term, and takes no more entries than its `slots`. -/
theorem readTerm_toJs {d : JsData} (hd : d.Small) (store : Store) {depth : ℕ}
    (hdepth : d.slots < depth) : readTerm store depth d.toJs = some d.termOf
      ∧ need store depth d.toJs ≤ d.slots := by
  let c : Ctx Unit := { Ctx.bare (1 + d.slots) () with store := store }
  have hreserve : c.reserve < depth + [d.toJs].length := by
    simp only [c, Ctx.bare, List.length_singleton]
    omega
  have hget : (c.withStack [d.toJs]).get (-1) = d.toJs := Ctx.get_neg_one c _ []
  have hok := (dukErlangGetTermN_gets d hd depth 1 hreserve (-1) [d.toJs] rfl
    (Nat.le_add_right 1 _) hget).1 le_rfl
  have hreaches := dukErlangGetTermN_reaches depth d.toJs (-1) [d.toJs] hreserve
    (Nat.le_add_right 1 _) hget
  obtain ⟨htop, hread⟩ := hreaches.eq_ok_iff.1 hok
  exact ⟨hread, Nat.le_of_add_le_add_left htop⟩

end Term

end Erlm
