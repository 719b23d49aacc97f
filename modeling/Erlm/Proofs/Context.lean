import Erlm.Context

/-!
# One Duktape call at a time

What each call does to a stack that is written out, the successful case and the one in which the
stack is full. A computation that fails here has changed the stack alone (`FailsWith`).
-/

namespace Erlm

variable {ω α β σ : Type}

namespace Ctx

@[simp] theorem withStack_stack (c : Ctx ω) (st : List JsVal) : (c.withStack st).stack = st := rfl

@[simp] theorem withStack_reserve (c : Ctx ω) (st : List JsVal) :
    (c.withStack st).reserve = c.reserve := rfl

@[simp] theorem withStack_engine (c : Ctx ω) (st : List JsVal) :
    (c.withStack st).engine = c.engine := rfl

@[simp] theorem withStack_store (c : Ctx ω) (st : List JsVal) :
    (c.withStack st).store = c.store := rfl

@[simp] theorem withStack_world (c : Ctx ω) (st : List JsVal) :
    (c.withStack st).world = c.world := rfl

@[simp] theorem withStack_calls (c : Ctx ω) (st : List JsVal) :
    (c.withStack st).calls = c.calls := rfl

@[simp] theorem withStack_withStack (c : Ctx ω) (st st' : List JsVal) :
    (c.withStack st).withStack st' = c.withStack st' := rfl

@[simp] theorem withStack_self (c : Ctx ω) : c.withStack c.stack = c := rfl

/-- An index from the bottom names the entry above as many others. -/
theorem slot_bottom (c : Ctx ω) (xs : List JsVal) (v : JsVal) (st : List JsVal) :
    (c.withStack (xs ++ v :: st)).slot st.length = some xs.length := by
  have hlen : (xs ++ v :: st).length = xs.length + st.length + 1 := by
    simp only [List.length_append, List.length_cons]
    omega
  unfold slot
  rw [if_neg (by omega), if_pos (by rw [withStack_stack, hlen]; omega), withStack_stack, hlen]
  congr 1
  omega

/-- An index from the top names the entry below as many others. -/
theorem slot_top (c : Ctx ω) {st : List JsVal} {i : ℕ} (h : i < st.length) :
    (c.withStack st).slot (-(i + 1 : ℕ)) = some i := by
  unfold slot
  rw [if_pos (by omega), if_pos (by rw [withStack_stack]; omega)]
  congr 1
  omega

@[simp] theorem slot_neg_one (c : Ctx ω) (v : JsVal) (st : List JsVal) :
    (c.withStack (v :: st)).slot (-1) = some 0 :=
  slot_top c (i := 0) (by simp)

@[simp] theorem slot_neg_two (c : Ctx ω) (v w : JsVal) (st : List JsVal) :
    (c.withStack (v :: w :: st)).slot (-2) = some 1 :=
  slot_top c (i := 1) (by simp)

theorem get_of_slot {c : Ctx ω} {idx : ℤ} {i : ℕ} {v : JsVal} (h : c.slot idx = some i)
    (hv : c.stack[i]? = some v) : c.get idx = v := by
  simp [get, h, hv]

@[simp] theorem get_neg_one (c : Ctx ω) (v : JsVal) (st : List JsVal) :
    (c.withStack (v :: st)).get (-1) = v :=
  get_of_slot (slot_neg_one c v st) rfl

@[simp] theorem get_neg_two (c : Ctx ω) (v w : JsVal) (st : List JsVal) :
    (c.withStack (v :: w :: st)).get (-2) = w :=
  get_of_slot (slot_neg_two c v w st) rfl

end Ctx

section Bind

theorem bind_ok {m : DukM ω α} {f : α → DukM ω β} {c c' : Ctx ω} {a : α} (h : m c = .ok a c') :
    (m >>= f) c = f a c' := by
  simp only [bind, EStateM.bind, h]

theorem bind_error {m : DukM ω α} {f : α → DukM ω β} {c c' : Ctx ω} {e : Fault}
    (h : m c = .error e c') : (m >>= f) c = .error e c' := by
  simp only [bind, EStateM.bind, h]

/-- A sequence comes to an end when both parts do. -/
theorem bind_eq_ok {m : DukM ω α} {f : α → DukM ω β} {c c'' : Ctx ω} {b : β}
    (h : (m >>= f) c = .ok b c'') : ∃ a c', m c = .ok a c' ∧ f a c' = .ok b c'' := by
  rcases hm : m c with ⟨a, c'⟩ | ⟨e, c'⟩
  · rw [bind_ok hm] at h
    exact ⟨a, c', rfl, h⟩
  · rw [bind_error hm] at h
    cases h

/-- The computation ends with a fault of some kind and leaves everything but the stack as it was. -/
def FailsWith (kind : Fault → Prop) (m : DukM ω α) (c : Ctx ω) : Prop :=
  ∃ e st, kind e ∧ m c = .error e (c.withStack st)

abbrev Fails : DukM ω α → Ctx ω → Prop := FailsWith fun _ => True

/-- It throws a JavaScript error. -/
abbrev Throws : DukM ω α → Ctx ω → Prop := FailsWith fun e => ∃ v, e = .thrown v

variable {kind : Fault → Prop}

theorem FailsWith.fails {m : DukM ω α} {c : Ctx ω} (h : FailsWith kind m c) : Fails m c := by
  obtain ⟨e, st, -, h⟩ := h
  exact ⟨e, st, trivial, h⟩

theorem fails_bind_left {m : DukM ω α} {c : Ctx ω} (h : FailsWith kind m c) (f : α → DukM ω β) :
    FailsWith kind (m >>= f) c := by
  obtain ⟨e, st, hk, h⟩ := h
  exact ⟨e, st, hk, bind_error h⟩

theorem fails_bind_right {m : DukM ω α} {f : α → DukM ω β} {c c' : Ctx ω} {a : α}
    (h : m c = .ok a c') (hc : c' = c.withStack c'.stack) (hf : FailsWith kind (f a) c') :
    FailsWith kind (m >>= f) c := by
  obtain ⟨e, st, hk, hf⟩ := hf
  exact ⟨e, st, hk, by rw [bind_ok h, hf, hc, Ctx.withStack_withStack]⟩

theorem not_fails_of_ok {m : DukM ω α} {c c' : Ctx ω} {a : α} (h : m c = .ok a c') :
    ¬ FailsWith kind m c := by
  rintro ⟨e, st, -, he⟩
  rw [h] at he
  cases he

end Bind

theorem get_run (c : Ctx ω) : (get : DukM ω (Ctx ω)) c = .ok c c := rfl

theorem modify_run (f : Ctx ω → Ctx ω) (c : Ctx ω) :
    (modify f : DukM ω PUnit) c = .ok ⟨⟩ (f c) := rfl

section Stack

variable {c : Ctx ω} {st : List JsVal}

theorem dukGetTop_run (c : Ctx ω) : dukGetTop c = .ok c.stack.length c := rfl

theorem dukGet_run (idx : ℤ) (c : Ctx ω) : dukGet idx c = .ok (c.get idx) c := rfl

theorem dukPush_ok (h : st.length < c.reserve) (v : JsVal) :
    dukPush v (c.withStack st) = .ok () (c.withStack (v :: st)) := by
  unfold dukPush
  rw [if_pos (by simpa using h)]
  rfl

theorem dukPush_full (h : c.reserve ≤ st.length) (v : JsVal) :
    dukPush v (c.withStack st) = .error (.thrown (.error .rangeError)) (c.withStack st) := by
  unfold dukPush
  rw [if_neg (by simpa using h)]
  rfl

theorem dukPush_throws (h : c.reserve ≤ st.length) (v : JsVal) :
    Throws (dukPush v) (c.withStack st) :=
  ⟨_, _, ⟨_, rfl⟩, dukPush_full h v⟩

theorem dukPopN_ok {n : ℕ} (h : n ≤ st.length) :
    dukPopN n (c.withStack st) = .ok () (c.withStack (st.drop n)) := by
  unfold dukPopN
  rw [if_pos (by simpa using h)]
  rfl

theorem dukPop_ok (v : JsVal) : dukPop (c.withStack (v :: st)) = .ok () (c.withStack st) :=
  dukPopN_ok (by simp)

theorem dukPop2_ok (v w : JsVal) :
    dukPopN 2 (c.withStack (v :: w :: st)) = .ok () (c.withStack st) :=
  dukPopN_ok (by simp)

theorem dukRequireSlot_ok {idx : ℤ} {i : ℕ} (h : c.slot idx = some i) :
    dukRequireSlot idx c = .ok i c := by
  simp only [dukRequireSlot, h]

theorem dukPushArray_ok (h : st.length < c.reserve) :
    dukPushArray (c.withStack st) = .ok (st.length : ℤ) (c.withStack (.ofList [] :: st)) := by
  rw [dukPushArray, bind_ok (dukGetTop_run _), bind_ok (dukPush_ok h _)]
  rfl

theorem dukPushArray_throws (h : c.reserve ≤ st.length) :
    Throws dukPushArray (c.withStack st) := by
  rw [dukPushArray]
  exact fails_bind_right (dukGetTop_run _) rfl (fails_bind_left (dukPush_throws h _) _)

end Stack

section Moves

/-- From the stack `st`, `m` returns what `r` says and leaves the stack `r` says, going up to `top`
entries on the way. If `r` says nothing, or there are not that many entries, `m` fails. -/
def Moves (c : Ctx ω) (m : DukM ω α) (st : List JsVal) (r : Option (α × List JsVal))
    (top : ℕ) : Prop :=
  (∀ a st', r = some (a, st') → top ≤ c.reserve →
      m (c.withStack st) = .ok a (c.withStack st'))
    ∧ (r = none ∨ c.reserve < top → Fails m (c.withStack st))

variable {c : Ctx ω} {st : List JsVal}

theorem Moves.of_ok {m : DukM ω α} {a : α} {st' : List JsVal} {top : ℕ} (htop : top ≤ c.reserve)
    (h : m (c.withStack st) = .ok a (c.withStack st')) : Moves c m st (some (a, st')) top := by
  refine ⟨fun b st'' hr _ => ?_, fun hf => ?_⟩
  · simp only [Option.some.injEq, Prod.mk.injEq] at hr
    rw [h, hr.1, hr.2]
  · rcases hf with hf | hf
    · cases hf
    · omega

theorem Moves.of_fails {m : DukM ω α} {top : ℕ} (h : Fails m (c.withStack st)) :
    Moves c m st none top := by
  refine ⟨fun b st'' hr => ?_, fun _ => h⟩
  cases hr

/-- One after the other: the second goes on where the first stopped, `k` saying which stack the
first leaves with which outcome. -/
theorem Moves.bindTop {γ : Type} {m : DukM ω α} {f : α → DukM ω β} {r : Option γ}
    {k : γ → α × List JsVal} {g : γ → Option (β × List JsVal)} {top : ℕ} {top' : γ → ℕ}
    (hm : Moves c m st (r.map k) top)
    (hf : ∀ x, r = some x → top ≤ c.reserve → Moves c (f (k x).1) (k x).2 (g x) (top' x)) :
    Moves c (m >>= f) st (r.bind g) (max top ((r.map top').getD 0)) := by
  rcases r with _ | x
  · exact Moves.of_fails (fails_bind_left (hm.2 (Or.inl rfl)) f)
  · rw [Option.map_some, Option.getD_some]
    by_cases hle : top ≤ c.reserve
    · have hok := hm.1 _ _ rfl hle
      obtain ⟨h1, h2⟩ := hf x rfl hle
      refine ⟨fun b st' hr htop => ?_, fun h => fails_bind_right hok rfl (h2 ?_)⟩
      · rw [bind_ok hok]
        exact h1 b st' hr (by omega)
      · exact h.imp_right fun hlt => by omega
    · refine ⟨fun b st' hr htop => absurd htop (by omega), fun _ => ?_⟩
      exact fails_bind_left (hm.2 (Or.inr (by omega))) f

theorem Moves.of_top {m : DukM ω α} {r : Option (α × List JsVal)} {top top' : ℕ}
    (h : Moves c m st r top) (htop : r ≠ none → (top ≤ c.reserve ↔ top' ≤ c.reserve)) :
    Moves c m st r top' := by
  by_cases hr : r = none
  · subst hr
    exact Moves.of_fails (h.2 (Or.inl rfl))
  · have hiff := htop hr
    exact ⟨fun a st' hr hle => h.1 a st' hr (hiff.2 hle),
      fun hf => h.2 (hf.imp_right fun hlt => by omega)⟩

theorem Moves.bind {γ : Type} {m : DukM ω α} {f : α → DukM ω β} {r : Option γ}
    {k : γ → α × List JsVal} {g : γ → Option (β × List JsVal)} {top top' : ℕ}
    (hm : Moves c m st (r.map k) top)
    (hf : ∀ x, r = some x → top ≤ c.reserve → Moves c (f (k x).1) (k x).2 (g x) top') :
    Moves c (m >>= f) st (r.bind g) (max top top') := by
  refine (Moves.bindTop hm hf).of_top fun hr => ?_
  rcases r with _ | x
  · exact absurd rfl hr
  · rfl

theorem Moves.congr {m : DukM ω α} {r r' : Option (α × List JsVal)} {top top' : ℕ}
    (h : Moves c m st r top) (hr : r = r') (htop : top = top') : Moves c m st r' top' := by
  subst hr htop
  exact h

/-- A computation that goes on as another one does from some other stack. -/
theorem Moves.of_eq {m m' : DukM ω α} {st' : List JsVal} {r : Option (α × List JsVal)} {top : ℕ}
    (heq : m (c.withStack st) = m' (c.withStack st')) (h : Moves c m' st' r top) :
    Moves c m st r top := by
  unfold Moves Fails FailsWith at *
  rw [heq]
  exact h

theorem dukPush_moves (v : JsVal) (st : List JsVal) :
    Moves c (dukPush v) st (some ((), v :: st)) (st.length + 1) := by
  refine ⟨fun a st' hr htop => ?_, fun h => (dukPush_throws ?_ v).fails⟩
  · simp only [Option.some.injEq, Prod.mk.injEq] at hr
    rw [dukPush_ok (by omega), ← hr.2]
  · rcases h with h | h
    · cases h
    · omega

theorem dukPushArray_moves (st : List JsVal) :
    Moves c dukPushArray st
      ((some ()).map fun _ => ((st.length : ℤ), .ofList [] :: st)) (st.length + 1) := by
  refine ⟨fun a st' hr htop => ?_, fun h => (dukPushArray_throws ?_).fails⟩
  · simp only [Option.map_some, Option.some.injEq, Prod.mk.injEq] at hr
    rw [dukPushArray_ok (by omega), ← hr.1, ← hr.2]
  · rcases h with h | h
    · cases h
    · omega

end Moves

section Properties

variable {c : Ctx ω} {st : List JsVal}

/-- Putting the top under an index of the array below it. -/
theorem dukPutPropIndex_ok {idx : ℤ} {v : JsVal} {elems : List (Option JsVal)} {named : Props}
    {proto : Option JsVal}
    (h : (c.withStack (v :: .array elems named proto :: st)).slot idx = some 1) (i : ℕ) :
    dukPutPropIndex idx i (c.withStack (v :: .array elems named proto :: st))
      = .ok () (c.withStack (.array (JsVal.putAt elems i v) named proto :: st)) := by
  rw [dukPutPropIndex, dukPutProp, bind_ok (dukRequireSlot_ok h), bind_ok (dukGet_run _ _),
    bind_ok (get_run _)]
  simp only [Ctx.get_neg_one, Ctx.get_of_slot h (v := .array elems named proto) rfl]
  rw [bind_ok (modify_run _ _)]
  exact dukPop_ok v

theorem dukPutPropString_ok {idx : ℤ} {v w : JsVal} {elems : List (Option JsVal)} {named : Props}
    {proto : Option JsVal} {key : Bytes}
    (h : (c.withStack (v :: .array elems named proto :: st)).slot idx = some 1)
    (hput : JsVal.arrayPut c.engine.arrayLength elems named proto (cString key) v = some w) :
    dukPutPropString idx key (c.withStack (v :: .array elems named proto :: st))
      = .ok () (c.withStack (w :: st)) := by
  unfold dukPutPropString dukPutProp
  rw [bind_ok (get_run _), bind_ok (dukRequireSlot_ok h), bind_ok (dukGet_run _ _),
    bind_ok (get_run _)]
  simp only [Ctx.get_neg_one, Ctx.get_of_slot h (v := .array elems named proto) rfl,
    Ctx.withStack_engine, hput]
  rw [bind_ok (modify_run _ _)]
  exact dukPop_ok v

theorem dukPutPropString_fails {idx : ℤ} {v : JsVal} {elems : List (Option JsVal)}
    {named : Props} {proto : Option JsVal} {key : Bytes}
    (h : (c.withStack (v :: .array elems named proto :: st)).slot idx = some 1)
    (hput : JsVal.arrayPut c.engine.arrayLength elems named proto (cString key) v = none) :
    Fails (dukPutPropString idx key) (c.withStack (v :: .array elems named proto :: st)) := by
  unfold dukPutPropString dukPutProp
  refine fails_bind_right (get_run _) rfl (fails_bind_right (dukRequireSlot_ok h) rfl
    (fails_bind_right (dukGet_run _ _) rfl (fails_bind_right (get_run _) rfl ?_)))
  simp only [Ctx.get_neg_one, Ctx.get_of_slot h (v := .array elems named proto) rfl,
    Ctx.withStack_engine, hput]
  exact fails_bind_left ⟨_, _, trivial, rfl⟩ _

/-- A property of a value, none where there is nothing to look it up in. -/
def Ctx.prop (c : Ctx ω) (v : JsVal) (key : Bytes) : Option JsVal :=
  match v with
  | .undefined | .null => none
  | v => some (v.lookup c.store c.engine.inherited key)

theorem dukGetProp_moves {idx : ℤ} {i : ℕ} {v : JsVal} (h : (c.withStack st).slot idx = some i)
    (hv : st[i]? = some v) (key : Bytes) :
    Moves c (dukGetProp idx key) st ((c.prop v key).map fun w => ((), w :: st))
      (st.length + 1) := by
  have hrun : dukGetProp idx key (c.withStack st) = (match v with
      | .undefined | .null => dukThrow .typeError
      | v => dukPush (v.lookup c.store c.engine.inherited key)) (c.withStack st) := by
    rw [dukGetProp, bind_ok (dukRequireSlot_ok h), bind_ok (get_run _), Ctx.get_of_slot h hv]
    rfl
  unfold Ctx.prop Moves Fails FailsWith
  rw [hrun]
  split
  · exact Moves.of_fails ⟨_, _, trivial, rfl⟩
  · exact Moves.of_fails ⟨_, _, trivial, rfl⟩
  · exact dukPush_moves _ st

/-- The key `duk_get_prop_string` looks up. -/
def propKey : Option Bytes → Bytes
  | some key => cString key
  | none => ascii ['n', 'u', 'l', 'l']

theorem dukGetPropString_moves {v : JsVal} (key : Option Bytes) :
    Moves c (dukGetPropString (-1) key) (v :: st)
      ((c.prop v (propKey key)).map fun w => ((), w :: v :: st)) (st.length + 2) := by
  cases key <;> exact dukGetProp_moves (Ctx.slot_neg_one _ _ _) rfl _

theorem dukGetPropIndex_moves {v : JsVal} (i : ℕ) :
    Moves c (dukGetPropIndex (-1) i) (v :: st)
      ((c.prop v (decimal i)).map fun w => ((), w :: v :: st)) (st.length + 2) :=
  dukGetProp_moves (Ctx.slot_neg_one _ _ _) rfl _

theorem dukGetPropString_ok {v w : JsVal} {key : Bytes} (hprop : c.prop v (cString key) = some w)
    (hroom : st.length + 2 ≤ c.reserve) :
    dukGetPropString (-1) (some key) (c.withStack (v :: st))
      = .ok () (c.withStack (w :: v :: st)) :=
  (dukGetPropString_moves (some key)).1 _ _ (by rw [propKey, hprop]; rfl) hroom

theorem dukGetPropIndex_ok {v w : JsVal} {i : ℕ} (hprop : c.prop v (decimal i) = some w)
    (hroom : st.length + 2 ≤ c.reserve) :
    dukGetPropIndex (-1) i (c.withStack (v :: st)) = .ok () (c.withStack (w :: v :: st)) :=
  (dukGetPropIndex_moves i).1 _ _ (by rw [hprop]; rfl) hroom

theorem Ctx.prop_of_isObject {v : JsVal} (hobj : v.isObject = true) (key : Bytes) :
    c.prop v key = some (v.lookup c.store c.engine.inherited key) := by
  cases v with
  | undefined | null => cases hobj
  | _ => rfl

theorem dukGetPropString_isObject {v : JsVal} {key : Bytes} (hobj : v.isObject = true)
    (hkey : 0 ∉ key) (hroom : st.length + 2 ≤ c.reserve) :
    dukGetPropString (-1) (some key) (c.withStack (v :: st))
      = .ok () (c.withStack (v.lookup c.store c.engine.inherited key :: v :: st)) :=
  dukGetPropString_ok (by rw [cString_of_notMem hkey, Ctx.prop_of_isObject hobj]) hroom

theorem Ctx.prop_ref {r : ℕ} {key : Bytes} {v : JsVal} (h : Assoc.get? (c.store r) key = some v) :
    c.prop (.ref r) key = some v := by
  simp [prop, JsVal.lookup, JsVal.own, h]

theorem dukDup_ok {idx : ℤ} {i : ℕ} {v : JsVal} (h : (c.withStack st).slot idx = some i)
    (hv : st[i]? = some v) (hroom : st.length < c.reserve) :
    dukDup idx (c.withStack st) = .ok () (c.withStack (v :: st)) := by
  rw [dukDup, bind_ok (dukRequireSlot_ok h), bind_ok (dukGet_run _ _), Ctx.get_of_slot h hv]
  exact dukPush_ok hroom v

/-- A context in which a shared object has other properties. -/
def Ctx.withShared (c : Ctx ω) (r : ℕ) (ps : Props) : Ctx ω :=
  { c with store := Function.update c.store r ps }

/-- Putting the top under an index of the shared object below it. -/
theorem dukPutPropIndex_ref (v : JsVal) (r i : ℕ) :
    dukPutPropIndex (-2) i (c.withStack (v :: .ref r :: st)) = .ok ()
      ((c.withShared r (Assoc.put (c.store r) (decimal i) v)).withStack (.ref r :: st)) := by
  rw [dukPutPropIndex, dukPutProp, bind_ok (dukRequireSlot_ok (Ctx.slot_neg_two _ _ _ _)),
    bind_ok (dukGet_run _ _), bind_ok (get_run _)]
  simp only [Ctx.get_neg_one, Ctx.get_neg_two]
  rw [bind_ok (modify_run _ _)]
  exact @dukPop_ok _ (c.withShared r (Assoc.put (c.store r) (decimal i) v)) _ v

theorem dukPutPropString_ref {key : Bytes} (hkey : 0 ∉ key) (v : JsVal) (r : ℕ) :
    dukPutPropString (-2) key (c.withStack (v :: .ref r :: st)) = .ok ()
      ((c.withShared r (Assoc.put (c.store r) key v)).withStack (.ref r :: st)) := by
  rw [dukPutPropString, bind_ok (get_run _), dukPutProp, cString_of_notMem hkey,
    bind_ok (dukRequireSlot_ok (Ctx.slot_neg_two _ _ _ _)), bind_ok (dukGet_run _ _),
    bind_ok (get_run _)]
  simp only [Ctx.get_neg_one, Ctx.get_neg_two]
  rw [bind_ok (modify_run _ _)]
  exact @dukPop_ok _ (c.withShared r (Assoc.put (c.store r) key v)) _ v

/-- Deleting an index of the shared object on the top. -/
theorem dukDelPropIndex_ref (r i : ℕ) :
    dukDelPropIndex (-1) i (c.withStack (.ref r :: st)) = .ok ()
      ((c.withShared r (Assoc.erase (c.store r) (decimal i))).withStack (.ref r :: st)) := by
  rw [dukDelPropIndex, bind_ok (dukRequireSlot_ok (Ctx.slot_neg_one _ _ _)),
    bind_ok (dukGet_run _ _), Ctx.get_neg_one]
  rfl

theorem dukGetInt_ofInt {n : ℤ} (h : IsInt n) :
    dukGetInt (-1) (c.withStack (.number (.ofInt n) :: st))
      = .ok n (c.withStack (.number (.ofInt n) :: st)) := by
  rw [dukGetInt, bind_ok (dukGet_run _ _), Ctx.get_neg_one]
  simp only [Double.toCInt_ofInt h]
  rfl

theorem dukRemove_ok {idx : ℤ} {i : ℕ} (h : (c.withStack st).slot idx = some i) :
    dukRemove idx (c.withStack st) = .ok () (c.withStack (st.eraseIdx i)) := by
  rw [dukRemove, bind_ok (dukRequireSlot_ok h)]
  rfl

end Properties

section Enumeration

variable {c : Ctx ω} {st : List JsVal}

theorem dukEnum_ok {idx : ℤ} {v : JsVal} (hv : (c.withStack st).get idx = v)
    (hobj : v.isObject = true) (h : st.length < c.reserve) (flags : EnumFlags) :
    dukEnum idx flags (c.withStack st)
      = .ok () (c.withStack (.enumerator (flags.props c.store v) :: st)) := by
  rw [dukEnum, bind_ok (get_run _), hv, if_pos hobj]
  exact dukPush_ok h _

theorem dukEnum_ownProps {v : JsVal} (hobj : v.isObject = true) (h : st.length + 1 < c.reserve) :
    dukEnum (-1) .ownPropertiesOnly (c.withStack (v :: st))
      = .ok () (c.withStack (.enumerator (v.ownProps c.store) :: v :: st)) :=
  dukEnum_ok (Ctx.get_neg_one _ _ _) hobj h _

theorem dukEnum_full {idx : ℤ} {v : JsVal} (hv : (c.withStack st).get idx = v)
    (hobj : v.isObject = true) (h : c.reserve ≤ st.length) (flags : EnumFlags) :
    Throws (dukEnum idx flags) (c.withStack st) := by
  rw [dukEnum]
  refine fails_bind_right (get_run _) rfl ?_
  rw [hv, if_pos hobj]
  exact dukPush_throws h _

theorem dukNext_nil {idx : ℤ} {i : ℕ} (hs : (c.withStack st).slot idx = some i)
    (hi : st[i]? = some (.enumerator [])) :
    dukNext idx (c.withStack st) = .ok false (c.withStack st) := by
  rw [dukNext, bind_ok (dukRequireSlot_ok hs), bind_ok (dukGet_run _ _),
    Ctx.get_of_slot hs (v := .enumerator []) hi]
  rfl

theorem dukNext_cons {idx : ℤ} {i : ℕ} {key : Bytes} {v : JsVal} {pending : Props}
    (hs : (c.withStack st).slot idx = some i)
    (hi : st[i]? = some (.enumerator ((key, v) :: pending))) (h : st.length + 2 ≤ c.reserve) :
    dukNext idx (c.withStack st)
      = .ok true (c.withStack (v :: .string key :: st.set i (.enumerator pending))) := by
  rw [dukNext, bind_ok (dukRequireSlot_ok hs), bind_ok (dukGet_run _ _),
    Ctx.get_of_slot hs (v := .enumerator ((key, v) :: pending)) hi]
  simp only []
  rw [bind_ok (modify_run _ _), Ctx.withStack_withStack, Ctx.withStack_stack,
    bind_ok (dukPush_ok (by simp; omega) _), bind_ok (dukPush_ok (by simp; omega) _)]
  rfl

theorem dukNext_full {idx : ℤ} {i : ℕ} {key : Bytes} {v : JsVal} {pending : Props}
    (hs : (c.withStack st).slot idx = some i)
    (hi : st[i]? = some (.enumerator ((key, v) :: pending))) (h : c.reserve < st.length + 2) :
    Throws (dukNext idx) (c.withStack st) := by
  rw [dukNext]
  refine fails_bind_right (dukRequireSlot_ok hs) rfl (fails_bind_right (dukGet_run _ _) rfl ?_)
  rw [Ctx.get_of_slot hs (v := .enumerator ((key, v) :: pending)) hi]
  refine fails_bind_right (modify_run _ _) rfl ?_
  rw [Ctx.withStack_withStack, Ctx.withStack_stack]
  by_cases h' : c.reserve ≤ st.length
  · exact fails_bind_left (dukPush_throws (by simpa using h') _) _
  · exact fails_bind_right (dukPush_ok (by simp; omega) _) rfl
      (fails_bind_left (dukPush_throws (by simp; omega) _) _)

theorem dukNextKey_nil {idx : ℤ} {i : ℕ} (hs : (c.withStack st).slot idx = some i)
    (hi : st[i]? = some (.enumerator [])) :
    dukNextKey idx (c.withStack st) = .ok false (c.withStack st) := by
  rw [dukNextKey, bind_ok (dukRequireSlot_ok hs), bind_ok (dukGet_run _ _),
    Ctx.get_of_slot hs (v := .enumerator []) hi]
  rfl

theorem dukNextKey_cons {idx : ℤ} {i : ℕ} {key : Bytes} {v : JsVal} {pending : Props}
    (hs : (c.withStack st).slot idx = some i)
    (hi : st[i]? = some (.enumerator ((key, v) :: pending))) (h : st.length < c.reserve) :
    dukNextKey idx (c.withStack st)
      = .ok true (c.withStack (.string key :: st.set i (.enumerator pending))) := by
  rw [dukNextKey, bind_ok (dukRequireSlot_ok hs), bind_ok (dukGet_run _ _),
    Ctx.get_of_slot hs (v := .enumerator ((key, v) :: pending)) hi]
  simp only []
  rw [bind_ok (modify_run _ _), Ctx.withStack_withStack, Ctx.withStack_stack,
    bind_ok (dukPush_ok (by rwa [List.length_set]) _)]
  rfl

theorem dukPending_run {idx : ℤ} {pending : Props}
    (h : (c.withStack st).get idx = .enumerator pending) :
    dukPending idx (c.withStack st) = .ok pending.length (c.withStack st) := by
  rw [dukPending, bind_ok (dukGet_run _ _), h]
  rfl

theorem whileNextN_succ (idx : ℤ) (body : σ → DukM ω σ) (n : ℕ) (s : σ) :
    whileNextN idx body (n + 1) s = dukNext idx >>= fun more =>
      if more then body s >>= whileNextN idx body n else pure s :=
  rfl

theorem whileNextN_done {idx : ℤ} {body : σ → DukM ω σ} {n : ℕ} {s : σ} {c c' : Ctx ω}
    (h : dukNext idx c = .ok false c') : whileNextN idx body (n + 1) s c = .ok s c' := by
  rw [whileNextN_succ, bind_ok h]
  rfl

theorem whileNextN_round {idx : ℤ} {body : σ → DukM ω σ} {n : ℕ} {s s' : σ} {c c' c'' : Ctx ω}
    (h : dukNext idx c = .ok true c') (hb : body s c' = .ok s' c'') :
    whileNextN idx body (n + 1) s c = whileNextN idx body n s' c'' := by
  rw [whileNextN_succ, bind_ok h, if_pos rfl, bind_ok hb]

theorem whileNextN_next_fails {idx : ℤ} {body : σ → DukM ω σ} {n : ℕ} {s : σ} {c : Ctx ω}
    (h : FailsWith kind (dukNext idx) c) : FailsWith kind (whileNextN idx body (n + 1) s) c := by
  rw [whileNextN_succ]
  exact fails_bind_left h _

theorem whileNextN_body_fails {idx : ℤ} {body : σ → DukM ω σ} {n : ℕ} {s : σ} {c c' : Ctx ω}
    (h : dukNext idx c = .ok true c') (hc : c' = c.withStack c'.stack)
    (hb : FailsWith kind (body s) c') :
    FailsWith kind (whileNextN idx body (n + 1) s) c := by
  rw [whileNextN_succ]
  refine fails_bind_right h hc ?_
  rw [if_pos rfl]
  exact fails_bind_left hb _

end Enumeration

section Loop

variable {ι : Type} {c : Ctx ω} {st : List JsVal} {val : ι → JsVal} {body : σ → DukM ω σ}
  {I : List (Bytes × ι) → σ → Prop} {fits : ι → Prop}

/-- The entries of an enumerator whose values are given by what they stand for. -/
def entries (val : ι → JsVal) (ps : List (Bytes × ι)) : Props := ps.map fun p => (p.1, val p.2)

/-- A round on an entry that fits consumes the entry and keeps the invariant. -/
def RoundOk (c : Ctx ω) (st : List JsVal) (val : ι → JsVal) (body : σ → DukM ω σ)
    (I : List (Bytes × ι) → σ → Prop) (fits : ι → Prop) : Prop :=
  ∀ key a post s, I ((key, a) :: post) s → fits a → ∃ s',
    body s (c.withStack (val a :: .string key :: .enumerator (entries val post) :: st))
      = .ok s' (c.withStack (.enumerator (entries val post) :: st)) ∧ I post s'

theorem dukNext_entries (h : st.length + 3 ≤ c.reserve) (val : ι → JsVal) (key : Bytes) (a : ι)
    (ps : List (Bytes × ι)) :
    dukNext (-1) (c.withStack (.enumerator (entries val ((key, a) :: ps)) :: st))
      = .ok true (c.withStack (val a :: .string key :: .enumerator (entries val ps) :: st)) :=
  dukNext_cons (Ctx.slot_neg_one _ _ _) rfl (by simpa using h)

/-- A loop whose entries all fit ends with the invariant of no entries left. -/
theorem whileNextN_ok (hok : RoundOk c st val body I fits) :
    ∀ (ps : List (Bytes × ι)) (n : ℕ) (s : σ), ps.length < n → I ps s →
      (ps ≠ [] → st.length + 3 ≤ c.reserve) → (∀ p ∈ ps, fits p.2) →
      ∃ s', whileNextN (-1) body n s (c.withStack (.enumerator (entries val ps) :: st))
        = .ok s' (c.withStack (.enumerator [] :: st)) ∧ I [] s'
  | _, 0, _, hn, _, _, _ => absurd hn (Nat.not_lt_zero _)
  | [], n + 1, s, _, hI, _, _ =>
    ⟨s, whileNextN_done (dukNext_nil (Ctx.slot_neg_one _ _ _) rfl), hI⟩
  | (key, a) :: ps, n + 1, s, hn, hI, hroom, hfits => by
    obtain ⟨s', hb, hI'⟩ := hok key a ps s hI (hfits _ List.mem_cons_self)
    have hnext := dukNext_entries (hroom (List.cons_ne_nil _ _)) val key a ps
    obtain ⟨s'', hl, hI''⟩ := whileNextN_ok hok ps n s' (Nat.lt_of_succ_lt_succ hn) hI'
      (fun _ => hroom (List.cons_ne_nil _ _)) fun p hp => hfits p (List.mem_cons_of_mem _ hp)
    exact ⟨s'', by rw [whileNextN_round hnext hb, hl], hI''⟩

/-- A loop throws at the first entry that does not fit. -/
theorem whileNextN_throws (hok : RoundOk c st val body I fits)
    (hbad : st.length + 3 ≤ c.reserve → ∀ key a post s, I ((key, a) :: post) s → ¬ fits a →
      Throws (body s)
        (c.withStack (val a :: .string key :: .enumerator (entries val post) :: st))) :
    ∀ (ps : List (Bytes × ι)) (n : ℕ) (s : σ), ps.length < n → I ps s →
      ((∃ p ∈ ps, ¬ fits p.2) ∨ ps ≠ [] ∧ c.reserve < st.length + 3) →
      Throws (whileNextN (-1) body n s) (c.withStack (.enumerator (entries val ps) :: st))
  | _, 0, _, hn, _, _ => absurd hn (Nat.not_lt_zero _)
  | [], n + 1, s, _, _, h => by simp at h
  | (key, a) :: ps, n + 1, s, hn, hI, h => by
    by_cases hroom : st.length + 3 ≤ c.reserve
    · have hnext := dukNext_entries hroom val key a ps
      by_cases hfit : fits a
      · obtain ⟨s', hb, hI'⟩ := hok key a ps s hI hfit
        have hrest : ∃ p ∈ ps, ¬ fits p.2 := by
          rcases h with ⟨p, hp, hnot⟩ | ⟨-, hfull⟩
          · rcases List.mem_cons.1 hp with rfl | hp
            · exact absurd hfit hnot
            · exact ⟨p, hp, hnot⟩
          · omega
        obtain ⟨e, st', hk, he⟩ := whileNextN_throws hok hbad ps n s' (Nat.lt_of_succ_lt_succ hn)
          hI' (Or.inl hrest)
        refine ⟨e, st', hk, ?_⟩
        rw [whileNextN_round hnext hb, he]
        rfl
      · exact whileNextN_body_fails hnext rfl (hbad hroom key a ps s hI hfit)
    · exact whileNextN_next_fails (dukNext_full (Ctx.slot_neg_one _ _ _) rfl
        (by simp only [List.length_cons]; omega))

theorem whileNext_eq (body : σ → DukM ω σ) (s : σ) (ps : List (Bytes × ι)) :
    whileNext (-1) body s (c.withStack (.enumerator (entries val ps) :: st))
      = whileNextN (-1) body (ps.length + 1) s
        (c.withStack (.enumerator (entries val ps) :: st)) := by
  rw [whileNext, bind_ok (dukPending_run (Ctx.get_neg_one _ _ _))]
  simp only [entries, List.length_map]

end Loop

section Calls

/-- The context a computation ends in, with or without a fault. -/
def finalCtx (r : EStateM.Result Fault (Ctx ω) α) : Ctx ω :=
  match r with
  | .ok _ c => c
  | .error _ c => c

theorem FailsWith.finalCtx {kind : Fault → Prop} {m : DukM ω α} {c : Ctx ω}
    (h : FailsWith kind m c) : ∃ st, finalCtx (m c) = c.withStack st := by
  obtain ⟨e, st, -, h⟩ := h
  exact ⟨st, by rw [h]; rfl⟩

/-- The context after a call, whatever is on the stack. Only a function does anything. -/
def Ctx.afterCall (c : Ctx ω) (f : JsVal) (args : List JsVal) : Ctx ω :=
  if f.isFunction then
    { c with
      store := (c.engine.call f args c.store c.world).2.1
      world := (c.engine.call f args c.store c.world).2.2
      calls := c.calls ++ [(f, args)] }
  else c

/-- What calling a value comes to. -/
def Ctx.outcome (c : Ctx ω) (f : JsVal) (args : List JsVal) : Except JsVal JsVal :=
  if f.isFunction then (c.engine.call f args c.store c.world).1 else .error (.error .typeError)

theorem Ctx.outcome_of_isFunction {c : Ctx ω} {f : JsVal} {args : List JsVal}
    (h : f.isFunction = true) :
    c.outcome f args = (c.engine.call f args c.store c.world).1 := by
  rw [outcome, if_pos h]

@[simp] theorem Ctx.afterCall_reserve (c : Ctx ω) (f : JsVal) (args : List JsVal) :
    (c.afterCall f args).reserve = c.reserve := by
  unfold afterCall
  split_ifs <;> rfl

theorem Ctx.isFunction_of_outcome {c : Ctx ω} {f v : JsVal} {args : List JsVal}
    (h : c.outcome f args = .ok v) : f.isFunction = true := by
  unfold outcome at h
  split_ifs at h with hfun
  exact hfun

/-- A call that returns is one more in the list of calls. -/
theorem Ctx.afterCall_calls {c : Ctx ω} {f v : JsVal} {args : List JsVal}
    (h : c.outcome f args = .ok v) : (c.afterCall f args).calls = c.calls ++ [(f, args)] := by
  rw [afterCall, if_pos (isFunction_of_outcome h)]

theorem dukInvoke_run (c : Ctx ω) (f : JsVal) (args st : List JsVal) :
    dukInvoke args.length (c.withStack (args.reverse ++ f :: st))
      = .ok (c.outcome f args) ((c.afterCall f args).withStack st) := by
  have hdrop : (args.reverse ++ f :: st).drop args.length = f :: st :=
    List.drop_left' List.length_reverse
  have htake : (args.reverse ++ f :: st).take args.length = args.reverse :=
    List.take_left' List.length_reverse
  unfold dukInvoke Ctx.afterCall Ctx.outcome
  simp only [Ctx.withStack_stack, hdrop, htake, List.reverse_reverse]
  split_ifs
  · rfl
  · rfl

/-- A protected call puts something in the place of the function and its arguments. -/
theorem dukPcall_run (c : Ctx ω) (f : JsVal) (args st : List JsVal) :
    ∃ r, dukPcall args.length (c.withStack (args.reverse ++ f :: st))
      = .ok () ((c.afterCall f args).withStack (r :: st)) := by
  unfold dukPcall
  rw [bind_ok (dukInvoke_run c f args st)]
  cases c.outcome f args with
  | ok v => exact ⟨v, rfl⟩
  | error e => exact ⟨e, rfl⟩

/-- A call that returns leaves its value in the place of the function and its arguments. -/
theorem dukCall_ok {c : Ctx ω} {f v : JsVal} (args : List JsVal) (h : c.outcome f args = .ok v)
    (st : List JsVal) : dukCall args.length (c.withStack (args.reverse ++ f :: st))
      = .ok () ((c.afterCall f args).withStack (v :: st)) := by
  rw [dukCall, bind_ok (dukInvoke_run c f args st), h]
  rfl

theorem dukCall_error {c : Ctx ω} {f e : JsVal} (args : List JsVal)
    (h : c.outcome f args = .error e) (st : List JsVal) :
    dukCall args.length (c.withStack (args.reverse ++ f :: st))
      = .error (.thrown e) ((c.afterCall f args).withStack st) := by
  rw [dukCall, bind_ok (dukInvoke_run c f args st), h]
  rfl

section Native

variable {entry : ℕ} {f : DukM ω ℤ} {this : JsVal} {args : List JsVal} {c c' : Ctx ω}

theorem dukNative_undefined (h : f (c.enter entry this args) = .ok 0 c') :
    dukNative entry f this args c = .ok (.ok .undefined) (c.backTo c') := by
  unfold dukNative
  rw [h]
  rfl

theorem dukNative_top (h : f (c.enter entry this args) = .ok 1 c') :
    dukNative entry f this args c = .ok (.ok (c'.get (-1))) (c.backTo c') := by
  unfold dukNative
  rw [h]
  rfl

theorem dukNative_throws {e : JsVal} (h : f (c.enter entry this args) = .error (.thrown e) c') :
    dukNative entry f this args c = .ok (.error e) (c.backTo c') := by
  unfold dukNative
  rw [h]

end Native

end Calls

end Erlm
