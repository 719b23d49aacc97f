import Erlm.DukElm
import Erlm.Proofs.Context

/-!
# Listing the ports of a worker

Both listings put `ports`, an enumerator and each entry on the stack and take them off again, but
not on every way out: with a `ports` that is no object it stays, and where a list is full
`duk_elm_get_output_ports` leaves the entry it has just taken for the enumerator and `ports`
(`portsLeft_iff`).
-/

namespace Erlm

variable {ω α : Type} {c : Ctx ω} {st : List JsVal} {inherits : JsVal → Bytes → Bool}

section IsPort

def JsVal.isInputPort (store : Store) (inherits : JsVal → Bytes → Bool) (v : JsVal) : Bool :=
  v.isObject && v.has store inherits sendKey

def JsVal.isOutputPort (store : Store) (inherits : JsVal → Bytes → Bool) (v : JsVal) : Bool :=
  v.isObject && v.has store inherits subscribeKey && v.has store inherits unsubscribeKey

theorem dukHasPropString_run {v : JsVal} (hobj : v.isObject = true) {key : Bytes} (hkey : 0 ∉ key) :
    dukHasPropString inherits (-1) key (c.withStack (v :: st))
      = .ok (v.has c.store inherits key) (c.withStack (v :: st)) := by
  rw [dukHasPropString, bind_ok (dukRequireSlot_ok (Ctx.slot_neg_one _ _ _)), bind_ok (get_run _),
    Ctx.get_neg_one, if_pos hobj, cString_of_notMem hkey]
  rfl

theorem dukElmIsInputPort_run (v : JsVal) :
    dukElmIsInputPort inherits (c.withStack (v :: st))
      = .ok (v.isInputPort c.store inherits) (c.withStack (v :: st)) := by
  rw [dukElmIsInputPort, bind_ok (dukGet_run _ _), Ctx.get_neg_one, JsVal.isInputPort]
  cases hobj : v.isObject
  · rfl
  · rw [if_pos rfl, dukHasPropString_run hobj (by decide), Bool.true_and]

theorem dukElmIsOutputPort_run (v : JsVal) :
    dukElmIsOutputPort inherits (c.withStack (v :: st))
      = .ok (v.isOutputPort c.store inherits) (c.withStack (v :: st)) := by
  rw [dukElmIsOutputPort, bind_ok (dukGet_run _ _), Ctx.get_neg_one, JsVal.isOutputPort]
  cases hobj : v.isObject
  · rfl
  · rw [if_pos rfl, bind_ok (dukHasPropString_run hobj (by decide)), Bool.true_and]
    cases v.has c.store inherits subscribeKey
    · rfl
    · rw [if_pos rfl, dukHasPropString_run hobj (by decide), Bool.true_and]

end IsPort

section Rounds

/-- What a round of a listing does: with `port_count` names it breaks and leaves `left` of the
entry, and before that it takes the entry off and keeps the name of a port. -/
structure Lists (c : Ctx ω) (isPort : JsVal → Bool) (port_count : ℤ)
    (left : JsVal → Bytes → List JsVal)
    (round : List (Option Bytes) → DukM ω (List (Option Bytes) ⊕ List (Option Bytes))) : Prop where
  full : ∀ names w key st, port_count ≤ names.length →
    round names (c.withStack (w :: .string key :: st))
      = .ok (.inr names) (c.withStack (left w key ++ st))
  next : ∀ names w key st, names.length < port_count →
    round names (c.withStack (w :: .string key :: st))
      = .ok (.inl (if isPort w then names ++ [some (cString key)] else names)) (c.withStack st)

theorem dukToString_key (w : JsVal) (key : Bytes) (st : List JsVal) :
    dukToString (-2) (c.withStack (w :: .string key :: st))
      = .ok (some (cString key)) (c.withStack (w :: .string key :: st)) := by
  rw [dukToString, dukGetString, bind_ok (dukGet_run _ _), Ctx.get_neg_two]
  rfl

theorem inputPortsRound_lists (c : Ctx ω) (port_count : ℤ) :
    Lists c (JsVal.isInputPort c.store inherits) port_count (fun _ _ => [])
      (inputPortsRound inherits port_count) where
  full names w key st hfull := by
    rw [inputPortsRound, if_pos hfull, bind_ok (dukPop2_ok _ _)]
    rfl
  next names w key st hmore := by
    rw [inputPortsRound, if_neg (not_le.2 hmore), bind_ok (dukElmIsInputPort_run w)]
    cases w.isInputPort c.store inherits
    · rw [if_neg Bool.false_ne_true, bind_ok (dukPop2_ok _ _)]
      rfl
    · rw [if_pos rfl, bind_ok (dukToString_key w key st), bind_ok (dukPop2_ok _ _)]
      rfl

theorem outputPortsRound_lists (c : Ctx ω) (port_count : ℤ) :
    Lists c (JsVal.isOutputPort c.store inherits) port_count (fun w key => [w, .string key])
      (outputPortsRound inherits port_count) where
  full names w key st hfull := by
    rw [outputPortsRound, if_pos hfull]
    rfl
  next names w key st hmore := by
    rw [outputPortsRound, if_neg (not_le.2 hmore), bind_ok (dukElmIsOutputPort_run w)]
    cases w.isOutputPort c.store inherits
    · rw [if_neg Bool.false_ne_true, bind_ok (dukPop2_ok _ _)]
      rfl
    · rw [if_pos rfl, bind_ok (dukToString_key w key st), bind_ok (dukPop2_ok _ _)]
      rfl

end Rounds

section Loop

variable {isPort : JsVal → Bool} {port_count : ℤ} {left : JsVal → Bytes → List JsVal}
  {round : List (Option Bytes) → DukM ω (List (Option Bytes) ⊕ List (Option Bytes))}

/-- With `n` names to begin with, the list is not full before the last entry is taken. -/
def Fits (isPort : JsVal → Bool) (port_count : ℤ) (ps : Props) (n : ℕ) : Prop :=
  ps = [] ∨ (n + ps.dropLast.countP fun p => isPort p.2 : ℤ) < port_count

theorem fits_cons (p : Bytes × JsVal) (ps : Props) (n : ℕ) :
    Fits isPort port_count (p :: ps) n
      ↔ n < port_count ∧ Fits isPort port_count ps (n + if isPort p.2 then 1 else 0) := by
  unfold Fits
  rcases ps with _ | ⟨q, ps⟩
  · simp
  · rw [List.dropLast_cons_cons, List.countP_cons]
    simp only [reduceCtorEq, false_or]
    constructor
    · intro h
      split_ifs at h ⊢ <;> constructor <;> push_cast at h ⊢ <;> omega
    · intro h
      obtain ⟨-, h⟩ := h
      split_ifs at h ⊢ <;> push_cast at h ⊢ <;> omega

/-- The names of the ports among some entries. -/
def portNames (isPort : JsVal → Bool) (ps : Props) : List (Option Bytes) :=
  (ps.filter fun p => isPort p.2).map fun p => some (cString p.1)

theorem portNames_cons (p : Bytes × JsVal) (ps : Props) :
    portNames isPort (p :: ps)
      = (if isPort p.2 then [some (cString p.1)] else []) ++ portNames isPort ps := by
  unfold portNames
  rw [List.filter_cons]
  split_ifs <;> rfl

theorem whileNextBreakN_fits (st : List JsVal) (hround : Lists c isPort port_count left round)
    (hroom : st.length + 3 ≤ c.reserve) :
    ∀ (ps : Props) (n : ℕ) (names : List (Option Bytes)), ps.length < n →
      Fits isPort port_count ps names.length →
      whileNextBreakN (-1) round n names (c.withStack (.enumerator ps :: st))
        = .ok (names ++ portNames isPort ps) (c.withStack (.enumerator [] :: st))
  | _, 0, _, hn, _ => absurd hn (Nat.not_lt_zero _)
  | [], n + 1, names, _, _ => by
    rw [whileNextBreakN, bind_ok (dukNext_nil (Ctx.slot_neg_one _ _ _) rfl)]
    simp only [portNames, List.filter_nil, List.map_nil, List.append_nil]
    rfl
  | (key, w) :: ps, n + 1, names, hn, hfits => by
    obtain ⟨hmore, hfits⟩ := (fits_cons _ _ _).1 hfits
    have ih := whileNextBreakN_fits st hround hroom ps n
      (if isPort w then names ++ [some (cString key)] else names) (Nat.lt_of_succ_lt_succ hn) (by
        split_ifs at hfits ⊢
        · simpa using hfits
        · exact hfits)
    rw [whileNextBreakN, bind_ok (dukNext_cons (Ctx.slot_neg_one _ _ _) rfl (by simpa using hroom)),
      if_pos rfl]
    simp only [List.set_cons_zero]
    rw [bind_ok (hround.next names w key _ hmore)]
    simp only [ih, portNames_cons]
    split_ifs <;> simp

theorem whileNextBreakN_full (st : List JsVal) (hround : Lists c isPort port_count left round)
    (hroom : st.length + 3 ≤ c.reserve) :
    ∀ (ps : Props) (n : ℕ) (names : List (Option Bytes)), ps.length < n →
      ¬ Fits isPort port_count ps names.length →
      ∃ names' w key ps', whileNextBreakN (-1) round n names (c.withStack (.enumerator ps :: st))
        = .ok names' (c.withStack (left w key ++ .enumerator ps' :: st))
  | _, 0, _, hn, _ => absurd hn (Nat.not_lt_zero _)
  | [], n + 1, names, _, hfull => absurd (Or.inl rfl) hfull
  | (key, w) :: ps, n + 1, names, hn, hfull => by
    have hnext : dukNext (-1) (c.withStack (.enumerator ((key, w) :: ps) :: st))
        = .ok true (c.withStack (w :: .string key :: .enumerator ps :: st)) :=
      dukNext_cons (Ctx.slot_neg_one _ _ _) rfl (by simpa using hroom)
    rw [fits_cons] at hfull
    rw [whileNextBreakN, bind_ok hnext, if_pos rfl]
    by_cases hmore : (names.length : ℤ) < port_count
    · obtain ⟨names', w', key', ps', h⟩ := whileNextBreakN_full st hround hroom ps n
        (if isPort w then names ++ [some (cString key)] else names) (Nat.lt_of_succ_lt_succ hn) (by
          have hfull := not_and.1 hfull hmore
          split_ifs at hfull ⊢
          · simpa using hfull
          · exact hfull)
      refine ⟨names', w', key', ps', ?_⟩
      rw [bind_ok (hround.next names w key _ hmore)]
      exact h
    · refine ⟨names, w, key, ps, ?_⟩
      rw [bind_ok (hround.full names w key _ (not_lt.1 hmore))]
      rfl

end Loop

section Listing

variable {isPort : JsVal → Bool} {port_count : ℤ} {left : JsVal → Bytes → List JsVal}
  {round : List (Option Bytes) → DukM ω (List (Option Bytes) ⊕ List (Option Bytes))} {v : JsVal}

/-- The `ports` of a value. -/
def Ctx.portsOf (c : Ctx ω) (v : JsVal) : JsVal := v.lookup c.store c.engine.inherited portsKey

theorem dukElmGetPorts_noObject (hobj : v.isObject = false) :
    dukElmGetPorts round (c.withStack (v :: st)) = .ok (-1, []) (c.withStack (v :: st)) := by
  rw [dukElmGetPorts, bind_ok (dukGet_run _ _), Ctx.get_neg_one, hobj]
  rfl

/-- Up to the second check. -/
theorem dukElmGetPorts_ports (hobj : v.isObject = true) (hroom : st.length + 2 ≤ c.reserve) :
    dukElmGetPorts round (c.withStack (v :: st))
      = (if (c.portsOf v).isObject then do
          dukEnum (-1) .ownPropertiesOnly
          let names ← whileNextBreak (-1) round []
          dukPopN 2
          return (names.length, names)
        else return (-1, []) : DukM ω (ℤ × List (Option Bytes)))
          (c.withStack (c.portsOf v :: v :: st)) := by
  have hget : dukGetPropString (-1) (some portsKey) (c.withStack (v :: st))
      = .ok () (c.withStack (c.portsOf v :: v :: st)) :=
    dukGetPropString_isObject hobj (by decide) hroom
  rw [dukElmGetPorts, bind_ok (dukGet_run _ _), Ctx.get_neg_one, if_pos hobj, bind_ok hget,
    bind_ok (dukGet_run _ _), Ctx.get_neg_one]

theorem dukElmGetPorts_noPorts (hobj : v.isObject = true) (hports : (c.portsOf v).isObject = false)
    (hroom : st.length + 2 ≤ c.reserve) :
    dukElmGetPorts round (c.withStack (v :: st))
      = .ok (-1, []) (c.withStack (c.portsOf v :: v :: st)) := by
  rw [dukElmGetPorts_ports hobj hroom, hports]
  rfl

/-- Up to the loop. -/
theorem dukElmGetPorts_loop (hobj : v.isObject = true) (hports : (c.portsOf v).isObject = true)
    (hroom : (c.portsOf v :: v :: st).length < c.reserve) :
    dukElmGetPorts round (c.withStack (v :: st))
      = (do
          let names ← whileNextBreakN (-1) round (((c.portsOf v).ownProps c.store).length + 1) []
          dukPopN 2
          return (names.length, names) : DukM ω (ℤ × List (Option Bytes)))
        (c.withStack (.enumerator ((c.portsOf v).ownProps c.store) :: c.portsOf v :: v :: st)) := by
  rw [dukElmGetPorts_ports hobj hroom.le, if_pos hports, bind_ok (dukEnum_ownProps hports hroom),
    whileNextBreak, bind_assoc, bind_ok (dukPending_run (Ctx.get_neg_one _ _ _))]

theorem dukElmGetPorts_fits (st : List JsVal) (hround : Lists c isPort port_count left round)
    (hobj : v.isObject = true) (hports : (c.portsOf v).isObject = true)
    (hfits : Fits isPort port_count ((c.portsOf v).ownProps c.store) 0)
    (hroom : st.length + 5 ≤ c.reserve) :
    dukElmGetPorts round (c.withStack (v :: st))
      = .ok ((portNames isPort ((c.portsOf v).ownProps c.store)).length,
          portNames isPort ((c.portsOf v).ownProps c.store)) (c.withStack (v :: st)) := by
  have hloop := whileNextBreakN_fits (c.portsOf v :: v :: st) hround (by simpa using hroom)
    _ _ [] (Nat.lt_succ_self _) hfits
  rw [dukElmGetPorts_loop hobj hports (by simp; omega), bind_ok hloop, List.nil_append,
    bind_ok (dukPop2_ok _ _)]
  rfl

theorem dukElmGetPorts_full (hround : Lists c isPort port_count left round)
    (hobj : v.isObject = true) (hports : (c.portsOf v).isObject = true)
    (hfull : ¬ Fits isPort port_count ((c.portsOf v).ownProps c.store) 0)
    (hroom : st.length + 5 ≤ c.reserve) :
    ∃ names w key ps, dukElmGetPorts round (c.withStack (v :: st))
      = .ok (names.length, names)
        (c.withStack ((left w key ++ .enumerator ps :: c.portsOf v :: v :: st).drop 2)) := by
  obtain ⟨names, w, key, ps, hloop⟩ := whileNextBreakN_full (c.portsOf v :: v :: st) hround
    (by simpa using hroom) _ _ [] (Nat.lt_succ_self _) hfull
  refine ⟨names, w, key, ps, ?_⟩
  have htwo : 2 ≤ (left w key ++ .enumerator ps :: c.portsOf v :: v :: st).length := by
    simp only [List.length_append, List.length_cons]
    omega
  rw [dukElmGetPorts_loop hobj hports (by simp; omega), bind_ok hloop, bind_ok (dukPopN_ok htwo)]
  rfl

end Listing

section Left

variable {port_count : ℤ} {v : JsVal}

/-- It comes to an end with the stack as it was. -/
def LeavesAlone (c : Ctx ω) (m : DukM ω α) (st : List JsVal) : Prop :=
  ∃ a, m (c.withStack st) = .ok a (c.withStack st)

theorem leavesAlone_of_ok {m : DukM ω α} {a : α} {st' : List JsVal}
    (h : m (c.withStack st) = .ok a (c.withStack st')) : LeavesAlone c m st ↔ st' = st := by
  unfold LeavesAlone
  rw [h]
  constructor
  · intro h'
    obtain ⟨a', h'⟩ := h'
    exact congrArg Ctx.stack (EStateM.Result.ok.inj h').2
  · intro h'
    exact ⟨a, by rw [h']⟩

/-- Where `n` values are left of the entry a listing breaks at, the stack is as it was exactly if
there is nothing to list, or there are no such values, or the list does not fill up. -/
theorem dukElmGetPorts_leaves_iff {isPort : JsVal → Bool} {left : JsVal → Bytes → List JsVal}
    {round : List (Option Bytes) → DukM ω (List (Option Bytes) ⊕ List (Option Bytes))} {n : ℕ}
    (hround : Lists c isPort port_count left round) (hleft : ∀ w key, (left w key).length = n)
    (hroom : st.length + 5 ≤ c.reserve) :
    LeavesAlone c (dukElmGetPorts round) (v :: st)
      ↔ v.isObject = false ∨ (c.portsOf v).isObject = true
        ∧ (n = 0 ∨ Fits isPort port_count ((c.portsOf v).ownProps c.store) 0) := by
  rcases hobj : v.isObject with _ | _
  · exact iff_of_true ⟨_, dukElmGetPorts_noObject hobj⟩ (Or.inl rfl)
  rcases hports : (c.portsOf v).isObject with _ | _
  · rw [leavesAlone_of_ok (dukElmGetPorts_noPorts hobj hports (by omega))]
    simp
  by_cases hfits : Fits isPort port_count ((c.portsOf v).ownProps c.store) 0
  · exact iff_of_true ⟨_, dukElmGetPorts_fits st hround hobj hports hfits hroom⟩
      (Or.inr ⟨rfl, Or.inr hfits⟩)
  · obtain ⟨names, w, key, ps, h⟩ := dukElmGetPorts_full hround hobj hports hfits hroom
    rw [leavesAlone_of_ok h]
    simp only [reduceCtorEq, hfits, or_false, false_or, true_and]
    constructor
    · intro heq
      have := congrArg List.length heq
      simp only [List.length_drop, List.length_append, List.length_cons, hleft] at this
      omega
    · intro hn
      rw [List.eq_nil_of_length_eq_zero ((hleft w key).trans hn)]
      rfl

theorem dukElmGetInputPorts_leaves_iff (hroom : st.length + 5 ≤ c.reserve) :
    LeavesAlone c (dukElmGetInputPorts inherits port_count) (v :: st)
      ↔ v.isObject = false ∨ (c.portsOf v).isObject = true := by
  have h := @dukElmGetPorts_leaves_iff _ c st port_count v _ _ _ 0
    (@inputPortsRound_lists _ inherits c port_count) (fun _ _ => rfl) hroom
  simpa [dukElmGetInputPorts] using h

theorem dukElmGetOutputPorts_leaves_iff (hroom : st.length + 5 ≤ c.reserve) :
    LeavesAlone c (dukElmGetOutputPorts inherits port_count) (v :: st)
      ↔ v.isObject = false ∨ (c.portsOf v).isObject = true
        ∧ Fits (JsVal.isOutputPort c.store inherits) port_count
          ((c.portsOf v).ownProps c.store) 0 := by
  have h := @dukElmGetPorts_leaves_iff _ c st port_count v _ _ _ 2
    (@outputPortsRound_lists _ inherits c port_count) (fun _ _ => rfl) hroom
  simpa [dukElmGetOutputPorts] using h

/-- Both listings leave the stack below a value on its top as it was, and the value on it. -/
def PortsLeft (inherits : JsVal → Bytes → Bool) (c : Ctx ω) (port_count : ℤ) (v : JsVal)
    (st : List JsVal) : Prop :=
  LeavesAlone c (dukElmGetInputPorts inherits port_count) (v :: st)
    ∧ LeavesAlone c (dukElmGetOutputPorts inherits port_count) (v :: st)

theorem portsLeft_iff (hroom : st.length + 5 ≤ c.reserve) :
    PortsLeft inherits c port_count v st ↔ v.isObject = false ∨ (c.portsOf v).isObject = true
      ∧ Fits (JsVal.isOutputPort c.store inherits) port_count
        ((c.portsOf v).ownProps c.store) 0 := by
  rw [PortsLeft, dukElmGetInputPorts_leaves_iff hroom, dukElmGetOutputPorts_leaves_iff hroom]
  constructor
  · exact fun h => h.2
  · exact fun h => ⟨h.imp_right fun h => h.1, h⟩

/-- Two ports, `a` for output and `b` for input. -/
def twoPortProps : Props :=
  [([97], .object [(subscribeKey, .function 2 []), (unsubscribeKey, .function 3 [])]),
    ([98], .object [(sendKey, .function 4 [])])]

def twoPorts : JsVal := .object [(portsKey, .object twoPortProps)]

theorem portsLeft_two : PortsLeft (fun _ _ => false) (Ctx.bare 64 ()) 2 twoPorts []
    ↔ twoPorts.isObject = false ∨ ((Ctx.bare 64 ()).portsOf twoPorts).isObject = true
      ∧ Fits (JsVal.isOutputPort (Ctx.bare 64 ()).store fun _ _ => false) 2
        (((Ctx.bare 64 ()).portsOf twoPorts).ownProps (Ctx.bare 64 ()).store) 0 :=
  portsLeft_iff (by decide)

/-- With room for one name the second port is taken off no more. -/
theorem not_portsLeft_one : ¬ ∀ (inherits : JsVal → Bytes → Bool) (c : Ctx Unit) (port_count : ℤ)
    (v : JsVal) (st : List JsVal), 0 ≤ port_count → st.length + 5 ≤ c.reserve →
    PortsLeft inherits c port_count v st := by
  intro hall
  have hports : (Ctx.bare 64 ()).portsOf twoPorts = .object twoPortProps := by
    simp [Ctx.portsOf, twoPorts, JsVal.lookup, JsVal.own, Assoc.get?]
  have h := (hall (fun _ _ => false) (Ctx.bare 64 ()) 1 twoPorts [] (by decide) (by decide)).2
  rw [dukElmGetOutputPorts_leaves_iff (by decide), hports] at h
  rcases h with h | ⟨-, h | h⟩
  · cases h
  · cases h
  · exact absurd h (by decide)

end Left

end Erlm
