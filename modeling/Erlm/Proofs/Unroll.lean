import Erlm.DukUtil
import Erlm.Proofs.Context

/-!
# Unrolling an array

`duk_util_unroll_array` replaces an array by the values of its index properties, the first deepest,
if the stack has room for them and for the key that is on it with each (`dukUtilUnrollArray_moves`).
Where no prototype has index properties these are the array's elements (`unrollsExactly`).
-/

namespace Erlm

variable {ω : Type} {c : Ctx ω}

section Loop

theorem dukRemove_bottom (xs : List JsVal) (v : JsVal) (st : List JsVal) :
    dukRemove (st.length : ℤ) (c.withStack (xs ++ v :: st)) = .ok () (c.withStack (xs ++ st)) := by
  rw [dukRemove_ok (Ctx.slot_bottom c xs v st)]
  simp [List.eraseIdx_append_of_length_le]

theorem unrollRound_ok (count : ℕ) (v key : JsVal) (st : List JsVal) :
    unrollRound count (c.withStack (v :: key :: st)) = .ok (count + 1) (c.withStack (v :: st)) := by
  rw [unrollRound, bind_ok (dukRemove_ok (Ctx.slot_neg_two _ _ _ _))]
  rfl

/-- The loop, the values it has left being above the enumerator. -/
theorem unrollLoop_moves (st : List JsVal) :
    ∀ (ps : Props) (n count : ℕ) (xs : List JsVal), ps.length < n →
      Moves c (whileNextN (st.length : ℤ) unrollRound n count) (xs ++ .enumerator ps :: st)
        (some (count + ps.length, (ps.map Prod.snd).reverse ++ xs ++ .enumerator [] :: st))
        (if ps = [] then 0 else st.length + xs.length + ps.length + 2)
  | _, 0, _, _, hn => absurd hn (Nat.not_lt_zero _)
  | [], n + 1, count, xs, _ => by
    refine Moves.of_ok (Nat.zero_le _)
      (whileNextN_done (dukNext_nil (Ctx.slot_bottom c xs _ st) ?_))
    simp
  | (key, v) :: ps, n + 1, count, xs, hn => by
    have hslot := Ctx.slot_bottom c xs (.enumerator ((key, v) :: ps)) st
    have hget : (xs ++ .enumerator ((key, v) :: ps) :: st)[xs.length]?
        = some (.enumerator ((key, v) :: ps)) := by simp
    have hset : (xs ++ JsVal.enumerator ((key, v) :: ps) :: st).set xs.length (.enumerator ps)
        = xs ++ .enumerator ps :: st := by simp
    have hlen : (xs ++ .enumerator ((key, v) :: ps) :: st).length = st.length + xs.length + 1 := by
      simp only [List.length_append, List.length_cons]
      omega
    rw [if_neg (List.cons_ne_nil _ _)]
    by_cases hroom : st.length + xs.length + 3 ≤ c.reserve
    · have hnext := dukNext_cons hslot hget (by omega)
      rw [hset] at hnext
      have ih := unrollLoop_moves st ps n (count + 1) (v :: xs) (Nat.lt_of_succ_lt_succ hn)
      refine (Moves.of_eq (whileNextN_round hnext (unrollRound_ok count v _ _))
        (ih.of_top fun _ => ?_)).congr
        ?_ rfl
      · split_ifs with hps
        · simp only [hps, List.length_cons, List.length_nil]
          omega
        · simp only [List.length_cons]
          omega
      · simp only [List.length_cons, List.map_cons, List.reverse_cons, List.append_assoc,
          List.cons_append, List.nil_append, Option.some.injEq, Prod.mk.injEq, and_true]
        omega
    · refine ⟨fun a st' _ htop => absurd htop ?_, fun _ => ?_⟩
      · simp only [List.length_cons]
        omega
      · exact whileNextN_next_fails (dukNext_full hslot hget (by omega)).fails

end Loop

section Unroll

/-- The values of the index properties of a value. -/
def JsVal.elements (store : Store) (v : JsVal) : List JsVal := (v.indexed store).map Prod.snd

/-- How far unrolling goes up from a stack of `n` entries below an array with these values. -/
def unrollTop (n : ℕ) (vs : List JsVal) : ℕ := if vs = [] then n + 2 else n + vs.length + 3

/-- The two removals after the loop. -/
theorem unrollTail_ok (ys : List JsVal) (v w : JsVal) (st : List JsVal) (count : ℕ) :
    (do
      dukRemove ((v :: st).length : ℤ)
      dukRemove ((v :: st).length - 1 : ℤ)
      return count : DukM ω ℕ) (c.withStack (ys ++ w :: v :: st))
      = .ok count (c.withStack (ys ++ st)) := by
  have hidx : ((v :: st).length - 1 : ℤ) = st.length := by
    rw [List.length_cons]
    omega
  rw [hidx, bind_ok (dukRemove_bottom ys w (v :: st)), bind_ok (dukRemove_bottom ys v st)]
  rfl

theorem dukUtilUnrollArray_moves {v : JsVal} (hv : v.isArray = true) (st : List JsVal) :
    Moves c dukUtilUnrollArray (v :: st)
      (some ((v.elements c.store).length, (v.elements c.store).reverse ++ st))
      (unrollTop st.length (v.elements c.store)) := by
  have hobj : v.isObject = true := by
    cases v with
    | array => rfl
    | _ => simp [JsVal.isArray] at hv
  by_cases hroom : st.length + 2 ≤ c.reserve
  · obtain ⟨ps, hps⟩ : ∃ ps, ps = EnumFlags.props .arrayIndicesOnly c.store v := ⟨_, rfl⟩
    have helems : v.elements c.store = ps.map Prod.snd := by
      rw [hps, JsVal.elements, EnumFlags.props, List.map_map]
      rfl
    have henum : dukEnum (-1) .arrayIndicesOnly (c.withStack (v :: st))
        = .ok () (c.withStack (.enumerator ps :: v :: st)) := by
      rw [dukEnum_ok (Ctx.get_neg_one _ _ _) hobj hroom, hps]
    have hindex : dukNormalizeIndex (-1) (c.withStack (.enumerator ps :: v :: st))
        = .ok ((v :: st).length : ℤ) (c.withStack (.enumerator ps :: v :: st)) := by
      simp [dukNormalizeIndex]
    have hpending : dukPending ((v :: st).length : ℤ) (c.withStack (.enumerator ps :: v :: st))
        = .ok ps.length (c.withStack (.enumerator ps :: v :: st)) :=
      dukPending_run (Ctx.get_of_slot (Ctx.slot_bottom c [] (.enumerator ps) (v :: st)) rfl)
    have hrun : dukUtilUnrollArray (c.withStack (v :: st))
        = (whileNextN ((v :: st).length : ℤ) unrollRound (ps.length + 1) 0 >>= fun count => do
            dukRemove ((v :: st).length : ℤ)
            dukRemove ((v :: st).length - 1 : ℤ)
            return count) (c.withStack (.enumerator ps :: v :: st)) := by
      rw [dukUtilUnrollArray, bind_ok (dukGet_run _ _), Ctx.get_neg_one, if_pos hv, bind_ok henum,
        bind_ok hindex, whileNext, bind_assoc, bind_ok hpending]
    have hloop := @unrollLoop_moves _ c (v :: st) ps (ps.length + 1) 0 [] (Nat.lt_succ_self _)
    rw [Nat.zero_add, List.append_nil, List.nil_append] at hloop
    refine (Moves.of_eq hrun ((Moves.bind (r := some ())
      (k := fun _ => (ps.length, (ps.map Prod.snd).reverse ++ .enumerator [] :: v :: st))
      (g := fun _ => some (ps.length, (ps.map Prod.snd).reverse ++ st)) hloop
      fun _ _ _ => Moves.of_ok (Nat.zero_le _) (unrollTail_ok _ _ _ _ _)).of_top
        fun _ => ?_)).congr ?_ rfl
    · rw [helems]
      unfold unrollTop
      simp only [List.map_eq_nil_iff, List.length_map, List.length_cons, List.length_nil]
      split_ifs <;> omega
    · rw [helems, List.length_map]
      rfl
  · refine ⟨fun a st' _ htop => absurd htop ?_, fun _ => ?_⟩
    · unfold unrollTop
      split_ifs <;> omega
    · rw [dukUtilUnrollArray]
      refine fails_bind_right (dukGet_run _ _) rfl ?_
      rw [Ctx.get_neg_one, if_pos hv]
      refine fails_bind_left (dukEnum_full (Ctx.get_neg_one _ _ _) hobj ?_ _).fails _
      simp only [List.length_cons]
      omega

theorem dukUtilUnrollArray_other {v : JsVal} (hv : v.isArray = false) (st : List JsVal) :
    dukUtilUnrollArray (c.withStack (v :: st)) = .ok 0 (c.withStack (v :: st)) := by
  rw [dukUtilUnrollArray, bind_ok (dukGet_run _ _), Ctx.get_neg_one, hv]
  rfl

end Unroll

section Exact

theorem map_snd_present (elems : List (Option JsVal)) :
    (JsVal.present elems).map Prod.snd = elems.reduceOption := by
  have hfrom : ∀ k, ((elems.zipIdx k).filterMap fun p => p.1.map (p.2, ·)).map Prod.snd
      = elems.reduceOption := by
    induction elems with
    | nil => exact fun _ => rfl
    | cons e elems ih =>
      intro k
      rcases e with _ | v
      · simpa using ih (k + 1)
      · simpa using ih (k + 1)
  exact hfrom 0

/-- Nothing on an array's prototypes has an index property. -/
def NoInheritedIndices (store : Store) (proto : Option JsVal) : Prop :=
  ∀ v, proto = some v → v.indexed store = []

theorem elements_of_noInherited {store : Store} {proto : Option JsVal}
    (h : NoInheritedIndices store proto) (elems : List (Option JsVal)) (named : Props) :
    (JsVal.array elems named proto).elements store = elems.reduceOption := by
  cases proto with
  | none => rw [JsVal.elements, JsVal.indexed, map_snd_present]
  | some v =>
    rw [JsVal.elements, JsVal.indexed, h v rfl, List.filter_nil, List.append_nil, map_snd_present]

/-- What unrolling the value on the top of a stack comes to: the elements an array has, the last on
the top, and their number. -/
def UnrollsExactly (c : Ctx ω) (v : JsVal) (st : List JsVal) : Prop :=
  match v with
  | .array elems _ _ => dukUtilUnrollArray (c.withStack (v :: st))
      = .ok elems.reduceOption.length (c.withStack (elems.reduceOption.reverse ++ st))
  | _ => dukUtilUnrollArray (c.withStack (v :: st)) = .ok 0 (c.withStack (v :: st))

/-- Unrolling needs room for the elements, and for the enumerator, the array and one key. -/
theorem unrollsExactly (st : List JsVal) :
    (∀ elems named proto, NoInheritedIndices c.store proto →
        unrollTop st.length elems.reduceOption ≤ c.reserve →
        UnrollsExactly c (.array elems named proto) st)
      ∧ ∀ v : JsVal, v.isArray = false → UnrollsExactly c v st := by
  refine ⟨fun elems named proto hproto hroom => ?_, fun v hv => ?_⟩
  · have hmoves := dukUtilUnrollArray_moves (c := c) (v := .array elems named proto) rfl st
    rw [elements_of_noInherited hproto] at hmoves
    exact hmoves.1 _ _ rfl hroom
  · cases v with
    | array => cases hv
    | _ => exact dukUtilUnrollArray_other hv st

/-- `[null, , true]` above an undefined. -/
theorem unrollsExactly_hole :
    UnrollsExactly (Ctx.bare 8 ()) (.array [some .null, none, some (.boolean true)] [] none)
      [.undefined] :=
  (unrollsExactly [.undefined]).1 _ _ _ (fun v h => by cases h) (by decide)

end Exact

end Erlm
