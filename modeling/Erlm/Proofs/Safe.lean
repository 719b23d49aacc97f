import Erlm.Lib.Program
import Erlm.Main
import Erlm.Proofs.Push
import Erlm.Proofs.Subscriptions

/-!
# Safe computations

A computation is safe for an invariant if, started in any context that has it, it ends in one that
has it and does nothing undefined, whether it returns or not (`Safe`). For an invariant that is not
about the stack and that the scripts keep (`Inert`), what the program does with the stack and its
calls is safe.
-/

namespace Erlm

variable {ω α β σ : Type} {I : Ctx ω → Prop}

def Safe (I : Ctx ω → Prop) (m : DukM ω α) : Prop :=
  ∀ c, I c → Ends (fun _ => I) (fun e c' => e ≠ .undefinedBehaviour ∧ I c') (m c)

/-- An invariant that is not about the stack and that the scripts keep. -/
structure Inert (I : Ctx ω → Prop) : Prop where
  stack : ∀ c st, I c → I (c.withStack st)
  call : ∀ c f args, I c → I (c.afterCall f args)

theorem inert_true : Inert fun _ : Ctx ω => True := ⟨fun _ _ _ => trivial, fun _ _ _ _ => trivial⟩

section Rules

theorem safe_pure (a : α) : Safe I (pure a : DukM ω α) := fun _ h => h

theorem Safe.bind {m : DukM ω α} {f : α → DukM ω β} (hm : Safe I m) (hf : ∀ a, Safe I (f a)) :
    Safe I (m >>= f) :=
  fun c h => (hm c h).bind fun a c' h' => hf a c' h'

theorem safe_throw {e : Fault} (he : e ≠ .undefinedBehaviour) : Safe I (throw e : DukM ω α) :=
  fun _ h => ⟨he, h⟩

theorem safe_dukThrow (kind : ErrorKind) : Safe I (dukThrow kind : DukM ω α) :=
  safe_throw (by simp)

theorem safe_get : Safe I (get : DukM ω (Ctx ω)) := fun _ h => h

theorem Inert.modify (hI : Inert I) (st : Ctx ω → List JsVal) :
    Safe I (modify fun c => c.withStack (st c) : DukM ω Unit) := fun c h => hI.stack c (st c) h

/-- What fails and leaves everything but the stack as it was keeps the invariant. -/
theorem Fails.ends {m : DukM ω α} {c : Ctx ω} (h : Fails m c) (hI : Inert I) (hc : I c)
    (hdefined : Safe (fun _ => True) m) (Q : α → Ctx ω → Prop) :
    Ends Q (fun e c' => e ≠ .undefinedBehaviour ∧ I c') (m c) := by
  obtain ⟨e, st, -, heq⟩ := h
  have hends := hdefined c trivial
  rw [heq] at hends ⊢
  exact ⟨hends.1, hI.stack c st hc⟩

/-- What changes the stack alone is safe if it does nothing undefined. -/
theorem Inert.of_moves (hI : Inert I) {m : DukM ω α}
    (hm : ∀ c st, ∃ r top, Moves c m st r top) (hdefined : Safe (fun _ => True) m) : Safe I m := by
  intro c hc
  obtain ⟨r, top, hok, hfails⟩ := hm c c.stack
  rw [Ctx.withStack_self] at hok hfails
  by_cases hfull : r = none ∨ c.reserve < top
  · exact (hfails hfull).ends hI hc hdefined _
  · push Not at hfull
    obtain ⟨⟨a, st⟩, hr⟩ := Option.ne_none_iff_exists'.1 hfull.1
    rw [hok a st hr hfull.2]
    exact hI.stack c st hc

end Rules

section Stack

theorem safe_dukGet (idx : ℤ) : Safe I (dukGet idx : DukM ω JsVal) := fun _ h => h

theorem safe_dukRequireSlot (idx : ℤ) : Safe I (dukRequireSlot idx : DukM ω ℕ) := by
  intro c h
  unfold dukRequireSlot
  split
  · exact h
  · exact safe_dukThrow _ c h

theorem safe_dukGetString (idx : ℤ) : Safe I (dukGetString idx : DukM ω (Option Bytes)) :=
  (safe_dukGet idx).bind fun v => by
    cases v <;> exact safe_pure _

variable (hI : Inert I)

include hI

theorem Inert.dukPush (v : JsVal) : Safe I (dukPush v) := by
  intro c h
  unfold Erlm.dukPush
  split_ifs
  · exact hI.stack c _ h
  · exact safe_dukThrow _ c h

theorem Inert.dukPopN (n : ℕ) : Safe I (dukPopN n) := by
  intro c h
  unfold Erlm.dukPopN
  split_ifs
  · exact hI.stack c _ h
  · exact safe_dukThrow _ c h

theorem Inert.dukPop : Safe I dukPop := hI.dukPopN 1

theorem Inert.dukRemove (idx : ℤ) : Safe I (dukRemove idx) :=
  (safe_dukRequireSlot idx).bind fun _ => hI.modify _

theorem Inert.dukInsert (idx : ℤ) : Safe I (dukInsert idx) :=
  (safe_dukRequireSlot idx).bind fun _ => hI.modify _

theorem Inert.dukPushString (s : Option Bytes) : Safe I (dukPushString s) := by
  cases s <;> exact hI.dukPush _

theorem Inert.dukPushArray : Safe I (dukPushArray : DukM ω ℤ) := by
  have htop : Safe I (dukGetTop : DukM ω ℕ) := fun _ h => h
  exact htop.bind fun _ => (hI.dukPush _).bind fun _ => safe_pure _

theorem Inert.dukGetProp (idx : ℤ) (key : Bytes) : Safe I (dukGetProp idx key) := by
  refine (safe_dukRequireSlot idx).bind fun _ => safe_get.bind fun c => ?_
  split
  · exact safe_dukThrow _
  · exact safe_dukThrow _
  · exact hI.dukPush _

theorem Inert.dukGetPropString (idx : ℤ) (key : Option Bytes) :
    Safe I (dukGetPropString idx key) := by
  cases key <;> exact hI.dukGetProp _ _

theorem Inert.dukGetPropTop (idx : ℤ) : Safe I (dukGetPropTop idx) := by
  refine safe_get.bind fun c => ?_
  split
  · exact hI.modify _
  · exact safe_dukThrow _

theorem Inert.dukGetGlobalString (key : Bytes) : Safe I (dukGetGlobalString key) :=
  safe_get.bind fun _ => hI.dukPush _

end Stack

section Enumeration

theorem safe_dukHasPropString (inherits : JsVal → Bytes → Bool) (idx : ℤ) (key : Bytes) :
    Safe I (dukHasPropString inherits idx key) := by
  refine (safe_dukRequireSlot idx).bind fun _ => safe_get.bind fun c => ?_
  dsimp only
  split_ifs
  · exact safe_pure _
  · exact safe_dukThrow _

variable (hI : Inert I)

include hI

theorem Inert.dukEnum (idx : ℤ) (flags : EnumFlags) : Safe I (dukEnum idx flags) := by
  refine safe_get.bind fun c => ?_
  dsimp only
  split_ifs
  · exact hI.dukPush _
  · exact safe_dukThrow _

theorem Inert.dukNext (idx : ℤ) : Safe I (dukNext idx) := by
  refine (safe_dukRequireSlot idx).bind fun i => (safe_dukGet idx).bind fun v => ?_
  split
  · exact safe_pure _
  · exact (hI.modify _).bind fun _ => (hI.dukPush _).bind fun _ =>
      (hI.dukPush _).bind fun _ => safe_pure _
  · exact safe_dukThrow _

theorem Inert.dukNextKey (idx : ℤ) : Safe I (dukNextKey idx) := by
  refine (safe_dukRequireSlot idx).bind fun i => (safe_dukGet idx).bind fun v => ?_
  split
  · exact safe_pure _
  · exact (hI.modify _).bind fun _ => (hI.dukPush _).bind fun _ => safe_pure _
  · exact safe_dukThrow _

theorem Inert.whileNextN (idx : ℤ) {body : σ → DukM ω σ} (hbody : ∀ s, Safe I (body s)) :
    ∀ n s, Safe I (whileNextN idx body n s)
  | 0, s => safe_pure s
  | n + 1, s => by
    rw [whileNextN_succ]
    refine (hI.dukNext idx).bind fun more => ?_
    split_ifs
    · exact (hbody s).bind fun s' => Inert.whileNextN idx hbody n s'
    · exact safe_pure s

theorem Inert.whileNext (idx : ℤ) {body : σ → DukM ω σ} (hbody : ∀ s, Safe I (body s)) (s : σ) :
    Safe I (whileNext idx body s) := by
  have hpending : Safe I (dukPending idx : DukM ω ℕ) :=
    (safe_dukGet idx).bind fun v => by cases v <;> exact safe_pure _
  exact hpending.bind fun n => hI.whileNextN idx hbody (n + 1) s

theorem Inert.whileNextBreakN (idx : ℤ) {body : σ → DukM ω (σ ⊕ σ)}
    (hbody : ∀ s, Safe I (body s)) : ∀ n s, Safe I (whileNextBreakN idx body n s)
  | 0, s => safe_pure s
  | n + 1, s => by
    rw [Erlm.whileNextBreakN]
    refine (hI.dukNext idx).bind fun more => ?_
    split_ifs
    · refine (hbody s).bind fun next => ?_
      cases next with
      | inl s' => exact Inert.whileNextBreakN idx hbody n s'
      | inr s' => exact safe_pure s'
    · exact safe_pure s

theorem Inert.whileNextBreak (idx : ℤ) {body : σ → DukM ω (σ ⊕ σ)}
    (hbody : ∀ s, Safe I (body s)) (s : σ) : Safe I (whileNextBreak idx body s) := by
  have hpending : Safe I (dukPending idx : DukM ω ℕ) :=
    (safe_dukGet idx).bind fun v => by cases v <;> exact safe_pure _
  exact hpending.bind fun n => hI.whileNextBreakN idx hbody (n + 1) s

end Enumeration

section Calls

variable (hI : Inert I)

include hI

theorem Inert.dukInvoke (nargs : ℕ) : Safe I (dukInvoke nargs) := by
  intro c h
  unfold Erlm.dukInvoke
  split
  · exact safe_dukThrow _ c h
  · rename_i f rest _
    dsimp only
    split_ifs with hfun
    · have hcall := hI.stack _ rest (hI.call c f (c.stack.take nargs).reverse h)
      rw [Ctx.afterCall, if_pos hfun] at hcall
      exact hcall
    · exact hI.stack c rest h

theorem Inert.dukResult (v : JsVal) : Safe I (dukResult v) := hI.modify _

theorem Inert.dukCall (nargs : ℕ) : Safe I (dukCall nargs) := by
  refine (hI.dukInvoke nargs).bind fun outcome => ?_
  cases outcome with
  | ok v => exact hI.dukResult v
  | error e => exact safe_throw (by simp)

theorem Inert.dukPcall (nargs : ℕ) : Safe I (dukPcall nargs) := by
  refine (hI.dukInvoke nargs).bind fun outcome => ?_
  cases outcome <;> exact hI.dukResult _

theorem Inert.dukExec (outcome : Except JsVal JsVal) : Safe I (dukExec outcome) := by
  cases outcome <;> exact (hI.dukResult _).bind fun _ => safe_pure _

theorem Inert.dukPcallProp (idx : ℤ) (nargs : ℕ) : Safe I (dukPcallProp idx nargs) := by
  refine safe_get.bind fun c => ?_
  split
  · exact safe_dukThrow _
  · split
    · exact (hI.modify _).bind fun _ => (hI.dukInvoke nargs).bind fun outcome =>
        hI.dukExec outcome
    · exact (hI.modify _).bind fun _ => hI.dukExec _

/-- A source that ends within its memory is evaluated. -/
theorem Inert.dukPevalString {memory source : Bytes} (hread : Pages.read 0 memory = some source) :
    Safe I (dukPevalString memory) := by
  unfold Erlm.dukPevalString
  rw [hread]
  exact (hI.dukPush _).bind fun _ => (hI.dukPush _).bind fun _ =>
    (hI.dukInvoke 1).bind fun outcome => hI.dukExec outcome

end Calls

section Terms

/-- A put never does anything undefined. -/
theorem safe_dukPutProp (idx : ℤ) (key : Bytes)
    (put : List (Option JsVal) → Props → Option JsVal → JsVal → Option JsVal) :
    Safe (fun _ => True) (dukPutProp idx key put : DukM ω Unit) := by
  have hmodify (f : Ctx ω → Ctx ω) : Safe (fun _ => True) (modify f : DukM ω Unit) :=
    fun _ _ => trivial
  refine (safe_dukRequireSlot idx).bind fun i => (safe_dukGet _).bind fun v => safe_get.bind
    fun c => ?_
  split
  · split
    · exact (hmodify _).bind fun _ => inert_true.dukPop
    · exact (safe_dukThrow _).bind fun _ => inert_true.dukPop
  · exact (hmodify _).bind fun _ => inert_true.dukPop
  · exact (hmodify _).bind fun _ => inert_true.dukPop
  · exact (hmodify _).bind fun _ => inert_true.dukPop
  · exact (safe_dukThrow _).bind fun _ => inert_true.dukPop

theorem safe_dukPutPropString (idx : ℤ) (key : Bytes) :
    Safe (fun _ => True) (dukPutPropString idx key : DukM ω Unit) :=
  safe_get.bind fun _ => safe_dukPutProp _ _ _

theorem safe_dukPutPropIndex (idx : ℤ) (i : ℕ) :
    Safe (fun _ => True) (dukPutPropIndex idx i : DukM ω Unit) := safe_dukPutProp _ _ _

/-- Pushing the cells of a list reaches the end of the list in its last round. -/
def CellsSafe (ω : Type) (tl : ETerm) : Prop :=
  ∀ (n : ℕ) (idx : ℤ) (i : ℕ), erlLength tl = n →
    Safe (fun _ => True) (dukErlangPushCells tl idx n i : DukM ω Unit)

/-- So does pushing the pairs of a keyword list. -/
def PairsSafe (ω : Type) (tl : ETerm) : Prop :=
  ∀ (n : ℕ) (idx : ℤ), erlLength tl = n → isObjectAlikeLoop n tl = true →
    Safe (fun _ => True) (dukErlangPushPairs tl idx n : DukM ω Unit)

theorem cellsSafe_cons {hd tl : ETerm}
    (hhd : Safe (fun _ => True) (dukErlangPushTerm hd : DukM ω Unit)) (htl : CellsSafe ω tl) :
    CellsSafe ω (.cons hd tl) := by
  intro n idx i hn
  obtain ⟨n, rfl, hlen⟩ := erlLength_cons_eq hn
  rw [dukErlangPushCells_succ]
  exact hhd.bind fun _ => (safe_dukPutPropIndex _ _).bind fun _ => htl n idx (i + 1) hlen

theorem pairsSafe_cons {hd tl : ETerm} (hvalue : ∀ name value, hd = .tuple [.atom name, value] →
      Safe (fun _ => True) (dukErlangPushTerm value : DukM ω Unit)) (htl : PairsSafe ω tl) :
    PairsSafe ω (.cons hd tl) := by
  intro n idx hn halike
  obtain ⟨n, rfl, hlen⟩ := erlLength_cons_eq hn
  obtain ⟨name, value, tl', heq, htail⟩ := isObjectAlikeLoop_succ halike
  cases heq
  rw [dukErlangPushPairs_succ]
  exact (hvalue name value rfl).bind fun _ => (safe_dukPutPropString _ _).bind fun _ =>
    htl n idx hlen htail

theorem safe_cons {hd tl : ETerm} (hcells : CellsSafe ω (.cons hd tl))
    (hpairs : PairsSafe ω (.cons hd tl)) :
    Safe (fun _ => True) (dukErlangPushTerm (.cons hd tl) : DukM ω Unit) := by
  cases listCase hd tl with
  | text hio =>
    rw [dukErlangPushTerm_text hio]
    exact inert_true.dukPushString _
  | pairs hio halike hlen hloop =>
    rw [dukErlangPushTerm_pairs hio halike hlen]
    exact inert_true.dukPushArray.bind fun idx => hpairs _ idx hlen hloop
  | improper hio halike hlen =>
    rw [dukErlangPushTerm_improper hio halike hlen]
    exact inert_true.dukPushArray.bind fun _ => safe_pure _
  | cells hio halike hlen =>
    rw [dukErlangPushTerm_cells hio halike hlen]
    exact inert_true.dukPushArray.bind fun idx => hcells _ idx 0 hlen

mutual

theorem safe_dukErlangPushTerm :
    ∀ t : ETerm, Safe (fun _ => True) (dukErlangPushTerm t : DukM ω Unit)
  | .integer _ | .unsigned _ | .float _ | .binary _ => inert_true.dukPush _
  | .atom _ | .nil => inert_true.dukPushString _
  | .longlong _ | .ulonglong _ | .other _ => safe_throw (by simp)
  | .tuple es => by
    rw [dukErlangPushTerm_tuple]
    exact inert_true.dukPushArray.bind fun _ => safe_dukErlangPushElements es 0
  | .cons hd tl => by
    refine safe_cons (cellsSafe_cons (safe_dukErlangPushTerm hd) (safe_dukErlangPushCells tl))
      (pairsSafe_cons ?_ (safe_dukErlangPushPairs tl))
    rintro name value rfl
    exact safe_dukErlangPushTerm value

theorem safe_dukErlangPushElements : ∀ (es : List ETerm) (i : ℕ),
    Safe (fun _ => True) (dukErlangPushElements es i : DukM ω Unit)
  | [], _ => safe_pure _
  | e :: es, i => by
    rw [dukErlangPushElements_cons]
    exact (safe_dukErlangPushTerm e).bind fun _ => (safe_dukPutPropIndex _ _).bind fun _ =>
      safe_dukErlangPushElements es (i + 1)

theorem safe_dukErlangPushCells : ∀ tl : ETerm, CellsSafe ω tl
  | .nil => fun n _ _ hn => by
    obtain rfl : n = 0 := by simpa [erlLength] using hn.symm
    exact safe_pure _
  | .cons hd tl => cellsSafe_cons (safe_dukErlangPushTerm hd) (safe_dukErlangPushCells tl)
  | .integer _ | .unsigned _ | .float _ | .atom _ | .binary _ | .longlong _ | .ulonglong _
  | .tuple _ | .other _ => fun n _ _ hn => by simp [erlLength] at hn

theorem safe_dukErlangPushPairs : ∀ tl : ETerm, PairsSafe ω tl
  | .nil => fun n _ hn _ => by
    obtain rfl : n = 0 := by simpa [erlLength] using hn.symm
    exact safe_pure _
  | .cons hd tl => by
    refine pairsSafe_cons ?_ (safe_dukErlangPushPairs tl)
    rintro name value rfl
    exact safe_dukErlangPushTerm value
  | .integer _ | .unsigned _ | .float _ | .atom _ | .binary _ | .longlong _ | .ulonglong _
  | .tuple _ | .other _ => fun n _ hn => by simp [erlLength] at hn

end

/-- Pushing a term changes the stack alone. -/
theorem Inert.dukErlangPushTerm (hI : Inert I) (t : ETerm) : Safe I (dukErlangPushTerm t) :=
  hI.of_moves (fun c st => ⟨_, _, @dukErlangPushTerm_moves ω c t st⟩) (safe_dukErlangPushTerm t)

theorem Inert.dukUtilUnrollArray (hI : Inert I) : Safe I (dukUtilUnrollArray : DukM ω ℕ) := by
  refine (safe_dukGet _).bind fun array => ?_
  split_ifs
  · have hindex : Safe I (dukNormalizeIndex (-1) : DukM ω ℤ) := fun _ h => h
    refine (hI.dukEnum _ _).bind fun _ => hindex.bind fun idx => ?_
    refine (hI.whileNext idx (fun count => ?_) 0).bind fun count => ?_
    · exact (hI.dukRemove _).bind fun _ => safe_pure _
    · exact (hI.dukRemove _).bind fun _ => (hI.dukRemove _).bind fun _ => safe_pure _
  · exact safe_pure _

end Terms

section Ports

theorem safe_dukElmIsOutputPort (inherits : JsVal → Bytes → Bool) :
    Safe I (dukElmIsOutputPort inherits) := by
  refine (safe_dukGet _).bind fun port => ?_
  split_ifs
  · refine (safe_dukHasPropString _ _ _).bind fun subscribes => ?_
    split_ifs
    · exact safe_dukHasPropString _ _ _
    · exact safe_pure _
  · exact safe_pure _

theorem safe_dukElmIsInputPort (inherits : JsVal → Bytes → Bool) :
    Safe I (dukElmIsInputPort inherits) := by
  refine (safe_dukGet _).bind fun port => ?_
  split_ifs
  · exact safe_dukHasPropString _ _ _
  · exact safe_pure _

variable (hI : Inert I)

include hI

theorem Inert.inputPortsRound (inherits : JsVal → Bytes → Bool) (port_count : ℤ)
    (ports : List (Option Bytes)) : Safe I (inputPortsRound inherits port_count ports) := by
  unfold Erlm.inputPortsRound
  split_ifs
  · exact (hI.dukPopN 2).bind fun _ => safe_pure _
  · refine (safe_dukElmIsInputPort inherits).bind fun input => ?_
    split_ifs
    · exact (safe_dukGetString _).bind fun _ => (hI.dukPopN 2).bind fun _ => safe_pure _
    · exact (hI.dukPopN 2).bind fun _ => safe_pure _

theorem Inert.outputPortsRound (inherits : JsVal → Bytes → Bool) (port_count : ℤ)
    (ports : List (Option Bytes)) : Safe I (outputPortsRound inherits port_count ports) := by
  unfold Erlm.outputPortsRound
  split_ifs
  · exact safe_pure _
  · refine (safe_dukElmIsOutputPort inherits).bind fun output => ?_
    split_ifs
    · exact (safe_dukGetString _).bind fun _ => (hI.dukPopN 2).bind fun _ => safe_pure _
    · exact (hI.dukPopN 2).bind fun _ => safe_pure _

theorem Inert.dukElmGetPorts {round : List (Option Bytes) →
      DukM ω (List (Option Bytes) ⊕ List (Option Bytes))} (hround : ∀ s, Safe I (round s)) :
    Safe I (dukElmGetPorts round) := by
  refine (safe_dukGet _).bind fun worker => ?_
  split_ifs
  · refine (hI.dukGetPropString _ _).bind fun _ => (safe_dukGet _).bind fun ports => ?_
    split_ifs
    · exact (hI.dukEnum _ _).bind fun _ => (hI.whileNextBreak _ hround _).bind fun _ =>
        (hI.dukPopN 2).bind fun _ => safe_pure _
    · exact safe_pure _
  · exact safe_pure _

end Ports

section Handler

end Handler

section Script

variable {files : Bytes → Option File} {page : ℕ} {filepath : Bytes}

end Script

end Erlm
