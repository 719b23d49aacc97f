import Erlm.Proofs.TimerTable

/-!
# What a callback can do to the handler

A callback may change any table and any object before it comes back: it is the functions'
implementation in the engine, taken as it is. The handler calls it unprotected, so one that throws
ends the process, and where no function is found nothing is taken out of the table
(`handlesTimer_iff`).
-/

namespace Erlm

section Handler

variable {c : Ctx Os} {st : List JsVal} {event : Event}

/-- What is under the descriptor of a timer event. -/
def Ctx.callbackOf (c : Ctx Os) (event : Event) : JsVal :=
  (Assoc.get? c.callbacks (decimal (toUarridx event.id))).getD
    (c.engine.inherited (.ref callbacksRef) (decimal (toUarridx event.id)))

/-- The handler of a timer event comes back with the stack as it was, the entry of the timer gone,
and all others as the callback left them if one was called. -/
def HandlesTimer (c : Ctx Os) (st : List JsVal) (event : Event) : Prop :=
  ∃ c', dukTimersHandleEvent event (c.withStack st) = .ok () c' ∧ c'.stack = st
    ∧ Assoc.get? c'.callbacks (decimal (toUarridx event.id)) = none
    ∧ ∀ key, key ≠ decimal (toUarridx event.id) → Assoc.get? c'.callbacks key
      = Assoc.get? (c.afterCall (c.callbackOf event) []).callbacks key

theorem handlesTimer_called (h : Timered c) (hroom : st.length + 3 ≤ c.reserve)
    (htype : event.type = .timer) (hfun : (c.callbackOf event).isFunction = true) :
    HandlesTimer c st event
      ↔ ∃ v, (c.engine.call (c.callbackOf event) [] c.store c.world).1 = .ok v := by
  have hbefore := dukTimersBeforeCall_run h hroom htype (prop_callback c _)
  rw [← Ctx.callbackOf, if_pos hfun, hfun] at hbefore
  rcases hcall : (c.engine.call (c.callbackOf event) [] c.store c.world).1 with e | v
  · refine iff_of_false ?_ (by simp)
    intro h
    obtain ⟨c', hok, -⟩ := h
    rw [dukTimersHandleEvent_throws hbefore hfun hcall] at hok
    cases hok
  · refine iff_of_true ⟨_, (dukTimersHandleEvent_called hbefore hfun hcall).trans
      (dukTimersAfterCall_ok event v _ callbacksRef), rfl, ?_, fun key hkey => ?_⟩ ⟨v, rfl⟩
    · simp [Ctx.callbacks, Ctx.withStack, Ctx.withShared]
    · simp [Ctx.callbacks, Ctx.withStack, Ctx.withShared, Assoc.get?_erase_of_ne _ hkey]

theorem handlesTimer_uncalled (h : Timered c) (hroom : st.length + 3 ≤ c.reserve)
    (htype : event.type = .timer) (hfun : ¬ (c.callbackOf event).isFunction = true) :
    HandlesTimer c st event
      ↔ Assoc.get? c.callbacks (decimal (toUarridx event.id)) = none := by
  have hbefore := dukTimersBeforeCall_run h hroom htype (prop_callback c _)
  rw [← Ctx.callbackOf, if_neg hfun, Bool.eq_false_iff.2 hfun] at hbefore
  have hrun := dukTimersHandleEvent_uncalled hbefore
  have hafter : c.afterCall (c.callbackOf event) [] = c := by
    rw [Ctx.afterCall, if_neg hfun]
  constructor
  · intro h
    obtain ⟨c', hok, -, hgone, -⟩ := h
    rw [hrun] at hok
    cases hok
    exact hgone
  · intro hnone
    refine ⟨_, hrun, rfl, hnone, fun key _ => ?_⟩
    rw [hafter]
    rfl

/-- A timer event is handled exactly if what is under its descriptor is a function that returns, or
nothing. -/
theorem handlesTimer_iff (h : Timered c) (hroom : st.length + 3 ≤ c.reserve)
    (htype : event.type = .timer) :
    HandlesTimer c st event ↔ if (c.callbackOf event).isFunction
      then ∃ v, (c.engine.call (c.callbackOf event) [] c.store c.world).1 = .ok v
      else Assoc.get? c.callbacks (decimal (toUarridx event.id)) = none := by
  by_cases hfun : (c.callbackOf event).isFunction = true
  · rw [if_pos hfun, handlesTimer_called h hroom htype hfun]
  · rw [if_neg hfun, handlesTimer_uncalled h hroom htype hfun]

/-- The timer 5 of `timersCtx` is set with a function, which throws. -/
def pendingCtx : Ctx Os := timersCtx.withShared callbacksRef [(decimal 5, .function 0 [])]

theorem timered_pendingCtx : Timered pendingCtx := fresh_timersCtx.timered.withShared _

theorem handlesTimer_pending : HandlesTimer pendingCtx [] ⟨.timer, 5, none⟩
    ↔ if (pendingCtx.callbackOf ⟨.timer, 5, none⟩).isFunction
      then ∃ v, (pendingCtx.engine.call (pendingCtx.callbackOf ⟨.timer, 5, none⟩) []
        pendingCtx.store pendingCtx.world).1 = .ok v
      else Assoc.get? pendingCtx.callbacks (decimal (toUarridx 5)) = none :=
  handlesTimer_iff timered_pendingCtx (by decide) rfl

/-- A callback that throws ends the process. -/
theorem not_handlesTimer_throws : ¬ ∀ (c : Ctx Os) (st : List JsVal) (event : Event), Timered c →
    st.length + 3 ≤ c.reserve → event.type = .timer → HandlesTimer c st event := by
  intro hall
  have hcallback : pendingCtx.callbackOf ⟨.timer, 5, none⟩ = .function 0 [] := by
    unfold Ctx.callbackOf pendingCtx
    rw [callbacks_withShared]
    rfl
  have hroom : ([] : List JsVal).length + 3 ≤ pendingCtx.reserve := by decide
  have h := hall pendingCtx [] ⟨.timer, 5, none⟩ timered_pendingCtx hroom rfl
  rw [handlesTimer_called timered_pendingCtx hroom rfl (by rw [hcallback]; rfl)] at h
  obtain ⟨v, hv⟩ := h
  cases hv

end Handler

end Erlm
