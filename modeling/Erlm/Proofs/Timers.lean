import Erlm.Proofs.Context
import Erlm.Proofs.Events
import Erlm.DukTimers

/-!
# The timer functions, call by call

What `setTimeout`, `clearTimeout` and the handling of a timer event do to the callbacks, given the
stash that `duk_timers_register` sets up.
-/

namespace Erlm

/-- The stash has the events manager and the callbacks. -/
structure Timered (c : Ctx Os) : Prop where
  isInt : IsInt c.world.events.manager
  manager : Assoc.get? (c.store stashRef) timersEventsManager
    = some (.number (.ofInt c.world.events.manager))
  callbacks : Assoc.get? (c.store stashRef) timeoutCallbacks = some (.ref callbacksRef)

/-- The callbacks, an object of their own. -/
def Ctx.callbacks (c : Ctx Os) : Props := c.store callbacksRef

section Natives

variable {c : Ctx Os} {st : List JsVal}

theorem Timered.prop_manager (h : Timered c) : c.prop (.ref stashRef) (cString timersEventsManager)
    = some (.number (.ofInt c.world.events.manager)) := by
  rw [show cString timersEventsManager = timersEventsManager by decide]
  exact Ctx.prop_ref h.manager

theorem Timered.prop_callbacks (h : Timered c) :
    c.prop (.ref stashRef) (cString timeoutCallbacks) = some (.ref callbacksRef) := by
  rw [show cString timeoutCallbacks = timeoutCallbacks by decide]
  exact Ctx.prop_ref h.callbacks

/-- What `duk_get_int` makes of a value. -/
def intOf : JsVal → ℤ
  | .number d => d.toCInt
  | _ => 0

theorem dukGetInt_run {idx : ℤ} {v : JsVal} (h : c.get idx = v) :
    dukGetInt idx c = .ok (intOf v) c := by
  rw [dukGetInt, bind_ok (dukGet_run _ _), h]
  cases v <;> rfl

/-- `setTimeout` keeps its function under whatever number `events_send_timeout` returns. -/
theorem dukTimersSetTimeout_run (h : Timered c) (hroom : 5 ≤ c.reserve) (f t : JsVal) {r : ℤ}
    {e : Events}
    (hsend : eventsSendTimeout c.world.events.manager (intOf t) none c.world.events = (r, e)) :
    dukTimersSetTimeout (c.withStack [t, f]) = .ok 1
      (((c.withEvents e).withShared callbacksRef
        (Assoc.put c.callbacks (decimal (toUarridx r)) f)).withStack [.number (.ofInt r)]) := by
  have htimeout := @dukGetInt_run (c.withStack [.ref stashRef, t, f]) (-2) t
    (Ctx.get_neg_two _ _ _ _)
  have hcallbacks : (c.withEvents e).prop (.ref stashRef)
      (cString timeoutCallbacks) = some (.ref callbacksRef) := h.prop_callbacks
  have hslot : ((c.withEvents e).withStack
      [.ref callbacksRef, .ref stashRef, t, f]).slot (-4) = some 3 := Ctx.slot_top _ (by simp)
  have hreserve : 5 ≤ (c.withEvents e).reserve := hroom
  unfold dukTimersSetTimeout
  rw [bind_ok (dukGetTop_run _), if_neg (by simp), dukPushGlobalStash,
    bind_ok (dukPush_ok (by simp; omega) _),
    bind_ok (dukGetPropString_ok h.prop_manager (by simp; omega)),
    bind_ok (dukGetInt_ofInt h.isInt), bind_ok (dukPop_ok _), bind_ok htimeout,
    bind_ok (@onEvents_run _ _ (c.withStack [.ref stashRef, t, f]) _ _ hsend),
    withStack_withEvents, bind_ok (dukGetPropString_ok hcallbacks (by simp; omega)),
    bind_ok (dukDup_ok hslot rfl (by simp; omega)),
    bind_ok (dukPutPropIndex_ref _ _ _), bind_ok (dukPopN_ok (by simp)), dukPushInt,
    bind_ok (dukPush_ok (by simp [Ctx.withShared]; omega) _)]
  rfl

/-- `clearTimeout` deletes what is under a number. -/
theorem dukTimersClearTimeout_ok (h : Timered c) (hroom : 3 ≤ c.reserve) (d : Double) :
    dukTimersClearTimeout (c.withStack [.number d]) = .ok 0
      ((c.withShared callbacksRef
        (Assoc.erase c.callbacks (decimal (toUarridx d.toCInt)))).withStack []) := by
  have hint : dukGetInt (-1) (c.withStack [.number d])
      = .ok d.toCInt (c.withStack [.number d]) := dukGetInt_run (Ctx.get_neg_one _ _ _)
  unfold dukTimersClearTimeout
  rw [bind_ok (dukGetTop_run _), if_neg (by simp), bind_ok hint, bind_ok (dukPop_ok _),
    dukPushGlobalStash, bind_ok (dukPush_ok (by simp; omega) _),
    bind_ok (dukGetPropString_ok h.prop_callbacks (by simp; omega)),
    bind_ok (dukDelPropIndex_ref _ _), bind_ok (dukPop2_ok _ _)]
  rfl

/-- What is under the descriptor of a timer event: its own property, or an inherited one. -/
theorem prop_callback (c : Ctx Os) (key : Bytes) : c.prop (.ref callbacksRef) key
    = some ((Assoc.get? c.callbacks key).getD (c.engine.inherited (.ref callbacksRef) key)) := by
  unfold Ctx.prop Ctx.callbacks
  simp only [JsVal.lookup, JsVal.own]

/-- What is under the descriptor of a timer event is left on the stack if it can be called. -/
theorem dukTimersBeforeCall_run (h : Timered c) (hroom : st.length + 3 ≤ c.reserve) {event : Event}
    (htype : event.type = .timer) {v : JsVal}
    (hv : c.prop (.ref callbacksRef) (decimal (toUarridx event.id)) = some v) :
    dukTimersBeforeCall event (c.withStack st) = .ok v.isFunction (c.withStack
      (if v.isFunction then v :: .ref callbacksRef :: .ref stashRef :: st else st)) := by
  unfold dukTimersBeforeCall
  rw [if_neg (by simp [htype]), dukPushGlobalStash, bind_ok (dukPush_ok (by omega) _),
    bind_ok (dukGetPropString_ok h.prop_callbacks (by omega)),
    bind_ok (dukGetPropIndex_ok hv (by simp; omega)), bind_ok (dukGet_run _ _), Ctx.get_neg_one]
  by_cases hfun : v.isFunction = true
  · simp only [hfun]
    rfl
  · rw [if_neg hfun, if_neg hfun, bind_ok (dukPopN_ok (by simp))]
    simp only [Bool.not_eq_true] at hfun
    rw [hfun]
    rfl

/-- After the call the function is deleted. -/
theorem dukTimersAfterCall_ok (event : Event) (v w : JsVal) (r : ℕ) :
    dukTimersAfterCall event (c.withStack (v :: .ref r :: w :: st)) = .ok ()
      ((c.withShared r (Assoc.erase (c.store r) (decimal (toUarridx event.id)))).withStack st) := by
  unfold dukTimersAfterCall
  rw [bind_ok (dukPop_ok v), bind_ok (dukDelPropIndex_ref _ _), dukPop2_ok]

/-- An event without a function is done. -/
theorem dukTimersHandleEvent_uncalled {event : Event} {c' : Ctx Os}
    (h : dukTimersBeforeCall event c = .ok false c') :
    dukTimersHandleEvent event c = .ok () c' := by
  unfold dukTimersHandleEvent
  rw [bind_ok h]
  rfl

/-- A function that returns is followed by the rest of the handler. -/
theorem dukTimersHandleEvent_called {event : Event} {c' : Ctx Os} {f v : JsVal}
    (h : dukTimersBeforeCall event c = .ok true (c'.withStack (f :: st)))
    (hfun : f.isFunction = true)
    (hcall : (c'.engine.call f [] c'.store c'.world).1 = .ok v) :
    dukTimersHandleEvent event c
      = dukTimersAfterCall event ((c'.afterCall f []).withStack (v :: st)) := by
  have hreturn : dukCall 0 (c'.withStack (f :: st))
      = .ok () ((c'.afterCall f []).withStack (v :: st)) :=
    dukCall_ok [] ((Ctx.outcome_of_isFunction hfun).trans hcall) st
  unfold dukTimersHandleEvent
  rw [bind_ok h, if_pos rfl, bind_ok hreturn]

/-- A callback that throws takes the handler with it. -/
theorem dukTimersHandleEvent_throws {event : Event} {c' : Ctx Os} {f e : JsVal}
    (h : dukTimersBeforeCall event c = .ok true (c'.withStack (f :: st)))
    (hfun : f.isFunction = true)
    (hcall : (c'.engine.call f [] c'.store c'.world).1 = .error e) :
    dukTimersHandleEvent event c = .error (.thrown e) ((c'.afterCall f []).withStack st) := by
  have hthrow : dukCall 0 (c'.withStack (f :: st))
      = .error (.thrown e) ((c'.afterCall f []).withStack st) :=
    dukCall_error [] ((Ctx.outcome_of_isFunction hfun).trans hcall) st
  unfold dukTimersHandleEvent
  rw [bind_ok h, if_pos rfl, bind_error hthrow]

end Natives

end Erlm
