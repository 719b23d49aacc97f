import Erlm.Proofs.Atomic
import Erlm.Proofs.TimerTable

/-!
# Timers that could not be set

`setTimeout` does not look at what `events_send_timeout` returns: a failure is returned to the
script as -1, and the function is kept under 4294967295 (`setTimeout_failed`). In a run all entries
of the table belong to timers that were armed, and failures are reported, exactly if no call fails
(`honest_iff`).
-/

namespace Erlm

variable {entry : ℕ} {s : TimerState}

section Invariant

/-- A registration is one-shot and has the live record of the timer of its descriptor. -/
def IsTimer (e : Events) (r : ℤ × Registration) : Prop :=
  IsFd r.1 ∧ r.2.oneshot = true ∧ e.records.get? r.2.event = some ⟨.timer, r.1, none⟩

/-- What holds between the calls, whether or not some of them failed. -/
structure TimersStand (s : TimerState) : Prop where
  timered : Timered s.ctx
  stack : ∃ st, s.ctx.stack = s.frame ++ st ∧ st.length + 3 ≤ s.ctx.reserve
  keys : (s.ctx.world.events.epoll.map Prod.fst).Nodup
  timers : ∀ r ∈ s.ctx.world.events.epoll, IsTimer s.ctx.world.events r

/-- Every entry of the table belongs to a timer that was armed. -/
def AllArmed (s : TimerState) : Prop :=
  ∀ key f, Assoc.get? s.ctx.callbacks key = some f →
    ∃ r ∈ s.ctx.world.events.epoll, key = decimal (toUarridx r.1) ∧ IsTimer s.ctx.world.events r

/-- `duk_timers_register` was called, and no timer was set yet. System calls may fail. -/
structure TimerState.Begins (s : TimerState) : Prop where
  timered : Timered s.ctx
  callbacks : s.ctx.callbacks = []
  epoll : s.ctx.world.events.epoll = []
  room : s.ctx.stack.length + 3 ≤ s.ctx.reserve
  running : s.running = none

/-- The kernel makes descriptors as it documents. -/
def TimerAction.Real (a : TimerAction) (s : TimerState) : Prop :=
  match a with
  | .setTimeout _ _ => ∀ fd, s.ctx.world.events.sched s.ctx.world.events.syscalls = some fd →
      IsFd fd ∧ s.ctx.world.events.under fd = []
  | _ => True

/-- `events_send_timeout` returns -1. -/
def TimerAction.Fails (a : TimerAction) (s : TimerState) : Prop :=
  match a with
  | .setTimeout _ t =>
    (eventsSendTimeout s.ctx.world.events.manager (intOf t) none s.ctx.world.events).1 = -1
  | _ => False

theorem IsTimer.mono {e e' : Events} {r : ℤ × Registration} (h : IsTimer e r)
    (hrecords : ∀ p a, e.records.get? p = some a → e'.records.get? p = some a) : IsTimer e' r :=
  ⟨h.1, h.2.1, hrecords _ _ h.2.2⟩

theorem IsTimer.addSent {e : Events} {r : ℤ × Registration} (h : IsTimer e r) (fd : ℤ) (n : ℕ) :
    IsTimer (e.addSent .timer fd none n) r := by
  refine h.mono fun p a hp => ?_
  unfold Events.addSent
  rw [Heap.get?_update_of_ne _ (Nat.ne_of_lt (Heap.get?_lt hp)).symm]
  exact Heap.get?_alloc hp _

theorem isTimer_new {e : Events} {fd : ℤ} (hfd : IsFd fd) (n : ℕ) :
    IsTimer (e.addSent .timer fd none n) (fd, ⟨e.records.next, true, true⟩) := by
  refine ⟨hfd, rfl, ?_⟩
  unfold Events.addSent
  rw [Heap.get?_update_self, Heap.get?_alloc_next]
  rfl

theorem IsTimer.fire {e : Events} {fd : ℤ} {p : ℕ} {r : ℤ × Registration} (h : IsTimer e r) :
    IsTimer (e.fire fd p) (if r = (fd, ⟨p, true, true⟩) then (fd, ⟨p, true, false⟩) else r) := by
  split_ifs with hr
  · subst hr
    exact h
  · exact h

end Invariant

section SetTimeout

variable {f t : JsVal}

/-- A failed call of `setTimeout` returns -1 and raises nothing, and the function is kept as that of
a timer 4294967295. -/
theorem setTimeout_failed (hentry : DUK_API_ENTRY_STACK ≤ entry) (h : Timered s.ctx)
    (hfails : (TimerAction.setTimeout f t).Fails s) :
    ∃ e, dukNative entry dukTimersSetTimeout .undefined [f, t] s.ctx
      = .ok (.ok (.number (.ofInt (-1)))) ((s.ctx.withEvents e).withShared callbacksRef
        (Assoc.put s.ctx.callbacks (decimal 4294967295) f)) := by
  rcases hsend : eventsSendTimeout s.ctx.world.events.manager (intOf t) none s.ctx.world.events
    with ⟨r, e⟩
  have hr : r = -1 := by
    have : (eventsSendTimeout s.ctx.world.events.manager (intOf t) none s.ctx.world.events).1
      = -1 := hfails
    rwa [hsend] at this
  subst hr
  exact ⟨e, setTimeout_returns hentry h f t hsend⟩

/-- After a call of `setTimeout` that fails. -/
theorem TimersStand.failed (h : TimersStand s) {n : ℕ} {given : List ℤ} {e : Events}
    (hrefused : Refused s.ctx.world.events n given e) (ps : Props) (log : List TimerEvent) :
    TimersStand { s with ctx := (s.ctx.withEvents e).withShared callbacksRef ps, log } := by
  have htimered : Timered (s.ctx.withEvents e) := h.timered.withEvents hrefused.manager
  refine ⟨htimered.withShared ps, h.stack, ?_, fun r hr => ?_⟩
  · exact (congrArg (fun epoll => (epoll.map Prod.fst).Nodup) hrefused.epoll).mpr h.keys
  · exact (h.timers r (hrefused.epoll ▸ hr)).mono hrefused.records

/-- After a call of `setTimeout` that succeeds. -/
theorem TimersStand.sent (h : TimersStand s) {fd : ℤ} (hfd : IsFd fd)
    (hunder : s.ctx.world.events.under fd = []) (n : ℕ) (ps : Props) (log : List TimerEvent) :
    TimersStand { s with
      ctx := (s.ctx.withEvents (s.ctx.world.events.addSent .timer fd none n)).withShared
        callbacksRef ps
      log } := by
  have htimered : Timered (s.ctx.withEvents (s.ctx.world.events.addSent .timer fd none n)) :=
    h.timered.withEvents rfl
  refine ⟨htimered.withShared ps, h.stack, ?_, fun r hr => ?_⟩
  · exact Assoc.nodup_keys_concat _ h.keys (under_eq_nil.1 hunder)
  · rcases List.mem_append.1 hr with hr | hr
    · exact (h.timers r hr).addSent fd n
    · rw [List.mem_singleton.1 hr]
      exact isTimer_new hfd n

theorem timersStand_setTimeout (hentry : DUK_API_ENTRY_STACK ≤ entry) (h : TimersStand s)
    (hreal : (TimerAction.setTimeout f t).Real s) :
    ∃ s', timerStep entry (.setTimeout f t) s = .ok s' ∧ TimersStand s'
      ∧ (¬ (TimerAction.setTimeout f t).Fails s → AllArmed s → AllArmed s') := by
  have hmakes : s.ctx.world.events.Makes := fun fd hfd => ⟨(hreal fd hfd).1.1, (hreal fd hfd).2⟩
  rcases eventsSendTimeout_outcome hmakes s.ctx.world.events.manager (intOf t) none with
    ⟨-, fd, n, hmade, hsend⟩ | ⟨hresult, n, hrefused, -⟩
  · obtain ⟨hfd, hunder⟩ := hreal fd hmade
    refine ⟨_, timerStep_setTimeout (setTimeout_returns hentry h.timered f t hsend),
      h.sent hfd hunder n _ _, fun _ harmed key g hg => ?_⟩
    rw [callbacks_withShared] at hg
    by_cases hkey : key = decimal (toUarridx fd)
    · exact ⟨_, List.mem_append_right _ List.mem_cons_self, hkey, isTimer_new hfd n⟩
    · rw [Assoc.get?_put_of_ne _ hkey] at hg
      obtain ⟨r, hr, hid, htimer⟩ := harmed key g hg
      exact ⟨r, List.mem_append_left _ hr, hid, htimer.addSent fd n⟩
  · refine ⟨_, timerStep_setTimeout (setTimeout_returns hentry h.timered f t (Prod.mk.eta).symm),
      h.failed hrefused _ _, fun hfails _ => absurd hresult hfails⟩

end SetTimeout

section Others

/-- Taking an entry out of the table. -/
theorem TimersStand.erase (h : TimersStand s) (gone : Bytes) {running : Option Event}
    {st : List JsVal} (hst : ∃ base : List JsVal, st = (if running.isSome then
      [JsVal.ref callbacksRef, JsVal.ref stashRef] else []) ++ base
        ∧ base.length + 3 ≤ s.ctx.reserve)
    (log : List TimerEvent) :
    TimersStand ⟨(s.ctx.withShared callbacksRef (Assoc.erase s.ctx.callbacks gone)).withStack st,
      running, log⟩ := by
  have htimered := h.timered.withShared (Assoc.erase s.ctx.callbacks gone)
  exact ⟨⟨htimered.isInt, htimered.manager, htimered.callbacks⟩, hst, h.keys, h.timers⟩

theorem AllArmed.erase (h : AllArmed s) (gone : Bytes) (st : List JsVal) (running : Option Event)
    (log : List TimerEvent) :
    AllArmed ⟨(s.ctx.withShared callbacksRef (Assoc.erase s.ctx.callbacks gone)).withStack st,
      running, log⟩ := by
  intro key f hf
  have hps := callbacks_withShared s.ctx (Assoc.erase s.ctx.callbacks gone)
  have hf : Assoc.get? (s.ctx.withShared callbacksRef
      (Assoc.erase s.ctx.callbacks gone)).callbacks key = some f := hf
  rw [hps] at hf
  by_cases hkey : key = gone
  · rw [hkey, Assoc.get?_erase_self] at hf
    cases hf
  · rw [Assoc.get?_erase_of_ne _ hkey] at hf
    exact h key f hf

theorem timersStand_clearTimeout (hentry : DUK_API_ENTRY_STACK ≤ entry) (h : TimersStand s)
    (d : Double) :
    ∃ s', timerStep entry (.clearTimeout d) s = .ok s' ∧ TimersStand s'
      ∧ (AllArmed s → AllArmed s') :=
  ⟨_, timerStep_clearTimeout (clearTimeout_run hentry h.timered d), h.erase _ h.stack _,
    fun harmed => harmed.erase _ _ _ _⟩

theorem timersStand_finish (h : TimersStand s) (v : JsVal) :
    ∃ s', timerStep entry (.finish v) s = .ok s' ∧ TimersStand s'
      ∧ (AllArmed s → AllArmed s') := by
  rcases hrunning : s.running with _ | event
  · exact ⟨s, timerStep_finish_idle hrunning v, h, id⟩
  · obtain ⟨st, hst, hroom⟩ := h.stack
    rw [TimerState.frame, hrunning] at hst
    refine ⟨_, timerStep_finish hrunning (finishTimer_run hst event v), ?_,
      fun harmed => harmed.erase _ _ _ _⟩
    exact @TimersStand.erase s h _ none st ⟨st, rfl, hroom⟩ _

/-- What a delivery keeps, whatever it calls: `ctx` is the context after it. -/
theorem TimersStand.deliver (h : TimersStand s) (fd : ℤ) (p : ℕ) {ctx : Ctx Os}
    {running : Option Event} (log : List TimerEvent)
    (hworld : ctx.world = { s.ctx.world with events := s.ctx.world.events.fire fd p })
    (hstore : ctx.store = s.ctx.store) (hreserve : ctx.reserve = s.ctx.reserve)
    (hstack : ∃ st : List JsVal, ctx.stack = (if running.isSome then
      [JsVal.ref callbacksRef, JsVal.ref stashRef] else []) ++ st
        ∧ st.length + 3 ≤ s.ctx.reserve) :
    TimersStand ⟨ctx, running, log⟩ ∧ (AllArmed s → AllArmed ⟨ctx, running, log⟩) := by
  obtain ⟨engine, stack, reserve, this, store, world, calls⟩ := ctx
  obtain rfl : world = _ := hworld
  obtain rfl : store = _ := hstore
  obtain rfl : reserve = _ := hreserve
  refine ⟨⟨⟨h.timered.isInt, h.timered.manager, h.timered.callbacks⟩, hstack, ?_, fun r hr => ?_⟩,
    fun harmed key f hf => ?_⟩
  · rw [keys_fire]
    exact h.keys
  · obtain ⟨q, hq, rfl⟩ := List.mem_map.1 hr
    exact (h.timers q hq).fire
  · obtain ⟨r, hr, hid, htimer⟩ := harmed key f hf
    refine ⟨_, List.mem_map_of_mem hr, ?_, htimer.fire⟩
    rw [hid]
    split_ifs with heq
    · rw [heq]
    · rfl

theorem timersStand_tick (h : TimersStand s) :
    TimersStand { s with ctx := s.ctx.withEvents s.ctx.world.events.tick } :=
  ⟨⟨h.timered.isInt, h.timered.manager, h.timered.callbacks⟩, h.stack, h.keys, h.timers⟩

theorem timersStand_fire (h : TimersStand s) (hrunning : s.running = none)
    (hwilling : s.ctx.world.events.willing = true) {fd : ℤ} {p : ℕ}
    (hmem : (fd, ⟨p, true, true⟩) ∈ s.ctx.world.events.epoll) :
    ∃ s', timerStep entry (.deliver fd) s = .ok s' ∧ TimersStand s'
      ∧ (AllArmed s → AllArmed s') := by
  obtain ⟨hfd, -, hrecord⟩ := h.timers _ hmem
  obtain ⟨st, hst, hroom⟩ := h.stack
  rw [TimerState.frame, hrunning] at hst
  have hst : s.ctx.stack = st := hst
  have hwait := eventsWait_oneshot hwilling (filter_eq_singleton h.keys hmem)
  have hstep := @timerStep_fire entry s h.timered hrunning st hst hroom fd p ⟨.timer, fd, none⟩
    hwait hrecord rfl _ (prop_callback s.ctx (decimal (toUarridx fd)))
  rw [hstep]
  split_ifs
  · exact ⟨_, rfl, h.deliver fd p _ rfl rfl rfl ⟨st, rfl, hroom⟩⟩
  · exact ⟨_, rfl, h.deliver fd p _ rfl rfl rfl ⟨st, by rw [hrunning]; exact hst, hroom⟩⟩

theorem timersStand_deliver (h : TimersStand s) (fd : ℤ) :
    ∃ s', timerStep entry (.deliver fd) s = .ok s' ∧ TimersStand s'
      ∧ (AllArmed s → AllArmed s') := by
  have hnothing {count : ℤ} (hrunning : s.running = none) (hwait : eventsWait
      s.ctx.world.events.manager [fd] 1 s.ctx.world.events
        = ((count, []), s.ctx.world.events.tick)) :
      ∃ s', timerStep entry (.deliver fd) s = .ok s' ∧ TimersStand s'
        ∧ (AllArmed s → AllArmed s') :=
    ⟨_, timerStep_nothing hrunning (deliverTimer_nothing hwait), timersStand_tick h, id⟩
  rcases hrunning : s.running with _ | event
  · by_cases hwilling : s.ctx.world.events.willing = true
    · by_cases harmed : ∃ p, (fd, ⟨p, true, true⟩) ∈ s.ctx.world.events.epoll
      · obtain ⟨p, hmem⟩ := harmed
        exact timersStand_fire h hrunning hwilling hmem
      · refine hnothing hrunning (eventsWait_none hwilling ?_)
        rintro ⟨fd', p, oneshot, armed⟩ hr
        obtain ⟨hmem, rfl⟩ := mem_under.1 hr
        obtain rfl : oneshot = true := (h.timers _ hmem).2.1
        rw [← Bool.not_eq_true]
        rintro rfl
        exact harmed ⟨p, hmem⟩
    · exact hnothing hrunning (eventsWait_refused hwilling _ _)
  · exact ⟨s, timerStep_deliver_busy hrunning fd, h, id⟩

end Others

section Runs

/-- An action that is taken as it should be: a `setTimeout` that fails raises an error and leaves
the table as it was, and after the action every entry of the table belongs to an armed timer. -/
def TimerAction.Honest (entry : ℕ) (a : TimerAction) (s : TimerState) : Prop :=
  (∀ f t, a = .setTimeout f t → a.Fails s →
      ∃ e c', dukNative entry dukTimersSetTimeout .undefined [f, t] s.ctx = .ok (.error e) c'
        ∧ c'.callbacks = s.ctx.callbacks)
    ∧ ∃ s', timerStep entry a s = .ok s' ∧ AllArmed s'

theorem timersStand_step (hentry : DUK_API_ENTRY_STACK ≤ entry) {a : TimerAction}
    (h : TimersStand s) (hreal : a.Real s) :
    ∃ s', timerStep entry a s = .ok s' ∧ TimersStand s'
      ∧ (¬ a.Fails s → AllArmed s → AllArmed s') := by
  cases a with
  | setTimeout f t => exact timersStand_setTimeout hentry h hreal
  | clearTimeout d =>
    obtain ⟨s', hstep, h', harmed⟩ := timersStand_clearTimeout hentry h d
    exact ⟨s', hstep, h', fun _ => harmed⟩
  | deliver fd =>
    obtain ⟨s', hstep, h', harmed⟩ := @timersStand_deliver entry s h fd
    exact ⟨s', hstep, h', fun _ => harmed⟩
  | finish v =>
    obtain ⟨s', hstep, h', harmed⟩ := @timersStand_finish entry s h v
    exact ⟨s', hstep, h', fun _ => harmed⟩

/-- No failed `setTimeout` is taken as it should be. -/
theorem not_honest_of_fails (hentry : DUK_API_ENTRY_STACK ≤ entry) {a : TimerAction}
    (h : Timered s.ctx) (hfails : a.Fails s) : ¬ a.Honest entry s := by
  intro h
  obtain ⟨hraises, -⟩ := h
  cases a with
  | setTimeout f t =>
    obtain ⟨e, c', hthrown, -⟩ := hraises f t rfl hfails
    obtain ⟨e', hreturned⟩ := setTimeout_failed hentry h hfails
    rw [hreturned] at hthrown
    cases hthrown
  | clearTimeout d => exact hfails
  | deliver fd => exact hfails
  | finish v => exact hfails

theorem honest_step_iff (hentry : DUK_API_ENTRY_STACK ≤ entry) {a : TimerAction}
    (h : TimersStand s) (harmed : AllArmed s) (hreal : a.Real s) :
    a.Honest entry s ↔ ¬ a.Fails s := by
  constructor
  · exact fun honest hfails => not_honest_of_fails hentry h.timered hfails honest
  · intro hfails
    obtain ⟨s', hstep, -, harmed'⟩ := timersStand_step hentry h hreal
    exact ⟨fun f t _ hf => absurd hf hfails, s', hstep, harmed' hfails harmed⟩

theorem TimerState.Begins.stands (h : s.Begins) : TimersStand s ∧ AllArmed s := by
  obtain ⟨htimered, hcallbacks, hepoll, hroom, hrunning⟩ := h
  refine ⟨⟨htimered, ⟨s.ctx.stack, ?_, hroom⟩, ?_, ?_⟩, fun key f hf => ?_⟩
  · rw [TimerState.frame, hrunning]
    rfl
  · rw [hepoll]
    exact List.nodup_nil
  · rw [hepoll]
    exact fun r hr => absurd hr List.not_mem_nil
  · rw [hcallbacks] at hf
    cases hf

/-- In a run of calls, events and callbacks everything is taken as it should be exactly if no
`events_send_timeout` fails. -/
theorem honest_iff (hentry : DUK_API_ENTRY_STACK ≤ entry) (hs : s.Begins) (as : List TimerAction)
    (has : Run.Allowed (timerStep entry) TimerAction.Real as s) :
    Run.Allowed (timerStep entry) (TimerAction.Honest entry) as s
      ↔ Run.Allowed (timerStep entry) (fun a s => ¬ a.Fails s) as s := by
  refine Run.allowed_iff (I := fun s => TimersStand s ∧ AllArmed s) ?_ as s has hs.stands
  rintro a s hreal ⟨h, harmed⟩
  refine ⟨honest_step_iff hentry h harmed hreal, fun hfails s' hs' => ?_⟩
  obtain ⟨t, hstep, hstand, harmed'⟩ := timersStand_step hentry h hreal
  rw [hstep, Except.ok.injEq] at hs'
  subst hs'
  exact ⟨hstand, harmed' hfails harmed⟩

/-- The context of a program that has not set a timer, with calls that all fail. -/
def failingCtx : Ctx Os := timersCtx.withEvents ⟨3, [], Heap.empty, [], [], fun _ => none, 0⟩

theorem begins_failingCtx : (⟨failingCtx, none, []⟩ : TimerState).Begins :=
  ⟨fresh_timersCtx.timered.withEvents rfl, rfl, rfl, by decide, rfl⟩

theorem fails_failingCtx :
    (TimerAction.setTimeout (.function 0 []) .undefined).Fails ⟨failingCtx, none, []⟩ := rfl

theorem honest_failing :
    Run.Allowed (timerStep 64) (TimerAction.Honest 64)
        [.setTimeout (.function 0 []) .undefined] ⟨failingCtx, none, []⟩
      ↔ Run.Allowed (timerStep 64) (fun a s => ¬ a.Fails s)
        [.setTimeout (.function 0 []) .undefined] ⟨failingCtx, none, []⟩ := by
  refine @honest_iff 64 ⟨failingCtx, none, []⟩ (le_refl _) begins_failingCtx _
    ⟨?_, fun _ _ => trivial⟩
  intro fd hfd
  cases hfd

/-- `eventfd` fails: no error is raised. -/
theorem not_honest_failing : ¬ ∀ (s : TimerState) (as : List TimerAction), s.Begins →
    Run.Allowed (timerStep 64) TimerAction.Real as s →
    Run.Allowed (timerStep 64) (TimerAction.Honest 64) as s := by
  intro hall
  have hreal : (TimerAction.setTimeout (.function 0 []) .undefined).Real ⟨failingCtx, none, []⟩ :=
    fun fd hfd => by cases hfd
  have h := hall _ [.setTimeout (.function 0 []) .undefined] begins_failingCtx
    ⟨hreal, fun _ _ => trivial⟩
  exact not_honest_of_fails (le_refl _) begins_failingCtx.timered fails_failingCtx h.1

end Runs

end Erlm
