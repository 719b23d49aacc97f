import Erlm.Lib.Run
import Erlm.Lib.Since
import Erlm.Proofs.Timers

/-!
# The timer table

Runs of `setTimeout`, `clearTimeout` and timer events, whose callbacks may call both functions
before they return. The table has a callback exactly while its timer is pending, and an event calls
exactly the callback that is pending (`timersSound`).
-/

namespace Erlm

section Machine

/-- What happens: a script calls one of the functions, the event of a descriptor is waited for while
no callback runs, or the callback that runs returns. -/
inductive TimerAction
  | setTimeout (f t : JsVal)
  | clearTimeout (d : Double)
  | deliver (fd : ℤ)
  | finish (v : JsVal)

inductive TimerEvent
  | created (id : ℤ) (f : JsVal)
  | cleared (n : ℤ)
  | delivered (id : ℤ) (called : Option JsVal)
  | finished (id : ℤ)

/-- The context, the event whose callback runs, and what happened so far. -/
structure TimerState where
  ctx : Ctx Os
  running : Option Event
  log : List TimerEvent

/-- The timer a call of `setTimeout` returns. -/
def created (f : JsVal) : Except JsVal JsVal → List TimerEvent
  | .ok (.number d) => [.created d.toCInt f]
  | _ => []

/-- Waits for the event of a descriptor and handles it up to the call of its callback. -/
def deliverTimer (events_manager fd : ℤ) : DukM Os (Option (Event × Bool)) := do
  let (_event_count, events) ← onEvents (eventsWait events_manager [fd] 1)
  match events.head? with
  | none => return none
  | some p =>
    let event ← readEvent p
    let called ← dukTimersBeforeCall event
    return some (event, called)

/-- Handles a timer event from the return of its callback on. -/
def finishTimer (event : Event) (v : JsVal) : DukM Os Unit := do
  dukResult v
  dukTimersAfterCall event

variable (entry : ℕ)

def timerStep : TimerAction → TimerState → Except Fault TimerState
  | .setTimeout f t, s =>
    match dukNative entry dukTimersSetTimeout .undefined [f, t] s.ctx with
    | .ok outcome ctx => .ok { s with ctx, log := s.log ++ created f outcome }
    | .error fault _ => .error fault
  | .clearTimeout d, s =>
    match dukNative entry dukTimersClearTimeout .undefined [.number d] s.ctx with
    | .ok _ ctx => .ok { s with ctx, log := s.log ++ [.cleared d.trunc] }
    | .error fault _ => .error fault
  | .deliver fd, s =>
    if s.running.isSome then .ok s
    else
      match deliverTimer s.ctx.world.events.manager fd s.ctx with
      | .ok none ctx => .ok { s with ctx }
      | .ok (some (event, false)) ctx =>
        .ok { s with ctx, log := s.log ++ [.delivered event.id none] }
      | .ok (some (event, true)) ctx =>
        match ctx.stack with
        | [] => .error .undefinedBehaviour
        | f :: stack => .ok
          { ctx := { ctx with stack, calls := ctx.calls ++ [(f, [])] }
            running := some event
            log := s.log ++ [.delivered event.id (some f)] }
      | .error fault _ => .error fault
  | .finish v, s =>
    match s.running with
    | none => .ok s
    | some event =>
      match finishTimer event v s.ctx with
      | .ok _ ctx => .ok { ctx, running := none, log := s.log ++ [.finished event.id] }
      | .error fault _ => .error fault

/-- Descriptors are numbers from 0 on; the kernel never gives the largest `int`. -/
def IsFd (fd : ℤ) : Prop := 0 ≤ fd ∧ fd < 2 ^ 31 - 1

/-- A timer is set with a function, and the kernel gives a descriptor that is not open. What is
cleared is a number. -/
def TimerAction.Ok (a : TimerAction) (s : TimerState) : Prop :=
  match a with
  | .setTimeout f _ => f.isFunction = true ∧ ∃ fd, IsFd fd ∧ fd ∉ s.ctx.world.events.opened
      ∧ s.ctx.world.events.sched s.ctx.world.events.syscalls = some fd
  | .clearTimeout d => d.isNaN = false
  | .deliver _ => True
  | .finish _ => True

/-- A timer was created with a callback, has not been cleared since, and its callback has not
finished. -/
def Pending (log : List TimerEvent) (id : ℤ) (f : JsVal) : Prop :=
  Since (· = .created id f) (fun e => e ≠ .cleared id ∧ e ≠ .finished id) log

/-- `duk_timers_register` was called, and no timer was set yet. -/
structure TimerState.Fresh (s : TimerState) : Prop where
  timered : Timered s.ctx
  callbacks : s.ctx.callbacks = []
  epoll : s.ctx.world.events.epoll = []
  willing : ∀ n, (s.ctx.world.events.sched n).isSome = true
  inherited : ∀ i, (s.ctx.engine.inherited (.ref callbacksRef) (decimal i)).isFunction = false
  room : s.ctx.stack.length + 3 ≤ s.ctx.reserve
  running : s.running = none
  log : s.log = []

end Machine

section Invariant

/-- The timers whose event was delivered. -/
def TimerEvent.delivered? : TimerEvent → Option ℤ
  | .delivered id _ => some id
  | _ => none

/-- What the main loop has on its stack while a callback runs. -/
def TimerState.frame (s : TimerState) : List JsVal :=
  if s.running.isSome then [.ref callbacksRef, .ref stashRef] else []

/-- Every event called exactly the callback that was pending. -/
def Exact (log : List TimerEvent) : Prop :=
  ∀ i id called, log[i]? = some (.delivered id called) →
    ∀ f, called = some f ↔ Pending (log.take i) id f

/-- A registration is one-shot and has a live record, and its event has not been delivered while it
is armed. -/
def Registered (e : Events) (log : List TimerEvent) (r : ℤ × Registration) : Prop :=
  r.1 ∈ e.opened ∧ IsFd r.1 ∧ r.2.oneshot = true
    ∧ e.records.get? r.2.event = some ⟨.timer, r.1, none⟩
    ∧ (r.2.armed = true → r.1 ∉ log.filterMap TimerEvent.delivered?)

structure TimersInv (s : TimerState) : Prop where
  timered : Timered s.ctx
  willing : ∀ n, (s.ctx.world.events.sched n).isSome = true
  inherited : ∀ i, (s.ctx.engine.inherited (.ref callbacksRef) (decimal i)).isFunction = false
  stack : ∃ st, s.ctx.stack = s.frame ++ st ∧ st.length + 3 ≤ s.ctx.reserve
  running : ∀ event, s.running = some event → event.type = .timer ∧ IsFd event.id
  keys : (s.ctx.world.events.epoll.map Prod.fst).Nodup
  registered : ∀ r ∈ s.ctx.world.events.epoll, Registered s.ctx.world.events s.log r
  created : ∀ id f, .created id f ∈ s.log →
    id ∈ s.ctx.world.events.opened ∧ IsFd id ∧ f.isFunction = true
  delivered : ∀ id ∈ s.log.filterMap TimerEvent.delivered?, id ∈ s.ctx.world.events.opened
  table : ∀ key f, Assoc.get? s.ctx.callbacks key = some f
    ↔ ∃ id, key = decimal (toUarridx id) ∧ Pending s.log id f
  once : (s.log.filterMap TimerEvent.delivered?).Nodup
  calls : Exact s.log

variable {log : List TimerEvent} {id : ℤ} {f : JsVal}

theorem Pending.created (h : Pending log id f) : .created id f ∈ log := by
  obtain ⟨e, he, rfl⟩ := h.exists_start
  exact he

theorem pending_concat {e : TimerEvent} : Pending (log ++ [e]) id f ↔
    e = .created id f ∨ (e ≠ .cleared id ∧ e ≠ .finished id) ∧ Pending log id f :=
  since_concat

theorem toUarridx_of_isFd {fd : ℤ} (h : IsFd fd) : (toUarridx fd : ℤ) = fd := by
  obtain ⟨h1, h2⟩ := h
  unfold toUarridx
  omega

theorem decimal_toUarridx {fd fd' : ℤ} (h : IsFd fd) (h' : IsFd fd') :
    decimal (toUarridx fd) = decimal (toUarridx fd') ↔ fd = fd' := by
  refine ⟨fun heq => ?_, fun heq => by rw [heq]⟩
  rw [← toUarridx_of_isFd h, ← toUarridx_of_isFd h', decimal_injective heq]

/-- A number names the timer that is its integer part, if any: no timer is named by a number beyond
the range of an `int`. -/
theorem decimal_toCInt {d : Double} (hd : d.isNaN = false) {fd : ℤ} (h : IsFd fd) :
    decimal (toUarridx d.toCInt) = decimal (toUarridx fd) ↔ d.trunc = fd := by
  obtain ⟨h1, h2⟩ := h
  have hint : d.toCInt = max (-2 ^ 31) (min (2 ^ 31 - 1) d.trunc) := by
    rw [Double.toCInt, hd]
    rfl
  constructor
  · intro heq
    have hidx := decimal_injective heq
    rw [hint] at hidx
    unfold toUarridx at hidx
    omega
  · intro heq
    rw [hint, heq]
    congr 2
    omega

/-- An event that is no delivery. -/
theorem Exact.concat (h : Exact log) {e : TimerEvent} (he : e.delivered? = none) :
    Exact (log ++ [e]) := by
  intro i id called hi f
  rcases Nat.lt_or_ge i log.length with hlt | hge
  · rw [List.getElem?_append_left hlt] at hi
    rw [List.take_append_of_le_length hlt.le]
    exact h i id called hi f
  · rw [List.getElem?_append_right hge, List.getElem?_singleton] at hi
    split_ifs at hi
    simp only [Option.some.injEq] at hi
    rw [hi] at he
    cases he

theorem Exact.concat_delivered (h : Exact log) {called : Option JsVal}
    (hcalled : ∀ f, called = some f ↔ Pending log id f) :
    Exact (log ++ [TimerEvent.delivered id called]) := by
  intro i id' called' hi f
  rcases Nat.lt_or_ge i log.length with hlt | hge
  · rw [List.getElem?_append_left hlt] at hi
    rw [List.take_append_of_le_length hlt.le]
    exact h i id' called' hi f
  · rw [List.getElem?_append_right hge, List.getElem?_singleton] at hi
    split_ifs at hi with hzero
    simp only [Option.some.injEq, TimerEvent.delivered.injEq] at hi
    obtain ⟨rfl, rfl⟩ := hi
    rw [List.take_left' (by omega)]
    exact hcalled f

theorem delivered_concat {e : TimerEvent} (he : e.delivered? = none) :
    (log ++ [e]).filterMap TimerEvent.delivered? = log.filterMap TimerEvent.delivered? := by
  simp [he]

theorem Registered.concat {e : Events} {r : ℤ × Registration} (h : Registered e log r)
    {event : TimerEvent} (he : event.delivered? = none) : Registered e (log ++ [event]) r := by
  obtain ⟨hopened, hfd, honeshot, hrecord, hdelivered⟩ := h
  exact ⟨hopened, hfd, honeshot, hrecord, by rwa [delivered_concat he]⟩

theorem Registered.addTimer {e : Events} {r : ℤ × Registration} (h : Registered e log r) (fd : ℤ)
    (n : ℕ) : Registered (e.addTimer fd none n) log r := by
  obtain ⟨hopened, hfd, honeshot, hrecord, hdelivered⟩ := h
  refine ⟨List.mem_cons_of_mem _ hopened, hfd, honeshot, ?_, hdelivered⟩
  unfold Events.addTimer
  rw [Heap.get?_update_of_ne _ (Nat.ne_of_lt (Heap.get?_lt hrecord)).symm]
  exact Heap.get?_alloc hrecord _

theorem registered_new {e : Events} {fd : ℤ} (hfd : IsFd fd)
    (hdelivered : fd ∉ log.filterMap TimerEvent.delivered?) (n : ℕ) :
    Registered (e.addTimer fd none n) log (fd, ⟨e.records.next, true, true⟩) := by
  refine ⟨List.mem_cons_self, hfd, rfl, ?_, fun _ => hdelivered⟩
  unfold Events.addTimer
  rw [Heap.get?_update_self, Heap.get?_alloc_next]
  rfl

/-- A delivery disarms the registration of the descriptor, which is the only one. -/
theorem Registered.fire {e : Events} {fd : ℤ} {p : ℕ} (hkeys : (e.epoll.map Prod.fst).Nodup)
    (h : ∀ r ∈ e.epoll, Registered e log r) (hmem : (fd, ⟨p, true, true⟩) ∈ e.epoll)
    (called : Option JsVal) : ∀ r ∈ (e.fire fd p).epoll,
      Registered (e.fire fd p) (log ++ [TimerEvent.delivered fd called]) r := by
  intro r hr
  obtain ⟨q, hq, rfl⟩ := List.mem_map.1 hr
  obtain ⟨hopened, hfd, honeshot, hrecord, hdelivered⟩ := h q hq
  split_ifs with heq
  · subst heq
    exact ⟨hopened, hfd, rfl, hrecord, by simp⟩
  · refine ⟨hopened, hfd, honeshot, hrecord, fun harmed => ?_⟩
    have hne : q.1 ≠ fd := fun hkey =>
      heq (List.inj_on_of_nodup_map hkeys hq hmem hkey)
    simpa [TimerEvent.delivered?, hne] using hdelivered harmed

theorem keys_fire (e : Events) (fd : ℤ) (p : ℕ) :
    (e.fire fd p).epoll.map Prod.fst = e.epoll.map Prod.fst := by
  unfold Events.fire
  rw [List.map_map]
  refine List.map_congr_left fun r _ => ?_
  rw [Function.comp_apply]
  split_ifs with hr
  · rw [hr]
  · rfl

variable {entry : ℕ} {s : TimerState}

/-- The table after a timer that was not there is set. -/
theorem table_put {ps : Props} (h : ∀ key f, Assoc.get? ps key = some f
      ↔ ∃ id, key = decimal (toUarridx id) ∧ Pending log id f)
    (hids : ∀ id f, .created id f ∈ log → IsFd id) {fd : ℤ} (hfd : IsFd fd)
    (hnew : ∀ f, .created fd f ∉ log) (f : JsVal) (key : Bytes) (g : JsVal) :
    Assoc.get? (Assoc.put ps (decimal (toUarridx fd)) f) key = some g
      ↔ ∃ id, key = decimal (toUarridx id) ∧ Pending (log ++ [TimerEvent.created fd f]) id g := by
  by_cases hkey : key = decimal (toUarridx fd)
  · subst hkey
    rw [Assoc.get?_put_self, Option.some.injEq]
    constructor
    · rintro rfl
      exact ⟨fd, rfl, pending_concat.2 (Or.inl rfl)⟩
    · rintro ⟨id, hid, hpending⟩
      rcases pending_concat.1 hpending with hcreated | ⟨-, hold⟩
      · simp only [TimerEvent.created.injEq] at hcreated
        exact hcreated.2
      · rw [decimal_toUarridx hfd (hids id g hold.created)] at hid
        exact absurd hold.created (hid ▸ hnew g)
  · rw [Assoc.get?_put_of_ne _ hkey, h]
    refine exists_congr fun id => and_congr_right fun hid => ?_
    rw [pending_concat]
    constructor
    · exact fun hold => Or.inr ⟨by simp, hold⟩
    · rintro (hcreated | ⟨-, hold⟩)
      · simp only [TimerEvent.created.injEq] at hcreated
        exact absurd (hcreated.1 ▸ hid) hkey
      · exact hold

/-- The table after the timer a number names is taken out. -/
theorem table_erase {ps : Props} (h : ∀ key f, Assoc.get? ps key = some f
      ↔ ∃ id, key = decimal (toUarridx id) ∧ Pending log id f)
    (hids : ∀ id f, .created id f ∈ log → IsFd id) {gone : Bytes} {e : TimerEvent}
    (hcreated : ∀ id f, e ≠ .created id f)
    (he : ∀ id, IsFd id → (gone ≠ decimal (toUarridx id) ↔ e ≠ .cleared id ∧ e ≠ .finished id))
    (key : Bytes) (f : JsVal) :
    Assoc.get? (Assoc.erase ps gone) key = some f
      ↔ ∃ id, key = decimal (toUarridx id) ∧ Pending (log ++ [e]) id f := by
  simp only [pending_concat, hcreated, false_or]
  by_cases hkey : key = gone
  · subst hkey
    rw [Assoc.get?_erase_self]
    constructor
    · exact fun hnone => absurd hnone (by simp)
    · rintro ⟨id, hid, hstay, hold⟩
      exact absurd hid ((he id (hids id f hold.created)).2 hstay)
  · rw [Assoc.get?_erase_of_ne _ hkey, h]
    refine exists_congr fun id => and_congr_right fun hid => ?_
    constructor
    · intro hold
      exact ⟨(he id (hids id f hold.created)).1 (hid ▸ Ne.symm hkey), hold⟩
    · exact fun hold => hold.2

end Invariant

section Steps

variable {entry : ℕ} {s : TimerState}

attribute [local simp] timerStep

theorem Timered.enter {c : Ctx Os} (h : Timered c) (this : JsVal) (args : List JsVal) :
    Timered (c.enter entry this args) := ⟨h.isInt, h.manager, h.callbacks⟩

/-- A script's call of `setTimeout` returns what `events_send_timeout` does. -/
theorem setTimeout_returns {c : Ctx Os} (hentry : DUK_API_ENTRY_STACK ≤ entry) (h : Timered c)
    (f t : JsVal) {r : ℤ} {e : Events}
    (hsend : eventsSendTimeout c.world.events.manager (intOf t) none c.world.events = (r, e)) :
    dukNative entry dukTimersSetTimeout .undefined [f, t] c
      = .ok (.ok (.number (.ofInt r))) ((c.withEvents e).withShared callbacksRef
        (Assoc.put c.callbacks (decimal (toUarridx r)) f)) := by
  have hentry : 64 ≤ entry := hentry
  have hrun := @dukTimersSetTimeout_run (c.enter entry .undefined [f, t]) (h.enter _ _)
    (by simp only [Ctx.enter, List.length_cons]; omega) f t r e hsend
  have hcall := @dukNative_top _ entry dukTimersSetTimeout .undefined [f, t] c _ hrun
  rw [Ctx.get_neg_one] at hcall
  exact hcall

theorem setTimeout_run {c : Ctx Os} (hentry : DUK_API_ENTRY_STACK ≤ entry) (h : Timered c) {fd : ℤ}
    (hopens : c.world.events.opens fd) (hfd : IsFd fd) (hunder : c.world.events.under fd = [])
    (f t : JsVal) :
    ∃ n, dukNative entry dukTimersSetTimeout .undefined [f, t] c
      = .ok (.ok (.number (.ofInt fd)))
        ((c.withEvents (c.world.events.addTimer fd none n)).withShared callbacksRef
          (Assoc.put c.callbacks (decimal (toUarridx fd)) f)) := by
  obtain ⟨n, hsend⟩ := eventsSendTimeout_ok hopens hfd.1 hunder (intOf t) none
  exact ⟨n, setTimeout_returns hentry h f t hsend⟩

/-- A script's call of `clearTimeout`. -/
theorem clearTimeout_run {c : Ctx Os} (hentry : DUK_API_ENTRY_STACK ≤ entry) (h : Timered c)
    (d : Double) : dukNative entry dukTimersClearTimeout .undefined [.number d] c
      = .ok (.ok .undefined) (c.withShared callbacksRef
        (Assoc.erase c.callbacks (decimal (toUarridx d.toCInt)))) := by
  have hentry : 64 ≤ entry := hentry
  have hrun := @dukTimersClearTimeout_ok (c.enter entry .undefined [.number d]) (h.enter _ _)
    (by simp only [Ctx.enter, List.length_cons]; omega) d
  exact @dukNative_undefined _ entry dukTimersClearTimeout .undefined [.number d] c _ hrun

theorem Timered.withEvents {c : Ctx Os} (h : Timered c) {e : Events}
    (he : e.manager = c.world.events.manager) : Timered (c.withEvents e) := by
  obtain ⟨hint, hmanager, hcallbacks⟩ := h
  rw [← he] at hint hmanager
  exact ⟨hint, hmanager, hcallbacks⟩

/-- The stash is another object than the callbacks. -/
theorem Timered.withShared {c : Ctx Os} (h : Timered c) (ps : Props) :
    Timered (c.withShared callbacksRef ps) := by
  have hstash : (c.withShared callbacksRef ps).store stashRef = c.store stashRef :=
    Function.update_of_ne (show stashRef ≠ callbacksRef by decide) ps c.store
  exact ⟨h.isInt, hstash ▸ h.manager, hstash ▸ h.callbacks⟩

theorem timerStep_setTimeout {f t : JsVal} {outcome : Except JsVal JsVal} {ctx : Ctx Os}
    (h : dukNative entry dukTimersSetTimeout .undefined [f, t] s.ctx = .ok outcome ctx) :
    timerStep entry (.setTimeout f t) s
      = .ok { s with ctx, log := s.log ++ created f outcome } := by
  simp [h]

theorem timerStep_clearTimeout {d : Double} {outcome : Except JsVal JsVal} {ctx : Ctx Os}
    (h : dukNative entry dukTimersClearTimeout .undefined [.number d] s.ctx = .ok outcome ctx) :
    timerStep entry (.clearTimeout d) s
      = .ok { s with ctx, log := s.log ++ [.cleared d.trunc] } := by
  simp [h]

theorem callbacks_withShared (c : Ctx Os) (ps : Props) :
    (c.withShared callbacksRef ps).callbacks = ps := by
  simp [Ctx.callbacks, Ctx.withShared]

theorem timersInv_setTimeout (hentry : DUK_API_ENTRY_STACK ≤ entry) (h : TimersInv s) {f : JsVal}
    (hf : f.isFunction = true) {fd : ℤ} (hfd : IsFd fd)
    (hnew : fd ∉ s.ctx.world.events.opened)
    (hsched : s.ctx.world.events.sched s.ctx.world.events.syscalls = some fd) (t : JsVal) :
    ∃ s', timerStep entry (.setTimeout f t) s = .ok s' ∧ TimersInv s' := by
  have hkeys : ∀ r ∈ s.ctx.world.events.epoll, r.1 ≠ fd := fun r hr heq =>
    hnew (heq ▸ (h.registered r hr).1)
  have hdelivered : fd ∉ s.log.filterMap TimerEvent.delivered? := fun hmem =>
    hnew (h.delivered fd hmem)
  obtain ⟨n, hrun⟩ := setTimeout_run hentry h.timered ⟨hsched, h.willing⟩ hfd (under_eq_nil.2 hkeys)
    f t
  have hid : (Double.ofInt fd).toCInt = fd :=
    Double.toCInt_ofInt ⟨by have := hfd.1; omega, by have := hfd.2; omega⟩
  have hlog : s.log ++ created f (.ok (.number (.ofInt fd)))
      = s.log ++ [TimerEvent.created fd f] := by
    rw [created, hid]
  have hstep := timerStep_setTimeout hrun
  rw [hlog] at hstep
  refine ⟨_, hstep, ?_, h.willing, h.inherited, h.stack, h.running, ?_, ?_, ?_, ?_, ?_, ?_,
    h.calls.concat rfl⟩
  · have htimered : Timered (s.ctx.withEvents (s.ctx.world.events.addTimer fd none n)) :=
      h.timered.withEvents rfl
    exact htimered.withShared _
  · show ((s.ctx.world.events.addTimer fd none n).epoll.map Prod.fst).Nodup
    exact Assoc.nodup_keys_concat _ h.keys hkeys
  · intro r hr
    rcases List.mem_append.1 hr with hr | hr
    · exact ((h.registered r hr).addTimer fd n).concat rfl
    · rw [List.mem_singleton.1 hr]
      exact (registered_new hfd hdelivered n).concat rfl
  · intro id g hcreated
    rcases List.mem_append.1 hcreated with hcreated | hcreated
    · obtain ⟨hopened, hid⟩ := h.created id g hcreated
      exact ⟨List.mem_cons_of_mem _ hopened, hid⟩
    · simp only [List.mem_singleton, TimerEvent.created.injEq] at hcreated
      obtain ⟨rfl, rfl⟩ := hcreated
      exact ⟨List.mem_cons_self, hfd, hf⟩
  · intro id hmem
    rw [delivered_concat rfl] at hmem
    exact List.mem_cons_of_mem _ (h.delivered id hmem)
  · rw [callbacks_withShared]
    exact table_put h.table (fun id g hg => (h.created id g hg).2.1) hfd
      (fun g hg => hnew (h.created fd g hg).1) f
  · rw [delivered_concat rfl]
    exact h.once

/-- Taking a callback out, with an event that is no reason for anything else. -/
theorem TimersInv.erase (h : TimersInv s) {gone : Bytes} {e : TimerEvent}
    (hcreated : ∀ id f, e ≠ .created id f) (hdelivered : e.delivered? = none)
    (he : ∀ id, IsFd id → (gone ≠ decimal (toUarridx id) ↔ e ≠ .cleared id ∧ e ≠ .finished id))
    {running : Option Event} (hrunning : ∀ event, running = some event → s.running = some event)
    {st : List JsVal} (hst : ∃ base : List JsVal, st = (if running.isSome then
      [JsVal.ref callbacksRef, JsVal.ref stashRef] else []) ++ base
        ∧ base.length + 3 ≤ s.ctx.reserve) :
    TimersInv ⟨(s.ctx.withShared callbacksRef (Assoc.erase s.ctx.callbacks gone)).withStack st,
      running, s.log ++ [e]⟩ := by
  have hids (id : ℤ) (f : JsVal) (hf : .created id f ∈ s.log) : IsFd id := (h.created id f hf).2.1
  refine ⟨?_, h.willing, h.inherited, hst,
    fun event hevent => h.running event (hrunning event hevent), h.keys,
    ?_, ?_, ?_, ?_, ?_, h.calls.concat hdelivered⟩
  · have := h.timered.withShared (Assoc.erase s.ctx.callbacks gone)
    exact ⟨this.isInt, this.manager, this.callbacks⟩
  · exact fun r hr => (h.registered r hr).concat hdelivered
  · intro id f hmem
    rcases List.mem_append.1 hmem with hmem | hmem
    · exact h.created id f hmem
    · exact absurd (List.mem_singleton.1 hmem).symm (hcreated id f)
  · intro id hmem
    rw [delivered_concat hdelivered] at hmem
    exact h.delivered id hmem
  · have hps := callbacks_withShared s.ctx (Assoc.erase s.ctx.callbacks gone)
    have htable := table_erase h.table hids hcreated he
    rw [← hps] at htable
    exact htable
  · rw [delivered_concat hdelivered]
    exact h.once

theorem timersInv_clearTimeout (hentry : DUK_API_ENTRY_STACK ≤ entry) (h : TimersInv s) {d : Double}
    (hd : d.isNaN = false) :
    ∃ s', timerStep entry (.clearTimeout d) s = .ok s' ∧ TimersInv s' := by
  refine ⟨_, timerStep_clearTimeout (clearTimeout_run hentry h.timered d), ?_⟩
  refine h.erase (by simp) rfl (fun id hid => ?_) (fun _ hevent => hevent) h.stack
  rw [Ne, decimal_toCInt hd hid]
  simp

/-- Nothing returns while no callback runs. -/
theorem timerStep_finish_idle (hrunning : s.running = none) (v : JsVal) :
    timerStep entry (.finish v) s = .ok s := by
  simp [hrunning]

/-- Nothing is waited for while a callback runs. -/
theorem timerStep_deliver_busy {event : Event} (hrunning : s.running = some event) (fd : ℤ) :
    timerStep entry (.deliver fd) s = .ok s := by
  simp [hrunning]

theorem timerStep_finish {event : Event} (hrunning : s.running = some event) {v : JsVal}
    {ctx : Ctx Os} (h : finishTimer event v s.ctx = .ok () ctx) :
    timerStep entry (.finish v) s
      = .ok { ctx, running := none, log := s.log ++ [.finished event.id] } := by
  simp [hrunning, h]

/-- The return of a callback takes it out of the table, and the frame of the handler off the
stack. -/
theorem finishTimer_run {c : Ctx Os} {st : List JsVal}
    (hst : c.stack = [JsVal.ref callbacksRef, JsVal.ref stashRef] ++ st) (event : Event)
    (v : JsVal) :
    finishTimer event v c = .ok () ((c.withShared callbacksRef
      (Assoc.erase c.callbacks (decimal (toUarridx event.id)))).withStack st) := by
  have hafter := @dukTimersAfterCall_ok c st event v (.ref stashRef) callbacksRef
  unfold finishTimer
  rw [dukResult, bind_ok (modify_run _ _), hst]
  exact hafter

theorem timersInv_finish (h : TimersInv s) (v : JsVal) :
    ∃ s', timerStep entry (.finish v) s = .ok s' ∧ TimersInv s' := by
  rcases hrunning : s.running with _ | event
  · exact ⟨s, timerStep_finish_idle hrunning v, h⟩
  · obtain ⟨htype, hid⟩ := h.running event hrunning
    obtain ⟨st, hst, hroom⟩ := h.stack
    rw [TimerState.frame, hrunning] at hst
    refine ⟨_, timerStep_finish hrunning (finishTimer_run hst event v), ?_⟩
    refine h.erase (by simp) rfl (fun id' hid' => ?_) (by simp) ⟨st, rfl, hroom⟩
    rw [Ne, decimal_toUarridx hid hid']
    simp

theorem deliverTimer_nothing {c : Ctx Os} {fd count : ℤ} {e : Events}
    (h : eventsWait c.world.events.manager [fd] 1 c.world.events = ((count, []), e)) :
    deliverTimer c.world.events.manager fd c = .ok none (c.withEvents e) := by
  unfold deliverTimer
  rw [bind_ok (onEvents_run h)]
  rfl

theorem deliverTimer_event {c c' : Ctx Os} {fd count : ℤ} {p : ℕ} {event : Event} {e : Events}
    {called : Bool}
    (h : eventsWait c.world.events.manager [fd] 1 c.world.events = ((count, [p]), e))
    (hrecord : e.records.get? p = some event)
    (hbefore : dukTimersBeforeCall event (c.withEvents e) = .ok called c') :
    deliverTimer c.world.events.manager fd c = .ok (some (event, called)) c' := by
  have hread := @readEvent_ok (c.withEvents e) p event hrecord
  unfold deliverTimer
  rw [bind_ok (onEvents_run h)]
  simp only [List.head?_cons]
  rw [bind_ok hread, bind_ok hbefore]
  rfl

theorem timerStep_nothing (hrunning : s.running = none) {fd : ℤ} {ctx : Ctx Os}
    (h : deliverTimer s.ctx.world.events.manager fd s.ctx = .ok none ctx) :
    timerStep entry (.deliver fd) s = .ok { s with ctx } := by
  simp [hrunning, h]

theorem timerStep_uncalled (hrunning : s.running = none) {fd : ℤ} {event : Event} {ctx : Ctx Os}
    (h : deliverTimer s.ctx.world.events.manager fd s.ctx = .ok (some (event, false)) ctx) :
    timerStep entry (.deliver fd) s
      = .ok { s with ctx, log := s.log ++ [.delivered event.id none] } := by
  simp [hrunning, h]

theorem timerStep_called (hrunning : s.running = none) {fd : ℤ} {event : Event} {c : Ctx Os}
    {f : JsVal} {st : List JsVal} (h : deliverTimer s.ctx.world.events.manager fd s.ctx
      = .ok (some (event, true)) (c.withStack (f :: st))) :
    timerStep entry (.deliver fd) s = .ok
      { ctx := { c.withStack st with calls := c.calls ++ [(f, [])] }
        running := some event
        log := s.log ++ [.delivered event.id (some f)] } := by
  simp only [timerStep, hrunning, h]
  rfl

/-- The event of an armed timer: what is under its descriptor is called, if it can be. -/
theorem timerStep_fire (h : Timered s.ctx) (hrunning : s.running = none) {st : List JsVal}
    (hst : s.ctx.stack = st) (hroom : st.length + 3 ≤ s.ctx.reserve) {fd : ℤ} {p : ℕ}
    {event : Event} (hwait : eventsWait s.ctx.world.events.manager [fd] 1 s.ctx.world.events
      = ((1, [p]), s.ctx.world.events.fire fd p))
    (hrecord : s.ctx.world.events.records.get? p = some event) (htype : event.type = .timer)
    {v : JsVal} (hv : s.ctx.prop (.ref callbacksRef) (decimal (toUarridx event.id)) = some v) :
    timerStep entry (.deliver fd) s = .ok (if v.isFunction then
      { ctx := { (s.ctx.withEvents (s.ctx.world.events.fire fd p)).withStack
            ([.ref callbacksRef, .ref stashRef] ++ st) with calls := s.ctx.calls ++ [(v, [])] }
        running := some event
        log := s.log ++ [.delivered event.id (some v)] }
    else { s with
      ctx := s.ctx.withEvents (s.ctx.world.events.fire fd p)
      log := s.log ++ [.delivered event.id none] }) := by
  have hctx : s.ctx.withEvents (s.ctx.world.events.fire fd p)
      = (s.ctx.withEvents (s.ctx.world.events.fire fd p)).withStack st := by
    rw [← hst]
    rfl
  have htimered : Timered (s.ctx.withEvents (s.ctx.world.events.fire fd p)) := h.withEvents rfl
  have hbefore := @dukTimersBeforeCall_run _ st htimered hroom event htype v hv
  rw [← hctx] at hbefore
  by_cases hfun : v.isFunction = true
  · simp only [hfun] at hbefore
    rw [if_pos hfun, timerStep_called hrunning (deliverTimer_event hwait hrecord hbefore)]
    rfl
  · simp only [Bool.not_eq_true] at hfun
    simp only [hfun] at hbefore
    rw [if_neg (by simp [hfun]), timerStep_uncalled hrunning (deliverTimer_event hwait hrecord
      (hbefore.trans (congrArg _ hctx.symm)))]

/-- What a delivery keeps, whatever it calls: `ctx` is the context after it. -/
theorem TimersInv.deliver (h : TimersInv s) {fd : ℤ} {p : ℕ}
    (hmem : (fd, ⟨p, true, true⟩) ∈ s.ctx.world.events.epoll) {ctx : Ctx Os}
    {running : Option Event} {called : Option JsVal}
    (hworld : ctx.world = { s.ctx.world with events := s.ctx.world.events.fire fd p })
    (hstore : ctx.store = s.ctx.store) (hengine : ctx.engine = s.ctx.engine)
    (hreserve : ctx.reserve = s.ctx.reserve)
    (hstack : ∃ st : List JsVal, ctx.stack = (if running.isSome then
      [JsVal.ref callbacksRef, JsVal.ref stashRef] else []) ++ st
        ∧ st.length + 3 ≤ s.ctx.reserve)
    (hrunning : ∀ event, running = some event → event.type = .timer ∧ IsFd event.id)
    (hcalled : ∀ f, called = some f ↔ Pending s.log fd f) :
    TimersInv ⟨ctx, running, s.log ++ [TimerEvent.delivered fd called]⟩ := by
  obtain ⟨engine, stack, reserve, this, store, world, calls⟩ := ctx
  obtain rfl : world = _ := hworld
  obtain rfl : store = _ := hstore
  obtain rfl : engine = _ := hengine
  obtain rfl : reserve = _ := hreserve
  have hfired := Registered.fire h.keys h.registered hmem called
  have hlog : (s.log ++ [TimerEvent.delivered fd called]).filterMap TimerEvent.delivered?
      = s.log.filterMap TimerEvent.delivered? ++ [fd] := by
    simp [TimerEvent.delivered?]
  refine ⟨⟨h.timered.isInt, h.timered.manager, h.timered.callbacks⟩, h.willing, h.inherited, hstack,
    hrunning, ?_, hfired, ?_, ?_, ?_, ?_, h.calls.concat_delivered hcalled⟩
  · rw [keys_fire]
    exact h.keys
  · intro id f hcreated
    refine h.created id f ?_
    simpa using hcreated
  · intro id hid
    rw [hlog] at hid
    rcases List.mem_append.1 hid with hid | hid
    · exact h.delivered id hid
    · rw [List.mem_singleton.1 hid]
      exact (h.registered _ hmem).1
  · intro key f
    refine (h.table key f).trans (exists_congr fun id => and_congr_right fun _ => ?_)
    rw [pending_concat]
    simp
  · rw [hlog, List.nodup_append]
    refine ⟨h.once, List.nodup_singleton _, ?_⟩
    intro a ha b hb heq
    obtain ⟨-, -, -, -, hdelivered⟩ := h.registered _ hmem
    exact hdelivered rfl (List.mem_singleton.1 hb ▸ heq ▸ ha)

theorem TimersInv.tick (h : TimersInv s) :
    TimersInv { s with ctx := s.ctx.withEvents s.ctx.world.events.tick } :=
  ⟨⟨h.timered.isInt, h.timered.manager, h.timered.callbacks⟩, h.willing, h.inherited, h.stack,
    h.running, h.keys, h.registered, h.created, h.delivered, h.table, h.once, h.calls⟩

/-- An event of a descriptor that is armed calls the callback that is pending, if any. -/
theorem timersInv_fire (h : TimersInv s) (hrunning : s.running = none) {fd : ℤ} {p : ℕ}
    (hmem : (fd, ⟨p, true, true⟩) ∈ s.ctx.world.events.epoll) :
    ∃ s', timerStep entry (.deliver fd) s = .ok s' ∧ TimersInv s' := by
  obtain ⟨-, hfd, -, hrecord, -⟩ := h.registered _ hmem
  obtain ⟨st, hst, hroom⟩ := h.stack
  rw [TimerState.frame, hrunning] at hst
  have hst : s.ctx.stack = st := hst
  have hwait := eventsWait_oneshot (h.willing _) (filter_eq_singleton h.keys hmem)
  have hprop := prop_callback s.ctx (decimal (toUarridx fd))
  have hstep := @timerStep_fire entry s h.timered hrunning st hst hroom fd p ⟨.timer, fd, none⟩
    hwait hrecord rfl _ hprop
  rcases hget : Assoc.get? s.ctx.callbacks (decimal (toUarridx fd)) with _ | f
  · rw [hget, Option.getD_none, if_neg (by simp [h.inherited])] at hstep
    refine ⟨_, hstep, h.deliver hmem rfl rfl rfl rfl ⟨st, ?_, hroom⟩ ?_ ?_⟩
    · rw [hrunning]
      exact hst
    · rw [hrunning]
      simp
    · intro f
      refine ⟨fun hf => absurd hf (by simp), fun hpending => ?_⟩
      rw [(h.table _ f).2 ⟨fd, rfl, hpending⟩] at hget
      cases hget
  · obtain ⟨id, hid, hpending⟩ := (h.table _ f).1 hget
    rw [decimal_toUarridx hfd (h.created id f hpending.created).2.1] at hid
    subst hid
    have hfun := (h.created fd f hpending.created).2.2
    rw [hget, Option.getD_some, if_pos hfun] at hstep
    refine ⟨_, hstep, h.deliver hmem rfl rfl rfl rfl ⟨st, rfl, hroom⟩ ?_ ?_⟩
    · intro event hevent
      simp only [Option.some.injEq] at hevent
      exact hevent ▸ ⟨rfl, hfd⟩
    · intro g
      rw [Option.some.injEq]
      refine ⟨fun hg => hg ▸ hpending, fun hg => ?_⟩
      have := (h.table _ g).2 ⟨fd, rfl, hg⟩
      rw [hget, Option.some.injEq] at this
      exact this

theorem timersInv_deliver (h : TimersInv s) (fd : ℤ) :
    ∃ s', timerStep entry (.deliver fd) s = .ok s' ∧ TimersInv s' := by
  rcases hrunning : s.running with _ | event
  · by_cases harmed : ∃ p, (fd, ⟨p, true, true⟩) ∈ s.ctx.world.events.epoll
    · obtain ⟨p, hmem⟩ := harmed
      exact timersInv_fire h hrunning hmem
    · have hnone : ∀ r ∈ s.ctx.world.events.under fd, r.2.armed = false := by
        rintro ⟨fd', p, oneshot, armed⟩ hr
        obtain ⟨hmem, rfl⟩ := mem_under.1 hr
        obtain ⟨-, -, honeshot, -⟩ := h.registered _ hmem
        obtain rfl : oneshot = true := honeshot
        rw [← Bool.not_eq_true]
        rintro rfl
        exact harmed ⟨p, hmem⟩
      exact ⟨_, timerStep_nothing hrunning
        (deliverTimer_nothing (eventsWait_none (h.willing _) hnone)), h.tick⟩
  · exact ⟨s, timerStep_deliver_busy hrunning fd, h⟩

theorem timersInv_step (hentry : DUK_API_ENTRY_STACK ≤ entry) (a : TimerAction) (s : TimerState)
    (ha : a.Ok s) (h : TimersInv s) : ∃ s', timerStep entry a s = .ok s' ∧ TimersInv s' := by
  cases a with
  | setTimeout f t =>
    obtain ⟨hf, fd, hfd, hnew, hsched⟩ := ha
    exact timersInv_setTimeout hentry h hf hfd hnew hsched t
  | clearTimeout d => exact timersInv_clearTimeout hentry h ha
  | deliver fd => exact timersInv_deliver h fd
  | finish v => exact timersInv_finish h v

theorem timersInv_fresh (h : s.Fresh) : TimersInv s := by
  obtain ⟨ctx, running, log⟩ := s
  obtain ⟨htimered, hcallbacks, hepoll, hwilling, hinherited, hroom, rfl, rfl⟩ := h
  have hcallbacks : ctx.callbacks = [] := hcallbacks
  have hepoll : ctx.world.events.epoll = [] := hepoll
  refine ⟨htimered, hwilling, hinherited, ⟨ctx.stack, rfl, hroom⟩, by simp, ?_, ?_, by simp,
    by simp, ?_, List.nodup_nil, ?_⟩
  · simp [hepoll]
  · simp [hepoll]
  · intro key f
    simp only [hcallbacks]
    constructor
    · exact fun hnone => absurd hnone (by simp [Assoc.get?])
    · rintro ⟨id, -, hpending⟩
      exact absurd hpending not_since_nil
  · intro i id called hi
    simp at hi

end Steps

section Sound

variable {entry : ℕ} {s : TimerState}

/-- The timers whose callback was started. -/
def TimerEvent.started? : TimerEvent → Option ℤ
  | .delivered id (some _) => some id
  | _ => none

/-- The callbacks of the stash have an entry under a number exactly while the timer is pending, each
event called exactly the callback that was pending, and no callback was started twice. -/
structure TimersSound (s : TimerState) : Prop where
  timered : Timered s.ctx
  table : ∀ key f, Assoc.get? s.ctx.callbacks key = some f
    ↔ ∃ id : ℕ, key = decimal id ∧ Pending s.log id f
  calls : ∀ i id called, s.log[i]? = some (.delivered id called) →
    ∀ f, called = some f ↔ Pending (s.log.take i) id f
  once : (s.log.filterMap TimerEvent.started?).Nodup

theorem started_sublist (log : List TimerEvent) :
    (log.filterMap TimerEvent.started?).Sublist (log.filterMap TimerEvent.delivered?) := by
  induction log with
  | nil => exact List.Sublist.refl _
  | cons e log ih =>
    rcases e with ⟨id, f⟩ | n | ⟨id, _ | f⟩ | id
    · exact ih
    · exact ih
    · exact ih.trans (List.sublist_cons_self _ _)
    · exact ih.cons_cons id
    · exact ih

theorem TimersInv.sound (h : TimersInv s) : TimersSound s := by
  refine ⟨h.timered, fun key f => ?_, h.calls, h.once.sublist (started_sublist _)⟩
  rw [h.table]
  constructor
  · rintro ⟨id, rfl, hpending⟩
    have hid := (h.created id f hpending.created).2.1
    refine ⟨toUarridx id, rfl, ?_⟩
    rwa [toUarridx_of_isFd hid]
  · rintro ⟨id, rfl, hpending⟩
    have hid := (h.created id f hpending.created).2.1
    refine ⟨id, ?_, hpending⟩
    have := toUarridx_of_isFd hid
    congr 1
    omega

/-- In every state that actions lead to, the table has the pending timers, and events have called
what was pending, each at most once. -/
theorem timersSound (hentry : DUK_API_ENTRY_STACK ≤ entry) (hs : s.Fresh) (as : List TimerAction)
    (has : Run.Allowed (timerStep entry) TimerAction.Ok as s) :
    ∃ s', Run.run (timerStep entry) as s = .ok s' ∧ TimersSound s' := by
  obtain ⟨s', hrun, h⟩ := Run.run_inv (timersInv_step hentry) as s has (timersInv_fresh hs)
  exact ⟨s', hrun, h.sound⟩

/-- The context of a program that has not set a timer, with calls that all succeed. -/
def timersCtx : Ctx Os :=
  { Ctx.bare 64 ⟨⟨3, [], Heap.empty, [], [], fun _ => some 5, 0⟩, Heap.empty, Heap.empty,
      ⟨[], fun _ => .zero, []⟩, ⟨[], fun _ => .zero, []⟩⟩ with
    store := fun r => if r = stashRef then
      [(timersEventsManager, .number (.ofInt 3)), (timeoutCallbacks, .ref callbacksRef)] else [] }

theorem fresh_timersCtx : (⟨timersCtx, none, []⟩ : TimerState).Fresh :=
  ⟨⟨⟨by decide, by decide⟩, rfl, rfl⟩, rfl, rfl, fun _ => rfl, fun _ => rfl, by decide, rfl, rfl⟩

/-- A callback that clears its own timer. -/
theorem timersSound_self : ∃ s', Run.run (timerStep 64)
    [.setTimeout (.function 0 []) .undefined, .deliver 5, .clearTimeout (.ofInt 5),
      .finish .undefined] ⟨timersCtx, none, []⟩ = .ok s' ∧ TimersSound s' := by
  refine @timersSound 64 ⟨timersCtx, none, []⟩ (le_refl _) fresh_timersCtx _ ?_
  refine ⟨⟨rfl, 5, ⟨by decide, by decide⟩, by decide, rfl⟩, fun _ _ => ⟨trivial, fun _ _ => ?_⟩⟩
  exact ⟨Double.isNaN_ofInt (by decide), fun _ _ => ⟨trivial, fun _ _ => trivial⟩⟩

end Sound

end Erlm
