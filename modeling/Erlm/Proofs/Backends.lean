import Erlm.Kqueue
import Erlm.Lib.Run
import Erlm.Proofs.Events

/-!
# The two halves of `events.c`

The calls about descriptors on Linux and on a kqueue. As long as a descriptor has one registration
at most, which is unsubscribed as what it is, and no READ event is freed, the two cannot be told
apart (`backends_agree`).
-/

namespace Erlm

section Calls

/-- A call about descriptors; `ready` is what the descriptors are ready for when a wait returns. -/
inductive BackendCall
  | subscribeRead (fd : ℤ) (data : Option ℕ)
  | subscribeWrite (fd : ℤ) (data : Option ℕ)
  | unsubscribe (event : ℕ)
  | wait (ready : List (ℤ × Direction)) (max_events : ℕ)
  | free (event : ℕ)
  deriving Repr, DecidableEq

/-- The layer on Linux and what each registration is for, with the results of the calls and the
events the waits returned. -/
structure OnLinux where
  events : Events
  interest : ℤ → Direction
  results : List ℤ
  delivered : List (Option Event)

structure OnKqueue where
  kqueue : Kqueue
  results : List ℤ
  delivered : List (Option Event)

/-- The descriptors that are ready for what they are registered for. -/
def OnLinux.ready (s : OnLinux) (ready : List (ℤ × Direction)) : List ℤ :=
  (ready.filter fun r => r.2 = s.interest r.1).map Prod.fst

/-- A descriptor that is registered gets the interest of its registration. -/
def OnLinux.subscribe (s : OnLinux) (type : EventType) (direction : Direction) (fd : ℤ)
    (data : Option ℕ) : OnLinux :=
  let (result, e) := eventsSubscribe type s.events.manager fd data s.events
  { s with
    events := e
    interest := if result = -1 then s.interest else Function.update s.interest fd direction
    results := s.results ++ [result] }

def OnLinux.step : BackendCall → OnLinux → Except Fault OnLinux
  | .subscribeRead fd data, s => .ok (s.subscribe .read .input fd data)
  | .subscribeWrite fd data, s => .ok (s.subscribe .write .output fd data)
  | .unsubscribe p, s =>
    match s.events.records.get? p with
    | none => .error .undefinedBehaviour
    | some event => .ok { s with
        events := (eventsUnsubscribe s.events.manager event s.events).2 }
  | .wait ready max_events, s =>
    let ((result, events), e) :=
      eventsWait s.events.manager (s.ready ready) max_events s.events
    .ok { s with
      events := e
      results := s.results ++ [result]
      delivered := s.delivered ++ events.map e.records.get? }
  | .free p, s =>
    match s.events.records.get? p with
    | none => .error .undefinedBehaviour
    | some event => .ok { s with events := (eventsFree p event s.events).2 }

def OnKqueue.subscribe (t : OnKqueue) (type : EventType) (direction : Direction) (fd : ℤ)
    (data : Option ℕ) : OnKqueue :=
  let (result, k) := Kqueue.eventsSubscribe type direction t.kqueue.manager fd data t.kqueue
  { t with kqueue := k, results := t.results ++ [result] }

def OnKqueue.step : BackendCall → OnKqueue → Except Fault OnKqueue
  | .subscribeRead fd data, t => .ok (t.subscribe .read .input fd data)
  | .subscribeWrite fd data, t => .ok (t.subscribe .write .output fd data)
  | .unsubscribe p, t =>
    match t.kqueue.records.get? p with
    | none => .error .undefinedBehaviour
    | some event => .ok { t with
        kqueue := (Kqueue.eventsUnsubscribe t.kqueue.manager event t.kqueue).2 }
  | .wait ready max_events, t =>
    let ((result, events), k) :=
      Kqueue.eventsWait t.kqueue.manager ready max_events t.kqueue
    .ok { t with
      kqueue := k
      results := t.results ++ [result]
      delivered := t.delivered ++ events.map k.records.get? }
  | .free p, t =>
    match t.kqueue.records.get? p with
    | none => .error .undefinedBehaviour
    | some event => .ok { t with kqueue := (Kqueue.eventsFree p event t.kqueue).2 }

def OnLinux.start (manager : ℤ) (sched : ℕ → Option ℤ) : OnLinux :=
  ⟨⟨manager, [], Heap.empty, [], [], sched, 0⟩, fun _ => .input, [], []⟩

def OnKqueue.start (manager : ℤ) (sched : ℕ → Option ℤ) : OnKqueue :=
  ⟨⟨manager, [], Heap.empty, [], sched, 0⟩, [], []⟩

def Event.direction (event : Event) : Direction :=
  if event.type = .read then .input else .output

/-- A descriptor is registered once at a time and the kernel lets it through, what is unsubscribed
is not registered for something else, and no READ event is freed. -/
def BackendCall.Ok : BackendCall → OnLinux → Prop
  | .subscribeRead fd _, s => s.events.admits s.events.manager fd ∧ 0 ≤ fd
  | .subscribeWrite fd _, s => s.events.admits s.events.manager fd ∧ 0 ≤ fd
  | .unsubscribe p, s => ∃ event, s.events.records.get? p = some event
    ∧ (s.events.under event.id ≠ [] → s.interest event.id = event.direction)
  | .wait _ _, _ => True
  | .free p, s => ∃ event, s.events.records.get? p = some event ∧ event.type ≠ .read

/-- The results, the events and the closed descriptors are the same. -/
structure Agree (s : OnLinux) (t : OnKqueue) : Prop where
  results : t.results = s.results
  delivered : t.delivered = s.delivered
  closed : t.kqueue.closed = s.events.closed

end Calls

section Simulation

/-- The queue is the epoll set with the interests as filters. -/
structure Sim (s : OnLinux) (t : OnKqueue) : Prop where
  agree : Agree s t
  queue : t.kqueue.queue = s.events.epoll.map fun r => ((r.1, s.interest r.1), r.2.event)
  level : ∀ r ∈ s.events.epoll, r.2.oneshot = false ∧ r.2.armed = true
  records : t.kqueue.records = s.events.records
  types : ∀ p event, s.events.records.get? p = some event →
    event.type = .read ∨ event.type = .write
  sched : t.kqueue.sched = s.events.sched
  syscalls : t.kqueue.syscalls = s.events.syscalls

variable {s : OnLinux} {t : OnKqueue}

theorem sim_start (manager manager' : ℤ) (sched : ℕ → Option ℤ) :
    Sim (OnLinux.start manager sched) (OnKqueue.start manager' sched) := by
  refine ⟨⟨rfl, rfl, rfl⟩, rfl, fun _ h => ?_, rfl, fun p event h => ?_, rfl, rfl⟩
  · cases h
  · exact absurd (Heap.get?_lt h) (Nat.not_lt_zero p)

theorem kqueueM_bind {α β : Type} (m : KqueueM α) (f : α → KqueueM β) (k : Kqueue) :
    (m >>= f) k = f (m k).1 (m k).2 := rfl

theorem Kqueue.eventsSubscribe_ok {k : Kqueue} (hwilling : (k.sched k.syscalls).isSome = true)
    {direction : Direction} {fd : ℤ} (hnone : Assoc.get? k.queue (fd, direction) = none)
    (type : EventType) (data : Option ℕ) :
    Kqueue.eventsSubscribe type direction k.manager fd data k = (fd, { k with
      queue := k.queue ++ [((fd, direction), k.records.next)]
      records := k.records.alloc ⟨type, fd, data⟩
      syscalls := k.syscalls + 1 }) := by
  have hadd : keventAdd k.manager fd direction k.records.next
      { k with records := k.records.alloc ⟨type, fd, data⟩ } = ((), { k with
        queue := k.queue ++ [((fd, direction), k.records.next)]
        records := k.records.alloc ⟨type, fd, data⟩
        syscalls := k.syscalls + 1 }) := by
    rw [← Assoc.put_of_get?_none k.records.next hnone]
    unfold keventAdd
    rw [kqueueM_bind]
    have hcond : (k.sched k.syscalls).isSome ∧ k.manager = k.manager := ⟨hwilling, rfl⟩
    exact congrArg (Prod.mk ()) (if_pos hcond)
  unfold Kqueue.eventsSubscribe mallocEvent
  rw [kqueueM_bind, kqueueM_bind]
  simp only [hadd]
  rfl

/-- A descriptor without a registration is not in the queue. -/
theorem Sim.notMem_queue (h : Sim s t) {fd : ℤ} (hunder : s.events.under fd = [])
    (direction : Direction) : Assoc.get? t.kqueue.queue (fd, direction) = none := by
  rw [Option.eq_none_iff_forall_ne_some]
  intro p hp
  have hmem := Assoc.get?_mem hp
  rw [h.queue] at hmem
  obtain ⟨r, hr, heq⟩ := List.mem_map.1 hmem
  have hfd : r.1 = fd := congrArg (fun x => x.1.1) heq
  exact under_eq_nil.1 hunder r hr hfd

theorem OnLinux.subscribe_ok {fd : ℤ} (hfd : 0 ≤ fd)
    (hadmits : s.events.admits s.events.manager fd) (type : EventType) (direction : Direction)
    (data : Option ℕ) : s.subscribe type direction fd data = { s with
      events := { s.events with
        epoll := s.events.epoll ++ [(fd, ⟨s.events.records.next, false, true⟩)]
        records := s.events.records.alloc ⟨type, fd, data⟩
        syscalls := s.events.syscalls + 1 }
      interest := Function.update s.interest fd direction
      results := s.results ++ [fd] } := by
  unfold OnLinux.subscribe
  rw [eventsSubscribe_ok hadmits]
  simp only [if_neg (show ¬ fd = -1 by omega)]

theorem Sim.subscribe (h : Sim s t) {type : EventType} {direction : Direction}
    (htype : type = .read ∨ type = .write) {fd : ℤ} (hfd : 0 ≤ fd)
    (hadmits : s.events.admits s.events.manager fd) (data : Option ℕ) :
    Sim (s.subscribe type direction fd data) (t.subscribe type direction fd data) := by
  have hwilling : (t.kqueue.sched t.kqueue.syscalls).isSome = true := by
    rw [h.sched, h.syscalls]
    exact hadmits.1
  have hkeep : ∀ r ∈ s.events.epoll, Function.update s.interest fd direction r.1
      = s.interest r.1 := by
    intro r hr
    exact Function.update_of_ne (under_eq_nil.1 hadmits.2.2 r hr) _ _
  rw [OnLinux.subscribe_ok hfd hadmits]
  unfold OnKqueue.subscribe
  rw [Kqueue.eventsSubscribe_ok hwilling (h.notMem_queue hadmits.2.2 direction)]
  refine ⟨⟨?_, h.agree.delivered, h.agree.closed⟩, ?_, fun r hr => ?_, ?_, fun p event hp => ?_,
    h.sched, ?_⟩
  · simp only [h.agree.results]
  · simp only [h.queue, h.records, List.map_append, List.map_singleton, Function.update_self]
    congr 1
    exact List.map_congr_left fun r hr => by rw [hkeep r hr]
  · rcases List.mem_append.1 hr with hr | hr
    · exact h.level r hr
    · rw [List.mem_singleton.1 hr]
      exact ⟨rfl, rfl⟩
  · simp only [h.records]
  · by_cases hnew : p = s.events.records.next
    · subst hnew
      rw [Heap.get?_alloc_next, Option.some.injEq] at hp
      exact hp ▸ htype
    · rw [Heap.get?_alloc_of_ne hnew] at hp
      exact h.types p event hp
  · simp only [h.syscalls]

theorem Kqueue.eventsWait_run {k : Kqueue} (hwilling : (k.sched k.syscalls).isSome = true)
    (ready : List (ℤ × Direction)) (max_events : ℕ) :
    Kqueue.eventsWait k.manager ready max_events k
      = ((((k.reported ready max_events).length : ℤ), (k.reported ready max_events).map Prod.snd),
        { k with syscalls := k.syscalls + 1 }) := by
  have hcond : (k.sched k.syscalls).isSome ∧ k.manager = k.manager := ⟨hwilling, rfl⟩
  unfold Kqueue.eventsWait
  rw [kqueueM_bind, kqueueM_bind]
  exact congrFun (if_pos hcond) _

theorem Kqueue.eventsWait_refused {k : Kqueue} (hwilling : ¬ (k.sched k.syscalls).isSome = true)
    (ready : List (ℤ × Direction)) (max_events : ℕ) :
    Kqueue.eventsWait k.manager ready max_events k
      = ((-1, []), { k with syscalls := k.syscalls + 1 }) := by
  have hcond : ¬ ((k.sched k.syscalls).isSome ∧ k.manager = k.manager) := fun h => hwilling h.1
  unfold Kqueue.eventsWait
  rw [kqueueM_bind, kqueueM_bind]
  exact congrFun (if_neg hcond) _

/-- Both report the same records. -/
theorem Sim.reported (h : Sim s t) (ready : List (ℤ × Direction)) (max_events : ℕ) :
    (t.kqueue.reported ready max_events).map Prod.snd
      = (s.events.reported (s.ready ready) max_events).map fun r => r.2.event := by
  have hready : ∀ r ∈ s.events.epoll, ((decide (r.1 ∈ s.ready ready) && r.2.armed)
      = decide ((r.1, s.interest r.1) ∈ ready)) := by
    intro r hr
    rw [(h.level r hr).2, Bool.and_true, decide_eq_decide]
    unfold OnLinux.ready
    constructor
    · intro hmem
      obtain ⟨q, hq, hfd⟩ := List.mem_map.1 hmem
      obtain ⟨hq, hdirection⟩ := List.mem_filter.1 hq
      have hdirection : q.2 = s.interest q.1 := by simpa using hdirection
      rw [← hfd, ← hdirection]
      exact hq
    · exact fun hmem => List.mem_map.2 ⟨_, List.mem_filter.2 ⟨hmem, by simp⟩, rfl⟩
  unfold Kqueue.reported Events.reported
  rw [List.filter_congr hready, h.queue, List.filter_map, ← List.map_take, List.map_map]
  rfl

/-- The reports of registrations that are all level-triggered change nothing. -/
theorem Sim.report (h : Sim s t) (ready : List ℤ) (max_events : ℕ) :
    (s.events.epoll.map fun r =>
      if r ∈ s.events.reported ready max_events then (r.1, r.2.report) else r)
      = s.events.epoll := by
  refine (List.map_congr_left fun r hr => ?_).trans (List.map_id _)
  have hreport : r.2.report = r.2 := by
    unfold Registration.report
    rw [if_neg (by simp [(h.level r hr).1])]
  rw [hreport, ite_self]
  rfl

theorem OnLinux.step_wait {ready : List (ℤ × Direction)} {max_events : ℕ} {n : ℤ} {ps : List ℕ}
    {e : Events}
    (h : eventsWait s.events.manager (s.ready ready) max_events s.events = ((n, ps), e)) :
    OnLinux.step (.wait ready max_events) s = .ok { s with
      events := e
      results := s.results ++ [n]
      delivered := s.delivered ++ ps.map e.records.get? } := by
  simp only [OnLinux.step, h]

theorem OnKqueue.step_wait {ready : List (ℤ × Direction)} {max_events : ℕ} {n : ℤ} {ps : List ℕ}
    {k : Kqueue}
    (h : Kqueue.eventsWait t.kqueue.manager ready max_events t.kqueue = ((n, ps), k)) :
    OnKqueue.step (.wait ready max_events) t = .ok { t with
      kqueue := k
      results := t.results ++ [n]
      delivered := t.delivered ++ ps.map k.records.get? } := by
  simp only [OnKqueue.step, h]

/-- After waits that return the same pointers. -/
theorem Sim.waited (h : Sim s t) (n : ℤ) (ps : List ℕ) :
    Sim { s with
      events := s.events.tick
      results := s.results ++ [n]
      delivered := s.delivered ++ ps.map s.events.records.get? }
    { t with
      kqueue := { t.kqueue with syscalls := t.kqueue.syscalls + 1 }
      results := t.results ++ [n]
      delivered := t.delivered ++ ps.map t.kqueue.records.get? } := by
  refine ⟨⟨?_, ?_, h.agree.closed⟩, h.queue, h.level, h.records, h.types, h.sched, ?_⟩
  · simp only [h.agree.results]
  · simp only [h.agree.delivered, h.records]
  · simp only [h.syscalls, Events.tick]

theorem Sim.wait (h : Sim s t) (ready : List (ℤ × Direction)) (max_events : ℕ) :
    ∃ s' t', OnLinux.step (.wait ready max_events) s = .ok s'
      ∧ OnKqueue.step (.wait ready max_events) t = .ok t' ∧ Sim s' t' := by
  have hsched : (t.kqueue.sched t.kqueue.syscalls).isSome = s.events.willing := by
    rw [h.sched, h.syscalls]
    rfl
  by_cases hwilling : s.events.willing = true
  · have hlinux := eventsWait_run hwilling (s.ready ready) max_events
    have hkqueue := Kqueue.eventsWait_run (hsched.trans hwilling) ready max_events
    have hlength := congrArg List.length (h.reported ready max_events)
    rw [List.length_map, List.length_map] at hlength
    rw [h.report] at hlinux
    rw [h.reported, hlength] at hkqueue
    exact ⟨_, _, OnLinux.step_wait hlinux, OnKqueue.step_wait hkqueue, h.waited _ _⟩
  · exact ⟨_, _, OnLinux.step_wait (eventsWait_refused hwilling _ _),
      OnKqueue.step_wait (Kqueue.eventsWait_refused (by rwa [hsched]) _ _), h.waited (-1) []⟩

/-- A registration of the descriptor of an event is for what the event is about. -/
theorem Sim.unsubscribe (h : Sim s t) {p : ℕ} {event : Event}
    (hrecord : s.events.records.get? p = some event)
    (hmatch : s.events.under event.id ≠ [] → s.interest event.id = event.direction) :
    ∃ s' t', OnLinux.step (.unsubscribe p) s = .ok s' ∧ OnKqueue.step (.unsubscribe p) t = .ok t'
      ∧ Sim s' t' := by
  have hrecord' : t.kqueue.records.get? p = some event := by rw [h.records, hrecord]
  have hkqueue : (Kqueue.eventsUnsubscribe t.kqueue.manager event t.kqueue).2
      = { t.kqueue with queue := Assoc.erase t.kqueue.queue (event.id, event.direction) } := by
    unfold Kqueue.eventsUnsubscribe Event.direction
    rcases h.types p event hrecord with htype | htype
    · rw [if_pos htype, if_pos htype]
      exact congrArg Prod.snd (congrArg (Prod.mk ()) (if_pos rfl))
    · have hne : event.type ≠ .read := by simp [htype]
      rw [if_neg hne, if_neg hne, if_pos htype]
      exact congrArg Prod.snd (congrArg (Prod.mk ()) (if_pos rfl))
  refine ⟨{ s with events := (eventsUnsubscribe s.events.manager event s.events).2 },
    { t with kqueue := (Kqueue.eventsUnsubscribe t.kqueue.manager event t.kqueue).2 }, ?_, ?_, ?_⟩
  · simp only [OnLinux.step, hrecord]
  · simp only [OnKqueue.step, hrecord']
  rw [eventsUnsubscribe_run rfl, hkqueue]
  refine ⟨⟨h.agree.results, h.agree.delivered, h.agree.closed⟩, ?_, fun r hr => ?_, h.records,
    h.types, h.sched, h.syscalls⟩
  · have hkey : ∀ r ∈ s.events.epoll, decide (r.1 ≠ event.id)
        = decide ((r.1, s.interest r.1) ≠ (event.id, event.direction)) := by
      intro r hr
      rw [decide_eq_decide]
      refine not_congr ⟨?_, fun heq => (Prod.mk.inj heq).1⟩
      intro hid
      have hmem : r ∈ s.events.under event.id := mem_under.2 ⟨hr, hid⟩
      rw [hid, hmatch (List.ne_nil_of_mem hmem)]
    simp only [Assoc.erase]
    rw [List.filter_congr hkey, h.queue, List.filter_map]
    rfl
  · exact h.level r (List.mem_filter.1 hr).1

/-- A WRITE event is freed alike. -/
theorem Sim.free (h : Sim s t) {p : ℕ} {event : Event}
    (hrecord : s.events.records.get? p = some event) (htype : event.type ≠ .read) :
    ∃ s' t', OnLinux.step (.free p) s = .ok s' ∧ OnKqueue.step (.free p) t = .ok t'
      ∧ Sim s' t' := by
  have hrecord' : t.kqueue.records.get? p = some event := by rw [h.records, hrecord]
  have hwrite : event.type = .write := (h.types p event hrecord).resolve_left htype
  have hlinux : (eventsFree p event s.events).2
      = { s.events with records := s.events.records.release p } := by
    unfold eventsFree
    rw [if_neg (by simp [hwrite])]
    rfl
  have hkqueue : (Kqueue.eventsFree p event t.kqueue).2
      = { t.kqueue with records := t.kqueue.records.release p } := by
    unfold Kqueue.eventsFree
    rw [if_neg htype]
    rfl
  refine ⟨{ s with events := (eventsFree p event s.events).2 },
    { t with kqueue := (Kqueue.eventsFree p event t.kqueue).2 }, ?_, ?_, ?_⟩
  · simp only [OnLinux.step, hrecord]
  · simp only [OnKqueue.step, hrecord']
  rw [hlinux, hkqueue]
  refine ⟨⟨h.agree.results, h.agree.delivered, h.agree.closed⟩, h.queue, h.level, ?_,
    fun q event hq => ?_, h.sched, h.syscalls⟩
  · simp only [h.records]
  · have hne : p ≠ q := by
      rintro rfl
      rw [Heap.get?_release_self] at hq
      cases hq
    rw [Heap.get?_release_of_ne _ hne] at hq
    exact h.types q event hq

theorem sim_step (call : BackendCall) (s : OnLinux) (t : OnKqueue) (hok : call.Ok s)
    (h : Sim s t) :
    ∃ s' t', OnLinux.step call s = .ok s' ∧ OnKqueue.step call t = .ok t' ∧ Sim s' t' := by
  cases call with
  | subscribeRead fd data =>
    exact ⟨_, _, rfl, rfl, h.subscribe (Or.inl rfl) hok.2 hok.1 data⟩
  | subscribeWrite fd data =>
    exact ⟨_, _, rfl, rfl, h.subscribe (Or.inr rfl) hok.2 hok.1 data⟩
  | unsubscribe p =>
    obtain ⟨event, hrecord, hmatch⟩ := hok
    exact h.unsubscribe hrecord hmatch
  | wait ready max_events => exact h.wait ready max_events
  | free p =>
    obtain ⟨event, hrecord, htype⟩ := hok
    exact h.free hrecord htype

end Simulation

section Runs

/-- Callers cannot tell the two apart. -/
theorem backends_agree (manager manager' : ℤ) (sched : ℕ → Option ℤ) (calls : List BackendCall)
    (hok : Run.Allowed OnLinux.step BackendCall.Ok calls (OnLinux.start manager sched)) :
    ∃ s t, Run.run OnLinux.step calls (OnLinux.start manager sched) = .ok s
      ∧ Run.run OnKqueue.step calls (OnKqueue.start manager' sched) = .ok t ∧ Agree s t := by
  obtain ⟨s, t, hs, ht, h⟩ := Run.run_sim sim_step calls _ _ hok
    (sim_start manager manager' sched)
  exact ⟨s, t, hs, ht, h.agree⟩

/-- A descriptor that is written to, and then read from. -/
theorem backends_agree_two : ∃ s t,
    Run.run OnLinux.step [.subscribeWrite 5 (some 7), .wait [(5, .output)] 1, .unsubscribe 0,
      .free 0, .subscribeRead 5 none] (OnLinux.start 3 fun _ => some 0) = .ok s
    ∧ Run.run OnKqueue.step [.subscribeWrite 5 (some 7), .wait [(5, .output)] 1, .unsubscribe 0,
      .free 0, .subscribeRead 5 none] (OnKqueue.start 4 fun _ => some 0) = .ok t
    ∧ Agree s t := by
  refine backends_agree 3 4 _ _ ⟨⟨⟨rfl, rfl, rfl⟩, by decide⟩, ?_⟩
  rintro s ⟨⟩
  refine ⟨trivial, ?_⟩
  rintro s ⟨⟩
  refine ⟨⟨⟨.write, 5, some 7⟩, rfl, fun _ => rfl⟩, ?_⟩
  rintro s ⟨⟩
  refine ⟨⟨⟨.write, 5, some 7⟩, rfl, by decide⟩, ?_⟩
  rintro s ⟨⟩
  exact ⟨⟨⟨rfl, rfl, rfl⟩, by decide⟩, fun _ _ => trivial⟩

/-- Freeing a READ event closes its descriptor on a kqueue alone. -/
theorem not_backends_agree_read : ¬ ∀ (manager manager' : ℤ) (sched : ℕ → Option ℤ)
    (calls : List BackendCall) (s : OnLinux) (t : OnKqueue), (∀ n, (sched n).isSome = true) →
    Run.run OnLinux.step calls (OnLinux.start manager sched) = .ok s →
    Run.run OnKqueue.step calls (OnKqueue.start manager' sched) = .ok t → Agree s t := by
  intro hall
  have h := hall 3 4 (fun _ => some 0)
    [.subscribeRead 5 none, .wait [(5, .input)] 1, .unsubscribe 0, .free 0] _ _ (fun _ => rfl) rfl
    rfl
  cases h.closed

end Runs

end Erlm
