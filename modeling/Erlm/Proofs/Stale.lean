import Erlm.Lib.Run
import Erlm.Proofs.Events

/-!
# No stale event is delivered

Callers free an event that a wait gave them at most once, and one of a subscription only after they
unsubscribed it. Then every pointer a wait returns is a record still allocated and as it was
created (`session_run`), for a registration leaves the epoll set no later than its record is freed.
-/

namespace Erlm

section Calls

/-- A call of the event layer, or a caller that closes a descriptor. -/
inductive EventCall
  | sendCustom (data : Option ℕ)
  | sendTimeout (timeout : ℤ) (data : Option ℕ)
  | subscribeRead (fd : ℤ) (data : Option ℕ)
  | subscribeWrite (fd : ℤ) (data : Option ℕ)
  | unsubscribe (event : ℕ)
  | wait (ready : List ℤ) (max_events : ℕ)
  | free (event : ℕ)
  | close (fd : ℤ)
  deriving Repr, DecidableEq

/-- The layer, the records as they were created, the pointers the waits returned with what they
pointed to then, and the pointers that were unsubscribed and freed. -/
structure Session where
  events : Events
  created : List (ℕ × Event)
  waited : List (ℕ × Option Event)
  unsubscribed : List ℕ
  freed : List ℕ

/-- After a call that made a record. -/
def Session.create (s : Session) (event : Event) (e : Events) : Session :=
  { s with events := e, created := s.created ++ [(s.events.records.next, event)] }

def Session.step : EventCall → Session → Except Fault Session
  | .sendCustom data, s =>
    let (fd, e) := eventsSendCustom s.events.manager data s.events
    .ok (s.create ⟨.custom, fd, data⟩ e)
  | .sendTimeout timeout data, s =>
    let (fd, e) := eventsSendTimeout s.events.manager timeout data s.events
    .ok (s.create ⟨.timer, fd, data⟩ e)
  | .subscribeRead fd data, s =>
    let (_result, e) := eventsSubscribeRead s.events.manager fd data s.events
    .ok (s.create ⟨.read, fd, data⟩ e)
  | .subscribeWrite fd data, s =>
    let (_result, e) := eventsSubscribeWrite s.events.manager fd data s.events
    .ok (s.create ⟨.write, fd, data⟩ e)
  | .unsubscribe p, s =>
    match s.events.records.get? p with
    | none => .error .undefinedBehaviour
    | some event => .ok { s with
        events := (eventsUnsubscribe s.events.manager event s.events).2
        unsubscribed := p :: s.unsubscribed }
  | .wait ready max_events, s =>
    let ((_event_count, events), e) := eventsWait s.events.manager ready max_events s.events
    .ok { s with
      events := e
      waited := s.waited ++ events.map fun p => (p, e.records.get? p) }
  | .free p, s =>
    match s.events.records.get? p with
    | none => .error .undefinedBehaviour
    | some event => .ok { s with
        events := (eventsFree p event s.events).2
        freed := p :: s.freed }
  | .close fd, s => .ok { s with
      events := { s.events with
        epoll := Assoc.erase s.events.epoll fd
        opened := s.events.opened.erase fd } }

/-- The kernel calls of a send succeed: the first gives a descriptor, which can be registered. -/
def Events.sends (e : Events) (fd : ℤ) (n : ℕ) : Prop :=
  0 ≤ fd ∧ e.grants fd n ∧ e.under fd = []

/-- A wait returned the pointer, and it has not been freed. -/
def Session.Holds (s : Session) (p : ℕ) : Prop := p ∈ s.waited.map Prod.fst ∧ p ∉ s.freed

/-- An event of a subscription. -/
def Event.Subscribed (event : Event) : Prop := event.type = .read ∨ event.type = .write

/-- The kernel calls of the sends succeed, callers use the pointers they hold, free the event of a
subscription after they unsubscribed it, and close no descriptor that is registered. -/
def EventCall.Ok : EventCall → Session → Prop
  | .sendCustom _, s => ∃ fd, s.events.sends fd 2
  | .sendTimeout timeout _, s => ∃ fd, s.events.sends fd (if timeout ≤ 0 then 2 else 3)
  | .subscribeRead _ _, _ => True
  | .subscribeWrite _ _, _ => True
  | .unsubscribe p, s => s.Holds p
  | .wait _ _, _ => True
  | .free p, s => s.Holds p
    ∧ ∀ event, (p, event) ∈ s.created → event.Subscribed → p ∈ s.unsubscribed
  | .close fd, s => s.events.under fd = []

/-- Every pointer a wait returned was that of a record, created once, that was not freed and was as
it had been created. -/
structure Session.NoStale (s : Session) : Prop where
  distinct : (s.created.map Prod.fst).Nodup
  waited : ∀ p content, (p, content) ∈ s.waited →
    ∃ event, content = some event ∧ (p, event) ∈ s.created

/-- A layer that made no call yet. -/
def Session.start (manager : ℤ) (sched : ℕ → Option ℤ) : Session :=
  ⟨⟨manager, [], Heap.empty, [], [], sched, 0⟩, [], [], [], []⟩

end Calls

section Invariant

/-- The record is allocated and as it was created. -/
def Session.Intact (s : Session) (p : ℕ) (event : Event) : Prop :=
  (p, event) ∈ s.created ∧ s.events.records.get? p = some event

/-- A registration has an intact record of its descriptor, not unsubscribed if it is that of a
subscription. -/
def Session.Backed (s : Session) (fd : ℤ) (p : ℕ) : Prop :=
  ∃ event, s.Intact p event ∧ event.id = fd ∧ (event.Subscribed → p ∉ s.unsubscribed)

structure Session.Inv (s : Session) : Prop where
  noStale : s.NoStale
  registered : ∀ fd r, (fd, r) ∈ s.events.epoll → s.Backed fd r.event
  held : ∀ p, s.Holds p → ∃ event, s.Intact p event
  bounded : ∀ p ∈ s.created.map Prod.fst, p < s.events.records.next
  unsubscribed : ∀ p ∈ s.unsubscribed, p < s.events.records.next

variable {s : Session}

theorem start_inv (manager : ℤ) (sched : ℕ → Option ℤ) : (Session.start manager sched).Inv := by
  refine ⟨⟨List.nodup_nil, fun _ _ h => ?_⟩, fun _ _ h => ?_, fun p h => ?_, fun _ h => ?_,
    fun _ h => ?_⟩
  · cases h
  · cases h
  · cases h.1
  · cases h
  · cases h

/-- Two events of one pointer are the same. -/
theorem Session.Intact.unique {p : ℕ} {event event' : Event} (h : s.Intact p event)
    (h' : s.Intact p event') : event = event' := by
  rw [← Option.some.injEq, ← h.2, h'.2]

/-- What a new record leaves as it was. -/
theorem Session.Intact.create {p : ℕ} {event : Event} (h : s.Intact p event) (new : Event)
    {e : Events} (hkept : ∀ p < s.events.records.next, e.records.get? p = s.events.records.get? p) :
    (s.create new e).Intact p event :=
  ⟨List.mem_append_left _ h.1, (hkept p (Heap.get?_lt h.2)).trans h.2⟩

/-- A call that makes a record, and registers it or leaves the epoll set as it is. -/
theorem Session.Inv.create (h : s.Inv) {event : Event} {e : Events}
    (hnext : e.records.next = s.events.records.next + 1)
    (hkept : ∀ p < s.events.records.next, e.records.get? p = s.events.records.get? p)
    (hepoll : ∀ fd r, (fd, r) ∈ e.epoll → (fd, r) ∈ s.events.epoll
      ∨ fd = event.id ∧ r.event = s.events.records.next
        ∧ e.records.get? s.events.records.next = some event) :
    (s.create event e).Inv := by
  refine ⟨⟨?_, fun p content hp => ?_⟩, fun fd r hr => ?_, fun p hp => ?_, fun p hp => ?_,
    fun p hp => ?_⟩
  · show ((s.created ++ [_]).map Prod.fst).Nodup
    exact Assoc.nodup_keys_concat event h.noStale.distinct fun p hp =>
      (h.bounded p.1 (List.mem_map_of_mem hp)).ne
  · obtain ⟨event, hcontent, hcreated⟩ := h.noStale.waited p content hp
    exact ⟨event, hcontent, List.mem_append_left _ hcreated⟩
  · rcases hepoll fd r hr with hold | ⟨rfl, hevent, hrecord⟩
    · obtain ⟨event, hintact, hid, hsubscribed⟩ := h.registered fd r hold
      exact ⟨event, hintact.create _ hkept, hid, hsubscribed⟩
    · refine ⟨event, ⟨?_, hevent ▸ hrecord⟩, rfl, fun _ hmem => ?_⟩
      · exact hevent ▸ List.mem_append_right _ List.mem_cons_self
      · exact absurd (h.unsubscribed _ hmem) (by rw [hevent]; exact lt_irrefl _)
  · obtain ⟨event, hintact⟩ := h.held p hp
    exact ⟨event, hintact.create _ hkept⟩
  · have hp : p ∈ (s.created ++ [(s.events.records.next, event)]).map Prod.fst := hp
    rw [List.map_append, List.mem_append, List.map_singleton, List.mem_singleton] at hp
    show p < e.records.next
    rcases hp with hp | hp
    · exact hnext ▸ (h.bounded p hp).trans (Nat.lt_succ_self _)
    · omega
  · exact (h.unsubscribed p hp).trans (hnext ▸ Nat.lt_succ_self _)

/-- Records stay, and no registration is new. -/
theorem Session.Inv.shrink (h : s.Inv) {e : Events} (hrecords : e.records = s.events.records)
    (hepoll : ∀ fd r, (fd, r) ∈ e.epoll → ∃ r', (fd, r') ∈ s.events.epoll ∧ r'.event = r.event) :
    { s with events := e }.Inv := by
  obtain ⟨noStale, registered, held, bounded, unsubscribed⟩ := h
  unfold Session.Backed Session.Intact at registered
  unfold Session.Intact at held
  rw [← hrecords] at registered held bounded unsubscribed
  refine ⟨⟨noStale.distinct, noStale.waited⟩, fun fd r hr => ?_, held, bounded, unsubscribed⟩
  obtain ⟨r', hr', hevent⟩ := hepoll fd r hr
  rw [← hevent]
  exact registered fd r' hr'

/-- A wait returns pointers to intact records. -/
theorem Session.Inv.addWaited (h : s.Inv) {ps : List ℕ}
    (hps : ∀ p ∈ ps, ∃ event, s.Intact p event) :
    { s with waited := s.waited ++ ps.map fun p => (p, s.events.records.get? p) }.Inv := by
  refine ⟨⟨h.noStale.distinct, fun p content hp => ?_⟩, h.registered, fun p hp => ?_, h.bounded,
    h.unsubscribed⟩
  · rcases List.mem_append.1 hp with hp | hp
    · exact h.noStale.waited p content hp
    · obtain ⟨q, hq, heq⟩ := List.mem_map.1 hp
      obtain ⟨rfl, rfl⟩ := Prod.mk.inj heq
      obtain ⟨event, hcreated, hrecord⟩ := hps q hq
      exact ⟨event, hrecord, hcreated⟩
  · obtain ⟨hwaited, hfreed⟩ := hp
    rw [List.map_append, List.mem_append, List.map_map] at hwaited
    rcases hwaited with hwaited | hwaited
    · exact h.held p ⟨hwaited, hfreed⟩
    · obtain ⟨q, hq, rfl⟩ := List.mem_map.1 hwaited
      exact hps q hq

/-- A pointer without a registration counts as unsubscribed. -/
theorem Session.Inv.addUnsubscribed (h : s.Inv) {p : ℕ} (hp : p < s.events.records.next)
    (hnone : ∀ fd r, (fd, r) ∈ s.events.epoll → r.event ≠ p) :
    { s with unsubscribed := p :: s.unsubscribed }.Inv := by
  refine ⟨⟨h.noStale.distinct, h.noStale.waited⟩, fun fd r hr => ?_, h.held, h.bounded,
    fun q hq => ?_⟩
  · obtain ⟨event, hintact, hid, hsubscribed⟩ := h.registered fd r hr
    refine ⟨event, hintact, hid, fun hevent hmem => ?_⟩
    rcases List.mem_cons.1 hmem with hmem | hmem
    · exact hnone fd r hr hmem
    · exact hsubscribed hevent hmem
  · rcases List.mem_cons.1 hq with rfl | hq
    · exact hp
    · exact h.unsubscribed q hq

/-- A record without a registration can be freed. -/
theorem Session.Inv.addFreed (h : s.Inv) {p : ℕ}
    (hnone : ∀ fd r, (fd, r) ∈ s.events.epoll → r.event ≠ p) :
    { s with
      events := { s.events with records := s.events.records.release p }
      freed := p :: s.freed }.Inv := by
  refine ⟨⟨h.noStale.distinct, h.noStale.waited⟩, fun fd r hr => ?_, fun q hq => ?_, ?_, ?_⟩
  · obtain ⟨event, ⟨hcreated, hrecord⟩, hid, hsubscribed⟩ := h.registered fd r hr
    refine ⟨event, ⟨hcreated, ?_⟩, hid, hsubscribed⟩
    exact (Heap.get?_release_of_ne _ (hnone fd r hr).symm).trans hrecord
  · obtain ⟨hwaited, hfreed⟩ := hq
    rw [List.mem_cons, not_or] at hfreed
    obtain ⟨event, hcreated, hrecord⟩ := h.held q ⟨hwaited, hfreed.2⟩
    refine ⟨event, hcreated, ?_⟩
    exact (Heap.get?_release_of_ne _ (Ne.symm hfreed.1)).trans hrecord
  · intro q hq
    rw [Heap.next_release]
    exact h.bounded q hq
  · intro q hq
    rw [Heap.next_release]
    exact h.unsubscribed q hq

/-- The registration of a record is under its descriptor. -/
theorem Session.Inv.erased (h : s.Inv) {p : ℕ} {event : Event} (hintact : s.Intact p event) (fd : ℤ)
    (r : Registration) (hr : (fd, r) ∈ Assoc.erase s.events.epoll event.id) : r.event ≠ p := by
  rintro rfl
  obtain ⟨hmem, hne⟩ := List.mem_filter.1 hr
  obtain ⟨event', hintact', hid, -⟩ := h.registered fd r hmem
  rw [hintact'.unique hintact] at hid
  exact absurd hid.symm (by simpa using hne)

theorem Session.Inv.unregistered (h : s.Inv) {p : ℕ} {event : Event} (hintact : s.Intact p event)
    (hsubscribed : event.Subscribed) (hp : p ∈ s.unsubscribed) (fd : ℤ) (r : Registration)
    (hr : (fd, r) ∈ s.events.epoll) : r.event ≠ p := by
  rintro rfl
  obtain ⟨event', hintact', -, hnot⟩ := h.registered fd r hr
  rw [hintact'.unique hintact] at hnot
  exact hnot hsubscribed hp

end Invariant

section Steps

variable {s : Session}

attribute [local simp] Session.step

/-- The record of an event that was sent gets the descriptor, and no other one changes. -/
theorem addSent_get? (e : Events) (type : EventType) (fd : ℤ) (data : Option ℕ) (n : ℕ) :
    (e.addSent type fd data n).records.get? e.records.next = some ⟨type, fd, data⟩ := by
  unfold Events.addSent
  rw [Heap.get?_update_self, Heap.get?_alloc_next]
  rfl

theorem addSent_get?_of_lt {e : Events} {p : ℕ} (hp : p < e.records.next) (type : EventType)
    (fd : ℤ) (data : Option ℕ) (n : ℕ) :
    (e.addSent type fd data n).records.get? p = e.records.get? p := by
  unfold Events.addSent
  rw [Heap.get?_update_of_ne _ hp.ne', Heap.get?_alloc_of_ne hp.ne]

theorem Session.Inv.addSent (h : s.Inv) (type : EventType) (fd : ℤ) (data : Option ℕ) (n : ℕ) :
    (s.create ⟨type, fd, data⟩ (s.events.addSent type fd data n)).Inv := by
  refine h.create ?_ (fun p hp => addSent_get?_of_lt hp ..) fun fd' r hr => ?_
  · simp [Events.addSent]
  · rcases List.mem_append.1 hr with hr | hr
    · exact Or.inl hr
    · obtain ⟨rfl, rfl⟩ := Prod.mk.inj (List.mem_singleton.1 hr)
      exact Or.inr ⟨rfl, rfl, addSent_get? ..⟩

theorem Session.Inv.subscribe (h : s.Inv) (type : EventType) (fd : ℤ) (data : Option ℕ) :
    (s.create ⟨type, fd, data⟩
      (eventsSubscribe type s.events.manager fd data s.events).2).Inv := by
  by_cases hadmits : s.events.admits s.events.manager fd
  · rw [eventsSubscribe_ok hadmits]
    refine h.create (Heap.next_alloc _ _) (fun p hp => Heap.get?_alloc_of_ne hp.ne _)
      fun fd' r hr => ?_
    rcases List.mem_append.1 hr with hr | hr
    · exact Or.inl hr
    · obtain ⟨rfl, rfl⟩ := Prod.mk.inj (List.mem_singleton.1 hr)
      exact Or.inr ⟨rfl, rfl, Heap.get?_alloc_next _ _⟩
  · rw [eventsSubscribe_refused hadmits]
    refine h.create (by simp) (fun p hp => ?_) fun fd' r hr => Or.inl hr
    rw [Heap.get?_release_of_ne _ hp.ne', Heap.get?_alloc_of_ne hp.ne]

/-- Closing a descriptor takes its registration away. -/
theorem Session.Inv.closed (h : s.Inv) (fd : ℤ) (opened closed : List ℤ) :
    { s with events := { s.events with
        epoll := Assoc.erase s.events.epoll fd
        opened := opened
        closed := closed } }.Inv :=
  h.shrink rfl fun _ r hr => ⟨r, (List.mem_filter.1 hr).1, rfl⟩

theorem step_wait {ready : List ℤ} {max_events : ℕ} {n : ℤ} {ps : List ℕ} {e : Events}
    (h : eventsWait s.events.manager ready max_events s.events = ((n, ps), e)) :
    Session.step (.wait ready max_events) s = .ok { s with
      events := e
      waited := s.waited ++ ps.map fun p => (p, e.records.get? p) } := by
  simp [h]

theorem step_unsubscribe {p : ℕ} {event : Event} (h : s.events.records.get? p = some event) :
    Session.step (.unsubscribe p) s = .ok { s with
      events := (eventsUnsubscribe s.events.manager event s.events).2
      unsubscribed := p :: s.unsubscribed } := by
  simp [h]

theorem step_free {p : ℕ} {event : Event} (h : s.events.records.get? p = some event) :
    Session.step (.free p) s = .ok { s with
      events := (eventsFree p event s.events).2
      freed := p :: s.freed } := by
  simp [h]

theorem Session.Inv.wait (h : s.Inv) (ready : List ℤ) (max_events : ℕ) :
    ∃ t, Session.step (.wait ready max_events) s = .ok t ∧ t.Inv := by
  by_cases hwilling : s.events.willing = true
  · have hwait := eventsWait_run hwilling ready max_events
    generalize he : ({ s.events with epoll := _, syscalls := _ } : Events) = e at hwait
    have hshrunk : { s with events := e }.Inv := by
      subst he
      refine h.shrink rfl fun fd r hr => ?_
      obtain ⟨⟨fd', r'⟩, hr', heq⟩ := List.mem_map.1 hr
      split_ifs at heq
      · obtain ⟨rfl, rfl⟩ := Prod.mk.inj heq
        exact ⟨r', hr', r'.event_report.symm⟩
      · obtain ⟨rfl, rfl⟩ := Prod.mk.inj heq
        exact ⟨_, hr', rfl⟩
    refine ⟨_, step_wait hwait, hshrunk.addWaited fun p hp => ?_⟩
    obtain ⟨⟨fd, r⟩, hr, rfl⟩ := List.mem_map.1 hp
    obtain ⟨event, ⟨hcreated, hrecord⟩, -⟩ := h.registered fd r
      (List.mem_filter.1 (List.mem_of_mem_take hr)).1
    exact ⟨event, hcreated, he ▸ hrecord⟩
  · have hshrunk : { s with events := s.events.tick }.Inv :=
      h.shrink rfl fun _ r hr => ⟨r, hr, rfl⟩
    exact ⟨_, step_wait (eventsWait_refused hwilling _ _), hshrunk.addWaited (by simp)⟩

theorem Session.Inv.unsubscribe (h : s.Inv) {p : ℕ} (hp : s.Holds p) :
    ∃ t, Session.step (.unsubscribe p) s = .ok t ∧ t.Inv := by
  obtain ⟨event, hintact⟩ := h.held p hp
  refine ⟨_, step_unsubscribe hintact.2, ?_⟩
  rw [eventsUnsubscribe_run rfl]
  exact (h.closed event.id _ _).addUnsubscribed (Heap.get?_lt hintact.2) (h.erased hintact)

theorem Session.Inv.free (h : s.Inv) {p : ℕ} (hp : s.Holds p)
    (hunsubscribed : ∀ event, (p, event) ∈ s.created → event.Subscribed → p ∈ s.unsubscribed) :
    ∃ t, Session.step (.free p) s = .ok t ∧ t.Inv := by
  obtain ⟨event, hintact⟩ := h.held p hp
  refine ⟨_, step_free hintact.2, ?_⟩
  by_cases htype : event.type = .custom ∨ event.type = .timer
  · have hfree : eventsFree p event s.events
        = ((), (freeEvent p (closeFd event.id s.events).2).2) := by
      unfold eventsFree
      rw [if_pos htype]
      rfl
    rw [hfree]
    exact (h.closed event.id _ _).addFreed (h.erased hintact)
  · have hfree : eventsFree p event s.events = freeEvent p s.events := by
      unfold eventsFree
      rw [if_neg htype]
    have hsubscribed : event.Subscribed := by
      unfold Event.Subscribed
      cases hevent : event.type <;> simp [hevent] at htype ⊢
    rw [hfree]
    exact h.addFreed (h.unregistered hintact hsubscribed
      (hunsubscribed event hintact.1 hsubscribed))

/-- Every call that callers may make keeps the invariant, and reads no freed record. -/
theorem session_step (call : EventCall) (s : Session) (hok : call.Ok s) (h : s.Inv) :
    ∃ t, Session.step call s = .ok t ∧ t.Inv := by
  cases call with
  | sendCustom data =>
    obtain ⟨fd, hfd, hgrants, hunder⟩ := hok
    obtain ⟨n, hsend⟩ := eventsSendCustom_ok hgrants hfd hunder data
    refine ⟨_, by simp [hsend], h.addSent .custom fd data n⟩
  | sendTimeout timeout data =>
    obtain ⟨fd, hfd, hgrants, hunder⟩ := hok
    obtain ⟨n, hsend⟩ := eventsSendTimeout_sent hgrants hfd hunder data
    refine ⟨_, by simp [hsend], h.addSent .timer fd data n⟩
  | subscribeRead fd data => exact ⟨_, rfl, h.subscribe .read fd data⟩
  | subscribeWrite fd data => exact ⟨_, rfl, h.subscribe .write fd data⟩
  | unsubscribe p => exact h.unsubscribe hok
  | wait ready max_events => exact h.wait ready max_events
  | free p => exact h.free hok.1 hok.2
  | close fd => exact ⟨_, rfl, h.closed fd _ _⟩

end Steps

section Runs

/-- No stale event is delivered, however the calls are mixed. -/
theorem session_run (manager : ℤ) (sched : ℕ → Option ℤ) (calls : List EventCall)
    (hok : Run.Allowed Session.step EventCall.Ok calls (Session.start manager sched)) :
    ∃ s, Run.run Session.step calls (Session.start manager sched) = .ok s ∧ s.NoStale := by
  obtain ⟨s, hrun, h⟩ := Run.run_inv session_step calls _ hok (start_inv manager sched)
  exact ⟨s, hrun, h.noStale⟩

/-- A custom event and a subscription that is freed. -/
theorem session_run_freed : ∃ s, Run.run Session.step
    [.subscribeRead 6 none, .sendCustom (some 7), .wait [5, 6] 2, .unsubscribe 0, .free 0]
    (Session.start 3 fun _ => some 5) = .ok s ∧ s.NoStale := by
  refine session_run 3 _ _ ⟨trivial, ?_⟩
  rintro s ⟨⟩
  refine ⟨⟨5, by decide, ⟨rfl, fun _ _ => rfl⟩, rfl⟩, ?_⟩
  rintro s ⟨⟩
  refine ⟨trivial, ?_⟩
  rintro s ⟨⟩
  refine ⟨⟨by decide, by decide⟩, ?_⟩
  rintro s ⟨⟩
  exact ⟨⟨⟨by decide, by decide⟩, fun _ _ _ => by decide⟩, fun _ _ => trivial⟩

end Runs

end Erlm
