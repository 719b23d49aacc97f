import Erlm.Kqueue
import Erlm.Proofs.Backends
import Erlm.Proofs.SentOnce

/-!
# The queue is a mailbox too

On FreeBSD and macOS as well a custom event or a timer that was sent is in the queue or was handed
out by a wait, never both and never twice, and no wait returns a pointer to a freed record
(`queueOnce`). Descriptors may be closed and subscribed to in any order here.
-/

namespace Erlm

open Mailbox (Accounts)

section Sends

variable {q : EventQueue}

theorem queueM_bind {α β : Type} (m : EventQueueM α) (f : α → EventQueueM β) (q : EventQueue) :
    (m >>= f) q = f (m q).1 (m q).2 := rfl

/-- The next call of the kernel succeeds. -/
def EventQueue.willing (q : EventQueue) (n : ℕ) : Prop :=
  ∀ i < n, (q.kqueue.sched (q.kqueue.syscalls + i)).isSome = true

/-- The ids up to the last one are given away. -/
def EventQueue.Counted (q : EventQueue) : Prop := ∀ r ∈ q.sent, r.1.1 ≤ q.next_id

/-- The queue after an event was sent. -/
def EventQueue.addSent (q : EventQueue) (type : EventType) (filter : SentFilter) (data : Option ℕ)
    (triggered : Bool) (n : ℕ) : EventQueue where
  kqueue := { q.kqueue with
    records := q.kqueue.records.alloc ⟨type, q.next_id + 1, data⟩
    syscalls := n }
  sent := q.sent ++ [((q.next_id + 1, filter), ⟨q.kqueue.records.next, triggered⟩)]
  next_id := q.next_id + 1

theorem keventAddOneshot_run (hwilling : q.willing 1) {ident : ℤ} {filter : SentFilter}
    (hnone : Assoc.get? q.sent (ident, filter) = none) (udata : ℕ) :
    EventQueue.keventAddOneshot q.kqueue.manager ident filter udata q = ((), { q with
      kqueue := { q.kqueue with syscalls := q.kqueue.syscalls + 1 }
      sent := q.sent ++ [((ident, filter), ⟨udata, false⟩)] }) := by
  have hcond : (q.kqueue.sched q.kqueue.syscalls).isSome ∧ q.kqueue.manager = q.kqueue.manager :=
    ⟨hwilling 0 Nat.one_pos, rfl⟩
  rw [← Assoc.put_of_get?_none _ hnone]
  unfold EventQueue.keventAddOneshot
  rw [queueM_bind]
  exact congrArg (Prod.mk ()) (if_pos hcond)

theorem keventTrigger_run (hwilling : q.willing 1) (ident : ℤ) :
    EventQueue.keventTrigger q.kqueue.manager ident q = ((), { q with
      kqueue := { q.kqueue with syscalls := q.kqueue.syscalls + 1 }
      sent := EventQueue.trigger q.sent ident }) := by
  have hcond : (q.kqueue.sched q.kqueue.syscalls).isSome ∧ q.kqueue.manager = q.kqueue.manager :=
    ⟨hwilling 0 Nat.one_pos, rfl⟩
  unfold EventQueue.keventTrigger
  rw [queueM_bind]
  exact congrArg (Prod.mk ()) (if_pos hcond)

/-- No registration has the next id. -/
theorem EventQueue.Counted.get?_next (h : q.Counted) (filter : SentFilter) :
    Assoc.get? q.sent (q.next_id + 1, filter) = none := by
  rw [Option.eq_none_iff_forall_ne_some]
  intro note hget
  have hle : q.next_id + 1 ≤ q.next_id := h _ (Assoc.get?_mem hget)
  omega

theorem queueSendTimeout_ok (hcounted : q.Counted) (hwilling : q.willing 1) (timeout : ℤ)
    (data : Option ℕ) :
    ∃ n, EventQueue.eventsSendTimeout q.kqueue.manager timeout data q
      = (q.next_id + 1, q.addSent .timer .timer data false n) := by
  have hadd := @keventAddOneshot_run { q with
    kqueue := { q.kqueue with records := q.kqueue.records.alloc ⟨.timer, q.next_id + 1, data⟩ }
    next_id := q.next_id + 1 } hwilling (q.next_id + 1) .timer (hcounted.get?_next _)
    q.kqueue.records.next
  unfold EventQueue.eventsSendTimeout
  rw [queueM_bind, queueM_bind, queueM_bind]
  exact ⟨_, congrArg (Prod.mk _) (congrArg Prod.snd hadd)⟩

/-- Triggering the last registration leaves the others as they are. -/
theorem EventQueue.Counted.trigger (h : q.Counted) (udata : ℕ) :
    EventQueue.trigger (q.sent ++ [((q.next_id + 1, SentFilter.user), ⟨udata, false⟩)])
        (q.next_id + 1)
      = q.sent ++ [((q.next_id + 1, SentFilter.user), ⟨udata, true⟩)] := by
  unfold EventQueue.trigger
  rw [List.map_append, List.map_singleton, if_pos rfl]
  congr 1
  refine (List.map_congr_left fun r hr => if_neg fun heq => ?_).trans (List.map_id _)
  have hle := h r hr
  rw [heq] at hle
  exact absurd hle (by simp)

theorem queueSendCustom_ok (hcounted : q.Counted) (hwilling : q.willing 2) (data : Option ℕ) :
    ∃ n, EventQueue.eventsSendCustom q.kqueue.manager data q
      = (q.next_id + 1, q.addSent .custom .user data true n) := by
  have hadd := @keventAddOneshot_run { q with
    kqueue := { q.kqueue with records := q.kqueue.records.alloc ⟨.custom, q.next_id + 1, data⟩ }
    next_id := q.next_id + 1 } (fun i hi => hwilling i (by omega)) (q.next_id + 1) .user
    (hcounted.get?_next _) q.kqueue.records.next
  have htrigger := @keventTrigger_run { q with
    kqueue := { q.kqueue with
      records := q.kqueue.records.alloc ⟨.custom, q.next_id + 1, data⟩
      syscalls := q.kqueue.syscalls + 1 }
    sent := q.sent ++ [((q.next_id + 1, .user), ⟨q.kqueue.records.next, false⟩)]
    next_id := q.next_id + 1 } (fun i hi => by
      obtain rfl : i = 0 := by omega
      exact hwilling 1 (by omega)) (q.next_id + 1)
  rw [hcounted.trigger] at htrigger
  refine ⟨q.kqueue.syscalls + 1 + 1, ?_⟩
  unfold EventQueue.eventsSendCustom
  rw [queueM_bind, queueM_bind, queueM_bind, queueM_bind]
  simp only [EventQueue.nextId, EventQueue.onKqueue, Kqueue.mallocEvent]
  rw [hadd]
  exact congrArg (Prod.mk _) (congrArg Prod.snd htrigger)

end Sends

section Calls

/-- A call of the event layer on a kqueue, or a caller that closes a descriptor. What `kevent` gets
to is `ready` of the descriptors and `due` of what was sent. -/
inductive QueueCall
  | sendCustom (data : Option ℕ)
  | sendTimeout (timeout : ℤ) (data : Option ℕ)
  | subscribeRead (fd : ℤ) (data : Option ℕ)
  | subscribeWrite (fd : ℤ) (data : Option ℕ)
  | unsubscribe (event : ℕ)
  | wait (ready : List (ℤ × Direction)) (due : List (ℤ × SentFilter)) (max_events : ℕ)
  | free (event : ℕ)
  | close (fd : ℤ)
  deriving Repr, DecidableEq

/-- As `Session`, over a kqueue. -/
structure QueueSession where
  events : EventQueue
  created : List (ℕ × Event)
  waited : List (ℕ × Option Event)
  unsubscribed : List ℕ
  freed : List ℕ

/-- After a call that made a record. -/
def QueueSession.create (s : QueueSession) (event : Event) (q : EventQueue) : QueueSession :=
  { s with events := q, created := s.created ++ [(s.events.kqueue.records.next, event)] }

def QueueSession.step : QueueCall → QueueSession → Except Fault QueueSession
  | .sendCustom data, s =>
    let (id, q) := EventQueue.eventsSendCustom s.events.kqueue.manager data s.events
    .ok (s.create ⟨.custom, id, data⟩ q)
  | .sendTimeout timeout data, s =>
    let (id, q) := EventQueue.eventsSendTimeout s.events.kqueue.manager timeout data s.events
    .ok (s.create ⟨.timer, id, data⟩ q)
  | .subscribeRead fd data, s =>
    let (_result, q) := EventQueue.onKqueue
      (Kqueue.eventsSubscribeRead s.events.kqueue.manager fd data) s.events
    .ok (s.create ⟨.read, fd, data⟩ q)
  | .subscribeWrite fd data, s =>
    let (_result, q) := EventQueue.onKqueue
      (Kqueue.eventsSubscribeWrite s.events.kqueue.manager fd data) s.events
    .ok (s.create ⟨.write, fd, data⟩ q)
  | .unsubscribe p, s =>
    match s.events.kqueue.records.get? p with
    | none => .error .undefinedBehaviour
    | some event => .ok { s with
        events := (EventQueue.onKqueue
          (Kqueue.eventsUnsubscribe s.events.kqueue.manager event) s.events).2
        unsubscribed := p :: s.unsubscribed }
  | .wait ready due max_events, s =>
    let ((_event_count, events), q) :=
      EventQueue.eventsWait s.events.kqueue.manager ready due max_events s.events
    .ok { s with
      events := q
      waited := s.waited ++ events.map fun p => (p, q.kqueue.records.get? p) }
  | .free p, s =>
    match s.events.kqueue.records.get? p with
    | none => .error .undefinedBehaviour
    | some event => .ok { s with
        events := (EventQueue.onKqueue (Kqueue.eventsFree p event) s.events).2
        freed := p :: s.freed }
  | .close fd, s => .ok { s with
      events := { s.events with kqueue := { s.events.kqueue with
        queue := s.events.kqueue.queue.filter fun r => r.1.1 ≠ fd } } }

/-- A wait returned the pointer, and it has not been freed. -/
def QueueSession.Holds (s : QueueSession) (p : ℕ) : Prop :=
  p ∈ s.waited.map Prod.fst ∧ p ∉ s.freed

/-- The kernel calls of the sends succeed and the ids do not run out, callers use the pointers they
hold, and free the event of a subscription after they unsubscribed it. -/
def QueueCall.Ok : QueueCall → QueueSession → Prop
  | .sendCustom _, s => s.events.willing 2 ∧ s.events.next_id < 2 ^ 31 - 1
  | .sendTimeout _ _, s => s.events.willing 1 ∧ s.events.next_id < 2 ^ 31 - 1
  | .unsubscribe p, s => s.Holds p
  | .free p, s => s.Holds p
    ∧ ∀ event, (p, event) ∈ s.created → event.Subscribed → p ∈ s.unsubscribed
  | _, _ => True

/-- As `Session.NoStale`. -/
structure QueueSession.NoStale (s : QueueSession) : Prop where
  distinct : (s.created.map Prod.fst).Nodup
  waited : ∀ p content, (p, content) ∈ s.waited →
    ∃ event, content = some event ∧ (p, event) ∈ s.created

/-- The events that were sent and wait in the queue. -/
def EventQueue.pending (q : EventQueue) : List ℕ := q.sent.map fun r => r.2.udata

/-- A queue that nothing was done with. -/
def QueueSession.start (manager : ℤ) (sched : ℕ → Option ℤ) : QueueSession :=
  ⟨⟨⟨manager, [], Heap.empty, [], sched, 0⟩, [], 0⟩, [], [], [], []⟩

end Calls

section Invariant

/-- The record is allocated and as it was created. -/
def QueueSession.Intact (s : QueueSession) (p : ℕ) (event : Event) : Prop :=
  (p, event) ∈ s.created ∧ s.events.kqueue.records.get? p = some event

/-- A registration of a descriptor has the intact record of a subscription that stands. -/
def QueueSession.Backed (s : QueueSession) (key : ℤ × Direction) (p : ℕ) : Prop :=
  ∃ event, s.Intact p event ∧ event.isSent = false ∧ (event.id, event.direction) = key
    ∧ p ∉ s.unsubscribed

structure QueueSession.Inv (s : QueueSession) : Prop where
  noStale : s.NoStale
  queued : ∀ key p, (key, p) ∈ s.events.kqueue.queue → s.Backed key p
  sent : ∀ r ∈ s.events.sent, ∃ event, s.Intact r.2.udata event ∧ event.isSent = true
  counted : s.events.Counted
  held : ∀ p, s.Holds p → ∃ event, s.Intact p event
  bounded : ∀ p ∈ s.created.map Prod.fst, p < s.events.kqueue.records.next
  unsubscribed : ∀ p ∈ s.unsubscribed, p < s.events.kqueue.records.next
  accounts : Accounts (postedOf s.created) s.events.pending (takenOf s.waited)

variable {s : QueueSession} {p : ℕ} {event : Event} {q : EventQueue}

theorem queueStart_inv (manager : ℤ) (sched : ℕ → Option ℤ) :
    (QueueSession.start manager sched).Inv := by
  refine ⟨⟨List.nodup_nil, fun _ _ h => ?_⟩, fun _ _ h => ?_, fun _ h => ?_, fun _ h => ?_,
    fun p h => ?_, fun _ h => ?_, fun _ h => ?_, Mailbox.accounts_nil⟩
  · cases h
  · cases h
  · cases h
  · cases h
  · cases h.1
  · cases h
  · cases h

/-- Two events of one pointer are the same. -/
theorem QueueSession.Intact.unique {event' : Event} (h : s.Intact p event)
    (h' : s.Intact p event') : event = event' := by
  rw [← Option.some.injEq, ← h.2, h'.2]

/-- A call makes a record, and registers it with the descriptors or with what was sent. -/
structure QueueSession.Creates (s : QueueSession) (event : Event) (q : EventQueue) : Prop where
  records : q.kqueue.records = s.events.kqueue.records.alloc event
  queue : ∀ key p, (key, p) ∈ q.kqueue.queue → (key, p) ∈ s.events.kqueue.queue
    ∨ p = s.events.kqueue.records.next ∧ event.isSent = false ∧ (event.id, event.direction) = key
  sent : q.sent = s.events.sent ∧ event.isSent = false
    ∨ ∃ r, q.sent = s.events.sent ++ [r] ∧ r.2.udata = s.events.kqueue.records.next
      ∧ event.isSent = true
  counted : q.Counted

theorem QueueSession.Intact.create {new : Event} (h : s.Intact p event) (hc : s.Creates new q) :
    (s.create new q).Intact p event :=
  ⟨List.mem_append_left _ h.1,
    (congrArg (Heap.get? · p) hc.records).trans (Heap.get?_alloc h.2 new)⟩

theorem QueueSession.Creates.intact (hc : s.Creates event q) :
    (s.create event q).Intact s.events.kqueue.records.next event :=
  ⟨List.mem_append_right _ List.mem_cons_self,
    (congrArg (Heap.get? · _) hc.records).trans (Heap.get?_alloc_next _ _)⟩

theorem QueueSession.Creates.next (hc : s.Creates event q) :
    q.kqueue.records.next = s.events.kqueue.records.next + 1 := by
  rw [hc.records, Heap.next_alloc]

theorem QueueSession.Inv.noStale_create (h : s.Inv) : (s.create event q).NoStale where
  distinct := Assoc.nodup_keys_concat event h.noStale.distinct fun p hp =>
    (h.bounded p.1 (List.mem_map_of_mem hp)).ne
  waited p content hp := by
    obtain ⟨event, hcontent, hcreated⟩ := h.noStale.waited p content hp
    exact ⟨event, hcontent, List.mem_append_left _ hcreated⟩

theorem QueueSession.Inv.queued_create (h : s.Inv) (hc : s.Creates event q)
    {key : ℤ × Direction} (hp : (key, p) ∈ q.kqueue.queue) : (s.create event q).Backed key p := by
  rcases hc.queue key p hp with hp | ⟨rfl, hnot, hkey⟩
  · obtain ⟨event, hintact, hrest⟩ := h.queued key p hp
    exact ⟨event, hintact.create hc, hrest⟩
  · exact ⟨event, hc.intact, hnot, hkey, fun hmem => lt_irrefl _ (h.unsubscribed _ hmem)⟩

theorem QueueSession.Inv.sent_create (h : s.Inv) (hc : s.Creates event q)
    {r : (ℤ × SentFilter) × Knote} (hr : r ∈ q.sent) :
    ∃ event', (s.create event q).Intact r.2.udata event' ∧ event'.isSent = true := by
  have hold : r ∈ s.events.sent →
      ∃ event', (s.create event q).Intact r.2.udata event' ∧ event'.isSent = true := by
    intro hr
    obtain ⟨event', hintact, hrest⟩ := h.sent r hr
    exact ⟨event', hintact.create hc, hrest⟩
  rcases hc.sent with ⟨heq, -⟩ | ⟨r', heq, hudata, hissent⟩
  · exact hold (heq ▸ hr)
  · rw [heq] at hr
    rcases List.mem_append.1 hr with hr | hr
    · exact hold hr
    · obtain rfl := List.mem_singleton.1 hr
      exact ⟨event, hudata ▸ hc.intact, hissent⟩

theorem QueueSession.Inv.bounded_create (h : s.Inv) (hc : s.Creates event q)
    (hp : p ∈ (s.create event q).created.map Prod.fst) : p < q.kqueue.records.next := by
  have hp : p ∈ (s.created ++ [(s.events.kqueue.records.next, event)]).map Prod.fst := hp
  rw [List.map_append, List.mem_append, List.map_singleton, List.mem_singleton] at hp
  rw [hc.next]
  rcases hp with hp | rfl
  · exact (h.bounded p hp).trans (Nat.lt_succ_self _)
  · exact Nat.lt_succ_self _

theorem QueueSession.Inv.accounts_create (h : s.Inv) (hc : s.Creates event q) :
    Accounts (postedOf (s.create event q).created) q.pending (takenOf s.waited) := by
  have hcreated : (s.create event q).created
      = s.created ++ [(s.events.kqueue.records.next, event)] := rfl
  rw [hcreated, postedOf_concat]
  unfold EventQueue.pending
  rcases hc.sent with ⟨heq, hissent⟩ | ⟨r, heq, hudata, hissent⟩
  · rw [heq, hissent, if_neg Bool.false_ne_true, List.append_nil]
    exact h.accounts
  · rw [heq, hissent, if_pos rfl, List.map_append, List.map_singleton, hudata]
    exact h.accounts.post (notMem_postedOf h.bounded)

theorem QueueSession.Inv.create (h : s.Inv) (hc : s.Creates event q) :
    (s.create event q).Inv where
  noStale := h.noStale_create
  queued _ _ hp := h.queued_create hc hp
  sent _ hr := h.sent_create hc hr
  counted := hc.counted
  held p hp := by
    obtain ⟨event, hintact⟩ := h.held p hp
    exact ⟨event, hintact.create hc⟩
  bounded _ hp := h.bounded_create hc hp
  unsubscribed p hp := (h.unsubscribed p hp).trans (hc.next ▸ Nat.lt_succ_self _)
  accounts := h.accounts_create hc

/-- Registrations of descriptors go. -/
theorem QueueSession.Inv.shrink (h : s.Inv) {k : Kqueue}
    (hrecords : k.records = s.events.kqueue.records)
    (hqueue : k.queue.Sublist s.events.kqueue.queue) :
    { s with events := { s.events with kqueue := k } }.Inv := by
  obtain ⟨noStale, queued, sent, counted, held, bounded, unsubscribed, accounts⟩ := h
  unfold QueueSession.Backed QueueSession.Intact at queued
  unfold QueueSession.Intact at sent held
  rw [← hrecords] at queued sent held bounded unsubscribed
  exact ⟨⟨noStale.distinct, noStale.waited⟩, fun key p hp => queued key p (hqueue.subset hp), sent,
    counted, held, bounded, unsubscribed, accounts⟩

/-- A pointer that is in no registration of a descriptor counts as unsubscribed. -/
theorem QueueSession.Inv.addUnsubscribed (h : s.Inv) (hp : p < s.events.kqueue.records.next)
    (hnone : ∀ key, (key, p) ∉ s.events.kqueue.queue) :
    { s with unsubscribed := p :: s.unsubscribed }.Inv := by
  refine ⟨⟨h.noStale.distinct, h.noStale.waited⟩, fun key q hq => ?_, h.sent, h.counted, h.held,
    h.bounded, fun q hq => ?_, h.accounts⟩
  · obtain ⟨event, hintact, hnot, hkey, hunsubscribed⟩ := h.queued key q hq
    refine ⟨event, hintact, hnot, hkey, fun hmem => ?_⟩
    rcases List.mem_cons.1 hmem with rfl | hmem
    · exact hnone key hq
    · exact hunsubscribed hmem
  · rcases List.mem_cons.1 hq with rfl | hq
    · exact hp
    · exact h.unsubscribed q hq

/-- A record without a registration can be freed. -/
theorem QueueSession.Inv.addFreed (h : s.Inv) (hqueue : ∀ key, (key, p) ∉ s.events.kqueue.queue)
    (hsent : p ∉ s.events.pending) :
    { s with
      events := { s.events with kqueue := { s.events.kqueue with
        records := s.events.kqueue.records.release p } }
      freed := p :: s.freed }.Inv := by
  refine ⟨⟨h.noStale.distinct, h.noStale.waited⟩, fun key q hq => ?_, fun r hr => ?_, h.counted,
    fun q hq => ?_, ?_, ?_, h.accounts⟩
  · obtain ⟨event, ⟨hcreated, hrecord⟩, hrest⟩ := h.queued key q hq
    have hne : p ≠ q := fun heq => hqueue key (heq ▸ hq)
    exact ⟨event, ⟨hcreated, (Heap.get?_release_of_ne _ hne).trans hrecord⟩, hrest⟩
  · obtain ⟨event, ⟨hcreated, hrecord⟩, hrest⟩ := h.sent r hr
    have hne : p ≠ r.2.udata := fun heq => hsent (List.mem_map.2 ⟨r, hr, heq.symm⟩)
    exact ⟨event, ⟨hcreated, (Heap.get?_release_of_ne _ hne).trans hrecord⟩, hrest⟩
  · obtain ⟨hwaited, hfreed⟩ := hq
    rw [List.mem_cons, not_or] at hfreed
    obtain ⟨event, hcreated, hrecord⟩ := h.held q ⟨hwaited, hfreed.2⟩
    exact ⟨event, hcreated, (Heap.get?_release_of_ne _ (Ne.symm hfreed.1)).trans hrecord⟩
  · intro q hq
    rw [Heap.next_release]
    exact h.bounded q hq
  · intro q hq
    rw [Heap.next_release]
    exact h.unsubscribed q hq

end Invariant

section Steps

variable {s : QueueSession} {p : ℕ} {event : Event} {q : EventQueue}

theorem isSent_eq_false : event.isSent = false ↔ event.Subscribed := by
  unfold Event.isSent Event.Subscribed
  cases event.type <;> simp

theorem EventQueue.Counted.addSent (h : q.Counted) (type : EventType) (filter : SentFilter)
    (data : Option ℕ) (triggered : Bool) (n : ℕ) :
    (q.addSent type filter data triggered n).Counted := by
  intro r hr
  show r.1.1 ≤ q.next_id + 1
  rcases List.mem_append.1 hr with hr | hr
  · exact (h r hr).trans (by omega)
  · rw [List.mem_singleton.1 hr]

theorem QueueSession.Inv.send (h : s.Inv) {type : EventType}
    (htype : type = .custom ∨ type = .timer) (filter : SentFilter) (data : Option ℕ)
    (triggered : Bool) (n : ℕ) :
    (s.create ⟨type, s.events.next_id + 1, data⟩
      (s.events.addSent type filter data triggered n)).Inv :=
  h.create ⟨rfl, fun _ _ hp => Or.inl hp, Or.inr ⟨_, rfl, rfl, isSent_eq_true.2 htype⟩,
    h.counted.addSent type filter data triggered n⟩

/-- A subscription makes a record, and is the only new registration if it is one. -/
theorem Kqueue.eventsSubscribe_run (type : EventType) (direction : Direction) (fd : ℤ)
    (data : Option ℕ) (k : Kqueue) :
    (Kqueue.eventsSubscribe type direction k.manager fd data k).2.records
        = k.records.alloc ⟨type, fd, data⟩
      ∧ ∀ r ∈ (Kqueue.eventsSubscribe type direction k.manager fd data k).2.queue,
        r ∈ k.queue ∨ r = ((fd, direction), k.records.next) := by
  have hrun : (Kqueue.eventsSubscribe type direction k.manager fd data k).2
      = if (k.sched k.syscalls).isSome ∧ k.manager = k.manager then
          { k with
            queue := Assoc.put k.queue (fd, direction) k.records.next
            records := k.records.alloc ⟨type, fd, data⟩
            syscalls := k.syscalls + 1 }
        else { k with
          records := k.records.alloc ⟨type, fd, data⟩
          syscalls := k.syscalls + 1 } := rfl
  rw [hrun]
  split_ifs
  · exact ⟨rfl, fun r hr => (Assoc.mem_put hr).symm⟩
  · exact ⟨rfl, fun r hr => Or.inl hr⟩

theorem QueueSession.Inv.subscribe (h : s.Inv) {type : EventType} {direction : Direction}
    (htype : type = .read ∧ direction = .input ∨ type = .write ∧ direction = .output) (fd : ℤ)
    (data : Option ℕ) :
    (s.create ⟨type, fd, data⟩ (EventQueue.onKqueue
      (Kqueue.eventsSubscribe type direction s.events.kqueue.manager fd data) s.events).2).Inv := by
  obtain ⟨hrecords, hqueue⟩ := Kqueue.eventsSubscribe_run type direction fd data s.events.kqueue
  have hsent : (⟨type, fd, data⟩ : Event).isSent = false := by
    rcases htype with ⟨rfl, -⟩ | ⟨rfl, -⟩ <;> rfl
  have hdirection : (⟨type, fd, data⟩ : Event).direction = direction := by
    rcases htype with ⟨rfl, rfl⟩ | ⟨rfl, rfl⟩ <;> rfl
  refine h.create ⟨hrecords, fun key p hp => ?_, Or.inl ⟨rfl, hsent⟩, h.counted⟩
  rcases hqueue (key, p) hp with hp | heq
  · exact Or.inl hp
  · obtain ⟨rfl, rfl⟩ := Prod.mk.inj heq
    exact Or.inr ⟨rfl, hsent, by rw [hdirection]⟩

theorem queueStep_unsubscribe (h : s.events.kqueue.records.get? p = some event) :
    QueueSession.step (.unsubscribe p) s = .ok { s with
      events := (EventQueue.onKqueue
        (Kqueue.eventsUnsubscribe s.events.kqueue.manager event) s.events).2
      unsubscribed := p :: s.unsubscribed } := by
  simp only [QueueSession.step, h]

theorem queueStep_free (h : s.events.kqueue.records.get? p = some event) :
    QueueSession.step (.free p) s = .ok { s with
      events := (EventQueue.onKqueue (Kqueue.eventsFree p event) s.events).2
      freed := p :: s.freed } := by
  simp only [QueueSession.step, h]

/-- The registration of a subscription goes, and an event that was sent has none of this kind. -/
theorem Kqueue.eventsUnsubscribe_run (event : Event) (k : Kqueue) :
    (Kqueue.eventsUnsubscribe k.manager event k).2 = { k with
      queue := if event.isSent = true then k.queue
        else Assoc.erase k.queue (event.id, event.direction) } := by
  have hdelete : ∀ filter, (keventDelete k.manager event.id filter k).2
      = { k with queue := Assoc.erase k.queue (event.id, filter) } :=
    fun _ => congrArg Prod.snd (congrArg (Prod.mk ()) (if_pos rfl))
  unfold Kqueue.eventsUnsubscribe Event.isSent Event.direction
  cases event.type with
  | read => exact hdelete _
  | write => exact hdelete _
  | custom => rfl
  | timer => rfl

/-- The registrations of a pointer are those of its record. -/
theorem QueueSession.Inv.key_eq (h : s.Inv) (hintact : s.Intact p event) {key : ℤ × Direction}
    (hp : (key, p) ∈ s.events.kqueue.queue) :
    event.isSent = false ∧ (event.id, event.direction) = key ∧ p ∉ s.unsubscribed := by
  obtain ⟨event', hintact', hrest⟩ := h.queued key p hp
  rw [hintact.unique hintact']
  exact hrest

theorem QueueSession.Inv.unsubscribe (h : s.Inv) (hp : s.Holds p) :
    ∃ t, QueueSession.step (.unsubscribe p) s = .ok t ∧ t.Inv := by
  obtain ⟨event, hintact⟩ := h.held p hp
  refine ⟨_, queueStep_unsubscribe hintact.2, ?_⟩
  have hrun : (EventQueue.onKqueue
      (Kqueue.eventsUnsubscribe s.events.kqueue.manager event) s.events).2
      = { s.events with
        kqueue := (Kqueue.eventsUnsubscribe s.events.kqueue.manager event s.events.kqueue).2 } :=
    rfl
  rw [hrun, Kqueue.eventsUnsubscribe_run]
  have hshrunk : { s with events := { s.events with kqueue := { s.events.kqueue with
      queue := if event.isSent = true then s.events.kqueue.queue
        else Assoc.erase s.events.kqueue.queue (event.id, event.direction) } } }.Inv := by
    refine h.shrink rfl ?_
    show (ite _ _ _ : List ((ℤ × Direction) × ℕ)).Sublist _
    split_ifs
    · exact List.Sublist.refl _
    · exact List.filter_sublist
  refine hshrunk.addUnsubscribed (Heap.get?_lt hintact.2) fun key hmem => ?_
  have hmem : (key, p) ∈ if event.isSent = true then s.events.kqueue.queue
      else Assoc.erase s.events.kqueue.queue (event.id, event.direction) := hmem
  split_ifs at hmem with hsent
  · obtain ⟨hnot, -⟩ := h.key_eq hintact hmem
    exact Bool.noConfusion (hnot.symm.trans hsent)
  · obtain ⟨hmem, hne⟩ := List.mem_filter.1 hmem
    obtain ⟨-, rfl, -⟩ := h.key_eq hintact hmem
    exact absurd rfl (of_decide_eq_true hne)

/-- The event that a caller holds is no longer pending. -/
theorem QueueSession.Inv.not_pending (h : s.Inv) (hp : s.Holds p) : p ∉ s.events.pending := by
  intro hpending
  obtain ⟨r, hr, rfl⟩ := List.mem_map.1 hpending
  obtain ⟨event, hintact, hsent⟩ := h.sent r hr
  exact h.accounts.not_pending
    (mem_takenOf h.noStale.distinct h.noStale.waited hp.1 hintact.1 hsent) hpending

theorem QueueSession.Inv.free (h : s.Inv) (hp : s.Holds p)
    (hunsubscribed : ∀ event, (p, event) ∈ s.created → event.Subscribed → p ∈ s.unsubscribed) :
    ∃ t, QueueSession.step (.free p) s = .ok t ∧ t.Inv := by
  obtain ⟨event, hintact⟩ := h.held p hp
  refine ⟨_, queueStep_free hintact.2, ?_⟩
  have hqueue : ∀ key, (key, p) ∉ s.events.kqueue.queue := by
    intro key hmem
    obtain ⟨hnot, -, hstands⟩ := h.key_eq hintact hmem
    exact hstands (hunsubscribed event hintact.1 (isSent_eq_false.1 hnot))
  have hpending := h.not_pending hp
  by_cases htype : event.type = .read
  · have hfree : (EventQueue.onKqueue (Kqueue.eventsFree p event) s.events).2
        = { s.events with kqueue :=
          (Kqueue.freeEvent p (Kqueue.closeFd event.id s.events.kqueue).2).2 } := by
      unfold Kqueue.eventsFree
      rw [if_pos htype]
      rfl
    rw [hfree]
    have hclosed : { s with events := { s.events with
        kqueue := (Kqueue.closeFd event.id s.events.kqueue).2 } }.Inv :=
      h.shrink rfl List.filter_sublist
    exact hclosed.addFreed (fun key hmem => hqueue key (List.mem_filter.1 hmem).1) hpending
  · have hfree : (EventQueue.onKqueue (Kqueue.eventsFree p event) s.events).2
        = { s.events with kqueue := (Kqueue.freeEvent p s.events.kqueue).2 } := by
      unfold Kqueue.eventsFree
      rw [if_neg htype]
      rfl
    rw [hfree]
    exact h.addFreed hqueue hpending

end Steps

section Wait

variable {s : QueueSession}

/-- What a wait reports of what was sent. -/
def EventQueue.fired (q : EventQueue) (ready : List (ℤ × Direction)) (due : List (ℤ × SentFilter))
    (max_events : ℕ) : List ((ℤ × SentFilter) × Knote) :=
  (q.sent.filter (EventQueue.fires due)).take
    (max_events - ((q.kqueue.reported ready max_events).map Prod.snd).length)

theorem queueWait_run {q : EventQueue} (hwilling : (q.kqueue.sched q.kqueue.syscalls).isSome = true)
    (ready : List (ℤ × Direction)) (due : List (ℤ × SentFilter)) (max_events : ℕ) :
    ∃ n, EventQueue.eventsWait q.kqueue.manager ready due max_events q
      = ((n, (q.kqueue.reported ready max_events).map Prod.snd
          ++ (q.fired ready due max_events).map fun r => r.2.udata),
        { q with
          kqueue := { q.kqueue with syscalls := q.kqueue.syscalls + 1 }
          sent := q.unfired (q.fired ready due max_events) }) := by
  refine ⟨((q.kqueue.reported ready max_events).length : ℤ)
    + (q.fired ready due max_events).length, ?_⟩
  unfold EventQueue.eventsWait
  rw [queueM_bind]
  unfold EventQueue.onKqueue
  rw [Kqueue.eventsWait_run hwilling]
  exact congrFun (if_neg (by omega)) _

theorem queueWait_refused {q : EventQueue}
    (hwilling : ¬ (q.kqueue.sched q.kqueue.syscalls).isSome = true)
    (ready : List (ℤ × Direction)) (due : List (ℤ × SentFilter)) (max_events : ℕ) :
    EventQueue.eventsWait q.kqueue.manager ready due max_events q
      = ((-1, []), { q with kqueue := { q.kqueue with syscalls := q.kqueue.syscalls + 1 } }) := by
  unfold EventQueue.eventsWait
  rw [queueM_bind]
  unfold EventQueue.onKqueue
  rw [Kqueue.eventsWait_refused hwilling]
  exact congrFun (if_pos (by omega)) _

/-- The session after a wait that reported some registrations. -/
def QueueSession.report (s : QueueSession) (reported : List ((ℤ × Direction) × ℕ))
    (fired : List ((ℤ × SentFilter) × Knote)) (n : ℕ) : QueueSession :=
  { s with
    events := { s.events with
      kqueue := { s.events.kqueue with syscalls := n }
      sent := s.events.unfired fired }
    waited := s.waited ++ (reported.map Prod.snd ++ fired.map fun r => r.2.udata).map fun p =>
      (p, s.events.kqueue.records.get? p) }

variable {reported : List ((ℤ × Direction) × ℕ)} {fired : List ((ℤ × SentFilter) × Knote)}

theorem queueTaken_report (h : s.Inv) (hreported : ∀ r ∈ reported, r ∈ s.events.kqueue.queue)
    (hfired : ∀ r ∈ fired, r ∈ s.events.sent) (n : ℕ) :
    takenOf (s.report reported fired n).waited
      = takenOf s.waited ++ fired.map fun r => r.2.udata := by
  unfold QueueSession.report
  rw [takenOf_append, List.filter_append]
  congr 1
  have hnone : (reported.map Prod.snd).filter (fun p =>
      (s.events.kqueue.records.get? p).any Event.isSent) = [] := by
    refine List.filter_eq_nil_iff.2 fun p hp => ?_
    obtain ⟨r, hr, rfl⟩ := List.mem_map.1 hp
    obtain ⟨event, ⟨-, hrecord⟩, hnot, -⟩ := h.queued r.1 r.2 (hreported r hr)
    simp [hrecord, hnot]
  have hall : (fired.map fun r => r.2.udata).filter (fun p =>
      (s.events.kqueue.records.get? p).any Event.isSent) = fired.map fun r => r.2.udata := by
    refine List.filter_eq_self.2 fun p hp => ?_
    obtain ⟨r, hr, rfl⟩ := List.mem_map.1 hp
    obtain ⟨event, ⟨-, hrecord⟩, hsent⟩ := h.sent r (hfired r hr)
    simp [hrecord, hsent]
  rw [hnone, hall, List.nil_append]

theorem QueueSession.Inv.report (h : s.Inv)
    (hreported : ∀ r ∈ reported, r ∈ s.events.kqueue.queue)
    (hfired : fired.Sublist s.events.sent) (n : ℕ) : (s.report reported fired n).Inv := by
  have hintact : ∀ p ∈ reported.map Prod.snd ++ fired.map fun r => r.2.udata,
      ∃ event, s.Intact p event := by
    intro p hp
    rcases List.mem_append.1 hp with hp | hp
    · obtain ⟨r, hr, rfl⟩ := List.mem_map.1 hp
      obtain ⟨event, hintact, -⟩ := h.queued r.1 r.2 (hreported r hr)
      exact ⟨event, hintact⟩
    · obtain ⟨r, hr, rfl⟩ := List.mem_map.1 hp
      obtain ⟨event, hintact, -⟩ := h.sent r (hfired.subset hr)
      exact ⟨event, hintact⟩
  refine ⟨⟨h.noStale.distinct, fun p content hp => ?_⟩, h.queued,
    fun r hr => h.sent r (List.mem_filter.1 hr).1, fun r hr => h.counted r (List.mem_filter.1 hr).1,
    fun p hp => ?_, h.bounded, h.unsubscribed, ?_⟩
  · rcases List.mem_append.1 hp with hp | hp
    · exact h.noStale.waited p content hp
    · obtain ⟨q, hq, heq⟩ := List.mem_map.1 hp
      obtain ⟨rfl, rfl⟩ := Prod.mk.inj heq
      obtain ⟨event, hcreated, hrecord⟩ := hintact q hq
      exact ⟨event, hrecord, hcreated⟩
  · obtain ⟨hwaited, hfreed⟩ := hp
    have hwaited : p ∈ (s.waited ++ _).map Prod.fst := hwaited
    rw [List.map_append, List.mem_append, List.map_map] at hwaited
    rcases hwaited with hwaited | hwaited
    · exact h.held p ⟨hwaited, hfreed⟩
    · obtain ⟨q, hq, rfl⟩ := List.mem_map.1 hwaited
      exact hintact q hq
  · rw [queueTaken_report h hreported hfired.subset]
    exact h.accounts.deliver hfired

theorem queueStep_wait {ready : List (ℤ × Direction)} {due : List (ℤ × SentFilter)}
    {max_events : ℕ} {n : ℤ} {ps : List ℕ} {q : EventQueue}
    (h : EventQueue.eventsWait s.events.kqueue.manager ready due max_events s.events
      = ((n, ps), q)) :
    QueueSession.step (.wait ready due max_events) s = .ok { s with
      events := q
      waited := s.waited ++ ps.map fun p => (p, q.kqueue.records.get? p) } := by
  simp only [QueueSession.step, h]

theorem QueueSession.Inv.wait (h : s.Inv) (ready : List (ℤ × Direction))
    (due : List (ℤ × SentFilter)) (max_events : ℕ) :
    ∃ t, QueueSession.step (.wait ready due max_events) s = .ok t ∧ t.Inv := by
  by_cases hwilling : (s.events.kqueue.sched s.events.kqueue.syscalls).isSome = true
  · obtain ⟨n, hrun⟩ := queueWait_run hwilling ready due max_events
    refine ⟨_, queueStep_wait hrun, h.report (fun r hr => ?_) ?_ _⟩
    · exact (List.mem_filter.1 (List.mem_of_mem_take hr)).1
    · exact (List.take_sublist _ _).trans List.filter_sublist
  · refine ⟨_, queueStep_wait (queueWait_refused hwilling ready due max_events), ?_⟩
    rw [List.map_nil, List.append_nil]
    exact h.shrink rfl (List.Sublist.refl _)

end Wait

section Runs

theorem queue_step (call : QueueCall) (s : QueueSession) (hok : call.Ok s) (h : s.Inv) :
    ∃ t, QueueSession.step call s = .ok t ∧ t.Inv := by
  cases call with
  | sendCustom data =>
    obtain ⟨n, hsend⟩ := queueSendCustom_ok h.counted hok.1 data
    exact ⟨_, by simp only [QueueSession.step, hsend], h.send (Or.inl rfl) .user data true n⟩
  | sendTimeout timeout data =>
    obtain ⟨n, hsend⟩ := queueSendTimeout_ok h.counted hok.1 timeout data
    exact ⟨_, by simp only [QueueSession.step, hsend], h.send (Or.inr rfl) .timer data false n⟩
  | subscribeRead fd data => exact ⟨_, rfl, h.subscribe (Or.inl ⟨rfl, rfl⟩) fd data⟩
  | subscribeWrite fd data => exact ⟨_, rfl, h.subscribe (Or.inr ⟨rfl, rfl⟩) fd data⟩
  | unsubscribe p => exact h.unsubscribe hok
  | wait ready due max_events => exact h.wait ready due max_events
  | free p => exact h.free hok.1 hok.2
  | close fd => exact ⟨_, rfl, h.shrink rfl List.filter_sublist⟩

/-- On a kqueue too no stale event is delivered, and every custom event and timer that was sent
waits in the queue or was handed out, once. -/
theorem queueOnce (manager : ℤ) (sched : ℕ → Option ℤ) (calls : List QueueCall)
    (hok : Run.Allowed QueueSession.step QueueCall.Ok calls (QueueSession.start manager sched)) :
    ∃ s, Run.run QueueSession.step calls (QueueSession.start manager sched) = .ok s
      ∧ s.NoStale ∧ Accounts (postedOf s.created) s.events.pending (takenOf s.waited) := by
  obtain ⟨s, hrun, h⟩ := Run.run_inv queue_step calls _ hok (queueStart_inv manager sched)
  exact ⟨s, hrun, h.noStale, h.accounts⟩

/-- A timer and a subscription that are reported together, and freed. -/
theorem queueOnce_two : ∃ s, Run.run QueueSession.step
    [.subscribeRead 6 none, .sendTimeout 10 (some 7),
      .wait [(6, .input)] [(1, .timer)] 2, .unsubscribe 0, .free 0, .free 1]
    (QueueSession.start 3 fun _ => some 0) = .ok s
      ∧ s.NoStale ∧ Accounts (postedOf s.created) s.events.pending (takenOf s.waited) := by
  refine queueOnce 3 _ _ ⟨trivial, ?_⟩
  rintro s ⟨⟩
  refine ⟨⟨fun _ _ => rfl, by decide⟩, ?_⟩
  rintro s ⟨⟩
  refine ⟨trivial, ?_⟩
  rintro s ⟨⟩
  refine ⟨⟨by decide, by decide⟩, ?_⟩
  rintro s ⟨⟩
  refine ⟨⟨⟨by decide, by decide⟩, fun _ _ _ => by decide⟩, ?_⟩
  rintro s ⟨⟩
  refine ⟨⟨⟨by decide, by decide⟩, fun event hcreated hsubscribed => ?_⟩, fun _ _ => trivial⟩
  have hcreated : (1, event) ∈ [(0, ⟨.read, 6, none⟩), (1, (⟨.timer, 1, some 7⟩ : Event))] :=
    hcreated
  have hevent : event = ⟨.timer, 1, some 7⟩ := by simpa using hcreated
  exact absurd hsubscribed (isSent_eq_false.not.1 (by rw [hevent]; decide))

end Runs

end Erlm
