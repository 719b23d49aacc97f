import Erlm.Events

/-!
# The other half of `events.c`

The event layer on FreeBSD and macOS: a kqueue whose registrations have a descriptor and a filter,
and one-shot registrations of what the layer sends itself. Adding one that is there already puts the
new pointer in the place of the old one. The layer does not look at the results of the calls that
change the queue.
-/

namespace Erlm

/-- What a descriptor can be ready for: `EVFILT_READ` and `EVFILT_WRITE`, or `EPOLLIN` and
`EPOLLOUT`. -/
inductive Direction
  | input
  | output
  deriving Repr, DecidableEq

/-- The kqueue descriptor and its registrations, each with the pointer in `udata`, the event
records, the descriptors the layer closed, the kernel's decisions and how many were made. -/
structure Kqueue where
  manager : ℤ
  queue : List ((ℤ × Direction) × ℕ)
  records : Heap Event
  closed : List ℤ
  sched : ℕ → Option ℤ
  syscalls : ℕ

abbrev KqueueM := StateM Kqueue

namespace Kqueue

section Kernel

def kernelDecides : KqueueM (Option ℤ) := fun k =>
  (k.sched k.syscalls, { k with syscalls := k.syscalls + 1 })

/-- Closing a descriptor takes it out of the queue. -/
def closeFd (fd : ℤ) : KqueueM Unit := modify fun k =>
  { k with
    queue := k.queue.filter fun r => r.1.1 ≠ fd
    closed := k.closed ++ [fd] }

/-- `EV_ADD` -/
def keventAdd (manager ident : ℤ) (filter : Direction) (udata : ℕ) : KqueueM Unit := do
  let decision ← kernelDecides
  modify fun k =>
    if decision.isSome ∧ manager = k.manager then
      { k with queue := Assoc.put k.queue (ident, filter) udata }
    else k

/-- `EV_DELETE` -/
def keventDelete (manager ident : ℤ) (filter : Direction) : KqueueM Unit := modify fun k =>
  if manager = k.manager then { k with queue := Assoc.erase k.queue (ident, filter) } else k

/-- The registrations `kevent` reports, out of what the descriptors are ready for. -/
def reported (k : Kqueue) (ready : List (ℤ × Direction)) (max_events : ℕ) :
    List ((ℤ × Direction) × ℕ) :=
  (k.queue.filter fun r => r.1 ∈ ready).take max_events

end Kernel

def mallocEvent (event : Event) : KqueueM ℕ := fun k =>
  (k.records.next, { k with records := k.records.alloc event })

def freeEvent (event : ℕ) : KqueueM Unit := modify fun k =>
  { k with records := k.records.release event }

def eventsFree (event : ℕ) (record : Event) : KqueueM Unit := do
  if record.type = .read then closeFd record.id
  freeEvent event

/-- `events_subscribe_read` and `events_subscribe_write`, which differ in the type and the
filter. -/
def eventsSubscribe (type : EventType) (filter : Direction) (manager fd : ℤ) (data : Option ℕ) :
    KqueueM ℤ := do
  let event ← mallocEvent ⟨type, fd, data⟩
  keventAdd manager fd filter event
  return fd

def eventsSubscribeRead : ℤ → ℤ → Option ℕ → KqueueM ℤ := eventsSubscribe .read .input

def eventsSubscribeWrite : ℤ → ℤ → Option ℕ → KqueueM ℤ := eventsSubscribe .write .output

def eventsUnsubscribe (manager : ℤ) (event : Event) : KqueueM Unit :=
  if event.type = .read then keventDelete manager event.id .input
  else if event.type = .write then keventDelete manager event.id .output
  else return

/-- The count, negative on a failure, and the pointers of the events that `kevent` reports. -/
def eventsWait (manager : ℤ) (ready : List (ℤ × Direction)) (max_events : ℕ) :
    KqueueM (ℤ × List ℕ) := do
  let decision ← kernelDecides
  let k ← get
  if decision.isSome ∧ manager = k.manager then
    let reported := k.reported ready max_events
    return (reported.length, reported.map Prod.snd)
  else return (-1, [])

end Kqueue

/-- `EVFILT_USER` and `EVFILT_TIMER` -/
inductive SentFilter
  | user
  | timer
  deriving Repr, DecidableEq

/-- A registration that is `EV_ONESHOT`: the pointer in `udata`, and whether it was triggered. -/
structure Knote where
  udata : ℕ
  triggered : Bool
  deriving Repr, DecidableEq

/-- The queue with the events that the layer sends itself, and `events_next_id`. -/
structure EventQueue where
  kqueue : Kqueue
  sent : List ((ℤ × SentFilter) × Knote)
  next_id : ℤ

abbrev EventQueueM := StateM EventQueue

namespace EventQueue

def onKqueue {α : Type} (m : KqueueM α) : EventQueueM α := fun q =>
  let (a, kqueue) := m q.kqueue
  (a, { q with kqueue })

section Kernel

/-- `EV_ADD | EV_ONESHOT` -/
def keventAddOneshot (manager ident : ℤ) (filter : SentFilter) (udata : ℕ) : EventQueueM Unit := do
  let decision ← onKqueue Kqueue.kernelDecides
  modify fun q =>
    if decision.isSome ∧ manager = q.kqueue.manager then
      { q with sent := Assoc.put q.sent (ident, filter) ⟨udata, false⟩ }
    else q

def trigger (sent : List ((ℤ × SentFilter) × Knote)) (ident : ℤ) :
    List ((ℤ × SentFilter) × Knote) :=
  sent.map fun r => if r.1 = (ident, .user) then (r.1, { r.2 with triggered := true }) else r

/-- `EV_ENABLE` with `NOTE_TRIGGER`, which adds nothing. -/
def keventTrigger (manager ident : ℤ) : EventQueueM Unit := do
  let decision ← onKqueue Kqueue.kernelDecides
  modify fun q =>
    if decision.isSome ∧ manager = q.kqueue.manager then
      { q with sent := trigger q.sent ident }
    else q

/-- What is left of what was sent when some of it was reported. -/
def unfired (q : EventQueue) (fired : List ((ℤ × SentFilter) × Knote)) :
    List ((ℤ × SentFilter) × Knote) :=
  q.sent.filter fun r => r ∉ fired

/-- Whether `kevent` reports a registration: `due` are those it gets to, of which the timers have
expired. -/
def fires (due : List (ℤ × SentFilter)) (r : (ℤ × SentFilter) × Knote) : Bool :=
  r.1 ∈ due && (r.1.2 = .timer || r.2.triggered)

end Kernel

def nextId : EventQueueM ℤ := fun q =>
  (q.next_id + 1, { q with next_id := q.next_id + 1 })

def eventsSendCustom (manager : ℤ) (data : Option ℕ) : EventQueueM ℤ := do
  let id ← nextId
  let event ← onKqueue (Kqueue.mallocEvent ⟨.custom, id, data⟩)
  keventAddOneshot manager id .user event
  keventTrigger manager id
  return id

/-- When the timer expires is up to the kernel. -/
def eventsSendTimeout (manager _timeout : ℤ) (data : Option ℕ) : EventQueueM ℤ := do
  let id ← nextId
  let event ← onKqueue (Kqueue.mallocEvent ⟨.timer, id, data⟩)
  keventAddOneshot manager id .timer event
  return id

/-- The count, negative on a failure, and the pointers of the events that `kevent` reports: those of
descriptors, then those that were sent, which are gone then. -/
def eventsWait (manager : ℤ) (ready : List (ℤ × Direction)) (due : List (ℤ × SentFilter))
    (max_events : ℕ) : EventQueueM (ℤ × List ℕ) := do
  let (event_count, events) ← onKqueue (Kqueue.eventsWait manager ready max_events)
  if event_count < 0 then return (event_count, events)
  else
    let q ← get
    let fired := (q.sent.filter (fires due)).take (max_events - events.length)
    set { q with sent := q.unfired fired }
    return (event_count + fired.length, events ++ fired.map fun r => r.2.udata)

end EventQueue

end Erlm
