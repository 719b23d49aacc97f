import Erlm.CInt
import Erlm.Lib.Assoc
import Erlm.Lib.Heap

/-!
# `events.c`

The event layer on Linux: an epoll set whose registrations carry pointers to event records. The
kernel decides each system call that may fail: it fails, or succeeds and gives a descriptor where
the call makes one. A stream of such decisions is the schedule. Adding a descriptor that is
registered already fails in any case.
-/

namespace Erlm

inductive EventType
  | custom
  | read
  | timer
  | write
  deriving Repr, DecidableEq

/-- `struct event`, its data a pointer, none for `NULL`. -/
structure Event where
  type : EventType
  id : ℤ
  data : Option ℕ
  deriving Repr, DecidableEq

/-- A registration: the pointer in `data.ptr`, whether it is `EPOLLONESHOT`, and whether it still
reports. -/
structure Registration where
  event : ℕ
  oneshot : Bool
  armed : Bool
  deriving Repr, DecidableEq

/-- The epoll descriptor and its set, the event records, the descriptors the layer has open and
those it closed, the kernel's decisions and how many were made. -/
structure Events where
  manager : ℤ
  epoll : List (ℤ × Registration)
  records : Heap Event
  opened : List ℤ
  closed : List ℤ
  sched : ℕ → Option ℤ
  syscalls : ℕ

abbrev EventM := StateM Events

section Kernel

/-- The decision on the next system call. -/
def kernelDecides : EventM (Option ℤ) := fun e =>
  (e.sched e.syscalls, { e with syscalls := e.syscalls + 1 })

/-- A call that makes a descriptor: `eventfd` or `timerfd_create`. -/
def openFd : EventM ℤ := do
  match ← kernelDecides with
  | none => return -1
  | some fd =>
    modify fun e => { e with opened := fd :: e.opened }
    return fd

/-- Closing a descriptor takes it out of the epoll set. -/
def closeFd (fd : ℤ) : EventM Unit := modify fun e =>
  { e with
    epoll := Assoc.erase e.epoll fd
    opened := e.opened.erase fd
    closed := e.closed ++ [fd] }

/-- `close` of the epoll descriptor takes its set with it. -/
def closeManager (manager : ℤ) : EventM Unit := modify fun e =>
  { e with
    epoll := if manager = e.manager then [] else e.epoll
    closed := e.closed ++ [manager] }

/-- `timerfd_settime`. When the timer expires is up to the kernel. -/
def timerfdSettime (_fd : ℤ) : EventM ℤ := do
  match ← kernelDecides with
  | none => return -1
  | some _ => return 0

/-- `EPOLL_CTL_ADD` -/
def epollCtlAdd (manager fd : ℤ) (native_event : Registration) : EventM ℤ := do
  let decision ← kernelDecides
  let e ← get
  if decision.isSome ∧ manager = e.manager ∧ Assoc.get? e.epoll fd = none then
    set { e with epoll := Assoc.put e.epoll fd native_event }
    return 0
  else return -1

/-- `EPOLL_CTL_DEL` -/
def epollCtlDel (manager fd : ℤ) : EventM Unit := modify fun e =>
  if manager = e.manager then { e with epoll := Assoc.erase e.epoll fd } else e

/-- The registrations `epoll_wait` reports, out of the descriptors that are ready. -/
def Events.reported (e : Events) (ready : List ℤ) (max_events : ℕ) : List (ℤ × Registration) :=
  (e.epoll.filter fun r => r.1 ∈ ready && r.2.armed).take max_events

/-- A registration after it was reported. -/
def Registration.report (r : Registration) : Registration :=
  if r.oneshot then { r with armed := false } else r

end Kernel

section Records

def mallocEvent (event : Event) : EventM ℕ := fun e =>
  (e.records.next, { e with records := e.records.alloc event })

def freeEvent (event : ℕ) : EventM Unit := modify fun e =>
  { e with records := e.records.release event }

def setEventId (event : ℕ) (id : ℤ) : EventM Unit := modify fun e =>
  { e with records := e.records.update event fun r => { r with id := id } }

end Records

def eventsCreateManager : EventM ℤ := do
  match ← kernelDecides with
  | none => return -1
  | some fd =>
    modify fun e => { e with manager := fd, epoll := [] }
    return fd

/-- The eventfd is made readable at the end, so it is reported at some later time. -/
def eventsSendRawCustom (manager : ℤ) (event : ℕ) : EventM ℤ := do
  let fd ← openFd
  if fd = -1 then return -1
  else
    setEventId event fd
    let result ← epollCtlAdd manager fd ⟨event, true, true⟩
    if result = -1 then
      closeFd fd
      freeEvent event
      return -1
    else return fd

def eventsSendCustom (manager : ℤ) (data : Option ℕ) : EventM ℤ := do
  -- the id is not set yet
  let event ← mallocEvent ⟨.custom, 0, data⟩
  let result ← eventsSendRawCustom manager event
  if result < 0 then
    freeEvent event
    return result
  else return result

def eventsSendTimeout (manager timeout : ℤ) (data : Option ℕ) : EventM ℤ := do
  let event ← mallocEvent ⟨.timer, 0, data⟩
  if timeout ≤ 0 then
    let result ← eventsSendRawCustom manager event
    if result < 0 then
      freeEvent event
      return result
    else return result
  else
    let fd ← openFd
    if fd = -1 then return -1
    else
      let result ← timerfdSettime fd
      if result < 0 then
        closeFd fd
        return -1
      else
        setEventId event fd
        let result ← epollCtlAdd manager fd ⟨event, true, true⟩
        if result = -1 then
          closeFd fd
          freeEvent event
          return -1
        else return fd

/-- `events_subscribe_read` and `events_subscribe_write`, which differ in the type alone. -/
def eventsSubscribe (type : EventType) (manager fd : ℤ) (data : Option ℕ) : EventM ℤ := do
  let event ← mallocEvent ⟨type, fd, data⟩
  let result ← epollCtlAdd manager fd ⟨event, false, true⟩
  if result = -1 then
    freeEvent event
    return -1
  else return fd

def eventsSubscribeRead : ℤ → ℤ → Option ℕ → EventM ℤ := eventsSubscribe .read

def eventsSubscribeWrite : ℤ → ℤ → Option ℕ → EventM ℤ := eventsSubscribe .write

def eventsUnsubscribe (manager : ℤ) (event : Event) : EventM Unit := epollCtlDel manager event.id

def eventsFree (event : ℕ) (record : Event) : EventM Unit := do
  if record.type = .custom ∨ record.type = .timer then closeFd record.id
  freeEvent event

/-- The count, negative on a failure, and the pointers of the events that `epoll_wait` reports. -/
def eventsWait (manager : ℤ) (ready : List ℤ) (max_events : ℕ) : EventM (ℤ × List ℕ) := do
  let decision ← kernelDecides
  let e ← get
  if decision.isSome ∧ manager = e.manager then
    let reported := e.reported ready max_events
    set { e with
      epoll := e.epoll.map fun r => if r ∈ reported then (r.1, r.2.report) else r }
    return (reported.length, reported.map fun r => r.2.event)
  else return (-1, [])

/-- The registrations after some of them were reported. -/
def afterReport (epoll out : List (ℤ × Registration)) : List (ℤ × Registration) :=
  epoll.map fun r => if r ∈ out then (r.1, r.2.report) else r

end Erlm
