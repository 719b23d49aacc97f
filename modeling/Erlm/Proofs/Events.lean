import Erlm.Os
import Erlm.Proofs.Context

/-!
# The event layer, call by call

What a subscription, a timer and a wait do to the epoll set and the records, and when.
-/

namespace Erlm

section Calls

theorem eventM_bind {α β : Type} (m : EventM α) (f : α → EventM β) (e : Events) :
    (m >>= f) e = f (m e).1 (m e).2 := rfl

/-- Whether the kernel lets the next call through. -/
def Events.willing (e : Events) : Bool := (e.sched e.syscalls).isSome

/-- The layer after a system call that changed nothing. -/
def Events.tick (e : Events) : Events := { e with syscalls := e.syscalls + 1 }

/-- The registrations of a descriptor. -/
def Events.under (e : Events) (fd : ℤ) : List (ℤ × Registration) := e.epoll.filter fun r => r.1 = fd

/-- Whether a registration of the descriptor goes through. -/
def Events.admits (e : Events) (manager fd : ℤ) : Prop :=
  e.willing = true ∧ manager = e.manager ∧ e.under fd = []

theorem mem_under {e : Events} {fd : ℤ} {r : ℤ × Registration} :
    r ∈ e.under fd ↔ r ∈ e.epoll ∧ r.1 = fd := by
  simp [Events.under]

theorem under_eq_nil {e : Events} {fd : ℤ} : e.under fd = [] ↔ ∀ r ∈ e.epoll, r.1 ≠ fd := by
  rw [List.eq_nil_iff_forall_not_mem]
  exact forall_congr' fun r => by rw [mem_under, not_and]

theorem get?_epoll_eq_none {e : Events} {fd : ℤ} :
    Assoc.get? e.epoll fd = none ↔ e.under fd = [] := by
  rw [Assoc.get?_eq_head?, Option.map_eq_none_iff, List.head?_eq_none_iff]
  rfl

theorem epollCtlAdd_ok {e : Events} {manager fd : ℤ} (h : e.admits manager fd)
    (r : Registration) :
    epollCtlAdd manager fd r e
      = (0, { e with epoll := e.epoll ++ [(fd, r)], syscalls := e.syscalls + 1 }) := by
  obtain ⟨hwilling, hmanager, hunder⟩ := h
  have hnone := get?_epoll_eq_none.2 hunder
  have hcond : (e.sched e.syscalls).isSome ∧ manager = e.manager
      ∧ Assoc.get? e.epoll fd = none := ⟨hwilling, hmanager, hnone⟩
  rw [← Assoc.put_of_get?_none r hnone]
  unfold epollCtlAdd
  rw [eventM_bind, eventM_bind]
  exact congrFun (if_pos hcond) _

theorem epollCtlAdd_refused {e : Events} {manager fd : ℤ} (h : ¬ e.admits manager fd)
    (r : Registration) :
    epollCtlAdd manager fd r e = (-1, e.tick) := by
  have hcond : ¬ ((e.sched e.syscalls).isSome ∧ manager = e.manager
      ∧ Assoc.get? e.epoll fd = none) :=
    fun hc => h ⟨hc.1, hc.2.1, get?_epoll_eq_none.1 hc.2.2⟩
  unfold epollCtlAdd
  rw [eventM_bind, eventM_bind]
  exact congrFun (if_neg hcond) _

end Calls

section Subscribe

/-- A subscription that goes through adds a registration with a new record. -/
theorem eventsSubscribe_ok {e : Events} {manager fd : ℤ} (h : e.admits manager fd)
    (type : EventType) (data : Option ℕ) :
    eventsSubscribe type manager fd data e = (fd, { e with
      epoll := e.epoll ++ [(fd, ⟨e.records.next, false, true⟩)]
      records := e.records.alloc ⟨type, fd, data⟩
      syscalls := e.syscalls + 1 }) := by
  have hadd := @epollCtlAdd_ok { e with records := e.records.alloc ⟨type, fd, data⟩ } manager fd h
    ⟨e.records.next, false, true⟩
  unfold eventsSubscribe mallocEvent
  rw [eventM_bind, eventM_bind]
  simp only [hadd]
  rfl

/-- Otherwise its record is released again. -/
theorem eventsSubscribe_refused {e : Events} {manager fd : ℤ} (h : ¬ e.admits manager fd)
    (type : EventType) (data : Option ℕ) :
    eventsSubscribe type manager fd data e = (-1, { e with
      records := (e.records.alloc ⟨type, fd, data⟩).release e.records.next
      syscalls := e.syscalls + 1 }) := by
  have hadd := @epollCtlAdd_refused { e with records := e.records.alloc ⟨type, fd, data⟩ } manager
    fd h ⟨e.records.next, false, true⟩
  unfold eventsSubscribe mallocEvent
  rw [eventM_bind, eventM_bind]
  simp only [hadd]
  rfl

theorem subscribe_sched (type : EventType) (fd : ℤ) (data : Option ℕ) (e : Events) :
    (eventsSubscribe type e.manager fd data e).2.sched = e.sched
      ∧ (eventsSubscribe type e.manager fd data e).2.manager = e.manager := by
  by_cases h : e.admits e.manager fd
  · simp only [eventsSubscribe_ok h, and_self]
  · simp only [eventsSubscribe_refused h, and_self]

end Subscribe

section Timeout

/-- The calls of the kernel succeed from here on, and the next one gives `fd`. -/
def Events.opens (e : Events) (fd : ℤ) : Prop :=
  e.sched e.syscalls = some fd ∧ ∀ n, (e.sched n).isSome = true

/-- The next `n` calls of the kernel succeed, and the first of them gives `fd`. -/
def Events.grants (e : Events) (fd : ℤ) (n : ℕ) : Prop :=
  e.sched e.syscalls = some fd ∧ ∀ i < n, (e.sched (e.syscalls + i)).isSome = true

theorem Events.opens.grants {e : Events} {fd : ℤ} (h : e.opens fd) (n : ℕ) : e.grants fd n :=
  ⟨h.1, fun _ _ => h.2 _⟩

theorem setEventId_run (event : ℕ) (id : ℤ) (e : Events) :
    setEventId event id e
      = ((), { e with records := e.records.update event fun r => { r with id } }) := rfl

theorem timerfdSettime_ok {e : Events} (h : (e.sched e.syscalls).isSome = true) (fd : ℤ) :
    timerfdSettime fd e = (0, { e with syscalls := e.syscalls + 1 }) := by
  obtain ⟨fd', hsome⟩ := Option.isSome_iff_exists.1 h
  unfold timerfdSettime
  rw [eventM_bind]
  simp only [kernelDecides, hsome]
  rfl

theorem openFd_ok {e : Events} {fd : ℤ} (h : e.sched e.syscalls = some fd) :
    openFd e = (fd, { e with opened := fd :: e.opened, syscalls := e.syscalls + 1 }) := by
  unfold openFd
  rw [eventM_bind]
  simp only [kernelDecides, h]
  rfl

/-- The layer after an event was sent, in `n` system calls altogether: its record and its one-shot
registration. -/
def Events.addSent (e : Events) (type : EventType) (fd : ℤ) (data : Option ℕ) (n : ℕ) : Events :=
  { e with
    epoll := e.epoll ++ [(fd, ⟨e.records.next, true, true⟩)]
    records := (e.records.alloc ⟨type, 0, data⟩).update e.records.next
      fun r => { r with id := fd }
    opened := fd :: e.opened
    syscalls := n }

variable {e : Events} {manager timeout fd : ℤ} {data : Option ℕ}

/-- What `events_send_raw_custom` and `events_send_timeout` do once they have a descriptor. -/
def addOrRelease (manager fd : ℤ) (event : ℕ) : EventM ℤ := do
  setEventId event fd
  let result ← epollCtlAdd manager fd ⟨event, true, true⟩
  if result = -1 then
    closeFd fd
    freeEvent event
    return -1
  else return fd

theorem addOrRelease_ok (h : e.admits e.manager fd) (event : ℕ) :
    addOrRelease e.manager fd event e = (fd, { e with
      epoll := e.epoll ++ [(fd, ⟨event, true, true⟩)]
      records := e.records.update event fun r => { r with id := fd }
      syscalls := e.syscalls + 1 }) := by
  have hadd := @epollCtlAdd_ok { e with
    records := e.records.update event fun r => { r with id := fd } } e.manager fd h
    ⟨event, true, true⟩
  unfold addOrRelease
  rw [eventM_bind, setEventId_run, eventM_bind, hadd]
  rfl

theorem eventsSendRawCustom_ok (h : e.grants fd 2) (hfd : 0 ≤ fd) (hunder : e.under fd = [])
    (event : ℕ) :
    eventsSendRawCustom e.manager event e = (fd, { e with
      epoll := e.epoll ++ [(fd, ⟨event, true, true⟩)]
      records := e.records.update event fun r => { r with id := fd }
      opened := fd :: e.opened
      syscalls := e.syscalls + 1 + 1 }) := by
  have hadd := @addOrRelease_ok { e with opened := fd :: e.opened, syscalls := e.syscalls + 1 } fd
    ⟨h.2 1 (by omega), rfl, hunder⟩ event
  unfold eventsSendRawCustom
  rw [eventM_bind, openFd_ok h.1]
  simp only [if_neg (show ¬ fd = -1 by omega)]
  exact hadd

/-- What `events_send_custom` and `events_send_timeout` do with their record, which they release
after a failure. -/
def sendReleasing (manager : ℤ) (event : ℕ) : EventM ℤ := do
  let result ← eventsSendRawCustom manager event
  if result < 0 then
    freeEvent event
    return result
  else return result

theorem sendReleasing_ok (h : e.grants fd 2) (hfd : 0 ≤ fd) (hunder : e.under fd = [])
    (type : EventType) (data : Option ℕ) :
    ∃ n, sendReleasing e.manager e.records.next
      { e with records := e.records.alloc ⟨type, 0, data⟩ } = (fd, e.addSent type fd data n) := by
  have hraw := @eventsSendRawCustom_ok { e with records := e.records.alloc ⟨type, 0, data⟩ } fd
    h hfd hunder e.records.next
  unfold sendReleasing
  rw [eventM_bind, hraw]
  simp only [if_neg (show ¬ fd < 0 by omega)]
  exact ⟨_, rfl⟩

theorem eventsSendCustom_eq : eventsSendCustom manager data e
    = sendReleasing manager e.records.next
      { e with records := e.records.alloc ⟨.custom, 0, data⟩ } := rfl

theorem eventsSendTimeout_eq (h : timeout ≤ 0) : eventsSendTimeout manager timeout data e
    = sendReleasing manager e.records.next
      { e with records := e.records.alloc ⟨.timer, 0, data⟩ } := by
  unfold eventsSendTimeout
  simp only [if_pos h]
  rfl

theorem eventsSendCustom_ok (h : e.grants fd 2) (hfd : 0 ≤ fd) (hunder : e.under fd = [])
    (data : Option ℕ) :
    ∃ n, eventsSendCustom e.manager data e = (fd, e.addSent .custom fd data n) := by
  rw [eventsSendCustom_eq]
  exact sendReleasing_ok h hfd hunder .custom data

/-- A timer whose system calls succeed, two of them if it is due at once. -/
theorem eventsSendTimeout_sent {timeout : ℤ} (h : e.grants fd (if timeout ≤ 0 then 2 else 3))
    (hfd : 0 ≤ fd) (hunder : e.under fd = []) (data : Option ℕ) :
    ∃ n, eventsSendTimeout e.manager timeout data e = (fd, e.addSent .timer fd data n) := by
  by_cases htimeout : timeout ≤ 0
  · rw [if_pos htimeout] at h
    rw [eventsSendTimeout_eq htimeout]
    exact sendReleasing_ok h hfd hunder .timer data
  · rw [if_neg htimeout] at h
    have hopen := @openFd_ok { e with records := e.records.alloc ⟨.timer, 0, data⟩ } fd h.1
    have hset := @timerfdSettime_ok { e with
      records := e.records.alloc ⟨.timer, 0, data⟩
      opened := fd :: e.opened
      syscalls := e.syscalls + 1 } (h.2 1 (by omega)) fd
    have hadd := @addOrRelease_ok { e with
      records := e.records.alloc ⟨.timer, 0, data⟩
      opened := fd :: e.opened
      syscalls := e.syscalls + 1 + 1 } fd ⟨h.2 2 (by omega), rfl, hunder⟩ e.records.next
    unfold eventsSendTimeout mallocEvent
    rw [eventM_bind]
    simp only [if_neg htimeout]
    rw [eventM_bind, hopen]
    simp only [if_neg (show ¬ fd = -1 by omega)]
    rw [eventM_bind, hset]
    simp only [if_neg (show ¬ (0 : ℤ) < 0 by omega)]
    exact ⟨_, hadd⟩

/-- The layer after a timer was added, in `n` system calls altogether. -/
def Events.addTimer (e : Events) (fd : ℤ) (data : Option ℕ) (n : ℕ) : Events :=
  { e with
    epoll := e.epoll ++ [(fd, ⟨e.records.next, true, true⟩)]
    records := (e.records.alloc ⟨.timer, 0, data⟩).update e.records.next
      fun r => { r with id := fd }
    opened := fd :: e.opened
    syscalls := n }

/-- Where all system calls succeed, so does a timer. -/
theorem eventsSendTimeout_ok (h : e.opens fd) (hfd : 0 ≤ fd) (hunder : e.under fd = [])
    (timeout : ℤ) (data : Option ℕ) :
    ∃ n, eventsSendTimeout e.manager timeout data e = (fd, e.addTimer fd data n) :=
  eventsSendTimeout_sent (h.grants _) hfd hunder data

end Timeout

section Wait

/-- The registration of a descriptor that is reported first. -/
theorem reported_under (e : Events) (fd : ℤ) :
    e.reported [fd] 1 = ((e.under fd).filter fun r => r.2.armed).take 1 := by
  unfold Events.reported Events.under
  rw [List.filter_filter]
  congr 2
  funext r
  simp [Bool.and_comm]

theorem eventsWait_run {e : Events} (hwilling : e.willing = true) (ready : List ℤ)
    (max_events : ℕ) :
    eventsWait e.manager ready max_events e
      = ((((e.reported ready max_events).length : ℤ),
          (e.reported ready max_events).map fun r => r.2.event), { e with
        epoll := e.epoll.map fun r =>
          if r ∈ e.reported ready max_events then (r.1, r.2.report) else r
        syscalls := e.syscalls + 1 }) := by
  have hcond : (e.sched e.syscalls).isSome ∧ e.manager = e.manager := ⟨hwilling, rfl⟩
  unfold eventsWait
  rw [eventM_bind, eventM_bind]
  exact congrFun (if_pos hcond) _

theorem eventsWait_refused {e : Events} (hwilling : e.willing ≠ true) (ready : List ℤ)
    (max_events : ℕ) : eventsWait e.manager ready max_events e = ((-1, []), e.tick) := by
  have hcond : ¬ ((e.sched e.syscalls).isSome ∧ e.manager = e.manager) := fun h => hwilling h.1
  unfold eventsWait
  rw [eventM_bind, eventM_bind]
  exact congrFun (if_neg hcond) _

/-- A report leaves the record. -/
theorem Registration.event_report (r : Registration) : r.report.event = r.event := by
  unfold Registration.report
  split_ifs <;> rfl

/-- A descriptor without an armed registration is not reported. -/
theorem eventsWait_none {e : Events} (hwilling : e.willing = true) {fd : ℤ}
    (h : ∀ r ∈ e.under fd, r.2.armed = false) :
    eventsWait e.manager [fd] 1 e = ((0, []), e.tick) := by
  have hnone : e.reported [fd] 1 = [] := by
    rw [reported_under, List.filter_eq_nil_iff.2 fun r hr => by simp [h r hr]]
    rfl
  rw [eventsWait_run hwilling, hnone]
  simp [Events.tick]

/-- The layer after a one-shot registration was reported. -/
def Events.fire (e : Events) (fd : ℤ) (p : ℕ) : Events :=
  { e.tick with epoll := e.epoll.map fun r =>
      if r = (fd, ⟨p, true, true⟩) then (fd, ⟨p, true, false⟩) else r }

theorem eventsWait_oneshot {e : Events} (hwilling : e.willing = true) {fd : ℤ} {p : ℕ}
    (h : e.under fd = [(fd, ⟨p, true, true⟩)]) :
    eventsWait e.manager [fd] 1 e = ((1, [p]), e.fire fd p) := by
  have hone : e.reported [fd] 1 = [(fd, ⟨p, true, true⟩)] := by
    rw [reported_under, h]
    rfl
  have hmap : (e.epoll.map fun r =>
      if r ∈ [(fd, (⟨p, true, true⟩ : Registration))] then (r.1, r.2.report) else r)
      = (e.fire fd p).epoll := by
    refine List.map_congr_left fun r _ => ?_
    by_cases hr : r = (fd, ⟨p, true, true⟩)
    · subst hr
      simp [Registration.report]
    · simp [hr]
  rw [eventsWait_run hwilling, hone, hmap]
  rfl

/-- A registration that is not one-shot stays as it is. -/
theorem eventsWait_level {e : Events} (hwilling : e.willing = true) {fd : ℤ} {p : ℕ}
    (h : e.under fd = [(fd, ⟨p, false, true⟩)]) :
    eventsWait e.manager [fd] 1 e = ((1, [p]), e.tick) := by
  have hreport : (⟨p, false, true⟩ : Registration).report = ⟨p, false, true⟩ := rfl
  rw [eventsWait_run hwilling, reported_under, h]
  have hmap : (e.epoll.map fun r => if r = (fd, ⟨p, false, true⟩) then (r.1, r.2.report) else r)
      = e.epoll := by
    refine (List.map_congr_left fun r _ => ?_).trans (List.map_id _)
    split_ifs with hr
    · rw [hr, hreport]
      rfl
    · rfl
  simp [hmap, Events.tick]

theorem eventsUnsubscribe_run {manager : ℤ} {e : Events} (h : manager = e.manager) (event : Event) :
    eventsUnsubscribe manager event e
      = ((), { e with epoll := Assoc.erase e.epoll event.id }) := by
  unfold eventsUnsubscribe epollCtlDel
  exact congrArg _ (if_pos h)

/-- In a set without two registrations of one descriptor, a registration is the only one. -/
theorem filter_eq_singleton : ∀ {epoll : List (ℤ × Registration)} {r : ℤ × Registration},
    (epoll.map Prod.fst).Nodup → r ∈ epoll → epoll.filter (fun q => q.1 = r.1) = [r]
  | q :: epoll, r, hkeys, hr => by
    rw [List.map_cons, List.nodup_cons] at hkeys
    rcases List.mem_cons.1 hr with rfl | hr
    · rw [List.filter_cons_of_pos (by simp), List.filter_eq_nil_iff.2]
      intro q hq
      have : q.1 ≠ r.1 := fun heq => hkeys.1 (heq ▸ List.mem_map_of_mem hq)
      simpa using this
    · have : q.1 ≠ r.1 := fun heq => hkeys.1 (heq ▸ List.mem_map_of_mem hr)
      rw [List.filter_cons_of_neg (by simpa using this), filter_eq_singleton hkeys.2 hr]

theorem under_append (epoll : List (ℤ × Registration)) (fd : ℤ) (r : Registration) :
    ((epoll ++ [(fd, r)]).filter fun r => r.1 = fd)
      = (epoll.filter fun r => r.1 = fd) ++ [(fd, r)] := by
  simp

theorem under_erase (epoll : List (ℤ × Registration)) (fd : ℤ) :
    (Assoc.erase epoll fd).filter (fun r => r.1 = fd) = [] := by
  simp [Assoc.erase, List.filter_filter]

end Wait

section World

def Ctx.withEvents (c : Ctx Os) (e : Events) : Ctx Os :=
  { c with world := { c.world with events := e } }

theorem withStack_withEvents (c : Ctx Os) (st : List JsVal) (e : Events) :
    (c.withStack st).withEvents e = (c.withEvents e).withStack st := rfl

theorem onWorld_run {α : Type} (f : Os → α × Os) (c : Ctx Os) :
    onWorld f c = .ok (f c.world).1 { c with world := (f c.world).2 } := rfl

theorem onEvents_run {α : Type} {m : EventM α} {c : Ctx Os} {a : α} {e : Events}
    (h : m c.world.events = (a, e)) : onEvents m c = .ok a (c.withEvents e) := by
  unfold onEvents
  rw [onWorld_run, h]
  rfl

theorem readEvent_ok {c : Ctx Os} {p : ℕ} {event : Event}
    (h : c.world.events.records.get? p = some event) : readEvent p c = .ok event c := by
  rw [readEvent, bind_ok (get_run _)]
  simp only [h]
  rfl

end World

end Erlm
