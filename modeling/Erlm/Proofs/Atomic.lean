import Erlm.Proofs.Events

/-!
# Events that could not be created

What the functions that make an event leave behind when they return -1 (`Creation.outcome`). A
failed `epoll_ctl` in `events_send_raw_custom` releases the record, and then its caller releases it
again; a failed `timerfd_create` or `timerfd_settime` releases it never (`undone_iff`).
-/

namespace Erlm

variable {e : Events}

section Calls

theorem openFd_refused (h : e.sched e.syscalls = none) : openFd e = (-1, e.tick) := by
  unfold openFd
  rw [eventM_bind]
  simp only [kernelDecides, h]
  rfl

theorem timerfdSettime_refused (h : ¬ (e.sched e.syscalls).isSome = true) (fd : ℤ) :
    timerfdSettime fd e = (-1, e.tick) := by
  have hnone := Option.not_isSome_iff_eq_none.1 h
  unfold timerfdSettime
  rw [eventM_bind]
  simp only [kernelDecides, hnone]
  rfl

theorem closeFd_run (fd : ℤ) (e : Events) :
    closeFd fd e = ((), { e with
      epoll := Assoc.erase e.epoll fd
      opened := e.opened.erase fd
      closed := e.closed ++ [fd] }) := rfl

theorem freeEvent_run (event : ℕ) (e : Events) :
    freeEvent event e = ((), { e with records := e.records.release event }) := rfl

end Calls

/-- A call that fails releases its record `n` times, closes the descriptors it was given and changes
nothing else that was there before. -/
structure Refused (e : Events) (n : ℕ) (given : List ℤ) (e' : Events) : Prop where
  manager : e'.manager = e.manager
  sched : e'.sched = e.sched
  epoll : e'.epoll = e.epoll
  opened : e'.opened = e.opened
  closed : e'.closed = e.closed ++ given
  releases : e'.records.releases e.records.next = n
  records : ∀ p a, e.records.get? p = some a → e'.records.get? p = some a

/-- A failed call, if what it did to the records is done to its own alone. -/
theorem Refused.of_own {given : List ℤ} {n : ℕ} {e' : Events} (a : Event)
    (hmanager : e'.manager = e.manager) (hsched : e'.sched = e.sched) (hepoll : e'.epoll = e.epoll)
    (hopened : e'.opened = e.opened) (hclosed : e'.closed = e.closed ++ given)
    (hreleases : e'.records.releases e.records.next = n)
    (hothers : ∀ p, e.records.next ≠ p → e'.records.get? p = (e.records.alloc a).get? p) :
    Refused e n given e' where
  manager := hmanager
  sched := hsched
  epoll := hepoll
  opened := hopened
  closed := hclosed
  releases := hreleases
  records := fun p b hp => by
    rw [hothers p (Nat.ne_of_gt (Heap.get?_lt hp)), Heap.get?_alloc hp]

/-- The call fails and releases its record once if nothing went wrong that must not. -/
def FailedOutcome (e : Events) (given : List ℤ) (sound : Prop) (r : ℤ × Events) : Prop :=
  r.1 = -1 ∧ ∃ n, Refused e n given r.2 ∧ (n = 1 ↔ sound)

/-- A descriptor the kernel makes is not negative and not in the epoll set. -/
def Events.Makes (e : Events) : Prop :=
  ∀ fd, e.sched e.syscalls = some fd → 0 ≤ fd ∧ e.under fd = []

/-- The event is sent under the descriptor the kernel made, or the call fails. -/
def SendOutcome (e : Events) (type : EventType) (data : Option ℕ) (sound : Prop)
    (r : ℤ × Events) : Prop :=
  (sound ∧ ∃ fd n, e.sched e.syscalls = some fd ∧ r = (fd, e.addSent type fd data n))
    ∨ FailedOutcome e (e.sched e.syscalls).toList sound r

section Send

variable {manager timeout fd : ℤ} {data : Option ℕ}

theorem eventsSendRawCustom_unmade (h : e.sched e.syscalls = none) (event : ℕ) :
    eventsSendRawCustom manager event e = (-1, e.tick) := by
  unfold eventsSendRawCustom
  rw [eventM_bind, openFd_refused h]
  rfl

/-- A descriptor that was just opened and cannot be added is closed, and the record released. -/
theorem addOrRelease_refused (hunder : e.under fd = [])
    (hadd : ¬ ((e.sched e.syscalls).isSome = true ∧ manager = e.manager)) (event : ℕ) :
    addOrRelease manager fd event { e with opened := fd :: e.opened } = (-1, { e with
      records := (e.records.update event fun r => { r with id := fd }).release event
      closed := e.closed ++ [fd]
      syscalls := e.syscalls + 1 }) := by
  have hrefused := @epollCtlAdd_refused { e with
    records := e.records.update event fun r => { r with id := fd }
    opened := fd :: e.opened } manager fd (fun h => hadd ⟨h.1, h.2.1⟩) ⟨event, true, true⟩
  unfold addOrRelease
  rw [eventM_bind, setEventId_run, eventM_bind, hrefused]
  simp only [if_true]
  rw [eventM_bind, closeFd_run, eventM_bind, freeEvent_run]
  simp only [Events.tick, List.erase_cons_head,
    Assoc.erase_of_get?_none (get?_epoll_eq_none.2 hunder)]
  rfl

theorem eventsSendRawCustom_unadded (hmade : e.sched e.syscalls = some fd) (hfd : 0 ≤ fd)
    (hunder : e.under fd = [])
    (hadd : ¬ ((e.sched (e.syscalls + 1)).isSome = true ∧ manager = e.manager)) (event : ℕ) :
    eventsSendRawCustom manager event e = (-1, { e with
      records := (e.records.update event fun r => { r with id := fd }).release event
      closed := e.closed ++ [fd]
      syscalls := e.syscalls + 1 + 1 }) := by
  have hrefused := @addOrRelease_refused { e with syscalls := e.syscalls + 1 } manager fd hunder
    hadd event
  unfold eventsSendRawCustom
  rw [eventM_bind, openFd_ok hmade]
  simp only [if_neg (show ¬ fd = -1 by omega)]
  exact hrefused

theorem sendReleasing_refused {event : ℕ} {e' : Events}
    (h : eventsSendRawCustom manager event e = (-1, e')) :
    sendReleasing manager event e = (-1, { e' with records := e'.records.release event }) := by
  unfold sendReleasing
  rw [eventM_bind, h]
  simp only [if_pos (show (-1 : ℤ) < 0 by omega)]
  rfl

theorem eventsSendTimeout_unmade (h : ¬ timeout ≤ 0) (hmade : e.sched e.syscalls = none) :
    eventsSendTimeout manager timeout data e
      = (-1, { e with
        records := e.records.alloc ⟨.timer, 0, data⟩
        syscalls := e.syscalls + 1 }) := by
  have hopen := @openFd_refused { e with records := e.records.alloc ⟨.timer, 0, data⟩ } hmade
  unfold eventsSendTimeout mallocEvent
  rw [eventM_bind]
  simp only [if_neg h]
  rw [eventM_bind, hopen]
  rfl

theorem eventsSendTimeout_unset (h : ¬ timeout ≤ 0) (hmade : e.sched e.syscalls = some fd)
    (hfd : 0 ≤ fd) (hunder : e.under fd = [])
    (hset : ¬ (e.sched (e.syscalls + 1)).isSome = true) :
    eventsSendTimeout manager timeout data e
      = (-1, { e with
        records := e.records.alloc ⟨.timer, 0, data⟩
        closed := e.closed ++ [fd]
        syscalls := e.syscalls + 1 + 1 }) := by
  have hopen := @openFd_ok { e with records := e.records.alloc ⟨.timer, 0, data⟩ } fd hmade
  have hfailed := @timerfdSettime_refused { e with
    records := e.records.alloc ⟨.timer, 0, data⟩
    opened := fd :: e.opened
    syscalls := e.syscalls + 1 } hset fd
  unfold eventsSendTimeout mallocEvent
  rw [eventM_bind]
  simp only [if_neg h]
  rw [eventM_bind, hopen]
  simp only [if_neg (show ¬ fd = -1 by omega)]
  rw [eventM_bind, hfailed]
  simp only [if_pos (show (-1 : ℤ) < 0 by omega)]
  rw [eventM_bind, closeFd_run]
  simp only [Events.tick, List.erase_cons_head,
    Assoc.erase_of_get?_none (get?_epoll_eq_none.2 hunder)]
  rfl

theorem eventsSendTimeout_unadded (h : ¬ timeout ≤ 0) (hmade : e.sched e.syscalls = some fd)
    (hfd : 0 ≤ fd) (hunder : e.under fd = []) (hset : (e.sched (e.syscalls + 1)).isSome = true)
    (hadd : ¬ ((e.sched (e.syscalls + 2)).isSome = true ∧ manager = e.manager)) :
    eventsSendTimeout manager timeout data e
      = (-1, { e with
        records := ((e.records.alloc ⟨.timer, 0, data⟩).update e.records.next
          fun r => { r with id := fd }).release e.records.next
        closed := e.closed ++ [fd]
        syscalls := e.syscalls + 1 + 1 + 1 }) := by
  have hopen := @openFd_ok { e with records := e.records.alloc ⟨.timer, 0, data⟩ } fd hmade
  have hdone := @timerfdSettime_ok { e with
    records := e.records.alloc ⟨.timer, 0, data⟩
    opened := fd :: e.opened
    syscalls := e.syscalls + 1 } hset fd
  have hrefused := @addOrRelease_refused { e with
    records := e.records.alloc ⟨.timer, 0, data⟩
    syscalls := e.syscalls + 1 + 1 } manager fd hunder hadd e.records.next
  unfold eventsSendTimeout mallocEvent
  rw [eventM_bind]
  simp only [if_neg h]
  rw [eventM_bind, hopen]
  simp only [if_neg (show ¬ fd = -1 by omega)]
  rw [eventM_bind, hdone]
  simp only [if_neg (show ¬ (0 : ℤ) < 0 by omega)]
  exact hrefused

/-- The `eventfd` of a record that is sent at once fails, or its `epoll_ctl` does not. -/
def RawSound (manager : ℤ) (e : Events) : Prop :=
  e.sched e.syscalls = none ∨ (e.sched (e.syscalls + 1)).isSome = true ∧ manager = e.manager

/-- A record that is sent at once is released once if there is no descriptor for it, and twice if
the descriptor cannot be added. -/
theorem sendReleasing_outcome (hmakes : e.Makes) (type : EventType) (data : Option ℕ) :
    SendOutcome e type data (RawSound manager e) (sendReleasing manager e.records.next
      { e with records := e.records.alloc ⟨type, 0, data⟩ }) := by
  rcases hmade : e.sched e.syscalls with _ | fd
  · have hraw := @eventsSendRawCustom_unmade { e with records := e.records.alloc ⟨type, 0, data⟩ }
      manager hmade e.records.next
    rw [sendReleasing_refused hraw]
    refine Or.inr ⟨rfl, 1, .of_own ⟨type, 0, data⟩ rfl rfl rfl rfl ?_ ?_ ?_,
      iff_of_true rfl (Or.inl hmade)⟩
    · rw [hmade]
      exact (List.append_nil _).symm
    · rw [Heap.releases_release_self (by simp [Events.tick])]
      simp only [Events.tick, Heap.releases_alloc, Heap.releases_next]
    · exact fun p hp => Heap.get?_release_of_ne _ hp
  obtain ⟨hfd, hunder⟩ := hmakes fd hmade
  by_cases hadd : (e.sched (e.syscalls + 1)).isSome = true ∧ manager = e.manager
  · obtain ⟨hsome, rfl⟩ := hadd
    have hgrants : { e with records := e.records.alloc ⟨type, 0, data⟩ }.grants fd 2 := by
      refine ⟨hmade, fun i hi => ?_⟩
      interval_cases i
      · exact Option.isSome_iff_exists.2 ⟨fd, hmade⟩
      · exact hsome
    have hraw := eventsSendRawCustom_ok hgrants hfd hunder e.records.next
    refine Or.inl ⟨Or.inr ⟨hsome, rfl⟩, fd, e.syscalls + 1 + 1, hmade, ?_⟩
    unfold sendReleasing
    rw [eventM_bind, hraw]
    simp only [if_neg (show ¬ fd < 0 by omega)]
    rfl
  · have hraw := @eventsSendRawCustom_unadded { e with records := e.records.alloc ⟨type, 0, data⟩ }
      manager fd hmade hfd hunder hadd e.records.next
    rw [sendReleasing_refused hraw]
    refine Or.inr ⟨rfl, 2, .of_own ⟨type, 0, data⟩ rfl rfl rfl rfl ?_ ?_ ?_,
      iff_of_false (by omega) ?_⟩
    · rw [hmade]
      rfl
    · rw [Heap.releases_release_self (by simp), Heap.releases_release_self (by simp)]
      simp only [Heap.releases_update, Heap.releases_alloc, Heap.releases_next]
    · intro p hp
      simp only [Heap.get?_release_of_ne _ hp, Heap.get?_update_of_ne _ hp]
    · intro h
      rcases h with hnone | hsound
      · rw [hmade] at hnone
        cases hnone
      · exact hadd hsound

/-- What must not go wrong: for an event that is sent at once, `epoll_ctl`, and for a timer that has
to wait, anything before that. -/
def TimeoutSound (manager timeout : ℤ) (e : Events) : Prop :=
  if timeout ≤ 0 then RawSound manager e
  else (e.sched e.syscalls).isSome = true ∧ (e.sched (e.syscalls + 1)).isSome = true

/-- A timer that has to wait releases its record if it cannot be added, and after no earlier
failure. -/
theorem waitingTimeout_outcome (hmakes : e.Makes) (h : ¬ timeout ≤ 0) :
    SendOutcome e .timer data
      ((e.sched e.syscalls).isSome = true ∧ (e.sched (e.syscalls + 1)).isSome = true)
      (eventsSendTimeout manager timeout data e) := by
  rcases hmade : e.sched e.syscalls with _ | fd
  · rw [eventsSendTimeout_unmade h hmade]
    refine Or.inr ⟨rfl, 0, .of_own ⟨.timer, 0, data⟩ rfl rfl rfl rfl ?_ ?_ fun p _ => rfl, by simp⟩
    · rw [hmade]
      exact (List.append_nil _).symm
    · simp only [Heap.releases_alloc, Heap.releases_next]
  obtain ⟨hfd, hunder⟩ := hmakes fd hmade
  have hgiven : e.closed ++ [fd] = e.closed ++ (e.sched e.syscalls).toList := by
    rw [hmade]
    rfl
  by_cases hset : (e.sched (e.syscalls + 1)).isSome = true
  · by_cases hadd : (e.sched (e.syscalls + 2)).isSome = true ∧ manager = e.manager
    · obtain ⟨hsome, rfl⟩ := hadd
      have hgrants : e.grants fd 3 := by
        refine ⟨hmade, fun i hi => ?_⟩
        interval_cases i
        · exact Option.isSome_iff_exists.2 ⟨fd, hmade⟩
        · exact hset
        · exact hsome
      obtain ⟨n, hsent⟩ := @eventsSendTimeout_sent e fd timeout (by rwa [if_neg h]) hfd hunder data
      exact Or.inl ⟨⟨rfl, hset⟩, fd, n, hmade, hsent⟩
    · rw [eventsSendTimeout_unadded h hmade hfd hunder hset hadd]
      refine Or.inr ⟨rfl, 1, .of_own ⟨.timer, 0, data⟩ rfl rfl rfl rfl hgiven ?_ ?_,
        iff_of_true rfl ⟨rfl, hset⟩⟩
      · rw [Heap.releases_release_self (by simp)]
        simp only [Heap.releases_update, Heap.releases_alloc, Heap.releases_next]
      · intro p hp
        simp only [Heap.get?_release_of_ne _ hp, Heap.get?_update_of_ne _ hp]
  · rw [eventsSendTimeout_unset h hmade hfd hunder hset]
    refine Or.inr ⟨rfl, 0, .of_own ⟨.timer, 0, data⟩ rfl rfl rfl rfl hgiven ?_ fun p _ => rfl,
      iff_of_false (by omega) fun hsound => hset hsound.2⟩
    simp only [Heap.releases_alloc, Heap.releases_next]

theorem eventsSendTimeout_outcome (hmakes : e.Makes) (manager timeout : ℤ) (data : Option ℕ) :
    SendOutcome e .timer data (TimeoutSound manager timeout e)
      (eventsSendTimeout manager timeout data e) := by
  unfold TimeoutSound
  split_ifs with h
  · rw [eventsSendTimeout_eq h]
    exact sendReleasing_outcome hmakes .timer data
  · exact waitingTimeout_outcome hmakes h

end Send

section Creation

/-- The functions that make an event. -/
inductive Creation
  | sendCustom (data : Option ℕ)
  | sendTimeout (timeout : ℤ) (data : Option ℕ)
  | subscribeRead (fd : ℤ) (data : Option ℕ)
  | subscribeWrite (fd : ℤ) (data : Option ℕ)

namespace Creation

def run (manager : ℤ) : Creation → EventM ℤ
  | sendCustom data => eventsSendCustom manager data
  | sendTimeout timeout data => eventsSendTimeout manager timeout data
  | subscribeRead fd data => eventsSubscribeRead manager fd data
  | subscribeWrite fd data => eventsSubscribeWrite manager fd data

/-- The kernel keeps to what is documented, also that a negative number is no descriptor to add. -/
def Real (e : Events) : Creation → Prop
  | sendCustom _ | sendTimeout _ _ => e.Makes
  | subscribeRead fd _ | subscribeWrite fd _ => fd < 0 → e.willing = false

/-- The descriptor made in the call, if any. -/
def given (e : Events) : Creation → List ℤ
  | sendCustom _ | sendTimeout _ _ => (e.sched e.syscalls).toList
  | subscribeRead _ _ | subscribeWrite _ _ => []

/-- What must not go wrong in the call. -/
def Sound (manager : ℤ) (e : Events) : Creation → Prop
  | sendCustom _ => RawSound manager e
  | sendTimeout timeout _ => TimeoutSound manager timeout e
  | subscribeRead _ _ | subscribeWrite _ _ => True

end Creation

variable {manager fd : ℤ} {create : Creation}

theorem SendOutcome.created {type : EventType} {data : Option ℕ} {sound : Prop} {r : ℤ × Events}
    (h : SendOutcome e type data sound r) (hmakes : e.Makes) :
    sound ∧ 0 ≤ r.1 ∨ FailedOutcome e (e.sched e.syscalls).toList sound r := by
  refine h.imp_left ?_
  intro h
  obtain ⟨hsound, fd, n, hmade, rfl⟩ := h
  exact ⟨hsound, (hmakes fd hmade).1⟩

theorem eventsSubscribe_outcome (type : EventType) (data : Option ℕ)
    (hreal : fd < 0 → e.willing = false) :
    True ∧ 0 ≤ (eventsSubscribe type manager fd data e).1
      ∨ FailedOutcome e [] True (eventsSubscribe type manager fd data e) := by
  by_cases hadmits : e.admits manager fd
  · rw [eventsSubscribe_ok hadmits]
    refine Or.inl ⟨trivial, ?_⟩
    by_contra hneg
    have hrefuses := hreal (by simpa using hneg)
    rw [hadmits.1] at hrefuses
    cases hrefuses
  · rw [eventsSubscribe_refused hadmits]
    refine Or.inr ⟨rfl, 1, .of_own ⟨type, fd, data⟩ rfl rfl rfl rfl (List.append_nil _).symm ?_ ?_,
      iff_of_true rfl trivial⟩
    · rw [Heap.releases_release_self (by simp)]
      simp only [Heap.releases_alloc, Heap.releases_next]
    · exact fun p hp => Heap.get?_release_of_ne _ hp

/-- The call succeeds, or it fails and releases its record once if nothing went wrong that must
not. -/
theorem Creation.outcome (hreal : create.Real e) :
    create.Sound manager e ∧ 0 ≤ (create.run manager e).1
      ∨ FailedOutcome e (create.given e) (create.Sound manager e) (create.run manager e) := by
  cases create with
  | sendCustom data =>
    have h := @sendReleasing_outcome e manager hreal .custom data
    rw [← eventsSendCustom_eq] at h
    exact h.created hreal
  | sendTimeout timeout data =>
    exact (eventsSendTimeout_outcome hreal manager timeout data).created hreal
  | subscribeRead fd data => exact eventsSubscribe_outcome .read data hreal
  | subscribeWrite fd data => exact eventsSubscribe_outcome .write data hreal

/-- The record made in a failed call is released once, the descriptors made in it are closed once
each, and the others and the epoll set are as before. -/
structure Undone (e : Events) (given : List ℤ) (e' : Events) : Prop where
  freed : e'.records.releases e.records.next = 1
  closed : e'.closed = e.closed ++ given
  opened : e'.opened = e.opened
  epoll : e'.epoll = e.epoll

theorem Refused.undone_once {n : ℕ} {given : List ℤ} {e' : Events} (h : Refused e n given e') :
    Undone e given e' ↔ n = 1 :=
  ⟨fun hundone => h.releases.symm.trans hundone.freed,
    fun hn => ⟨h.releases.trans hn, h.closed, h.opened, h.epoll⟩⟩

/-- A failure is undone unless it is that of an `epoll_ctl` for an event sent at once, or one before
the `epoll_ctl` for a timer. -/
theorem undone_iff (hreal : create.Real e) :
    ((create.run manager e).1 = -1 → Undone e (create.given e) (create.run manager e).2)
      ↔ create.Sound manager e := by
  rcases create.outcome hreal with ⟨hsound, hresult⟩ | ⟨hresult, n, hrefused, hn⟩
  · exact iff_of_true (fun hfailed => by omega) hsound
  · rw [hrefused.undone_once, hn]
    exact forall_prop_of_true hresult

/-- Manager 3 and nothing else, before calls of which the first `n` succeed and give 4. -/
def granting (n : ℕ) : Events :=
  ⟨3, [], Heap.empty, [], [], fun k => if k < n then some 4 else none, 0⟩

theorem granting_makes (n : ℕ) : (granting n).Makes := by
  intro fd hfd
  have hfour : (if 0 < n then some (4 : ℤ) else none) = some fd := hfd
  split_ifs at hfour
  cases hfour
  exact ⟨by norm_num, rfl⟩

theorem undone_timeout :
    (((Creation.sendTimeout 10 none).run 3 (granting 2)).1 = -1 →
        Undone (granting 2) [4] ((Creation.sendTimeout 10 none).run 3 (granting 2)).2)
      ↔ (Creation.sendTimeout 10 none).Sound 3 (granting 2) :=
  @undone_iff (granting 2) 3 (.sendTimeout 10 none) (granting_makes 2)

/-- The eventfd is made and cannot be added: the record is released twice. -/
theorem not_undone_custom : ¬ ∀ (manager : ℤ) (e : Events) (create : Creation), create.Real e →
    (create.run manager e).1 = -1 → Undone e (create.given e) (create.run manager e).2 := by
  intro hall
  have hunsound : ¬ (Creation.sendCustom none).Sound 3 (granting 1) := by
    intro h
    rcases h with hnone | ⟨hsome, -⟩
    · cases hnone
    · cases hsome
  rcases @Creation.outcome (granting 1) 3 (.sendCustom none) (granting_makes 1) with
    ⟨hsound, -⟩ | ⟨hresult, n, hrefused, hn⟩
  · exact hunsound hsound
  · exact hunsound (hn.1 (hrefused.undone_once.1 (hall 3 _ _ (granting_makes 1) hresult)))

end Creation

end Erlm
