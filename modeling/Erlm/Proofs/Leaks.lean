import Erlm.Proofs.Output
import Erlm.Proofs.TimerTable

/-!
# What the handlers leave behind

The timers and the output ports in one context. The event layer releases a record only where a
subscription is refused, and a descriptor where a timer fails, so what a handler is done with stays:
nothing leaks in a run exactly if no timer event was delivered and no write event was handled
(`noLeak_iff`).
-/

namespace Erlm

section Leaks

/-- Every descriptor the layer opened and every record it allocated is closed or freed again, or has
a registration that still reports. -/
structure Events.NoLeak (e : Events) : Prop where
  descriptors : ∀ fd ∈ e.opened, ∃ r, (fd, r) ∈ e.epoll ∧ r.armed = true
  records : ∀ p event, e.records.get? p = some event →
    ∃ r ∈ e.epoll, r.2.event = p ∧ r.2.armed = true

variable {e e' : Events} {fd : ℤ}

theorem noLeak_congr (hepoll : e'.epoll = e.epoll) (hopened : e'.opened = e.opened)
    (hrecords : ∀ p, e'.records.get? p = e.records.get? p) : e'.NoLeak ↔ e.NoLeak := by
  constructor
  · rintro ⟨hdescriptors, hall⟩
    rw [hepoll, hopened] at hdescriptors
    simp only [hepoll, hrecords] at hall
    exact ⟨hdescriptors, hall⟩
  · rintro ⟨hdescriptors, hall⟩
    rw [← hepoll, ← hopened] at hdescriptors
    simp only [← hepoll, ← hrecords] at hall
    exact ⟨hdescriptors, hall⟩

/-- A new record with its registration is no leak. -/
theorem noLeak_register {r : Registration} (hevent : r.event = e.records.next)
    (harmed : r.armed = true) (hepoll : e'.epoll = e.epoll ++ [(fd, r)])
    (hopened : e'.opened = e.opened ∨ e'.opened = fd :: e.opened) (hnew : fd ∉ e.opened)
    (hrecords : ∀ p, p ≠ e.records.next → e'.records.get? p = e.records.get? p) :
    e'.NoLeak ↔ e.NoLeak := by
  have hsub : ∀ fd' ∈ e.opened, fd' ∈ e'.opened := by
    intro fd' hfd'
    rcases hopened with h | h <;> rw [h]
    · exact hfd'
    · exact List.mem_cons_of_mem _ hfd'
  constructor
  · rintro ⟨hdescriptors, hall⟩
    rw [hepoll] at hdescriptors hall
    refine ⟨fun fd' hfd' => ?_, fun p event hp => ?_⟩
    · obtain ⟨r', hr', harmed'⟩ := hdescriptors fd' (hsub fd' hfd')
      rcases List.mem_append.1 hr' with hr' | hr'
      · exact ⟨r', hr', harmed'⟩
      · obtain ⟨rfl, -⟩ := Prod.mk.inj (List.mem_singleton.1 hr')
        exact absurd hfd' hnew
    · have hne := Nat.ne_of_lt (Heap.get?_lt hp)
      obtain ⟨q, hq, hqevent, hqarmed⟩ := hall p event ((hrecords p hne).trans hp)
      rcases List.mem_append.1 hq with hq | hq
      · exact ⟨q, hq, hqevent, hqarmed⟩
      · rw [List.mem_singleton.1 hq] at hqevent
        exact absurd (hqevent.symm.trans hevent) hne
  · rintro ⟨hdescriptors, hall⟩
    have hlast : (fd, r) ∈ e'.epoll := hepoll ▸ List.mem_append_right _ List.mem_cons_self
    have hkept : ∀ q ∈ e.epoll, q ∈ e'.epoll := fun q hq => hepoll ▸ List.mem_append_left _ hq
    refine ⟨fun fd' hfd' => ?_, fun p event hp => ?_⟩
    · have hfd' : fd' = fd ∨ fd' ∈ e.opened := by
        rcases hopened with h | h <;> rw [h] at hfd'
        · exact Or.inr hfd'
        · exact List.mem_cons.1 hfd'
      rcases hfd' with rfl | hfd'
      · exact ⟨r, hlast, harmed⟩
      · obtain ⟨r', hr', harmed'⟩ := hdescriptors fd' hfd'
        exact ⟨r', hkept _ hr', harmed'⟩
    · by_cases hne : p = e.records.next
      · exact ⟨_, hlast, hevent.trans hne.symm, harmed⟩
      · obtain ⟨q, hq, hqevent⟩ := hall p event ((hrecords p hne).symm.trans hp)
        exact ⟨q, hkept q hq, hqevent⟩

theorem noLeak_addTimer (hnew : fd ∉ e.opened) (data : Option ℕ) (n : ℕ) :
    (e.addTimer fd data n).NoLeak ↔ e.NoLeak := by
  refine noLeak_register rfl rfl rfl (Or.inr rfl) hnew fun p hp => ?_
  unfold Events.addTimer
  rw [Heap.get?_update_of_ne _ (Ne.symm hp), Heap.get?_alloc_of_ne hp]

/-- Neither is a subscription, which releases its record if it is refused. -/
theorem noLeak_subscribe (hnew : fd ∉ e.opened) (type : EventType) (data : Option ℕ) :
    (eventsSubscribe type e.manager fd data e).2.NoLeak ↔ e.NoLeak := by
  by_cases hadmits : e.admits e.manager fd
  · rw [eventsSubscribe_ok hadmits]
    exact noLeak_register rfl rfl rfl (Or.inl rfl) hnew fun p hp => Heap.get?_alloc_of_ne hp _
  · rw [eventsSubscribe_refused hadmits]
    refine noLeak_congr rfl rfl fun p => ?_
    by_cases hp : p = e.records.next
    · subst hp
      rw [Heap.get?_release_self, eq_comm, Option.eq_none_iff_forall_ne_some]
      exact fun a ha => absurd (Heap.get?_lt ha) (lt_irrefl _)
    · rw [Heap.get?_release_of_ne _ (Ne.symm hp), Heap.get?_alloc_of_ne hp]

/-- A record without a registration that reports is a leak. -/
theorem not_noLeak {p : ℕ} {event : Event} (hrecord : e.records.get? p = some event)
    (hnone : ∀ r ∈ e.epoll, r.2.event = p → r.2.armed = false) : ¬ e.NoLeak := by
  intro h
  obtain ⟨r, hr, hevent, harmed⟩ := h.records p event hrecord
  rw [hnone r hr hevent] at harmed
  cases harmed

/-- Every registration has a record, that of its descriptor. -/
def Events.Backed (e : Events) : Prop :=
  ∀ r ∈ e.epoll, ∃ event, e.records.get? r.2.event = some event ∧ event.id = r.1

theorem Events.Backed.key (h : e.Backed) {r : ℤ × Registration} (hr : r ∈ e.epoll) {event : Event}
    (hrecord : e.records.get? r.2.event = some event) : r.1 = event.id := by
  obtain ⟨event', hrecord', hid⟩ := h r hr
  rw [hrecord, Option.some.injEq] at hrecord'
  rw [← hid, hrecord']

/-- A one-shot registration that was reported never reports again, and its record stays. -/
theorem not_noLeak_fire (h : e.Backed) (hkeys : (e.epoll.map Prod.fst).Nodup) {p : ℕ}
    (hmem : (fd, ⟨p, true, true⟩) ∈ e.epoll) : ¬ (e.fire fd p).NoLeak := by
  obtain ⟨event, hrecord, hid⟩ := h _ hmem
  have hid : event.id = fd := hid
  refine @not_noLeak (e.fire fd p) p event hrecord fun r hr hevent => ?_
  obtain ⟨q, hq, rfl⟩ := List.mem_map.1 hr
  split_ifs at hevent ⊢ with heq
  · rfl
  · have hkey : q.1 = event.id := h.key hq (hevent ▸ hrecord)
    exact absurd (List.inj_on_of_nodup_map hkeys hq hmem (hkey.trans hid)) heq

/-- Neither does one that was taken away. -/
theorem not_noLeak_unsubscribe (h : e.Backed) {p : ℕ} {event : Event}
    (hrecord : e.records.get? p = some event) :
    ¬ { e with epoll := Assoc.erase e.epoll event.id }.NoLeak := by
  refine @not_noLeak { e with epoll := _ } p event hrecord fun r hr hevent => ?_
  obtain ⟨hmem, hne⟩ := List.mem_filter.1 hr
  exact absurd (h.key hmem (hevent ▸ hrecord)) (by simpa using hne)

end Leaks

section World

/-- What a registration is for: a timer, the input, or a packet for the output, whose memory is
there. -/
inductive Os.Serves (w : Os) : ℤ × Registration → Prop
  | timer {fd : ℤ} {p : ℕ} {armed : Bool} (hfd : 2 < fd)
    (hrecord : w.events.records.get? p = some ⟨.timer, fd, none⟩) : Serves w (fd, ⟨p, true, armed⟩)
  | read {p : ℕ} (hrecord : w.events.records.get? p = some ⟨.read, 0, none⟩) :
    Serves w (0, ⟨p, false, true⟩)
  | write {p q : ℕ} {packet : Packet} {bytes : Bytes}
    (hrecord : w.events.records.get? p = some ⟨.write, 1, some q⟩)
    (hpacket : w.packets.get? q = some packet)
    (hbuffer : w.buffers.get? packet.data = some bytes) : Serves w (1, ⟨p, false, true⟩)

/-- Each descriptor has one registration at most, and the layer's own are those of the timers,
beyond the three a program starts with. -/
structure Os.Tidy (w : Os) : Prop where
  keys : (w.events.epoll.map Prod.fst).Nodup
  serves : ∀ r ∈ w.events.epoll, w.Serves r
  opened : ∀ fd ∈ w.events.opened, 2 < fd
  timers : ∀ r ∈ w.events.epoll, 2 < r.1 → r.1 ∈ w.events.opened

variable {w w' : Os} {r : ℤ × Registration}

theorem Os.Serves.mono (h : w.Serves r)
    (hrecords : ∀ p event, w.events.records.get? p = some event →
      w'.events.records.get? p = some event)
    (hpackets : ∀ q packet, w.packets.get? q = some packet → w'.packets.get? q = some packet)
    (hbuffers : ∀ b bytes, w.buffers.get? b = some bytes → w'.buffers.get? b = some bytes) :
    w'.Serves r := by
  cases h with
  | timer hfd hrecord => exact .timer hfd (hrecords _ _ hrecord)
  | read hrecord => exact .read (hrecords _ _ hrecord)
  | write hrecord hpacket hbuffer =>
    exact .write (hrecords _ _ hrecord) (hpackets _ _ hpacket) (hbuffers _ _ hbuffer)

theorem Os.Tidy.backed (h : w.Tidy) : w.events.Backed := by
  intro r hr
  cases h.serves r hr with
  | timer _ hrecord => exact ⟨_, hrecord, rfl⟩
  | read hrecord => exact ⟨_, hrecord, rfl⟩
  | write hrecord _ _ => exact ⟨_, hrecord, rfl⟩

/-- A registration of a descriptor that had none. -/
theorem Os.Tidy.register (h : w.Tidy) {fd : ℤ} {r : Registration} (hunder : w.events.under fd = [])
    (hepoll : w'.events.epoll = w.events.epoll ++ [(fd, r)])
    (hserves : ∀ q, w.Serves q → w'.Serves q) (hnew : w'.Serves (fd, r))
    (hopened : w'.events.opened = w.events.opened ∧ fd ≤ 2
      ∨ w'.events.opened = fd :: w.events.opened ∧ 2 < fd) : w'.Tidy := by
  refine ⟨?_, fun q hq => ?_, fun fd' hfd' => ?_, fun q hq hlarge => ?_⟩
  · rw [hepoll]
    exact Assoc.nodup_keys_concat r h.keys (under_eq_nil.1 hunder)
  · rcases List.mem_append.1 (hepoll ▸ hq) with hq | hq
    · exact hserves q (h.serves q hq)
    · exact List.mem_singleton.1 hq ▸ hnew
  · rcases hopened with ⟨heq, -⟩ | ⟨heq, hlarge⟩ <;> rw [heq] at hfd'
    · exact h.opened fd' hfd'
    · rcases List.mem_cons.1 hfd' with rfl | hfd'
      · exact hlarge
      · exact h.opened fd' hfd'
  · rcases List.mem_append.1 (hepoll ▸ hq) with hq | hq
    · rcases hopened with ⟨heq, -⟩ | ⟨heq, -⟩ <;> rw [heq]
      · exact h.timers q hq hlarge
      · exact List.mem_cons_of_mem _ (h.timers q hq hlarge)
    · obtain rfl := List.mem_singleton.1 hq
      rcases hopened with ⟨-, hsmall⟩ | ⟨heq, -⟩
      · exact absurd hlarge (not_lt.2 hsmall)
      · rw [heq]
        exact List.mem_cons_self

/-- Registrations that stay, or go. -/
theorem Os.Tidy.shrink (h : w.Tidy) (hepoll : w'.events.epoll.Sublist w.events.epoll)
    (hserves : ∀ q ∈ w'.events.epoll, w.Serves q → w'.Serves q)
    (hopened : w'.events.opened = w.events.opened) : w'.Tidy := by
  refine ⟨h.keys.sublist (hepoll.map _), fun q hq => ?_, ?_, fun q hq => ?_⟩
  · exact hserves q hq (h.serves q (hepoll.subset hq))
  · rw [hopened]
    exact h.opened
  · rw [hopened]
    exact h.timers q (hepoll.subset hq)

theorem Os.Tidy.tick (h : w.Tidy) : Os.Tidy { w with events := w.events.tick } :=
  h.shrink (List.Sublist.refl _) (fun _ _ hq => hq.mono (fun _ _ => id) (fun _ _ => id)
    fun _ _ => id) rfl

theorem Os.Tidy.under_eq_nil (h : w.Tidy) {fd : ℤ} (hfd : 2 < fd)
    (hnew : fd ∉ w.events.opened) : w.events.under fd = [] :=
  Erlm.under_eq_nil.2 fun r hr heq => hnew (heq ▸ h.timers r hr (heq.symm ▸ hfd))

theorem Os.Tidy.addTimer (h : w.Tidy) {fd : ℤ} (hfd : 2 < fd) (hnew : fd ∉ w.events.opened)
    (n : ℕ) : Os.Tidy { w with events := w.events.addTimer fd none n } := by
  refine h.register (h.under_eq_nil hfd hnew) rfl (fun q hq => hq.mono (fun p event hp => ?_)
    (fun _ _ => id) fun _ _ => id) (.timer hfd ?_) (Or.inr ⟨rfl, hfd⟩)
  · simp only [Events.addTimer]
    rw [Heap.get?_update_of_ne _ (Nat.ne_of_lt (Heap.get?_lt hp)).symm]
    exact Heap.get?_alloc hp _
  · simp only [Events.addTimer]
    rw [Heap.get?_update_self, Heap.get?_alloc_next]
    rfl

/-- A subscription of the input or the output, once what it points to is there. -/
theorem Os.Tidy.subscribe (h : w.Tidy) {type : EventType} {fd : ℤ} (hfd : fd ≤ 2)
    {data : Option ℕ} (hevents : w'.events = (eventsSubscribe type w.events.manager fd data
      w.events).2)
    (hpackets : ∀ q packet, w.packets.get? q = some packet → w'.packets.get? q = some packet)
    (hbuffers : ∀ b bytes, w.buffers.get? b = some bytes → w'.buffers.get? b = some bytes)
    (hnew : w'.events.records.get? w.events.records.next = some ⟨type, fd, data⟩ →
      w'.Serves (fd, ⟨w.events.records.next, false, true⟩)) : w'.Tidy := by
  by_cases hadmits : w.events.admits w.events.manager fd
  · rw [eventsSubscribe_ok hadmits] at hevents
    have hrecords : w'.events.records = w.events.records.alloc ⟨type, fd, data⟩ := by rw [hevents]
    refine h.register hadmits.2.2 (by rw [hevents])
      (fun q hq => hq.mono (fun p event hp => ?_) hpackets hbuffers) (hnew ?_)
      (Or.inl ⟨by rw [hevents], hfd⟩)
    · rw [hrecords]
      exact Heap.get?_alloc hp _
    · rw [hrecords]
      exact Heap.get?_alloc_next _ _
  · rw [eventsSubscribe_refused hadmits] at hevents
    refine h.shrink (by rw [hevents]) (fun q _ hq => hq.mono (fun p event hp => ?_) hpackets
      hbuffers) (by rw [hevents])
    rw [hevents, Heap.get?_release_of_ne _ (Nat.ne_of_lt (Heap.get?_lt hp)).symm]
    exact Heap.get?_alloc hp _

theorem Os.Tidy.listen (h : w.Tidy) : Os.Tidy { w with
    events := (eventsSubscribeRead w.events.manager 0 none w.events).2 } :=
  h.subscribe (by decide) rfl (fun _ _ => id) (fun _ _ => id) .read

theorem Os.Tidy.queue (h : w.Tidy) (bytes : Bytes) : (w.queue bytes).Tidy :=
  h.subscribe (by decide) rfl (fun _ _ hp => Heap.get?_alloc hp _)
    (fun _ _ hp => Heap.get?_alloc hp _) fun hrecord =>
      .write hrecord (Heap.get?_alloc_next _ _) (Heap.get?_alloc_next _ _)

theorem Os.Tidy.fire (h : w.Tidy) {fd : ℤ} {p : ℕ} :
    Os.Tidy { w with events := w.events.fire fd p } := by
  have hmono : ∀ q, w.Serves q → Os.Serves { w with events := w.events.fire fd p } q :=
    fun q hq => hq.mono (fun _ _ => id) (fun _ _ => id) fun _ _ => id
  refine ⟨(keys_fire w.events fd p).symm ▸ h.keys, fun r hr => ?_, h.opened, fun r hr hlarge => ?_⟩
  · obtain ⟨q, hq, rfl⟩ := List.mem_map.1 hr
    split_ifs with heq
    · subst heq
      cases h.serves _ hq with
      | timer hfd hrecord => exact hmono _ (.timer hfd hrecord)
    · exact hmono q (h.serves q hq)
  · obtain ⟨q, hq, rfl⟩ := List.mem_map.1 hr
    have := h.timers q hq
    split_ifs at hlarge ⊢ with heq
    · rw [heq] at this
      exact this hlarge
    · exact this hlarge

/-- The packet that was registered may be gone with its registration. -/
theorem Os.Tidy.flush (h : w.Tidy) {packets : Heap Packet} {buffers : Heap Bytes}
    {output : Output} : Os.Tidy { w with
      events := { w.events.tick with epoll := Assoc.erase w.events.epoll 1 }
      packets
      buffers
      output } := by
  refine h.shrink List.filter_sublist (fun q hq hserves => ?_) rfl
  have hne : q.1 ≠ 1 := by simpa using (List.mem_filter.1 hq).2
  cases hserves with
  | timer hfd hrecord => exact .timer hfd hrecord
  | read hrecord => exact .read hrecord
  | write _ _ _ => exact absurd rfl hne

end World

section Machine

variable (erl : Erl) (entry : ℕ)

/-- What happens: something about the timers or the output ports, or the program starts to listen
to its input. -/
inductive HandlerAction
  | timer (a : TimerAction)
  | port (a : PortAction)
  | listen

/-- The context, and the timer event whose callback runs. -/
structure HandlerState where
  ctx : Ctx Os
  running : Option Event

/-- No event is handled while a callback runs. -/
def handlerStep : HandlerAction → HandlerState → Except Fault HandlerState
  | .timer a, s => (timerStep entry a ⟨s.ctx, s.running, []⟩).map fun t => ⟨t.ctx, t.running⟩
  | .port (.emit name d), s =>
    (portStep erl entry (.emit name d) ⟨s.ctx, [], []⟩).map fun t => { s with ctx := t.ctx }
  | .port .writeReady, s =>
    if s.running.isSome then .ok s
    else (portStep erl entry .writeReady ⟨s.ctx, [], []⟩).map fun t => { s with ctx := t.ctx }
  | .listen, s =>
    match erlmListenInputEvent s.ctx.world.events.manager s.ctx with
    | .ok _ ctx => .ok { s with ctx }
    | .error fault _ => .error fault

/-- The kernel gives a timer a descriptor that is not open, and timer events are those of such
descriptors. -/
def HandlerAction.Ok : HandlerAction → HandlerState → Prop
  | .timer (.setTimeout _ _), s => ∃ fd, 2 < fd ∧ IsFd fd ∧ fd ∉ s.ctx.world.events.opened
    ∧ s.ctx.world.events.sched s.ctx.world.events.syscalls = some fd
  | .timer (.clearTimeout _), _ => True
  | .timer (.deliver fd), _ => 2 < fd
  | .timer (.finish _), _ => True
  | .port (.emit _ d), _ => d.Small
  | .port .writeReady, _ => True
  | .listen, _ => True

/-- No event is handled: no timer reports, and no packet waits for the output. -/
def HandlerAction.Quiet : HandlerAction → HandlerState → Prop
  | .timer (.deliver fd), s => s.running = none → ∀ r ∈ s.ctx.world.events.under fd,
    r.2.armed = false
  | .port .writeReady, s => s.running = none → s.ctx.world.events.under 1 = []
  | _, _ => True

/-- What the handlers rely on and leave as it is. -/
structure Ready (c : Ctx Os) : Prop where
  timered : Timered c
  managed : Managed c
  willing : ∀ n, (c.world.events.sched n).isSome = true

structure HandlerInv (s : HandlerState) : Prop where
  ready : Ready s.ctx
  tidy : s.ctx.world.Tidy
  stack : ∃ st, s.ctx.stack = (if s.running.isSome then
    [.ref callbacksRef, .ref stashRef] else []) ++ st ∧ st.length + 3 ≤ s.ctx.reserve

/-- The program is set up, and has not handled anything. -/
structure HandlerState.Fresh (s : HandlerState) : Prop where
  ready : Ready s.ctx
  epoll : s.ctx.world.events.epoll = []
  opened : s.ctx.world.events.opened = []
  records : s.ctx.world.events.records = Heap.empty
  room : s.ctx.stack.length + 3 ≤ s.ctx.reserve
  running : s.running = none

end Machine

section Steps

variable {erl : Erl} {entry : ℕ} {s : HandlerState} {c : Ctx Os}

theorem Ready.congr (h : Ready c) {c' : Ctx Os} (hstash : c'.store stashRef = c.store stashRef)
    (hmanager : c'.world.events.manager = c.world.events.manager)
    (hsched : c'.world.events.sched = c.world.events.sched) : Ready c' := by
  obtain ⟨⟨hint, htimers, hcallbacks⟩, ⟨-, hports⟩, hwilling⟩ := h
  rw [← hmanager] at hint htimers hports
  rw [← hstash] at htimers hcallbacks hports
  rw [← hsched] at hwilling
  exact ⟨⟨hint, htimers, hcallbacks⟩, ⟨hint, hports⟩, hwilling⟩

/-- The stash is another object than the callbacks. -/
theorem Ready.withShared (h : Ready c) (ps : Props) : Ready (c.withShared callbacksRef ps) :=
  h.congr (Function.update_of_ne (show stashRef ≠ callbacksRef by decide) ps c.store) rfl rfl

theorem handlerStep_timer {a : TimerAction} {t : TimerState}
    (h : timerStep entry a ⟨s.ctx, s.running, []⟩ = .ok t) :
    handlerStep erl entry (.timer a) s = .ok ⟨t.ctx, t.running⟩ := by
  simp only [handlerStep, h]
  rfl

theorem handlerStep_emit {name : Bytes} {d : JsData} {t : PortState}
    (h : portStep erl entry (.emit name d) ⟨s.ctx, [], []⟩ = .ok t) :
    handlerStep erl entry (.port (.emit name d)) s = .ok { s with ctx := t.ctx } := by
  simp only [handlerStep, h]
  rfl

theorem handlerStep_writeReady (hrunning : s.running = none) {t : PortState}
    (h : portStep erl entry .writeReady ⟨s.ctx, [], []⟩ = .ok t) :
    handlerStep erl entry (.port .writeReady) s = .ok { s with ctx := t.ctx } := by
  simp only [handlerStep, hrunning, h]
  rfl

theorem handlerStep_listen {ctx : Ctx Os}
    (h : erlmListenInputEvent s.ctx.world.events.manager s.ctx = .ok () ctx) :
    handlerStep erl entry .listen s = .ok { s with ctx } := by
  simp only [handlerStep, h]

/-- A step keeps the invariant, and leaks nothing exactly if it is quiet. -/
def Kept (a : HandlerAction) (s s' : HandlerState) : Prop :=
  HandlerInv s' ∧ (s'.ctx.world.events.NoLeak ↔ s.ctx.world.events.NoLeak ∧ a.Quiet s)

theorem handler_setTimeout (hentry : DUK_API_ENTRY_STACK ≤ entry) (h : HandlerInv s) {fd : ℤ}
    (hlarge : 2 < fd) (hfd : IsFd fd) (hnew : fd ∉ s.ctx.world.events.opened)
    (hsched : s.ctx.world.events.sched s.ctx.world.events.syscalls = some fd) (f t : JsVal) :
    ∃ s', handlerStep erl entry (.timer (.setTimeout f t)) s = .ok s'
      ∧ Kept (.timer (.setTimeout f t)) s s' := by
  obtain ⟨n, hrun⟩ := setTimeout_run hentry h.ready.timered ⟨hsched, h.ready.willing⟩ hfd
    (h.tidy.under_eq_nil hlarge hnew) f t
  refine ⟨_, handlerStep_timer (timerStep_setTimeout hrun), ⟨?_, h.tidy.addTimer hlarge hnew n,
    h.stack⟩, (noLeak_addTimer hnew none n).trans (and_iff_left trivial).symm⟩
  have hready : Ready (s.ctx.withEvents (s.ctx.world.events.addTimer fd none n)) :=
    h.ready.congr rfl rfl rfl
  exact hready.withShared _

theorem handler_clearTimeout (hentry : DUK_API_ENTRY_STACK ≤ entry) (h : HandlerInv s)
    (d : Double) : ∃ s', handlerStep erl entry (.timer (.clearTimeout d)) s = .ok s'
      ∧ Kept (.timer (.clearTimeout d)) s s' :=
  ⟨_, handlerStep_timer (timerStep_clearTimeout (clearTimeout_run hentry h.ready.timered d)),
    ⟨h.ready.withShared _, h.tidy, h.stack⟩, (and_iff_left trivial).symm⟩

theorem handler_finish (h : HandlerInv s) (v : JsVal) :
    ∃ s', handlerStep erl entry (.timer (.finish v)) s = .ok s'
      ∧ Kept (.timer (.finish v)) s s' := by
  obtain ⟨st, hst, hroom⟩ := h.stack
  rcases hrunning : s.running with _ | event
  · have hstep := @timerStep_finish_idle entry ⟨s.ctx, s.running, []⟩ hrunning v
    exact ⟨_, handlerStep_timer hstep, h, (and_iff_left trivial).symm⟩
  · rw [hrunning] at hst
    have hstep := @timerStep_finish entry ⟨s.ctx, s.running, []⟩ event hrunning v _
      (finishTimer_run hst event v)
    have hready := h.ready.withShared
      (Assoc.erase s.ctx.callbacks (decimal (toUarridx event.id)))
    exact ⟨_, handlerStep_timer hstep, ⟨hready.congr rfl rfl rfl, h.tidy, st, rfl, hroom⟩,
      (and_iff_left trivial).symm⟩

/-- A wait that gives no event. -/
theorem HandlerInv.tick (h : HandlerInv s) {a : HandlerAction} (hquiet : a.Quiet s) :
    Kept a s { s with ctx := s.ctx.withEvents s.ctx.world.events.tick } :=
  ⟨⟨h.ready.congr rfl rfl rfl, h.tidy.tick, h.stack⟩,
    (@noLeak_congr s.ctx.world.events s.ctx.world.events.tick rfl rfl fun _ => rfl).trans
      (and_iff_left hquiet).symm⟩

/-- What a timer event does, whatever it calls: `ctx` is the context after it. Its registration is
disarmed for good. -/
theorem HandlerInv.fire (h : HandlerInv s) {fd : ℤ} {p : ℕ}
    (hmem : (fd, ⟨p, true, true⟩) ∈ s.ctx.world.events.epoll) (hrunning : s.running = none)
    {ctx : Ctx Os} {running : Option Event} (hstore : ctx.store = s.ctx.store)
    (hworld : ctx.world = { s.ctx.world with events := s.ctx.world.events.fire fd p })
    (hstack : ∃ st : List JsVal, ctx.stack = (if running.isSome then
      [JsVal.ref callbacksRef, JsVal.ref stashRef] else []) ++ st
        ∧ st.length + 3 ≤ ctx.reserve) :
    Kept (.timer (.deliver fd)) s ⟨ctx, running⟩ := by
  have hleak := not_noLeak_fire h.tidy.backed h.tidy.keys hmem
  have hloud : ¬ (HandlerAction.timer (.deliver fd)).Quiet s := by
    intro hquiet
    cases hquiet hrunning _ (List.mem_filter.2 ⟨hmem, by simp⟩)
  refine ⟨⟨h.ready.congr (by rw [hstore]) (by rw [hworld]; rfl) (by rw [hworld]; rfl), ?_, hstack⟩,
    ?_⟩
  · rw [show ctx.world = _ from hworld]
    exact h.tidy.fire
  · rw [show ctx.world = _ from hworld]
    exact ⟨fun hno => absurd hno hleak, fun hq => absurd hq.2 hloud⟩

theorem handler_deliver (h : HandlerInv s) {fd : ℤ} (hlarge : 2 < fd) :
    ∃ s', handlerStep erl entry (.timer (.deliver fd)) s = .ok s'
      ∧ Kept (.timer (.deliver fd)) s s' := by
  obtain ⟨st, hst, hroom⟩ := h.stack
  rcases hrunning : s.running with _ | event
  · rw [hrunning] at hst
    have hst : s.ctx.stack = st := hst
    by_cases harmed : ∃ p, (fd, ⟨p, true, true⟩) ∈ s.ctx.world.events.epoll
    · obtain ⟨p, hmem⟩ := harmed
      have hrecord : s.ctx.world.events.records.get? p = some ⟨.timer, fd, none⟩ := by
        cases h.tidy.serves _ hmem with
        | timer _ hrecord => exact hrecord
      have hwait := eventsWait_oneshot (h.ready.willing _) (filter_eq_singleton h.tidy.keys hmem)
      obtain ⟨v, hv⟩ : ∃ v, s.ctx.prop (.ref callbacksRef) (decimal (toUarridx fd)) = some v :=
        ⟨_, prop_callback s.ctx _⟩
      have hstep := @timerStep_fire entry ⟨s.ctx, s.running, []⟩ h.ready.timered hrunning st hst
        hroom fd p ⟨.timer, fd, none⟩ hwait hrecord rfl v hv
      by_cases hfun : v.isFunction = true
      · rw [if_pos hfun] at hstep
        exact ⟨_, handlerStep_timer hstep, h.fire hmem hrunning rfl rfl ⟨st, rfl, hroom⟩⟩
      · rw [if_neg hfun] at hstep
        refine ⟨_, handlerStep_timer hstep, h.fire hmem hrunning rfl rfl ⟨st, ?_, hroom⟩⟩
        simp only [hrunning]
        exact hst
    · have hnone : ∀ r ∈ s.ctx.world.events.under fd, r.2.armed = false := by
        intro ⟨fd', r⟩ hr
        obtain ⟨hmem, hfd⟩ := mem_under.1 hr
        obtain rfl : fd' = fd := hfd
        cases h.tidy.serves _ hmem with
        | timer hfd hrecord =>
          rw [← Bool.not_eq_true]
          rintro rfl
          exact harmed ⟨_, hmem⟩
        | read _ => exact absurd hlarge (by decide)
        | write _ _ _ => exact absurd hlarge (by decide)
      have hstep := @timerStep_nothing entry ⟨s.ctx, s.running, []⟩ hrunning fd _
        (deliverTimer_nothing (eventsWait_none (h.ready.willing _) hnone))
      exact ⟨_, handlerStep_timer hstep, h.tick fun _ => hnone⟩
  · have hstep := @timerStep_deliver_busy entry ⟨s.ctx, s.running, []⟩ event hrunning fd
    refine ⟨_, handlerStep_timer hstep, h, (and_iff_left fun hnone => ?_).symm⟩
    rw [hrunning] at hnone
    cases hnone

theorem handler_emit (hentry : DUK_API_ENTRY_STACK ≤ entry) (h : HandlerInv s) {d : JsData}
    (hd : d.Small) (name : Bytes) :
    ∃ s', handlerStep erl entry (.port (.emit name d)) s = .ok s'
      ∧ Kept (.port (.emit name d)) s s' := by
  obtain ⟨outcome, hrun, -⟩ := emit_run erl hentry h.ready.managed hd name
  have hone : (1 : ℤ) ∉ s.ctx.world.events.opened := fun hmem =>
    absurd (h.tidy.opened 1 hmem) (by omega)
  refine ⟨_, handlerStep_emit (portStep_emit hrun), ?_⟩
  split_ifs
  · obtain ⟨hsched, hmanager⟩ := queue_sched s.ctx.world (erl.encode d.termOf)
    exact ⟨⟨h.ready.congr rfl hmanager hsched, h.tidy.queue _, h.stack⟩,
      (noLeak_subscribe hone _ _).trans (and_iff_left trivial).symm⟩
  · exact ⟨h, (and_iff_left trivial).symm⟩

/-- A write event, if one comes, leaves the record of a registration it takes away. -/
theorem handler_writeReady (h : HandlerInv s) :
    ∃ s', handlerStep erl entry (.port .writeReady) s = .ok s' ∧ Kept (.port .writeReady) s s' := by
  rcases hrunning : s.running with _ | event
  · rcases hunder : s.ctx.world.events.under 1 with _ | ⟨r, rest⟩
    · have hnone : ∀ r ∈ s.ctx.world.events.under 1, r.2.armed = false := by simp [hunder]
      have hstep := @portStep_writeReady erl entry ⟨s.ctx, [], []⟩ _ _
        (deliverWrite_nothing (eventsWait_none (h.ready.willing _) hnone))
      exact ⟨_, handlerStep_writeReady hrunning hstep, h.tick fun _ => hunder⟩
    · obtain ⟨fd, r⟩ := r
      have hr : (fd, r) ∈ s.ctx.world.events.under 1 := hunder ▸ List.mem_cons_self
      obtain ⟨hmem, rfl⟩ := mem_under.1 hr
      have hsingle := filter_eq_singleton h.tidy.keys hmem
      cases h.tidy.serves _ hmem with
      | timer hfd _ => exact absurd hfd (by decide)
      | @write p q packet bytes hrecord hpacket hbuffer =>
        have hhandled := @erlmHandleOutputEvent_ok (s.ctx.withEvents s.ctx.world.events.tick) q
          packet bytes s.ctx.world.events.manager hpacket hbuffer
        have hunsubscribe := @eventsUnsubscribe_run s.ctx.world.events.manager
          (s.ctx.withEvents s.ctx.world.events.tick).world.events rfl ⟨.write, 1, some q⟩
        simp only [hunsubscribe] at hhandled
        have hstep := @portStep_writeReady erl entry ⟨s.ctx, [], []⟩ _ _
          (deliverWrite_event (eventsWait_level (h.ready.willing _) hsingle) hrecord hhandled)
        have hleak := @not_noLeak_unsubscribe s.ctx.world.events.tick h.tidy.backed p _ hrecord
        refine ⟨_, handlerStep_writeReady hrunning hstep,
          ⟨h.ready.congr rfl rfl rfl, h.tidy.flush, h.stack⟩, fun hno => absurd hno hleak,
          fun hq => ?_⟩
        have hnone := hq.2 hrunning
        rw [hunder] at hnone
        cases hnone
  · have hstep : handlerStep erl entry (.port .writeReady) s = .ok s := by
      simp [handlerStep, hrunning]
    refine ⟨s, hstep, h, (and_iff_left fun hnone => ?_).symm⟩
    rw [hrunning] at hnone
    cases hnone

theorem handler_listen (h : HandlerInv s) :
    ∃ s', handlerStep erl entry .listen s = .ok s' ∧ Kept .listen s s' := by
  have hzero : (0 : ℤ) ∉ s.ctx.world.events.opened := fun hmem =>
    absurd (h.tidy.opened 0 hmem) (by omega)
  have hlisten : erlmListenInputEvent s.ctx.world.events.manager s.ctx = .ok () (s.ctx.withEvents
      (eventsSubscribeRead s.ctx.world.events.manager 0 none s.ctx.world.events).2) := rfl
  obtain ⟨hsched, hmanager⟩ := subscribe_sched .read 0 none s.ctx.world.events
  exact ⟨_, handlerStep_listen hlisten, ⟨h.ready.congr rfl hmanager hsched, h.tidy.listen, h.stack⟩,
    (noLeak_subscribe hzero _ _).trans (and_iff_left trivial).symm⟩

end Steps

section Runs

variable {erl : Erl} {entry : ℕ} {s : HandlerState}

theorem handler_step (hentry : DUK_API_ENTRY_STACK ≤ entry) (a : HandlerAction) (s : HandlerState)
    (ha : a.Ok s) (h : HandlerInv s) :
    ∃ s', handlerStep erl entry a s = .ok s' ∧ Kept a s s' := by
  rcases a with (⟨f, t⟩ | d | fd | v) | (⟨name, d⟩ | _) | _
  · obtain ⟨fd, hlarge, hfd, hnew, hsched⟩ := ha
    exact handler_setTimeout hentry h hlarge hfd hnew hsched f t
  · exact handler_clearTimeout hentry h d
  · exact handler_deliver h ha
  · exact handler_finish h v
  · exact handler_emit hentry h ha name
  · exact handler_writeReady h
  · exact handler_listen h

theorem handler_fresh (h : s.Fresh) : HandlerInv s ∧ s.ctx.world.events.NoLeak := by
  obtain ⟨hready, hepoll, hopened, hrecords, hroom, hrunning⟩ := h
  refine ⟨⟨hready, ⟨?_, ?_, ?_, ?_⟩, s.ctx.stack, by simp [hrunning], hroom⟩, ?_, ?_⟩
  · simp [hepoll]
  · simp [hepoll]
  · simp [hopened]
  · simp [hepoll]
  · simp [hopened]
  · intro p event hp
    rw [hrecords] at hp
    exact absurd (Heap.get?_lt hp) (Nat.not_lt_zero p)

theorem handler_run (hentry : DUK_API_ENTRY_STACK ≤ entry) (h : HandlerInv s)
    {as : List HandlerAction} (has : Run.Allowed (handlerStep erl entry) HandlerAction.Ok as s) :
    ∃ s', Run.run (handlerStep erl entry) as s = .ok s' ∧ HandlerInv s'
      ∧ (s'.ctx.world.events.NoLeak ↔ s.ctx.world.events.NoLeak
        ∧ Run.Allowed (handlerStep erl entry) HandlerAction.Quiet as s) :=
  @Run.run_iff _ _ _ (handlerStep erl entry) HandlerInv (fun s => s.ctx.world.events.NoLeak) _ _
    (handler_step hentry) as s has h

/-- In the state a run leads to nothing has leaked, exactly if no event was handled on the way. -/
theorem noLeak_iff (hentry : DUK_API_ENTRY_STACK ≤ entry) (hs : s.Fresh) (as : List HandlerAction)
    (has : Run.Allowed (handlerStep erl entry) HandlerAction.Ok as s) :
    ∃ s', Run.run (handlerStep erl entry) as s = .ok s' ∧ (s'.ctx.world.events.NoLeak
      ↔ Run.Allowed (handlerStep erl entry) HandlerAction.Quiet as s) := by
  obtain ⟨hinv, hno⟩ := handler_fresh hs
  obtain ⟨s', hrun, -, hiff⟩ := handler_run hentry hinv has
  exact ⟨s', hrun, hiff.trans (and_iff_right hno)⟩

/-- The context of a program that is set up, with calls that all succeed. -/
def handlersCtx : Ctx Os :=
  { Ctx.bare 64 ⟨⟨3, [], Heap.empty, [], [], fun _ => some 5, 0⟩, Heap.empty, Heap.empty,
      ⟨[], fun _ => .zero, []⟩, ⟨[], fun _ => .zero, []⟩⟩ with
    store := fun r => if r = stashRef then
      [(timersEventsManager, .number (.ofInt 3)), (timeoutCallbacks, .ref callbacksRef),
        (eventsManager, .number (.ofInt 3))] else [] }

theorem fresh_handlersCtx : (⟨handlersCtx, none⟩ : HandlerState).Fresh :=
  ⟨⟨⟨⟨by decide, by decide⟩, rfl, rfl⟩, ⟨⟨by decide, by decide⟩, rfl⟩, fun _ => rfl⟩, rfl, rfl, rfl,
    by decide, rfl⟩

theorem noLeak_iff_three : ∃ s', Run.run (handlerStep byteErl 64)
      [.timer (.setTimeout (.function 0 []) .undefined), .listen, .port (.emit [112] .null)]
      ⟨handlersCtx, none⟩ = .ok s'
    ∧ (s'.ctx.world.events.NoLeak ↔ Run.Allowed (handlerStep byteErl 64) HandlerAction.Quiet
      [.timer (.setTimeout (.function 0 []) .undefined), .listen, .port (.emit [112] .null)]
      ⟨handlersCtx, none⟩) := by
  have hsmall : JsData.null.Small := by simp [JsData.Small, JsData.All]
  refine @noLeak_iff byteErl 64 ⟨handlersCtx, none⟩ (le_refl _) fresh_handlersCtx _ ?_
  refine ⟨⟨5, by decide, ⟨by decide, by decide⟩, by decide, rfl⟩, fun _ _ => ⟨trivial, ?_⟩⟩
  exact fun _ _ => ⟨hsmall, fun _ _ => trivial⟩

theorem running_finish {v : JsVal} {s' : HandlerState}
    (h : handlerStep erl entry (.timer (.finish v)) s = .ok s') : s'.running = none := by
  simp only [handlerStep, timerStep] at h
  rcases hrunning : s.running with _ | event
  · simp only [hrunning] at h
    cases h
    rfl
  · simp only [hrunning] at h
    rcases hfinish : finishTimer event v s.ctx with ⟨_, ctx⟩ | ⟨_, _⟩
    · rw [hfinish] at h
      cases h
      rfl
    · rw [hfinish] at h
      cases h

/-- A timer whose callback has returned leaves its descriptor open and its record allocated. -/
theorem not_noLeak_timer : ¬ ∀ (erl : Erl) (entry : ℕ) (s : HandlerState) (as : List HandlerAction)
    (s' : HandlerState), DUK_API_ENTRY_STACK ≤ entry → s.Fresh →
    Run.Allowed (handlerStep erl entry) HandlerAction.Ok as s →
    Run.run (handlerStep erl entry) as s = .ok s' → s'.running = none →
    s'.ctx.world.events.NoLeak := by
  intro hall
  let as : List HandlerAction := [.timer (.setTimeout (.function 0 []) .undefined),
    .timer (.deliver 5), .timer (.finish .undefined)]
  have hok : Run.Allowed (handlerStep byteErl 64) HandlerAction.Ok as ⟨handlersCtx, none⟩ :=
    ⟨⟨5, by decide, ⟨by decide, by decide⟩, by decide, rfl⟩,
      fun _ _ => ⟨show (2 : ℤ) < 5 by decide, fun _ _ => ⟨trivial, fun _ _ => trivial⟩⟩⟩
  obtain ⟨s', hrun, -, hiff⟩ := handler_run (le_refl _) (handler_fresh fresh_handlersCtx).1 hok
  have hrunning : s'.running = none := by
    obtain ⟨_, -, h⟩ := Run.run_cons_eq_ok hrun
    obtain ⟨_, -, h⟩ := Run.run_cons_eq_ok h
    obtain ⟨t, ht, h⟩ := Run.run_cons_eq_ok h
    cases h
    exact running_finish ht
  obtain ⟨-, hquiet⟩ :=
    hiff.1 (hall byteErl 64 _ as s' (le_refl _) fresh_handlersCtx hok hrun hrunning)
  obtain ⟨n, hset⟩ := @setTimeout_run 64 handlersCtx (le_refl _) fresh_handlersCtx.ready.timered 5
    ⟨rfl, fun _ => rfl⟩ ⟨by decide, by decide⟩ rfl (.function 0 []) .undefined
  -- the event of the timer that was just set is there to be delivered
  have hnone := (hquiet.2 _ (handlerStep_timer (timerStep_setTimeout hset))).1 rfl
    (5, ⟨0, true, true⟩) (List.mem_filter.2 ⟨List.mem_cons_self, by decide⟩)
  cases hnone

end Runs

end Erlm
