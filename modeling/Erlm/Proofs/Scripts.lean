import Erlm.Lib.Program
import Erlm.Proofs.Leaks
import Erlm.Proofs.Safe

/-!
# The scripts

What the scripts can do with the program: call the functions it gives them, and read and change
objects of their own. A script is a program of such calls, run in a frame of its own, and an engine
runs one for each function that is called. Whatever the scripts are, they leave the program's own
memory, registrations and output in order (`sound_afterCall`).
-/

namespace Erlm

section Model

/-- A call of `setTimeout` or `clearTimeout` with any arguments, a value for the handler of an
output port, or a look at a shared object or a change of it. -/
inductive ScriptCall
  | setTimeout (args : List JsVal)
  | clearTimeout (args : List JsVal)
  | emit (name : Bytes) (value : JsData)
  | read (r : ℕ)
  | write (r : ℕ) (props : Props)

/-- What comes back from it. -/
def ScriptCall.Answer : ScriptCall → Type
  | read _ => Props
  | write _ _ => Unit
  | _ => Except JsVal JsVal

abbrev Script : Type := Program ScriptCall ScriptCall.Answer (Except JsVal JsVal)

variable (erl : Erl) (entry : ℕ)

def ScriptCall.run : (k : ScriptCall) → DukM Os k.Answer
  | setTimeout args => dukNative entry dukTimersSetTimeout .undefined args
  | clearTimeout args => dukNative entry dukTimersClearTimeout .undefined args
  | emit name d => dukNative entry (erlmOutputPortHandler erl) (portThis name) [d.toJs]
  | read r => fun c => .ok (c.store r) c
  | write r props => fun c => .ok () (c.withShared r props)

/-- The values a script may emit are `P`, and the objects of the program are not in its reach. -/
def ScriptCall.Ok (P : JsData → Prop) : ScriptCall → Prop
  | emit _ d => P d
  | write r _ => callbacksRef < r
  | _ => True

/-- The frame a script runs in. Nothing in it is called but by the script. -/
def scriptFrame (inherited : JsVal → Bytes → JsVal) (arrayLength : JsVal → Option ℕ) (store : Store)
    (world : Os) : Ctx Os :=
  { Ctx.bare 0 world with
    engine := ⟨inherited, arrayLength, fun _ _ store world => (.error .undefined, store, world)⟩
    store }

/-- The engine whose functions are scripts. -/
def scriptEngine (inherited : JsVal → Bytes → JsVal) (arrayLength : JsVal → Option ℕ)
    (scripts : JsVal → List JsVal → Script) : Engine Os where
  inherited
  arrayLength
  call f args store world :=
    match (scripts f args).run (ScriptCall.run erl entry)
      (scriptFrame inherited arrayLength store world) with
    | .ok outcome c => (outcome, c.store, c.world)
    | .error _ c => (.error .undefined, c.store, c.world)

end Model

section Invariant

/-- The kernel refuses no call, and gives no descriptor twice: the program closes none of those it
was given. -/
structure Generous (sched : ℕ → Option ℤ) : Prop where
  grants : ∀ n, ∃ fd, sched n = some fd ∧ 2 < fd
  once : Function.Injective sched

/-- The kernel gave every descriptor that is open. -/
def Events.Given (e : Events) : Prop :=
  ∀ fd ∈ e.opened, ∃ n < e.syscalls, e.sched n = some fd

/-- The outbox of a world with the bytes its buffers had from the start, the older ones first. -/
structure Os.Records (w : Os) (o : Outbox (ℕ × Bytes)) : Prop where
  holds : w.Holds o
  values : ∀ x ∈ o.contents, w.buffers.values[x.1]? = some x.2
  sorted : (o.contents.map Prod.fst).Pairwise (· < ·)

/-- What every part of the program relies on and leaves in order, the buffers made being for values
that are `P`. -/
structure Sound (erl : Erl) (P : JsData → Prop) (manager : ℤ) (c : Ctx Os) : Prop where
  ready : Ready c
  manager_eq : c.world.events.manager = manager
  generous : Generous c.world.events.sched
  given : c.world.events.Given
  closed : c.world.events.closed = []
  tidy : c.world.Tidy
  records : ∃ o, c.world.Records o
  made : ∀ bytes ∈ c.world.buffers.values, ∃ d, P d ∧ bytes = erl.encode d.termOf

/-- The same is left to read, and the same was written. -/
def Os.SameIo (w w' : Os) : Prop := w'.input = w.input ∧ w'.output = w.output

theorem Events.Given.mono {e e' : Events} (h : e.Given) (hopened : ∀ fd ∈ e'.opened, fd ∈ e.opened)
    (hsched : e'.sched = e.sched) (hle : e.syscalls ≤ e'.syscalls) : e'.Given := by
  intro fd hfd
  obtain ⟨n, hn, hgiven⟩ := h fd (hopened fd hfd)
  exact ⟨n, hn.trans_le hle, hsched ▸ hgiven⟩

variable {erl : Erl} {P : JsData → Prop} {manager : ℤ} {c c' : Ctx Os} {w : Os}
  {o : Outbox (ℕ × Bytes)}

theorem Sound.congr (h : Sound erl P manager c) (hstash : c'.store stashRef = c.store stashRef)
    (hworld : c'.world = c.world) : Sound erl P manager c' := by
  obtain ⟨hready, hmanager, hgenerous, hgiven, hclosed, htidy, hrecords, hmade⟩ := h
  refine ⟨hready.congr hstash (by rw [hworld]) (by rw [hworld]), ?_, ?_, ?_, ?_, ?_, ?_, ?_⟩
  all_goals rwa [hworld]

theorem Sound.withShared (h : Sound erl P manager c) {r : ℕ} (hr : r ≠ stashRef) (ps : Props) :
    Sound erl P manager (c.withShared r ps) := by
  refine h.congr ?_ rfl
  simp [Ctx.withShared, Function.update_of_ne (Ne.symm hr)]

/-- The next descriptor is one that is not open. -/
theorem Sound.opens (h : Sound erl P manager c) :
    ∃ fd, c.world.events.opens fd ∧ 2 < fd ∧ fd ∉ c.world.events.opened := by
  obtain ⟨fd, hfd, hlarge⟩ := h.generous.grants c.world.events.syscalls
  refine ⟨fd, ⟨hfd, h.ready.willing⟩, hlarge, fun hopened => ?_⟩
  obtain ⟨n, hn, hsched⟩ := h.given fd hopened
  exact absurd (h.generous.once (hsched.trans hfd.symm)) hn.ne

end Invariant

section Events

variable {e : Events} {fd timeout : ℤ}

/-- A subscription takes one system call, and opens and closes nothing. -/
theorem eventsSubscribe_opened (type : EventType) (fd : ℤ) (data : Option ℕ) :
    (eventsSubscribe type e.manager fd data e).2.opened = e.opened
      ∧ (eventsSubscribe type e.manager fd data e).2.closed = e.closed
      ∧ (eventsSubscribe type e.manager fd data e).2.syscalls = e.syscalls + 1 := by
  by_cases h : e.admits e.manager fd
  · simp only [eventsSubscribe_ok h, and_self]
  · simp only [eventsSubscribe_refused h, and_self]

/-- Sending a timer takes a system call at least. -/
theorem syscalls_lt_eventsSendTimeout (h : e.opens fd) (hfd : 0 ≤ fd) (hunder : e.under fd = [])
    (data : Option ℕ) :
    e.syscalls < (eventsSendTimeout e.manager timeout data e).2.syscalls := by
  by_cases htimeout : timeout ≤ 0
  · have hraw := @eventsSendRawCustom_ok { e with records := e.records.alloc ⟨.timer, 0, data⟩ } fd
      (h.grants 2) hfd hunder e.records.next
    rw [eventsSendTimeout_eq htimeout, sendReleasing, eventM_bind, hraw]
    simp only [if_neg (show ¬ fd < 0 by omega)]
    show e.syscalls < e.syscalls + 1 + 1
    omega
  · have hopen := @openFd_ok { e with records := e.records.alloc ⟨.timer, 0, data⟩ } fd h.1
    have hset := @timerfdSettime_ok { e with
      records := e.records.alloc ⟨.timer, 0, data⟩
      opened := fd :: e.opened
      syscalls := e.syscalls + 1 } (h.2 _) fd
    have hadd := @addOrRelease_ok { e with
      records := e.records.alloc ⟨.timer, 0, data⟩
      opened := fd :: e.opened
      syscalls := e.syscalls + 1 + 1 } fd ⟨h.2 _, rfl, hunder⟩ e.records.next
    unfold eventsSendTimeout mallocEvent
    rw [eventM_bind]
    simp only [if_neg htimeout]
    rw [eventM_bind, hopen]
    simp only [if_neg (show ¬ fd = -1 by omega)]
    rw [eventM_bind, hset]
    simp only [if_neg (show ¬ (0 : ℤ) < 0 by omega)]
    show e.syscalls < (addOrRelease e.manager fd e.records.next _).2.syscalls
    rw [hadd]
    show e.syscalls < e.syscalls + 1 + 1 + 1
    omega

end Events

section Natives

variable {erl : Erl} {P : JsData → Prop} {manager : ℤ} {entry : ℕ} {c : Ctx Os} {w : Os}
  {o : Outbox (ℕ × Bytes)}

/-- The world goes on with another event layer that has the same output registered. -/
theorem Os.Records.of_events (h : w.Records o) {events : Events}
    (hwaits : Os.Waits { w with events } o.slot) : Os.Records { w with events } o :=
  ⟨h.holds.of_waits hwaits, h.values, h.sorted⟩

/-- A registration of another descriptor with a new record. -/
theorem Os.Waits.register {slot : Option (ℕ × Bytes)} (h : w.Waits slot) {e : Events} {fd : ℤ}
    {r : Registration} (hfd : fd ≠ 1) (hepoll : e.epoll = w.events.epoll ++ [(fd, r)])
    (hrecords : ∀ p event, w.events.records.get? p = some event →
      e.records.get? p = some event) : Os.Waits { w with events := e } slot := by
  have hunder : e.under 1 = w.events.under 1 := by
    simp [Events.under, hepoll, hfd]
  cases slot with
  | none => exact hunder.trans h
  | some x =>
    obtain ⟨p, hp, hrecord, hpacket, hbuffer, hlen⟩ := h
    exact ⟨p, hunder.trans hp, hrecords _ _ hrecord, hpacket, hbuffer, hlen⟩

/-- `clearTimeout` deletes what is under the number its argument is taken for. -/
theorem dukTimersClearTimeout_run (h : Timered c) (hroom : 3 ≤ c.reserve) (v : JsVal) :
    dukTimersClearTimeout (c.withStack [v]) = .ok 0
      ((c.withShared callbacksRef
        (Assoc.erase c.callbacks (decimal (toUarridx (intOf v))))).withStack []) := by
  have hint : dukGetInt (-1) (c.withStack [v]) = .ok (intOf v) (c.withStack [v]) :=
    dukGetInt_run (Ctx.get_neg_one _ _ _)
  unfold dukTimersClearTimeout
  rw [bind_ok (dukGetTop_run _), if_neg (by simp), bind_ok hint, bind_ok (dukPop_ok _),
    dukPushGlobalStash, bind_ok (dukPush_ok (by simp; omega) _),
    bind_ok (dukGetPropString_ok h.prop_callbacks (by simp; omega)),
    bind_ok (dukDelPropIndex_ref _ _), bind_ok (dukPop2_ok _ _)]
  rfl

/-- `setTimeout` may throw; otherwise it registers a timer. -/
theorem Sound.setTimeout (hentry : DUK_API_ENTRY_STACK ≤ entry) (h : Sound erl P manager c)
    (args : List JsVal) :
    Ends (fun _ c' => Sound erl P manager c' ∧ c.world.SameIo c'.world) (fun _ _ => False)
      (dukNative entry dukTimersSetTimeout .undefined args c) := by
  by_cases hargs : ∃ f t, args = [f, t]
  · obtain ⟨f, t, rfl⟩ := hargs
    obtain ⟨fd, hopens, hlarge, hnew⟩ := h.opens
    have hfd : 0 ≤ fd := by omega
    have hunder := h.tidy.under_eq_nil hlarge hnew
    obtain ⟨n, hsend⟩ := eventsSendTimeout_ok hopens hfd hunder (intOf t) none
    have hlater := @syscalls_lt_eventsSendTimeout _ _ (intOf t) hopens hfd hunder none
    rw [hsend] at hlater
    have hset : Sound erl P manager (c.withEvents (c.world.events.addTimer fd none n)) := by
      refine ⟨h.ready.congr rfl rfl rfl, h.manager_eq, h.generous, ?_, h.closed,
        h.tidy.addTimer hlarge hnew n, ?_, h.made⟩
      · intro fd' hfd'
        rcases List.mem_cons.1 hfd' with rfl | hfd'
        · exact ⟨_, hlater, hopens.1⟩
        · obtain ⟨m, hm, hsched⟩ := h.given fd' hfd'
          exact ⟨m, hm.trans hlater, hsched⟩
      · obtain ⟨o, ho⟩ := h.records
        refine ⟨o, ho.of_events (ho.holds.waits.register (show fd ≠ 1 by omega) rfl
          fun p event hp => ?_)⟩
        unfold Events.addTimer
        rw [Heap.get?_update_of_ne _ (Nat.ne_of_lt (Heap.get?_lt hp)).symm]
        exact Heap.get?_alloc hp _
    rw [setTimeout_returns hentry h.ready.timered f t hsend]
    exact ⟨hset.withShared (show callbacksRef ≠ stashRef by decide) _, rfl, rfl⟩
  · have hcount : dukTimersSetTimeout (c.enter entry .undefined args)
        = .ok DUK_RET_ERROR (c.enter entry .undefined args) := by
      have hlen : args.length ≠ 2 := by
        intro hlen
        obtain ⟨f, t, rfl⟩ := List.length_eq_two.1 hlen
        exact hargs ⟨f, t, rfl⟩
      unfold dukTimersSetTimeout
      rw [bind_ok (dukGetTop_run _), if_pos (by simpa [Ctx.enter] using hlen)]
      rfl
    unfold dukNative
    rw [hcount]
    exact ⟨h.congr rfl rfl, rfl, rfl⟩

theorem Sound.clearTimeout (hentry : DUK_API_ENTRY_STACK ≤ entry) (h : Sound erl P manager c)
    (args : List JsVal) :
    Ends (fun _ c' => Sound erl P manager c' ∧ c.world.SameIo c'.world) (fun _ _ => False)
      (dukNative entry dukTimersClearTimeout .undefined args c) := by
  have hentry : 64 ≤ entry := hentry
  by_cases hargs : ∃ v, args = [v]
  · obtain ⟨v, rfl⟩ := hargs
    have hrun := @dukTimersClearTimeout_run (c.enter entry .undefined [v])
      (h.ready.timered.enter _ _) (by simp only [Ctx.enter, List.length_cons]; omega) v
    rw [dukNative_undefined hrun]
    exact ⟨(h.withShared (show callbacksRef ≠ stashRef by decide) _).congr rfl rfl, rfl, rfl⟩
  · have hcount : dukTimersClearTimeout (c.enter entry .undefined args)
        = .ok DUK_RET_ERROR (c.enter entry .undefined args) := by
      have hlen : args.length ≠ 1 := by
        intro hlen
        obtain ⟨v, rfl⟩ := List.length_eq_one_iff.1 hlen
        exact hargs ⟨v, rfl⟩
      unfold dukTimersClearTimeout
      rw [bind_ok (dukGetTop_run _), if_pos (by simpa [Ctx.enter] using hlen)]
      rfl
    unfold dukNative
    rw [hcount]
    exact ⟨h.congr rfl rfl, rfl, rfl⟩

/-- A packet that is made is the newest one. -/
theorem Os.Records.queue (h : w.Records o) {bytes : Bytes} (hlen : bytes.length ≤ 65535) :
    ∃ o', (w.queue bytes).Records o' := by
  have hlength : w.buffers.next = w.buffers.values.length := by simp [Heap.next, Heap.values]
  have hlast : (w.buffers.values ++ [bytes])[w.packets.next]? = some bytes := by
    rw [h.holds.next, hlength]
    simp
  refine ⟨_, h.holds.queue hlen, ?_, ?_⟩
  · intro x hx
    rw [Os.queue, Heap.values_alloc]
    have hold (hmem : x ∈ o.contents) : (w.buffers.values ++ [bytes])[x.1]? = some x.2 := by
      have hx := h.values x hmem
      rw [List.getElem?_append_left (List.getElem?_eq_some_iff.1 hx).1, hx]
    split_ifs at hx
    · rcases Outbox.mem_contents_put hx with hx | rfl
      · exact hold hx
      · exact hlast
    · exact hold hx
  · split_ifs
    · rw [Outbox.contents_put]
      split_ifs
      · rw [List.map_append, List.pairwise_append]
        refine ⟨h.sorted, by simp, fun a ha b hb => ?_⟩
        obtain ⟨x, hx, rfl⟩ := List.mem_map.1 ha
        simp only [List.map_cons, List.map_nil, List.mem_singleton] at hb
        exact hb ▸ h.holds.fresh x hx
      · rw [List.append_nil]
        exact h.sorted
    · exact h.sorted

/-- A value for an output port makes a packet, or is too deep. -/
theorem Sound.emit (hP : ∀ d, P d → d.Small ∧ (erl.encode d.termOf).length ≤ 65535)
    (hentry : DUK_API_ENTRY_STACK ≤ entry) (h : Sound erl P manager c) (name : Bytes) {d : JsData}
    (hd : P d) :
    Ends (fun _ c' => Sound erl P manager c' ∧ c.world.SameIo c'.world) (fun _ _ => False)
      (dukNative entry (erlmOutputPortHandler erl) (portThis name) [d.toJs] c) := by
  obtain ⟨hsmall, hlen⟩ := hP d hd
  obtain ⟨outcome, hrun, -⟩ := emit_run erl hentry h.ready.managed hsmall name
  rw [hrun]
  split_ifs
  · obtain ⟨hsched, hmanager⟩ := queue_sched c.world (erl.encode d.termOf)
    obtain ⟨o, ho⟩ := h.records
    obtain ⟨hopened, hclosed, hsyscalls⟩ :=
      @eventsSubscribe_opened c.world.events .write 1 (some c.world.packets.next)
    refine ⟨⟨h.ready.congr rfl hmanager hsched, hmanager.trans h.manager_eq, ?_, ?_,
      hclosed.trans h.closed, h.tidy.queue _, ho.queue hlen, ?_⟩, rfl, rfl⟩
    · rw [hsched]
      exact h.generous
    · refine h.given.mono (fun fd hfd => ?_) hsched ?_
      · exact hopened ▸ hfd
      · exact (Nat.le_succ _).trans hsyscalls.ge
    · intro bytes hbytes
      rw [Os.queue, Heap.values_alloc] at hbytes
      rcases List.mem_append.1 hbytes with hbytes | hbytes
      · exact h.made bytes hbytes
      · exact ⟨d, hd, List.mem_singleton.1 hbytes⟩
  · exact ⟨h, rfl, rfl⟩

end Natives

section Scripts

variable {erl : Erl} {P : JsData → Prop} {manager : ℤ} {entry : ℕ} {c : Ctx Os}

/-- The scripts, each of which emits values that are `P` alone. -/
structure Scripted (erl : Erl) (P : JsData → Prop) (engine : Engine Os) : Prop where
  fits : ∀ d, P d → d.Small ∧ (erl.encode d.termOf).length ≤ 65535
  engine_eq : ∃ entry scripts, DUK_API_ENTRY_STACK ≤ entry
    ∧ (∀ f args, (scripts f args).Calls (ScriptCall.Ok P))
    ∧ engine = scriptEngine erl entry engine.inherited engine.arrayLength scripts

/-- Everything is in order, and the functions that can be called are the scripts. -/
structure InOrder (erl : Erl) (P : JsData → Prop) (manager : ℤ) (c : Ctx Os) : Prop where
  sound : Sound erl P manager c
  scripted : Scripted erl P c.engine

end Scripts

end Erlm
