import Erlm.Lib.Outbox
import Erlm.Lib.Run
import Erlm.Main
import Erlm.Proofs.Events
import Erlm.Proofs.Get
import Erlm.Proofs.Packet

/-!
# Output ports

The descriptor of the output holds one registration, so the handler of the output ports and that
of the write event are together a one-place outbox of packets (`portInv_step`). No output is
duplicated, reordered or mixed (`outputSound`), and an output is lost exactly if it is too deep or
too long, or is made while another one waits (`noneLost_iff`).
-/

namespace Erlm

section Emit

variable (erl : Erl)

/-- The array of subscribers Elm calls the handler on, with the name the program gave it. -/
def portThis (name : Bytes) : JsVal := .ofList [.function 0 [(portName, .string name)]]

/-- Where the stash of a context has the events manager. -/
def Managed (c : Ctx Os) : Prop :=
  IsInt c.world.events.manager
    ∧ Assoc.get? (c.store stashRef) eventsManager = some (.number (.ofInt c.world.events.manager))

/-- The world after a packet was made and handed to the event layer. -/
def Os.queue (bytes : Bytes) (w : Os) : Os :=
  { w with
    buffers := w.buffers.alloc bytes
    packets := w.packets.alloc ⟨toSizeT (toInt bytes.length), w.buffers.next⟩
    events := (eventsSubscribeWrite w.events.manager 1 (some w.packets.next) w.events).2 }

/-- The handler from the conversion on. -/
def queueTerm (events_manager : ℤ) (term : ETerm) : DukM Os ℤ := do
  let term_size := toInt (erl.encode term).length
  let buffer ← mallocBuffer (erl.encode term)
  let packet ← mallocPacket ⟨toSizeT term_size, buffer⟩
  let _result ← onEvents (eventsSubscribeWrite events_manager 1 (some packet))
  return 0

theorem queueTerm_run (c : Ctx Os) (term : ETerm) :
    queueTerm erl c.world.events.manager term c
      = .ok 0 { c with world := c.world.queue (erl.encode term) } := rfl

variable {c : Ctx Os} {st : List JsVal} {name : Bytes}

theorem prop_portThis (name : Bytes) :
    c.prop (portThis name) (decimal 0) = some (.function 0 [(portName, .string name)]) := by
  rfl

theorem prop_portName (name : Bytes) :
    c.prop (.function 0 [(portName, .string name)]) (cString portName) = some (.string name) := by
  rw [show cString portName = portName by decide]
  simp [Ctx.prop, JsVal.lookup, JsVal.own, Assoc.get?]

/-- The handler goes on to the conversion with the stack it was entered with. -/
theorem erlmOutputPortHandler_run (hthis : c.this = portThis name) (hm : Managed c)
    (hroom : st.length + 3 ≤ c.reserve) :
    erlmOutputPortHandler erl (c.withStack st)
      = (dukErlangGetTerm (-1) >>= queueTerm erl c.world.events.manager) (c.withStack st) := by
  have hkey : c.prop (.ref stashRef) (cString eventsManager)
      = some (.number (.ofInt c.world.events.manager)) := by
    rw [show cString eventsManager = eventsManager by decide]
    exact Ctx.prop_ref hm.2
  have hpushThis : dukPushThis (c.withStack st) = .ok () (c.withStack (portThis name :: st)) := by
    rw [← hthis]
    exact dukPush_ok (by omega) _
  have hname : ∃ s, dukGetString (-1) (c.withStack
      (.string name :: .function 0 [(portName, .string name)] :: portThis name :: st))
      = .ok s (c.withStack
        (.string name :: .function 0 [(portName, .string name)] :: portThis name :: st)) := by
    rw [dukGetString, bind_ok (dukGet_run _ _), Ctx.get_neg_one]
    exact ⟨_, rfl⟩
  obtain ⟨s, hs⟩ := hname
  unfold erlmOutputPortHandler
  rw [bind_ok hpushThis, bind_ok (dukGetPropIndex_ok (prop_portThis name) (by omega)),
    bind_ok (dukGetPropString_ok (prop_portName name) (by simp only [List.length_cons]; omega)),
    bind_ok hs, bind_ok (dukPopN_ok (by simp)), dukPushGlobalStash,
    bind_ok (dukPush_ok (by simp; omega) _),
    bind_ok (dukGetPropString_ok hkey (by simp; omega)), bind_ok (dukGetInt_ofInt hm.1),
    bind_ok (dukPop2_ok _ _)]
  rfl

/-- On a value the stack has room for, the handler makes a packet of it. -/
theorem erlmOutputPortHandler_ok {d : JsData} (hd : d.Small) (hthis : c.this = portThis name)
    (hm : Managed c) (hroom : 4 ≤ c.reserve) (hfits : 1 + d.slots ≤ c.reserve) :
    erlmOutputPortHandler erl (c.withStack [d.toJs])
      = .ok 0 ({ c with world := c.world.queue (erl.encode d.termOf) }.withStack [d.toJs]) := by
  rw [erlmOutputPortHandler_run erl hthis hm (by simp; omega),
    bind_ok (dukErlangGetTerm_ok hd (Ctx.get_neg_one _ _ _) (by simp; omega))]
  exact queueTerm_run erl (c.withStack [d.toJs]) d.termOf

/-- On any other it throws before it does anything. -/
theorem erlmOutputPortHandler_throws {d : JsData} (hd : d.Small) (hthis : c.this = portThis name)
    (hm : Managed c) (hroom : 4 ≤ c.reserve) (hfull : c.reserve < 1 + d.slots) :
    Throws (erlmOutputPortHandler erl) (c.withStack [d.toJs]) := by
  unfold Throws FailsWith
  rw [erlmOutputPortHandler_run erl hthis hm (by simp; omega)]
  exact fails_bind_left (dukErlangGetTerm_throws hd (Ctx.get_neg_one _ _ _) (by simp; omega)
    (by simp; omega)) _

/-- A script's call of the handler makes a packet of the value, or throws if it is too deep. -/
theorem emit_run {entry : ℕ} (hentry : DUK_API_ENTRY_STACK ≤ entry) (hm : Managed c) {d : JsData}
    (hd : d.Small) (name : Bytes) :
    ∃ outcome, dukNative entry (erlmOutputPortHandler erl) (portThis name) [d.toJs] c
        = .ok outcome (if d.slots ≤ entry then
            { c with world := c.world.queue (erl.encode d.termOf) } else c)
      ∧ outcome.isOk = decide (d.slots ≤ entry) := by
  have hentry : 64 ≤ entry := hentry
  by_cases hfits : d.slots ≤ entry
  · have hok := @erlmOutputPortHandler_ok erl (c.enter entry (portThis name) [d.toJs])
      name d hd rfl hm (by simp only [Ctx.enter, List.length_singleton]; omega)
      (by simp only [Ctx.enter, List.length_singleton]; omega)
    refine ⟨.ok .undefined, ?_, by simp [hfits, Except.isOk, Except.toBool]⟩
    rw [if_pos hfits]
    exact @dukNative_undefined _ entry (erlmOutputPortHandler erl) (portThis name) [d.toJs] c _ hok
  · obtain ⟨e, st, ⟨v, rfl⟩, hthrows⟩ := @erlmOutputPortHandler_throws erl
      (c.enter entry (portThis name) [d.toJs]) name d hd rfl hm
      (by simp only [Ctx.enter, List.length_singleton]; omega)
      (by simp only [Ctx.enter, List.length_singleton]; omega)
    have hcall := @dukNative_throws _ entry (erlmOutputPortHandler erl) (portThis name) [d.toJs] c _
      _ hthrows
    refine ⟨.error v, ?_, by simp [hfits, Except.isOk, Except.toBool]⟩
    rw [if_neg hfits]
    exact hcall

end Emit

section Machine

variable (erl : Erl) (entry : ℕ)

/-- A write-ready event of descriptor 1, if one comes: the packet it is about. -/
def deliverWrite (events_manager : ℤ) : DukM Os (Option ℕ) := do
  let (_event_count, events) ← onEvents (eventsWait events_manager [1] 1)
  match events.head? with
  | none => return none
  | some p =>
    let event ← readEvent p
    erlmHandleOutputEvent events_manager event
    return event.data

inductive PortAction
  | emit (name : Bytes) (value : JsData)
  | writeReady

/-- A call of the handler: its value, the addresses of the packet and the buffer if it made one,
whether no packet was registered, whether the kernel let the next call through, and whether the
handler returned. -/
structure Emission where
  value : JsData
  packet : ℕ
  buffer : ℕ
  free : Bool
  willing : Bool
  returned : Bool

/-- The context, the calls of the handler and the packets of the write events, in order. -/
structure PortState where
  ctx : Ctx Os
  emitted : List Emission
  writes : List ℕ

/-- What is noted about a call in the world `w`. -/
def Os.emission (w : Os) (d : JsData) (returned : Bool) : Emission where
  value := d
  packet := w.packets.next
  buffer := w.buffers.next
  free := (w.events.under 1).isEmpty
  willing := w.events.willing
  returned := returned

def portStep : PortAction → PortState → Except Fault PortState
  | .emit name d, s =>
    match dukNative entry (erlmOutputPortHandler erl) (portThis name) [d.toJs] s.ctx with
    | .ok outcome ctx => .ok { s with
        ctx
        emitted := s.emitted ++ [s.ctx.world.emission d outcome.isOk] }
    | .error fault _ => .error fault
  | .writeReady, s =>
    match deliverWrite s.ctx.world.events.manager s.ctx with
    | .ok packet ctx => .ok { s with ctx, writes := s.writes ++ packet.toList }
    | .error fault _ => .error fault

variable {erl} {entry} {s : PortState} {ctx : Ctx Os}

theorem portStep_emit {name : Bytes} {d : JsData} {outcome : Except JsVal JsVal}
    (h : dukNative entry (erlmOutputPortHandler erl) (portThis name) [d.toJs] s.ctx
      = .ok outcome ctx) :
    portStep erl entry (.emit name d) s
      = .ok { s with ctx, emitted := s.emitted ++ [s.ctx.world.emission d outcome.isOk] } := by
  simp only [portStep, h]

theorem portStep_writeReady {packet : Option ℕ}
    (h : deliverWrite s.ctx.world.events.manager s.ctx = .ok packet ctx) :
    portStep erl entry .writeReady s
      = .ok { s with ctx, writes := s.writes ++ packet.toList } := by
  simp only [portStep, h]

end Machine

section Refinement

/-- What is registered for descriptor 1: nothing, or a packet whose memory is there. -/
def Os.Waits (w : Os) : Option (ℕ × Bytes) → Prop
  | none => w.events.under 1 = []
  | some (q, bytes) => ∃ p, w.events.under 1 = [(1, ⟨p, false, true⟩)]
      ∧ w.events.records.get? p = some ⟨.write, 1, some q⟩
      ∧ w.packets.get? q = some ⟨bytes.length, q⟩ ∧ w.buffers.get? q = some bytes
      ∧ bytes.length ≤ 65535

/-- The world is that of an outbox of packets, each with its address: what was sent was written
and released once, and what waits is registered. -/
structure Os.Holds (w : Os) (o : Outbox (ℕ × Bytes)) : Prop where
  short : ShortOnly w.output.sched
  next : w.packets.next = w.buffers.next
  waits : w.Waits o.slot
  written : w.output.written = Packet2.frames (o.sent.map Prod.snd)
  fits : ∀ x ∈ o.sent, x.2.length ≤ 65535
  fresh : ∀ x ∈ o.contents, x.1 < w.packets.next
  nodup : (o.contents.map Prod.fst).Nodup
  released : ∀ q, w.packets.releases q = (if q ∈ o.sent.map Prod.fst then 1 else 0)
    ∧ w.buffers.releases q = (if q ∈ o.sent.map Prod.fst then 1 else 0)

variable {α : Type} {w : Os} {o : Outbox (ℕ × Bytes)}

theorem nodup_put (hnodup : (o.contents.map Prod.fst).Nodup) {q : ℕ} (bytes : Bytes)
    (hfresh : ∀ x ∈ o.contents, x.1 < q) : ((o.put (q, bytes)).contents.map Prod.fst).Nodup := by
  rw [Outbox.contents_put]
  split_ifs
  · exact Assoc.nodup_keys_concat bytes hnodup fun x hx => (hfresh x hx).ne
  · rwa [List.append_nil]

/-- A packet that waits goes on waiting when other memory is allocated. -/
theorem Os.Waits.queue_some {q : ℕ} {bytes : Bytes} (h : w.Waits (some (q, bytes))) (more : Bytes) :
    (w.queue more).Waits (some (q, bytes)) := by
  obtain ⟨p, hunder, hrecord, hpacket, hbuffer, hlen⟩ := h
  have hrefused : ¬ w.events.admits w.events.manager 1 := by
    rintro ⟨-, -, hfree⟩
    rw [hfree] at hunder
    cases hunder
  have hp : w.events.records.next ≠ p := (Nat.ne_of_lt (Heap.get?_lt hrecord)).symm
  refine ⟨p, ?_, ?_, Heap.get?_alloc hpacket _, Heap.get?_alloc hbuffer _, hlen⟩
  · simp only [Os.queue, eventsSubscribeWrite, eventsSubscribe_refused hrefused]
    exact hunder
  · simp only [Os.queue, eventsSubscribeWrite, eventsSubscribe_refused hrefused]
    rw [Heap.get?_release_of_ne _ hp]
    exact Heap.get?_alloc hrecord _

theorem Os.Waits.queue_none (h : w.Waits none) (hnext : w.packets.next = w.buffers.next)
    {bytes : Bytes} (hlen : bytes.length ≤ 65535) :
    (w.queue bytes).Waits
      (if w.events.willing then some (w.packets.next, bytes) else none) := by
  have hsize : toSizeT (toInt bytes.length) = bytes.length := by
    rw [toInt_of_isInt ⟨by omega, by omega⟩, toSizeT_of_nonneg (by omega) (by omega)]
    rfl
  split_ifs with hwilling
  · have hadmits : w.events.admits w.events.manager 1 := ⟨hwilling, rfl, h⟩
    refine ⟨w.events.records.next, ?_, ?_, ?_, ?_, hlen⟩
    · simp only [Os.queue, eventsSubscribeWrite, eventsSubscribe_ok hadmits]
      unfold Events.under
      rw [under_append]
      exact congrArg (· ++ _) h
    · simp only [Os.queue, eventsSubscribeWrite, eventsSubscribe_ok hadmits]
      exact Heap.get?_alloc_next _ _
    · rw [← hsize]
      nth_rewrite 2 [hnext]
      exact Heap.get?_alloc_next _ _
    · rw [hnext]
      exact Heap.get?_alloc_next _ _
  · have hrefused : ¬ w.events.admits w.events.manager 1 := fun hadmits => hwilling hadmits.1
    unfold Os.Waits
    simp only [Os.queue, eventsSubscribeWrite, eventsSubscribe_refused hrefused]
    exact h

/-- Making a packet is a put, unless the kernel does not let it through. -/
theorem Os.Holds.queue (h : w.Holds o) {bytes : Bytes} (hlen : bytes.length ≤ 65535) :
    (w.queue bytes).Holds
      (if w.events.willing then o.put (w.packets.next, bytes) else o) := by
  have hwaits : (w.queue bytes).Waits (if w.events.willing then
      o.put (w.packets.next, bytes) else o).slot := by
    rcases hslot : o.slot with _ | ⟨q, waiting⟩
    · have := Os.Waits.queue_none (hslot ▸ h.waits) h.next hlen
      split_ifs at this ⊢
      · rwa [Outbox.slot_put, hslot]
      · rwa [hslot]
    · have := Os.Waits.queue_some (hslot ▸ h.waits) bytes
      split_ifs
      · rwa [Outbox.slot_put, hslot]
      · rwa [hslot]
  have hsent : (if w.events.willing then o.put (w.packets.next, bytes) else o).sent = o.sent := by
    split_ifs
    · exact Outbox.sent_put _ _
    · rfl
  refine ⟨h.short, ?_, hwaits, ?_, ?_, ?_, ?_, ?_⟩
  · simp [Os.queue, h.next]
  · rw [hsent]
    exact h.written
  · rw [hsent]
    exact h.fits
  · intro x hx
    simp only [Os.queue, Heap.next_alloc]
    split_ifs at hx
    · rcases Outbox.mem_contents_put hx with hx | rfl
      · exact Nat.lt_succ_of_lt (h.fresh x hx)
      · exact Nat.lt_succ_self _
    · exact Nat.lt_succ_of_lt (h.fresh x hx)
  · split_ifs
    · exact nodup_put h.nodup _ h.fresh
    · exact h.nodup
  · rw [hsent]
    simpa [Os.queue] using h.released

theorem readPacket_ok {c : Ctx Os} {q : ℕ} {packet : Packet} {bytes : Bytes}
    (hpacket : c.world.packets.get? q = some packet)
    (hbuffer : c.world.buffers.get? packet.data = some bytes) :
    readPacket (some q) c = .ok (q, packet, bytes) c := by
  rw [readPacket, bind_ok (get_run _)]
  simp only [hpacket, hbuffer]
  rfl

theorem writeOut_run (c : Ctx Os) (bytes : Bytes) (size : ℤ) :
    ∃ fd, (ioWritePacket2 c.world.output bytes size).2 = fd
      ∧ onWorld (fun w => ((), { w with output := (ioWritePacket2 w.output bytes size).2 })) c
        = .ok () { c with world := { c.world with output := fd } } :=
  ⟨_, rfl, onWorld_run _ _⟩

/-- The write event writes a packet that is there, releases it and takes the registration away. -/
theorem erlmHandleOutputEvent_ok {c : Ctx Os} {q : ℕ} {packet : Packet} {bytes : Bytes}
    (events_manager : ℤ) (hpacket : c.world.packets.get? q = some packet)
    (hbuffer : c.world.buffers.get? packet.data = some bytes) :
    erlmHandleOutputEvent events_manager ⟨.write, 1, some q⟩ c = .ok () { c with world :=
      { c.world with
        events := (eventsUnsubscribe events_manager ⟨.write, 1, some q⟩ c.world.events).2
        packets := c.world.packets.release q
        buffers := c.world.buffers.release packet.data
        output := (ioWritePacket2 c.world.output bytes (toInt packet.size)).2 } } := by
  obtain ⟨fd, hfd, hwrite⟩ := writeOut_run c bytes (toInt packet.size)
  unfold erlmHandleOutputEvent
  rw [if_neg (by simp), bind_ok (readPacket_ok hpacket hbuffer), hfd]
  simp only []
  rw [bind_ok hwrite]
  rfl

theorem releases_flush {h : Heap α} {sent : List ℕ} {q : ℕ} (hq : q < h.next) (hsent : q ∉ sent)
    (hreleased : ∀ r, h.releases r = if r ∈ sent then 1 else 0) (r : ℕ) :
    (h.release q).releases r = if r ∈ sent ++ [q] then 1 else 0 := by
  by_cases hr : r = q
  · subst hr
    rw [Heap.releases_release_self hq, hreleased, if_neg hsent, if_pos (by simp)]
  · rw [Heap.releases_release_of_ne _ (Ne.symm hr), hreleased]
    simp [hr]

/-- Writing the packet that waits is a flush. -/
theorem Os.Holds.flush (h : w.Holds o) {q : ℕ} {bytes : Bytes} (hslot : o.slot = some (q, bytes))
    (hlen : bytes.length ≤ 65535) (hbuffer : w.buffers.get? q = some bytes) {events : Events}
    (hevents : events.under 1 = []) :
    Os.Holds { w with
      events
      packets := w.packets.release q
      buffers := w.buffers.release q
      output := (ioWritePacket2 w.output bytes bytes.length).2 } o.flush := by
  obtain ⟨fd, hwrite, hsched, hwritten⟩ := ioWritePacket2_short h.short hlen
  have hsent : o.flush.sent = o.sent ++ [(q, bytes)] := by
    rw [Outbox.flush, hslot]
    rfl
  have hcontents : o.contents = o.sent ++ [(q, bytes)] := by
    rw [Outbox.contents, hslot]
    rfl
  have hnew : q ∉ o.sent.map Prod.fst := by
    have hnodup := h.nodup
    rw [hcontents, List.map_append, List.nodup_append] at hnodup
    exact fun hq => hnodup.2.2 q hq q (by simp) rfl
  have hlive := Heap.get?_lt hbuffer
  have hreleased := h.released
  rw [hwrite]
  refine ⟨?_, ?_, hevents, ?_, ?_, ?_, ?_, fun r => ⟨?_, ?_⟩⟩
  · rw [show fd.sched = _ from hsched]
    exact h.short
  · simp only [Heap.next_release, h.next]
  · rw [show fd.written = _ from hwritten, h.written, hsent]
    simp [Packet2.frames]
  · rw [hsent]
    intro x hx
    rcases List.mem_append.1 hx with hx | hx
    · exact h.fits x hx
    · rw [List.mem_singleton.1 hx]
      exact hlen
  · rw [Outbox.contents_flush]
    simpa using h.fresh
  · rw [Outbox.contents_flush]
    exact h.nodup
  · rw [hsent, List.map_append]
    exact releases_flush (h.next ▸ hlive) hnew (fun r => (hreleased r).1) r
  · rw [hsent, List.map_append]
    exact releases_flush hlive hnew (fun r => (hreleased r).2) r

/-- The event layer may change in what is not about descriptor 1. -/
theorem Os.Holds.of_waits (h : w.Holds o) {events : Events}
    (hwaits : Os.Waits { w with events } o.slot) : Os.Holds { w with events } o :=
  { h with waits := hwaits }

theorem deliverWrite_nothing {c : Ctx Os} {count : ℤ} {e : Events}
    (h : eventsWait c.world.events.manager [1] 1 c.world.events = ((count, []), e)) :
    deliverWrite c.world.events.manager c = .ok none (c.withEvents e) := by
  unfold deliverWrite
  rw [bind_ok (onEvents_run h)]
  rfl

theorem deliverWrite_event {c c' : Ctx Os} {count : ℤ} {p : ℕ} {event : Event} {e : Events}
    (h : eventsWait c.world.events.manager [1] 1 c.world.events = ((count, [p]), e))
    (hrecord : e.records.get? p = some event)
    (hhandled : erlmHandleOutputEvent c.world.events.manager event (c.withEvents e) = .ok () c') :
    deliverWrite c.world.events.manager c = .ok event.data c' := by
  have hread := @readEvent_ok (c.withEvents e) p event hrecord
  unfold deliverWrite
  rw [bind_ok (onEvents_run h)]
  simp only [List.head?_cons]
  rw [bind_ok hread, bind_ok hhandled]
  rfl

/-- A write event flushes the outbox, if the wait for it succeeds. -/
theorem deliverWrite_run {c : Ctx Os} (h : c.world.Holds o) :
    ∃ w, deliverWrite c.world.events.manager c = .ok
        (if c.world.events.willing then o.slot.map Prod.fst else none) { c with world := w }
      ∧ w.events.manager = c.world.events.manager ∧ w.events.sched = c.world.events.sched
      ∧ w.Holds (if c.world.events.willing then o.flush else o) := by
  have hwaits := h.waits
  have htick : Os.Waits { c.world with events := c.world.events.tick } o.slot := by
    rcases hslot : o.slot with _ | ⟨q, bytes⟩
    · rwa [hslot] at hwaits
    · rwa [hslot] at hwaits
  have hheld := h.of_waits htick
  by_cases hwilling : c.world.events.willing = true
  · simp only [if_pos hwilling]
    rcases hslot : o.slot with _ | ⟨q, bytes⟩
    · rw [hslot] at hwaits
      have hnone : ∀ r ∈ c.world.events.under 1, r.2.armed = false := by
        rw [show c.world.events.under 1 = [] from hwaits]
        simp
      refine ⟨_, deliverWrite_nothing (eventsWait_none hwilling hnone), rfl, rfl, ?_⟩
      rwa [Outbox.flush_of_slot_none hslot]
    · rw [hslot] at hwaits
      obtain ⟨p, hunder, hrecord, hpacket, hbuffer, hlen⟩ := hwaits
      have hhandled := @erlmHandleOutputEvent_ok (c.withEvents c.world.events.tick) q _ bytes
        c.world.events.manager hpacket hbuffer
      have hint : toInt bytes.length = bytes.length := toInt_of_isInt ⟨by omega, by omega⟩
      have hunsubscribe := @eventsUnsubscribe_run c.world.events.manager
        (c.withEvents c.world.events.tick).world.events rfl ⟨.write, 1, some q⟩
      simp only [hint, hunsubscribe] at hhandled
      exact ⟨_, deliverWrite_event (eventsWait_level hwilling hunder) hrecord hhandled, rfl, rfl,
        h.flush hslot hlen hbuffer (under_erase _ _)⟩
  · simp only [if_neg hwilling]
    exact ⟨_, deliverWrite_nothing (eventsWait_refused hwilling _ _), rfl, rfl, hheld⟩

end Refinement

section Sound

variable (erl : Erl)

/-- Whether a call put its packet into the outbox. -/
def Emission.accepted (e : Emission) : Bool := e.free && e.willing && e.returned

def Emission.queued (e : Emission) : ℕ × Bytes := (e.packet, erl.encode e.value.termOf)

/-- The outbox after a call. -/
def Emission.into (e : Emission) (o : Outbox (ℕ × Bytes)) : Outbox (ℕ × Bytes) :=
  if e.willing && e.returned then o.put (e.queued erl) else o

/-- The value an action emits. -/
def PortAction.value? : PortAction → Option JsData
  | .emit _ d => some d
  | .writeReady => none

/-- A value that is emitted encodes to no more than a packet holds. -/
def PortAction.Fits (a : PortAction) : Prop :=
  ∀ d, a.value? = some d → d.Small ∧ (erl.encode d.termOf).length ≤ 65535

/-- The state is that of the outbox of the calls accepted so far. -/
structure PortInv (entry : ℕ) (sched : ℕ → Option ℤ) (o : Outbox (ℕ × Bytes)) (s : PortState) :
    Prop where
  managed : Managed s.ctx
  sched_eq : s.ctx.world.events.sched = sched
  holds : s.ctx.world.Holds o
  writes : s.writes = o.sent.map Prod.fst
  accepted : o.contents = (s.emitted.filter Emission.accepted).map (Emission.queued erl)
  buffer : ∀ e ∈ s.emitted, e.buffer = e.packet
  returned : ∀ e ∈ s.emitted, e.returned = decide (e.value.slots ≤ entry)
  willing : (∀ n, (sched n).isSome = true) → ∀ e ∈ s.emitted, e.willing = true

variable {erl} {entry : ℕ} {sched : ℕ → Option ℤ} {o : Outbox (ℕ × Bytes)} {s : PortState}

theorem queue_sched (w : Os) (bytes : Bytes) : (w.queue bytes).events.sched = w.events.sched
    ∧ (w.queue bytes).events.manager = w.events.manager :=
  subscribe_sched .write 1 (some w.packets.next) w.events

/-- The place of the outbox is free exactly when no packet is registered. -/
theorem isNone_slot (h : s.ctx.world.Holds o) :
    o.slot.isNone = (s.ctx.world.events.under 1).isEmpty := by
  have hwaits := h.waits
  rcases hslot : o.slot with _ | ⟨q, bytes⟩
  · rw [hslot] at hwaits
    rw [show s.ctx.world.events.under 1 = [] from hwaits]
    rfl
  · rw [hslot] at hwaits
    obtain ⟨p, hunder, -⟩ := hwaits
    rw [hunder]
    rfl

/-- A call that finds the outbox as it says puts what is accepted into it. -/
theorem contents_into {es : List Emission} {e : Emission} (h : o.contents
      = (es.filter Emission.accepted).map (Emission.queued erl)) (hfree : o.slot.isNone = e.free) :
    (e.into erl o).contents
      = ((es ++ [e]).filter Emission.accepted).map (Emission.queued erl) := by
  rw [List.filter_append, List.map_append, ← h, Emission.into]
  obtain ⟨value, packet, buffer, free, willing, returned⟩ := e
  cases willing <;> cases returned <;> cases free <;>
    simp [Emission.accepted, Outbox.contents_put, hfree]

theorem forall_mem_append_singleton {α : Type} {P : α → Prop} {xs : List α} {x : α}
    (hxs : ∀ y ∈ xs, P y) (hx : P x) : ∀ y ∈ xs ++ [x], P y := by
  intro y hy
  rcases List.mem_append.1 hy with hy | hy
  · exact hxs y hy
  · rwa [List.mem_singleton.1 hy]

/-- A packet that comes while another one waits changes nothing. -/
theorem Emission.into_of_slot_some {x : ℕ × Bytes} (h : o.slot = some x) (e : Emission) :
    e.into erl o = o := by
  unfold Emission.into Outbox.put
  rw [h]
  exact ite_self _

/-- A call of the handler, the outbox taking what is accepted. -/
theorem portInv_emit (hentry : DUK_API_ENTRY_STACK ≤ entry) (h : PortInv erl entry sched o s)
    {d : JsData} (hd : d.Small) (hlen : (erl.encode d.termOf).length ≤ 65535) (name : Bytes) :
    ∃ s', portStep erl entry (.emit name d) s = .ok s' ∧ PortInv erl entry sched
      ((s.ctx.world.emission d (decide (d.slots ≤ entry))).into erl o) s' := by
  obtain ⟨outcome, hrun, hreturned⟩ := emit_run erl hentry h.managed hd name
  have hstep := portStep_emit hrun
  rw [hreturned] at hstep
  have haccepted := @contents_into erl o _ (s.ctx.world.emission d (decide (d.slots ≤ entry)))
    h.accepted (isNone_slot h.holds)
  have hwilling (hall : ∀ n, (sched n).isSome = true) :
      (s.ctx.world.emission d (decide (d.slots ≤ entry))).willing = true := by
    rw [← h.sched_eq] at hall
    exact hall _
  by_cases hfits : d.slots ≤ entry
  · obtain ⟨hsched, hmanager⟩ := queue_sched s.ctx.world (erl.encode d.termOf)
    have hinto : (s.ctx.world.emission d (decide (d.slots ≤ entry))).into erl o
        = if s.ctx.world.events.willing then
          o.put (s.ctx.world.packets.next, erl.encode d.termOf) else o := by
      simp only [Emission.into, Os.emission, Emission.queued, hfits, decide_true, Bool.and_true]
    rw [if_pos hfits] at hstep
    refine ⟨_, hstep, ⟨?_, ?_⟩, hsched.trans h.sched_eq, ?_, ?_, haccepted, ?_, ?_, ?_⟩
    · simp only [hmanager]
      exact h.managed.1
    · simp only [hmanager]
      exact h.managed.2
    · rw [hinto]
      exact h.holds.queue hlen
    · rw [hinto, h.writes]
      split_ifs
      · rw [Outbox.sent_put]
      · rfl
    · exact forall_mem_append_singleton h.buffer h.holds.next.symm
    · exact forall_mem_append_singleton h.returned rfl
    · exact fun hall => forall_mem_append_singleton (h.willing hall) (hwilling hall)
  · have hinto : (s.ctx.world.emission d (decide (d.slots ≤ entry))).into erl o = o := by
      simp [Emission.into, Os.emission, hfits]
    rw [if_neg hfits] at hstep
    rw [hinto] at haccepted ⊢
    refine ⟨_, hstep, h.managed, h.sched_eq, h.holds, h.writes, haccepted, ?_, ?_, ?_⟩
    · exact forall_mem_append_singleton h.buffer h.holds.next.symm
    · exact forall_mem_append_singleton h.returned rfl
    · exact fun hall => forall_mem_append_singleton (h.willing hall) (hwilling hall)

theorem portInv_writeReady (h : PortInv erl entry sched o s) :
    ∃ s', portStep erl entry .writeReady s = .ok s' ∧ PortInv erl entry sched
      (if s.ctx.world.events.willing then o.flush else o) s' := by
  obtain ⟨w, hrun, hmanager, hsched, hheld⟩ := deliverWrite_run h.holds
  have hmanaged : Managed { s.ctx with world := w } := by
    unfold Managed
    rw [hmanager]
    exact h.managed
  refine ⟨_, portStep_writeReady hrun, hmanaged, hsched.trans h.sched_eq, hheld, ?_, ?_, h.buffer,
    h.returned, h.willing⟩
  · simp only [h.writes]
    split_ifs
    · rw [Outbox.flush]
      cases o.slot <;> simp
    · simp
  · split_ifs
    · rw [Outbox.contents_flush]
      exact h.accepted
    · exact h.accepted

theorem portInv_step (hentry : DUK_API_ENTRY_STACK ≤ entry) (a : PortAction) (s : PortState)
    (ha : a.Fits erl) (h : ∃ o, PortInv erl entry sched o s) :
    ∃ s', portStep erl entry a s = .ok s' ∧ ∃ o, PortInv erl entry sched o s' := by
  obtain ⟨o, h⟩ := h
  cases a with
  | emit name d =>
    obtain ⟨hd, hlen⟩ := ha d rfl
    obtain ⟨s', hstep, h'⟩ := portInv_emit hentry h hd hlen name
    exact ⟨s', hstep, _, h'⟩
  | writeReady =>
    obtain ⟨s', hstep, h'⟩ := portInv_writeReady h
    exact ⟨s', hstep, _, h'⟩

/-- What a step notes is what it was to emit. -/
theorem portStep_emitted {a : PortAction} {s' : PortState} (h : portStep erl entry a s = .ok s') :
    s'.emitted.map Emission.value = s.emitted.map Emission.value ++ a.value?.toList := by
  cases a with
  | emit name d =>
    simp only [portStep] at h
    split at h
    · simp only [Except.ok.injEq] at h
      rw [← h]
      simp [PortAction.value?, Os.emission]
    · cases h
  | writeReady =>
    simp only [portStep] at h
    split at h
    · simp only [Except.ok.injEq] at h
      rw [← h]
      simp [PortAction.value?]
    · cases h

theorem run_emitted : ∀ {as : List PortAction} {s s' : PortState},
    Run.run (portStep erl entry) as s = .ok s' →
    s'.emitted.map Emission.value = s.emitted.map Emission.value ++ as.filterMap PortAction.value?
  | [], s, s', h => by
    simp only [Run.run_nil, Except.ok.injEq] at h
    simp [h]
  | a :: as, s, s', h => by
    obtain ⟨t, hstep, hrun⟩ := Run.run_cons_eq_ok h
    rw [run_emitted hrun, portStep_emitted hstep]
    cases ha : a.value? with
    | none => simp [ha]
    | some d => simp [ha]

/-- Nothing was emitted yet, and the output is not in the epoll set. -/
structure PortState.Fresh (s : PortState) : Prop where
  managed : Managed s.ctx
  short : ShortOnly s.ctx.world.output.sched
  packets : s.ctx.world.packets = Heap.empty
  buffers : s.ctx.world.buffers = Heap.empty
  unregistered : s.ctx.world.events.under 1 = []
  written : s.ctx.world.output.written = []
  emitted : s.emitted = []
  writes : s.writes = []

theorem portInv_fresh (h : s.Fresh) :
    PortInv erl entry s.ctx.world.events.sched Outbox.empty s := by
  obtain ⟨ctx, emitted, writes⟩ := s
  obtain ⟨hmanaged, hshort, hpackets, hbuffers, hunder, hwritten, rfl, rfl⟩ := h
  have hpackets : ctx.world.packets = Heap.empty := hpackets
  have hbuffers : ctx.world.buffers = Heap.empty := hbuffers
  refine ⟨hmanaged, rfl, ⟨hshort, ?_, hunder, hwritten, ?_, ?_, List.nodup_nil, ?_⟩, rfl, rfl, ?_,
    ?_, ?_⟩
  · simp only [hpackets, hbuffers]
    rfl
  · simp [Outbox.empty]
  · simp
  · intro q
    simp only [hpackets, hbuffers]
    exact ⟨rfl, rfl⟩
  · simp
  · simp
  · simp

/-- The packet registered for descriptor 1. -/
def Os.registered (w : Os) : List ℕ :=
  (w.events.under 1).filterMap fun r => (w.events.records.get? r.2.event).bind Event.data

/-- The bytes it is to write. -/
def Os.registeredBytes (w : Os) : List Bytes :=
  w.registered.filterMap fun q => (w.packets.get? q).bind fun packet => w.buffers.get? packet.data

theorem Os.Waits.registered {w : Os} {slot : Option (ℕ × Bytes)} (h : w.Waits slot) :
    w.registered = (slot.map Prod.fst).toList ∧ w.registeredBytes = (slot.map Prod.snd).toList := by
  unfold Os.registeredBytes Os.registered
  rcases slot with _ | ⟨q, bytes⟩
  · rw [show w.events.under 1 = [] from h]
    exact ⟨rfl, rfl⟩
  · obtain ⟨p, hunder, hrecord, hpacket, hbuffer, -⟩ := h
    rw [hunder]
    simp [hrecord, hpacket, hbuffer]

/-- After the actions, the packets written and the one still registered are the calls accepted, in
order, each with a packet of its own, and what is written is whole frames. A packet's memory is
released once if it was written and not at all otherwise. Under a kernel that lets every call
through, the calls accepted are those made while no packet was registered, the values too deep for
the stack apart. -/
structure OutputSound (erl : Erl) (entry : ℕ) (sched : ℕ → Option ℤ) (as : List PortAction)
    (s : PortState) : Prop where
  emitted : s.emitted.map Emission.value = as.filterMap PortAction.value?
  accepted : (∀ n, (sched n).isSome = true) →
    ∀ e ∈ s.emitted, e.accepted = (e.free && decide (e.value.slots ≤ entry))
  written : ∃ payloads, Packet2.decode s.ctx.world.output.written = some payloads
    ∧ payloads ++ s.ctx.world.registeredBytes
      = (s.emitted.filter Emission.accepted).map fun e => erl.encode e.value.termOf
  packets : s.writes ++ s.ctx.world.registered
    = (s.emitted.filter Emission.accepted).map Emission.packet
  registered : s.ctx.world.registered.length ≤ 1
  once : (s.writes ++ s.ctx.world.registered).Nodup
  released : ∀ e ∈ s.emitted,
    s.ctx.world.packets.releases e.packet = (if e.packet ∈ s.writes then 1 else 0)
    ∧ s.ctx.world.buffers.releases e.buffer = (if e.packet ∈ s.writes then 1 else 0)

theorem PortInv.sound {as : List PortAction} (h : PortInv erl entry sched o s)
    (hemitted : s.emitted.map Emission.value = as.filterMap PortAction.value?) :
    OutputSound erl entry sched as s := by
  obtain ⟨hregistered, hbytes⟩ := h.holds.waits.registered
  have hcontents := h.accepted
  have hwrites : s.writes ++ s.ctx.world.registered = o.contents.map Prod.fst := by
    rw [h.writes, hregistered, Outbox.contents, List.map_append]
    cases o.slot <;> rfl
  refine ⟨hemitted, ?_, ⟨o.sent.map Prod.snd, ?_, ?_⟩, ?_, ?_, ?_, ?_⟩
  · intro hall e he
    rw [Emission.accepted, h.willing hall e he, h.returned e he, Bool.and_true]
  · rw [h.holds.written]
    refine Packet2.decode_frames fun p hp => ?_
    obtain ⟨x, hx, rfl⟩ := List.mem_map.1 hp
    exact h.holds.fits x hx
  · have hsnd : o.sent.map Prod.snd ++ s.ctx.world.registeredBytes = o.contents.map Prod.snd := by
      rw [hbytes, Outbox.contents, List.map_append]
      cases o.slot <;> rfl
    rw [hsnd, hcontents, List.map_map]
    rfl
  · rw [hwrites, hcontents, List.map_map]
    rfl
  · rw [hregistered]
    cases o.slot <;> simp
  · rw [hwrites]
    exact h.holds.nodup
  · intro e he
    rw [h.buffer e he, h.writes]
    exact h.holds.released e.packet

/-- The invariant holds to the end of every run. -/
theorem portInv_run (hentry : DUK_API_ENTRY_STACK ≤ entry) (hs : s.Fresh) (as : List PortAction)
    (has : ∀ a ∈ as, a.Fits erl) :
    ∃ s', Run.run (portStep erl entry) as s = .ok s'
      ∧ (∃ o, PortInv erl entry s.ctx.world.events.sched o s')
      ∧ s'.emitted.map Emission.value = as.filterMap PortAction.value? := by
  obtain ⟨s', hrun, h⟩ := Run.run_inv (portInv_step hentry) as s
    (Run.allowed_of_forall s has) ⟨Outbox.empty, portInv_fresh hs⟩
  refine ⟨s', hrun, h, ?_⟩
  rw [run_emitted hrun, hs.emitted]
  rfl

/-- No output is duplicated, reordered or mixed. -/
theorem outputSound (hentry : DUK_API_ENTRY_STACK ≤ entry) (hs : s.Fresh) (as : List PortAction)
    (has : ∀ a ∈ as, a.Fits erl) :
    ∃ s', Run.run (portStep erl entry) as s = .ok s'
      ∧ OutputSound erl entry s.ctx.world.events.sched as s' := by
  obtain ⟨s', hrun, ⟨o, h⟩, hemitted⟩ := portInv_run hentry hs as has
  exact ⟨s', hrun, h.sound hemitted⟩

/-- The context of a program that has not emitted anything, with calls that all succeed. -/
def outputCtx : Ctx Os :=
  { Ctx.bare 64 ⟨⟨3, [], Heap.empty, [], [], fun _ => some 0, 0⟩, Heap.empty, Heap.empty,
      ⟨[], fun _ => .zero, []⟩, ⟨[], fun _ => .upTo 0, []⟩⟩ with
    store := fun _ => [(eventsManager, .number (.ofInt 3))] }

/-- A codec that encodes every term as one byte. -/
def byteErl : Erl where
  decode _ := none
  encode _ := [1]

theorem fresh_outputCtx : (⟨outputCtx, [], []⟩ : PortState).Fresh :=
  ⟨⟨⟨by decide, by decide⟩, rfl⟩, fun _ => ⟨0, rfl⟩, rfl, rfl, rfl, rfl, rfl, rfl⟩

theorem outputSound_three : ∃ s', Run.run (portStep byteErl 64)
    [.emit [112] .null, .emit [112] (.boolean true), .writeReady] ⟨outputCtx, [], []⟩ = .ok s'
    ∧ OutputSound byteErl 64 (fun _ => some 0)
      [.emit [112] .null, .emit [112] (.boolean true), .writeReady] s' := by
  refine @outputSound byteErl 64 ⟨outputCtx, [], []⟩ (by decide) fresh_outputCtx _ ?_
  simp [PortAction.Fits, PortAction.value?, JsData.Small, JsData.All, byteErl]

theorem outputSound_of_run (hentry : DUK_API_ENTRY_STACK ≤ entry) (hs : s.Fresh)
    {as : List PortAction} {s' : PortState} (hsmall : ∀ a ∈ as, ∀ d, a.value? = some d → d.Small)
    (hrun : Run.run (portStep erl entry) as s = .ok s')
    (hlen : ∀ d ∈ as.filterMap PortAction.value?, (erl.encode d.termOf).length ≤ 65535) :
    OutputSound erl entry s.ctx.world.events.sched as s' := by
  obtain ⟨s'', hrun', ⟨o, h⟩, hemitted⟩ := @portInv_run erl entry s hentry hs as fun a ha d hd =>
    ⟨hsmall a ha d hd, hlen d (List.mem_filterMap.2 ⟨a, ha, hd⟩)⟩
  rw [hrun] at hrun'
  obtain rfl := Except.ok.inj hrun'
  exact h.sound hemitted

/-- Once nothing is registered, the packets written are the values emitted exactly when each was
emitted while nothing was registered, fits the stack and fits a packet. -/
theorem noneLost_iff (hentry : DUK_API_ENTRY_STACK ≤ entry) (hs : s.Fresh)
    (hwilling : ∀ n, (s.ctx.world.events.sched n).isSome = true) {as : List PortAction}
    (hsmall : ∀ a ∈ as, ∀ d, a.value? = some d → d.Small) {s' : PortState}
    (hrun : Run.run (portStep erl entry) as s = .ok s')
    (hquiet : s'.ctx.world.events.under 1 = []) :
    Packet2.decode s'.ctx.world.output.written
        = some ((as.filterMap PortAction.value?).map fun d => erl.encode d.termOf)
      ↔ ∀ e ∈ s'.emitted, e.free = true ∧ e.value.slots ≤ entry
        ∧ (erl.encode e.value.termOf).length ≤ 65535 := by
  have hemitted : s'.emitted.map Emission.value = as.filterMap PortAction.value? := by
    rw [run_emitted hrun, hs.emitted]
    rfl
  have hregistered : s'.ctx.world.registeredBytes = [] := by
    unfold Os.registeredBytes Os.registered
    rw [hquiet]
    rfl
  rw [← hemitted, List.map_map]
  constructor
  · intro hdecode
    have hlen : ∀ e ∈ s'.emitted, (erl.encode e.value.termOf).length ≤ 65535 := fun e he =>
      (Packet2.decode_some hdecode).2 _ (List.mem_map.2 ⟨e, he, rfl⟩)
    have hsound := outputSound_of_run hentry hs hsmall hrun (by
      rw [← hemitted]
      simpa using hlen)
    obtain ⟨payloads, hpayloads, hall⟩ := hsound.written
    rw [hdecode, Option.some.injEq] at hpayloads
    rw [hregistered, List.append_nil, ← hpayloads] at hall
    have hlength := congrArg List.length hall
    rw [List.length_map, List.length_map, eq_comm, List.length_filter_eq_length_iff] at hlength
    intro e he
    have haccepted := hlength e he
    rw [hsound.accepted hwilling e he, Bool.and_eq_true, decide_eq_true_eq] at haccepted
    exact ⟨haccepted.1, haccepted.2, hlen e he⟩
  · intro hall
    have hsound := outputSound_of_run hentry hs hsmall hrun (by
      rw [← hemitted]
      simpa using fun e he => (hall e he).2.2)
    obtain ⟨payloads, hpayloads, hwritten⟩ := hsound.written
    have hfilter : s'.emitted.filter Emission.accepted = s'.emitted := by
      rw [List.filter_eq_self]
      intro e he
      rw [hsound.accepted hwilling e he, (hall e he).1, decide_eq_true (hall e he).2.1]
      rfl
    rw [hregistered, List.append_nil, hfilter] at hwritten
    rw [hpayloads, hwritten]
    rfl

theorem portInv_willing (h : PortInv erl entry sched o s) (hall : ∀ n, (sched n).isSome = true) :
    s.ctx.world.events.willing = true := by
  rw [← h.sched_eq] at hall
  exact hall _

theorem noneLost_one : ∃ s', Run.run (portStep byteErl 64)
      [.emit [112] .null, .writeReady] ⟨outputCtx, [], []⟩ = .ok s'
    ∧ (Packet2.decode s'.ctx.world.output.written = some [[1]]
      ↔ ∀ e ∈ s'.emitted, e.free = true ∧ e.value.slots ≤ 64 ∧ [(1 : UInt8)].length ≤ 65535) := by
  have hsmall : JsData.null.Small := by simp [JsData.Small, JsData.All]
  obtain ⟨s₁, h₁, i₁⟩ := @portInv_emit byteErl 64 _ _ _ (by decide)
    (portInv_fresh fresh_outputCtx) _ hsmall (by decide) [112]
  obtain ⟨s₂, h₂, i₂⟩ := portInv_writeReady i₁
  rw [if_pos (portInv_willing i₁ fun _ => rfl)] at i₂
  have hrun : Run.run (portStep byteErl 64) [.emit [112] .null, .writeReady] ⟨outputCtx, [], []⟩
      = .ok s₂ := by
    rw [Run.run_cons_ok h₁, Run.run_cons_ok h₂, Run.run_nil]
  exact ⟨s₂, hrun, @noneLost_iff byteErl 64 _ (by decide) fresh_outputCtx (fun _ => rfl)
    [.emit [112] .null, .writeReady] (by simp [PortAction.value?, hsmall]) s₂ hrun i₂.holds.waits⟩

/-- A value emitted while another one waits is lost. -/
theorem not_noneLost_two : ¬ ∀ (erl : Erl) (entry : ℕ) (s : PortState) (as : List PortAction)
    (s' : PortState), DUK_API_ENTRY_STACK ≤ entry → s.Fresh →
    (∀ n, (s.ctx.world.events.sched n).isSome = true) →
    (∀ a ∈ as, ∀ d, a.value? = some d → d.Small) →
    Run.run (portStep erl entry) as s = .ok s' → s'.ctx.world.events.under 1 = [] →
    Packet2.decode s'.ctx.world.output.written
      = some ((as.filterMap PortAction.value?).map fun d => erl.encode d.termOf) := by
  intro hall
  have hnull : JsData.null.Small := by simp [JsData.Small, JsData.All]
  have htrue : (JsData.boolean true).Small := by simp [JsData.Small, JsData.All]
  obtain ⟨s₁, h₁, i₁⟩ := @portInv_emit byteErl 64 _ _ _ (by decide)
    (portInv_fresh fresh_outputCtx) _ hnull (by decide) [112]
  obtain ⟨s₂, h₂, i₂⟩ := portInv_emit (by decide) i₁ htrue (by decide) [112]
  obtain ⟨s₃, h₃, i₃⟩ := portInv_writeReady i₂
  rw [if_pos (portInv_willing i₂ fun _ => rfl)] at i₃
  have hrun : Run.run (portStep byteErl 64)
      [.emit [112] .null, .emit [112] (.boolean true), .writeReady] ⟨outputCtx, [], []⟩
      = .ok s₃ := by
    rw [Run.run_cons_ok h₁, Run.run_cons_ok h₂, Run.run_cons_ok h₃, Run.run_nil]
  have hdecode := hall byteErl 64 ⟨outputCtx, [], []⟩ _ s₃ (by decide) fresh_outputCtx
    (fun _ => rfl) (by simp [PortAction.value?, hnull, htrue]) hrun i₃.holds.waits
  -- the second call finds the outbox taken and leaves it as it was
  rw [Emission.into_of_slot_some rfl] at i₃
  rw [i₃.holds.written, Packet2.decode_frames (by decide)] at hdecode
  cases hdecode

end Sound

end Erlm
