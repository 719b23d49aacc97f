import Erlm.Proofs.MainLoop

/-!
# Which input is served

A round of the main loop handles one event, and there are ten rounds. Where every round has what it
needs, the packets are handed to their ports in order, up to the tenth event: all of them exactly if
no input comes after it (`allHanded_iff`).
-/

namespace Erlm

section Round

variable {erl : Erl} {c : Ctx Os} {worker : JsVal} {st : List JsVal}

/-- The packet asks for a call of `send` of the port it names. -/
def Requests (erl : Erl) (c : Ctx Os) (worker : JsVal) (st : List JsVal) (p : Bytes)
    (call : JsVal × List JsVal) : Prop :=
  ∃ name term more,
    (∀ tail, erl.decode (p ++ tail) = some (.tuple (.atom name :: term :: more)))
    ∧ portSend c worker (erlAtomPtrUtf8 name) = some call.1
    ∧ dispatch c worker st (.tuple (.atom name :: term :: more)) = some call

/-- What is called as a port got its arguments from an array. -/
theorem fitting_of_dispatch {name : Bytes} {term : ETerm} {more : List ETerm}
    {call : JsVal × List JsVal}
    (h : dispatch c worker st (.tuple (.atom name :: term :: more)) = some call) :
    ∃ q, fitting c worker st (.tuple (.atom name :: term :: more)) = some q
      ∧ q.payload.isArray = true ∧ q.callee.isFunction = true
      ∧ call = (q.callee, q.args c.store) := by
  simp only [dispatch, Option.bind_eq_some_iff, Option.ite_none_right_eq_some,
    Option.some.injEq] at h
  obtain ⟨q, hq, hfun, rfl⟩ := h
  refine ⟨q, hq, ?_, hfun, rfl⟩
  by_contra harray
  rw [Request.callee, if_neg harray, isFunction_of_convert (payload_of_fitting hq)] at hfun
  cases hfun

def Ctx.withInput (c : Ctx Os) (input : Input) : Ctx Os :=
  { c with world := { c.world with input } }

/-- Such a packet is taken off the input and its call is made, and the stack is as it was. -/
theorem handleInput_serves {p rest : Bytes} {call : JsVal × List JsVal}
    (hstack : c.stack = worker :: st) (hsched : ShortOnly c.world.input.sched)
    (hp : c.world.input.pending = Packet2.frame p ++ rest) (hlen : p.length ≤ 65535)
    (hheader : HeaderPlain p.length) (h : Requests erl c worker st p call) (buffer : Bytes) :
    ∃ input, input.sched = c.world.input.sched ∧ input.pending = rest ∧ call.1.isFunction = true
      ∧ erlmHandleInputEvent erl buffer inputEvent c
        = .ok () ((c.withInput input).afterCall call.1 call.2) := by
  obtain ⟨name, term, more, hdecode, -, hdispatch⟩ := h
  obtain ⟨q, hq, harray, hfun, rfl⟩ := fitting_of_dispatch hdispatch
  obtain ⟨b, input, hread, hs, hrest⟩ := ioReadPacket2_frame hsched [] hp hlen hheader
  obtain ⟨-, tail, htail⟩ := received_frame hsched hp hlen hheader
  have hreceived : erl.decode (storeAt buffer 0 (received c.world.input))
      = some (.tuple (.atom name :: term :: more)) := by
    rw [htail, storeAt_zero, List.append_assoc, hdecode]
  have hrequest : readRequest buffer c
      = .ok (storeAt buffer 0 (received c.world.input)) (c.withInput input) := by
    rw [readRequest_run, hread]
    rfl
  have hbelow : q.below.drop 2 = [] := by
    rw [Request.below, if_pos harray]
    rfl
  have hself : (c.withInput input).withStack (worker :: st) = c.withInput input := by
    rw [← hstack]
    rfl
  have hafter : ((c.withInput input).afterCall q.callee (q.args c.store)).withStack (worker :: st)
      = (c.withInput input).afterCall q.callee (q.args c.store) := by
    unfold Ctx.afterCall
    rw [if_pos hfun, ← hstack]
    rfl
  have hfitting : fitting (c.withInput input) worker st (.tuple (.atom name :: term :: more))
      = some q := hq
  have hsend := sendToPort_ok hfitting
  rw [hself, hbelow, List.nil_append] at hsend
  refine ⟨input, hs, hrest, hfun, ?_⟩
  unfold erlmHandleInputEvent
  rw [if_neg (by simp [inputEvent]), bind_ok hrequest, hreceived]
  exact hsend.trans (congrArg _ hafter)

/-- Scripts leave the input alone: nothing the program gives them reads it. -/
def LeavesInput (engine : Engine Os) : Prop :=
  ∀ f args store w, (engine.call f args store w).2.2.input = w.input

/-- What a handler other than that of the input leaves as it was. -/
structure Spares (c c' : Ctx Os) : Prop where
  stack : c'.stack = c.stack
  engine : c'.engine = c.engine
  input : c'.world.input = c.world.input

theorem handleTimer_spares {event : Event} (htype : event.type = .timer)
    (hscripts : LeavesInput c.engine) (h : TimerFits c st event) :
    ∃ c', dukTimersHandleEvent event (c.withStack st) = .ok () c' ∧ Spares (c.withStack st) c' := by
  obtain ⟨hroom, callbacks, callback, hfound, hreturns⟩ := h
  have hmoves := @dukTimersBeforeCall_moves c st event htype
  rw [hfound, Option.map_some] at hmoves
  by_cases hfun : callback.isFunction = true
  · simp only [hfun, if_true] at hmoves
    obtain ⟨⟨r, rfl⟩, v, hv⟩ := hreturns hfun
    have hrun := dukTimersHandleEvent_called (hmoves.1 _ _ rfl hroom) hfun hv
    refine ⟨_, hrun.trans (dukTimersAfterCall_ok event v _ r), rfl, ?_, ?_⟩
    · simp [Ctx.withShared, Ctx.afterCall, hfun]
    · simp only [Ctx.withShared, Ctx.afterCall, hfun, if_true]
      exact hscripts _ _ _ _
  · simp only [hfun] at hmoves
    exact ⟨_, dukTimersHandleEvent_uncalled (hmoves.1 _ _ rfl hroom), rfl, rfl, rfl⟩

/-- The event of a timer or of the output, with what its handler needs. -/
def OtherServes (event : Event) (c : Ctx Os) (stack : List JsVal) : Prop :=
  event.type = .timer ∧ TimerFits c stack event
    ∨ event.type = .write ∧ event.id = 1 ∧ OutputFits c event

theorem handleEvent_other (hstack : c.stack = worker :: st) (hscripts : LeavesInput c.engine)
    {event : Event} (h : OtherServes event c (worker :: st)) (manager : ℤ) (buffer : Bytes) :
    ∃ c', handleEvent erl manager buffer event c = .ok true c' ∧ Spares c c' := by
  have hself : c = c.withStack (worker :: st) := by
    rw [← hstack]
    rfl
  unfold handleEvent
  rcases h with ⟨htype, hfits⟩ | ⟨htype, hid, hfits⟩
  · obtain ⟨c', hrun, hspares⟩ := handleTimer_spares htype hscripts hfits
    rw [← hself] at hrun hspares
    refine ⟨c', ?_, hspares⟩
    rw [bind_ok hrun, bind_ok (handleInput_other buffer (by simp [htype]) _),
      bind_ok (handleOutput_other manager (by simp [htype]) _)]
    rfl
  · obtain ⟨p, packet, bytes, rfl, hpacket, hbuffer⟩ := hfits.event_eq hid htype
    rw [bind_ok (handleTimer_other (by simp) _), bind_ok (handleInput_other buffer (by simp) _),
      bind_ok (erlmHandleOutputEvent_ok manager hpacket hbuffer)]
    exact ⟨_, rfl, rfl, rfl, rfl⟩

theorem doSomethingRound_event {manager : ℤ} {ready : List ℤ} {n : ℤ} {p : ℕ} {ps : List ℕ}
    {e : Events} (hwait : eventsWait manager ready 1 c.world.events = ((n, p :: ps), e))
    (hn : ¬ n < 0) {event : Event} (hrecord : e.records.get? p = some event) (buffer : Bytes) :
    doSomethingRound erl manager ready buffer c
      = handleEvent erl manager buffer event (c.withEvents e) := by
  unfold doSomethingRound
  rw [bind_ok (onEvents_run hwait)]
  simp only [if_neg hn, List.head?_cons]
  rw [bind_ok (readEvent_ok hrecord)]
  rfl

end Round

section Loop

variable {erl : Erl} {manager : ℤ} {c : Ctx Os} {worker : JsVal} {st : List JsVal}

/-- A wait for the event of a descriptor, and what the local array of the input handler holds. -/
abbrev Wait : Type := ℤ × Bytes

/-- Round after round, the input's take the next packet each and call `send` of the port it names,
until no packet is left. -/
def Handed (erl : Erl) (manager : ℤ) (worker : JsVal) (st : List JsVal) :
    List Wait → List Bytes → Ctx Os → Prop
  | [], ps, _ => ps = []
  | (fd, buffer) :: waits, ps, c => ∃ c', doSomethingRound erl manager [fd] buffer c = .ok true c'
    ∧ if fd = 0 then ∃ p ps' call, ps = p :: ps' ∧ Requests erl c worker st p call
        ∧ c'.calls = c.calls ++ [call]
        ∧ c.world.input.pending = Packet2.frame p ++ c'.world.input.pending
        ∧ Handed erl manager worker st waits ps' c'
      else Handed erl manager worker st waits ps c'

/-- The loop completes, and in its rounds hands all packets over. -/
structure AllHanded (erl : Erl) (manager : ℤ) (worker : JsVal) (st : List JsVal)
    (waits : List Wait) (ps : List Bytes) (c : Ctx Os) : Prop where
  completes : ∃ c', doSomethingLoop erl manager (waits.map fun a => ([a.1], a.2)) c = .ok () c'
  handed : Handed erl manager worker st (waits.take 10) ps c

/-- What a round needs: a wait that gives the event of the descriptor and what its handler needs,
which is for the input a packet whose length bytes are plain and that gets through to its port. -/
def RoundServes (erl : Erl) (manager : ℤ) (worker : JsVal) (st : List JsVal) (a : Wait)
    (c : Ctx Os) : Prop :=
  ∃ q event e, eventsWait manager [a.1] 1 c.world.events = ((1, [q]), e)
    ∧ e.records.get? q = some event
    ∧ if a.1 = 0 then event = inputEvent ∧ ∀ p rest, p.length ≤ 65535 →
        c.world.input.pending = Packet2.frame p ++ rest →
        HeaderPlain p.length ∧ ∃ call, Requests erl c worker st p call
      else OtherServes event (c.withEvents e) (worker :: st)

theorem loopStep_true {ready : List ℤ} {buffer : Bytes} {c' : Ctx Os}
    (h : doSomethingRound erl manager ready buffer c = .ok true c') :
    loopStep erl manager (ready, buffer) c = .ok c' := by
  simp only [loopStep, h]

/-- Every input round takes a packet. -/
theorem Handed.count : ∀ {waits : List Wait} {ps : List Bytes} {c : Ctx Os},
    Handed erl manager worker st waits ps c → waits.countP (fun a => a.1 = 0) = ps.length
  | [], ps, c, h => by
    obtain rfl : ps = [] := h
    rfl
  | (fd, buffer) :: waits, ps, c, ⟨c', hround, h⟩ => by
    by_cases hfd : fd = 0
    · rw [if_pos hfd] at h
      obtain ⟨p, ps', call, rfl, -, -, -, h⟩ := h
      rw [List.countP_cons_of_pos (by simpa using hfd), h.count, List.length_cons]
    · rw [if_neg hfd] at h
      rw [List.countP_cons_of_neg (by simpa using hfd), h.count]

/-- What a call of a script may change. -/
theorem afterCall_spares {f : JsVal} {args : List JsVal} (hfun : f.isFunction = true)
    (hscripts : LeavesInput c.engine) :
    Spares c (c.afterCall f args) ∧ (c.afterCall f args).calls = c.calls ++ [(f, args)] := by
  unfold Ctx.afterCall
  rw [if_pos hfun]
  exact ⟨⟨rfl, rfl, hscripts _ _ _ _⟩, rfl⟩

/-- The round of the input hands the next packet over. -/
theorem round_input {buffer : Bytes} (hstack : c.stack = worker :: st)
    (hsched : ShortOnly c.world.input.sched)
    (h : RoundServes erl manager worker st (0, buffer) c) {p rest : Bytes}
    (hlen : p.length ≤ 65535) (hp : c.world.input.pending = Packet2.frame p ++ rest) :
    ∃ e input call, (eventsWait manager [0] 1 c.world.events).2 = e
      ∧ input.sched = c.world.input.sched ∧ input.pending = rest ∧ call.1.isFunction = true
      ∧ Requests erl c worker st p call
      ∧ doSomethingRound erl manager [0] buffer c
        = .ok true (((c.withEvents e).withInput input).afterCall call.1 call.2) := by
  obtain ⟨q, event, e, hwait, hrecord, h⟩ := h
  rw [if_pos rfl] at h
  obtain ⟨rfl, h⟩ := h
  obtain ⟨hheader, call, hrequests⟩ := h p rest hlen hp
  obtain ⟨input, hs, hrest, hfun, hrun⟩ := @handleInput_serves erl (c.withEvents e) worker st p rest
    call hstack hsched hp hlen hheader hrequests buffer
  refine ⟨e, input, call, by rw [hwait], hs, hrest, hfun, hrequests, ?_⟩
  rw [doSomethingRound_event hwait (by omega) hrecord]
  unfold handleEvent
  rw [bind_ok (handleTimer_other (by simp [inputEvent]) _), bind_ok hrun,
    bind_ok (handleOutput_other manager (by simp [inputEvent]) _)]
  rfl

theorem round_other {fd : ℤ} {buffer : Bytes} (hstack : c.stack = worker :: st)
    (hscripts : LeavesInput c.engine) (h : RoundServes erl manager worker st (fd, buffer) c)
    (hfd : fd ≠ 0) :
    ∃ c', doSomethingRound erl manager [fd] buffer c = .ok true c' ∧ Spares c c' := by
  obtain ⟨q, event, e, hwait, hrecord, h⟩ := h
  rw [if_neg hfd] at h
  obtain ⟨c', hrun, hspares⟩ := @handleEvent_other erl (c.withEvents e) worker st hstack hscripts
    event h manager buffer
  exact ⟨c', (doSomethingRound_event hwait (by omega) hrecord buffer).trans hrun, hspares.stack,
    hspares.engine, hspares.input⟩

theorem doSomethingRounds_cons {ready : List ℤ} {buffer : Bytes} {c' : Ctx Os}
    (h : doSomethingRound erl manager ready buffer c = .ok true c')
    (waits : List (List ℤ × Bytes)) : doSomethingRounds erl manager ((ready, buffer) :: waits) c
      = doSomethingRounds erl manager waits c' := by
  rw [doSomethingRounds, bind_ok h]
  rfl

theorem handed_input {buffer : Bytes} {waits : List Wait} {p : Bytes} {ps : List Bytes}
    {c' : Ctx Os} {call : JsVal × List JsVal}
    (hround : doSomethingRound erl manager [0] buffer c = .ok true c')
    (hrequests : Requests erl c worker st p call) (hcalls : c'.calls = c.calls ++ [call])
    (hp : c.world.input.pending = Packet2.frame p ++ c'.world.input.pending)
    (h : Handed erl manager worker st waits ps c') :
    Handed erl manager worker st ((0, buffer) :: waits) (p :: ps) c := by
  refine ⟨c', hround, ?_⟩
  rw [if_pos rfl]
  exact ⟨p, ps, call, rfl, hrequests, hcalls, hp, h⟩

theorem handed_other {fd : ℤ} (hfd : fd ≠ 0) {buffer : Bytes} {waits : List Wait}
    {ps : List Bytes} {c' : Ctx Os}
    (hround : doSomethingRound erl manager [fd] buffer c = .ok true c')
    (h : Handed erl manager worker st waits ps c') :
    Handed erl manager worker st ((fd, buffer) :: waits) ps c := by
  refine ⟨c', hround, ?_⟩
  rw [if_neg hfd]
  exact h

/-- Rounds that have what they need hand over as many packets as are the input's. -/
theorem handed_of_serves : ∀ {waits : List Wait} {ps : List Bytes} {c : Ctx Os},
    c.stack = worker :: st → LeavesInput c.engine → ShortOnly c.world.input.sched →
    c.world.input.pending = Packet2.frames ps → (∀ p ∈ ps, p.length ≤ 65535) →
    waits.countP (fun a => a.1 = 0) = ps.length →
    Run.Allowed (fun a => loopStep erl manager ([a.1], a.2)) (RoundServes erl manager worker st)
      waits c →
    Handed erl manager worker st waits ps c
      ∧ ∃ c', doSomethingRounds erl manager (waits.map fun a => ([a.1], a.2)) c = .ok () c'
  | [], ps, c, _, _, _, _, _, hcount, _ =>
    ⟨(List.eq_nil_of_length_eq_zero hcount.symm : ps = []), c, rfl⟩
  | (fd, buffer) :: waits, ps, c, hstack, hscripts, hsched, hqueued, hlen, hcount, hfits => by
    obtain ⟨hround, hrest⟩ := hfits
    by_cases hfd : fd = 0
    · subst hfd
      rw [List.countP_cons_of_pos (by simp)] at hcount
      obtain ⟨p, ps, rfl⟩ := List.exists_cons_of_length_eq_add_one hcount.symm
      rw [List.forall_mem_cons] at hlen
      rw [Packet2.frames_cons] at hqueued
      obtain ⟨e, input, call, -, hs, hrestp, hfun, hrequests, hok⟩ :=
        round_input hstack hsched hround hlen.1 hqueued
      obtain ⟨hspares, hcalls⟩ := @afterCall_spares ((c.withEvents e).withInput input) call.1 call.2
        hfun hscripts
      generalize ((c.withEvents e).withInput input).afterCall call.1 call.2 = c₁
        at hok hspares hcalls
      have hinput : c₁.world.input = input := hspares.input
      obtain ⟨hhanded, c', hrun⟩ := @handed_of_serves waits ps c₁ (hspares.stack.trans hstack)
        (hspares.engine ▸ hscripts) (by rw [hinput, hs]; exact hsched) (by rw [hinput, hrestp])
        hlen.2 (Nat.succ.inj hcount) (hrest _ (loopStep_true hok))
      refine ⟨handed_input hok hrequests hcalls ?_ hhanded, c', ?_⟩
      · rw [hinput, hqueued, hrestp]
      · exact (doSomethingRounds_cons hok _).trans hrun
    · rw [List.countP_cons_of_neg (by simpa using hfd)] at hcount
      obtain ⟨c₁, hok, hspares⟩ := round_other hstack hscripts hround hfd
      have hinput := hspares.input
      obtain ⟨hhanded, c', hrun⟩ := @handed_of_serves waits ps c₁ (hspares.stack.trans hstack)
        (hspares.engine ▸ hscripts) (hinput ▸ hsched) (hinput ▸ hqueued) hlen hcount
        (hrest _ (loopStep_true hok))
      exact ⟨handed_other hfd hok hhanded, c', (doSomethingRounds_cons hok _).trans hrun⟩

/-- All packets are handed to their ports exactly if none comes after the tenth event. -/
theorem allHanded_iff {waits : List Wait} {ps : List Bytes} (hstack : c.stack = worker :: st)
    (hscripts : LeavesInput c.engine) (hsched : ShortOnly c.world.input.sched)
    (hqueued : c.world.input.pending = Packet2.frames ps) (hlen : ∀ p ∈ ps, p.length ≤ 65535)
    (hinputs : waits.countP (fun a => a.1 = 0) = ps.length)
    (hfits : Run.Allowed (fun a => loopStep erl manager ([a.1], a.2))
      (RoundServes erl manager worker st) (waits.take 10) c) :
    AllHanded erl manager worker st waits ps c ↔ ∀ a ∈ waits.drop 10, a.1 ≠ 0 := by
  have hsplit : (waits.take 10).countP (fun a => a.1 = 0)
      + (waits.drop 10).countP (fun a => a.1 = 0) = ps.length := by
    rw [← List.countP_append, List.take_append_drop, hinputs]
  have hnone : (waits.drop 10).countP (fun a => a.1 = 0) = 0 ↔ ∀ a ∈ waits.drop 10, a.1 ≠ 0 := by
    rw [List.countP_eq_zero]
    simp
  rw [← hnone]
  constructor
  · intro h
    have := h.handed.count
    omega
  · intro h
    obtain ⟨hhanded, c', hrun⟩ := handed_of_serves hstack hscripts hsched hqueued hlen
      (by omega) hfits
    refine ⟨⟨c', ?_⟩, hhanded⟩
    rw [List.map_take] at hrun
    exact hrun

end Loop

section Eleven

/-- The main loop with a request queued `k` times. -/
def queueCtx (k : ℕ) : Ctx Os :=
  (portCtx ⟨Packet2.frames (List.replicate k requestBytes), fun _ => .upTo 0, []⟩).withEvents
    ⟨3, [(0, ⟨0, false, true⟩)], ⟨[⟨inputEvent, 0⟩]⟩, [], [], fun _ => some 0, 0⟩

/-- What does not change from request to request. -/
structure Steady (k : ℕ) (c : Ctx Os) : Prop where
  engine : c.engine = (queueCtx k).engine
  stack : c.stack = [portWorker]
  reserve : c.reserve = 64
  store : c.store = fun _ => []
  manager : c.world.events.manager = 3
  epoll : c.world.events.epoll = [(0, ⟨0, false, true⟩)]
  records : c.world.events.records = ⟨[⟨inputEvent, 0⟩]⟩
  willing : ∀ n, (c.world.events.sched n).isSome = true
  short : ShortOnly c.world.input.sched
  pending : c.world.input.pending = Packet2.frames (List.replicate k requestBytes)

theorem steady_queueCtx (k : ℕ) : Steady k (queueCtx k) :=
  ⟨rfl, rfl, rfl, rfl, rfl, rfl, rfl, fun _ => rfl, fun _ => ⟨0, rfl⟩, rfl⟩

variable {k : ℕ} {c : Ctx Os}

theorem Steady.leavesInput (h : Steady k c) : LeavesInput c.engine := by
  rw [h.engine]
  exact fun _ _ _ _ => rfl

theorem Steady.wait (h : Steady k c) :
    eventsWait 3 [0] 1 c.world.events = ((1, [0]), c.world.events.tick) := by
  have hunder : c.world.events.under 0 = [(0, ⟨0, false, true⟩)] := by
    rw [Events.under, h.epoll]
    rfl
  have hwait := eventsWait_level (h.willing _) hunder
  rwa [h.manager] at hwait

theorem Steady.requests (h : Steady k c) :
    Requests requestErl c portWorker [] requestBytes (.function 0 [], [.number (.ofInt 1)]) := by
  obtain ⟨engine, stack, reserve, this, store, world, calls⟩ := c
  obtain ⟨rfl, rfl, rfl, rfl, -⟩ := h
  exact ⟨[112], .tuple [.integer 1], [], knownErl_decode requestBytes _, rfl, rfl⟩

theorem Steady.serves (h : Steady k c) (buffer : Bytes) :
    RoundServes requestErl 3 portWorker [] (0, buffer) c := by
  refine ⟨0, inputEvent, c.world.events.tick, h.wait, ?_, ?_⟩
  · show c.world.events.records.get? 0 = some inputEvent
    rw [h.records]
    rfl
  · rw [if_pos rfl]
    refine ⟨rfl, fun p rest hlen hp => ?_⟩
    rw [h.pending] at hp
    obtain _ | k := k
    · exact absurd (List.append_eq_nil_iff.1 hp.symm).1 (Packet2.frame_ne_nil p)
    · rw [List.replicate_succ, Packet2.frames_cons] at hp
      have hframe := Packet2.unframe_frame hlen rest
      rw [← hp, Packet2.unframe_frame (by decide)] at hframe
      obtain ⟨rfl, -⟩ := Prod.mk.inj (Option.some.inj hframe)
      exact ⟨by decide, _, h.requests⟩

theorem Steady.step (h : Steady (k + 1) c) (buffer : Bytes) :
    ∃ c', loopStep requestErl 3 ([0], buffer) c = .ok c' ∧ Steady k c' := by
  have hp := h.pending
  rw [List.replicate_succ, Packet2.frames_cons] at hp
  obtain ⟨e, input, call, he, hs, hrest, hfun, -, hok⟩ :=
    round_input h.stack h.short (h.serves buffer) (by decide) hp
  rw [h.wait] at he
  subst he
  have hcall : ∀ f args store w, (c.engine.call f args store w).2 = (store, w) := by
    rw [h.engine]
    exact fun _ _ _ _ => rfl
  have hafter : ((c.withEvents c.world.events.tick).withInput input).afterCall call.1 call.2
      = { (c.withEvents c.world.events.tick).withInput input with
          calls := c.calls ++ [(call.1, call.2)] } := by
    unfold Ctx.afterCall
    rw [if_pos hfun]
    simp only [Ctx.withInput, Ctx.withEvents, hcall]
  rw [hafter] at hok
  exact ⟨_, loopStep_true hok, h.engine, h.stack, h.reserve, h.store, h.manager, h.epoll, h.records,
    h.willing, fun n => hs ▸ h.short n, hrest⟩

theorem Steady.allowed : ∀ (n : ℕ) {k : ℕ} {c : Ctx Os}, n ≤ k → Steady k c →
    Run.Allowed (fun a : Wait => loopStep requestErl 3 ([a.1], a.2))
      (RoundServes requestErl 3 portWorker []) (List.replicate n (0, [])) c
  | 0, _, _, _, _ => trivial
  | n + 1, k + 1, c, hn, h => by
    obtain ⟨c', hstep, h'⟩ := h.step []
    refine ⟨h.serves [], fun s hs => ?_⟩
    have hs : loopStep requestErl 3 ([0], []) c = .ok s := hs
    rw [hstep] at hs
    cases hs
    exact Steady.allowed n (Nat.le_of_succ_le_succ hn) h'

theorem allHanded_one : AllHanded requestErl 3 portWorker [] [(0, [])] [requestBytes] (queueCtx 1)
    ↔ ∀ a ∈ ([(0, [])] : List Wait).drop 10, a.1 ≠ 0 :=
  have h := steady_queueCtx 1
  @allHanded_iff requestErl 3 (queueCtx 1) portWorker [] [(0, [])] [requestBytes] h.stack
    h.leavesInput h.short h.pending (by decide) rfl (h.allowed 1 (le_refl _))

/-- The eleventh request is not handed over. -/
theorem not_allHanded_eleven : ¬ ∀ (erl : Erl) (manager : ℤ) (c : Ctx Os) (worker : JsVal)
    (st : List JsVal) (waits : List Wait) (ps : List Bytes), c.stack = worker :: st →
    LeavesInput c.engine → ShortOnly c.world.input.sched →
    c.world.input.pending = Packet2.frames ps → (∀ p ∈ ps, p.length ≤ 65535) →
    waits.countP (fun a => a.1 = 0) = ps.length →
    Run.Allowed (fun a => loopStep erl manager ([a.1], a.2)) (RoundServes erl manager worker st)
      waits c → AllHanded erl manager worker st waits ps c := by
  intro hall
  have h := steady_queueCtx 11
  have hhanded := (hall requestErl 3 (queueCtx 11) portWorker [] (List.replicate 11 (0, []))
    (List.replicate 11 requestBytes) h.stack h.leavesInput h.short h.pending
    (fun p hp => by rw [List.eq_of_mem_replicate hp]; decide) rfl
    (h.allowed 11 (le_refl _))).handed.count
  rw [List.take_replicate, List.countP_replicate, List.length_replicate] at hhanded
  cases hhanded

end Eleven

end Erlm
