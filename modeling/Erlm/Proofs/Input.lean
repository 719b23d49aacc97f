import Erlm.Main
import Erlm.Proofs.Packet
import Erlm.Proofs.Push
import Erlm.Proofs.Unroll

/-!
# The input handler

What the handler does with a decoded term is settled by the values on the stack and in the store:
either it fails before anything is called, or it calls one value (`sendToPort_ok`,
`sendToPort_fails`). What it decodes is the start of a local array that only the bytes received
were written to, so a port call is determined by them only if the array's old contents cannot
matter (`inputDetermined_iff`).
-/

namespace Erlm

open ETerm (ofList)

section Request

/-- What is on the stack above the worker when everything was found and converted, and how far the
conversion went up from where it started. -/
structure Request where
  ports : JsVal
  port : JsVal
  send : JsVal
  payload : JsVal
  depth : ℕ

/-- The `send` of a port of the worker. -/
def portSend (c : Ctx Os) (worker : JsVal) (key : Bytes) : Option JsVal := do
  let ports ← c.prop worker portsKey
  let port ← c.prop ports key
  c.prop port sendKey

/-- The request a term makes, none if something is missing or does not convert. -/
def request (c : Ctx Os) (worker : JsVal) : ETerm → Option Request
  | .tuple (.atom name :: term :: _) => do
    let ports ← c.prop worker portsKey
    let port ← c.prop ports (propKey (erlAtomPtr name))
    let send ← c.prop port sendKey
    let payload ← convert c.engine.arrayLength term
    return ⟨ports, port, send, payload, slots term⟩
  | _ => none

namespace Request

/-- What is called: an array was unrolled, anything else stands where the function should. -/
def callee (q : Request) : JsVal := if q.payload.isArray then q.send else q.payload

def args (q : Request) (store : Store) : List JsVal :=
  if q.payload.isArray then q.payload.elements store else []

/-- What is between the worker and the value that is called. -/
def below (q : Request) : List JsVal :=
  if q.payload.isArray then [q.port, q.ports] else [q.send, q.port, q.ports]

/-- How far the stack goes up from `n` entries. -/
def top (q : Request) (store : Store) (n : ℕ) : ℕ :=
  max (n + 3 + q.depth) (if q.payload.isArray then unrollTop (n + 3) (q.args store) else 0)

end Request

variable {c : Ctx Os} {worker : JsVal}

theorem unroll_moves (q : Request) (st : List JsVal) :
    Moves c dukUtilUnrollArray (q.payload :: q.send :: q.port :: q.ports :: st)
      (some ((q.args c.store).length, (q.args c.store).reverse ++ q.callee :: (q.below ++ st)))
      (if q.payload.isArray then unrollTop (st.length + 3) (q.args c.store) else 0) := by
  unfold Request.args Request.callee Request.below
  by_cases h : q.payload.isArray = true
  · simp only [if_pos h]
    exact dukUtilUnrollArray_moves h _
  · simp only [if_neg h]
    exact Moves.of_ok (Nat.zero_le _) (dukUtilUnrollArray_other (by simpa using h) _)

theorem pushRequest_moves_pair (name : Bytes) (term : ETerm) (more : List ETerm)
    (st : List JsVal) :
    Moves c (pushRequest (.tuple (.atom name :: term :: more))) (worker :: st)
      ((request c worker (.tuple (.atom name :: term :: more))).map fun q =>
        ((q.args c.store).length,
          (q.args c.store).reverse ++ q.callee :: (q.below ++ worker :: st)))
      (((request c worker (.tuple (.atom name :: term :: more))).map fun q =>
        q.top c.store (st.length + 1)).getD 0) := by
  have hports : propKey (some portsKey) = portsKey := by decide
  have hsend : propKey (some sendKey) = sendKey := by decide
  unfold request
  refine ((Moves.bindTop (dukGetPropString_moves (some portsKey)) fun ports _ _ =>
    Moves.bindTop (dukGetPropString_moves (erlAtomPtr name)) fun port _ _ =>
    Moves.bindTop (dukGetPropString_moves (some sendKey)) fun send _ _ =>
    Moves.bindTop (dukErlangPushTerm_moves term _) fun payload _ _ =>
    unroll_moves ⟨ports, port, send, payload, slots term⟩ (worker :: st)).of_top ?_).congr ?_ rfl
  · intro hne
    obtain ⟨x, hx⟩ := Option.ne_none_iff_exists'.1 hne
    simp only [Option.bind_eq_some_iff, hports, hsend] at hx
    obtain ⟨ports, h1, port, h2, send, h3, payload, h4, -⟩ := hx
    simp only [hports, hsend, h1, h2, h3, h4, Option.map_some, Option.getD_some,
      Option.pure_def, Option.bind_eq_bind, Option.bind_some, Request.top, List.length_cons]
    omega
  · simp only [hports, hsend, Option.bind_eq_bind, Option.map_bind, Function.comp_def,
      Option.pure_def, Option.map_some]

/-- A tuple of one element has nothing to send. -/
theorem pushRequest_single (name : Bytes) (st : List JsVal) :
    Fails (pushRequest (.tuple [.atom name])) (c.withStack (worker :: st)) := by
  have h : Moves c (pushRequest (.tuple [.atom name])) (worker :: st) _ _ :=
    Moves.bindTop (dukGetPropString_moves (some portsKey)) fun ports _ _ =>
      Moves.bindTop (dukGetPropString_moves (erlAtomPtr name)) fun port _ _ =>
      Moves.bindTop (dukGetPropString_moves (some sendKey)) fun send _ _ =>
      @Moves.of_fails Os ℕ c _ _ 0 ⟨.undefinedBehaviour, _, trivial, rfl⟩
  exact h.2 (Or.inl (by simp))

/-- Everything is found and converted before the call. -/
theorem pushRequest_moves (tuple : ETerm) (st : List JsVal) :
    Moves c (pushRequest tuple) (worker :: st)
      ((request c worker tuple).map fun q => ((q.args c.store).length,
        (q.args c.store).reverse ++ q.callee :: (q.below ++ worker :: st)))
      (((request c worker tuple).map fun q => q.top c.store (st.length + 1)).getD 0) := by
  cases tuple with
  | tuple elems =>
    rcases elems with _ | ⟨e, more⟩
    · exact Moves.of_fails ⟨.undefinedBehaviour, _, trivial, rfl⟩
    · cases e with
      | atom name =>
        rcases more with _ | ⟨term, more⟩
        · exact Moves.of_fails (pushRequest_single name st)
        · exact pushRequest_moves_pair name term more st
      | _ => exact Moves.of_fails ⟨.undefinedBehaviour, _, trivial, rfl⟩
  | _ => exact Moves.of_fails ⟨.undefinedBehaviour, _, trivial, rfl⟩

/-- The request a term makes in a context that has the room for it. -/
def fitting (c : Ctx Os) (worker : JsVal) (st : List JsVal) (tuple : ETerm) : Option Request :=
  (request c worker tuple).filter fun q => q.top c.store (st.length + 1) ≤ c.reserve

/-- Only an atom followed by a payload makes a request. -/
theorem fitting_of_not_pair {tuple : ETerm} {st : List JsVal}
    (h : ∀ name term more, tuple ≠ .tuple (.atom name :: term :: more)) :
    fitting c worker st tuple = none := by
  have hrequest : request c worker tuple = none := by
    unfold request
    split
    · exact absurd rfl (h _ _ _)
    · rfl
  rw [fitting, hrequest]
  rfl

theorem sendToPort_ok {tuple : ETerm} {st : List JsVal} {q : Request}
    (h : fitting c worker st tuple = some q) :
    sendToPort tuple (c.withStack (worker :: st)) = .ok ()
      ((c.afterCall q.callee (q.args c.store)).withStack (q.below.drop 2 ++ worker :: st)) := by
  rw [fitting, Option.filter_eq_some_iff, decide_eq_true_eq] at h
  have hmoves := @pushRequest_moves c worker tuple st
  rw [h.1] at hmoves
  obtain ⟨r, hcall⟩ := dukPcall_run c q.callee (q.args c.store) (q.below ++ worker :: st)
  rw [sendToPort, bind_ok (hmoves.1 _ _ rfl h.2), bind_ok hcall]
  unfold Request.below
  split_ifs
  · exact dukPopN_ok (by simp)
  · exact dukPopN_ok (by simp)

theorem sendToPort_fails {tuple : ETerm} {st : List JsVal} (h : fitting c worker st tuple = none) :
    Fails (sendToPort tuple) (c.withStack (worker :: st)) := by
  rw [sendToPort]
  refine fails_bind_left ((pushRequest_moves tuple st).2 ?_) _
  rcases hq : request c worker tuple with _ | q
  · exact Or.inl rfl
  · rw [fitting, hq, Option.filter_some_eq_none, decide_eq_true_eq] at h
    right
    rw [Option.map_some, Option.getD_some]
    omega

/-- The call a term makes. -/
def dispatch (c : Ctx Os) (worker : JsVal) (st : List JsVal) (tuple : ETerm) :
    Option (JsVal × List JsVal) :=
  (fitting c worker st tuple).bind fun q =>
    if q.callee.isFunction then some (q.callee, q.args c.store) else none

theorem sendToPort_calls (tuple : ETerm) (st : List JsVal) :
    (finalCtx (sendToPort tuple (c.withStack (worker :: st)))).calls
      = c.calls ++ (dispatch c worker st tuple).toList := by
  rcases h : fitting c worker st tuple with _ | q
  · obtain ⟨st', hst'⟩ := (sendToPort_fails h).finalCtx
    rw [hst', dispatch, h]
    simp
  · rw [sendToPort_ok h, dispatch, h, Option.bind_some]
    unfold Ctx.afterCall finalCtx
    split_ifs <;> simp

end Request

section Handler

/-- What the reads of one packet write to the start of the local array. -/
def received (fd : Input) : Bytes := (ioReadPacket2 fd []).2.1

theorem readRequest_run (buffer : Bytes) (c : Ctx Os) :
    readRequest buffer c = .ok (storeAt buffer 0 (received c.world.input))
      { c with world := { c.world with input := (ioReadPacket2 c.world.input []).2.2 } } := by
  unfold readRequest onWorld
  simp only [ioReadPacket2_buffer c.world.input buffer]
  rfl

variable (erl : Erl)

/-- The port call made on what the local array holds. -/
def portCall (c : Ctx Os) (worker : JsVal) (st : List JsVal) (bytes : Bytes) :
    Option (JsVal × List JsVal) :=
  (erl.decode bytes).bind (dispatch c worker st)

/-- The event of descriptor 0 being readable. -/
def inputEvent : Event := ⟨.read, 0, none⟩

theorem handleInput_calls {c : Ctx Os} {worker : JsVal} {st : List JsVal} (buffer : Bytes)
    (hstack : c.stack = worker :: st) :
    (finalCtx (erlmHandleInputEvent erl buffer inputEvent c)).calls = c.calls
      ++ (portCall erl c worker st (storeAt buffer 0 (received c.world.input))).toList := by
  unfold erlmHandleInputEvent portCall
  rw [if_neg (by simp [inputEvent]), bind_ok (readRequest_run buffer c)]
  rcases erl.decode (storeAt buffer 0 (received c.world.input)) with _ | tuple
  · simp [finalCtx, throw, throwThe, MonadExceptOf.throw, EStateM.throw]
  · have hself (w : Os) : ({ c with world := w } : Ctx Os).withStack (worker :: st)
        = { c with world := w } := by
      rw [← hstack]
      rfl
    rw [Option.bind_some, ← hself]
    exact sendToPort_calls tuple st

end Handler

section Determined

variable {erl : Erl} {c : Ctx Os} {worker : JsVal} {st : List JsVal}

/-- The bytes taken from the stream are one whole frame. -/
def WholeFrame (fd : Input) : Prop :=
  ∃ p : Bytes, p.length ≤ 65535
    ∧ fd.pending = Packet2.frame p ++ (ioReadPacket2 fd []).2.2.pending

/-- A frame with plain length bytes is received whole, its payload in front. -/
theorem received_frame {fd : Input} (h : ShortOnly fd.sched) {p rest : Bytes}
    (hp : fd.pending = Packet2.frame p ++ rest) (hlen : p.length ≤ 65535)
    (hplain : HeaderPlain p.length) : WholeFrame fd ∧ ∃ tail, received fd = p ++ tail := by
  obtain ⟨b, fd', hr, -, hrest⟩ := ioReadPacket2_frame h [] hp hlen hplain
  refine ⟨⟨p, hlen, ?_⟩, b.drop p.length, ?_⟩
  · rw [hr, hrest]
    exact hp
  · rw [received, hr, storeAt_zero]

/-- Whatever the local array holds before, the same port call is made, and none unless a whole frame
was read. -/
structure InputDetermined (erl : Erl) (c : Ctx Os) : Prop where
  same : ∀ b b' : Bytes, b.length = 65535 → b'.length = 65535 →
    (finalCtx (erlmHandleInputEvent erl b inputEvent c)).calls
      = (finalCtx (erlmHandleInputEvent erl b' inputEvent c)).calls
  whole : ∀ b : Bytes, b.length = 65535 →
    (finalCtx (erlmHandleInputEvent erl b inputEvent c)).calls ≠ c.calls →
    WholeFrame c.world.input

/-- The contents of the local array that agree on what was received. -/
theorem storeAt_received (r b : Bytes) (hb : b.length = 65535) :
    storeAt b 0 r = r ++ b.drop r.length ∧ (b.drop r.length).length = 65535 - r.length := by
  rw [storeAt_zero, List.length_drop, hb]
  exact ⟨rfl, rfl⟩

theorem exists_storeAt (r rest : Bytes) (h : rest.length = 65535 - r.length) :
    ∃ b : Bytes, b.length = 65535 ∧ storeAt b 0 r = r ++ rest := by
  refine ⟨List.replicate (min r.length 65535) 0 ++ rest, ?_, ?_⟩
  · rw [List.length_append, List.length_replicate, h]
    omega
  · rw [storeAt_zero, List.drop_append, List.length_replicate, List.drop_replicate]
    rcases Nat.lt_or_ge 65535 r.length with hlt | hle
    · obtain rfl : rest = [] := List.eq_nil_of_length_eq_zero (by omega)
      simp [hlt.le]
    · simp [hle]

/-- The port call is determined exactly when a whole frame was read and no two arrays that begin
with what was received make different calls, or when no such array makes a call at all. -/
theorem inputDetermined_iff (hstack : c.stack = worker :: st) :
    InputDetermined erl c ↔
      (WholeFrame c.world.input ∧ ∀ rest rest' : Bytes,
        rest.length = 65535 - (received c.world.input).length →
        rest'.length = 65535 - (received c.world.input).length →
        portCall erl c worker st (received c.world.input ++ rest)
          = portCall erl c worker st (received c.world.input ++ rest'))
      ∨ ∀ rest : Bytes, rest.length = 65535 - (received c.world.input).length →
        portCall erl c worker st (received c.world.input ++ rest) = none := by
  have hcalls (b : Bytes) := handleInput_calls erl b hstack
  have hnone (x : Option (JsVal × List JsVal)) : c.calls ++ x.toList ≠ c.calls ↔ x ≠ none := by
    cases x <;> simp
  constructor
  · rintro ⟨same, whole⟩
    by_cases hcall : ∃ rest : Bytes, rest.length = 65535 - (received c.world.input).length
        ∧ portCall erl c worker st (received c.world.input ++ rest) ≠ none
    · refine Or.inl ⟨?_, fun rest rest' h h' => ?_⟩
      · obtain ⟨rest, h, hne⟩ := hcall
        obtain ⟨b, hb, hstore⟩ := exists_storeAt _ rest h
        exact whole b hb (by rw [hcalls, hstore, hnone]; exact hne)
      · obtain ⟨b, hb, hstore⟩ := exists_storeAt _ rest h
        obtain ⟨b', hb', hstore'⟩ := exists_storeAt _ rest' h'
        have := same b b' hb hb'
        rw [hcalls, hcalls, hstore, hstore', List.append_cancel_left_eq] at this
        simpa using congrArg List.head? this
    · right
      intro rest h
      by_contra hne
      exact hcall ⟨rest, h, hne⟩
  · intro h
    have hrest (b : Bytes) (hb : b.length = 65535) := storeAt_received (received c.world.input) b hb
    rcases h with ⟨hwhole, hsame⟩ | hcall
    · refine ⟨fun b b' hb hb' => ?_, fun _ _ _ => hwhole⟩
      rw [hcalls, hcalls, (hrest b hb).1, (hrest b' hb').1,
        hsame _ _ (hrest b hb).2 (hrest b' hb').2]
    · refine ⟨fun b b' hb hb' => ?_, fun b hb hne => ?_⟩
      · rw [hcalls, hcalls, (hrest b hb).1, (hrest b' hb').1, hcall _ (hrest b hb).2,
          hcall _ (hrest b' hb').2]
      · rw [hcalls, (hrest b hb).1, hcall _ (hrest b hb).2] at hne
        simp at hne

/-- `{p, {1}}` in the external term format. -/
def requestBytes : Bytes := [131, 104, 2, 100, 0, 1, 112, 104, 1, 97, 1]

/-- A codec that knows one term. -/
def knownErl (known : Bytes) (t : ETerm) : Erl where
  decode bytes := if known.isPrefixOf bytes then some t else none
  encode _ := known

def requestErl : Erl := knownErl requestBytes (.tuple [.atom [112], .tuple [.integer 1]])

/-- A worker with a port `p`. -/
def portWorker : JsVal :=
  .object [(portsKey, .object [([112], .object [(sendKey, .function 0 [])])])]

/-- The main loop with that worker and with something to read. -/
def portCtx (input : Input) : Ctx Os :=
  (Ctx.bare 64 ⟨⟨3, [], Heap.empty, [], [], fun _ => none, 0⟩, Heap.empty, Heap.empty, input,
    ⟨[], fun _ => .zero, []⟩⟩).withStack [portWorker]

theorem portCall_request (input : Input) (rest : Bytes) :
    portCall requestErl (portCtx input) portWorker [] (requestBytes ++ rest)
      = some (.function 0 [], [.number (.ofInt 1)]) := by
  rfl

/-- A request that arrives whole is dispatched whatever the array held. -/
theorem inputDetermined_request : InputDetermined requestErl
    (portCtx ⟨Packet2.frame requestBytes, fun _ => .upTo 0, []⟩) := by
  rw [@inputDetermined_iff _ (portCtx ⟨Packet2.frame requestBytes, fun _ => .upTo 0, []⟩)
    portWorker [] rfl]
  obtain ⟨hwhole, tail, htail⟩ :=
    @received_frame ⟨Packet2.frame requestBytes, fun _ => .upTo 0, []⟩ (fun _ => ⟨0, rfl⟩)
      requestBytes [] (List.append_nil _).symm (by decide) (by decide)
  refine Or.inl ⟨hwhole, fun rest rest' _ _ => ?_⟩
  have hreceived : received
      (portCtx ⟨Packet2.frame requestBytes, fun _ => .upTo 0, []⟩).world.input
        = requestBytes ++ tail := htail
  rw [hreceived, List.append_assoc, List.append_assoc, portCall_request, portCall_request]

/-- At the end of the input the old contents are dispatched. -/
theorem not_inputDetermined_closed :
    ¬ ∀ (erl : Erl) (c : Ctx Os) (worker : JsVal) (st : List JsVal), c.stack = worker :: st →
      InputDetermined erl c := by
  intro hall
  have hreceived : received ⟨[], fun _ => .zero, []⟩ = [] := by decide
  have hcalls (b : Bytes) := handleInput_calls requestErl b
    (show (portCtx ⟨[], fun _ => .zero, []⟩).stack = portWorker :: [] from rfl)
  have hsame := (hall requestErl (portCtx ⟨[], fun _ => .zero, []⟩) portWorker [] rfl).same
    (requestBytes ++ List.replicate 65524 0) (List.replicate 65535 0)
    (by rw [List.length_append, List.length_replicate]; rfl) List.length_replicate
  have hzeros : portCall requestErl (portCtx ⟨[], fun _ => .zero, []⟩) portWorker []
      (List.replicate 65535 0) = none := by
    rw [portCall, requestErl, knownErl, List.replicate_succ]
    rfl
  have hempty (b : Bytes) :
      storeAt b 0 (received (portCtx ⟨[], fun _ => .zero, []⟩).world.input) = b := by
    rw [show received (portCtx ⟨[], fun _ => .zero, []⟩).world.input = [] from hreceived,
      storeAt_nil]
  rw [hcalls, hcalls, hempty, hempty, portCall_request, hzeros] at hsame
  simp at hsame

end Determined

end Erlm
