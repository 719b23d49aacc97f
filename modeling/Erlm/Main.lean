import Erlm.DukElm
import Erlm.DukErlang
import Erlm.DukTimers

/-!
# `erlm.c`

The handlers of the program: each output port of the worker is subscribed to once, with a handler
that encodes its value and waits for descriptor 1 to become writable, and the main loop waits for
one event at a time and offers it to the timers, the input handler and the output handler.
-/

namespace Erlm

def portName : Bytes := ascii ['p', 'o', 'r', 't', 'N', 'a', 'm', 'e']

def eventsManager : Bytes :=
  ascii ['e', 'v', 'e', 'n', 't', 's', 'M', 'a', 'n', 'a', 'g', 'e', 'r']

variable (erl : Erl)

/-- The handler of every output port, called with the value to send. -/
def erlmOutputPortHandler : DukM Os ℤ := do
  dukPushThis
  dukGetPropIndex (-1) 0
  dukGetPropString (-1) (some portName)
  let _port_name ← dukGetString (-1)
  dukPopN 3
  dukPushGlobalStash
  dukGetPropString (-1) (some eventsManager)
  let events_manager ← dukGetInt (-1)
  dukPopN 2
  let term ← dukErlangGetTerm (-1)
  let term_size := toInt (erl.encode term).length
  let buffer ← mallocBuffer (erl.encode term)
  let packet ← mallocPacket ⟨toSizeT term_size, buffer⟩
  let _result ← onEvents (eventsSubscribeWrite events_manager 1 (some packet))
  return 0

/-- `erlm_output_port_handler` as a function of the scripts. -/
def outputPortHandler (props : Props) : JsVal := .function 0 props

def MAX_PORT_COUNT : ℤ := 128

/-- A round of the loop of `erlm_subscribe_all_output_ports`. -/
def subscribeRound {ω : Type} (port : Option Bytes) : DukM ω Unit := do
  dukGetPropString (-1) port
  dukGetPropString (-1) (some subscribeKey)
  dukPush (outputPortHandler [])
  dukPushString port
  dukPutPropString (-2) portName
  dukCall 1
  dukPopN 2

def erlmSubscribeAllOutputPorts {ω : Type} (inherits : JsVal → Bytes → Bool) : DukM ω Unit := do
  let (ports_count, ports) ← dukElmGetOutputPorts inherits MAX_PORT_COUNT
  dukGetPropString (-1) (some portsKey)
  (ports.take ports_count.toNat).forM subscribeRound
  dukPop

def erlmListenInputEvent (events_manager : ℤ) : DukM Os Unit := do
  let _result ← onEvents (eventsSubscribeRead events_manager 0 none)
  return

/-- What the two reads of the input handler store and where they leave descriptor 0. -/
def readRequest (buffer : Bytes) : DukM Os Bytes := onWorld fun w =>
  let (_nbytes, buffer, input) := ioReadPacket2 w.input buffer
  (buffer, { w with input })

/-- Pushes `ports.<port_name>.send` of the Elm worker on the top of the stack and the arguments, and
returns their number. Only an atom has a name, and only a tuple with two elements has a second one:
the fields of anything else are not there to be read. -/
def pushRequest (tuple : ETerm) : DukM Os ℕ :=
  match erlElement 1 tuple with
  | some (.atom name) => do
    let port_name := erlAtomPtr name
    dukGetPropString (-1) (some portsKey)
    dukGetPropString (-1) port_name
    dukGetPropString (-1) (some sendKey)
    match erlElement 2 tuple with
    | some term =>
      dukErlangPushTerm term
      dukUtilUnrollArray
    | none => throw .undefinedBehaviour
  | _ => throw .undefinedBehaviour

def sendToPort (tuple : ETerm) : DukM Os Unit := do
  let arg_count ← pushRequest tuple
  dukPcall arg_count
  dukPopN 3

/-- `buffer` is what the local array holds on entry. -/
def erlmHandleInputEvent (buffer : Bytes) (event : Event) : DukM Os Unit := do
  if event.id ≠ 0 ∨ event.type ≠ .read then return
  else
    let buffer ← readRequest buffer
    match erl.decode buffer with
    | some tuple => sendToPort tuple
    | none => throw .undefinedBehaviour

/-- The packet an event of descriptor 1 points to and the bytes of its buffer. -/
def readPacket (data : Option ℕ) : DukM Os (ℕ × Packet × Bytes) := do
  let c ← get
  match data with
  | none => throw .undefinedBehaviour
  | some p =>
    match c.world.packets.get? p with
    | none => throw .undefinedBehaviour
    | some packet =>
      match c.world.buffers.get? packet.data with
      | none => throw .undefinedBehaviour
      | some bytes => return (p, packet, bytes)

def erlmHandleOutputEvent (events_manager : ℤ) (event : Event) : DukM Os Unit := do
  if event.id ≠ 1 ∨ event.type ≠ .write then return
  else
    let (packet, fields, bytes) ← readPacket event.data
    onWorld fun w =>
      ((), { w with output := (ioWritePacket2 w.output bytes (toInt fields.size)).2 })
    freeBuffer fields.data
    freePacket packet
    onEvents (eventsUnsubscribe events_manager event)

/-- A round of the loop of `do_something`, false when it ends the loop: `ready` are the descriptors
that are ready, and `buffer` is what the local array of the input handler holds. `events_wait`
blocks until there is an event, so a wait that gives none does not occur. -/
def doSomethingRound (events_manager : ℤ) (ready : List ℤ) (buffer : Bytes) : DukM Os Bool := do
  let (event_count, events) ← onEvents (eventsWait events_manager ready 1)
  if event_count < 0 then return false
  else
    match events.head? with
    | none => throw .undefinedBehaviour
    | some p =>
      let event ← readEvent p
      dukTimersHandleEvent event
      erlmHandleInputEvent erl buffer event
      erlmHandleOutputEvent events_manager event
      return true

/-- Round after round, until one ends the loop. -/
def doSomethingRounds (events_manager : ℤ) : List (List ℤ × Bytes) → DukM Os Unit
  | [] => return
  | (ready, buffer) :: waits => do
    let continues ← doSomethingRound erl events_manager ready buffer
    if continues then doSomethingRounds events_manager waits else return

/-- The loop of `do_something` on what its waits find, in order. It makes ten rounds at most. -/
def doSomethingLoop (events_manager : ℤ) (waits : List (List ℤ × Bytes)) : DukM Os Unit :=
  doSomethingRounds erl events_manager (waits.take 10)

end Erlm
