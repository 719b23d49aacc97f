import Erlm.Context
import Erlm.Events
import Erlm.Io

/-!
# The world outside the context

The event layer, the packets waiting to be written with their buffers, and the two descriptors the
program talks through. Memory that was released must not be used again.
-/

namespace Erlm

/-- `struct packet`, `data` a pointer to a buffer. -/
structure Packet where
  size : ℕ
  data : ℕ
  deriving Repr, DecidableEq

structure Os where
  events : Events
  packets : Heap Packet
  buffers : Heap Bytes
  input : Input
  output : Output

/-- A computation on the world within one in a context. -/
def onWorld {α : Type} (f : Os → α × Os) : DukM Os α := fun c =>
  .ok (f c.world).1 { c with world := (f c.world).2 }

def onEvents {α : Type} (m : EventM α) : DukM Os α :=
  onWorld fun w => ((m w.events).1, { w with events := (m w.events).2 })

/-- What a pointer to an event points to. -/
def readEvent (event : ℕ) : DukM Os Event := do
  let c ← get
  match c.world.events.records.get? event with
  | some record => return record
  | none => throw .undefinedBehaviour

def mallocBuffer (bytes : Bytes) : DukM Os ℕ := onWorld fun w =>
  (w.buffers.next, { w with buffers := w.buffers.alloc bytes })

def mallocPacket (packet : Packet) : DukM Os ℕ := onWorld fun w =>
  (w.packets.next, { w with packets := w.packets.alloc packet })

def freeBuffer (buffer : ℕ) : DukM Os Unit := onWorld fun w =>
  ((), { w with buffers := w.buffers.release buffer })

def freePacket (packet : ℕ) : DukM Os Unit := onWorld fun w =>
  ((), { w with packets := w.packets.release packet })

end Erlm
