import Erlm.Lib.Run
import Erlm.Proofs.Arguments
import Erlm.Proofs.Output
import Erlm.Proofs.Timers

/-!
# The value stack of the main loop

Every handler that completes leaves the stack as it found it, but for the input handler: it pops
three entries, which is right only if the payload was unrolled. So a run of the loop keeps the
worker on the top of the same stack exactly when every payload becomes an array
(`stackKept_iff`).
-/

namespace Erlm

open ETerm (ofList)

section Keeps

/-- The computation completes and leaves the stack as it was. -/
def Keeps {α : Type} (m : DukM Os α) (c : Ctx Os) : Prop :=
  ∃ a c', m c = .ok a c' ∧ c'.stack = c.stack

variable {α β : Type} {c c' : Ctx Os}

theorem not_keeps_of_fails {m : DukM Os α} (h : Fails m c) : ¬ Keeps m c := by
  rintro ⟨a, c', hok, -⟩
  exact not_fails_of_ok hok h

theorem keeps_bind_left {m : DukM Os α} {f : α → DukM Os β} {a : α} (h : m c = .ok a c')
    (hstack : c'.stack = c.stack) : Keeps (m >>= f) c ↔ Keeps (f a) c' := by
  unfold Keeps
  rw [bind_ok h, hstack]

end Keeps

section Timers

variable {c : Ctx Os} {st : List JsVal} {event : Event}

/-- The callbacks of the stash and what they have under the number of an event. -/
def timerCallback (c : Ctx Os) (event : Event) : Option (JsVal × JsVal) := do
  let callbacks ← c.prop (.ref stashRef) timeoutCallbacks
  let callback ← c.prop callbacks (decimal (toUarridx event.id))
  return (callbacks, callback)

/-- There is room for what a timer event pushes, the callbacks are there, and the callback returns
if there is one. -/
def TimerFits (c : Ctx Os) (st : List JsVal) (event : Event) : Prop :=
  st.length + 3 ≤ c.reserve ∧ ∃ callbacks callback,
    timerCallback c event = some (callbacks, callback) ∧ (callback.isFunction = true →
      (∃ r, callbacks = .ref r) ∧ ∃ v, (c.engine.call callback [] c.store c.world).1 = .ok v)

theorem dukTimersBeforeCall_moves (htype : event.type = .timer) :
    Moves c (dukTimersBeforeCall event) st ((timerCallback c event).map fun p =>
      if p.2.isFunction then (true, p.2 :: p.1 :: .ref stashRef :: st) else (false, st))
      (st.length + 3) := by
  have hkey : propKey (some timeoutCallbacks) = timeoutCallbacks := by decide
  have hlast (callbacks callback : JsVal) (htop : st.length + 3 ≤ c.reserve) :
      Moves c (do
        let callback ← dukGet (-1)
        if callback.isFunction then return true
        else
          dukPopN 3
          return false) (callback :: callbacks :: .ref stashRef :: st)
      (some (if callback.isFunction then (true, callback :: callbacks :: .ref stashRef :: st)
        else (false, st))) (st.length + 3) := by
    split_ifs with hfun
    · refine Moves.of_ok htop ?_
      rw [bind_ok (dukGet_run _ _), Ctx.get_neg_one, if_pos hfun]
      rfl
    · refine Moves.of_ok htop ?_
      rw [bind_ok (dukGet_run _ _), Ctx.get_neg_one, if_neg hfun,
        bind_ok (dukPopN_ok (by simp))]
      rfl
  have hstash : Moves c dukPushGlobalStash st ((some ()).map fun _ => ((), .ref stashRef :: st))
      (st.length + 1) := dukPush_moves _ _
  unfold dukTimersBeforeCall
  rw [if_neg (by simp [htype])]
  refine ((Moves.bind hstash fun _ _ _ =>
    Moves.bind (dukGetPropString_moves (some timeoutCallbacks)) fun callbacks _ _ =>
    Moves.bind (dukGetPropIndex_moves (toUarridx event.id)) fun callback _ htop =>
    hlast callbacks callback (by simpa using htop))).congr ?_ ?_
  · rw [hkey, Option.bind_some, timerCallback]
    simp only [Option.bind_eq_bind, Option.map_bind, Function.comp_def, Option.pure_def,
      Option.map_some]
  · simp only [List.length_cons]
    omega

/-- An event of another type is left to the other handlers. -/
theorem handleTimer_other (htype : event.type ≠ .timer) (c : Ctx Os) :
    dukTimersHandleEvent event c = .ok () c := by
  have hbefore : dukTimersBeforeCall event c = .ok false c := by
    unfold dukTimersBeforeCall
    rw [if_pos htype]
    rfl
  exact dukTimersHandleEvent_uncalled hbefore

end Timers

section Payload

/-- The terms that are pushed as an array: tuples, and lists that are not text. -/
def becomesArray : ETerm → Bool
  | .tuple _ => true
  | .cons hd tl => !isIolist (.cons hd tl)
  | _ => false

theorem isIolist_iff_length (t : ETerm) : isIolist t = true ↔ erlIolistLength t ≥ 0 := by
  unfold isIolist erlIolistLength
  rcases t.isList with _ | _
  · simp
  · rcases iodata t with _ | bytes <;> simp

theorem isArray_textOf (t : ETerm) : (textOf t).isArray = false := by
  unfold textOf
  split <;> rfl

/-- What a term is pushed as is an array exactly if the term is one of these. -/
theorem isArray_of_convert {len : JsVal → Option ℕ} {t : ETerm} {v : JsVal}
    (h : convert len t = some v) : v.isArray = becomesArray t := by
  cases t with
  | integer | unsigned | float | atom | binary =>
    cases h
    rfl
  | longlong | ulonglong | other => cases h
  | nil =>
    cases h
    exact isArray_textOf .nil
  | tuple es =>
    rw [convert, Option.map_eq_some_iff] at h
    obtain ⟨vs, -, rfl⟩ := h
    rfl
  | cons hd tl =>
    by_cases hio : erlIolistLength (.cons hd tl) ≥ 0
    · rw [convert_text hio] at h
      cases h
      rw [isArray_textOf, becomesArray, (isIolist_iff_length _).2 hio]
      rfl
    · rw [isArray_of_convert_cons h hio, becomesArray, Bool.eq_false_iff.2
        fun hlist => hio ((isIolist_iff_length _).1 hlist)]
      rfl

end Payload

section Handlers

variable {erl : Erl} {c : Ctx Os} {worker : JsVal} {st : List JsVal} {event : Event}

/-- What is read is a request for a port of the worker whose payload is a `P`, and there is room for
its value and the arguments. -/
def InputFits (P : ETerm → Prop) (erl : Erl) (buffer : Bytes) (c : Ctx Os) (worker : JsVal)
    (st : List JsVal) : Prop :=
  ∃ name term more, erl.decode (storeAt buffer 0 (received c.world.input))
      = some (.tuple (.atom name :: term :: more))
    ∧ (fitting c worker st (.tuple (.atom name :: term :: more))).isSome = true ∧ P term

theorem payload_of_fitting {name : Bytes} {term : ETerm} {more : List ETerm} {q : Request}
    (h : fitting c worker st (.tuple (.atom name :: term :: more)) = some q) :
    convert c.engine.arrayLength term = some q.payload := by
  rw [fitting, Option.filter_eq_some_iff] at h
  have hrequest := h.1
  simp only [request, Option.bind_eq_bind, Option.bind_eq_some_iff, Option.pure_def,
    Option.some.injEq] at hrequest
  obtain ⟨ports, -, port, -, send, -, payload, hpayload, rfl⟩ := hrequest
  exact hpayload

/-- Sending to a port keeps the stack exactly if the payload was unrolled. -/
theorem sendToPort_keeps_iff {name : Bytes} {term : ETerm} {more : List ETerm} :
    Keeps (sendToPort (.tuple (.atom name :: term :: more))) (c.withStack (worker :: st))
      ↔ (fitting c worker st (.tuple (.atom name :: term :: more))).isSome = true
        ∧ becomesArray term = true := by
  rcases hq : fitting c worker st (.tuple (.atom name :: term :: more)) with _ | q
  · exact iff_of_false (not_keeps_of_fails (sendToPort_fails hq)) (by simp)
  · have hok := sendToPort_ok hq
    have harray := isArray_of_convert (payload_of_fitting hq)
    have hstack : q.below.drop 2 ++ worker :: st = worker :: st ↔ becomesArray term = true := by
      rw [← harray, List.append_left_eq_self, Request.below]
      split_ifs with h
      · simp [h]
      · simp [h]
    unfold Keeps
    rw [hok]
    simp only [Option.isSome_some, true_and, ← hstack]
    constructor
    · rintro ⟨a, c', h, hkept⟩
      cases h
      exact hkept
    · exact fun h => ⟨_, _, rfl, h⟩

theorem handleInput_keeps_iff (buffer : Bytes) (hid : event.id = 0) (htype : event.type = .read) :
    Keeps (erlmHandleInputEvent erl buffer event) (c.withStack (worker :: st))
      ↔ InputFits (becomesArray · = true) erl buffer c worker st := by
  obtain ⟨input, hinput⟩ : ∃ input, input = (ioReadPacket2 c.world.input []).2.2 := ⟨_, rfl⟩
  let c' : Ctx Os := { c with world := { c.world with input } }
  have hread : readRequest buffer (c.withStack (worker :: st))
      = .ok (storeAt buffer 0 (received c.world.input)) (c'.withStack (worker :: st)) := by
    simp only [c', hinput]
    exact readRequest_run buffer (c.withStack (worker :: st))
  unfold erlmHandleInputEvent
  rw [if_neg (by simp [hid, htype]), keeps_bind_left hread rfl]
  unfold InputFits
  rcases erl.decode (storeAt buffer 0 (received c.world.input)) with _ | tuple
  · exact iff_of_false (not_keeps_of_fails ⟨_, _, trivial, rfl⟩) (by simp)
  · by_cases hpair : ∃ name term more, tuple = .tuple (.atom name :: term :: more)
    · obtain ⟨name, term, more, rfl⟩ := hpair
      refine (@sendToPort_keeps_iff c' worker st name term more).trans ?_
      constructor
      · exact fun h => ⟨name, term, more, rfl, h⟩
      · rintro ⟨name', term', more', heq, h⟩
        simp only [Option.some.injEq, ETerm.tuple.injEq, List.cons.injEq, ETerm.atom.injEq] at heq
        obtain ⟨rfl, rfl, rfl⟩ := heq
        exact h
    · refine iff_of_false (not_keeps_of_fails (sendToPort_fails (fitting_of_not_pair ?_))) ?_
      · exact fun name term more heq => hpair ⟨name, term, more, heq⟩
      · rintro ⟨name, term, more, heq, -⟩
        exact hpair ⟨name, term, more, Option.some.inj heq⟩

theorem handleInput_other (buffer : Bytes) (h : event.id ≠ 0 ∨ event.type ≠ .read) (c : Ctx Os) :
    erlmHandleInputEvent erl buffer event c = .ok () c := by
  unfold erlmHandleInputEvent
  rw [if_pos h]
  rfl

/-- The packet an event of descriptor 1 points to has not been released, nor its buffer. -/
def OutputFits (c : Ctx Os) (event : Event) : Prop :=
  ∃ p packet bytes, event.data = some p ∧ c.world.packets.get? p = some packet
    ∧ c.world.buffers.get? packet.data = some bytes

theorem OutputFits.event_eq (h : OutputFits c event) (hid : event.id = 1)
    (htype : event.type = .write) : ∃ p packet bytes, event = ⟨.write, 1, some p⟩
      ∧ c.world.packets.get? p = some packet ∧ c.world.buffers.get? packet.data = some bytes := by
  obtain ⟨p, packet, bytes, hdata, hpacket, hbuffer⟩ := h
  obtain ⟨type, id, data⟩ := event
  obtain rfl : type = .write := htype
  obtain rfl : id = 1 := hid
  obtain rfl : data = some p := hdata
  exact ⟨p, packet, bytes, rfl, hpacket, hbuffer⟩

theorem handleOutput_other (manager : ℤ) (h : event.id ≠ 1 ∨ event.type ≠ .write) (c : Ctx Os) :
    erlmHandleOutputEvent manager event c = .ok () c := by
  unfold erlmHandleOutputEvent
  rw [if_pos h]
  rfl

end Handlers

section Round

variable {erl : Erl} {c : Ctx Os} {worker : JsVal} {st : List JsVal} {event : Event}

/-- The three handlers of the loop, one after the other. -/
def handleEvent (erl : Erl) (manager : ℤ) (buffer : Bytes) (event : Event) : DukM Os Bool := do
  dukTimersHandleEvent event
  erlmHandleInputEvent erl buffer event
  erlmHandleOutputEvent manager event
  return true

end Round

section Runs

variable {erl : Erl} {manager : ℤ} {c : Ctx Os} {worker : JsVal} {st : List JsVal}

/-- An iteration of the loop with the descriptors that are ready and what the local array of the
input handler holds. -/
def loopStep (erl : Erl) (manager : ℤ) (a : List ℤ × Bytes) (c : Ctx Os) : Except Fault (Ctx Os) :=
  match doSomethingRound erl manager a.1 a.2 c with
  | .ok _ c' => .ok c'
  | .error fault _ => .error fault

end Runs

end Erlm
