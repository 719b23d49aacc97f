import Erlm.Proofs.MainLoop

/-!
# Requests that are none

The input handler takes what it is sent for a request: anything that is not a pair of an atom and a
term, any name without a port and any term of a type that cannot be pushed ends the process. It
survives a bad request only where every lookup finds something, the payload becomes an array and
what is called is no function, so that the protected call is what fails (`badRequest_iff`).
-/

namespace Erlm

variable {erl : Erl} {c : Ctx Os} {worker : JsVal} {st : List JsVal} {t : ETerm}

/-- A pair of an atom that names an input port and a term that can be pushed. -/
def ValidRequest (c : Ctx Os) (worker : JsVal) (t : ETerm) : Prop :=
  ∃ name term, t = .tuple [.atom name, term] ∧ Supported term
    ∧ ∃ send, portSend c worker (erlAtomPtrUtf8 name) = some send ∧ send.isFunction = true

/-- The handler comes back without a port call, and the stack is as it was. -/
def Survives (erl : Erl) (buffer : Bytes) (c : Ctx Os) : Prop :=
  ∃ c', erlmHandleInputEvent erl buffer inputEvent c = .ok () c' ∧ c'.calls = c.calls
    ∧ c'.stack = c.stack

/-- A request that is found and converted, has an array for its payload, and no function to
call. -/
def Harmless (c : Ctx Os) (worker : JsVal) (st : List JsVal) (t : ETerm) : Prop :=
  ∃ name term more, t = .tuple (.atom name :: term :: more) ∧ becomesArray term = true
    ∧ ∃ q, fitting c worker st t = some q ∧ q.send.isFunction = false

/-- With an array for its payload, a request calls the `send` of its port if that is a function. -/
theorem dispatch_of_array {name : Bytes} {term : ETerm} {more : List ETerm} {q : Request}
    (harray : becomesArray term = true)
    (hq : fitting c worker st (.tuple (.atom name :: term :: more)) = some q) :
    dispatch c worker st (.tuple (.atom name :: term :: more)) = none
      ↔ q.send.isFunction = false := by
  have hcallee : q.callee = q.send := by
    rw [Request.callee, isArray_of_convert (payload_of_fitting hq), if_pos harray]
  rw [dispatch, hq, Option.bind_some, hcallee]
  simp

/-- Only a harmless request is survived. -/
theorem survives_iff (hstack : c.stack = worker :: st) (buffer : Bytes) :
    Survives erl buffer c ↔ ∃ t, erl.decode (storeAt buffer 0 (received c.world.input)) = some t
      ∧ Harmless c worker st t := by
  have hkeeps := @handleInput_keeps_iff erl c worker st inputEvent buffer rfl rfl
  have hcalls := handleInput_calls erl buffer hstack
  rw [← hstack, Ctx.withStack_self] at hkeeps
  constructor
  · intro h
    obtain ⟨c', hrun, hnone, hkept⟩ := h
    obtain ⟨name, term, more, hdecode, hfits, harray⟩ := hkeeps.1 ⟨_, c', hrun, hkept⟩
    obtain ⟨q, hq⟩ := Option.isSome_iff_exists.1 hfits
    refine ⟨_, hdecode, name, term, more, rfl, harray, q, hq, (dispatch_of_array harray hq).1 ?_⟩
    have hnone : (finalCtx (erlmHandleInputEvent erl buffer inputEvent c)).calls = c.calls := by
      rw [hrun]
      exact hnone
    rw [hcalls, portCall, hdecode, Option.bind_some] at hnone
    simpa using hnone
  · intro h
    obtain ⟨t, hdecode, name, term, more, rfl, harray, q, hq, hsend⟩ := h
    obtain ⟨⟨⟩, c', hrun, hkept⟩ := hkeeps.2
      ⟨name, term, more, hdecode, Option.isSome_iff_exists.2 ⟨q, hq⟩, harray⟩
    refine ⟨c', hrun, ?_, hkept⟩
    rw [hrun, portCall, hdecode, Option.bind_some, (dispatch_of_array harray hq).2 hsend] at hcalls
    simpa [finalCtx] using hcalls

/-- What the local array starts with after the reads of a frame. -/
theorem received_of_frame {fd : Input} (h : ShortOnly fd.sched) {p rest : Bytes}
    (hp : fd.pending = Packet2.frame p ++ rest) (hlen : p.length ≤ 65535) :
    if HeaderPlain p.length then ∃ tail, received fd = p ++ tail
      else received fd = Packet2.header p.length := by
  split_ifs with hplain
  · exact (received_frame h hp hlen hplain).2
  · obtain ⟨r, fd', hr, -⟩ := ioReadPacket2_not_plain h [] hp hlen hplain
    rw [received, hr, storeAt_empty]

/-- What is taken for the request is harmless: the payload's term, or, where the payload is not
read, whatever the local array decodes to with the header in front. -/
def TakenHarmless (erl : Erl) (c : Ctx Os) (worker : JsVal) (st : List JsVal) (buffer p : Bytes)
    (t : ETerm) : Prop :=
  if HeaderPlain p.length then Harmless c worker st t
  else ∃ t', erl.decode (storeAt buffer 0 (Packet2.header p.length)) = some t'
    ∧ Harmless c worker st t'

theorem survives_frame {p rest : Bytes} (hstack : c.stack = worker :: st)
    (hsched : ShortOnly c.world.input.sched)
    (hp : c.world.input.pending = Packet2.frame p ++ rest) (hlen : p.length ≤ 65535)
    (hdecode : ∀ tail, erl.decode (p ++ tail) = some t) (buffer : Bytes) :
    Survives erl buffer c ↔ TakenHarmless erl c worker st buffer p t := by
  have hreceived := received_of_frame hsched hp hlen
  rw [survives_iff hstack, TakenHarmless]
  split_ifs at hreceived ⊢
  · obtain ⟨tail, htail⟩ := hreceived
    rw [htail, storeAt_zero, List.append_assoc, hdecode]
    simp
  · rw [hreceived]

/-- A bad request in a frame is survived exactly if it is harmless. -/
theorem badRequest_iff {p rest : Bytes} (hstack : c.stack = worker :: st)
    (hsched : ShortOnly c.world.input.sched)
    (hp : c.world.input.pending = Packet2.frame p ++ rest) (hlen : p.length ≤ 65535)
    (hdecode : ∀ tail, erl.decode (p ++ tail) = some t) (buffer : Bytes) :
    (¬ ValidRequest c worker t → Survives erl buffer c)
      ↔ ValidRequest c worker t ∨ TakenHarmless erl c worker st buffer p t := by
  rw [survives_frame hstack hsched hp hlen hdecode, or_iff_not_imp_left]

/-- `{q, {}}` in the external term format. -/
def unknownBytes : Bytes := [131, 104, 2, 100, 0, 1, 113, 104, 0]

def unknownErl : Erl := knownErl unknownBytes (.tuple [.atom [113], .tuple []])

theorem unknownErl_decode (tail : Bytes) : unknownErl.decode (unknownBytes ++ tail)
    = some (.tuple [.atom [113], .tuple []]) := knownErl_decode _ _ tail

/-- A worker with a port `p` alone, and that request in front of it. -/
def unknownCtx : Ctx Os := portCtx ⟨Packet2.frame unknownBytes, fun _ => .upTo 0, []⟩

theorem unknownCtx_pending :
    unknownCtx.world.input.pending = Packet2.frame unknownBytes ++ [] :=
  (List.append_nil _).symm

theorem badRequest_unknown :
    (¬ ValidRequest unknownCtx portWorker (.tuple [.atom [113], .tuple []]) →
        Survives unknownErl [] unknownCtx)
      ↔ ValidRequest unknownCtx portWorker (.tuple [.atom [113], .tuple []])
        ∨ TakenHarmless unknownErl unknownCtx portWorker [] [] unknownBytes
          (.tuple [.atom [113], .tuple []]) :=
  badRequest_iff rfl (fun _ => ⟨0, rfl⟩) unknownCtx_pending (by decide) unknownErl_decode []

/-- A name without a port ends the process. -/
theorem not_survives_unknown : ¬ ∀ (erl : Erl) (c : Ctx Os) (worker : JsVal) (st : List JsVal)
    (buffer p rest : Bytes) (t : ETerm), c.stack = worker :: st →
    ShortOnly c.world.input.sched → c.world.input.pending = Packet2.frame p ++ rest →
    p.length ≤ 65535 → (∀ tail, erl.decode (p ++ tail) = some t) → ¬ ValidRequest c worker t →
    Survives erl buffer c := by
  intro hall
  have hstack : unknownCtx.stack = portWorker :: [] := rfl
  have hsched : ShortOnly unknownCtx.world.input.sched := fun _ => ⟨0, rfl⟩
  have hlen : unknownBytes.length ≤ 65535 := by decide
  have hnone : fitting unknownCtx portWorker [] (.tuple [.atom [113], .tuple []]) = none := rfl
  have hsurvives := hall unknownErl unknownCtx portWorker [] [] unknownBytes [] _ hstack hsched
    unknownCtx_pending hlen unknownErl_decode ?_
  · rw [survives_frame hstack hsched unknownCtx_pending hlen unknownErl_decode,
      TakenHarmless, if_pos (by decide)] at hsurvives
    obtain ⟨name, term, more, -, -, q, hq, -⟩ := hsurvives
    rw [hnone] at hq
    cases hq
  · intro h
    obtain ⟨name, term, heq, -, send, hsend, -⟩ := h
    cases heq
    cases hsend

end Erlm
