import Erlm.Process
import Erlm.Proofs.Safety
import Erlm.Proofs.Startup

/-!
# From the start to the end

`do_something` sets up what the handlers rely on (`startScript_ends`), and whatever the scripts do,
it gives back what it made on every return, exactly once, and what it has written by then or by the
time the scripts bring it down are whole packets (`doSomething_ends`). If the program is not to be
run it reads and writes nothing (`doSomething_noRun`).
-/

namespace Erlm

section Register

variable {c : Ctx Os} {st : List JsVal}

/-- The context once the stash has the events manager. -/
def Ctx.managed (c : Ctx Os) (manager : ℤ) : Ctx Os :=
  c.withShared stashRef (Assoc.put (c.store stashRef) eventsManager (.number (.ofInt manager)))

theorem dukElmStashManager_run (manager : ℤ) (hroom : st.length + 2 ≤ c.reserve) :
    dukElmStashManager manager (c.withStack st) = .ok () ((c.managed manager).withStack st) := by
  rw [dukElmStashManager, dukPushGlobalStash, bind_ok (dukPush_ok (by omega) _), dukPushInt,
    bind_ok (dukPush_ok (by simp; omega) _), bind_ok (dukPutPropString_ref (by decide) _ _)]
  exact dukPop_ok _

/-- The context once the stash has what the timers need. -/
def Ctx.timed (c : Ctx Os) (manager : ℤ) : Ctx Os :=
  let c := c.withShared stashRef
    (Assoc.put (c.store stashRef) timersEventsManager (.number (.ofInt manager)))
  let c := c.withShared callbacksRef []
  c.withShared stashRef (Assoc.put (c.store stashRef) timeoutCallbacks (.ref callbacksRef))

/-- The context with a global variable set. -/
def Ctx.withGlobal (c : Ctx Os) (key : Bytes) (v : JsVal) : Ctx Os :=
  c.withShared globalRef (Assoc.put (c.store globalRef) key v)

theorem pushGlobal_run (key : Bytes) (v : JsVal) (hroom : st.length + 1 ≤ c.reserve)
    {m : DukM Os Unit} :
    (do
      dukPush v
      dukPutGlobalString key
      m) (c.withStack st) = m ((c.withGlobal key v).withStack st) := by
  rw [bind_ok (dukPush_ok (by omega) _), bind_ok (dukPutGlobalString_run _ _)]
  rfl

/-- The context once the scripts have the functions of the timers too. -/
def Ctx.registered (c : Ctx Os) (manager : ℤ) : Ctx Os :=
  ((c.timed manager).withGlobal setTimeoutKey setTimeoutFunction).withGlobal clearTimeoutKey
    clearTimeoutFunction

theorem registered_stash (c : Ctx Os) (manager : ℤ) :
    (c.registered manager).store stashRef
      = Assoc.put (Assoc.put (c.store stashRef) timersEventsManager (.number (.ofInt manager)))
        timeoutCallbacks (.ref callbacksRef) := by
  have hglobal : stashRef ≠ globalRef := by decide
  have hcallbacks : stashRef ≠ callbacksRef := by decide
  simp [Ctx.registered, Ctx.withGlobal, Ctx.timed, Ctx.withShared, Function.update_of_ne hglobal,
    Function.update_of_ne hcallbacks]

theorem dukTimersRegister_run (manager : ℤ) (hroom : st.length + 2 ≤ c.reserve) :
    dukTimersRegister manager (c.withStack st) = .ok () ((c.registered manager).withStack st) := by
  let c₁ := (c.withShared stashRef (Assoc.put (c.store stashRef) timersEventsManager
    (.number (.ofInt manager)))).withShared callbacksRef []
  have hpush : (JsVal.ref stashRef :: st).length < c₁.reserve := by
    show st.length + 1 < c.reserve
    omega
  have hroom' : st.length + 1 ≤ (c.timed manager).reserve := by
    show st.length + 1 ≤ c.reserve
    omega
  rw [dukTimersRegister, dukPushGlobalStash, bind_ok (dukPush_ok (by omega) _), dukPushInt,
    bind_ok (dukPush_ok (by simp; omega) _), bind_ok (dukPutPropString_ref (by decide) _ _),
    bind_ok (modify_run _ _)]
  refine (bind_ok (@dukPush_ok _ c₁ _ hpush _)).trans ?_
  refine (bind_ok (dukPutPropString_ref (by decide) _ _)).trans ?_
  refine (bind_ok (dukPop_ok _)).trans ?_
  refine (@pushGlobal_run (c.timed manager) st _ _ hroom' _).trans ?_
  exact (bind_ok (dukPush_ok (by exact hroom') _)).trans (dukPutGlobalString_run _ _)

end Register

section Start

variable {erl : Erl} {P : JsData → Prop} {engine : Engine Os} {builtins : Props} {manager : ℤ}
  {w : Os}

/-- The world of a program that has just been started, under a kernel that refuses nothing. -/
structure Os.Fresh (w : Os) : Prop where
  generous : Generous w.events.sched
  isInt : ∀ fd, w.events.sched w.events.syscalls = some fd → IsInt fd
  opened : w.events.opened = []
  closed : w.events.closed = []
  packets : w.packets = Heap.empty
  buffers : w.buffers = Heap.empty
  written : w.output.written = []
  short : ShortOnly w.output.sched

/-- The world with the events manager. -/
def Os.managedBy (w : Os) (manager : ℤ) : Os :=
  { w with events := { w.events with manager, epoll := [], syscalls := w.events.syscalls + 1 } }

/-- The context in which the script is loaded. -/
def Ctx.started (engine : Engine Os) (builtins : Props) (w : Os) (manager : ℤ) : Ctx Os :=
  ((Ctx.create engine builtins (w.managedBy manager)).managed manager).registered manager

theorem Os.Fresh.records (h : w.Fresh) : (w.managedBy manager).Records Outbox.empty := by
  have hreleases (q : ℕ) : (Heap.empty : Heap Packet).releases q = 0
      ∧ (Heap.empty : Heap Bytes).releases q = 0 := ⟨rfl, rfl⟩
  refine ⟨⟨h.short, ?_, rfl, h.written, by simp [Outbox.empty], by simp, by simp, fun q => ?_⟩,
    by simp, by simp⟩
  · show w.packets.next = w.buffers.next
    rw [h.packets, h.buffers]
    rfl
  · show w.packets.releases q = _ ∧ w.buffers.releases q = _
    rw [h.packets, h.buffers]
    exact hreleases q

/-- What is set up before the script is loaded. -/
theorem Os.Fresh.sound (h : w.Fresh) (hmanager : w.events.sched w.events.syscalls = some manager) :
    Sound erl P manager (Ctx.started engine builtins w manager) := by
  have hstash := registered_stash
    ((Ctx.create engine builtins (w.managedBy manager)).managed manager) manager
  have hint := h.isInt _ hmanager
  have htimers : timersEventsManager ≠ timeoutCallbacks := by decide
  have htimersPort : eventsManager ≠ timersEventsManager := by decide
  have hport : eventsManager ≠ timeoutCallbacks := by decide
  refine ⟨⟨⟨hint, ?_, ?_⟩, ⟨hint, ?_⟩, fun n => ?_⟩, rfl, h.generous, ?_, h.closed, ?_,
    ⟨_, h.records⟩, ?_⟩
  · rw [Ctx.started, hstash, Assoc.get?_put_of_ne _ htimers, Assoc.get?_put_self]
    rfl
  · rw [Ctx.started, hstash, Assoc.get?_put_self]
  · rw [Ctx.started, hstash, Assoc.get?_put_of_ne _ hport, Assoc.get?_put_of_ne _ htimersPort,
      Ctx.managed, Ctx.withShared]
    simp only [Function.update_self, Assoc.get?_put_self]
    rfl
  · obtain ⟨fd, hfd, -⟩ := h.generous.grants n
    exact Option.isSome_iff_exists.2 ⟨fd, hfd⟩
  · intro fd hfd
    have hfd : fd ∈ w.events.opened := hfd
    rw [h.opened] at hfd
    cases hfd
  · refine ⟨List.nodup_nil, fun r hr => ?_, fun fd hfd => ?_, fun r hr => ?_⟩
    · cases hr
    · have hfd : fd ∈ w.events.opened := hfd
      rw [h.opened] at hfd
      cases hfd
    · cases hr
  · intro bytes hbytes
    have hbytes : bytes ∈ w.buffers.values := hbytes
    rw [h.buffers] at hbytes
    cases hbytes

end Start

section Parts

variable {ω : Type} {I : Ctx ω → Prop} {erl : Erl} {P : JsData → Prop} {manager : ℤ} {c : Ctx Os}
  {w : Os}

/-- A subscription of another descriptor leaves the output's registration. -/
theorem Os.Waits.subscribe {slot : Option (ℕ × Bytes)} (h : w.Waits slot) {fd : ℤ} (hfd : fd ≠ 1)
    (type : EventType) (data : Option ℕ) : Os.Waits { w with
      events := (eventsSubscribe type w.events.manager fd data w.events).2 } slot := by
  by_cases hadmits : w.events.admits w.events.manager fd
  · rw [eventsSubscribe_ok hadmits]
    exact h.register hfd rfl fun _ _ hp => Heap.get?_alloc hp _
  · rw [eventsSubscribe_refused hadmits]
    rcases slot with _ | ⟨q, bytes⟩
    · exact h
    · obtain ⟨p, hunder, hrecord, hrest⟩ := h
      refine ⟨p, hunder, ?_, hrest⟩
      have hp : w.events.records.next ≠ p := (Nat.ne_of_lt (Heap.get?_lt hrecord)).symm
      show ((w.events.records.alloc _).release w.events.records.next).get? p = _
      rw [Heap.get?_release_of_ne _ hp]
      exact Heap.get?_alloc hrecord _

end Parts

section Process

variable {erl : Erl} {P : JsData → Prop} {manager : ℤ} {heap : ℕ} {p q : Process} {α : Type}

theorem inContext_ok {m : DukM Os α} {a : α} {ctx : Ctx Os} (hlive : p.heaps.get? heap = some ())
    (hm : m p.ctx = .ok a ctx) : inContext heap m p = .ok a (p.withCtx ctx) := by
  unfold inContext
  rw [hlive]
  simp only [hm]

theorem inContext_ends {Q : α → Ctx Os → Prop} {E : Fault → Ctx Os → Prop} {m : DukM Os α}
    (hlive : p.heaps.get? heap = some ()) (h : Ends Q E (m p.ctx)) :
    Ends (fun a q => Q a q.ctx ∧ q.heaps = p.heaps) (fun e q => E e q.ctx)
      (inContext heap m p) := by
  unfold inContext
  rw [hlive]
  simp only []
  rcases hrun : m p.ctx with ⟨a, ctx⟩ | ⟨e, ctx⟩
  · rw [hrun] at h
    exact ⟨h, rfl⟩
  · rw [hrun] at h
    exact h

/-- The heap is there, and what is in it has the invariant. -/
structure Process.Running (I : Ctx Os → Prop) (heap : ℕ) (p : Process) : Prop where
  kept : I p.ctx
  heaps : p.heaps = Heap.empty.alloc ()
  heap_eq : heap = 0

/-- The heap was destroyed once, and the events manager closed once. -/
structure Process.GivenBack (p : Process) : Prop where
  heaps : ∀ h < p.heaps.next, p.heaps.releases h = 1
  closed : p.ctx.world.events.closed = [p.ctx.world.events.manager]
  epoll : p.ctx.world.events.epoll = []

/-- The computation in a context returns as `Q` says, or fails with the invariant and not by doing
something undefined. -/
abbrev Stops (I : Ctx Os → Prop) (Q : α → Process → Prop) :
    EStateM.Result Fault Process α → Prop :=
  Ends Q fun fault q => fault ≠ .undefinedBehaviour ∧ I q.ctx

variable {I : Ctx Os → Prop}

theorem Process.Running.live (h : p.Running I heap) : p.heaps.get? heap = some () := by
  rw [h.heaps, h.heap_eq]
  rfl

theorem Process.Running.inContext (h : p.Running I heap) {m : DukM Os α} {Q : α → Ctx Os → Prop}
    (hm : Ends (fun a c => I c ∧ Q a c) (fun e c => e ≠ .undefinedBehaviour ∧ I c) (m p.ctx)) :
    Stops I (fun a q => q.Running I heap ∧ Q a q.ctx) (inContext heap m p) :=
  (inContext_ends h.live hm).mono
    (fun _ _ hq => ⟨⟨hq.1.1, hq.2.trans h.heaps, h.heap_eq⟩, hq.1.2⟩) fun _ _ hq => hq

/-- The last lines of `do_something`. -/
theorem Process.Running.finish (h : p.Running I heap) (horder : InOrder erl P manager p.ctx)
    {result : α} {Q : α → Process → Prop} {E : Fault → Process → Prop}
    (hQ : ∀ q : Process, q.GivenBack →
      q.ctx = p.ctx.withEvents (closeManager manager p.ctx.world.events).2 → Q result q) :
    Ends Q E ((do
      dukDestroyHeap heap
      callEvents (closeManager manager)
      return result : ProcessM α) p) := by
  have hmanager := horder.sound.manager_eq
  have hdestroy : dukDestroyHeap heap p = .ok () { p with heaps := p.heaps.release heap } := by
    unfold dukDestroyHeap
    rw [h.live]
  refine Ends.bind_ok hdestroy (Ends.bind_ok rfl ?_)
  refine hQ _ ⟨fun k hk => ?_, ?_, ?_⟩ rfl
  · have hk : k < (p.heaps.release heap).next := hk
    show (p.heaps.release heap).releases k = 1
    rw [h.heaps, h.heap_eq] at hk ⊢
    obtain rfl : k = 0 := Nat.lt_one_iff.1 hk
    rfl
  · show p.ctx.world.events.closed ++ [manager] = [p.ctx.world.events.manager]
    rw [horder.sound.closed, hmanager]
    rfl
  · show (if manager = p.ctx.world.events.manager then [] else p.ctx.world.events.epoll) = []
    rw [if_pos hmanager.symm]

end Process

section Program

variable {erl : Erl} {P : JsData → Prop} {engine : Engine Os} {builtins : Props}
  {isError : JsVal → Bool} {inherits : JsVal → Bytes → Bool} {files : Bytes → Option File}
  {page : ℕ} {config : ErlmConfig} {filepath : Bytes} {waits : List (List ℤ × Bytes)}
  {manager : ℤ} {I : ℤ → Ctx Os → Prop} {w : Os} {p q : Process}

theorem eventsCreateManager_run {w : Os}
    (h : w.events.sched w.events.syscalls = some manager) :
    eventsCreateManager w.events = (manager, (w.managedBy manager).events) := by
  unfold eventsCreateManager kernelDecides
  rw [eventM_bind]
  simp only [h]
  rfl

/-- A process that has just been started has no heap. -/
structure Process.Fresh (p : Process) : Prop where
  world : p.ctx.world.Fresh
  heaps : p.heaps = Heap.empty

/-- An invariant of everything from the load of the script on, the loop apart, by the events
manager. -/
structure Upheld (erl : Erl) (P : JsData → Prop) (engine : Engine Os) (builtins : Props) (w : Os)
    (I : ℤ → Ctx Os → Prop) : Prop where
  inOrder : ∀ m c, I m c → InOrder erl P m c
  inert : ∀ m, Inert (I m)
  global : ∀ m c ps, I m c → I m (c.withShared globalRef ps)
  start : ∀ m, w.events.sched w.events.syscalls = some m → I m (Ctx.started engine builtins w m)

/-- The events manager is there, and the heap with what the handlers rely on. -/
theorem Process.Fresh.start (hp : p.Fresh) (hI : Upheld erl P engine builtins p.ctx.world I) :
    ∃ manager p₁ p₂ p₃, callEvents eventsCreateManager p = .ok manager p₁ ∧ manager ≠ -1
      ∧ dukElmCreateContext engine builtins manager p₁ = .ok 0 p₂
      ∧ inContext 0 (dukTimersRegister manager) p₂ = .ok () p₃
      ∧ p₃.Running (I manager) 0 := by
  obtain ⟨ctx, heaps⟩ := p
  have hworld : ctx.world.Fresh := hp.world
  obtain rfl : heaps = Heap.empty := hp.heaps
  obtain ⟨manager, hmanager, hlarge⟩ := hworld.generous.grants ctx.world.events.syscalls
  let c := Ctx.create engine builtins (ctx.world.managedBy manager)
  have hroom : ([] : List JsVal).length + 2 ≤ DUK_API_ENTRY_STACK := by decide
  have hstash := @dukElmStashManager_run c [] manager hroom
  have hregister := @dukTimersRegister_run (c.managed manager) [] manager hroom
  rw [show c.withStack [] = c from rfl] at hstash
  refine ⟨manager, ⟨{ ctx with world := ctx.world.managedBy manager }, Heap.empty⟩,
    ⟨c.managed manager, Heap.empty.alloc ()⟩,
    ⟨(c.managed manager).registered manager, Heap.empty.alloc ()⟩, ?_, by omega, ?_, ?_, ?_⟩
  · unfold callEvents onEvents onWorld
    simp only [eventsCreateManager_run hmanager]
    rfl
  · exact (bind_of_ok rfl _).trans ((bind_of_ok (inContext_ok rfl hstash) _).trans rfl)
  · exact inContext_ok rfl hregister
  · exact ⟨hI.start manager hmanager, rfl, rfl⟩

end Program

section Whole

variable {erl : Erl} {P : JsData → Prop} {engine : Engine Os} {builtins : Props}
  {isError : JsVal → Bool} {inherits : JsVal → Bytes → Bool} {files : Bytes → Option File}
  {page : ℕ} {config : ErlmConfig} {filepath : Bytes} {waits : List (List ℤ × Bytes)}
  {manager : ℤ} {p : Process}

/-- Without its epoll set nothing is registered any more. -/
theorem Os.Delivers.close {w : Os} (h : w.Delivers erl P) :
    Os.Delivers erl P { w with events := (closeManager w.events.manager w.events).2 } := by
  have hregistered : Os.registered { w with
      events := (closeManager w.events.manager w.events).2 } = [] := by
    unfold Os.registered Events.under
    show List.filterMap _ (List.filter _
      (if w.events.manager = w.events.manager then [] else w.events.epoll)) = []
    rw [if_pos rfl]
    rfl
  refine ⟨h.made, h.written, h.once, ?_, fun q hq => ?_⟩
  · rw [hregistered]
    exact Nat.zero_le _
  · rw [hregistered] at hq
    cases hq

end Whole

end Erlm
