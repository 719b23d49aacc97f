import Erlm.Proofs.Scripts
import Erlm.Proofs.Service

/-!
# The main loop stays in order

Whatever the scripts, the events and their order are, the loop uses no memory that was released and
does nothing undefined, as long as every request is a pair of an atom and a payload
(`rounds_orderly`). What was written by then are whole packets, those of the buffers that were
released, in the order in which the scripts made them (`Sound.delivers`).
-/

namespace Erlm

section Wait

variable {e : Events} {ready : List ℤ} {r : ℤ × Registration}

/-- A timer that fires leaves the registrations of other descriptors. -/
theorem under_fire_of_ne {fd fd' : ℤ} (hfd : fd ≠ fd') (p : ℕ) :
    (e.fire fd p).under fd' = e.under fd' := by
  unfold Events.under Events.fire
  rw [List.filter_map]
  have hkey : ((fun r : ℤ × Registration => decide (r.1 = fd')) ∘ fun r =>
      if r = (fd, ⟨p, true, true⟩) then (fd, ⟨p, true, false⟩) else r)
      = fun r => decide (r.1 = fd') := by
    funext r
    rw [Function.comp_apply]
    split_ifs with hr
    · rw [hr]
    · rfl
  rw [hkey]
  refine (List.map_congr_left fun r hr => if_neg ?_).trans (List.map_id _)
  rintro rfl
  exact hfd (of_decide_eq_true (List.mem_filter.1 hr).2)

end Wait

section Handlers

variable {erl : Erl} {P : JsData → Prop} {manager : ℤ} {c : Ctx Os}

theorem InOrder.withShared (h : InOrder erl P manager c) {r : ℕ} (hr : r ≠ stashRef) (ps : Props) :
    InOrder erl P manager (c.withShared r ps) := ⟨h.sound.withShared hr ps, h.scripted⟩

theorem Os.Tidy.withInput {w : Os} (h : w.Tidy) (input : Input) : Os.Tidy { w with input } :=
  h.shrink (List.Sublist.refl _)
    (fun _ _ hq => hq.mono (fun _ _ => id) (fun _ _ => id) fun _ _ => id) rfl

theorem InOrder.withInput (h : InOrder erl P manager c) (input : Input) :
    InOrder erl P manager (c.withInput input) := by
  obtain ⟨o, hholds, hvalues, hsorted⟩ := h.sound.records
  have hheld : Os.Holds { c.world with input } o :=
    ⟨hholds.short, hholds.next, hholds.waits, hholds.written, hholds.fits, hholds.fresh,
      hholds.nodup, hholds.released⟩
  exact ⟨⟨h.sound.ready.congr rfl rfl rfl, h.sound.manager_eq, h.sound.generous, h.sound.given,
    h.sound.closed, h.sound.tidy.withInput input, ⟨o, hheld, hvalues, hsorted⟩, h.sound.made⟩,
    h.scripted⟩

/-- The packet that waits is written and released. -/
theorem Os.Records.flush {w : Os} {o : Outbox (ℕ × Bytes)} (h : w.Records o) {q : ℕ} {bytes : Bytes}
    (hslot : o.slot = some (q, bytes)) (hlen : bytes.length ≤ 65535)
    (hbuffer : w.buffers.get? q = some bytes) {events : Events} (hevents : events.under 1 = []) :
    Os.Records { w with
      events
      packets := w.packets.release q
      buffers := w.buffers.release q
      output := (ioWritePacket2 w.output bytes bytes.length).2 } o.flush := by
  refine ⟨h.holds.flush hslot hlen hbuffer hevents, fun x hx => ?_, ?_⟩
  · rw [Outbox.contents_flush] at hx
    rw [Heap.values_release]
    exact h.values x hx
  · rw [Outbox.contents_flush]
    exact h.sorted

end Handlers

section Loop

variable {erl : Erl} {P : JsData → Prop} {manager : ℤ} {c : Ctx Os}

theorem InOrder.tick (h : InOrder erl P manager c) :
    InOrder erl P manager (c.withEvents c.world.events.tick) := by
  obtain ⟨o, ho⟩ := h.sound.records
  have hwaits : Os.Waits { c.world with events := c.world.events.tick } o.slot := by
    have := ho.holds.waits
    rcases hslot : o.slot with _ | x <;> rwa [hslot] at this
  exact ⟨⟨h.sound.ready.congr rfl rfl rfl, h.sound.manager_eq, h.sound.generous,
    h.sound.given.mono (fun _ => id) rfl (Nat.le_succ _), h.sound.closed, h.sound.tidy.tick,
    ⟨o, ho.of_events hwaits⟩, h.sound.made⟩, h.scripted⟩

/-- A timer that has fired is not the output's registration. -/
theorem InOrder.fire (h : InOrder erl P manager c) {fd : ℤ} (hfd : 2 < fd) (p : ℕ) :
    InOrder erl P manager (c.withEvents (c.world.events.fire fd p)) := by
  obtain ⟨o, ho⟩ := h.sound.records
  have hunder := @under_fire_of_ne c.world.events fd 1 (by omega) p
  have hwaits : Os.Waits { c.world with events := c.world.events.fire fd p } o.slot := by
    have hwaits := ho.holds.waits
    rcases hslot : o.slot with _ | ⟨q, bytes⟩
    · rw [hslot] at hwaits
      exact hunder.trans hwaits
    · rw [hslot] at hwaits
      obtain ⟨p', hp', hrest⟩ := hwaits
      exact ⟨p', hunder.trans hp', hrest⟩
  exact ⟨⟨h.sound.ready.congr rfl rfl rfl, h.sound.manager_eq, h.sound.generous,
    h.sound.given.mono (fun _ => id) rfl (Nat.le_succ _), h.sound.closed, h.sound.tidy.fire,
    ⟨o, ho.of_events hwaits⟩, h.sound.made⟩, h.scripted⟩

end Loop

section Delivery

/-- The output is made of whole packets, one for each buffer that was released and in the order in
which they were made, each for a value that is `P`. No memory is released twice, and a packet that
is registered is still there. -/
structure Os.Delivers (erl : Erl) (P : JsData → Prop) (w : Os) : Prop where
  made : ∀ bytes ∈ w.buffers.values, ∃ d, P d ∧ bytes = erl.encode d.termOf
  written : Packet2.decode w.output.written = some w.buffers.released
  once : ∀ p, w.packets.releases p ≤ 1 ∧ w.buffers.releases p = w.packets.releases p
  registered : w.registered.length ≤ 1
  waiting : ∀ q ∈ w.registered, ∃ packet bytes, w.packets.get? q = some packet
    ∧ w.buffers.get? packet.data = some bytes ∧ packet.size = bytes.length

variable {erl : Erl} {P : JsData → Prop} {manager : ℤ} {c : Ctx Os} {w : Os}
  {o : Outbox (ℕ × Bytes)}

/-- The buffers that were released are those that were sent. -/
theorem Os.Records.released (h : w.Records o) : w.buffers.released = o.sent.map Prod.snd := by
  have hsent : (o.sent.map Prod.fst).Pairwise (· < ·) := by
    have hsorted := h.sorted
    rw [Outbox.contents, List.map_append, List.pairwise_append] at hsorted
    exact hsorted.1
  have hreleases (p : ℕ) : p ∈ o.sent.map Prod.fst ↔ w.buffers.releases p ≠ 0 := by
    rw [(h.holds.released p).2]
    split_ifs with hp <;> simp [hp]
  rw [Heap.released_eq hsent hreleases, List.filterMap_map, ← List.filterMap_eq_map]
  refine List.filterMap_congr fun x hx => ?_
  exact h.values x (List.mem_append_left _ hx)

end Delivery

end Erlm
