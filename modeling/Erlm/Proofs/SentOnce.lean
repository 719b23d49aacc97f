import Erlm.Lib.Mailbox
import Erlm.Proofs.Stale

/-!
# Events are sent once

On Linux the epoll set is a mailbox: a custom event or a timer that was sent is waiting in the set
or was handed out by a wait, never both and never twice (`sentOnce`). For that callers leave the
layer's descriptors alone and unsubscribe an event once.
-/

namespace Erlm

open Mailbox (Accounts)
open scoped List

section Accounts

/-- An event that was sent, not one of a subscription. -/
def Event.isSent (event : Event) : Bool := event.type = .custom || event.type = .timer

/-- Whether an event was sent and is still to be reported. -/
def Registration.isPending (r : Registration) : Bool := r.oneshot && r.armed

/-- The events that were sent, of those that were created. -/
def postedOf (created : List (ℕ × Event)) : List ℕ :=
  (created.filter fun c => c.2.isSent).map Prod.fst

/-- The events that were sent, of those that waits returned. -/
def takenOf (waited : List (ℕ × Option Event)) : List ℕ :=
  (waited.filter fun w => w.2.any Event.isSent).map Prod.fst

/-- The events that were sent and wait in the epoll set. -/
def Events.pending (e : Events) : List ℕ :=
  (e.epoll.filter fun r => r.2.isPending).map fun r => r.2.event

theorem postedOf_concat (created : List (ℕ × Event)) (p : ℕ) (event : Event) :
    postedOf (created ++ [(p, event)])
      = postedOf created ++ if event.isSent = true then [p] else [] := by
  unfold postedOf
  rw [List.filter_append, List.map_append]
  congr 1
  by_cases hsent : event.isSent = true <;> simp [hsent]

theorem notMem_postedOf {created : List (ℕ × Event)} {n : ℕ}
    (h : ∀ p ∈ created.map Prod.fst, p < n) : n ∉ postedOf created := by
  intro hmem
  obtain ⟨c, hc, rfl⟩ := List.mem_map.1 hmem
  exact lt_irrefl _ (h c.1 (List.mem_map_of_mem (List.mem_filter.1 hc).1))

/-- Where waits return what was created, a sent event that one returned is among those taken. -/
theorem mem_takenOf {created : List (ℕ × Event)} {waited : List (ℕ × Option Event)} {p : ℕ}
    {event : Event} (hdistinct : (created.map Prod.fst).Nodup)
    (hwas : ∀ q content, (q, content) ∈ waited →
      ∃ event, content = some event ∧ (q, event) ∈ created)
    (hp : p ∈ waited.map Prod.fst) (hcreated : (p, event) ∈ created)
    (hsent : event.isSent = true) : p ∈ takenOf waited := by
  obtain ⟨⟨q, content⟩, hq, rfl⟩ := List.mem_map.1 hp
  obtain ⟨event', rfl, hcreated'⟩ := hwas q content hq
  obtain rfl := (Prod.mk.inj (List.inj_on_of_nodup_map hdistinct hcreated hcreated' rfl)).2
  exact List.mem_map.2 ⟨_, List.mem_filter.2 ⟨hq, hsent⟩, rfl⟩

theorem takenOf_append (waited : List (ℕ × Option Event)) (ps : List ℕ)
    (content : ℕ → Option Event) :
    takenOf (waited ++ ps.map fun p => (p, content p))
      = takenOf waited ++ ps.filter fun p => (content p).any Event.isSent := by
  unfold takenOf
  rw [List.filter_append, List.map_append, List.filter_map, List.map_map]
  congr 1
  exact List.map_id _

/-- Further, the kernel gives descriptors that are not open, those that callers subscribe to and
close are their own, and they unsubscribe an event once. -/
def EventCall.Careful : EventCall → Session → Prop
  | .sendCustom _, s => ∃ fd, s.events.sends fd 2 ∧ fd ∉ s.events.opened
  | .sendTimeout timeout _, s =>
    ∃ fd, s.events.sends fd (if timeout ≤ 0 then 2 else 3) ∧ fd ∉ s.events.opened
  | .subscribeRead fd _, s => fd ∉ s.events.opened
  | .subscribeWrite fd _, s => fd ∉ s.events.opened
  | .unsubscribe p, s => s.Holds p ∧ p ∉ s.unsubscribed
  | .close fd, s => s.events.under fd = [] ∧ fd ∉ s.events.opened
  | call, s => call.Ok s

theorem EventCall.Careful.ok {call : EventCall} {s : Session} (h : call.Careful s) : call.Ok s := by
  cases call with
  | sendCustom data =>
    obtain ⟨fd, hsends, -⟩ := h
    exact ⟨fd, hsends⟩
  | sendTimeout timeout data =>
    obtain ⟨fd, hsends, -⟩ := h
    exact ⟨fd, hsends⟩
  | subscribeRead | subscribeWrite => trivial
  | unsubscribe p => exact h.1
  | wait => trivial
  | free p => exact h
  | close fd => exact h.1

end Accounts

section Invariant

/-- A descriptor of the layer belongs to an event that was sent and not freed. -/
def Session.Owner (s : Session) (p : ℕ) (fd : ℤ) : Prop :=
  ∃ event, (p, event) ∈ s.created ∧ event.isSent = true ∧ event.id = fd ∧ p ∉ s.freed

/-- A caller holds the event of a subscription that still stands. -/
def Session.Subscriber (s : Session) (p : ℕ) (fd : ℤ) : Prop :=
  ∃ event, (p, event) ∈ s.created ∧ event.isSent = false ∧ event.id = fd
    ∧ p ∈ s.waited.map Prod.fst ∧ p ∉ s.unsubscribed

/-- The epoll set is a mailbox, and what a caller unsubscribes, frees or closes is its own. -/
structure Session.Kept (s : Session) : Prop where
  accounts : Accounts (postedOf s.created) s.events.pending (takenOf s.waited)
  keys : (s.events.epoll.map Prod.fst).Nodup
  kinds : ∀ fd r event, (fd, r) ∈ s.events.epoll → (r.event, event) ∈ s.created →
    r.oneshot = event.isSent
  owned : ∀ p fd, s.Owner p fd → fd ∈ s.events.opened ∧ ∀ r, (fd, r) ∈ s.events.epoll → r.event = p
  apart : ∀ p q fd, s.Owner p fd → s.Owner q fd → p = q
  listed : ∀ p fd, s.Subscriber p fd → ∃ r, (fd, r) ∈ s.events.epoll ∧ r.event = p

variable {s : Session} {p : ℕ} {fd : ℤ} {event : Event} {e : Events}

theorem start_kept (manager : ℤ) (sched : ℕ → Option ℤ) : (Session.start manager sched).Kept := by
  refine ⟨Mailbox.accounts_nil, List.nodup_nil, fun _ _ _ h => ?_, fun p fd h => ?_,
    fun p q fd h => ?_, fun p fd h => ?_⟩
  · cases h
  · obtain ⟨event, hcreated, -⟩ := h
    cases hcreated
  · obtain ⟨event, hcreated, -⟩ := h
    cases hcreated
  · obtain ⟨event, hcreated, -⟩ := h
    cases hcreated

theorem Session.Inv.created_lt (h : s.Inv) (hp : (p, event) ∈ s.created) :
    p < s.events.records.next :=
  h.bounded p (List.mem_map_of_mem hp)

theorem Session.Inv.unique (h : s.Inv) {event' : Event} (hp : (p, event) ∈ s.created)
    (hp' : (p, event') ∈ s.created) : event = event' :=
  (Prod.mk.inj (List.inj_on_of_nodup_map h.noStale.distinct hp hp' rfl)).2

theorem Owner.of_create {new : Event} (h : (s.create new e).Owner p fd) :
    s.Owner p fd ∨ p = s.events.records.next ∧ fd = new.id ∧ new.isSent = true := by
  obtain ⟨event, hcreated, hsent, hid, hfreed⟩ := h
  rcases List.mem_append.1 hcreated with hcreated | hcreated
  · exact Or.inl ⟨event, hcreated, hsent, hid, hfreed⟩
  · obtain ⟨rfl, rfl⟩ := Prod.mk.inj (List.mem_singleton.1 hcreated)
    exact Or.inr ⟨rfl, hid.symm, hsent⟩

/-- A call makes a record. It registers it if its event is sent, and may do so if it is that of a
subscription, under a descriptor that has no registration. -/
structure Session.Creates (s : Session) (event : Event) (e : Events)
    (new : List (ℤ × Registration)) : Prop where
  epoll : e.epoll = s.events.epoll ++ new
  adds : new = [] ∧ event.isSent = false
    ∨ new = [(event.id, ⟨s.events.records.next, event.isSent, true⟩)]
      ∧ s.events.under event.id = []
  opened : ∀ fd ∈ s.events.opened, fd ∈ e.opened
  owns : event.isSent = true → event.id ∈ e.opened
  fresh : event.id ∉ s.events.opened

variable {new : List (ℤ × Registration)} {r : Registration}

theorem Session.Creates.mem (hc : s.Creates event e new) (hr : (fd, r) ∈ e.epoll) :
    (fd, r) ∈ s.events.epoll ∨ fd = event.id
      ∧ r = ⟨s.events.records.next, event.isSent, true⟩ ∧ s.events.under event.id = [] := by
  rw [hc.epoll] at hr
  rcases List.mem_append.1 hr with hr | hr
  · exact Or.inl hr
  · rcases hc.adds with ⟨rfl, -⟩ | ⟨rfl, hunder⟩
    · cases hr
    · obtain ⟨rfl, rfl⟩ := Prod.mk.inj (List.mem_singleton.1 hr)
      exact Or.inr ⟨rfl, rfl, hunder⟩

theorem Session.Creates.pending (hc : s.Creates event e new) :
    e.pending = s.events.pending
      ++ if event.isSent = true then [s.events.records.next] else [] := by
  unfold Events.pending
  rw [hc.epoll, List.filter_append, List.map_append]
  congr 1
  rcases hc.adds with ⟨rfl, hsent⟩ | ⟨rfl, -⟩
  · rw [hsent]
    rfl
  · cases event.isSent <;> rfl

theorem Session.Kept.accounts_create (h : s.Kept) (hinv : s.Inv) (hc : s.Creates event e new) :
    Accounts (postedOf (s.create event e).created) e.pending (takenOf s.waited) := by
  have hcreated : (s.create event e).created
      = s.created ++ [(s.events.records.next, event)] := rfl
  rw [hcreated, postedOf_concat, hc.pending]
  split_ifs
  · exact h.accounts.post (notMem_postedOf hinv.bounded)
  · rw [List.append_nil, List.append_nil]
    exact h.accounts

theorem Session.Kept.keys_create (h : s.Kept) (hc : s.Creates event e new) :
    (e.epoll.map Prod.fst).Nodup := by
  rw [hc.epoll]
  rcases hc.adds with ⟨rfl, -⟩ | ⟨rfl, hunder⟩
  · rw [List.append_nil]
    exact h.keys
  · exact Assoc.nodup_keys_concat _ h.keys fun r hr => under_eq_nil.1 hunder r hr

theorem Session.Kept.kinds_create (h : s.Kept) (hinv : s.Inv) (hc : s.Creates event e new)
    {event' : Event} (hr : (fd, r) ∈ e.epoll)
    (hcreated : (r.event, event') ∈ (s.create event e).created) : r.oneshot = event'.isSent := by
  rcases hc.mem hr with hr | ⟨-, rfl, -⟩
  · rcases List.mem_append.1 hcreated with hcreated | hcreated
    · exact h.kinds fd r event' hr hcreated
    · obtain ⟨event, ⟨hold, -⟩, -⟩ := hinv.registered fd r hr
      rw [(Prod.mk.inj (List.mem_singleton.1 hcreated)).1] at hold
      exact absurd (hinv.created_lt hold) (lt_irrefl _)
  · rcases List.mem_append.1 hcreated with hcreated | hcreated
    · exact absurd (hinv.created_lt hcreated) (lt_irrefl _)
    · rw [(Prod.mk.inj (List.mem_singleton.1 hcreated)).2]

theorem Session.Kept.owned_create (h : s.Kept) (hc : s.Creates event e new)
    (howner : (s.create event e).Owner p fd) :
    fd ∈ e.opened ∧ ∀ r, (fd, r) ∈ e.epoll → r.event = p := by
  rcases Owner.of_create howner with hp | ⟨rfl, rfl, hsent⟩
  · obtain ⟨hopen, honly⟩ := h.owned p fd hp
    refine ⟨hc.opened fd hopen, fun r hr => ?_⟩
    rcases hc.mem hr with hr | ⟨rfl, -, -⟩
    · exact honly r hr
    · exact absurd hopen hc.fresh
  · refine ⟨hc.owns hsent, fun r hr => ?_⟩
    rcases hc.mem hr with hr | ⟨-, rfl, -⟩
    · rcases hc.adds with ⟨-, hnot⟩ | ⟨-, hunder⟩
      · exact Bool.noConfusion (hsent.symm.trans hnot)
      · exact absurd rfl (under_eq_nil.1 hunder _ hr)
    · rfl

theorem Session.Kept.apart_create (h : s.Kept) (hc : s.Creates event e new) {q : ℕ}
    (hp : (s.create event e).Owner p fd) (hq : (s.create event e).Owner q fd) : p = q := by
  rcases Owner.of_create hp with hp | ⟨rfl, rfl, -⟩
  · rcases Owner.of_create hq with hq | ⟨-, rfl, -⟩
    · exact h.apart p q fd hp hq
    · exact absurd (h.owned p _ hp).1 hc.fresh
  · rcases Owner.of_create hq with hq | ⟨rfl, -, -⟩
    · exact absurd (h.owned q _ hq).1 hc.fresh
    · rfl

theorem Session.Kept.listed_create (h : s.Kept) (hinv : s.Inv) (hc : s.Creates event e new)
    (hsub : (s.create event e).Subscriber p fd) : ∃ r, (fd, r) ∈ e.epoll ∧ r.event = p := by
  obtain ⟨event', hcreated, hsent, hfd, hwaited, hnot⟩ := hsub
  rcases List.mem_append.1 hcreated with hcreated | hcreated
  · obtain ⟨r, hr, hevent⟩ := h.listed p fd ⟨event', hcreated, hsent, hfd, hwaited, hnot⟩
    exact ⟨r, hc.epoll ▸ List.mem_append_left _ hr, hevent⟩
  · obtain ⟨⟨q, content⟩, hq, rfl⟩ := List.mem_map.1 hwaited
    obtain ⟨_, -, hwas⟩ := hinv.noStale.waited q content hq
    obtain rfl : q = _ := (Prod.mk.inj (List.mem_singleton.1 hcreated)).1
    exact absurd (hinv.created_lt hwas) (lt_irrefl _)

theorem Session.Kept.create (h : s.Kept) (hinv : s.Inv) (hc : s.Creates event e new) :
    (s.create event e).Kept where
  accounts := h.accounts_create hinv hc
  keys := h.keys_create hc
  kinds _ _ _ hr hcreated := h.kinds_create hinv hc hr hcreated
  owned _ _ howner := h.owned_create hc howner
  apart _ _ _ hp hq := h.apart_create hc hp hq
  listed _ _ hsub := h.listed_create hinv hc hsub

/-- Erasing registrations that are not pending keeps what is. -/
theorem pending_erase (hnot : ∀ r, (fd, r) ∈ e.epoll → r.isPending = false) :
    (e.epoll.filter fun r => r.2.isPending)
      = (Assoc.erase e.epoll fd).filter fun r => r.2.isPending := by
  unfold Assoc.erase
  rw [List.filter_filter]
  refine List.filter_congr fun r hr => ?_
  by_cases hfd : r.1 = fd
  · rw [hnot r.2 (hfd ▸ hr)]
    rfl
  · simp [hfd]

/-- An event that was handed out is not pending. -/
theorem Session.Kept.not_pending (h : s.Kept) (hp : p ∈ takenOf s.waited) :
    ∀ fd r, (fd, r) ∈ s.events.epoll → r.event = p → r.isPending = false := by
  intro fd r hr hevent
  by_contra hpending
  rw [Bool.not_eq_false] at hpending
  exact h.accounts.not_pending hp (List.mem_map.2 ⟨_, List.mem_filter.2 ⟨hr, hpending⟩, hevent⟩)

theorem Session.Kept.unique (h : s.Kept) {r r' : Registration} (hr : (fd, r) ∈ s.events.epoll)
    (hr' : (fd, r') ∈ s.events.epoll) : r = r' :=
  (Prod.mk.inj (List.inj_on_of_nodup_map h.keys hr hr' rfl)).2

/-- Registrations go, none of a pending event or of a subscription that stands. -/
theorem Session.Kept.shrink (h : s.Kept) {t : Session} (hcreated : t.created = s.created)
    (hwaited : t.waited = s.waited) (hepoll : t.events.epoll.Sublist s.events.epoll)
    (hpending : t.events.pending = s.events.pending)
    (howner : ∀ p fd, t.Owner p fd → s.Owner p fd ∧ fd ∈ t.events.opened)
    (hlisted : ∀ p fd, t.Subscriber p fd → ∃ r, (fd, r) ∈ t.events.epoll ∧ r.event = p) :
    t.Kept where
  accounts := by
    rw [hcreated, hwaited, hpending]
    exact h.accounts
  keys := h.keys.sublist (hepoll.map Prod.fst)
  kinds fd r event hr hp := h.kinds fd r event (hepoll.subset hr) (hcreated ▸ hp)
  owned p fd hp := by
    obtain ⟨hp, hopen⟩ := howner p fd hp
    exact ⟨hopen, fun r hr => (h.owned p fd hp).2 r (hepoll.subset hr)⟩
  apart p q fd hp hq := h.apart p q fd (howner p fd hp).1 (howner q fd hq).1
  listed := hlisted

/-- An event that is unsubscribed or closed has no other one under its descriptor. -/
theorem Session.Kept.alone (h : s.Kept) (hinv : s.Inv) (hp : s.Holds p)
    (hcreated : (p, event) ∈ s.created) (hnot : event.isSent = false → p ∉ s.unsubscribed) :
    ∀ r, (event.id, r) ∈ s.events.epoll → r.event = p ∧ r.isPending = false := by
  intro r hr
  cases hsent : event.isSent with
  | false =>
    obtain ⟨r', hr', rfl⟩ := h.listed p event.id ⟨event, hcreated, hsent, rfl, hp.1, hnot hsent⟩
    obtain rfl := h.unique hr hr'
    refine ⟨rfl, ?_⟩
    unfold Registration.isPending
    rw [h.kinds _ _ _ hr hcreated, hsent]
    rfl
  | true =>
    have hevent := (h.owned p event.id ⟨event, hcreated, hsent, rfl, hp.2⟩).2 r hr
    have htaken : p ∈ takenOf s.waited :=
      mem_takenOf hinv.noStale.distinct hinv.noStale.waited hp.1 hcreated hsent
    exact ⟨hevent, h.not_pending htaken _ r hr hevent⟩

theorem Session.Kept.unsubscribe (h : s.Kept) (hinv : s.Inv) (hp : s.Holds p)
    (hnot : p ∉ s.unsubscribed) :
    ∃ t, Session.step (.unsubscribe p) s = .ok t ∧ t.Kept := by
  obtain ⟨event, hcreated, hrecord⟩ := hinv.held p hp
  have halone := h.alone hinv hp hcreated fun _ => hnot
  refine ⟨_, step_unsubscribe hrecord, ?_⟩
  rw [eventsUnsubscribe_run rfl]
  refine h.shrink rfl rfl List.filter_sublist ?_ (fun q fd hq => ⟨hq, ?_⟩) fun q fd hq => ?_
  · unfold Events.pending
    rw [pending_erase fun r hr => (halone r hr).2]
  · exact (h.owned q fd hq).1
  · obtain ⟨event', hcreated', hsent, hid, hwaited, hunsubscribed⟩ := hq
    obtain ⟨hne, hunsubscribed⟩ := not_or.1 (fun hor => hunsubscribed (List.mem_cons.2 hor))
    obtain ⟨r, hr, hevent⟩ := h.listed q fd ⟨event', hcreated', hsent, hid, hwaited, hunsubscribed⟩
    refine ⟨r, List.mem_filter.2 ⟨hr, ?_⟩, hevent⟩
    rw [decide_eq_true_eq]
    rintro rfl
    exact hne (hevent.symm.trans (halone r hr).1)

theorem isSent_eq_true : event.isSent = true ↔ event.type = .custom ∨ event.type = .timer := by
  unfold Event.isSent
  simp

theorem eventsFree_sent (h : event.isSent = true) (p : ℕ) (e : Events) :
    eventsFree p event e = freeEvent p (closeFd event.id e).2 := by
  unfold eventsFree
  rw [if_pos (isSent_eq_true.1 h)]
  rfl

theorem eventsFree_subscribed (h : event.isSent = false) (p : ℕ) (e : Events) :
    eventsFree p event e = freeEvent p e := by
  unfold eventsFree
  rw [if_neg fun hor => Bool.noConfusion (h.symm.trans (isSent_eq_true.2 hor))]

theorem Session.Kept.free (h : s.Kept) (hinv : s.Inv) (hp : s.Holds p) :
    ∃ t, Session.step (.free p) s = .ok t ∧ t.Kept := by
  obtain ⟨event, hcreated, hrecord⟩ := hinv.held p hp
  refine ⟨_, step_free hrecord, ?_⟩
  cases hsent : event.isSent with
  | false =>
    rw [eventsFree_subscribed hsent]
    refine h.shrink rfl rfl (List.Sublist.refl _) rfl (fun q fd hq => ?_) fun q fd hq =>
      h.listed q fd hq
    obtain ⟨event', hcreated', hsent', hid, hfreed⟩ := hq
    have howner : s.Owner q fd :=
      ⟨event', hcreated', hsent', hid, fun hmem => hfreed (List.mem_cons_of_mem _ hmem)⟩
    exact ⟨howner, (h.owned q fd howner).1⟩
  | true =>
    have howned : s.Owner p event.id := ⟨event, hcreated, hsent, rfl, hp.2⟩
    have halone := h.alone hinv hp hcreated fun hnot => Bool.noConfusion (hsent.symm.trans hnot)
    rw [eventsFree_sent hsent]
    refine h.shrink rfl rfl List.filter_sublist ?_ (fun q fd hq => ?_) fun q fd hq => ?_
    · show ((Assoc.erase s.events.epoll event.id).filter _).map _ = _
      rw [← pending_erase fun r hr => (halone r hr).2]
      rfl
    · obtain ⟨event', hcreated', hsent', hid, hfreed⟩ := hq
      obtain ⟨hne, hfreed⟩ := not_or.1 (fun hor => hfreed (List.mem_cons.2 hor))
      have howner : s.Owner q fd := ⟨event', hcreated', hsent', hid, hfreed⟩
      refine ⟨howner, (List.mem_erase_of_ne ?_).2 (h.owned q fd howner).1⟩
      rintro rfl
      exact hne (h.apart q p _ howner howned)
    · obtain ⟨r, hr, hevent⟩ := h.listed q fd hq
      refine ⟨r, List.mem_filter.2 ⟨hr, ?_⟩, hevent⟩
      rw [decide_eq_true_eq]
      rintro rfl
      obtain ⟨event', hcreated', hsent', -⟩ := hq
      obtain rfl : q = p := hevent.symm.trans (halone r hr).1
      obtain rfl := hinv.unique hcreated hcreated'
      exact Bool.noConfusion (hsent.symm.trans hsent')

theorem Session.Kept.close (h : s.Kept) (hunder : s.events.under fd = [])
    (hfd : fd ∉ s.events.opened) :
    ∃ t, Session.step (.close fd) s = .ok t ∧ t.Kept := by
  refine ⟨_, rfl, ?_⟩
  have herase : Assoc.erase s.events.epoll fd = s.events.epoll :=
    Assoc.erase_of_get?_none (get?_epoll_eq_none.2 hunder)
  rw [herase, List.erase_of_not_mem hfd]
  exact h

end Invariant

section Wait

variable {s : Session} {epoll out : List (ℤ × Registration)}

theorem isPending_report (r : Registration) : r.report.isPending = false := by
  unfold Registration.report Registration.isPending
  split_ifs with h
  · simp
  · simp [h]

theorem filter_afterReport (epoll out : List (ℤ × Registration)) :
    ((afterReport epoll out).filter fun r => r.2.isPending)
      = (epoll.filter fun r => r.2.isPending).filter fun r => r ∉ out := by
  unfold afterReport
  induction epoll with
  | nil => rfl
  | cons r epoll ih =>
    rw [List.map_cons, List.filter_cons, List.filter_cons, ih]
    by_cases hr : r ∈ out
    · have hnot := isPending_report r.2
      cases hp : r.2.isPending <;> simp [hr, hnot]
    · cases hp : r.2.isPending <;> simp [hr, hp]

/-- What was pending is pending still, or was reported and is of an event that was sent. -/
theorem pending_perm (hdistinct : epoll.Nodup)
    (hout : out.Sublist (epoll.filter fun r => r.2.armed)) :
    (epoll.filter fun r => r.2.isPending)
      ~ ((afterReport epoll out).filter fun r => r.2.isPending)
        ++ out.filter fun r => r.2.oneshot := by
  have hreported : ((epoll.filter fun r => r.2.isPending).filter fun r => r ∈ out)
      ~ out.filter fun r => r.2.oneshot := by
    refine (List.perm_ext_iff_of_nodup ((hdistinct.filter _).filter _)
      (((hdistinct.filter _).sublist hout).filter _)).2 fun r => ?_
    have hmem : r ∈ out → r ∈ epoll ∧ r.2.armed = true :=
      fun hr => List.mem_filter.1 (hout.subset hr)
    simp only [List.mem_filter, decide_eq_true_eq, Registration.isPending, Bool.and_eq_true]
    constructor
    · rintro ⟨⟨-, honeshot, -⟩, hr⟩
      exact ⟨hr, honeshot⟩
    · rintro ⟨hr, honeshot⟩
      exact ⟨⟨(hmem hr).1, honeshot, (hmem hr).2⟩, hr⟩
  rw [filter_afterReport]
  calc (epoll.filter fun r => r.2.isPending)
      _ ~ ((epoll.filter fun r => r.2.isPending).filter fun r => r ∈ out)
          ++ (epoll.filter fun r => r.2.isPending).filter fun r => !decide (r ∈ out) :=
        (List.filter_append_perm _ _).symm
      _ ~ _ := List.perm_append_comm
      _ ~ _ := by
        simpa using hreported.append_left _

theorem report_kept (r : Registration) :
    r.report.event = r.event ∧ r.report.oneshot = r.oneshot := by
  unfold Registration.report
  split_ifs
  · exact ⟨rfl, rfl⟩
  · exact ⟨rfl, rfl⟩

theorem exists_of_mem_afterReport {fd : ℤ} {r : Registration}
    (hr : (fd, r) ∈ afterReport epoll out) :
    ∃ r', (fd, r') ∈ epoll ∧ r.event = r'.event ∧ r.oneshot = r'.oneshot := by
  obtain ⟨⟨fd', r'⟩, hr', heq⟩ := List.mem_map.1 hr
  split_ifs at heq
  · obtain ⟨rfl, rfl⟩ := Prod.mk.inj heq
    exact ⟨r', hr', report_kept r'⟩
  · obtain ⟨rfl, rfl⟩ := Prod.mk.inj heq
    exact ⟨r', hr', rfl, rfl⟩

theorem exists_mem_afterReport {fd : ℤ} {r : Registration} (hr : (fd, r) ∈ epoll)
    (out : List (ℤ × Registration)) :
    ∃ r', (fd, r') ∈ afterReport epoll out ∧ r'.event = r.event := by
  by_cases hout : (fd, r) ∈ out
  · exact ⟨r.report, List.mem_map.2 ⟨_, hr, if_pos hout⟩, (report_kept r).1⟩
  · exact ⟨r, List.mem_map.2 ⟨_, hr, if_neg hout⟩, rfl⟩

theorem keys_afterReport (epoll out : List (ℤ × Registration)) :
    (afterReport epoll out).map Prod.fst = epoll.map Prod.fst := by
  unfold afterReport
  rw [List.map_map]
  refine List.map_congr_left fun r _ => ?_
  simp only [Function.comp_apply]
  split_ifs <;> rfl

theorem reported_sublist (e : Events) (ready : List ℤ) (max_events : ℕ) :
    (e.reported ready max_events).Sublist (e.epoll.filter fun r => r.2.armed) := by
  unfold Events.reported
  refine (List.take_sublist _ _).trans ?_
  rw [← List.filter_filter]
  exact List.filter_sublist

/-- The session after a wait that reported some registrations. -/
def Session.report (s : Session) (out : List (ℤ × Registration)) (n : ℕ) : Session :=
  { s with
    events := { s.events with epoll := afterReport s.events.epoll out, syscalls := n }
    waited := s.waited ++ (out.map fun r => r.2.event).map fun p => (p, s.events.records.get? p) }

theorem taken_report (h : s.Kept) (hinv : s.Inv) (hout : ∀ r ∈ out, r ∈ s.events.epoll) (n : ℕ) :
    takenOf (s.report out n).waited
      = takenOf s.waited ++ (out.filter fun r => r.2.oneshot).map fun r => r.2.event := by
  unfold Session.report
  rw [takenOf_append, List.filter_map]
  congr 2
  refine List.filter_congr fun r hr => ?_
  obtain ⟨event, ⟨hcreated, hrecord⟩, -⟩ := hinv.registered r.1 r.2 (hout r hr)
  simp only [Function.comp_apply, hrecord, Option.any_some]
  exact (h.kinds r.1 r.2 event (hout r hr) hcreated).symm

theorem Session.Kept.report (h : s.Kept) (hinv : s.Inv)
    (hout : out.Sublist (s.events.epoll.filter fun r => r.2.armed)) (n : ℕ) :
    (s.report out n).Kept := by
  have hmem : ∀ r ∈ out, r ∈ s.events.epoll := fun r hr => (List.mem_filter.1 (hout.subset hr)).1
  have hperm := (pending_perm (List.Nodup.of_map _ h.keys) hout).map fun r => r.2.event
  rw [List.map_append] at hperm
  refine ⟨?_, ?_, fun fd r event hr hcreated => ?_,
    fun p fd hp => ⟨(h.owned p fd hp).1, fun r hr => ?_⟩, h.apart, fun p fd hp => ?_⟩
  · rw [taken_report h hinv hmem]
    exact h.accounts.take hperm
  · show ((afterReport s.events.epoll out).map Prod.fst).Nodup
    rw [keys_afterReport]
    exact h.keys
  · obtain ⟨r', hr', hevent, honeshot⟩ := exists_of_mem_afterReport hr
    rw [honeshot]
    exact h.kinds fd r' event hr' (hevent ▸ hcreated)
  · obtain ⟨r', hr', hevent, -⟩ := exists_of_mem_afterReport hr
    rw [hevent]
    exact (h.owned p fd hp).2 r' hr'
  · obtain ⟨event, hcreated, hsent, hid, hwaited, hnot⟩ := hp
    have hlisted : ∃ r, (fd, r) ∈ s.events.epoll ∧ r.event = p := by
      have hwaited : p ∈ (s.waited ++ _).map Prod.fst := hwaited
      rw [List.map_append, List.mem_append] at hwaited
      rcases hwaited with hwaited | hwaited
      · exact h.listed p fd ⟨event, hcreated, hsent, hid, hwaited, hnot⟩
      · rw [List.map_map, List.map_map] at hwaited
        obtain ⟨⟨fd', r⟩, hr, rfl⟩ := List.mem_map.1 hwaited
        obtain ⟨event', ⟨hcreated', -⟩, rfl, -⟩ := hinv.registered fd' r (hmem _ hr)
        obtain rfl := hinv.unique hcreated hcreated'
        exact ⟨r, hid ▸ hmem _ hr, rfl⟩
    obtain ⟨r, hr, rfl⟩ := hlisted
    exact exists_mem_afterReport hr out

theorem Session.Kept.wait (h : s.Kept) (hinv : s.Inv) (ready : List ℤ) (max_events : ℕ) :
    ∃ t, Session.step (.wait ready max_events) s = .ok t ∧ t.Kept := by
  by_cases hwilling : s.events.willing = true
  · exact ⟨_, step_wait (eventsWait_run hwilling ready max_events),
      h.report hinv (reported_sublist s.events ready max_events) _⟩
  · refine ⟨_, step_wait (eventsWait_refused hwilling _ _), ?_⟩
    rw [List.map_nil, List.append_nil]
    exact ⟨h.accounts, h.keys, h.kinds, h.owned, h.apart, h.listed⟩

end Wait

section Runs

theorem Session.Kept.send {s : Session} (h : s.Kept) (hinv : s.Inv) {type : EventType} {fd : ℤ}
    (htype : type = .custom ∨ type = .timer) (hunder : s.events.under fd = [])
    (hfresh : fd ∉ s.events.opened) (data : Option ℕ) (n : ℕ) :
    (s.create ⟨type, fd, data⟩ (s.events.addSent type fd data n)).Kept := by
  have hsent : (⟨type, fd, data⟩ : Event).isSent = true := isSent_eq_true.2 htype
  refine h.create hinv ⟨rfl, Or.inr ⟨?_, hunder⟩, fun _ => List.mem_cons_of_mem _,
    fun _ => List.mem_cons_self, hfresh⟩
  rw [hsent]

theorem Session.Kept.subscribe {s : Session} (h : s.Kept) (hinv : s.Inv) {type : EventType}
    {fd : ℤ} (htype : type = .read ∨ type = .write) (hfresh : fd ∉ s.events.opened)
    (data : Option ℕ) :
    (s.create ⟨type, fd, data⟩
      (eventsSubscribe type s.events.manager fd data s.events).2).Kept := by
  have hsent : (⟨type, fd, data⟩ : Event).isSent = false := by
    rcases htype with rfl | rfl <;> rfl
  have hno : (⟨type, fd, data⟩ : Event).isSent = true → fd ∈ s.events.opened :=
    fun htrue => Bool.noConfusion (hsent.symm.trans htrue)
  by_cases hadmits : s.events.admits s.events.manager fd
  · rw [eventsSubscribe_ok hadmits]
    refine h.create hinv ⟨rfl, Or.inr ⟨?_, hadmits.2.2⟩, fun _ h => h, hno, hfresh⟩
    rw [hsent]
  · rw [eventsSubscribe_refused hadmits]
    exact h.create hinv
      ⟨(List.append_nil _).symm, Or.inl ⟨rfl, hsent⟩, fun _ h => h, hno, hfresh⟩

theorem kept_step (call : EventCall) (s : Session) (hcareful : call.Careful s) (hinv : s.Inv)
    (h : s.Kept) : ∃ t, Session.step call s = .ok t ∧ t.Kept := by
  cases call with
  | sendCustom data =>
    obtain ⟨fd, ⟨hfd, hgrants, hunder⟩, hfresh⟩ := hcareful
    obtain ⟨n, hsend⟩ := eventsSendCustom_ok hgrants hfd hunder data
    exact ⟨_, by simp only [Session.step, hsend], h.send hinv (Or.inl rfl) hunder hfresh data n⟩
  | sendTimeout timeout data =>
    obtain ⟨fd, ⟨hfd, hgrants, hunder⟩, hfresh⟩ := hcareful
    obtain ⟨n, hsend⟩ := eventsSendTimeout_sent hgrants hfd hunder data
    exact ⟨_, by simp only [Session.step, hsend], h.send hinv (Or.inr rfl) hunder hfresh data n⟩
  | subscribeRead fd data => exact ⟨_, rfl, h.subscribe hinv (Or.inl rfl) hcareful data⟩
  | subscribeWrite fd data => exact ⟨_, rfl, h.subscribe hinv (Or.inr rfl) hcareful data⟩
  | unsubscribe p => exact h.unsubscribe hinv hcareful.1 hcareful.2
  | wait ready max_events => exact h.wait hinv ready max_events
  | free p => exact h.free hinv hcareful.1
  | close fd => exact h.close hcareful.1 hcareful.2

/-- Whatever the calls, every custom event and timer that was sent waits in the epoll set or was
handed out, once. -/
theorem sentOnce (manager : ℤ) (sched : ℕ → Option ℤ) (calls : List EventCall)
    (hcareful : Run.Allowed Session.step EventCall.Careful calls (Session.start manager sched)) :
    ∃ s, Run.run Session.step calls (Session.start manager sched) = .ok s
      ∧ Accounts (postedOf s.created) s.events.pending (takenOf s.waited) := by
  have hstep : ∀ call s, EventCall.Careful call s → s.Inv ∧ s.Kept →
      ∃ t, Session.step call s = .ok t ∧ t.Inv ∧ t.Kept := by
    rintro call s hcareful ⟨hinv, hkept⟩
    obtain ⟨t, ht, hinv'⟩ := session_step call s hcareful.ok hinv
    obtain ⟨t', ht', hkept'⟩ := kept_step call s hcareful hinv hkept
    obtain rfl := Except.ok.inj (ht.symm.trans ht')
    exact ⟨t, ht, hinv', hkept'⟩
  obtain ⟨s, hrun, -, hkept⟩ := Run.run_inv hstep calls _ hcareful
    ⟨start_inv manager sched, start_kept manager sched⟩
  exact ⟨s, hrun, hkept.accounts⟩

/-- A subscription and a custom event that are reported together. -/
theorem sentOnce_two : ∃ s, Run.run Session.step
    [.subscribeRead 6 none, .sendCustom (some 7), .wait [5, 6] 2, .unsubscribe 0, .free 0]
    (Session.start 3 fun _ => some 5) = .ok s
      ∧ Accounts (postedOf s.created) s.events.pending (takenOf s.waited) := by
  refine sentOnce 3 _ _ ⟨List.not_mem_nil, ?_⟩
  rintro s ⟨⟩
  refine ⟨⟨5, ⟨by decide, ⟨rfl, fun _ _ => rfl⟩, rfl⟩, by decide⟩, ?_⟩
  rintro s ⟨⟩
  refine ⟨trivial, ?_⟩
  rintro s ⟨⟩
  refine ⟨⟨⟨by decide, by decide⟩, by decide⟩, ?_⟩
  rintro s ⟨⟩
  exact ⟨⟨⟨by decide, by decide⟩, fun _ _ _ => by decide⟩, fun _ _ => trivial⟩

end Runs

end Erlm
