import Mathlib

/-!
# A one-place outbox

A value is taken if the place is free and lost otherwise; a flush sends the value in the place and
frees it. What was sent and the value waiting are together the values taken, in order
(`contents_put`, `contents_flush`).
-/

/-- What was sent, and the value that waits in the place. -/
structure Outbox (α : Type*) where
  sent : List α
  slot : Option α
  deriving Repr, DecidableEq

namespace Outbox

variable {α : Type*}

def empty : Outbox α := ⟨[], none⟩

def put (o : Outbox α) (a : α) : Outbox α :=
  match o.slot with
  | none => { o with slot := some a }
  | some _ => o

def flush (o : Outbox α) : Outbox α := ⟨o.sent ++ o.slot.toList, none⟩

/-- Everything taken so far. -/
def contents (o : Outbox α) : List α := o.sent ++ o.slot.toList

@[simp] theorem contents_empty : (empty : Outbox α).contents = [] := rfl

theorem contents_put (o : Outbox α) (a : α) :
    (o.put a).contents = o.contents ++ if o.slot.isNone then [a] else [] := by
  unfold put contents
  rcases o with ⟨sent, _ | b⟩ <;> simp

theorem sent_put (o : Outbox α) (a : α) : (o.put a).sent = o.sent := by
  unfold put
  split <;> rfl

theorem slot_put (o : Outbox α) (a : α) : (o.put a).slot = o.slot.or (some a) := by
  unfold put
  rcases o with ⟨sent, _ | b⟩ <;> rfl

/-- What is in an outbox after a put was in it before or is the value put. -/
theorem mem_contents_put {o : Outbox α} {a b : α} (h : b ∈ (o.put a).contents) :
    b ∈ o.contents ∨ b = a := by
  rw [contents_put] at h
  split_ifs at h
  · simpa using h
  · exact Or.inl (by simpa using h)

@[simp] theorem contents_flush (o : Outbox α) : o.flush.contents = o.contents := by
  simp [flush, contents]

theorem flush_of_slot_none {o : Outbox α} (h : o.slot = none) : o.flush = o := by
  obtain ⟨sent, slot⟩ := o
  subst h
  simp [flush]

end Outbox
