import Mathlib

/-!
# What has been the case since

On a list of events, oldest first: since some event of one kind there were only events of another
kind. What the newest event does to that is one step (`since_concat`).
-/

section Since

variable {ε : Type*} {start stay : ε → Prop} {trace : List ε} {e : ε}

/-- Some event is a `start`, and all events after it `stay`. -/
def Since (start stay : ε → Prop) (trace : List ε) : Prop :=
  ∃ before e after, trace = before ++ e :: after ∧ start e ∧ ∀ x ∈ after, stay x

theorem not_since_nil : ¬ Since start stay [] := by
  rintro ⟨before, e, after, h, -⟩
  exact absurd h (by simp)

theorem since_concat :
    Since start stay (trace ++ [e]) ↔ start e ∨ stay e ∧ Since start stay trace := by
  constructor
  · rintro ⟨before, x, after, h, hstart, hstay⟩
    rcases List.eq_nil_or_concat after with rfl | ⟨after, y, rfl⟩
    · obtain ⟨-, h⟩ := List.append_inj' h rfl
      simp only [List.cons.injEq, and_true] at h
      exact Or.inl (h ▸ hstart)
    · rw [List.concat_eq_append] at h hstay
      rw [← List.cons_append, ← List.append_assoc] at h
      obtain ⟨htrace, hy⟩ := List.append_inj' h rfl
      simp only [List.cons.injEq, and_true] at hy
      subst hy
      refine Or.inr ⟨hstay _ (by simp), before, x, after, htrace, hstart, ?_⟩
      exact fun z hz => hstay z (List.mem_append_left _ hz)
  · rintro (hstart | ⟨hstay, before, x, after, rfl, hstart, hall⟩)
    · exact ⟨trace, e, [], rfl, hstart, by simp⟩
    · refine ⟨before, x, after ++ [e], by simp, hstart, fun z hz => ?_⟩
      rcases List.mem_append.1 hz with hz | hz
      · exact hall z hz
      · rwa [List.mem_singleton.1 hz]

/-- Something started if it has been the case since. -/
theorem Since.exists_start (h : Since start stay trace) : ∃ e ∈ trace, start e := by
  obtain ⟨before, e, after, rfl, hstart, -⟩ := h
  exact ⟨e, by simp, hstart⟩

end Since
