import Mathlib.Data.List.Forall2
import Mathlib.Data.List.ReduceOption

/-!
# Lists with holes, squeezed together

What is present in a list with holes, and then some more, stands one by one where the list has it,
a default in the holes, only if everything from the first hole on is the default
(`forall₂_squeeze_iff`): what follows a hole has moved up into it.
-/

namespace Squeeze

variable {α β : Type*} {f : α → β} {d : α} {more : List α}

/-- The values `pre` that have been taken for the list so far, at least one, are ahead of it. -/
theorem eq_default_of_ahead (hf : ∀ a, f a = f d → a = d) {l : List (Option α)} {pre vs : List α}
    (hne : pre ≠ []) (hpre : ∀ v ∈ pre, v = d) (heq : l.reduceOption ++ more = pre ++ vs)
    (h : List.Forall₂ (fun e v => f (e.getD d) = f v) l vs) : ∀ v ∈ vs, v = d := by
  induction l generalizing pre vs with
  | nil =>
    cases h
    exact fun v hv => absurd hv List.not_mem_nil
  | cons e l ih =>
    rcases h with _ | @⟨_, v, _, vs, hev, h⟩
    have hv : v = d := by
      rcases e with _ | a
      · exact hf v hev.symm
      · obtain ⟨p, pre, rfl⟩ := List.exists_cons_of_ne_nil hne
        have ha : a = p := by
          rw [List.reduceOption_cons_of_some] at heq
          exact (List.cons.inj heq).1
        have hp := hpre p List.mem_cons_self
        exact hf v (by rw [← hev, Option.getD_some, ha, hp])
    have hrest : ∀ w ∈ vs, w = d := by
      rcases e with _ | a
      · refine @ih (pre ++ [v]) vs (by simp) ?_ (by simpa using heq) h
        simpa [or_imp, forall_and, hv] using hpre
      · obtain ⟨p, pre, rfl⟩ := List.exists_cons_of_ne_nil hne
        rw [List.reduceOption_cons_of_some] at heq
        refine @ih (pre ++ [v]) vs (by simp) ?_ (by simpa using (List.cons.inj heq).2) h
        have hpre := fun w hw => hpre w (List.mem_cons_of_mem _ hw)
        simpa [or_imp, forall_and, hv] using hpre
    intro w hw
    rcases List.mem_cons.1 hw with rfl | hw
    · exact hv
    · exact hrest w hw

theorem forall₂_default {l : List (Option α)} {vs : List α} (hl : ∀ a, some a ∈ l → a = d)
    (hvs : ∀ v ∈ vs, v = d) (hlen : vs.length = l.length) :
    List.Forall₂ (fun e v => f (e.getD d) = f v) l vs := by
  induction l generalizing vs with
  | nil =>
    rw [List.eq_nil_of_length_eq_zero hlen]
    exact .nil
  | cons e l ih =>
    rcases vs with _ | ⟨v, vs⟩
    · cases hlen
    · refine .cons ?_ (ih (fun a ha => hl a (List.mem_cons_of_mem _ ha))
        (fun w hw => hvs w (List.mem_cons_of_mem _ hw)) (Nat.succ.inj hlen))
      rw [hvs v List.mem_cons_self]
      rcases e with _ | a
      · rfl
      · rw [hl a List.mem_cons_self]
        rfl

/-- Behind a hole. -/
theorem forall₂_none_iff (hf : ∀ a, f a = f d → a = d) (l : List (Option α)) :
    List.Forall₂ (fun e v => f (e.getD d) = f v) (none :: l) (l.reduceOption ++ more)
      ↔ (l.reduceOption ++ more).length = l.length + 1 ∧ ∀ v ∈ l.reduceOption ++ more, v = d := by
  constructor
  · intro h
    refine ⟨h.length_eq.symm, ?_⟩
    rcases hvs : l.reduceOption ++ more with _ | ⟨v, vs⟩
    · exact fun v hv => absurd hv List.not_mem_nil
    · rw [hvs] at h
      rcases h with _ | ⟨hv, h⟩
      have hv := hf v hv.symm
      have hrest := @eq_default_of_ahead _ _ _ _ _ hf l [v] vs (by simp) (by simpa using hv) hvs h
      simpa [hv] using hrest
  · rintro ⟨hlen, hall⟩
    refine forall₂_default (fun a ha => hall a ?_) hall hlen
    rcases List.mem_cons.1 ha with ha | ha
    · cases ha
    · exact List.mem_append_left _ (List.reduceOption_mem_iff.2 ha)

/-- What is present and `more` fall into place exactly if there are as many of them as places and
those from the first hole on are all the default. -/
theorem forall₂_squeeze_iff (hf : ∀ a, f a = f d → a = d) (l : List (Option α)) (more : List α) :
    List.Forall₂ (fun e v => f (e.getD d) = f v) l (l.reduceOption ++ more)
      ↔ (l.reduceOption ++ more).length = l.length
        ∧ ∀ v ∈ (l.reduceOption ++ more).drop (l.takeWhile Option.isSome).length, v = d := by
  induction l with
  | nil =>
    rw [List.forall₂_nil_left_iff]
    simp only [List.reduceOption_nil, List.nil_append, List.length_nil, List.length_eq_zero_iff,
      List.takeWhile_nil, List.drop_zero]
    exact ⟨fun h => ⟨h, fun v hv => by simp [h] at hv⟩, fun h => h.1⟩
  | cons e l ih =>
    rcases e with _ | a
    · rw [List.reduceOption_cons_of_none, forall₂_none_iff hf]
      rfl
    · rw [List.reduceOption_cons_of_some, List.cons_append, List.forall₂_cons]
      simp only [Option.getD_some, true_and, ih, List.length_cons, Nat.add_right_cancel_iff,
        List.takeWhile_cons, Option.isSome_some, if_true, List.drop_succ_cons]

end Squeeze
