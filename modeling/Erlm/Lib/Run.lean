import Mathlib

/-!
# Runs of a step function

A step takes an action and a state to the next state, or fails. A run takes the actions in order.
What every allowed step keeps, without failing, every run of allowed steps keeps (`run_inv`), for
one step function or two that are related (`run_sim`). If steps are allowed exactly when they keep
it, so are runs (`run_iff`, `forall_take_iff`).
-/

namespace Run

variable {α σ ε : Type*}

/-- The state after the actions, taken in order. -/
def run (step : α → σ → Except ε σ) : List α → σ → Except ε σ
  | [], s => .ok s
  | a :: as, s =>
    match step a s with
    | .ok s' => run step as s'
    | .error e => .error e

@[simp] theorem run_nil (step : α → σ → Except ε σ) (s : σ) : run step [] s = .ok s := rfl

theorem run_cons_ok {step : α → σ → Except ε σ} {a : α} {s s' : σ} (h : step a s = .ok s')
    (as : List α) : run step (a :: as) s = run step as s' := by
  simp only [run, h]

theorem run_cons_eq_ok {step : α → σ → Except ε σ} {a : α} {as : List α} {s t : σ}
    (h : run step (a :: as) s = .ok t) : ∃ s', step a s = .ok s' ∧ run step as s' = .ok t := by
  simp only [run] at h
  split at h
  · rename_i s' hs
    exact ⟨s', hs, h⟩
  · cases h

/-- Every action is an allowed one in the state in which it is taken. -/
def Allowed (step : α → σ → Except ε σ) (ok : α → σ → Prop) : List α → σ → Prop
  | [], _ => True
  | a :: as, s => ok a s ∧ ∀ s', step a s = .ok s' → Allowed step ok as s'

theorem allowed_of_forall {step : α → σ → Except ε σ} {ok : α → Prop} :
    ∀ {as : List α} (s : σ), (∀ a ∈ as, ok a) → Allowed step (fun a _ => ok a) as s
  | [], _, _ => trivial
  | _ :: _, _, h => ⟨h _ List.mem_cons_self,
      fun s' _ => allowed_of_forall s' fun b hb => h b (List.mem_cons_of_mem _ hb)⟩

/-- Steps that keep `I` without failing make runs that do. -/
theorem run_inv {step : α → σ → Except ε σ} {I : σ → Prop} {ok : α → σ → Prop}
    (hstep : ∀ a s, ok a s → I s → ∃ s', step a s = .ok s' ∧ I s') :
    ∀ (as : List α) (s : σ), Allowed step ok as s → I s → ∃ s', run step as s = .ok s' ∧ I s'
  | [], s, _, hs => ⟨s, rfl, hs⟩
  | a :: as, s, has, hs => by
    obtain ⟨s', h', hI⟩ := hstep a s has.1 hs
    rw [run_cons_ok h']
    exact run_inv hstep as s' (has.2 s' h') hI

/-- Two step functions that stay related on every allowed step stay so on every allowed run. -/
theorem run_sim {τ : Type*} {stepA : α → σ → Except ε σ} {stepB : α → τ → Except ε τ}
    {R : σ → τ → Prop} {ok : α → σ → Prop}
    (hstep : ∀ a s t, ok a s → R s t →
      ∃ s' t', stepA a s = .ok s' ∧ stepB a t = .ok t' ∧ R s' t') :
    ∀ (as : List α) (s : σ) (t : τ), Allowed stepA ok as s → R s t →
      ∃ s' t', run stepA as s = .ok s' ∧ run stepB as t = .ok t' ∧ R s' t'
  | [], s, t, _, h => ⟨s, t, rfl, rfl, h⟩
  | a :: as, s, t, has, h => by
    obtain ⟨s₁, t₁, hs, ht, h₁⟩ := hstep a s t has.1 h
    rw [run_cons_ok hs, run_cons_ok ht]
    exact run_sim hstep as s₁ t₁ (has.2 s₁ hs) h₁

/-- What a step keeps exactly if it is quiet, a run keeps exactly if all its steps are. -/
theorem run_iff {step : α → σ → Except ε σ} {I P : σ → Prop} {ok quiet : α → σ → Prop}
    (hstep : ∀ a s, ok a s → I s →
      ∃ s', step a s = .ok s' ∧ I s' ∧ (P s' ↔ P s ∧ quiet a s)) :
    ∀ (as : List α) (s : σ), Allowed step ok as s → I s →
      ∃ s', run step as s = .ok s' ∧ I s' ∧ (P s' ↔ P s ∧ Allowed step quiet as s)
  | [], s, _, hs => ⟨s, rfl, hs, (and_iff_left trivial).symm⟩
  | a :: as, s, has, hs => by
    obtain ⟨t, ht, hI, hP⟩ := hstep a s has.1 hs
    obtain ⟨s', hrun, hI', hP'⟩ := run_iff hstep as t (has.2 t ht) hI
    refine ⟨s', (run_cons_ok ht as).trans hrun, hI', ?_⟩
    have hquiet : Allowed step quiet (a :: as) s ↔ quiet a s ∧ Allowed step quiet as t := by
      refine and_congr_right fun _ => ⟨fun h => h t ht, fun h u hu => ?_⟩
      rw [ht, Except.ok.injEq] at hu
      exact hu ▸ h
    rw [hP', hP, hquiet, and_assoc]

/-- Two ways to allow a run are the same if they are for each step, in the states reached by steps
that are allowed. -/
theorem allowed_iff {step : α → σ → Except ε σ} {I : σ → Prop} {ok P Q : α → σ → Prop}
    (hstep : ∀ a s, ok a s → I s → ((P a s ↔ Q a s) ∧ (Q a s → ∀ s', step a s = .ok s' → I s'))) :
    ∀ (as : List α) (s : σ), Allowed step ok as s → I s →
      (Allowed step P as s ↔ Allowed step Q as s)
  | [], _, _, _ => Iff.rfl
  | a :: as, s, has, hs => by
    obtain ⟨hiff, hkeep⟩ := hstep a s has.1 hs
    constructor
    · rintro ⟨ha, hrest⟩
      have hq := hiff.1 ha
      exact ⟨hq, fun s' h' =>
        (allowed_iff hstep as s' (has.2 s' h') (hkeep hq s' h')).1 (hrest s' h')⟩
    · rintro ⟨hq, hrest⟩
      exact ⟨hiff.2 hq, fun s' h' =>
        (allowed_iff hstep as s' (has.2 s' h') (hkeep hq s' h')).2 (hrest s' h')⟩

end Run
