import Mathlib

/-!
# Loops that leave in the middle

A `do … while` loop whose body either goes round again with a new state or leaves with a result
(`loop`). Some measure of the state falls with every round, so the loop is total, and it satisfies
the equation the source reads (`loop_eq`). What a round preserves holds of the result
(`loop_inv`), and two loops whose rounds stay related end related (`loop_rel`).
-/

namespace DoWhile

variable {σ τ ρ ρ' : Type*}

/-- At most `fuel` rounds of `body`, up to the one that leaves. -/
def rounds (body : σ → σ ⊕ ρ) : ℕ → σ → Option ρ
  | 0, _ => none
  | fuel + 1, s =>
    match body s with
    | .inl s' => rounds body fuel s'
    | .inr r => some r

/-- Every round that goes on makes `μ` smaller. -/
def Falls (body : σ → σ ⊕ ρ) (μ : σ → ℕ) : Prop :=
  ∀ s s', body s = .inl s' → μ s' < μ s

theorem rounds_succ (body : σ → σ ⊕ ρ) (fuel : ℕ) (s : σ) :
    rounds body (fuel + 1) s = Sum.elim (rounds body fuel) some (body s) := by
  rw [rounds]
  cases body s <;> rfl

theorem rounds_isSome {body : σ → σ ⊕ ρ} {μ : σ → ℕ} (h : Falls body μ) :
    ∀ (fuel : ℕ) (s : σ), μ s < fuel → (rounds body fuel s).isSome
  | 0, s, hs => absurd hs (Nat.not_lt_zero _)
  | fuel + 1, s, hs => by
    rw [rounds_succ]
    rcases hb : body s with s' | r
    · have := h s s' hb
      exact rounds_isSome h fuel s' (by omega)
    · rfl

theorem rounds_congr {body : σ → σ ⊕ ρ} {μ : σ → ℕ} (h : Falls body μ) :
    ∀ (m n : ℕ) (s : σ), μ s < m → μ s < n → rounds body m s = rounds body n s
  | 0, _, s, hm, _ => absurd hm (Nat.not_lt_zero _)
  | _, 0, s, _, hn => absurd hn (Nat.not_lt_zero _)
  | m + 1, n + 1, s, hm, hn => by
    rw [rounds_succ, rounds_succ]
    rcases hb : body s with s' | r
    · have := h s s' hb
      exact rounds_congr h m n s' (by omega) (by omega)
    · rfl

/-- The loop, run for as many rounds as its measure allows. -/
def loop (body : σ → σ ⊕ ρ) (μ : σ → ℕ) (h : Falls body μ) (s : σ) : ρ :=
  (rounds body (μ s + 1) s).get (rounds_isSome h _ s (Nat.lt_succ_self _))

section Rules

variable {body : σ → σ ⊕ ρ} {μ : σ → ℕ} {h : Falls body μ}

theorem some_loop (s : σ) : some (loop body μ h s) = rounds body (μ s + 1) s := by
  simp [loop]

/-- One round, then the loop again from where it ended. -/
theorem loop_eq (s : σ) :
    loop body μ h s = Sum.elim (loop body μ h) id (body s) := by
  apply Option.some.inj
  rw [some_loop, rounds_succ]
  rcases hb : body s with s' | r
  · rw [Sum.elim_inl, Sum.elim_inl, some_loop]
    exact rounds_congr h _ _ s' (h s s' hb) (Nat.lt_succ_self _)
  · rfl

theorem loop_inl {s s' : σ} (hb : body s = .inl s') : loop body μ h s = loop body μ h s' := by
  rw [loop_eq, hb, Sum.elim_inl]

theorem loop_inr {s : σ} {r : ρ} (hb : body s = .inr r) : loop body μ h s = r := by
  rw [loop_eq, hb, Sum.elim_inr, id]

/-- A round that keeps `I` when it goes on and gives `Q` when it leaves gives `Q` of the result. -/
theorem loop_inv (I : σ → Prop) (Q : ρ → Prop) (step : ∀ s, I s → Sum.elim I Q (body s)) :
    ∀ s, I s → Q (loop body μ h s) := by
  intro s
  induction hn : μ s using Nat.strongRecOn generalizing s with
  | _ n ih =>
    intro hs
    have hstep := step s hs
    rcases hb : body s with s' | r
    · rw [hb, Sum.elim_inl] at hstep
      rw [loop_inl hb]
      exact ih (μ s') (hn ▸ h s s' hb) s' rfl hstep
    · rw [hb, Sum.elim_inr] at hstep
      rw [loop_inr hb]
      exact hstep

/-- Two loops in step: related states go round together, or leave together with related
results. -/
theorem loop_rel {body' : τ → τ ⊕ ρ'} {μ' : τ → ℕ} {h' : Falls body' μ'} (I : σ → τ → Prop)
    (Q : ρ → ρ' → Prop) (step : ∀ s t, I s t → Sum.LiftRel I Q (body s) (body' t)) :
    ∀ s t, I s t → Q (loop body μ h s) (loop body' μ' h' t) := by
  intro s
  induction hn : μ s using Nat.strongRecOn generalizing s with
  | _ n ih =>
    intro t hst
    have hstep := step s t hst
    generalize hb : body s = x, hb' : body' t = y at hstep
    cases hstep with
    | inl hI =>
      rw [loop_inl hb, loop_inl hb']
      exact ih _ (hn ▸ h s _ hb) _ rfl _ hI
    | inr hQ =>
      rw [loop_inr hb, loop_inr hb']
      exact hQ

end Rules

end DoWhile
