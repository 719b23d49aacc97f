import Mathlib

/-!
# Results of computations that can fail

Two results agree if both are failures, and the same one, or both are values that are related
(`Agree`). Computations whose parts agree agree (`Agree.bind`), and one whose parts never fail in
some way never does (`Never.bind`).
-/

namespace Except

variable {ε α α' β β' : Type}

theorem bind_eq_ok {m : Except ε α} {f : α → Except ε β} {b : β} :
    (m >>= f) = .ok b ↔ ∃ a, m = .ok a ∧ f a = .ok b := by
  cases m with
  | error e => simp [Bind.bind, Except.bind]
  | ok a => simp [Bind.bind, Except.bind]

/-- The same failure, or values that are related. -/
inductive Agree (R : α → α' → Prop) : Except ε α → Except ε α' → Prop
  | error (e : ε) : Agree R (.error e) (.error e)
  | ok {a : α} {a' : α'} (h : R a a') : Agree R (.ok a) (.ok a')

variable {R : α → α' → Prop} {S : β → β' → Prop}

theorem Agree.bind {x : Except ε α} {y : Except ε α'} {f : α → Except ε β} {g : α' → Except ε β'}
    (h : Agree R x y) (hf : ∀ a a', R a a' → Agree S (f a) (g a')) :
    Agree S (x >>= f) (y >>= g) := by
  cases h with
  | error e => exact .error e
  | ok h => exact hf _ _ h

theorem Agree.map_eq {x : Except ε α} {y : Except ε α'} {f : α → β} {g : α' → β}
    (h : Agree (fun a a' => f a = g a') x y) : x.map f = y.map g := by
  cases h with
  | error e => rfl
  | ok h => exact congrArg Except.ok h

theorem agree_refl {x : Except ε α} : Agree (· = ·) x x := by
  cases x with
  | error e => exact .error e
  | ok a => exact .ok rfl

/-- The result may be a failure, but not this one. -/
def Never (e : ε) (x : Except ε α) : Prop := x ≠ .error e

variable {e : ε}

theorem never_ok (a : α) : Never e (.ok a : Except ε α) := fun h => by cases h

theorem never_error {e' : ε} (h : e' ≠ e) : Never e (.error e' : Except ε α) :=
  fun heq => h (Except.error.inj heq)

theorem Never.of_error {x : Except ε α} {e' : ε} (h : Never e x) (hx : x = .error e') :
    Never e (.error e' : Except ε β) := by
  rw [hx] at h
  exact never_error fun he => h (congrArg _ he)

theorem Never.bind {x : Except ε α} {f : α → Except ε β} (h : Never e x)
    (hf : ∀ a, x = .ok a → Never e (f a)) : Never e (x >>= f) := by
  cases x with
  | error e' => exact fun heq => h (congrArg _ (Except.error.inj heq))
  | ok a => exact hf a rfl

end Except
