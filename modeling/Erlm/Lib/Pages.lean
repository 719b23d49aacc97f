import Mathlib

/-!
# Text in whole pages

A mapping of `xs` is filled up to a page boundary with a filler `z` (`fill`). Who reads on to the
first `z` finds `xs` exactly if `xs` has none of its own and does not end with a page
(`read_fill_iff`).
-/

namespace Pages

/-- A length rounded up to whole pages. -/
def roundUp (page n : ℕ) : ℕ := (n + page - 1) / page * page

section Lengths

variable {page n : ℕ}

theorem le_roundUp (hpage : 0 < page) (n : ℕ) : n ≤ roundUp page n := by
  have := Nat.lt_div_mul_add (a := n + page - 1) hpage
  unfold roundUp
  omega

theorem roundUp_lt (hpage : 0 < page) (n : ℕ) : roundUp page n < n + page := by
  have := Nat.div_mul_le_self (n + page - 1) page
  unfold roundUp
  omega

theorem roundUp_eq_iff (hpage : 0 < page) : roundUp page n = n ↔ page ∣ n := by
  constructor
  · intro h
    exact Dvd.intro_left _ h
  · intro h
    obtain ⟨k, rfl⟩ := h
    have hdiv : (page * k + page - 1) / page = k := by
      rw [show page * k + page - 1 = page - 1 + page * k by omega, Nat.add_mul_div_left _ _ hpage,
        Nat.div_eq_of_lt (by omega), Nat.zero_add]
    rw [roundUp, hdiv, Nat.mul_comm]

/-- A length that ends within a page leaves room behind it. -/
theorem lt_roundUp_iff (hpage : 0 < page) : n < roundUp page n ↔ ¬ page ∣ n := by
  rw [← roundUp_eq_iff hpage]
  have := le_roundUp hpage n
  omega

end Lengths

section Fill

variable {α : Type*} {z : α} {page : ℕ} {xs : List α}

/-- The pages `xs` starts in, the last one filled up. -/
def fill (z : α) (page : ℕ) (xs : List α) : List α :=
  xs ++ List.replicate (roundUp page xs.length - xs.length) z

theorem length_fill (hpage : 0 < page) (xs : List α) :
    (fill z page xs).length = roundUp page xs.length := by
  have := le_roundUp hpage xs.length
  rw [fill, List.length_append, List.length_replicate]
  omega

end Fill

section Read

variable {α : Type*} [DecidableEq α] {z : α} {page : ℕ} {xs : List α}

/-- What is read from the start of some memory up to the first `z`, none if there is none. -/
def read (z : α) (memory : List α) : Option (List α) :=
  if z ∈ memory then some (memory.takeWhile (· ≠ z)) else none

/-- What is read ends before the memory does. -/
theorem length_lt_of_read {memory : List α} (h : read z memory = some xs) :
    xs.length < memory.length := by
  unfold read at h
  split_ifs at h with hz
  rw [← Option.some.inj h]
  refine lt_of_le_of_ne (List.takeWhile_prefix _).length_le fun heq => ?_
  have hall := (List.takeWhile_prefix (fun x => decide (x ≠ z)) (l := memory)).eq_of_length heq
  have := List.takeWhile_eq_self_iff.1 hall z hz
  simp at this

theorem notMem_of_read {memory : List α} (h : read z memory = some xs) : z ∉ xs := by
  unfold read at h
  split_ifs at h with hz
  rw [← Option.some.inj h]
  intro hmem
  simpa using List.mem_takeWhile_imp hmem

/-- Reading from a first part of the pages of `xs` gives `xs` exactly if it has no `z` of its own
and the part goes on behind it. -/
theorem read_take_fill_iff (m : ℕ) :
    read z ((fill z page xs).take m) = some xs
      ↔ z ∉ xs ∧ xs.length < min m (fill z page xs).length := by
  constructor
  · intro h
    have := length_lt_of_read h
    rw [List.length_take] at this
    exact ⟨notMem_of_read h, this⟩
  · intro h
    obtain ⟨hz, hlt⟩ := h
    obtain ⟨k, hk⟩ : ∃ k, (fill z page xs).take m = xs ++ z :: List.replicate k z := by
      have hlen : (fill z page xs).length
          = xs.length + (roundUp page xs.length - xs.length) := by simp [fill]
      refine ⟨min (m - xs.length) (roundUp page xs.length - xs.length) - 1, ?_⟩
      rw [← List.replicate_succ, fill, List.take_append, List.take_of_length_le (by omega),
        List.take_replicate]
      congr 2
      omega
    have hpass : ∀ x ∈ xs, decide (x ≠ z) = true := by
      intro x hx
      rw [decide_eq_true_eq]
      rintro rfl
      exact hz hx
    rw [hk, read, if_pos (by simp), List.takeWhile_append_of_pos hpass]
    simp

/-- Reading from all the pages of `xs`. -/
theorem read_fill_iff (hpage : 0 < page) :
    read z (fill z page xs) = some xs ↔ z ∉ xs ∧ ¬ page ∣ xs.length := by
  have h := @read_take_fill_iff _ _ z page xs (fill z page xs).length
  rw [List.take_length, min_self, length_fill hpage, lt_roundUp_iff hpage] at h
  exact h

end Read

end Pages
