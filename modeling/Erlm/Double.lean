import Erlm.CInt

/-!
# Double-precision numbers

The numbers of JavaScript and the floats of Erlang are binary64 values, kept here as their sign,
biased exponent and fraction. `Double.ofInt` is the conversion of an integer a double can hold, and
`Double.toCInt` the one `duk_get_int` makes: a NaN is zero, anything else is clamped to the range
of an `int` and cut off towards zero.
-/

namespace Erlm

structure Double where
  negative : Bool
  exponent : Fin 2048
  fraction : Fin (2 ^ 52)
  deriving Repr, DecidableEq

namespace Double

def isNaN (d : Double) : Bool := d.exponent = 2047 && d.fraction ≠ 0

/-- The significand of a nonzero integer below `2 ^ 53`, without its leading bit. -/
def fractionOf (m : ℕ) : Fin (2 ^ 52) := Fin.ofNat _ (m * 2 ^ (52 - m.log2))

/-- The double with the value of an integer of at most 53 bits. -/
def ofInt (n : ℤ) : Double :=
  if n = 0 then ⟨false, 0, 0⟩
  else ⟨n < 0, Fin.ofNat _ (1023 + n.natAbs.log2), fractionOf n.natAbs⟩

/-- The magnitude without its fractional part; an infinity is larger than any finite double. -/
def magnitude (d : Double) : ℕ :=
  if d.exponent.val = 0 then 0
  else (2 ^ 52 + d.fraction.val) * 2 ^ d.exponent.val / 2 ^ 1075

/-- The value cut off towards zero. -/
def trunc (d : Double) : ℤ := if d.negative then -(d.magnitude : ℤ) else d.magnitude

/-- The conversion of `duk_get_int`. -/
def toCInt (d : Double) : ℤ :=
  if d.isNaN then 0 else max (-2 ^ 31) (min (2 ^ 31 - 1) d.trunc)

theorem log2_le {m : ℕ} (h : m < 2 ^ 53) : m.log2 ≤ 52 := by
  rcases Nat.eq_zero_or_pos m with rfl | hpos
  · simp
  · have := (Nat.log2_lt (by omega)).2 h
    omega

/-- The leading bit and the fraction make up the shifted integer. -/
theorem fractionOf_val {m : ℕ} (hm : m ≠ 0) (h : m < 2 ^ 53) :
    2 ^ 52 + (fractionOf m).val = m * 2 ^ (52 - m.log2) := by
  have hle := log2_le h
  have hlow : 2 ^ 52 ≤ m * 2 ^ (52 - m.log2) := by
    calc 2 ^ 52 = 2 ^ m.log2 * 2 ^ (52 - m.log2) := by rw [← pow_add]; congr 1; omega
      _ ≤ m * 2 ^ (52 - m.log2) := Nat.mul_le_mul_right _ (Nat.log2_self_le hm)
  have hhigh : m * 2 ^ (52 - m.log2) < 2 ^ 53 := by
    calc m * 2 ^ (52 - m.log2) < 2 ^ (m.log2 + 1) * 2 ^ (52 - m.log2) :=
          Nat.mul_lt_mul_of_pos_right Nat.lt_log2_self (by positivity)
      _ = 2 ^ 53 := by rw [← pow_add]; congr 1; omega
  simp only [fractionOf, Fin.val_ofNat]
  omega

theorem exponent_val {m : ℕ} (h : m < 2 ^ 53) :
    (Fin.ofNat 2048 (1023 + m.log2)).val = 1023 + m.log2 := by
  have := log2_le h
  simp only [Fin.val_ofNat]
  omega

theorem magnitude_ofInt {n : ℤ} (h : n.natAbs < 2 ^ 53) : (ofInt n).magnitude = n.natAbs := by
  by_cases h0 : n = 0
  · subst h0
    simp [ofInt, magnitude]
  · have hm : n.natAbs ≠ 0 := Int.natAbs_ne_zero.2 h0
    have hle := log2_le h
    simp only [magnitude, ofInt, if_neg h0, exponent_val h, fractionOf_val hm h]
    rw [if_neg (by omega), mul_assoc, ← pow_add,
      show 52 - n.natAbs.log2 + (1023 + n.natAbs.log2) = 1075 by omega]
    exact Nat.mul_div_cancel _ (by positivity)

theorem trunc_ofInt {n : ℤ} (h : n.natAbs < 2 ^ 53) : (ofInt n).trunc = n := by
  rw [trunc, magnitude_ofInt h]
  by_cases h0 : n = 0
  · subst h0
    simp [ofInt]
  · simp only [ofInt, if_neg h0, decide_eq_true_eq]
    split_ifs <;> omega

theorem isNaN_ofInt {n : ℤ} (h : n.natAbs < 2 ^ 53) : (ofInt n).isNaN = false := by
  by_cases h0 : n = 0
  · subst h0
    rfl
  · have hle := log2_le h
    have hexp : (ofInt n).exponent ≠ 2047 := by
      intro he
      have hv := exponent_val h
      simp only [ofInt, if_neg h0] at he
      rw [he] at hv
      have : (2047 : Fin 2048).val = 2047 := rfl
      omega
    simp [isNaN, hexp]

/-- `duk_get_int` gets back every `int` that was pushed. -/
theorem toCInt_ofInt {n : ℤ} (h : IsInt n) : (ofInt n).toCInt = n := by
  obtain ⟨h1, h2⟩ := h
  have hn : n.natAbs < 2 ^ 53 := by omega
  rw [toCInt, isNaN_ofInt hn, trunc_ofInt hn]
  simp only [Bool.false_eq_true, if_false]
  omega

end Double

end Erlm
