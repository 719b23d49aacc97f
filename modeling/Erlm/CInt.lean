import Mathlib

/-!
# C integers

An `int` is 32 bits and a `size_t` 64, as on the x86-64 builds, and `char` is signed. A conversion
to a narrower type keeps the low bits.
-/

namespace Erlm

abbrev Bytes := List UInt8

/-- The string a `char *` to these bytes points to. -/
def cString (s : Bytes) : Bytes := s.takeWhile (· ≠ 0)

/-- Conversion to `int`. -/
def toInt (z : ℤ) : ℤ := z.bmod (2 ^ 32)

/-- Conversion to `size_t`. -/
def toSizeT (z : ℤ) : ℕ := (z % 2 ^ 64).toNat

/-- A byte read through a `char *`, promoted to `int`. -/
def charToInt (b : UInt8) : BitVec 32 := b.toBitVec.signExtend 32

/-- Values an `int` can hold. -/
def IsInt (z : ℤ) : Prop := -2 ^ 31 ≤ z ∧ z < 2 ^ 31

theorem cString_of_notMem {s : Bytes} (h : 0 ∉ s) : cString s = s := by
  rw [cString, List.takeWhile_eq_self_iff]
  intro b hb
  rw [decide_eq_true_eq]
  rintro rfl
  exact h hb

theorem zero_notMem_cString (s : Bytes) : 0 ∉ cString s := by
  intro h
  simpa using List.mem_takeWhile_imp h

theorem cString_eq_self {s : Bytes} : cString s = s ↔ 0 ∉ s :=
  ⟨fun h => h ▸ zero_notMem_cString s, cString_of_notMem⟩

theorem toInt_of_isInt {z : ℤ} (h : IsInt z) : toInt z = z := by
  obtain ⟨h1, h2⟩ := h
  unfold toInt
  rw [Int.bmod_def]
  omega

theorem isInt_toInt (z : ℤ) : IsInt (toInt z) := by
  unfold toInt IsInt
  have h1 := Int.le_bmod (x := z) (m := 2 ^ 32) (by norm_num)
  have h2 := Int.bmod_lt (x := z) (m := 2 ^ 32) (by norm_num)
  norm_num at h1 h2 ⊢
  exact ⟨h1, h2⟩

theorem toSizeT_of_nonneg {z : ℤ} (h : 0 ≤ z) (hz : z < 2 ^ 64) : toSizeT z = z.toNat := by
  unfold toSizeT
  omega

/-- A negative `int` is a huge `size_t`. -/
theorem toSizeT_of_neg {z : ℤ} (h : z < 0) (hz : IsInt z) : 2 ^ 63 ≤ toSizeT z := by
  obtain ⟨h1, -⟩ := hz
  unfold toSizeT
  omega

/-- Converting an `int` to `size_t` and back loses nothing. -/
theorem toInt_toSizeT {z : ℤ} (h : IsInt z) : toInt (toSizeT z) = z := by
  obtain ⟨h1, h2⟩ := h
  unfold toInt toSizeT
  rw [Int.bmod_def]
  omega

end Erlm
