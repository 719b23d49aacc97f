import Erlm.Argparse
import Erlm.Lib.Pages
import Erlm.Value

/-!
# The usage text

What `argparse_usage` prints to `stdout`. The column of the help texts is found with a rounding to
`float`; as long as that is exact, no option is too long for it (`usageLine_aligned`).
-/

namespace Erlm

section Text

/-- `(float)n`: 24 bits, to the nearest, ties to even. -/
def toFloat (n : ℕ) : ℕ :=
  if n < 2 ^ 24 then n
  else
    let ulp := 2 ^ (n.log2 - 23)
    let up := ulp < 2 * (n % ulp) ∨ ulp = 2 * (n % ulp) ∧ n / ulp % 2 = 1
    if up then (n / ulp + 1) * ulp else n / ulp * ulp

/-- What is said about the value of an option. -/
def usageMark : ArgparseOptionType → Bytes
  | .integer => ascii ['=', '<', 'i', 'n', 't', '>']
  | .string => ascii ['=', '<', 's', 't', 'r', '>']
  | _ => []

/-- The length of an option without its blanks, up to the next multiple of four. -/
def usageLength (opt : ArgparseOption) : ℕ :=
  let len := if opt.short_name ≠ 0 then 2 else 0
  let len := if opt.short_name ≠ 0 ∧ opt.long_name.isSome then len + 2 else len
  let len := len + opt.long_name.elim 0 fun long_name => long_name.length + 2
  let len := len + (usageMark opt.type).length
  Pages.roundUp 4 (toFloat len)

/-- `usage_opts_width` -/
def usageWidth (options : List ArgparseOption) : ℕ :=
  options.foldl (fun width opt => if width < usageLength opt then usageLength opt else width) 0 + 4

/-- The option as it is printed. -/
def usageLabel (opt : ArgparseOption) : Bytes :=
  List.replicate 4 32 ++ (if opt.short_name ≠ 0 then [45, opt.short_name] else [])
    ++ (if opt.long_name.isSome ∧ opt.short_name ≠ 0 then [44, 32] else [])
    ++ opt.long_name.elim [] (fun long_name => 45 :: 45 :: long_name) ++ usageMark opt.type

/-- The option with its help, on one line if `width` allows. -/
def usageLine (width : ℕ) (opt : ArgparseOption) : Bytes :=
  if opt.type = .group then 10 :: opt.help ++ [10]
  else
    let label := usageLabel opt
    if label.length ≤ width then
      label ++ List.replicate (width - label.length + 2) 32 ++ opt.help ++ [10]
    else label ++ 10 :: List.replicate (width + 2) 32 ++ opt.help ++ [10]

end Text

section Layout

variable {opt : ArgparseOption} {options : List ArgparseOption}

theorem toFloat_of_lt {n : ℕ} (h : n < 2 ^ 24) : toFloat n = n := if_pos h

theorem length_usageLabel (h : (usageLabel opt).length < 2 ^ 24) :
    (usageLabel opt).length ≤ usageLength opt + 4 := by
  obtain ⟨len, hlen, hlength⟩ : ∃ len, (usageLabel opt).length = len + 4
      ∧ usageLength opt = Pages.roundUp 4 (toFloat len) := by
    refine ⟨_, ?_, rfl⟩
    unfold usageLabel
    rcases opt.long_name with _ | long_name <;> by_cases hshort : opt.short_name = 0
      <;> simp [hshort] <;> omega
  rw [hlen] at h ⊢
  rw [hlength, toFloat_of_lt (by omega)]
  exact Nat.add_le_add_right (Pages.le_roundUp (by decide) len) 4

/-- The width is what the longest option needs. -/
theorem usageLength_le (h : opt ∈ options) : usageLength opt + 4 ≤ usageWidth options := by
  have hmax : ∀ (l : List ArgparseOption) (width : ℕ), width ≤ l.foldl (fun width opt =>
      if width < usageLength opt then usageLength opt else width) width
      ∧ ∀ o ∈ l, usageLength o ≤ l.foldl (fun width opt =>
        if width < usageLength opt then usageLength opt else width) width := by
    intro l
    induction l with
    | nil => exact fun width => ⟨le_refl _, by simp⟩
    | cons o l ih =>
      intro width
      obtain ⟨hwidth, hl⟩ := ih (if width < usageLength o then usageLength o else width)
      have hle : width ≤ (if width < usageLength o then usageLength o else width)
          ∧ usageLength o ≤ (if width < usageLength o then usageLength o else width) := by
        split_ifs <;> omega
      exact ⟨hle.1.trans hwidth, List.forall_mem_cons.2 ⟨hle.2.trans hwidth, hl⟩⟩
  exact Nat.add_le_add_right ((hmax options 0).2 opt h) 4

/-- The help texts start in one column, two blanks or more behind what they explain, unless a name
is too long to be a `float`. -/
theorem usageLine_aligned (h : opt ∈ options) (htype : opt.type ≠ .group)
    (hlength : (usageLabel opt).length < 2 ^ 24) :
    ∃ blanks, 2 ≤ blanks ∧ (usageLabel opt).length + blanks = usageWidth options + 2
      ∧ usageLine (usageWidth options) opt
        = usageLabel opt ++ List.replicate blanks 32 ++ opt.help ++ [10] := by
  have hfits : (usageLabel opt).length ≤ usageWidth options :=
    (length_usageLabel hlength).trans (usageLength_le h)
  refine ⟨usageWidth options - (usageLabel opt).length + 2, by omega, by omega, ?_⟩
  unfold usageLine
  rw [if_neg htype, if_pos hfits]

end Layout

end Erlm
