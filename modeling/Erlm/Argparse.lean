import Erlm.CInt
import Erlm.Lib.DoWhile
import Erlm.Lib.Results

/-!
# `argparse.c`

`argparse_parse` goes through the arguments once, fills the variables of the options it meets and
moves the arguments that are no options to the start of the array it reads from. What it does with
that array is a few operations (`Argv`), so the same parser also runs on a list.
-/

namespace Erlm

/-- How the parser ends the program, whether it prints the usage before, and what it prints to
`stderr`. -/
inductive Stop
  | exit (code : ℤ) (usage : Bool) (err : Bytes)
  | abort
  | undefinedBehaviour
  deriving Repr, DecidableEq

/-- `enum argparse_option_type`, without the end of a table. -/
inductive ArgparseOptionType
  | group
  | boolean
  | bit
  | integer
  | string
  deriving Repr, DecidableEq

/-- The variables options point to. -/
structure Variables where
  ints : ℕ → ℤ
  strings : ℕ → Option Bytes

def Variables.setInt (values : Variables) (v : ℕ) (n : ℤ) : Variables :=
  { values with ints := Function.update values.ints v n }

def Variables.setString (values : Variables) (v : ℕ) (s : Bytes) : Variables :=
  { values with strings := Function.update values.strings v (some s) }

/-- A callback returns a code if it does not end the program. -/
abbrev ArgparseCallback : Type := Variables → Except Stop (ℤ × Variables)

structure ArgparseOption where
  type : ArgparseOptionType
  short_name : UInt8
  long_name : Option Bytes
  value : Option ℕ
  help : Bytes
  callback : Option ArgparseCallback
  data : ℤ
  flags : ℕ

def OPT_NONEG : ℕ := 1

def ARGPARSE_STOP_AT_NON_OPTION : ℕ := 1

def argparseHelpCb : ArgparseCallback := fun _ => .error (.exit 0 true [])

section Text

/-- `prefix_skip` -/
def prefixSkip (str skipped : Bytes) : Option Bytes :=
  if skipped.isPrefixOf str then some (str.drop skipped.length) else none

def argparseError (opt : ArgparseOption) (long : Bool) (reason : String) : Stop :=
  let name := if long then [45, 45] ++ opt.long_name.getD [] else [45, opt.short_name]
  .exit 1 false ("error: option `".toUTF8.toList ++ name ++ "` ".toUTF8.toList
    ++ reason.toUTF8.toList ++ [10])

def unknownOption (arg : Option Bytes) : Stop :=
  .exit 1 true ("error: unknown option `".toUTF8.toList ++ arg.getD [] ++ "`".toUTF8.toList ++ [10])

def isSpace (b : UInt8) : Bool := b = 32 || 9 ≤ b && b ≤ 13

def digitValue (b : UInt8) : Option ℕ :=
  if 48 ≤ b && b ≤ 57 then some (b - 48).toNat
  else if 65 ≤ b && b ≤ 90 then some (b - 55).toNat
  else if 97 ≤ b && b ≤ 122 then some (b - 87).toNat
  else none

def isDigit (base : ℕ) (b : UInt8) : Bool := (digitValue b).any (· < base)

/-- The base a number is written in, and the number without its mark. -/
def numberBase : Bytes → ℕ × Bytes
  | 48 :: x :: d :: s =>
    if (x = 120 || x = 88) && isDigit 16 d then (16, d :: s) else (8, 48 :: x :: d :: s)
  | 48 :: s => (8, 48 :: s)
  | s => (10, s)

/-- `strtol` with base 0: the number at the start of a text and the rest, the whole text if there is
no number. -/
def strtol (s : Bytes) : ℤ × Bytes :=
  let t := s.dropWhile isSpace
  let sign : ℤ := if t.head? = some 45 then -1 else 1
  let t := if t.head? = some 45 ∨ t.head? = some 43 then t.drop 1 else t
  let (base, t) := numberBase t
  let digits := t.takeWhile (isDigit base)
  let n := sign * (Nat.ofDigits base (digits.reverse.filterMap digitValue) : ℤ)
  if digits = [] then (0, s)
  else (max (-2 ^ 63) (min (2 ^ 63 - 1) n), t.drop digits.length)

end Text

/-- What the parser does with `self->argv` and `self->out`. -/
class Argv (σ : Type) where
  /-- `self->argc` -/
  argc : σ → ℕ
  /-- `self->argv[0]`, if it can be read -/
  head : σ → Option Bytes
  /-- `self->argc--, self->argv++` -/
  shift : σ → σ
  /-- `self->out[self->cpidx++] = self->argv[0]` -/
  keep : σ → σ
  argc_shift : ∀ a, argc (shift a) = argc a - 1
  argc_keep : ∀ a, argc (keep a) = argc a

/-- `struct argparse`, what is fixed apart. -/
structure Argparse (σ : Type) where
  argv : σ
  optvalue : Option Bytes
  values : Variables

section Parser

variable {σ : Type} [Argv σ]

def Argparse.shift (s : Argparse σ) : Argparse σ := { s with argv := Argv.shift s.argv }

def Argparse.keep (s : Argparse σ) : Argparse σ := { s with argv := Argv.keep s.argv }

def Argparse.setInt (s : Argparse σ) (v : ℕ) (n : ℤ) : Argparse σ :=
  { s with values := s.values.setInt v n }

def Argparse.setString (s : Argparse σ) (v : ℕ) (text : Bytes) : Argparse σ :=
  { s with values := s.values.setString v text }

/-- The value of an option that has one: what follows it in its argument, or the next argument. -/
def argparseTakeValue (opt : ArgparseOption) (long : Bool) (s : Argparse σ) :
    Except Stop (Bytes × Argparse σ) :=
  match s.optvalue with
  | some value => .ok (value, { s with optvalue := none })
  | none =>
    if 1 < Argv.argc s.argv then
      match Argv.head (Argv.shift s.argv) with
      | some value => .ok (value, s.shift)
      | none => .error .undefinedBehaviour
    else .error (argparseError opt long "requires a value")

/-- The `switch` of `argparse_getvalue`. -/
def argparseStore (opt : ArgparseOption) (v : ℕ) (unset long : Bool) (s : Argparse σ) :
    Except Stop (Argparse σ) :=
  match opt.type with
  | .boolean =>
    let n := if unset then s.values.ints v - 1 else s.values.ints v + 1
    .ok (s.setInt v (if n < 0 then 0 else n))
  | .bit =>
    let n := if unset then Int.land (s.values.ints v) (Int.lnot opt.data)
      else Int.lor (s.values.ints v) opt.data
    .ok (s.setInt v (toInt n))
  | .string => do
    let (value, s) ← argparseTakeValue opt long s
    return s.setString v value
  | .integer => do
    let (value, s) ← argparseTakeValue opt long s
    if (strtol value).2 ≠ [] then .error (argparseError opt long "expects a numerical value")
    else return s.setInt v (toInt (strtol value).1)
  | .group => .error .abort

/-- `argparse_getvalue` before the callback. -/
def argparseFill (opt : ArgparseOption) (unset long : Bool) (s : Argparse σ) :
    Except Stop (Argparse σ) :=
  match opt.value with
  | none => .ok s
  | some v => argparseStore opt v unset long s

def argparseGetvalue (opt : ArgparseOption) (unset long : Bool) (s : Argparse σ) :
    Except Stop (ℤ × Argparse σ) := do
  let s ← argparseFill opt unset long s
  match opt.callback with
  | none => return (0, s)
  | some callback =>
    let (code, values) ← callback s.values
    return (code, { s with values })

/-- `self->optvalue[1] ? self->optvalue + 1 : NULL` -/
def nextLetter (letters : Bytes) : Option Bytes :=
  if letters.drop 1 = [] then none else some (letters.drop 1)

def argparseShortOpt : List ArgparseOption → Argparse σ → Except Stop (ℤ × Argparse σ)
  | [], s => .ok (-2, s)
  | opt :: options, s =>
    match s.optvalue with
    | none => .error .undefinedBehaviour
    | some letters =>
      if opt.short_name = letters.headD 0 then
        argparseGetvalue opt false false { s with optvalue := nextLetter letters }
      else argparseShortOpt options s

/-- What follows the name of an option in an argument, and whether the option is negated. -/
def longName (opt : ArgparseOption) (name : Bytes) : Option (Bytes × Bool) :=
  match opt.long_name with
  | none => none
  | some long_name =>
    match prefixSkip name long_name with
    | some rest => some (rest, false)
    | none =>
      if opt.flags &&& OPT_NONEG ≠ 0 then none
      else if opt.type ≠ .boolean ∧ opt.type ≠ .bit then none
      else if ¬ [110, 111, 45].isPrefixOf name then none
      else (prefixSkip (name.drop 3) long_name).map (·, true)

/-- `name` is the argument without its two dashes. -/
def argparseLongOpt (name : Bytes) :
    List ArgparseOption → Argparse σ → Except Stop (ℤ × Argparse σ)
  | [], s => .ok (-2, s)
  | opt :: options, s =>
    match longName opt name with
    | none => argparseLongOpt name options s
    | some ([], unset) => argparseGetvalue opt unset true s
    | some (61 :: value, unset) => argparseGetvalue opt unset true { s with optvalue := some value }
    | some (_ :: _, _) => argparseLongOpt name options s

end Parser

section Measures

variable {σ : Type} [Argv σ] {opt : ArgparseOption} {unset long : Bool} {s s' : Argparse σ}

/-- The rest of the arguments and of the letters only gets shorter. -/
def Argparse.Within (s' s : Argparse σ) : Prop :=
  Argv.argc s'.argv ≤ Argv.argc s.argv ∧ (s'.optvalue = s.optvalue ∨ s'.optvalue = none)

theorem Argparse.Within.refl (s : Argparse σ) : s.Within s := ⟨le_refl _, Or.inl rfl⟩

theorem argparseTakeValue_within {value : Bytes}
    (h : argparseTakeValue opt long s = .ok (value, s')) : s'.Within s := by
  unfold argparseTakeValue at h
  split at h
  · cases h
    exact ⟨le_refl _, Or.inr rfl⟩
  · split_ifs at h
    split at h
    · cases h
      exact ⟨(Argv.argc_shift s.argv).trans_le (Nat.sub_le _ _), Or.inl rfl⟩
    · cases h

theorem length_nextLetter {letters rest : Bytes} (h : nextLetter letters = some rest) :
    rest.length < letters.length := by
  unfold nextLetter at h
  split_ifs at h with hnil
  obtain rfl := Option.some.inj h
  have hpos := List.length_pos_iff.2 hnil
  rw [List.length_drop] at hpos ⊢
  omega

theorem argparseStore_within {v : ℕ} (h : argparseStore opt v unset long s = .ok s') :
    s'.Within s := by
  unfold argparseStore at h
  split at h
  · cases h
    exact .refl s
  · cases h
    exact .refl s
  · obtain ⟨⟨value, t⟩, htake, ht⟩ := Except.bind_eq_ok.1 h
    cases ht
    exact (argparseTakeValue_within htake : t.Within s)
  · obtain ⟨⟨value, t⟩, htake, ht⟩ := Except.bind_eq_ok.1 h
    have hwithin := argparseTakeValue_within htake
    simp only [] at ht
    split_ifs at ht
    cases ht
    exact hwithin
  · cases h

theorem argparseGetvalue_within {code : ℤ}
    (h : argparseGetvalue opt unset long s = .ok (code, s')) : s'.Within s := by
  obtain ⟨t, ht, hcallback⟩ := Except.bind_eq_ok.1 h
  have hwithin : t.Within s := by
    unfold argparseFill at ht
    split at ht
    · cases ht
      exact .refl s
    · exact argparseStore_within ht
  split at hcallback
  · cases hcallback
    exact hwithin
  · obtain ⟨⟨code', values⟩, -, hs⟩ := Except.bind_eq_ok.1 hcallback
    cases hs
    exact hwithin

/-- A letter that belongs to an option is taken off. -/
theorem argparseShortOpt_within {code : ℤ} : ∀ {options : List ArgparseOption},
    argparseShortOpt options s = .ok (code, s') →
    Argv.argc s'.argv ≤ Argv.argc s.argv
      ∧ (code ≠ -2 → ∀ letters, s'.optvalue = some letters →
        letters.length < (s.optvalue.getD []).length)
  | [], h => by
    cases h
    exact ⟨le_refl _, fun hne => absurd rfl hne⟩
  | opt :: options, h => by
    rw [argparseShortOpt] at h
    split at h
    · cases h
    · rename_i letters hletters
      split_ifs at h
      · obtain ⟨hargc, hopt⟩ := argparseGetvalue_within h
        refine ⟨hargc, fun _ rest hrest => ?_⟩
        rcases hopt with hopt | hopt
        · rw [hletters, Option.getD_some]
          exact length_nextLetter (hopt.symm.trans hrest)
        · rw [hrest] at hopt
          cases hopt
      · exact argparseShortOpt_within h

theorem argparseLongOpt_within {name : Bytes} {code : ℤ} : ∀ {options : List ArgparseOption},
    argparseLongOpt name options s = .ok (code, s') → Argv.argc s'.argv ≤ Argv.argc s.argv
  | [], h => by
    cases h
    exact le_refl _
  | opt :: options, h => by
    rw [argparseLongOpt] at h
    split at h
    · exact argparseLongOpt_within h
    · exact (argparseGetvalue_within h).1
    · exact (argparseGetvalue_within h).1
    · exact argparseLongOpt_within h

end Measures

section Loops

variable {σ : Type} [Argv σ] (options : List ArgparseOption)

/-- A letter of an argument. The result tells whether an option was unknown. -/
def argparseLettersBody (s : Argparse σ) : Argparse σ ⊕ Except Stop (Bool × Argparse σ) :=
  match argparseShortOpt options s with
  | .error e => .inr (.error e)
  | .ok (code, s) =>
    if code = -2 then .inr (.ok (true, s))
    else if s.optvalue.isSome then .inl s
    else .inr (.ok (false, s))

theorem argparseLettersBody_falls :
    DoWhile.Falls (argparseLettersBody options : Argparse σ → _) fun s =>
      (s.optvalue.getD []).length := by
  intro s s' h
  unfold argparseLettersBody at h
  split at h
  · cases h
  · rename_i code t ht
    split_ifs at h with hcode hsome
    cases h
    obtain ⟨letters, hletters⟩ := Option.isSome_iff_exists.1 hsome
    show (s'.optvalue.getD []).length < _
    rw [hletters, Option.getD_some]
    exact (argparseShortOpt_within ht).2 hcode letters hletters

def argparseLetters : Argparse σ → Except Stop (Bool × Argparse σ) :=
  DoWhile.loop (argparseLettersBody options) _ (argparseLettersBody_falls options)

theorem argparseLetters_within {s s' : Argparse σ} {unknown : Bool}
    (h : argparseLetters options s = .ok (unknown, s')) :
    Argv.argc s'.argv ≤ Argv.argc s.argv := by
  suffices hloop : ∀ x, argparseLetters options s = .ok x →
      Argv.argc x.2.argv ≤ Argv.argc s.argv from hloop _ h
  refine DoWhile.loop_inv (fun t : Argparse σ => Argv.argc t.argv ≤ Argv.argc s.argv)
    (fun r : Except Stop (Bool × Argparse σ) =>
      ∀ x, r = .ok x → Argv.argc x.2.argv ≤ Argv.argc s.argv) (fun t ht => ?_) s (le_refl _)
  unfold argparseLettersBody
  split
  · intro x hx
    cases hx
  · rename_i code t' ht'
    have hle := (argparseShortOpt_within ht').1.trans ht
    split_ifs
    · intro x hx
      cases hx
      exact hle
    · exact hle
    · intro x hx
      cases hx
      exact hle

/-- What an argument looks like: none that starts with a dash, or the dash alone; letters after a
dash; two dashes alone; or a name after two dashes. -/
inductive ArgShape
  | operand
  | letters (letters : Bytes)
  | dashes
  | name (name : Bytes)
  deriving Repr, DecidableEq

def argShape (arg : Bytes) : ArgShape :=
  if arg.headD 0 ≠ 45 ∨ arg.drop 1 = [] then .operand
  else if (arg.drop 1).headD 0 ≠ 45 then .letters (arg.drop 1)
  else if arg.drop 2 = [] then .dashes
  else .name (arg.drop 2)

/-- After an option: the next argument, or the end of the program if the option was unknown. -/
def afterOption (unknown : Bool) (s : Argparse σ) : Argparse σ ⊕ Except Stop (Argparse σ) :=
  if unknown then .inr (.error (unknownOption (Argv.head s.argv))) else .inl s.shift

def argparseArg (flags : ℕ) (arg : Bytes) (s : Argparse σ) :
    Argparse σ ⊕ Except Stop (Argparse σ) :=
  match argShape arg with
  | .operand =>
    if flags &&& ARGPARSE_STOP_AT_NON_OPTION ≠ 0 then .inr (.ok s) else .inl s.keep.shift
  | .letters letters =>
    match argparseLetters options { s with optvalue := some letters } with
    | .error e => .inr (.error e)
    | .ok (unknown, s) => afterOption unknown s
  | .dashes => .inr (.ok s.shift)
  | .name name =>
    match argparseLongOpt name options s with
    | .error e => .inr (.error e)
    | .ok (code, s) => afterOption (code = -2) s

/-- A round of the loop of `argparse_parse`. -/
def argparseParseBody (flags : ℕ) (s : Argparse σ) : Argparse σ ⊕ Except Stop (Argparse σ) :=
  if Argv.argc s.argv = 0 then .inr (.ok s)
  else
    match Argv.head s.argv with
    | none => .inr (.error .undefinedBehaviour)
    | some arg => argparseArg options flags arg s

theorem argc_shift_lt {s t : Argparse σ} (hs : Argv.argc s.argv ≠ 0)
    (h : Argv.argc t.argv ≤ Argv.argc s.argv) : Argv.argc t.shift.argv < Argv.argc s.argv := by
  have hshift := Argv.argc_shift t.argv
  show Argv.argc (Argv.shift t.argv) < _
  omega

theorem afterOption_inl {unknown : Bool} {s s' : Argparse σ}
    (h : afterOption unknown s = .inl s') : s' = s.shift := by
  unfold afterOption at h
  split_ifs at h
  exact (Sum.inl.inj h).symm

theorem argparseArg_falls {flags : ℕ} {arg : Bytes} {s s' : Argparse σ}
    (hargc : Argv.argc s.argv ≠ 0) (h : argparseArg options flags arg s = .inl s') :
    Argv.argc s'.argv < Argv.argc s.argv := by
  unfold argparseArg at h
  split at h
  · split_ifs at h
    cases h
    exact argc_shift_lt hargc (Argv.argc_keep s.argv).le
  · split at h
    · cases h
    · rename_i letters _ _ unknown t ht
      have hwithin := argparseLetters_within options ht
      rw [afterOption_inl h]
      exact argc_shift_lt hargc hwithin
  · cases h
  · split at h
    · cases h
    · rename_i code t ht
      rw [afterOption_inl h]
      exact argc_shift_lt hargc (argparseLongOpt_within ht)

theorem argparseParseBody_falls (flags : ℕ) :
    DoWhile.Falls (argparseParseBody options flags : Argparse σ → _) fun s =>
      Argv.argc s.argv := by
  intro s s' h
  unfold argparseParseBody at h
  by_cases hargc : Argv.argc s.argv = 0
  · rw [if_pos hargc] at h
    cases h
  · rw [if_neg hargc] at h
    split at h
    · cases h
    · exact argparseArg_falls options hargc h

/-- `argparse_parse` up to `end:`. -/
def argparseLoop (flags : ℕ) : Argparse σ → Except Stop (Argparse σ) :=
  DoWhile.loop (argparseParseBody options flags) _ (argparseParseBody_falls options flags)

end Loops

section Array

/-- `self->out`, the place of `self->argv` in it, and the counts. -/
structure ArgvArray where
  out : List (Option Bytes)
  next : ℕ
  argc : ℕ
  cpidx : ℕ
  deriving Repr, DecidableEq

instance : Argv ArgvArray where
  argc := ArgvArray.argc
  head a := (a.out[a.next]?).join
  shift a := { a with next := a.next + 1, argc := a.argc - 1 }
  keep a := { a with out := a.out.set a.cpidx (a.out[a.next]?).join, cpidx := a.cpidx + 1 }
  argc_shift _ := rfl
  argc_keep _ := rfl

/-- What `main` is called with: `argv`, which ends with `NULL`. -/
def argvOf (program : Bytes) (args : List Bytes) : List (Option Bytes) :=
  some program :: args.map some ++ [none]

/-- `argparse_parse` from `end:` on: what it returns, and the array. -/
def ArgvArray.finish (a : ArgvArray) : ℕ × List (Option Bytes) :=
  let moved := a.out.take a.cpidx ++ (a.out.drop a.next).take a.argc
    ++ a.out.drop (a.cpidx + a.argc)
  (a.cpidx + a.argc, moved.set (a.cpidx + a.argc) none)

def argparseParse (options : List ArgparseOption) (flags : ℕ) (values : Variables) (program : Bytes)
    (args : List Bytes) : Except Stop ((ℕ × List (Option Bytes)) × Variables) := do
  let argv : ArgvArray := ⟨argvOf program args, 1, args.length, 0⟩
  let s ← argparseLoop options flags ⟨argv, none, values⟩
  return (s.argv.finish, s.values)

end Array

end Erlm
