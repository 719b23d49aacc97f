import Erlm.Process
import Erlm.Proofs.InPlace

/-!
# The command line

What the program accepts is a grammar: arguments that are operands, flags by their letters and flags
by their names, up to a `--` after which everything is an operand (`commandLine_iff`). Any other
argument ends the program, with the help if it asks for it (`commandLine_stops`).
-/

namespace Erlm

/-- The two options of the program that set something. -/
inductive Flag
  | noRun
  | verbose
  deriving Repr, DecidableEq

def Flag.letter : Flag → UInt8
  | noRun => 110
  | verbose => 118

def Flag.name : Flag → Bytes
  | noRun => ascii ['n', 'o', '-', 'r', 'u', 'n']
  | verbose => ascii ['v', 'e', 'r', 'b', 'o', 's', 'e']

/-- The variable of `main` the flag counts in. -/
def Flag.value : Flag → ℕ
  | noRun => 0
  | verbose => 1

def Flag.help : Flag → Bytes
  | noRun => "avoid running the elm program".toUTF8.toList
  | verbose => "prints logging information to the stderr".toUTF8.toList

def Flag.option (f : Flag) : ArgparseOption :=
  ⟨.boolean, f.letter, some f.name, some f.value, f.help, none, 0, 0⟩

/-- A flag counts how often it is given, and never below zero. -/
def ErlmConfig.count (config : ErlmConfig) (f : Flag) (negated : Bool) : ErlmConfig :=
  let next (n : ℤ) : ℤ := if negated then max 0 (n - 1) else max 0 (n + 1)
  match f with
  | .noRun => { config with no_run := next config.no_run }
  | .verbose => { config with verbose := next config.verbose }

/-- `no-`, or nothing. -/
def negation (negated : Bool) : Bytes := if negated then [110, 111, 45] else []

/-- `=` and a value, or nothing. -/
def assignment : Option Bytes → Bytes
  | none => []
  | some value => 61 :: value

/-- An argument, without its dashes, that names an option. -/
def spelling (name : Bytes) (negated : Bool) (value : Option Bytes) : Bytes :=
  negation negated ++ (name ++ assignment value)

/-- An argument before any `--`: an operand, flags by their letters, or one by its name, which may
be negated and given a value that is not looked at. -/
inductive Word
  | operand (arg : Bytes)
  | letters (flags : List Flag)
  | name (f : Flag) (negated : Bool) (value : Option Bytes)

namespace Word

def render : Word → Bytes
  | operand arg => arg
  | letters flags => 45 :: flags.map Flag.letter
  | name f negated value => 45 :: 45 :: spelling f.name negated value

/-- An operand is the dash alone or starts with none, and there is a letter after a dash. -/
def Ok : Word → Prop
  | operand arg => arg.headD 0 ≠ 45 ∨ arg.drop 1 = []
  | letters flags => flags ≠ []
  | name _ _ _ => True

def operand? : Word → Option Bytes
  | operand arg => some arg
  | _ => none

def apply (config : ErlmConfig) : Word → ErlmConfig
  | operand _ => config
  | letters flags => flags.foldl (fun config f => config.count f false) config
  | name f negated _ => config.count f negated

end Word

/-- The words, and what follows a `--` if there is one. -/
def renderLine (words : List Word) (tail : Option (List Bytes)) : List Bytes :=
  words.map Word.render ++ tail.elim [] fun args => [45, 45] :: args

def lineOperands (words : List Word) (tail : Option (List Bytes)) : List Bytes :=
  words.filterMap Word.operand? ++ tail.getD []

def lineConfig (words : List Word) : ErlmConfig := words.foldl Word.apply erlmConfigDefaults

def helpName : Bytes := ascii ['h', 'e', 'l', 'p']

/-- The help is the first letter that is no flag, or it is asked for by its name. -/
def AsksHelp (arg : Bytes) : Prop :=
  (∃ (flags : List Flag) (rest : Bytes), arg = 45 :: (flags.map Flag.letter ++ 104 :: rest))
    ∨ ∃ negated value, arg = 45 :: 45 :: spelling helpName negated value

/-- An argument with no meaning. -/
structure Unknown (arg : Bytes) : Prop where
  not_word : ∀ w : Word, w.Ok → arg ≠ w.render
  not_dashes : arg ≠ [45, 45]
  not_help : ¬ AsksHelp arg

variable {σ : Type} [Argv σ] {argv : σ} {optvalue : Option Bytes} {config : ErlmConfig}

theorem erlmOptions_eq : erlmOptions = [helpOption, Flag.noRun.option, Flag.verbose.option] := rfl

theorem setInt_values (config : ErlmConfig) (n : ℤ) :
    config.values.setInt 0 n = ErlmConfig.values { config with no_run := n }
      ∧ config.values.setInt 1 n = ErlmConfig.values { config with verbose := n } := by
  unfold Variables.setInt ErlmConfig.values
  constructor
  · congr 1
    funext v
    by_cases hv : v = 0 <;> simp [hv]
  · congr 1
    funext v
    by_cases hv : v = 1 <;> simp [hv]

theorem ite_neg_eq_max (n : ℤ) : (if n < 0 then 0 else n) = max 0 n := by
  omega

theorem argparseGetvalue_flag (f : Flag) (negated long : Bool) (argv : σ) (optvalue : Option Bytes)
    (config : ErlmConfig) :
    argparseGetvalue f.option negated long ⟨argv, optvalue, config.values⟩
      = .ok (0, ⟨argv, optvalue, (config.count f negated).values⟩) := by
  have hcount : (config.count f negated).values
      = config.values.setInt f.value (max 0
        (if negated then config.values.ints f.value - 1 else config.values.ints f.value + 1)) := by
    cases f
    · cases negated <;> exact (setInt_values config _).1.symm
    · cases negated <;> exact (setInt_values config _).2.symm
  rw [hcount, ← ite_neg_eq_max]
  cases f <;> rfl

theorem argparseGetvalue_help (negated long : Bool) (s : Argparse σ) :
    argparseGetvalue helpOption negated long s = .error (.exit 0 true []) := rfl

section Letters

theorem nextLetter_cons (b : UInt8) {rest : Bytes} (h : rest ≠ []) :
    nextLetter (b :: rest) = some rest :=
  if_neg h

theorem argparseShortOpt_cons (opt : ArgparseOption) (options : List ArgparseOption) (b : UInt8)
    (rest : Bytes) (argv : σ) (values : Variables) :
    argparseShortOpt (opt :: options) ⟨argv, some (b :: rest), values⟩
      = if opt.short_name = b then
          argparseGetvalue opt false false ⟨argv, nextLetter (b :: rest), values⟩
        else argparseShortOpt options ⟨argv, some (b :: rest), values⟩ := rfl

theorem argparseShortOpt_flag (f : Flag) (rest : Bytes) (argv : σ) (config : ErlmConfig) :
    argparseShortOpt erlmOptions ⟨argv, some (f.letter :: rest), config.values⟩
      = .ok (0, ⟨argv, nextLetter (f.letter :: rest), (config.count f false).values⟩) := by
  rw [← argparseGetvalue_flag f false false]
  cases f <;> rfl

theorem argparseShortOpt_unknown {b : UInt8} (hhelp : b ≠ 104) (hflag : ∀ f : Flag, b ≠ f.letter)
    (rest : Bytes) (argv : σ) (values : Variables) :
    argparseShortOpt erlmOptions ⟨argv, some (b :: rest), values⟩
      = .ok (-2, ⟨argv, some (b :: rest), values⟩) := by
  rw [erlmOptions_eq, argparseShortOpt_cons, if_neg (fun h => hhelp h.symm), argparseShortOpt_cons,
    if_neg (fun h => hflag .noRun h.symm), argparseShortOpt_cons,
    if_neg (fun h => hflag .verbose h.symm)]
  rfl

/-- The letters of flags count, one after another. -/
theorem argparseLetters_flags {rest : Bytes} (hrest : rest ≠ []) (argv : σ) :
    ∀ (flags : List Flag) (config : ErlmConfig),
      argparseLetters erlmOptions ⟨argv, some (flags.map Flag.letter ++ rest), config.values⟩
        = argparseLetters erlmOptions ⟨argv, some rest,
          (flags.foldl (fun config f => config.count f false) config).values⟩
  | [], config => rfl
  | f :: flags, config => by
    have hmore : flags.map Flag.letter ++ rest ≠ [] := List.append_ne_nil_of_right_ne_nil _ hrest
    rw [List.foldl_cons, ← argparseLetters_flags hrest argv flags, List.map_cons, List.cons_append]
    refine DoWhile.loop_inl ?_
    unfold argparseLettersBody
    rw [argparseShortOpt_flag, nextLetter_cons _ hmore]
    rfl

theorem argparseLetters_last (f : Flag) (argv : σ) (config : ErlmConfig) :
    argparseLetters erlmOptions ⟨argv, some [f.letter], config.values⟩
      = .ok (false, ⟨argv, none, (config.count f false).values⟩) := by
  refine DoWhile.loop_inr ?_
  unfold argparseLettersBody
  rw [argparseShortOpt_flag]
  rfl

theorem argparseLetters_help (rest : Bytes) (argv : σ) (values : Variables) :
    argparseLetters erlmOptions ⟨argv, some (104 :: rest), values⟩ = .error (.exit 0 true []) :=
  DoWhile.loop_inr rfl

theorem argparseLetters_unknown {b : UInt8} (hhelp : b ≠ 104) (hflag : ∀ f : Flag, b ≠ f.letter)
    (rest : Bytes) (argv : σ) (values : Variables) :
    argparseLetters erlmOptions ⟨argv, some (b :: rest), values⟩
      = .ok (true, ⟨argv, some (b :: rest), values⟩) := by
  refine DoWhile.loop_inr ?_
  unfold argparseLettersBody
  rw [argparseShortOpt_unknown hhelp hflag]
  rfl

theorem argparseLetters_all {flags : List Flag} (hne : flags ≠ []) (argv : σ)
    (config : ErlmConfig) :
    argparseLetters erlmOptions ⟨argv, some (flags.map Flag.letter), config.values⟩
      = .ok (false, ⟨argv, none,
        (flags.foldl (fun config f => config.count f false) config).values⟩) := by
  obtain ⟨init, f, rfl⟩ := (List.eq_nil_or_concat flags).resolve_left hne
  rw [List.concat_eq_append, List.map_append, List.foldl_append, List.map_singleton,
    argparseLetters_flags (List.cons_ne_nil _ _), argparseLetters_last]
  rfl

/-- Letters are flags up to one that is none. -/
theorem letters_split : ∀ letters : Bytes, ∃ (flags : List Flag) (rest : Bytes),
    letters = flags.map Flag.letter ++ rest ∧ ∀ b ∈ rest.head?, ∀ f : Flag, b ≠ f.letter
  | [] => ⟨[], [], rfl, by simp⟩
  | b :: letters => by
    by_cases hb : ∃ f : Flag, b = f.letter
    · obtain ⟨f, rfl⟩ := hb
      obtain ⟨flags, rest, rfl, hrest⟩ := letters_split letters
      exact ⟨f :: flags, rest, rfl, hrest⟩
    · refine ⟨[], b :: letters, rfl, ?_⟩
      rintro _ ⟨⟩ f rfl
      exact hb ⟨f, rfl⟩

end Letters

section Names

theorem prefixSkip_eq_some_iff {str skipped rest : Bytes} :
    prefixSkip str skipped = some rest ↔ str = skipped ++ rest := by
  unfold prefixSkip
  split_ifs with h
  · obtain ⟨t, rfl⟩ := List.isPrefixOf_iff_prefix.1 h
    simp
  · refine iff_of_false (by simp) ?_
    rintro rfl
    exact h (List.isPrefixOf_iff_prefix.2 ⟨rest, rfl⟩)

/-- An option that can be negated and whose name is not the start of its negation. -/
structure Negatable (opt : ArgparseOption) (name : Bytes) : Prop where
  long_name : opt.long_name = some name
  type : opt.type = .boolean
  flags : opt.flags = 0
  free : ¬ name <+: [110, 111, 45] ++ name

variable {opt : ArgparseOption} {name arg rest : Bytes}

theorem Negatable.ne_append (h : Negatable opt name) (rest rest' : Bytes) :
    name ++ rest ≠ [110, 111, 45] ++ (name ++ rest') := by
  intro heq
  have hname : name <+: name ++ rest := ⟨rest, rfl⟩
  have hno : [110, 111, 45] ++ name <+: name ++ rest := ⟨rest', by rw [heq, List.append_assoc]⟩
  refine h.free (List.prefix_of_prefix_length_le hname hno ?_)
  rw [List.length_append]
  exact Nat.le_add_left _ _

theorem longName_eq_some_iff (h : Negatable opt name) {negated : Bool} :
    longName opt arg = some (rest, negated) ↔ arg = negation negated ++ (name ++ rest) := by
  unfold longName
  rw [h.long_name]
  simp only []
  rcases hskip : prefixSkip arg name with _ | rest'
  · have hplain : ∀ rest, arg ≠ name ++ rest := by
      intro rest hrest
      rw [prefixSkip_eq_some_iff.2 hrest] at hskip
      cases hskip
    rw [h.flags, h.type]
    by_cases hno : ∃ t, arg = [110, 111, 45] ++ t
    · obtain ⟨t, rfl⟩ := hno
      have htail : (prefixSkip t name = some rest ∧ true = negated)
          ↔ [110, 111, 45] ++ t = negation negated ++ (name ++ rest) := by
        cases negated
        · exact iff_of_false (fun h => Bool.noConfusion h.2) (hplain rest)
        · rw [prefixSkip_eq_some_iff]
          simp [negation]
      rw [← htail]
      simp
    · have hskip : ¬ [110, 111, 45].isPrefixOf arg := by
        rw [List.isPrefixOf_iff_prefix]
        rintro ⟨t, ht⟩
        exact hno ⟨t, ht.symm⟩
      rw [if_pos hskip]
      refine iff_of_false (by simp) fun harg => ?_
      cases negated
      · exact hplain rest harg
      · exact hno ⟨name ++ rest, harg⟩
  · obtain rfl := prefixSkip_eq_some_iff.1 hskip
    cases negated
    · simp [negation]
    · simpa [negation] using h.ne_append rest' rest

theorem argparseLongOpt_take (h : Negatable opt name) (options : List ArgparseOption)
    (negated : Bool) (value : Option Bytes) (s : Argparse σ) :
    ∃ optvalue, argparseLongOpt (spelling name negated value) (opt :: options) s
      = argparseGetvalue opt negated true ⟨s.argv, optvalue, s.values⟩ := by
  have hname := (longName_eq_some_iff h).2 (Eq.refl (spelling name negated value))
  rw [argparseLongOpt, hname]
  cases value with
  | none => exact ⟨s.optvalue, rfl⟩
  | some value => exact ⟨some value, rfl⟩

theorem argparseLongOpt_skip (h : Negatable opt name) {options : List ArgparseOption}
    (hne : ∀ negated value, arg ≠ spelling name negated value) (s : Argparse σ) :
    argparseLongOpt arg (opt :: options) s = argparseLongOpt arg options s := by
  rw [argparseLongOpt]
  split
  · rfl
  · rename_i negated hname
    exact absurd ((longName_eq_some_iff h).1 hname) (hne negated none)
  · rename_i value negated hname
    exact absurd ((longName_eq_some_iff h).1 hname) (hne negated (some value))
  · rfl

theorem negatable_help : Negatable helpOption helpName := ⟨rfl, rfl, rfl, by decide⟩

theorem negatable_flag (f : Flag) : Negatable f.option f.name := by
  cases f
  · exact ⟨rfl, rfl, rfl, by decide⟩
  · exact ⟨rfl, rfl, rfl, by decide⟩

theorem spelling_flag_ne_help (f : Flag) (negated negated' : Bool) (value value' : Option Bytes) :
    spelling f.name negated value ≠ spelling helpName negated' value' := by
  cases f <;> cases negated <;> cases negated' <;>
    simp [spelling, negation, Flag.name, helpName, ascii]

theorem spelling_verbose_ne_noRun (negated negated' : Bool) (value value' : Option Bytes) :
    spelling Flag.verbose.name negated value ≠ spelling Flag.noRun.name negated' value' := by
  cases negated <;> cases negated' <;> simp [spelling, negation, Flag.name, ascii]

theorem argparseLongOpt_flag (f : Flag) (negated : Bool) (value : Option Bytes) (argv : σ)
    (optvalue : Option Bytes) (config : ErlmConfig) :
    ∃ optvalue', argparseLongOpt (spelling f.name negated value) erlmOptions
        ⟨argv, optvalue, config.values⟩
      = .ok (0, ⟨argv, optvalue', (config.count f negated).values⟩) := by
  rw [erlmOptions_eq,
    argparseLongOpt_skip negatable_help (fun _ _ => spelling_flag_ne_help f _ _ _ _)]
  cases f with
  | noRun =>
    obtain ⟨optvalue', htake⟩ := argparseLongOpt_take (negatable_flag .noRun)
      [Flag.verbose.option] negated value ⟨argv, optvalue, config.values⟩
    exact ⟨optvalue', htake.trans (argparseGetvalue_flag .noRun _ _ _ _ _)⟩
  | verbose =>
    rw [argparseLongOpt_skip (negatable_flag .noRun) fun _ _ => spelling_verbose_ne_noRun _ _ _ _]
    obtain ⟨optvalue', htake⟩ := argparseLongOpt_take (negatable_flag .verbose) [] negated value
      ⟨argv, optvalue, config.values⟩
    exact ⟨optvalue', htake.trans (argparseGetvalue_flag .verbose _ _ _ _ _)⟩

theorem argparseLongOpt_help (negated : Bool) (value : Option Bytes) (s : Argparse σ) :
    argparseLongOpt (spelling helpName negated value) erlmOptions s = .error (.exit 0 true []) := by
  obtain ⟨optvalue, htake⟩ := argparseLongOpt_take negatable_help
    [Flag.noRun.option, Flag.verbose.option] negated value s
  exact htake.trans (argparseGetvalue_help _ _ _)

theorem argparseLongOpt_unknown (hhelp : ∀ negated value, arg ≠ spelling helpName negated value)
    (hflag : ∀ (f : Flag) negated value, arg ≠ spelling f.name negated value) (s : Argparse σ) :
    argparseLongOpt arg erlmOptions s = .ok (-2, s) := by
  rw [erlmOptions_eq, argparseLongOpt_skip negatable_help hhelp,
    argparseLongOpt_skip (negatable_flag .noRun) (hflag .noRun),
    argparseLongOpt_skip (negatable_flag .verbose) (hflag .verbose)]
  rfl

end Names

section Args

theorem argShape_eq_operand {arg : Bytes} (h : argShape arg = .operand) :
    (Word.operand arg).Ok := by
  unfold argShape at h
  split_ifs at h with hoperand
  exact hoperand

theorem argShape_eq_letters {arg letters : Bytes} (h : argShape arg = .letters letters) :
    arg = 45 :: letters ∧ letters ≠ [] := by
  unfold argShape at h
  split_ifs at h with hoperand hdash
  obtain rfl := ArgShape.letters.inj h
  obtain ⟨hhead, hne⟩ := not_or.1 hoperand
  cases arg with
  | nil => exact absurd rfl hne
  | cons b rest => exact ⟨congrArg (· :: rest) (not_not.1 hhead), hne⟩

theorem argShape_eq_dashes {arg : Bytes} (h : argShape arg = .dashes) : arg = [45, 45] := by
  unfold argShape at h
  split_ifs at h with hoperand hdash hrest
  obtain ⟨hhead, hne⟩ := not_or.1 hoperand
  obtain _ | ⟨b, _ | ⟨c, rest⟩⟩ := arg
  · exact absurd rfl hne
  · exact absurd rfl hne
  · obtain rfl : b = 45 := not_not.1 hhead
    obtain rfl : c = 45 := not_not.1 hdash
    obtain rfl : rest = [] := hrest
    rfl

theorem argShape_eq_name {arg name : Bytes} (h : argShape arg = .name name) :
    arg = 45 :: 45 :: name := by
  unfold argShape at h
  split_ifs at h with hoperand hdash hrest
  obtain rfl := ArgShape.name.inj h
  obtain ⟨hhead, hne⟩ := not_or.1 hoperand
  obtain _ | ⟨b, _ | ⟨c, rest⟩⟩ := arg
  · exact absurd rfl hne
  · exact absurd rfl hne
  · obtain rfl : b = 45 := not_not.1 hhead
    obtain rfl : c = 45 := not_not.1 hdash
    rfl

theorem argShape_operand {arg : Bytes} (h : (Word.operand arg).Ok) : argShape arg = .operand :=
  if_pos h

theorem argShape_cons_letters {b : UInt8} (hb : b ≠ 45) (rest : Bytes) :
    argShape (45 :: b :: rest) = .letters (b :: rest) := by
  simp [argShape, hb]

theorem argShape_cons_name {name : Bytes} (hname : name ≠ []) :
    argShape (45 :: 45 :: name) = .name name := by
  simp [argShape, hname]

theorem spelling_ne_nil {name : Bytes} (hname : name ≠ []) (negated : Bool)
    (value : Option Bytes) : spelling name negated value ≠ [] := by
  simp [spelling, hname]

theorem flagLetter_ne_dash (f : Flag) : f.letter ≠ 45 := by
  cases f <;> decide

theorem flagName_ne_nil (f : Flag) : f.name ≠ [] := by
  cases f <;> decide

theorem argShape_letters_append {b : UInt8} (hb : b ≠ 45) (flags : List Flag) (rest : Bytes) :
    argShape (45 :: (flags.map Flag.letter ++ b :: rest))
      = .letters (flags.map Flag.letter ++ b :: rest) := by
  cases flags with
  | nil => exact argShape_cons_letters hb rest
  | cons f flags => exact argShape_cons_letters (flagLetter_ne_dash f) _

variable {operands rest : List Bytes}

/-- A word gives its operand to the operands, and counts its flags. -/
theorem argparseArg_word {w : Word} (hw : w.Ok) (operands rest : List Bytes)
    (optvalue : Option Bytes) (config : ErlmConfig) :
    ∃ optvalue', argparseArg erlmOptions 0 w.render
        ⟨(⟨operands, w.render :: rest⟩ : ArgvList), optvalue, config.values⟩
      = .inl ⟨⟨operands ++ w.operand?.toList, rest⟩, optvalue', (w.apply config).values⟩ := by
  unfold argparseArg
  cases w with
  | operand arg =>
    rw [Word.render, argShape_operand hw]
    exact ⟨optvalue, rfl⟩
  | letters flags =>
    obtain ⟨f, more, rfl⟩ := List.exists_cons_of_ne_nil hw
    have hshape : argShape (Word.letters (f :: more)).render
        = .letters ((f :: more).map Flag.letter) :=
      argShape_cons_letters (flagLetter_ne_dash f) _
    rw [hshape]
    simp only []
    rw [argparseLetters_all (List.cons_ne_nil _ _)]
    exact ⟨none, by simp [afterOption, Argparse.shift, Argv.shift, Word.operand?, Word.apply]⟩
  | name f negated value =>
    have hshape : argShape (Word.name f negated value).render
        = .name (spelling f.name negated value) :=
      argShape_cons_name (spelling_ne_nil (flagName_ne_nil f) _ _)
    obtain ⟨optvalue', hopt⟩ := argparseLongOpt_flag f negated value
      (⟨operands, (Word.name f negated value).render :: rest⟩ : ArgvList) optvalue config
    rw [hshape]
    simp only []
    rw [hopt]
    exact ⟨optvalue', by simp [afterOption, Argparse.shift, Argv.shift, Word.operand?, Word.apply]⟩

theorem argparseArg_help {arg : Bytes} (h : AsksHelp arg) (argv : ArgvList)
    (optvalue : Option Bytes) (config : ErlmConfig) :
    argparseArg erlmOptions 0 arg ⟨argv, optvalue, config.values⟩
      = .inr (.error (.exit 0 true [])) := by
  unfold argparseArg
  rcases h with ⟨flags, rest, rfl⟩ | ⟨negated, value, rfl⟩
  · rw [argShape_letters_append (by decide)]
    simp only []
    rw [argparseLetters_flags (List.cons_ne_nil _ _), argparseLetters_help]
  · rw [argShape_cons_name (spelling_ne_nil (by decide) _ _)]
    simp only []
    rw [argparseLongOpt_help]

theorem argparseArg_unknown {arg : Bytes} (h : Unknown arg) (operands rest : List Bytes)
    (optvalue : Option Bytes) (config : ErlmConfig) :
    argparseArg erlmOptions 0 arg ⟨(⟨operands, arg :: rest⟩ : ArgvList), optvalue, config.values⟩
      = .inr (.error (unknownOption (some arg))) := by
  unfold argparseArg
  split
  · rename_i hshape
    exact absurd rfl (h.not_word (.operand arg) (argShape_eq_operand hshape))
  · rename_i letters hshape
    obtain ⟨rfl, hne⟩ := argShape_eq_letters hshape
    obtain ⟨flags, more, rfl, hmore⟩ := letters_split letters
    cases more with
    | nil =>
      rw [List.append_nil] at h hne
      exact absurd rfl (h.not_word (.letters flags) fun hnil => hne (by rw [hnil]; rfl))
    | cons b more =>
      have hhelp : b ≠ 104 := by
        rintro rfl
        exact h.not_help (Or.inl ⟨flags, more, rfl⟩)
      rw [argparseLetters_flags (List.cons_ne_nil _ _),
        argparseLetters_unknown hhelp (hmore b rfl)]
      rfl
  · rename_i hshape
    exact absurd (argShape_eq_dashes hshape) h.not_dashes
  · rename_i name hshape
    obtain rfl := argShape_eq_name hshape
    rw [argparseLongOpt_unknown]
    · rfl
    · rintro negated value rfl
      exact h.not_help (Or.inr ⟨negated, value, rfl⟩)
    · rintro f negated value rfl
      exact h.not_word (.name f negated value) trivial rfl

end Args

section Lines

variable {words : List Word}

theorem argparseLoop_arg {arg : Bytes} {operands rest : List Bytes} {optvalue : Option Bytes}
    {values : Variables} :
    argparseParseBody erlmOptions 0 ⟨(⟨operands, arg :: rest⟩ : ArgvList), optvalue, values⟩
      = argparseArg erlmOptions 0 arg ⟨⟨operands, arg :: rest⟩, optvalue, values⟩ := rfl

/-- Words are read one after another. -/
theorem argparseLoop_words (rest : List Bytes) :
    ∀ (words : List Word), (∀ w ∈ words, w.Ok) →
      ∀ (operands : List Bytes) (optvalue : Option Bytes) (config : ErlmConfig),
        ∃ optvalue', argparseLoop erlmOptions 0
            ⟨(⟨operands, words.map Word.render ++ rest⟩ : ArgvList), optvalue, config.values⟩
          = argparseLoop erlmOptions 0 ⟨⟨operands ++ words.filterMap Word.operand?, rest⟩,
            optvalue', (words.foldl Word.apply config).values⟩
  | [], _, operands, optvalue, config => ⟨optvalue, by simp⟩
  | w :: words, h, operands, optvalue, config => by
    have hw := h w List.mem_cons_self
    have hwords := fun w' hw' => h w' (List.mem_cons_of_mem w hw')
    obtain ⟨optvalue', hword⟩ := argparseArg_word hw operands (words.map Word.render ++ rest)
      optvalue config
    obtain ⟨optvalue'', hloop⟩ := argparseLoop_words rest words hwords
      (operands ++ w.operand?.toList) optvalue' (w.apply config)
    have hoperands : operands ++ (w :: words).filterMap Word.operand?
        = operands ++ w.operand?.toList ++ words.filterMap Word.operand? := by
      rw [List.append_assoc, List.filterMap_cons]
      cases w.operand? <;> rfl
    refine ⟨optvalue'', ?_⟩
    rw [hoperands, List.foldl_cons, ← hloop, List.map_cons, List.cons_append]
    exact DoWhile.loop_inl (argparseLoop_arg.trans hword)

/-- An argument that is no word ends the loop. -/
theorem parseArgs_words (hwords : ∀ w ∈ words, w.Ok) (rest : List Bytes)
    (r : ArgvList → Option Bytes → Variables → Except Stop (Argparse ArgvList))
    (hrest : ∀ operands optvalue (config : ErlmConfig),
      argparseParseBody erlmOptions 0 ⟨(⟨operands, rest⟩ : ArgvList), optvalue, config.values⟩
        = .inr (r ⟨operands, rest⟩ optvalue config.values)) :
    ∃ optvalue, parseArgs erlmOptions 0 erlmConfigDefaults.values (words.map Word.render ++ rest)
      = (r ⟨words.filterMap Word.operand?, rest⟩ optvalue (lineConfig words).values).map
        fun s => (s.argv.operands ++ s.argv.rest, s.values) := by
  obtain ⟨optvalue, hloop⟩ := argparseLoop_words rest words hwords [] none erlmConfigDefaults
  refine ⟨optvalue, ?_⟩
  unfold parseArgs
  simp only []
  rw [hloop, List.nil_append]
  unfold argparseLoop
  rw [DoWhile.loop_inr (hrest _ _ _)]
  rfl

/-- A line of words gives its operands and its flags. -/
theorem parseArgs_line (hwords : ∀ w ∈ words, w.Ok) (tail : Option (List Bytes)) :
    parseArgs erlmOptions 0 erlmConfigDefaults.values (renderLine words tail)
      = .ok (lineOperands words tail, (lineConfig words).values) := by
  cases tail with
  | none =>
    obtain ⟨optvalue, hparse⟩ := parseArgs_words hwords []
      (fun argv optvalue values => .ok ⟨argv, optvalue, values⟩) fun _ _ _ => rfl
    exact hparse
  | some args =>
    obtain ⟨optvalue, hparse⟩ := parseArgs_words hwords ([45, 45] :: args)
      (fun argv optvalue values => .ok ⟨⟨argv.operands, args⟩, optvalue, values⟩) fun _ _ _ => rfl
    exact hparse

theorem parseArgs_help (hwords : ∀ w ∈ words, w.Ok) {arg : Bytes} (harg : AsksHelp arg)
    (rest : List Bytes) :
    parseArgs erlmOptions 0 erlmConfigDefaults.values (words.map Word.render ++ arg :: rest)
      = .error (.exit 0 true []) := by
  obtain ⟨optvalue, hparse⟩ := parseArgs_words hwords (arg :: rest)
    (fun _ _ _ => .error (.exit 0 true []))
    fun _ _ _ => argparseLoop_arg.trans (argparseArg_help harg _ _ _)
  exact hparse

theorem parseArgs_unknown (hwords : ∀ w ∈ words, w.Ok) {arg : Bytes} (harg : Unknown arg)
    (rest : List Bytes) :
    parseArgs erlmOptions 0 erlmConfigDefaults.values (words.map Word.render ++ arg :: rest)
      = .error (unknownOption (some arg)) := by
  obtain ⟨optvalue, hparse⟩ := parseArgs_words hwords (arg :: rest)
    (fun _ _ _ => .error (unknownOption (some arg)))
    fun _ _ _ => argparseLoop_arg.trans (argparseArg_unknown harg _ _ _ _)
  exact hparse

/-- What a list of arguments is: a line, or words up to an argument that ends the program. -/
theorem line_cases : ∀ args : List Bytes,
    (∃ words tail, (∀ w ∈ words, w.Ok) ∧ args = renderLine words tail)
      ∨ ∃ (words : List Word) (arg : Bytes) (rest : List Bytes), (∀ w ∈ words, w.Ok)
        ∧ args = words.map Word.render ++ arg :: rest ∧ (AsksHelp arg ∨ Unknown arg)
  | [] => Or.inl ⟨[], none, by simp, rfl⟩
  | arg :: args => by
    by_cases hword : ∃ w : Word, w.Ok ∧ arg = w.render
    · obtain ⟨w, hw, rfl⟩ := hword
      rcases line_cases args with ⟨words, tail, hwords, rfl⟩ | ⟨words, arg, rest, hwords, rfl, harg⟩
      · exact Or.inl ⟨w :: words, tail, List.forall_mem_cons.2 ⟨hw, hwords⟩, rfl⟩
      · exact Or.inr ⟨w :: words, arg, rest, List.forall_mem_cons.2 ⟨hw, hwords⟩, rfl, harg⟩
    · by_cases hdashes : arg = [45, 45]
      · exact Or.inl ⟨[], some args, by simp, by rw [hdashes]; rfl⟩
      · refine Or.inr ⟨[], arg, args, by simp, rfl, ?_⟩
        by_cases hhelp : AsksHelp arg
        · exact Or.inl hhelp
        · exact Or.inr ⟨fun w hw harg => hword ⟨w, hw, harg⟩, hdashes, hhelp⟩

/-- The file of a line, if the file is its only operand. -/
def onlyFile (config : ErlmConfig) : List Bytes → Option (ErlmConfig × Bytes)
  | [filepath] => some (config, filepath)
  | _ => none

theorem onlyFile_eq_some_iff {config config' : ErlmConfig} {operands : List Bytes}
    {filepath : Bytes} :
    onlyFile config operands = some (config', filepath)
      ↔ operands = [filepath] ∧ config = config' := by
  unfold onlyFile
  split
  · simp [and_comm]
  · rename_i hnot
    refine iff_of_false (by simp) ?_
    rintro ⟨rfl, -⟩
    exact hnot filepath rfl

/-- `main` looks at the operands it is given. -/
theorem commandLine_eq (program : Bytes) (args : List Bytes) :
    commandLine program args = (parseArgs erlmOptions 0 erlmConfigDefaults.values args).map
      fun r => onlyFile r.2.config r.1 := by
  have hagree := argparseParse_agree erlmOptions 0 erlmConfigDefaults.values program args
  unfold commandLine
  generalize argparseParse erlmOptions 0 erlmConfigDefaults.values program args = x,
    parseArgs erlmOptions 0 erlmConfigDefaults.values args = y at hagree
  cases hagree with
  | error stop => rfl
  | @ok r l h =>
    obtain ⟨⟨argc, argv⟩, values⟩ := r
    obtain ⟨operands, values'⟩ := l
    simp only [SameResult, Prod.mk.injEq] at h
    obtain ⟨rfl, hargv, rfl⟩ := h
    show (if operands.length ≠ 1 then _ else _) = Except.ok (onlyFile values.config operands)
    by_cases hone : operands.length = 1
    · obtain ⟨filepath, rfl⟩ := List.length_eq_one_iff.1 hone
      have hfirst : argv[0]? = some (some filepath) := by
        have hget := congrArg (·[0]?) hargv
        simpa [List.getElem?_take] using hget
      rw [if_neg (not_not.2 hone), hfirst]
      rfl
    · rw [if_pos hone]
      unfold onlyFile
      split
      · exact absurd rfl hone
      · rfl

theorem commandLine_line (hwords : ∀ w ∈ words, w.Ok) (tail : Option (List Bytes))
    (program : Bytes) :
    commandLine program (renderLine words tail)
      = .ok (onlyFile (lineConfig words) (lineOperands words tail)) := by
  rw [commandLine_eq, parseArgs_line hwords]
  rfl

theorem commandLine_help (hwords : ∀ w ∈ words, w.Ok) {arg : Bytes} (harg : AsksHelp arg)
    (rest : List Bytes) (program : Bytes) :
    commandLine program (words.map Word.render ++ arg :: rest) = .error (.exit 0 true []) := by
  rw [commandLine_eq, parseArgs_help hwords harg]
  rfl

theorem commandLine_unknown (hwords : ∀ w ∈ words, w.Ok) {arg : Bytes} (harg : Unknown arg)
    (rest : List Bytes) (program : Bytes) :
    commandLine program (words.map Word.render ++ arg :: rest)
      = .error (unknownOption (some arg)) := by
  rw [commandLine_eq, parseArgs_unknown hwords harg]
  rfl

/-- The program runs a file exactly if the arguments are a line with one operand, the file, and it
runs it with what the flags count. -/
theorem commandLine_iff (program : Bytes) (args : List Bytes) (config : ErlmConfig)
    (filepath : Bytes) :
    commandLine program args = .ok (some (config, filepath))
      ↔ ∃ words tail, (∀ w ∈ words, w.Ok) ∧ args = renderLine words tail
        ∧ lineOperands words tail = [filepath] ∧ lineConfig words = config := by
  constructor
  · intro h
    rcases line_cases args with ⟨words, tail, hwords, rfl⟩ | ⟨words, arg, rest, hwords, rfl, harg⟩
    · rw [commandLine_line hwords] at h
      exact ⟨words, tail, hwords, rfl, onlyFile_eq_some_iff.1 (Except.ok.inj h)⟩
    · rcases harg with hhelp | hunknown
      · rw [commandLine_help hwords hhelp] at h
        cases h
      · rw [commandLine_unknown hwords hunknown] at h
        cases h
  · rintro ⟨words, tail, hwords, rfl, hline⟩
    rw [commandLine_line hwords, onlyFile_eq_some_iff.2 hline]

/-- It ends before that exactly at an argument behind words that asks for the help or has no
meaning. -/
theorem commandLine_stops (program : Bytes) (args : List Bytes) (stop : Stop) :
    commandLine program args = .error stop
      ↔ ∃ (words : List Word) (arg : Bytes) (rest : List Bytes), (∀ w ∈ words, w.Ok)
        ∧ args = words.map Word.render ++ arg :: rest
        ∧ (AsksHelp arg ∧ stop = .exit 0 true []
          ∨ Unknown arg ∧ stop = unknownOption (some arg)) := by
  constructor
  · intro h
    rcases line_cases args with ⟨words, tail, hwords, rfl⟩ | ⟨words, arg, rest, hwords, rfl, harg⟩
    · rw [commandLine_line hwords] at h
      cases h
    · refine ⟨words, arg, rest, hwords, rfl, ?_⟩
      rcases harg with hhelp | hunknown
      · rw [commandLine_help hwords hhelp] at h
        exact Or.inl ⟨hhelp, (Except.error.inj h).symm⟩
      · rw [commandLine_unknown hwords hunknown] at h
        exact Or.inr ⟨hunknown, (Except.error.inj h).symm⟩
  · rintro ⟨words, arg, rest, hwords, rfl, ⟨hhelp, rfl⟩ | ⟨hunknown, rfl⟩⟩
    · exact commandLine_help hwords hhelp rest program
    · exact commandLine_unknown hwords hunknown rest program

end Lines

end Erlm
