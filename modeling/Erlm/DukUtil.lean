import Erlm.Context

/-!
# `duk_util.c`

`duk_util_unroll_array` replaces the array on the top of the stack by its elements.
`duk_util_peval_file` maps a file into memory and evaluates what it finds there as a string, and
`duk_util_peval_commonjs_file` leaves what the script put into `module.exports`. The descriptor and
the mapping are given back on every path, and nothing here depends on them afterwards.
-/

namespace Erlm

variable {ω : Type}

section Files

/-- A file that can be opened: its bytes, and whether `lseek` and `mmap` accept it. -/
structure File where
  contents : Bytes
  seekable : Bool
  mappable : Bool
  deriving Repr

/-- `lseek` to the end. -/
def File.lseekEnd (file : File) : ℤ := if file.seekable then file.contents.length else -1

/-- The bytes that can be read where `mmap` has mapped a length: whole pages, the last one of the
file filled up with zeros, and nothing beyond. A length of zero is refused. -/
def File.mmap (file : File) (page length : ℕ) : Option Bytes :=
  if file.mappable ∧ length ≠ 0 then
    some ((Pages.fill 0 page file.contents).take (Pages.roundUp page length))
  else none

variable (files : Bytes → Option File) (page : ℕ)

/-- The memory `duk_util_peval_file` maps, none where it gives up before that. -/
def mapFile (filepath : Bytes) : Option Bytes := do
  let file ← files filepath
  let file_size := toInt file.lseekEnd
  if file_size < 0 then none
  else file.mmap page (toSizeT file_size)

def dukUtilPevalFile (filepath : Bytes) : DukM ω ℤ :=
  match mapFile files page filepath with
  | none => return -1
  | some file_contents => dukPevalString file_contents

def moduleKey : Bytes := ascii ['m', 'o', 'd', 'u', 'l', 'e']

def exportsKey : Bytes := ascii ['e', 'x', 'p', 'o', 'r', 't', 's']

def dukUtilPevalCommonjsFile (filepath : Bytes) : DukM ω ℤ := do
  dukPush (.object [])
  dukPutGlobalString moduleKey
  let result ← dukUtilPevalFile files page filepath
  if result ≠ 0 then return -1
  else
    dukPop
    dukGetGlobalString moduleKey
    dukGetPropString (-1) (some exportsKey)
    dukInsert (-2)
    dukPop
    return 0

end Files

/-- A round of the loop leaves the value and drops its key. -/
def unrollRound (count : ℕ) : DukM ω ℕ := do
  dukRemove (-2)
  return count + 1

/-- The number of elements; anything but an array stays where it is and counts zero. -/
def dukUtilUnrollArray : DukM ω ℕ := do
  let array ← dukGet (-1)
  if array.isArray then
    dukEnum (-1) .arrayIndicesOnly
    let enum_index ← dukNormalizeIndex (-1)
    let count ← whileNext enum_index unrollRound 0
    dukRemove enum_index
    dukRemove (enum_index - 1)
    return count
  else return 0

def dukUtilPutFirstPropName : DukM ω Unit := do
  dukEnum (-1) .ownPropertiesOnly
  let _next ← dukNextKey (-1)
  dukInsert (-2)
  dukPop

end Erlm
