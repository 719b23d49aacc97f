import Erlm.CInt
import Erlm.Lib.DoWhile

/-!
# `io.c`

`io_read` and `io_write` loop over the `read` and `write` system calls until everything asked for
has gone through or a call returns something not positive. The kernel decides each call's outcome:
it fails, transfers nothing, or transfers at least one byte and at most as many as asked for. A
stream of such decisions is the schedule of a descriptor.
-/

namespace Erlm

/-- What the kernel does with a system call: fail, transfer nothing, or transfer up to `k + 1`
bytes. -/
inductive Outcome
  | error
  | zero
  | upTo (k : ℕ)
  deriving Repr, DecidableEq

/-- The largest count `read` and `write` accept. -/
def SSIZE_MAX : ℕ := 2 ^ 63 - 1

/-- How many bytes an outcome lets through of the `count` asked for, none if the call fails. -/
def Outcome.limit (o : Outcome) (count : ℕ) : Option ℕ :=
  if SSIZE_MAX < count then none
  else match o with
    | .error => none
    | .zero => some 0
    | .upTo k => some (min (k + 1) count)

/-- A descriptor open for reading: the bytes still to come, the kernel's decisions, and the calls
made so far as their counts and results. -/
structure Input where
  pending : List UInt8
  sched : ℕ → Outcome
  calls : List (ℕ × ℤ)

/-- A descriptor open for writing, with the bytes that went out. -/
structure Output where
  written : List UInt8
  sched : ℕ → Outcome
  calls : List (ℕ × ℤ)

/-- The `read` system call: its result and the bytes it stored. -/
def Input.read (fd : Input) (count : ℕ) : ℤ × List UInt8 × Input :=
  match (fd.sched fd.calls.length).limit count with
  | none => (-1, [], { fd with calls := fd.calls ++ [(count, -1)] })
  | some m =>
    let bytes := fd.pending.take m
    (bytes.length, bytes,
      { fd with pending := fd.pending.drop m, calls := fd.calls ++ [(count, (bytes.length : ℤ))] })

/-- The `write` system call on the bytes at `buffer`, `count` of them. -/
def Output.write (fd : Output) (buffer : List UInt8) (count : ℕ) : ℤ × Output :=
  match (fd.sched fd.calls.length).limit count with
  | none => (-1, { fd with calls := fd.calls ++ [(count, -1)] })
  | some m =>
    (m, { fd with written := fd.written ++ buffer.take m, calls := fd.calls ++ [(count, (m : ℤ))] })

/-- The buffer after `bytes` were stored from `offset` on. -/
def storeAt (buffer : List UInt8) (offset : ℕ) (bytes : List UInt8) : List UInt8 :=
  buffer.take offset ++ bytes ++ buffer.drop (offset + bytes.length)

/-- Where the loop of `io_read` stands. -/
structure ReadState where
  got : ℤ
  buffer : List UInt8
  fd : Input

def ioReadBody (length : ℤ) (s : ReadState) : ReadState ⊕ (ℤ × List UInt8 × Input) :=
  let (result, bytes, fd) := s.fd.read (toSizeT (length - s.got))
  let got_or_error := toInt result
  let buffer := storeAt s.buffer s.got.toNat bytes
  if got_or_error ≤ 0 then .inr (got_or_error, buffer, fd)
  else
    let got := s.got + got_or_error
    if got < length then .inl ⟨got, buffer, fd⟩ else .inr (got, buffer, fd)

/-- A round that goes on leaves less to read. -/
theorem ioReadBody_falls (length : ℤ) :
    DoWhile.Falls (ioReadBody length) fun s => (length - s.got).toNat := by
  intro s s' h
  simp only [ioReadBody] at h
  split_ifs at h with h1 h2
  simp only [Sum.inl.injEq] at h
  subst h
  simp only
  omega

/-- The result, the buffer and the descriptor after reading `length` bytes into `buffer`. -/
def ioRead (fd : Input) (buffer : List UInt8) (length : ℤ) : ℤ × List UInt8 × Input :=
  DoWhile.loop (ioReadBody length) _ (ioReadBody_falls length) ⟨0, buffer, fd⟩

/-- The two bytes at the start of the buffer, put together in `int` arithmetic. -/
def headerLength (b₀ b₁ : UInt8) : ℤ := ((charToInt b₀ <<< 8) ||| charToInt b₁).toInt

def ioReadPacket2 (fd : Input) (buffer : List UInt8) : ℤ × List UInt8 × Input :=
  let (result, buffer, fd) := ioRead fd buffer 2
  if result ≠ 2 then (-1, buffer, fd)
  else
    let length := toSizeT (headerLength (buffer.getD 0 0) (buffer.getD 1 0))
    ioRead fd buffer (toInt length)

/-- Where the loop of `io_write` stands. -/
structure WriteState where
  wrote : ℤ
  fd : Output

def ioWriteBody (buffer : List UInt8) (length : ℤ) (s : WriteState) : WriteState ⊕ (ℤ × Output) :=
  let (result, fd) := s.fd.write (buffer.drop s.wrote.toNat) (toSizeT (length - s.wrote))
  let wrote_or_error := toInt result
  if wrote_or_error ≤ 0 then .inr (wrote_or_error, fd)
  else
    let wrote := s.wrote + wrote_or_error
    if wrote < length then .inl ⟨wrote, fd⟩ else .inr (wrote, fd)

/-- A round that goes on leaves less to write. -/
theorem ioWriteBody_falls (buffer : List UInt8) (length : ℤ) :
    DoWhile.Falls (ioWriteBody buffer length) fun s => (length - s.wrote).toNat := by
  intro s s' h
  simp only [ioWriteBody] at h
  split_ifs at h with h1 h2
  simp only [Sum.inl.injEq] at h
  subst h
  simp only
  omega

/-- The result and the descriptor after writing `length` bytes of `buffer`. -/
def ioWrite (fd : Output) (buffer : List UInt8) (length : ℤ) : ℤ × Output :=
  DoWhile.loop (ioWriteBody buffer length) _ (ioWriteBody_falls buffer length) ⟨0, fd⟩

def ioWritePacket2 (fd : Output) (buffer : List UInt8) (length : ℤ) : ℤ × Output :=
  let tmp := UInt8.ofInt (length >>> (8 : ℕ))
  let (_, fd) := ioWrite fd [tmp] 1
  let tmp := UInt8.ofInt length
  let (_, fd) := ioWrite fd [tmp] 1
  ioWrite fd buffer length

end Erlm
