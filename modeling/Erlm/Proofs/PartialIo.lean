import Erlm.Proofs.Io

/-!
# What the system calls moved

`io_read` and `io_write` ask each time for what is still missing and stop when nothing is, or with
the first call that moves nothing (`partialIo_exact`). Every claim about frames rests on the account
of the calls kept here, one call a round (`Going`) up to the one that ends the loop (`Ended`).
-/

namespace Erlm

section Account

/-- Calls that each asked for all that was missing of `n` bytes and got a part, `got` together. -/
inductive Going (n : ℕ) : List (ℕ × ℤ) → ℕ → Prop
  | start : Going n [] 0
  | part {made : List (ℕ × ℤ)} {got k : ℕ} (h : Going n made got) (hk : 0 < k)
      (hmore : got + k < n) : Going n (made ++ [(n - got, (k : ℤ))]) (got + k)

/-- Calls of which the last brought the rest, or nothing. -/
inductive Ended (n : ℕ) : List (ℕ × ℤ) → ℕ → ℤ → Prop
  | rest {made : List (ℕ × ℤ)} {got k : ℕ} (h : Going n made got) (hk : 0 < k)
      (hall : got + k = n) : Ended n (made ++ [(n - got, (k : ℤ))]) n n
  | nothing {made : List (ℕ × ℤ)} {got : ℕ} {r : ℤ} (h : Going n made got) (hr : r ≤ 0) :
      Ended n (made ++ [(n - got, r)]) got r

/-- The bytes some calls moved, by their results. -/
def movedBy (made : List (ℕ × ℤ)) : ℕ := (made.map fun call => call.2.toNat).sum

/-- The calls made for `n` bytes moved `moved` of them, and the result says so. -/
structure Accounted (n : ℕ) (made : List (ℕ × ℤ)) (moved : ℕ) (result : ℤ) : Prop where
  few : made.length ≤ max n 1
  asks : ∀ before call after, made = before ++ call :: after → call.1 + movedBy before ≤ n
  sum : moved = movedBy made
  le : moved ≤ n
  whole : 0 < n → (result = n ↔ moved = n)
  stopped : 0 < n → result ≠ n → result ≤ 0 ∧ ∃ count, made.getLast? = some (count, result)

variable {n got : ℕ} {made : List (ℕ × ℤ)}

theorem movedBy_concat (made : List (ℕ × ℤ)) (count : ℕ) (r : ℤ) :
    movedBy (made ++ [(count, r)]) = movedBy made + r.toNat := by
  simp [movedBy]

theorem Going.sum (h : Going n made got) : movedBy made = got := by
  induction h with
  | start => rfl
  | part _ _ _ ih => rw [movedBy_concat, ih, Int.toNat_natCast]

theorem Going.le (h : Going n made got) : got ≤ n := by
  cases h with
  | start => exact Nat.zero_le n
  | part _ _ hmore => exact hmore.le

/-- Before the end something is missing. -/
theorem Going.lt (h : Going n made got) (hn : 0 < n) : got < n := by
  cases h with
  | start => exact hn
  | part _ _ hmore => exact hmore

theorem Going.within (h : Going n made got) : Within n got := by
  cases h with
  | start => exact ⟨le_rfl, Or.inr rfl⟩
  | part _ _ hmore => exact ⟨by omega, Or.inl (by exact_mod_cast hmore)⟩

/-- The next call asks for what is missing. -/
theorem Going.missing (h : Going n made got) (hn : n < 2 ^ 31) :
    toSizeT ((n : ℤ) - got) = n - got :=
  toSizeT_missing h.le hn

/-- Each call got a byte at least. -/
theorem Going.length_le (h : Going n made got) : made.length ≤ got := by
  induction h with
  | start => exact le_rfl
  | part _ hk _ ih =>
    rw [List.length_append, List.length_singleton]
    omega

/-- No call of a longer account asks for too much if none of the shorter one did and the last does
not. -/
theorem asks_concat {count : ℕ} {r : ℤ}
    (h : ∀ before call after, made = before ++ call :: after → call.1 + movedBy before ≤ n)
    (hlast : count + movedBy made ≤ n) : ∀ before call after,
    made ++ [(count, r)] = before ++ call :: after → call.1 + movedBy before ≤ n := by
  intro before call after heq
  rcases List.eq_nil_or_concat after with rfl | ⟨after', last, rfl⟩
  · obtain ⟨rfl, hcall⟩ := List.append_inj' heq rfl
    cases hcall
    exact hlast
  · rw [List.concat_eq_append, ← List.cons_append, ← List.append_assoc] at heq
    exact h before call after' (List.append_inj' heq rfl).1

theorem Going.asks (h : Going n made got) : ∀ before call after,
    made = before ++ call :: after → call.1 + movedBy before ≤ n := by
  induction h with
  | start =>
    intro before call after heq
    simp at heq
  | part h _ _ ih =>
    refine asks_concat ih ?_
    have := h.le
    rw [h.sum]
    omega

/-- The account of a loop that ended is exact. -/
theorem Ended.accounted {moved : ℕ} {result : ℤ} (h : Ended n made moved result) :
    Accounted n made moved result := by
  cases h with
  | @rest made got k h hk hall =>
    have hlen := h.length_le
    refine ⟨?_, asks_concat h.asks ?_, ?_, le_rfl, fun _ => by simp, fun _ hne => absurd rfl hne⟩
    · rw [List.length_append, List.length_singleton]
      omega
    · rw [h.sum]
      omega
    · rw [movedBy_concat, h.sum, Int.toNat_natCast, hall]
  | nothing h hr =>
    have hle := h.le
    have hlen := h.length_le
    refine ⟨?_, asks_concat h.asks ?_, ?_, hle, fun hn => ?_, fun _ _ => ⟨hr, n - moved, by simp⟩⟩
    · rw [List.length_append, List.length_singleton]
      rcases Nat.eq_zero_or_pos n with rfl | hn
      · omega
      · have := h.lt hn
        omega
    · rw [h.sum]
      omega
    · rw [movedBy_concat, h.sum, Int.toNat_of_nonpos hr, Nat.add_zero]
    · have := h.lt hn
      omega

end Account

section Read

/-- What `io_read` does with a request for `n` bytes. -/
def ReadsExactly (fd : Input) (buffer : List UInt8) (n : ℕ) (r : ℤ × List UInt8 × Input) : Prop :=
  ∃ made bytes, r.2.2.calls = fd.calls ++ made ∧ fd.pending = bytes ++ r.2.2.pending
    ∧ r.2.1 = storeAt buffer 0 bytes ∧ Accounted n made bytes.length r.1

/-- Where the loop stands after some calls that got `bytes`. -/
structure GotSoFar (fd : Input) (buffer : List UInt8) (n : ℕ) (made : List (ℕ × ℤ))
    (bytes : List UInt8) (s : ReadState) : Prop where
  got : s.got = bytes.length
  calls : s.fd.calls = fd.calls ++ made
  pending : fd.pending = bytes ++ s.fd.pending
  buffer : s.buffer = storeAt buffer 0 bytes
  going : Going n made bytes.length

/-- One round after some calls: another call goes into the account, and it ends the loop or not. -/
theorem GotSoFar.round {fd : Input} {buffer : List UInt8} {n : ℕ} {made : List (ℕ × ℤ)}
    {bytes : List UInt8} {s : ReadState} (hn : n < 2 ^ 31)
    (h : GotSoFar fd buffer n made bytes s) :
    Sum.elim (fun s' => ∃ made' bytes', GotSoFar fd buffer n made' bytes' s')
      (ReadsExactly fd buffer n) (ioReadBody n s) := by
  obtain ⟨got, b, fd₁⟩ := s
  obtain ⟨hgot, hcalls, hpend, hbuf, hgoing⟩ := h
  simp only at hgot hcalls hpend hbuf
  subst hgot hbuf
  obtain ⟨r, more, fd', -, -, hcalls', hpend', hround⟩ :=
    ioReadBody_cases ⟨by omega, by exact_mod_cast hn⟩ hgoing.within fd₁
  rw [hgoing.missing hn, hcalls, List.append_assoc] at hcalls'
  rw [hpend', ← List.append_assoc] at hpend
  rcases hround with ⟨rfl, hr, hbody⟩ | ⟨hpos, rfl, hmore, hbody⟩ | ⟨hpos, rfl, hall, hbody⟩ <;>
    rw [hbody]
  · exact ⟨_, bytes, hcalls', by simpa using hpend, rfl, (Ended.nothing hgoing hr).accounted⟩
  · refine ⟨_, bytes ++ more, ?_, hcalls', hpend, ?_, ?_⟩
    · rw [List.length_append, Nat.cast_add]
    · rw [Int.toNat_natCast, storeAt_storeAt]
    · rw [List.length_append]
      exact hgoing.part hpos (by omega)
  · refine ⟨_, bytes ++ more, hcalls', hpend, ?_, ?_⟩
    · rw [Int.toNat_natCast, storeAt_storeAt]
    · have hlen : bytes.length + more.length = n := by omega
      rw [List.length_append, hlen]
      exact (Ended.rest hgoing hpos hlen).accounted

theorem ioRead_exactly (fd : Input) (buffer : List UInt8) {n : ℕ} (hn : n < 2 ^ 31) :
    ReadsExactly fd buffer n (ioRead fd buffer n) := by
  unfold ioRead
  refine DoWhile.loop_inv (fun s => ∃ made bytes, GotSoFar fd buffer n made bytes s)
    (ReadsExactly fd buffer n) ?_ _ ⟨[], [], rfl, by simp, rfl, by simp, .start⟩
  intro s hs
  obtain ⟨made, bytes, h⟩ := hs
  exact h.round hn

end Read

section Write

/-- What `io_write` does with a request for the first `n` bytes of a buffer. -/
def WritesExactly (fd : Output) (buffer : List UInt8) (n : ℕ) (r : ℤ × Output) : Prop :=
  ∃ made bytes, r.2.calls = fd.calls ++ made ∧ r.2.written = fd.written ++ bytes
    ∧ bytes <+: buffer ∧ Accounted n made bytes.length r.1

/-- A write takes bytes off the front of the buffer, at most as many as asked for. -/
theorem write_spec (fd : Output) (buffer : List UInt8) (count : ℕ) :
    ∃ (r : ℤ) (m : ℕ) (fd' : Output), fd.write buffer count = (r, fd')
      ∧ fd'.calls = fd.calls ++ [(count, r)] ∧ fd'.written = fd.written ++ buffer.take m
      ∧ m ≤ count ∧ (r = m ∨ r = -1 ∧ m = 0) := by
  unfold Output.write
  split
  · exact ⟨_, 0, _, rfl, rfl, by simp, Nat.zero_le _, Or.inr ⟨rfl, rfl⟩⟩
  · rename_i m hm
    exact ⟨_, m, _, rfl, rfl, rfl, limit_le hm, Or.inl rfl⟩

/-- Where the loop stands after some calls that wrote `m` bytes. -/
structure WroteExactly (fd : Output) (buffer : List UInt8) (n : ℕ) (made : List (ℕ × ℤ)) (m : ℕ)
    (s : WriteState) : Prop where
  wrote : s.wrote = m
  calls : s.fd.calls = fd.calls ++ made
  written : s.fd.written = fd.written ++ buffer.take m
  going : Going n made m

theorem WroteExactly.round {fd : Output} {buffer : List UInt8} {n : ℕ} {made : List (ℕ × ℤ)}
    {m : ℕ} {s : WriteState} (hn : n < 2 ^ 31) (hbuf : n ≤ buffer.length)
    (h : WroteExactly fd buffer n made m s) :
    Sum.elim (fun s' => ∃ made' m', WroteExactly fd buffer n made' m' s')
      (WritesExactly fd buffer n) (ioWriteBody buffer n s) := by
  obtain ⟨wrote, fd₁⟩ := s
  obtain ⟨hwrote, hcalls, hout, hgoing⟩ := h
  simp only at hwrote hcalls hout
  subst hwrote
  have hle := hgoing.le
  obtain ⟨r, k, fd', hwrite, hcalls', hout', hk, hr⟩ := write_spec fd₁ (buffer.drop m) (n - m)
  rw [hcalls, List.append_assoc] at hcalls'
  rw [hout, List.append_assoc, ← List.take_add] at hout'
  have hint : toInt r = r := by
    apply toInt_of_isInt
    rcases hr with rfl | ⟨rfl, -⟩
    · exact ⟨by omega, by omega⟩
    · exact ⟨by omega, by omega⟩
  have hbody : ioWriteBody buffer n ⟨m, fd₁⟩ = if r ≤ 0 then .inr (r, fd')
      else if m + r < n then .inl ⟨m + r, fd'⟩ else .inr (m + r, fd') := by
    simp only [ioWriteBody, Int.toNat_natCast, hgoing.missing hn, hwrite, hint]
  rw [hbody]
  by_cases hpos : r ≤ 0
  · have hk0 : k = 0 := by
      rcases hr with hr | hr
      · omega
      · exact hr.2
    rw [if_pos hpos]
    refine ⟨_, buffer.take m, hcalls', by rw [hout', hk0]; rfl, List.take_prefix _ _, ?_⟩
    rw [List.length_take, min_eq_left (by omega)]
    exact (Ended.nothing hgoing hpos).accounted
  · have hrk : r = k := by
      rcases hr with hr | hr
      · exact hr
      · omega
    subst hrk
    rw [if_neg hpos, ← Nat.cast_add]
    split_ifs with hmore
    · exact ⟨_, m + k, rfl, hcalls', hout', hgoing.part (by omega) (by omega)⟩
    · have hall : m + k = n := by omega
      refine ⟨_, buffer.take n, hcalls', by rw [hout', hall], List.take_prefix _ _, ?_⟩
      rw [List.length_take, min_eq_left hbuf, hall]
      exact (Ended.rest hgoing (by omega) hall).accounted

theorem ioWrite_exactly (fd : Output) {buffer : List UInt8} {n : ℕ} (hn : n < 2 ^ 31)
    (hbuf : n ≤ buffer.length) : WritesExactly fd buffer n (ioWrite fd buffer n) := by
  unfold ioWrite
  refine DoWhile.loop_inv (fun s => ∃ made m, WroteExactly fd buffer n made m s)
    (WritesExactly fd buffer n) ?_ _ ⟨[], 0, rfl, by simp, by simp, .start⟩
  intro s hs
  obtain ⟨made, m, h⟩ := hs
  exact h.round hn hbuf

end Write

/-- Whatever the kernel decides, both loops transfer the next bytes, in order and once, and their
result tells how many. A buffer that is written holds as many bytes as are asked for. -/
theorem partialIo_exact {n : ℕ} (hn : n < 2 ^ 31) :
    (∀ (fd : Input) (buffer : List UInt8), ReadsExactly fd buffer n (ioRead fd buffer n))
      ∧ ∀ (fd : Output) (buffer : List UInt8), n ≤ buffer.length →
        WritesExactly fd buffer n (ioWrite fd buffer n) :=
  ⟨fun fd buffer => ioRead_exactly fd buffer hn, fun fd _ hbuf => ioWrite_exactly fd hn hbuf⟩

theorem partialIo_three :
    (∀ (fd : Input) (buffer : List UInt8), ReadsExactly fd buffer 3 (ioRead fd buffer (3 : ℕ)))
      ∧ ∀ (fd : Output) (buffer : List UInt8), 3 ≤ buffer.length →
        WritesExactly fd buffer 3 (ioWrite fd buffer (3 : ℕ)) :=
  partialIo_exact (by norm_num)

end Erlm
