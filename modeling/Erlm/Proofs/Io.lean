import Erlm.Io

/-!
# Reading and writing exactly

Whatever the kernel decides, `io_read` moves the next bytes of the stream to the start of the
buffer, in order, and stops either with all of them or with the call that returned nothing
positive (`ioRead_spec`); what it stores does not depend on what the buffer held
(`ioRead_buffer`). Where no call fails it gets everything (`ioRead_short`), and `io_write` likewise
puts everything out (`ioWrite_short`).
-/

namespace Erlm

section Calls

theorem limit_le {o : Outcome} {count m : ℕ} (h : o.limit count = some m) : m ≤ count := by
  unfold Outcome.limit at h
  split_ifs at h
  cases o with
  | error => simp at h
  | zero =>
    simp only [Option.some.injEq] at h
    omega
  | upTo k =>
    simp only [Option.some.injEq] at h
    omega

/-- A count no `ssize_t` can hold is refused. -/
theorem limit_huge (o : Outcome) {count : ℕ} (h : 2 ^ 63 ≤ count) : o.limit count = none := by
  unfold Outcome.limit
  rw [if_pos (by unfold SSIZE_MAX; omega)]

theorem limit_upTo (k : ℕ) {count : ℕ} (h : count < 2 ^ 31) :
    (Outcome.upTo k).limit count = some (min (k + 1) count) := by
  unfold Outcome.limit
  rw [if_neg (by unfold SSIZE_MAX; omega)]

/-- A read takes bytes off the front of the stream, at most as many as asked for. -/
theorem read_spec (fd : Input) (count : ℕ) :
    ∃ (r : ℤ) (bytes : List UInt8) (fd' : Input), fd.read count = (r, bytes, fd')
      ∧ fd'.sched = fd.sched ∧ fd'.calls = fd.calls ++ [(count, r)]
      ∧ fd.pending = bytes ++ fd'.pending ∧ bytes.length ≤ count
      ∧ (r = bytes.length ∨ r = -1 ∧ bytes = []) := by
  unfold Input.read
  split
  · exact ⟨_, _, _, rfl, rfl, rfl, by simp, by simp, Or.inr ⟨rfl, rfl⟩⟩
  · rename_i m hm
    have hle := limit_le hm
    refine ⟨_, _, _, rfl, rfl, rfl, (List.take_append_drop m fd.pending).symm, ?_, Or.inl rfl⟩
    simp only [List.length_take]
    omega

/-- No call fails or transfers nothing. -/
def ShortOnly (sched : ℕ → Outcome) : Prop := ∀ i, ∃ k, sched i = .upTo k

theorem read_short {fd : Input} (h : ShortOnly fd.sched) {count : ℕ} (hc : count < 2 ^ 31)
    (h0 : 0 < count) (hp : fd.pending ≠ []) : 0 < (fd.read count).1 := by
  obtain ⟨k, hk⟩ := h fd.calls.length
  have := List.length_pos_iff.2 hp
  simp only [Input.read, hk, limit_upTo k hc, List.length_take]
  omega

/-- What is missing of `n` bytes, as a count. -/
theorem toSizeT_missing {n m : ℕ} (hm : m ≤ n) (hn : n < 2 ^ 31) :
    toSizeT ((n : ℤ) - m) = n - m := by
  rw [toSizeT_of_nonneg (by omega) (by omega)]
  omega

/-- The end of a round that has moved `k` bytes more, in natural numbers. -/
theorem goOn_natCast {σ ρ : Type} (f : ℤ → σ) (g : ℤ → ρ) {n m k : ℕ} (h : m + k ≤ n) :
    (if (m : ℤ) + k < n then Sum.inl (f (m + k)) else Sum.inr (g (m + k)))
      = if m + k < n then .inl (f ↑(m + k)) else .inr (g n) := by
  by_cases hmore : m + k < n
  · rw [if_pos (by omega), if_pos hmore, Nat.cast_add]
  · have hall : m + k = n := by omega
    rw [if_neg (by omega), if_neg hmore, ← Nat.cast_add, hall]

end Calls

section Store

@[simp] theorem storeAt_nil (buffer : List UInt8) (n : ℕ) : storeAt buffer n [] = buffer := by
  simp [storeAt]

theorem storeAt_zero (buffer bytes : List UInt8) :
    storeAt buffer 0 bytes = bytes ++ buffer.drop bytes.length := by
  simp [storeAt]

/-- Storing right behind what was stored last is storing both at once. -/
theorem storeAt_storeAt (buffer xs ys : List UInt8) :
    storeAt (storeAt buffer 0 xs) xs.length ys = storeAt buffer 0 (xs ++ ys) := by
  simp [storeAt, List.drop_append]

/-- A second store over the first, from the start again. -/
theorem storeAt_storeAt_zero (buffer xs ys : List UInt8) :
    storeAt (storeAt buffer 0 xs) 0 ys = storeAt buffer 0 (storeAt xs 0 ys) := by
  simp only [storeAt_zero, List.drop_append, List.length_append, List.length_drop,
    List.append_assoc, List.drop_drop]
  congr 3
  omega

theorem storeAt_length_self (xs ys : List UInt8) : storeAt xs xs.length ys = xs ++ ys := by
  simp [storeAt]

@[simp] theorem storeAt_empty (bytes : List UInt8) : storeAt [] 0 bytes = bytes := by
  simp [storeAt]

theorem take_storeAt_zero (buffer bytes : List UInt8) :
    (storeAt buffer 0 bytes).take bytes.length = bytes := by
  simp [storeAt_zero]

theorem getD_storeAt_zero (buffer : List UInt8) {bytes : List UInt8} {i : ℕ}
    (h : i < bytes.length) : (storeAt buffer 0 bytes).getD i 0 = bytes.getD i 0 := by
  simp [storeAt_zero, List.getD_eq_getElem?_getD, List.getElem?_append_left h]

end Store

section Read

/-- Where the loop of `io_read` can stand: at its start, or with bytes got and more to come. -/
def Within (n got : ℤ) : Prop := 0 ≤ got ∧ (got < n ∨ got = 0)

/-- One round, the same whatever the buffer holds: the call returns nothing positive and the loop
ends, or some bytes move and it goes on or has them all. -/
theorem ioReadBody_cases {n got : ℤ} (hn : IsInt n) (hw : Within n got) (fd : Input) :
    ∃ (r : ℤ) (bytes : List UInt8) (fd' : Input), (fd.read (toSizeT (n - got))).1 = r
      ∧ fd'.sched = fd.sched ∧ fd'.calls = fd.calls ++ [(toSizeT (n - got), r)]
      ∧ fd.pending = bytes ++ fd'.pending
      ∧ ((bytes = [] ∧ r ≤ 0 ∧ ∀ b, ioReadBody n ⟨got, b, fd⟩ = .inr (r, b, fd'))
        ∨ (0 < bytes.length ∧ r = bytes.length ∧ got + bytes.length < n
            ∧ ∀ b, ioReadBody n ⟨got, b, fd⟩
              = .inl ⟨got + bytes.length, storeAt b got.toNat bytes, fd'⟩)
        ∨ (0 < bytes.length ∧ r = bytes.length ∧ got + bytes.length = n
            ∧ ∀ b, ioReadBody n ⟨got, b, fd⟩ = .inr (n, storeAt b got.toNat bytes, fd'))) := by
  obtain ⟨h0, hlt⟩ := hw
  obtain ⟨hn1, hn2⟩ := hn
  obtain ⟨r, bytes, fd', hread, hsched, hcalls, hpend, hlen, hr⟩ :=
    read_spec fd (toSizeT (n - got))
  refine ⟨r, bytes, fd', by rw [hread], hsched, hcalls, hpend, ?_⟩
  by_cases hneg : n - got < 0
  · have hhuge := toSizeT_of_neg hneg ⟨by omega, by omega⟩
    have hr1 : r = -1 ∧ bytes = [] := by
      simp only [Input.read, limit_huge _ hhuge, Prod.mk.injEq] at hread
      exact ⟨hread.1.symm, hread.2.1.symm⟩
    obtain ⟨rfl, rfl⟩ := hr1
    refine Or.inl ⟨rfl, by omega, fun b => ?_⟩
    simp only [ioReadBody, hread, storeAt_nil]
    rw [toInt_of_isInt ⟨by omega, by omega⟩, if_pos (by omega)]
  · have hcount := toSizeT_of_nonneg (z := n - got) (by omega) (by omega)
    rw [hcount] at hlen
    have hint : toInt r = r := by
      apply toInt_of_isInt
      rcases hr with rfl | ⟨rfl, -⟩
      · exact ⟨by omega, by omega⟩
      · exact ⟨by omega, by omega⟩
    by_cases hpos : r ≤ 0
    · have hnil : bytes = [] := by
        rcases hr with rfl | ⟨-, h⟩
        · exact List.eq_nil_of_length_eq_zero (by omega)
        · exact h
      refine Or.inl ⟨hnil, hpos, fun b => ?_⟩
      simp only [ioReadBody, hread, hint, if_pos hpos, hnil, storeAt_nil]
    · have hrl : r = bytes.length := by
        rcases hr with h | ⟨rfl, -⟩
        · exact h
        · omega
      subst hrl
      have hbody : ∀ b, ioReadBody n ⟨got, b, fd⟩ = if got + bytes.length < n
          then .inl ⟨got + bytes.length, storeAt b got.toNat bytes, fd'⟩
          else .inr (got + bytes.length, storeAt b got.toNat bytes, fd') := by
        intro b
        simp only [ioReadBody, hread, hint, if_neg hpos]
      by_cases hmore : got + bytes.length < n
      · exact Or.inr (Or.inl ⟨by omega, rfl, hmore, fun b => by rw [hbody, if_pos hmore]⟩)
      · have hall : got + bytes.length = n := by omega
        exact Or.inr (Or.inr ⟨by omega, rfl, hall, fun b => by rw [hbody, if_neg hmore, hall]⟩)

/-- What a finished `io_read` of `n` bytes has done, `bytes` being what it moved. -/
structure ReadDone (fd : Input) (buffer : List UInt8) (n : ℤ) (bytes : List UInt8)
    (r : ℤ × List UInt8 × Input) : Prop where
  sched : r.2.2.sched = fd.sched
  pending : fd.pending = bytes ++ r.2.2.pending
  buffer : r.2.1 = storeAt buffer 0 bytes
  result : (r.1 = n ∧ bytes.length = n ∧ 0 < n)
    ∨ (r.1 ≤ 0 ∧ (bytes.length < n ∨ bytes = [])
      ∧ (ShortOnly fd.sched → n ≤ 0 ∨ r.2.2.pending = []))

/-- `io_read` moves the next bytes of the stream to the start of the buffer. It returns their
number if it got all it was asked for, and otherwise the result of the call that stopped it. -/
theorem ioRead_spec (fd : Input) (buffer : List UInt8) {n : ℤ} (hn : IsInt n) :
    ∃ bytes, ReadDone fd buffer n bytes (ioRead fd buffer n) := by
  unfold ioRead
  refine DoWhile.loop_inv
    (fun s => Within n s.got ∧ s.fd.sched = fd.sched ∧ ∃ bytes, fd.pending = bytes ++ s.fd.pending
      ∧ s.got = (bytes.length : ℤ) ∧ s.buffer = storeAt buffer 0 bytes)
    (fun r => ∃ bytes, ReadDone fd buffer n bytes r) ?_ _
    ⟨⟨le_rfl, Or.inr rfl⟩, rfl, [], by simp, rfl, by simp⟩
  rintro s ⟨hw, hs, got, hp, hg, hb⟩
  obtain ⟨r, bytes, fd', hrr, hs', -, hp', h⟩ := ioReadBody_cases hn hw s.fd
  rcases h with ⟨rfl, hr, h⟩ | ⟨hpos, -, hlt, h⟩ | ⟨hpos, -, hall, h⟩ <;> rw [h s.buffer]
  · refine ⟨got, hs'.trans hs, by rw [hp, hp']; rfl, hb, Or.inr ⟨hr, ?_, fun hshort => ?_⟩⟩
    · rcases hw.2 with hw | hw
      · exact Or.inl (by omega)
      · exact Or.inr (List.eq_nil_of_length_eq_zero (by omega))
    · by_contra hmore
      push Not at hmore
      have hcount := toSizeT_of_nonneg (z := n - s.got) (by have := hw.2; omega)
        (by have := hn.2; have := hw.1; omega)
      have := @read_short s.fd (hs ▸ hshort) (toSizeT (n - s.got))
        (by have := hn.2; have := hw.1; omega) (by have := hw.2; omega)
        (by rw [hp', List.nil_append]; exact hmore.2)
      omega
  · refine ⟨⟨by simp only; omega, Or.inl hlt⟩, hs'.trans hs, got ++ bytes, ?_, ?_, ?_⟩
    · rw [hp, hp', List.append_assoc]
    · simp [hg]
    · simp only [hb, hg, Int.toNat_natCast, storeAt_storeAt]
  · refine ⟨got ++ bytes, hs'.trans hs, by rw [hp, hp', List.append_assoc], ?_, Or.inl ?_⟩
    · simp only [hb, hg, Int.toNat_natCast, storeAt_storeAt]
    · rw [List.length_append, Nat.cast_add, ← hg]
      exact ⟨rfl, hall, by omega⟩

/-- A call that asks for nothing gets nothing. -/
theorem ioRead_zero {fd : Input} (h : ShortOnly fd.sched) (buffer : List UInt8) :
    ∃ fd', ioRead fd buffer 0 = (0, buffer, fd') ∧ fd'.sched = fd.sched
      ∧ fd'.pending = fd.pending := by
  obtain ⟨k, hk⟩ := h fd.calls.length
  have hread : fd.read 0 = (0, [], { fd with calls := fd.calls ++ [(0, 0)] }) := by
    simp [Input.read, hk, limit_upTo]
  have hbody : ioReadBody 0 ⟨0, buffer, fd⟩
      = .inr (0, buffer, { fd with calls := fd.calls ++ [(0, 0)] }) := by
    simp [ioReadBody, toSizeT, toInt, hread]
  exact ⟨_, DoWhile.loop_inr hbody, rfl, rfl⟩

/-- Where no call fails, `io_read` gets as much as the stream has. -/
theorem ioRead_short {fd : Input} (h : ShortOnly fd.sched) (buffer : List UInt8) {n : ℕ}
    (hn : n < 2 ^ 31) (hlen : n ≤ fd.pending.length) :
    ∃ fd', ioRead fd buffer n = (↑n, storeAt buffer 0 (fd.pending.take n), fd')
      ∧ fd'.sched = fd.sched ∧ fd'.pending = fd.pending.drop n := by
  rcases Nat.eq_zero_or_pos n with rfl | hpos
  · obtain ⟨fd', h1, h2, h3⟩ := ioRead_zero h buffer
    exact ⟨fd', by simpa using h1, h2, by simpa using h3⟩
  obtain ⟨bytes, hd⟩ := ioRead_spec fd buffer (n := n) ⟨by omega, by exact_mod_cast hn⟩
  rcases hr : ioRead fd buffer n with ⟨r, b, fd'⟩
  rw [hr] at hd
  have hp := hd.pending
  have hlp := congrArg List.length hp
  simp only [List.length_append] at hlp
  rcases hd.result with ⟨hrn, hbn, -⟩ | ⟨-, hb, hstop⟩
  · have hbn' : bytes.length = n := by exact_mod_cast hbn
    refine ⟨fd', ?_, hd.sched, ?_⟩
    · rw [hp, ← hbn', List.take_left, hbn', ← hrn, ← hd.buffer]
    · rw [hp, ← hbn', List.drop_left]
  · have hall : fd.pending.length = bytes.length := by
      rcases hstop h with hneg | hnil
      · omega
      · rw [show fd'.pending = [] from hnil] at hlp
        exact hlp
    rcases hb with hb | rfl
    · omega
    · rw [List.length_nil] at hall
      omega

/-- A negative count reads nothing. -/
theorem ioRead_neg (fd : Input) (buffer : List UInt8) {n : ℤ} (hn : IsInt n) (hneg : n < 0) :
    ∃ r fd', ioRead fd buffer n = (r, buffer, fd') ∧ r ≤ 0 ∧ fd'.sched = fd.sched
      ∧ fd'.pending = fd.pending := by
  obtain ⟨bytes, hd⟩ := ioRead_spec fd buffer hn
  rcases hr : ioRead fd buffer n with ⟨r, b, fd'⟩
  rw [hr] at hd
  rcases hd.result with ⟨-, -, h0⟩ | ⟨hr0, hb, -⟩
  · omega
  · have hnil : bytes = [] := by
      rcases hb with hb | hb
      · omega
      · exact hb
    subst hnil
    exact ⟨r, fd', by rw [show b = buffer by simpa using hd.buffer], hr0, hd.sched,
      by simpa using hd.pending.symm⟩

/-- The bytes `io_read` stores and everything else it does are the same for every buffer. -/
theorem ioRead_buffer (fd : Input) (buffer : List UInt8) {n : ℤ} (hn : IsInt n) :
    ioRead fd buffer n
      = ((ioRead fd [] n).1, storeAt buffer 0 (ioRead fd [] n).2.1, (ioRead fd [] n).2.2) := by
  unfold ioRead
  refine DoWhile.loop_rel
    (fun (s t : ReadState) => Within n s.got ∧ s.got = t.got ∧ s.fd = t.fd
      ∧ t.got = (t.buffer.length : ℤ) ∧ s.buffer = storeAt buffer 0 t.buffer)
    (fun r (q : ℤ × List UInt8 × Input) => r = (q.1, storeAt buffer 0 q.2.1, q.2.2)) ?_ _ _
    ⟨⟨le_rfl, Or.inr rfl⟩, rfl, rfl, rfl, by simp⟩
  rintro ⟨got, b, fd⟩ ⟨got', b', fd'⟩ ⟨hw, hg, hf, hl, hb⟩
  simp only at hg hf hl hb hw
  subst hg hf hb
  obtain ⟨r, bytes, fd', -, -, -, -, h⟩ := ioReadBody_cases hn hw fd
  rcases h with ⟨-, -, h⟩ | ⟨hpos, -, hlt, h⟩ | ⟨-, -, -, h⟩ <;> rw [h, h]
  · exact .inr rfl
  · refine .inl ⟨⟨by simp only; have := hw.1; omega, Or.inl hlt⟩, rfl, rfl, ?_, ?_⟩
    · simp [hl, storeAt_length_self]
    · simp [hl, storeAt_length_self, storeAt_storeAt]
  · refine .inr ?_
    simp [hl, storeAt_length_self, storeAt_storeAt]

end Read

section Write

/-- A write that does not fail takes bytes off the front of the buffer, at least one if any were
offered. -/
theorem write_short {fd : Output} (h : ShortOnly fd.sched) (buffer : List UInt8) {count : ℕ}
    (hc : count < 2 ^ 31) :
    ∃ (m : ℕ) (fd' : Output), fd.write buffer count = (↑m, fd') ∧ fd'.sched = fd.sched
      ∧ fd'.written = fd.written ++ buffer.take m ∧ m ≤ count ∧ (0 < count → 0 < m) := by
  obtain ⟨k, hk⟩ := h fd.calls.length
  refine ⟨min (k + 1) count, { fd with
      written := fd.written ++ buffer.take (min (k + 1) count)
      calls := fd.calls ++ [(count, ↑(min (k + 1) count))] }, ?_, rfl, rfl, by omega, by omega⟩
  simp only [Output.write, hk, limit_upTo k hc]

/-- One round where no call fails: more of the buffer is out, and the loop ends when all of it
is. -/
theorem ioWriteBody_short {n wrote : ℕ} (hn : n < 2 ^ 31) (hw : wrote < n ∨ wrote = 0) {fd : Output}
    (h : ShortOnly fd.sched) (buffer : List UInt8) (hwn : wrote ≤ n) :
    ∃ (m : ℕ) (fd' : Output), fd'.sched = fd.sched
      ∧ fd'.written = fd.written ++ (buffer.drop wrote).take m ∧ wrote + m ≤ n
      ∧ ioWriteBody buffer n ⟨wrote, fd⟩
        = if wrote + m < n then .inl ⟨↑(wrote + m), fd'⟩ else .inr (↑n, fd') := by
  obtain ⟨m, fd', hwrite, hsched, hout, hle, hpos⟩ :=
    @write_short fd h (buffer.drop wrote) (n - wrote) (by omega)
  refine ⟨m, fd', hsched, hout, by omega, ?_⟩
  simp only [ioWriteBody, Int.toNat_natCast, toSizeT_missing hwn hn, hwrite]
  rw [toInt_of_isInt ⟨by omega, by omega⟩]
  by_cases hm : m = 0
  · have hn0 : n = 0 := by omega
    subst hn0 hm
    simp
  · rw [if_neg (by omega)]
    exact goOn_natCast (WriteState.mk · fd') (·, fd') (by omega)

/-- Where no call fails, `io_write` puts out the whole buffer. -/
theorem ioWrite_short {fd : Output} (h : ShortOnly fd.sched) (buffer : List UInt8) {n : ℕ}
    (hn : n < 2 ^ 31) :
    ∃ fd', ioWrite fd buffer n = (↑n, fd') ∧ fd'.sched = fd.sched
      ∧ fd'.written = fd.written ++ buffer.take n := by
  unfold ioWrite
  refine DoWhile.loop_inv
    (fun (s : WriteState) => ∃ wrote : ℕ, s.wrote = wrote ∧ (wrote < n ∨ wrote = 0) ∧ wrote ≤ n
      ∧ s.fd.sched = fd.sched ∧ s.fd.written = fd.written ++ buffer.take wrote)
    (fun r => ∃ fd' : Output, r = ((n : ℤ), fd') ∧ fd'.sched = fd.sched
      ∧ fd'.written = fd.written ++ buffer.take n) ?_ _
    ⟨0, rfl, Or.inr rfl, Nat.zero_le n, rfl, by simp⟩
  rintro ⟨_, fd₁⟩ ⟨wrote, rfl, hw, hwn, hs, hout⟩
  simp only at hs hout
  obtain ⟨m, fd', hs', hout', hmn, hb⟩ := ioWriteBody_short hn hw (hs ▸ h) buffer hwn
  rw [hb]
  split_ifs with hmore
  · refine ⟨wrote + m, rfl, Or.inl hmore, hmn, hs'.trans hs, ?_⟩
    simp only [hout', hout, List.append_assoc, List.take_add]
  · refine ⟨fd', rfl, hs'.trans hs, ?_⟩
    have hall : n = wrote + m := by omega
    simp only [hout', hout, List.append_assoc, hall, List.take_add]

end Write

end Erlm
