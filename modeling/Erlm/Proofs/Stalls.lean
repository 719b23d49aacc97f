import Erlm.Proofs.Packet

/-!
# Frames cut short

A call that fails or transfers nothing ends `io_read` and `io_write` where they stand
(`ioRead_reach`, `ioWrite_reach`). What became of the bytes before is not said:
`io_write_packet2` looks at the last of its three `io_write` calls only (`returnsWhole_iff`), and
`io_read_packet2` does not give back what it has read (`tellsTruth_iff`).
-/

namespace Erlm

section Flows

/-- `n` bytes go through in the calls from `k` up to but not including `k'`, each of which moves
some. -/
inductive Flows (sched : ℕ → Outcome) : ℕ → ℕ → ℕ → Prop
  | done (k : ℕ) : Flows sched k 0 k
  | call {k n j k' : ℕ} (h : sched k = .upTo j) (hn : 0 < n)
      (rest : Flows sched (k + 1) (n - (j + 1)) k') : Flows sched k n k'

/-- A request for `n` bytes that starts with call `k` is met. One for no bytes makes one call, which
must not fail. -/
def Through (sched : ℕ → Outcome) (k n : ℕ) : Prop :=
  if n = 0 then sched k ≠ .error else ∃ k', Flows sched k n k'

variable {sched : ℕ → Outcome} {k n k' : ℕ}

theorem flows_zero : Flows sched k 0 k' ↔ k' = k := by
  constructor
  · intro h
    cases h with
    | done => rfl
    | call _ hn _ => exact absurd hn (Nat.lt_irrefl 0)
  · rintro rfl
    exact .done _

theorem flows_upTo {j : ℕ} (h : sched k = .upTo j) (hn : 0 < n) :
    Flows sched k n k' ↔ Flows sched (k + 1) (n - (j + 1)) k' := by
  constructor
  · intro hflows
    cases hflows with
    | done => exact absurd hn (Nat.lt_irrefl 0)
    | call h' _ rest =>
      rw [h, Outcome.upTo.injEq] at h'
      rwa [h']
  · exact .call h hn

theorem flows_first (hn : 0 < n) (h : Flows sched k n k') : ∃ j, sched k = .upTo j := by
  cases h with
  | done => exact absurd hn (Nat.lt_irrefl 0)
  | call h _ _ => exact ⟨_, h⟩

theorem flows_one : Flows sched k 1 k' ↔ (∃ j, sched k = .upTo j) ∧ k' = k + 1 := by
  constructor
  · intro h
    obtain ⟨j, hj⟩ := flows_first Nat.one_pos h
    rw [flows_upTo hj Nat.one_pos, show 1 - (j + 1) = 0 by omega, flows_zero] at h
    exact ⟨⟨j, hj⟩, h⟩
  · intro h
    obtain ⟨⟨j, hj⟩, rfl⟩ := h
    rw [flows_upTo hj Nat.one_pos, show 1 - (j + 1) = 0 by omega, flows_zero]

theorem flows_unique {k'' : ℕ} (h : Flows sched k n k') (h' : Flows sched k n k'') : k' = k'' := by
  induction h with
  | done k => exact (flows_zero.1 h').symm
  | call hk hn _ ih => exact ih ((flows_upTo hk hn).1 h')

theorem through_pos (hn : 0 < n) : Through sched k n ↔ ∃ k', Flows sched k n k' := by
  rw [Through, if_neg (by omega)]

end Flows

section Write

/-- A call that moves nothing ends the loop and leaves what is out as it is. -/
theorem ioWriteBody_stop {fd : Output} {buffer : List UInt8} {n m : ℕ} (hn : n < 2 ^ 31)
    (hm : m ≤ n) (h : ∀ j, fd.sched fd.calls.length ≠ .upTo j) :
    ∃ r fd', ioWriteBody buffer n ⟨m, fd⟩ = .inr (r, fd') ∧ r ≤ 0
      ∧ (r < 0 ↔ fd.sched fd.calls.length = .error) ∧ fd'.sched = fd.sched
      ∧ fd'.written = fd.written ∧ fd'.calls.length = fd.calls.length + 1 := by
  have hcount := toSizeT_missing hm hn
  have hmax : ¬ SSIZE_MAX < n - m := by
    unfold SSIZE_MAX
    omega
  rcases ho : fd.sched fd.calls.length with _ | _ | j
  · refine ⟨-1, { fd with calls := fd.calls ++ [(n - m, -1)] }, ?_, by omega, by simp, rfl, rfl,
      by simp⟩
    simp only [ioWriteBody, hcount, Output.write, Outcome.limit, ho, hmax, if_false]
    rw [toInt_of_isInt ⟨by omega, by omega⟩, if_pos (by omega)]
  · refine ⟨0, { fd with
        written := fd.written ++ (buffer.drop m).take 0
        calls := fd.calls ++ [(n - m, 0)] }, ?_, le_rfl, by simp, rfl, by simp, by simp⟩
    simp only [ioWriteBody, hcount, Output.write, Outcome.limit, ho, hmax, if_false,
      Int.toNat_natCast, Nat.cast_zero]
    rw [toInt_of_isInt ⟨by omega, by omega⟩, if_pos le_rfl]
  · exact absurd ho (h j)

/-- A call that moves some bytes puts them out, and the loop ends when they are all. -/
theorem ioWriteBody_upTo {fd : Output} (buffer : List UInt8) {n m j : ℕ} (hn : n < 2 ^ 31)
    (hm : m < n) (h : fd.sched fd.calls.length = .upTo j) :
    ∃ fd' : Output, fd'.sched = fd.sched
      ∧ fd'.written = fd.written ++ (buffer.drop m).take (min (j + 1) (n - m))
      ∧ fd'.calls.length = fd.calls.length + 1
      ∧ ioWriteBody buffer n ⟨m, fd⟩ = if m + min (j + 1) (n - m) < n
        then .inl ⟨↑(m + min (j + 1) (n - m)), fd'⟩ else .inr (↑n, fd') := by
  have hcount := toSizeT_missing hm.le hn
  refine ⟨{ fd with
      written := fd.written ++ (buffer.drop m).take (min (j + 1) (n - m))
      calls := fd.calls ++ [(n - m, ↑(min (j + 1) (n - m)))] }, rfl, rfl, by simp, ?_⟩
  simp only [ioWriteBody, Int.toNat_natCast, hcount, Output.write, h,
    limit_upTo j (show n - m < 2 ^ 31 by omega)]
  rw [toInt_of_isInt ⟨by omega, by omega⟩, if_neg (by omega)]
  exact goOn_natCast (WriteState.mk · _) (·, _) (by omega)

/-- How far `io_write` got with the first `n` bytes of a buffer. -/
structure WriteReach (fd : Output) (buffer : List UInt8) (n : ℕ) (r : ℤ × Output) : Prop where
  sched : r.2.sched = fd.sched
  reach : (∃ k', Flows fd.sched fd.calls.length n k' ∧ r.1 = n
      ∧ r.2.written = fd.written ++ buffer.take n ∧ r.2.calls.length = k')
    ∨ (¬ ∃ k', Flows fd.sched fd.calls.length n k') ∧ r.1 ≤ 0

/-- What stands after some rounds that moved `m` of the `n` bytes. -/
def WroteSoFar (fd : Output) (buffer : List UInt8) (n : ℕ) (s : WriteState) : Prop :=
  ∃ m : ℕ, s.wrote = m ∧ m < n ∧ s.fd.sched = fd.sched
    ∧ s.fd.written = fd.written ++ buffer.take m
    ∧ ∀ k', Flows fd.sched fd.calls.length n k' ↔ Flows fd.sched s.fd.calls.length (n - m) k'

/-- `io_write` puts everything out if each call moves something and stops at the first that does
not. -/
theorem ioWrite_reach (fd : Output) (buffer : List UInt8) {n : ℕ} (hpos : 0 < n)
    (hn : n < 2 ^ 31) : WriteReach fd buffer n (ioWrite fd buffer n) := by
  unfold ioWrite
  refine DoWhile.loop_inv (WroteSoFar fd buffer n) (WriteReach fd buffer n) ?_ _
    ⟨0, rfl, hpos, rfl, by simp, fun k' => Iff.rfl⟩
  rintro ⟨_, fd₁⟩ ⟨m, rfl, hm, hs, hw, hflows⟩
  simp only at hs hw hflows
  by_cases hmove : ∃ j, fd₁.sched fd₁.calls.length = .upTo j
  · obtain ⟨j, hj⟩ := hmove
    obtain ⟨fd', hs', hw', hc', hb⟩ := ioWriteBody_upTo buffer hn hm hj
    rw [hb]
    split_ifs with hmore
    · refine ⟨_, rfl, hmore, hs'.trans hs, ?_, fun k' => ?_⟩
      · simp only [hw', hw, List.append_assoc, List.take_add]
      · rw [hflows, flows_upTo (hs ▸ hj) (by omega)]
        simp only [hc']
        rw [show n - (m + min (j + 1) (n - m)) = n - m - (j + 1) by omega]
    · have hall : n = m + min (j + 1) (n - m) := by omega
      refine ⟨hs'.trans hs, Or.inl ⟨_, ?_, rfl, ?_, rfl⟩⟩
      · rw [hflows, flows_upTo (hs ▸ hj) (by omega), show n - m - (j + 1) = 0 by omega,
          flows_zero]
        exact hc'
      · conv_rhs => rw [hall]
        simp only [hw', hw, List.append_assoc, List.take_add]
  · obtain ⟨r, fd', hb, hr, -, hs', -⟩ :=
      @ioWriteBody_stop fd₁ buffer n m hn hm.le (not_exists.1 hmove)
    rw [hb]
    refine ⟨hs'.trans hs, Or.inr ⟨?_, hr⟩⟩
    intro h
    obtain ⟨k', hk'⟩ := h
    obtain ⟨j, hj⟩ := flows_first (by omega) ((hflows k').1 hk')
    exact hmove ⟨j, hs ▸ hj⟩

/-- Nothing to write takes one call, which must not fail. -/
theorem ioWrite_none (fd : Output) (buffer : List UInt8) :
    ∃ r fd', ioWrite fd buffer 0 = (r, fd') ∧ (r = 0 ↔ fd.sched fd.calls.length ≠ .error)
      ∧ fd'.written = fd.written := by
  by_cases hmove : ∃ j, fd.sched fd.calls.length = .upTo j
  · obtain ⟨j, hj⟩ := hmove
    have hbody : ioWriteBody buffer 0 ⟨0, fd⟩ = .inr (0, { fd with
        written := fd.written ++ buffer.take 0
        calls := fd.calls ++ [(0, 0)] }) := by
      simp [ioWriteBody, toSizeT, toInt, Output.write, hj, limit_upTo]
    exact ⟨_, _, DoWhile.loop_inr hbody, by simp [hj], by simp⟩
  · obtain ⟨r, fd', hbody, hr, herror, -, hw, -⟩ :=
      @ioWriteBody_stop fd buffer 0 0 (by norm_num) le_rfl (not_exists.1 hmove)
    refine ⟨r, fd', DoWhile.loop_inr hbody, ?_, hw⟩
    rw [ne_eq, ← herror]
    omega

/-- `io_write` returns the length exactly if the request is met, and then all of it is out. -/
theorem ioWrite_eq_length {fd : Output} {buffer : List UInt8} {n : ℕ} (hn : n < 2 ^ 31) :
    ((ioWrite fd buffer n).1 = n ↔ Through fd.sched fd.calls.length n)
      ∧ (Through fd.sched fd.calls.length n →
        (ioWrite fd buffer n).2.written = fd.written ++ buffer.take n) := by
  rcases Nat.eq_zero_or_pos n with rfl | hpos
  · obtain ⟨r, fd', hrun, hr, hw⟩ := ioWrite_none fd buffer
    rw [Nat.cast_zero, hrun, Through, if_pos rfl]
    exact ⟨hr, fun _ => by simp [hw]⟩
  · rw [through_pos hpos]
    rcases (ioWrite_reach fd buffer hpos hn).reach with ⟨k', hflows, hr, hw, -⟩ | ⟨hnot, hr⟩
    · exact ⟨iff_of_true hr ⟨k', hflows⟩, fun _ => hw⟩
    · exact ⟨iff_of_false (by omega) hnot, fun h => absurd h hnot⟩

/-- The one byte of a header call is out or it is not. -/
theorem ioWrite_one (fd : Output) (b : UInt8) :
    ∃ r fd', ioWrite fd [b] 1 = (r, fd') ∧ fd'.sched = fd.sched
      ∧ fd'.calls.length = fd.calls.length + 1
      ∧ ((∃ j, fd.sched fd.calls.length = .upTo j) ∧ fd'.written = fd.written ++ [b]
        ∨ (¬ ∃ j, fd.sched fd.calls.length = .upTo j) ∧ fd'.written = fd.written) := by
  by_cases hmove : ∃ j, fd.sched fd.calls.length = .upTo j
  · have hreach := ioWrite_reach fd [b] Nat.one_pos (by norm_num)
    rw [Nat.cast_one] at hreach
    rcases hreach.reach with ⟨k', hflows, -, hw, hcalls⟩ | ⟨hnot, -⟩
    · rw [flows_one] at hflows
      exact ⟨_, _, rfl, hreach.sched, hcalls.trans hflows.2, Or.inl ⟨hmove, hw⟩⟩
    · exact absurd ⟨_, flows_one.2 ⟨hmove, rfl⟩⟩ hnot
  · obtain ⟨r, fd', hbody, -, -, hs, hw, hcalls⟩ :=
      @ioWriteBody_stop fd [b] 1 0 (by norm_num) Nat.one_pos.le (not_exists.1 hmove)
    exact ⟨r, fd', DoWhile.loop_inr hbody, hs, hcalls, Or.inr ⟨hmove, hw⟩⟩

/-- If the payload's length comes back, the whole frame is out. -/
def ReturnsWhole (fd : Output) (p : List UInt8) : Prop :=
  (ioWritePacket2 fd p p.length).1 = p.length →
    (ioWritePacket2 fd p p.length).2.written = fd.written ++ Packet2.frame p

/-- The two header bytes are out exactly if both calls moved theirs. -/
theorem ioWritePacket2_whole (fd : Output) (p : List UInt8) :
    ∃ fd' : Output, ioWritePacket2 fd p p.length = ioWrite fd' p p.length
      ∧ fd'.sched = fd.sched ∧ fd'.calls.length = fd.calls.length + 2
      ∧ (fd'.written = fd.written ++ Packet2.header p.length
        ↔ (∃ j, fd.sched fd.calls.length = .upTo j)
          ∧ ∃ j, fd.sched (fd.calls.length + 1) = .upTo j) := by
  obtain ⟨r₁, fd₁, h₁, hs₁, hc₁, hw₁⟩ := ioWrite_one fd (UInt8.ofInt ((p.length : ℤ) >>> (8 : ℕ)))
  obtain ⟨r₂, fd₂, h₂, hs₂, hc₂, hw₂⟩ := ioWrite_one fd₁ (UInt8.ofInt p.length)
  refine ⟨fd₂, by rw [ioWritePacket2_eq, h₁, h₂], hs₂.trans hs₁, by omega, ?_⟩
  rw [hs₁, hc₁] at hw₂
  rcases hw₁ with ⟨hmove₁, hw₁⟩ | ⟨hstop₁, hw₁⟩ <;>
    rcases hw₂ with ⟨hmove₂, hw₂⟩ | ⟨hstop₂, hw₂⟩
  · refine iff_of_true ?_ ⟨hmove₁, hmove₂⟩
    rw [hw₂, hw₁, ofInt_shiftRight, ofInt_natCast, List.append_assoc]
    rfl
  · refine iff_of_false (fun h => ?_) fun h => hstop₂ h.2
    simpa [hw₂, hw₁, Packet2.header] using congrArg List.length h
  · refine iff_of_false (fun h => ?_) fun h => hstop₁ h.1
    simpa [hw₂, hw₁, Packet2.header] using congrArg List.length h
  · refine iff_of_false (fun h => ?_) fun h => hstop₁ h.1
    simpa [hw₂, hw₁, Packet2.header] using congrArg List.length h

/-- Where the payload goes through, the frame is whole if its header is. -/
theorem returnsWhole_of_through {fd : Output} {p : List UInt8} (hp : p.length ≤ 65535)
    (hthrough : Through fd.sched (fd.calls.length + 2) p.length) :
    ReturnsWhole fd p ↔ (∃ j, fd.sched fd.calls.length = .upTo j)
      ∧ ∃ j, fd.sched (fd.calls.length + 1) = .upTo j := by
  obtain ⟨fd', hrun, hs, hc, hheader⟩ := ioWritePacket2_whole fd p
  obtain ⟨hr, hw⟩ := @ioWrite_eq_length fd' p p.length (by omega)
  rw [hs, hc] at hr hw
  rw [ReturnsWhole, hrun, hw hthrough, List.take_length, ← hheader, Packet2.frame,
    ← List.append_assoc, List.append_left_inj]
  exact forall_prop_of_true (hr.2 hthrough)

/-- The length comes back with less than a frame written exactly if the payload goes through and
one of the two calls before it did not move its byte. -/
theorem returnsWhole_iff {fd : Output} {p : List UInt8} (hp : p.length ≤ 65535) :
    ReturnsWhole fd p ↔ (∃ j, fd.sched fd.calls.length = .upTo j)
        ∧ (∃ j, fd.sched (fd.calls.length + 1) = .upTo j)
      ∨ ¬ Through fd.sched (fd.calls.length + 2) p.length := by
  by_cases hthrough : Through fd.sched (fd.calls.length + 2) p.length
  · rw [returnsWhole_of_through hp hthrough]
    simp [hthrough]
  · refine iff_of_true (fun hr => absurd ?_ hthrough) (Or.inr hthrough)
    obtain ⟨fd', hrun, hs, hc, -⟩ := ioWritePacket2_whole fd p
    rw [hrun] at hr
    have := (@ioWrite_eq_length fd' p p.length (by omega)).1.1 hr
    rwa [hs, hc] at this

theorem returnsWhole_oneByteWrites :
    ReturnsWhole ⟨[], fun _ => .upTo 0, []⟩ [72, 105]
      ↔ (∃ j, Outcome.upTo 0 = .upTo j) ∧ (∃ j, Outcome.upTo 0 = .upTo j)
        ∨ ¬ Through (fun _ => .upTo 0) 2 2 :=
  @returnsWhole_iff ⟨[], fun _ => .upTo 0, []⟩ [72, 105] (by decide)

/-- The first call fails and the two after it do not: a length and a payload without the high byte
go out, and the call reports success. -/
theorem not_returnsWhole_failedHeader : ¬ ∀ (fd : Output) (p : List UInt8), p.length ≤ 65535 →
    ReturnsWhole fd p := by
  intro hall
  have h := hall ⟨[], fun k => if k = 0 then .error else .upTo 1, []⟩ [72] (by decide)
  have hflows : Flows (fun k => if k = 0 then .error else .upTo 1) 2 1 3 :=
    flows_one.2 ⟨⟨1, rfl⟩, rfl⟩
  rw [returnsWhole_of_through (by decide) ((through_pos Nat.one_pos).2 ⟨3, hflows⟩)] at h
  obtain ⟨⟨j, hj⟩, -⟩ := h
  cases hj

end Write

section Read

/-- A call that moves nothing ends the loop and leaves the stream as it is. -/
theorem ioReadBody_stop {fd : Input} (buffer : List UInt8) {n m : ℕ} (hn : n < 2 ^ 31)
    (hm : m ≤ n) (h : ∀ j, fd.sched fd.calls.length ≠ .upTo j) :
    ∃ r fd', ioReadBody n ⟨m, buffer, fd⟩ = .inr (r, buffer, fd') ∧ r ≤ 0
      ∧ (r < 0 ↔ fd.sched fd.calls.length = .error) ∧ fd'.sched = fd.sched
      ∧ fd'.pending = fd.pending := by
  have hcount := toSizeT_missing hm hn
  have hmax : ¬ SSIZE_MAX < n - m := by
    unfold SSIZE_MAX
    omega
  rcases ho : fd.sched fd.calls.length with _ | _ | j
  · refine ⟨-1, { fd with calls := fd.calls ++ [(n - m, -1)] }, ?_, by omega, by simp, rfl, rfl⟩
    simp only [ioReadBody, hcount, Input.read, Outcome.limit, ho, hmax, if_false, storeAt_nil]
    rw [toInt_of_isInt ⟨by omega, by omega⟩, if_pos (by omega)]
  · refine ⟨0, { fd with
        pending := fd.pending.drop 0
        calls := fd.calls ++ [(n - m, 0)] }, ?_, le_rfl, by simp, rfl, by simp⟩
    simp only [ioReadBody, hcount, Input.read, Outcome.limit, ho, hmax, if_false, List.take_zero,
      List.length_nil, Nat.cast_zero, storeAt_nil]
    rw [toInt_of_isInt ⟨by omega, by omega⟩, if_pos le_rfl]
  · exact absurd ho (h j)

/-- A call that moves some bytes takes them off the stream, and the loop ends when they are all
read. -/
theorem ioReadBody_upTo {fd : Input} (buffer : List UInt8) {n m j : ℕ} (hn : n < 2 ^ 31)
    (hm : m < n) (hp : n - m ≤ fd.pending.length) (h : fd.sched fd.calls.length = .upTo j) :
    ∃ (buffer' : List UInt8) (fd' : Input), fd'.sched = fd.sched
      ∧ fd'.pending = fd.pending.drop (min (j + 1) (n - m))
      ∧ fd'.calls.length = fd.calls.length + 1
      ∧ ioReadBody n ⟨m, buffer, fd⟩ = if m + min (j + 1) (n - m) < n
        then .inl ⟨↑(m + min (j + 1) (n - m)), buffer', fd'⟩ else .inr (↑n, buffer', fd') := by
  have hcount := toSizeT_missing hm.le hn
  have hlen : (fd.pending.take (min (j + 1) (n - m))).length = min (j + 1) (n - m) := by
    rw [List.length_take]
    omega
  refine ⟨storeAt buffer m (fd.pending.take (min (j + 1) (n - m))), { fd with
      pending := fd.pending.drop (min (j + 1) (n - m))
      calls := fd.calls ++ [(n - m, ↑(min (j + 1) (n - m)))] }, rfl, rfl, by simp, ?_⟩
  simp only [ioReadBody, Int.toNat_natCast, hcount, Input.read, h,
    limit_upTo j (show n - m < 2 ^ 31 by omega), hlen]
  rw [toInt_of_isInt ⟨by omega, by omega⟩, if_neg (by omega)]
  exact goOn_natCast (ReadState.mk · _ _) (·, _, _) (by omega)

/-- How far `io_read` got with a request for `n` bytes of a stream that has them. -/
structure ReadReach (fd : Input) (n : ℕ) (r : ℤ × List UInt8 × Input) : Prop where
  sched : r.2.2.sched = fd.sched
  reach : (∃ k', Flows fd.sched fd.calls.length n k' ∧ r.1 = n
      ∧ r.2.2.pending = fd.pending.drop n ∧ r.2.2.calls.length = k')
    ∨ (¬ ∃ k', Flows fd.sched fd.calls.length n k') ∧ r.1 ≤ 0 ∧ ∃ m < n,
      r.2.2.pending = fd.pending.drop m
        ∧ (0 < m ↔ ∃ j, fd.sched fd.calls.length = .upTo j)

/-- What stands after some rounds that moved `m` of the `n` bytes. -/
def ReadSoFar (fd : Input) (n : ℕ) (s : ReadState) : Prop :=
  ∃ m : ℕ, s.got = m ∧ m < n ∧ s.fd.sched = fd.sched ∧ s.fd.pending = fd.pending.drop m
    ∧ (m = 0 ∧ s.fd.calls.length = fd.calls.length
      ∨ 0 < m ∧ ∃ j, fd.sched fd.calls.length = .upTo j)
    ∧ ∀ k', Flows fd.sched fd.calls.length n k' ↔ Flows fd.sched s.fd.calls.length (n - m) k'

/-- `io_read` gets everything if each call moves something and stops at the first that does not,
with what came before taken off the stream. -/
theorem ioRead_reach (fd : Input) (buffer : List UInt8) {n : ℕ} (hpos : 0 < n)
    (hn : n < 2 ^ 31) (hp : n ≤ fd.pending.length) : ReadReach fd n (ioRead fd buffer n) := by
  unfold ioRead
  refine DoWhile.loop_inv (ReadSoFar fd n) (ReadReach fd n) ?_ _
    ⟨0, rfl, hpos, rfl, by simp, Or.inl ⟨rfl, rfl⟩, fun k' => Iff.rfl⟩
  rintro ⟨_, b, fd₁⟩ ⟨m, rfl, hm, hs, hpend, hfirst, hflows⟩
  simp only at hs hpend hfirst hflows
  by_cases hmove : ∃ j, fd₁.sched fd₁.calls.length = .upTo j
  · obtain ⟨j, hj⟩ := hmove
    obtain ⟨b', fd', hs', hp', hc', hb⟩ :=
      ioReadBody_upTo b hn hm (by rw [hpend, List.length_drop]; omega) hj
    rw [hb]
    split_ifs with hmore
    · refine ⟨_, rfl, hmore, hs'.trans hs, ?_, Or.inr ⟨by omega, ?_⟩, fun k' => ?_⟩
      · simp only [hp', hpend, List.drop_drop]
      · rcases hfirst with ⟨-, hc⟩ | ⟨-, hfirst⟩
        · exact ⟨j, by rw [← hc, ← hs, hj]⟩
        · exact hfirst
      · rw [hflows, flows_upTo (hs ▸ hj) (by omega)]
        simp only [hc']
        rw [show n - (m + min (j + 1) (n - m)) = n - m - (j + 1) by omega]
    · have hall : m + min (j + 1) (n - m) = n := by omega
      refine ⟨hs'.trans hs, Or.inl ⟨_, ?_, rfl, ?_, rfl⟩⟩
      · rw [hflows, flows_upTo (hs ▸ hj) (by omega), show n - m - (j + 1) = 0 by omega,
          flows_zero]
        exact hc'
      · simp only [hp', hpend, List.drop_drop, hall]
  · obtain ⟨r, fd', hb, hr, -, hs', hp'⟩ := ioReadBody_stop b hn hm.le (not_exists.1 hmove)
    rw [hb]
    refine ⟨hs'.trans hs, Or.inr ⟨?_, hr, m, hm, hp'.trans hpend, ?_⟩⟩
    · intro h
      obtain ⟨k', hk'⟩ := h
      obtain ⟨j, hj⟩ := flows_first (by omega) ((hflows k').1 hk')
      exact hmove ⟨j, hs ▸ hj⟩
    · rcases hfirst with ⟨rfl, hc⟩ | ⟨hm, hfirst⟩
      · exact iff_of_false (Nat.lt_irrefl 0) (hc ▸ hs ▸ hmove)
      · exact iff_of_true hm hfirst

/-- Nothing to read takes one call, which must not fail. -/
theorem ioRead_none (fd : Input) (buffer : List UInt8) :
    ∃ r fd', ioRead fd buffer 0 = (r, buffer, fd') ∧ (0 ≤ r ↔ fd.sched fd.calls.length ≠ .error)
      ∧ r ≤ 0 ∧ fd'.pending = fd.pending := by
  by_cases hmove : ∃ j, fd.sched fd.calls.length = .upTo j
  · obtain ⟨j, hj⟩ := hmove
    have hbody : ioReadBody 0 ⟨0, buffer, fd⟩ = .inr (0, buffer, { fd with
        pending := fd.pending.drop 0
        calls := fd.calls ++ [(0, 0)] }) := by
      simp [ioReadBody, toSizeT, toInt, Input.read, hj, limit_upTo]
    exact ⟨_, _, DoWhile.loop_inr hbody, by simp [hj], le_rfl, by simp⟩
  · obtain ⟨r, fd', hbody, hr, herror, -, hp⟩ :=
      @ioReadBody_stop fd buffer 0 0 (by norm_num) le_rfl (not_exists.1 hmove)
    refine ⟨r, fd', DoWhile.loop_inr hbody, ?_, hr, hp⟩
    rw [ne_eq, ← herror]
    omega

/-- The two header bytes are read, or the reading stops at one of them. -/
theorem ioRead_header {fd : Input} (buffer : List UInt8) {p rest : List UInt8}
    (hp : fd.pending = Packet2.frame p ++ rest) :
    (∃ k₁ fd₁, Flows fd.sched fd.calls.length 2 k₁
        ∧ ioRead fd buffer 2 = (2, storeAt buffer 0 (Packet2.header p.length), fd₁)
        ∧ fd₁.sched = fd.sched ∧ fd₁.pending = p ++ rest ∧ fd₁.calls.length = k₁)
      ∨ (¬ ∃ k₁, Flows fd.sched fd.calls.length 2 k₁) ∧ ∃ fd₁, (ioReadPacket2 fd buffer).1 = -1
        ∧ (ioReadPacket2 fd buffer).2.2 = fd₁
        ∧ (fd₁.pending = fd.pending ↔ ∀ j, fd.sched fd.calls.length ≠ .upTo j) := by
  have hlen : 2 ≤ fd.pending.length := by simp [hp, Packet2.frame]
  have hreach := ioRead_reach fd buffer (n := 2) (by norm_num) (by norm_num) hlen
  obtain ⟨bytes, hdone⟩ := ioRead_spec fd buffer (n := 2) ⟨by norm_num, by norm_num⟩
  rcases hrun : ioRead fd buffer 2 with ⟨r, b, fd₁⟩
  rw [Nat.cast_ofNat, hrun] at hreach
  rw [hrun] at hdone
  rcases hreach.reach with ⟨k₁, hflows, hr, hpend, hcalls⟩ | ⟨hnot, hr, m, hm, hpend, hfirst⟩
  · have hr : r = 2 := hr
    have hb : b = storeAt buffer 0 bytes := hdone.buffer
    have hpend : fd₁.pending = p ++ rest := by
      rw [show fd₁.pending = fd.pending.drop 2 from hpend, hp]
      rfl
    have hbytes : bytes = Packet2.header p.length := by
      have h : fd.pending = bytes ++ fd₁.pending := hdone.pending
      rw [hp, hpend, Packet2.frame, List.append_assoc] at h
      exact (List.append_cancel_right h).symm
    exact Or.inl ⟨k₁, fd₁, hflows, by rw [hr, hb, hbytes], hreach.sched, hpend, hcalls⟩
  · have hne : r ≠ 2 := by
      simp only at hr
      omega
    have hpacket : ioReadPacket2 fd buffer = (-1, b, fd₁) := by
      simp only [ioReadPacket2, hrun, ne_eq, hne, not_false_eq_true, if_true]
    refine Or.inr ⟨hnot, fd₁, by rw [hpacket], by rw [hpacket], ?_⟩
    rw [show fd₁.pending = fd.pending.drop m from hpend, ← not_exists, ← hfirst]
    constructor
    · intro h hpos
      have := congrArg List.length h
      rw [List.length_drop] at this
      omega
    · intro h
      rw [show m = 0 by omega, List.drop_zero]

/-- What reading a payload returns, and what is left of the stream. -/
theorem ioRead_payload {fd : Input} (buffer : List UInt8) {p rest : List UInt8}
    (hp : fd.pending = p ++ rest) (hlen : p.length ≤ 65535) :
    ((ioRead fd buffer p.length).1 = p.length ∧ (ioRead fd buffer p.length).2.2.pending = rest
        ∧ Through fd.sched fd.calls.length p.length)
      ∨ ¬ Through fd.sched fd.calls.length p.length
        ∧ (ioRead fd buffer p.length).1 ≠ p.length
        ∧ (ioRead fd buffer p.length).2.2.pending.length ≤ p.length + rest.length := by
  rcases Nat.eq_zero_or_pos p.length with hzero | hpos
  · obtain ⟨r, fd', hrun, hr, hle, hpend⟩ := ioRead_none fd buffer
    rw [hzero, Nat.cast_zero, hrun, Through, if_pos rfl, ← hr, hpend, hp,
      List.eq_nil_of_length_eq_zero hzero]
    by_cases h : 0 ≤ r
    · exact Or.inl ⟨by simp only; omega, rfl, h⟩
    · exact Or.inr ⟨h, fun hr => h (by simp only at hr; omega), by simp⟩
  · have hreach := ioRead_reach fd buffer hpos (by omega) (by rw [hp, List.length_append]; omega)
    rw [through_pos hpos]
    rcases hreach.reach with ⟨k', hflows, hr, hpend, -⟩ | ⟨hnot, hr, m, -, hpend, -⟩
    · exact Or.inl ⟨hr, by rw [hpend, hp, List.drop_left], k', hflows⟩
    · refine Or.inr ⟨hnot, fun h => by omega, ?_⟩
      rw [hpend, hp, List.length_drop, List.length_append]
      omega

/-- With a frame next on the stream, a value that is not negative says that the frame is read and
how long its payload is, and a negative one that nothing is. -/
def TellsTruth (fd : Input) (buffer p rest : List UInt8) : Prop :=
  (0 ≤ (ioReadPacket2 fd buffer).1 → (ioReadPacket2 fd buffer).2.2.pending = rest
      ∧ (ioReadPacket2 fd buffer).1 = p.length)
    ∧ ((ioReadPacket2 fd buffer).1 < 0 →
      (ioReadPacket2 fd buffer).2.2.pending = Packet2.frame p ++ rest)

/-- Once the header is read the result is right exactly if the payload is read too: bytes that are
off the stream do not come back. -/
theorem tellsTruth_of_header {fd : Input} (buffer : List UInt8) {p rest : List UInt8} {k₁ : ℕ}
    (hp : fd.pending = Packet2.frame p ++ rest) (hlen : p.length ≤ 65535)
    (hplain : HeaderPlain p.length) (hflows : Flows fd.sched fd.calls.length 2 k₁) :
    TellsTruth fd buffer p rest ↔ Through fd.sched k₁ p.length := by
  rcases ioRead_header buffer hp with ⟨k, fd₁, hk, hrun, hs, hpend, hcalls⟩ | ⟨hnot, -⟩
  · obtain rfl := flows_unique hk hflows
    have hpacket : ioReadPacket2 fd buffer
        = ioRead fd₁ (storeAt buffer 0 (Packet2.header p.length)) p.length := by
      rw [ioReadPacket2_two hrun, headerLength_header hlen hplain, Packet2.header]
    rw [TellsTruth, hpacket, ← hs, ← hcalls]
    rcases ioRead_payload (storeAt buffer 0 (Packet2.header p.length)) hpend hlen with
      ⟨hr, hrest, hthrough⟩ | ⟨hstop, hr, hle⟩
    · exact iff_of_true ⟨fun _ => ⟨hrest, hr⟩, fun hneg => by omega⟩ hthrough
    · refine iff_of_false ?_ hstop
      rintro ⟨hread, hback⟩
      rcases Int.lt_or_le (ioRead fd₁ (storeAt buffer 0 _) p.length).1 0 with hneg | hnonneg
      · have := congrArg List.length (hback hneg)
        rw [Packet2.frame, List.length_append, List.length_append, Packet2.length_header] at this
        omega
      · exact hr (hread hnonneg).2
  · exact absurd ⟨k₁, hflows⟩ hnot

/-- The result is right if the very first call stops, or if none does. -/
theorem tellsTruth_iff {fd : Input} (buffer : List UInt8) {p rest : List UInt8}
    (hp : fd.pending = Packet2.frame p ++ rest) (hlen : p.length ≤ 65535)
    (hplain : HeaderPlain p.length) :
    TellsTruth fd buffer p rest ↔ (∀ j, fd.sched fd.calls.length ≠ .upTo j)
      ∨ ∃ k₁, Flows fd.sched fd.calls.length 2 k₁ ∧ Through fd.sched k₁ p.length := by
  rcases ioRead_header buffer hp with ⟨k₁, -, hflows, -⟩ | ⟨hnot, fd₁, hr, hfd, hfirst⟩
  · obtain ⟨j, hj⟩ := flows_first (by norm_num) hflows
    rw [tellsTruth_of_header buffer hp hlen hplain hflows]
    constructor
    · exact fun h => Or.inr ⟨k₁, hflows, h⟩
    · intro h
      rcases h with hstop | ⟨k, hk, hthrough⟩
      · exact absurd hj (hstop j)
      · rwa [flows_unique hflows hk]
  · rw [TellsTruth, hr, hfd, ← hp, hfirst]
    constructor
    · exact fun h => Or.inl (h.2 (by norm_num))
    · intro h
      rcases h with hstop | ⟨k, hk, -⟩
      · exact ⟨fun h => absurd h (by norm_num), fun _ => hstop⟩
      · exact absurd ⟨k, hk⟩ hnot

theorem tellsTruth_oneByteReads :
    TellsTruth ⟨[0, 2, 72, 105], fun _ => .upTo 0, []⟩ [] [72, 105] []
      ↔ (∀ j, Outcome.upTo 0 ≠ .upTo j)
        ∨ ∃ k₁, Flows (fun _ => .upTo 0) 0 2 k₁ ∧ Through (fun _ => .upTo 0) k₁ 2 :=
  @tellsTruth_iff ⟨[0, 2, 72, 105], fun _ => .upTo 0, []⟩ [] [72, 105] [] rfl (by decide)
    (by decide)

/-- The header comes, and then an error: the next call would take the payload for a header. -/
theorem not_tellsTruth_failedPayload : ¬ ∀ (fd : Input) (buffer p rest : List UInt8),
    fd.pending = Packet2.frame p ++ rest → p.length ≤ 65535 → HeaderPlain p.length →
    TellsTruth fd buffer p rest := by
  intro hall
  have h := hall ⟨[0, 1, 72], fun k => if k = 0 then .upTo 1 else .error, []⟩ [] [72] [] rfl
    (by decide) (by decide)
  have hflows : Flows (fun k => if k = 0 then .upTo 1 else .error) 0 2 1 :=
    .call rfl (by norm_num) (.done 1)
  rw [tellsTruth_of_header [] rfl (by decide) (by decide) hflows] at h
  obtain ⟨k', hk'⟩ := (through_pos Nat.one_pos).1 h
  obtain ⟨j, hj⟩ := flows_first Nat.one_pos hk'
  cases hj

end Read

end Erlm
