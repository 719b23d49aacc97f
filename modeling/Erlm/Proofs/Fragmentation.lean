import Erlm.Proofs.Packet

/-!
# Reading whatever the fragmentation

Where no call fails, what `io_read` does to a stream does not depend on how the kernel cuts it up:
the result, the bytes stored and what is left are those of one exact read (`ioRead_exact`). So two
sequences of `io_read_packet2` calls on one stream, well-formed or not, agree call by call
(`readCalls_eq`).
-/

namespace Erlm

section Exact

/-- What reading `n` bytes off a stream comes to: the result, the bytes and what is left. A negative
count is refused, and where the stream ends too early its bytes are stored but the last call
returns 0. -/
def exactRead (n : ℤ) (pending : Bytes) : ℤ × Bytes × Bytes :=
  if n < 0 then (-1, [], pending)
  else if n ≤ pending.length then (n, pending.take n.toNat, pending.drop n.toNat)
  else (0, pending, [])

theorem read_nonneg {fd : Input} (h : ShortOnly fd.sched) {count : ℕ} (hc : count < 2 ^ 31) :
    0 ≤ (fd.read count).1 := by
  obtain ⟨k, hk⟩ := h fd.calls.length
  simp only [Input.read, hk, limit_upTo k hc]
  omega

theorem read_huge (fd : Input) {count : ℕ} (hc : 2 ^ 63 ≤ count) : (fd.read count).1 = -1 := by
  simp only [Input.read, limit_huge _ hc]

/-- The call that stops an `io_read` too early returns 0, or -1 if the count is negative. -/
theorem ioRead_result {fd : Input} (h : ShortOnly fd.sched) (buffer : Bytes) {n : ℤ}
    (hn : IsInt n) : (ioRead fd buffer n).1 = n ∧ 0 < n
      ∨ (ioRead fd buffer n).1 = if n < 0 then -1 else 0 := by
  unfold ioRead
  refine DoWhile.loop_inv (fun (s : ReadState) => Within n s.got ∧ s.fd.sched = fd.sched)
    (fun (r : ℤ × Bytes × Input) => r.1 = n ∧ 0 < n ∨ r.1 = if n < 0 then -1 else 0) ?_ _
    ⟨⟨le_rfl, Or.inr rfl⟩, rfl⟩
  rintro s ⟨hw, hs⟩
  obtain ⟨r, bytes, fd', hread, hs', -, -, hround⟩ := ioReadBody_cases hn hw s.fd
  rcases hround with ⟨-, hr, hround⟩ | ⟨hpos, -, hlt, hround⟩ | ⟨hpos, -, hall, hround⟩ <;>
    rw [hround s.buffer]
  · right
    obtain ⟨h0, hlt⟩ := hw
    obtain ⟨hn1, hn2⟩ := hn
    split_ifs with hneg
    · have hhuge := toSizeT_of_neg (z := n - s.got) (by omega) ⟨by omega, by omega⟩
      rw [← hread, read_huge _ hhuge]
    · have hcount := toSizeT_of_nonneg (z := n - s.got) (by omega) (by omega)
      have hnonneg := @read_nonneg s.fd (hs ▸ h) (toSizeT (n - s.got)) (by omega)
      show r = 0
      omega
  · exact ⟨⟨by have := hw.1; simp only; omega, Or.inl hlt⟩, hs'.trans hs⟩
  · exact Or.inl ⟨rfl, by have := hw.1; omega⟩

/-- Where no call fails, `io_read` is one exact read. -/
theorem ioRead_exact {fd : Input} (h : ShortOnly fd.sched) (buffer : Bytes) {n : ℤ} (hn : IsInt n) :
    ∃ fd', ioRead fd buffer n
        = ((exactRead n fd.pending).1, storeAt buffer 0 (exactRead n fd.pending).2.1, fd')
      ∧ fd'.sched = fd.sched ∧ fd'.pending = (exactRead n fd.pending).2.2 := by
  obtain ⟨bytes, hd⟩ := ioRead_spec fd buffer hn
  have hresult := ioRead_result h buffer hn
  unfold exactRead
  by_cases hneg : n < 0
  · obtain ⟨r, fd', hr, hr0, hs, hp⟩ := ioRead_neg fd buffer hn hneg
    rw [hr] at hresult
    rw [if_pos hneg] at hresult ⊢
    rcases hresult with ⟨-, hpos⟩ | hr1
    · omega
    · obtain rfl : r = -1 := hr1
      exact ⟨fd', by rw [hr, storeAt_nil], hs, hp⟩
  · rw [if_neg hneg]
    obtain ⟨m, rfl⟩ := Int.eq_ofNat_of_zero_le (not_lt.1 hneg)
    by_cases hle : (m : ℤ) ≤ fd.pending.length
    · rw [if_pos hle]
      obtain ⟨fd', hr, hs, hp⟩ := ioRead_short h buffer (n := m) (by have := hn.2; omega) (by omega)
      exact ⟨fd', hr, hs, hp⟩
    · -- the stream ends before the count is reached
      rw [if_neg hle]
      have hlen := congrArg List.length hd.pending
      rw [List.length_append] at hlen
      rcases hd.result with ⟨-, hall, -⟩ | ⟨hr0, -, hstop⟩
      · omega
      · have hnil : (ioRead fd buffer m).2.2.pending = [] := by
          rcases hstop h with hm | hnil
          · omega
          · exact hnil
        have hbytes : bytes = fd.pending := by rw [hd.pending, hnil, List.append_nil]
        have hzero : (ioRead fd buffer m).1 = 0 := by
          rcases hresult with ⟨hr, hpos⟩ | hr
          · omega
          · rwa [if_neg hneg] at hr
        refine ⟨(ioRead fd buffer m).2.2, ?_, hd.sched, hnil⟩
        rw [← hzero, ← hbytes, ← hd.buffer]

end Exact

section Calls

/-- The calls of `io_read_packet2` with these buffers, one after the other: the result, the buffer
and what is left of the stream after each. -/
def readCalls : List Bytes → Input → List (ℤ × Bytes × Bytes)
  | [], _ => []
  | buffer :: buffers, fd =>
    let (result, buffer, fd) := ioReadPacket2 fd buffer
    (result, buffer, fd.pending) :: readCalls buffers fd

/-- What a packet read comes to, the buffer and what is left included. -/
def exactPacket (pending buffer : Bytes) : ℤ × Bytes × Bytes :=
  let (result, header, pending) := exactRead 2 pending
  let buffer := storeAt buffer 0 header
  if result ≠ 2 then (-1, buffer, pending)
  else
    let length := headerLength (buffer.getD 0 0) (buffer.getD 1 0)
    let (result, bytes, pending) := exactRead length pending
    (result, storeAt buffer 0 bytes, pending)

theorem ioReadPacket2_exact {fd : Input} (h : ShortOnly fd.sched) (buffer : Bytes) :
    ∃ fd', ioReadPacket2 fd buffer
        = ((exactPacket fd.pending buffer).1, (exactPacket fd.pending buffer).2.1, fd')
      ∧ fd'.sched = fd.sched ∧ fd'.pending = (exactPacket fd.pending buffer).2.2 := by
  obtain ⟨fd₁, hr₁, hs₁, hp₁⟩ := ioRead_exact h buffer (n := 2) ⟨by norm_num, by norm_num⟩
  unfold ioReadPacket2 exactPacket
  rw [hr₁]
  rcases hheader : exactRead 2 fd.pending with ⟨result, header, pending⟩
  rw [hheader] at hp₁
  simp only
  split_ifs with htwo
  · exact ⟨fd₁, rfl, hs₁, hp₁⟩
  · obtain ⟨fd', hr, hs, hp⟩ := ioRead_exact (hs₁ ▸ h) (storeAt buffer 0 header)
      (isInt_headerLength ((storeAt buffer 0 header).getD 0 0) ((storeAt buffer 0 header).getD 1 0))
    rw [toInt_toSizeT (isInt_headerLength _ _), hr, hp₁]
    rw [hp₁] at hp
    exact ⟨fd', rfl, hs.trans hs₁, hp⟩

/-- The calls depend on the stream only. -/
theorem readCalls_eq {fd fd' : Input} (h : ShortOnly fd.sched) (h' : ShortOnly fd'.sched)
    (hp : fd.pending = fd'.pending) (buffers : List Bytes) :
    readCalls buffers fd = readCalls buffers fd' := by
  induction buffers generalizing fd fd' with
  | nil => rfl
  | cons buffer buffers ih =>
    obtain ⟨fd₁, hr, hs, hp₁⟩ := ioReadPacket2_exact h buffer
    obtain ⟨fd₁', hr', hs', hp₁'⟩ := ioReadPacket2_exact h' buffer
    rw [← hp] at hr' hp₁'
    have hpending : fd₁.pending = fd₁'.pending := hp₁.trans hp₁'.symm
    unfold readCalls
    rw [hr, hr']
    simp only [hpending, ih (hs ▸ h) (hs' ▸ h') hpending]

/-- A frame of one byte and half a header, read byte by byte and all at once. -/
theorem readCalls_eq_truncated :
    readCalls [[], [], []] ⟨[0, 1, 7, 0], fun _ => .upTo 0, []⟩
      = readCalls [[], [], []] ⟨[0, 1, 7, 0], fun _ => .upTo 9, []⟩ :=
  @readCalls_eq ⟨[0, 1, 7, 0], fun _ => .upTo 0, []⟩ ⟨[0, 1, 7, 0], fun _ => .upTo 9, []⟩
    (fun _ => ⟨0, rfl⟩) (fun _ => ⟨9, rfl⟩) rfl [[], [], []]

end Calls

end Erlm
