import Erlm.Lib.Packet2
import Erlm.Proofs.Io

/-!
# The reader and the writer against the wire format

`io_read_packet2` puts the two length bytes together as signed chars, so it reads a stream of
packets frame by frame exactly when both length bytes of every payload are below 128
(`readsFrames_iff`): any other length comes out negative, and nothing of the payload is read.
`io_write_packet2` masks each length byte, and what it writes decodes to the payloads, whatever
their lengths up to 65535 (`writePackets_decode`). Longer ones are not refused
(`writesOrRefuses_iff`).
-/

namespace Erlm

section Header

theorem charToInt_of_lt {b : UInt8} (h : b.toNat < 128) : (charToInt b).toNat = b.toNat := by
  have hm : b.toBitVec.msb = false := by
    rw [BitVec.msb_eq_decide]
    simpa using h
  rw [charToInt, BitVec.signExtend_eq_setWidth_of_msb_false hm,
    BitVec.toNat_setWidth_of_le (by decide)]
  rfl

theorem msb_charToInt (b : UInt8) : (charToInt b).msb = decide (128 ≤ b.toNat) := by
  rw [charToInt, BitVec.msb_signExtend, BitVec.msb_eq_decide]
  simp

theorem msb_charToInt_shiftLeft (b : UInt8) :
    (charToInt b <<< 8).msb = decide (128 ≤ b.toNat) := by
  rw [BitVec.msb_shiftLeft, charToInt, BitVec.getMsbD_signExtend, BitVec.msb_eq_decide]
  simp

theorem headerLength_of_lt {hi lo : UInt8} (h1 : hi.toNat < 128) (h2 : lo.toNat < 128) :
    headerLength hi lo = hi.toNat * 256 + lo.toNat := by
  have hm : (charToInt hi <<< 8 ||| charToInt lo).msb = false := by
    rw [BitVec.msb_or, msb_charToInt, msb_charToInt_shiftLeft]
    simp [h1, h2]
  rw [headerLength, BitVec.toInt_eq_toNat_of_msb hm, BitVec.toNat_or, BitVec.toNat_shiftLeft,
    charToInt_of_lt h1, charToInt_of_lt h2, Nat.mod_eq_of_lt,
    ← Nat.shiftLeft_add_eq_or_of_lt (by omega), Nat.shiftLeft_eq]
  · push_cast
    ring
  · rw [Nat.shiftLeft_eq]
    omega

/-- A length byte from 128 on is a negative char, and its sign reaches the whole length. -/
theorem headerLength_neg {hi lo : UInt8} (h : 128 ≤ hi.toNat ∨ 128 ≤ lo.toNat) :
    headerLength hi lo < 0 := by
  have hm : (charToInt hi <<< 8 ||| charToInt lo).msb = true := by
    rw [BitVec.msb_or, msb_charToInt, msb_charToInt_shiftLeft]
    simpa using h
  rw [BitVec.msb_eq_toInt] at hm
  exact of_decide_eq_true hm

theorem isInt_headerLength (hi lo : UInt8) : IsInt (headerLength hi lo) :=
  ⟨BitVec.le_toInt _, BitVec.toInt_lt⟩

/-- Both length bytes of a payload of `n` bytes are below 128. -/
def HeaderPlain (n : ℕ) : Prop := n / 256 < 128 ∧ n % 256 < 128

instance (n : ℕ) : Decidable (HeaderPlain n) := inferInstanceAs (Decidable (_ ∧ _))

theorem headerLength_header {n : ℕ} (hn : n ≤ 65535) (h : HeaderPlain n) :
    headerLength (UInt8.ofNat (n / 256)) (UInt8.ofNat n) = n := by
  obtain ⟨h1, h2⟩ := h
  rw [headerLength_of_lt (by simp only [UInt8.toNat_ofNat']; omega)
    (by simp only [UInt8.toNat_ofNat']; omega)]
  exact_mod_cast Packet2.header_toNat hn

theorem headerLength_header_neg {n : ℕ} (hn : n ≤ 65535) (h : ¬ HeaderPlain n) :
    headerLength (UInt8.ofNat (n / 256)) (UInt8.ofNat n) < 0 := by
  apply headerLength_neg
  simp only [UInt8.toNat_ofNat']
  unfold HeaderPlain at h
  omega

end Header

section Read

theorem ioRead_two {fd : Input} (h : ShortOnly fd.sched) (buffer : List UInt8) {hi lo : UInt8}
    {rest : List UInt8} (hp : fd.pending = hi :: lo :: rest) :
    ∃ fd', ioRead fd buffer 2 = (2, storeAt buffer 0 [hi, lo], fd') ∧ fd'.sched = fd.sched
      ∧ fd'.pending = rest := by
  obtain ⟨fd', hr, hs, hp'⟩ := ioRead_short h buffer (n := 2) (by norm_num) (by simp [hp])
  rw [hp] at hr hp'
  exact ⟨fd', hr, hs, hp'⟩

/-- Once the two length bytes are read, what is left is an `io_read` of the length they stand
for. -/
theorem ioReadPacket2_two {fd fd' : Input} {buffer : List UInt8} {hi lo : UInt8}
    (h : ioRead fd buffer 2 = (2, storeAt buffer 0 [hi, lo], fd')) :
    ioReadPacket2 fd buffer = ioRead fd' (storeAt buffer 0 [hi, lo]) (headerLength hi lo) := by
  simp only [ioReadPacket2, h, ne_eq, not_true_eq_false, if_false]
  rw [getD_storeAt_zero buffer (by simp), getD_storeAt_zero buffer (by simp),
    List.getD_cons_zero, List.getD_cons_succ, List.getD_cons_zero,
    toInt_toSizeT (isInt_headerLength hi lo)]

/-- A frame whose length bytes are plain is read whole. -/
theorem ioReadPacket2_frame {fd : Input} (h : ShortOnly fd.sched) (buffer : List UInt8)
    {p rest : List UInt8} (hp : fd.pending = Packet2.frame p ++ rest) (hlen : p.length ≤ 65535)
    (hplain : HeaderPlain p.length) :
    ∃ b fd', ioReadPacket2 fd buffer = (↑p.length, storeAt b 0 p, fd')
      ∧ fd'.sched = fd.sched ∧ fd'.pending = rest := by
  obtain ⟨fd₁, hr₁, hs₁, hp₁⟩ := ioRead_two h buffer hp
  obtain ⟨fd', hr, hs, hp'⟩ := ioRead_short (hs₁ ▸ h)
    (storeAt buffer 0 (Packet2.header p.length)) (n := p.length) (by omega) (by simp [hp₁])
  have hp₁ : fd₁.pending = p ++ rest := hp₁
  rw [hp₁, List.take_left] at hr
  rw [hp₁, List.drop_left] at hp'
  refine ⟨storeAt buffer 0 (Packet2.header p.length), fd', ?_, hs.trans hs₁, hp'⟩
  rw [ioReadPacket2_two hr₁, headerLength_header hlen hplain]
  exact hr

/-- A frame with a length byte from 128 on loses its header and is not read. -/
theorem ioReadPacket2_not_plain {fd : Input} (h : ShortOnly fd.sched) (buffer : List UInt8)
    {p rest : List UInt8} (hp : fd.pending = Packet2.frame p ++ rest) (hlen : p.length ≤ 65535)
    (hplain : ¬ HeaderPlain p.length) :
    ∃ r fd', ioReadPacket2 fd buffer = (r, storeAt buffer 0 (Packet2.header p.length), fd')
      ∧ r ≤ 0 := by
  obtain ⟨fd₁, hr₁, -, -⟩ := ioRead_two h buffer hp
  obtain ⟨r, fd', hr, hneg, -⟩ := ioRead_neg fd₁ (storeAt buffer 0 _) (isInt_headerLength _ _)
    (headerLength_header_neg hlen hplain)
  exact ⟨r, fd', by rw [ioReadPacket2_two hr₁, hr]; rfl, hneg⟩

/-- The result, the bytes stored and the descriptor are the same for every buffer. -/
theorem ioReadPacket2_buffer (fd : Input) (buffer : List UInt8) :
    ioReadPacket2 fd buffer = ((ioReadPacket2 fd []).1,
      storeAt buffer 0 (ioReadPacket2 fd []).2.1, (ioReadPacket2 fd []).2.2) := by
  have hint : IsInt 2 := by norm_num [IsInt]
  obtain ⟨bytes, hd⟩ := ioRead_spec fd [] hint
  have h2 := ioRead_buffer fd buffer hint
  rcases hr : ioRead fd [] 2 with ⟨r, b, fd'⟩
  rw [hr] at hd h2
  by_cases htwo : r = 2
  · have hlen : b.length = 2 := by
      have hb : b = storeAt [] 0 bytes := hd.buffer
      rw [hb, storeAt_empty]
      rcases hd.result with ⟨-, hl, -⟩ | ⟨hr, -⟩
      · exact_mod_cast hl
      · simp only at hr
        omega
    obtain ⟨n, hint', hn⟩ : ∃ n, IsInt n
        ∧ toInt (toSizeT (headerLength (b.getD 0 0) (b.getD 1 0))) = n :=
      ⟨_, isInt_toInt _, rfl⟩
    have hfull (q : List UInt8) (hq : ioRead fd q 2 = (r, storeAt q 0 b, fd')) :
        ioReadPacket2 fd q = ioRead fd' (storeAt q 0 b) n := by
      simp only [ioReadPacket2, hq, htwo, ne_eq, not_true_eq_false, if_false]
      rw [getD_storeAt_zero q (by omega), getD_storeAt_zero q (by omega), hn]
    rw [hfull buffer h2, hfull [] (by rw [hr, storeAt_empty]), storeAt_empty,
      ioRead_buffer fd' (storeAt buffer 0 b) hint', ioRead_buffer fd' b hint', storeAt_storeAt_zero]
  · have hshort (q : List UInt8) (hq : ioRead fd q 2 = (r, storeAt q 0 b, fd')) :
        ioReadPacket2 fd q = (-1, storeAt q 0 b, fd') := by
      simp only [ioReadPacket2, hq, ne_eq, htwo, not_false_eq_true, if_true]
    rw [hshort buffer h2, hshort [] (by rw [hr, storeAt_empty]), storeAt_empty]

/-- Reading packet after packet into one buffer, every call returns the length of the next
payload, with the payload at the start of the buffer, and leaves the stream at the next frame. -/
def ReadsFrames : List (List UInt8) → Input → List UInt8 → Prop
  | [], _, _ => True
  | p :: ps, fd, buffer =>
    let (result, buffer, fd) := ioReadPacket2 fd buffer
    result = p.length ∧ buffer.take p.length = p ∧ fd.pending = Packet2.frames ps
      ∧ ReadsFrames ps fd buffer

theorem readsFrames_cons {p : List UInt8} {ps : List (List UInt8)} {fd : Input}
    {buffer : List UInt8} {r : ℤ × List UInt8 × Input} (h : ioReadPacket2 fd buffer = r) :
    ReadsFrames (p :: ps) fd buffer ↔ r.1 = p.length ∧ r.2.1.take p.length = p
      ∧ r.2.2.pending = Packet2.frames ps ∧ ReadsFrames ps r.2.2 r.2.1 := by
  subst h
  rfl

/-- A stream of packets is read frame by frame exactly when the length bytes of every payload are
below 128. -/
theorem readsFrames_iff : ∀ (ps : List (List UInt8)) (fd : Input) (buffer : List UInt8),
    ShortOnly fd.sched → fd.pending = Packet2.frames ps → (∀ p ∈ ps, p.length ≤ 65535) →
    (ReadsFrames ps fd buffer ↔ ∀ p ∈ ps, HeaderPlain p.length)
  | [], _, _, _, _, _ => by simp [ReadsFrames]
  | p :: ps, fd, buffer, h, hp, hlen => by
    rw [Packet2.frames_cons] at hp
    have hl := hlen p List.mem_cons_self
    rw [List.forall_mem_cons]
    by_cases hplain : HeaderPlain p.length
    · obtain ⟨b, fd', hr, hs, hp'⟩ := ioReadPacket2_frame h buffer hp hl hplain
      have ih := readsFrames_iff ps fd' (storeAt b 0 p) (hs ▸ h) hp'
        fun q hq => hlen q (List.mem_cons_of_mem _ hq)
      rw [readsFrames_cons hr, ih]
      simp only [hp', take_storeAt_zero, hplain, true_and]
    · obtain ⟨r, fd', hr, hneg⟩ := ioReadPacket2_not_plain h buffer hp hl hplain
      -- a length that is not plain is not zero
      have hpos : 0 < p.length := by
        unfold HeaderPlain at hplain
        omega
      rw [readsFrames_cons hr]
      refine ⟨fun hreads => ?_, fun hall => absurd hall.1 hplain⟩
      have hres := hreads.1
      simp only at hres
      omega

theorem readsFrames_twoByteReads :
    ReadsFrames [[72, 105], []] ⟨[0, 2, 72, 105, 0, 0], fun _ => .upTo 1, []⟩
      (List.replicate 65535 0) := by
  apply (readsFrames_iff _ _ _ (fun _ => ⟨1, rfl⟩) rfl _).2
  · decide
  · decide

/-- A payload of 128 bytes is lost, even where the kernel delivers it in one piece. -/
theorem not_readsFrames_128 : ¬ ∀ (ps : List (List UInt8)) (fd : Input) (buffer : List UInt8),
    ShortOnly fd.sched → fd.pending = Packet2.frames ps → (∀ p ∈ ps, p.length ≤ 65535) →
    buffer.length = 65535 → ReadsFrames ps fd buffer := by
  intro hall
  obtain ⟨fd, hsched, hp⟩ : ∃ fd : Input, ShortOnly fd.sched
      ∧ fd.pending = Packet2.frames [List.replicate 128 0] :=
    ⟨⟨_, fun _ => .upTo 65535, []⟩, fun _ => ⟨65535, rfl⟩, rfl⟩
  have hreads := hall _ fd (List.replicate 65535 0) hsched hp (by simp) List.length_replicate
  have hframe : fd.pending = Packet2.frame (List.replicate 128 0) ++ [] := hp
  obtain ⟨r, fd', hr, hneg⟩ := ioReadPacket2_not_plain hsched (List.replicate 65535 0) hframe
    (by simp) (by simp [HeaderPlain])
  rw [readsFrames_cons hr, List.length_replicate] at hreads
  have hres := hreads.1
  simp only at hres
  omega

end Read

section Write

theorem ioWrite_byte {fd : Output} (h : ShortOnly fd.sched) (b : UInt8) :
    ∃ fd', ioWrite fd [b] 1 = (1, fd') ∧ fd'.sched = fd.sched
      ∧ fd'.written = fd.written ++ [b] :=
  ioWrite_short h [b] (n := 1) (by norm_num)

theorem ofInt_natCast (n : ℕ) : UInt8.ofInt n = UInt8.ofNat n := by
  apply UInt8.toNat.inj
  simp only [UInt8.ofInt, UInt8.toNat_ofNat']
  omega

theorem ofInt_shiftRight (n : ℕ) :
    UInt8.ofInt ((n : ℤ) >>> (8 : ℕ)) = UInt8.ofNat (n / 256) := by
  rw [Int.shiftRight_eq_div_pow]
  exact ofInt_natCast (n / 2 ^ 8)

/-- The results for the two header bytes are dropped. -/
theorem ioWritePacket2_eq (fd : Output) (buffer : List UInt8) (length : ℤ) :
    ioWritePacket2 fd buffer length
      = ioWrite (ioWrite (ioWrite fd [UInt8.ofInt (length >>> (8 : ℕ))] 1).2
          [UInt8.ofInt length] 1).2 buffer length := by
  rw [ioWritePacket2]

/-- Where no call fails, `io_write_packet2` puts out one frame. -/
theorem ioWritePacket2_short {fd : Output} (h : ShortOnly fd.sched) {p : List UInt8}
    (hp : p.length ≤ 65535) :
    ∃ fd', ioWritePacket2 fd p p.length = (↑p.length, fd') ∧ fd'.sched = fd.sched
      ∧ fd'.written = fd.written ++ Packet2.frame p := by
  obtain ⟨fd₁, h₁, hs₁, hw₁⟩ := ioWrite_byte h (UInt8.ofInt ((p.length : ℤ) >>> (8 : ℕ)))
  obtain ⟨fd₂, h₂, hs₂, hw₂⟩ := ioWrite_byte (hs₁ ▸ h) (UInt8.ofInt p.length)
  obtain ⟨fd₃, h₃, hs₃, hw₃⟩ := ioWrite_short (hs₂ ▸ hs₁ ▸ h) p (n := p.length) (by omega)
  refine ⟨fd₃, ?_, hs₃.trans (hs₂.trans hs₁), ?_⟩
  · rw [ioWritePacket2_eq, h₁, h₂, h₃]
  · rw [hw₃, hw₂, hw₁, ofInt_shiftRight, ofInt_natCast]
    simp [Packet2.frame, Packet2.header]

/-- Packet after packet, what the calls return and the descriptor in the end. -/
def writePackets : List (List UInt8) → Output → List ℤ × Output
  | [], fd => ([], fd)
  | p :: ps, fd =>
    let (result, fd) := ioWritePacket2 fd p p.length
    let (results, fd) := writePackets ps fd
    (result :: results, fd)

theorem writePackets_frames : ∀ (ps : List (List UInt8)) (fd : Output),
    ShortOnly fd.sched → (∀ p ∈ ps, p.length ≤ 65535) →
    ∃ fd', writePackets ps fd = (ps.map fun p => (p.length : ℤ), fd')
      ∧ fd'.written = fd.written ++ Packet2.frames ps
  | [], fd, _, _ => ⟨fd, rfl, by simp⟩
  | p :: ps, fd, h, hp => by
    obtain ⟨fd₁, h₁, hs₁, hw₁⟩ := ioWritePacket2_short h (hp p List.mem_cons_self)
    obtain ⟨fd', h', hw'⟩ := writePackets_frames ps fd₁ (hs₁ ▸ h)
      fun q hq => hp q (List.mem_cons_of_mem _ hq)
    refine ⟨fd', ?_, ?_⟩
    · simp only [writePackets, h₁, h', List.map_cons]
    · rw [hw', hw₁, Packet2.frames_cons, List.append_assoc]

/-- Every packet's length is returned, and what is written decodes to the packets. -/
theorem writePackets_decode {ps : List (List UInt8)} {fd : Output} (h : ShortOnly fd.sched)
    (hp : ∀ p ∈ ps, p.length ≤ 65535) :
    (writePackets ps fd).1 = ps.map (fun p => (p.length : ℤ))
      ∧ ∃ bytes, (writePackets ps fd).2.written = fd.written ++ bytes
        ∧ Packet2.decode bytes = some ps := by
  obtain ⟨fd', h', hw'⟩ := writePackets_frames ps fd h hp
  rw [h']
  exact ⟨rfl, Packet2.frames ps, hw', Packet2.decode_frames hp⟩

theorem writePackets_oneByteWrites :
    (writePackets [[72, 105], []] ⟨[], fun _ => .upTo 0, []⟩).1 = [2, 0]
      ∧ ∃ bytes, (writePackets [[72, 105], []] ⟨[], fun _ => .upTo 0, []⟩).2.written = [] ++ bytes
        ∧ Packet2.decode bytes = some [[72, 105], []] :=
  @writePackets_decode [[72, 105], []] ⟨[], fun _ => .upTo 0, []⟩ (fun _ => ⟨0, rfl⟩) (by decide)

/-- What a write put out is never taken back. -/
theorem write_extends (fd : Output) (buffer : List UInt8) (count : ℕ) :
    fd.written <+: (fd.write buffer count).2.written := by
  unfold Output.write
  split
  · exact List.prefix_rfl
  · exact List.prefix_append _ _

theorem ioWrite_extends (fd : Output) (buffer : List UInt8) (n : ℤ) :
    fd.written <+: (ioWrite fd buffer n).2.written := by
  refine DoWhile.loop_inv (fun s : WriteState => fd.written <+: s.fd.written)
    (fun r : ℤ × Output => fd.written <+: r.2.written) ?_ _ List.prefix_rfl
  intro s hs
  have hwrite := hs.trans (write_extends s.fd (buffer.drop s.wrote.toNat) (toSizeT (n - s.wrote)))
  unfold ioWriteBody
  simp only []
  split_ifs <;> exact hwrite

/-- Where no call fails, at least a byte of the header is put out. -/
theorem ioWritePacket2_header {fd : Output} (h : ShortOnly fd.sched) (buffer : List UInt8)
    (n : ℤ) : ∃ b, fd.written ++ [b] <+: (ioWritePacket2 fd buffer n).2.written := by
  obtain ⟨fd₁, h₁, -, hw₁⟩ := ioWrite_byte h (UInt8.ofInt (n >>> (8 : ℕ)))
  refine ⟨UInt8.ofInt (n >>> (8 : ℕ)), ?_⟩
  rw [ioWritePacket2_eq, h₁, ← hw₁]
  exact (ioWrite_extends fd₁ _ 1).trans (ioWrite_extends _ buffer n)

/-- The length is an `int`, whatever the payload's size. Either what is written decodes to the one
payload, or the call fails and nothing is written. -/
def WritesOrRefuses (fd : Output) (p : List UInt8) : Prop :=
  (∃ bytes, (ioWritePacket2 fd p (toInt p.length)).2.written = fd.written ++ bytes
      ∧ Packet2.decode bytes = some [p])
    ∨ (ioWritePacket2 fd p (toInt p.length)).1 < 0
      ∧ (ioWritePacket2 fd p (toInt p.length)).2.written = fd.written

/-- No payload is ever refused, and one that the header has no length for cannot be read back. -/
theorem length_le_of_writesOrRefuses {fd : Output} (h : ShortOnly fd.sched) {p : List UInt8}
    (hp : WritesOrRefuses fd p) : p.length ≤ 65535 := by
  rcases hp with ⟨bytes, -, hdecode⟩ | ⟨-, hnothing⟩
  · exact (Packet2.decode_some hdecode).2 p List.mem_cons_self
  · obtain ⟨b, hprefix⟩ := ioWritePacket2_header h p (toInt p.length)
    have hlen := hprefix.length_le
    rw [hnothing, List.length_append, List.length_singleton] at hlen
    omega

theorem writesOrRefuses_iff {fd : Output} (h : ShortOnly fd.sched) (p : List UInt8) :
    WritesOrRefuses fd p ↔ p.length ≤ 65535 := by
  constructor
  · exact length_le_of_writesOrRefuses h
  · intro hlen
    obtain ⟨fd', hrun, -, hwritten⟩ := ioWritePacket2_short h hlen
    have hint : toInt p.length = p.length := toInt_of_isInt ⟨by omega, by omega⟩
    refine Or.inl ⟨Packet2.frame p, ?_, ?_⟩
    · rw [hint, hrun, hwritten]
    · have hdecode := @Packet2.decode_frames [p] (by simpa using hlen)
      rwa [Packet2.frames_cons, Packet2.frames_nil, List.append_nil] at hdecode

theorem writesOrRefuses_two :
    WritesOrRefuses ⟨[], fun _ => .upTo 0, []⟩ [72, 105] ↔ [72, 105].length ≤ 65535 :=
  @writesOrRefuses_iff ⟨[], fun _ => .upTo 0, []⟩ (fun _ => ⟨0, rfl⟩) [72, 105]

/-- A payload of 65536 bytes goes out behind a header that says 0. -/
theorem not_writesOrRefuses_65536 : ¬ ∀ (fd : Output) (p : List UInt8), ShortOnly fd.sched →
    WritesOrRefuses fd p := by
  intro hall
  have hsched : ShortOnly fun _ => .upTo 0 := fun _ => ⟨0, rfl⟩
  have hlen := @length_le_of_writesOrRefuses ⟨[], fun _ => .upTo 0, []⟩ hsched
    (List.replicate 65536 0) (hall _ _ hsched)
  rw [List.length_replicate] at hlen
  omega

end Write

end Erlm
