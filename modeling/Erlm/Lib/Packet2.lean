import Mathlib

/-!
# The `{packet, 2}` wire format

A packet is its length as two bytes, the high one first, and then that many bytes. A stream of
packets decodes to exactly the payloads it was made of (`decode_frames`), and a stream that
decodes is the frames of what it decodes to, each of at most 65535 bytes (`decode_some`).
-/

namespace Packet2

/-- The two length bytes. -/
def header (n : ℕ) : List UInt8 := [UInt8.ofNat (n / 256), UInt8.ofNat n]

def frame (p : List UInt8) : List UInt8 := header p.length ++ p

def frames (ps : List (List UInt8)) : List UInt8 := ps.flatMap frame

/-- The first payload of a stream and what follows it. -/
def unframe : List UInt8 → Option (List UInt8 × List UInt8)
  | hi :: lo :: rest =>
    if hi.toNat * 256 + lo.toNat ≤ rest.length then
      some (rest.take (hi.toNat * 256 + lo.toNat), rest.drop (hi.toNat * 256 + lo.toNat))
    else none
  | _ => none

/-- At most `n` payloads that make up the whole stream. -/
def decodeUpTo : ℕ → List UInt8 → Option (List (List UInt8))
  | _, [] => some []
  | 0, _ :: _ => none
  | n + 1, b :: bs => do
    let (p, rest) ← unframe (b :: bs)
    let ps ← decodeUpTo n rest
    return p :: ps

/-- The payloads of a stream, none if it breaks off in the middle of a packet. -/
def decode (bs : List UInt8) : Option (List (List UInt8)) := decodeUpTo bs.length bs

@[simp] theorem frames_nil : frames [] = [] := rfl

@[simp] theorem frames_cons (p : List UInt8) (ps : List (List UInt8)) :
    frames (p :: ps) = frame p ++ frames ps := rfl

@[simp] theorem length_header (n : ℕ) : (header n).length = 2 := rfl

theorem header_toNat {n : ℕ} (h : n ≤ 65535) :
    (UInt8.ofNat (n / 256)).toNat * 256 + (UInt8.ofNat n).toNat = n := by
  simp only [UInt8.toNat_ofNat']
  omega

theorem unframe_frame {p : List UInt8} (h : p.length ≤ 65535) (rest : List UInt8) :
    unframe (frame p ++ rest) = some (p, rest) := by
  have hn := header_toNat h
  simp only [frame, header, List.cons_append, List.nil_append, unframe, hn, List.length_append]
  rw [if_pos (by omega), List.take_left, List.drop_left]

theorem unframe_some {bs p rest : List UInt8} (h : unframe bs = some (p, rest)) :
    bs = frame p ++ rest ∧ p.length ≤ 65535 := by
  match bs, h with
  | hi :: lo :: tail, h =>
    simp only [unframe] at h
    split_ifs at h with hlen
    simp only [Option.some.injEq, Prod.mk.injEq] at h
    obtain ⟨rfl, rfl⟩ := h
    have hhi := hi.toNat_lt
    have hlo := lo.toNat_lt
    have hp : (tail.take (hi.toNat * 256 + lo.toNat)).length = hi.toNat * 256 + lo.toNat := by
      simp [hlen]
    have hdiv : (hi.toNat * 256 + lo.toNat) / 256 = hi.toNat := by omega
    refine ⟨?_, by omega⟩
    simp only [frame, hp, header, hdiv, List.cons_append, List.nil_append,
      List.take_append_drop, UInt8.ofNat_toNat, List.cons.injEq, and_true, true_and]
    apply UInt8.toNat.inj
    simp only [UInt8.toNat_ofNat']
    omega

theorem frame_ne_nil (p : List UInt8) : frame p ≠ [] := by
  simp [frame, header]

theorem decodeUpTo_frames : ∀ (ps : List (List UInt8)) (n : ℕ), ps.length ≤ n →
    (∀ p ∈ ps, p.length ≤ 65535) → decodeUpTo n (frames ps) = some ps
  | [], n, _, _ => by cases n <;> rfl
  | p :: ps, 0, hn, _ => absurd hn (Nat.not_succ_le_zero _)
  | p :: ps, n + 1, hn, hps => by
    obtain ⟨b, bs, hb⟩ := List.exists_cons_of_ne_nil
      (List.append_ne_nil_of_left_ne_nil (frame_ne_nil p) (frames ps))
    have hu := unframe_frame (hps p List.mem_cons_self) (frames ps)
    have ih := decodeUpTo_frames ps n (Nat.le_of_succ_le_succ hn)
      fun q hq => hps q (List.mem_cons_of_mem _ hq)
    rw [hb] at hu
    rw [frames_cons, hb, decodeUpTo, hu]
    simp [ih]

theorem length_le_frames (ps : List (List UInt8)) : ps.length ≤ (frames ps).length := by
  induction ps with
  | nil => simp
  | cons p ps ih =>
    simp only [frames_cons, frame, List.length_cons, List.length_append, length_header]
    omega

/-- A stream made of packets decodes to their payloads, with nothing left over. -/
theorem decode_frames {ps : List (List UInt8)} (h : ∀ p ∈ ps, p.length ≤ 65535) :
    decode (frames ps) = some ps :=
  decodeUpTo_frames ps _ (length_le_frames ps) h

theorem decodeUpTo_some : ∀ (n : ℕ) {bs : List UInt8} {ps : List (List UInt8)},
    decodeUpTo n bs = some ps → bs = frames ps ∧ ∀ p ∈ ps, p.length ≤ 65535
  | n, [], ps, h => by
    have : ps = [] := by cases n <;> simpa [decodeUpTo, eq_comm] using h
    simp [this]
  | 0, _ :: _, ps, h => by simp [decodeUpTo] at h
  | n + 1, b :: bs, ps, h => by
    simp only [decodeUpTo, Option.pure_def, Option.bind_eq_bind, Option.bind_eq_some_iff,
      Option.some.injEq, Prod.exists] at h
    obtain ⟨p, rest, hu, qs, hq, rfl⟩ := h
    obtain ⟨hbs, hp⟩ := unframe_some hu
    obtain ⟨hrest, hqs⟩ := decodeUpTo_some n hq
    refine ⟨by rw [hbs, hrest, frames_cons], ?_⟩
    intro q hq
    rcases List.mem_cons.1 hq with rfl | hq
    · exact hp
    · exact hqs q hq

/-- A stream that decodes is made of the packets it decodes to, and none is longer than the two
length bytes can say. -/
theorem decode_some {bs : List UInt8} {ps : List (List UInt8)} (h : decode bs = some ps) :
    bs = frames ps ∧ ∀ p ∈ ps, p.length ≤ 65535 :=
  decodeUpTo_some _ h

end Packet2
