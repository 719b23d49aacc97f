import Erlm.Proofs.Push

/-!
# Arrays with named properties

A keyword list is put key by key on an array. A key that is neither `length` nor `__proto__` gets a
property of its own, an element if it spells an array index, and leaves all others as they were
(`arrayPut_plain`); the other two never become one of the array's own keys.
-/

namespace Erlm

section Index

/-- An index has one spelling only. -/
theorem eq_decimal_of_arrayIndex? {key : Bytes} {i : ℕ} (h : arrayIndex? key = some i) :
    key = decimal i := by
  unfold arrayIndex? at h
  split_ifs at h with hkey
  obtain ⟨hne, hall, hhead⟩ := hkey
  simp only at h
  split_ifs at h
  simp only [Option.some.injEq] at h
  rw [List.all_eq_true] at hall
  have hdigit (b : UInt8) (hb : b ∈ key) : 48 ≤ b.toNat ∧ b.toNat ≤ 57 := by
    simpa [UInt8.le_iff_toNat_le] using hall b hb
  have hvalue : i = Nat.ofDigits 10 (key.map fun b => b.toNat - 48).reverse := by
    rw [← h, Nat.ofDigits_eq_foldr, ← List.map_reverse, List.foldr_map, ← List.foldl_reverse,
      List.reverse_reverse]
    simp [add_comm]
  by_cases hzero : key = [48]
  · subst hzero
    rw [hvalue]
    rfl
  · have hfirst : key.head? ≠ some 48 := hhead.resolve_right hzero
    have hdigits : Nat.digits 10 i = (key.map fun b => b.toNat - 48).reverse := by
      rw [hvalue]
      refine Nat.digits_ofDigits 10 (by norm_num) _ ?_ ?_
      · intro d hd
        rw [List.mem_reverse, List.mem_map] at hd
        obtain ⟨b, hb, rfl⟩ := hd
        have := hdigit b hb
        omega
      · intro hnil
        obtain ⟨b, rest, rfl⟩ := List.exists_cons_of_ne_nil hne
        rw [List.getLast_reverse, List.head_map, List.head_cons]
        have := hdigit b List.mem_cons_self
        have hb : b.toNat ≠ 48 := by
          intro h48
          exact hfirst (by rw [List.head?_cons, ← UInt8.ofNat_toNat (x := b), h48]; rfl)
        omega
    have hpos : i ≠ 0 := by
      rintro rfl
      rw [Nat.digits_zero] at hdigits
      exact hne (by simpa using hdigits.symm)
    rw [decimal, if_neg hpos, hdigits, List.reverse_reverse, List.map_map]
    refine (List.map_id key).symm.trans (List.map_congr_left fun b hb => ?_)
    have := hdigit b hb
    rw [Function.comp_apply, id, Nat.add_sub_cancel' this.1, UInt8.ofNat_toNat]

theorem arrayIndex?_lengthKey : arrayIndex? lengthKey = none := by decide

theorem arrayIndex?_protoKey : arrayIndex? protoKey = none := by decide

end Index

namespace JsVal

section Slots

theorem putAt_join (elems : List (Option JsVal)) (i j : ℕ) (v : JsVal) :
    ((putAt elems i v)[j]?).join = if j = i then some v else (elems[j]?).join := by
  unfold putAt
  split_ifs with hi hj hj
  · rw [hj, List.getElem?_set_self hi, Option.join_some]
  · rw [List.getElem?_set_ne (Ne.symm hj)]
  · subst hj
    rw [List.append_assoc, List.getElem?_append_right (by omega),
      List.getElem?_append_right (by simp), List.length_replicate, Nat.sub_self]
    rfl
  · rw [List.append_assoc, List.getElem?_append]
    split_ifs with hlen
    · rfl
    · rw [List.getElem?_append, List.length_replicate, List.getElem?_replicate,
        List.getElem?_eq_none (l := elems) (by omega)]
      split_ifs
      · rfl
      · rw [List.getElem?_singleton, if_neg (by omega)]

/-- The elements among slots that begin at some index. -/
def presentFrom (k : ℕ) (elems : List (Option JsVal)) : List (ℕ × JsVal) :=
  (elems.zipIdx k).filterMap fun p => p.1.map (p.2, ·)

theorem presentFrom_append (k : ℕ) (xs ys : List (Option JsVal)) :
    presentFrom k (xs ++ ys) = presentFrom k xs ++ presentFrom (k + xs.length) ys := by
  rw [presentFrom, List.zipIdx_append, List.filterMap_append]
  rfl

theorem presentFrom_replicate (k n : ℕ) : presentFrom k (List.replicate n none) = [] := by
  rw [presentFrom, List.filterMap_eq_nil_iff]
  intro p hp
  have := List.fst_mem_of_mem_zipIdx hp
  rw [List.eq_of_mem_replicate this]
  rfl

/-- A put at a free index adds one element. -/
theorem present_putAt {elems : List (Option JsVal)} {i : ℕ} (h : (elems[i]?).join = none)
    (v : JsVal) : List.Perm (present (putAt elems i v)) ((i, v) :: present elems) := by
  show List.Perm (presentFrom 0 _) ((i, v) :: presentFrom 0 _)
  unfold putAt
  split_ifs with hi
  · have hnone : elems[i] = none := by
      rw [List.getElem?_eq_getElem hi] at h
      exact h
    have hsplit : elems = elems.take i ++ none :: elems.drop (i + 1) := by
      rw [← hnone, ← List.drop_eq_getElem_cons hi, List.take_append_drop]
    have hset : elems.set i (some v) = elems.take i ++ some v :: elems.drop (i + 1) :=
      List.set_eq_take_append_cons_drop .. |>.trans (if_pos hi)
    have hlen : (elems.take i).length = i := List.length_take_of_le hi.le
    have hold : presentFrom 0 elems
        = presentFrom 0 (elems.take i) ++ presentFrom (i + 1) (elems.drop (i + 1)) := by
      conv_lhs => rw [hsplit]
      rw [presentFrom_append, Nat.zero_add, hlen]
      rfl
    rw [hset, presentFrom_append, Nat.zero_add, hlen, hold]
    exact List.perm_middle
  · rw [presentFrom_append, presentFrom_append, presentFrom_replicate, List.append_nil]
    have hlast : presentFrom (0 + (elems ++ List.replicate (i - elems.length) none).length)
        [some v] = [(i, v)] := by
      rw [List.length_append, List.length_replicate,
        show 0 + (elems.length + (i - elems.length)) = i by omega]
      rfl
    rw [hlast]
    exact List.perm_append_singleton _ _

theorem mem_present {elems : List (Option JsVal)} {i : ℕ} {v : JsVal} :
    (i, v) ∈ present elems ↔ (elems[i]?).join = some v := by
  rw [present, List.mem_filterMap]
  constructor
  · rintro ⟨⟨slot, j⟩, hmem, heq⟩
    obtain ⟨w, rfl, hw⟩ := Option.map_eq_some_iff.1 heq
    obtain ⟨rfl, rfl⟩ := Prod.mk.inj hw
    rw [List.mem_zipIdx_iff_getElem?] at hmem
    rw [hmem]
    rfl
  · intro h
    have hslot : elems[i]? = some (some v) := by
      rcases hget : elems[i]? with _ | slot
      · rw [hget] at h
        cases h
      · rw [hget] at h
        exact congrArg some h
    exact ⟨(some v, i), List.mem_zipIdx_iff_getElem?.2 hslot, rfl⟩

theorem resize_join {elems : List (Option JsVal)} {n j : ℕ} {v : JsVal}
    (h : ((resize elems n)[j]?).join = some v) : (elems[j]?).join = some v := by
  rw [resize, List.getElem?_append] at h
  split_ifs at h with hj
  · rw [List.length_take] at hj
    rwa [List.getElem?_take_of_lt (by omega)] at h
  · rw [List.getElem?_replicate] at h
    split_ifs at h <;> cases h

end Slots

section Own

variable {len : JsVal → Option ℕ} {store : Store} {elems : List (Option JsVal)} {named : Props}
  {proto : Option JsVal} {key k : Bytes} {v w : JsVal}

/-- The keys of a value's own enumerable properties. -/
def ownKeys (store : Store) (v : JsVal) : List Bytes := (v.ownProps store).map Prod.fst

theorem ownKeys_array : (array elems named proto).ownKeys store
    = (present elems).map (fun p => decimal p.1) ++ named.map Prod.fst := by
  rw [ownKeys, ownProps, List.map_append, List.map_map]
  rfl

/-- An own property is enumerated, all but the length. -/
theorem mem_ownKeys_of_own (h : v.own store key = some w) (hkey : key ≠ lengthKey) :
    key ∈ v.ownKeys store := by
  cases v with
  | array elems named proto =>
    rw [ownKeys_array, List.mem_append]
    unfold own at h
    rcases hidx : arrayIndex? key with _ | i
    · simp only [hidx, if_neg hkey] at h
      exact Or.inr (List.mem_map_of_mem (Assoc.get?_mem h))
    · simp only [hidx] at h
      rw [eq_decimal_of_arrayIndex? hidx]
      exact Or.inl (List.mem_map.2 ⟨_, mem_present.2 h, rfl⟩)
  | object | function | ref => exact List.mem_map_of_mem (Assoc.get?_mem h)
  | _ => cases h

/-- A put under a key that has no meaning of its own to an array. -/
theorem arrayPut_plain (hlen : key ≠ lengthKey) (hproto : key ≠ protoKey) :
    ∃ elems' named', arrayPut len elems named proto key v = some (array elems' named' proto)
      ∧ (array elems' named' proto).own store key = some v
      ∧ (∀ k, k ≠ key → k ≠ lengthKey →
        (array elems' named' proto).own store k = (array elems named proto).own store k)
      ∧ ((array elems named proto).own store key = none →
        List.Perm ((array elems' named' proto).ownKeys store)
          (key :: (array elems named proto).ownKeys store)) := by
  unfold arrayPut
  rcases hidx : arrayIndex? key with _ | i
  · refine ⟨elems, Assoc.put named key v, ?_, ?_, fun k hk hklen => ?_, fun hnone => ?_⟩
    · simp only [if_neg hlen, hproto, false_and, if_false]
    · simp only [own, hidx, if_neg hlen, Assoc.get?_put_self]
    · unfold own
      rcases arrayIndex? k with _ | j
      · simp only [if_neg hklen, Assoc.get?_put_of_ne named hk]
      · rfl
    · simp only [own, hidx, if_neg hlen] at hnone
      rw [ownKeys_array, ownKeys_array, Assoc.put_of_get?_none v hnone, List.map_append,
        ← List.append_assoc]
      exact List.perm_append_singleton _ _
  · refine ⟨putAt elems i v, named, rfl, ?_, fun k hk hklen => ?_, fun hnone => ?_⟩
    · simp only [own, hidx, putAt_join, if_true]
    · unfold own
      rcases hj : arrayIndex? k with _ | j
      · simp only [if_neg hklen]
      · have hne : j ≠ i := by
          rintro rfl
          exact hk ((eq_decimal_of_arrayIndex? hj).trans (eq_decimal_of_arrayIndex? hidx).symm)
        simp only [putAt_join, if_neg hne]
    · simp only [own, hidx] at hnone
      have hperm := (present_putAt hnone v).map fun p => decimal p.1
      rw [ownKeys_array, ownKeys_array, eq_decimal_of_arrayIndex? hidx]
      exact hperm.append_right _

/-- No put makes an own key other than its own, and none makes `length` one. -/
theorem mem_ownKeys_arrayPut (h : arrayPut len elems named proto key v = some w)
    (hk : k ∈ w.ownKeys store) :
    k ∈ (array elems named proto).ownKeys store ∨ k = key ∧ key ≠ lengthKey := by
  unfold arrayPut at h
  rw [ownKeys_array, List.mem_append]
  rcases hidx : arrayIndex? key with _ | i
  · simp only [hidx] at h
    split_ifs at h with hlen hproto
    · obtain ⟨n, -, rfl⟩ := Option.map_eq_some_iff.1 h
      rw [ownKeys_array, List.mem_append, List.mem_map] at hk
      left
      refine hk.imp_left ?_
      rintro ⟨⟨j, x⟩, hmem, rfl⟩
      exact List.mem_map.2 ⟨(j, x), mem_present.2 (resize_join (mem_present.1 hmem)), rfl⟩
    · cases h
      rw [ownKeys_array, List.mem_append] at hk
      exact Or.inl hk
    · cases h
      rw [ownKeys_array, List.mem_append] at hk
      exact Or.inl hk
    · cases h
      rw [ownKeys_array, List.mem_append] at hk
      rcases hk with hk | hk
      · exact Or.inl (Or.inl hk)
      · obtain ⟨p, hp, rfl⟩ := List.mem_map.1 hk
        rcases Assoc.mem_put hp with rfl | hp
        · exact Or.inr ⟨rfl, hlen⟩
        · exact Or.inl (Or.inr (List.mem_map_of_mem hp))
  · simp only [hidx] at h
    cases h
    rw [ownKeys_array, List.mem_append, List.mem_map] at hk
    rcases hk with ⟨⟨j, x⟩, hmem, rfl⟩ | hk
    · rw [mem_present, putAt_join] at hmem
      split_ifs at hmem with hj
      · right
        refine ⟨by rw [eq_decimal_of_arrayIndex? hidx, hj], ?_⟩
        rintro rfl
        rw [arrayIndex?_lengthKey] at hidx
        cases hidx
      · exact Or.inl (Or.inl (List.mem_map.2 ⟨(j, x), mem_present.2 hmem, rfl⟩))
    · exact Or.inl (Or.inr hk)

/-- While an array still has the prototype it was made with, a put on `__proto__` only meets the
accessor. -/
theorem arrayPut_protoKey (len : JsVal → Option ℕ) (v : JsVal)
    (hkey : protoKey ∉ (array elems named none).ownKeys store) :
    ∃ proto', arrayPut len elems named none protoKey v = some (array elems named proto') := by
  have hnone : Assoc.get? named protoKey = none := by
    rcases hget : Assoc.get? named protoKey with _ | x
    · rfl
    · rw [ownKeys_array, List.mem_append, not_or] at hkey
      exact absurd (List.mem_map_of_mem (Assoc.get?_mem hget)) hkey.2
  have hne : protoKey ≠ lengthKey := by decide
  unfold arrayPut
  simp only [arrayIndex?_protoKey, if_neg hne, hnone, Option.isNone_none, hasProtoAccessor,
    and_self, if_true]
  exact ⟨_, rfl⟩

/-- Only an invalid length keeps a put from succeeding. -/
theorem arrayPut_isSome (h : key ≠ lengthKey) :
    ∃ elems' named' proto', arrayPut len elems named proto key v
      = some (array elems' named' proto') := by
  unfold arrayPut
  split
  · exact ⟨_, _, _, rfl⟩
  · rw [if_neg h]
    split
    · exact ⟨_, _, _, rfl⟩
    · exact ⟨_, _, _, rfl⟩

end Own

end JsVal

end Erlm
