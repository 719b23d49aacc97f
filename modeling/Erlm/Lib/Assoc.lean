import Mathlib

/-!
# Association lists in insertion order

A map kept as the list of its entries. Putting an existing key changes its value in place, a new
key goes to the end, and what was put under a key is what `get?` finds there until it is put again
or erased.
-/

namespace Assoc

variable {α β : Type*} [DecidableEq α]

@[grind] def get? : List (α × β) → α → Option β
  | [], _ => none
  | (k, v) :: ps, key => if k = key then some v else get? ps key

@[grind] def put : List (α × β) → α → β → List (α × β)
  | [], key, w => [(key, w)]
  | (k, v) :: ps, key, w => if k = key then (k, w) :: ps else (k, v) :: put ps key w

@[grind] def erase (ps : List (α × β)) (key : α) : List (α × β) := ps.filter fun p => p.1 ≠ key

@[simp] theorem get?_put_self (ps : List (α × β)) (key : α) (w : β) :
    get? (put ps key w) key = some w := by
  induction ps with
  | nil => simp [put, get?]
  | cons p ps ih =>
    simp only [put]
    split_ifs with h
    · simp [get?, h]
    · simp [get?, h, ih]

theorem get?_put_of_ne (ps : List (α × β)) {key k : α} (h : k ≠ key) (w : β) :
    get? (put ps key w) k = get? ps k := by
  induction ps with
  | nil => simp [put, get?, h.symm]
  | cons p ps ih =>
    simp only [put]
    split_ifs with hp
    · simp only [get?, hp, if_neg h.symm]
    · simp only [get?, ih]

@[simp] theorem get?_erase_self (ps : List (α × β)) (key : α) : get? (erase ps key) key = none := by
  induction ps with
  | nil => rfl
  | cons p ps ih =>
    by_cases hp : p.1 = key
    · rw [erase, List.filter_cons_of_neg (by simpa using hp)]
      exact ih
    · rw [erase, List.filter_cons_of_pos (by simpa using hp), get?, if_neg hp]
      exact ih

theorem get?_erase_of_ne (ps : List (α × β)) {key k : α} (h : k ≠ key) :
    get? (erase ps key) k = get? ps k := by
  induction ps with
  | nil => rfl
  | cons p ps ih =>
    by_cases hp : p.1 = key
    · rw [erase, List.filter_cons_of_neg (by simpa using hp), get?, if_neg (hp ▸ h.symm)]
      exact ih
    · rw [erase, List.filter_cons_of_pos (by simpa using hp)]
      simp only [get?]
      rw [← ih, erase]

/-- A new key goes to the end. -/
theorem put_of_get?_none : ∀ {ps : List (α × β)} {key : α} (w : β), get? ps key = none →
    put ps key w = ps ++ [(key, w)]
  | [], _, _, _ => rfl
  | (k, v) :: ps, key, w, h => by
    rw [get?] at h
    split_ifs at h with hk
    rw [put, if_neg hk, put_of_get?_none w h, List.cons_append]

/-- Erasing a key that is not there changes nothing. -/
theorem erase_of_get?_none : ∀ {ps : List (α × β)} {key : α}, get? ps key = none →
    erase ps key = ps
  | [], _, _ => rfl
  | p :: ps, key, h => by
    simp only [get?] at h
    split_ifs at h with hp
    have ih : erase ps key = ps := erase_of_get?_none h
    rw [erase, List.filter_cons_of_pos (by simpa using hp)]
    exact congrArg (p :: ·) ih

/-- Looking a key up finds the first of its entries. -/
theorem get?_eq_head? (ps : List (α × β)) (key : α) :
    get? ps key = (ps.filter fun p => p.1 = key).head?.map Prod.snd := by
  induction ps with
  | nil => rfl
  | cons p ps ih =>
    rw [get?]
    split_ifs with hk
    · rw [List.filter_cons_of_pos (by simpa using hk)]
      rfl
    · rw [List.filter_cons_of_neg (by simpa using hk), ih]

theorem get?_append (ps qs : List (α × β)) (key : α) :
    get? (ps ++ qs) key = (get? ps key).or (get? qs key) := by
  induction ps with
  | nil => rfl
  | cons p ps ih =>
    simp only [List.cons_append, get?, ih]
    split_ifs <;> rfl

theorem get?_mem : ∀ {ps : List (α × β)} {key : α} {v : β}, get? ps key = some v → (key, v) ∈ ps
  | (k, w) :: ps, key, v, h => by
    simp only [get?] at h
    split_ifs at h with hk
    · simp only [Option.some.injEq] at h
      simp [hk, h]
    · exact List.mem_cons_of_mem _ (get?_mem h)

theorem exists_get? : ∀ {ps : List (α × β)} {key : α}, key ∈ ps.map Prod.fst →
    ∃ v, get? ps key = some v
  | (k, w) :: ps, key, h => by
    rw [get?]
    split_ifs with hk
    · exact ⟨w, rfl⟩
    · rw [List.map_cons, List.mem_cons] at h
      exact exists_get? (h.resolve_left (Ne.symm hk))

/-- With distinct keys every entry is found. -/
theorem get?_of_mem : ∀ {ps : List (α × β)} {key : α} {v : β}, (ps.map Prod.fst).Nodup →
    (key, v) ∈ ps → get? ps key = some v
  | (k, w) :: ps, key, v, hdistinct, h => by
    obtain ⟨hnotin, hdistinct⟩ := List.nodup_cons.1 hdistinct
    rw [get?]
    rcases List.mem_cons.1 h with heq | h
    · cases heq
      exact if_pos rfl
    · have hk : k ≠ key := by
        rintro rfl
        exact hnotin (List.mem_map.2 ⟨_, h, rfl⟩)
      rw [if_neg hk, get?_of_mem hdistinct h]

omit [DecidableEq α] in
/-- An entry under a new key goes to the end. -/
theorem nodup_keys_concat {ps : List (α × β)} {key : α} (v : β) (h : (ps.map Prod.fst).Nodup)
    (hnew : ∀ p ∈ ps, p.1 ≠ key) : ((ps ++ [(key, v)]).map Prod.fst).Nodup := by
  have hnotin : key ∉ ps.map Prod.fst := by
    intro hkey
    obtain ⟨p, hp, heq⟩ := List.mem_map.1 hkey
    exact hnew p hp heq
  rw [List.map_append, List.map_singleton, ← List.concat_eq_append]
  exact h.concat hnotin

/-- Every value after a put is the one put or was there before. -/
theorem mem_put {ps : List (α × β)} {key : α} {w : β} {p : α × β} (h : p ∈ put ps key w) :
    p = (key, w) ∨ p ∈ ps := by
  induction ps with
  | nil => simpa [put] using h
  | cons q ps ih =>
    simp only [put] at h
    split_ifs at h with hq
    · rcases List.mem_cons.1 h with rfl | h
      · exact Or.inl (by rw [hq])
      · exact Or.inr (List.mem_cons_of_mem _ h)
    · rcases List.mem_cons.1 h with rfl | h
      · exact Or.inr List.mem_cons_self
      · exact (ih h).imp_right (List.mem_cons_of_mem _)

end Assoc
