import Mathlib

/-!
# A heap that counts releases

Every allocation gets an address no other allocation ever had, and a cell keeps how often it was
released. Reading a released cell gives nothing, so a use after a release cannot go unnoticed, and
a second release shows as a count of two.
-/

/-- A memory cell: what it holds and how often it was released. -/
structure Cell (α : Type*) where
  value : α
  releases : ℕ
  deriving Repr, DecidableEq

/-- The cells ever allocated, in the order of their addresses. -/
structure Heap (α : Type*) where
  cells : List (Cell α)
  deriving Repr, DecidableEq

namespace Heap

variable {α : Type*}

def empty : Heap α := ⟨[]⟩

/-- The address the next allocation gets. -/
def next (h : Heap α) : ℕ := h.cells.length

def alloc (h : Heap α) (a : α) : Heap α := ⟨h.cells ++ [⟨a, 0⟩]⟩

/-- What a cell holds, as long as it has not been released. -/
def get? (h : Heap α) (p : ℕ) : Option α :=
  h.cells[p]?.bind fun c => if c.releases = 0 then some c.value else none

def releases (h : Heap α) (p : ℕ) : ℕ := (h.cells[p]?.map Cell.releases).getD 0

def release (h : Heap α) (p : ℕ) : Heap α :=
  ⟨h.cells.modify p fun c => { c with releases := c.releases + 1 }⟩

def update (h : Heap α) (p : ℕ) (f : α → α) : Heap α :=
  ⟨h.cells.modify p fun c => { c with value := f c.value }⟩

@[simp] theorem next_alloc (h : Heap α) (a : α) : (h.alloc a).next = h.next + 1 :=
  List.length_append

@[simp] theorem next_release (h : Heap α) (p : ℕ) : (h.release p).next = h.next :=
  List.length_modify ..

@[simp] theorem next_update (h : Heap α) (p : ℕ) (f : α → α) : (h.update p f).next = h.next :=
  List.length_modify ..

theorem get?_lt {h : Heap α} {p : ℕ} {a : α} (hp : h.get? p = some a) : p < h.next := by
  simp only [get?, Option.bind_eq_some_iff] at hp
  obtain ⟨c, hc, -⟩ := hp
  exact (List.getElem?_eq_some_iff.1 hc).1

@[simp] theorem get?_alloc_next (h : Heap α) (a : α) : (h.alloc a).get? h.next = some a := by
  simp [get?, alloc, next]

theorem get?_alloc_of_ne {h : Heap α} {p : ℕ} (hp : p ≠ h.next) (a : α) :
    (h.alloc a).get? p = h.get? p := by
  simp only [get?, alloc]
  rcases Nat.lt_or_gt_of_ne hp with hlt | hgt
  · rw [List.getElem?_append_left hlt]
  · have hlen : h.cells.length < p := hgt
    rw [List.getElem?_eq_none (by simp; omega), List.getElem?_eq_none (by omega)]

theorem get?_alloc {h : Heap α} {p : ℕ} {b : α} (hp : h.get? p = some b) (a : α) :
    (h.alloc a).get? p = some b := by
  rw [get?_alloc_of_ne (Nat.ne_of_lt (get?_lt hp)), hp]

@[simp] theorem releases_alloc (h : Heap α) (a : α) (p : ℕ) :
    (h.alloc a).releases p = h.releases p := by
  simp only [releases, alloc]
  rcases Nat.lt_trichotomy p h.cells.length with hp | rfl | hp
  · rw [List.getElem?_append_left hp]
  · simp
  · rw [List.getElem?_eq_none (by simp; omega), List.getElem?_eq_none hp.le]

@[simp] theorem get?_release_self (h : Heap α) (p : ℕ) : (h.release p).get? p = none := by
  simp only [get?, release, List.getElem?_modify_eq]
  cases h.cells[p]? <;> simp

theorem get?_release_of_ne (h : Heap α) {p q : ℕ} (hpq : p ≠ q) :
    (h.release p).get? q = h.get? q := by
  simp [get?, release, hpq]

theorem get?_update_self (h : Heap α) (p : ℕ) (f : α → α) :
    (h.update p f).get? p = (h.get? p).map f := by
  simp only [get?, update, List.getElem?_modify_eq]
  rcases h.cells[p]? with _ | c
  · rfl
  · by_cases hc : c.releases = 0
    · simp [hc]
    · simp [hc]

theorem get?_update_of_ne (h : Heap α) {p q : ℕ} (hpq : p ≠ q) (f : α → α) :
    (h.update p f).get? q = h.get? q := by
  simp [get?, update, hpq]

theorem releases_release_self {h : Heap α} {p : ℕ} (hp : p < h.next) :
    (h.release p).releases p = h.releases p + 1 := by
  simp [releases, release, List.getElem?_eq_getElem (l := h.cells) hp]

@[simp] theorem releases_update (h : Heap α) (p q : ℕ) (f : α → α) :
    (h.update p f).releases q = h.releases q := by
  rcases Decidable.em (p = q) with rfl | hpq
  · simp only [releases, update, List.getElem?_modify_eq]
    cases h.cells[p]? <;> rfl
  · simp [releases, update, hpq]

@[simp] theorem releases_next (h : Heap α) : h.releases h.next = 0 := by
  simp [releases, next]

theorem releases_release_of_ne (h : Heap α) {p q : ℕ} (hpq : p ≠ q) :
    (h.release p).releases q = h.releases q := by
  simp [releases, release, hpq]

section Values

/-- What was ever allocated, in order. -/
def values (h : Heap α) : List α := h.cells.map Cell.value

/-- What of it was released. -/
def released (h : Heap α) : List α := (h.cells.filter fun c => c.releases ≠ 0).map Cell.value

@[simp] theorem values_alloc (h : Heap α) (a : α) : (h.alloc a).values = h.values ++ [a] := by
  simp [values, alloc]

@[simp] theorem values_release (h : Heap α) (p : ℕ) : (h.release p).values = h.values := by
  refine List.ext_getElem? fun i => ?_
  simp only [values, release, List.getElem?_map, List.getElem?_modify]
  split_ifs <;> cases h.cells[i]? <;> rfl

theorem releases_get (h : Heap α) (i : Fin h.cells.length) :
    h.releases i = (h.cells.get i).releases := by
  rw [releases, List.getElem?_eq_getElem i.isLt]
  rfl

/-- What was released, given the addresses in order. -/
theorem released_eq {h : Heap α} {ps : List ℕ} (hsorted : ps.Pairwise (· < ·))
    (hps : ∀ p, p ∈ ps ↔ h.releases p ≠ 0) : h.released = ps.filterMap (h.values[·]?) := by
  have hrange : ps = ((List.finRange h.cells.length).filter fun i =>
      (h.cells.get i).releases ≠ 0).map Fin.val := by
    refine List.Perm.eq_of_pairwise (fun a b _ _ hab hba => absurd hab hba.not_gt) hsorted
      (((List.pairwise_lt_finRange _).filter _).map _ fun _ _ => id)
      ((List.perm_ext_iff_of_nodup hsorted.nodup
        (((List.nodup_finRange _).filter _).map Fin.val_injective)).2 fun p => ?_)
    rw [hps, List.mem_map]
    constructor
    · intro hne
      have hlt : p < h.cells.length := by
        by_contra hlt
        rw [releases, List.getElem?_eq_none (not_lt.1 hlt)] at hne
        exact hne rfl
      refine ⟨⟨p, hlt⟩, List.mem_filter.2 ⟨List.mem_finRange _, ?_⟩, rfl⟩
      rw [decide_eq_true_eq, ← releases_get]
      exact hne
    · rintro ⟨i, hi, rfl⟩
      rw [releases_get]
      exact of_decide_eq_true (List.mem_filter.1 hi).2
  have hcells : h.cells = (List.finRange h.cells.length).map h.cells.get := by
    rw [List.map_get_finRange]
  rw [hrange, List.filterMap_map, released]
  nth_rewrite 1 [hcells]
  rw [List.filter_map, List.map_map, ← List.filterMap_eq_map]
  refine List.filterMap_congr fun i _ => ?_
  simp [values]

end Values

end Heap
