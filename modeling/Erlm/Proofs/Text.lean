import Erlm.Proofs.RoundTrip

/-!
# Text in its Erlang spellings

A byte sequence may arrive as a binary, as a list of its bytes or as an iolist nested in any way.
All of them are pushed as the same string exactly when no byte is zero (`textArrives_iff`): a
binary is pushed with its length, a list as a C string, and the list is lost to null.
-/

namespace Erlm

open ETerm (ofList)

/-- The term is a binary or an iolist with these bytes. -/
inductive Spells : ETerm → Bytes → Prop
  | binary (s : Bytes) : Spells (.binary s) s
  | nil : Spells .nil []
  | byte (b : UInt8) {tl : ETerm} {s : Bytes} (htl : Spells tl s) :
      Spells (.cons (.integer (BitVec.ofNat 32 b.toNat)) tl) (b :: s)
  | nested {hd tl : ETerm} {s s' : Bytes} (hhd : Spells hd s) (htl : Spells tl s') :
      Spells (.cons hd tl) (s ++ s')

/-- Whatever the spelling and whatever is on the stack, the string of these bytes is pushed. -/
def TextArrives (s : Bytes) : Prop :=
  ∀ (ω : Type) (c : Ctx ω) (st : List JsVal) (t : ETerm), Spells t s → st.length < c.reserve →
    dukErlangPushTerm t (c.withStack st) = .ok () (c.withStack (.string s :: st))

section Spellings

variable {t hd tl : ETerm} {s : Bytes}

theorem Spells.isInteger (h : Spells t s) : t.isInteger = false := by
  cases h <;> rfl

theorem iodata_cons {a b : Bytes} (hint : tl.isInteger = false) (hhd : iodata hd = some a)
    (htl : iodata tl = some b) : iodata (.cons hd tl) = some (a ++ b) := by
  rw [iodata, hint, hhd, htl]
  rfl

theorem Spells.iodata_eq (h : Spells t s) : iodata t = some s := by
  induction h with
  | binary s => rfl
  | nil => rfl
  | byte b htl ih => exact iodata_cons htl.isInteger (iodata_byte b) ih
  | nested hhd htl ihhd ihtl => exact iodata_cons htl.isInteger ihhd ihtl

/-- The list of its bytes spells a sequence. -/
theorem spells_byteList (s : Bytes) : Spells (byteList s) s := by
  induction s with
  | nil => exact Spells.nil
  | cons b s ih => exact Spells.byte b ih

variable {len : JsVal → Option ℕ}

/-- Anything but a binary goes through a C string. -/
theorem Spells.convert_list (h : Spells t s) (hlist : t.isList = true) :
    convert len t = some (if 0 ∈ s then .null else .string s) := by
  have htext := textOf_eq h.iodata_eq
  cases t with
  | nil => rw [← htext]; rfl
  | cons hd tl =>
    have hlength : erlIolistLength (.cons hd tl) ≥ 0 := by
      rw [erlIolistLength_nonneg hlist, h.iodata_eq]
      rfl
    rw [convert_text hlength, htext]
  | _ => simp [ETerm.isList] at hlist

theorem Spells.convert_eq (h : Spells t s) (hs : 0 ∉ s) : convert len t = some (.string s) := by
  by_cases hlist : t.isList = true
  · rw [h.convert_list hlist, if_neg hs]
  · rcases h with _ | _ | _ | _
    · rfl
    all_goals exact absurd rfl hlist

end Spellings

section Arrives

variable {s : Bytes}

theorem Spells.slots_eq {t : ETerm} (h : Spells t s) : slots t = 1 := by
  by_cases hlist : t.isList = true
  · cases t with
    | nil => rfl
    | cons hd tl => exact slots_text ((erlIolistLength_nonneg hlist).2 (by rw [h.iodata_eq]; rfl))
    | _ => simp [ETerm.isList] at hlist
  · rcases h with _ | _ | _ | _
    · rfl
    all_goals exact absurd rfl hlist

theorem textArrives_of_notMem (hs : 0 ∉ s) : TextArrives s := by
  intro ω c st t ht hroom
  exact dukErlangPushTerm_ok (ht.convert_eq hs) (by rw [ht.slots_eq]; exact hroom)

/-- The list of its bytes is pushed as null if one of them is zero. -/
theorem not_textArrives (hs : 0 ∈ s) : ¬ TextArrives s := by
  intro h
  have ht := spells_byteList s
  have hpushed := h Unit (Ctx.bare 1 ()) [] _ ht (Nat.zero_lt_one)
  have hnull : dukErlangPushTerm (byteList s) ((Ctx.bare 1 ()).withStack [])
      = .ok () ((Ctx.bare 1 ()).withStack [.null]) :=
    dukErlangPushTerm_ok (by rw [ht.convert_list (ETerm.isList_ofList _), if_pos hs])
      (by rw [ht.slots_eq]; exact le_rfl)
  rw [hnull] at hpushed
  simp [Ctx.withStack] at hpushed

/-- Text arrives in every spelling exactly when it has no zero byte. -/
theorem textArrives_iff : TextArrives s ↔ 0 ∉ s :=
  ⟨fun h hs => not_textArrives hs h, textArrives_of_notMem⟩

/-- The list `[0]` and the binary `<<0>>` spell the same text. -/
theorem not_textArrives_zero : ¬ TextArrives [0] := not_textArrives List.mem_cons_self

end Arrives

end Erlm
