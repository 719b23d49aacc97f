import Mathlib

/-!
# Messages that are taken once

What was posted to a mailbox is pending or was taken, never both and never twice (`Accounts`). So it
stays when something new is posted (`Accounts.post`) and when some of what is pending is taken
(`Accounts.take`, and `Accounts.deliver` for messages in slots).
-/

namespace Mailbox

open scoped List

variable {α : Type*} {posted pending pending' taken out : List α}

/-- Every message that was posted is pending or was taken, once. -/
structure Accounts (posted pending taken : List α) : Prop where
  distinct : posted.Nodup
  perm : pending ++ taken ~ posted

theorem accounts_nil : Accounts ([] : List α) [] [] := ⟨List.nodup_nil, .nil⟩

theorem Accounts.post (h : Accounts posted pending taken) {a : α} (ha : a ∉ posted) :
    Accounts (posted ++ [a]) (pending ++ [a]) taken := by
  refine ⟨h.distinct.append (List.nodup_singleton a) ?_, ?_⟩
  · rw [List.disjoint_singleton]
    exact ha
  · calc pending ++ [a] ++ taken
        _ = pending ++ ([a] ++ taken) := List.append_assoc ..
        _ ~ pending ++ (taken ++ [a]) := List.perm_append_comm.append_left _
        _ = pending ++ taken ++ [a] := (List.append_assoc ..).symm
        _ ~ posted ++ [a] := h.perm.append_right _

theorem Accounts.take (h : Accounts posted pending taken) (hout : pending ~ pending' ++ out) :
    Accounts posted pending' (taken ++ out) := by
  refine ⟨h.distinct, ?_⟩
  calc pending' ++ (taken ++ out)
      _ ~ pending' ++ (out ++ taken) := List.perm_append_comm.append_left _
      _ = pending' ++ out ++ taken := (List.append_assoc ..).symm
      _ ~ pending ++ taken := hout.symm.append_right _
      _ ~ posted := h.perm

/-- Pending messages in slots, some of which are emptied. -/
theorem Accounts.deliver {β : Type*} [BEq β] [LawfulBEq β] {f : β → α} {slots emptied : List β}
    (h : Accounts posted (slots.map f) taken) (hemptied : emptied.Sublist slots) :
    Accounts posted ((slots.filter fun b => b ∉ emptied).map f) (taken ++ emptied.map f) := by
  have hdistinct : slots.Nodup :=
    (h.perm.nodup_iff.2 h.distinct).of_append_left.of_map
  have hmem : slots.filter (fun b => b ∈ emptied) ~ emptied := by
    refine (List.perm_ext_iff_of_nodup (hdistinct.filter _) (hdistinct.sublist hemptied)).2
      fun b => ?_
    rw [List.mem_filter, decide_eq_true_eq]
    exact ⟨And.right, fun hb => ⟨hemptied.subset hb, hb⟩⟩
  have hsplit : slots ~ slots.filter (fun b => b ∉ emptied) ++ emptied := by
    calc slots
      _ ~ slots.filter (fun b => b ∈ emptied) ++ slots.filter fun b => !decide (b ∈ emptied) :=
        (List.filter_append_perm _ _).symm
      _ ~ _ := List.perm_append_comm
      _ ~ slots.filter (fun b => b ∉ emptied) ++ emptied := by
        simpa using hmem.append_left _
  refine h.take ?_
  rw [← List.map_append]
  exact hsplit.map f

/-- What was taken is pending no more. -/
theorem Accounts.not_pending (h : Accounts posted pending taken) {a : α} (ha : a ∈ taken) :
    a ∉ pending :=
  fun hpending => List.disjoint_of_nodup_append (h.perm.nodup_iff.2 h.distinct) hpending ha

end Mailbox
