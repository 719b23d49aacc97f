import Erlm.Proofs.RoundTrip

/-!
# Telling keyword lists from other lists

`duk_erlang_is_object_alike` counts its rounds by the length of the list. A proper list has one, and
the answer is right; an improper list has the length -1, no round is made and the list passes for a
keyword list, which is then pushed as an empty array (`listClassified_iff`).
-/

namespace Erlm

open ETerm (ofList)

/-- A proper list of pairs `{Key, Value}` whose keys are atoms. -/
def IsKeywordList (t : ETerm) : Prop :=
  ∃ es, t = ofList es ∧ ∀ e ∈ es, ∃ name value, e = .tuple [.atom name, value]

/-- `t` is taken for a keyword list exactly if it is one, and if it is another list that is not
empty, every container it is pushed as is the array of the values of its elements. -/
structure ListClassified (t : ETerm) : Prop where
  exact : dukErlangIsObjectAlike t = true ↔ IsKeywordList t
  keeps : t ≠ .nil → ¬ IsKeywordList t → ∀ {ω : Type} (c : Ctx ω) (st : List JsVal) (c' : Ctx ω),
    dukErlangPushTerm t (c.withStack st) = .ok () c' → ∃ v, c' = c.withStack (v :: st)
      ∧ (v.isObject = true → ∃ es vs, t = ofList es ∧ v = .ofList vs
        ∧ List.Forall₂ (fun e w => convert c.engine.arrayLength e = some w) es vs)

theorem isKeywordList_ofList {es : List ETerm} :
    IsKeywordList (ofList es) ↔ ∀ e ∈ es, ∃ name value, e = .tuple [.atom name, value] := by
  constructor
  · intro ⟨us, heq, hus⟩
    rwa [ETerm.ofList_injective heq]
  · exact fun h => ⟨es, rfl, h⟩

theorem isObject_textOf (t : ETerm) : (textOf t).isObject = false := by
  rcases textOf_cases t with h | ⟨s, h⟩ <;> rw [h] <;> rfl

/-- Without a length no element is looked at. -/
theorem isObjectAlike_improper {t : ETerm} (hlist : t.isList = true)
    (himproper : t.toList? = none) : dukErlangIsObjectAlike t = true := by
  rw [dukErlangIsObjectAlike, hlist, erlLength_of_toList?_none himproper]
  rfl

theorem toList?_of_isKeywordList {t : ETerm} (h : IsKeywordList t) : t.toList?.isSome = true := by
  obtain ⟨es, rfl, -⟩ := h
  rw [ETerm.toList?_ofList, Option.isSome_some]

/-- A container that a proper list which is no keyword list converts to has its elements. -/
theorem convert_ofList_isObject {len : JsVal → Option ℕ} {es : List ETerm} {v : JsVal}
    (hkeywords : ¬ IsKeywordList (ofList es)) (hv : convert len (ofList es) = some v)
    (hobj : v.isObject = true) :
    ∃ vs, v = .ofList vs ∧ List.Forall₂ (fun e w => convert len e = some w) es vs := by
  by_cases hio : (iodata (ofList es)).isSome = true
  · rw [convert_of_iodata hio, Option.some.injEq] at hv
    rw [← hv, isObject_textOf] at hobj
    cases hobj
  · have hother : ∃ e ∈ es, ∀ name value, e ≠ .tuple [.atom name, value] := by
      rw [isKeywordList_ofList] at hkeywords
      push Not at hkeywords
      exact hkeywords
    rw [convert_ofList hio hother, Option.map_eq_some_iff] at hv
    obtain ⟨vs, hvs, rfl⟩ := hv
    exact ⟨vs, rfl, convertElements_eq_some.1 hvs⟩

/-- Lists are classified right exactly if they are proper. -/
theorem listClassified_iff {t : ETerm} (hlist : t.isList = true) :
    ListClassified t ↔ ∃ es, t = ofList es := by
  constructor
  · intro h
    by_contra himproper
    have hnone : t.toList? = none := by
      rw [Option.eq_none_iff_forall_not_mem]
      exact fun es hes => himproper ⟨es, ETerm.ofList_of_toList? hes⟩
    have hkeywords := h.exact.1 (isObjectAlike_improper hlist hnone)
    have := toList?_of_isKeywordList hkeywords
    rw [hnone] at this
    cases this
  · rintro ⟨es, rfl⟩
    refine ⟨isObjectAlike_ofList.trans isKeywordList_ofList.symm, ?_⟩
    intro _ hkeywords ω c st c' hpush
    obtain ⟨v, hv, -, rfl⟩ := dukErlangPushTerm_eq_ok.1 hpush
    refine ⟨v, rfl, fun hobj => ?_⟩
    obtain ⟨vs, hvs, hall⟩ := convert_ofList_isObject hkeywords hv hobj
    exact ⟨es, vs, rfl, hvs, hall⟩

theorem listClassified_pair :
    ListClassified (.cons (.tuple [.atom [97], .integer 1]) (.cons (.float (.ofInt 1)) .nil))
      ↔ ∃ es, ETerm.cons (.tuple [.atom [97], .integer 1]) (.cons (.float (.ofInt 1)) .nil)
        = ofList es :=
  listClassified_iff rfl

/-- `[1.0 | a]` passes for a keyword list. -/
theorem not_listClassified_improper :
    ¬ ListClassified (.cons (.float (.ofInt 1)) (.atom [97])) := by
  intro h
  have := toList?_of_isKeywordList (h.exact.1 (isObjectAlike_improper rfl rfl))
  cases this

end Erlm
