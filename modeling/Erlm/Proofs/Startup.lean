import Erlm.Proofs.Ports

/-!
# Loading the script

`duk_util_peval_file` evaluates what it can read up to the first zero byte of the mapping, which is
the file exactly if the file has no zero byte and does not fill its last page (`evaluatesFile_iff`).
`duk_elm_peval_file` goes on to the worker of the first export without a look at what the script
left in `module.exports` (`startsWell_iff`).
-/

namespace Erlm

variable {ω : Type} {c : Ctx ω} {st : List JsVal} {files : Bytes → Option File} {page : ℕ}
  {filepath contents : Bytes}

section Evaluation

/-- The code `duk_pcall` and its like return. -/
def execCode : Except JsVal JsVal → ℤ
  | .ok _ => DUK_EXEC_SUCCESS
  | .error _ => DUK_EXEC_ERROR

/-- What they leave on the stack. -/
def execValue : Except JsVal JsVal → JsVal
  | .ok v => v
  | .error e => e

theorem dukExec_run (outcome : Except JsVal JsVal) (st : List JsVal) :
    dukExec outcome (c.withStack st)
      = .ok (execCode outcome) (c.withStack (execValue outcome :: st)) := by
  cases outcome <;> rfl

theorem execCode_eq_zero {outcome : Except JsVal JsVal} :
    execCode outcome = 0 ↔ ∃ v, outcome = .ok v := by
  cases outcome with
  | ok v => simp [execCode, DUK_EXEC_SUCCESS]
  | error e => simp [execCode, DUK_EXEC_ERROR]

/-- The context after a source was evaluated. -/
def Ctx.evaluated (c : Ctx ω) (source : Bytes) : Ctx ω :=
  c.afterCall evalFunction [.string source]

theorem Ctx.evaluated_calls (c : Ctx ω) (source : Bytes) :
    (c.evaluated source).calls = c.calls ++ [(evalFunction, [JsVal.string source])] := rfl

theorem dukPevalString_run {memory source : Bytes} (hread : Pages.read 0 memory = some source)
    (hroom : st.length + 2 ≤ c.reserve) :
    dukPevalString memory (c.withStack st)
      = .ok (execCode (c.outcome evalFunction [.string source]))
        ((c.evaluated source).withStack
          (execValue (c.outcome evalFunction [.string source]) :: st)) := by
  rw [dukPevalString, hread]
  simp only []
  rw [bind_ok (dukPush_ok (by omega) _),
    bind_ok (dukPush_ok (by simp only [List.length_cons]; omega) _)]
  exact (bind_ok (dukInvoke_run c evalFunction [.string source] st)).trans (dukExec_run _ _)

theorem dukPevalString_overrun {memory : Bytes} (hread : Pages.read 0 memory = none) (c : Ctx ω) :
    dukPevalString memory c = .error .undefinedBehaviour c := by
  rw [dukPevalString, hread]
  rfl

/-- The file's bytes are evaluated as they are, and nothing else is called or read. -/
def EvaluatesFile (files : Bytes → Option File) (page : ℕ) (filepath contents : Bytes)
    (c : Ctx ω) : Prop :=
  ∃ result c', dukUtilPevalFile files page filepath c = .ok result c'
    ∧ c'.calls = c.calls ++ [(evalFunction, [.string contents])]

theorem evaluatesFile_iff_read (hroom : c.stack.length + 2 ≤ c.reserve) :
    EvaluatesFile files page filepath contents c
      ↔ ∃ memory, mapFile files page filepath = some memory
        ∧ Pages.read 0 memory = some contents := by
  unfold EvaluatesFile dukUtilPevalFile
  rcases mapFile files page filepath with _ | memory
  · refine iff_of_false ?_ (by simp)
    rintro ⟨result, c', hrun, hcalls⟩
    obtain ⟨-, rfl⟩ := EStateM.Result.ok.inj hrun
    simp at hcalls
  · simp only [Option.some.injEq, exists_eq_left']
    rcases hread : Pages.read 0 memory with _ | source
    · rw [dukPevalString_overrun hread]
      simp
    · have hrun := @dukPevalString_run _ c c.stack _ _ hread hroom
      rw [Ctx.withStack_self] at hrun
      rw [hrun]
      constructor
      · rintro ⟨result, c', hok, hcalls⟩
        obtain ⟨-, rfl⟩ := EStateM.Result.ok.inj hok
        rw [Ctx.withStack_calls, Ctx.evaluated_calls] at hcalls
        simpa using hcalls
      · intro h
        obtain rfl := Option.some.inj h
        exact ⟨_, _, rfl, rfl⟩

/-- A length no `int` holds becomes a smaller one, or a negative. -/
theorem toInt_natCast_lt {n : ℕ} (hn : 2 ^ 31 ≤ n) (h : 0 ≤ toInt n) :
    toInt n < 2 ^ 31 ∧ 2 ^ 32 ≤ n := by
  have hint := isInt_toInt n
  refine ⟨hint.2, ?_⟩
  by_contra hlt
  unfold toInt at h
  rw [Int.bmod_def] at h
  omega

theorem mapFile_some {file : File} (hfile : files filepath = some file) :
    mapFile files page filepath = if toInt file.lseekEnd < 0 then none
      else file.mmap page (toSizeT (toInt file.lseekEnd)) := by
  rw [mapFile, hfile]
  rfl

theorem mapFile_regular (hfile : files filepath = some ⟨contents, true, true⟩) :
    mapFile files page filepath = if toInt contents.length ≤ 0 then none
      else some ((Pages.fill 0 page contents).take
        (Pages.roundUp page (toInt contents.length).toNat)) := by
  have hend : File.lseekEnd ⟨contents, true, true⟩ = contents.length := rfl
  have hint := (isInt_toInt contents.length).2
  rw [mapFile_some hfile, hend]
  generalize toInt contents.length = size at hint ⊢
  rcases lt_trichotomy size 0 with hneg | rfl | hpos
  · rw [if_pos hneg, if_pos hneg.le]
  · rfl
  · rw [if_neg (by omega), if_neg (by omega), toSizeT_of_nonneg hpos.le (by omega), File.mmap,
      if_pos ⟨rfl, by omega⟩]

/-- What a regular file is read as. -/
theorem read_mapFile_iff (hpage : 0 < page) (hpage' : page ≤ 2 ^ 31)
    (hfile : files filepath = some ⟨contents, true, true⟩) (hne : contents ≠ []) :
    (∃ memory, mapFile files page filepath = some memory ∧ Pages.read 0 memory = some contents)
      ↔ contents.length < 2 ^ 31 ∧ 0 ∉ contents ∧ ¬ page ∣ contents.length := by
  have hpos := List.length_pos_iff.2 hne
  rw [mapFile_regular hfile]
  by_cases hsmall : contents.length < 2 ^ 31
  · rw [toInt_of_isInt ⟨by omega, by exact_mod_cast hsmall⟩, if_neg (by omega), Int.toNat_natCast,
      ← Pages.length_fill (z := 0) hpage, List.take_length]
    simp only [Option.some.injEq, exists_eq_left', Pages.read_fill_iff hpage, hsmall, true_and]
  · refine iff_of_false ?_ fun h => hsmall h.1
    rintro ⟨memory, hmemory, hread⟩
    split_ifs at hmemory with hneg
    obtain rfl := Option.some.inj hmemory
    have hlt := ((Pages.read_take_fill_iff _).1 hread).2
    have hround := Pages.roundUp_lt hpage (toInt contents.length).toNat
    have := toInt_natCast_lt (not_lt.1 hsmall) (by omega)
    omega

/-- The file is evaluated as it is exactly if it is short enough for an `int`, has no zero byte and
ends within a page. -/
theorem evaluatesFile_iff (hpage : 0 < page) (hpage' : page ≤ 2 ^ 31)
    (hfile : files filepath = some ⟨contents, true, true⟩) (hne : contents ≠ [])
    (hroom : c.stack.length + 2 ≤ c.reserve) :
    EvaluatesFile files page filepath contents c
      ↔ contents.length < 2 ^ 31 ∧ 0 ∉ contents ∧ ¬ page ∣ contents.length := by
  rw [evaluatesFile_iff_read hroom, read_mapFile_iff hpage hpage' hfile hne]

/-- One file for every path. -/
def oneFile (contents : Bytes) : Bytes → Option File := fun _ => some ⟨contents, true, true⟩

theorem evaluatesFile_digit :
    EvaluatesFile (oneFile [49]) 4096 [] [49] (Ctx.bare 64 ())
      ↔ [49].length < 2 ^ 31 ∧ (0 : UInt8) ∉ [49] ∧ ¬ 4096 ∣ [49].length :=
  @evaluatesFile_iff _ (Ctx.bare 64 ()) (oneFile [49]) 4096 [] [49] (by decide) (by decide) rfl
    (by decide) (by decide)

/-- A file of one page: the end of the source is looked for behind it. -/
theorem not_evaluatesFile_page : ¬ ∀ (files : Bytes → Option File) (page : ℕ)
    (filepath contents : Bytes) (c : Ctx Unit), 0 < page → page ≤ 2 ^ 31 →
    files filepath = some ⟨contents, true, true⟩ → contents ≠ [] →
    c.stack.length + 2 ≤ c.reserve → EvaluatesFile files page filepath contents c := by
  intro hall
  have hne : List.replicate 4096 (49 : UInt8) ≠ [] :=
    List.ne_nil_of_length_pos (by rw [List.length_replicate]; norm_num)
  have h := hall (oneFile (List.replicate 4096 49)) 4096 [] (List.replicate 4096 49)
    (Ctx.bare 64 ()) (by decide) (by decide) rfl hne (by decide)
  rw [evaluatesFile_iff (by decide) (by decide) rfl hne (by decide), List.length_replicate] at h
  exact h.2.2 (dvd_refl _)

end Evaluation

section Exports

/-- The context once `module` is an empty object. -/
def Ctx.withModule (c : Ctx ω) : Ctx ω :=
  c.withShared globalRef (Assoc.put (c.store globalRef) moduleKey (.object []))

/-- What a script left in `module.exports`, none where `module` has no properties at all. -/
def Ctx.exports (c : Ctx ω) : Option JsVal :=
  c.prop ((JsVal.ref globalRef).lookup c.store c.engine.inherited moduleKey) exportsKey

theorem dukPutGlobalString_run (v : JsVal) (key : Bytes) :
    dukPutGlobalString key (c.withStack (v :: st))
      = .ok () ((c.withShared globalRef (Assoc.put (c.store globalRef) key v)).withStack st) := by
  rw [dukPutGlobalString, bind_ok (dukRequireSlot_ok (Ctx.slot_neg_one _ _ _)),
    bind_ok (dukGet_run _ _), Ctx.get_neg_one, bind_ok (modify_run _ _)]
  exact @dukPop_ok _ (c.withShared globalRef (Assoc.put (c.store globalRef) key v)) _ v

theorem dukInsert_two (v w : JsVal) (st : List JsVal) :
    dukInsert (-2) (c.withStack (v :: w :: st)) = .ok () (c.withStack (w :: v :: st)) := by
  rw [dukInsert, bind_ok (dukRequireSlot_ok (Ctx.slot_neg_two _ _ _ _)), modify_run,
    Ctx.get_neg_one]
  rfl

theorem dukInsert_three (v w x : JsVal) (st : List JsVal) :
    dukInsert (-3) (c.withStack (v :: w :: x :: st))
      = .ok () (c.withStack (w :: x :: v :: st)) := by
  have hslot : (c.withStack (v :: w :: x :: st)).slot (-3) = some 2 :=
    Ctx.slot_top c (i := 2) (by simp)
  rw [dukInsert, bind_ok (dukRequireSlot_ok hslot), modify_run, Ctx.get_neg_one]
  rfl

theorem dukUtilPevalFile_unmapped (hmap : mapFile files page filepath = none) (c : Ctx ω) :
    dukUtilPevalFile files page filepath c = .ok (-1) c := by
  rw [dukUtilPevalFile, hmap]
  rfl

theorem dukUtilPevalFile_mapped {memory : Bytes}
    (hmap : mapFile files page filepath = some memory) :
    (dukUtilPevalFile files page filepath : DukM ω ℤ) = dukPevalString memory := by
  rw [dukUtilPevalFile, hmap]

/-- From the evaluation on. -/
theorem dukUtilPevalCommonjsFile_run (hroom : st.length + 1 ≤ c.reserve) :
    dukUtilPevalCommonjsFile files page filepath (c.withStack st)
      = (do
          let result ← dukUtilPevalFile files page filepath
          if result ≠ 0 then return -1
          else
            dukPop
            dukGetGlobalString moduleKey
            dukGetPropString (-1) (some exportsKey)
            dukInsert (-2)
            dukPop
            return 0 : DukM ω ℤ) (c.withModule.withStack st) := by
  rw [dukUtilPevalCommonjsFile, bind_ok (dukPush_ok (by omega) _),
    bind_ok (dukPutGlobalString_run _ _)]
  rfl

theorem dukUtilPevalCommonjsFile_unmapped (hmap : mapFile files page filepath = none)
    (hroom : st.length + 1 ≤ c.reserve) :
    dukUtilPevalCommonjsFile files page filepath (c.withStack st)
      = .ok (-1) (c.withModule.withStack st) := by
  rw [dukUtilPevalCommonjsFile_run hroom, bind_ok (dukUtilPevalFile_unmapped hmap _)]
  rfl

variable {memory source : Bytes}

theorem dukUtilPevalCommonjsFile_overrun (hmap : mapFile files page filepath = some memory)
    (hread : Pages.read 0 memory = none) (hroom : st.length + 1 ≤ c.reserve) :
    dukUtilPevalCommonjsFile files page filepath (c.withStack st)
      = .error .undefinedBehaviour (c.withModule.withStack st) := by
  rw [dukUtilPevalCommonjsFile_run hroom, dukUtilPevalFile_mapped hmap,
    bind_error (dukPevalString_overrun hread _)]

/-- The script has thrown. -/
theorem dukUtilPevalCommonjsFile_thrown (hmap : mapFile files page filepath = some memory)
    (hread : Pages.read 0 memory = some source) {e : JsVal}
    (heval : c.withModule.outcome evalFunction [.string source] = .error e)
    (hroom : st.length + 2 ≤ c.reserve) :
    dukUtilPevalCommonjsFile files page filepath (c.withStack st)
      = .ok (-1) ((c.withModule.evaluated source).withStack (e :: st)) := by
  rw [dukUtilPevalCommonjsFile_run (by omega), dukUtilPevalFile_mapped hmap,
    bind_ok (@dukPevalString_run _ c.withModule st _ _ hread hroom), heval]
  rfl

theorem Ctx.loaded_reserve (c : Ctx ω) (source : Bytes) :
    (c.withModule.evaluated source).reserve = c.reserve :=
  Ctx.afterCall_reserve _ _ _

/-- The script has returned: `module` is looked up. -/
theorem dukUtilPevalCommonjsFile_module (hmap : mapFile files page filepath = some memory)
    (hread : Pages.read 0 memory = some source) {v : JsVal}
    (heval : c.withModule.outcome evalFunction [.string source] = .ok v)
    (hroom : st.length + 2 ≤ c.reserve) :
    dukUtilPevalCommonjsFile files page filepath (c.withStack st)
      = (do
          dukGetPropString (-1) (some exportsKey)
          dukInsert (-2)
          dukPop
          return 0 : DukM ω ℤ) ((c.withModule.evaluated source).withStack
            ((JsVal.ref globalRef).lookup (c.withModule.evaluated source).store
              (c.withModule.evaluated source).engine.inherited moduleKey :: st)) := by
  have hpush : st.length < (c.withModule.evaluated source).reserve := by
    rw [Ctx.loaded_reserve]
    omega
  rw [dukUtilPevalCommonjsFile_run (by omega), dukUtilPevalFile_mapped hmap,
    bind_ok (@dukPevalString_run _ c.withModule st _ _ hread hroom), heval,
    if_neg (not_not.2 (execCode_eq_zero.2 ⟨v, rfl⟩)), bind_ok (dukPop_ok _), dukGetGlobalString,
    bind_assoc, bind_ok (get_run _), bind_ok (dukPush_ok hpush _)]
  rfl

/-- What it exports is left on the stack; a module without properties throws. -/
theorem dukUtilPevalCommonjsFile_returned (st : List JsVal)
    (hmap : mapFile files page filepath = some memory)
    (hread : Pages.read 0 memory = some source) {v : JsVal}
    (heval : c.withModule.outcome evalFunction [.string source] = .ok v)
    (hroom : st.length + 2 ≤ c.reserve) :
    (∀ exports, (c.withModule.evaluated source).exports = some exports →
        dukUtilPevalCommonjsFile files page filepath (c.withStack st)
          = .ok 0 ((c.withModule.evaluated source).withStack (exports :: st)))
      ∧ ((c.withModule.evaluated source).exports = none →
        ∃ e c', dukUtilPevalCommonjsFile files page filepath (c.withStack st) = .error e c') := by
  rw [dukUtilPevalCommonjsFile_module hmap hread heval hroom]
  rw [← c.loaded_reserve source] at hroom
  generalize c.withModule.evaluated source = c₁ at hroom ⊢
  have hmoves := @dukGetPropString_moves _ c₁ st
    ((JsVal.ref globalRef).lookup c₁.store c₁.engine.inherited moduleKey) (some exportsKey)
  rw [propKey, cString_of_notMem (by decide)] at hmoves
  unfold Ctx.exports
  constructor
  · intro exports hexports
    rw [hexports] at hmoves
    rw [bind_ok (hmoves.1 _ _ rfl hroom), bind_ok (dukInsert_two _ _ _), bind_ok (dukPop_ok _)]
    rfl
  · intro hexports
    rw [hexports] at hmoves
    obtain ⟨e, st', -, h⟩ := fails_bind_left (hmoves.2 (Or.inl rfl)) _
    exact ⟨e, _, h⟩

end Exports

section Worker

/-- What a protected call of a method without arguments comes to. -/
def Ctx.methodOutcome (c : Ctx ω) (v : JsVal) (key : Bytes) : Except JsVal JsVal :=
  match c.prop v key with
  | none => .error (.error .typeError)
  | some f => c.outcome f []

def Ctx.afterMethod (c : Ctx ω) (v : JsVal) (key : Bytes) : Ctx ω :=
  match c.prop v key with
  | none => c
  | some f => c.afterCall f []

theorem methodOutcome_eq_ok {v w : JsVal} {key : Bytes} :
    c.methodOutcome v key = .ok w ↔ ∃ f, c.prop v key = some f ∧ c.outcome f [] = .ok w := by
  unfold Ctx.methodOutcome
  cases c.prop v key <;> simp

theorem Ctx.afterMethod_of_prop {v f : JsVal} {key : Bytes} (h : c.prop v key = some f) :
    c.afterMethod v key = c.afterCall f [] := by
  rw [afterMethod, h]

theorem property_string (v : JsVal) (key : Bytes) (w : JsVal) (st : List JsVal) :
    (c.withStack (w :: v :: st)).property (-2) (.string key)
      = match c.prop v key with
        | none => .error .typeError
        | some f => .ok f := by
  unfold Ctx.property
  rw [Ctx.slot_neg_two, Ctx.get_neg_two]
  cases v <;> rfl

theorem property_enumerator (idx : ℤ) (ps : Props) (c : Ctx ω) :
    ∃ kind, c.property idx (.enumerator ps) = .error kind := by
  unfold Ctx.property
  split_ifs
  · exact ⟨_, rfl⟩
  · cases c.get idx <;> exact ⟨_, rfl⟩

theorem dukPcallProp_run (v : JsVal) (key : Bytes) (st : List JsVal) :
    dukPcallProp (-2) 0 (c.withStack (.string key :: v :: st))
      = .ok (execCode (c.methodOutcome v key))
        ((c.afterMethod v key).withStack (execValue (c.methodOutcome v key) :: v :: st)) := by
  rw [dukPcallProp, bind_ok (get_run _)]
  simp only [Ctx.withStack_stack, List.drop_zero, property_string, Ctx.methodOutcome,
    Ctx.afterMethod]
  cases c.prop v key with
  | none =>
    simp only []
    rw [bind_ok (modify_run _ _)]
    rfl
  | some f =>
    simp only []
    rw [bind_ok (modify_run _ _)]
    exact (bind_ok (dukInvoke_run c f [] (v :: st))).trans (dukExec_run _ _)

theorem isObject_of_ownProps {store : Store} {v : JsVal} (h : v.ownProps store ≠ []) :
    v.isObject = true := by
  cases v with
  | array | object | function | enumerator | error | ref => rfl
  | _ => exact absurd rfl h

theorem dukUtilPutFirstPropName_first {v : JsVal} {p : Bytes × JsVal} {ps : Props}
    (hprops : v.ownProps c.store = p :: ps) (hroom : st.length + 3 ≤ c.reserve) :
    dukUtilPutFirstPropName (c.withStack (v :: st))
      = .ok () (c.withStack (.string p.1 :: v :: st)) := by
  have hobj := isObject_of_ownProps (hprops ▸ List.cons_ne_nil p ps)
  have henum := @dukEnum_ownProps _ c st v hobj (by omega)
  rw [hprops] at henum
  have hnext : dukNextKey (-1) (c.withStack (.enumerator (p :: ps) :: v :: st))
      = .ok true (c.withStack (.string p.1 :: .enumerator ps :: v :: st)) :=
    dukNextKey_cons (Ctx.slot_neg_one _ _ _) rfl (by simp only [List.length_cons]; omega)
  rw [dukUtilPutFirstPropName, bind_ok henum, bind_ok hnext, bind_ok (dukInsert_two _ _ _)]
  exact dukPop_ok _

/-- Without a property the enumerator stays where the key should be, and the object is gone. -/
theorem dukUtilPutFirstPropName_empty {v : JsVal} (hobj : v.isObject = true)
    (hprops : v.ownProps c.store = []) (hroom : st.length + 3 ≤ c.reserve) :
    dukUtilPutFirstPropName (c.withStack (v :: st))
      = .ok () (c.withStack (.enumerator [] :: st)) := by
  have henum := @dukEnum_ownProps _ c st v hobj (by omega)
  rw [hprops] at henum
  have hnext : dukNextKey (-1) (c.withStack (.enumerator [] :: v :: st))
      = .ok false (c.withStack (.enumerator [] :: v :: st)) :=
    dukNextKey_nil (Ctx.slot_neg_one _ _ _) rfl
  rw [dukUtilPutFirstPropName, bind_ok henum, bind_ok hnext, bind_ok (dukInsert_two _ _ _)]
  exact dukPop_ok _

/-- `duk_elm_peval_file` from the exports on. -/
def startWorker : DukM ω ℤ := do
  dukUtilPutFirstPropName
  dukGetPropTop (-2)
  dukPushString (some workerKey)
  let result ← dukPcallProp (-2) 0
  dukInsert (-3)
  dukPop
  dukPop
  return result

/-- The first export, `v` being the exports and `p` the first of their properties. -/
def Ctx.firstExport (c : Ctx ω) (v : JsVal) (p : Bytes × JsVal) : JsVal :=
  v.lookup c.store c.engine.inherited p.1

theorem startWorker_first {v : JsVal} {p : Bytes × JsVal} {ps : Props}
    (hprops : v.ownProps c.store = p :: ps) (hroom : st.length + 3 ≤ c.reserve) :
    startWorker (c.withStack (v :: st))
      = .ok (execCode (c.methodOutcome (c.firstExport v p) workerKey))
        ((c.afterMethod (c.firstExport v p) workerKey).withStack
          (execValue (c.methodOutcome (c.firstExport v p) workerKey) :: st)) := by
  have hobj := isObject_of_ownProps (hprops ▸ List.cons_ne_nil p ps)
  have hget : dukGetPropTop (-2) (c.withStack (.string p.1 :: v :: st))
      = .ok () (c.withStack (c.firstExport v p :: v :: st)) := by
    rw [dukGetPropTop, bind_ok (get_run _), Ctx.get_neg_one, property_string,
      Ctx.prop_of_isObject hobj]
    rfl
  have hpush : dukPushString (some workerKey) (c.withStack (c.firstExport v p :: v :: st))
      = .ok () (c.withStack (.string workerKey :: c.firstExport v p :: v :: st)) := by
    rw [dukPushString, cString_of_notMem (by decide)]
    exact dukPush_ok (by simp only [List.length_cons]; omega) _
  rw [startWorker, bind_ok (dukUtilPutFirstPropName_first hprops hroom), bind_ok hget,
    bind_ok hpush, bind_ok (dukPcallProp_run _ _ _), bind_ok (dukInsert_three _ _ _ _),
    bind_ok (dukPop_ok _), bind_ok (dukPop_ok _)]
  rfl

/-- Exports without a property cannot be started from. -/
theorem startWorker_throws {v : JsVal} (hprops : v.ownProps c.store = [])
    (hroom : st.length + 3 ≤ c.reserve) :
    ∃ e c', startWorker (c.withStack (v :: st)) = .error e c' := by
  by_cases hobj : v.isObject = true
  · obtain ⟨kind, hkind⟩ := property_enumerator (-2) [] (c.withStack (.enumerator [] :: st))
    refine ⟨.thrown (.error kind), c.withStack (.enumerator [] :: st), ?_⟩
    have hget : dukGetPropTop (-2) (c.withStack (.enumerator [] :: st))
        = .error (.thrown (.error kind)) (c.withStack (.enumerator [] :: st)) := by
      rw [dukGetPropTop, bind_ok (get_run _), Ctx.get_neg_one, hkind]
      rfl
    rw [startWorker, bind_ok (dukUtilPutFirstPropName_empty hobj hprops hroom), bind_error hget]
  · refine ⟨.thrown (.error .typeError), c.withStack (v :: st), ?_⟩
    have henum : dukEnum (-1) .ownPropertiesOnly (c.withStack (v :: st))
        = .error (.thrown (.error .typeError)) (c.withStack (v :: st)) := by
      rw [dukEnum, bind_ok (get_run _), Ctx.get_neg_one, if_neg hobj]
      rfl
    rw [startWorker, dukUtilPutFirstPropName, bind_assoc, bind_error henum]

end Worker

section Start

/-- The script at a path is evaluated, returns and leaves `c'`. -/
def Evaluates (files : Bytes → Option File) (page : ℕ) (filepath : Bytes) (c c' : Ctx ω) : Prop :=
  ∃ memory source v, mapFile files page filepath = some memory
    ∧ Pages.read 0 memory = some source
    ∧ c.withModule.outcome evalFunction [.string source] = .ok v
    ∧ c' = c.withModule.evaluated source

/-- The worker of the first export is called without arguments, returns `v` and leaves `c'`. -/
def WorkerReturns (files : Bytes → Option File) (page : ℕ) (filepath : Bytes) (c : Ctx ω)
    (v : JsVal) (c' : Ctx ω) : Prop :=
  ∃ c₁ exports p ps f, Evaluates files page filepath c c₁ ∧ c₁.exports = some exports
    ∧ exports.ownProps c₁.store = p :: ps
    ∧ c₁.prop (c₁.firstExport exports p) workerKey = some f
    ∧ c₁.outcome f [] = .ok v ∧ c' = c₁.afterCall f []

/-- It returns: 0 and the worker's value if the worker returns, and otherwise another code and one
value at most. -/
def StartsWell (files : Bytes → Option File) (page : ℕ) (filepath : Bytes) (c : Ctx ω)
    (st : List JsVal) : Prop :=
  ∃ result c', dukElmPevalFile files page filepath (c.withStack st) = .ok result c'
    ∧ (result = 0 ∧ (∃ v c₁, WorkerReturns files page filepath c v c₁ ∧ c' = c₁.withStack (v :: st))
      ∨ result ≠ 0 ∧ (¬ ∃ v c₁, WorkerReturns files page filepath c v c₁)
        ∧ (c'.stack = st ∨ ∃ e, c'.stack = e :: st))

/-- There is nothing to evaluate, or what is evaluated throws or exports something. -/
def Startable (files : Bytes → Option File) (page : ℕ) (filepath : Bytes) (c : Ctx ω) : Prop :=
  mapFile files page filepath = none
    ∨ ∃ memory source, mapFile files page filepath = some memory
      ∧ Pages.read 0 memory = some source
      ∧ ((∃ e, c.withModule.outcome evalFunction [.string source] = .error e)
        ∨ ∃ exports, (c.withModule.evaluated source).exports = some exports
          ∧ exports.ownProps (c.withModule.evaluated source).store ≠ [])

theorem dukElmPevalFile_failed {c c' : Ctx ω} {result : ℤ}
    (h : dukUtilPevalCommonjsFile files page filepath c = .ok result c') (hresult : result ≠ 0) :
    dukElmPevalFile files page filepath c = .ok result c' := by
  rw [dukElmPevalFile, bind_ok h, if_pos hresult]
  rfl

theorem dukElmPevalFile_loaded {c c' : Ctx ω}
    (h : dukUtilPevalCommonjsFile files page filepath c = .ok 0 c') :
    dukElmPevalFile files page filepath c = startWorker c' := by
  rw [dukElmPevalFile, bind_ok h]
  rfl

theorem not_startsWell_of_error
    (h : ∃ e c', dukElmPevalFile files page filepath (c.withStack st) = .error e c') :
    ¬ StartsWell files page filepath c st := by
  obtain ⟨e, c', h⟩ := h
  rintro ⟨result, c'', hok, -⟩
  rw [h] at hok
  cases hok

variable {memory source : Bytes}

/-- Only what was read can have been evaluated. -/
theorem Evaluates.eq {c₁ : Ctx ω} (hmap : mapFile files page filepath = some memory)
    (hread : Pages.read 0 memory = some source) (h : Evaluates files page filepath c c₁) :
    (∃ v, c.withModule.outcome evalFunction [.string source] = .ok v)
      ∧ c₁ = c.withModule.evaluated source := by
  obtain ⟨memory', source', v, hmap', hread', hv, rfl⟩ := h
  obtain rfl := Option.some.inj (hmap.symm.trans hmap')
  obtain rfl := Option.some.inj (hread.symm.trans hread')
  exact ⟨⟨v, hv⟩, rfl⟩

/-- Where the script has returned with something exported, its worker is the one that is called. -/
theorem workerReturns_iff (hmap : mapFile files page filepath = some memory)
    (hread : Pages.read 0 memory = some source) {v : JsVal}
    (heval : c.withModule.outcome evalFunction [.string source] = .ok v) {exports : JsVal}
    (hexports : (c.withModule.evaluated source).exports = some exports)
    {p : Bytes × JsVal} {ps : Props}
    (hprops : exports.ownProps (c.withModule.evaluated source).store = p :: ps) {w : JsVal}
    {c' : Ctx ω} :
    WorkerReturns files page filepath c w c'
      ↔ (c.withModule.evaluated source).methodOutcome
          ((c.withModule.evaluated source).firstExport exports p) workerKey = .ok w
        ∧ c' = (c.withModule.evaluated source).afterMethod
          ((c.withModule.evaluated source).firstExport exports p) workerKey := by
  constructor
  · intro h
    obtain ⟨c₁, exports', p', ps', f, heval', hexports', hprops', hf, hw, rfl⟩ := h
    obtain rfl := (heval'.eq hmap hread).2
    obtain rfl := Option.some.inj (hexports.symm.trans hexports')
    obtain ⟨rfl, -⟩ := List.cons.inj (hprops.symm.trans hprops')
    exact ⟨methodOutcome_eq_ok.2 ⟨f, hf, hw⟩, (Ctx.afterMethod_of_prop hf).symm⟩
  · intro h
    obtain ⟨hw, rfl⟩ := h
    obtain ⟨f, hf, hw⟩ := methodOutcome_eq_ok.1 hw
    exact ⟨_, exports, p, ps, f, ⟨_, _, v, hmap, hread, heval, rfl⟩, hexports, hprops, hf, hw,
      Ctx.afterMethod_of_prop hf⟩

/-- The script has returned with something exported. -/
theorem startsWell_exports (hmap : mapFile files page filepath = some memory)
    (hread : Pages.read 0 memory = some source) {v : JsVal}
    (heval : c.withModule.outcome evalFunction [.string source] = .ok v) {exports : JsVal}
    (hexports : (c.withModule.evaluated source).exports = some exports)
    {p : Bytes × JsVal} {ps : Props}
    (hprops : exports.ownProps (c.withModule.evaluated source).store = p :: ps)
    (hroom : st.length + 3 ≤ c.reserve) : StartsWell files page filepath c st := by
  have hload := (dukUtilPevalCommonjsFile_returned st hmap hread heval (by omega)).1
    exports hexports
  have hrun := (dukElmPevalFile_loaded hload).trans
    (startWorker_first hprops (by rwa [Ctx.loaded_reserve]))
  refine ⟨_, _, hrun, ?_⟩
  simp only [workerReturns_iff hmap hread heval hexports hprops]
  rcases (c.withModule.evaluated source).methodOutcome
    ((c.withModule.evaluated source).firstExport exports p) workerKey with e | w
  · exact Or.inr ⟨by simp [execCode, DUK_EXEC_ERROR], by simp, Or.inr ⟨e, rfl⟩⟩
  · exact Or.inl ⟨rfl, w, _, ⟨rfl, rfl⟩, rfl⟩

/-- The script was not evaluated, or it has thrown. -/
theorem startsWell_failed {c' : Ctx ω}
    (hload : dukUtilPevalCommonjsFile files page filepath (c.withStack st) = .ok (-1) c')
    (hnot : ∀ c₁, ¬ Evaluates files page filepath c c₁)
    (hstack : c'.stack = st ∨ ∃ e, c'.stack = e :: st) : StartsWell files page filepath c st := by
  refine ⟨-1, c', dukElmPevalFile_failed hload (by norm_num),
    Or.inr ⟨by norm_num, ?_, hstack⟩⟩
  rintro ⟨v, c'', c₁, exports, p, ps, f, heval, -⟩
  exact hnot c₁ heval

theorem startsWell_unmapped (hmap : mapFile files page filepath = none)
    (hroom : st.length + 1 ≤ c.reserve) : StartsWell files page filepath c st := by
  refine startsWell_failed (dukUtilPevalCommonjsFile_unmapped hmap hroom) ?_ (Or.inl rfl)
  rintro c₁ ⟨memory, source, v, hmap', -⟩
  rw [hmap] at hmap'
  cases hmap'

theorem startsWell_thrown (hmap : mapFile files page filepath = some memory)
    (hread : Pages.read 0 memory = some source) {e : JsVal}
    (heval : c.withModule.outcome evalFunction [.string source] = .error e)
    (hroom : st.length + 2 ≤ c.reserve) : StartsWell files page filepath c st := by
  refine startsWell_failed (dukUtilPevalCommonjsFile_thrown hmap hread heval hroom) ?_
    (Or.inr ⟨e, rfl⟩)
  intro c₁ h
  obtain ⟨v, hv⟩ := (h.eq hmap hread).1
  rw [heval] at hv
  cases hv

theorem not_startsWell_overrun (hmap : mapFile files page filepath = some memory)
    (hread : Pages.read 0 memory = none) (hroom : st.length + 1 ≤ c.reserve) :
    ¬ StartsWell files page filepath c st := by
  refine not_startsWell_of_error ⟨.undefinedBehaviour, c.withModule.withStack st, ?_⟩
  rw [dukElmPevalFile, bind_error (dukUtilPevalCommonjsFile_overrun hmap hread hroom)]

/-- The script has returned with nothing exported. -/
theorem not_startsWell_noExports (hmap : mapFile files page filepath = some memory)
    (hread : Pages.read 0 memory = some source) {v : JsVal}
    (heval : c.withModule.outcome evalFunction [.string source] = .ok v)
    (hnone : ∀ exports, (c.withModule.evaluated source).exports = some exports →
      exports.ownProps (c.withModule.evaluated source).store = [])
    (hroom : st.length + 3 ≤ c.reserve) : ¬ StartsWell files page filepath c st := by
  have hload := dukUtilPevalCommonjsFile_returned st hmap hread heval (by omega)
  refine not_startsWell_of_error ?_
  rcases hexports : (c.withModule.evaluated source).exports with _ | exports
  · obtain ⟨e, c', h⟩ := hload.2 hexports
    exact ⟨e, c', by rw [dukElmPevalFile, bind_error h]⟩
  · rw [dukElmPevalFile_loaded (hload.1 exports hexports)]
    exact startWorker_throws (hnone exports hexports) (by rwa [Ctx.loaded_reserve])

/-- What there is to find out about a script that was read. -/
theorem startable_iff_of_read (hmap : mapFile files page filepath = some memory)
    (hread : Pages.read 0 memory = some source) :
    Startable files page filepath c
      ↔ (∃ e, c.withModule.outcome evalFunction [.string source] = .error e)
        ∨ ∃ exports, (c.withModule.evaluated source).exports = some exports
          ∧ exports.ownProps (c.withModule.evaluated source).store ≠ [] := by
  simp [Startable, hmap, hread]

/-- `duk_elm_peval_file` keeps its word exactly if the script is not there or throws, or is read
within its mapping and exports an object with a property. -/
theorem startsWell_iff (hroom : st.length + 3 ≤ c.reserve) :
    StartsWell files page filepath c st ↔ Startable files page filepath c := by
  rcases hmap : mapFile files page filepath with _ | memory
  · exact iff_of_true (startsWell_unmapped hmap (by omega)) (Or.inl hmap)
  rcases hread : Pages.read 0 memory with _ | source
  · refine iff_of_false (not_startsWell_overrun hmap hread (by omega)) ?_
    simp [Startable, hmap, hread]
  rw [startable_iff_of_read hmap hread]
  rcases heval : c.withModule.outcome evalFunction [.string source] with e | v
  · exact iff_of_true (startsWell_thrown hmap hread heval (by omega)) (Or.inl ⟨e, rfl⟩)
  by_cases hnone : ∀ exports, (c.withModule.evaluated source).exports = some exports →
      exports.ownProps (c.withModule.evaluated source).store = []
  · refine iff_of_false (not_startsWell_noExports hmap hread heval hnone hroom) ?_
    simpa using hnone
  · push Not at hnone
    obtain ⟨exports, hexports, hprops⟩ := hnone
    obtain ⟨p, ps, hcons⟩ := List.exists_cons_of_ne_nil hprops
    exact iff_of_true (startsWell_exports hmap hread heval hexports hcons hroom)
      (Or.inr ⟨exports, hexports, hprops⟩)

theorem startsWell_digit :
    StartsWell (oneFile [49]) 4096 [] (Ctx.idle 64 ()) []
      ↔ Startable (oneFile [49]) 4096 [] (Ctx.idle 64 ()) :=
  startsWell_iff (by decide)

/-- A script that exports nothing: its `module.exports` is undefined. -/
theorem not_startsWell_idle : ¬ ∀ (files : Bytes → Option File) (page : ℕ) (filepath : Bytes)
    (c : Ctx Unit) (st : List JsVal), 0 < page → st.length + 3 ≤ c.reserve →
    StartsWell files page filepath c st := by
  intro hall
  obtain ⟨memory, hmap, hread⟩ := (@read_mapFile_iff (oneFile [49]) 4096 [] [49] (by decide)
    (by decide) rfl (by decide)).2 ⟨by decide, by decide, by decide⟩
  refine not_startsWell_noExports hmap hread rfl ?_ (by decide)
    (hall (oneFile [49]) 4096 [] (Ctx.idle 64 ()) [] (by decide) (by decide))
  intro exports hexports
  obtain rfl : JsVal.undefined = exports := Option.some.inj hexports
  rfl

end Start

end Erlm
