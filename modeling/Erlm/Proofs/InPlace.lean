import Erlm.Argparse

/-!
# Arguments in place

Going through the array in place is the same as reading a list and collecting the operands in
another, whatever the options are: what is written never falls on an argument that is still to be
read (`argparseParse_eq`).
-/

namespace Erlm

/-- The arguments still to be read, and the operands so far. -/
structure ArgvList where
  operands : List Bytes
  rest : List Bytes
  deriving Repr, DecidableEq

instance : Argv ArgvList where
  argc l := l.rest.length
  head l := l.rest.head?
  shift l := { l with rest := l.rest.tail }
  keep l := { l with operands := l.operands ++ l.rest.head?.toList }
  argc_shift _ := List.length_tail
  argc_keep _ := rfl

/-- The operands of a command line, and the variables. -/
def parseArgs (options : List ArgparseOption) (flags : ℕ) (values : Variables) (args : List Bytes) :
    Except Stop (List Bytes × Variables) := do
  let argv : ArgvList := ⟨[], args⟩
  let s ← argparseLoop options flags ⟨argv, none, values⟩
  return (s.argv.operands ++ s.argv.rest, s.values)

/-- The array has the operands at its start and the rest at its end, with a gap of one place at
least. -/
structure ArgvArray.Holds (a : ArgvArray) (l : ArgvList) : Prop where
  cpidx : a.cpidx = l.operands.length
  gap : a.cpidx < a.next
  kept : a.out.take a.cpidx = l.operands.map some
  rest : a.out.drop a.next = l.rest.map some ++ [none]
  argc : a.argc = l.rest.length

variable {a : ArgvArray} {l : ArgvList}

theorem ArgvArray.Holds.head (h : a.Holds l) : Argv.head a = Argv.head l := by
  have hget : a.out[a.next]? = (l.rest.map some ++ [none])[0]? := by
    rw [← h.rest, List.getElem?_drop, Nat.add_zero]
  show (a.out[a.next]?).join = l.rest.head?
  rw [hget]
  cases l.rest <;> rfl

theorem ArgvArray.Holds.shift (h : a.Holds l) (hne : l.rest ≠ []) :
    (Argv.shift a).Holds (Argv.shift l) := by
  obtain ⟨arg, rest, hrest⟩ := List.exists_cons_of_ne_nil hne
  refine ⟨h.cpidx, Nat.lt_succ_of_lt h.gap, h.kept, ?_, ?_⟩
  · show a.out.drop (a.next + 1) = l.rest.tail.map some ++ [none]
    rw [← List.drop_drop, h.rest, hrest]
    rfl
  · show a.argc - 1 = l.rest.tail.length
    rw [h.argc, List.length_tail]

/-- An operand goes to the gap. -/
theorem ArgvArray.Holds.keep_shift (h : a.Holds l) (hne : l.rest ≠ []) :
    (Argv.shift (Argv.keep a)).Holds (Argv.shift (Argv.keep l)) := by
  obtain ⟨arg, rest, hrest⟩ := List.exists_cons_of_ne_nil hne
  have hhead : (a.out[a.next]?).join = some arg := by
    have hhead := h.head
    rw [show Argv.head l = some arg by show l.rest.head? = _; rw [hrest]; rfl] at hhead
    exact hhead
  have hlen : a.next < a.out.length := by
    have hlen := congrArg List.length h.rest
    simp only [List.length_drop, List.length_append, List.length_map, List.length_singleton] at hlen
    omega
  have hcpidx : a.cpidx < a.out.length := h.gap.trans hlen
  refine ⟨?_, Nat.succ_lt_succ h.gap, ?_, ?_, ?_⟩
  · show a.cpidx + 1 = (l.operands ++ l.rest.head?.toList).length
    rw [hrest, h.cpidx]
    simp
  · show (a.out.set a.cpidx (a.out[a.next]?).join).take (a.cpidx + 1)
      = (l.operands ++ l.rest.head?.toList).map some
    rw [hhead, List.take_add_one, List.take_set_of_le (le_refl _), h.kept,
      List.getElem?_set_self hcpidx, hrest]
    simp
  · show (a.out.set a.cpidx (a.out[a.next]?).join).drop (a.next + 1)
      = l.rest.tail.map some ++ [none]
    have hgap : a.cpidx < a.next + 1 := Nat.lt_succ_of_lt h.gap
    rw [List.drop_set_of_lt hgap, ← List.drop_drop, h.rest, hrest]
    rfl
  · show a.argc - 1 = l.rest.tail.length
    rw [h.argc, List.length_tail]

/-- The parser is in the same state on both. -/
structure SameState (s : Argparse ArgvArray) (t : Argparse ArgvList) : Prop where
  holds : s.argv.Holds t.argv
  optvalue : s.optvalue = t.optvalue
  values : s.values = t.values

/-- So it is, with an argument at hand. -/
def SameArg (s : Argparse ArgvArray) (t : Argparse ArgvList) : Prop :=
  SameState s t ∧ t.argv.rest ≠ []

variable {s : Argparse ArgvArray} {t : Argparse ArgvList} {opt : ArgparseOption}
  {options : List ArgparseOption} {unset long : Bool}

theorem SameArg.shift (h : SameArg s t) : SameState s.shift t.shift :=
  ⟨h.1.holds.shift h.2, h.1.optvalue, h.1.values⟩

theorem SameArg.keep_shift (h : SameArg s t) : SameState s.keep.shift t.keep.shift :=
  ⟨h.1.holds.keep_shift h.2, h.1.optvalue, h.1.values⟩

theorem SameArg.setInt (h : SameArg s t) (v : ℕ) (n : ℤ) :
    SameArg (s.setInt v n) (t.setInt v n) :=
  ⟨⟨h.1.holds, h.1.optvalue, congrArg (Variables.setInt · v n) h.1.values⟩, h.2⟩

theorem SameArg.setString (h : SameArg s t) (v : ℕ) (text : Bytes) :
    SameArg (s.setString v text) (t.setString v text) :=
  ⟨⟨h.1.holds, h.1.optvalue, congrArg (Variables.setString · v text) h.1.values⟩, h.2⟩

theorem argparseTakeValue_agree (h : SameArg s t) :
    Except.Agree (fun x y => x.1 = y.1 ∧ SameArg x.2 y.2) (argparseTakeValue opt long s)
      (argparseTakeValue opt long t) := by
  unfold argparseTakeValue
  rw [h.1.optvalue]
  split
  · exact .ok ⟨rfl, ⟨h.1.holds, rfl, h.1.values⟩, h.2⟩
  · have hargc : Argv.argc s.argv = t.argv.rest.length := h.1.holds.argc
    have hhead := (h.1.holds.shift h.2).head
    rw [hargc, hhead]
    show Except.Agree _ (if 1 < t.argv.rest.length then _ else _)
      (if 1 < t.argv.rest.length then _ else _)
    split_ifs with hmore
    · split
      · refine .ok ⟨rfl, h.shift, ?_⟩
        show t.argv.rest.tail ≠ []
        exact List.ne_nil_of_length_pos (by rw [List.length_tail]; omega)
      · exact .error _
    · exact .error _

theorem argparseStore_agree (h : SameArg s t) (v : ℕ) :
    Except.Agree SameArg (argparseStore opt v unset long s) (argparseStore opt v unset long t) := by
  unfold argparseStore
  rw [h.1.values]
  split
  · exact .ok (h.setInt _ _)
  · exact .ok (h.setInt _ _)
  · refine (argparseTakeValue_agree h).bind fun x y hxy => ?_
    obtain ⟨value, s'⟩ := x
    obtain ⟨rfl, hsame⟩ := hxy
    exact .ok (hsame.setString v _)
  · refine (argparseTakeValue_agree h).bind fun x y hxy => ?_
    obtain ⟨value, s'⟩ := x
    obtain ⟨rfl, hsame⟩ := hxy
    simp only []
    split_ifs
    · exact .error _
    · exact .ok (hsame.setInt _ _)
  · exact .error _

theorem argparseGetvalue_agree (h : SameArg s t) :
    Except.Agree (fun x y => x.1 = y.1 ∧ SameArg x.2 y.2) (argparseGetvalue opt unset long s)
      (argparseGetvalue opt unset long t) := by
  have hfill : Except.Agree SameArg (argparseFill opt unset long s)
      (argparseFill opt unset long t) := by
    unfold argparseFill
    split
    · exact .ok h
    · exact argparseStore_agree h _
  refine hfill.bind fun s t h => ?_
  split
  · exact .ok ⟨rfl, h⟩
  · rename_i callback _
    rw [h.1.values]
    exact Except.agree_refl.bind fun x y hxy => .ok
      ⟨congrArg Prod.fst hxy, ⟨h.1.holds, h.1.optvalue, congrArg Prod.snd hxy⟩, h.2⟩

theorem argparseShortOpt_agree : ∀ {options : List ArgparseOption}, SameArg s t →
    Except.Agree (fun x y => x.1 = y.1 ∧ SameArg x.2 y.2) (argparseShortOpt options s)
      (argparseShortOpt options t)
  | [], h => .ok ⟨rfl, h⟩
  | opt :: options, h => by
    rw [argparseShortOpt, argparseShortOpt, h.1.optvalue]
    split
    · exact .error _
    · split_ifs
      · exact argparseGetvalue_agree ⟨⟨h.1.holds, rfl, h.1.values⟩, h.2⟩
      · exact argparseShortOpt_agree h

theorem argparseLongOpt_agree {name : Bytes} : ∀ {options : List ArgparseOption}, SameArg s t →
    Except.Agree (fun x y => x.1 = y.1 ∧ SameArg x.2 y.2) (argparseLongOpt name options s)
      (argparseLongOpt name options t)
  | [], h => .ok ⟨rfl, h⟩
  | opt :: options, h => by
    rw [argparseLongOpt, argparseLongOpt]
    split
    · exact argparseLongOpt_agree h
    · exact argparseGetvalue_agree h
    · exact argparseGetvalue_agree ⟨⟨h.1.holds, rfl, h.1.values⟩, h.2⟩
    · exact argparseLongOpt_agree h

theorem argparseLetters_agree (h : SameArg s t) :
    Except.Agree (fun x y => x.1 = y.1 ∧ SameArg x.2 y.2) (argparseLetters options s)
      (argparseLetters options t) := by
  refine DoWhile.loop_rel SameArg _ (fun s t h => ?_) s t h
  unfold argparseLettersBody
  generalize hx : argparseShortOpt options s = x, hy : argparseShortOpt options t = y
  have hagree := @argparseShortOpt_agree _ _ options h
  rw [hx, hy] at hagree
  cases hagree with
  | error e => exact .inr (.error e)
  | @ok x y hxy =>
    obtain ⟨hcode, hsame⟩ := hxy
    simp only [hcode, hsame.1.optvalue]
    split_ifs
    · exact .inr (.ok ⟨rfl, hsame⟩)
    · exact .inl hsame
    · exact .inr (.ok ⟨rfl, hsame⟩)

theorem afterOption_agree (h : SameArg s t) (unknown : Bool) :
    Sum.LiftRel SameState (Except.Agree SameState) (afterOption unknown s)
      (afterOption unknown t) := by
  unfold afterOption
  rw [h.1.holds.head]
  split_ifs
  · exact .inr (.error _)
  · exact .inl h.shift

theorem argparseArg_agree (h : SameArg s t) (flags : ℕ) (arg : Bytes) :
    Sum.LiftRel SameState (Except.Agree SameState) (argparseArg options flags arg s)
      (argparseArg options flags arg t) := by
  unfold argparseArg
  split
  · split_ifs
    · exact .inr (.ok h.1)
    · exact .inl h.keep_shift
  · rename_i letters _
    generalize hx : argparseLetters options { s with optvalue := some letters } = x,
      hy : argparseLetters options { t with optvalue := some letters } = y
    have hagree := @argparseLetters_agree { s with optvalue := some letters }
      { t with optvalue := some letters } options ⟨⟨h.1.holds, rfl, h.1.values⟩, h.2⟩
    rw [hx, hy] at hagree
    cases hagree with
    | error e => exact .inr (.error e)
    | @ok x y hxy =>
      obtain ⟨code, s'⟩ := x
      obtain ⟨rfl, hsame⟩ := hxy
      exact afterOption_agree hsame _
  · exact .inr (.ok h.shift)
  · rename_i name _
    generalize hx : argparseLongOpt name options s = x, hy : argparseLongOpt name options t = y
    have hagree := @argparseLongOpt_agree _ _ name options h
    rw [hx, hy] at hagree
    cases hagree with
    | error e => exact .inr (.error e)
    | @ok x y hxy =>
      obtain ⟨code, s'⟩ := x
      obtain ⟨rfl, hsame⟩ := hxy
      exact afterOption_agree hsame _

theorem argparseLoop_agree (h : SameState s t) (flags : ℕ) :
    Except.Agree SameState (argparseLoop options flags s) (argparseLoop options flags t) := by
  refine DoWhile.loop_rel SameState _ (fun s t h => ?_) s t h
  unfold argparseParseBody
  have hargc : Argv.argc s.argv = t.argv.rest.length := h.holds.argc
  rw [hargc, h.holds.head]
  show Sum.LiftRel _ _ _ (if t.argv.rest.length = 0 then _ else _)
  split_ifs with hempty
  · exact .inr (.ok h)
  · have hne : t.argv.rest ≠ [] := fun hnil => hempty (List.length_eq_zero_iff.2 hnil)
    split
    · exact .inr (.error _)
    · exact argparseArg_agree ⟨h, hne⟩ flags _

/-- The operands, the rest and `NULL` are all that is left at the start of the array. -/
theorem ArgvArray.Holds.finish (h : a.Holds l) :
    a.finish.1 = (l.operands ++ l.rest).length
      ∧ a.finish.2.take (a.finish.1 + 1) = (l.operands ++ l.rest).map some ++ [none] := by
  have hcount : a.cpidx + a.argc = (l.operands ++ l.rest).length := by
    rw [h.cpidx, h.argc, List.length_append]
  refine ⟨hcount, ?_⟩
  have hrest : (a.out.drop a.next).take a.argc = l.rest.map some := by
    rw [h.rest, List.take_append_of_le_length (by rw [h.argc, List.length_map]),
      List.take_of_length_le (by rw [h.argc, List.length_map])]
  have hlen : (l.operands ++ l.rest).length < a.out.length := by
    have hlen := congrArg List.length h.rest
    have hgap := h.gap
    simp only [List.length_drop, List.length_append, List.length_map,
      List.length_singleton] at hlen ⊢
    rw [h.cpidx] at hgap
    omega
  obtain ⟨x, more, hmore⟩ := List.exists_cons_of_ne_nil
    (List.ne_nil_of_length_pos (l := a.out.drop (l.operands ++ l.rest).length)
      (by rw [List.length_drop]; omega))
  show ((a.out.take a.cpidx ++ (a.out.drop a.next).take a.argc
    ++ a.out.drop (a.cpidx + a.argc)).set (a.cpidx + a.argc) none).take (a.cpidx + a.argc + 1) = _
  rw [h.kept, hrest, hcount, hmore, ← List.map_append, List.set_append_right _ _ (by simp)]
  rw [List.length_map, Nat.sub_self, List.set_cons_zero]
  generalize l.operands ++ l.rest = operands
  have hlen : (operands.map some).length = operands.length := List.length_map _
  rw [← hlen, List.take_length_add_append]
  rfl

/-- The results of the two parsers belong together. -/
def SameResult (r : (ℕ × List (Option Bytes)) × Variables) (l : List Bytes × Variables) : Prop :=
  (r.1.1, r.1.2.take (r.1.1 + 1), r.2) = (l.1.length, l.1.map some ++ [none], l.2)

theorem argparseParse_agree (options : List ArgparseOption) (flags : ℕ) (values : Variables)
    (program : Bytes) (args : List Bytes) :
    Except.Agree SameResult (argparseParse options flags values program args)
      (parseArgs options flags values args) := by
  have hstart : SameState ⟨⟨argvOf program args, 1, args.length, 0⟩, none, values⟩
      ⟨⟨[], args⟩, none, values⟩ := ⟨⟨rfl, Nat.one_pos, rfl, rfl, rfl⟩, rfl, rfl⟩
  refine (argparseLoop_agree hstart flags).bind fun s t h => .ok ?_
  obtain ⟨hcount, htake⟩ := h.holds.finish
  unfold SameResult
  simp only []
  rw [htake, hcount, h.values]

/-- In place, the parser finds the operands and the values it finds in a list, and the start of the
array is the operands and `NULL`. -/
theorem argparseParse_eq (options : List ArgparseOption) (flags : ℕ) (values : Variables)
    (program : Bytes) (args : List Bytes) :
    (argparseParse options flags values program args).map
        (fun r => (r.1.1, r.1.2.take (r.1.1 + 1), r.2))
      = (parseArgs options flags values args).map
        fun r => (r.1.length, r.1.map some ++ [none], r.2) :=
  Except.Agree.map_eq (argparseParse_agree options flags values program args)

section Safety

/-- No callback of the options does what has no meaning. -/
def Defined (options : List ArgparseOption) : Prop :=
  ∀ opt ∈ options, ∀ callback, opt.callback = some callback →
    ∀ values, (callback values).Never .undefinedBehaviour

/-- There is an argument where the count says so. -/
theorem head_ne_none {argv : ArgvList} (h : 0 < Argv.argc argv) : Argv.head argv ≠ none := by
  intro hnone
  have hrest : argv.rest = [] := List.head?_eq_none_iff.1 hnone
  exact absurd (congrArg List.length hrest) (Nat.ne_of_gt h)

theorem argparseError_ne (reason : String) :
    argparseError opt long reason ≠ .undefinedBehaviour := Stop.noConfusion

theorem argparseTakeValue_never :
    (argparseTakeValue opt long t).Never .undefinedBehaviour := by
  unfold argparseTakeValue
  split
  · exact Except.never_ok _
  · split_ifs with hmore
    · split
      · exact Except.never_ok _
      · rename_i hnone
        refine absurd hnone (head_ne_none ?_)
        rw [Argv.argc_shift]
        omega
    · exact Except.never_error (argparseError_ne _)

theorem argparseStore_never (v : ℕ) :
    (argparseStore opt v unset long t).Never .undefinedBehaviour := by
  unfold argparseStore
  split
  · exact Except.never_ok _
  · exact Except.never_ok _
  · exact argparseTakeValue_never.bind fun _ _ => Except.never_ok _
  · refine argparseTakeValue_never.bind fun x _ => ?_
    obtain ⟨value, t'⟩ := x
    simp only []
    split_ifs
    · exact Except.never_error (argparseError_ne _)
    · exact Except.never_ok _
  · exact Except.never_error Stop.noConfusion

theorem argparseGetvalue_never (hopt : ∀ callback, opt.callback = some callback →
    ∀ values, (callback values).Never .undefinedBehaviour) :
    (argparseGetvalue opt unset long t).Never .undefinedBehaviour := by
  have hfill : (argparseFill opt unset long t).Never .undefinedBehaviour := by
    unfold argparseFill
    split
    · exact Except.never_ok _
    · exact argparseStore_never _
  refine hfill.bind fun t' _ => ?_
  split
  · exact Except.never_ok _
  · rename_i callback hcallback
    exact (hopt callback hcallback _).bind fun _ _ => Except.never_ok _

theorem argparseShortOpt_never : ∀ {options : List ArgparseOption}, Defined options →
    t.optvalue ≠ none → (argparseShortOpt options t).Never .undefinedBehaviour
  | [], _, _ => Except.never_ok _
  | opt :: options, h, hletters => by
    obtain ⟨hopt, hoptions⟩ := List.forall_mem_cons.1 h
    rw [argparseShortOpt]
    split
    · rename_i hnone
      exact absurd hnone hletters
    · split_ifs
      · exact argparseGetvalue_never hopt
      · exact argparseShortOpt_never hoptions hletters

theorem argparseLongOpt_never {name : Bytes} : ∀ {options : List ArgparseOption}, Defined options →
    (argparseLongOpt name options t).Never .undefinedBehaviour
  | [], _ => Except.never_ok _
  | opt :: options, h => by
    obtain ⟨hopt, hoptions⟩ := List.forall_mem_cons.1 h
    rw [argparseLongOpt]
    split
    · exact argparseLongOpt_never hoptions
    · exact argparseGetvalue_never hopt
    · exact argparseGetvalue_never hopt
    · exact argparseLongOpt_never hoptions

theorem argparseLetters_never (h : Defined options) (hletters : t.optvalue ≠ none) :
    (argparseLetters options t).Never .undefinedBehaviour := by
  refine DoWhile.loop_inv (fun t : Argparse ArgvList => t.optvalue ≠ none) _ (fun t ht => ?_) t
    hletters
  have hshort := argparseShortOpt_never h ht
  unfold argparseLettersBody
  split
  · rename_i e he
    exact hshort.of_error he
  · split_ifs with hunknown hmore
    · exact Except.never_ok _
    · exact Option.isSome_iff_ne_none.1 hmore
    · exact Except.never_ok _

theorem afterOption_never (unknown : Bool) :
    Sum.elim (fun _ => True) (Except.Never .undefinedBehaviour) (afterOption unknown t) := by
  unfold afterOption
  split_ifs
  · exact Except.never_error Stop.noConfusion
  · trivial

theorem argparseArg_never (h : Defined options) (flags : ℕ) (arg : Bytes) :
    Sum.elim (fun _ => True) (Except.Never .undefinedBehaviour)
      (argparseArg options flags arg t) := by
  unfold argparseArg
  split
  · split_ifs
    · exact Except.never_ok _
    · trivial
  · rename_i letters _
    have hloop := @argparseLetters_never { t with optvalue := some letters } _ h
      (Option.some_ne_none _)
    split
    · rename_i e he
      exact hloop.of_error he
    · exact afterOption_never _
  · exact Except.never_ok _
  · rename_i name _
    have hlong := @argparseLongOpt_never t name _ h
    split
    · rename_i e he
      exact hlong.of_error he
    · exact afterOption_never _

theorem argparseLoop_never (h : Defined options) (flags : ℕ) :
    (argparseLoop options flags t).Never .undefinedBehaviour := by
  refine DoWhile.loop_inv (fun _ => True) _ (fun t _ => ?_) t trivial
  unfold argparseParseBody
  split_ifs with hargc
  · exact Except.never_ok _
  · split
    · rename_i hnone
      exact absurd hnone (head_ne_none (Nat.pos_of_ne_zero hargc))
    · exact argparseArg_never h flags _

/-- Nothing is read behind the end of the arguments, whatever they are and whatever the options. -/
theorem argparseParse_never {options : List ArgparseOption} (h : Defined options) (flags : ℕ)
    (values : Variables) (program : Bytes) (args : List Bytes) :
    argparseParse options flags values program args ≠ .error .undefinedBehaviour := by
  have hlist : (parseArgs options flags values args).Never .undefinedBehaviour :=
    (argparseLoop_never h flags).bind fun _ _ => Except.never_ok _
  have hagree := argparseParse_agree options flags values program args
  intro hparse
  rw [hparse] at hagree
  generalize parseArgs options flags values args = x at hagree hlist
  cases hagree
  exact hlist rfl

/-- `-s` without its value. -/
theorem argparseParse_never_missing :
    argparseParse [⟨.string, 115, none, some 0, [], none, 0, 0⟩] 0 ⟨fun _ => 0, fun _ => none⟩ []
      [[45, 115]] ≠ .error .undefinedBehaviour :=
  argparseParse_never (by simp [Defined]) 0 _ [] _

end Safety

end Erlm
