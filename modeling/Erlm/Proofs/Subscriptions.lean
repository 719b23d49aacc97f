import Erlm.Main
import Erlm.Proofs.Ports

/-!
# Subscribing to the output ports

`erlm_subscribe_all_output_ports` lists the names of the output ports and looks each up again. With
at most 128 ports the list is complete, and each port's `subscribe` is called once with a handler
that knows the port's name (`subscribesOnce`).
-/

namespace Erlm

variable {ω : Type} {c : Ctx ω} {st : List JsVal} {inherits : JsVal → Bytes → Bool}
  {worker ports : JsVal}

section Properties

theorem dukPutPropString_function {key : Bytes} (hkey : 0 ∉ key) (v : JsVal) (f : ℕ) (ps : Props) :
    dukPutPropString (-2) key (c.withStack (v :: .function f ps :: st))
      = .ok () (c.withStack (.function f (Assoc.put ps key v) :: st)) := by
  rw [dukPutPropString, bind_ok (get_run _), dukPutProp, cString_of_notMem hkey,
    bind_ok (dukRequireSlot_ok (Ctx.slot_neg_two _ _ _ _)), bind_ok (dukGet_run _ _),
    bind_ok (get_run _)]
  simp only [Ctx.get_neg_one, Ctx.get_neg_two]
  rw [bind_ok (modify_run _ _)]
  exact dukPop_ok v

/-- An own property that is enumerated is the one that is looked up. An array's indices are left
out: their keys are no strings of the object's. -/
theorem lookup_of_mem_ownProps {store : Store} (harray : ports.isArray = false)
    (hkeys : ((ports.ownProps store).map Prod.fst).Nodup) {p : Bytes × JsVal}
    (hp : p ∈ ports.ownProps store) (builtin : JsVal → Bytes → JsVal) :
    ports.lookup store builtin p.1 = p.2 := by
  have hget : Assoc.get? (ports.ownProps store) p.1 = some p.2 := Assoc.get?_of_mem hkeys hp
  cases ports with
  | array => cases harray
  | object ps | function f ps | ref r =>
    simp only [JsVal.ownProps] at hget
    simp [JsVal.lookup, JsVal.own, hget]
  | _ => cases hp

end Properties

section Subscribe

/-- The handler of the port with a name. -/
def handlerOf (name : Bytes) : JsVal := outputPortHandler [(portName, .string name)]

def Ctx.subscribeOf (c : Ctx ω) (port : JsVal) : JsVal :=
  port.lookup c.store c.engine.inherited subscribeKey

/-- What a port's `subscribe` leaves behind when it is called with the port's handler. -/
def Ctx.subscribed (c : Ctx ω) (p : Bytes × JsVal) : Ctx ω :=
  c.afterCall (c.subscribeOf p.2) [handlerOf p.1]

/-- The calls of the `subscribe` of some ports in turn. -/
def subscriptions : Ctx ω → Props → List (JsVal × List JsVal)
  | _, [] => []
  | c, p :: ps => (c.subscribeOf p.2, [handlerOf p.1]) :: subscriptions (c.subscribed p) ps

/-- In turn, the `subscribe` of each port returns normally and leaves the object of the ports as it
is. -/
def Returns (ports : JsVal) : Ctx ω → Props → Prop
  | _, [] => True
  | c, p :: ps => (∃ v, c.outcome (c.subscribeOf p.2) [handlerOf p.1] = .ok v)
    ∧ ports.ownProps (c.subscribed p).store = ports.ownProps c.store
    ∧ Returns ports (c.subscribed p) ps

theorem subscribeRound_ok {p : Bytes × JsVal} (hlookup : c.prop ports p.1 = some p.2)
    (hname : 0 ∉ p.1) (hport : p.2.isObject = true) {v : JsVal}
    (hcall : c.outcome (c.subscribeOf p.2) [handlerOf p.1] = .ok v)
    (hroom : st.length + 5 ≤ c.reserve) :
    subscribeRound (some p.1) (c.withStack (ports :: st))
      = .ok () ((c.subscribed p).withStack (ports :: st)) := by
  have hsubscribe : dukGetPropString (-1) (some subscribeKey) (c.withStack (p.2 :: ports :: st))
      = .ok () (c.withStack (c.subscribeOf p.2 :: p.2 :: ports :: st)) :=
    dukGetPropString_isObject hport (by decide) (by simp only [List.length_cons]; omega)
  have hreturn : dukCall 1 (c.withStack (handlerOf p.1 :: c.subscribeOf p.2 :: p.2 :: ports :: st))
      = .ok () ((c.subscribed p).withStack (v :: p.2 :: ports :: st)) :=
    dukCall_ok [handlerOf p.1] hcall _
  rw [subscribeRound,
    bind_ok (dukGetPropString_ok (by rwa [cString_of_notMem hname]) (by omega)),
    bind_ok hsubscribe,
    bind_ok (dukPush_ok (by simp only [List.length_cons]; omega) _), dukPushString,
    cString_of_notMem hname, bind_ok (dukPush_ok (by simp only [List.length_cons]; omega) _),
    outputPortHandler, bind_ok (dukPutPropString_function (by decide) _ _ _)]
  exact (bind_ok hreturn).trans (dukPop2_ok _ _)

end Subscribe

section All

theorem subscribeRounds_ok (st : List JsVal) (hports : ports.isObject = true)
    (harray : ports.isArray = false) :
    ∀ (ps : Props) (c : Ctx ω),
      (∀ p ∈ ps, p ∈ ports.ownProps c.store ∧ 0 ∉ p.1 ∧ p.2.isObject = true) →
      ((ports.ownProps c.store).map Prod.fst).Nodup → Returns ports c ps →
      st.length + 5 ≤ c.reserve →
      (ps.map fun p => some p.1).forM subscribeRound (c.withStack (ports :: st))
        = .ok () ((ps.foldl Ctx.subscribed c).withStack (ports :: st))
  | [], _, _, _, _, _ => rfl
  | p :: ps, c, hps, hkeys, hreturns, hroom => by
    obtain ⟨⟨v, hcall⟩, hsame, hreturns⟩ := hreturns
    obtain ⟨hp, hname, hport⟩ := hps p List.mem_cons_self
    have hlookup : c.prop ports p.1 = some p.2 := by
      rw [Ctx.prop_of_isObject hports, lookup_of_mem_ownProps harray hkeys hp]
    have ih := subscribeRounds_ok st hports harray ps (c.subscribed p)
      (fun q hq => hsame.symm ▸ hps q (List.mem_cons_of_mem _ hq)) (hsame.symm ▸ hkeys) hreturns
      (by rw [Ctx.subscribed, Ctx.afterCall_reserve]; exact hroom)
    exact (bind_ok (subscribeRound_ok hlookup hname hport hcall hroom)).trans ih

theorem calls_subscribed :
    ∀ (ps : Props) (c : Ctx ω), Returns ports c ps →
      (ps.foldl Ctx.subscribed c).calls = c.calls ++ subscriptions c ps
  | [], c, _ => (List.append_nil _).symm
  | p :: ps, c, hreturns => by
    obtain ⟨⟨v, hcall⟩, -, hreturns⟩ := hreturns
    rw [List.foldl_cons, calls_subscribed ps _ hreturns, Ctx.subscribed, Ctx.afterCall_calls hcall,
      List.append_assoc]
    rfl

/-- A worker of Elm and the properties of its `ports`. They are an object, which keeps the names
the listing points to, and not an array, which keeps no strings for its indices. -/
structure ElmWorker (c : Ctx ω) (worker : JsVal) (ps : Props) : Prop where
  isObject : worker.isObject = true
  ports : (c.portsOf worker).isObject = true
  notArray : (c.portsOf worker).isArray = false
  props : (c.portsOf worker).ownProps c.store = ps
  few : ps.length ≤ 128
  keys : (ps.map Prod.fst).Nodup
  names : ∀ p ∈ ps, 0 ∉ p.1

/-- The output ports among some properties. -/
def outputPorts (inherits : JsVal → Bytes → Bool) (store : Store) (ps : Props) : Props :=
  ps.filter fun p => p.2.isOutputPort store inherits

theorem fits_of_few {isPort : JsVal → Bool} {ps : Props} (h : ps.length ≤ 128) :
    Fits isPort MAX_PORT_COUNT ps 0 := by
  rcases Nat.eq_zero_or_pos ps.length with h0 | hpos
  · exact Or.inl (List.eq_nil_of_length_eq_zero h0)
  · have hcount := List.countP_le_length (p := fun p => isPort p.2) (l := ps.dropLast)
    rw [List.length_dropLast] at hcount
    refine Or.inr ?_
    rw [MAX_PORT_COUNT]
    omega

theorem portNames_of_names {isPort : JsVal → Bool} {ps : Props} (h : ∀ p ∈ ps, 0 ∉ p.1) :
    portNames isPort ps = (ps.filter fun p => isPort p.2).map fun p => some p.1 := by
  refine List.map_congr_left fun p hp => ?_
  rw [cString_of_notMem (h p (List.mem_filter.1 hp).1)]

/-- The `subscribe` of each output port is called in turn, with the port's handler, and nothing
else is called. -/
theorem subscribesOnce {ps : Props} (hworker : ElmWorker c worker ps)
    (hreturns : Returns (c.portsOf worker) c (outputPorts inherits c.store ps))
    (hroom : st.length + 6 ≤ c.reserve) :
    erlmSubscribeAllOutputPorts inherits (c.withStack (worker :: st))
        = .ok () (((outputPorts inherits c.store ps).foldl Ctx.subscribed c).withStack
          (worker :: st))
      ∧ ((outputPorts inherits c.store ps).foldl Ctx.subscribed c).calls
        = c.calls ++ subscriptions c (outputPorts inherits c.store ps) := by
  obtain ⟨hobj, hports, harray, rfl, hfew, hkeys, hnames⟩ := hworker
  refine ⟨?_, calls_subscribed _ c hreturns⟩
  have hlist := dukElmGetPorts_fits st (@outputPortsRound_lists _ inherits c MAX_PORT_COUNT) hobj
    hports (fits_of_few hfew) (by omega)
  rw [portNames_of_names hnames] at hlist
  have hget : dukGetPropString (-1) (some portsKey) (c.withStack (worker :: st))
      = .ok () (c.withStack (c.portsOf worker :: worker :: st)) :=
    dukGetPropString_isObject hobj (by decide) (by omega)
  have hrounds := subscribeRounds_ok (worker :: st) hports harray
    (outputPorts inherits c.store ((c.portsOf worker).ownProps c.store)) c (fun p hp => by
      obtain ⟨hp, hport⟩ := List.mem_filter.1 hp
      simp only [JsVal.isOutputPort, Bool.and_eq_true] at hport
      exact ⟨hp, hnames p hp, hport.1.1⟩) hkeys hreturns
      (by simp only [List.length_cons]; omega)
  rw [erlmSubscribeAllOutputPorts, dukElmGetOutputPorts, bind_ok hlist]
  simp only [Int.toNat_natCast, List.take_length]
  rw [bind_ok hget]
  exact (bind_ok hrounds).trans (dukPop_ok _)

theorem elmWorker_two : ElmWorker (Ctx.idle 64 ()) twoPorts twoPortProps where
  isObject := rfl
  ports := rfl
  notArray := rfl
  props := rfl
  few := by decide
  keys := by decide
  names := by decide

theorem subscribesOnce_two :
    erlmSubscribeAllOutputPorts (fun _ _ => false) ((Ctx.idle 64 ()).withStack [twoPorts])
        = .ok () (((outputPorts (fun _ _ => false) (Ctx.idle 64 ()).store twoPortProps).foldl
          Ctx.subscribed (Ctx.idle 64 ())).withStack [twoPorts])
      ∧ ((outputPorts (fun _ _ => false) (Ctx.idle 64 ()).store twoPortProps).foldl Ctx.subscribed
          (Ctx.idle 64 ())).calls
        = (Ctx.idle 64 ()).calls
          ++ subscriptions (Ctx.idle 64 ())
            (outputPorts (fun _ _ => false) (Ctx.idle 64 ()).store twoPortProps) :=
  subscribesOnce elmWorker_two ⟨⟨.null, rfl⟩, rfl, trivial⟩ (by decide)

end All

end Erlm
