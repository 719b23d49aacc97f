import Erlm.DukUtil

/-!
# `duk_elm.c`

The ports of an Elm worker are the properties of its `ports`: input ports have `send`, and output
ports `subscribe` and `unsubscribe`. The worker itself is what the first export of the script gives
when its `worker` is called.
-/

namespace Erlm

def portsKey : Bytes := ascii ['p', 'o', 'r', 't', 's']

def sendKey : Bytes := ascii ['s', 'e', 'n', 'd']

def subscribeKey : Bytes := ascii ['s', 'u', 'b', 's', 'c', 'r', 'i', 'b', 'e']

def unsubscribeKey : Bytes := ascii ['u', 'n', 's', 'u', 'b', 's', 'c', 'r', 'i', 'b', 'e']

def workerKey : Bytes := ascii ['w', 'o', 'r', 'k', 'e', 'r']

variable {ω : Type}

section Ports

variable (inherits : JsVal → Bytes → Bool)

def dukElmIsInputPort : DukM ω Bool := do
  let port ← dukGet (-1)
  if port.isObject then dukHasPropString inherits (-1) sendKey else return false

def dukElmIsOutputPort : DukM ω Bool := do
  let port ← dukGet (-1)
  if port.isObject then
    if ← dukHasPropString inherits (-1) subscribeKey then
      dukHasPropString inherits (-1) unsubscribeKey
    else return false
  else return false

/-- A round of the loop of `duk_elm_get_input_ports`, `ports` being the names so far. -/
def inputPortsRound (port_count : ℤ) (ports : List (Option Bytes)) :
    DukM ω (List (Option Bytes) ⊕ List (Option Bytes)) := do
  if port_count ≤ ports.length then
    dukPopN 2
    return .inr ports
  else if ← dukElmIsInputPort inherits then
    let port ← dukToString (-2)
    dukPopN 2
    return .inl (ports ++ [port])
  else
    dukPopN 2
    return .inl ports

/-- A round of the loop of `duk_elm_get_output_ports`, which breaks without a pop. -/
def outputPortsRound (port_count : ℤ) (ports : List (Option Bytes)) :
    DukM ω (List (Option Bytes) ⊕ List (Option Bytes)) := do
  if port_count ≤ ports.length then return .inr ports
  else if ← dukElmIsOutputPort inherits then
    let port ← dukToString (-2)
    dukPopN 2
    return .inl (ports ++ [port])
  else
    dukPopN 2
    return .inl ports

/-- What the two listings share: the number of ports, or -1, and their names. -/
def dukElmGetPorts (round : List (Option Bytes) →
    DukM ω (List (Option Bytes) ⊕ List (Option Bytes))) : DukM ω (ℤ × List (Option Bytes)) := do
  let worker ← dukGet (-1)
  if worker.isObject then
    dukGetPropString (-1) (some portsKey)
    let ports ← dukGet (-1)
    if ports.isObject then
      dukEnum (-1) .ownPropertiesOnly
      let names ← whileNextBreak (-1) round []
      dukPopN 2
      return (names.length, names)
    else return (-1, [])
  else return (-1, [])

def dukElmGetInputPorts (port_count : ℤ) : DukM ω (ℤ × List (Option Bytes)) :=
  dukElmGetPorts (inputPortsRound inherits port_count)

def dukElmGetOutputPorts (port_count : ℤ) : DukM ω (ℤ × List (Option Bytes)) :=
  dukElmGetPorts (outputPortsRound inherits port_count)

end Ports

def dukElmPevalFile (files : Bytes → Option File) (page : ℕ) (filepath : Bytes) : DukM ω ℤ := do
  let result ← dukUtilPevalCommonjsFile files page filepath
  if result ≠ 0 then return result
  else
    dukUtilPutFirstPropName
    dukGetPropTop (-2)
    dukPushString (some workerKey)
    let result ← dukPcallProp (-2) 0
    dukInsert (-3)
    dukPop
    dukPop
    return result

end Erlm
