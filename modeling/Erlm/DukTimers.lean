import Erlm.Os

/-!
# `duk_timers.c`

`setTimeout` and `clearTimeout`, and what the main loop does with a timer event. The callbacks are
the properties of an object in the global stash, under the descriptors of their timers.
-/

namespace Erlm

/-- An error code of a native function. -/
def DUK_RET_ERROR : ℤ := -1

def timersEventsManager : Bytes :=
  ascii ['t', 'i', 'm', 'e', 'r', 's', 'E', 'v', 'e', 'n', 't', 's', 'M', 'a', 'n', 'a', 'g', 'e',
    'r']

def timeoutCallbacks : Bytes :=
  ascii ['t', 'i', 'm', 'e', 'o', 'u', 't', 'C', 'a', 'l', 'l', 'b', 'a', 'c', 'k', 's']

/-- The object `duk_timers_register` makes. -/
def callbacksRef : ℕ := 1

/-- An `int` as the `duk_uarridx_t` of an index property. -/
def toUarridx (n : ℤ) : ℕ := (n % 2 ^ 32).toNat

def dukTimersSetTimeout : DukM Os ℤ := do
  let arg_count ← dukGetTop
  if arg_count ≠ 2 then return DUK_RET_ERROR
  else
    dukPushGlobalStash
    dukGetPropString (-1) (some timersEventsManager)
    let events_manager ← dukGetInt (-1)
    dukPop
    let timeout ← dukGetInt (-2)
    let timer_id ← onEvents (eventsSendTimeout events_manager timeout none)
    dukGetPropString (-1) (some timeoutCallbacks)
    dukDup (-4)
    dukPutPropIndex (-2) (toUarridx timer_id)
    dukPopN 4
    dukPushInt timer_id
    return 1

def dukTimersClearTimeout : DukM Os ℤ := do
  let arg_count ← dukGetTop
  if arg_count ≠ 1 then return DUK_RET_ERROR
  else
    let timer_id ← dukGetInt (-1)
    dukPop
    dukPushGlobalStash
    dukGetPropString (-1) (some timeoutCallbacks)
    dukDelPropIndex (-1) (toUarridx timer_id)
    dukPopN 2
    return 0

/-- `duk_timers_handle_event` up to the call of the callback, if there is one to call. -/
def dukTimersBeforeCall (event : Event) : DukM Os Bool := do
  if event.type ≠ .timer then return false
  else
    dukPushGlobalStash
    dukGetPropString (-1) (some timeoutCallbacks)
    dukGetPropIndex (-1) (toUarridx event.id)
    let callback ← dukGet (-1)
    if callback.isFunction then return true
    else
      dukPopN 3
      return false

/-- `duk_timers_handle_event` from the return of the callback on. -/
def dukTimersAfterCall (event : Event) : DukM Os Unit := do
  dukPop
  dukDelPropIndex (-1) (toUarridx event.id)
  dukPopN 2

def dukTimersHandleEvent (event : Event) : DukM Os Unit := do
  let called ← dukTimersBeforeCall event
  if called then
    dukCall 0
    dukTimersAfterCall event
  else return

def setTimeoutKey : Bytes :=
  ascii ['s', 'e', 't', 'T', 'i', 'm', 'e', 'o', 'u', 't']

def clearTimeoutKey : Bytes :=
  ascii ['c', 'l', 'e', 'a', 'r', 'T', 'i', 'm', 'e', 'o', 'u', 't']

/-- `duk_timers_set_timeout` as a function of the scripts. -/
def setTimeoutFunction : JsVal := .function 2 []

/-- `duk_timers_clear_timeout` as one. -/
def clearTimeoutFunction : JsVal := .function 3 []

def dukTimersRegister (events_manager : ℤ) : DukM Os Unit := do
  dukPushGlobalStash
  dukPushInt events_manager
  dukPutPropString (-2) timersEventsManager
  modify fun c => { c with store := Function.update c.store callbacksRef [] }
  dukPush (.ref callbacksRef)
  dukPutPropString (-2) timeoutCallbacks
  dukPop
  dukPush setTimeoutFunction
  dukPutGlobalString setTimeoutKey
  dukPush clearTimeoutFunction
  dukPutGlobalString clearTimeoutKey

end Erlm
