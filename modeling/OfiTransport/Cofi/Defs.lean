import OfiTransport.Nanomsg
import OfiTransport.Lib.Machine

/-! The connecting endpoint (`cofi.c`): one embedded SOFI that is started again, after a
back-off, each time its connection ends.  A definition has the name of the function it
models, less the prefix `nn_cofi_`. -/

namespace OfiTransport

inductive Cofi.State
  | idle
  | active
  | retrying
  | stoppingBackoff
  | stopping
  deriving DecidableEq

/-- The embedded SOFI as its parent sees it: `raised` while an NN_SOFI_STOPPED that it has
raised is still to be delivered. -/
structure Cofi.Child where
  initialised : Bool
  fsm : FsmState
  raised : Bool
  deriving DecidableEq

structure Cofi where
  fsm : FsmState
  state : Cofi.State
  retry : Timer
  sofi : Cofi.Child
  epbaseStopped : Nat
  deriving DecidableEq

namespace Cofi

/-- `nn_fsm_isidle`: the machine is not idle while its STOPPED event is under way. -/
def Child.isidle (s : Child) : Bool := s.fsm = .idle ∧ s.raised = false

def Child.stop (s : Child) : Child := if s.fsm = .active then { s with fsm := .stopping } else s

/-- What `nn_sofi_init` and `nn_sofi_start_connect` return on a connection attempt. -/
structure Attempt where
  init : Int
  connect : Int
  deriving DecidableEq

inductive Input
  | start (a : Attempt)
  | stop
  | sofiStopped
  | backoff (t : TimerEvent) (a : Attempt)
  deriving DecidableEq

def startConnecting (a : Attempt) (c : Cofi) : Int × Cofi :=
  let c := { c with sofi := { c.sofi with initialised := true, fsm := .idle } }
  if a.init ≠ 0 then (a.init, c)
  else if a.connect ≠ 0 then (a.connect, c)
  else (0, { c with sofi := { c.sofi with fsm := .active } })

def reapSofi (c : Cofi) : Cofi := { c with sofi := { c.sofi with initialised := false } }

def shutdownWait (c : Cofi) : M Cofi :=
  if c.retry ≠ .idle ∨ c.sofi.isidle = false then .ok c
  else if c.state = .stopping then .ok { c with fsm := .idle, epbaseStopped := c.epbaseStopped + 1 }
  else .error .badState

def shutdownSource (c : Cofi) : Input → M Cofi
  | .sofiStopped => shutdownWait c.reapSofi
  | .backoff .stopped _ => shutdownWait c
  | .backoff .timeout _ => .error .badAction
  | .start _ | .stop => .error .badSource

def shutdown (c : Cofi) (i : Input) : M Cofi :=
  if i = .stop then
    let c := { c with state := .stopping, retry := c.retry.stop }
    if c.sofi.isidle = false then .ok { c with sofi := c.sofi.stop }
    -- with an idle SOFI the STOP action itself is judged as a source
    else shutdownSource c i
  else shutdownSource c i

def fsmStop (c : Cofi) : M Cofi :=
  if c.fsm = .active then shutdown { c with fsm := .stopping } .stop else .ok c

def criticalError (c : Cofi) : M Cofi := c.fsmStop

def handler (c : Cofi) : Input → M Cofi :=
  match c.state with
  | .idle => fun
    | .start a =>
      let (ret, c) := c.startConnecting a
      if ret ≠ 0 then c.criticalError else .ok { c with state := .active }
    | .stop => .error .badAction
    | _ => .error .badSource
  | .active => fun
    | .sofiStopped => do
      let c := { c.reapSofi with state := .retrying }
      return { c with retry := ← c.retry.start }
    | _ => .error .badSource
  | .retrying => fun
    | .backoff .timeout _ => .ok { c with state := .stoppingBackoff, retry := c.retry.stop }
    | .backoff .stopped _ => .error .badAction
    | _ => .error .badSource
  | .stoppingBackoff => fun
    | .backoff .stopped a =>
      let (ret, c) := { c with state := .active }.startConnecting a
      if ret ≠ 0 then c.criticalError else .ok c
    | .backoff .timeout _ => .error .badAction
    | _ => .error .badSource
  | .stopping => fun _ => .error .badState

def feed (c : Cofi) (i : Input) : M Cofi :=
  if c.fsm = .stopping then c.shutdown i else c.handler i

/-- `nn_cofi_create`: the machine counts as started only once the START action has been
handled, so a critical error raised in there stops nothing. -/
def create (a : Attempt) : M Cofi := do
  let c ← handler ⟨.idle, .idle, .idle, ⟨false, .idle, false⟩, 0⟩ (.start a)
  return { c with fsm := .active }

/-- What can happen to a COFI: `nn_cofi_stop` at any moment, the end of the SOFI, by itself
or after a stop, and the delivery of what the SOFI and the timer have raised. -/
inductive Event
  | userStop
  | sofiEnds
  | sofiStopped
  | backoff (t : TimerEvent) (a : Attempt)

def enabled (c : Cofi) : Event → Bool
  | .userStop => true
  | .sofiEnds => c.sofi.fsm ≠ .idle
  | .sofiStopped => c.sofi.raised
  | .backoff t _ => c.retry.owes t

def step (c : Cofi) : Event → M Cofi
  | .userStop => c.fsmStop
  | .sofiEnds => .ok { c with sofi := { c.sofi with fsm := .idle, raised := true } }
  | .sofiStopped => { c with sofi := { c.sofi with raised := false } }.feed .sofiStopped
  | .backoff t a => { c with retry := .deliver t }.feed (.backoff t a)

def machine : Lib.Machine Cofi Event Fault where
  init c := ∃ a, create a = .ok c
  enabled := enabled
  step := step

end Cofi

end OfiTransport
