import OfiTransport.Sofi.Egress
import OfiTransport.Sofi.Ingress
import OfiTransport.Lib.Machine

/-! The state machine of a connection (`sofi.c`).  A definition has the name of the function
it models, less the prefix `nn_sofi_`, and takes what the provider calls it makes are going
to return as arguments.  The handshake is compiled out and the drain timeout compiled in. -/

namespace OfiTransport

open Lib

inductive Sofi.State
  | idle
  | connecting
  | active
  | closing
  deriving DecidableEq

/-- The values of `socket_state`, of which the first two are stored as the constants
NN_SOFI_STATE_IDLE and NN_SOFI_STATE_CONNECTING. -/
inductive Sofi.SocketState
  | idle
  | connecting
  | connected
  | closing
  | draining
  | closed
  deriving DecidableEq

/-- A SOFI.  The last four fields belong to nanomsg and the fabric: how often
`nn_pipebase_sent` and `nn_fsm_stopped` were called, the auxiliary packets posted without
FI_COMPLETION, and whether the endpoint is open. -/
structure Sofi where
  fsm : FsmState
  state : Sofi.State
  socketState : Sofi.SocketState
  error : Int
  timerShutdown : Timer
  timerKeepalive : Timer
  ticksIn : Nat
  ticksOut : Nat
  staged : Bool
  outActive : Bool
  outmsg : Msg
  egress : Egress
  ingress : Ingress
  sents : Nat
  stoppeds : Nat
  auxOut : Nat
  epOpen : Bool

namespace Sofi

/-- The type of an EQ event: FI_CONNECTED, FI_SHUTDOWN, or negative for an error. -/
def FI_CONNECTED : Int := 2

def FI_SHUTDOWN : Int := 3

/-- What a TX CQ entry points to: an egress context or the auxiliary one. -/
inductive OpContext
  | ctx (c : Nat)
  | aux
  deriving DecidableEq

inductive Input
  | start
  | stop
  | eq (type : Int) (recvmsg : Int) (p : Post)
  | txCompleted (c : Nat)
  | txError (op : OpContext) (err : Int)
  | rxCompleted (b len : Nat) (late recvmsg : Int)
  | rxError (err : Int)
  | keepalive (t : TimerEvent) (aux : Int)
  | shutdownTimer (t : TimerEvent)

def pipebaseSent (s : Sofi) : Sofi := { s with sents := s.sents + 1 }

def egressHandle (s : Sofi) (c : Nat) : M Sofi := do
  let s := { s with ticksOut := 0 }
  let (notify, e) ← s.egress.handle c
  let s := { s with egress := e }
  if notify then return s.pipebaseSent else return s

/-- `nn_sofi_egress_handle_error`, which takes any entry for that of an egress context. -/
def egressHandleError (s : Sofi) : OpContext → M Sofi
  | .aux => .error .wildContext
  | .ctx c => do return { s with egress := ← s.egress.handleError c }

def egressSend (p : Post) (s : Sofi) : M (Int × Sofi) := do
  nnAssert s.outActive
  nnAssert s.staged
  let (ret, e) ← s.egress.postBuffers p s.outmsg
  let s := { s with egress := e }
  if ret ≠ 0 then return (ret, s)
  else
    let (old, e) := s.egress.atomicDec
    let s := { s with staged := false, egress := e }
    if 1 < old then return (0, s.pipebaseSent) else return (0, s)

def egressPostAux (aux : Int) (s : Sofi) : Int × Sofi :=
  if aux ≠ 0 then (aux, s)
  else (0, { s with
    auxOut := s.auxOut + 1
    egress := { s.egress with wire := keepalivePacket :: s.egress.wire } })

def ingressHandle (late : Int) (s : Sofi) (b len : Nat) : Sofi :=
  { s with ticksIn := 0, ingress := s.ingress.handle late b len }

/-- The STOP action: close, and discard what is under way. -/
def shutdownStop (s : Sofi) : M Sofi := do
  let s := { s with state := .closing, timerKeepalive := s.timerKeepalive.stop }
  let s := { s with ingress := ← s.ingress.flush }
  -- the state was set above, so the first half of this test never holds
  if s.state = .connecting ∨ s.error ≠ 0 then return { s with egress := ← s.egress.flush }
  else return s

def shutdownTx (s : Sofi) : Input → M Sofi
  | .txCompleted c => if s.error = 0 then s.egressHandle c else .ok s
  | .txError op _ => if s.error = 0 then s.egressHandleError op else .ok s
  | _ => .error .badAction

def shutdownEq (s : Sofi) (type : Int) : M Sofi :=
  if type = FI_SHUTDOWN then
    .ok { s with socketState := .closed, timerShutdown := s.timerShutdown.stop }
  else if 0 < type then .error .badAction
  else .ok s

/-- The end of `nn_sofi_shutdown`, which waits until everything has come to rest. -/
def shutdownWait (s : Sofi) : M Sofi :=
  if s.egress.empty = false ∨ s.ingress.empty = false ∨ s.timerKeepalive ≠ .idle ∨
      s.timerShutdown ≠ .idle then .ok s
  else
    let close (s : Sofi) : M Sofi :=
      .ok { s with epOpen := false, fsm := .idle, stoppeds := s.stoppeds + 1 }
    match s.socketState with
    | .connected => do
      let s := { s with socketState := .draining }
      return { s with timerShutdown := ← s.timerShutdown.start }
    | .connecting => close { s with socketState := .closed }
    | .closed => close s
    | _ => .error .badSource

def shutdown (s : Sofi) : Input → M Sofi
  | .stop => do (← s.shutdownStop).shutdownWait
  | .txCompleted c => do (← s.shutdownTx (.txCompleted c)).shutdownWait
  | .txError op err => do (← s.shutdownTx (.txError op err)).shutdownWait
  | .rxCompleted .. => s.shutdownWait
  | .rxError _ => s.shutdownWait
  | .eq type _ _ => do (← s.shutdownEq type).shutdownWait
  | .keepalive .timeout _ => .error .badAction
  | .keepalive .stopped _ => s.shutdownWait
  | .shutdownTimer .timeout =>
    if s.socketState = .closing ∨ s.socketState = .draining then
      .ok { s with timerShutdown := s.timerShutdown.stop }
    else .ok s
  | .shutdownTimer .stopped =>
    match s.socketState with
    | .draining => do
      let s := { s with socketState := .closing }
      return { s with timerShutdown := ← s.timerShutdown.start }
    | .closing => shutdownWait { s with socketState := .closed }
    | .closed => s.shutdownWait
    | _ => .error .badState
  | .start => .error .badSource

def fsmStop (s : Sofi) : M Sofi :=
  if s.fsm = .active then shutdown { s with fsm := .stopping } .stop else .ok s

def criticalError (s : Sofi) (error : Int) : M Sofi := fsmStop { s with error := error }

def egressStage (p : Post) (s : Sofi) (msg : Msg) : M Sofi := do
  nnAssert (s.staged = false)
  if s.state = .closing then return s
  else
    let s := { s with outmsg := msg, staged := true }
    if s.outActive then
      let (ret, s) ← s.egressSend p
      if ret ≠ 0 then s.criticalError ret else return s
    else return s

def connected (recvmsg : Int) (p : Post) (s : Sofi) : M Sofi := do
  let s := { s with state := .active, socketState := .connected, outActive := true }
  let s := { s with timerKeepalive := ← s.timerKeepalive.start }
  let (ret, i) := s.ingress.post recvmsg
  let s := { s with ingress := i }
  if ret ≠ 0 then s.criticalError ret
  else if s.staged then
    let (ret, s) ← s.egressSend p
    if ret ≠ 0 then s.criticalError ret else return s
  else return s

/-- An RX completion in ACTIVE state: handle it and post the next buffer if possible. -/
def rxCompleted (s : Sofi) (b len : Nat) (late recvmsg : Int) : Sofi :=
  let s := s.ingressHandle late b len
  let (ret, i) := s.ingress.post recvmsg
  if ret = -EAGAIN then { s with ingress := { i with postlater := true } }
  else { s with ingress := i }

def keepaliveTimeout (aux : Int) (s : Sofi) : M Sofi :=
  let s := { s with ticksIn := (s.ticksIn + 1) % 256 }
  if 4 < s.ticksIn then
    criticalError { s with ticksIn := 0, timerKeepalive := s.timerKeepalive.stop } (-ETIMEDOUT)
  else
    let s := { s with ticksOut := (s.ticksOut + 1) % 256 }
    if 2 < s.ticksOut then
      let (ret, s) := egressPostAux aux { s with ticksOut := 0 }
      if ret ≠ 0 then s.criticalError ret
      else .ok { s with timerKeepalive := s.timerKeepalive.stop }
    else .ok { s with timerKeepalive := s.timerKeepalive.stop }

def handlerConnecting (s : Sofi) : Input → M Sofi
  | .eq type recvmsg p =>
    if type = FI_CONNECTED then s.connected recvmsg p
    else if type < 0 then s.criticalError type
    else .error .badAction
  | _ => .error .badSource

def handlerActive (s : Sofi) : Input → M Sofi
  | .eq type _ _ =>
    if type = FI_SHUTDOWN then criticalError { s with socketState := .closed } (-EINTR)
    else if type < 0 then s.criticalError type
    else .error .badAction
  | .rxCompleted b len late recvmsg => .ok (s.rxCompleted b len late recvmsg)
  | .rxError err => s.criticalError (-err)
  | .txCompleted c => s.egressHandle c
  | .txError op err => do (← s.egressHandleError op).criticalError (-err)
  | .keepalive .timeout aux => s.keepaliveTimeout aux
  | .keepalive .stopped _ => do return { s with timerKeepalive := ← s.timerKeepalive.start }
  | _ => .error .badSource

def handler (s : Sofi) (i : Input) : M Sofi :=
  match s.state, i with
  | .idle, .start => .ok { s with state := .connecting }
  | .idle, .stop => .error .badAction
  | .idle, _ => .error .badSource
  | .connecting, i => s.handlerConnecting i
  | .active, i => s.handlerActive i
  | .closing, _ => .error .badState

theorem handler_connecting {s : Sofi} (h : s.state = .connecting) (i : Input) :
    s.handler i = s.handlerConnecting i := by simp [handler, h]

theorem handler_active {s : Sofi} (h : s.state = .active) (i : Input) :
    s.handler i = s.handlerActive i := by simp [handler, h]

def feed (s : Sofi) (i : Input) : M Sofi :=
  if s.fsm = .stopping then s.shutdown i else s.handler i

end Sofi

end OfiTransport
