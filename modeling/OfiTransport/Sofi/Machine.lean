import OfiTransport.Sofi.Init

/-! The runs of one SOFI: what the fabric, the timers and nanomsg may do to it, and when.
An RX completion writes its bytes to the buffer before the SOFI hears of it. -/

namespace OfiTransport

open Lib

namespace Sofi

inductive Event
  | eq (type : Int) (recvmsg : Int) (p : Post)
  | txCompleted (c : Nat)
  | txError (op : OpContext) (err : Int)
  | rxCompleted (b : Nat) (bytes : List UInt8) (late recvmsg : Int)
  | rxError (b : Nat) (err : Int)
  | keepalive (t : TimerEvent) (aux : Int)
  | shutdownTimer (t : TimerEvent)
  | send (msg : Msg) (p : Post)
  | recv (late : Int)
  | stop
  | free (m : Held)

def arrive (i : Ingress) (b : Nat) (bytes : List UInt8) : Ingress :=
  let c := i.chunk b
  { i with
    posted := i.posted.erase b
    chunk := Function.update i.chunk b { c with data := bytes ++ c.data.drop bytes.length } }

/-- `nn_msg_term` on a message that nanomsg holds. -/
def freeMessage (i : Ingress) (m : Held) : Ingress :=
  let c := i.chunk m.buf
  { i with
    held := i.held.erase m
    chunk := Function.update i.chunk m.buf { c with refs := c.refs - 1 } }

def send (p : Post) (s : Sofi) (msg : Msg) : M Sofi := egressStage p { s with ticksOut := 0 } msg

/-- `nn_sofi_recv`, which answers one notification.  Nanomsg aborts on an error. -/
def recv (late : Int) (s : Sofi) : M Sofi := do
  let (ret, i) ← Ingress.fetch late { s.ingress with received := s.ingress.received - 1 }
  nnAssert (ret = 0)
  return { s with ingress := i }

def removeTx (s : Sofi) (c : Nat) : Sofi :=
  { s with egress := { s.egress with txOut := s.egress.txOut.erase c } }

/-- Events come to a SOFI that is not idle, and only when they are due: completions of what
was posted, the events the timers owe, and reads that were asked for. -/
def enabled (s : Sofi) : Event → Bool
  | .eq .. => s.fsm ≠ .idle
  | .txCompleted c => s.fsm ≠ .idle ∧ c ∈ s.egress.txOut
  | .txError (.ctx c) _ => s.fsm ≠ .idle ∧ c ∈ s.egress.txOut
  | .txError .aux _ => s.fsm ≠ .idle ∧ 0 < s.auxOut
  | .rxCompleted b bytes _ _ =>
    s.fsm ≠ .idle ∧ b ∈ s.ingress.posted ∧ bytes.length ≤ s.ingress.bufSize
  | .rxError b _ => s.fsm ≠ .idle ∧ b ∈ s.ingress.posted
  | .keepalive t _ => s.fsm ≠ .idle ∧ s.timerKeepalive.owes t = true
  | .shutdownTimer t => s.fsm ≠ .idle ∧ s.timerShutdown.owes t = true
  | .send .. => s.fsm ≠ .idle
  | .recv _ => s.fsm ≠ .idle ∧ 0 < s.ingress.received
  | .stop => true
  | .free m => m ∈ s.ingress.held

def step (s : Sofi) : Event → M Sofi
  | .eq type recvmsg p => s.feed (.eq type recvmsg p)
  | .txCompleted c => (s.removeTx c).feed (.txCompleted c)
  | .txError (.ctx c) err => (s.removeTx c).feed (.txError (.ctx c) err)
  | .txError .aux err => { s with auxOut := s.auxOut - 1 }.feed (.txError .aux err)
  | .rxCompleted b bytes late recvmsg =>
    { s with ingress := arrive s.ingress b bytes }.feed (.rxCompleted b bytes.length late recvmsg)
  | .rxError b err =>
    { s with ingress := { s.ingress with posted := s.ingress.posted.erase b } }.feed (.rxError err)
  | .keepalive t aux => { s with timerKeepalive := .deliver t }.feed (.keepalive t aux)
  | .shutdownTimer t => { s with timerShutdown := .deliver t }.feed (.shutdownTimer t)
  | .send msg p => s.send p msg
  | .recv late => s.recv late
  | .stop => s.fsmStop
  | .free m => .ok { s with ingress := freeMessage s.ingress m }

/-- Runs begin with a SOFI that was built and has started to connect or accept. -/
def machine : Machine Sofi Event Fault where
  init s := ∃ u s₀, init u = .ok (0, some s₀) ∧ start 0 0 s₀ = .ok (0, s)
  enabled := enabled
  step := step

def Setup.started (u : Setup) : Sofi :=
  { u.sofi (linked u.rxQueue.toNat u.rxQueue.toNat) (linked u.rxQueue.toNat u.rxQueue.toNat) with
    fsm := .active
    state := .connecting
    socketState := .connecting
    epOpen := true }

theorem machine_init {s : Sofi} (h : machine.init s) :
    ∃ u : Setup, 1 ≤ u.rxQueue ∧ u.rxQueue ≤ u.txQueue ∧ s = u.started := by
  obtain ⟨u, s₀, hi, hs⟩ := h
  obtain ⟨h₁, h₂, rfl⟩ := init_inv hi
  cases hs
  exact ⟨u, h₁, h₂, rfl⟩

theorem Setup.started_init {u : Setup} (h₁ : 1 ≤ u.rxQueue) (h₂ : u.rxQueue ≤ u.txQueue)
    (h₃ : u.firstFailure u.rxQueue.toNat = 0) : machine.init u.started := by
  have hi := init_eq h₁ h₂
  rw [if_neg (by simpa using h₃)] at hi
  exact ⟨u, _, hi, rfl⟩

def fresh : Sofi := (Setup.easy .default).started

theorem fresh_init : machine.init fresh :=
  Setup.started_init (by decide) (by decide) (by decide)

def online : Sofi :=
  match fresh.step (.eq FI_CONNECTED 0 .easy) with
  | .ok s => s
  | .error _ => fresh

theorem online_run : machine.Run [(fresh, .eq FI_CONNECTED 0 .easy)] online :=
  .step (.init fresh_init) rfl rfl

/-- Three messages come in, of which nanomsg reads two and frees one, and it sends two, of which
one has been completed. -/
def exchange : List Event :=
  [.eq FI_CONNECTED 0 .easy, .rxCompleted 0 [1] 0 0, .recv 0, .free ⟨0, [1]⟩,
   .send ⟨⟨0, 0⟩, ⟨0x20000, 8⟩⟩ .easy, .txCompleted 0, .rxCompleted 1 [2] 0 0,
   .rxCompleted 0 [3] 0 0, .recv 0, .send ⟨⟨0x20000, 2⟩, ⟨0x20000, 8⟩⟩ .easy]

/-- The same, and then the SOFI is stopped, with a message unread and another in flight. -/
def farewell : List Event :=
  exchange ++ [.stop, .keepalive .stopped 0, .recv 0, .txCompleted 0, .shutdownTimer .timeout,
    .shutdownTimer .stopped, .shutdownTimer .timeout, .shutdownTimer .stopped]

end Sofi

end OfiTransport
