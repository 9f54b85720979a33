import Mathlib.Algebra.Ring.Int.Defs
import Mathlib.Algebra.Ring.Nat

/-! The parts of nanomsg that the transport leans on: state machines, timers and the
ways in which the process goes down. -/

namespace OfiTransport

/-- Why a run ends.  The first three are the aborts `nn_fsm_bad_action`,
`nn_fsm_bad_source` and `nn_fsm_bad_state`. -/
inductive Fault
  | badAction
  | badSource
  | badState
  | assertFailed
  | nullDeref
  | outOfBounds
  | useAfterFree
  | freedInfo
  | eraseNotInList
  | wildContext
  | endlessLoop
  deriving DecidableEq

abbrev M := Except Fault

def Fault.isAbort : Fault → Bool
  | .badAction | .badSource | .badState => true
  | _ => false

def Aborts (r : M α) : Prop := ∃ f : Fault, r = .error f ∧ f.isAbort = true

@[simp] theorem not_aborts_ok (a : α) : ¬ Aborts (.ok a : M α) := by
  rintro ⟨f, h, _⟩
  cases h

@[simp] theorem aborts_error (f : Fault) : Aborts (.error f : M α) ↔ f.isAbort = true := by
  constructor
  · rintro ⟨g, h, hg⟩
    cases h
    exact hg
  · intro h
    exact ⟨f, rfl, h⟩

def nnAssert (p : Prop) [Decidable p] : M Unit := if p then .ok () else .error .assertFailed

theorem bind_eq_ok {x : M α} {f : α → M β} {b : β} :
    x >>= f = .ok b ↔ ∃ a, x = .ok a ∧ f a = .ok b := by
  cases x with
  | error e => simp [bind, Except.bind]
  | ok a => simp [bind, Except.bind]

@[simp] theorem pure_eq_ok {a b : α} : (pure a : M α) = .ok b ↔ a = b := by
  simp [pure, Except.pure]

@[simp] theorem nnAssert_eq_ok {p : Prop} [Decidable p] {u : Unit} : nnAssert p = .ok u ↔ p := by
  simp [nnAssert]

/-- The states of an `nn_fsm`.  It is idle before `nn_fsm_start` and after
`nn_fsm_stopped`, and events go to the shutdown function while it is stopping. -/
inductive FsmState
  | idle
  | active
  | stopping
  deriving DecidableEq

/-- An `nn_timer`.  Nanomsg raises STOPPED and makes the timer idle in one visit to the
context of its owner, so here the timer is idle once STOPPED has been delivered. -/
inductive Timer
  | idle
  | armed
  | expired
  | stopping
  deriving DecidableEq

inductive TimerEvent
  | timeout
  | stopped
  deriving DecidableEq

namespace Timer

def start : Timer → M Timer
  | .idle => .ok .armed
  | _ => .error .assertFailed

/-- Stopping takes effect on a started timer only, and then STOPPED will follow. -/
def stop : Timer → Timer
  | .idle => .idle
  | _ => .stopping

def owes : Timer → TimerEvent → Bool
  | .armed, .timeout => true
  | .stopping, .stopped => true
  | _, _ => false

/-- The timer as the owner finds it when the event is delivered. -/
def deliver : TimerEvent → Timer
  | .timeout => .expired
  | .stopped => .idle

def quiet : Timer → Bool
  | .idle | .expired => true
  | .armed | .stopping => false

@[simp] theorem start_eq_ok {t t' : Timer} : t.start = .ok t' ↔ t = .idle ∧ t' = .armed := by
  cases t <;> simp [start, eq_comm]

@[simp] theorem owes_timeout {t : Timer} : t.owes .timeout = true ↔ t = .armed := by
  cases t <;> simp [owes]

@[simp] theorem owes_stopped {t : Timer} : t.owes .stopped = true ↔ t = .stopping := by
  cases t <;> simp [owes]

end Timer

/-! Error numbers, and the conversions between the C integer types. -/

def EINTR : Int := 4
def E2BIG : Int := 7
def EAGAIN : Int := 11
def ENOMEM : Int := 12
def EBUSY : Int := 16
def EINVAL : Int := 22
def EFBIG : Int := 27
def ENODATA : Int := 61
def ETIMEDOUT : Int := 110

def toInt32 (n : Int) : Int := n.bmod (2 ^ 32)

def toUInt32 (n : Int) : Nat := (n % 2 ^ 32).toNat

def toUInt64 (n : Int) : Nat := (n % 2 ^ 64).toNat

end OfiTransport
