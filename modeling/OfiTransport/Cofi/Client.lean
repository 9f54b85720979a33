import OfiTransport.Cofi.Laws
import OfiTransport.Lib.Simulation
import OfiTransport.Sofi.Owned

/-! The connecting endpoint together with the SOFI that it embeds, of which `Cofi` knows only
whether it has stopped.  The functions are those of `cofi.c` again. -/

namespace OfiTransport

open Lib

namespace Cofi

theorem Phase.step_told {c c' : Cofi} {e : Event} (h : Phase c)
    (hn : c.epbaseStopped = if c.fsm = .idle then 1 else 0) (he : c.enabled e = true)
    (hs : c.step e = .ok c') : c'.epbaseStopped = if c'.fsm = .idle then 1 else 0 := by
  cases e with
  | userStop =>
    cases h <;> simp [step, fsmStop, shutdown, shutdownSource, Child.isidle] at hn hs <;> grind
  | sofiEnds =>
    cases hs
    exact hn
  | sofiStopped =>
    cases h <;> simp [enabled] at he
    all_goals
      cases hs
      simpa [reapSofi] using hn
  | backoff t a =>
    cases t with
    | timeout =>
      cases h <;> simp [enabled] at he
      cases hs
      exact hn
    | stopped =>
      by_cases ha : a.Succeeds
      · cases h <;> simp [enabled] at he
        simp [step, feed, handler, Timer.deliver, startConnecting_ok ha] at hs
        exact hs ▸ hn
      · rw [h.step_unsafe he ha] at hs
        cases hs

theorem reachable_told {c : Cofi} (r : machine.Reachable c) :
    c.epbaseStopped = if c.fsm = .idle then 1 else 0 := by
  obtain ⟨h, r⟩ := r
  induction r with
  | init hi =>
    obtain ⟨a, hc⟩ := hi
    by_cases ha : a.Succeeds
    · simp only [create, handler, startConnecting_ok ha] at hc
      cases hc
      rfl
    · obtain ⟨r, hr, hst⟩ :=
        startConnecting_failed ha ⟨.idle, .idle, .idle, ⟨false, .idle, false⟩, 0⟩
      simp only [create, handler, hst, hr, ne_eq, not_false_eq_true, if_true] at hc
      cases hc
      rfl
  | step r he hs ih => exact (reachable_phase r.reachable).step_told ih he hs

end Cofi

structure Cofi.Dial where
  setup : Sofi.Setup
  opened : Int
  joined : Int

namespace Cofi.Dial

open Sofi

def Even (d : Dial) : Prop := 2 ≤ d.setup.rxQueue ∧ d.setup.rxQueue = d.setup.txQueue

instance (d : Dial) : Decidable d.Even := inferInstanceAs (Decidable (_ ∧ _))

def Succeeds (d : Dial) : Prop :=
  d.setup.firstFailure d.setup.rxQueue.toNat = 0 ∧ d.opened = 0 ∧ d.joined = 0

end Cofi.Dial

/-- A COFI.  The SOFI is none before it is initialised and after it was terminated, `raised`
while its NN_SOFI_STOPPED is still to be delivered, and `made` from FI_CONNECTED on. -/
structure Client where
  fsm : FsmState
  state : Cofi.State
  retry : Timer
  sofi : Option Sofi
  raised : Bool
  made : Bool
  epbaseStopped : Nat

namespace Client

open Cofi (Dial)

def isidle (c : Client) : Bool := (∀ s ∈ c.sofi, s.fsm = .idle) ∧ c.raised = false

def put (c : Client) (s s' : Sofi) : Client :=
  { c with sofi := some s', raised := c.raised || decide (s.stoppeds < s'.stoppeds) }

def stopSofi (c : Client) : M Client :=
  match c.sofi with
  | none => .ok c
  | some s => do return c.put s (← s.fsmStop)

inductive Input
  | start (d : Dial)
  | stop
  | sofiStopped (close : Nat → Int) (closeSlab : Int)
  | backoff (t : TimerEvent) (d : Dial)

def startConnecting (d : Dial) (c : Client) : M (Int × Client) := do
  let (ret, s) ← Sofi.init d.setup
  match s with
  | none => return (ret, { c with sofi := none, made := false })
  | some s =>
    let (ret, s) ← Sofi.start d.opened d.joined s
    return (ret, { c with sofi := some s, made := false })

def reapSofi (close : Nat → Int) (closeSlab : Int) (c : Client) : M Client :=
  match c.sofi with
  | none => .error .nullDeref
  | some s => do
    let _ ← s.term close closeSlab
    return { c with sofi := none }

def shutdownWait (c : Client) : M Client :=
  if c.retry ≠ .idle ∨ c.isidle = false then .ok c
  else if c.state = .stopping then .ok { c with fsm := .idle, epbaseStopped := c.epbaseStopped + 1 }
  else .error .badState

def shutdown (c : Client) : Input → M Client
  | .stop =>
    let c := { c with state := .stopping, retry := c.retry.stop }
    -- with an idle SOFI the STOP action itself is judged as a source
    if c.isidle = false then c.stopSofi else .error .badSource
  | .sofiStopped close closeSlab => do (← c.reapSofi close closeSlab).shutdownWait
  | .backoff .stopped _ => c.shutdownWait
  | .backoff .timeout _ => .error .badAction
  | .start _ => .error .badSource

def fsmStop (c : Client) : M Client :=
  if c.fsm = .active then shutdown { c with fsm := .stopping } .stop else .ok c

def criticalError (c : Client) : M Client := c.fsmStop

def handler (c : Client) : Input → M Client :=
  match c.state with
  | .idle => fun
    | .start d => do
      let (ret, c) ← c.startConnecting d
      if ret ≠ 0 then c.criticalError else return { c with state := .active }
    | .stop => .error .badAction
    | _ => .error .badSource
  | .active => fun
    | .sofiStopped close closeSlab => do
      let c ← c.reapSofi close closeSlab
      return { c with state := .retrying, retry := ← c.retry.start }
    | _ => .error .badSource
  | .retrying => fun
    | .backoff .timeout _ => .ok { c with state := .stoppingBackoff, retry := c.retry.stop }
    | .backoff .stopped _ => .error .badAction
    | _ => .error .badSource
  | .stoppingBackoff => fun
    | .backoff .stopped d => do
      let (ret, c) ← { c with state := .active }.startConnecting d
      if ret ≠ 0 then c.criticalError else return c
    | .backoff .timeout _ => .error .badAction
    | _ => .error .badSource
  | .stopping => fun _ => .error .badState

def feed (c : Client) (i : Input) : M Client :=
  if c.fsm = .stopping then c.shutdown i else c.handler i

def create (d : Dial) : M Client := do
  let c ← handler ⟨.idle, .idle, .idle, none, false, false, 0⟩ (.start d)
  return { c with fsm := .active }

/-- `nn_cofi_destroy`: the timer and the machine must be idle. -/
def destroy (c : Client) : M Unit := do
  nnAssert (c.retry = .idle)
  nnAssert (c.fsm = .idle)

/-- What can happen to a COFI and its SOFI.  Terminating the SOFI closes registrations, with the
results given. -/
inductive Event
  | userStop
  | sofi (e : Sofi.Event)
  | sofiStopped (close : Nat → Int) (closeSlab : Int)
  | backoff (t : TimerEvent) (d : Dial)

def enabled (c : Client) : Event → Bool
  | .userStop => true
  | .sofi e => ∃ s ∈ c.sofi, s.enabled e ∧ s.lawful c.made e
  | .sofiStopped .. => c.raised
  | .backoff t d => c.retry.owes t ∧ d.Even

def step (c : Client) : Event → M Client
  | .userStop => c.fsmStop
  | .sofi e =>
    match c.sofi with
    | none => .ok c
    | some s => do return { c.put s (← s.step e) with made := c.made || e.connects }
  | .sofiStopped close closeSlab => { c with raised := false }.feed (.sofiStopped close closeSlab)
  | .backoff t d => { c with retry := .deliver t }.feed (.backoff t d)

def machine : Machine Client Event Fault where
  init c := ∃ d, d.Even ∧ create d = .ok c
  enabled := enabled
  step := step

section Dialling

open Sofi

variable {d : Dial}

theorem startConnecting_ok (he : d.Even) (hs : d.Succeeds) (c : Client) :
    c.startConnecting d = .ok (0, { c with sofi := some d.setup.started, made := false }) := by
  obtain ⟨hf, ho, hj⟩ := hs
  obtain ⟨h₂, heq⟩ := he
  have hi := init_eq (u := d.setup) (by omega) (by omega)
  rw [if_neg (by simpa using hf)] at hi
  simp only [startConnecting, hi, bind, Except.bind, ho, hj]
  rfl

theorem startConnecting_failed (he : d.Even) (hs : ¬ d.Succeeds) :
    ∃ ret o, ret ≠ 0 ∧ (∀ s ∈ o, s.fsm = .idle) ∧
      ∀ c : Client, c.startConnecting d = .ok (ret, { c with sofi := o, made := false }) := by
  obtain ⟨h₂, heq⟩ := he
  have hi := init_eq (u := d.setup) (by omega) (by omega)
  by_cases hf : d.setup.firstFailure d.setup.rxQueue.toNat = 0
  · have hr : d.opened ≠ 0 ∨ d.joined ≠ 0 := by
      by_contra hr
      simp only [not_or, not_not] at hr
      exact hs ⟨hf, hr⟩
    rw [if_neg (by simpa using hf)] at hi
    obtain ⟨ret, s, hne, ⟨ep, k, hs⟩, hst⟩ := start_refused hr
      (d.setup.sofi (linked d.setup.rxQueue.toNat d.setup.rxQueue.toNat)
        (linked d.setup.rxQueue.toNat d.setup.rxQueue.toNat))
    refine ⟨ret, some s, hne, ?_, fun c => by simp [startConnecting, hi, hst, bind, Except.bind]⟩
    rintro _ ⟨⟩
    rw [hs]
    rfl
  · rw [if_pos hf] at hi
    exact ⟨_, none, hf, by simp, fun c => by simp [startConnecting, hi, bind, Except.bind]⟩

end Dialling

section Refinement

open Sofi

variable {c c' : Client} {a : Cofi} {s s' : Sofi} {e : Event}

structure Abstracts (c : Client) (a : Cofi) : Prop where
  fsm : a.fsm = c.fsm
  state : a.state = c.state
  retry : a.retry = c.retry
  child : a.sofi.fsm = .idle ↔ ∀ s ∈ c.sofi, s.fsm = .idle
  raised : a.sofi.raised = c.raised
  stopped : a.epbaseStopped = c.epbaseStopped

structure Sound (c : Client) : Prop where
  alive : c.state ≠ .idle → ∀ s ∈ c.sofi, s.Alive c.made
  unborn : c.state = .idle → ∀ s ∈ c.sofi, s.fsm = .idle
  owed : c.raised = true → ∃ s ∈ c.sofi, s.fsm = .idle
  told : c.state ≠ .idle → ∀ s ∈ c.sofi, s.fsm = .idle → c.raised = true

structure Related (c : Client) (a : Cofi) : Prop extends Abstracts c a, Sound c

def Matched (a : Cofi) (c' : Client) : Prop :=
  ∃ h a', Machine.Path Cofi.machine a h a' ∧ Related c' a'

/-- The events that the process survives: a stop finds the SOFI not idle, no keepalive packet of a
SOFI that handles completions ends in an error, a SOFI that is reaped had its slabs registered, and
the attempt to connect again succeeds. -/
def Safe (c : Client) : Event → Prop
  | .userStop => c.fsm = .active → c.isidle = false
  | .sofi e => ∀ s ∈ c.sofi, s.Bears e
  | .sofiStopped .. => ∀ s ∈ c.sofi, SlabsRegistered s.egress.mrm
  | .backoff .stopped d => d.Succeeds
  | .backoff .timeout _ => True

theorem Matched.refl (h : Related c a) : Matched a c := ⟨[], a, .refl, h⟩

theorem Matched.of_step {d : Cofi.Event} {a₁ : Cofi} (he : a.enabled d = true)
    (hs : a.step d = .ok a₁) (h : Matched a₁ c) : Matched a c := by
  obtain ⟨_, a', p, hr⟩ := h
  exact ⟨_, a', (Machine.Path.single (N := Cofi.machine) he hs).trans p, hr⟩

theorem Abstracts.isidle (h : Abstracts c a) : a.sofi.isidle = c.isidle := by
  simp only [Cofi.Child.isidle, Client.isidle, h.child, h.raised]

theorem Related.put {made : Bool} (h : Related c a) (hc : c.sofi = some s)
    (ha : c.state ≠ .idle → s'.Alive made) (hi : Idles s s') :
    Matched a { c.put s s' with made := made } := by
  have hchild := h.child
  simp only [hc, Option.mem_some_iff, forall_eq'] at hchild
  have hraised := h.raised
  cases hi with
  | keeps hf hn =>
    have hr : (c.put s s').raised = c.raised := by simp [Client.put, hn]
    refine .refl ⟨⟨h.fsm, h.state, h.retry, ?_, h.raised.trans hr.symm, h.stopped⟩,
      ⟨fun hst => ?_, fun hst => ?_, ?_, fun hst => ?_⟩⟩
    · simpa [Client.put, hf] using hchild
    · simpa [Client.put] using ha hst
    · simpa [Client.put] using hf.2 (h.unborn hst s hc)
    · rw [hr]
      intro hr'
      obtain ⟨s₁, hs₁, hf₁⟩ := h.owed hr'
      rw [hc, Option.mem_some_iff] at hs₁
      subst hs₁
      exact ⟨s', rfl, hf.2 hf₁⟩
    · rintro s₁ ⟨⟩ hf'
      rw [hr]
      exact h.told hst s hc (hf.1 hf')
  | ends hf hf' hn =>
    have he : a.enabled .sofiEnds = true := by
      simp only [Cofi.enabled, decide_eq_true_eq]
      exact fun h' => hf (hchild.1 h')
    refine .of_step he rfl (.refl ⟨⟨h.fsm, h.state, h.retry, ?_, ?_, h.stopped⟩,
      ⟨fun hst => ?_, fun hst => ?_, fun _ => ⟨s', rfl, hf'⟩, fun _ _ _ _ => ?_⟩⟩)
    · simp [Client.put, hf']
    · simp [Client.put, hn]
    · simpa [Client.put] using ha hst
    · exact absurd (h.unborn hst s hc) hf
    · simp [Client.put, hn]

theorem Related.sofi_none (h : Related c a) (hi : a.sofi.fsm = .idle) (hr : a.sofi.raised = false)
    (hst : c.state ≠ .idle) : c.sofi = none := by
  cases hc : c.sofi with
  | none => rfl
  | some s =>
    have hf := h.child.1 hi s hc
    rw [h.raised, h.told hst s hc hf] at hr
    cases hr

theorem Related.sofi_some (h : Related c a) (hp : Cofi.Phase a) (hi : c.isidle = false) :
    ∃ s, c.sofi = some s ∧ s.Alive c.made ∧ c.state ≠ .idle := by
  obtain ⟨s, hc⟩ : ∃ s, c.sofi = some s := by
    cases hc : c.sofi with
    | some s => exact ⟨s, rfl⟩
    | none =>
      cases hr : c.raised with
      | true =>
        obtain ⟨s, hs, _⟩ := h.owed hr
        rw [hc] at hs
        cases hs
      | false => simp [Client.isidle, hc, hr] at hi
  have hst : c.state ≠ .idle := by
    intro hst
    rw [← h.isidle] at hi
    rw [← h.state] at hst
    cases hp <;> simp [Cofi.Child.isidle] at hst hi
  exact ⟨s, hc, h.alive hst s hc, hst⟩

theorem Related.userStop (h : Related c a) (hp : Cofi.Phase a) (hs : Safe c .userStop) :
    ∃ c', c.fsmStop = .ok c' ∧ Matched a c' := by
  by_cases hf : c.fsm = .active
  · have hi := hs hf
    obtain ⟨s, hc, ha, hst⟩ := h.sofi_some hp hi
    obtain ⟨s', hstop, ha', hidles⟩ := ha.fsmStop
    have hstep : a.step .userStop = .ok { a with
        fsm := .stopping, state := .stopping, retry := a.retry.stop, sofi := a.sofi.stop } := by
      have hi' := h.isidle.trans hi
      simp [Cofi.step, Cofi.fsmStop, h.fsm.trans hf, Cofi.shutdown, hi']
    have hchild : a.sofi.stop.fsm = .idle ↔ a.sofi.fsm = .idle := by
      simp only [Cofi.Child.stop]
      split
      · next hact => simp [hact]
      · rfl
    have hraised : a.sofi.stop.raised = a.sofi.raised := by
      simp only [Cofi.Child.stop]
      split <;> rfl
    have h₁ : Related { c with fsm := .stopping, state := .stopping, retry := c.retry.stop }
        { a with
          fsm := .stopping, state := .stopping, retry := a.retry.stop, sofi := a.sofi.stop } :=
      ⟨⟨rfl, rfl, by rw [h.retry], hchild.trans h.child, hraised.trans h.raised, h.stopped⟩,
        ⟨fun _ => h.alive hst, fun h' => by simp at h', h.owed, fun _ => h.told hst⟩⟩
    refine ⟨_, ?_, .of_step rfl hstep (h₁.put hc (fun _ => ha') hidles)⟩
    have hi₁ : Client.isidle { c with
        fsm := .stopping, state := .stopping, retry := c.retry.stop } = false := hi
    simp only [Client.fsmStop, hf, if_true, shutdown]
    rw [if_pos hi₁]
    simp only [stopSofi, hc, hstop, bind, Except.bind]
    rfl
  · exact ⟨c, by simp [Client.fsmStop, hf], .refl h⟩

theorem Related.sofiEvent {e : Sofi.Event} (h : Related c a) (he : c.enabled (.sofi e) = true)
    (hb : ∀ s ∈ c.sofi, s.Bears e) : ∃ c', c.step (.sofi e) = .ok c' ∧ Matched a c' := by
  simp only [enabled, decide_eq_true_eq] at he
  obtain ⟨s, hc, hen, hlaw⟩ := he
  have hc : c.sofi = some s := hc
  obtain ⟨s', hs, ha', hi⟩ : ∃ s', s.step e = .ok s' ∧
      (c.state ≠ .idle → s'.Alive (c.made || e.connects)) ∧ Idles s s' := by
    by_cases hst : c.state = .idle
    · have hf := h.unborn hst s hc
      cases e with
      | free m => exact ⟨_, rfl, fun h' => absurd hst h', .keeps Iff.rfl rfl⟩
      | stop => cases hlaw
      | txError op => cases op <;> simp [Sofi.enabled, hf] at hen
      | _ => simp [Sofi.enabled, hf] at hen
    · obtain ⟨s', hs, ha', hi⟩ := (h.alive hst s hc).step hen hlaw (hb s hc)
      exact ⟨s', hs, fun _ => ha', hi⟩
  refine ⟨_, ?_, h.put hc ha' hi⟩
  simp only [Client.step, hc, hs, bind, Except.bind]
  rfl

theorem Related.unborne {e : Sofi.Event} (h : Related c a) (he : c.enabled (.sofi e) = true)
    (hb : ¬ ∀ s ∈ c.sofi, s.Bears e) : ∃ f, c.step (.sofi e) = .error f := by
  simp only [enabled, decide_eq_true_eq] at he
  obtain ⟨s, hc, hen, _⟩ := he
  have hc : c.sofi = some s := hc
  have hb : ¬ s.Bears e := by simpa [hc] using hb
  have hst : c.state ≠ .idle := by
    intro hst
    -- nothing is under way on a SOFI that was never started
    have hf := h.unborn hst s hc
    cases e with
    | txError op => cases op <;> simp [Sofi.enabled, hf] at hen
    | _ => exact hb trivial
  obtain ⟨f, hs⟩ := (h.alive hst s hc).unborne hen hb
  exact ⟨f, by simp [Client.step, hc, hs, bind, Except.bind]⟩

theorem Related.reaped (h : Related c a) (hp : Cofi.Phase a) (he : c.raised = true) :
    ∃ s, c.sofi = some s ∧ s.fsm = .idle ∧ Concluded s ∧ s.epOpen = false := by
  obtain ⟨s, hc, hf⟩ := h.owed he
  have hi : c.isidle = false := by simp [Client.isidle, he]
  obtain ⟨s₁, hc₁, ha, _⟩ := h.sofi_some hp hi
  have hc : c.sofi = some s := hc
  rw [hc, Option.some.injEq] at hc₁
  subst hc₁
  obtain ⟨hcon, hep⟩ := ha.concluded hf
  exact ⟨s, hc, hf, hcon, hep⟩

theorem Related.sofiStopped {close : Nat → Int} {closeSlab : Int} (h : Related c a)
    (hp : Cofi.Phase a) (he : c.raised = true) (hc : c.sofi = some s)
    (ht : s.term close closeSlab = .ok s') :
    ∃ c', c.step (.sofiStopped close closeSlab) = .ok c' ∧ Matched a c' := by
  have hr := h.raised.trans he
  have hfsm := h.fsm
  have hstate := h.state
  have hretry := h.retry
  cases hp <;> try cases hr
  case ended i n =>
    let a' : Cofi := ⟨.active, .retrying, .armed, ⟨false, .idle, false⟩, n⟩
    let c' : Client := { c with raised := false, sofi := none, state := .retrying, retry := .armed }
    have hrel : Related c' a' :=
      ⟨⟨hfsm, rfl, rfl, by simp [a', c'], rfl, h.stopped⟩,
        ⟨by simp [c'], by simp [c'], by simp [c'], by simp [c']⟩⟩
    refine ⟨c', ?_, .of_step rfl (show Cofi.step _ .sofiStopped = .ok a' from rfl) (.refl hrel)⟩
    simp [c', Client.step, feed, handler, reapSofi, Timer.start, ← hfsm, ← hstate, ← hretry, hc, ht,
      bind, Except.bind, pure, Except.pure]
  case closed i n =>
    let a' : Cofi := ⟨.idle, .stopping, .idle, ⟨false, .idle, false⟩, n + 1⟩
    let c' : Client := { c with
      raised := false, sofi := none, fsm := .idle, epbaseStopped := c.epbaseStopped + 1 }
    have hrel : Related c' a' :=
      ⟨⟨rfl, hstate, hretry, by simp [a', c'], rfl, congrArg (fun n => n + 1) h.stopped⟩,
        ⟨by simp [c'], by simp [c'], by simp [c'], by simp [c']⟩⟩
    refine ⟨c', ?_, .of_step rfl (show Cofi.step _ .sofiStopped = .ok a' from rfl) (.refl hrel)⟩
    simp [c', Client.step, feed, shutdown, shutdownWait, isidle, reapSofi, ← hfsm, ← hstate,
      ← hretry, hc, ht, bind, Except.bind, pure, Except.pure]

theorem Related.backoffTimeout {d : Dial} (h : Related c a) (hp : Cofi.Phase a)
    (he : c.retry = .armed) : ∃ c', c.step (.backoff .timeout d) = .ok c' ∧ Matched a c' := by
  have hfsm := h.fsm
  have hstate := h.state
  have hretry := h.retry.trans he
  cases hp <;> try cases hretry
  case retrying i n =>
    let a' : Cofi := ⟨.active, .stoppingBackoff, .stopping, ⟨i, .idle, false⟩, n⟩
    let c' : Client := { c with state := .stoppingBackoff, retry := .stopping }
    have hno := h.sofi_none rfl rfl (by simp [← hstate])
    have hrel : Related c' a' :=
      ⟨⟨hfsm, rfl, rfl, by simp [a', c', hno], h.raised, h.stopped⟩,
        ⟨by simp [c', hno], by simp [c'], h.owed, by simp [c', hno]⟩⟩
    refine ⟨c', ?_, .of_step (d := .backoff .timeout ⟨0, 0⟩) rfl
      (show Cofi.step _ _ = .ok a' from rfl) (.refl hrel)⟩
    simp [c', Client.step, feed, handler, Timer.deliver, Timer.stop, ← hfsm, ← hstate]

theorem Related.backoffStopped {d : Dial} (h : Related c a) (hp : Cofi.Phase a)
    (he : c.retry = .stopping) (hd : d.Even) (hs : d.Succeeds) :
    ∃ c', c.step (.backoff .stopped d) = .ok c' ∧ Matched a c' := by
  have hfsm := h.fsm
  have hstate := h.state
  have hretry := h.retry.trans he
  cases hp <;> try cases hretry
  case backingOff i n =>
    let a' : Cofi := ⟨.active, .active, .idle, ⟨true, .active, false⟩, n⟩
    let c' : Client := { c with
      state := .active, retry := .idle, sofi := some d.setup.started, made := false }
    have hal := Setup.started_alive hd.1 hd.2 hs.1
    have hf : d.setup.started.fsm = .active := rfl
    have hno := h.sofi_none rfl rfl (by simp [← hstate])
    have hnr : c.raised = false := h.raised.symm
    have hrel : Related c' a' :=
      ⟨⟨hfsm, rfl, rfl, by simp [a', c', hf], h.raised, h.stopped⟩,
        ⟨by simpa [c'] using hal, by simp [c'], by simp [c', hnr], by simp [c', hf]⟩⟩
    have hstep : Cofi.step ⟨.active, .stoppingBackoff, .stopping, ⟨i, .idle, false⟩, n⟩
        (.backoff .stopped ⟨0, 0⟩) = .ok a' := rfl
    refine ⟨c', ?_, .of_step rfl hstep (.refl hrel)⟩
    simp [c', Client.step, feed, handler, Timer.deliver, startConnecting_ok hd hs, ← hfsm, ← hstate,
      bind, Except.bind, pure, Except.pure]

theorem create_related {d : Dial} (hd : d.Even) :
    ∃ c a, create d = .ok c ∧ Cofi.machine.init a ∧ Related c a := by
  by_cases hs : d.Succeeds
  · have hal := Setup.started_alive hd.1 hd.2 hs.1
    have hf : d.setup.started.fsm = .active := rfl
    refine ⟨⟨.active, .active, .idle, some d.setup.started, false, false, 0⟩,
      ⟨.active, .active, .idle, ⟨true, .active, false⟩, 0⟩, ?_, ⟨⟨0, 0⟩, rfl⟩,
      ⟨⟨rfl, rfl, rfl, by simp [hf], rfl, rfl⟩,
        ⟨by simpa using hal, by simp, by simp, by simp [hf]⟩⟩⟩
    simp [create, handler, startConnecting_ok hd hs, bind, Except.bind, pure, Except.pure]
  · obtain ⟨ret, o, hr, ho, hst⟩ := startConnecting_failed hd hs
    refine ⟨⟨.active, .idle, .idle, o, false, false, 0⟩,
      ⟨.active, .idle, .idle, ⟨true, .idle, false⟩, 0⟩, ?_, ⟨⟨1, 0⟩, rfl⟩,
      ⟨⟨rfl, rfl, rfl, by simpa using ho, rfl, rfl⟩,
        ⟨by simp, fun _ => ho, by simp, by simp⟩⟩⟩
    simp [create, handler, hst, hr, criticalError, fsmStop, bind, Except.bind, pure, Except.pure]

theorem Related.step_safe {e : Event} (h : Related c a) (hp : Cofi.Phase a)
    (he : c.enabled e = true) (hs : Safe c e) : ∃ c', c.step e = .ok c' ∧ Matched a c' := by
  cases e with
  | userStop => exact h.userStop hp hs
  | sofi e => exact h.sofiEvent he hs
  | sofiStopped close closeSlab =>
    obtain ⟨s, hc, hf, hcon, _⟩ := h.reaped hp he
    obtain ⟨s', ht⟩ := (term_ok_iff hcon hf close closeSlab).2 (hs s hc)
    exact h.sofiStopped hp he hc ht
  | backoff t d =>
    simp only [enabled, decide_eq_true_eq, Bool.decide_and, Bool.and_eq_true] at he
    cases t with
    | timeout => exact h.backoffTimeout hp (Timer.owes_timeout.1 he.1)
    | stopped => exact h.backoffStopped hp (Timer.owes_stopped.1 he.1) he.2 hs

/-- An unsafe event takes the process down: `nn_fsm_bad_source` for the STOP action that meets an
idle SOFI, the NULL pointer of the slabs' registration in `ofi_mr_term`. -/
theorem Related.step_unsafe {e : Event} (h : Related c a) (hp : Cofi.Phase a)
    (he : c.enabled e = true) (hs : ¬ Safe c e) : ∃ f, c.step e = .error f := by
  cases e with
  | sofi => exact h.unborne he hs
  | userStop =>
    simp only [Safe, Classical.not_imp, Bool.not_eq_false] at hs
    obtain ⟨hf, hi⟩ := hs
    have hi' : Client.isidle { c with
        fsm := .stopping, state := .stopping, retry := c.retry.stop } = true := hi
    exact ⟨.badSource, by simp [Client.step, Client.fsmStop, hf, shutdown, hi']⟩
  | sofiStopped close closeSlab =>
    obtain ⟨s, hc, hf, hcon, _⟩ := h.reaped hp he
    have hbad : ¬ SlabsRegistered s.egress.mrm := by
      refine fun hreg => hs fun s₁ hs₁ => ?_
      rw [hc, Option.mem_some_iff] at hs₁
      exact hs₁ ▸ hreg
    obtain ⟨f, ht⟩ : ∃ f, s.term close closeSlab = .error f := by
      cases ht : s.term close closeSlab with
      | error f => exact ⟨f, rfl⟩
      | ok s' => exact absurd ((term_ok_iff hcon hf close closeSlab).1 ⟨s', ht⟩) hbad
    have hr := h.raised.trans he
    have hfsm := h.fsm
    have hstate := h.state
    refine ⟨f, ?_⟩
    cases hp <;> try cases hr
    · simp [Client.step, feed, handler, reapSofi, hc, ht, ← hfsm, ← hstate, bind, Except.bind]
    · simp [Client.step, feed, shutdown, reapSofi, hc, ht, ← hfsm, bind, Except.bind]
  | backoff t d =>
    simp only [enabled, decide_eq_true_eq, Bool.decide_and, Bool.and_eq_true] at he
    cases t with
    | timeout => exact absurd trivial hs
    | stopped =>
      have hfsm := h.fsm
      have hstate := h.state
      have hretry := h.retry.trans (Timer.owes_stopped.1 he.1)
      cases hp <;> try cases hretry
      obtain ⟨ret, o, hr, ho, hst⟩ := startConnecting_failed he.2 hs
      have hnr : c.raised = false := h.raised.symm
      refine ⟨.badSource, ?_⟩
      simp [Client.step, feed, handler, Timer.deliver, hst, hr, criticalError, Client.fsmStop,
        shutdown, isidle, hnr, ← hfsm, ← hstate, bind, Except.bind]
      exact fun s hs hf => absurd (ho s hs) hf

theorem simulates : Machine.Simulates machine Cofi.machine Related where
  init := by
    rintro c ⟨d, hd, hc⟩
    obtain ⟨c₁, a, h₁, ha, hrel⟩ := create_related hd
    have heq : c₁ = c := Except.ok.inj (h₁.symm.trans hc)
    exact ⟨a, ha, heq ▸ hrel⟩
  step := by
    intro c e c' a hr h he hs
    have hp := Cofi.reachable_phase hr
    by_cases hsafe : Safe c e
    · obtain ⟨c₁, h₁, hm⟩ := h.step_safe hp he hsafe
      have heq : c₁ = c' := Except.ok.inj (h₁.symm.trans hs)
      exact heq ▸ hm
    · obtain ⟨f, hf⟩ := h.step_unsafe hp he hsafe
      rw [show machine.step c e = c.step e from rfl, hf] at hs
      cases hs

end Refinement

open Sofi in
def twos : Dial := ⟨.easy ⟨2, 2, 8⟩, 0, 0⟩

def dialling : Client := ⟨.active, .active, .idle, some twos.setup.started, false, false, 0⟩

theorem dialling_init : machine.init dialling :=
  ⟨twos, by decide, by
    simp [create, handler, startConnecting_ok (d := twos) (by decide) ⟨by decide, rfl, rfl⟩,
      dialling, bind, Except.bind, pure, Except.pure]⟩

open Sofi in
/-- The connection is made, the remote side hangs up, and a second attempt succeeds. -/
def comeback : List Event :=
  [.sofi (.eq FI_CONNECTED 0 .easy), .sofi (.eq FI_SHUTDOWN 0 .easy),
   .sofi (.keepalive .stopped 0), .sofiStopped (fun _ => 0) 0,
   .backoff .timeout twos, .backoff .stopped twos]

/-- Every run of the COFI with its SOFI is one of the COFI that sees the SOFI from outside. -/
theorem refines {c : Client} (r : machine.Reachable c) :
    ∃ a, Cofi.machine.Reachable a ∧ Abstracts c a := by
  obtain ⟨a, ra, h⟩ := simulates.reachable r
  exact ⟨a, ra, h.toAbstracts⟩

theorem comeback_refines : ∃ (c : Client) (a : Cofi), c.state = .active ∧ c.sofi.isSome = true ∧
    Cofi.machine.Reachable a ∧ Abstracts c a := by
  obtain ⟨c, r, hp⟩ := Machine.exists_reachable comeback
    (fun c => c.state = .active ∧ c.sofi.isSome = true) dialling_init (by decide)
  obtain ⟨hst, hs⟩ := of_decide_eq_true hp
  obtain ⟨a, ra, h⟩ := refines r
  exact ⟨c, a, hst, hs, ra, h⟩

/-- The process survives exactly the safe events, and a SOFI that is reaped has come to its end,
with everything it had posted accounted for and its endpoint closed. -/
theorem step_ok_iff {c : Client} {e : Event} (r : machine.Reachable c) (he : c.enabled e = true) :
    ((∃ c', c.step e = .ok c') ↔ Safe c e) ∧
      (∀ close closeSlab, e = .sofiStopped close closeSlab →
        ∃ s, c.sofi = some s ∧ s.fsm = .idle ∧ s.Concluded ∧ s.epOpen = false) := by
  obtain ⟨a, ra, h⟩ := simulates.reachable r
  have hp := Cofi.reachable_phase ra
  refine ⟨⟨?_, ?_⟩, ?_⟩
  · rintro ⟨c', hs⟩
    by_contra hsafe
    obtain ⟨f, hf⟩ := h.step_unsafe hp he hsafe
    rw [hf] at hs
    cases hs
  · intro hs
    obtain ⟨c', hc, _⟩ := h.step_safe hp he hs
    exact ⟨c', hc⟩
  · rintro close closeSlab rfl
    exact h.reaped hp he

theorem comeback_step_ok :
    ∃ c : Client, c.state = .active ∧ ∃ c', c.step .userStop = .ok c' := by
  obtain ⟨c, r, hp⟩ := Machine.exists_reachable comeback
    (fun c => c.state = .active ∧ c.isidle = false) dialling_init (by decide)
  obtain ⟨hst, hi⟩ := of_decide_eq_true hp
  exact ⟨c, hst, (step_ok_iff r (e := .userStop) rfl).1.2 fun _ => hi⟩

/-- Nanomsg is told once that the COFI has stopped, and from then on, and not before, it may
destroy it.  No SOFI is left then. -/
theorem told_once {c : Client} (r : machine.Reachable c) :
    c.epbaseStopped ≤ 1 ∧ (c.epbaseStopped = 1 ↔ c.destroy = .ok ()) ∧
      (c.epbaseStopped = 1 → c.sofi = none) := by
  obtain ⟨a, ra, h⟩ := simulates.reachable r
  have hn := Cofi.reachable_told ra
  rw [h.stopped, h.fsm] at hn
  have hr : c.fsm = .idle → c.retry = .idle ∧ c.sofi = none := by
    intro hf
    have hfsm := h.fsm.trans hf
    have hretry := h.retry
    have hstate := h.state
    cases Cofi.reachable_phase ra <;> try cases hfsm
    exact ⟨hretry.symm, h.sofi_none rfl rfl (by simp [← hstate])⟩
  by_cases hf : c.fsm = .idle
  · obtain ⟨hi, hs⟩ := hr hf
    rw [if_pos hf] at hn
    have hd : c.destroy = .ok () := by simp [destroy, nnAssert, hi, hf, bind, Except.bind]
    exact ⟨hn.le, iff_of_true hn hd, fun _ => hs⟩
  · rw [if_neg hf] at hn
    refine ⟨by omega, iff_of_false (by omega) ?_, by omega⟩
    intro hd
    simp only [destroy, bind_eq_ok, nnAssert_eq_ok] at hd
    obtain ⟨_, _, hidle⟩ := hd
    exact hf hidle

open Sofi in
theorem comeback_told_once :
    ∃ c : Client, c.epbaseStopped = 1 ∧ c.destroy = .ok () ∧ c.sofi = none := by
  obtain ⟨c, r, hp⟩ := Machine.exists_reachable
    (comeback ++ [.userStop, .sofiStopped (fun _ => 0) 0])
    (fun c => c.epbaseStopped = 1) dialling_init (by decide)
  have hn := of_decide_eq_true hp
  obtain ⟨_, hd, hs⟩ := told_once r
  exact ⟨c, hn, hd.1 hn, hs hn⟩

end Client

end OfiTransport
