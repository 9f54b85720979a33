import OfiTransport.Cofi.Defs
import Mathlib.Tactic.ByContra

/-! When the connecting endpoint takes the process down.  A COFI is always in one of eight
phases, and in each of them the events that can arrive are few. -/

namespace OfiTransport.Cofi

open Lib

inductive Phase : Cofi → Prop
  | failed : Phase ⟨.active, .idle, .idle, ⟨i, .idle, false⟩, n⟩
  | running : f ≠ .idle → Phase ⟨.active, .active, .idle, ⟨i, f, false⟩, n⟩
  | ended : Phase ⟨.active, .active, .idle, ⟨i, .idle, true⟩, n⟩
  | retrying : Phase ⟨.active, .retrying, .armed, ⟨i, .idle, false⟩, n⟩
  | backingOff : Phase ⟨.active, .stoppingBackoff, .stopping, ⟨i, .idle, false⟩, n⟩
  | closing : Phase ⟨.stopping, .stopping, .idle, ⟨i, .stopping, false⟩, n⟩
  | closed : Phase ⟨.stopping, .stopping, .idle, ⟨i, .idle, true⟩, n⟩
  | stopped : Phase ⟨.idle, .stopping, .idle, ⟨i, .idle, false⟩, n⟩

def Attempt.Succeeds (a : Attempt) : Prop := a.init = 0 ∧ a.connect = 0

/-- A stop finds the SOFI not idle, and the attempt to connect again succeeds. -/
def Safe (c : Cofi) : Event → Prop
  | .userStop => c.fsm = .active → c.sofi.isidle = false
  | .backoff .stopped a => a.Succeeds
  | _ => True

theorem startConnecting_ok {a : Attempt} (h : a.Succeeds) (c : Cofi) :
    c.startConnecting a =
      (0, { c with sofi := { c.sofi with initialised := true, fsm := .active } }) := by
  simp [startConnecting, h.1, h.2]

/-- A failed attempt leaves an initialised SOFI that was never started. -/
theorem startConnecting_failed {a : Attempt} (h : ¬ a.Succeeds) (c : Cofi) :
    ∃ r : Int, r ≠ 0 ∧ c.startConnecting a =
      (r, { c with sofi := { c.sofi with initialised := true, fsm := .idle } }) := by
  by_cases hi : a.init = 0
  · have hc : a.connect ≠ 0 := fun hc => h ⟨hi, hc⟩
    exact ⟨a.connect, hc, by simp [startConnecting, hi, hc]⟩
  · exact ⟨a.init, hi, by simp [startConnecting, hi]⟩

theorem create_ok (a : Attempt) : ∃ c, create a = .ok c ∧ Phase c := by
  by_cases ha : a.Succeeds
  · simp only [create, handler, startConnecting_ok ha]
    exact ⟨_, rfl, .running (by simp)⟩
  · obtain ⟨r, hr, hc⟩ := startConnecting_failed ha ⟨.idle, .idle, .idle, ⟨false, .idle, false⟩, 0⟩
    simp only [create, handler, hc, hr, ne_eq, not_false_eq_true, if_true]
    exact ⟨_, rfl, .failed⟩

theorem Phase.step_unsafe {c : Cofi} (h : Phase c) {e : Event} (he : c.enabled e = true)
    (hs : ¬ c.Safe e) : c.step e = .error .badSource := by
  cases e with
  | userStop =>
    cases h with
    | running hf => simp [Safe, Child.isidle, hf] at hs
    | ended => simp [Safe, Child.isidle] at hs
    | closing | closed | stopped => simp [Safe] at hs
    | failed | retrying | backingOff =>
      simp [step, fsmStop, shutdown, Child.isidle, shutdownSource]
  | sofiEnds | sofiStopped => simp [Safe] at hs
  | backoff t a =>
    cases t with
    | timeout => simp [Safe] at hs
    | stopped =>
      cases h <;> simp [enabled] at he
      next i n =>
        obtain ⟨r, hr, hc⟩ := startConnecting_failed hs
          ⟨.active, .active, .idle, ⟨i, .idle, false⟩, n⟩
        simp [step, feed, handler, Timer.deliver, hc, hr, criticalError, fsmStop, shutdown,
          Child.isidle, shutdownSource]

theorem Phase.step_safe {c : Cofi} (h : Phase c) {e : Event} (he : c.enabled e = true)
    (hs : c.Safe e) : ∃ c', c.step e = .ok c' ∧ Phase c' := by
  cases e with
  | userStop =>
    cases h with
    | @running f i n hf =>
      refine ⟨_, by simp [step, fsmStop, shutdown, Child.isidle, hf]; rfl, ?_⟩
      cases f with
      | idle => exact absurd rfl hf
      | active => exact .closing
      | stopping => exact .closing
    | ended => exact ⟨_, rfl, .closed⟩
    | closing => exact ⟨_, rfl, .closing⟩
    | closed => exact ⟨_, rfl, .closed⟩
    | stopped => exact ⟨_, rfl, .stopped⟩
    | failed | retrying | backingOff => simp [Safe, Child.isidle] at hs
  | sofiEnds =>
    refine ⟨_, rfl, ?_⟩
    cases h with
    | running => exact .ended
    | closing => exact .closed
    | failed | ended | retrying | backingOff | closed | stopped => simp [enabled] at he
  | sofiStopped =>
    cases h with
    | ended => exact ⟨_, rfl, .retrying⟩
    | closed => exact ⟨_, rfl, .stopped⟩
    | failed | running | retrying | backingOff | closing | stopped => simp [enabled] at he
  | backoff t a =>
    cases t with
    | timeout =>
      cases h <;> simp [enabled] at he
      exact ⟨_, rfl, .backingOff⟩
    | stopped =>
      cases h <;> simp [enabled] at he
      next i n =>
        refine ⟨⟨.active, .active, .idle, ⟨true, .active, false⟩, n⟩, ?_, .running (by simp)⟩
        simp [step, feed, handler, Timer.deliver, startConnecting_ok hs]

theorem reachable_phase {c : Cofi} (h : machine.Reachable c) : Phase c := by
  refine h.invariant ?_ ?_
  · rintro c ⟨a, hc⟩
    obtain ⟨c₁, h₁, hp⟩ := create_ok a
    have heq : c₁ = c := by simpa using h₁.symm.trans hc
    exact heq ▸ hp
  · intro c e c' hp he hs
    by_cases hsafe : c.Safe e
    · obtain ⟨c₁, h₁, hp₁⟩ := hp.step_safe he hsafe
      have heq : c₁ = c' := by simpa using h₁.symm.trans hs
      exact heq ▸ hp₁
    · have hbad := hp.step_unsafe he hsafe
      rw [show machine.step c e = c.step e from rfl, hbad] at hs
      cases hs

/-- Creation never aborts, and from then on the process survives exactly the safe events. -/
theorem survives_iff_safe {c : Cofi} {e : Event} (hr : machine.Reachable c)
    (he : c.enabled e = true) :
    (∀ a, ¬ Aborts (create a)) ∧ (¬ Aborts (c.step e) ↔ c.Safe e) := by
  have hp := reachable_phase hr
  refine ⟨?_, ?_, ?_⟩
  · intro a
    obtain ⟨c₁, hc, _⟩ := create_ok a
    simp [hc]
  · intro hna
    by_contra hs
    rw [hp.step_unsafe he hs] at hna
    simp [Fault.isAbort] at hna
  · intro hs
    obtain ⟨c', hc, _⟩ := hp.step_safe he hs
    simp [hc]

theorem survives_connected_stop :
    ¬ Aborts (step ⟨.active, .active, .idle, ⟨true, .active, false⟩, 0⟩ .userStop) :=
  (survives_iff_safe ⟨[], .init ⟨⟨0, 0⟩, rfl⟩⟩ rfl).2.2 (fun _ => rfl)

/-- After a connection has ended, a stop that comes before the back-off expires aborts. -/
theorem stop_while_retrying_aborts :
    ∃ c, machine.Reachable c ∧ c.state = .retrying ∧ c.enabled .userStop = true ∧
      Aborts (c.step .userStop) := by
  refine ⟨⟨.active, .retrying, .armed, ⟨false, .idle, false⟩, 0⟩, ?_, rfl, rfl, ?_⟩
  · exact Machine.Reachable.exec (s := ⟨.active, .active, .idle, ⟨true, .active, false⟩, 0⟩)
      [.sofiEnds, .sofiStopped] ⟨[], .init ⟨⟨0, 0⟩, rfl⟩⟩ rfl
  · exact ⟨.badSource, rfl, rfl⟩

end OfiTransport.Cofi
