import OfiTransport.Cofi.Laws

/-! The calls made to the SOFI that is embedded in the connecting endpoint and used again for
every connection attempt. -/

namespace OfiTransport.Cofi

open Lib

inductive Call
  | init
  | term
  deriving DecidableEq

/-- The calls that handling an event makes, be it in the last step of a run: the first is in
`nn_cofi_start_connecting`, the second in `nn_cofi_reap_sofi`. -/
def calls (c : Cofi) : Event → List Call
  | .sofiStopped => if c.fsm = .stopping ∨ c.state = .active then [.term] else []
  | .backoff .stopped _ => if c.fsm ≠ .stopping ∧ c.state = .stoppingBackoff then [.init] else []
  | _ => []

def made (h : List (Cofi × Event)) : List Call :=
  .init :: h.reverse.flatMap (fun p => p.1.calls p.2)

/-- The calls come in turns, starting on a SOFI that is initialised or is not. -/
def Alternates : Bool → List Call → Prop
  | _, [] => True
  | initialised, .init :: l => initialised = false ∧ Alternates true l
  | initialised, .term :: l => initialised = true ∧ Alternates false l

def after : Bool → List Call → Bool
  | initialised, [] => initialised
  | _, .init :: l => after true l
  | _, .term :: l => after false l

section Calls

variable {i : Bool} {l l' : List Call}

theorem alternates_append :
    Alternates i (l ++ l') ↔ Alternates i l ∧ Alternates (after i l) l' := by
  induction l generalizing i with
  | nil => simp [Alternates, after]
  | cons a l ih => cases a <;> simp [Alternates, after, ih, and_assoc]

theorem after_append : after i (l ++ l') = after (after i l) l' := by
  induction l generalizing i with
  | nil => rfl
  | cons a l ih => cases a <;> simp [after, ih]

@[simp] theorem made_nil : made [] = [.init] := rfl

@[simp] theorem made_cons (p : Cofi × Event) (h : List (Cofi × Event)) :
    made (p :: h) = made h ++ p.1.calls p.2 := by
  simp [made]

end Calls

section Runs

variable {c c' : Cofi} {e : Event}

structure Attached (c : Cofi) : Prop where
  turn : c.sofi.initialised = decide (c.retry = .idle ∧ c.fsm ≠ .idle)
  told : 0 < c.epbaseStopped → c.fsm = .idle

theorem create_attached {a : Attempt} (h : create a = .ok c) :
    Attached c ∧ c.sofi.initialised = true := by
  by_cases ha : a.Succeeds
  · simp only [create, handler, startConnecting_ok ha] at h
    cases h
    exact ⟨⟨rfl, by simp⟩, rfl⟩
  · obtain ⟨r, hr, hc⟩ := startConnecting_failed ha ⟨.idle, .idle, .idle, ⟨false, .idle, false⟩, 0⟩
    simp only [create, handler, hc, hr, ne_eq, not_false_eq_true, if_true] at h
    cases h
    exact ⟨⟨rfl, by simp⟩, rfl⟩

theorem Phase.calls_turn (h : Phase c) (ha : Attached c) (he : c.enabled e = true) :
    Alternates c.sofi.initialised (c.calls e) := by
  have ht := ha.turn
  cases e with
  | userStop | sofiEnds => trivial
  | sofiStopped =>
    cases h <;> simp [enabled] at he
    all_goals simpa [calls, Alternates] using ht
  | backoff t a =>
    cases t with
    | timeout => trivial
    | stopped =>
      cases h <;> simp [enabled] at he
      simpa [calls, Alternates] using ht

theorem Phase.step_attached (h : Phase c) (ha : Attached c) (he : c.enabled e = true)
    (hs : c.step e = .ok c') :
    Attached c' ∧ c'.sofi.initialised = after c.sofi.initialised (c.calls e) := by
  obtain ⟨ht, hn⟩ := ha
  by_cases hsafe : c.Safe e
  · cases e with
    | userStop =>
      cases h with
      | @running f i n hf =>
        have hstop : (Child.stop ⟨i, f, false⟩).initialised = i := by
          simp only [Child.stop]
          split <;> rfl
        simp [step, fsmStop, shutdown, Child.isidle, hf] at hs
        subst hs
        refine ⟨⟨hstop.trans ht, ?_⟩, hstop⟩
        intro h0
        exact absurd (hn h0) (by simp)
      | ended =>
        cases hs
        exact ⟨⟨ht, fun h0 => absurd (hn h0) (by simp)⟩, rfl⟩
      | closing | closed | stopped =>
        cases hs
        exact ⟨⟨ht, hn⟩, rfl⟩
      | failed | retrying | backingOff => simp [Safe, Child.isidle] at hsafe
    | sofiEnds =>
      cases hs
      exact ⟨⟨ht, hn⟩, rfl⟩
    | sofiStopped =>
      cases h with
      | ended =>
        cases hs
        exact ⟨⟨rfl, hn⟩, rfl⟩
      | closed =>
        cases hs
        exact ⟨⟨rfl, fun _ => rfl⟩, rfl⟩
      | failed | running | retrying | backingOff | closing | stopped => simp [enabled] at he
    | backoff t a =>
      cases t with
      | timeout =>
        cases h <;> simp [enabled] at he
        cases hs
        exact ⟨⟨ht, hn⟩, rfl⟩
      | stopped =>
        cases h <;> simp [enabled] at he
        simp [step, feed, handler, Timer.deliver, startConnecting_ok hsafe] at hs
        subst hs
        exact ⟨⟨rfl, hn⟩, rfl⟩
  · rw [h.step_unsafe he hsafe] at hs
    cases hs

theorem run_alternates {h : List (Cofi × Event)} (r : machine.Run h c) :
    Attached c ∧ Alternates false (made h) ∧ after false (made h) = c.sofi.initialised := by
  induction r with
  | init hi =>
    obtain ⟨a, hc⟩ := hi
    obtain ⟨ha, hi⟩ := create_attached hc
    exact ⟨ha, by simp [Alternates], hi.symm⟩
  | step r he hs ih =>
    obtain ⟨ha, halt, hafter⟩ := ih
    have hp := reachable_phase r.reachable
    obtain ⟨ha', hi⟩ := hp.step_attached ha he hs
    refine ⟨ha', ?_, ?_⟩
    · rw [made_cons, alternates_append, hafter]
      exact ⟨halt, hp.calls_turn ha he⟩
    · rw [made_cons, after_append, hafter, hi]

end Runs

/-- The calls of every run, those of an event it may end with included, come in turns, and
the SOFI is terminated when nanomsg may destroy the COFI. -/
theorem init_term_alternate {h : List (Cofi × Event)} {c : Cofi} (r : machine.Run h c) :
    (∀ e, c.enabled e = true → Alternates false (made h ++ c.calls e)) ∧
      (0 < c.epbaseStopped → after false (made h) = false) := by
  obtain ⟨ha, halt, hafter⟩ := run_alternates r
  constructor
  · intro e he
    rw [alternates_append, hafter]
    exact ⟨halt, (reachable_phase r.reachable).calls_turn ha he⟩
  · intro hn
    rw [hafter, ha.turn, ha.told hn]
    simp

theorem reconnect_alternates :
    ∃ h c, machine.Run h c ∧ made h = [.init, .term, .init, .term] ∧ 0 < c.epbaseStopped ∧
      Alternates false (made h ++ c.calls .userStop) ∧ after false (made h) = false := by
  have r₀ : machine.Run [] ⟨.active, .active, .idle, ⟨true, .active, false⟩, 0⟩ :=
    .init ⟨⟨0, 0⟩, rfl⟩
  have r₁ := (r₀.step (e := .sofiEnds) rfl rfl).step (e := .sofiStopped) rfl rfl
  have r₂ := (r₁.step (e := .backoff .timeout ⟨0, 0⟩) rfl rfl).step
    (e := .backoff .stopped ⟨0, 0⟩) rfl rfl
  have r := ((r₂.step (e := .userStop) rfl rfl).step (e := .sofiEnds) rfl rfl).step
    (e := .sofiStopped) rfl rfl
  have ha := init_term_alternate r
  exact ⟨_, _, r, rfl, by decide, ha.1 .userStop rfl, ha.2 (by decide)⟩

end OfiTransport.Cofi
