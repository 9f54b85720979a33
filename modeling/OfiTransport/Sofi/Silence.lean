import OfiTransport.Sofi.Keepalive

/-! What the keepalive of a SOFI counts, over any run: the ticks since it last heard of its peer,
and those since it last gave the peer something to hear. -/

namespace OfiTransport.Sofi

open Lib

/-- The ticks without a packet of the peer, when there were `n` before the event. -/
def Event.silence (n : Nat) : Event → Nat
  | .rxCompleted .. => 0
  | .keepalive .timeout _ => n + 1
  | _ => n

/-- The ticks since something was sent, or known to have arrived.  The third one sends a
packet, and the count starts again. -/
def Event.pause (n : Nat) : Event → Nat
  | .send .. | .txCompleted _ => 0
  | .keepalive .timeout _ => if n < 2 then n + 1 else 0
  | _ => n

theorem Event.pause_le {n : Nat} (e : Event) (h : n ≤ 2) : e.pause n ≤ 2 := by
  unfold Event.pause
  split
  · exact Nat.zero_le 2
  · exact Nat.zero_le 2
  · split
    · omega
    · exact Nat.zero_le 2
  · exact h

def silence : List (Sofi × Event) → Nat
  | [] => 0
  | q :: h => q.2.silence (silence h)

def pause : List (Sofi × Event) → Nat
  | [] => 0
  | q :: h => q.2.pause (pause h)

section Counting

variable {s s' : Sofi} {e : Event}

theorem connecting_silent (hp : Phase s) (hst : s.state = .connecting)
    (h : s.step e = .ok s') : e.silence 0 = 0 ∧ e.pause 0 = 0 := by
  have refused : ∀ {s₁ : Sofi} {i : Input}, s₁.feed i = .ok s' → s₁.fsm = s.fsm →
      s₁.state = s.state → s₁.error = s.error → s₁.outActive = s.outActive →
      ∃ type r p, i = .eq type r p :=
    fun h h₁ h₂ h₃ h₄ => feed_connecting (hp.congr h₁ h₂ h₃ h₄) (h₂.trans hst) h
  cases e with
  | keepalive t aux =>
    obtain ⟨_, _, _, hi⟩ := refused h rfl rfl rfl rfl
    cases hi
  | _ => exact ⟨rfl, rfl⟩

theorem connected_counts {recvmsg : Int} {p : Post} (hf : s.fsm = .active)
    (h : s.connected recvmsg p = .ok s') (hact : s'.state = .active) :
    s'.ticksIn = s.ticksIn ∧ s'.ticksOut = s.ticksOut := by
  have closed : ∀ {s₁ : Sofi} {err : Int}, s₁.fsm = .active → s₁.criticalError err ≠ .ok s' := by
    intro s₁ err h₁ hc
    rw [(criticalError_cases hc h₁).state] at hact
    cases hact
  simp only [connected, bind_eq_ok] at h
  obtain ⟨_, _, h⟩ := h
  split at h
  · exact absurd h (closed hf)
  · split at h
    · simp only [bind_eq_ok] at h
      obtain ⟨⟨ret, s₁⟩, hsend, h⟩ := h
      obtain ⟨_, _, ⟨hne, rfl⟩ | ⟨rfl, rfl⟩⟩ := egressSend_cases hsend
      · simp only [hne, ne_eq, not_false_eq_true, if_true] at h
        exact absurd h (closed hf)
      · simp only [ne_eq, not_true, if_false, pure_eq_ok] at h
        subst h
        exact ⟨rfl, rfl⟩
    · simp only [pure_eq_ok] at h
      subst h
      exact ⟨rfl, rfl⟩

theorem connecting_counts (hp : Phase s) (hst : s.state = .connecting) (he : s.enabled e = true)
    (h : s.step e = .ok s') (hact : s'.state = .active) :
    s'.ticksIn = s.ticksIn ∧ s'.ticksOut = s.ticksOut := by
  have hf := hp.fsm_of_connecting hst
  cases step_moves hp he h with
  | connected =>
    simp only [step, feed, hf, reduceCtorEq, if_false, handler_connecting hst, handlerConnecting,
      if_true] at h
    exact connected_counts hf h hact
  | stay _ hk | sent _ _ hk | txCompleted _ hk | txErrored _ _ hk | txDiscarded _ _ _ hk =>
    exact absurd (hact.symm.trans (hk.state.trans hst)) (by simp)
  | rxCompleted hs | rxDrained hs | rxErrored hs => exact absurd (hst.symm.trans hs) (by simp)
  | fetched hk | freed hk => exact absurd (hact.symm.trans (hk.state.trans hst)) (by simp)
  | close hc | sendFailed hc | connectFailed hc | txFailed hc | rxFailed hc =>
    exact absurd (hact.symm.trans hc.state) (by simp)

theorem tick_cases {aux : Int} (hf : s.fsm = .active) (hi : s.ticksIn ≤ 4) (ho : s.ticksOut ≤ 2)
    (h : s.keepaliveTimeout aux = .ok s') :
    s.ticksIn = 4 ∧ s'.state = .closing ∧ s'.error = -ETIMEDOUT ∨
      s.ticksIn < 4 ∧
        (s.ticksOut < 2 ∧ s'.state = s.state ∧ s'.ticksIn = s.ticksIn + 1 ∧
            s'.ticksOut = s.ticksOut + 1 ∧ s'.egress = s.egress ∨
          s.ticksOut = 2 ∧ aux = 0 ∧ s'.state = s.state ∧ s'.ticksIn = s.ticksIn + 1 ∧
            s'.ticksOut = 0 ∧ s'.egress.wire = keepalivePacket :: s.egress.wire ∨
          s.ticksOut = 2 ∧ aux ≠ 0 ∧ s'.state = .closing ∧ s'.error = aux) := by
  have hi' : (s.ticksIn + 1) % 256 = s.ticksIn + 1 := by omega
  have ho' : (s.ticksOut + 1) % 256 = s.ticksOut + 1 := by omega
  simp only [keepaliveTimeout, egressPostAux, hi', ho'] at h
  by_cases h₁ : s.ticksIn < 4
  · refine .inr ⟨h₁, ?_⟩
    rw [if_neg (by omega)] at h
    by_cases h₂ : s.ticksOut < 2
    · rw [if_neg (by omega)] at h
      obtain rfl := Except.ok.inj h
      exact .inl ⟨h₂, rfl, rfl, rfl, rfl⟩
    · rw [if_pos (by omega)] at h
      have h₂' : s.ticksOut = 2 := by omega
      by_cases ha : aux = 0
      · simp only [ha, ne_eq, not_true, if_false, Except.ok.injEq] at h
        subst h
        exact .inr (.inl ⟨h₂', ha, rfl, rfl, rfl, rfl⟩)
      · simp only [ha, ne_eq, not_false_eq_true, if_true] at h
        have hc := criticalError_cases h hf
        exact .inr (.inr ⟨h₂', ha, hc.state, hc.error⟩)
  · rw [if_pos (by omega)] at h
    have hc := criticalError_cases h hf
    exact .inl ⟨by omega, hc.state, hc.error⟩

theorem active_counts (hp : Phase s) (hst : s.state = .active) (hi : s.ticksIn ≤ 4)
    (ho : s.ticksOut ≤ 2) (h : s.step e = .ok s') (hact : s'.state = .active) :
    s'.ticksIn = e.silence s.ticksIn ∧ s'.ticksOut = e.pause s.ticksOut ∧ s'.ticksIn ≤ 4 := by
  have hf := hp.fsm_of_active hst
  have closed : ∀ {s₁ : Sofi} {err : Int}, s₁.fsm = .active → s₁.criticalError err ≠ .ok s' := by
    intro s₁ err h₁ hc
    rw [(criticalError_cases hc h₁).state] at hact
    cases hact
  cases e with
  | eq type r p =>
    simp only [step, feed_active hf hst, handlerActive] at h
    split at h
    · exact absurd h (closed hf)
    · split at h
      · exact absurd h (closed hf)
      · cases h
  | txCompleted c =>
    simp only [step] at h
    rw [feed_active (s := s.removeTx c) hf hst] at h
    obtain ⟨n, e, -, rfl⟩ := egressHandle_cases h
    exact ⟨rfl, rfl, hi⟩
  | txError op err =>
    cases op with
    | ctx c =>
      simp only [step] at h
      rw [feed_active (s := s.removeTx c) hf hst] at h
      simp only [handlerActive, bind_eq_ok] at h
      obtain ⟨s₁, hs₁, h⟩ := h
      obtain ⟨_, _, _, _, rfl⟩ := egressHandleError_cases hs₁
      exact absurd h (closed hf)
    | aux =>
      simp only [step] at h
      rw [feed_active (s := { s with auxOut := s.auxOut - 1 }) hf hst] at h
      cases h
  | rxCompleted b bytes late r =>
    simp only [step] at h
    rw [feed_active (s := { s with ingress := arrive s.ingress b bytes }) hf hst] at h
    simp only [handlerActive, rxCompleted_eq, Except.ok.injEq] at h
    subst h
    exact ⟨rfl, rfl, Nat.zero_le 4⟩
  | rxError b err =>
    simp only [step] at h
    rw [feed_active (s := { s with
      ingress := { s.ingress with posted := s.ingress.posted.erase b } }) hf hst] at h
    exact absurd h (closed hf)
  | keepalive t aux =>
    simp only [step] at h
    rw [feed_active (s := { s with timerKeepalive := .deliver t }) hf hst] at h
    cases t with
    | timeout =>
      obtain ⟨-, hc, -⟩ | ⟨h₁, ⟨h₂, -, hin, hout, -⟩ | ⟨h₂, -, -, hin, hout, -⟩ | ⟨-, -, hc, -⟩⟩ :=
        tick_cases (s := { s with timerKeepalive := .deliver .timeout }) hf hi ho h
      · exact absurd (hc.symm.trans hact) (by simp)
      · exact ⟨hin, hout.trans (if_pos h₂).symm, hin ▸ h₁⟩
      · have h₃ : ¬s.ticksOut < 2 := Nat.not_lt_of_le (Nat.le_of_eq h₂.symm)
        exact ⟨hin, hout.trans (if_neg h₃).symm, hin ▸ h₁⟩
      · exact absurd (hc.symm.trans hact) (by simp)
    | stopped =>
      simp only [handlerActive, bind_eq_ok, pure_eq_ok] at h
      obtain ⟨_, _, rfl⟩ := h
      exact ⟨rfl, rfl, hi⟩
  | shutdownTimer t =>
    simp only [step] at h
    rw [feed_active (s := { s with timerShutdown := .deliver t }) hf hst] at h
    cases h
  | send m p =>
    have hout := hp.out_of_active hst
    simp only [step, send, egressStage, bind_eq_ok, hst, hout, reduceCtorEq, if_false,
      if_true] at h
    obtain ⟨_, _, ⟨ret, s₁⟩, hsend, h⟩ := h
    obtain ⟨_, _, ⟨hne, rfl⟩ | ⟨rfl, rfl⟩⟩ := egressSend_cases hsend
    · simp only [hne, ne_eq, not_false_eq_true, if_true] at h
      exact absurd h (closed hf)
    · simp only [ne_eq, not_true, if_false, pure_eq_ok] at h
      subst h
      exact ⟨rfl, rfl, hi⟩
  | recv late =>
    simp only [step, recv, bind_eq_ok, pure_eq_ok] at h
    obtain ⟨_, _, _, _, rfl⟩ := h
    exact ⟨rfl, rfl, hi⟩
  | stop =>
    rcases fsmStop_cases h with ⟨hn, -⟩ | hc
    · exact absurd hf hn
    · exact absurd (hc.state.symm.trans hact) (by simp)
  | free m =>
    cases h
    exact ⟨rfl, rfl, hi⟩

end Counting

structure Counted (h : List (Sofi × Event)) (s : Sofi) : Prop where
  connecting : s.state = .connecting → silence h = 0 ∧ pause h = 0
  silence : s.state = .active → s.ticksIn = silence h ∧ s.ticksIn ≤ 4
  pause : s.state = .active → s.ticksOut = pause h ∧ s.ticksOut ≤ 2

theorem run_counted {h : List (Sofi × Event)} {s : Sofi} (r : machine.Run h s) : Counted h s := by
  induction r with
  | init hi =>
    obtain ⟨u, _, _, rfl⟩ := machine_init hi
    exact ⟨fun _ => ⟨rfl, rfl⟩, by simp [Setup.started], by simp [Setup.started]⟩
  | @step h s e s' r he hs ih =>
    obtain ⟨hp, hq⟩ := reachable_quiet r.reachable
    rcases (step_moves hp he hs).control with hk | ⟨_, hc, -, -⟩ | ⟨hst, -, hact, -⟩
    · have active : s'.state = .active → s'.ticksIn = e.silence (silence h) ∧
          s'.ticksOut = e.pause (pause h) ∧ s'.ticksIn ≤ 4 := by
        intro hact
        have hst := hk.state.symm.trans hact
        obtain ⟨hi, hle⟩ := ih.silence hst
        obtain ⟨ho, hle'⟩ := ih.pause hst
        rw [← hi, ← ho]
        exact active_counts hp hst hle hle' hs hact
      refine ⟨fun h₁ => ?_, fun h₁ => ?_, fun h₁ => ?_⟩
      · have hst := hk.state.symm.trans h₁
        obtain ⟨h₂, h₃⟩ := ih.connecting hst
        obtain ⟨h₄, h₅⟩ := connecting_silent hp hst hs
        exact ⟨(congrArg e.silence h₂).trans h₄, (congrArg e.pause h₃).trans h₅⟩
      · obtain ⟨h₂, -, h₃⟩ := active h₁
        exact ⟨h₂, h₃⟩
      · obtain ⟨hle, hle'⟩ := ih.pause (hk.state.symm.trans h₁)
        obtain ⟨-, h₂, -⟩ := active h₁
        exact ⟨h₂, h₂ ▸ e.pause_le (hle ▸ hle')⟩
    · have hst' : ∀ {t}, t ≠ .closing → s'.state ≠ t := fun hne he => hne (he.symm.trans hc.state)
      exact ⟨fun h => absurd h (hst' (by simp)), fun h => absurd h (hst' (by simp)),
        fun h => absurd h (hst' (by simp))⟩
    · obtain ⟨h₁, h₂⟩ := ih.connecting hst
      obtain ⟨h₃, h₄⟩ := connecting_silent hp hst hs
      obtain ⟨h₅, h₆⟩ := connecting_counts hp hst he hs hact
      obtain ⟨h₇, h₈⟩ := hq hst
      have hin : s'.ticksIn = e.silence (silence h) := by rw [h₁, h₃, h₅, h₇]
      have hout : s'.ticksOut = e.pause (pause h) := by rw [h₂, h₄, h₆, h₈]
      refine ⟨fun hc => absurd (hc.symm.trans hact) (by simp), fun _ => ⟨hin, ?_⟩,
        fun _ => ⟨hout, ?_⟩⟩
      · rw [h₅, h₇]
        exact Nat.zero_le 4
      · rw [h₆, h₈]
        exact Nat.zero_le 2

/-- An active SOFI has had four ticks at most since it last heard of its peer, and the next one
drops it if it has had four.  Otherwise, when two ticks have passed since there was last
something for the peer to hear, the next sends a packet, and closes if it cannot. -/
theorem dropped_when_silent {h : List (Sofi × Event)} {s s' : Sofi} {aux : Int}
    (r : machine.Run h s) (hst : s.state = .active)
    (hs : s.step (.keepalive .timeout aux) = .ok s') :
    silence h ≤ 4 ∧ pause h ≤ 2 ∧
      (silence h = 4 ∧ s'.state = .closing ∧ s'.error = -ETIMEDOUT ∨
        silence h < 4 ∧
          (pause h < 2 ∧ s'.state = .active ∧ s'.egress = s.egress ∨
            pause h = 2 ∧ aux = 0 ∧ s'.state = .active ∧
              s'.egress.wire = keepalivePacket :: s.egress.wire ∨
            pause h = 2 ∧ aux ≠ 0 ∧ s'.state = .closing ∧ s'.error = aux)) := by
  obtain ⟨hi, hle⟩ := (run_counted r).silence hst
  obtain ⟨ho, hle'⟩ := (run_counted r).pause hst
  have hf := (reachable_quiet r.reachable).1.fsm_of_active hst
  simp only [step] at hs
  rw [feed_active (s := { s with timerKeepalive := .deliver .timeout }) hf hst] at hs
  rw [← hi, ← ho]
  refine ⟨hle, hle', ?_⟩
  obtain h₁ | ⟨h₁, ⟨h₂, h₃, -, -, h₄⟩ | ⟨h₂, h₃, h₄, -, -, h₅⟩ | h₂⟩ :=
    tick_cases (s := { s with timerKeepalive := .deliver .timeout }) hf hle hle' hs
  · exact .inl h₁
  · exact .inr ⟨h₁, .inl ⟨h₂, h₃.trans hst, h₄⟩⟩
  · exact .inr ⟨h₁, .inr (.inl ⟨h₂, h₃, h₄.trans hst, h₅⟩)⟩
  · exact .inr ⟨h₁, .inr (.inr h₂)⟩

theorem silent_peer_dropped : ∃ h s s', machine.Run h s ∧ s.state = .active ∧
    s.egress.wire = [keepalivePacket] ∧ silence h = 4 ∧ pause h = 1 ∧
    s.step (.keepalive .timeout 0) = .ok s' ∧ s'.state = .closing ∧ s'.error = -ETIMEDOUT := by
  have r₁ : machine.Run _ _ := .step (e := .keepalive .stopped 0)
    (.step (e := .keepalive .timeout 0) online_run rfl rfl) rfl rfl
  have r₂ : machine.Run _ _ := .step (e := .keepalive .stopped 0)
    (.step (e := .keepalive .timeout 0) r₁ rfl rfl) rfl rfl
  have r₃ : machine.Run _ _ := .step (e := .keepalive .stopped 0)
    (.step (e := .keepalive .timeout 0) r₂ rfl rfl) rfl rfl
  have r₄ : machine.Run _ _ := .step (e := .keepalive .stopped 0)
    (.step (e := .keepalive .timeout 0) r₃ rfl rfl) rfl rfl
  obtain ⟨-, -, ⟨-, hc, he⟩ | ⟨hlt, -⟩⟩ :=
    dropped_when_silent r₄ rfl (show step _ (.keepalive .timeout 0) = .ok _ from rfl)
  · exact ⟨_, _, _, r₄, rfl, rfl, rfl, rfl, rfl, hc, he⟩
  · exact absurd hlt (by decide)

end OfiTransport.Sofi
