import OfiTransport.Sofi.Lifecycle

/-! A stop comes to its end: how many events it may take, and that none of them stays out. -/

namespace OfiTransport

open Lib

namespace Sofi

def Event.due : Event → Bool
  | .txCompleted _ | .txError (.ctx _) _ | .keepalive .. | .shutdownTimer _ => true
  | _ => false

def alarms : SocketState → Timer → Nat
  | .connected, _ => 4
  | .draining, .armed => 4
  | .draining, _ => 3
  | .closing, .armed => 2
  | .closing, _ => 1
  | _, .idle => 0
  | _, _ => 1

def left (s : Sofi) : Nat :=
  s.egress.txOut.length + (if s.timerKeepalive = .idle then 0 else 1) +
    alarms s.socketState s.timerShutdown

section Left

variable {s s' s₁ : Sofi} {e : Event}

theorem left_congr (hx : s'.egress.txOut = s.egress.txOut)
    (hk : s'.timerKeepalive = s.timerKeepalive) (hs : s'.socketState = s.socketState)
    (ht : s'.timerShutdown = s.timerShutdown) : s'.left = s.left := by
  rw [left, left, hx, hk, hs, ht]

theorem shutdownWait_left (h : s.shutdownWait = .ok s') : s'.left ≤ s.left := by
  rcases shutdownWait_cases h with ⟨_, rfl⟩ | ⟨_, hc, rfl⟩ | ⟨hr, hc, rfl⟩
  · exact Nat.le_refl _
  · simp only [left, hc, alarms]
    omega
  · rcases hc with hc | hc <;> simp [left, hc, hr.shutdown, alarms]

theorem shutdownEq_left {type : Int} (h : s.shutdownEq type = .ok s') : s'.left ≤ s.left := by
  simp only [shutdownEq] at h
  split at h
  · cases h
    have h₁ : alarms .closed s.timerShutdown.stop ≤ alarms s.socketState s.timerShutdown := by
      cases s.socketState <;> cases s.timerShutdown <;> decide
    exact Nat.add_le_add_left h₁ _
  · split at h
    · cases h
    · cases h
      exact Nat.le_refl _

theorem shutdownTx_left {c : Nat} {i : Input}
    (hi : i = .txCompleted c ∨ ∃ err, i = .txError (.ctx c) err) (h : s.shutdownTx i = .ok s') :
    s'.left = s.left := by
  rcases hi with rfl | ⟨err, rfl⟩
  · simp only [shutdownTx] at h
    split at h
    · obtain ⟨n, eg, hh, rfl⟩ := egressHandle_cases h
      exact left_congr (Egress.handle_txOut hh) rfl rfl rfl
    · cases h
      rfl
  · simp only [shutdownTx] at h
    split at h
    · obtain ⟨c', eg, hop, hh, rfl⟩ := egressHandleError_cases h
      exact left_congr (Egress.handleError_txOut hh) rfl rfl rfl
    · cases h
      rfl

theorem removeTx_left {c : Nat} (hc : c ∈ s.egress.txOut) : (s.removeTx c).left + 1 = s.left := by
  have hn := List.length_erase_of_mem hc
  have hpos := List.length_pos_of_mem hc
  calc (s.removeTx c).left + 1
      = (s.egress.txOut.erase c).length + (if s.timerKeepalive = .idle then 0 else 1) +
          alarms s.socketState s.timerShutdown + 1 := rfl
    _ = s.left := by
      rw [left]
      omega

/-- What is due brings the end nearer, and nothing puts it off. -/
theorem stopping_left (hf : s.fsm = .stopping) (hst : s.state = .closing) (hw : Winding s)
    (he : s.enabled e = true) (h : s.step e = .ok s') :
    s'.left + (if e.due then 1 else 0) ≤ s.left := by
  cases e with
  | eq type r p =>
    have h := feed_stopping h hf
    simp only [shutdown, bind_eq_ok] at h
    obtain ⟨s₁, hs, hw⟩ := h
    exact Nat.le_trans (shutdownWait_left hw) (shutdownEq_left hs)
  | txCompleted c =>
    simp only [enabled, decide_eq_true_eq] at he
    have h := feed_stopping h hf
    simp only [shutdown, bind_eq_ok] at h
    obtain ⟨s₁, hs, hw⟩ := h
    have h₁ := shutdownTx_left (.inl rfl) hs
    have h₂ := shutdownWait_left hw
    have h₃ := removeTx_left he.2
    simp only [Event.due, if_true]
    omega
  | txError op err =>
    cases op with
    | ctx c =>
      simp only [enabled, decide_eq_true_eq] at he
      have h := feed_stopping h hf
      simp only [shutdown, bind_eq_ok] at h
      obtain ⟨s₁, hs, hw⟩ := h
      have h₁ := shutdownTx_left (.inr ⟨err, rfl⟩) hs
      have h₂ := shutdownWait_left hw
      have h₃ := removeTx_left he.2
      simp only [Event.due, if_true]
      omega
    | aux =>
      have h := feed_stopping h hf
      simp only [shutdown, bind_eq_ok, shutdownTx] at h
      obtain ⟨s₁, hs, hw⟩ := h
      split at hs
      · cases hs
      · cases hs
        have h₁ := shutdownWait_left hw
        exact h₁
  | rxCompleted b bytes late r =>
    have h₁ := shutdownWait_left (feed_stopping h hf)
    exact h₁
  | rxError b err =>
    have h₁ := shutdownWait_left (feed_stopping h hf)
    exact h₁
  | keepalive t aux =>
    simp only [enabled, decide_eq_true_eq] at he
    cases t with
    | timeout => cases feed_stopping h hf
    | stopped =>
      have hk := Timer.owes_stopped.1 he.2
      have h₁ := shutdownWait_left (feed_stopping h hf)
      have h₂ : left { s with timerKeepalive := .idle } + 1 = s.left := by
        simp only [left, hk, if_true, reduceCtorEq, if_false]
        omega
      simp only [Event.due, if_true]
      exact Nat.le_trans (Nat.add_le_add_right h₁ 1) (Nat.le_of_eq h₂)
  | shutdownTimer t =>
    simp only [enabled, decide_eq_true_eq] at he
    have h := feed_stopping h hf
    simp only [Event.due, if_true]
    cases t with
    | timeout =>
      have ht := Timer.owes_timeout.1 he.2
      simp only [shutdown, if_pos (hw.armed ht)] at h
      cases h
      rcases hw.armed ht with hs | hs <;> simp [left, ht, hs, alarms, Timer.stop, Timer.deliver]
    | stopped =>
      have ht := Timer.owes_stopped.1 he.2
      simp only [shutdown] at h
      cases hs : s.socketState with
      | draining =>
        simp only [hs, bind_eq_ok, pure_eq_ok, Timer.start_eq_ok] at h
        obtain ⟨t, ⟨_, rfl⟩, rfl⟩ := h
        simp [left, ht, hs, alarms]
      | closing =>
        simp only [hs] at h
        refine Nat.le_trans (Nat.add_le_add_right (shutdownWait_left h) 1) ?_
        simp [left, ht, hs, alarms, Timer.deliver]
      | closed =>
        simp only [hs] at h
        refine Nat.le_trans (Nat.add_le_add_right (shutdownWait_left h) 1) ?_
        simp [left, ht, hs, alarms, Timer.deliver]
      | idle => simp [hs] at h
      | connecting => simp [hs] at h
      | connected => simp [hs] at h
  | send m p =>
    simp only [step, send, egressStage, bind_eq_ok, hst, if_true, pure_eq_ok] at h
    obtain ⟨_, _, rfl⟩ := h
    exact Nat.le_refl _
  | recv late =>
    simp only [step, recv, bind_eq_ok, nnAssert_eq_ok, pure_eq_ok] at h
    obtain ⟨⟨ret, i⟩, hfetch, _, rfl, rfl⟩ := h
    exact Nat.le_refl _
  | stop =>
    simp only [step, fsmStop, hf, reduceCtorEq, if_false] at h
    cases h
    exact Nat.le_refl _
  | free m =>
    cases h
    exact Nat.le_refl _

end Left

section Rest

variable {s s' t : Sofi} {e : Event} {h h' : List (Sofi × Event)}

theorem closing_left (ha : Accounted s) (ht : Timing s) (hst : s.state = .closing)
    (he : s.enabled e = true) (h : s.step e = .ok s') :
    s'.left + (if e.due then 1 else 0) ≤ s.left := by
  cases hf : s.fsm with
  | active => exact absurd hf (ha.phase.fsm_of_closing hst)
  | stopping => exact stopping_left hf hst (ht.stopping hf).toWinding he h
  | idle =>
    -- a SOFI that has stopped is at most stopped again
    cases e with
    | stop =>
      simp only [step, fsmStop, hf, reduceCtorEq, if_false] at h
      cases h
      exact Nat.le_refl _
    | free m =>
      cases h
      exact Nat.le_refl _
    | txError op err => cases op <;> simp [enabled, hf] at he
    | _ => simp [enabled, hf] at he

theorem Stopping.exists_due (h : Stopping s) (hf : s.fsm = .stopping) :
    ∃ e, e.due = true ∧ s.enabled e = true ∧ (∀ l, Lawful l e) ∧ NoErrorHandled s e := by
  have hne : s.fsm ≠ .idle := by simp [hf]
  rcases h.awaits with hk | ht | hx
  · refine ⟨.keepalive .stopped 0, rfl, ?_, fun _ => trivial, trivial⟩
    rcases h.keepalive with hi | hs
    · simp [hi, Timer.quiet] at hk
    · simp [enabled, hf, hs, Timer.owes]
  · cases hs : s.timerShutdown with
    | idle => simp [hs, Timer.quiet] at ht
    | expired => simp [hs, Timer.quiet] at ht
    | armed =>
      exact ⟨.shutdownTimer .timeout, rfl, by simp [enabled, hf, hs, Timer.owes],
        fun _ => trivial, trivial⟩
    | stopping =>
      exact ⟨.shutdownTimer .stopped, rfl, by simp [enabled, hf, hs, Timer.owes],
        fun _ => trivial, trivial⟩
  · obtain ⟨c, hc⟩ := List.exists_mem_of_ne_nil _ hx
    exact ⟨.txCompleted c, rfl, by simp [enabled, hf, hc], fun _ => trivial, trivial⟩

theorem lastFindsEmpty_of_empty (h : s.ingress.bufs.popHead = none) : LastFindsEmpty s e := by
  cases e with
  | keepalive t aux =>
    cases t
    · trivial
    · exact fun _ _ _ => h
  | txCompleted c => exact fun _ _ _ _ => h
  | txError op err =>
    cases op
    · exact fun _ _ _ _ => h
    · trivial
  | _ => trivial

theorem Living.next (hl : Living h s) (ht : Timing s) (hf : s.fsm = .stopping) :
    ∃ e s', (e.due = true ∨ e = .recv 0) ∧ Lawful h e ∧ Orderly s e ∧ s.enabled e = true ∧
      s.step e = .ok s' := by
  have hst := hl.phase.closing (by simp [hf])
  have flush : ∀ e, s.state ≠ .closing → Fails s e → Flushable s := fun e hc => absurd hst hc
  obtain ⟨F, B, Q, hr, hann⟩ := hl.receiving
  have hc := hr.closing hst
  cases hp : s.ingress.bufs.popHead with
  | none =>
    obtain ⟨e, hd, hen, hlaw, hcr⟩ := (ht.stopping hf).exists_due hf
    have hno : ¬ Overruns s e := by
      cases e <;> first | exact id | simp [Event.due] at hd
    obtain ⟨s', hs', _⟩ := hl.step_total hen (hlaw h) hno
    exact ⟨e, s', .inl hd, hlaw h, ⟨hcr, flush e, lastFindsEmpty_of_empty hp⟩, hen, hs'⟩
  | some b =>
    have hb : s.ingress.nnbusy = true := by
      by_contra hb
      rw [hc.lists.popHead, hc.drained (by simpa using hb)] at hp
      cases hp
    have hen : s.enabled (.recv 0) = true := by
      have hrec := hc.received
      rw [if_pos hb] at hrec
      simp [enabled, hf, hrec]
    obtain ⟨s', hs'⟩ := (hr.announced hann).read 0 hen
    exact ⟨.recv 0, s', .inr rfl, trivial, ⟨trivial, flush _, trivial⟩, hen, hs'⟩

theorem machine_resting (r : pooled.Run h s) (hg : Machine.Guarded Orderly h) :
    Accounted s ∧ Timing s := by
  refine (r.always_of_guarded (P := fun s => Accounted s ∧ Timing s)
    (fun s (hi : pooled.init s) => machine_timing hi.1) ?_ hg).1
  rintro s e s' ⟨ha, ht⟩ ho he hs
  have ha' := ha.step he hs ho.credit ho.flush
  exact ⟨ha', ht.step ha ha' he hs ho.last⟩

theorem pooled_living_run (r : pooled.Run h s) (hl : Machine.Heeds Lawful h) : Living h s := by
  refine r.invariant_of_heeds (I := Living) (fun s hi => pooled_living hi) ?_ hl
  intro h s e s' _ hliv hlaw hen hs
  exact hliv.step hen hlaw hs

theorem left_le (s : Sofi) : s.left ≤ s.egress.txOut.length + 5 := by
  have ha : alarms s.socketState s.timerShutdown ≤ 4 := by
    cases s.socketState <;> cases s.timerShutdown <;> decide
  have hk : (if s.timerKeepalive = .idle then 0 else 1) ≤ 1 := by
    split <;> omega
  rw [left]
  omega

/-- A stop never waits for something that is not going to come, and besides the sends that
were posted it waits for five events: four of the shutdown timer, one of the keepalive
timer. -/
theorem stop_ends (r : pooled.Run h s) (hg : Machine.Guarded Orderly h)
    (hf : s.fsm = .stopping) (p : pooled.Path s h' t) (hg' : Machine.Guarded Orderly h')
    (hl : Machine.Heeds Lawful (h' ++ h)) :
    h'.countP (fun q => q.2.due) ≤ s.egress.txOut.length + 5 ∧
    ((t.fsm = .idle ∧ t.stoppeds = 1) ∨
      ∃ e t', (e.due = true ∨ e = .recv 0) ∧ Lawful (h' ++ h) e ∧ Orderly t e ∧
        t.enabled e = true ∧ t.step e = .ok t') := by
  obtain ⟨ha, ht⟩ := machine_resting r hg
  have hst := ha.phase.closing (by simp [hf])
  obtain ⟨⟨ha', ht', hst'⟩, hn⟩ := p.count_add_le (I := fun s => Accounted s ∧ Timing s ∧
      s.state = .closing) (C := Orderly) (a := fun _ e => e.due) left (by
    rintro s e s' ⟨ha, ht, hst⟩ ho he hs
    have ha' := ha.step he hs ho.credit ho.flush
    exact ⟨⟨ha', ht.step ha ha' he hs ho.last, (step_moves ha.phase he hs).closing hst⟩,
      closing_left ha ht hst he hs⟩) hg' ⟨ha, ht, hst⟩
  have hliv := pooled_living_run (r.path p) hl
  refine ⟨Nat.le_trans (Nat.le_trans (Nat.le_add_left _ _) hn) (left_le s), ?_⟩
  cases hft : t.fsm with
  | active => exact absurd hft (ha'.phase.fsm_of_closing hst')
  | stopping => exact .inr (hliv.next ht' hft)
  | idle =>
    rcases hliv.ended with ⟨_, hn⟩ | ⟨_, _, hn, _⟩
    · have hpos := ht'.stopped hft
      omega
    · exact .inl ⟨rfl, hn⟩

def sending : Sofi :=
  match online.step (.send ⟨⟨0, 0⟩, ⟨0x20000, 8⟩⟩ .easy) with
  | .ok s => s
  | .error _ => online

def leaving : Sofi :=
  match sending.step .stop with
  | .ok s => s
  | .error _ => sending

theorem leaving_run : pooled.Run
    [(sending, .stop), (online, .send ⟨⟨0, 0⟩, ⟨0x20000, 8⟩⟩ .easy),
      (fresh, .eq FI_CONNECTED 0 .easy)] leaving :=
  .step (.step (.step (.init fresh_pooled) rfl rfl) rfl rfl) rfl rfl

theorem leaving_ends : leaving.left = 6 ∧ ∃ t, leaving.step (.keepalive .stopped 0) = .ok t ∧
    ((t.fsm = .idle ∧ t.stoppeds = 1) ∨
      ∃ e t', (e.due = true ∨ e = .recv 0) ∧ t.enabled e = true ∧ t.step e = .ok t') := by
  obtain ⟨t, ht⟩ : ∃ t, leaving.step (.keepalive .stopped 0) = .ok t := ⟨_, rfl⟩
  have hg : Machine.Guarded Orderly [(sending, .stop),
      (online, .send ⟨⟨0, 0⟩, ⟨0x20000, 8⟩⟩ .easy), (fresh, .eq FI_CONNECTED 0 .easy)] := by
    simp only [Machine.guarded_cons, Machine.guarded_nil, and_true]
    exact ⟨.of_not_fails (by decide), .of_not_fails (by decide), .of_not_fails (by decide)⟩
  have hg' : Machine.Guarded Orderly [(leaving, .keepalive .stopped 0)] := by
    simp only [Machine.guarded_cons, Machine.guarded_nil, and_true]
    exact .of_not_fails (by decide)
  have hl : Machine.Heeds Lawful [(leaving, .keepalive .stopped 0), (sending, .stop),
      (online, .send ⟨⟨0, 0⟩, ⟨0x20000, 8⟩⟩ .easy), (fresh, .eq FI_CONNECTED 0 .easy)] :=
    ⟨by decide, by decide, by decide, by decide, trivial⟩
  refine ⟨rfl, t, ht, ?_⟩
  have p : pooled.Path leaving [(leaving, .keepalive .stopped 0)] t := .step .refl rfl ht
  rcases (stop_ends leaving_run hg rfl p hg' hl).2 with hr | ⟨e, t', hd, _, _, hen, hs⟩
  · exact .inl hr
  · exact .inr ⟨e, t', hd, hen, hs⟩

end Rest

end Sofi

end OfiTransport
