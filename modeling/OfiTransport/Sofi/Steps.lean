import OfiTransport.Sofi.Machine

/-! What one step of a SOFI can do, said once: to its control state, to the receiving half
and to the sending half. -/

namespace OfiTransport.Sofi

open Lib

section Shutdown

variable {s s' : Sofi}

structure AtRest (s : Sofi) : Prop where
  egress : s.egress.empty = true
  ingress : s.ingress.empty = true
  keepalive : s.timerKeepalive = .idle
  shutdown : s.timerShutdown = .idle

theorem shutdownWait_cases (h : s.shutdownWait = .ok s') :
    (¬ AtRest s ∧ s' = s) ∨
    (AtRest s ∧ s.socketState = .connected ∧
      s' = { s with socketState := .draining, timerShutdown := .armed }) ∨
    (AtRest s ∧ (s.socketState = .connecting ∨ s.socketState = .closed) ∧
      s' = { s with
        socketState := .closed, epOpen := false, fsm := .idle, stoppeds := s.stoppeds + 1 }) := by
  simp only [shutdownWait] at h
  split at h
  · next hr =>
    cases h
    refine .inl ⟨?_, rfl⟩
    rintro ⟨he, hi, hk, hs⟩
    simp [he, hi, hk, hs] at hr
  · next hr =>
    simp only [not_or, Bool.not_eq_false, not_not] at hr
    have ha : AtRest s := ⟨hr.1, hr.2.1, hr.2.2.1, hr.2.2.2⟩
    refine .inr ?_
    cases hst : s.socketState with
    | connected =>
      simp only [hst, bind_eq_ok, pure_eq_ok, Timer.start_eq_ok] at h
      obtain ⟨t, ⟨_, rfl⟩, rfl⟩ := h
      exact .inl ⟨ha, rfl, rfl⟩
    | connecting =>
      simp [hst] at h
      exact .inr ⟨ha, .inl rfl, h.symm⟩
    | closed =>
      simp [hst] at h
      refine .inr ⟨ha, .inr rfl, ?_⟩
      rw [← h, ← hst]
    | idle => simp [hst] at h
    | closing => simp [hst] at h
    | draining => simp [hst] at h

structure SameData (s s' : Sofi) : Prop where
  state : s'.state = s.state
  error : s'.error = s.error
  ingress : s'.ingress = s.ingress
  egress : s'.egress = s.egress
  keepalive : s'.timerKeepalive = s.timerKeepalive

theorem shutdownWait_data (h : s.shutdownWait = .ok s') : SameData s s' := by
  rcases shutdownWait_cases h with ⟨_, rfl⟩ | ⟨_, _, rfl⟩ | ⟨_, _, rfl⟩ <;>
    exact ⟨rfl, rfl, rfl, rfl, rfl⟩

theorem shutdownWait_fsm (h : s.shutdownWait = .ok s') (hf : s.fsm = .stopping) :
    s'.fsm ≠ .active := by
  rcases shutdownWait_cases h with ⟨_, rfl⟩ | ⟨_, _, rfl⟩ | ⟨_, _, rfl⟩ <;> simp [hf]

/-- What the STOP action leaves behind: the queue of received messages is flushed, and on
an error the egress contexts too. -/
theorem shutdownStop_cases (h : s.shutdownStop = .ok s') :
    ∃ i e, s.ingress.flush = .ok i ∧
      ((s.error = 0 ∧ e = s.egress) ∨ (s.error ≠ 0 ∧ s.egress.flush = .ok e)) ∧
      s' = { s with
        state := .closing
        timerKeepalive := s.timerKeepalive.stop
        ingress := i
        egress := e } := by
  simp only [shutdownStop, bind_eq_ok] at h
  obtain ⟨i, hi, h⟩ := h
  refine ⟨i, ?_⟩
  by_cases he : s.error = 0
  · simp only [he, ne_eq, not_true, or_false, reduceCtorEq, if_false, pure_eq_ok] at h
    exact ⟨s.egress, hi, .inl ⟨he, rfl⟩, by rw [← h, ← he]⟩
  · simp only [he, ne_eq, not_false_eq_true, or_true, if_true, bind_eq_ok, pure_eq_ok] at h
    obtain ⟨e, he', rfl⟩ := h
    exact ⟨e, hi, .inr ⟨he, he'⟩, rfl⟩

structure Closes (s s' : Sofi) : Prop where
  active : s.fsm = .active
  fsm : s'.fsm ≠ .active
  state : s'.state = .closing
  error : s'.error = s.error
  ingress : s.ingress.flush = .ok s'.ingress
  egress : (s.error = 0 ∧ s'.egress = s.egress) ∨
    (s.error ≠ 0 ∧ s.egress.flush = .ok s'.egress)
  wait : ∃ s₁ : Sofi, s₁.shutdownWait = .ok s' ∧ s₁.fsm = .stopping ∧
    s₁.timerKeepalive = s.timerKeepalive.stop ∧ s₁.timerShutdown = s.timerShutdown

theorem fsmStop_cases (h : s.fsmStop = .ok s') :
    (s.fsm ≠ .active ∧ s' = s) ∨ Closes s s' := by
  simp only [fsmStop] at h
  split at h
  · next hf =>
    simp only [shutdown, bind_eq_ok] at h
    obtain ⟨s₁, hs, hw⟩ := h
    obtain ⟨i, e, hi, he, rfl⟩ := shutdownStop_cases hs
    have hd := shutdownWait_data hw
    refine .inr ⟨hf, shutdownWait_fsm hw rfl, hd.state, hd.error, ?_, ?_, _, hw, rfl, rfl, rfl⟩
    · rw [hd.ingress]
      exact hi
    · rw [hd.egress]
      exact he
  · next hf =>
    cases h
    exact .inl ⟨hf, rfl⟩

theorem criticalError_cases {err : Int} (h : s.criticalError err = .ok s') (hf : s.fsm = .active) :
    Closes { s with error := err } s' := by
  rcases fsmStop_cases h with ⟨hn, _⟩ | hc
  · exact absurd hf hn
  · exact hc

/-- What a SOFI that is shutting down does with an event: only TX events still matter, and
after an error not even those. -/
structure Drains (s : Sofi) (i : Input) (s' : Sofi) : Prop where
  fsm : s'.fsm ≠ .active
  state : s'.state = s.state
  error : s'.error = s.error
  ingress : s'.ingress = s.ingress
  egress : match i with
    | .txCompleted c =>
      (s.error = 0 ∧ ∃ n, s.egress.handle c = .ok (n, s'.egress)) ∨
        (s.error ≠ 0 ∧ s'.egress = s.egress)
    | .txError op _ =>
      (s.error = 0 ∧ ∃ c, op = .ctx c ∧ s.egress.handleError c = .ok s'.egress) ∨
        (s.error ≠ 0 ∧ s'.egress = s.egress)
    | _ => s'.egress = s.egress

theorem egressHandle_cases {c : Nat} (h : s.egressHandle c = .ok s') :
    ∃ n e, s.egress.handle c = .ok (n, e) ∧
      s' = { s with ticksOut := 0, egress := e, sents := if n then s.sents + 1 else s.sents } := by
  simp only [egressHandle, bind_eq_ok] at h
  obtain ⟨⟨n, e⟩, he, h⟩ := h
  refine ⟨n, e, he, ?_⟩
  cases n with
  | false =>
    simp only [Bool.false_eq_true, if_false, pure_eq_ok] at h
    exact h.symm
  | true =>
    simp only [if_true, pure_eq_ok] at h
    exact h.symm

theorem egressHandleError_cases {op : OpContext} (h : s.egressHandleError op = .ok s') :
    ∃ c e, op = .ctx c ∧ s.egress.handleError c = .ok e ∧ s' = { s with egress := e } := by
  cases op with
  | aux => cases h
  | ctx c =>
    simp only [egressHandleError, bind_eq_ok, pure_eq_ok] at h
    obtain ⟨e, he, rfl⟩ := h
    exact ⟨c, e, rfl, he, rfl⟩

theorem Drains.of_wait {i : Input} {s₁ : Sofi} (hw : s₁.shutdownWait = .ok s')
    (hf : s.fsm = .stopping) (h : SameData s s₁) (h₁ : s₁.fsm = s.fsm)
    (hi : ∀ c op err, i ≠ .txCompleted c ∧ i ≠ .txError op err) : Drains s i s' := by
  have hd := shutdownWait_data hw
  refine ⟨shutdownWait_fsm hw (h₁.trans hf), hd.state.trans h.state, hd.error.trans h.error,
    hd.ingress.trans h.ingress, ?_⟩
  cases i with
  | txCompleted c => exact absurd rfl (hi c .aux 0).1
  | txError op err => exact absurd rfl (hi 0 op err).2
  | _ => exact hd.egress.trans h.egress

theorem shutdown_drains {i : Input} (h : s.shutdown i = .ok s') (hf : s.fsm = .stopping)
    (hi : i ≠ .stop) : Drains s i s' := by
  have hsame : SameData s s := ⟨rfl, rfl, rfl, rfl, rfl⟩
  cases i with
  | start => cases h
  | stop => exact absurd rfl hi
  | rxCompleted b len late r => exact .of_wait h hf hsame rfl (by simp)
  | rxError err => exact .of_wait h hf hsame rfl (by simp)
  | keepalive t aux =>
    cases t with
    | timeout => cases h
    | stopped => exact .of_wait h hf hsame rfl (by simp)
  | eq type r p =>
    simp only [shutdown, bind_eq_ok] at h
    obtain ⟨s₁, hs, hw⟩ := h
    simp only [shutdownEq] at hs
    split at hs
    · cases hs
      exact .of_wait hw hf ⟨rfl, rfl, rfl, rfl, rfl⟩ rfl (by simp)
    · split at hs
      · cases hs
      · cases hs
        exact .of_wait hw hf hsame rfl (by simp)
  | shutdownTimer t =>
    cases t with
    | timeout =>
      simp only [shutdown] at h
      split at h
      · cases h
        exact ⟨by simp [hf], rfl, rfl, rfl, rfl⟩
      · cases h
        exact ⟨by simp [hf], rfl, rfl, rfl, rfl⟩
    | stopped =>
      simp only [shutdown] at h
      cases hst : s.socketState with
      | draining =>
        simp only [hst, bind_eq_ok, pure_eq_ok] at h
        obtain ⟨t, _, rfl⟩ := h
        exact ⟨by simp [hf], rfl, rfl, rfl, rfl⟩
      | closing =>
        simp only [hst] at h
        exact .of_wait h hf ⟨rfl, rfl, rfl, rfl, rfl⟩ rfl (by simp)
      | closed =>
        simp only [hst] at h
        exact .of_wait h hf hsame rfl (by simp)
      | idle => simp [hst] at h
      | connecting => simp [hst] at h
      | connected => simp [hst] at h
  | txCompleted c =>
    simp only [shutdown, bind_eq_ok] at h
    obtain ⟨s₁, hs, hw⟩ := h
    have hd := shutdownWait_data hw
    simp only [shutdownTx] at hs
    split at hs
    · next he =>
      obtain ⟨n, e, hh, rfl⟩ := egressHandle_cases hs
      exact ⟨shutdownWait_fsm hw hf, hd.state, hd.error, hd.ingress,
        .inl ⟨he, n, hh.trans (by rw [hd.egress])⟩⟩
    · next he =>
      cases hs
      exact ⟨shutdownWait_fsm hw hf, hd.state, hd.error, hd.ingress, .inr ⟨he, hd.egress⟩⟩
  | txError op err =>
    simp only [shutdown, bind_eq_ok] at h
    obtain ⟨s₁, hs, hw⟩ := h
    have hd := shutdownWait_data hw
    simp only [shutdownTx] at hs
    split at hs
    · next he =>
      obtain ⟨c, e, hop, hh, rfl⟩ := egressHandleError_cases hs
      exact ⟨shutdownWait_fsm hw hf, hd.state, hd.error, hd.ingress,
        .inl ⟨he, c, hop, hh.trans (by rw [hd.egress])⟩⟩
    · next he =>
      cases hs
      exact ⟨shutdownWait_fsm hw hf, hd.state, hd.error, hd.ingress, .inr ⟨he, hd.egress⟩⟩

end Shutdown

section Sending

variable {s s' : Sofi} {p : Post}

theorem egressSend_cases {ret : Int} (h : s.egressSend p = .ok (ret, s')) :
    ∃ e, s.egress.postBuffers p s.outmsg = .ok (ret, e) ∧
      ((ret ≠ 0 ∧ s' = { s with egress := e }) ∨
        (ret = 0 ∧ s' = { s with
          staged := false
          egress := e.atomicDec.2
          sents := if 1 < e.stageoutCounter then s.sents + 1 else s.sents })) := by
  simp only [egressSend, bind_eq_ok, nnAssert_eq_ok] at h
  obtain ⟨_, _, _, _, ⟨r, e⟩, hp, h⟩ := h
  simp only at h
  split at h
  · next hr =>
    simp only [pure_eq_ok, Prod.mk.injEq] at h
    obtain ⟨rfl, rfl⟩ := h
    exact ⟨e, hp, .inl ⟨hr, rfl⟩⟩
  · next hr =>
    have hr : r = 0 := by simpa using hr
    subst hr
    split at h
    · next hc =>
      simp only [pure_eq_ok, Prod.mk.injEq] at h
      obtain ⟨rfl, rfl⟩ := h
      have hc : 1 < e.stageoutCounter := hc
      exact ⟨e, hp, .inr ⟨rfl, by simp [hc, pipebaseSent]⟩⟩
    · next hc =>
      simp only [pure_eq_ok, Prod.mk.injEq] at h
      obtain ⟨rfl, rfl⟩ := h
      have hc : ¬ 1 < e.stageoutCounter := hc
      exact ⟨e, hp, .inr ⟨rfl, by simp [hc]⟩⟩

end Sending

section Moves

structure Phase (s : Sofi) : Prop where
  running : s.fsm = .active → s.state = .connecting ∨ s.state = .active
  closing : s.fsm ≠ .active → s.state = .closing
  error : s.fsm = .active → s.error = 0
  out : s.state ≠ .closing → (s.outActive = false ↔ s.state = .connecting)

theorem Phase.fsm_active {s : Sofi} (h : Phase s) (hs : s.state ≠ .closing) :
    s.fsm = .active := by
  by_contra hf
  exact hs (h.closing hf)

theorem Phase.fsm_of_connecting {s : Sofi} (h : Phase s) (hs : s.state = .connecting) :
    s.fsm = .active := h.fsm_active (by simp [hs])

theorem Phase.fsm_of_active {s : Sofi} (h : Phase s) (hs : s.state = .active) :
    s.fsm = .active := h.fsm_active (by simp [hs])

theorem Phase.out_of_active {s : Sofi} (h : Phase s) (hs : s.state = .active) :
    s.outActive = true := by
  by_contra ho
  have hc := (h.out (by simp [hs])).1 (by simpa using ho)
  simp [hs] at hc

theorem Phase.fsm_of_closing {s : Sofi} (h : Phase s) (hs : s.state = .closing) :
    s.fsm ≠ .active := by
  intro hf
  rcases h.running hf with h | h <;> simp [hs] at h

structure KeepsControl (s s' : Sofi) : Prop where
  fsm : s'.fsm = .active ↔ s.fsm = .active
  state : s'.state = s.state
  error : s'.error = s.error
  out : s.state ≠ .closing → s'.outActive = s.outActive
  timers : s.fsm = .active → s'.timerShutdown = s.timerShutdown ∧
    (s'.timerKeepalive = .idle → s.timerKeepalive = .idle)

structure Leaves (s s₁ : Sofi) : Prop where
  shutdown : s₁.timerShutdown = s.timerShutdown
  keepalive : s₁.timerKeepalive = .idle → s.timerKeepalive = .idle

def complete (late recvmsg : Int) (i : Ingress) (b len : Nat) : Ingress :=
  let i := i.handle late b len
  let (ret, i) := i.post recvmsg
  if ret = -EAGAIN then { i with postlater := true } else i

def removePosted (i : Ingress) (b : Nat) : Ingress := { i with posted := i.posted.erase b }

def Event.Passive (s : Sofi) : Event → Prop
  | .eq .. => s.state = .closing
  | .txError .aux _ => s.state = .closing
  | .keepalive .. => True
  | .shutdownTimer _ => True
  | .send .. => True
  | .stop => True
  | _ => False

def Event.Breaks (s : Sofi) : Event → Prop
  | .eq type _ _ => type < 0 ∨ type = FI_SHUTDOWN
  | .keepalive .timeout aux =>
    4 < (s.ticksIn + 1) % 256 ∨ (2 < (s.ticksOut + 1) % 256 ∧ aux ≠ 0)
  | _ => False

instance (s : Sofi) : DecidablePred (Event.Breaks s)
  | .eq .. | .keepalive .timeout _ => inferInstanceAs (Decidable (_ ∨ _))
  | .keepalive .stopped _ | .txCompleted _ | .txError .. | .rxCompleted .. | .rxError ..
  | .shutdownTimer _ | .send .. | .recv _ | .stop | .free _ => .isFalse id

/-- What one step can do to the two halves.  Where the connection closes, `s₁` is the state
in which the STOP action finds the SOFI. -/
inductive Moves (s : Sofi) : Event → Sofi → Prop
  | stay (he : e.Passive s) (hk : KeepsControl s s') (hi : s'.ingress = s.ingress)
      (ho : ∃ w, s'.egress = { s.egress with wire := w }) : Moves s e s'
  | close (hc : Closes s₁ s') (hl : Leaves s s₁) (hs : s.fsm = .active)
      (he : e.Breaks s ∨ (e = .stop ∧ s₁.error = s.error)) (hi : s₁.ingress = s.ingress)
      (ho : s₁.egress = s.egress) : Moves s e s'
  | sent (hs : s.outActive = true) (hst : s.state ≠ .closing) (hk : KeepsControl s s')
      (hi : s'.ingress = s.ingress) (hp : s.egress.postBuffers p m = .ok (0, e))
      (ho : s'.egress = e.atomicDec.2) : Moves s (.send m p) s'
  | sendFailed (hc : Closes s₁ s') (hl : Leaves s s₁) (hs : s.outActive = true)
      (hst : s.state ≠ .closing) (hr : ret ≠ 0) (hp : s.egress.postBuffers p m = .ok (ret, e))
      (hi : s₁.ingress = s.ingress) (ho : s₁.egress = e) (herr : s₁.error = ret) :
      Moves s (.send m p) s'
  | connected (hs : s.state = .connecting) (hfsm : s'.fsm = .active) (hst : s'.state = .active)
      (herr : s'.error = s.error) (hout : s'.outActive = true)
      (ht : s'.timerShutdown = s.timerShutdown ∧ s'.timerKeepalive ≠ .idle)
      (hr : (s.ingress.post r).1 = 0) (hi : s'.ingress = (s.ingress.post r).2)
      (ho : (s.staged = false ∧ s'.egress = s.egress) ∨
        ∃ e, s.egress.postBuffers p s.outmsg = .ok (0, e) ∧ s'.egress = e.atomicDec.2) :
      Moves s (.eq FI_CONNECTED r p) s'
  | connectFailed (hc : Closes s₁ s') (hl : Leaves s s₁) (hs : s.state = .connecting)
      (hi : s₁.ingress = (s.ingress.post r).2)
      (ho : (s₁.egress = s.egress ∧ (s.ingress.post r).1 ≠ 0 ∧ s₁.error = (s.ingress.post r).1) ∨
        (s.staged = true ∧ ∃ ret e, s.egress.postBuffers p s.outmsg = .ok (ret, e) ∧ ret ≠ 0 ∧
          s₁.egress = e ∧ s₁.error = ret)) :
      Moves s (.eq FI_CONNECTED r p) s'
  | txCompleted (he : s.fsm = .active ∨ s.error = 0) (hk : KeepsControl s s')
      (hi : s'.ingress = s.ingress) (ho : (s.removeTx c).egress.handle c = .ok (n, s'.egress)) :
      Moves s (.txCompleted c) s'
  | txFailed (hc : Closes s₁ s') (hl : Leaves s s₁) (hs : s.fsm = .active)
      (hi : s₁.ingress = s.ingress)
      (ho : (s.removeTx c).egress.handleError c = .ok s₁.egress) (herr : s₁.error = -err) :
      Moves s (.txError (.ctx c) err) s'
  | txErrored (hs : s.fsm ≠ .active) (he : s.error = 0) (hk : KeepsControl s s')
      (hi : s'.ingress = s.ingress) (ho : (s.removeTx c).egress.handleError c = .ok s'.egress) :
      Moves s (.txError (.ctx c) err) s'
  | txDiscarded (hev : e = .txCompleted c ∨ ∃ err, e = .txError (.ctx c) err)
      (hs : s.fsm ≠ .active) (he : s.error ≠ 0) (hk : KeepsControl s s')
      (hi : s'.ingress = s.ingress) (ho : s'.egress = (s.removeTx c).egress) : Moves s e s'
  | rxCompleted (hs : s.state = .active) (hk : KeepsControl s s') (ho : s'.egress = s.egress)
      (hi : s'.ingress = complete late r (arrive s.ingress b bytes) b bytes.length) :
      Moves s (.rxCompleted b bytes late r) s'
  | rxDrained (hs : s.state = .closing) (hk : KeepsControl s s') (ho : s'.egress = s.egress)
      (hi : s'.ingress = arrive s.ingress b bytes) : Moves s (.rxCompleted b bytes late r) s'
  | rxFailed (hc : Closes s₁ s') (hl : Leaves s s₁) (hs : s.state = .active)
      (hi : s₁.ingress = removePosted s.ingress b) (ho : s₁.egress = s.egress)
      (herr : s₁.error = -err) : Moves s (.rxError b err) s'
  | rxErrored (hs : s.state = .closing) (hk : KeepsControl s s') (ho : s'.egress = s.egress)
      (hi : s'.ingress = removePosted s.ingress b) : Moves s (.rxError b err) s'
  | fetched (hk : KeepsControl s s') (ho : s'.egress = s.egress)
      (hi : Ingress.fetch late { s.ingress with received := s.ingress.received - 1 } =
        .ok (0, s'.ingress)) : Moves s (.recv late) s'
  | freed (hk : KeepsControl s s') (ho : s'.egress = s.egress)
      (hi : s'.ingress = freeMessage s.ingress m) : Moves s (.free m) s'

theorem KeepsControl.refl (s : Sofi) : KeepsControl s s :=
  ⟨Iff.rfl, rfl, rfl, fun _ => rfl, fun _ => ⟨rfl, id⟩⟩

theorem Leaves.refl (s : Sofi) : Leaves s s := ⟨rfl, id⟩

theorem Drains.keeps {s s' : Sofi} {i : Input} (h : Drains s i s') (hp : Phase s)
    (hf : s.fsm = .stopping) : KeepsControl s s' where
  fsm := by simp [h.fsm, hf]
  state := h.state
  error := h.error
  out hs := absurd (hp.closing (by simp [hf])) hs
  timers h := by simp [hf] at h

theorem connected_moves {s s' : Sofi} {r : Int} {p : Post} (hp : Phase s)
    (hs : s.state = .connecting) (h : s.connected r p = .ok s') :
    Moves s (.eq FI_CONNECTED r p) s' := by
  have hf := hp.fsm_of_connecting hs
  simp only [connected, bind_eq_ok] at h
  obtain ⟨t, ht, h⟩ := h
  have ht : t = .armed := (Timer.start_eq_ok.1 ht).2
  subst ht
  have hl : ∀ s₁ : Sofi, s₁.timerShutdown = s.timerShutdown → s₁.timerKeepalive = .armed →
      Leaves s s₁ := fun s₁ h₁ h₂ => ⟨h₁, fun h => by simp [h₂] at h⟩
  split at h
  · next hr =>
    exact .connectFailed (criticalError_cases h hf) (hl _ rfl rfl) hs rfl (.inl ⟨rfl, hr, rfl⟩)
  · next hr =>
    have hr : (s.ingress.post r).1 = 0 := by simpa using hr
    split at h
    · next hstaged =>
      simp only [bind_eq_ok] at h
      obtain ⟨⟨ret, s₁⟩, hsend, h⟩ := h
      obtain ⟨e, hpb, ⟨hne, rfl⟩ | ⟨rfl, rfl⟩⟩ := egressSend_cases hsend
      · simp only [hne, ne_eq, not_false_eq_true, if_true] at h
        exact .connectFailed (criticalError_cases h hf) (hl _ rfl rfl) hs rfl
          (.inr ⟨hstaged, ret, e, hpb, hne, rfl, rfl⟩)
      · simp only [ne_eq, not_true, if_false, pure_eq_ok] at h
        subst h
        exact .connected hs hf rfl rfl rfl ⟨rfl, by simp⟩ hr rfl (.inr ⟨e, hpb, rfl⟩)
    · next hstaged =>
      simp only [pure_eq_ok] at h
      subst h
      exact .connected hs hf rfl rfl rfl ⟨rfl, by simp⟩ hr rfl (.inl ⟨by simpa using hstaged, rfl⟩)

theorem keepaliveTimeout_moves {s s' : Sofi} {aux : Int} (hf : s.fsm = .active)
    (h : keepaliveTimeout aux { s with timerKeepalive := .expired } = .ok s') :
    Moves s (.keepalive .timeout aux) s' := by
  have hl : ∀ s₁ : Sofi, s₁.timerShutdown = s.timerShutdown → s₁.timerKeepalive ≠ .idle →
      Leaves s s₁ := fun s₁ h₁ h₂ => ⟨h₁, fun h => absurd h h₂⟩
  simp only [keepaliveTimeout, egressPostAux] at h
  split at h
  · next hi =>
    exact .close (criticalError_cases h hf) (hl _ rfl (by simp [Timer.stop])) hf (.inl (.inl hi))
      rfl rfl
  · split at h
    · next ho =>
      by_cases ha : aux = 0
      · simp only [ha, ne_eq, not_true, if_false] at h
        cases h
        exact .stay trivial ⟨Iff.rfl, rfl, rfl, fun _ => rfl,
          fun _ => ⟨rfl, fun h => by simp [Timer.stop] at h⟩⟩ rfl ⟨_, rfl⟩
      · simp only [ha, ne_eq, not_false_eq_true, if_true] at h
        exact .close (criticalError_cases h hf) (hl _ rfl (by simp)) hf (.inl (.inr ⟨ho, ha⟩))
          rfl rfl
    · cases h
      exact .stay trivial ⟨Iff.rfl, rfl, rfl, fun _ => rfl,
        fun _ => ⟨rfl, fun h => by simp [Timer.stop] at h⟩⟩ rfl ⟨_, rfl⟩

theorem send_moves {s s' : Sofi} {p : Post} {m : Msg} (hp : Phase s)
    (h : s.send p m = .ok s') : Moves s (.send m p) s' := by
  simp only [send, egressStage, bind_eq_ok] at h
  obtain ⟨_, _, h⟩ := h
  split at h
  · simp only [pure_eq_ok] at h
    subst h
    exact .stay trivial ⟨Iff.rfl, rfl, rfl, fun _ => rfl, fun _ => ⟨rfl, id⟩⟩ rfl ⟨_, rfl⟩
  · next hst =>
    have hf := hp.fsm_active hst
    split at h
    · next ho =>
      simp only [bind_eq_ok] at h
      obtain ⟨⟨ret, s₁⟩, hsend, h⟩ := h
      obtain ⟨e, hpb, ⟨hne, rfl⟩ | ⟨rfl, rfl⟩⟩ := egressSend_cases hsend
      · simp only [hne, ne_eq, not_false_eq_true, if_true] at h
        exact .sendFailed (criticalError_cases h hf) ⟨rfl, id⟩ ho hst hne hpb rfl rfl rfl
      · simp only [ne_eq, not_true, if_false, pure_eq_ok] at h
        subst h
        exact .sent ho hst ⟨Iff.rfl, rfl, rfl, fun _ => rfl, fun _ => ⟨rfl, id⟩⟩ rfl hpb rfl
    · simp only [pure_eq_ok] at h
      subst h
      exact .stay trivial ⟨Iff.rfl, rfl, rfl, fun _ => rfl, fun _ => ⟨rfl, id⟩⟩ rfl ⟨_, rfl⟩

theorem rxCompleted_eq (s : Sofi) (b len : Nat) (late r : Int) :
    s.rxCompleted b len late r =
      { s with ticksIn := 0, ingress := complete late r s.ingress b len } := by
  simp only [Sofi.rxCompleted, complete, ingressHandle]
  by_cases hr : (Ingress.post r (s.ingress.handle late b len)).1 = -EAGAIN <;> simp [hr]

theorem feed_active {s : Sofi} {i : Input} (hf : s.fsm = .active) (hst : s.state = .active) :
    s.feed i = s.handlerActive i := by
  simp [feed, hf, handler_active hst]

theorem feed_cases {s s' : Sofi} {i : Input} (hp : Phase s) (hf : s.fsm ≠ .idle) (hi : i ≠ .stop)
    (h : s.feed i = .ok s') :
    (s.fsm = .stopping ∧ s.state = .closing ∧ Drains s i s') ∨
      (s.fsm = .active ∧ s.handler i = .ok s') := by
  simp only [feed] at h
  split at h
  · next hs => exact .inl ⟨hs, hp.closing (by simp [hs]), shutdown_drains h hs hi⟩
  · next hs =>
    refine .inr ⟨?_, h⟩
    cases hfs : s.fsm with
    | idle => exact absurd hfs hf
    | active => rfl
    | stopping => exact absurd hfs hs

theorem Phase.congr {s s₁ : Sofi} (h : Phase s) (hf : s₁.fsm = s.fsm) (hs : s₁.state = s.state)
    (he : s₁.error = s.error) (ho : s₁.outActive = s.outActive) : Phase s₁ where
  running h₁ := hs ▸ h.running (hf ▸ h₁)
  closing h₁ := hs ▸ h.closing (hf ▸ h₁)
  error h₁ := he ▸ h.error (hf ▸ h₁)
  out h₁ := by
    rw [ho, hs]
    exact h.out (hs ▸ h₁)

theorem handler_state {s s' : Sofi} {i : Input} (hp : Phase s) (hf : s.fsm = .active)
    (h : s.handler i = .ok s') (hi : ∀ type r p, i ≠ .eq type r p) : s.state = .active := by
  rcases hp.running hf with hst | hst
  · exfalso
    cases i with
    | eq type r p => exact hi type r p rfl
    | _ => simp [handler_connecting hst, handlerConnecting] at h
  · exact hst

theorem eq_moves {s s' : Sofi} {type r : Int} {p : Post} (hp : Phase s) (hf : s.fsm ≠ .idle)
    (h : s.feed (.eq type r p) = .ok s') : Moves s (.eq type r p) s' := by
  rcases feed_cases hp hf (by simp) h with ⟨hs, hst, hd⟩ | ⟨hs, hh⟩
  · exact .stay hst (hd.keeps hp hs) hd.ingress ⟨s.egress.wire, hd.egress⟩
  · rcases hp.running hs with hst | hst
    · simp only [handler_connecting hst, handlerConnecting] at hh
      split at hh
      · next ht =>
        subst ht
        exact connected_moves hp hst hh
      · split at hh
        · next ht =>
          exact .close (criticalError_cases hh hs) ⟨rfl, id⟩ hs
            (.inl (.inl ht)) rfl rfl
        · cases hh
    · simp only [handler_active hst, handlerActive] at hh
      split at hh
      · next ht =>
        exact .close (criticalError_cases hh hs)
          ⟨rfl, id⟩ hs (.inl (.inr ht)) rfl rfl
      · split at hh
        · next ht =>
          exact .close (criticalError_cases hh hs) ⟨rfl, id⟩ hs
            (.inl (.inl ht)) rfl rfl
        · cases hh

theorem tx_moves {s s' : Sofi} {c : Nat} {i : Input} {e : Event} (hp : Phase s) (hf : s.fsm ≠ .idle)
    (hi : (i = .txCompleted c ∧ e = .txCompleted c) ∨
      ∃ err, i = .txError (.ctx c) err ∧ e = .txError (.ctx c) err)
    (h : (s.removeTx c).feed i = .ok s') : Moves s e s' := by
  have hp₁ : Phase (s.removeTx c) := hp.congr rfl rfl rfl rfl
  have hne : i ≠ .stop := by
    rcases hi with ⟨rfl, _⟩ | ⟨err, rfl, _⟩ <;> simp
  rcases feed_cases hp₁ hf hne h with ⟨hs, hst, hd⟩ | ⟨hs, h⟩
  · have hk : KeepsControl s s' := by
      have hk := hd.keeps hp₁ hs
      exact ⟨hk.fsm, hk.state, hk.error, hk.out, hk.timers⟩
    have hs : s.fsm ≠ .active := hp.fsm_of_closing hst
    have hout := hd.egress
    rcases hi with ⟨rfl, rfl⟩ | ⟨err, rfl, rfl⟩
    · rcases hout with ⟨he, n, hh⟩ | ⟨he, hh⟩
      · exact .txCompleted (.inr he) hk hd.ingress hh
      · exact .txDiscarded (.inl rfl) hs he hk hd.ingress hh
    · rcases hout with ⟨he, c', hc, hh⟩ | ⟨he, hh⟩
      · cases hc
        exact .txErrored hs he hk hd.ingress hh
      · exact .txDiscarded (.inr ⟨err, rfl⟩) hs he hk hd.ingress hh
  · have hst := handler_state hp₁ hs h (by rcases hi with ⟨rfl, _⟩ | ⟨err, rfl, _⟩ <;> simp)
    rcases hi with ⟨rfl, rfl⟩ | ⟨err, rfl, rfl⟩
    · simp only [handler_active hst, handlerActive] at h
      obtain ⟨n, e, hh, rfl⟩ := egressHandle_cases h
      exact .txCompleted (.inl hs) ⟨Iff.rfl, rfl, rfl, fun _ => rfl, fun _ => ⟨rfl, id⟩⟩ rfl hh
    · simp only [handler_active hst, handlerActive, bind_eq_ok] at h
      obtain ⟨s₁, hh, hc⟩ := h
      obtain ⟨c', e, hop, hh, rfl⟩ := egressHandleError_cases hh
      cases hop
      exact .txFailed (criticalError_cases hc hs) ⟨rfl, id⟩ hs rfl hh rfl

/-- What a step does to a SOFI in the phases it goes through. -/
theorem step_moves {s s' : Sofi} {e : Event} (hp : Phase s) (he : s.enabled e = true)
    (h : s.step e = .ok s') : Moves s e s' := by
  cases e with
  | eq type r p => exact eq_moves hp (by simpa [enabled] using he) h
  | txCompleted c =>
    simp only [enabled, decide_eq_true_eq] at he
    exact tx_moves hp he.1 (.inl ⟨rfl, rfl⟩) h
  | txError op err =>
    cases op with
    | ctx c =>
      simp only [enabled, decide_eq_true_eq] at he
      exact tx_moves hp he.1 (.inr ⟨err, rfl, rfl⟩) h
    | aux =>
      simp only [enabled, decide_eq_true_eq] at he
      have hp₁ : Phase { s with auxOut := s.auxOut - 1 } := hp.congr rfl rfl rfl rfl
      rcases feed_cases hp₁ he.1 (by simp) h with ⟨hs, hst, hd⟩ | ⟨hs, h⟩
      · have hk := hd.keeps hp₁ hs
        rcases hd.egress with ⟨_, c, hc, _⟩ | ⟨_, hh⟩
        · cases hc
        · exact .stay hst ⟨hk.fsm, hk.state, hk.error, hk.out, hk.timers⟩ hd.ingress
            ⟨s.egress.wire, hh⟩
      · have hst := handler_state hp₁ hs h (by simp)
        simp [handler_active hst, handlerActive, egressHandleError, bind, Except.bind] at h
  | rxCompleted b bytes late r =>
    simp only [enabled, decide_eq_true_eq] at he
    have hp₁ : Phase { s with ingress := arrive s.ingress b bytes } := hp.congr rfl rfl rfl rfl
    rcases feed_cases hp₁ he.1 (by simp) h with ⟨hs, hst, hd⟩ | ⟨hs, h⟩
    · have hk := hd.keeps hp₁ hs
      exact .rxDrained hst ⟨hk.fsm, hk.state, hk.error, hk.out, hk.timers⟩ hd.egress hd.ingress
    · have hst := handler_state hp₁ hs h (by simp)
      simp only [handler_active hst, handlerActive, rxCompleted_eq] at h
      cases h
      exact .rxCompleted hst ⟨Iff.rfl, rfl, rfl, fun _ => rfl, fun _ => ⟨rfl, id⟩⟩ rfl rfl
  | rxError b err =>
    simp only [enabled, decide_eq_true_eq] at he
    have hp₁ : Phase { s with ingress := removePosted s.ingress b } := hp.congr rfl rfl rfl rfl
    rcases feed_cases hp₁ he.1 (by simp) h with ⟨hs, hst, hd⟩ | ⟨hs, h⟩
    · have hk := hd.keeps hp₁ hs
      exact .rxErrored hst ⟨hk.fsm, hk.state, hk.error, hk.out, hk.timers⟩ hd.egress hd.ingress
    · have hst := handler_state hp₁ hs h (by simp)
      simp only [handler_active hst, handlerActive] at h
      exact .rxFailed (criticalError_cases h hs) ⟨rfl, id⟩ hst rfl rfl rfl
  | keepalive t aux =>
    simp only [enabled, decide_eq_true_eq] at he
    have hp₁ : Phase { s with timerKeepalive := .deliver t } := hp.congr rfl rfl rfl rfl
    rcases feed_cases hp₁ he.1 (by simp) h with ⟨hs, hst, hd⟩ | ⟨hs, h⟩
    · have hk := hd.keeps hp₁ hs
      exact .stay trivial ⟨hk.fsm, hk.state, hk.error, hk.out, fun h' => by simp [h'] at hs⟩
        hd.ingress ⟨s.egress.wire, hd.egress⟩
    · have hst := handler_state hp₁ hs h (by simp)
      cases t with
      | timeout =>
        simp only [handler_active hst, handlerActive] at h
        exact keepaliveTimeout_moves hs h
      | stopped =>
        simp only [handler_active hst, handlerActive, bind_eq_ok, pure_eq_ok] at h
        obtain ⟨t, ht, rfl⟩ := h
        have ht : t = .armed := (Timer.start_eq_ok.1 ht).2
        exact .stay trivial ⟨Iff.rfl, rfl, rfl, fun _ => rfl,
          fun _ => ⟨rfl, fun h => by simp [ht] at h⟩⟩ rfl ⟨s.egress.wire, rfl⟩
  | shutdownTimer t =>
    simp only [enabled, decide_eq_true_eq] at he
    have hp₁ : Phase { s with timerShutdown := .deliver t } := hp.congr rfl rfl rfl rfl
    rcases feed_cases hp₁ he.1 (by simp) h with ⟨hs, hst, hd⟩ | ⟨hs, h⟩
    · have hk := hd.keeps hp₁ hs
      exact .stay trivial ⟨hk.fsm, hk.state, hk.error, hk.out, fun h' => by simp [h'] at hs⟩
        hd.ingress ⟨s.egress.wire, hd.egress⟩
    · have hst := handler_state hp₁ hs h (by simp)
      simp [handler_active hst, handlerActive] at h
  | send m p => exact send_moves hp h
  | recv late =>
    simp only [step, recv, bind_eq_ok, nnAssert_eq_ok, pure_eq_ok] at h
    obtain ⟨⟨ret, i⟩, hfetch, _, rfl, rfl⟩ := h
    exact .fetched ⟨Iff.rfl, rfl, rfl, fun _ => rfl, fun _ => ⟨rfl, id⟩⟩ rfl hfetch
  | stop =>
    rcases fsmStop_cases h with ⟨_, rfl⟩ | hc
    · exact .stay trivial (.refl _) rfl ⟨_, rfl⟩
    · exact .close hc (.refl _) hc.active (.inr ⟨rfl, rfl⟩) rfl rfl
  | free m =>
    cases h
    exact .freed ⟨Iff.rfl, rfl, rfl, fun _ => rfl, fun _ => ⟨rfl, id⟩⟩ rfl rfl

theorem Closes.phase {s s' : Sofi} (h : Closes s s') : Phase s' where
  running hf := absurd hf h.fsm
  closing _ := h.state
  error hf := absurd hf h.fsm
  out hs := absurd h.state hs

theorem KeepsControl.phase {s s' : Sofi} (h : KeepsControl s s') (hp : Phase s) : Phase s' where
  running hf := by
    rw [h.state]
    exact hp.running (h.fsm.1 hf)
  closing hf := by
    rw [h.state]
    exact hp.closing (fun h' => hf (h.fsm.2 h'))
  error hf := by
    rw [h.error]
    exact hp.error (h.fsm.1 hf)
  out hs := by
    rw [h.state] at hs ⊢
    rw [h.out hs]
    exact hp.out hs

theorem Moves.control {s s' : Sofi} {e : Event} (h : Moves s e s') :
    KeepsControl s s' ∨
    (∃ s₁, Closes s₁ s' ∧ Leaves s s₁ ∧ s₁.ingress.nnbusy = s.ingress.nnbusy) ∨
    (s.state = .connecting ∧ s'.fsm = .active ∧ s'.state = .active ∧ s'.error = s.error ∧
      s'.outActive = true ∧ s'.timerShutdown = s.timerShutdown ∧ s'.timerKeepalive ≠ .idle) := by
  cases h with
  | stay _ hk => exact .inl hk
  | close hc hl _ _ hi => exact .inr (.inl ⟨_, hc, hl, by rw [hi]⟩)
  | sent _ _ hk => exact .inl hk
  | sendFailed hc hl _ _ _ _ hi => exact .inr (.inl ⟨_, hc, hl, by rw [hi]⟩)
  | connected hs hfsm hst herr hout ht =>
    exact .inr (.inr ⟨hs, hfsm, hst, herr, hout, ht.1, ht.2⟩)
  | connectFailed hc hl _ hi =>
    refine .inr (.inl ⟨_, hc, hl, ?_⟩)
    rw [hi, (Ingress.post_reposts _ _).nnbusy]
  | txCompleted _ hk => exact .inl hk
  | txFailed hc hl _ hi => exact .inr (.inl ⟨_, hc, hl, by rw [hi]⟩)
  | txErrored _ _ hk => exact .inl hk
  | txDiscarded _ _ _ hk => exact .inl hk
  | rxCompleted _ hk => exact .inl hk
  | rxDrained _ hk => exact .inl hk
  | rxFailed hc hl _ hi =>
    refine .inr (.inl ⟨_, hc, hl, ?_⟩)
    rw [hi]
    rfl
  | rxErrored _ hk => exact .inl hk
  | fetched hk => exact .inl hk
  | freed hk => exact .inl hk

theorem Moves.phase {s s' : Sofi} {e : Event} (h : Moves s e s') (hp : Phase s) : Phase s' := by
  rcases h.control with hk | ⟨_, hc, _⟩ | ⟨hs, hfsm, hst, herr, hout, _⟩
  · exact hk.phase hp
  · exact hc.phase
  · have he := hp.error (hp.fsm_of_connecting hs)
    exact ⟨fun _ => .inr hst, fun hf => absurd hfsm hf, fun _ => herr.trans he,
      fun _ => by simp [hst, hout]⟩

theorem Moves.closing {s s' : Sofi} {e : Event} (h : Moves s e s') (hst : s.state = .closing) :
    s'.state = .closing := by
  rcases h.control with hk | ⟨_, hc, _⟩ | ⟨hs, _⟩
  · exact hk.state.trans hst
  · exact hc.state
  · rw [hst] at hs
    cases hs

theorem Setup.started_phase (u : Setup) : Phase u.started :=
  ⟨fun _ => .inl rfl, fun h => absurd rfl h, fun _ => rfl, fun _ => iff_of_true rfl rfl⟩

end Moves

end OfiTransport.Sofi
