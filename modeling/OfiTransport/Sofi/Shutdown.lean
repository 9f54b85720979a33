import OfiTransport.Sofi.Credit
import OfiTransport.Sofi.Receive

/-! How a SOFI that was stopped comes to rest.  The shutdown function looks whether
everything is at rest only when it is fed an event, so the question is which events are
still to come. -/

namespace OfiTransport

open Lib

namespace Egress

variable {e e' : Egress} {c : Nat}

theorem handleError_txOut (h : e.handleError c = .ok e') : e'.txOut = e.txOut := by
  obtain ⟨r, rfl⟩ := handleError_inv h
  exact freeContext_txOut e c

theorem handle_txOut {n : Bool} (h : e.handle c = .ok (n, e')) : e'.txOut = e.txOut := by
  obtain ⟨_, r, k, rfl⟩ := handle_inv h
  exact freeContext_txOut e c

theorem postBuffers_failed {p : Post} {m : Msg} {ret : Int}
    (h : e.postBuffers p m = .ok (ret, e')) (hr : ret ≠ 0) :
    e.getContext = .ok none ∨ (Mr.describe p.answers e.mrm (iovs m)).ret ≠ 0 ∨ p.sendmsg ≠ 0 := by
  cases postBuffers_cases h with
  | noContext hg => exact .inl hg
  | refused _ _ hret =>
    rcases hret with rfl | rfl
    · exact .inr (.inl hr)
    · exact .inr (.inr hr)
  | posted _ hret => exact absurd hret hr

end Egress

namespace Ingress

theorem flush_nnbusy {i i' : Ingress} (h : i.flush = .ok i') : i'.nnbusy = i.nnbusy := by
  simp only [flush, bind_eq_ok] at h
  obtain ⟨q, _, h⟩ := h
  split at h
  · cases h
    rfl
  · simp only [bind_eq_ok, pure_eq_ok] at h
    obtain ⟨q', _, rfl⟩ := h
    rfl

theorem fetch_nothing {i i' : Ingress} {late : Int} (h : i.bufs.popHead = none) :
    i.fetch late ≠ .ok (0, i') := by
  intro hf
  simp only [fetch, Buffers.popPopulated, h, bind_eq_ok, pure_eq_ok, Prod.mk.injEq] at hf
  obtain ⟨_, _, hr, _⟩ := hf
  simp [EAGAIN] at hr

end Ingress

namespace Sofi

section Turns

/-- What a step does to the timers and the posted sends of a SOFI that is being stopped.
In the last four cases the shutdown function looks whether `s₁` is at rest. -/
inductive Turns (s : Sofi) : Event → Sofi → Prop
  | same {s' : Sofi} (hk : s'.timerKeepalive = s.timerKeepalive)
      (ht : s'.timerShutdown = s.timerShutdown)
      (hs : s'.socketState = s.socketState) (hf : s'.fsm = s.fsm)
      (hx : s'.egress.txOut = s.egress.txOut)
      (hq : s.ingress.bufs.popHead = none → s'.ingress.bufs.popHead = none) : Turns s e s'
  | expired (ht : s.timerShutdown = .armed)
      (hs : s' = { s with
        timerShutdown :=
          if s.socketState = .closing ∨ s.socketState = .draining then .stopping else .expired }) :
      Turns s (.shutdownTimer .timeout) s'
  | again (ht : s.timerShutdown = .stopping)
      (hs : s' = { s with socketState := .closing, timerShutdown := .armed }) :
      Turns s (.shutdownTimer .stopped) s'
  | waits {s₁ : Sofi} (hw : s₁.shutdownWait = .ok s') (hf : s₁.fsm = .stopping)
      (hk : s₁.timerKeepalive = s.timerKeepalive)
      (ht : (s₁.timerShutdown = s.timerShutdown ∧ s₁.socketState = s.socketState) ∨
        s₁.timerShutdown = s.timerShutdown.stop)
      (hx : s₁.egress.txOut = s.egress.txOut) (hb : s₁.ingress.bufs = s.ingress.bufs) : Turns s e s'
  | waitsKeepalive {s₁ : Sofi} (hw : s₁.shutdownWait = .ok s') (hf : s₁.fsm = .stopping)
      (hk : s₁.timerKeepalive = .idle) (ht : s₁.timerShutdown = s.timerShutdown)
      (hs : s₁.socketState = s.socketState) (hx : s₁.egress.txOut = s.egress.txOut)
      (hb : s₁.ingress.bufs = s.ingress.bufs) : Turns s (.keepalive .stopped aux) s'
  | waitsTimer {s₁ : Sofi} (hw : s₁.shutdownWait = .ok s') (hf : s₁.fsm = .stopping)
      (h₀ : s.timerShutdown = .stopping) (hk : s₁.timerKeepalive = s.timerKeepalive)
      (ht : s₁.timerShutdown = .idle) (hb : s₁.ingress.bufs = s.ingress.bufs) : Turns s e s'
  | waitsTx {s₁ : Sofi} {c : Nat} (hw : s₁.shutdownWait = .ok s') (hf : s₁.fsm = .stopping)
      (he : e = .txCompleted c ∨ ∃ err, e = .txError (.ctx c) err)
      (hk : s₁.timerKeepalive = s.timerKeepalive) (ht : s₁.timerShutdown = s.timerShutdown)
      (hs : s₁.socketState = s.socketState) (hx : s₁.egress.txOut = s.egress.txOut.erase c)
      (hb : s₁.ingress.bufs = s.ingress.bufs) : Turns s e s'

variable {s s' : Sofi} {e : Event}

theorem feed_stopping {i : Input} (h : s.feed i = .ok s') (hf : s.fsm = .stopping) :
    s.shutdown i = .ok s' := by
  simpa [feed, hf] using h

theorem send_turns {m : Msg} {p : Post} (hst : s.state = .closing) (h : s.send p m = .ok s') :
    Turns s (.send m p) s' := by
  simp only [send, egressStage, bind_eq_ok, hst, if_true, pure_eq_ok] at h
  obtain ⟨_, _, rfl⟩ := h
  exact .same rfl rfl rfl rfl rfl id

theorem eq_turns {type r : Int} {p : Post} (hf : s.fsm = .stopping)
    (h : s.feed (.eq type r p) = .ok s') : Turns s (.eq type r p) s' := by
  have h := feed_stopping h hf
  simp only [shutdown, bind_eq_ok] at h
  obtain ⟨s₁, hs, hw⟩ := h
  simp only [shutdownEq] at hs
  split at hs
  · cases hs
    exact .waits hw hf rfl (.inr rfl) rfl rfl
  · split at hs
    · cases hs
    · cases hs
      exact .waits hw hf rfl (.inl ⟨rfl, rfl⟩) rfl rfl

theorem tx_turns {c : Nat} {i : Input} (hf : s.fsm = .stopping)
    (hi : (i = .txCompleted c ∧ e = .txCompleted c) ∨
      ∃ err, i = .txError (.ctx c) err ∧ e = .txError (.ctx c) err)
    (h : (s.removeTx c).feed i = .ok s') : Turns s e s' := by
  have h := feed_stopping h hf
  rcases hi with ⟨rfl, rfl⟩ | ⟨err, rfl, rfl⟩
  · simp only [shutdown, bind_eq_ok, shutdownTx] at h
    obtain ⟨s₁, hs, hw⟩ := h
    split at hs
    · obtain ⟨n, eg, hh, rfl⟩ := egressHandle_cases hs
      exact .waitsTx hw hf (.inl rfl) rfl rfl rfl (Egress.handle_txOut hh) rfl
    · cases hs
      exact .waitsTx hw hf (.inl rfl) rfl rfl rfl rfl rfl
  · simp only [shutdown, bind_eq_ok, shutdownTx] at h
    obtain ⟨s₁, hs, hw⟩ := h
    split at hs
    · obtain ⟨c', eg, hop, hh, rfl⟩ := egressHandleError_cases hs
      exact .waitsTx hw hf (.inr ⟨err, rfl⟩) rfl rfl rfl (Egress.handleError_txOut hh) rfl
    · cases hs
      exact .waitsTx hw hf (.inr ⟨err, rfl⟩) rfl rfl rfl rfl rfl

theorem shutdownTimer_turns {t : TimerEvent} (hf : s.fsm = .stopping)
    (he : s.timerShutdown.owes t = true)
    (h : feed { s with timerShutdown := .deliver t } (.shutdownTimer t) = .ok s') :
    Turns s (.shutdownTimer t) s' := by
  have h := feed_stopping h hf
  cases t with
  | timeout =>
    refine .expired (Timer.owes_timeout.1 he) ?_
    simp only [shutdown] at h
    split at h
    · next hs =>
      cases h
      rw [if_pos hs]
      rfl
    · next hs =>
      cases h
      rw [if_neg hs]
      rfl
  | stopped =>
    have ht := Timer.owes_stopped.1 he
    simp only [shutdown] at h
    cases hsk : s.socketState with
    | draining =>
      simp only [hsk, bind_eq_ok, pure_eq_ok, Timer.start_eq_ok] at h
      obtain ⟨t, ⟨_, rfl⟩, rfl⟩ := h
      exact .again ht rfl
    | closing =>
      simp only [hsk] at h
      exact .waitsTimer h hf ht rfl rfl rfl
    | closed =>
      simp only [hsk] at h
      exact .waitsTimer h hf ht rfl rfl rfl
    | idle => simp [hsk] at h
    | connecting => simp [hsk] at h
    | connected => simp [hsk] at h

theorem step_turns (hf : s.fsm = .stopping) (hst : s.state = .closing) (he : s.enabled e = true)
    (h : s.step e = .ok s') : Turns s e s' := by
  cases e with
  | eq type r p => exact eq_turns hf h
  | txCompleted c => exact tx_turns hf (.inl ⟨rfl, rfl⟩) h
  | txError op err =>
    cases op with
    | ctx c => exact tx_turns hf (.inr ⟨err, rfl, rfl⟩) h
    | aux =>
      have h := feed_stopping h hf
      simp only [shutdown, bind_eq_ok, shutdownTx] at h
      obtain ⟨s₁, hs, hw⟩ := h
      split at hs
      · cases hs
      · cases hs
        exact .waits hw hf rfl (.inl ⟨rfl, rfl⟩) rfl rfl
  | rxCompleted b bytes late r =>
    exact .waits (feed_stopping h hf) hf rfl (.inl ⟨rfl, rfl⟩) rfl rfl
  | rxError b err =>
    exact .waits (feed_stopping h hf) hf rfl (.inl ⟨rfl, rfl⟩) rfl rfl
  | keepalive t aux =>
    cases t with
    | timeout => cases feed_stopping h hf
    | stopped => exact .waitsKeepalive (feed_stopping h hf) hf rfl rfl rfl rfl rfl
  | shutdownTimer t =>
    simp only [enabled, decide_eq_true_eq] at he
    exact shutdownTimer_turns hf he.2 h
  | send m p => exact send_turns hst h
  | recv late =>
    simp only [step, recv, bind_eq_ok, nnAssert_eq_ok, pure_eq_ok] at h
    obtain ⟨⟨ret, i⟩, hfetch, _, rfl, rfl⟩ := h
    refine .same rfl rfl rfl rfl rfl fun hq => absurd hfetch (Ingress.fetch_nothing ?_)
    exact hq
  | stop =>
    simp only [step, fsmStop, hf, reduceCtorEq, if_false] at h
    cases h
    exact .same rfl rfl rfl rfl rfl id
  | free m =>
    cases h
    exact .same rfl rfl rfl rfl rfl id

end Turns

section Waiting

variable {s s' s₁ : Sofi} {e : Event} {fl bl F B Q : List Nat}

def Awaits (s : Sofi) : Prop :=
  s.timerKeepalive.quiet = false ∨ s.timerShutdown.quiet = false ∨ s.egress.txOut ≠ []

structure Winding (s : Sofi) : Prop where
  keepalive : s.timerKeepalive = .idle ∨ s.timerKeepalive = .stopping
  armed : s.timerShutdown = .armed → s.socketState = .closing ∨ s.socketState = .draining
  unexpired : s.timerShutdown ≠ .expired
  drained : s.timerShutdown ≠ .idle → s.ingress.bufs.popHead = none

structure Stopping (s : Sofi) : Prop extends Winding s where
  awaits : Awaits s

theorem Winding.idle (h : Winding s) (hq : s.ingress.bufs.popHead ≠ none) :
    s.timerShutdown = .idle := by
  by_contra ht
  exact hq (h.drained ht)

theorem Winding.of_idle (hk : s.timerKeepalive = .idle ∨ s.timerKeepalive = .stopping)
    (ht : s.timerShutdown = .idle) : Winding s :=
  ⟨hk, by simp [ht], by simp [ht], fun h => absurd ht h⟩

theorem Winding.congr (h : Winding s)
    (hk : s₁.timerKeepalive = .idle ∨ s₁.timerKeepalive = .stopping)
    (ht : s₁.timerShutdown = s.timerShutdown) (hs : s₁.socketState = s.socketState)
    (hq : s.ingress.bufs.popHead = none → s₁.ingress.bufs.popHead = none) : Winding s₁ where
  keepalive := hk
  armed := by
    rw [ht, hs]
    exact h.armed
  unexpired := by
    rw [ht]
    exact h.unexpired
  drained := by
    rw [ht]
    exact fun h' => hq (h.drained h')

structure Timing (s : Sofi) : Prop where
  active : s.state = .active → s.timerKeepalive ≠ .idle
  running : s.fsm = .active → s.timerShutdown = .idle
  stopping : s.fsm = .stopping → Stopping s
  stopped : s.fsm = .idle → 0 < s.stoppeds

structure Halted (s : Sofi) : Prop where
  state : s.state = .closing
  busy : s.ingress.bufs.busy = none
  egress : s.egress.empty = false → s.egress.txOut ≠ []

theorem Timing.of_stopping (hst : s.state = .closing) (hf : s.fsm = .stopping) (h : Stopping s) :
    Timing s :=
  ⟨fun h' => by simp [hst] at h', fun h' => by simp [hf] at h', fun _ => h,
    fun h' => by simp [hf] at h'⟩

theorem Timing.of_active (hf : s.fsm = .active) (ht : s.timerShutdown = .idle)
    (hk : s.state = .active → s.timerKeepalive ≠ .idle) : Timing s :=
  ⟨hk, fun _ => ht, fun h' => by simp [hf] at h', fun h' => by simp [hf] at h'⟩

theorem wait_timing (hw : s₁.shutdownWait = .ok s') (hf : s₁.fsm = .stopping) (hh : Halted s')
    (hwd : Winding s₁) (hq : s₁.ingress.bufs.popHead ≠ none → Awaits s₁) : Timing s' := by
  rcases shutdownWait_cases hw with ⟨hr, rfl⟩ | ⟨hr, hs, rfl⟩ | ⟨hr, hs, rfl⟩
  · refine .of_stopping hh.state hf ⟨hwd, ?_⟩
    by_contra hn
    simp only [Awaits, not_or, Bool.not_eq_false, not_not] at hn
    obtain ⟨hk', ht', htx⟩ := hn
    apply hr
    refine ⟨?_, ?_, ?_, ?_⟩
    · by_contra he
      exact hh.egress (by simpa using he) htx
    · have hp : s'.ingress.bufs.popHead = none := by
        by_contra hp
        rcases hq hp with h | h | h
        · simp [hk'] at h
        · simp [ht'] at h
        · exact h htx
      simp [Ingress.empty, hp, hh.busy]
    · rcases hwd.keepalive with h | h
      · exact h
      · simp [h, Timer.quiet] at hk'
    · cases h : s'.timerShutdown with
      | idle => rfl
      | expired => exact absurd h hwd.unexpired
      | armed => simp [h, Timer.quiet] at ht'
      | stopping => simp [h, Timer.quiet] at ht'
  · have hp : s₁.ingress.bufs.popHead = none := by
      have he := hr.ingress
      simp only [Ingress.empty, decide_eq_true_eq] at he
      exact he.1
    exact .of_stopping hh.state hf ⟨⟨hwd.keepalive, fun _ => .inr rfl, by simp, fun _ => hp⟩,
      .inr (.inl rfl)⟩
  · refine ⟨fun h' => ?_, fun h' => ?_, fun h' => ?_, fun _ => Nat.succ_pos _⟩
    · rw [hh.state] at h'
      cases h'
    · cases h'
    · cases h'

theorem Closes.timing (h : Closes s₁ s') (hl : Leaves s s₁)
    (hn : s₁.ingress.nnbusy = s.ingress.nnbusy) (ht : Timing s) (hp : Phase s)
    (hf : s.fsm = .active) (hr : Receiving s F B Q) (hc : s'.ingress.Closed F' Q')
    (hh : Halted s') : Timing s' := by
  obtain ⟨s₂, hw, hf₂, hk, hts⟩ := h.wait
  have hts : s₂.timerShutdown = .idle := by rw [hts, hl.shutdown, ht.running hf]
  have hi : s₂.ingress = s'.ingress := (shutdownWait_data hw).ingress.symm
  refine wait_timing hw hf₂ hh (.of_idle ?_ hts) ?_
  · rw [hk]
    cases s₁.timerKeepalive <;> simp [Timer.stop]
  · intro hq
    rcases hp.running hf with hst | hst
    · have hnb : s'.ingress.nnbusy = false := by
        rw [Ingress.flush_nnbusy h.ingress, hn, (hr.connecting hst).nnbusy]
      rw [hi, hc.lists.popHead, hc.drained hnb] at hq
      simp at hq
    · left
      have hne : s₁.timerKeepalive ≠ .idle := fun h' => ht.active hst (hl.keepalive h')
      rw [hk]
      cases h' : s₁.timerKeepalive with
      | idle => exact absurd h' hne
      | _ => rfl

/-- The last event that a stopping SOFI can still count on finds the queue of received
messages empty. -/
def LastFindsEmpty (s : Sofi) : Event → Prop
  | .keepalive .stopped _ => s.state = .closing → s.timerShutdown = .idle →
    s.egress.txOut = [] → s.ingress.bufs.popHead = none
  | .txCompleted c => s.state = .closing → s.timerKeepalive = .idle → s.timerShutdown = .idle →
    s.egress.txOut = [c] → s.ingress.bufs.popHead = none
  | .txError (.ctx c) _ => s.state = .closing → s.timerKeepalive = .idle →
    s.timerShutdown = .idle → s.egress.txOut = [c] → s.ingress.bufs.popHead = none
  | _ => True

instance (s : Sofi) : DecidablePred (LastFindsEmpty s)
  | .keepalive .stopped _ | .txCompleted _ | .txError (.ctx _) _ =>
    inferInstanceAs (Decidable (_ → _))
  | .keepalive .timeout _ | .txError .aux _ | .eq .. | .rxCompleted .. | .rxError ..
  | .shutdownTimer _ | .send .. | .recv _ | .stop | .free _ => .isTrue trivial

theorem Turns.timing (h : Turns s e s') (hs : Stopping s) (hf : s.fsm = .stopping)
    (hst : s.state = .closing) (he : s.enabled e = true) (hl : LastFindsEmpty s e)
    (hh : Halted s') : Timing s' := by
  cases h with
  | same hk ht hss hfs hx hq =>
    refine .of_stopping hh.state (hfs.trans hf) ⟨hs.congr (hk ▸ hs.keepalive) ht hss hq, ?_⟩
    rw [Awaits, hk, ht, hx]
    exact hs.awaits
  | expired ht heq =>
    rw [if_pos (hs.armed ht)] at heq
    subst heq
    refine .of_stopping hh.state hf
      ⟨⟨hs.keepalive, ?_, ?_, fun _ => hs.drained ?_⟩, .inr (.inl rfl)⟩
    · simp
    · simp
    · simp [ht]
  | again ht heq =>
    subst heq
    refine .of_stopping hh.state hf
      ⟨⟨hs.keepalive, fun _ => .inl rfl, ?_, fun _ => hs.drained ?_⟩, .inr (.inl rfl)⟩
    · simp
    · simp [ht]
  | waits hw hf₁ hk ht hx hb =>
    -- the timer is as it was, or FI_SHUTDOWN has stopped it
    have hi : s.timerShutdown = .idle → _ = Timer.idle := fun hi =>
      ht.elim (fun ht => ht.1.trans hi) (fun ht => by rw [ht, hi]; rfl)
    refine wait_timing hw hf₁ hh ?_ ?_
    · rcases ht with ⟨ht, hss⟩ | ht
      · exact hs.congr (hk ▸ hs.keepalive) ht hss (by rw [hb]; exact id)
      · refine ⟨hk ▸ hs.keepalive, ?_, ?_, fun h' => ?_⟩
        · rw [ht]
          cases s.timerShutdown <;> simp [Timer.stop]
        · rw [ht]
          cases s.timerShutdown <;> simp [Timer.stop]
        · rw [hb]
          exact hs.drained fun h₀ => h' (hi h₀)
    · intro h'
      have h₀ := hs.idle (hb ▸ h')
      rw [Awaits, hk, hi h₀, ← h₀, hx]
      exact hs.awaits
  | waitsKeepalive hw hf₁ hk ht hss hx hb =>
    refine wait_timing hw hf₁ hh (hs.congr (.inl hk) ht hss (by rw [hb]; exact id)) ?_
    intro h'
    rw [hb] at h'
    rw [Awaits, hx]
    exact .inr (.inr fun htx => h' (hl hst (hs.idle h') htx))
  | waitsTimer hw hf₁ h₀ hk ht hb =>
    refine wait_timing hw hf₁ hh (.of_idle (hk ▸ hs.keepalive) ht) fun h' => ?_
    rw [hb] at h'
    exact absurd (hs.drained (by simp [h₀])) h'
  | @waitsTx _ _ _ c hw hf₁ hev hk ht hss hx hb =>
    obtain ⟨hc, hl⟩ : c ∈ s.egress.txOut ∧ (s.timerKeepalive = .idle → s.timerShutdown = .idle →
        s.egress.txOut = [c] → s.ingress.bufs.popHead = none) := by
      rcases hev with rfl | ⟨err, rfl⟩ <;>
      · simp only [enabled, decide_eq_true_eq] at he
        exact ⟨he.2, hl hst⟩
    refine wait_timing hw hf₁ hh
      (hs.congr (hk ▸ hs.keepalive) ht hss (by rw [hb]; exact id)) ?_
    intro h'
    rw [hb] at h'
    rw [Awaits, hk, hx]
    rcases hs.keepalive with hki | hks
    · refine .inr (.inr fun htx => h' (hl hki (hs.idle h') ?_))
      have hp := List.perm_cons_erase hc
      rw [htx] at hp
      exact List.perm_singleton.1 hp
    · left
      rw [hks]
      rfl

end Waiting

section Accounts

variable {s s' s₁ : Sofi} {e : Event} {fl bl F B Q : List Nat}

/-- Flushing the contexts on an error leaves none in flight: none is, or all are. -/
def Flushable (s : Sofi) : Prop :=
  s.egress.empty = true ∨ s.egress.getContext = .ok none

/-- The failures that make a SOFI flush its contexts, except those of a connection that is
not yet made. -/
def Fails (s : Sofi) : Event → Prop
  | .send m p => s.outActive = true ∧
    ((Mr.describe p.answers s.egress.mrm (Egress.iovs m)).ret ≠ 0 ∨ p.sendmsg ≠ 0)
  | .rxError _ err => err ≠ 0
  | e => e.Breaks s

instance (s : Sofi) : DecidablePred (Fails s)
  | .send .. => inferInstanceAs (Decidable (_ ∧ _))
  | .rxError _ err => inferInstanceAs (Decidable (err ≠ 0))
  | .eq type r p => inferInstanceAs (Decidable (Event.Breaks s (.eq type r p)))
  | .keepalive t aux => inferInstanceAs (Decidable (Event.Breaks s (.keepalive t aux)))
  | .txCompleted _ | .txError .. | .rxCompleted .. | .shutdownTimer _ | .recv _ | .stop
  | .free _ => .isFalse id

def Settled (s : Sofi) : Prop := s.fsm ≠ .active → s.error ≠ 0 → s.egress.inFlight = 0

theorem Sending.flushable (h : Sending s fl bl) (hst : s.state ≠ .closing) (hf : Flushable s) :
    fl = [] ∨ bl = [] := by
  rcases hf with he | hg
  · have hc := h.credit hst
    simp only [Egress.empty, decide_eq_true_eq] at he
    exact .inr (List.length_eq_zero_iff.1 (by omega))
  · rcases h.holds.getContext hg with ⟨_, _, hn, _⟩ | ⟨_, hfl, _⟩
    · cases hn
    · exact .inl hfl

theorem Sending.flushable_connecting (h : Sending s fl bl) (hst : s.state = .connecting) :
    Flushable s := by
  have hc := h.credit (by simp [hst])
  rw [h.connecting hst] at hc
  exact .inl (by simpa [Egress.empty] using hc)

theorem Closes.settled (h : Closes s₁ s') (hp : Phase s) (hf : s.fsm = .active)
    (hs : Sending s fl bl) (hh : s₁.egress.Holds fl bl) (hb : Egress.SameBooks s.egress s₁.egress)
    (he : s₁.error ≠ 0 → Flushable s) : Settled s' := by
  intro _ herr
  rw [h.error] at herr
  obtain ⟨hcredit, htx⟩ := hs.books hp hf
  have hsm := hs.small
  have hcnt := hb.counter
  have hmax := hb.max
  obtain ⟨fl', bl', hs', _, _, hbl⟩ := h.sending hh (by omega) (by omega) (hb.txOut ▸ htx)
  have hst : s.state ≠ .closing := fun h' => hp.fsm_of_closing h' hf
  rw [hs'.holds.inFlight_eq, hbl herr (hs.flushable hst (he herr))]
  rfl

theorem Settled.keeps (h : Settled s) (hk : KeepsControl s s')
    (hm : s'.egress.mrHandle = s.egress.mrHandle) (hx : s'.egress.max = s.egress.max) :
    Settled s' := by
  intro hf he
  rw [hk.error] at he
  rw [Egress.inFlight, hm, hx]
  exact h (fun hf' => hf (hk.fsm.2 hf')) he

theorem Settled.of_active (h : s.fsm = .active) : Settled s := fun hf => absurd h hf

theorem Settled.of_clean (h : s.error = 0) : Settled s := fun _ he => absurd h he

theorem Moves.settled (h : Moves s e s') (hp : Phase s) (hs : Sending s fl bl) (hset : Settled s)
    (hc : NoErrorHandled s e) (hf : s.state ≠ .closing → Fails s e → Flushable s) :
    Settled s' := by
  have same : ∀ {s₁ : Sofi}, s₁.egress = s.egress → s₁.egress.Holds fl bl ∧
      Egress.SameBooks s.egress s₁.egress := by
    intro s₁ ho
    exact ⟨ho ▸ hs.holds, by rw [ho], by rw [ho], by rw [ho]⟩
  cases h with
  | stay he hk hi ho =>
    obtain ⟨w, ho⟩ := ho
    exact hset.keeps hk (by rw [ho]) (by rw [ho])
  | close hcl _ ha he hi ho =>
    have hst : s.state ≠ .closing := fun h' => hp.fsm_of_closing h' ha
    refine hcl.settled hp ha hs (same ho).1 (same ho).2 fun herr => ?_
    rcases he with he | ⟨_, he⟩
    · refine hf hst ?_
      cases e <;> first | exact he | exact he.elim
    · rw [he] at herr
      exact absurd (hp.error ha) herr
  | sent _ hst hk => exact .of_active (hk.fsm.2 (hp.fsm_active hst))
  | sendFailed hcl _ ho hst hr hpb hi hout herr =>
    subst hout
    rcases hs.holds.postBuffers hpb with ⟨_, hh, hb⟩ | ⟨_, _, _, h', _⟩
    · refine hcl.settled hp (hp.fsm_active hst) hs hh hb fun _ => ?_
      rcases Egress.postBuffers_failed hpb hr with hg | hfail
      · exact .inr hg
      · exact hf hst ⟨ho, hfail⟩
    · exact absurd h' hr
  | connected hst hfsm => exact .of_active hfsm
  | connectFailed hcl _ hst hi ho =>
    have ha := hp.fsm_of_connecting hst
    rcases ho with ⟨ho, _⟩ | ⟨_, ret, eg, hpb, hr, ho, _⟩
    · exact hcl.settled hp ha hs (same ho).1 (same ho).2 fun _ => hs.flushable_connecting hst
    · subst ho
      rcases hs.holds.postBuffers hpb with ⟨_, hh, hb⟩ | ⟨_, _, _, h', _⟩
      · exact hcl.settled hp ha hs hh hb fun _ => hs.flushable_connecting hst
      · exact absurd h' hr
  | txCompleted he hk =>
    rcases he with ha | he
    · exact .of_active (hk.fsm.2 ha)
    · exact .of_clean (hk.error.trans he)
  | txFailed _ _ ha => exact absurd ha hc.1
  | txErrored _ he => exact absurd he hc.2
  | txDiscarded _ _ _ hk _ ho => exact hset.keeps hk (by rw [ho]; rfl) (by rw [ho]; rfl)
  | rxCompleted _ hk ho => exact hset.keeps hk (by rw [ho]) (by rw [ho])
  | rxDrained _ hk ho => exact hset.keeps hk (by rw [ho]) (by rw [ho])
  | rxFailed hcl _ hst hi ho herr =>
    refine hcl.settled hp (hp.fsm_of_active hst) hs (same ho).1 (same ho).2 fun he => ?_
    refine hf (by simp [hst]) fun h' => he ?_
    rw [herr, h']
    rfl
  | rxErrored _ hk ho => exact hset.keeps hk (by rw [ho]) (by rw [ho])
  | fetched hk ho => exact hset.keeps hk (by rw [ho]) (by rw [ho])
  | freed hk ho => exact hset.keeps hk (by rw [ho]) (by rw [ho])

structure Accounted (s : Sofi) : Prop where
  phase : Phase s
  receiving : ∃ F B Q, Receiving s F B Q
  sending : ∃ fl bl, Sending s fl bl
  credit : CreditConserved s
  settled : Settled s

theorem Accounted.halted (h : Accounted s) (hst : s.state = .closing) : Halted s := by
  obtain ⟨F, B, Q, hr⟩ := h.receiving
  obtain ⟨fl, bl, hs⟩ := h.sending
  refine ⟨hst, (hr.closing hst).lists.busy, fun he htx => ?_⟩
  have hb : bl = [] := by
    rcases hs.txOut with ⟨hf, herr⟩ | hp
    · have hn := h.settled hf herr
      rw [hs.holds.inFlight_eq] at hn
      exact List.length_eq_zero_iff.1 hn
    · rw [htx] at hp
      exact hp.nil_eq.symm
  have hc := hs.conserved_iff.1 h.credit
  rw [hb] at hc
  simp [Egress.empty] at he
  exact he hc

theorem Accounted.step (h : Accounted s) (he : s.enabled e = true) (hs : s.step e = .ok s')
    (hc : NoErrorHandled s e) (hf : s.state ≠ .closing → Fails s e → Flushable s) :
    Accounted s' := by
  have hm := step_moves h.phase he hs
  obtain ⟨fl, bl, hsend⟩ := h.sending
  obtain ⟨fl', bl', hsend', hiff⟩ := hm.sending he h.phase hsend
  exact ⟨hm.phase h.phase, (step_receiving ⟨h.phase, h.receiving⟩ he hs).2, ⟨fl', bl', hsend'⟩,
    hsend'.conserved_iff.2 ((hiff h.credit).2 hc), hm.settled h.phase hsend h.settled hc hf⟩

end Accounts

section Wedged

variable {s s' : Sofi} {e : Event}

/-- A closing SOFI for which neither a timer nor a send is going to raise an event has told
nanomsg that it is stopped. -/
def NotWedged (s : Sofi) : Prop :=
  s.state = .closing → s.timerKeepalive.quiet = true → s.timerShutdown.quiet = true →
    s.egress.txOut = [] → 0 < s.stoppeds

/-- No credit is lost to an error completion, a failure finds nothing or everything in
flight, and the last event that can be counted on finds the received messages read. -/
structure Orderly (s : Sofi) (e : Event) : Prop where
  credit : NoErrorHandled s e
  flush : s.state ≠ .closing → Fails s e → Flushable s
  last : LastFindsEmpty s e

theorem Orderly.of_not_fails {s : Sofi} {e : Event}
    (h : NoErrorHandled s e ∧ ¬ Fails s e ∧ LastFindsEmpty s e) : Orderly s e :=
  ⟨h.1, fun _ hf => absurd hf h.2.1, h.2.2⟩

theorem Timing.notWedged (h : Timing s) (hp : Phase s) : NotWedged s := by
  intro hst hk ht htx
  cases hf : s.fsm with
  | active => exact absurd hf (hp.fsm_of_closing hst)
  | stopping =>
    rcases (h.stopping hf).awaits with h' | h' | h'
    · simp [hk] at h'
    · simp [ht] at h'
    · exact absurd htx h'
  | idle => exact h.stopped hf

theorem stopped_step (hf : s.fsm = .idle) (he : s.enabled e = true) (h : s.step e = .ok s') :
    s'.fsm = s.fsm ∧ s'.state = s.state ∧ s'.stoppeds = s.stoppeds := by
  cases e with
  | stop =>
    simp only [step, fsmStop, hf, reduceCtorEq, if_false] at h
    cases h
    exact ⟨rfl, rfl, rfl⟩
  | free m =>
    cases h
    exact ⟨rfl, rfl, rfl⟩
  | txError op err => cases op <;> simp [enabled, hf] at he
  | _ => simp [enabled, hf] at he

theorem Timing.step (h : Timing s) (ha : Accounted s) (ha' : Accounted s')
    (he : s.enabled e = true) (hs : s.step e = .ok s') (hl : LastFindsEmpty s e) : Timing s' := by
  have hp := ha.phase
  cases hf : s.fsm with
  | active =>
    obtain ⟨F, B, Q, hr⟩ := ha.receiving
    obtain ⟨F', B', Q', hr'⟩ := ha'.receiving
    rcases (step_moves hp he hs).control with hk | ⟨s₁, hc, hlv, hn⟩ | ⟨_, hf', hst, _, _, ht, hk⟩
    · obtain ⟨ht, hki⟩ := hk.timers hf
      refine .of_active (hk.fsm.2 hf) (ht.trans (h.running hf)) fun hst hi => ?_
      exact h.active (hk.state.symm.trans hst) (hki hi)
    · exact hc.timing hlv hn h hp hf hr (hr'.closing hc.state) (ha'.halted hc.state)
    · exact .of_active hf' (ht.trans (h.running hf)) fun _ => hk
  | stopping =>
    have hst := hp.closing (by simp [hf])
    have hh := ha'.halted ((step_moves hp he hs).closing hst)
    exact (step_turns hf hst he hs).timing (h.stopping hf) hf hst he hl hh
  | idle =>
    obtain ⟨hf', hst, hn⟩ := stopped_step hf he hs
    have hc := hp.closing (by simp [hf])
    refine ⟨fun h' => ?_, fun h' => ?_, fun h' => ?_, fun _ => hn ▸ h.stopped hf⟩
    · rw [hst, hc] at h'
      cases h'
    · rw [hf', hf] at h'
      cases h'
    · rw [hf', hf] at h'
      cases h'

theorem machine_timing (h : machine.init s) : Accounted s ∧ Timing s := by
  obtain ⟨hp, fl, hs, hc⟩ := machine_sending h
  obtain ⟨_, hr⟩ := machine_receiving h
  obtain ⟨u, _, _, rfl⟩ := machine_init h
  refine ⟨⟨hp, hr, ⟨fl, [], hs⟩, hc, .of_active rfl⟩, .of_active rfl rfl fun hst => ?_⟩
  cases hst

/-- No SOFI is left hanging while it is stopped by a run whose steps are all orderly. -/
theorem guarded_notWedged {s : Sofi} {h : List (Sofi × Event)} (r : machine.Run h s)
    (hg : Machine.Guarded Orderly h) : Machine.Always NotWedged h s := by
  have hI : Machine.Always (fun s => Accounted s ∧ Timing s) h s := by
    refine r.always_of_guarded (fun s hi => machine_timing hi) ?_ hg
    rintro s e s' ⟨ha, ht⟩ ho he hs
    have ha' := ha.step he hs ho.credit ho.flush
    exact ⟨ha', ht.step ha ha' he hs ho.last⟩
  exact hI.mono fun s h => h.2.notWedged h.1.phase

theorem farewell_notWedged : ∃ (h : List (Sofi × Event)) (s : Sofi), machine.Run h s ∧
    (s.state = .closing ∧ s.stoppeds = 1) ∧ Machine.Always NotWedged h s := by
  obtain ⟨h, s, r, hg, hp⟩ := Machine.exists_guarded (M := machine) (C := Orderly)
    (c := fun s e => NoErrorHandled s e ∧ ¬ Fails s e ∧ LastFindsEmpty s e) farewell
    (fun s => s.state = .closing ∧ s.stoppeds = 1)
    (fun _ _ hc => .of_not_fails (of_decide_eq_true hc)) fresh_init (by decide)
  exact ⟨h, s, r, of_decide_eq_true hp, guarded_notWedged r hg⟩

/-- A message arrives, and the SOFI is stopped before nanomsg reads it. -/
theorem wedged_unread : ¬ ∀ s, machine.Reachable s → NotWedged s := by
  intro h
  obtain ⟨s, hr, hc⟩ := Machine.exists_reachable
    [.eq FI_CONNECTED 0 .easy, .rxCompleted 0 [1] 0 0, .stop, .keepalive .stopped 0]
    (fun s => s.state = .closing ∧ s.timerKeepalive = .idle ∧ s.timerShutdown = .idle ∧
      s.egress.txOut = [] ∧ s.stoppeds = 0) fresh_init (by decide)
  obtain ⟨hst, hk, ht, htx, hn⟩ := of_decide_eq_true hc
  have hs := h s hr hst (by rw [hk]; rfl) (by rw [ht]; rfl) htx
  omega

end Wedged

end Sofi

end OfiTransport
