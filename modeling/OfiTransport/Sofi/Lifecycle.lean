import OfiTransport.Sofi.Books
import OfiTransport.Sofi.Shutdown

/-! The life of a SOFI from start to stop: the two state variables, the two timers and the
endpoint, in whatever order the events come. -/

namespace OfiTransport

open Lib

@[simp] theorem Timer.stop_idle_or_stopping (t : Timer) : t.stop = .idle ∨ t.stop = .stopping := by
  cases t <;> simp [stop]

namespace Sofi

section Contract

def Made (h : List (Sofi × Event)) : Prop := ∃ p ∈ h, ∃ r post, p.2 = .eq FI_CONNECTED r post

instance : DecidablePred (fun e : Event => ∃ r post, e = .eq FI_CONNECTED r post)
  | .eq type r post => decidable_of_iff (type = FI_CONNECTED)
    ⟨fun h => ⟨r, post, by rw [h]⟩, fun h => h.elim fun _ h => h.elim fun _ h => (Event.eq.inj h).1⟩
  | .keepalive .. | .txCompleted _ | .txError .. | .rxCompleted .. | .rxError ..
  | .shutdownTimer _ | .send .. | .recv _ | .stop | .free _ => .isFalse (by simp)

instance (h : List (Sofi × Event)) : Decidable (Made h) :=
  inferInstanceAs (Decidable (∃ p ∈ h, _))

/-- What the provider may deliver after the history `h`: FI_CONNECTED once, FI_SHUTDOWN only
after it, errors of the EQ, and errors only for packets that an egress context stands for. -/
def Lawful (h : List (Sofi × Event)) : Event → Prop
  | .eq type _ _ => type < 0 ∨ (type = FI_CONNECTED ∧ ¬ Made h) ∨ (type = FI_SHUTDOWN ∧ Made h)
  | .txError .aux _ => False
  | _ => True

instance (h : List (Sofi × Event)) : DecidablePred (Lawful h)
  | .eq .. => inferInstanceAs (Decidable (_ ∨ _))
  | .txError .aux _ => .isFalse id
  | .txError (.ctx _) _ | .keepalive .. | .txCompleted _ | .rxCompleted .. | .rxError ..
  | .shutdownTimer _ | .send .. | .recv _ | .stop | .free _ => .isTrue trivial

/-- Nanomsg sends a second message before the first was taken from the stage. -/
def Overruns (s : Sofi) : Event → Prop
  | .send _ _ => s.staged = true
  | _ => False

theorem made_cons {h : List (Sofi × Event)} {s : Sofi} {e : Event} :
    Made ((s, e) :: h) ↔ (∃ r post, e = .eq FI_CONNECTED r post) ∨ Made h := by
  simp [Made]

end Contract

section Stages

variable {s s' s₁ : Sofi} {e : Event} {made : Prop}

structure Up (s : Sofi) : Prop where
  epOpen : s.epOpen = true
  stoppeds : s.stoppeds = 0

theorem Up.congr (hu : Up s) (hep : s₁.epOpen = s.epOpen) (hn : s₁.stoppeds = s.stoppeds) :
    Up s₁ := ⟨hep.trans hu.epOpen, hn.trans hu.stoppeds⟩

inductive Winds (s : Sofi) : Prop
  | connected (hk : s.socketState = .connected) (ht : s.timerShutdown = .idle)
  | waits (hk : s.socketState = .draining ∨ s.socketState = .closing)
      (ht : s.timerShutdown = .armed ∨ s.timerShutdown = .stopping)
  | closed (hk : s.socketState = .closed)
      (ht : s.timerShutdown = .idle ∨ s.timerShutdown = .stopping)

theorem Winds.congr (hw : Winds s) (hk : s₁.socketState = s.socketState)
    (ht : s₁.timerShutdown = s.timerShutdown) : Winds s₁ := by
  cases hw with
  | connected hk' ht' => exact .connected (hk.trans hk') (ht.trans ht')
  | waits hk' ht' => exact .waits (hk ▸ hk') (ht ▸ ht')
  | closed hk' ht' => exact .closed (hk.trans hk') (ht ▸ ht')

inductive Stage (made : Prop) (s : Sofi) : Prop
  | connecting (hf : s.fsm = .active) (hst : s.state = .connecting) (hm : ¬ made) (hu : Up s)
      (hk : s.socketState = .connecting) (ha : s.timerKeepalive = .idle)
      (ht : s.timerShutdown = .idle)
  | active (hf : s.fsm = .active) (hst : s.state = .active) (hm : made) (hu : Up s)
      (hk : s.socketState = .connected)
      (ha : s.timerKeepalive = .armed ∨ s.timerKeepalive = .stopping)
      (ht : s.timerShutdown = .idle)
  | stopping (hf : s.fsm = .stopping) (hst : s.state = .closing) (hm : made) (hu : Up s)
      (ha : s.timerKeepalive = .idle ∨ s.timerKeepalive = .stopping) (hw : Winds s)
  | stopped (hf : s.fsm = .idle) (hst : s.state = .closing) (hr : AtRest s)
      (hk : s.socketState = .closed) (hep : s.epOpen = false) (hn : s.stoppeds = 1)

theorem wait_stage (hf : s.fsm = .stopping) (hst : s.state = .closing) (hm : made) (hu : Up s)
    (ha : s.timerKeepalive = .idle ∨ s.timerKeepalive = .stopping) (hw : Winds s) :
    ∃ s', s.shutdownWait = .ok s' ∧ Stage made s' := by
  simp only [shutdownWait]
  split
  · exact ⟨s, rfl, .stopping hf hst hm hu ha hw⟩
  · next hr =>
    simp only [not_or, Bool.not_eq_false, not_not] at hr
    have hrest : AtRest s := ⟨hr.1, hr.2.1, hr.2.2.1, hr.2.2.2⟩
    cases hw with
    | connected hk ht =>
      refine ⟨{ s with socketState := .draining, timerShutdown := .armed }, ?_,
        .stopping hf hst hm ⟨hu.epOpen, hu.stoppeds⟩ ha (.waits (.inl rfl) (.inl rfl))⟩
      simp [hk, ht, Timer.start, bind, Except.bind, pure, Except.pure]
    | waits hk ht => simp [hrest.shutdown] at ht
    | closed hk ht =>
      refine ⟨{ s with epOpen := false, fsm := .idle, stoppeds := s.stoppeds + 1 }, by simp [hk],
        .stopped rfl hst ⟨hrest.egress, hrest.ingress, hrest.keepalive, hrest.shutdown⟩ hk rfl ?_⟩
      rw [hu.stoppeds]

theorem fsmStop_stage (hf : s.fsm = .active) (hm : made) (hu : Up s) (ht : s.timerShutdown = .idle)
    (hk : s.socketState = .connected ∨ s.socketState = .closed)
    (hi : ∃ i, s.ingress.flush = .ok i) (he : ∃ e, s.egress.flush = .ok e) :
    ∃ s', s.fsmStop = .ok s' ∧ Stage made s' := by
  obtain ⟨i, hi⟩ := hi
  obtain ⟨e, he⟩ := he
  have hw : ∀ s₁ : Sofi, s₁.socketState = s.socketState → s₁.timerShutdown = .idle → Winds s₁ := by
    intro s₁ h₁ h₂
    rcases hk with hk | hk
    · exact .connected (h₁.trans hk) h₂
    · exact .closed (h₁.trans hk) (.inl h₂)
  have hstop : ∃ e', shutdownStop { s with fsm := .stopping } = .ok { s with
      fsm := .stopping
      state := .closing
      timerKeepalive := s.timerKeepalive.stop
      ingress := i
      egress := e' } := by
    by_cases herr : s.error = 0
    · exact ⟨s.egress, by simp [shutdownStop, hi, herr, bind, Except.bind, pure, Except.pure]⟩
    · exact ⟨e, by simp [shutdownStop, hi, he, herr, bind, Except.bind, pure, Except.pure]⟩
  obtain ⟨e', hstop⟩ := hstop
  obtain ⟨s', hs', hstage⟩ : ∃ s', shutdownWait { s with
      fsm := .stopping
      state := .closing
      timerKeepalive := s.timerKeepalive.stop
      ingress := i
      egress := e' } = .ok s' ∧ Stage made s' :=
    wait_stage rfl rfl hm ⟨hu.epOpen, hu.stoppeds⟩ (Timer.stop_idle_or_stopping _) (hw _ rfl ht)
  refine ⟨s', ?_, hstage⟩
  simp only [fsmStop, hf, if_true, shutdown, hstop, bind, Except.bind]
  exact hs'

theorem fsmStop_unmade (hf : s.fsm = .active) (hu : Up s) (ha : s.timerKeepalive = .idle)
    (ht : s.timerShutdown = .idle) (hk : s.socketState = .connecting)
    (hi : ∃ i, s.ingress.flush = .ok i ∧ i.empty = true)
    (he : ∃ e, s.egress.flush = .ok e ∧ e.empty = true) (hs : s.egress.empty = true) :
    ∃ s', s.fsmStop = .ok s' ∧ Stage made s' := by
  obtain ⟨i, hi, hie⟩ := hi
  obtain ⟨e, he, hee⟩ := he
  have hstop : ∃ e', e'.empty = true ∧ shutdownStop { s with fsm := .stopping } = .ok { s with
      fsm := .stopping
      state := .closing
      timerKeepalive := .idle
      ingress := i
      egress := e' } := by
    by_cases herr : s.error = 0
    · exact ⟨s.egress, hs,
        by simp [shutdownStop, hi, herr, ha, Timer.stop, bind, Except.bind, pure, Except.pure]⟩
    · exact ⟨e, hee,
        by simp [shutdownStop, hi, he, herr, ha, Timer.stop, bind, Except.bind, pure, Except.pure]⟩
  obtain ⟨e', he', hstop⟩ := hstop
  refine ⟨{ s with
      fsm := .idle
      state := .closing
      socketState := .closed
      epOpen := false
      stoppeds := s.stoppeds + 1
      timerKeepalive := .idle
      ingress := i
      egress := e' }, ?_, .stopped rfl rfl ⟨he', hie, rfl, ht⟩ rfl rfl (by rw [hu.stoppeds])⟩
  simp only [fsmStop, hf, if_true, shutdown, hstop, bind, Except.bind]
  simp [shutdownWait, he', hie, ht, hk]

structure Discards (s : Sofi) : Prop where
  ingress : ∃ F B Q, s.ingress.bufs.Holds s.ingress.max [] F B Q
  egress : Bookkept s
  small : s.egress.max < 2 ^ 31

theorem Discards.flush (h : Discards s) :
    (∃ i, s.ingress.flush = .ok i) ∧ ∃ e, s.egress.flush = .ok e := by
  obtain ⟨F, B, Q, hl⟩ := h.ingress
  obtain ⟨fl, bl, hh, hk⟩ := h.egress
  have hc := hk.credit
  have hs := h.small
  exact ⟨Ingress.flush_total hl, hh.flush_total (by omega)⟩

theorem Discards.congr (h : Discards s) (hi : s₁.ingress.bufs = s.ingress.bufs)
    (hx : s₁.ingress.max = s.ingress.max) (ho : ∃ w, s₁.egress = { s.egress with wire := w }) :
    Discards s₁ := by
  obtain ⟨w, ho'⟩ := ho
  refine ⟨?_, h.egress.same ⟨w, ho'⟩, ?_⟩
  · rw [hi, hx]
    exact h.ingress
  · rw [ho']
    exact h.small

theorem criticalError_stage {err : Int} (hf : s.fsm = .active) (hm : made) (hu : Up s)
    (ht : s.timerShutdown = .idle) (hk : s.socketState = .connected ∨ s.socketState = .closed)
    (hd : Discards s) : ∃ s', s.criticalError err = .ok s' ∧ Stage made s' := by
  obtain ⟨hi, he⟩ := hd.flush
  exact fsmStop_stage (s := { s with error := err }) hf hm ⟨hu.epOpen, hu.stoppeds⟩ ht hk hi he

theorem egressSend_stage {p : Post} (ho : s.outActive = true) (hst : s.staged = true)
    (hpb : s.egress.postBuffers p s.outmsg = .ok (ret, eg)) :
    (ret ≠ 0 ∧ s.egressSend p = .ok (ret, { s with egress := eg })) ∨
      (ret = 0 ∧ ∃ n, s.egressSend p = .ok (0, { s with
        staged := false, egress := eg.atomicDec.2, sents := n })) := by
  simp only [egressSend, nnAssert, ho, hst, hpb, if_true, bind, Except.bind]
  by_cases hr : ret = 0
  · refine .inr ⟨hr, ?_⟩
    simp only [hr, ne_eq, not_true, if_false]
    split
    · exact ⟨_, rfl⟩
    · exact ⟨_, rfl⟩
  · exact .inl ⟨hr, by simp [hr, pure, Except.pure]⟩

end Stages

section Steps

structure Living (h : List (Sofi × Event)) (s : Sofi) : Prop where
  phase : Phase s
  receiving : ∃ F B Q, Receiving s F B Q ∧ Announces s Q
  sending : ∃ fl bl, Sending s fl bl
  books : Bookkept s
  stage : Stage (Made h) s

variable {s s' s₁ : Sofi} {e : Event} {h : List (Sofi × Event)} {made : Prop}

theorem Living.discards (hl : Living h s) : Discards s := by
  obtain ⟨F, B, Q, hr, _⟩ := hl.receiving
  obtain ⟨B', ht⟩ := hr.exists_tidy
  obtain ⟨fl, bl, hs⟩ := hl.sending
  exact ⟨⟨F, B', Q, ht.lists⟩, hl.books, hs.small⟩

theorem Living.completion {c : Nat} (hl : Living h s) (hc : c ∈ s.egress.txOut)
    (he : s.fsm = .active ∨ s.error = 0) :
    (∃ n eg, (s.removeTx c).egress.handle c = .ok (n, eg)) ∧
      ∃ eg, (s.removeTx c).egress.handleError c = .ok eg := by
  obtain ⟨fl, bl, hs⟩ := hl.sending
  obtain ⟨b₁, b₂, rfl, _⟩ := hs.mem_of_txOut hc he
  have hold := holds_removeTx (c := c) hs.holds
  have hsize := (hl.books.kept hs.holds).size
  have hne : fl ++ (b₁ ++ b₂) ≠ [] := by
    intro hn
    have hlen := congrArg List.length hn
    simp only [List.length_append, List.length_cons, List.length_nil] at hsize hlen
    omega
  exact ⟨hold.handle_total hne, hold.release_total hne⟩

theorem Living.post (hl : Living h s) (p : Post) (m : Msg) :
    ∃ ret eg, s.egress.postBuffers p m = .ok (ret, eg) ∧
      (ret ≠ 0 → ∀ s₁ : Sofi, s₁.egress = eg → Bookkept s₁ ∧ s₁.egress.max < 2 ^ 31) := by
  obtain ⟨fl, bl, hs⟩ := hl.sending
  have hsize := (hl.books.kept hs.holds).size
  obtain ⟨ret, eg, hpb⟩ := hs.holds.postBuffers_total (by
    intro hn
    have hlen := congrArg List.length hn
    simp only [List.length_append, List.length_nil] at hlen
    omega) p m
  refine ⟨ret, eg, hpb, fun hr s₁ ho => ?_⟩
  exact hl.books.refused hs (ho ▸ hpb) hr

theorem Living.recv_ok {late : Int} (hl : Living h s) (hen : s.enabled (.recv late) = true) :
    ∃ i, s.recv late = .ok { s with ingress := i } := by
  obtain ⟨F, B, Q, hr, hann⟩ := hl.receiving
  obtain ⟨s', hs'⟩ := (hr.announced hann).read late hen
  have hrecv := hs'
  simp only [step, recv, bind_eq_ok, nnAssert_eq_ok, pure_eq_ok] at hs'
  obtain ⟨⟨ret, i⟩, _, _, rfl, rfl⟩ := hs'
  exact ⟨i, hrecv⟩

theorem keepaliveTimeout_stage {aux : Int} (hf : s.fsm = .active) (hst : s.state = .active)
    (hm : made) (hu : Up s) (hk : s.socketState = .connected) (ht : s.timerShutdown = .idle)
    (ha : s.timerKeepalive = .expired) (hd : Discards s) :
    ∃ s', s.keepaliveTimeout aux = .ok s' ∧ Stage made s' := by
  have hstop : s.timerKeepalive.stop = .stopping := by rw [ha]; rfl
  simp only [keepaliveTimeout, egressPostAux]
  split
  · exact criticalError_stage (s := { s with
      ticksIn := 0, timerKeepalive := s.timerKeepalive.stop }) hf hm ⟨hu.epOpen, hu.stoppeds⟩ ht
      (.inl hk) (hd.congr rfl rfl ⟨_, rfl⟩)
  · split
    · by_cases haux : aux = 0
      · simp only [haux, ne_eq, not_true, if_false]
        exact ⟨_, rfl, .active hf hst hm ⟨hu.epOpen, hu.stoppeds⟩ hk (.inr hstop) ht⟩
      · simp only [haux, ne_eq, not_false_eq_true, if_true]
        exact criticalError_stage (s := { s with
          ticksIn := (s.ticksIn + 1) % 256, ticksOut := 0 }) hf hm ⟨hu.epOpen, hu.stoppeds⟩ ht
          (.inl hk) (hd.congr rfl rfl ⟨_, rfl⟩)
    · exact ⟨_, rfl, .active hf hst hm ⟨hu.epOpen, hu.stoppeds⟩ hk (.inr hstop) ht⟩

theorem Living.send_stage {p : Post} {m : Msg} (hl : Living h s) (hf : s.fsm = .active)
    (hst : s.state = .active) (hm : made) (hu : Up s) (hk : s.socketState = .connected)
    (ha : s.timerKeepalive = .armed ∨ s.timerKeepalive = .stopping) (ht : s.timerShutdown = .idle)
    (hstaged : s.staged = false) : ∃ s', s.send p m = .ok s' ∧ Stage made s' := by
  have hc : s.state ≠ .closing := by simp [hst]
  have ho := hl.phase.out_of_active hst
  obtain ⟨ret, eg, hpb, hbooks⟩ := hl.post p m
  simp only [send, egressStage, nnAssert, hstaged, hc, if_true, if_false, bind, Except.bind]
  rw [if_pos ho]
  rcases egressSend_stage (s := { s with ticksOut := 0, outmsg := m, staged := true }) ho rfl hpb
    with ⟨hr, hs⟩ | ⟨rfl, n, hs⟩
  · have hd : Discards { s with ticksOut := 0, outmsg := m, staged := true, egress := eg } :=
      ⟨hl.discards.ingress, (hbooks hr _ rfl).1, (hbooks hr _ rfl).2⟩
    simp only [hs, hr, ne_eq, not_false_eq_true, if_true]
    exact criticalError_stage
      (s := { s with ticksOut := 0, outmsg := m, staged := true, egress := eg }) hf hm
      (hu.congr rfl rfl) ht (.inl hk) hd
  · rw [hs]
    exact ⟨_, rfl, .active hf hst hm ⟨hu.epOpen, hu.stoppeds⟩ hk ha ht⟩

theorem Living.active_step (hl : Living h s) (hf : s.fsm = .active) (hst : s.state = .active)
    (hm : Made h) (hu : Up s) (hk : s.socketState = .connected)
    (ha : s.timerKeepalive = .armed ∨ s.timerKeepalive = .stopping) (ht : s.timerShutdown = .idle)
    (hen : s.enabled e = true) (hlaw : Lawful h e) (hno : ¬ Overruns s e) :
    ∃ s', s.step e = .ok s' ∧ Stage (Made h) s' := by
  have hd := hl.discards
  cases e with
  | eq type r p =>
    rw [step, feed_active hf hst]
    simp only [handlerActive]
    rcases hlaw with hneg | ⟨_, hn⟩ | ⟨rfl, _⟩
    · have hne : type ≠ FI_SHUTDOWN := by
        simp only [FI_SHUTDOWN]
        omega
      simp only [hne, hneg, if_false, if_true]
      exact criticalError_stage hf hm hu ht (.inl hk) hd
    · exact absurd hm hn
    · simp only [if_true]
      exact criticalError_stage (s := { s with socketState := .closed }) hf hm (hu.congr rfl rfl) ht
        (.inr rfl) (hd.congr rfl rfl ⟨_, rfl⟩)
  | txCompleted c =>
    simp only [enabled, decide_eq_true_eq] at hen
    obtain ⟨⟨n, eg, hh⟩, _⟩ := hl.completion hen.2 (.inl hf)
    rw [step, feed_active (s := s.removeTx c) hf hst]
    simp only [handlerActive, egressHandle, hh, bind, Except.bind]
    split
    · exact ⟨_, rfl, .active hf hst hm (hu.congr rfl rfl) hk ha ht⟩
    · exact ⟨_, rfl, .active hf hst hm (hu.congr rfl rfl) hk ha ht⟩
  | txError op err =>
    cases op with
    | aux => exact hlaw.elim
    | ctx c =>
      simp only [enabled, decide_eq_true_eq] at hen
      obtain ⟨_, eg, hh⟩ := hl.completion hen.2 (.inl hf)
      obtain ⟨fl, bl, hs⟩ := hl.sending
      have hb : Bookkept { s.removeTx c with egress := eg } ∧ eg.max < 2 ^ 31 :=
        hl.books.errored hs hen.2 (.inl hf) hh
      rw [step, feed_active (s := s.removeTx c) hf hst]
      simp only [handlerActive, egressHandleError, hh, bind, Except.bind]
      exact criticalError_stage hf hm (hu.congr rfl rfl) ht (.inl hk) ⟨hd.ingress, hb.1, hb.2⟩
  | rxCompleted b bytes late r =>
    rw [step, feed_active (s := { s with ingress := arrive s.ingress b bytes }) hf hst]
    simp only [handlerActive, rxCompleted_eq]
    exact ⟨_, rfl, .active hf hst hm (hu.congr rfl rfl) hk ha ht⟩
  | rxError b err =>
    simp only [step]
    rw [feed_active (by exact hf) (by exact hst)]
    exact criticalError_stage (s := { s with ingress := removePosted s.ingress b }) hf hm
      (hu.congr rfl rfl) ht (.inl hk) (hd.congr rfl rfl ⟨_, rfl⟩)
  | keepalive t aux =>
    rw [step, feed_active (s := { s with timerKeepalive := .deliver t }) hf hst]
    cases t with
    | timeout =>
      exact keepaliveTimeout_stage hf hst hm (hu.congr rfl rfl) hk ht rfl
        (hd.congr rfl rfl ⟨_, rfl⟩)
    | stopped =>
      exact ⟨_, rfl, .active hf hst hm (hu.congr rfl rfl) hk (.inl rfl) ht⟩
  | shutdownTimer t =>
    simp only [enabled, decide_eq_true_eq, ht] at hen
    cases t <;> simp [Timer.owes] at hen
  | send m p =>
    exact hl.send_stage hf hst hm hu hk ha ht (by simpa [Overruns] using hno)
  | recv late =>
    obtain ⟨i, hi⟩ := hl.recv_ok hen
    exact ⟨_, hi, .active hf hst hm (hu.congr rfl rfl) hk ha ht⟩
  | stop =>
    obtain ⟨hi, he⟩ := hd.flush
    exact fsmStop_stage hf hm hu ht (.inl hk) hi he
  | free m => exact ⟨_, rfl, .active hf hst hm (hu.congr rfl rfl) hk ha ht⟩

theorem feed_closing {i : Input} (hf : s.fsm = .stopping) : s.feed i = s.shutdown i := by
  simp [feed, hf]

theorem Living.shutdownTx_ok {c : Nat} (hl : Living h s) (err : Int) (hc : c ∈ s.egress.txOut) :
    (∃ t n eg, (s.removeTx c).shutdownTx (.txCompleted c) =
      .ok { s.removeTx c with ticksOut := t, sents := n, egress := eg }) ∧
    ∃ eg, (s.removeTx c).shutdownTx (.txError (.ctx c) err) =
      .ok { s.removeTx c with egress := eg } := by
  simp only [shutdownTx]
  by_cases herr : s.error = 0
  · obtain ⟨⟨n, eg, hh⟩, eg', hh'⟩ := hl.completion hc (.inr herr)
    rw [if_pos (by exact herr), if_pos (by exact herr)]
    simp only [egressHandle, egressHandleError, hh, hh', bind, Except.bind]
    refine ⟨?_, eg', rfl⟩
    split
    · exact ⟨_, _, _, rfl⟩
    · exact ⟨_, _, _, rfl⟩
  · rw [if_neg (by exact herr), if_neg (by exact herr)]
    exact ⟨⟨_, _, _, rfl⟩, _, rfl⟩

theorem shutdownTimer_stage {t : TimerEvent} (hf : s.fsm = .stopping) (hst : s.state = .closing)
    (hm : made) (hu : Up s) (ha : s.timerKeepalive = .idle ∨ s.timerKeepalive = .stopping)
    (hw : Winds s) (ht : s.timerShutdown.owes t = true) :
    ∃ s', shutdown { s with timerShutdown := .deliver t } (.shutdownTimer t) = .ok s' ∧
      Stage made s' := by
  cases t with
  | timeout =>
    have harmed := Timer.owes_timeout.1 ht
    cases hw with
    | connected _ hi => simp [harmed] at hi
    | closed _ hi => simp [harmed] at hi
    | waits hk _ =>
      simp only [shutdown]
      rw [if_pos hk.symm]
      exact ⟨_, rfl, .stopping hf hst hm (hu.congr rfl rfl) ha (.waits hk (.inr rfl))⟩
  | stopped =>
    have hstop := Timer.owes_stopped.1 ht
    have hclosed : ∃ s', shutdownWait { s with socketState := .closed, timerShutdown := .idle } =
        .ok s' ∧ Stage made s' :=
      wait_stage hf hst hm (hu.congr rfl rfl) ha (.closed rfl (.inl rfl))
    simp only [shutdown]
    cases hw with
    | connected _ hi => simp [hstop] at hi
    | closed hk _ =>
      simp only [hk]
      exact hclosed
    | waits hk _ =>
      rcases hk with hk | hk
      · simp only [hk]
        exact ⟨_, rfl, .stopping hf hst hm (hu.congr rfl rfl) ha (.waits (.inr rfl) (.inl rfl))⟩
      · simp only [hk]
        exact hclosed

theorem Living.stopping_step (hl : Living h s) (hf : s.fsm = .stopping) (hst : s.state = .closing)
    (hm : Made h) (hu : Up s) (ha : s.timerKeepalive = .idle ∨ s.timerKeepalive = .stopping)
    (hw : Winds s) (hen : s.enabled e = true) (hlaw : Lawful h e) (hno : ¬ Overruns s e) :
    ∃ s', s.step e = .ok s' ∧ Stage (Made h) s' := by
  -- all but a few events only make the shutdown function look again
  have look : ∀ s₁ : Sofi, s₁.fsm = s.fsm → s₁.state = s.state → s₁.epOpen = s.epOpen →
      s₁.stoppeds = s.stoppeds → s₁.timerKeepalive = s.timerKeepalive →
      s₁.socketState = s.socketState → s₁.timerShutdown = s.timerShutdown →
      ∃ s', s₁.shutdownWait = .ok s' ∧ Stage (Made h) s' := by
    intro s₁ h₁ h₂ h₃ h₄ h₅ h₆ h₇
    exact wait_stage (h₁.trans hf) (h₂.trans hst) hm (hu.congr h₃ h₄) (h₅ ▸ ha) (hw.congr h₆ h₇)
  cases e with
  | eq type r p =>
    rw [step, feed_closing hf]
    simp only [shutdown, shutdownEq]
    rcases hlaw with hneg | ⟨_, hn⟩ | ⟨rfl, _⟩
    · have hne : type ≠ FI_SHUTDOWN := by
        simp only [FI_SHUTDOWN]
        omega
      have hpos : ¬ 0 < type := by omega
      simp only [hne, hpos, if_false, bind, Except.bind]
      exact look s rfl rfl rfl rfl rfl rfl rfl
    · exact absurd hm hn
    · simp only [if_true, bind, Except.bind]
      exact wait_stage (s := { s with
        socketState := .closed, timerShutdown := s.timerShutdown.stop }) hf hst hm
        (hu.congr rfl rfl) ha (.closed rfl (Timer.stop_idle_or_stopping _))
  | txCompleted c =>
    simp only [enabled, decide_eq_true_eq] at hen
    rw [step, feed_closing (s := s.removeTx c) hf]
    obtain ⟨t, n, eg, htx⟩ := (hl.shutdownTx_ok 0 hen.2).1
    simp only [shutdown, htx, bind, Except.bind]
    exact look { s.removeTx c with ticksOut := t, sents := n, egress := eg } rfl rfl rfl rfl rfl rfl
      rfl
  | txError op err =>
    cases op with
    | aux => exact hlaw.elim
    | ctx c =>
      simp only [enabled, decide_eq_true_eq] at hen
      rw [step, feed_closing (s := s.removeTx c) hf]
      obtain ⟨eg, htx⟩ := (hl.shutdownTx_ok err hen.2).2
      simp only [shutdown, htx, bind, Except.bind]
      exact look { s.removeTx c with egress := eg } rfl rfl rfl rfl rfl rfl rfl
  | rxCompleted b bytes late r =>
    rw [step, feed_closing (s := { s with ingress := arrive s.ingress b bytes }) hf]
    exact look _ rfl rfl rfl rfl rfl rfl rfl
  | rxError b err =>
    simp only [step]
    rw [feed_closing (by exact hf)]
    exact look _ rfl rfl rfl rfl rfl rfl rfl
  | keepalive t aux =>
    simp only [enabled, decide_eq_true_eq] at hen
    rw [step, feed_closing (s := { s with timerKeepalive := .deliver t }) hf]
    cases t with
    | timeout =>
      have harmed := Timer.owes_timeout.1 hen.2
      simp [harmed] at ha
    | stopped =>
      exact wait_stage (s := { s with timerKeepalive := .idle }) hf hst hm (hu.congr rfl rfl)
        (.inl rfl) (hw.congr rfl rfl)
  | shutdownTimer t =>
    simp only [enabled, decide_eq_true_eq] at hen
    rw [step, feed_closing (s := { s with timerShutdown := .deliver t }) hf]
    exact shutdownTimer_stage hf hst hm hu ha hw hen.2
  | send m p =>
    have hstaged : s.staged = false := by simpa [Overruns] using hno
    simp only [step, send, egressStage, nnAssert, hstaged, hst, if_true, bind, Except.bind]
    exact ⟨_, rfl, .stopping hf rfl hm (hu.congr rfl rfl) ha (hw.congr rfl rfl)⟩
  | recv late =>
    obtain ⟨i, hi⟩ := hl.recv_ok hen
    exact ⟨_, hi, .stopping hf hst hm (hu.congr rfl rfl) ha (hw.congr rfl rfl)⟩
  | stop =>
    refine ⟨s, ?_, .stopping hf hst hm hu ha hw⟩
    simp [step, fsmStop, hf]
  | free m => exact ⟨_, rfl, .stopping hf hst hm (hu.congr rfl rfl) ha (hw.congr rfl rfl)⟩

theorem Living.unmade (hl : Living h s) (hst : s.state = .connecting) :
    (∃ i, s.ingress.flush = .ok i ∧ i.empty = true) ∧
      (∃ e, s.egress.flush = .ok e ∧ e.empty = true) ∧ s.egress.empty = true := by
  obtain ⟨F, B, Q, hr, _⟩ := hl.receiving
  obtain ⟨fl, bl, hs⟩ := hl.sending
  have hc : s.state ≠ .closing := by simp [hst]
  have hu := hr.connecting hst
  have ho := hr.running hc
  have hempty : s.egress.empty = true := by
    have hcredit := hs.credit hc
    rw [hs.connecting hst, List.length_nil, Nat.add_zero] at hcredit
    simpa [Egress.empty] using hcredit
  refine ⟨?_, ?_, hempty⟩
  · obtain ⟨i, hi⟩ := Ingress.flush_total ho.lists
    refine ⟨i, hi, ?_⟩
    rcases Ingress.flush_cases ho.lists hi with ⟨hb, _⟩ | ⟨_, q, hq, rfl⟩
    · simp [hu.nnbusy] at hb
    · simp [Ingress.empty, hq.popHead, hq.busy]
  · have hsize := (hl.books.kept hs.holds).size
    have hh := hs.holds
    rw [hs.connecting hst] at hh hsize
    cases fl with
    | nil => simp at hsize
    | cons c fl => exact ⟨_, hh.flush_free, hempty⟩

theorem Living.connected_stage {r : Int} {p : Post} (hl : Living h s) (hf : s.fsm = .active)
    (hm : made) (hu : Up s) (ha : s.timerKeepalive = .idle) (ht : s.timerShutdown = .idle) :
    ∃ s', s.connected r p = .ok s' ∧ Stage made s' := by
  obtain ⟨F, B, Q, hr, _⟩ := hl.receiving
  obtain ⟨B', htidy⟩ := hr.exists_tidy
  obtain ⟨F₁, B₁, hlists, _⟩ := Ingress.post_lists htidy.lists r
  rw [← (Ingress.post_reposts s.ingress r).max] at hlists
  have hd := hl.discards
  simp only [connected, ha, Timer.start, bind, Except.bind]
  split
  · exact criticalError_stage (s := { s with
      state := .active, socketState := .connected, outActive := true, timerKeepalive := .armed,
      ingress := (s.ingress.post r).2 }) hf hm ⟨hu.epOpen, hu.stoppeds⟩ ht (.inl rfl)
      ⟨⟨_, _, _, hlists⟩, hd.egress, hd.small⟩
  · split
    · next hstaged =>
      obtain ⟨ret, eg, hpb, hbooks⟩ := hl.post p s.outmsg
      rcases egressSend_stage (p := p) (s := { s with
          state := .active, socketState := .connected, outActive := true, timerKeepalive := .armed,
          ingress := (s.ingress.post r).2 }) rfl hstaged hpb with ⟨hret, hs⟩ | ⟨rfl, n, hs⟩
      · simp only [hs, hret, ne_eq, not_false_eq_true, if_true]
        exact criticalError_stage (s := { s with
          state := .active, socketState := .connected, outActive := true, timerKeepalive := .armed,
          ingress := (s.ingress.post r).2, egress := eg }) hf hm ⟨hu.epOpen, hu.stoppeds⟩ ht
          (.inl rfl) ⟨⟨_, _, _, hlists⟩, (hbooks hret _ rfl).1, (hbooks hret _ rfl).2⟩
      · rw [hs]
        exact ⟨_, rfl, .active hf rfl hm ⟨hu.epOpen, hu.stoppeds⟩ rfl (.inl rfl) ht⟩
    · exact ⟨_, rfl, .active hf rfl hm ⟨hu.epOpen, hu.stoppeds⟩ rfl (.inl rfl) ht⟩

theorem Living.connecting_step (hl : Living h s) (hf : s.fsm = .active)
    (hst : s.state = .connecting) (hm : ¬ Made h) (hu : Up s) (hk : s.socketState = .connecting)
    (ha : s.timerKeepalive = .idle) (ht : s.timerShutdown = .idle) (hen : s.enabled e = true)
    (hlaw : Lawful h e) (hno : ¬ Overruns s e) :
    ∃ s', s.step e = .ok s' ∧ Stage (Made ((s, e) :: h)) s' := by
  obtain ⟨hi, he, hempty⟩ := hl.unmade hst
  have hm' : (∀ r p, e ≠ .eq FI_CONNECTED r p) → ¬ Made ((s, e) :: h) := by
    intro hne hmade
    rcases made_cons.1 hmade with ⟨r, p, rfl⟩ | hmade
    · exact hne r p rfl
    · exact hm hmade
  have hc : s.state ≠ .closing := by simp [hst]
  obtain ⟨F, B, Q, hr, _⟩ := hl.receiving
  have hposted : s.ingress.posted = [] := by
    have hp := (hr.running hc).posted
    rw [(hr.connecting hst).busy] at hp
    exact hp.eq_nil
  have htx : s.egress.txOut = [] := by
    obtain ⟨fl, bl, hs⟩ := hl.sending
    have hp := (hs.books hl.phase hf).2
    rw [hs.connecting hst] at hp
    exact hp.eq_nil
  cases e with
  | eq type r p =>
    have hfeed : s.feed (.eq type r p) = s.handlerConnecting (.eq type r p) := by
      simp [feed, hf, handler_connecting hst]
    rw [step, hfeed]
    simp only [handlerConnecting]
    rcases hlaw with hneg | ⟨rfl, _⟩ | ⟨_, hmade⟩
    · have hne : type ≠ FI_CONNECTED := by
        simp only [FI_CONNECTED]
        omega
      simp only [hne, hneg, if_false, if_true]
      exact fsmStop_unmade (s := { s with error := type }) hf (hu.congr rfl rfl) ha ht hk hi he
        hempty
    · simp only [if_true]
      exact hl.connected_stage hf (made_cons.2 (.inl ⟨r, p, rfl⟩)) hu ha ht
    · exact absurd hmade hm
  | txCompleted c => simp [enabled, htx] at hen
  | txError op err =>
    cases op with
    | aux => exact hlaw.elim
    | ctx c => simp [enabled, htx] at hen
  | rxCompleted b bytes late r => simp [enabled, hposted] at hen
  | rxError b err => simp [enabled, hposted] at hen
  | keepalive t aux =>
    simp only [enabled, decide_eq_true_eq, ha] at hen
    cases t <;> simp [Timer.owes] at hen
  | shutdownTimer t =>
    simp only [enabled, decide_eq_true_eq, ht] at hen
    cases t <;> simp [Timer.owes] at hen
  | send m p =>
    have hstaged : s.staged = false := by simpa [Overruns] using hno
    have ho : s.outActive = false := (hl.phase.out hc).2 hst
    simp only [step, send, egressStage, nnAssert, hstaged, hc, if_true, if_false, bind, Except.bind]
    rw [if_neg (by simp [ho])]
    exact ⟨_, rfl, .connecting hf hst (hm' (by simp)) (hu.congr rfl rfl) hk ha ht⟩
  | recv late =>
    obtain ⟨i, hi⟩ := hl.recv_ok hen
    exact ⟨_, hi, .connecting hf hst (hm' (by simp)) (hu.congr rfl rfl) hk ha ht⟩
  | stop => exact fsmStop_unmade hf hu ha ht hk hi he hempty
  | free m => exact ⟨_, rfl, .connecting hf hst (hm' (by simp)) (hu.congr rfl rfl) hk ha ht⟩

theorem stopped_stage (hf : s.fsm = .idle) (hst : s.state = .closing) (hr : AtRest s)
    (hk : s.socketState = .closed) (hep : s.epOpen = false) (hn : s.stoppeds = 1)
    (hen : s.enabled e = true) : ∃ s', s.step e = .ok s' ∧ Stage made s' := by
  cases e with
  | stop => exact ⟨s, by simp [step, fsmStop, hf], .stopped hf hst hr hk hep hn⟩
  | free m =>
    refine ⟨_, rfl, .stopped hf hst ⟨hr.egress, ?_, hr.keepalive, hr.shutdown⟩ hk hep hn⟩
    exact hr.ingress
  | txError op err => cases op <;> simp [enabled, hf] at hen
  | _ => simp [enabled, hf] at hen

theorem Stage.congr {made' : Prop} (hs : Stage made s) (hiff : made ↔ made') : Stage made' s :=
  propext hiff ▸ hs

theorem Living.step_total (hl : Living h s) (hen : s.enabled e = true) (hlaw : Lawful h e)
    (hno : ¬ Overruns s e) : ∃ s', s.step e = .ok s' ∧ Stage (Made ((s, e) :: h)) s' := by
  have hmade : Made h → (Made h ↔ Made ((s, e) :: h)) :=
    fun hm => iff_of_true hm (made_cons.2 (.inr hm))
  cases hl.stage with
  | connecting hf hst hm hu hk ha ht => exact hl.connecting_step hf hst hm hu hk ha ht hen hlaw hno
  | active hf hst hm hu hk ha ht =>
    obtain ⟨s', hs', hstage⟩ := hl.active_step hf hst hm hu hk ha ht hen hlaw hno
    exact ⟨s', hs', hstage.congr (hmade hm)⟩
  | stopping hf hst hm hu ha hw =>
    obtain ⟨s', hs', hstage⟩ := hl.stopping_step hf hst hm hu ha hw hen hlaw hno
    exact ⟨s', hs', hstage.congr (hmade hm)⟩
  | stopped hf hst hr hk hep hn => exact stopped_stage hf hst hr hk hep hn hen

theorem overruns_step (ho : Overruns s e) : s.step e = .error .assertFailed := by
  cases e with
  | send m p =>
    have hstaged : s.staged = true := ho
    simp [step, send, egressStage, nnAssert, hstaged, bind, Except.bind]
  | _ => exact ho.elim

theorem Living.of_stage (hl : Living h s) (hen : s.enabled e = true) (hs : s.step e = .ok s')
    (hstage : Stage (Made ((s, e) :: h)) s') : Living ((s, e) :: h) s' := by
  have hm := step_moves hl.phase hen hs
  obtain ⟨F, B, Q, hr, ha⟩ := hl.receiving
  obtain ⟨F', B', Q', hr', hq⟩ := hm.queues hen hl.phase hr
  obtain ⟨fl, bl, hsend⟩ := hl.sending
  obtain ⟨fl', bl', hsend', _⟩ := hm.sending hen hl.phase hsend
  exact ⟨hm.phase hl.phase, ⟨F', B', Q', hr', hq.announces ha⟩, ⟨fl', bl', hsend'⟩,
    hm.bookkept hen hsend hl.books, hstage⟩

theorem Living.step (hl : Living h s) (hen : s.enabled e = true) (hlaw : Lawful h e)
    (hs : s.step e = .ok s') : Living ((s, e) :: h) s' := by
  by_cases ho : Overruns s e
  · rw [overruns_step ho] at hs
    cases hs
  · obtain ⟨s₁, hs₁, hstage⟩ := hl.step_total hen hlaw ho
    rw [hs₁] at hs
    cases hs
    exact hl.of_stage hen hs₁ hstage

end Steps

section Ends

variable {s s' : Sofi} {e : Event} {h : List (Sofi × Event)}

def pooled : Machine Sofi Event Fault where
  init s := machine.init s ∧ 2 ≤ s.egress.max ∧
    ∃ l, s.egress.ring.Holds l ∧ l.Perm (List.range s.egress.max)
  enabled := enabled
  step := step

theorem pooled_living (hi : pooled.init s) : Living [] s := by
  obtain ⟨hi, hmax, l, hring, hperm⟩ := hi
  obtain ⟨u, h₁, h₂, rfl⟩ := machine_init hi
  have hs := u.started_sending h₁ h₂
  have hlen : u.rxQueue.toNat = u.started.egress.max := by
    have he := hring.unique (sofi_ring h₁ (linked u.rxQueue.toNat u.rxQueue.toNat))
    rw [← List.length_range (n := u.started.egress.max), ← hperm.length_eq, he, List.length_range]
  refine ⟨u.started_phase, ⟨_, _, _, Setup.started_receiving h₁, ⟨?_, ?_⟩⟩, ⟨_, _, hs⟩,
    ⟨_, _, hs.holds, ?_, ?_, ?_⟩, .connecting rfl rfl ?_ ⟨rfl, rfl⟩ rfl rfl rfl⟩
  · intro hb
    cases hb
  · intro hb
    cases hb
  · rw [List.length_range, List.length_nil, hlen]
    exact hmax
  · exact Nat.le_of_eq (hs.credit (by simp [Setup.started]))
  · exact Mr.init_carries ..
  · rintro ⟨_, hp, _⟩
    cases hp

/-- What is found when the endpoint is closed and nn_fsm_stopped is called. -/
structure Concluded (s : Sofi) : Prop where
  counter : s.egress.stageoutCounter = s.egress.max
  handles : ∀ c, s.egress.mrHandle c = none
  reserved : Mr.Unreserved s.egress.mrm
  busy : s.ingress.bufs.busy = none
  populated : s.ingress.bufs.popHead = none
  keepalive : s.timerKeepalive = .idle
  shutdown : s.timerShutdown = .idle
  socket : s.socketState = .closed

theorem Living.concluded (hl : Living h s) (hr : AtRest s) (hk : s.socketState = .closed) :
    Concluded s := by
  obtain ⟨fl, bl, hh, hbooks⟩ := hl.books
  have hcnt : s.egress.stageoutCounter = s.egress.max := by
    simpa [Egress.empty] using hr.egress
  have hcredit := hbooks.credit
  have hb : bl = [] := List.length_eq_zero_iff.1 (by omega)
  subst hb
  have hi := hr.ingress
  simp only [Ingress.empty, decide_eq_true_eq] at hi
  exact ⟨hcnt, fun c => hh.handle_none (by simp), hbooks.carries.unreserved, hi.2, hi.1,
    hr.keepalive, hr.shutdown, hk⟩

inductive Closing (s s' : Sofi) : Prop
  | stays (hep : s'.epOpen = s.epOpen) (hn : s'.stoppeds = s.stoppeds)
  | closes (hep : s.epOpen = true) (hn : s.stoppeds = 0) (hep' : s'.epOpen = false)
      (hn' : s'.stoppeds = 1) (hc : Concluded s')

/-- No lawful event aborts the process or finds a timer running that it starts; all that can
go wrong is that nanomsg overruns the stage.  The SOFI closes its endpoint once. -/
structure Ordered (h : List (Sofi × Event)) (s : Sofi) : Prop where
  total : ∀ e, s.enabled e = true → Lawful h e →
    (∃ s', s.step e = .ok s' ∧ Closing s s') ∨ (Overruns s e ∧ s.step e = .error .assertFailed)
  aborts : ∀ e, s.enabled e = true → Lawful h e → ¬ Aborts (s.step e)
  once : s.stoppeds ≤ 1
  together : s.epOpen = false ↔ s.stoppeds = 1
  concluded : s.stoppeds = 1 → Concluded s

theorem Living.ended (hl : Living h s) :
    (s.epOpen = true ∧ s.stoppeds = 0) ∨
      (s.fsm = .idle ∧ s.epOpen = false ∧ s.stoppeds = 1 ∧ Concluded s) := by
  cases hl.stage with
  | connecting _ _ _ hu | active _ _ _ hu | stopping _ _ _ hu => exact .inl ⟨hu.epOpen, hu.stoppeds⟩
  | stopped hf _ hr hk hep hn => exact .inr ⟨hf, hep, hn, hl.concluded hr hk⟩

theorem Living.closing (hl : Living h s) (hl' : Living h' s') (hen : s.enabled e = true)
    (hs : s.step e = .ok s') : Closing s s' := by
  rcases hl.ended with ⟨hep, hn⟩ | ⟨hf, hep, hn, _⟩ <;>
  rcases hl'.ended with ⟨hep', hn'⟩ | ⟨_, hep', hn', hc⟩
  · exact .stays (hep'.trans hep.symm) (hn'.trans hn.symm)
  · exact .closes hep hn hep' hn' hc
  · obtain ⟨_, _, hsame⟩ := stopped_step hf hen hs
    rw [hn, hn'] at hsame
    cases hsame
  · exact .stays (hep'.trans hep.symm) (hn'.trans hn.symm)

theorem Living.ordered (hl : Living h s) : Ordered h s := by
  have total : ∀ e, s.enabled e = true → Lawful h e →
      (∃ s', s.step e = .ok s' ∧ Closing s s') ∨
        (Overruns s e ∧ s.step e = .error .assertFailed) := by
    intro e hen hlaw
    by_cases ho : Overruns s e
    · exact .inr ⟨ho, overruns_step ho⟩
    · obtain ⟨s', hs', _⟩ := hl.step_total hen hlaw ho
      exact .inl ⟨s', hs', hl.closing (hl.step hen hlaw hs') hen hs'⟩
  refine ⟨total, fun e hen hlaw => ?_, ?_, ?_, ?_⟩
  · rcases total e hen hlaw with ⟨s', hs', _⟩ | ⟨_, hs'⟩
    · rw [hs']
      exact not_aborts_ok s'
    · rw [hs', aborts_error]
      simp [Fault.isAbort]
  all_goals
    rcases hl.ended with ⟨hep, hn⟩ | ⟨_, hep, hn, hc⟩
  · omega
  · omega
  · simp [hep, hn]
  · simp [hep, hn]
  · intro h₁
    omega
  · exact fun _ => hc

/-- Whatever happens to a SOFI between start and stop, in any order, it is dealt with. -/
theorem lifecycle {s : Sofi} {h : List (Sofi × Event)} (r : pooled.Run h s)
    (hl : Machine.Heeds Lawful h) : Ordered h s := by
  refine (r.invariant_of_heeds (I := Living) (fun s hi => pooled_living hi) ?_ hl).ordered
  intro h s e s' _ hliv hlaw hen hs
  exact hliv.step hen hlaw hs

theorem fresh_pooled : pooled.init fresh := by
  refine ⟨fresh_init, by decide, _, sofi_ring (u := .easy .default) (by decide) (linked 16 16), ?_⟩
  exact List.Perm.refl _

theorem farewell_ordered : ∃ (h : List (Sofi × Event)) (s : Sofi), pooled.Run h s ∧
    (s.stoppeds = 1 ∧ s.epOpen = false) ∧ Ordered h s := by
  obtain ⟨h, s, r, hl, hp⟩ := Machine.exists_heeds (M := pooled) (D := Lawful)
    (d := fun h e => Lawful h e) farewell (fun s => s.stoppeds = 1 ∧ s.epOpen = false)
    (fun _ _ => of_decide_eq_true) fresh_pooled (by decide)
  exact ⟨h, s, r, of_decide_eq_true hp, lifecycle r hl⟩

end Ends

end Sofi

end OfiTransport
