import OfiTransport.Sofi.Credit

/-! The back-pressure handshake between nanomsg and a SOFI: nanomsg sends again only after
`nn_pipebase_sent`, which is called as long as there is credit left. -/

namespace OfiTransport

open Lib

theorem Egress.handle_notify {e e' : Egress} {c : Nat} {n : Bool} (h : e.handle c = .ok (n, e')) :
    n = decide (e.stageoutCounter = 0) := (handle_inv h).1

theorem Egress.handleError_same {e e' : Egress} {c : Nat} (h : e.handleError c = .ok e') :
    SameBooks e e' := by
  obtain ⟨r, rfl⟩ := handleError_inv h
  exact ⟨by simp, by simp, by simp⟩

namespace Sofi

structure Silent (s s' : Sofi) : Prop where
  sents : s'.sents = s.sents
  staged : s'.staged = s.staged

def Event.Quiet (s : Sofi) : Event → Prop
  | .send .. => s.state = .closing
  | .txCompleted _ => s.fsm ≠ .active ∧ s.error ≠ 0
  | .eq type _ _ => s.state = .connecting → type ≠ FI_CONNECTED
  | _ => True

structure SameCredit (s s' : Sofi) : Prop where
  counter : s'.egress.stageoutCounter = s.egress.stageoutCounter
  max : s'.egress.max = s.egress.max
  txOut : s'.egress.txOut.length ≤ s.egress.txOut.length

structure Spends (s s' : Sofi) : Prop where
  counter : s.egress.stageoutCounter = s'.egress.stageoutCounter + 1
  staged : s'.staged = false
  sents : s'.sents = if s'.egress.stageoutCounter = 0 then s.sents else s.sents + 1

inductive Answers (s : Sofi) : Event → Sofi → Prop
  | keep (he : e.Quiet s) (hst : s'.state = s.state) (herr : s'.error = s.error)
      (hq : Silent s s') (hc : SameCredit s s') : Answers s e s'
  | close (he : e.Quiet s) (hs : s.state ≠ .closing) (hst : s'.state = .closing)
      (hq : Silent s s') (hc : s'.error = 0 → SameCredit s s') : Answers s e s'
  | fail (hs : s.state ≠ .closing) (hst : s'.state = .closing) (herr : s'.error ≠ 0)
      (hq : s'.sents = s.sents) : Answers s e s'
  | stage (hs : s.state = .connecting) (hst : s'.state = .connecting)
      (hq : s'.sents = s.sents) (hstaged : s'.staged = true) (hc : SameCredit s s') :
      Answers s (.send m p) s'
  | sent (hs : s.state = .active) (hst : s'.state = .active) (hc : Spends s s') :
      Answers s (.send m p) s'
  | connected (hs : s.state = .connecting) (hst : s'.state = .active)
      (hc : (s.staged = false ∧ Silent s s' ∧ SameCredit s s') ∨
        (s.staged = true ∧ Spends s s')) : Answers s (.eq FI_CONNECTED r p) s'
  | completed (hs : s.state = .active ∨ (s.state = .closing ∧ s.error = 0))
      (hst : s'.state = s.state) (herr : s'.error = s.error) (hstaged : s'.staged = s.staged)
      (hcnt : s'.egress.stageoutCounter = (s.egress.stageoutCounter + 1) % 2 ^ 32)
      (hmax : s'.egress.max = s.egress.max)
      (htx : s'.egress.txOut.length + 1 = s.egress.txOut.length)
      (hq : s'.sents = if s.egress.stageoutCounter = 0 then s.sents + 1 else s.sents) :
      Answers s (.txCompleted c) s'

variable {s s' s₁ : Sofi} {e : Event} {fl bl : List Nat}

section Silence

theorem Silent.trans (h : Silent s s₁) (h' : Silent s₁ s') : Silent s s' :=
  ⟨h'.sents.trans h.sents, h'.staged.trans h.staged⟩

theorem shutdownWait_silent (h : s.shutdownWait = .ok s') : Silent s s' := by
  rcases shutdownWait_cases h with ⟨_, rfl⟩ | ⟨_, _, rfl⟩ | ⟨_, _, rfl⟩ <;> exact ⟨rfl, rfl⟩

theorem fsmStop_silent (h : s.fsmStop = .ok s') : Silent s s' := by
  simp only [fsmStop] at h
  split at h
  · simp only [shutdown, bind_eq_ok] at h
    obtain ⟨s₁, hs, hw⟩ := h
    obtain ⟨i, eg, _, _, rfl⟩ := shutdownStop_cases hs
    exact ⟨(shutdownWait_silent hw).sents, (shutdownWait_silent hw).staged⟩
  · cases h
    exact ⟨rfl, rfl⟩

theorem criticalError_silent {err : Int} (h : s.criticalError err = .ok s') : Silent s s' :=
  have hs := fsmStop_silent h
  ⟨hs.sents, hs.staged⟩

theorem egressHandleError_silent {op : OpContext} (h : s.egressHandleError op = .ok s') :
    Silent s s' := by
  obtain ⟨c, eg, _, _, rfl⟩ := egressHandleError_cases h
  exact ⟨rfl, rfl⟩

theorem shutdown_silent {i : Input} (h : s.shutdown i = .ok s') (hi : ∀ c, i ≠ .txCompleted c) :
    Silent s s' := by
  cases i with
  | start => cases h
  | stop =>
    simp only [shutdown, bind_eq_ok] at h
    obtain ⟨s₁, hs, hw⟩ := h
    obtain ⟨i, eg, _, _, rfl⟩ := shutdownStop_cases hs
    exact ⟨(shutdownWait_silent hw).sents, (shutdownWait_silent hw).staged⟩
  | rxCompleted | rxError => exact shutdownWait_silent h
  | keepalive t =>
    cases t with
    | timeout => cases h
    | stopped => exact shutdownWait_silent h
  | eq type =>
    simp only [shutdown, shutdownEq, bind_eq_ok] at h
    obtain ⟨s₁, hs, hw⟩ := h
    refine Silent.trans ?_ (shutdownWait_silent hw)
    split at hs
    · cases hs
      exact ⟨rfl, rfl⟩
    · split at hs
      · cases hs
      · cases hs
        exact ⟨rfl, rfl⟩
  | shutdownTimer t =>
    cases t with
    | timeout =>
      simp only [shutdown] at h
      split at h <;>
      · cases h
        exact ⟨rfl, rfl⟩
    | stopped =>
      simp only [shutdown] at h
      cases hst : s.socketState with
      | draining =>
        simp only [hst, bind_eq_ok, pure_eq_ok] at h
        obtain ⟨t, _, rfl⟩ := h
        exact ⟨rfl, rfl⟩
      | closing =>
        simp only [hst] at h
        have hs := shutdownWait_silent h
        exact ⟨hs.sents, hs.staged⟩
      | closed =>
        simp only [hst] at h
        exact shutdownWait_silent h
      | idle | connecting | connected => simp [hst] at h
  | txCompleted c => exact absurd rfl (hi c)
  | txError op err =>
    simp only [shutdown, shutdownTx, bind_eq_ok] at h
    obtain ⟨s₁, hs, hw⟩ := h
    refine Silent.trans ?_ (shutdownWait_silent hw)
    split at hs
    · exact egressHandleError_silent hs
    · cases hs
      exact ⟨rfl, rfl⟩

theorem keepaliveTimeout_silent {aux : Int} (h : s.keepaliveTimeout aux = .ok s') :
    Silent s s' := by
  simp only [keepaliveTimeout, egressPostAux] at h
  split at h
  · have hs := criticalError_silent h
    exact ⟨hs.sents, hs.staged⟩
  · split at h
    · split at h
      · have hs := criticalError_silent h
        exact ⟨hs.sents, hs.staged⟩
      · cases h
        exact ⟨rfl, rfl⟩
    · cases h
      exact ⟨rfl, rfl⟩

theorem handler_silent {i : Input} (h : s.handler i = .ok s') (hi : ∀ c, i ≠ .txCompleted c)
    (hc : s.state = .connecting → ∀ r p, i ≠ .eq FI_CONNECTED r p) : Silent s s' := by
  cases hst : s.state with
  | idle =>
    cases i <;> simp [handler, hst] at h
    rw [← h]
    exact ⟨rfl, rfl⟩
  | closing => simp [handler, hst] at h
  | connecting =>
    rw [handler_connecting hst] at h
    cases i with
    | eq type r p =>
      simp only [handlerConnecting] at h
      split at h
      · next ht => exact absurd (by rw [ht]) (hc hst r p)
      · split at h
        · exact criticalError_silent h
        · cases h
    | _ => cases h
  | active =>
    rw [handler_active hst] at h
    cases i with
    | eq type r p =>
      simp only [handlerActive] at h
      split at h
      · have hs := criticalError_silent h
        exact ⟨hs.sents, hs.staged⟩
      · split at h
        · exact criticalError_silent h
        · cases h
    | rxCompleted b len late r =>
      simp only [handlerActive, rxCompleted_eq] at h
      cases h
      exact ⟨rfl, rfl⟩
    | rxError err => exact criticalError_silent h
    | txCompleted c => exact absurd rfl (hi c)
    | txError op err =>
      simp only [handlerActive, bind_eq_ok] at h
      obtain ⟨s₁, hs, hc⟩ := h
      exact (egressHandleError_silent hs).trans (criticalError_silent hc)
    | keepalive t aux =>
      cases t with
      | timeout => exact keepaliveTimeout_silent h
      | stopped =>
        simp only [handlerActive, bind_eq_ok, pure_eq_ok] at h
        obtain ⟨t, _, rfl⟩ := h
        exact ⟨rfl, rfl⟩
    | start | stop | shutdownTimer => cases h

theorem feed_silent {i : Input} (h : s.feed i = .ok s') (hi : ∀ c, i ≠ .txCompleted c)
    (hc : s.state = .connecting → ∀ r p, i ≠ .eq FI_CONNECTED r p) : Silent s s' := by
  simp only [feed] at h
  split at h
  · exact shutdown_silent h hi
  · exact handler_silent h hi hc

theorem step_silent (h : s.step e = .ok s') (he : e.Quiet s) (hp : Phase s) : Silent s s' := by
  cases e with
  | eq type r p =>
    refine feed_silent h (by simp) (fun hst r' p' ht => he hst ?_)
    cases ht
    rfl
  | txCompleted c =>
    obtain ⟨hf, he⟩ := he
    simp only [step, feed] at h
    split at h
    · simp only [shutdown, shutdownTx, bind_eq_ok] at h
      obtain ⟨s₁, hs, hw⟩ := h
      rw [if_neg (show ¬ (s.removeTx c).error = 0 from he)] at hs
      cases hs
      have hs := shutdownWait_silent hw
      exact ⟨hs.sents, hs.staged⟩
    · have hst : (s.removeTx c).state = .closing := hp.closing hf
      simp [handler, hst] at h
  | txError op err =>
    cases op with
    | ctx c =>
      have hs := feed_silent h (by simp) (by simp)
      exact ⟨hs.sents, hs.staged⟩
    | aux =>
      have hs := feed_silent h (by simp) (by simp)
      exact ⟨hs.sents, hs.staged⟩
  | rxCompleted b bytes late r =>
    have hs := feed_silent h (by simp) (by simp)
    exact ⟨hs.sents, hs.staged⟩
  | rxError b err =>
    have hs := feed_silent h (by simp) (by simp)
    exact ⟨hs.sents, hs.staged⟩
  | keepalive t aux =>
    have hs := feed_silent h (by simp) (by simp)
    exact ⟨hs.sents, hs.staged⟩
  | shutdownTimer t =>
    have hs := feed_silent h (by simp) (by simp)
    exact ⟨hs.sents, hs.staged⟩
  | send m p =>
    have hst : s.state = .closing := he
    simp only [step, send, egressStage, hst, if_true, bind_eq_ok, pure_eq_ok] at h
    obtain ⟨_, _, rfl⟩ := h
    exact ⟨rfl, rfl⟩
  | recv late =>
    simp only [step, recv, bind_eq_ok, nnAssert_eq_ok, pure_eq_ok] at h
    obtain ⟨⟨ret, i⟩, _, _, _, rfl⟩ := h
    exact ⟨rfl, rfl⟩
  | stop => exact fsmStop_silent h
  | free m =>
    cases h
    exact ⟨rfl, rfl⟩

end Silence

section Answers

theorem SameCredit.of_wire (ho : ∃ w, s'.egress = { s.egress with wire := w }) :
    SameCredit s s' := by
  obtain ⟨w, ho⟩ := ho
  exact ⟨by rw [ho], by rw [ho], by rw [ho]⟩

theorem SameCredit.of_removeTx {c : Nat} {eg : Egress}
    (h : Egress.SameBooks (s.removeTx c).egress eg) (ho : s'.egress = eg) : SameCredit s s' := by
  subst ho
  refine ⟨h.counter, h.max, ?_⟩
  rw [h.txOut]
  exact List.length_erase_le

theorem Closes.credit (h : Closes s₁ s') (ho : SameCredit s s₁) :
    s'.error = 0 → SameCredit s s' := by
  intro he
  rcases h.egress with ⟨_, heq⟩ | ⟨hne, _⟩
  · exact ⟨by rw [heq, ho.counter], by rw [heq, ho.max], by rw [heq]; exact ho.txOut⟩
  · exact absurd (h.error.symm.trans he) hne

theorem Moves.quiet (h : Moves s e s') (hp : Phase s) (he : e.Quiet s) (hq : Silent s s') :
    Answers s e s' := by
  have hrun : s.fsm = .active → s.state ≠ .closing := fun hf hst => hp.fsm_of_closing hst hf
  cases h with
  | stay _ hk _ ho => exact .keep he hk.state hk.error hq (.of_wire ho)
  | close hc _ hf _ _ ho =>
    exact .close he (hrun hf) hc.state hq (hc.credit (.of_wire ⟨_, ho⟩))
  | sent _ hst => exact absurd he hst
  | sendFailed _ _ _ hst => exact absurd he hst
  | connected hst | connectFailed _ _ hst => exact absurd rfl (he hst)
  | txCompleted h' => exact absurd h' (by simp [he.1, he.2])
  | txFailed hc _ hf _ hh =>
    exact .close he (hrun hf) hc.state hq
      (hc.credit (.of_removeTx (Egress.handleError_same hh) rfl))
  | txErrored _ _ hk _ hh =>
    exact .keep he hk.state hk.error hq (.of_removeTx (Egress.handleError_same hh) rfl)
  | txDiscarded _ _ _ hk _ ho =>
    exact .keep he hk.state hk.error hq (.of_removeTx ⟨rfl, rfl, rfl⟩ ho)
  | rxCompleted _ hk ho | rxDrained _ hk ho | rxErrored _ hk ho | fetched hk ho | freed hk ho =>
    exact .keep he hk.state hk.error hq (.of_wire ⟨_, ho⟩)
  | rxFailed hc _ hst _ ho =>
    exact .close he (by simp [hst]) hc.state hq (hc.credit (.of_wire ⟨_, ho⟩))

theorem Sending.spends {p : Post} {m : Msg} {eg : Egress} (hs : Sending s fl bl)
    (hst : s.state ≠ .closing) (hpb : s.egress.postBuffers p m = .ok (0, eg))
    (ho : s'.egress = eg.atomicDec.2) (hstaged : s'.staged = false)
    (hsents : s'.sents = if 1 < eg.stageoutCounter then s.sents + 1 else s.sents) :
    Spends s s' := by
  rcases hs.holds.postBuffers hpb with ⟨hr, _⟩ | ⟨c, fl', rfl, _, _, hb⟩
  · exact absurd rfl hr
  · have hcredit := hs.credit hst
    have hlen := hs.holds.length_le
    have hcnt : eg.stageoutCounter = s.egress.stageoutCounter := hb.counter
    simp only [List.length_cons] at hlen
    have hdec : s'.egress.stageoutCounter = s.egress.stageoutCounter - 1 := by
      rw [ho, Egress.atomicDec_counter (by omega), hcnt]
    refine ⟨by omega, hstaged, ?_⟩
    rw [hsents, hcnt, hdec]
    split <;> split <;> omega

theorem send_answers {p : Post} {m : Msg} (hp : Phase s) (hs : Sending s fl bl)
    (h : s.send p m = .ok s') : Answers s (.send m p) s' := by
  by_cases hst : s.state = .closing
  · exact (send_moves hp h).quiet hp hst (step_silent (e := .send m p) h hst hp)
  · have hf := hp.fsm_active hst
    simp only [send, egressStage, bind_eq_ok] at h
    obtain ⟨_, _, h⟩ := h
    rw [if_neg hst] at h
    split at h
    · next ho =>
      have hact : s.state = .active := by
        rcases hp.running hf with h' | h'
        · rw [(hp.out hst).2 h'] at ho
          cases ho
        · exact h'
      simp only [bind_eq_ok] at h
      obtain ⟨⟨ret, s₁⟩, hsend, h⟩ := h
      obtain ⟨eg, hpb, ⟨hne, rfl⟩ | ⟨rfl, rfl⟩⟩ := egressSend_cases hsend
      · simp only [hne, ne_eq, not_false_eq_true, if_true] at h
        have hc := criticalError_cases h hf
        exact .fail hst hc.state (by rw [hc.error]; exact hne) (criticalError_silent h).sents
      · simp only [ne_eq, not_true, if_false, pure_eq_ok] at h
        subst h
        exact .sent hact hact (hs.spends hst hpb rfl rfl rfl)
    · next ho =>
      simp only [pure_eq_ok] at h
      subst h
      have hcon : s.state = .connecting := (hp.out hst).1 (by simpa using ho)
      exact .stage hcon hcon rfl rfl ⟨rfl, rfl, Nat.le_refl _⟩

theorem connected_answers {r : Int} {p : Post} (hp : Phase s) (hs : Sending s fl bl)
    (hst : s.state = .connecting) (h : s.connected r p = .ok s') :
    Answers s (.eq FI_CONNECTED r p) s' := by
  have hf := hp.fsm_of_connecting hst
  have hne : s.state ≠ .closing := by simp [hst]
  simp only [connected, bind_eq_ok] at h
  obtain ⟨t, _, h⟩ := h
  split at h
  · next hr =>
    have hc := criticalError_cases h hf
    exact .fail hne hc.state (by rw [hc.error]; exact hr) (criticalError_silent h).sents
  · split at h
    · next hstaged =>
      simp only [bind_eq_ok] at h
      obtain ⟨⟨ret, s₁⟩, hsend, h⟩ := h
      obtain ⟨eg, hpb, ⟨hr, rfl⟩ | ⟨rfl, rfl⟩⟩ := egressSend_cases hsend
      · simp only [hr, ne_eq, not_false_eq_true, if_true] at h
        have hc := criticalError_cases h hf
        exact .fail hne hc.state (by rw [hc.error]; exact hr) (criticalError_silent h).sents
      · simp only [ne_eq, not_true, if_false, pure_eq_ok] at h
        subst h
        exact .connected hst rfl (.inr ⟨hstaged, hs.spends hne hpb rfl rfl rfl⟩)
    · next hstaged =>
      simp only [pure_eq_ok] at h
      subst h
      exact .connected hst rfl
        (.inl ⟨by simpa using hstaged, ⟨rfl, rfl⟩, ⟨rfl, rfl, Nat.le_refl _⟩⟩)

theorem Sending.completed {c : Nat} {n : Bool} {eg : Egress} (hs : Sending s fl bl)
    (hc : c ∈ s.egress.txOut) (hst : s.state = .active ∨ (s.state = .closing ∧ s.error = 0))
    (hf : s.fsm = .active ∨ s.error = 0) (hh : (s.removeTx c).egress.handle c = .ok (n, eg))
    (hst' : s'.state = s.state) (herr : s'.error = s.error) (ho : s'.egress = eg)
    (hstaged : s'.staged = s.staged) (hq : s'.sents = if n then s.sents + 1 else s.sents) :
    Answers s (.txCompleted c) s' := by
  obtain ⟨b₁, b₂, rfl, _⟩ := hs.mem_of_txOut hc hf
  obtain ⟨_, hcnt, hmax, htx⟩ := Egress.Holds.handle (holds_removeTx hs.holds) hh
  subst ho
  refine .completed hst hst' herr hstaged hcnt hmax ?_ ?_
  · rw [htx]
    exact List.length_erase_add_one hc
  · simp only [hq, Egress.handle_notify hh, decide_eq_true_eq]
    rfl

theorem tx_answers {c : Nat} (hp : Phase s) (hs : Sending s fl bl)
    (hen : s.enabled (.txCompleted c) = true) (h : s.step (.txCompleted c) = .ok s') :
    Answers s (.txCompleted c) s' := by
  by_cases hq : s.fsm ≠ .active ∧ s.error ≠ 0
  · exact (step_moves hp hen h).quiet hp hq (step_silent h hq hp)
  · simp only [enabled, decide_eq_true_eq] at hen
    have hp₁ : Phase (s.removeTx c) := hp.congr rfl rfl rfl rfl
    simp only [step, feed] at h
    split at h
    · next hfs =>
      have hst : s.state = .closing := hp₁.closing (by simp [hfs])
      have he : s.error = 0 := by
        by_contra he
        exact hq ⟨hp.fsm_of_closing hst, he⟩
      simp only [shutdown, shutdownTx, bind_eq_ok] at h
      obtain ⟨s₁, hs₁, hw⟩ := h
      rw [if_pos (show (s.removeTx c).error = 0 from he)] at hs₁
      obtain ⟨n, eg, hh, rfl⟩ := egressHandle_cases hs₁
      have hd := shutdownWait_data hw
      have hq := shutdownWait_silent hw
      exact hs.completed hen.2 (.inr ⟨hst, he⟩) (.inr he) hh hd.state hd.error hd.egress
        hq.staged hq.sents
    · next hfs =>
      have hf : s.fsm = .active := by
        cases hfsm : s.fsm with
        | idle => exact absurd hfsm hen.1
        | active => rfl
        | stopping => exact absurd hfsm hfs
      have hst := handler_state hp₁ hf h (by simp)
      rw [handler_active hst] at h
      obtain ⟨n, eg, hh, rfl⟩ := egressHandle_cases h
      exact hs.completed hen.2 (.inl hst) (.inl hf) hh rfl rfl rfl rfl rfl

theorem eq_answers {type r : Int} {p : Post} (hp : Phase s) (hs : Sending s fl bl)
    (hen : s.enabled (.eq type r p) = true) (h : s.step (.eq type r p) = .ok s') :
    Answers s (.eq type r p) s' := by
  by_cases hq : s.state = .connecting → type ≠ FI_CONNECTED
  · exact (step_moves hp hen h).quiet hp hq (step_silent h hq hp)
  · simp only [ne_eq, Classical.not_imp, not_not] at hq
    obtain ⟨hst, rfl⟩ := hq
    have hf := hp.fsm_of_connecting hst
    simp only [step, feed, hf, reduceCtorEq, if_false] at h
    rw [handler_connecting hst] at h
    exact connected_answers hp hs hst h

theorem step_answers (hp : Phase s) (hs : Sending s fl bl) (hen : s.enabled e = true)
    (h : s.step e = .ok s') : Answers s e s' := by
  have quiet : e.Quiet s → Answers s e s' :=
    fun he => (step_moves hp hen h).quiet hp he (step_silent h he hp)
  cases e with
  | eq type r p => exact eq_answers hp hs hen h
  | txCompleted c => exact tx_answers hp hs hen h
  | send m p => exact send_answers hp hs h
  | txError | rxCompleted | rxError | keepalive | shutdownTimer | recv | stop | free =>
    exact quiet trivial

end Answers

structure Ready (s : Sofi) (fl : List Nat) : Prop where
  phase : Phase s
  state : s.state = .connecting
  sending : Sending s fl []
  max : 0 < s.egress.max
  sents : s.sents = 0
  staged : s.staged = false

theorem Setup.started_ready {u : Setup} (h₁ : 1 ≤ u.rxQueue) (h₂ : u.rxQueue ≤ u.txQueue) :
    Ready u.started (List.range u.rxQueue.toNat) := by
  refine ⟨u.started_phase, rfl, u.started_sending h₁ h₂, ?_, rfl, rfl⟩
  have hm : u.started.egress.max = u.txQueue.toNat := rfl
  omega

end Sofi

/-- A SOFI below nanomsg, which has called `nn_sofi_send` so many times.  The messages it
gave to a SOFI that was not closing were accepted. -/
structure Pipe where
  sofi : Sofi
  calls : Nat
  accepted : Nat

namespace Pipe

open Sofi

def enabled (p : Pipe) (e : Event) : Bool :=
  match e with
  | .send .. => p.sofi.enabled e ∧ p.calls = p.sofi.sents
  | _ => p.sofi.enabled e

def advance (p : Pipe) (e : Event) (s : Sofi) : Pipe :=
  match e with
  | .send .. =>
    ⟨s, p.calls + 1, if p.sofi.state = .closing then p.accepted else p.accepted + 1⟩
  | _ => { p with sofi := s }

def step (p : Pipe) (e : Event) : M Pipe := do return p.advance e (← p.sofi.step e)

/-- Nanomsg sends only when its last send has been answered. -/
def machine : Machine Pipe Event Fault where
  init p := (∃ fl, Ready p.sofi fl) ∧ p.calls = 0 ∧ p.accepted = 0
  enabled := enabled
  step := step

structure Handshake (p : Pipe) : Prop where
  answered : p.sofi.sents ≤ p.accepted
  accepted : p.accepted ≤ p.calls
  calls : p.calls ≤ p.sofi.sents + 1
  running : p.sofi.state ≠ .closing → p.accepted = p.calls
  connecting : p.sofi.state = .connecting →
    0 < p.sofi.egress.stageoutCounter ∧ (p.sofi.sents < p.accepted ↔ p.sofi.staged = true)
  active : p.sofi.state = .active →
    p.sofi.staged = false ∧ (p.sofi.sents < p.accepted ↔ p.sofi.egress.stageoutCounter = 0)
  closing : p.sofi.state = .closing → p.sofi.error = 0 →
    p.sofi.egress.stageoutCounter + p.sofi.egress.txOut.length ≤ p.sofi.egress.max ∧
      (p.sofi.egress.stageoutCounter = 0 → p.sofi.sents < p.accepted)

variable {p p' : Pipe} {e : Event} {s' : Sofi} {fl bl : List Nat}

@[simp] theorem advance_sofi (p : Pipe) (e : Event) (s : Sofi) : (p.advance e s).sofi = s := by
  cases e <;> rfl

theorem enabled_sofi (h : p.enabled e = true) : p.sofi.enabled e = true := by
  cases e with
  | send m q =>
    simp only [enabled, decide_eq_true_eq] at h
    exact h.1
  | _ => exact h

theorem step_inv (h : p.step e = .ok p') :
    ∃ s', p.sofi.step e = .ok s' ∧ p' = p.advance e s' := by
  simp only [step, bind_eq_ok, pure_eq_ok] at h
  obtain ⟨s', hs, rfl⟩ := h
  exact ⟨s', hs, rfl⟩

theorem advance_cases (h : p.enabled e = true) (s' : Sofi) :
    (∃ m q, e = .send m q ∧ p.calls = p.sofi.sents ∧ (p.advance e s').calls = p.calls + 1 ∧
      (p.advance e s').accepted =
        if p.sofi.state = .closing then p.accepted else p.accepted + 1) ∨
    ((∀ m q, e ≠ .send m q) ∧ (p.advance e s').calls = p.calls ∧
      (p.advance e s').accepted = p.accepted) := by
  cases e with
  | send m q =>
    simp only [enabled, decide_eq_true_eq] at h
    exact .inl ⟨m, q, rfl, h.2, rfl, rfl⟩
  | _ => exact .inr ⟨nofun, rfl, rfl⟩

theorem handshake_of_spends (hs : Spends p.sofi p'.sofi) (hst : p'.sofi.state = .active)
    (hu : p'.accepted = p.sofi.sents + 1) (hc : p'.calls = p'.accepted) : Handshake p' := by
  have hcnt := hs.counter
  have hsents := hs.sents
  refine ⟨?_, ?_, ?_, fun _ => hc.symm, fun h' => by simp [hst] at h', fun _ => ⟨hs.staged, ?_⟩,
    fun h' => by simp [hst] at h'⟩
  all_goals
    split at hsents
    all_goals omega

theorem handshake_of_closing (hst : p'.sofi.state = .closing) (h₁ : p'.sofi.sents ≤ p'.accepted)
    (h₂ : p'.accepted ≤ p'.calls) (h₃ : p'.calls ≤ p'.sofi.sents + 1)
    (hc : p'.sofi.error = 0 →
      p'.sofi.egress.stageoutCounter + p'.sofi.egress.txOut.length ≤ p'.sofi.egress.max ∧
        (p'.sofi.egress.stageoutCounter = 0 → p'.sofi.sents < p'.accepted)) : Handshake p' :=
  ⟨h₁, h₂, h₃, fun h' => absurd hst h', fun h' => by simp [hst] at h',
    fun h' => by simp [hst] at h', fun _ => hc⟩

theorem Handshake.keep (h : Handshake p) (hst : p'.sofi.state = p.sofi.state)
    (herr : p'.sofi.error = p.sofi.error) (hq : Silent p.sofi p'.sofi)
    (hc : SameCredit p.sofi p'.sofi) (hcalls : p'.calls = p.calls)
    (hacc : p'.accepted = p.accepted) : Handshake p' := by
  constructor
  · rw [hq.sents, hacc]
    exact h.answered
  · rw [hcalls, hacc]
    exact h.accepted
  · rw [hq.sents, hcalls]
    exact h.calls
  · rw [hst, hcalls, hacc]
    exact h.running
  · rw [hst, hc.counter, hq.sents, hacc, hq.staged]
    exact h.connecting
  · rw [hst, hc.counter, hq.sents, hacc, hq.staged]
    exact h.active
  · rw [hst, herr, hc.max, hc.counter, hq.sents, hacc]
    intro h' h''
    have hb := h.closing h' h''
    exact ⟨Nat.le_trans (Nat.add_le_add_left hc.txOut _) hb.1, hb.2⟩

theorem Handshake.drop (h : Handshake p) (hcl : p.sofi.state = .closing)
    (hst : p'.sofi.state = p.sofi.state) (herr : p'.sofi.error = p.sofi.error)
    (hq : Silent p.sofi p'.sofi) (hc : SameCredit p.sofi p'.sofi) (hfree : p.calls = p.sofi.sents)
    (hcalls : p'.calls = p.calls + 1) (hacc : p'.accepted = p.accepted) : Handshake p' := by
  have hsents := hq.sents
  have h₁ := h.answered
  have h₂ := h.accepted
  refine handshake_of_closing (hst.trans hcl) (by omega) (by omega) (by omega) (fun h' => ?_)
  obtain ⟨hb, hz⟩ := h.closing hcl (herr ▸ h')
  rw [hc.max, hc.counter, hsents, hacc]
  exact ⟨Nat.le_trans (Nat.add_le_add_left hc.txOut _) hb, hz⟩

theorem Handshake.close (h : Handshake p) (hp : Phase p.sofi) (hs : Sending p.sofi fl bl)
    (hne : p.sofi.state ≠ .closing) (hst : p'.sofi.state = .closing)
    (hq : Silent p.sofi p'.sofi) (hc : p'.sofi.error = 0 → SameCredit p.sofi p'.sofi)
    (hcalls : p'.calls = p.calls) (hacc : p'.accepted = p.accepted) : Handshake p' := by
  have hsents := hq.sents
  have h₁ := h.answered
  have h₂ := h.accepted
  have h₃ := h.calls
  refine handshake_of_closing hst (by omega) (by omega) (by omega) (fun h' => ?_)
  obtain ⟨hcredit, htx⟩ := hs.books hp (hp.fsm_active hne)
  have hlen := htx.length_eq
  have htx' := (hc h').txOut
  rw [(hc h').max, (hc h').counter, hsents, hacc]
  refine ⟨by omega, fun hz => ?_⟩
  rcases hp.running (hp.fsm_active hne) with hcon | hact
  · have hpos := (h.connecting hcon).1
    omega
  · exact (h.active hact).2.2 hz

theorem Handshake.complete (h : Handshake p) (hp : Phase p.sofi) (hs : Sending p.sofi fl bl)
    (hrun : p.sofi.state = .active ∨ (p.sofi.state = .closing ∧ p.sofi.error = 0))
    (hst : p'.sofi.state = p.sofi.state) (hstaged : p'.sofi.staged = p.sofi.staged)
    (hcnt : p'.sofi.egress.stageoutCounter = (p.sofi.egress.stageoutCounter + 1) % 2 ^ 32)
    (hmax : p'.sofi.egress.max = p.sofi.egress.max)
    (htx : p'.sofi.egress.txOut.length + 1 = p.sofi.egress.txOut.length)
    (hq : p'.sofi.sents =
      if p.sofi.egress.stageoutCounter = 0 then p.sofi.sents + 1 else p.sofi.sents)
    (hcalls : p'.calls = p.calls) (hacc : p'.accepted = p.accepted) : Handshake p' := by
  have h₁ := h.answered
  have h₂ := h.accepted
  have h₃ := h.calls
  have hsmall := hs.small
  -- the counter is below its bound, and nanomsg waits where it is zero
  have hwait : p.sofi.egress.stageoutCounter + p.sofi.egress.txOut.length ≤ p.sofi.egress.max ∧
      (p.sofi.egress.stageoutCounter = 0 → p.sofi.sents < p.accepted) := by
    rcases hrun with hact | ⟨hcl, he⟩
    · obtain ⟨hcredit, htx⟩ := hs.books hp (hp.fsm_of_active hact)
      have hlen := htx.length_eq
      exact ⟨by omega, (h.active hact).2.2⟩
    · exact h.closing hcl he
  obtain ⟨hbound, hpend⟩ := hwait
  rw [Nat.mod_eq_of_lt (by omega)] at hcnt
  have hans : p'.sofi.sents ≤ p'.accepted ∧ p'.calls ≤ p'.sofi.sents + 1 := by
    split at hq <;> omega
  rcases hrun with hact | ⟨hcl, he⟩
  · obtain ⟨hns, hz⟩ := h.active hact
    have hst' := hst.trans hact
    have hrun := h.running (by simp [hact])
    refine ⟨hans.1, by omega, hans.2, fun _ => by omega, fun h' => by simp [hst'] at h',
      fun _ => ⟨hstaged.trans hns, ?_⟩, fun h' => by simp [hst'] at h'⟩
    split at hq <;> omega
  · exact handshake_of_closing (hst.trans hcl) hans.1 (by omega) hans.2 (fun _ => by omega)

theorem Handshake.step (h : Handshake p) (hp : Phase p.sofi) (hs : Sending p.sofi fl bl)
    (hen : p.enabled e = true) (ha : Answers p.sofi e s') : Handshake (p.advance e s') := by
  have h₁ := h.answered
  have h₂ := h.accepted
  have h₃ := h.calls
  have hadv := advance_cases hen s'
  have hq := advance_sofi p e s'
  generalize p.advance e s' = p' at hadv hq
  subst hq
  cases ha with
  | keep he hst herr hq hc =>
    rcases hadv with ⟨m, q, rfl, hfree, hcalls, hacc⟩ | ⟨_, hcalls, hacc⟩
    · rw [if_pos (show p.sofi.state = .closing from he)] at hacc
      exact h.drop he hst herr hq hc hfree hcalls hacc
    · exact h.keep hst herr hq hc hcalls hacc
  | close he hne hst hq hc =>
    rcases hadv with ⟨m, q, rfl, _⟩ | ⟨_, hcalls, hacc⟩
    · exact absurd he hne
    · exact h.close hp hs hne hst hq hc hcalls hacc
  | fail hne hst herr hq =>
    have hrun := h.running hne
    rcases hadv with ⟨_, _, _, hfree, hcalls, hacc⟩ | ⟨_, hcalls, hacc⟩
    · rw [if_neg hne] at hacc
      exact handshake_of_closing hst (by omega) (by omega) (by omega) (fun h' => absurd h' herr)
    · exact handshake_of_closing hst (by omega) (by omega) (by omega) (fun h' => absurd h' herr)
  | stage hcon hst hq hstaged hc =>
    have hne : p.sofi.state ≠ .closing := by simp [hcon]
    have hcnt := hc.counter
    have hpos := (h.connecting hcon).1
    have hrun := h.running hne
    obtain ⟨_, _, _, hfree, hcalls, hacc⟩ | ⟨hn, _⟩ := hadv
    · rw [if_neg hne] at hacc
      exact ⟨by omega, by omega, by omega, fun _ => by omega,
        fun _ => ⟨by omega, iff_of_true (by omega) hstaged⟩, fun h' => by simp [hst] at h',
        fun h' => by simp [hst] at h'⟩
    · exact absurd rfl (hn _ _)
  | sent hact hst hc =>
    have hne : p.sofi.state ≠ .closing := by simp [hact]
    have hrun := h.running hne
    obtain ⟨_, _, _, hfree, hcalls, hacc⟩ | ⟨hn, _⟩ := hadv
    · rw [if_neg hne] at hacc
      exact handshake_of_spends hc hst (by omega) (by omega)
    · exact absurd rfl (hn _ _)
  | connected hcon hst hc =>
    have hrun := h.running (by simp [hcon])
    obtain ⟨hpos, hstg⟩ := h.connecting hcon
    obtain ⟨_, _, he, _⟩ | ⟨_, hcalls, hacc⟩ := hadv
    · cases he
    · rcases hc with ⟨hns, hq, hc⟩ | ⟨hstaged, hc⟩
      · have hcnt := hc.counter
        have hsents := hq.sents
        have hpend : ¬ p.sofi.sents < p.accepted := by simp [hstg, hns]
        exact ⟨by omega, by omega, by omega, fun _ => by omega, fun h' => by simp [hst] at h',
          fun _ => ⟨hq.staged.trans hns, by omega⟩, fun h' => by simp [hst] at h'⟩
      · have hpend := hstg.2 hstaged
        exact handshake_of_spends hc hst (by omega) (by omega)
  | completed hrun hst herr hstaged hcnt hmax htx hq =>
    obtain ⟨_, _, he, _⟩ | ⟨_, hcalls, hacc⟩ := hadv
    · cases he
    · exact h.complete hp hs hrun hst hstaged hcnt hmax htx hq hcalls hacc

theorem Handshake.of_ready (h : Ready p.sofi fl) (hcalls : p.calls = 0) (hacc : p.accepted = 0) :
    Handshake p := by
  have hsents := h.sents
  have hst := h.state
  have hcredit := h.sending.credit (by simp [hst])
  have hmax := h.max
  rw [List.length_nil] at hcredit
  refine ⟨by omega, by omega, by omega, fun _ => by omega, fun _ => ⟨by omega, ?_⟩,
    fun h' => by simp [hst] at h', fun h' => by simp [hst] at h'⟩
  simp [h.staged, hsents, hacc]

theorem reachable_handshake (h : machine.Reachable p) :
    Phase p.sofi ∧ (∃ fl bl, Sending p.sofi fl bl) ∧ Handshake p := by
  refine h.invariant
    (I := fun p => Phase p.sofi ∧ (∃ fl bl, Sending p.sofi fl bl) ∧ Handshake p) ?_ ?_
  · rintro p ⟨⟨fl, hr⟩, hcalls, hacc⟩
    exact ⟨hr.phase, ⟨fl, [], hr.sending⟩, .of_ready hr hcalls hacc⟩
  · rintro p e p' ⟨hp, ⟨fl, bl, hs⟩, hh⟩ hen hstep
    obtain ⟨s', hs', rfl⟩ := step_inv hstep
    have hen' := enabled_sofi hen
    obtain ⟨hp', hsend⟩ := step_sending ⟨hp, fl, bl, hs⟩ hen' hs'
    refine ⟨?_, ?_, hh.step hp hs hen (step_answers hp hs hen' hs')⟩
    · rw [advance_sofi]
      exact hp'
    · rw [advance_sofi]
      exact hsend

/-- Every answer is for a send that was accepted and had not been answered, and a send to an
active SOFI is unanswered just when the credit is used up. -/
theorem reachable_answered (h : machine.Reachable p) :
    p.sofi.sents ≤ p.accepted ∧ p.accepted ≤ p.calls ∧ p.calls ≤ p.sofi.sents + 1 ∧
      (p.sofi.state = .active →
        (p.sofi.sents < p.accepted ↔ p.sofi.egress.stageoutCounter = 0)) := by
  obtain ⟨_, _, hh⟩ := reachable_handshake h
  exact ⟨hh.answered, hh.accepted, hh.calls, fun hst => (hh.active hst).2⟩

def small : Pipe := ⟨(Setup.easy ⟨2, 2, 4096⟩).started, 0, 0⟩

theorem small_init : machine.init small :=
  ⟨⟨_, Setup.started_ready (by decide) (by decide)⟩, rfl, rfl⟩

theorem small_blocked : ∃ p : Pipe,
    p.sofi.egress.stageoutCounter = 0 ∧ p.sofi.sents < p.accepted := by
  obtain ⟨p, hr, hc⟩ := Machine.exists_reachable
    [.eq FI_CONNECTED 0 .easy, .send ⟨⟨0, 0⟩, ⟨0x20000, 8⟩⟩ .easy,
      .send ⟨⟨0, 0⟩, ⟨0x30000, 8⟩⟩ .easy]
    (fun p => p.sofi.state = .active ∧ p.sofi.egress.stageoutCounter = 0) small_init (by decide)
  obtain ⟨hst, hz⟩ := of_decide_eq_true hc
  exact ⟨p, hz, ((reachable_answered hr).2.2.2 hst).2 hz⟩

end Pipe

end OfiTransport
