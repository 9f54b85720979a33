import OfiTransport.Sofi.Delivery
import OfiTransport.Sofi.Keepalive
import OfiTransport.Sofi.Ownership

/-! What one SOFI does to the messages that go through it: those that it is given to send end up
on the wire, and the packets that come in end up with nanomsg. -/

namespace OfiTransport

open Lib

namespace Egress

variable {e e' : Egress} {p : Post} {m : Msg} {c : Nat}

def text (e : Egress) (m : Msg) : List UInt8 :=
  e.mrm.domain.mem.read m.sphdr ++ e.mrm.domain.mem.read m.body

theorem freeContext_wire (e : Egress) (c : Nat) : (e.freeContext c).wire = e.wire := by
  simp only [freeContext]
  split <;> rfl

theorem handleError_wire (h : e.handleError c = .ok e') : e'.wire = e.wire := by
  obtain ⟨r, rfl⟩ := handleError_inv h
  exact freeContext_wire e c

theorem flushFrom_wire {fuel : Nat} {o : Option Nat} (h : flushFrom fuel o e = .ok e') :
    e'.wire = e.wire := by
  induction fuel generalizing o e with
  | zero =>
    cases o with
    | none => exact Except.ok.inj h ▸ rfl
    | some c => cases h
  | succ fuel ih =>
    cases o with
    | none => exact Except.ok.inj h ▸ rfl
    | some c =>
      simp only [flushFrom] at h
      split at h
      · exact (ih h).trans (freeContext_wire _ c)
      · exact Except.ok.inj h ▸ rfl

theorem postBuffers_refused {ret : Int} (h : e.postBuffers p m = .ok (ret, e')) (hr : ret ≠ 0) :
    e'.wire = e.wire := by
  cases postBuffers_cases h with
  | noContext _ _ he => rw [he]
  | refused _ _ _ he =>
    rw [he, freeContext_wire]
    rfl
  | posted _ hret => exact absurd hret hr

theorem postBuffers_text (hs : Mr.SlabsPlaced e.mrm)
    (hm : ∀ v ∈ iovs m, v.len ≠ 0 → v.Apart e.mrm.slabBlock)
    (h : e.postBuffers p m = .ok (0, e')) : e'.wire = e.text m :: e.wire :=
  postBuffers_sends hs hm (show (e.withMem e.mrm.domain.mem).postBuffers p m = _ from h)

end Egress

namespace Ingress

variable {i i' : Ingress} {F B Q : List Nat}

theorem flush_chunk (h : i.bufs.Holds i.max [] F B Q) (hf : i.flush = .ok i') :
    i'.chunk = i.chunk := by
  rcases flush_cases h hf with ⟨_, q, _, rfl⟩ | ⟨_, q, _, rfl⟩ <;> rfl

theorem fetch_chunk {late : Int} (h : i.bufs.Holds i.max [] F B Q)
    (hf : i.fetch late = .ok (0, i')) : i'.chunk = i.chunk := by
  obtain ⟨b, Q₁, q, _, _, hq, hc⟩ := fetch_cases h hf
  have hp := postLate_reposts (i.handOver b q) late
  obtain ⟨F₁, B₁, hl, _⟩ := postLate_lists (i := i.handOver b q) hq late
  rcases hc with ⟨_, rfl⟩ | ⟨_, hf⟩
  · exact hp.chunk
  · rw [← hp.max] at hl
    exact (flush_chunk (i := ((i.handOver b q).postLate late).answered) hl hf).trans hp.chunk

theorem Delivery.queued_eq (hd : Delivery i Q) (h : i.bufs.Holds i.max [] F B Q) :
    i.queued = i.queue.map Held.bytes := by
  rw [Ingress.queued_eq h, Ingress.queue_eq h, List.map_map]
  exact List.map_congr_left fun b hb => (hd.queue b hb).2

end Ingress

namespace Sofi

def data (ws : List (List UInt8)) : List (List UInt8) := ws.filter (fun w => w ≠ keepalivePacket)

/-- What `nn_sofi_send` is given to send, less what the peer takes for a keepalive. -/
def offered (s : Sofi) : Event → List (List UInt8)
  | .send m _ => data [s.egress.text m]
  | _ => []

def waiting (s : Sofi) : List (List UInt8) := data (s.staging.toList.map s.egress.text)

def accepted (s : Sofi) : Event → List (List UInt8)
  | .rxCompleted _ bytes _ _ => if s.state = .active then data [bytes] else []
  | _ => []

def delivered (s : Sofi) : Event → List (List UInt8)
  | .recv late =>
    match s.recv late with
    | .ok s' => (s'.ingress.held.take 1).map (fun m => (s'.ingress.chunk m.buf).shown)
    | .error _ => []
  | _ => []

def Event.Clear (s : Sofi) : Event → Prop
  | .send m _ => ∀ v ∈ Egress.iovs m, v.len ≠ 0 → v.Apart s.egress.mrm.slabBlock
  | _ => True

instance (s : Sofi) : (e : Event) → Decidable (e.Clear s)
  | .send m _ => inferInstanceAs (Decidable (∀ v ∈ Egress.iovs m, _))
  | .eq .. | .txCompleted _ | .txError .. | .rxCompleted .. | .rxError .. | .keepalive ..
  | .shutdownTimer _ | .recv _ | .stop | .free _ => .isTrue trivial

@[simp] theorem data_nil : data [] = [] := rfl

@[simp] theorem data_keepalive : data [keepalivePacket] = [] := by simp [data]

theorem data_append (ws vs : List (List UInt8)) : data (ws ++ vs) = data ws ++ data vs :=
  List.filter_append ws vs

theorem data_singleton (w : List UInt8) : data [w] = if w = keepalivePacket then [] else [w] := by
  by_cases h : w = keepalivePacket <;> simp [data, h]

/-- What a step puts on the wire, where a message that waited for the connection comes first. -/
structure Emits (s : Sofi) (e : Event) (s' : Sofi) (ws : List (List UInt8)) : Prop where
  wire : s'.egress.wire = ws.reverse ++ s.egress.wire
  closing : s'.state = .closing → ws = []
  kept : s'.state ≠ .closing → data ws ++ s'.waiting = s.waiting ++ offered s e

section Emits

variable {s s' s₁ : Sofi} {e : Event}

theorem waiting_of_staging (h : s.staging = none) : s.waiting = [] := by simp [waiting, h]

theorem Steady.waiting (h : Steady s) (hst : s.state ≠ .connecting) : s.waiting = [] :=
  waiting_of_staging (h.staging hst)

theorem Emits.nothing (hw : s'.egress.wire = s.egress.wire)
    (hk : s'.state ≠ .closing → s'.waiting = s.waiting ++ offered s e) : Emits s e s' [] :=
  ⟨hw, fun _ => rfl, hk⟩

theorem Emits.closed (hw : s'.egress.wire = s.egress.wire) (hst : s'.state = .closing) :
    Emits s e s' [] :=
  .nothing hw fun h => absurd hst h

theorem Closes.wire (h : Closes s₁ s') : s'.egress.wire = s₁.egress.wire := by
  rcases h.egress with ⟨_, he⟩ | ⟨_, hf⟩
  · rw [he]
  · exact Egress.flushFrom_wire hf

theorem Drains.wire {i : Input} (h : Drains s i s') : s'.egress.wire = s.egress.wire := by
  have he := h.egress
  cases i with
  | txCompleted c =>
    rcases he with ⟨_, n, hh⟩ | ⟨_, hh⟩
    · exact Egress.handle_wire hh
    · rw [hh]
  | txError op err =>
    rcases he with ⟨_, c, _, hh⟩ | ⟨_, hh⟩
    · exact Egress.handleError_wire hh
    · rw [hh]
  | _ => exact congrArg Egress.wire he

theorem step_closing_wire (hp : Phase s) (hst : s.state = .closing) (he : s.enabled e = true)
    (h : s.step e = .ok s') : s'.egress.wire = s.egress.wire := by
  have hf := hp.fsm_of_closing hst
  have feeds {s₁ : Sofi} {i : Input} (hi : i ≠ .stop) (h : s₁.feed i = .ok s')
      (hw : s₁.egress.wire = s.egress.wire) (h₁ : s₁.fsm = s.fsm) (hn : s.fsm ≠ .idle) :
      s'.egress.wire = s.egress.wire := by
    have hs : s₁.fsm = .stopping := by
      cases hs : s.fsm with
      | idle => exact absurd hs hn
      | active => exact absurd hs hf
      | stopping => exact h₁.trans hs
    simp only [feed, hs, if_true] at h
    exact (shutdown_drains h hs hi).wire.trans hw
  cases e with
  | send m p =>
    simp only [step, send, egressStage, hst, if_true, bind_eq_ok, pure_eq_ok] at h
    obtain ⟨_, _, rfl⟩ := h
    rfl
  | recv late =>
    simp only [step, recv, bind_eq_ok, pure_eq_ok] at h
    obtain ⟨_, _, _, _, rfl⟩ := h
    rfl
  | stop =>
    simp only [step, fsmStop, hf, if_false, Except.ok.injEq] at h
    rw [h]
  | free m =>
    cases h
    rfl
  | eq type r p => exact feeds (by simp) h rfl rfl (by simpa [enabled] using he)
  | txError op err =>
    cases op with
    | ctx c =>
      simp only [enabled, decide_eq_true_eq] at he
      exact feeds (by simp) h rfl rfl he.1
    | aux =>
      simp only [enabled, decide_eq_true_eq] at he
      exact feeds (by simp) h rfl rfl he.1
  | txCompleted | rxCompleted | rxError | keepalive | shutdownTimer =>
    simp only [enabled, decide_eq_true_eq] at he
    exact feeds (by simp) h rfl rfl he.1

theorem send_emits {m : Msg} {p : Post} (hp : Phase s) (hst : s.state ≠ .closing)
    (hpl : Mr.SlabsPlaced s.egress.mrm) (hc : Event.Clear s (.send m p))
    (h : s.step (.send m p) = .ok s') : ∃ ws, Emits s (.send m p) s' ws := by
  have hf := hp.fsm_active hst
  simp only [step, send, egressStage, bind_eq_ok, hst, nnAssert_eq_ok, if_false] at h
  obtain ⟨_, hstaged, h⟩ := h
  have hw : s.waiting = [] := waiting_of_staging (staging_unstaged hstaged)
  split at h
  · simp only [bind_eq_ok] at h
    obtain ⟨⟨ret, s₁⟩, hsend, h⟩ := h
    obtain ⟨eg, hpb, ⟨hne, rfl⟩ | ⟨rfl, rfl⟩⟩ := egressSend_cases hsend
    · simp only [hne, ne_eq, not_false_eq_true, if_true] at h
      have hcl := criticalError_cases h hf
      exact ⟨[], .closed (hcl.wire.trans (Egress.postBuffers_refused hpb hne)) hcl.state⟩
    · simp only [ne_eq, not_true, if_false, pure_eq_ok] at h
      subst h
      have htext := Egress.postBuffers_text hpl hc hpb
      refine ⟨[s.egress.text m], htext, fun h' => absurd h' hst, fun _ => ?_⟩
      rw [hw, waiting_of_staging (staging_unstaged rfl), List.append_nil, List.nil_append]
      rfl
  · simp only [pure_eq_ok] at h
    subst h
    refine ⟨[], .nothing rfl fun _ => ?_⟩
    rw [hw]
    simp [waiting, staging, hst, offered]

theorem keepalive_emits {t : TimerEvent} {aux : Int} (hs : Steady s) (hst : s.state ≠ .closing)
    (h : s.step (.keepalive t aux) = .ok s') : ∃ ws, Emits s (.keepalive t aux) s' ws := by
  have hf := hs.phase.fsm_active hst
  have hact : s.state = .active := by
    refine (hs.phase.running hf).resolve_left fun hc => ?_
    simp [step, feed, hf, handler, hc, handlerConnecting] at h
  have hw : [] = s.waiting ++ offered s (.keepalive t aux) := by
    rw [hs.waiting (by simp [hact])]
    rfl
  have hidle : ∀ {s₁ : Sofi}, s₁.staged = s.staged → s₁.waiting = [] := fun h₁ =>
    waiting_of_staging (staging_unstaged (h₁.trans (hs.idle hact)))
  simp only [step] at h
  rw [feed_active (s := { s with timerKeepalive := .deliver t }) hf hact] at h
  cases t with
  | stopped =>
    simp only [handlerActive, bind_eq_ok, pure_eq_ok] at h
    obtain ⟨_, _, rfl⟩ := h
    exact ⟨[], .nothing rfl fun _ => (hidle rfl).trans hw⟩
  | timeout =>
    simp only [handlerActive, keepaliveTimeout, egressPostAux] at h
    split at h
    · have hcl := criticalError_cases h hf
      exact ⟨[], .closed hcl.wire hcl.state⟩
    · split at h
      · by_cases ha : aux = 0
        · simp only [ha, ne_eq, not_true, if_false, Except.ok.injEq] at h
          subst h
          refine ⟨[keepalivePacket], rfl, fun h' => by simp [hact] at h', fun _ => ?_⟩
          rw [data_keepalive]
          exact (hidle rfl).trans hw
        · simp only [ha, ne_eq, not_false_eq_true, if_true] at h
          have hcl := criticalError_cases h hf
          exact ⟨[], .closed hcl.wire hcl.state⟩
      · cases h
        exact ⟨[], .nothing rfl fun _ => (hidle rfl).trans hw⟩

theorem connecting_still (hp : Phase s) (hst : s.state = .connecting) (h : s.step e = .ok s')
    (hsend : ∀ m p, e ≠ .send m p) (heq : ∀ type r p, e ≠ .eq type r p)
    (hst' : s'.state ≠ .closing) : s'.egress = s.egress ∧ s'.staging = s.staging := by
  have feeds {s₁ : Sofi} {i : Input} (h : s₁.feed i = .ok s') (h₁ : s₁.fsm = s.fsm)
      (h₂ : s₁.state = s.state) (h₃ : s₁.error = s.error) (h₄ : s₁.outActive = s.outActive) :
      ∃ type r p, i = .eq type r p :=
    feed_connecting (hp.congr h₁ h₂ h₃ h₄) (h₂.trans hst) h
  cases e with
  | send m p => exact absurd rfl (hsend m p)
  | eq type r p => exact absurd rfl (heq type r p)
  | recv late =>
    simp only [step, recv, bind_eq_ok, pure_eq_ok] at h
    obtain ⟨_, _, _, _, rfl⟩ := h
    exact ⟨rfl, rfl⟩
  | stop =>
    rcases fsmStop_cases h with ⟨hn, _⟩ | hc
    · exact absurd (hp.fsm_of_connecting hst) hn
    · exact absurd hc.state hst'
  | free m =>
    cases h
    exact ⟨rfl, rfl⟩
  | txError op err =>
    cases op with
    | ctx c =>
      obtain ⟨_, _, _, hi⟩ := feeds h rfl rfl rfl rfl
      cases hi
    | aux =>
      obtain ⟨_, _, _, hi⟩ := feeds h rfl rfl rfl rfl
      cases hi
  | txCompleted | rxCompleted | rxError | keepalive | shutdownTimer =>
    obtain ⟨_, _, _, hi⟩ := feeds h rfl rfl rfl rfl
    cases hi

theorem Moves.not_connecting (h : Moves s e s') (hst : s.state ≠ .connecting) :
    s'.state ≠ .connecting := by
  rcases h.control with hk | ⟨_, hc, _⟩ | ⟨_, _, hact, _⟩
  · exact hk.state ▸ hst
  · simp [hc.state]
  · simp [hact]

structure Flowing (s : Sofi) : Prop where
  steady : Steady s
  ingress : ∃ F B Q, Receiving s F B Q ∧ s.ingress.Delivery Q
  placed : Mr.SlabsPlaced s.egress.mrm
  clear : ∀ m ∈ s.staging, ∀ v ∈ Egress.iovs m, v.len ≠ 0 → v.Apart s.egress.mrm.slabBlock

theorem other_emits (h : Steady s) (h' : Steady s') (he : s.enabled e = true)
    (hs : s.step e = .ok s') (hsend : ∀ m p, e ≠ .send m p) (heq : ∀ type r p, e ≠ .eq type r p)
    (hw : s'.egress.wire = s.egress.wire) : Emits s e s' [] := by
  have ho : offered s e = [] := by
    cases e with
    | send m p => exact absurd rfl (hsend m p)
    | _ => rfl
  refine .nothing hw fun hst' => ?_
  rw [ho, List.append_nil]
  by_cases hst : s.state = .connecting
  · obtain ⟨heg, hstg⟩ := connecting_still h.phase hst hs hsend heq hst'
    rw [waiting, waiting, heg, hstg]
  · rw [h.waiting hst, h'.waiting ((step_moves h.phase he hs).not_connecting hst)]

theorem connected_unstaged {r : Int} {p : Post} (hp : Phase s) (hst : s.state = .connecting)
    (hn : s.staged = false) (h : s.step (.eq FI_CONNECTED r p) = .ok s')
    (hst' : s'.state ≠ .closing) : s'.egress = s.egress := by
  have hf := hp.fsm_of_connecting hst
  simp only [step, feed, hf, reduceCtorEq, if_false, handler_connecting hst, handlerConnecting,
    if_true, connected, hn, Bool.false_eq_true, bind_eq_ok] at h
  obtain ⟨_, _, h⟩ := h
  split at h
  · exact absurd (criticalError_cases h rfl).state hst'
  · simp only [pure_eq_ok] at h
    subst h
    rfl

theorem eq_emits {type r : Int} {p : Post} (h : Flowing s) (h' : Steady s')
    (hst : s.state ≠ .closing) (he : s.enabled (.eq type r p) = true)
    (hs : s.step (.eq type r p) = .ok s') : ∃ ws, Emits s (.eq type r p) s' ws := by
  cases step_moves h.steady.phase he hs with
  | stay hp => exact absurd hp hst
  | close hc _ _ _ _ ho => exact ⟨[], .closed (hc.wire.trans (by rw [ho])) hc.state⟩
  | txDiscarded hev => rcases hev with h | ⟨_, h⟩ <;> cases h
  | connectFailed hc _ _ _ ho =>
    refine ⟨[], .closed (hc.wire.trans ?_) hc.state⟩
    rcases ho with ⟨ho, _⟩ | ⟨_, ret, eg, hpb, hne, ho, _⟩
    · rw [ho]
    · rw [ho]
      exact Egress.postBuffers_refused hpb hne
  | connected hst₀ _ hact _ _ _ _ _ ho =>
    have hw' : s'.waiting = [] := h'.waiting (by simp [hact])
    cases hn : s.staged with
    | false =>
      have heg := connected_unstaged h.steady.phase hst₀ hn hs (by simp [hact])
      refine ⟨[], .nothing (by rw [heg]) fun _ => ?_⟩
      rw [hw', waiting_of_staging (staging_unstaged hn)]
      rfl
    | true =>
      have hstg : s.staging = some s.outmsg := by simp [staging, hn, hst]
      rcases ho with ⟨hf, _⟩ | ⟨eg, hpb, ho⟩
      · simp [hn] at hf
      · have htext := Egress.postBuffers_text h.placed (h.clear _ hstg) hpb
        refine ⟨[s.egress.text s.outmsg], ?_, fun h' => by simp [hact] at h', fun _ => ?_⟩
        · rw [ho]
          exact htext
        · rw [hw', waiting, hstg]
          simp [offered]

/-- What a step puts on the wire is what it was given, in order, and keepalives. -/
theorem step_emits (h : Flowing s) (h' : Steady s') (hc : e.Clear s) (he : s.enabled e = true)
    (hs : s.step e = .ok s') : ∃ ws, Emits s e s' ws := by
  have hm := step_moves h.steady.phase he hs
  by_cases hst : s.state = .closing
  · exact ⟨[], .closed (step_closing_wire h.steady.phase hst he hs) (hm.closing hst)⟩
  by_cases hsend : ∃ m p, e = .send m p
  · obtain ⟨m, p, rfl⟩ := hsend
    exact send_emits h.steady.phase hst h.placed hc hs
  by_cases heq : ∃ type r p, e = .eq type r p
  · obtain ⟨type, r, p, rfl⟩ := heq
    exact eq_emits h h' hst he hs
  simp only [not_exists] at hsend heq
  have other (hw : s'.egress.wire = s.egress.wire) : ∃ ws, Emits s e s' ws :=
    ⟨[], other_emits h.steady h' he hs hsend heq hw⟩
  cases hm with
  | stay hp hk =>
    cases e with
    | keepalive t aux => exact keepalive_emits h.steady hst hs
    | stop =>
      rcases fsmStop_cases hs with ⟨hn, _⟩ | hc
      · exact absurd (h.steady.phase.fsm_active hst) hn
      · exact absurd (hk.state.symm.trans hc.state) hst
    | shutdownTimer t =>
      have hf := h.steady.phase.fsm_active hst
      rcases h.steady.phase.running hf with hc | hc <;>
        simp [step, feed, hf, handler, hc, handlerConnecting, handlerActive] at hs
    | txError op err =>
      cases op with
      | ctx c => exact hp.elim
      | aux => exact absurd hp hst
    | send m p => exact absurd rfl (hsend m p)
    | eq type r p => exact absurd rfl (heq type r p)
    | _ => exact hp.elim
  | close hc _ _ _ _ ho => exact other (hc.wire.trans (by rw [ho]))
  | sent | sendFailed => exact absurd rfl (hsend _ _)
  | connected | connectFailed => exact absurd rfl (heq _ _ _)
  | txCompleted _ _ _ hh =>
    have hw := Egress.handle_wire hh
    exact other hw
  | txFailed hc _ _ _ hh =>
    have hw := Egress.handleError_wire hh
    exact other (hc.wire.trans hw)
  | txErrored _ _ _ _ hh =>
    have hw := Egress.handleError_wire hh
    exact other hw
  | txDiscarded _ _ _ _ _ ho => exact other (by rw [ho]; rfl)
  | rxCompleted _ _ ho | rxDrained _ _ ho | rxErrored _ _ ho | fetched _ ho | freed _ ho =>
    exact other (by rw [ho])
  | rxFailed hc _ _ _ ho => exact other (hc.wire.trans (by rw [ho]))

end Emits

section Takes

variable {s s' : Sofi} {e : Event} {F B Q F' B' Q' : List Nat}

structure Takes (s : Sofi) (e : Event) (s' : Sofi) : Prop where
  kept : s'.state ≠ .closing →
    delivered s e ++ s'.ingress.queued = s.ingress.queued ++ accepted s e
  closing : s'.state = .closing → delivered s e ++ s'.ingress.queued <+: s.ingress.queued

theorem accepted_eq (s : Sofi) (e : Event) : accepted s e = (arrived s e).map Held.bytes := by
  cases e with
  | rxCompleted b bytes late r =>
    simp only [accepted, arrived, data_singleton]
    by_cases hst : s.state = .active <;> by_cases hb : bytes = keepalivePacket <;> simp [hst, hb]
  | _ => rfl

theorem Receiving.queued_eq (h : Receiving s F B Q) (hd : s.ingress.Delivery Q) :
    s.ingress.queued = s.ingress.queue.map Held.bytes := by
  obtain ⟨B', ht⟩ := h.exists_tidy
  exact hd.queued_eq ht.lists

theorem Receiving.fetched_head {late : Int} {i : Ingress} (h : Receiving s F B Q)
    (hi : Ingress.fetch late { s.ingress with received := s.ingress.received - 1 } = .ok (0, i)) :
    ∃ b Q₁, Q = b :: Q₁ ∧ i.held = ⟨b, s.ingress.msg b⟩ :: s.ingress.held := by
  by_cases hst : s.state = .closing
  · obtain ⟨_, b, Q₁, _, hQ, _, hf, _⟩ := (h.closing hst).fetch hi
    exact ⟨b, Q₁, hQ, hf.held⟩
  · obtain ⟨_, _, b, Q₁, hQ, _, hf⟩ := (h.running hst).fetch hi
    exact ⟨b, Q₁, hQ, hf.held⟩

theorem Receiving.delivered_eq (h : Receiving s F B Q) (hd : s.ingress.Delivery Q)
    (hs : s.step e = .ok s') : delivered s e = (fetched s e).map Held.bytes := by
  cases e with
  | recv late =>
    have hs : s.recv late = .ok s' := hs
    have hrecv := hs
    simp only [recv, bind_eq_ok, nnAssert_eq_ok, pure_eq_ok] at hrecv
    obtain ⟨⟨ret, i⟩, hf, _, rfl, rfl⟩ := hrecv
    obtain ⟨b, Q₁, hQ, hheld⟩ := h.fetched_head hf
    obtain ⟨B', ht⟩ := h.exists_tidy
    have hc := Ingress.fetch_chunk (i := { s.ingress with received := s.ingress.received - 1 })
      ht.lists hf
    have hb := (hd.queue b (by simp [hQ])).2
    simp only [delivered, fetched, hs, hheld, List.take_succ_cons, List.take_zero, List.map_cons,
      List.map_nil, hc, hb]
  | _ => rfl

theorem step_takes (h : Flowing s) (he : s.enabled e = true) (hs : s.step e = .ok s') :
    Takes s e s' := by
  obtain ⟨F, B, Q, hr, hd⟩ := h.ingress
  have hm := step_moves h.steady.phase he hs
  obtain ⟨F', B', Q', hr', hq⟩ := hm.queues he h.steady.phase hr
  have hd' := (hm.delivers he hr hd hr').delivery
  have keeps (hk : inbox.kept s') :
      delivered s e ++ s'.ingress.queued = s.ingress.queued ++ accepted s e := by
    rw [hr.delivered_eq hd hs, accepted_eq, hr.queued_eq hd, hr'.queued_eq hd', ← List.map_append,
      ← List.map_append, (hq.kept hm hr hr' hk).2]
  refine ⟨fun hst => keeps fun h' => absurd h' hst, fun hst => ?_⟩
  have ha : accepted s e = [] := by
    rw [accepted_eq]
    cases hq with
    | keep ha | flush ha | pop ha | popFlush ha => rw [ha]; rfl
    | push _ _ _ hst' => simp [hst'] at hst
  cases hb : s'.ingress.nnbusy with
  | true =>
    simp only [keeps fun _ => hb, ha, List.append_nil, List.prefix_rfl]
  | false =>
    have ht := (hq.taken hr).map Held.bytes
    rw [List.map_append, ← accepted_eq, ha, List.append_nil] at ht
    rw [hr'.queued_eq hd', hr'.discarded hst hb, List.map_nil, List.append_nil,
      hr.delivered_eq hd hs, hr.queued_eq hd]
    exact ht

end Takes

section Flowing

variable {s s' : Sofi} {e : Event}

theorem machine_flowing (h : machine.init s) : Flowing s := by
  have hst := machine_steady h
  obtain ⟨u, h₁, _, rfl⟩ := machine_init h
  refine ⟨hst, ⟨_, _, _, Setup.started_receiving h₁, ?_, ?_⟩, u.started_placed, ?_⟩
  · exact fun b hb => absurd hb List.not_mem_nil
  · exact fun _ m hm => absurd hm List.not_mem_nil
  · intro m hm
    rw [staging_unstaged rfl] at hm
    cases hm

theorem Flowing.step (h : Flowing s) (hc : e.Clear s) (he : s.enabled e = true)
    (hs : s.step e = .ok s') : Flowing s' := by
  have hm := step_moves h.steady.phase he hs
  have hsteady := h.steady.step he hs
  obtain ⟨F, B, Q, hr, hd⟩ := h.ingress
  obtain ⟨F', B', Q', hr'⟩ := hm.receiving he h.steady.phase hr
  have hblock : s'.egress.mrm.slabBlock = s.egress.mrm.slabBlock := by
    rw [Mr.Manager.slabBlock, hm.worked.places.slabMem, hm.worked.places.attr]
    rfl
  refine ⟨hsteady, ⟨F', B', Q', hr', (hm.delivers he hr hd hr').delivery⟩,
    hm.worked.places.placed h.placed, ?_⟩
  intro m hmem
  rw [hblock]
  -- a message is staged in CONNECTING state only
  have hst' : s'.state = .connecting := by
    by_contra hst'
    rw [hsteady.staging hst'] at hmem
    cases hmem
  have hst : s.state = .connecting := by
    by_contra hst
    exact hm.not_connecting hst hst'
  by_cases hsend : ∃ m' p, e = .send m' p
  · obtain ⟨m', p, rfl⟩ := hsend
    have ho := (h.steady.phase.out (by simp [hst])).2 hst
    simp only [Sofi.step, send, egressStage, hst, ho, reduceCtorEq, Bool.false_eq_true, if_false,
      bind_eq_ok, pure_eq_ok] at hs
    obtain ⟨_, _, rfl⟩ := hs
    simp only [staging, ne_eq, reduceCtorEq, not_false_eq_true, and_self, if_true,
      Option.mem_some_iff] at hmem
    subst hmem
    exact hc
  by_cases heq : ∃ type r p, e = .eq type r p
  · obtain ⟨type, r, p, rfl⟩ := heq
    cases hm with
    | stay hp => simp [Event.Passive, hst] at hp
    | close hc | connectFailed hc => simp [hc.state] at hst'
    | connected _ _ hact => simp [hact] at hst'
    | txDiscarded hev => rcases hev with h | ⟨_, h⟩ <;> cases h
  simp only [not_exists] at hsend heq
  rw [(connecting_still h.steady.phase hst hs hsend heq (by simp [hst'])).2] at hmem
  exact h.clear m hmem

end Flowing

end Sofi

end OfiTransport
