import OfiTransport.Sofi.Receive

/-! Whether an active SOFI has a receive posted, or at least a read to come that posts one. -/

namespace OfiTransport

open Lib

namespace Ingress

variable {i : Ingress} {F B Q : List Nat} {b : Nat}

theorem post_posted (h : i.bufs.Holds i.max [] F B Q) (r : Int) :
    ∃ F' B', (i.post r).2.bufs.Holds i.max [] F' B' Q ∧ (i.post r).2.postlater = i.postlater ∧
      ((i.post r).1 = -EAGAIN ↔ F = [] ∨ r = -EAGAIN) ∧
      (B' ≠ [] ↔ B ≠ [] ∨ (F ≠ [] ∧ r = 0)) ∧ (F' = [] → F = [] ∨ r = 0) := by
  rcases post_cases h r with ⟨rfl, hp⟩ | ⟨b, F₁, q, rfl, ⟨hr, hq, hp⟩ | ⟨rfl, hq, hp⟩⟩
  · rw [hp]
    exact ⟨[], B, h, rfl, by simp, by simp, by simp⟩
  · rw [hp]
    refine ⟨_, B, hq, rfl, ?_, by simp [hr], by simp⟩
    by_cases hneg : r < 0
    · simp [hneg]
    · have hne : r ≠ -EAGAIN := by
        intro he
        simp [he, EAGAIN] at hneg
      exact iff_of_false (by simp [hneg, EAGAIN]) (by simp [hne])
  · rw [hp]
    exact ⟨F₁, b :: B, hq, rfl, by simp [EAGAIN], by simp, by simp⟩

/-- The late post forgets POSTLATER whether it succeeds or not. -/
theorem postLate_posted (h : i.bufs.Holds i.max [] (b :: F) B Q) (late : Int) :
    ∃ F' B', (i.postLate late).bufs.Holds i.max [] F' B' Q ∧ (i.postLate late).postlater = false ∧
      (B' ≠ [] ↔ B ≠ [] ∨ (i.postlater = true ∧ late = 0)) ∧ (F' = [] → B' ≠ []) := by
  simp only [postLate]
  cases hl : i.postlater with
  | false =>
    simp only [Bool.false_eq_true, if_false]
    exact ⟨_, B, h, hl, by simp, by simp⟩
  | true =>
    obtain ⟨F', B', hh, hp, _, hB, hF⟩ := post_posted (i := { i with postlater := false }) h late
    simp only [if_true]
    refine ⟨F', B', hh, hp, by simpa using hB, fun hF' => hB.2 (.inr ⟨by simp, ?_⟩)⟩
    simpa using hF hF'

def Armed (i : Ingress) : Prop :=
  i.bufs.busy ≠ none ∨ (i.postlater = true ∧ i.bufs.popHead ≠ none)

theorem armed_iff {n : Nat} (h : i.bufs.Holds n [] F B Q) :
    i.Armed ↔ B ≠ [] ∨ (i.postlater = true ∧ Q ≠ []) := by
  simp [Armed, h.busy, h.popHead]

theorem armed_complete (late r : Int) (b len : Nat)
    (h : (i.handle late b len).bufs.Holds (i.handle late b len).max [] F B Q) :
    (Sofi.complete late r i b len).Armed ↔ B ≠ [] ∨ (F ≠ [] ∧ r = 0) ∨
      (Q ≠ [] ∧ (F = [] ∨ r = -EAGAIN ∨ (i.handle late b len).postlater = true)) := by
  obtain ⟨F', B', hh, hl, hr, hB, _⟩ := post_posted h r
  simp only [Sofi.complete]
  generalize i.handle late b len = i₁ at h hh hl hr hB ⊢
  split
  · next he =>
    rw [armed_iff (i := { (i₁.post r).2 with postlater := true }) hh, hB]
    have hr := hr.1 he
    grind
  · next he =>
    rw [armed_iff hh, hB, hl]
    rw [hr] at he
    grind

theorem Open.posted_eq_singleton {B₁ B₂ : List Nat} (h : Open i F (B₁ ++ b :: B₂) Q) :
    i.posted = [b] ↔ B₁ ++ B₂ = [] := by
  constructor
  · intro hp
    have hl := h.posted.length_eq
    rw [hp, List.length_singleton, List.length_append, List.length_cons] at hl
    rw [← List.length_eq_zero_iff, List.length_append]
    omega
  · intro hB
    have hp := h.posted.trans List.perm_middle
    rw [hB] at hp
    exact List.perm_singleton.1 hp

/-- After a message the receive is re-armed unless the provider refuses a buffer, for another
reason than -EAGAIN, when no other is posted. -/
theorem Open.armed_data {bytes : List UInt8} (h : Open i F B Q) (hb : b ∈ i.posted)
    (hd : bytes ≠ keepalivePacket) (late r : Int) :
    (Sofi.complete late r (Sofi.arrive i b bytes) b bytes.length).Armed ↔
      r = 0 ∨ i.posted ≠ [b] ∨ i.postlater = true ∨ i.bufs.free = none ∨ r = -EAGAIN := by
  obtain ⟨B₁, B₂, rfl, _⟩ := h.arrive hb bytes
  have hk : (Sofi.arrive i b bytes).isKeepalive b bytes.length = false := by
    rw [← Bool.not_eq_true, isKeepalive_arrive]
    exact hd
  have hl : ((Sofi.arrive i b bytes).handle late b bytes.length).bufs.Holds
      ((Sofi.arrive i b bytes).handle late b bytes.length).max [] F (B₁ ++ B₂) (Q ++ [b]) := by
    rw [handle_data hk]
    exact h.lists.markPopulated
  have hp : ((Sofi.arrive i b bytes).handle late b bytes.length).postlater = i.postlater := by
    rw [handle_data hk]
    rfl
  rw [armed_complete late r b bytes.length hl, hp, ne_eq i.posted, h.posted_eq_singleton,
    h.lists.free, List.head?_eq_none_iff]
  simp only [ne_eq, List.append_eq_nil_iff, List.cons_ne_nil, and_false, not_false_eq_true,
    true_and]
  grind

theorem Open.armed_keepalive (h : Open i F B Q) (hb : b ∈ i.posted) (late r : Int) :
    (Sofi.complete late r (Sofi.arrive i b keepalivePacket) b keepalivePacket.length).Armed ↔
      r = 0 ∨ i.posted ≠ [b] ∨ (i.postlater = true ∧ late = 0) ∨
        (r = -EAGAIN ∧ i.bufs.popHead ≠ none) := by
  obtain ⟨B₁, B₂, rfl, _⟩ := h.arrive hb keepalivePacket
  have hk := (isKeepalive_arrive i b keepalivePacket).2 rfl
  generalize hi₁ : { Sofi.arrive i b keepalivePacket with
    bufs := (Sofi.arrive i b keepalivePacket).bufs.markFree b } = i₁
  have hl₁ : i₁.bufs.Holds i₁.max [] (b :: F) (B₁ ++ B₂) Q := by
    rw [← hi₁]
    exact h.lists.markFree_busy
  have hp₁ : i₁.postlater = i.postlater := by
    rw [← hi₁]
    rfl
  obtain ⟨F₂, B₃, hl₂, hp₂, hB, hF⟩ := postLate_posted hl₁ late
  have hh : (Sofi.arrive i b keepalivePacket).handle late b keepalivePacket.length =
      Ingress.postLate late i₁ := by
    rw [handle_keepalive hk, hi₁]
  rw [← (postLate_reposts i₁ late).max, ← hh] at hl₂
  rw [armed_complete late r b keepalivePacket.length hl₂, hh, hp₂, hB, hp₁, ne_eq (i.posted),
    h.posted_eq_singleton, h.lists.popHead, ne_eq Q.head?, List.head?_eq_none_iff]
  rw [hB, hp₁] at hF
  simp only [Bool.false_eq_true, or_false]
  grind

theorem Open.armed_fetch {i' : Ingress} {late : Int} (h : Open i F B Q) (ha : i.Armed)
    (hf : Ingress.fetch late { i with received := i.received - 1 } = .ok (0, i')) :
    i'.Armed ↔ (i.postlater = true → late = 0 ∨ i.posted ≠ []) := by
  obtain ⟨b, Q₁, q, rfl, hb, hq, hc⟩ :=
    fetch_cases (i := { i with received := i.received - 1 }) h.lists hf
  have hi' : i' =
      ((handOver { i with received := i.received - 1 } b q).postLate late).answered := by
    rcases hc with ⟨_, hi'⟩ | ⟨hff, _⟩
    · exact hi'
    · have hff₀ := h.flushFlag
      rw [show _ = i.flushFlag from rfl, hff₀] at hff
      cases hff
  obtain ⟨F₁, B₁, hl, hp, hB, _⟩ :=
    postLate_posted (i := handOver { i with received := i.received - 1 } b q) hq late
  have hp₀ : (handOver { i with received := i.received - 1 } b q).postlater = i.postlater := rfl
  have hpn : i.posted = [] ↔ B = [] := by
    constructor <;> intro he
    · exact List.nil_perm.1 (he ▸ h.posted)
    · exact List.perm_nil.1 (he ▸ h.posted)
  have ha := (armed_iff h.lists).1 ha
  rw [hi', armed_iff (i := Ingress.answered _) hl, hB, hp₀, ne_eq i.posted, hpn]
  have hpa : (Ingress.answered ((handOver { i with received := i.received - 1 } b q).postLate
    late)).postlater = false := hp
  rw [hpa]
  simp only [Bool.false_eq_true, false_and, or_false]
  grind

theorem Unused.armed_post (h : Unused i F B Q) (hl : i.bufs.Holds i.max [] F B Q) (r : Int) :
    (i.post r).2.Armed ↔ r = 0 := by
  obtain ⟨F', B', hl', _, _, hB, _⟩ := post_posted hl r
  rw [armed_iff hl', hB]
  simp [h.busy, h.queue, h.free]

theorem Unused.post_answer (h : Unused i F B Q) (hl : i.bufs.Holds i.max [] F B Q) (r : Int) :
    (i.post r).1 = if r < 0 then r else 0 := by
  rcases post_cases hl r with ⟨rfl, _⟩ | ⟨b, F₁, q, rfl, ⟨_, _, hp⟩ | ⟨rfl, _, hp⟩⟩
  · exact absurd rfl h.free
  · rw [hp]
  · rw [hp]
    rfl

end Ingress

namespace Sofi

variable {s s' : Sofi} {e : Event} {F B Q : List Nat}

/-- An active SOFI has a receive posted, or POSTLATER is set and there is something to read. -/
def ReceivePosted (s : Sofi) : Prop := s.state = .active → s.ingress.Armed

/-- Where a receive is used up, another one is posted or left to a read to come.  For the
first receive of a connection a positive answer of `ofi_recvmsg` would pass unnoticed. -/
def Rearms (s : Sofi) : Event → Prop
  | .eq type r p => s.state = .connecting → type = FI_CONNECTED → 0 < r →
    s.staged = true ∧ ∀ e, s.egress.postBuffers p s.outmsg ≠ .ok (0, e)
  | .rxCompleted b bytes late r => s.state = .active →
    r = 0 ∨ s.ingress.posted ≠ [b] ∨
      if bytes = keepalivePacket then
        (s.ingress.postlater = true ∧ late = 0) ∨ (r = -EAGAIN ∧ s.ingress.bufs.popHead ≠ none)
      else s.ingress.postlater = true ∨ s.ingress.bufs.free = none ∨ r = -EAGAIN
  | .recv late => s.state = .active → s.ingress.postlater = true →
    late = 0 ∨ s.ingress.posted ≠ []
  | _ => True

theorem rearms_of_passive (h : e.Passive s) : Rearms s e := by
  cases e with
  | eq type r p =>
    intro hst
    have hst' : s.state = .closing := h
    simp [hst] at hst'
  | rxCompleted => exact h.elim
  | recv => exact h.elim
  | _ => trivial

theorem rearms_of_breaks (h : e.Breaks s) : Rearms s e := by
  cases e with
  | eq type r p =>
    rintro _ rfl
    rcases h with h | h <;> simp [FI_CONNECTED, FI_SHUTDOWN] at h
  | rxCompleted => exact h.elim
  | recv => exact h.elim
  | _ => trivial

theorem Moves.receivePosted_iff (h : Moves s e s') (hen : s.enabled e = true)
    (hr : Receiving s F B Q) (hw : ReceivePosted s) : ReceivePosted s' ↔ Rearms s e := by
  have closes : ∀ {s₁ : Sofi}, Closes s₁ s' → ReceivePosted s' :=
    fun hc h' => by simp [hc.state] at h'
  have keeps : KeepsControl s s' → s'.ingress = s.ingress → ReceivePosted s' := by
    intro hk hi
    rw [ReceivePosted, hk.state, hi]
    exact hw
  cases h with
  | stay he hk hi ho => exact iff_of_true (keeps hk hi) (rearms_of_passive he)
  | close hc _ hf he hi ho =>
    refine iff_of_true (closes hc) ?_
    rcases he with he | ⟨rfl, _⟩
    · exact rearms_of_breaks he
    · trivial
  | sent ho hst hk hi hpb hout => exact iff_of_true (keeps hk hi) trivial
  | sendFailed hc _ ho hst hne hpb hi hout herr => exact iff_of_true (closes hc) trivial
  | @connected r p _ hst hfsm hst' herr hout _ hr' hi ho =>
    have hu := (hr.connecting hst).armed_post (hr.running (by simp [hst])).lists r
    have hneg : ¬ r < 0 := by
      intro hneg
      rw [(hr.connecting hst).post_answer (hr.running (by simp [hst])).lists, if_pos hneg] at hr'
      omega
    have hno : ¬ (s.staged = true ∧ ∀ e, s.egress.postBuffers p s.outmsg ≠ .ok (0, e)) := by
      rintro ⟨hstaged, hall⟩
      rcases ho with ⟨hs, _⟩ | ⟨eg, hpb, _⟩
      · simp [hs] at hstaged
      · exact hall eg hpb
    simp only [ReceivePosted, Rearms, hst', hst, hi, true_imp_iff, hu, hno, imp_false]
    omega
  | @connectFailed _ _ r _ hc _ hst hi ho =>
    refine iff_of_true (closes hc) ?_
    intro _ _ hpos
    rcases ho with ⟨_, hne, _⟩ | ⟨hstaged, ret, eg, hpb, hne, _⟩
    · rw [(hr.connecting hst).post_answer (hr.running (by simp [hst])).lists,
        if_neg (by omega)] at hne
      exact absurd rfl hne
    · refine ⟨hstaged, fun eg' he => ?_⟩
      rw [hpb] at he
      cases he
      exact hne rfl
  | txCompleted he hk hi hh => exact iff_of_true (keeps hk hi) trivial
  | txFailed hc _ hf hi hh herr => exact iff_of_true (closes hc) trivial
  | txErrored hf he hk hi hh => exact iff_of_true (keeps hk hi) trivial
  | txDiscarded hev hf he hk hi ho =>
    rcases hev with rfl | ⟨err, rfl⟩ <;> exact iff_of_true (keeps hk hi) trivial
  | @rxCompleted _ late r b bytes hst hk ho hi =>
    simp only [enabled, decide_eq_true_eq] at hen
    have hst' := hk.state.trans hst
    have hop := hr.running (by simp [hst])
    simp only [ReceivePosted, Rearms, hst', hst, hi, true_imp_iff]
    by_cases hb : bytes = keepalivePacket
    · subst hb
      rw [if_pos rfl, hop.armed_keepalive hen.2.1]
    · rw [if_neg hb, hop.armed_data hen.2.1 hb]
  | rxDrained hst hk ho hi =>
    refine iff_of_true (fun h' => ?_) (fun h' => ?_)
    · simp [hk.state, hst] at h'
    · simp [hst] at h'
  | rxFailed hc _ hst hi ho herr => exact iff_of_true (closes hc) trivial
  | rxErrored hst hk ho hi =>
    exact iff_of_true (fun h' => by simp [hk.state, hst] at h') trivial
  | fetched hk ho hi =>
    by_cases hst : s.state = .active
    · have hst' := hk.state.trans hst
      simp only [ReceivePosted, Rearms, hst', hst, true_imp_iff]
      exact (hr.running (by simp [hst])).armed_fetch (hw hst) hi
    · exact iff_of_true (fun h' => absurd (hk.state ▸ h') hst) (fun h' => absurd h' hst)
  | freed hk ho hi =>
    refine iff_of_true ?_ trivial
    rw [ReceivePosted, hk.state, hi]
    exact hw

/-- Along a run an active SOFI keeps a receive posted, or a read to come that posts one,
exactly as long as every step rearms. -/
theorem always_receivePosted_iff {s : Sofi} {h : List (Sofi × Event)} (r : machine.Run h s) :
    Machine.Always ReceivePosted h s ↔ Machine.Guarded Rearms h := by
  refine r.always_iff_guarded ?_ (fun s e s' hi he h => step_receiving hi he h) ?_
  · intro s hi
    refine ⟨machine_receiving hi, ?_⟩
    obtain ⟨u, _, _, rfl⟩ := machine_init hi
    exact fun h' => by simp [Setup.started] at h'
  · rintro s e s' ⟨hp, F, B, Q, hr⟩ hw he h
    exact (step_moves hp he h).receivePosted_iff he hr hw

theorem online_receivePosted : ReceivePosted online := by
  refine ((always_receivePosted_iff online_run).2 ?_).1
  simp [Rearms]

/-- The provider is out of resources when a message has arrived, and still is when nanomsg
reads it. -/
theorem receive_lost : ¬ ∀ s, machine.Reachable s → ReceivePosted s := by
  intro h
  obtain ⟨s, hr, hc⟩ := Machine.exists_reachable
    [.eq FI_CONNECTED 0 .easy, .rxCompleted 0 [1] 0 (-EAGAIN), .recv (-EAGAIN)]
    (fun s => s.state = .active ∧ s.ingress.bufs.busy = none ∧ s.ingress.postlater = false)
    fresh_init (by decide)
  obtain ⟨hst, hb, hl⟩ := of_decide_eq_true hc
  rcases h s hr hst with h' | h'
  · exact h' hb
  · simp [hl] at h'

end Sofi

end OfiTransport
