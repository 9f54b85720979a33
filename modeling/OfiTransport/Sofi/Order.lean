import OfiTransport.Lib.Fifo
import OfiTransport.Sofi.Wire

/-! What nanomsg is told of and what it reads: a notification stands for a message in the
queue, and the messages come out in the order in which they arrived. -/

namespace OfiTransport

open Lib

namespace Ingress

variable {i : Ingress} {F B Q : List Nat}

def queue (i : Ingress) : List Held :=
  (i.bufs.links.walk i.max i.bufs.popHead).map (fun b => ⟨b, i.msg b⟩)

theorem queue_eq (h : i.bufs.Holds i.max [] F B Q) :
    i.queue = Q.map (fun b => ⟨b, i.msg b⟩) := by
  have hl := h.length
  rw [queue, h.popHead, h.popList.walk (by omega)]

theorem flush_total (h : i.bufs.Holds i.max [] F B Q) : ∃ i', i.flush = .ok i' := by
  have hl := h.length
  obtain ⟨q, hq, hh⟩ := h.spread.flushBusy (show B.length ≤ i.max by omega)
  obtain ⟨q', hq', _⟩ := hh.flushPopulated (show Q.length ≤ i.max by omega)
  simp only [flush, hq, bind, Except.bind]
  split
  · exact ⟨_, rfl⟩
  · rw [hq']
    exact ⟨_, rfl⟩

theorem Tidy.fetch_total {b : Nat} (h : Tidy i F B (b :: Q)) (hb : i.nnbusy = true) (late : Int) :
    ∃ i', fetch late { i with received := i.received - 1 } = .ok (0, i') := by
  obtain ⟨q, hq, hh, hl⟩ := h.lists.popPopulated
  obtain ⟨F₁, B₁, ht, _⟩ := h.read (b := b) hb (hh.markFree_loose hl) late
  obtain ⟨i', hi'⟩ := flush_total ht.lists
  rw [fetch_eq (i := { i with received := i.received - 1 }) hb hq]
  split
  · exact ⟨i', by rw [hi']; rfl⟩
  · exact ⟨_, rfl⟩

end Ingress

namespace Sofi

variable {s s' : Sofi} {e : Event} {F B Q Q' : List Nat}

section Notifications

structure Announces (s : Sofi) (Q : List Nat) : Prop where
  nnbusy : s.ingress.nnbusy = true → Q ≠ []
  nnlater : s.ingress.nnlater = true → s.ingress.nnbusy = true ∧ 2 ≤ Q.length

theorem Queues.announces (h : Queues s Q e s' Q') (ha : Announces s Q) : Announces s' Q' := by
  cases h with
  | keep _ _ hb hl =>
    constructor
    · rw [hb]
      exact ha.nnbusy
    · rw [hb, hl]
      exact ha.nnlater
  | flush _ _ _ hb hl => exact ⟨by simp [hb], by simp [hl]⟩
  | @push b bytes _ _ _ _ hb hl =>
    refine ⟨fun _ => by simp, fun hl' => ⟨hb, ?_⟩⟩
    -- either NNBUSY was set and stood for a message already, or NNLATER was
    cases hn : s.ingress.nnbusy with
    | true =>
      have hQ := List.length_pos_iff.2 (ha.nnbusy hn)
      rw [List.length_append, List.length_singleton]
      omega
    | false =>
      simp only [hn, Bool.false_eq_true, if_false] at hl
      have hb' := (ha.nnlater (hl ▸ hl')).1
      simp [hn] at hb'
  | pop _ _ hQ hi =>
    constructor
    · intro hb
      have h₂ := (ha.nnlater (hi.nnbusy ▸ hb)).2
      rw [hQ, List.length_cons] at h₂
      exact List.length_pos_iff.1 (by omega)
    · intro hl
      simp [hi.nnlater] at hl
  | popFlush _ _ _ hi _ _ hl =>
    exact ⟨fun hb => by simp [hi.nnbusy, hl] at hb, fun hl' => by simp [hi.nnlater] at hl'⟩

/-- What is announced is in the queue, so every read that nanomsg was asked for succeeds.  A
notification while another one is unanswered would make `received` more than one. -/
structure Announced (s : Sofi) : Prop where
  nnbusy : s.ingress.nnbusy = true → s.ingress.queue ≠ []
  nnlater : s.ingress.nnlater = true → 2 ≤ s.ingress.queue.length
  read : ∀ late, s.enabled (.recv late) = true → ∃ s', s.step (.recv late) = .ok s'
  received : s.ingress.received ≤ 1

theorem Receiving.announced (h : Receiving s F B Q) (ha : Announces s Q) : Announced s := by
  obtain ⟨B', ht⟩ := h.exists_tidy
  have hq := Ingress.queue_eq ht.lists
  have hr := ht.received
  refine ⟨fun hb => ?_, fun hl => ?_, fun late hen => ?_, ?_⟩
  · simpa [hq] using ha.nnbusy hb
  · simpa [hq] using (ha.nnlater hl).2
  · simp only [enabled, decide_eq_true_eq] at hen
    have hb : s.ingress.nnbusy = true := by
      by_contra hb
      rw [if_neg hb] at hr
      omega
    obtain ⟨b, Q₁, rfl⟩ := List.exists_cons_of_ne_nil (ha.nnbusy hb)
    obtain ⟨i', hi'⟩ := ht.fetch_total hb late
    exact ⟨_, recv_of_fetch hi'⟩
  · rw [hr]
    split <;> omega

theorem reachable_announces (h : machine.Reachable s) :
    Phase s ∧ ∃ F B Q, Receiving s F B Q ∧ Announces s Q := by
  refine h.invariant (I := fun s => Phase s ∧ ∃ F B Q, Receiving s F B Q ∧ Announces s Q) ?_ ?_
  · intro s hi
    obtain ⟨u, h₁, _, rfl⟩ := machine_init hi
    exact ⟨u.started_phase, _, _, _, Setup.started_receiving h₁, nofun, nofun⟩
  · rintro s e s' ⟨hp, F, B, Q, hr, ha⟩ he hs
    have hm := step_moves hp he hs
    obtain ⟨F', B', Q', hr', hq⟩ := hm.queues he hp hr
    exact ⟨hm.phase hp, F', B', Q', hr', hq.announces ha⟩

/-- No notification is spurious. -/
theorem reachable_announced (h : machine.Reachable s) : Announced s := by
  obtain ⟨_, F, B, Q, hr, ha⟩ := reachable_announces h
  exact hr.announced ha

theorem two_announced : ∃ s, s.ingress.nnlater = true ∧ Announced s := by
  obtain ⟨s, hr, hl⟩ := Machine.exists_reachable
    [.eq FI_CONNECTED 0 .easy, .rxCompleted 0 [1] 0 0, .rxCompleted 1 [2] 0 0]
    (fun s => s.ingress.nnlater) fresh_init (by decide)
  exact ⟨s, hl, reachable_announced hr⟩

end Notifications

section Delivery

/-- The queue of received messages, which is kept until a flush that finds no notification
unanswered. -/
def inbox : Machine.Fifo machine Held where
  input := arrived
  output := fetched
  queue s := s.ingress.queue
  kept s := s.state = .closing → s.ingress.nnbusy = true

theorem Receiving.queue_eq (h : Receiving s F B Q) :
    s.ingress.queue = Q.map (fun b => ⟨b, s.ingress.msg b⟩) := by
  obtain ⟨B', ht⟩ := h.exists_tidy
  exact Ingress.queue_eq ht.lists

theorem Receiving.discarded (h : Receiving s F B Q) (hst : s.state = .closing)
    (hb : s.ingress.nnbusy = false) : s.ingress.queue = [] := by
  rw [h.queue_eq, (h.closing hst).drained hb]
  rfl

theorem Queues.kept (h : Queues s Q e s' Q') (hm : Moves s e s') (hr : Receiving s F B Q)
    (hr' : Receiving s' F' B' Q') (hk : inbox.kept s') :
    inbox.kept s ∧ fetched s e ++ s'.ingress.queue = s.ingress.queue ++ arrived s e := by
  rw [hr.queue_eq, hr'.queue_eq]
  cases h with
  | keep ha hf hb _ hmsg =>
    refine ⟨fun hst => hb ▸ hk (hm.closing hst), ?_⟩
    rw [ha, hf, hmsg, List.nil_append, List.append_nil]
  | flush _ _ hst hb =>
    have hb' := hk hst
    simp [hb] at hb'
  | @push b bytes ha hf hst _ _ _ hmsg hq =>
    refine ⟨fun h' => by simp [hst] at h', ?_⟩
    rw [ha, hf, hmsg, List.nil_append, List.map_append]
    congr 1
    · apply List.map_congr_left
      intro c hc
      have hcb : c ≠ b := fun he => hq (he ▸ hc)
      simp [hcb]
    · simp
  | pop ha hf hQ hi =>
    refine ⟨fun _ => hi.busy, ?_⟩
    rw [ha, hf, hQ, hi.msg, List.append_nil, List.map_cons, List.singleton_append]
  | popFlush _ _ _ hi _ hst hl =>
    have hb' := hk hst
    simp [hi.nnbusy, hl] at hb'

theorem Queues.taken (h : Queues s Q e s' Q') (hr : Receiving s F B Q) :
    fetched s e <+: s.ingress.queue ++ arrived s e := by
  cases h with
  | keep _ hf | flush _ hf | push _ hf =>
    rw [hf]
    exact List.nil_prefix
  | pop ha hf hQ | popFlush ha hf hQ =>
    rw [hf, ha, hr.queue_eq, hQ, List.append_nil, List.map_cons]
    exact ⟨_, List.singleton_append⟩

theorem Queues.given_up (h : Queues s Q e s' Q') (hk : ¬ inbox.kept s) : fetched s e = [] := by
  cases h with
  | keep _ hf | flush _ hf | push _ hf => exact hf
  | pop _ _ _ hi | popFlush _ _ _ hi => exact absurd (fun _ => hi.busy) hk

theorem inbox_ordered : inbox.Ordered (fun s => Phase s ∧ ∃ F B Q, Receiving s F B Q) where
  init s hi := by
    refine ⟨machine_receiving hi, ?_⟩
    obtain ⟨u, h₁, _, rfl⟩ := machine_init hi
    exact (Setup.started_receiving h₁).queue_eq
  invariant _ _ _ hI he hs := step_receiving hI he hs
  kept := by
    rintro s e s' ⟨hp, F, B, Q, hr⟩ he hs hk
    have hm := step_moves hp he hs
    obtain ⟨F', B', Q', hr', hq⟩ := hm.queues he hp hr
    exact hq.kept hm hr hr' hk
  taken := by
    rintro s e s' ⟨hp, F, B, Q, hr⟩ he hs _
    obtain ⟨F', B', Q', _, hq⟩ := (step_moves hp he hs).queues he hp hr
    exact hq.taken hr
  given_up := by
    rintro s e s' ⟨hp, F, B, Q, hr⟩ he hs hk
    obtain ⟨F', B', Q', _, hq⟩ := (step_moves hp he hs).queues he hp hr
    exact hq.given_up hk

/-- Nanomsg reads the messages in the order of their completions, each of them once, and the
queue holds those that it has not read yet until the shutdown discards them. -/
theorem delivered_in_order {h : List (Sofi × Event)} (r : machine.Run h s) :
    Machine.collect fetched h <+: Machine.collect arrived h ∧
      ((s.state = .closing → s.ingress.nnbusy = true) →
        Machine.collect fetched h ++ s.ingress.queue = Machine.collect arrived h) ∧
      (s.state = .closing → s.ingress.nnbusy = false → s.ingress.queue = []) := by
  obtain ⟨hp, hq⟩ := inbox_ordered.run r
  obtain ⟨_, F, B, Q, hr⟩ := reachable_receiving r.reachable
  exact ⟨hp, hq, hr.discarded⟩

theorem two_in_order : ∃ (h : List (Sofi × Event)) (s : Sofi),
    Machine.collect fetched h <+: [⟨0, [1]⟩, ⟨1, [2]⟩] ∧
    Machine.collect fetched h ++ s.ingress.queue = [⟨0, [1]⟩, ⟨1, [2]⟩] ∧
    s.ingress.queue = [⟨1, [2]⟩] := by
  have r₁ := online_run.step (e := .rxCompleted 0 [1] 0 0) (by decide) rfl
  have r₂ := r₁.step (e := .rxCompleted 1 [2] 0 0) (by decide) rfl
  have r₃ := r₂.step (e := .recv 0) (by decide) rfl
  obtain ⟨hp, hq, _⟩ := delivered_in_order r₃
  exact ⟨_, _, hp, hq (by decide), by decide⟩

end Delivery

end Sofi

end OfiTransport
