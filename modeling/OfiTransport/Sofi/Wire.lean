import OfiTransport.Sofi.Managed
import OfiTransport.Sofi.Receive

/-! From the message of one SOFI to the message of its peer. -/

namespace OfiTransport

open Lib

namespace Egress

variable {e e' : Egress} {p : Post} {m : Msg} {c : Nat}

def withMem (e : Egress) (μ : Memory) : Egress :=
  { e with mrm := { e.mrm with domain := { e.mrm.domain with mem := μ } } }

theorem gather_iovs (μ : Memory) (m : Msg) :
    μ.gather (iovs m) = μ.read m.sphdr ++ μ.read m.body := by
  simp only [iovs]
  split
  · next h => simp [Memory.read_empty h]
  · simp

theorem postBuffers_wire (h : e.postBuffers p m = .ok (0, e')) :
    (Mr.describe p.answers e.mrm (iovs m)).ret = 0 ∧
      e'.wire = (Mr.describe p.answers e.mrm (iovs m)).mgr.domain.mem.gather
        (Mr.describe p.answers e.mrm (iovs m)).iov :: e.wire := by
  cases postBuffers_cases h with
  | noContext _ hret => simp [EAGAIN] at hret
  | refused _ hret => exact absurd rfl hret
  | posted _ _ hd hb =>
    obtain ⟨r, rfl⟩ := markBusy_inv hb
    exact ⟨hd, rfl⟩

theorem postBuffers_sends {μ : Memory} (hs : Mr.SlabsPlaced e.mrm)
    (hm : ∀ v ∈ iovs m, v.len ≠ 0 → v.Apart e.mrm.slabBlock)
    (h : (e.withMem μ).postBuffers p m = .ok (0, e')) :
    e'.wire = (μ.read m.sphdr ++ μ.read m.body) :: e.wire := by
  obtain ⟨hret, hw⟩ := postBuffers_wire h
  rw [hw, Mr.describe_gather (m := (e.withMem μ).mrm) hs hm hret, ← gather_iovs]
  rfl

end Egress

namespace Ingress

variable {i : Ingress} {F B Q : List Nat} {b : Nat}

theorem queued_eq (h : i.bufs.Holds i.max [] F B Q) :
    i.queued = Q.map (fun b => (i.chunk b).shown) := by
  have hl := h.length
  rw [queued, h.popHead, h.popList.walk (by omega)]

theorem queued_arrive (h : Open i F B Q) (hb : b ∈ i.posted) (bytes : List UInt8) :
    Q.map (fun c => ((Sofi.arrive i b bytes).chunk c).shown) = i.queued := by
  rw [queued_eq h.lists]
  apply List.map_congr_left
  intro c hc
  have hcb : c ≠ b := fun e => h.not_queued hb (e ▸ hc)
  simp [Sofi.arrive, hcb]

theorem complete_chunk (late r : Int) (i : Ingress) (b len : Nat) :
    (Sofi.complete late r i b len).chunk = (i.handle late b len).chunk := by
  obtain ⟨l, he⟩ := complete_eq late r i b len
  rw [he]
  exact (post_reposts _ r).chunk

theorem Open.queued_keepalive (h : Open i F B Q) (hb : b ∈ i.posted) (late r : Int) :
    (Sofi.complete late r (Sofi.arrive i b keepalivePacket) b keepalivePacket.length).queued =
      i.queued := by
  obtain ⟨F', B', ho, _⟩ := h.complete_keepalive hb late r
  rw [queued_eq ho.lists, complete_chunk,
    handle_keepalive ((isKeepalive_arrive i b keepalivePacket).2 rfl),
    (postLate_reposts _ late).chunk]
  exact queued_arrive h hb keepalivePacket

theorem Open.queued_data {bytes : List UInt8} (h : Open i F B Q) (hb : b ∈ i.posted)
    (hd : bytes ≠ keepalivePacket) (late r : Int) :
    (Sofi.complete late r (Sofi.arrive i b bytes) b bytes.length).queued = i.queued ++ [bytes] := by
  have hk : (Sofi.arrive i b bytes).isKeepalive b bytes.length = false := by
    rw [← Bool.not_eq_true, isKeepalive_arrive]
    exact hd
  obtain ⟨F', B', ho, _⟩ := h.complete_data hb hd late r
  rw [queued_eq ho.lists, complete_chunk, handle_data hk, List.map_append,
    ← queued_arrive h hb bytes]
  congr 1
  · apply List.map_congr_left
    intro c hc
    have hcb : c ≠ b := fun e => h.not_queued hb (e ▸ hc)
    simp [hcb]
  · simp [Sofi.arrive, Chunk.shown]

end Ingress

namespace Sofi

variable {s s' r : Sofi} {e : Event}

theorem Setup.started_placed (u : Setup) : Mr.SlabsPlaced u.started.egress.mrm := by
  intro j
  simp only [Setup.started, Setup.sofi, Mr.init]
  repeat' split
  all_goals rfl

theorem reachable_placed (h : machine.Reachable s) : Phase s ∧ Mr.SlabsPlaced s.egress.mrm := by
  refine h.invariant (I := fun s => Phase s ∧ Mr.SlabsPlaced s.egress.mrm) ?_ ?_
  · intro s hi
    obtain ⟨u, _, _, rfl⟩ := machine_init hi
    exact ⟨u.started_phase, u.started_placed⟩
  · rintro s e s' ⟨hp, hs⟩ he h
    have hm := step_moves hp he h
    exact ⟨hm.phase hp, hm.worked.places.placed hs⟩

/-- What is sent for a message is its header and its body, and a peer that receives these
bytes queues them as one message, unless they are the packet that is sent as a keepalive. -/
theorem wire_transparent {μ : Memory} {m : Msg} {p : Post} {eg : Egress} {b : Nat}
    (hs : machine.Reachable s)
    (hm : ∀ v ∈ Egress.iovs m, v.len ≠ 0 → v.Apart s.egress.mrm.slabBlock)
    (hp : (s.egress.withMem μ).postBuffers p m = .ok (0, eg)) (hr : machine.Reachable r)
    (hst : r.state = .active) (hb : b ∈ r.ingress.posted)
    (hl : m.sphdr.len + m.body.len ≤ r.ingress.bufSize) (late recvmsg : Int) :
    let bytes := μ.read m.sphdr ++ μ.read m.body
    eg.wire = bytes :: s.egress.wire ∧
      (egressPostAux 0 s).2.egress.wire = keepalivePacket :: s.egress.wire ∧
      r.enabled (.rxCompleted b bytes late recvmsg) = true ∧
      ∃ r', r.step (.rxCompleted b bytes late recvmsg) = .ok r' ∧
        r'.ingress.queued =
          r.ingress.queued ++ if bytes = keepalivePacket then [] else [bytes] := by
  intro bytes
  obtain ⟨_, hplaced⟩ := reachable_placed hs
  obtain ⟨hph, F, B, Q, hrec⟩ := reachable_receiving hr
  have hf := hph.fsm_of_active hst
  have hop := hrec.running (by simp [hst])
  refine ⟨Egress.postBuffers_sends hplaced hm hp, rfl, ?_, ?_⟩
  · simp only [enabled, decide_eq_true_eq, hf]
    refine ⟨by simp, hb, ?_⟩
    simpa [bytes] using hl
  · refine ⟨{ r with
      ticksIn := 0
      ingress := complete late recvmsg (arrive r.ingress b bytes) b bytes.length }, ?_, ?_⟩
    · have hns : ¬ r.fsm = .stopping := by simp [hf]
      simp only [step, feed, hns, if_false]
      rw [handler_active (s := { r with ingress := arrive r.ingress b bytes }) hst]
      exact congrArg Except.ok (rxCompleted_eq ..)
    · by_cases hk : bytes = keepalivePacket
      · rw [if_pos hk, List.append_nil, hk]
        exact hop.queued_keepalive hb late recvmsg
      · rw [if_neg hk]
        exact hop.queued_data hb hk late recvmsg

theorem hello_transparent : ∃ eg r',
    (online.egress.withMem (fun _ => 7)).postBuffers .easy ⟨⟨0x20000, 4⟩, ⟨0x20100, 1⟩⟩ =
        .ok (0, eg) ∧
      eg.wire = [[7, 7, 7, 7, 7]] ∧ online.step (.rxCompleted 0 [7, 7, 7, 7, 7] 0 0) = .ok r' ∧
      r'.ingress.queued = [[7, 7, 7, 7, 7]] := by
  obtain ⟨hw, _, _, r', hs, hq⟩ := wire_transparent online_run.reachable
    (m := ⟨⟨0x20000, 4⟩, ⟨0x20100, 1⟩⟩) (p := .easy) (by decide) rfl online_run.reachable rfl
    (b := 0) (by decide) (by decide) 0 0
  exact ⟨_, r', rfl, hw, hs, hq⟩

/-- A message of the user may be the keepalive packet, and then the peer drops it. -/
theorem keepalive_consumed :
    ¬ ∀ (s r r' : Sofi) (μ : Memory) (m : Msg) (p : Post) (eg : Egress) (b : Nat)
      (late recvmsg : Int), machine.Reachable s →
      (∀ v ∈ Egress.iovs m, v.len ≠ 0 → v.Apart s.egress.mrm.slabBlock) →
      (s.egress.withMem μ).postBuffers p m = .ok (0, eg) → machine.Reachable r →
      r.state = .active → b ∈ r.ingress.posted →
      m.sphdr.len + m.body.len ≤ r.ingress.bufSize →
      r.step (.rxCompleted b (μ.read m.sphdr ++ μ.read m.body) late recvmsg) = .ok r' →
      r'.ingress.queued = r.ingress.queued ++ [μ.read m.sphdr ++ μ.read m.body] := by
  intro h
  have hr := online_run.reachable
  have hq := h _ _ _ (fun a => keepalivePacket.getD (a - 0x20000) 0)
    ⟨⟨0, 0⟩, ⟨0x20000, 24⟩⟩ .easy _ 0
    0 0 hr (by decide) rfl hr rfl (by decide) (by decide) rfl
  revert hq
  decide

end Sofi

end OfiTransport
