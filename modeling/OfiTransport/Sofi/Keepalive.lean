import OfiTransport.Sofi.Resources
import OfiTransport.Sofi.Wire

/-! The keepalive of two connected SOFIs, whose ticks alternate: when one takes the other for
gone. -/

namespace OfiTransport

open Lib

namespace Egress

variable {e e' : Egress} {m : Msg} {c : Nat}

theorem handle_wire {n : Bool} (h : e.handle c = .ok (n, e')) : e'.wire = e.wire := by
  obtain ⟨_, r, k, rfl⟩ := handle_inv h
  simp only [freeContext]
  split <;> rfl

theorem postBuffers_easy {ret : Int} (h : e.postBuffers .easy m = .ok (ret, e')) :
    ret = 0 ∨ ret = -EAGAIN := by
  have hd := Mr.describeFrom_easy 0 (iovs m) (.start e.mrm)
  have hdescribe : (Mr.describe Post.easy.answers e.mrm (iovs m)).ret = 0 ∨
      (Mr.describe Post.easy.answers e.mrm (iovs m)).ret = -EAGAIN := by
    have hl := iovs_length m
    rw [Mr.describe, if_neg (by omega)]
    simp only
    split
    · exact hd
    · exact .inl rfl
  cases postBuffers_cases h with
  | noContext _ hret => exact .inr hret
  | refused _ _ hr =>
    rcases hr with hr | hr
    · rwa [hr]
    · exact .inl hr
  | posted _ hret => exact .inl hret

end Egress

namespace Ingress

theorem postBuffer_posted_ne {i : Ingress} (r : Int) (b : Nat) (h : i.posted ≠ []) :
    (postBuffer r i b).2.posted ≠ [] := by
  simp only [postBuffer, touch]
  split
  · exact h
  · exact List.cons_ne_nil _ _

theorem post_posted_ne {i : Ingress} (r : Int) (h : i.posted ≠ []) : (i.post r).2.posted ≠ [] := by
  simp only [post]
  split
  · exact h
  · next b q _ =>
    have hb := postBuffer_posted_ne (i := { i with bufs := q }) r b h
    split <;> exact hb

theorem postLate_posted_ne {i : Ingress} (r : Int) (h : i.posted ≠ []) :
    (i.postLate r).posted ≠ [] := by
  simp only [postLate]
  split
  · exact post_posted_ne r h
  · exact h

theorem flush_posted {i i' : Ingress} (h : i.flush = .ok i') : i'.posted = i.posted := by
  simp only [flush, bind_eq_ok] at h
  obtain ⟨_, _, h⟩ := h
  split at h
  · simp only [pure_eq_ok] at h
    rw [← h]
  · simp only [bind_eq_ok, pure_eq_ok] at h
    obtain ⟨_, _, rfl⟩ := h
    rfl

theorem fetch_posted_ne {i i' : Ingress} {r ret : Int} (h : i.fetch r = .ok (ret, i'))
    (hp : i.posted ≠ []) : i'.posted ≠ [] := by
  have hb : i.nnbusy = true := by
    simp only [fetch, bind_eq_ok, nnAssert_eq_ok] at h
    exact h.choose_spec.1
  cases hq : i.bufs.popPopulated with
  | none =>
    simp only [fetch, bind_eq_ok, hq, pure_eq_ok, Prod.mk.injEq] at h
    obtain ⟨_, _, _, rfl⟩ := h
    exact hp
  | some bq =>
    have hl := postLate_posted_ne (i := i.handOver bq.1 (bq.2.markFree bq.1)) r hp
    rw [fetch_eq hb hq] at h
    split at h
    · simp only [bind_eq_ok, Except.ok.injEq, Prod.mk.injEq] at h
      obtain ⟨_, hf, _, rfl⟩ := h
      rw [flush_posted hf]
      exact hl
    · cases h
      exact hl

end Ingress

namespace Sofi

section Connecting

variable {s s' : Sofi}

theorem feed_connecting {i : Input} (hp : Phase s) (hst : s.state = .connecting)
    (h : s.feed i = .ok s') : ∃ type r p, i = .eq type r p := by
  have hf := hp.fsm_of_connecting hst
  by_contra hi
  simp only [not_exists] at hi
  have hh : s.handler i = .ok s' := by
    rw [← h, feed, if_neg (by simp [hf])]
  have hact := handler_state hp hf hh hi
  rw [hst] at hact
  cases hact

theorem step_connecting {e : Event} (hp : Phase s) (hst : s.state = .connecting)
    (he : s.enabled e = true) (h : s.step e = .ok s') (hst' : s'.state = .connecting) :
    s'.ticksIn = s.ticksIn ∧ (s'.ticksOut = s.ticksOut ∨ s'.ticksOut = 0) := by
  have hf := hp.fsm_of_connecting hst
  have feeds : ∀ {s₁ : Sofi} {i : Input}, s₁.feed i = .ok s' → s₁.fsm = s.fsm →
      s₁.state = s.state → s₁.error = s.error → s₁.outActive = s.outActive →
      ∃ type r p, i = .eq type r p :=
    fun h h₁ h₂ h₃ h₄ => feed_connecting (hp.congr h₁ h₂ h₃ h₄) (h₂.trans hst) h
  cases e with
  | eq type r p =>
    exfalso
    cases step_moves hp he h with
    | stay hpas => simp [Event.Passive, hst] at hpas
    | close hc | connectFailed hc => simp [hc.state] at hst'
    | connected _ _ hact => simp [hact] at hst'
    | txDiscarded hev => simp at hev
  | txCompleted c =>
    obtain ⟨_, _, _, hi⟩ := feeds h rfl rfl rfl rfl
    cases hi
  | txError op err =>
    cases op with
    | ctx c =>
      obtain ⟨_, _, _, hi⟩ := feeds h rfl rfl rfl rfl
      cases hi
    | aux =>
      obtain ⟨_, _, _, hi⟩ := feeds h rfl rfl rfl rfl
      cases hi
  | rxCompleted b bytes late r =>
    obtain ⟨_, _, _, hi⟩ := feeds h rfl rfl rfl rfl
    cases hi
  | rxError b err =>
    obtain ⟨_, _, _, hi⟩ := feeds h rfl rfl rfl rfl
    cases hi
  | keepalive t aux =>
    obtain ⟨_, _, _, hi⟩ := feeds h rfl rfl rfl rfl
    cases hi
  | shutdownTimer t =>
    obtain ⟨_, _, _, hi⟩ := feeds h rfl rfl rfl rfl
    cases hi
  | send m p =>
    have ho := (hp.out (by simp [hst])).2 hst
    simp only [step, send, egressStage, bind_eq_ok, hst, ho, reduceCtorEq, if_false,
      Bool.false_eq_true, pure_eq_ok] at h
    obtain ⟨_, _, rfl⟩ := h
    exact ⟨rfl, .inr rfl⟩
  | recv late =>
    simp only [step, recv, bind_eq_ok, pure_eq_ok] at h
    obtain ⟨_, _, _, _, rfl⟩ := h
    exact ⟨rfl, .inl rfl⟩
  | stop =>
    rcases fsmStop_cases h with ⟨hn, _⟩ | hc
    · exact absurd hf hn
    · simp [hc.state] at hst'
  | free m =>
    cases h
    exact ⟨rfl, .inl rfl⟩

def Quiet (s : Sofi) : Prop := s.ticksIn = 0 ∧ s.ticksOut = 0

theorem reachable_quiet (h : machine.Reachable s) :
    Phase s ∧ (s.state = .connecting → Quiet s) := by
  refine h.invariant (I := fun s => Phase s ∧ (s.state = .connecting → Quiet s)) ?_ ?_
  · intro s hi
    obtain ⟨u, _, _, rfl⟩ := machine_init hi
    exact ⟨u.started_phase, fun _ => ⟨rfl, rfl⟩⟩
  · rintro s e s' ⟨hp, hq⟩ he h
    have hm := step_moves hp he h
    refine ⟨hm.phase hp, fun hst' => ?_⟩
    have hst : s.state = .connecting := by
      rcases hm.control with hk | ⟨_, hc, _⟩ | ⟨_, _, hact, _⟩
      · exact hk.state.symm.trans hst'
      · simp [hc.state] at hst'
      · simp [hact] at hst'
    obtain ⟨h₁, h₂⟩ := hq hst
    obtain ⟨hi, ho⟩ := step_connecting hp hst he h hst'
    refine ⟨hi.trans h₁, ?_⟩
    rcases ho with ho | ho
    · exact ho.trans h₂
    · exact ho

def Connected (s : Sofi) : Prop :=
  ∃ s₀, machine.Reachable s₀ ∧ s₀.state = .connecting ∧
    s₀.step (.eq FI_CONNECTED 0 .easy) = .ok s ∧ s.state = .active

theorem Connected.quiet (h : Connected s) : Phase s ∧ Quiet s := by
  obtain ⟨s₀, hr, hst, h, hact⟩ := h
  obtain ⟨hp, hq⟩ := reachable_quiet hr
  have hf := hp.fsm_of_connecting hst
  have he : s₀.enabled (.eq FI_CONNECTED 0 .easy) = true := by simp [enabled, hf]
  refine ⟨(step_moves hp he h).phase hp, ?_⟩
  have closed : ∀ {s₁ : Sofi} {err : Int}, s₁.fsm = .active → s₁.criticalError err ≠ .ok s := by
    intro s₁ err h₁ hc
    rw [(criticalError_cases hc h₁).state] at hact
    cases hact
  simp only [step, feed, hf, reduceCtorEq, if_false, handler_connecting hst, handlerConnecting,
    if_true, connected, bind_eq_ok] at h
  obtain ⟨_, _, h⟩ := h
  split at h
  · exact absurd h (closed rfl)
  · split at h
    · simp only [bind_eq_ok] at h
      obtain ⟨⟨ret, s₁⟩, hsend, h⟩ := h
      obtain ⟨_, _, ⟨hne, rfl⟩ | ⟨rfl, rfl⟩⟩ := egressSend_cases hsend
      · simp only [hne, ne_eq, not_false_eq_true, if_true] at h
        exact absurd h (closed rfl)
      · simp only [ne_eq, not_true, if_false, pure_eq_ok] at h
        subst h
        exact hq hst
    · simp only [pure_eq_ok] at h
      subst h
      exact hq hst

end Connecting

/-- What may happen at one end of a connection without errors: nanomsg sends, reads or frees
a message, a packet has been sent, one arrives, and the timer of the keepalive. -/
inductive Action
  | send (m : Msg)
  | recv
  | free (m : Held)
  | sent (c : Nat)
  | arrive (b : Nat)
  | tick
  | stopped

def Action.event (w : List UInt8) : Action → Event
  | .send m => .send m .easy
  | .recv => .recv 0
  | .free m => .free m
  | .sent c => .txCompleted c
  | .arrive b => .rxCompleted b w 0 0
  | .tick => .keepalive .timeout 0
  | .stopped => .keepalive .stopped 0

def Action.ticks : Action → Bool
  | .tick => true
  | _ => false

def Action.arrives : Action → Bool
  | .arrive _ => true
  | _ => false

inductive Paces (s : Sofi) : Action → Sofi → Prop
  | expire (hst : s'.state = .closing) (hi : 4 ≤ s.ticksIn) (he : s'.error = -ETIMEDOUT) :
      Paces s .tick s'
  | refuse (hst : s'.state = .closing) (he : s'.error = -EAGAIN) : Paces s (.send m) s'
  | tick (hst : s'.state = .active) (hlt : s.ticksIn < 4) (hi : s'.ticksIn = s.ticksIn + 1)
      (hg : s'.ingress = s.ingress) (htx : s'.egress.txOut = s.egress.txOut)
      (ho : (s.ticksOut < 2 ∧ s'.ticksOut = s.ticksOut + 1 ∧ s'.egress.wire = s.egress.wire) ∨
        (s'.ticksOut = 0 ∧ s'.egress.wire = keepalivePacket :: s.egress.wire)) :
      Paces s .tick s'
  | send (hst : s'.state = .active) (hi : s'.ticksIn = s.ticksIn) (ho : s'.ticksOut = 0)
      (hg : s'.ingress = s.ingress) (hw : s'.egress.wire = w :: s.egress.wire) :
      Paces s (.send m) s'
  | sent (hst : s'.state = .active) (hi : s'.ticksIn = s.ticksIn) (ho : s'.ticksOut = 0)
      (hg : s'.ingress = s.ingress) (hc : c ∈ s.egress.txOut)
      (hw : s'.egress.wire = s.egress.wire) : Paces s (.sent c) s'
  | arrive (hst : s'.state = .active) (hi : s'.ticksIn = 0) (ho : s'.ticksOut = s.ticksOut)
      (hp : s.ingress.posted ≠ []) (he : s'.egress = s.egress) : Paces s (.arrive b) s'
  | keep (ha : a.ticks = false ∧ a.arrives = false) (hst : s'.state = .active)
      (hi : s'.ticksIn = s.ticksIn) (ho : s'.ticksOut = s.ticksOut) (he : s'.egress = s.egress)
      (hp : s.ingress.posted ≠ [] → s'.ingress.posted ≠ []) : Paces s a s'

section Paces

variable {s s' : Sofi} {m : Msg}

theorem send_paces (hf : s.fsm = .active) (hst : s.state = .active) (ho : s.outActive = true)
    (h : s.send .easy m = .ok s') : Paces s (.send m) s' := by
  simp only [send, egressStage, bind_eq_ok, hst, ho, reduceCtorEq, if_false, if_true] at h
  obtain ⟨_, _, ⟨ret, s₁⟩, hsend, h⟩ := h
  obtain ⟨e, hpb, ⟨hne, rfl⟩ | ⟨rfl, rfl⟩⟩ := egressSend_cases hsend
  · simp only [hne, ne_eq, not_false_eq_true, if_true] at h
    have hc := criticalError_cases h hf
    rcases Egress.postBuffers_easy hpb with hr | hr
    · exact absurd hr hne
    · exact .refuse hc.state (hc.error.trans hr)
  · simp only [ne_eq, not_true, if_false, pure_eq_ok] at h
    subst h
    exact .send rfl rfl rfl rfl (Egress.postBuffers_wire hpb).2

theorem tick_paces (hf : s.fsm = .active) (hst : s.state = .active) (hi : s.ticksIn ≤ 4)
    (ho : s.ticksOut ≤ 2)
    (h : keepaliveTimeout 0 { s with timerKeepalive := .expired } = .ok s') :
    Paces s .tick s' := by
  have hi' : (s.ticksIn + 1) % 256 = s.ticksIn + 1 := by omega
  have ho' : (s.ticksOut + 1) % 256 = s.ticksOut + 1 := by omega
  simp only [keepaliveTimeout, egressPostAux, hi', ho'] at h
  split at h
  · next hlt =>
    have hc := criticalError_cases h hf
    exact .expire hc.state (by omega) hc.error
  · next hlt =>
    have hlt : s.ticksIn < 4 := by omega
    split at h
    · simp only [ne_eq, not_true, if_false, Except.ok.injEq] at h
      subst h
      exact .tick hst hlt rfl rfl rfl (.inr ⟨rfl, rfl⟩)
    · next hout =>
      cases h
      exact .tick hst hlt rfl rfl rfl (.inl ⟨by omega, rfl, rfl⟩)

theorem step_paces {a : Action} {w : List UInt8} (hp : Phase s) (hst : s.state = .active)
    (hi : s.ticksIn ≤ 4) (ho : s.ticksOut ≤ 2) (he : s.enabled (a.event w) = true)
    (h : s.step (a.event w) = .ok s') : Paces s a s' := by
  have hf := hp.fsm_of_active hst
  cases a with
  | send m => exact send_paces hf hst (hp.out_of_active hst) h
  | recv =>
    simp only [Action.event, step, recv, bind_eq_ok, pure_eq_ok] at h
    obtain ⟨⟨ret, i⟩, hr, _, _, rfl⟩ := h
    exact .keep ⟨rfl, rfl⟩ hst rfl rfl rfl (fun hne => Ingress.fetch_posted_ne hr hne)
  | free m =>
    cases h
    exact .keep ⟨rfl, rfl⟩ hst rfl rfl rfl id
  | sent c =>
    simp only [Action.event, enabled, decide_eq_true_eq] at he
    simp only [Action.event, step] at h
    rw [feed_active (s := s.removeTx c) hf hst] at h
    obtain ⟨n, e, hh, rfl⟩ := egressHandle_cases h
    exact .sent hst rfl rfl rfl he.2 (Egress.handle_wire (e := (s.removeTx c).egress) hh)
  | arrive b =>
    simp only [Action.event, enabled, decide_eq_true_eq] at he
    simp only [Action.event, step] at h
    rw [feed_active (s := { s with ingress := arrive s.ingress b w }) hf hst] at h
    simp only [handlerActive, rxCompleted_eq, Except.ok.injEq] at h
    subst h
    exact .arrive hst rfl rfl (List.ne_nil_of_mem he.2.1) rfl
  | tick =>
    simp only [Action.event, step] at h
    rw [feed_active (s := { s with timerKeepalive := .deliver .timeout }) hf hst] at h
    exact tick_paces hf hst hi ho h
  | stopped =>
    simp only [Action.event, step] at h
    rw [feed_active (s := { s with timerKeepalive := .deliver .stopped }) hf hst] at h
    simp only [handlerActive, bind_eq_ok, pure_eq_ok] at h
    obtain ⟨_, _, rfl⟩ := h
    exact .keep ⟨rfl, rfl⟩ hst rfl rfl rfl id

end Paces

def flight (s : Sofi) (n : Nat) : List (List UInt8) := s.egress.wire.reverse.drop n

theorem flight_eq_nil {s : Sofi} {n : Nat} : s.flight n = [] ↔ s.egress.wire.length ≤ n := by
  simp [flight]

/-- The receiver `r` has got the first `n` packets of the sender `s` and has had `k` ticks
without a posted buffer.  It is due when it has had a tick more than the sender. -/
structure Pace (r s : Sofi) (n k : Nat) (due : Bool) : Prop where
  count : n ≤ s.egress.wire.length
  low : r.ticksIn ≤ 4
  out : s.ticksOut ≤ 2
  starved : r.ingress.posted = [] → r.ticksIn = k
  fed : r.ingress.posted ≠ [] → k = 0
  idle : s.flight n = [] → s.egress.txOut = [] → r.ticksIn ≤ s.ticksOut + due.toNat
  landed : s.flight n = [] → s.egress.txOut ≠ [] → r.ticksIn = 0

section Pace

variable {r r' s s' : Sofi} {n k : Nat} {due : Bool} {a : Action}

theorem Quiet.pace (hr : Quiet r) (hs : Quiet s) : Pace r s 0 0 false where
  count := Nat.zero_le _
  low := by simp [hr.1]
  out := by simp [hs.2]
  starved _ := hr.1
  fed _ := rfl
  idle _ _ := by simp [hr.1]
  landed _ _ := hr.1

theorem Pace.receives (h : Pace r s n k due) (hr : Paces r a r') (hact : r'.state = .active)
    (harr : a.arrives = true → s.flight n ≠ [])
    (htick : a.ticks = true → due = false ∧ (s.flight n = [] → s.egress.txOut = [])) :
    Pace r' s (n + a.arrives.toNat)
      (if r'.ingress.posted = [] then k + a.ticks.toNat else 0) (a.ticks || due) := by
  have keeps : a.ticks = false ∧ a.arrives = false → r'.ticksIn = r.ticksIn →
      (r'.ingress.posted = [] → r.ingress.posted = []) →
      Pace r' s (n + a.arrives.toNat)
        (if r'.ingress.posted = [] then k + a.ticks.toNat else 0) (a.ticks || due) := by
    intro ha hi hp
    simp only [ha.1, ha.2, Bool.toNat_false, Nat.add_zero, Bool.false_or]
    refine ⟨h.count, hi ▸ h.low, h.out, fun hp' => ?_, fun hp' => if_neg hp', hi ▸ h.idle,
      hi ▸ h.landed⟩
    rw [if_pos hp', hi]
    exact h.starved (hp hp')
  cases hr with
  | expire hst => simp [hst] at hact
  | refuse hst => simp [hst] at hact
  | tick hst hlt hi hg htx ho =>
    obtain ⟨rfl, htx⟩ := htick rfl
    refine ⟨h.count, by omega, h.out, fun hp => ?_, fun hp => if_neg hp, fun hf hne => ?_,
      fun hf hne => absurd (htx hf) hne⟩
    · rw [if_pos hp, hi, h.starved (hg ▸ hp)]
      rfl
    · have hidle := h.idle hf hne
      simp only [Bool.toNat_false, Action.ticks, Bool.true_or, Bool.toNat_true] at hidle ⊢
      omega
  | send hst hi ho hg hw => exact keeps ⟨rfl, rfl⟩ hi (fun hp => hg ▸ hp)
  | sent hst hi ho hg hc hw => exact keeps ⟨rfl, rfl⟩ hi (fun hp => hg ▸ hp)
  | arrive hst hi ho hp he =>
    have hlt := harr rfl
    rw [ne_eq, flight_eq_nil] at hlt
    refine ⟨by simp only [Action.arrives, Bool.toNat_true]; omega, by omega, h.out,
      fun hp' => ?_, fun hp' => if_neg hp', fun _ _ => by omega, fun _ _ => hi⟩
    rw [if_pos hp', hi, h.fed hp]
    rfl
  | keep ha hst hi ho he hp =>
    refine keeps ha hi (fun hp' => ?_)
    by_contra hne
    exact hp hne hp'

theorem Pace.sends (h : Pace r s n k due) (hs : Paces s a s') (hact : s'.state = .active) :
    Pace r s' n k (due && !a.ticks) := by
  have hcount := h.count
  have grows : ∀ {w : List UInt8}, s'.egress.wire = w :: s.egress.wire → s'.ticksOut = 0 →
      Pace r s' n k (due && !a.ticks) := by
    intro w hw ho
    have hlen : s'.egress.wire.length = s.egress.wire.length + 1 := by simp [hw]
    refine ⟨by omega, h.low, by omega, h.starved, h.fed, ?_, ?_⟩ <;>
    · intro hf
      rw [flight_eq_nil] at hf
      omega
  have same : s'.egress.wire = s.egress.wire → s'.flight n = s.flight n := by
    intro hw
    rw [flight, flight, hw]
  cases hs with
  | expire hst => simp [hst] at hact
  | refuse hst => simp [hst] at hact
  | tick hst hlt hi hg htx ho =>
    rcases ho with ⟨hle, ho, hw⟩ | ⟨ho, hw⟩
    · refine ⟨hw ▸ hcount, h.low, by omega, h.starved, h.fed, ?_, ?_⟩
      · intro hf hne
        have hidle := h.idle (same hw ▸ hf) (htx ▸ hne)
        have hdue := due.toNat_le
        simp only [Action.ticks, Bool.not_true, Bool.and_false, Bool.toNat_false]
        omega
      · rw [same hw, htx]
        exact h.landed
    · exact grows hw ho
  | send hst hi ho hg hw => exact grows hw ho
  | sent hst hi ho hg hc hw =>
    refine ⟨hw ▸ hcount, h.low, by omega, h.starved, h.fed, ?_, ?_⟩ <;>
    · intro hf _
      rw [h.landed (same hw ▸ hf) (List.ne_nil_of_mem hc)]
      try exact Nat.zero_le _
  | arrive hst hi ho hp he =>
    refine ⟨he ▸ hcount, h.low, ho ▸ h.out, h.starved, h.fed, ?_, ?_⟩
    · rw [same (by rw [he]), he, ho]
      simpa [Action.ticks] using h.idle
    · rw [same (by rw [he]), he]
      exact h.landed
  | keep ha hst hi ho he hp =>
    refine ⟨he ▸ hcount, h.low, ho ▸ h.out, h.starved, h.fed, ?_, ?_⟩
    · rw [same (by rw [he]), he, ho, ha.1]
      simpa using h.idle
    · rw [same (by rw [he]), he]
      exact h.landed

/-- When everything has been completed that can be, the receiver has counted all the ticks
without a posted buffer, and no more than three others. -/
theorem Pace.ticksIn_lt (h : Pace r s n k false) (htx : s.flight n = [] → s.egress.txOut = [])
    (hp : s.flight n ≠ [] → r.ingress.posted = []) : r.ticksIn < 4 ↔ k < 4 := by
  by_cases hposted : r.ingress.posted = []
  · rw [h.starved hposted]
  · have hf : s.flight n = [] := by
      by_contra hf
      exact hposted (hp hf)
    have hidle := h.idle hf (htx hf)
    have hout := h.out
    have hk := h.fed hposted
    simp only [Bool.toNat_false] at hidle
    omega

end Pace

end Sofi

inductive Side
  | left
  | right
  deriving DecidableEq

def Side.other : Side → Side
  | .left => .right
  | .right => .left

@[simp] theorem Side.other_other (x : Side) : x.other.other = x := by cases x <;> rfl

@[simp] theorem Side.other_ne (x : Side) : x.other ≠ x := by cases x <;> simp [Side.other]

@[simp] theorem Side.ne_other (x : Side) : x ≠ x.other := x.other_ne.symm

theorem Side.eq_or_eq_other (x y : Side) : x = y ∨ x = y.other := by
  cases x <;> cases y <;> simp [Side.other]

/-- The two ends of a connection: how many packets of the peer each has got, which of them
is the next to tick, and how many ticks each has had since it had a buffer posted. -/
structure Duplex where
  sofi : Side → Sofi
  got : Side → Nat
  turn : Option Side
  starved : Side → Nat

namespace Duplex

open Sofi

def flight (d : Duplex) (x : Side) : List (List UInt8) := (d.sofi x).flight (d.got x.other)

def settled (d : Duplex) (x : Side) : Bool :=
  if d.flight x = [] then (d.sofi x).egress.txOut = []
  else (d.sofi x.other).ingress.posted = []

def allows (d : Duplex) (x : Side) : Action → Bool
  | .arrive _ => d.flight x.other ≠ []
  | .tick => d.turn ≠ some x.other ∧ d.settled x = true ∧ d.settled x.other = true
  | _ => true

def event (d : Duplex) (x : Side) (a : Action) : Sofi.Event :=
  a.event ((d.flight x.other).headD [])

def enabled (d : Duplex) (e : Side × Action) : Bool :=
  (d.sofi e.1).state = .active ∧ (d.sofi e.1.other).state = .active ∧
    (d.sofi e.1).enabled (d.event e.1 e.2) = true ∧ d.allows e.1 e.2 = true

def advance (d : Duplex) (x : Side) (a : Action) (s : Sofi) : Duplex where
  sofi := Function.update d.sofi x s
  got := Function.update d.got x (d.got x + a.arrives.toNat)
  turn := if a.ticks then some x.other else d.turn
  starved := Function.update d.starved x
    (if s.ingress.posted = [] then d.starved x + a.ticks.toNat else 0)

def step (d : Duplex) (e : Side × Action) : M Duplex := do
  return d.advance e.1 e.2 (← (d.sofi e.1).step (d.event e.1 e.2))

def machine : Machine Duplex (Side × Action) Fault where
  init d := (∀ x, Connected (d.sofi x)) ∧ (∀ x, d.got x = 0) ∧ d.turn = none ∧
    ∀ x, d.starved x = 0
  enabled := enabled
  step := step

def Alive (d : Duplex) : Prop := ∀ x, (d.sofi x).error ≠ -ETIMEDOUT

/-- A tick comes at most four ticks after there was a posted buffer. -/
def Fed (d : Duplex) : Side × Action → Prop
  | (x, .tick) => d.starved x < 4
  | _ => True

instance (d : Duplex) : DecidablePred (Fed d)
  | (x, .tick) => inferInstanceAs (Decidable (d.starved x < 4))
  | (_, .send _) | (_, .recv) | (_, .free _) | (_, .sent _) | (_, .arrive _) | (_, .stopped) =>
    .isTrue trivial

structure Paced (d : Duplex) : Prop where
  phase : ∀ x, Phase (d.sofi x)
  pace : (∀ x, (d.sofi x).state = .active) → ∀ x,
    Pace (d.sofi x) (d.sofi x.other) (d.got x) (d.starved x) (d.turn = some x.other)

section Runs

variable {d d' : Duplex} {e : Side × Action} {x : Side} {a : Action} {s : Sofi}

theorem settled_iff : d.settled x = true ↔
    (d.flight x = [] → (d.sofi x).egress.txOut = []) ∧
      (d.flight x ≠ [] → (d.sofi x.other).ingress.posted = []) := by
  by_cases hf : d.flight x = [] <;> simp [settled, hf]

theorem init_paced (h : machine.init d) : Paced d := by
  obtain ⟨hc, hg, ht, hs⟩ := h
  refine ⟨fun x => (hc x).quiet.1, fun _ x => ?_⟩
  rw [hg, ht, hs]
  simpa using (hc x).quiet.2.pace (hc x.other).quiet.2

theorem init_alive (h : machine.init d) : Alive d := by
  intro x
  have hp := (h.1 x).quiet.1
  obtain ⟨_, _, _, _, hact⟩ := h.1 x
  simp [hp.error (hp.fsm_of_active hact), ETIMEDOUT]

theorem step_inv (hd : Paced d) (he : d.enabled (x, a) = true) (h : d.step (x, a) = .ok d') :
    (∀ y, (d.sofi y).state = .active) ∧ d.allows x a = true ∧
      ∃ s, Paces (d.sofi x) a s ∧ Phase s ∧ d' = d.advance x a s := by
  simp only [enabled, decide_eq_true_eq] at he
  obtain ⟨hx, hy, he, hallow⟩ := he
  have hact : ∀ y, (d.sofi y).state = .active := by
    intro y
    rcases y.eq_or_eq_other x with rfl | rfl
    · exact hx
    · exact hy
  simp only [step, bind_eq_ok, pure_eq_ok] at h
  obtain ⟨s, hs, rfl⟩ := h
  have hpx := hd.pace hact x
  have hpy := hd.pace hact x.other
  rw [Side.other_other] at hpy
  exact ⟨hact, hallow, s, step_paces (hd.phase x) hx hpx.low hpy.out he hs,
    (step_moves (hd.phase x) he hs).phase (hd.phase x), rfl⟩

theorem allows_arrive (h : d.allows x a = true) (ha : a.arrives = true) :
    (d.sofi x.other).flight (d.got x) ≠ [] := by
  cases a <;> first | simpa [allows, flight] using h | simp [Action.arrives] at ha

theorem allows_tick (h : d.allows x a = true) (ha : a.ticks = true) :
    decide (d.turn = some x.other) = false ∧
      ((d.sofi x.other).flight (d.got x) = [] → (d.sofi x.other).egress.txOut = []) ∧
      ((d.sofi x.other).flight (d.got x) ≠ [] → (d.sofi x).ingress.posted = []) := by
  cases a with
  | tick =>
    simp only [allows, decide_eq_true_eq] at h
    obtain ⟨ht, _, hs⟩ := h
    rw [settled_iff] at hs
    simp only [flight, Side.other_other] at hs
    exact ⟨by simpa using ht, hs⟩
  | _ => simp [Action.ticks] at ha

@[simp] theorem advance_sofi_self : (d.advance x a s).sofi x = s := by simp [advance]

@[simp] theorem advance_sofi_other : (d.advance x a s).sofi x.other = d.sofi x.other := by
  simp [advance]

theorem advance_paced (hd : Paced d) (hact : ∀ y, (d.sofi y).state = .active)
    (hallow : d.allows x a = true) (hs : Paces (d.sofi x) a s) (hp : Phase s) :
    Paced (d.advance x a s) := by
  constructor
  · intro y
    rcases y.eq_or_eq_other x with rfl | rfl
    · simpa using hp
    · simpa using hd.phase _
  · intro hact' y
    have hst : s.state = .active := by simpa using hact' x
    rcases y.eq_or_eq_other x with rfl | rfl
    · have hr := (hd.pace hact y).receives hs hst (allows_arrive hallow)
        (fun ha => ⟨(allows_tick hallow ha).1, (allows_tick hallow ha).2.1⟩)
      simpa [advance] using hr
    · have hy := hd.pace hact x.other
      rw [Side.other_other] at hy
      have hr := hy.sends hs hst
      cases ht : a.ticks <;> simpa [advance, ht] using hr

theorem step_paced (hd : Paced d) (he : d.enabled e = true) (h : d.step e = .ok d') :
    Paced d' := by
  obtain ⟨hact, hallow, s, hs, hp, rfl⟩ := step_inv hd he h
  exact advance_paced hd hact hallow hs hp

theorem ticksIn_lt (hd : Paced d) (hact : ∀ y, (d.sofi y).state = .active)
    (hallow : d.allows x .tick = true) : (d.sofi x).ticksIn < 4 ↔ d.starved x < 4 := by
  obtain ⟨ht, htx, hp⟩ := allows_tick hallow rfl
  exact (ht ▸ hd.pace hact x).ticksIn_lt htx hp

theorem step_alive_iff (hd : Paced d) (hl : Alive d) (he : d.enabled e = true)
    (h : d.step e = .ok d') : Alive d' ↔ Fed d e := by
  obtain ⟨x, a⟩ := e
  obtain ⟨hact, hallow, s, hs, hp, rfl⟩ := step_inv hd he h
  have halive : Alive (d.advance x a s) ↔ s.error ≠ -ETIMEDOUT := by
    constructor
    · intro h'
      simpa using h' x
    · intro h' y
      rcases y.eq_or_eq_other x with rfl | rfl
      · simpa using h'
      · simpa using hl _
  have running : s.state = .active → s.error ≠ -ETIMEDOUT := by
    intro hst
    simp [hp.error (hp.fsm_of_active hst), ETIMEDOUT]
  rw [halive]
  cases hs with
  | expire hst hi herr =>
    have hlt := ticksIn_lt hd hact hallow
    refine iff_of_false (fun h' => h' herr) (fun hk => ?_)
    have hi' := hlt.2 hk
    omega
  | tick hst hi => exact iff_of_true (running hst) ((ticksIn_lt hd hact hallow).1 hi)
  | refuse hst herr => exact iff_of_true (by simp [herr, EAGAIN, ETIMEDOUT]) trivial
  | send hst | sent hst | arrive hst => exact iff_of_true (running hst) trivial
  | keep ha hst =>
    refine iff_of_true (running hst) ?_
    cases a with
    | tick => simp [Action.ticks] at ha
    | _ => trivial

/-- Along a run no SOFI takes its peer for gone exactly as long as no tick of one comes after
four others at which it had no buffer posted. -/
theorem always_alive_iff {h : List (Duplex × Side × Action)} (r : machine.Run h d) :
    Machine.Always Alive h d ↔ Machine.Guarded Fed h :=
  r.always_iff_guarded (fun _ hi => ⟨init_paced hi, init_alive hi⟩)
    (fun _ _ _ hd he h => step_paced hd he h) (fun _ _ _ hd hl he h => step_alive_iff hd hl he h)

def pair (s : Sofi) : Duplex := ⟨fun _ => s, fun _ => 0, none, fun _ => 0⟩

theorem pair_init (h : Connected s) : machine.init (pair s) :=
  ⟨fun _ => h, fun _ => rfl, rfl, fun _ => rfl⟩

def narrow : Sofi :=
  match (Setup.easy ⟨2, 2, 4096⟩).started.step (.eq FI_CONNECTED 0 .easy) with
  | .ok s => s
  | .error _ => fresh

theorem narrow_connected : Connected narrow :=
  ⟨_, ⟨[], .init (Setup.started_init (by decide) (by decide) (by decide))⟩, rfl, rfl, rfl⟩

/-- Two messages fill the buffers of a peer that reads none of them, and the keepalive that
follows after three ticks finds no buffer. -/
def filling : List (Side × Action) :=
  [(.left, .send ⟨⟨0x20000, 4⟩, ⟨0x20100, 1⟩⟩), (.right, .arrive 0), (.left, .sent 0),
    (.left, .send ⟨⟨0x20000, 4⟩, ⟨0x20100, 1⟩⟩), (.right, .arrive 1), (.left, .sent 0),
    (.right, .tick), (.right, .stopped), (.left, .tick), (.left, .stopped),
    (.right, .tick), (.right, .stopped), (.left, .tick), (.left, .stopped),
    (.right, .tick), (.right, .stopped), (.left, .arrive 0), (.left, .tick), (.left, .stopped),
    (.right, .tick), (.right, .stopped), (.left, .tick), (.left, .stopped)]

theorem read_in_time_alive : ∃ (h : List (Duplex × Side × Action)) (d : Duplex),
    machine.Run h d ∧ (d.got .right = 3 ∧ (d.sofi .right).ticksIn = 1) ∧
      Machine.Always Alive h d := by
  obtain ⟨h, d, r, hg, hd⟩ := Machine.exists_guarded (M := machine) (C := Fed)
    (c := fun d e => Fed d e)
    (filling ++ [(.right, .recv), (.right, .arrive 0), (.right, .tick), (.right, .stopped)])
    (fun d => d.got .right = 3 ∧ (d.sofi .right).ticksIn = 1)
    (fun _ _ => of_decide_eq_true) (pair_init narrow_connected) (by decide)
  exact ⟨h, d, r, of_decide_eq_true hd, (always_alive_iff r).2 hg⟩

theorem live_peer_dropped : ¬ ∀ d, machine.Reachable d → Alive d := by
  intro h
  obtain ⟨d, hr, hd⟩ := Machine.exists_reachable (M := machine) (filling ++ [(.right, .tick)])
    (fun d => (d.sofi .right).error = -ETIMEDOUT) (pair_init narrow_connected) (by decide)
  exact h d hr .right (of_decide_eq_true hd)

end Runs

end Duplex

end OfiTransport
