import OfiTransport.Sofi.Credit

/-! What the error flush of the sending half comes to.  `nn_sofi_egress_flush` walks the ring
until it meets a free context, and the free contexts are in front. -/

namespace OfiTransport

open Lib

namespace Egress

def Clear (e : Egress) : Prop := ∀ c, e.mrHandle c = none → e.msg c = .empty

structure Emptied (e : Egress) : Prop where
  handle : ∀ c, e.mrHandle c = none
  msg : ∀ c, e.msg c = .empty
  counter : e.stageoutCounter = e.max
  empty : e.empty = true

def FlushEmpties (e : Egress) : Prop := ∃ e', e.flush = .ok e' ∧ e'.Emptied

structure Neat (e : Egress) (fl bl : List Nat) : Prop where
  holds : e.Holds fl bl
  clear : e.Clear
  credit : e.stageoutCounter + bl.length ≤ e.max
  small : e.max < 2 ^ 31

section Neat

variable {e e' : Egress} {fl bl b₁ b₂ : List Nat} {c : Nat} {p : Post} {m : Msg}

theorem freeContext_msg (e : Egress) (c : Nat) :
    (e.freeContext c).msg = Function.update e.msg c .empty := by
  simp only [freeContext]
  split <;> rfl

theorem Clear.congr (h : e.Clear) (hh : e'.mrHandle = e.mrHandle) (hm : e'.msg = e.msg) :
    e'.Clear := by
  intro c hc
  rw [hm]
  exact h c (hh ▸ hc)

theorem Clear.freeContext (h : ∀ d, d ≠ c → e.mrHandle d = none → e.msg d = .empty) :
    (e.freeContext c).Clear := by
  intro d hd
  by_cases hdc : d = c
  · simp [freeContext_msg, hdc]
  · rw [freeContext_mrHandle, if_neg hdc] at hd
    simpa [freeContext_msg, hdc] using h d hdc hd

theorem Clear.described (h : e.Clear) (p : Post) (m : Msg) (c : Nat) :
    ∀ d, d ≠ c → (e.described p m c).mrHandle d = none → (e.described p m c).msg d = .empty := by
  intro d hdc hd
  simp only [Egress.described, setMrHandle, setMsg, Function.update_of_ne hdc] at hd ⊢
  exact h d hd

theorem markBusy_isSome (h : e.markBusy c = .ok e') : (e.mrHandle c).isSome = true := by
  simp only [Egress.markBusy, bind_eq_ok, nnAssert_eq_ok] at h
  obtain ⟨_, _, _, hc, _⟩ := h
  exact hc

theorem Neat.congr (h : e.Neat fl bl) (hr : e'.ring = e.ring) (hh : e'.mrHandle = e.mrHandle)
    (hm : e'.msg = e.msg) (hc : e'.stageoutCounter = e.stageoutCounter) (hx : e'.max = e.max) :
    e'.Neat fl bl :=
  ⟨h.holds.congr hr hh hx, h.clear.congr hh hm, by rw [hc, hx]; exact h.credit, hx ▸ h.small⟩

theorem Neat.refused {ret : Int} (h : e.Neat fl bl) (hp : e.postBuffers p m = .ok (ret, e'))
    (hr : ret ≠ 0) : e'.Neat fl bl := by
  rcases h.holds.postBuffers hp with ⟨_, hh, hb⟩ | ⟨_, _, _, h', _⟩
  · refine ⟨hh, ?_, by rw [hb.counter, hb.max]; exact h.credit, hb.max ▸ h.small⟩
    cases postBuffers_cases hp with
    | noContext _ _ he => exact he ▸ h.clear
    | refused _ _ _ he => exact he ▸ .freeContext (h.clear.described p m _)
    | posted _ hret => exact absurd hret hr
  · exact absurd h' hr

theorem Neat.posted (h : e.Neat fl bl) (hp : e.postBuffers p m = .ok (0, e'))
    (hc : e.stageoutCounter + bl.length = e.max) : ∃ fl' bl', e'.atomicDec.2.Neat fl' bl' := by
  rcases h.holds.postBuffers hp with ⟨hr, _⟩ | ⟨c, fl', rfl, _, hh, hb⟩
  · exact absurd rfl hr
  · have hlen := h.holds.length_le
    have hcnt : e'.stageoutCounter = e.stageoutCounter := hb.counter
    have hmax : e'.max = e.max := hb.max
    simp only [List.length_cons] at hlen
    refine ⟨fl', bl ++ [c], hh.congr rfl rfl rfl, ?_, ?_,
      by rw [atomicDec_max, hmax]; exact h.small⟩
    · cases postBuffers_cases hp with
      | noContext _ hret => simp [EAGAIN] at hret
      | refused _ hret => exact absurd rfl hret
      | @posted d _ _ hd hm =>
        have hset := markBusy_isSome hm
        obtain ⟨r, rfl⟩ := markBusy_inv hm
        intro a ha
        by_cases had : a = d
        · subst had
          exact absurd ha (Option.isSome_iff_ne_none.1 hset)
        · exact h.clear.described p m d a had ha
    · rw [atomicDec_counter (by omega), atomicDec_max, List.length_append, List.length_singleton]
      omega

theorem Neat.errored (h : e.Neat fl (b₁ ++ c :: b₂)) (hh : e.handleError c = .ok e') :
    e'.Neat (c :: fl) (b₁ ++ b₂) := by
  obtain ⟨hh', hb⟩ := h.holds.release hh
  have hcredit := h.credit
  have hcnt := hb.counter
  have hmax := hb.max
  simp only [List.length_append, List.length_cons] at hcredit
  refine ⟨hh', ?_, by rw [List.length_append]; omega, hmax ▸ h.small⟩
  obtain ⟨r, rfl⟩ := handleError_inv hh
  exact .congr (.freeContext fun d _ => h.clear d) rfl rfl

theorem Neat.handled {n : Bool} (h : e.Neat fl (b₁ ++ c :: b₂)) (hh : e.handle c = .ok (n, e')) :
    e'.Neat (c :: fl) (b₁ ++ b₂) := by
  obtain ⟨hh', hcnt, hmax, _⟩ := h.holds.handle hh
  have hcredit := h.credit
  have hsmall := h.small
  simp only [List.length_append, List.length_cons] at hcredit
  rw [Nat.mod_eq_of_lt (by omega)] at hcnt
  refine ⟨hh', ?_, by rw [List.length_append]; omega, hmax ▸ h.small⟩
  obtain ⟨_, r, k, rfl⟩ := handle_inv hh
  exact .congr (.freeContext fun d _ => h.clear d) rfl rfl

theorem Clear.flushFrom {fuel : Nat} {o : Option Nat} (h : e.Clear)
    (hf : Egress.flushFrom fuel o e = .ok e') : e'.Clear := by
  induction fuel generalizing o e with
  | zero =>
    cases o with
    | none => exact Except.ok.inj hf ▸ h
    | some c => cases hf
  | succ fuel ih =>
    cases o with
    | none => exact Except.ok.inj hf ▸ h
    | some c =>
      simp only [Egress.flushFrom] at hf
      split at hf
      · exact ih (e := e.atomicInc.2.freeContext c) (.freeContext fun d _ => h d) hf
      · exact Except.ok.inj hf ▸ h

theorem Neat.flushed (h : e.Neat fl bl) (hf : e.flush = .ok e') : ∃ fl' bl', e'.Neat fl' bl' := by
  cases fl with
  | nil =>
    have hcredit := h.credit
    have hsmall := h.small
    obtain ⟨e₁, he, hh, hcnt, hmax, _⟩ := h.holds.flush_all (by omega)
    rw [he] at hf
    cases hf
    exact ⟨bl, [], hh, h.clear.flushFrom he, by rw [hcnt, hmax]; exact hcredit, hmax ▸ hsmall⟩
  | cons c fl =>
    rw [h.holds.flush_free] at hf
    cases hf
    exact ⟨c :: fl, bl, h⟩

theorem Neat.emptied_iff (h : e.Neat fl bl) :
    e.Emptied ↔ bl = [] ∧ e.stageoutCounter = e.max := by
  constructor
  · intro he
    refine ⟨List.eq_nil_iff_forall_not_mem.2 fun c hc => ?_, he.counter⟩
    have hb := (h.holds.busy c).2 hc
    simp [he.handle c] at hb
  · rintro ⟨rfl, hc⟩
    have hn : ∀ c, e.mrHandle c = none := fun c => h.holds.handle_none List.not_mem_nil
    exact ⟨hn, fun c => h.clear c (hn c), hc, by simp [Egress.empty, hc]⟩

theorem Neat.flushEmpties_iff (h : e.Neat fl bl) :
    e.FlushEmpties ↔ e.stageoutCounter + e.inFlight = e.max ∧
      (e.inFlight = 0 ∨ e.getContext = .ok none) := by
  rw [h.holds.inFlight_eq]
  cases fl with
  | nil =>
    have hcredit := h.credit
    have hsmall := h.small
    obtain ⟨e', he, hh, hcnt, hmax, _⟩ := h.holds.flush_all (by omega)
    have hn : e'.Neat bl [] :=
      ⟨hh, h.clear.flushFrom he, by rw [hcnt, hmax]; exact hcredit, hmax ▸ hsmall⟩
    have hg : bl = [] ∨ e.getContext = .ok none := by
      cases bl with
      | nil => exact .inl rfl
      | cons c bl =>
        have hc := (h.holds.busy c).2 List.mem_cons_self
        exact .inr (by simp [Egress.getContext, h.holds.ring.head, hc])
    have hiff : e.FlushEmpties ↔ e'.Emptied := by simp [FlushEmpties, he]
    rw [hiff, hn.emptied_iff, hcnt, hmax]
    simp only [true_and, List.length_eq_zero_iff, hg, and_true]
  | cons c fl =>
    have hiff : e.FlushEmpties ↔ e.Emptied := by simp [FlushEmpties, h.holds.flush_free]
    have hg : e.getContext ≠ .ok none := by
      simp [Egress.getContext, h.holds.ring.head, h.holds.handle_none h.holds.not_mem_of_free]
    rw [hiff, h.emptied_iff]
    simp only [hg, or_false, List.length_eq_zero_iff]
    constructor
    · rintro ⟨rfl, hc⟩
      exact ⟨hc, rfl⟩
    · rintro ⟨hc, rfl⟩
      exact ⟨rfl, hc⟩

end Neat

end Egress

namespace Sofi

/-- The states of the sending half that a flush may be asked for: as a run leaves it, and as
the STOP action finds it after a message was refused or a send has failed. -/
inductive Shows (s : Sofi) : Egress → Prop
  | rest : Shows s s.egress
  | refused (hst : s.state ≠ .closing) (hp : s.egress.postBuffers p m = .ok (ret, e))
      (hr : ret ≠ 0) : Shows s e
  | errored (hf : s.fsm = .active) (hc : c ∈ s.egress.txOut)
      (hh : (s.removeTx c).egress.handleError c = .ok e) : Shows s e

section Neat

variable {s s' s₁ : Sofi} {e : Event} {eg : Egress} {fl bl : List Nat} {c : Nat}

def Tidied (s : Sofi) : Prop := ∃ fl bl, s.egress.Neat fl bl

theorem Tidied.neat (h : Tidied s) (hh : s.egress.Holds fl bl) : s.egress.Neat fl bl := by
  obtain ⟨fl', bl', hn⟩ := h
  obtain ⟨rfl, rfl⟩ := hh.unique hn.holds
  exact hn

theorem Tidied.same (h : Tidied s) (ho : ∃ w, s'.egress = { s.egress with wire := w }) :
    Tidied s' := by
  obtain ⟨w, ho⟩ := ho
  obtain ⟨fl, bl, hn⟩ := h
  refine ⟨fl, bl, hn.congr ?_ ?_ ?_ ?_ ?_⟩ <;> rw [ho]

theorem Tidied.removeTx (h : Tidied s) (c : Nat) : Tidied (s.removeTx c) := by
  obtain ⟨fl, bl, hn⟩ := h
  exact ⟨fl, bl, hn.congr rfl rfl rfl rfl rfl⟩

theorem Closes.tidied (h : Closes s₁ s') (hn : s₁.egress.Neat fl bl) : Tidied s' := by
  rcases h.egress with ⟨_, he⟩ | ⟨_, hf⟩
  · exact ⟨fl, bl, he ▸ hn⟩
  · exact hn.flushed hf

theorem Shows.neat (h : Shows s eg) (hs : Sending s fl bl) (hn : Tidied s) :
    ∃ fl' bl', eg.Neat fl' bl' := by
  cases h with
  | rest => exact hn
  | refused _ hp hr => exact ⟨fl, bl, (hn.neat hs.holds).refused hp hr⟩
  | errored hf hc hh =>
    obtain ⟨b₁, b₂, rfl, _⟩ := hs.mem_of_txOut hc (.inl hf)
    exact ⟨_, _, ((hn.removeTx _).neat (holds_removeTx hs.holds)).errored hh⟩

theorem Moves.tidied (h : Moves s e s') (hen : s.enabled e = true) (hs : Sending s fl bl)
    (hn : Tidied s) : Tidied s' := by
  have hnt := hn.neat hs.holds
  have posted : ∀ {p m eg}, s.state ≠ .closing → s.egress.postBuffers p m = .ok (0, eg) →
      s'.egress = eg.atomicDec.2 → Tidied s' := by
    intro p m eg hst hpb ho
    obtain ⟨fl', bl', hn'⟩ := hnt.posted hpb (hs.credit hst)
    exact ⟨fl', bl', ho ▸ hn'⟩
  cases h with
  | stay _ _ _ ho => exact hn.same ho
  | close hc _ _ _ _ ho | rxFailed hc _ _ _ ho => exact hc.tidied (ho ▸ hnt)
  | sent _ hst _ _ hpb ho => exact posted hst hpb ho
  | sendFailed hc _ _ hst hr hpb _ ho => exact hc.tidied (ho ▸ hnt.refused hpb hr)
  | connected hst _ _ _ _ _ _ _ ho =>
    rcases ho with ⟨_, ho⟩ | ⟨eg, hpb, ho⟩
    · exact hn.same ⟨_, ho⟩
    · exact posted (by simp [hst]) hpb ho
  | connectFailed hc _ _ _ ho =>
    rcases ho with ⟨ho, _⟩ | ⟨_, ret, eg, hpb, hr, ho, _⟩
    · exact hc.tidied (ho ▸ hnt)
    · exact hc.tidied (ho ▸ hnt.refused hpb hr)
  | txCompleted he _ _ hh =>
    simp only [enabled, decide_eq_true_eq] at hen
    obtain ⟨b₁, b₂, rfl, _⟩ := hs.mem_of_txOut hen.2 he
    exact ⟨_, _, ((hn.removeTx _).neat (holds_removeTx hs.holds)).handled hh⟩
  | txFailed hc _ hf _ hh =>
    simp only [enabled, decide_eq_true_eq] at hen
    obtain ⟨b₁, b₂, rfl, _⟩ := hs.mem_of_txOut hen.2 (.inl hf)
    exact hc.tidied (((hn.removeTx _).neat (holds_removeTx hs.holds)).errored hh)
  | txErrored _ he _ _ hh =>
    simp only [enabled, decide_eq_true_eq] at hen
    obtain ⟨b₁, b₂, rfl, _⟩ := hs.mem_of_txOut hen.2 (.inr he)
    exact ⟨_, _, ((hn.removeTx _).neat (holds_removeTx hs.holds)).errored hh⟩
  | txDiscarded _ _ _ _ _ ho => exact (hn.removeTx _).same ⟨_, ho⟩
  | rxCompleted _ _ ho | rxDrained _ _ ho | rxErrored _ _ ho | fetched _ ho | freed _ ho =>
    exact hn.same ⟨_, ho⟩

theorem Setup.started_tidied {u : Setup} (h₁ : 1 ≤ u.rxQueue) (h₂ : u.rxQueue ≤ u.txQueue) :
    Tidied u.started := by
  have hs := u.started_sending h₁ h₂
  have hc := hs.credit (by simp [Setup.started])
  exact ⟨_, [], hs.holds, fun _ _ => rfl, Nat.le_of_eq hc, hs.small⟩

theorem reachable_tidied (h : machine.Reachable s) :
    Phase s ∧ (∃ fl bl, Sending s fl bl) ∧ Tidied s := by
  refine h.invariant (I := fun s => Phase s ∧ (∃ fl bl, Sending s fl bl) ∧ Tidied s) ?_ ?_
  · intro s hi
    obtain ⟨u, h₁, h₂, rfl⟩ := machine_init hi
    exact ⟨u.started_phase, ⟨_, _, u.started_sending h₁ h₂⟩, Setup.started_tidied h₁ h₂⟩
  · rintro s e s' ⟨hp, ⟨fl, bl, hs⟩, hn⟩ he hst
    obtain ⟨hp', hs'⟩ := step_sending ⟨hp, fl, bl, hs⟩ he hst
    exact ⟨hp', hs', (step_moves hp he hst).tidied he hs hn⟩

/-- The flush empties the sending half exactly if no credit was lost before and it finds all
contexts in flight, or none. -/
theorem flush_empties_iff (h : machine.Reachable s) (hs : Shows s eg) :
    eg.FlushEmpties ↔ eg.stageoutCounter + eg.inFlight = eg.max ∧
      (eg.inFlight = 0 ∨ eg.getContext = .ok none) := by
  obtain ⟨_, ⟨fl, bl, hsend⟩, hn⟩ := reachable_tidied h
  obtain ⟨fl', bl', hn'⟩ := hs.neat hsend hn
  exact hn'.flushEmpties_iff

theorem flush_empties_full : ∃ s, machine.Reachable s ∧ s.egress.inFlight = 2 ∧
    s.egress.FlushEmpties := by
  obtain ⟨s, hr, hc⟩ := Machine.exists_reachable
    [.eq FI_CONNECTED 0 .easy, .send ⟨⟨0, 0⟩, ⟨0x20000, 8⟩⟩ .easy,
      .send ⟨⟨0, 0⟩, ⟨0x30000, 8⟩⟩ .easy]
    (fun s => s.egress.inFlight = 2 ∧ s.egress.stageoutCounter + s.egress.inFlight = s.egress.max ∧
      s.egress.getContext = .ok none)
    (Setup.started_init (u := .easy ⟨2, 2, 4096⟩) (by decide) (by decide) (by decide)) (by decide)
  obtain ⟨h₁, h₂, h₃⟩ := of_decide_eq_true hc
  exact ⟨s, hr, h₁, (flush_empties_iff hr .rest).2 ⟨h₂, .inr h₃⟩⟩

/-- A single message is in flight, and the flush stops at the first context. -/
theorem flush_keeps_message :
    ¬ ∀ s e, machine.Reachable s → Shows s e → e.FlushEmpties := by
  intro h
  obtain ⟨s, hr, hc⟩ := Machine.exists_reachable
    [.eq FI_CONNECTED 0 .easy, .send ⟨⟨0, 0⟩, ⟨0x20000, 8⟩⟩ .easy]
    (fun s => s.egress.inFlight = 1 ∧ s.egress.getContext = .ok (some 1)) fresh_init (by decide)
  obtain ⟨h₁, h₂⟩ := of_decide_eq_true hc
  obtain ⟨_, _, fl, bl, hn⟩ := reachable_tidied hr
  have hf := (hn.flushEmpties_iff.1 (h s _ hr .rest)).2
  simp [h₁, h₂] at hf

end Neat

end Sofi

end OfiTransport
