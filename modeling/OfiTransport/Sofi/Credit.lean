import OfiTransport.Sofi.Steps
import Mathlib.Data.List.Perm.Subperm

/-! The credit of the sending half: the counter and the contexts in flight together. -/

namespace OfiTransport

open Lib

theorem Egress.Holds.length_le {e : Egress} (h : e.Holds fl bl) :
    fl.length + bl.length ≤ e.max := by
  have hs : fl ++ bl ⊆ List.range e.max := by
    intro c hc
    exact List.mem_range.2 (h.bound c hc)
  have hl := (List.subperm_of_subset h.ring.list.nodup hs).length_le
  simpa using hl

@[simp] theorem Egress.atomicDec_ring (e : Egress) : e.atomicDec.2.ring = e.ring := rfl

@[simp] theorem Egress.atomicDec_mrHandle (e : Egress) :
    e.atomicDec.2.mrHandle = e.mrHandle := rfl

@[simp] theorem Egress.atomicDec_max (e : Egress) : e.atomicDec.2.max = e.max := rfl

@[simp] theorem Egress.atomicDec_txOut (e : Egress) : e.atomicDec.2.txOut = e.txOut := rfl

theorem Egress.atomicDec_counter {e : Egress} (h : 0 < e.stageoutCounter) :
    e.atomicDec.2.stageoutCounter = e.stageoutCounter - 1 := by
  simp only [atomicDec]
  rw [if_neg (by omega)]

namespace Sofi

structure Sending (s : Sofi) (fl bl : List Nat) : Prop where
  holds : s.egress.Holds fl bl
  small : s.egress.max < 2 ^ 31
  connecting : s.state = .connecting → bl = []
  credit : s.state ≠ .closing → s.egress.stageoutCounter + bl.length = s.egress.max
  txOut : (s.fsm ≠ .active ∧ s.error ≠ 0) ∨ s.egress.txOut.Perm bl

/-- The counter and the contexts with a handle of the memory region manager make up the
size of the queue. -/
def CreditConserved (s : Sofi) : Prop :=
  s.egress.stageoutCounter + s.egress.inFlight = s.egress.max

/-- No error completion of an egress context is handled: it comes only to a SOFI that is
closing after an error and discards it. -/
def NoErrorHandled (s : Sofi) : Event → Prop
  | .txError (.ctx _) _ => s.fsm ≠ .active ∧ s.error ≠ 0
  | _ => True

variable {s s' s₁ : Sofi} {e : Event} {fl bl : List Nat}

instance (s : Sofi) : DecidablePred (NoErrorHandled s)
  | .txError (.ctx _) _ => inferInstanceAs (Decidable (_ ∧ _))
  | .txError .aux _ | .eq .. | .txCompleted _ | .rxCompleted .. | .rxError .. | .keepalive ..
  | .shutdownTimer _ | .send .. | .recv _ | .stop | .free _ => .isTrue trivial

theorem noErrorHandled_of_passive (h : e.Passive s) : NoErrorHandled s e := by
  cases e with
  | txError op _ =>
    cases op with
    | ctx _ => exact h.elim
    | aux => trivial
  | _ => trivial

theorem noErrorHandled_of_breaks (h : e.Breaks s) : NoErrorHandled s e := by
  cases e with
  | txError _ _ => exact h.elim
  | _ => trivial

theorem Sending.conserved_iff (h : Sending s fl bl) :
    CreditConserved s ↔ s.egress.stageoutCounter + bl.length = s.egress.max := by
  rw [CreditConserved, h.holds.inFlight_eq]

section Parts

theorem holds_removeTx {c : Nat} (h : s.egress.Holds fl bl) :
    (s.removeTx c).egress.Holds fl bl := h.congr rfl rfl rfl

theorem Closes.sending (h : Closes s₁ s') (hh : s₁.egress.Holds fl bl)
    (hsm : s₁.egress.max < 2 ^ 31)
    (hle : s₁.egress.stageoutCounter + bl.length ≤ s₁.egress.max)
    (htx : s₁.egress.txOut.Perm bl) :
    ∃ fl' bl', Sending s' fl' bl' ∧ s'.egress.max = s₁.egress.max ∧
      s'.egress.stageoutCounter + bl'.length = s₁.egress.stageoutCounter + bl.length ∧
      (s₁.error ≠ 0 → (fl = [] ∨ bl = []) → bl' = []) := by
  have hc : s'.state ≠ .connecting := by simp [h.state]
  rcases h.egress with ⟨he, heq⟩ | ⟨he, hf⟩
  · refine ⟨fl, bl, ⟨heq ▸ hh, heq ▸ hsm, fun h' => absurd h' hc, fun h' => absurd h.state h',
      .inr (heq ▸ htx)⟩, by rw [heq], by rw [heq], fun h' => absurd he h'⟩
  · have herr : s'.fsm ≠ .active ∧ s'.error ≠ 0 := ⟨h.fsm, by rw [h.error]; exact he⟩
    cases fl with
    | nil =>
      obtain ⟨e', hf', hh', hcnt, hmax, _⟩ := hh.flush_all (by omega)
      rw [hf'] at hf
      have heq := Except.ok.inj hf
      refine ⟨bl, [], ⟨heq ▸ hh', by rw [← heq, hmax]; exact hsm, fun _ => rfl,
        fun h' => absurd h.state h', .inl herr⟩, by rw [← heq, hmax], ?_, fun _ _ => rfl⟩
      rw [← heq, hcnt]
      rfl
    | cons c fl =>
      rw [hh.flush_free] at hf
      have heq := Except.ok.inj hf
      refine ⟨c :: fl, bl, ⟨heq ▸ hh, heq ▸ hsm, fun h' => absurd h' hc,
        fun h' => absurd h.state h', .inl herr⟩, by rw [heq], by rw [heq], ?_⟩
      rintro _ (h' | h')
      · cases h'
      · exact h'

theorem Sending.posted {p : Post} {m : Msg} {eg : Egress} (h : Sending s fl bl)
    (hst : s.state ≠ .closing) (hf : s.fsm = .active)
    (hp : s.egress.postBuffers p m = .ok (0, eg)) (ho : s'.egress = eg.atomicDec.2)
    (hs' : s'.state = .active) :
    ∃ fl' bl', Sending s' fl' bl' ∧ s'.egress.max = s.egress.max ∧
      s'.egress.stageoutCounter + bl'.length = s'.egress.max := by
  rcases h.holds.postBuffers hp with ⟨hr, _⟩ | ⟨c, fl', rfl, _, hh, hb⟩
  · exact absurd rfl hr
  · have hcredit := h.credit hst
    have hlen := h.holds.length_le
    have hmax : eg.max = s.egress.max := hb.max
    have hcnt : eg.stageoutCounter = s.egress.stageoutCounter := hb.counter
    have htx : eg.txOut = c :: s.egress.txOut := hb.txOut
    have hsm := h.small
    simp only [List.length_cons] at hlen
    have hsum : s'.egress.stageoutCounter + (bl ++ [c]).length = s'.egress.max := by
      rw [ho, Egress.atomicDec_counter (by omega), Egress.atomicDec_max,
        List.length_append, List.length_singleton]
      omega
    refine ⟨fl', bl ++ [c], ⟨?_, ?_, ?_, fun _ => hsum, .inr ?_⟩, ?_, hsum⟩
    · refine hh.congr ?_ ?_ ?_ <;> simp [ho]
    · rw [ho, Egress.atomicDec_max]
      omega
    · intro h'
      rw [hs'] at h'
      cases h'
    · rw [ho, Egress.atomicDec_txOut, htx]
      rcases h.txOut with h' | h'
      · exact absurd hf h'.1
      · exact (List.Perm.cons c h').trans (List.perm_append_singleton c bl).symm
    · rw [ho, Egress.atomicDec_max, hmax]

theorem Sending.mem_of_txOut {c : Nat} (h : Sending s fl bl) (hc : c ∈ s.egress.txOut)
    (he : s.fsm = .active ∨ s.error = 0) :
    ∃ b₁ b₂, bl = b₁ ++ c :: b₂ ∧ (s.egress.txOut.erase c).Perm (b₁ ++ b₂) := by
  have hp : s.egress.txOut.Perm bl := by
    rcases h.txOut with ⟨hf, herr⟩ | hp
    · rcases he with he | he
      · exact absurd he hf
      · exact absurd he herr
    · exact hp
  obtain ⟨b₁, b₂, rfl⟩ := List.append_of_mem (hp.mem_iff.1 hc)
  refine ⟨b₁, b₂, rfl, ?_⟩
  have h' := (hp.trans List.perm_middle).erase c
  simpa using h'

theorem Sending.books (h : Sending s fl bl) (hp : Phase s) (hf : s.fsm = .active) :
    s.egress.stageoutCounter + bl.length = s.egress.max ∧ s.egress.txOut.Perm bl := by
  have hst : s.state ≠ .closing := by
    rcases hp.running hf with hst | hst <;> simp [hst]
  refine ⟨h.credit hst, ?_⟩
  rcases h.txOut with ⟨hn, _⟩ | ht
  · exact absurd hf hn
  · exact ht

theorem Sending.keeps (h : Sending s fl bl) (hk : KeepsControl s s')
    (ho : ∃ w, s'.egress = { s.egress with wire := w }) : Sending s' fl bl := by
  obtain ⟨w, ho⟩ := ho
  refine ⟨?_, ?_, ?_, ?_, ?_⟩
  · refine h.holds.congr ?_ ?_ ?_ <;> rw [ho]
  · rw [ho]
    exact h.small
  · rw [hk.state]
    exact h.connecting
  · rw [hk.state, ho]
    exact h.credit
  · rw [ho, hk.error]
    exact h.txOut.imp_left (fun h' => ⟨fun hf => h'.1 (hk.fsm.1 hf), h'.2⟩)

theorem Sending.released {c : Nat} {b₁ b₂ : List Nat} (h : Sending s fl (b₁ ++ c :: b₂))
    (hk : KeepsControl s s') (hh : s'.egress.Holds (c :: fl) (b₁ ++ b₂))
    (hm : s'.egress.max = s.egress.max) (ht : s'.egress.txOut.Perm (b₁ ++ b₂))
    (hc : s.state ≠ .closing → s'.egress.stageoutCounter = s.egress.stageoutCounter + 1) :
    Sending s' (c :: fl) (b₁ ++ b₂) := by
  refine ⟨hh, hm ▸ h.small, ?_, ?_, .inr ht⟩
  · intro hst
    have hb := h.connecting (hk.state ▸ hst)
    simp at hb
  · intro hst
    have hcredit := h.credit (hk.state ▸ hst)
    have hcnt := hc (hk.state ▸ hst)
    simp only [List.length_append, List.length_cons] at hcredit ⊢
    omega

end Parts

def Balances (s : Sofi) (e : Event) (s' : Sofi) : Prop :=
  ∃ fl bl, Sending s' fl bl ∧ (CreditConserved s →
    (s'.egress.stageoutCounter + bl.length = s'.egress.max ↔ NoErrorHandled s e))

section Balances

variable {c : Nat} {p : Post} {m : Msg} {ret : Int} {n : Bool}

theorem Sending.balances_keeps (h : Sending s fl bl) (hk : KeepsControl s s')
    (ho : ∃ w, s'.egress = { s.egress with wire := w }) (he : NoErrorHandled s e) :
    Balances s e s' := by
  refine ⟨fl, bl, h.keeps hk ho, fun hc => iff_of_true ?_ he⟩
  obtain ⟨w, ho⟩ := ho
  rw [ho]
  exact h.conserved_iff.1 hc

theorem Sending.balances_posted {eg : Egress} (h : Sending s fl bl) (hst : s.state ≠ .closing)
    (hf : s.fsm = .active) (hp : s.egress.postBuffers p m = .ok (0, eg))
    (ho : s'.egress = eg.atomicDec.2) (hs' : s'.state = .active) (he : NoErrorHandled s e) :
    Balances s e s' := by
  obtain ⟨fl', bl', hs', _, hsum⟩ := h.posted hst hf hp ho hs'
  exact ⟨fl', bl', hs', fun _ => iff_of_true hsum he⟩

theorem Closes.balances (h : Closes s₁ s') (hp : Phase s) (hf : s.fsm = .active)
    (hs : Sending s fl bl) (hh : s₁.egress.Holds fl bl) (hb : Egress.SameBooks s.egress s₁.egress)
    (he : NoErrorHandled s e) : Balances s e s' := by
  obtain ⟨hcredit, htx⟩ := hs.books hp hf
  have hsm := hs.small
  have hcnt := hb.counter
  have hmax := hb.max
  obtain ⟨fl', bl', hs', hmax', hsum, _⟩ := h.sending hh (by omega) (by omega) (hb.txOut ▸ htx)
  exact ⟨fl', bl', hs', fun _ => iff_of_true (by omega) he⟩

theorem Closes.balances_same (h : Closes s₁ s') (hp : Phase s) (hf : s.fsm = .active)
    (hs : Sending s fl bl) (ho : s₁.egress = s.egress) (he : NoErrorHandled s e) :
    Balances s e s' := by
  refine h.balances hp hf hs (ho ▸ hs.holds) ⟨?_, ?_, ?_⟩ he <;> rw [ho]

theorem Closes.balances_refused (h : Closes s₁ s') (hp : Phase s) (hf : s.fsm = .active)
    (hs : Sending s fl bl) (hpb : s.egress.postBuffers p m = .ok (ret, s₁.egress)) (hr : ret ≠ 0)
    (he : NoErrorHandled s e) : Balances s e s' := by
  rcases hs.holds.postBuffers hpb with ⟨_, hh, hb⟩ | ⟨_, _, _, h', _⟩
  · exact h.balances hp hf hs hh hb he
  · exact absurd h' hr

theorem Sending.balances_completed (hs : Sending s fl bl) (hc : c ∈ s.egress.txOut)
    (he : s.fsm = .active ∨ s.error = 0) (hk : KeepsControl s s')
    (hh : (s.removeTx c).egress.handle c = .ok (n, s'.egress)) :
    Balances s (.txCompleted c) s' := by
  obtain ⟨b₁, b₂, rfl, ht⟩ := hs.mem_of_txOut hc he
  obtain ⟨hh', hcnt, hmax, htx⟩ := Egress.Holds.handle (holds_removeTx hs.holds) hh
  have hlen := hs.holds.length_le
  have hsm := hs.small
  simp only [List.length_append, List.length_cons] at hlen
  have hcnt : s.egress.stageoutCounter < 2 ^ 32 - 1 →
      s'.egress.stageoutCounter = s.egress.stageoutCounter + 1 := by
    intro hlt
    rw [hcnt]
    exact Nat.mod_eq_of_lt (by simp only [removeTx]; omega)
  refine ⟨_, _, hs.released hk hh' hmax (htx ▸ ht) ?_, fun hc => iff_of_true ?_ trivial⟩
  · intro hst
    have hcredit := hs.credit hst
    exact hcnt (by omega)
  · have hc := hs.conserved_iff.1 hc
    have hmax : s'.egress.max = s.egress.max := hmax
    have hcnt := hcnt (by omega)
    simp only [List.length_append, List.length_cons] at hc ⊢
    omega

theorem Closes.balances_txFailed {err : Int} (h : Closes s₁ s') (hp : Phase s)
    (hf : s.fsm = .active) (hs : Sending s fl bl) (hc : c ∈ s.egress.txOut)
    (hh : (s.removeTx c).egress.handleError c = .ok s₁.egress) :
    Balances s (.txError (.ctx c) err) s' := by
  obtain ⟨b₁, b₂, rfl, ht⟩ := hs.mem_of_txOut hc (.inl hf)
  obtain ⟨hh', hb⟩ := Egress.Holds.release (holds_removeTx hs.holds) hh
  obtain ⟨hcredit, _⟩ := hs.books hp hf
  have hcnt : _ = s.egress.stageoutCounter := hb.counter
  have hmax : _ = s.egress.max := hb.max
  have hsm := hs.small
  simp only [List.length_append, List.length_cons] at hcredit
  obtain ⟨fl', bl', hs', hmax', hsum, _⟩ := h.sending hh' (by omega)
    (by rw [List.length_append]; omega) (hb.txOut ▸ ht)
  rw [List.length_append] at hsum
  exact ⟨fl', bl', hs', fun _ => iff_of_false (by omega) (fun h' => h'.1 hf)⟩

theorem Sending.balances_txErrored {err : Int} (hs : Sending s fl bl) (hst : s.state = .closing)
    (hc : c ∈ s.egress.txOut) (he : s.error = 0) (hk : KeepsControl s s')
    (hh : (s.removeTx c).egress.handleError c = .ok s'.egress) :
    Balances s (.txError (.ctx c) err) s' := by
  obtain ⟨b₁, b₂, rfl, ht⟩ := hs.mem_of_txOut hc (.inr he)
  obtain ⟨hh', hb⟩ := Egress.Holds.release (holds_removeTx hs.holds) hh
  have hcnt : _ = s.egress.stageoutCounter := hb.counter
  have hmax : _ = s.egress.max := hb.max
  refine ⟨_, _, hs.released hk hh' hmax (hb.txOut ▸ ht) (fun h' => absurd hst h'), fun hc => ?_⟩
  refine iff_of_false ?_ (fun h' => h'.2 he)
  have hc := hs.conserved_iff.1 hc
  simp only [List.length_append, List.length_cons] at hc ⊢
  omega

theorem Sending.balances_discarded (hs : Sending s fl bl) (hf : s.fsm ≠ .active)
    (he : s.error ≠ 0) (hk : KeepsControl s s') (ho : s'.egress = (s.removeTx c).egress)
    (hn : NoErrorHandled s e) : Balances s e s' := by
  refine ⟨fl, bl, ⟨?_, ?_, ?_, ?_, .inl ⟨fun h' => hf (hk.fsm.1 h'), by rwa [hk.error]⟩⟩, ?_⟩
  · exact (holds_removeTx hs.holds).congr (by rw [ho]) (by rw [ho]) (by rw [ho])
  · rw [ho]
    exact hs.small
  · rw [hk.state]
    exact hs.connecting
  · rw [hk.state, ho]
    exact hs.credit
  · refine fun hc => iff_of_true ?_ hn
    rw [ho]
    exact hs.conserved_iff.1 hc

end Balances

theorem Moves.sending (h : Moves s e s') (hen : s.enabled e = true) (hp : Phase s)
    (hs : Sending s fl bl) : Balances s e s' := by
  cases h with
  | stay he hk hi ho => exact hs.balances_keeps hk ho (noErrorHandled_of_passive he)
  | close hc _ hf he hi ho =>
    refine hc.balances_same hp hf hs ho ?_
    rcases he with he | ⟨rfl, _⟩
    · exact noErrorHandled_of_breaks he
    · trivial
  | sent ho hst hk hi hpb hout =>
    refine hs.balances_posted hst (hp.fsm_active hst) hpb hout (hk.state.trans ?_) trivial
    rcases hp.running (hp.fsm_active hst) with h' | h'
    · rw [(hp.out hst).2 h'] at ho
      cases ho
    · exact h'
  | sendFailed hc _ ho hst hr hpb hi hout herr =>
    subst hout
    exact hc.balances_refused hp (hp.fsm_active hst) hs hpb hr trivial
  | connected hst hfsm hst' herr hout _ hr hi ho =>
    have hne : s.state ≠ .closing := by simp [hst]
    rcases ho with ⟨_, ho⟩ | ⟨eg, hpb, ho⟩
    · have hcredit := hs.credit hne
      refine ⟨fl, bl, ⟨ho ▸ hs.holds, ho ▸ hs.small, fun _ => hs.connecting hst,
        fun _ => ho ▸ hcredit, ?_⟩, fun _ => iff_of_true (ho ▸ hcredit) trivial⟩
      exact .inr (ho ▸ (hs.books hp (hp.fsm_active hne)).2)
    · exact hs.balances_posted hne (hp.fsm_active hne) hpb ho hst' trivial
  | connectFailed hc _ hst hi ho =>
    have hf := hp.fsm_of_connecting hst
    rcases ho with ⟨ho, _⟩ | ⟨_, ret, eg, hpb, hr, ho, _⟩
    · exact hc.balances_same hp hf hs ho trivial
    · subst ho
      exact hc.balances_refused hp hf hs hpb hr trivial
  | txCompleted he hk hi hh =>
    simp only [enabled, decide_eq_true_eq] at hen
    exact hs.balances_completed hen.2 he hk hh
  | txFailed hc _ hf hi hh herr =>
    simp only [enabled, decide_eq_true_eq] at hen
    exact hc.balances_txFailed hp hf hs hen.2 hh
  | txErrored hf he hk hi hh =>
    simp only [enabled, decide_eq_true_eq] at hen
    exact hs.balances_txErrored (hp.closing hf) hen.2 he hk hh
  | txDiscarded hev hf he hk hi ho =>
    refine hs.balances_discarded hf he hk ho ?_
    rcases hev with rfl | ⟨err, rfl⟩
    · trivial
    · exact ⟨hf, he⟩
  | rxCompleted hst hk ho hi => exact hs.balances_keeps hk ⟨_, ho⟩ trivial
  | rxDrained hst hk ho hi => exact hs.balances_keeps hk ⟨_, ho⟩ trivial
  | rxFailed hc _ hst hi ho herr =>
    exact hc.balances_same hp (hp.fsm_of_active hst) hs ho trivial
  | rxErrored hst hk ho hi => exact hs.balances_keeps hk ⟨_, ho⟩ trivial
  | fetched hk ho hi => exact hs.balances_keeps hk ⟨_, ho⟩ trivial
  | freed hk ho hi => exact hs.balances_keeps hk ⟨_, ho⟩ trivial

theorem Setup.started_sending {u : Setup} (h₁ : 1 ≤ u.rxQueue) (h₂ : u.rxQueue ≤ u.txQueue) :
    Sending u.started (List.range u.rxQueue.toNat) [] := by
  have hmax : u.started.egress.max = u.txQueue.toNat := rfl
  have hlt := queueSize_lt u.options.txQueueSize u.txSize
  have hlt : u.txQueue < 2 ^ 31 := hlt
  refine ⟨⟨?_, ?_, ?_⟩, by omega, fun _ => rfl, ?_, .inr .nil⟩
  · rw [List.append_nil]
    exact sofi_ring h₁ (linked u.rxQueue.toNat u.rxQueue.toNat)
  · intro c
    simp [Setup.started, Setup.sofi]
  · intro c hc
    rw [List.append_nil, List.mem_range] at hc
    omega
  · intro _
    have hc := toUInt32_queueSize (show 1 ≤ u.txQueue by omega)
    exact hc

theorem machine_sending (h : machine.init s) :
    Phase s ∧ ∃ fl, Sending s fl [] ∧ CreditConserved s := by
  obtain ⟨u, h₁, h₂, rfl⟩ := machine_init h
  have hs := u.started_sending h₁ h₂
  exact ⟨u.started_phase, _, hs, hs.conserved_iff.2 (hs.credit (by simp [Setup.started]))⟩

theorem step_sending (hi : Phase s ∧ ∃ fl bl, Sending s fl bl) (he : s.enabled e = true)
    (h : s.step e = .ok s') : Phase s' ∧ ∃ fl bl, Sending s' fl bl := by
  obtain ⟨hp, fl, bl, hs⟩ := hi
  have hm := step_moves hp he h
  obtain ⟨fl', bl', hs', _⟩ := hm.sending he hp hs
  exact ⟨hm.phase hp, fl', bl', hs'⟩

/-- Along a run counter and handles add up to the size of the queue exactly as long as no
error completion of an egress context is handled. -/
theorem always_creditConserved_iff {s : Sofi} {h : List (Sofi × Event)} (r : machine.Run h s) :
    Machine.Always CreditConserved h s ↔ Machine.Guarded NoErrorHandled h := by
  refine r.always_iff_guarded ?_ (fun s e s' hi he h => step_sending hi he h) ?_
  · intro s hi
    obtain ⟨hp, fl, hs, hc⟩ := machine_sending hi
    exact ⟨⟨hp, fl, [], hs⟩, hc⟩
  · rintro s e s' ⟨hp, fl, bl, hs⟩ hc he h
    obtain ⟨fl', bl', hs', hiff⟩ := (step_moves hp he h).sending he hp hs
    rw [hs'.conserved_iff]
    exact hiff hc

theorem exchange_creditConserved : ∃ (h : List (Sofi × Event)) (s : Sofi), machine.Run h s ∧
    (s.egress.inFlight = 1 ∧ s.sents = 2) ∧ Machine.Always CreditConserved h s := by
  obtain ⟨h, s, r, hg, hp⟩ := Machine.exists_guarded (M := machine) (C := NoErrorHandled)
    (c := fun s e => NoErrorHandled s e) exchange
    (fun s => s.egress.inFlight = 1 ∧ s.sents = 2)
    (fun _ _ => of_decide_eq_true) fresh_init (by decide)
  exact ⟨h, s, r, of_decide_eq_true hp, (always_creditConserved_iff r).2 hg⟩

/-- A message is sent and the send completes with an error. -/
theorem credit_lost : ¬ ∀ s, machine.Reachable s → CreditConserved s := by
  intro h
  obtain ⟨s, hr, hc⟩ := Machine.exists_reachable
    [.eq FI_CONNECTED 0 .easy, .send ⟨⟨0, 0⟩, ⟨0x20000, 8⟩⟩ .easy, .txError (.ctx 0) 5]
    (fun s => s.egress.stageoutCounter + s.egress.inFlight ≠ s.egress.max) fresh_init (by decide)
  exact of_decide_eq_true hc (h s hr)

section Contexts

/-- Whether TX events are handled: in ACTIVE state, and by a shutdown without an error. -/
def handlesTx (s : Sofi) : Bool :=
  if s.fsm = .stopping then s.error = 0 else s.state = .active

/-- The `op_context` that `nn_sofi_egress_handle` or `nn_sofi_egress_handle_error` converts. -/
def converted (s : Sofi) : Event → Option OpContext
  | .txCompleted c => if s.handlesTx then some (.ctx c) else none
  | .txError op _ => if s.handlesTx then some op else none
  | _ => none

def InFlight (s : Sofi) (op : OpContext) : Prop :=
  ∃ c, op = .ctx c ∧ c < s.egress.max ∧ (s.egress.mrHandle c).isSome = true ∧ c ∈ s.egress.txOut

def Resolves (s : Sofi) (e : Event) : Prop := ∀ op, s.converted e = some op → s.InFlight op

theorem Phase.of_handlesTx (hp : Phase s) (h : s.handlesTx = true) :
    s.fsm = .active ∨ s.error = 0 := by
  simp only [handlesTx] at h
  split at h
  · exact .inr (of_decide_eq_true h)
  · exact .inl (hp.fsm_of_active (of_decide_eq_true h))

theorem Sending.inFlight {c : Nat} (hs : Sending s fl bl) (hc : c ∈ s.egress.txOut)
    (he : s.fsm = .active ∨ s.error = 0) : s.InFlight (.ctx c) := by
  obtain ⟨b₁, b₂, rfl, _⟩ := hs.mem_of_txOut hc he
  exact ⟨c, rfl, hs.holds.bound c (by simp), (hs.holds.busy c).2 (by simp), hc⟩

theorem not_inFlight_aux (s : Sofi) : ¬ s.InFlight .aux := by
  rintro ⟨c, hc, _⟩
  cases hc

theorem step_wildContext {err : Int} (h : s.handlesTx = true) :
    s.step (.txError .aux err) = .error .wildContext := by
  simp only [handlesTx] at h
  split at h
  · next hs =>
    simp [step, feed, hs, shutdown, shutdownTx, of_decide_eq_true h, egressHandleError, bind,
      Except.bind]
  · next hs =>
    simp [step, feed, hs, handler, of_decide_eq_true h, handlerActive, egressHandleError, bind,
      Except.bind]

/-- The events that are handled are for contexts in flight, except for the error entry of a
keepalive. -/
theorem tx_resolves_iff (h : machine.Reachable s) (he : s.enabled e = true) :
    s.Resolves e ↔ ¬ (s.handlesTx = true ∧ ∃ err, e = .txError .aux err) := by
  obtain ⟨hp, fl, bl, hs⟩ := h.invariant (I := fun s => Phase s ∧ ∃ fl bl, Sending s fl bl)
    (fun s hi => by
      obtain ⟨hp, fl, hs, _⟩ := machine_sending hi
      exact ⟨hp, fl, [], hs⟩)
    (fun s e s' hi he h => step_sending hi he h)
  have ctx : ∀ {c}, c ∈ s.egress.txOut →
      ∀ op, (if s.handlesTx then some (.ctx c) else none) = some op → s.InFlight op := by
    intro c hc op hop
    split at hop
    · next ht =>
      cases hop
      exact hs.inFlight hc (hp.of_handlesTx ht)
    · cases hop
  cases e with
  | txCompleted c =>
    simp only [enabled, decide_eq_true_eq] at he
    exact iff_of_true (ctx he.2) (by simp)
  | txError op err =>
    cases op with
    | ctx c =>
      simp only [enabled, decide_eq_true_eq] at he
      exact iff_of_true (ctx he.2) (by simp)
    | aux =>
      by_cases ht : s.handlesTx = true
      · exact iff_of_false (fun hr => s.not_inFlight_aux (hr .aux (by simp [converted, ht])))
          (by simp [ht])
      · exact iff_of_true (fun op hop => by simp [converted, ht] at hop) (by simp [ht])
  | _ => exact iff_of_true (fun op hop => by cases hop) (by simp)

theorem tx_resolves_send : ∃ s, machine.Reachable s ∧ s.enabled (.txCompleted 0) = true ∧
    s.converted (.txCompleted 0) = some (.ctx 0) ∧ s.Resolves (.txCompleted 0) := by
  obtain ⟨s, hr, hc⟩ := Machine.exists_reachable
    [.eq FI_CONNECTED 0 .easy, .send ⟨⟨0, 0⟩, ⟨0x20000, 8⟩⟩ .easy, .keepalive .timeout 0]
    (fun s => s.enabled (.txCompleted 0) = true ∧ s.converted (.txCompleted 0) = some (.ctx 0))
    fresh_init (by decide)
  obtain ⟨he, hs⟩ := of_decide_eq_true hc
  exact ⟨s, hr, he, hs, (tx_resolves_iff hr he).2 (by simp)⟩

/-- The third keepalive tick posts the auxiliary packet, which fails. -/
theorem keepalive_error_wild :
    ¬ ∀ s e, machine.Reachable s → s.enabled e = true → s.Resolves e := by
  intro h
  obtain ⟨s, hr, hc⟩ := Machine.exists_reachable
    [.eq FI_CONNECTED 0 .easy, .keepalive .timeout 0, .keepalive .stopped 0,
      .keepalive .timeout 0, .keepalive .stopped 0, .keepalive .timeout 0]
    (fun s => s.enabled (.txError .aux 5) = true ∧
      s.converted (.txError .aux 5) = some .aux) fresh_init (by decide)
  obtain ⟨he, hs⟩ := of_decide_eq_true hc
  exact s.not_inFlight_aux (h s _ hr he .aux hs)

end Contexts

end Sofi

end OfiTransport
