import OfiTransport.Sofi.Receive

/-! The lists of the ingress buffers under any order of the operations on them, beginning with
whatever a SOFI has come to. -/

namespace OfiTransport

open Lib

namespace Ingress

def Whole (i : Ingress) (D : List Nat) : Prop := ∃ F B Q, i.bufs.Spread i.max D F B Q

section Whole

variable {i i' : Ingress} {q : Buffers} {D : List Nat} {b : Nat}

theorem Whole.congr (h : i.Whole D) (hb : i'.bufs = i.bufs) (hm : i'.max = i.max) : i'.Whole D := by
  rw [Whole, hb, hm]
  exact h

theorem Whole.popFree (h : i.Whole D) (hq : i.bufs.popFree = some (b, q)) :
    { i with bufs := q }.Whole (b :: D) := by
  obtain ⟨F, B, Q, h⟩ := h
  cases F with
  | nil => simp [h.popFree_nil] at hq
  | cons c F =>
    obtain ⟨q', hq', h'⟩ := h.popFree
    rw [hq', Option.some.injEq, Prod.mk.injEq] at hq
    obtain ⟨rfl, rfl⟩ := hq
    exact ⟨F, B, Q, h'⟩

/-- A buffer whose posting fails goes back to the free ones by `nn_sofi_ingress_mark_free`, which
must not take it for a busy one. -/
theorem Whole.postBuffer (h : i.Whole (b :: D)) (r : Int) : (i.postBuffer r b).2.Whole D := by
  obtain ⟨F, B, Q, h⟩ := h
  rw [Ingress.postBuffer]
  split
  · exact ⟨_, _, _, h.markFree⟩
  · exact ⟨_, _, _, h.markBusy⟩

theorem Whole.post (h : i.Whole D) (r : Int) : (i.post r).2.Whole D := by
  rw [Ingress.post]
  split
  · exact h
  · next b q hq =>
    have hp := (h.popFree hq).postBuffer r
    generalize Ingress.postBuffer r { i with bufs := q } b = x at hp ⊢
    obtain ⟨ret, i₁⟩ := x
    simp only
    split <;> exact hp

theorem Whole.postLate (h : i.Whole D) (r : Int) : (i.postLate r).Whole D := by
  rw [Ingress.postLate]
  split
  · exact Whole.post (i := { i with postlater := false }) h r
  · exact h

theorem Whole.handle (h : i.Whole D) (hb : ∀ F B Q, i.bufs.Holds i.max D F B Q → b ∈ B)
    (late : Int) (len : Nat) : (i.handle late b len).Whole D := by
  obtain ⟨F, B, Q, h⟩ := h
  obtain ⟨B₁, B₂, rfl⟩ := List.append_of_mem (hb F B Q h.toHolds)
  by_cases hk : i.isKeepalive b len = true
  · rw [handle_keepalive hk]
    exact Whole.postLate ⟨_, _, _, h.markFree_busy⟩ late
  · rw [handle_data (Bool.not_eq_true _ ▸ hk)]
    exact ⟨_, _, _, h.markPopulated_busy⟩

theorem Whole.flush (h : i.Whole D) : ∃ i', i.flush = .ok i' ∧ i'.Whole D := by
  obtain ⟨F, B, Q, h⟩ := h
  have hl := h.length
  obtain ⟨q, hq, hh⟩ := h.flushBusy (show B.length ≤ i.max by omega)
  obtain ⟨q', hq', hh'⟩ := hh.flushPopulated (show Q.length ≤ i.max by omega)
  cases hb : i.nnbusy with
  | true =>
    exact ⟨{ i with bufs := q, flushFlag := true }, by simp [Ingress.flush, hq, hb], _, _, _, hh⟩
  | false =>
    exact ⟨{ i with bufs := q', postlater := false, nnlater := false },
      by simp [Ingress.flush, hq, hq', hb, bind, Except.bind], _, _, _, hh'⟩

theorem Whole.fetch (h : i.Whole D) (hb : i.nnbusy = true) (late : Int) :
    ∃ r, i.fetch late = .ok r ∧ r.2.Whole D := by
  obtain ⟨F, B, Q, h⟩ := h
  cases Q with
  | nil =>
    refine ⟨(-EAGAIN, i), ?_, F, B, [], h⟩
    simp [Ingress.fetch, hb, nnAssert, h.popPopulated_nil]
  | cons b Q =>
    obtain ⟨q, hq, hh⟩ := h.popPopulated
    have hw : ((i.handOver b (q.markFree b)).postLate late).Whole D :=
      Whole.postLate ⟨_, _, _, hh.markFree⟩ late
    have hw' : ((i.handOver b (q.markFree b)).postLate late).answered.Whole D := hw.congr rfl rfl
    rw [fetch_eq hb hq]
    split
    · obtain ⟨i', hi', hf⟩ := hw'.flush
      exact ⟨(0, i'), by simp [hi', bind_eq_ok], hf⟩
    · exact ⟨_, rfl, hw'⟩

end Whole

/-- What can be done to the lists: by a handler as a whole, or by halves of a post. -/
inductive Call
  | popFree
  | postBuffer (b : Nat) (ret : Int)
  | post (ret : Int)
  | complete (b : Nat) (bytes : List UInt8) (late : Int)
  | fetch (late : Int)
  | flush

/-- A receiving half with the buffers in the hands of the code, none of them between two
executions of a handler. -/
structure AtWork where
  ingress : Ingress
  hands : List Nat

/-- Calls in any order, beginning with what a SOFI may have come to.  Any busy buffer may
complete, with any bytes. -/
def calls : Machine AtWork Call Fault where
  init w := w.hands = [] ∧ ∃ s, Sofi.machine.Reachable s ∧ w.ingress = s.ingress
  enabled w c :=
    match c with
    | .postBuffer b _ => b ∈ w.hands
    | .complete b _ _ => b ∈ w.ingress.bufs.links.walk w.ingress.max w.ingress.bufs.busy
    | .fetch _ => w.ingress.nnbusy
    | .popFree | .post _ | .flush => true
  step w c :=
    match c with
    | .popFree =>
      match w.ingress.bufs.popFree with
      | none => .ok w
      | some (b, q) => .ok ⟨{ w.ingress with bufs := q }, b :: w.hands⟩
    | .postBuffer b ret => .ok ⟨(w.ingress.postBuffer ret b).2, w.hands.erase b⟩
    | .post ret => .ok ⟨(w.ingress.post ret).2, w.hands⟩
    | .complete b bytes late =>
      .ok ⟨(Sofi.arrive w.ingress b bytes).handle late b bytes.length, w.hands⟩
    | .fetch late => (w.ingress.fetch late).map (fun r => ⟨r.2, w.hands⟩)
    | .flush => w.ingress.flush.map (fun i => ⟨i, w.hands⟩)

section Calls

variable {w w' : AtWork} {c : Call}

theorem Whole.perm_hands {i : Ingress} {D D' : List Nat} (h : i.Whole D) (hD : D'.Perm D) :
    i.Whole D' := by
  obtain ⟨F, B, Q, h⟩ := h
  exact ⟨F, B, Q, h.perm_hands hD⟩

theorem calls_init (h : calls.init w) : w.ingress.Whole w.hands := by
  obtain ⟨hh, s, hs, hi⟩ := h
  obtain ⟨_, F, B, Q, hr⟩ := Sofi.reachable_receiving hs
  obtain ⟨B', ht⟩ := hr.exists_tidy
  rw [hh, hi]
  exact ⟨F, B', Q, ht.lists, by simp⟩

theorem Whole.call (h : w.ingress.Whole w.hands) (he : calls.enabled w c = true) :
    ∃ w', calls.step w c = .ok w' ∧ w'.ingress.Whole w'.hands := by
  cases c with
  | popFree =>
    cases hq : w.ingress.bufs.popFree with
    | none => exact ⟨w, by simp only [calls, hq], h⟩
    | some p =>
      obtain ⟨b, q⟩ := p
      exact ⟨⟨{ w.ingress with bufs := q }, b :: w.hands⟩, by simp only [calls, hq], h.popFree hq⟩
  | postBuffer b ret =>
    have hb : b ∈ w.hands := by simpa [calls] using he
    exact ⟨_, rfl, (h.perm_hands (List.perm_cons_erase hb).symm).postBuffer ret⟩
  | post ret => exact ⟨_, rfl, h.post ret⟩
  | complete b bytes late =>
    have hb : b ∈ w.ingress.bufs.links.walk w.ingress.max w.ingress.bufs.busy := by
      simpa [calls] using he
    have ha : (Sofi.arrive w.ingress b bytes).Whole w.hands := h.congr rfl rfl
    refine ⟨_, rfl, ha.handle ?_ late bytes.length⟩
    intro F B Q hl
    have hl' : w.ingress.bufs.Holds w.ingress.max w.hands F B Q := hl
    have hlen := hl'.length
    rw [hl'.busy, hl'.busyList.walk (by omega)] at hb
    exact hb
  | fetch late =>
    obtain ⟨r, hr, hw⟩ := h.fetch he late
    exact ⟨⟨r.2, w.hands⟩, by simp only [calls, hr]; rfl, hw⟩
  | flush =>
    obtain ⟨i, hi, hw⟩ := h.flush
    exact ⟨⟨i, w.hands⟩, by simp only [calls, hi]; rfl, hw⟩

theorem reachable_whole (h : calls.Reachable w) : w.ingress.Whole w.hands := by
  refine h.invariant (I := fun w => w.ingress.Whole w.hands) (fun w hi => calls_init hi) ?_
  intro w c w' hw he hs
  obtain ⟨w₁, hs₁, hw₁⟩ := hw.call he
  rw [hs₁, Except.ok.injEq] at hs
  exact hs ▸ hw₁

/-- Whatever calls came before, the lists are doubly linked and disjoint, every buffer is on one
of them or in the hands of the code, no call fails, and both loops of the flush come to their
end. -/
theorem lists_formed (h : calls.Reachable w) :
    let q := w.ingress.bufs
    (∃ F B Q, q.Spread w.ingress.max w.hands F B Q ∧
      ∀ l ∈ [F, B, Q], ∀ a ∈ l, ∀ b ∈ l, (q.links.next a = some b ↔ q.links.prev b = some a)) ∧
    (q.popHead = none ↔ q.popTail = none) ∧
    (∀ c, calls.enabled w c = true → ∃ w', calls.step w c = .ok w') ∧
    ∃ q₁ q₂, q.flushBusy w.ingress.max = .ok q₁ ∧ q₁.flushPopulated w.ingress.max = .ok q₂ := by
  intro q
  have hw := reachable_whole h
  obtain ⟨F, B, Q, hs⟩ := hw
  have hl := hs.length
  obtain ⟨q₁, hq₁, h₁⟩ := hs.flushBusy (show B.length ≤ w.ingress.max by omega)
  obtain ⟨q₂, hq₂, _⟩ := h₁.flushPopulated (show Q.length ≤ w.ingress.max by omega)
  refine ⟨⟨F, B, Q, hs, ?_⟩, ?_, ?_, q₁, q₂, hq₁, hq₂⟩
  · simp only [List.forall_mem_cons, List.not_mem_nil, false_imp_iff, implies_true, and_true]
    exact ⟨fun a ha b hb => hs.freeList.next_iff_prev ha hb,
      fun a ha b hb => hs.busyList.next_iff_prev ha hb,
      fun a ha b hb => hs.popList.next_iff_prev ha hb⟩
  · rw [hs.popHead, hs.popTail, List.head?_eq_none_iff, List.getLast?_eq_none_iff]
  · intro c hc
    obtain ⟨w', hs', _⟩ := Whole.call ⟨F, B, Q, hs⟩ hc
    exact ⟨w', hs'⟩

theorem lists_formed_fresh : ∃ w, calls.Reachable w ∧ w.hands = [3] ∧
    w.ingress.bufs.popHead = some 1 ∧
    ∃ q₁ q₂, w.ingress.bufs.flushBusy w.ingress.max = .ok q₁ ∧
      q₁.flushPopulated w.ingress.max = .ok q₂ := by
  obtain ⟨w, hr, hc⟩ := Machine.exists_reachable
    [.post 0, .post 0, .post 0, .complete 1 [7] 0, .popFree]
    (fun w => w.hands = [3] ∧ w.ingress.bufs.popHead = some 1)
    (show calls.init ⟨Sofi.fresh.ingress, []⟩ from ⟨rfl, _, ⟨[], .init Sofi.fresh_init⟩, rfl⟩)
    (by decide)
  obtain ⟨h₁, h₂⟩ := of_decide_eq_true hc
  exact ⟨w, hr, h₁, h₂, (lists_formed hr).2.2.2⟩

end Calls

end Ingress

end OfiTransport
