import OfiTransport.Sofi.Managed
import OfiTransport.Sofi.Resources
import OfiTransport.Sofi.Order

/-! The operations on the egress contexts succeed as long as there are two contexts, and the
books they keep, on credit and on handles of the memory region manager, agree with the ring. -/

namespace OfiTransport

open Lib

namespace Egress

variable {e e' : Egress} {fl bl b₁ b₂ : List Nat} {c : Nat} {m : Msg} {p : Post}

section Total

theorem Holds.release_total (h : e.Holds fl (b₁ ++ c :: b₂)) (hne : fl ++ (b₁ ++ b₂) ≠ []) :
    ∃ e', (e.freeContext c).markFree c = .ok e' := by
  have hring := h.ring
  rw [← List.append_assoc] at hring
  obtain ⟨r, hr, _⟩ := release_ring hring (by rwa [List.append_assoc])
  exact ⟨_, hr⟩

theorem Holds.handle_total (h : e.Holds fl (b₁ ++ c :: b₂)) (hne : fl ++ (b₁ ++ b₂) ≠ []) :
    ∃ n e', e.handle c = .ok (n, e') := by
  obtain ⟨e', he⟩ := h.release_total hne
  exact ⟨_, _, by simp only [Egress.handle, he, bind, Except.bind]; rfl⟩

theorem describe_handle {a : Nat → Mr.Answers} {mrm : Mr.Manager} {iov : List Region}
    (h : (Mr.describe a mrm iov).ret = 0) : ((Mr.describe a mrm iov).handle).isSome = true := by
  simp only [Mr.describe] at h ⊢
  split at h
  · simp [E2BIG] at h
  · next hl =>
    rw [if_neg hl]
    split at h
    · next hr => exact absurd h hr
    · next hr =>
      rw [if_neg hr]
      rfl

theorem Holds.postBuffers_total (h : e.Holds fl bl) (hne : fl ++ bl ≠ []) (p : Post) (m : Msg) :
    ∃ ret e', e.postBuffers p m = .ok (ret, e') := by
  cases fl with
  | nil =>
    obtain ⟨c, bl, rfl⟩ := List.exists_cons_of_ne_nil (l := bl) (by simpa using hne)
    have hc := (h.busy c).2 (by simp)
    have hg : e.getContext = .ok none := by simp [Egress.getContext, h.ring.head, hc]
    exact ⟨-EAGAIN, e, by simp [Egress.postBuffers, hg, bind, Except.bind, pure, Except.pure]⟩
  | cons c fl =>
    obtain ⟨r, hr, _⟩ := Ring.Holds.toTail (l := fl ++ bl) h.ring
    have hhead : e.ring.head = some c := h.ring.head
    simp only [Egress.postBuffers, h.getContext_free, bind, Except.bind]
    split
    · exact ⟨_, _, rfl⟩
    · next hret =>
      split
      · exact ⟨_, _, rfl⟩
      · have hs : (Mr.describe p.answers (e.setMsg c m).mrm (iovs m)).handle.isSome = true :=
          describe_handle (by simpa using hret)
        simp [Egress.markBusy, nnAssert, setMrHandle, setMsg, hhead, hr, bind, Except.bind, pure,
          Except.pure] at hs ⊢
        simp [hs]

theorem Holds.flush_total (h : e.Holds fl bl) (hs : e.stageoutCounter + bl.length < 2 ^ 32) :
    ∃ e', e.flush = .ok e' := by
  cases fl with
  | nil =>
    obtain ⟨e', he, _⟩ := h.flush_all hs
    exact ⟨e', he⟩
  | cons c fl => exact ⟨e, h.flush_free⟩

end Total

section Kept

structure Kept (e : Egress) (fl bl : List Nat) : Prop where
  size : 2 ≤ fl.length + bl.length
  credit : e.stageoutCounter + bl.length ≤ e.max
  carries : Mr.Carries e.mrm (bl.filterMap e.mrHandle)

theorem Kept.congr (h : e.Kept fl bl) (hc : e'.stageoutCounter = e.stageoutCounter)
    (hx : e'.max = e.max) (hm : e'.mrm = e.mrm) (hh : e'.mrHandle = e.mrHandle) :
    e'.Kept fl bl := by
  refine ⟨h.size, ?_, ?_⟩
  · rw [hc, hx]
    exact h.credit
  · rw [hm, hh]
    exact h.carries

theorem Holds.refused_carries {ret : Int} (hh : e.Holds fl bl)
    (h : Mr.Carries e.mrm (bl.filterMap e.mrHandle)) (hp : e.postBuffers p m = .ok (ret, e'))
    (hr : ret ≠ 0) : Mr.Carries e'.mrm (bl.filterMap e'.mrHandle) := by
  cases postBuffers_cases hp with
  | noContext _ _ he => exact he ▸ h
  | posted _ hret => exact absurd hret hr
  | @refused c hg _ _ he =>
    subst he
    obtain ⟨fl', rfl⟩ := hh.getContext_some hg
    have hc := hh.not_mem_of_free
    have hb : bl.filterMap ((e.described p m c).freeContext c).mrHandle =
        bl.filterMap e.mrHandle := by
      refine List.filterMap_congr fun d hd => ?_
      have hdc : d ≠ c := by
        rintro rfl
        exact hc hd
      simp [described, setMrHandle, setMsg, hdc]
    have hd := Mr.describe_carries h p.answers (iovs m)
    rw [hb]
    -- the context goes back with its handle, if it was given one
    simp only [freeContext, described, setMsg, setMrHandle, Function.update_self]
    cases hx : (Mr.describe p.answers e.mrm (iovs m)).handle with
    | none =>
      rw [hx] at hd
      exact hd
    | some x =>
      rw [hx] at hd
      exact hd.release

theorem Holds.flushFrom_carries {done todo : List Nat} {fuel : Nat} (h : e.Holds done todo)
    (hc : Mr.Carries e.mrm (todo.filterMap e.mrHandle)) (hf : todo.length ≤ fuel)
    (he : Egress.flushFrom fuel todo.head? e = .ok e') : Mr.Carries e'.mrm [] := by
  induction todo generalizing done fuel e with
  | nil =>
    cases fuel <;>
    · cases he
      exact hc
  | cons c todo ih =>
    obtain ⟨fuel, rfl⟩ : ∃ k, fuel = k + 1 := ⟨fuel - 1, by simp at hf; omega⟩
    have h₁ : e.atomicInc.2.Holds done ([] ++ c :: todo) := h.congr rfl rfl rfl
    obtain ⟨_, hn⟩ := h.ring.list.pointers
    have h' : (e.atomicInc.2.freeContext c).Holds (done ++ [c]) todo := by
      obtain ⟨_, hc₂⟩ := h₁.not_mem_of_busy
      refine ⟨?_, ?_, ?_⟩
      · simpa [atomicInc] using h.ring
      · intro d
        by_cases hdc : d = c
        · subst hdc
          simpa using hc₂
        · simp [atomicInc, hdc, h.busy]
      · simpa [atomicInc] using h.bound
    simp only [List.length_cons] at hf
    refine ih h' (h₁.freed_carries hc) (show todo.length ≤ fuel by omega) ?_
    simp only [List.head?_cons, Egress.flushFrom, (h.busy c).2 (by simp), if_true,
      freeContext_ring] at he
    rw [show e.atomicInc.2.ring = e.ring from rfl, hn] at he
    exact he

theorem Kept.posted (h : e.Kept (c :: fl) bl) (hh : e.Holds (c :: fl) bl)
    (hp : e.postBuffers p m = .ok (0, e')) (hcr : e.stageoutCounter + bl.length = e.max)
    (hs : e'.stageoutCounter = e.stageoutCounter) (hx : e'.max = e.max) :
    e'.atomicDec.2.Kept fl (bl ++ [c]) := by
  have hsize := h.size
  have hlen := hh.length_le
  simp only [List.length_cons] at hsize hlen
  refine ⟨?_, ?_, ?_⟩
  · rw [List.length_append, List.length_singleton]
    omega
  · rw [atomicDec_counter (by omega), atomicDec_max, List.length_append, List.length_singleton]
    omega
  · show Mr.Carries e'.mrm ((bl ++ [c]).filterMap e'.mrHandle)
    exact hh.posted_carries h.carries hp

theorem Kept.refused {ret : Int} (h : e.Kept fl bl) (hh : e.Holds fl bl)
    (hp : e.postBuffers p m = .ok (ret, e')) (hr : ret ≠ 0) (hb : SameBooks e e') :
    e'.Kept fl bl := by
  refine ⟨h.size, ?_, hh.refused_carries h.carries hp hr⟩
  rw [hb.counter, hb.max]
  exact h.credit

theorem Kept.freed (h : e.Kept fl (b₁ ++ c :: b₂)) (hh : e.Holds fl (b₁ ++ c :: b₂))
    (hm : e'.mrm = (e.freeContext c).mrm) (hd : e'.mrHandle = (e.freeContext c).mrHandle)
    (hc : e'.stageoutCounter ≤ e.stageoutCounter + 1) (hx : e'.max = e.max) :
    e'.Kept (c :: fl) (b₁ ++ b₂) := by
  have hsize := h.size
  have hcredit := h.credit
  simp only [List.length_append, List.length_cons] at hsize hcredit
  refine ⟨?_, ?_, ?_⟩
  · simp only [List.length_append, List.length_cons]
    omega
  · rw [hx, List.length_append]
    omega
  · rw [hm, hd]
    exact hh.freed_carries h.carries

theorem Kept.handled {n : Bool} (h : e.Kept fl (b₁ ++ c :: b₂)) (hh : e.Holds fl (b₁ ++ c :: b₂))
    (hc : e.handle c = .ok (n, e')) : e'.Kept (c :: fl) (b₁ ++ b₂) := by
  obtain ⟨hm, hd, hx⟩ := handle_handle hc
  refine h.freed hh hm hd ?_ hx
  rw [(hh.handle hc).2.1]
  exact Nat.mod_le ..

theorem Kept.errored (h : e.Kept fl (b₁ ++ c :: b₂)) (hh : e.Holds fl (b₁ ++ c :: b₂))
    (hc : e.handleError c = .ok e') : e'.Kept (c :: fl) (b₁ ++ b₂) := by
  obtain ⟨r, he⟩ := handleError_inv hc
  obtain ⟨_, hb⟩ := hh.release hc
  refine h.freed hh (by rw [he]) (by rw [he]) ?_ hb.max
  rw [hb.counter]
  omega

theorem Kept.flushed (h : e.Kept fl bl) (hh : e.Holds fl bl) (hs : e.max < 2 ^ 31)
    (hf : e.flush = .ok e') : ∃ fl' bl', e'.Holds fl' bl' ∧ e'.Kept fl' bl' := by
  have hcredit := h.credit
  have hsize := h.size
  cases fl with
  | nil =>
    obtain ⟨e₁, he, hh', hc, hx, _⟩ := hh.flush_all (by omega)
    rw [he] at hf
    cases hf
    have hl := hh.length_le
    refine ⟨bl, [], hh', by simpa using hsize, ?_, ?_⟩
    · rw [hc, hx, List.length_nil]
      omega
    · rw [flush, hh.ring.head] at he
      simp only [List.length_nil] at hl
      exact hh.flushFrom_carries h.carries (by omega) he
  | cons c fl =>
    rw [hh.flush_free] at hf
    cases hf
    exact ⟨c :: fl, bl, hh, h⟩

end Kept

end Egress

namespace Sofi

variable {s s' s₁ : Sofi} {e : Event} {fl bl : List Nat}

def Bookkept (s : Sofi) : Prop := ∃ fl bl, s.egress.Holds fl bl ∧ s.egress.Kept fl bl

theorem Bookkept.kept (h : Bookkept s) (hh : s.egress.Holds fl bl) : s.egress.Kept fl bl := by
  obtain ⟨fl', bl', hh', hk⟩ := h
  obtain ⟨rfl, rfl⟩ := hh.unique hh'
  exact hk

theorem Bookkept.same (h : Bookkept s) (ho : ∃ w, s'.egress = { s.egress with wire := w }) :
    Bookkept s' := by
  obtain ⟨w, ho⟩ := ho
  obtain ⟨fl, bl, hh, hk⟩ := h
  exact ⟨fl, bl, hh.congr (by rw [ho]) (by rw [ho]) (by rw [ho]),
    hk.congr (by rw [ho]) (by rw [ho]) (by rw [ho]) (by rw [ho])⟩

theorem Closes.bookkept (h : Closes s₁ s') (hs : s₁.egress.max < 2 ^ 31) (hk : Bookkept s₁) :
    Bookkept s' := by
  rcases h.egress with ⟨_, heq⟩ | ⟨_, hf⟩
  · exact hk.same ⟨s₁.egress.wire, heq⟩
  · obtain ⟨fl, bl, hh, hk⟩ := hk
    exact hk.flushed hh hs hf

theorem Bookkept.posted {p : Post} {m : Msg} {eg : Egress} (h : Bookkept s) (hs : Sending s fl bl)
    (hst : s.state ≠ .closing) (hp : s.egress.postBuffers p m = .ok (0, eg))
    (ho : s'.egress = eg.atomicDec.2) : Bookkept s' := by
  rcases hs.holds.postBuffers hp with ⟨hr, _⟩ | ⟨c, fl', rfl, _, hh, hb⟩
  · exact absurd rfl hr
  · have hk := (h.kept hs.holds).posted hs.holds hp (hs.credit hst) hb.counter hb.max
    exact ⟨fl', bl ++ [c], ho ▸ hh.congr rfl rfl rfl, ho ▸ hk⟩

theorem Bookkept.refused {p : Post} {m : Msg} {ret : Int} (h : Bookkept s)
    (hs : Sending s fl bl) (hp : s.egress.postBuffers p m = .ok (ret, s₁.egress)) (hr : ret ≠ 0) :
    Bookkept s₁ ∧ s₁.egress.max < 2 ^ 31 := by
  rcases hs.holds.postBuffers hp with ⟨_, hh, hb⟩ | ⟨_, _, _, h', _⟩
  · refine ⟨⟨fl, bl, hh, (h.kept hs.holds).refused hs.holds hp hr hb⟩, ?_⟩
    rw [hb.max]
    exact hs.small
  · exact absurd h' hr

theorem Bookkept.removeTx (h : Bookkept s) (c : Nat) : Bookkept (s.removeTx c) := by
  obtain ⟨fl, bl, hh, hk⟩ := h
  exact ⟨fl, bl, holds_removeTx hh, hk.congr rfl rfl rfl rfl⟩

theorem Bookkept.completed {c : Nat} {n : Bool} (h : Bookkept s) (hs : Sending s fl bl)
    (hc : c ∈ s.egress.txOut) (he : s.fsm = .active ∨ s.error = 0)
    (hh : (s.removeTx c).egress.handle c = .ok (n, s'.egress)) : Bookkept s' := by
  obtain ⟨b₁, b₂, rfl, _⟩ := hs.mem_of_txOut hc he
  have hold := holds_removeTx (c := c) hs.holds
  exact ⟨_, _, (hold.handle hh).1, ((h.removeTx c).kept hold).handled hold hh⟩

theorem Bookkept.errored {c : Nat} (h : Bookkept s) (hs : Sending s fl bl)
    (hc : c ∈ s.egress.txOut) (he : s.fsm = .active ∨ s.error = 0)
    (hh : (s.removeTx c).egress.handleError c = .ok s₁.egress) :
    Bookkept s₁ ∧ s₁.egress.max < 2 ^ 31 := by
  obtain ⟨b₁, b₂, rfl, _⟩ := hs.mem_of_txOut hc he
  have hold := holds_removeTx (c := c) hs.holds
  obtain ⟨hh', hb⟩ := Egress.Holds.release hold hh
  refine ⟨⟨_, _, hh', ((h.removeTx c).kept hold).errored hold hh⟩, ?_⟩
  rw [hb.max]
  exact hs.small

theorem Moves.bookkept (h : Moves s e s') (hen : s.enabled e = true)
    (hs : Sending s fl bl) (hk : Bookkept s) : Bookkept s' := by
  have same : ∀ {s₁ : Sofi}, s₁.egress = s.egress → Bookkept s₁ ∧ s₁.egress.max < 2 ^ 31 :=
    fun ho => ⟨hk.same ⟨_, ho⟩, ho ▸ hs.small⟩
  cases h with
  | stay _ _ _ ho => exact hk.same ho
  | close hc _ _ _ _ ho | rxFailed hc _ _ _ ho =>
    obtain ⟨hk₁, hsm⟩ := same ho
    exact hc.bookkept hsm hk₁
  | sent _ hst _ _ hpb ho => exact hk.posted hs hst hpb ho
  | sendFailed hc _ _ _ hr hpb _ ho =>
    subst ho
    obtain ⟨hk₁, hsm⟩ := hk.refused hs hpb hr
    exact hc.bookkept hsm hk₁
  | connected hst _ _ _ _ _ _ _ ho =>
    rcases ho with ⟨_, ho⟩ | ⟨eg, hpb, ho⟩
    · exact (same ho).1
    · exact hk.posted hs (by simp [hst]) hpb ho
  | connectFailed hc _ _ _ ho =>
    rcases ho with ⟨ho, _⟩ | ⟨_, ret, eg, hpb, hr, ho, _⟩
    · obtain ⟨hk₁, hsm⟩ := same ho
      exact hc.bookkept hsm hk₁
    · subst ho
      obtain ⟨hk₁, hsm⟩ := hk.refused hs hpb hr
      exact hc.bookkept hsm hk₁
  | txCompleted he _ _ hh =>
    simp only [enabled, decide_eq_true_eq] at hen
    exact hk.completed hs hen.2 he hh
  | txFailed hc _ hf _ hh =>
    simp only [enabled, decide_eq_true_eq] at hen
    obtain ⟨hk₁, hsm⟩ := hk.errored hs hen.2 (.inl hf) hh
    exact hc.bookkept hsm hk₁
  | txErrored _ he _ _ hh =>
    simp only [enabled, decide_eq_true_eq] at hen
    exact (hk.errored hs hen.2 (.inr he) hh).1
  | txDiscarded _ _ _ _ _ ho => exact (hk.removeTx _).same ⟨_, ho⟩
  | rxCompleted _ _ ho | rxDrained _ _ ho | rxErrored _ _ ho | fetched _ ho | freed _ ho =>
    exact hk.same ⟨_, ho⟩

end Sofi

end OfiTransport
