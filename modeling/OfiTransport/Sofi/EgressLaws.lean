import OfiTransport.Sofi.Egress
import Mathlib.Data.List.Perm.Basic

/-! What the operations on the egress contexts do to the ring, seen as a list of free
contexts followed by a list of contexts in flight. -/

namespace OfiTransport.Egress

open Lib

structure Holds (e : Egress) (fl bl : List Nat) : Prop where
  ring : e.ring.Holds (fl ++ bl)
  busy : ∀ c, (e.mrHandle c).isSome = true ↔ c ∈ bl
  bound : ∀ c ∈ fl ++ bl, c < e.max

def inFlight (e : Egress) : Nat := (List.range e.max).countP (fun c => (e.mrHandle c).isSome)

structure SameBooks (e e' : Egress) : Prop where
  counter : e'.stageoutCounter = e.stageoutCounter
  max : e'.max = e.max
  txOut : e'.txOut = e.txOut

section Basics

variable {e e' : Egress} {c : Nat}

@[simp] theorem freeContext_ring (e : Egress) (c : Nat) : (e.freeContext c).ring = e.ring := by
  simp only [freeContext]
  split <;> rfl

@[simp] theorem freeContext_counter (e : Egress) (c : Nat) :
    (e.freeContext c).stageoutCounter = e.stageoutCounter := by
  simp only [freeContext]
  split <;> rfl

@[simp] theorem freeContext_max (e : Egress) (c : Nat) : (e.freeContext c).max = e.max := by
  simp only [freeContext]
  split <;> rfl

@[simp] theorem freeContext_txOut (e : Egress) (c : Nat) :
    (e.freeContext c).txOut = e.txOut := by
  simp only [freeContext]
  split <;> rfl

@[simp] theorem freeContext_mrHandle (e : Egress) (c d : Nat) :
    (e.freeContext c).mrHandle d = if d = c then none else e.mrHandle d := by
  simp only [freeContext, setMsg]
  split
  · next h =>
    by_cases hd : d = c
    · simp [hd, h]
    · simp [hd]
  · simp [setMrHandle, Function.update_apply]

theorem Holds.handle_none {fl bl : List Nat} (h : e.Holds fl bl) (hc : c ∉ bl) :
    e.mrHandle c = none := by
  rw [← h.busy c] at hc
  simpa using hc

theorem Holds.inFlight_eq {fl bl : List Nat} (h : e.Holds fl bl) : e.inFlight = bl.length := by
  have hp : ((List.range e.max).filter (fun c => (e.mrHandle c).isSome)).Perm bl := by
    rw [List.perm_ext_iff_of_nodup (List.nodup_range.filter _)
      (List.nodup_append.1 h.ring.list.nodup).2.1]
    intro c
    rw [List.mem_filter, h.busy, List.mem_range]
    constructor
    · exact And.right
    · intro hc
      exact ⟨h.bound c (by simp [hc]), hc⟩
  rw [inFlight, List.countP_eq_length_filter]
  exact hp.length_eq

theorem Holds.unique {fl bl fl' bl' : List Nat} (h : e.Holds fl bl) (h' : e.Holds fl' bl') :
    fl = fl' ∧ bl = bl' := by
  refine List.append_inj' (h.ring.unique h'.ring) ?_
  rw [← h.inFlight_eq, ← h'.inFlight_eq]

theorem Holds.congr {fl bl : List Nat} (h : e.Holds fl bl) (hr : e'.ring = e.ring)
    (hm : e'.mrHandle = e.mrHandle) (hx : e'.max = e.max) : e'.Holds fl bl :=
  ⟨hr ▸ h.ring, hm ▸ h.busy, hx ▸ h.bound⟩

end Basics

def described (e : Egress) (p : Post) (m : Msg) (c : Nat) : Egress :=
  { e.setMsg c m with mrm := (Mr.describe p.answers e.mrm (iovs m)).mgr }.setMrHandle c
    (Mr.describe p.answers e.mrm (iovs m)).handle

inductive Posts (e : Egress) (p : Post) (m : Msg) (ret : Int) (e' : Egress) : Prop
  | noContext (hg : e.getContext = .ok none) (hret : ret = -EAGAIN) (he : e' = e)
  | refused {c : Nat} (hg : e.getContext = .ok (some c)) (hret : ret ≠ 0)
      (hr : ret = (Mr.describe p.answers e.mrm (iovs m)).ret ∨ ret = p.sendmsg)
      (he : e' = (e.described p m c).freeContext c)
  | posted {c : Nat} (hg : e.getContext = .ok (some c)) (hret : ret = 0)
      (hd : (Mr.describe p.answers e.mrm (iovs m)).ret = 0)
      (hb : { e.described p m c with
        txOut := c :: e.txOut
        wire := (Mr.describe p.answers e.mrm (iovs m)).mgr.domain.mem.gather
          (Mr.describe p.answers e.mrm (iovs m)).iov :: e.wire }.markBusy c = .ok e')

section Operations

variable {e e' : Egress} {fl bl : List Nat} {c : Nat}

theorem postBuffers_cases {p : Post} {m : Msg} {ret : Int}
    (h : e.postBuffers p m = .ok (ret, e')) : Posts e p m ret e' := by
  simp only [postBuffers, bind_eq_ok] at h
  obtain ⟨o, hg, h⟩ := h
  cases o with
  | none =>
    simp only [pure_eq_ok, Prod.mk.injEq] at h
    exact .noContext hg h.1.symm h.2.symm
  | some c =>
    simp only at h
    split at h
    · next hr =>
      simp only [pure_eq_ok, Prod.mk.injEq] at h
      obtain ⟨rfl, rfl⟩ := h
      exact .refused hg hr (.inl rfl) rfl
    · next hr =>
      split at h
      · next hs =>
        simp only [pure_eq_ok, Prod.mk.injEq] at h
        obtain ⟨rfl, rfl⟩ := h
        exact .refused hg hs (.inr rfl) rfl
      · simp only [bind_eq_ok, pure_eq_ok, Prod.mk.injEq] at h
        obtain ⟨e₁, hb, rfl, rfl⟩ := h
        exact .posted hg rfl (not_not.1 hr) hb

theorem markBusy_inv (h : e.markBusy c = .ok e') : ∃ r, e' = { e with ring := r } := by
  simp only [markBusy, bind_eq_ok, pure_eq_ok] at h
  obtain ⟨_, _, _, _, r, _, rfl⟩ := h
  exact ⟨r, rfl⟩

theorem Holds.not_mem_of_free (h : e.Holds (c :: fl) bl) : c ∉ bl := by
  have hd := h.ring.list.nodup
  rw [List.cons_append, List.nodup_cons, List.mem_append] at hd
  exact fun hm => hd.1 (.inr hm)

theorem Holds.not_mem_of_busy {b₁ b₂ : List Nat} (h : e.Holds fl (b₁ ++ c :: b₂)) :
    c ∉ b₁ ∧ c ∉ b₂ := by
  have hd := h.ring.list.nodup
  simp only [List.nodup_append, List.nodup_cons] at hd
  exact ⟨fun hm => hd.2.1.2.2 c hm c (by simp) rfl, hd.2.1.2.1.1⟩

theorem handleError_inv (h : e.handleError c = .ok e') :
    ∃ r, e' = { e.freeContext c with ring := r } := by
  simp only [handleError, markFree, bind_eq_ok, pure_eq_ok] at h
  obtain ⟨_, _, r, _, rfl⟩ := h
  exact ⟨r, rfl⟩

theorem handle_inv {n : Bool} (h : e.handle c = .ok (n, e')) :
    n = decide (e.stageoutCounter = 0) ∧
      ∃ r k, e' = { e.freeContext c with ring := r, stageoutCounter := k } := by
  simp only [Egress.handle, bind_eq_ok, pure_eq_ok, Prod.mk.injEq] at h
  obtain ⟨e₁, hf, rfl, rfl⟩ := h
  obtain ⟨r, rfl⟩ := handleError_inv hf
  exact ⟨by simp [atomicInc], r, _, rfl⟩

theorem Holds.getContext (h : e.Holds fl bl) (hg : e.getContext = .ok o) :
    (∃ c fl', o = some c ∧ fl = c :: fl') ∨ (o = none ∧ fl = [] ∧ bl ≠ []) := by
  simp only [Egress.getContext, h.ring.head] at hg
  cases fl with
  | nil =>
    cases bl with
    | nil => cases hg
    | cons c bl =>
      have hc := (h.busy c).2 (by simp)
      simp only [List.nil_append, List.head?_cons, hc, if_true, Except.ok.injEq] at hg
      exact .inr ⟨hg.symm, rfl, by simp⟩
  | cons c fl =>
    simp only [List.cons_append, List.head?_cons, h.handle_none h.not_mem_of_free,
      Option.isSome_none, Bool.false_eq_true, if_false, Except.ok.injEq] at hg
    exact .inl ⟨c, fl, hg.symm, rfl⟩

theorem Holds.getContext_some (h : e.Holds fl bl) (hg : e.getContext = .ok (some c)) :
    ∃ fl', fl = c :: fl' := by
  rcases h.getContext hg with ⟨c', fl', hc, rfl⟩ | ⟨hc, _⟩
  · cases hc
    exact ⟨fl', rfl⟩
  · cases hc

theorem release_ring {l₁ l₂ : List Nat} (h : e.ring.Holds (l₁ ++ c :: l₂)) (hne : l₁ ++ l₂ ≠ []) :
    ∃ r, (e.freeContext c).markFree c = .ok { e.freeContext c with ring := r } ∧
      r.Holds (c :: (l₁ ++ l₂)) := by
  obtain ⟨r, hr, hh⟩ := h.toHead hne
  refine ⟨r, ?_, hh⟩
  simp [markFree, nnAssert, hr, bind, Except.bind, pure, Except.pure]

theorem Holds.release {b₁ b₂ : List Nat} (h : e.Holds fl (b₁ ++ c :: b₂))
    (hm : (e.freeContext c).markFree c = .ok e') :
    e'.Holds (c :: fl) (b₁ ++ b₂) ∧ SameBooks e e' := by
  simp only [markFree, bind_eq_ok, nnAssert_eq_ok, pure_eq_ok, freeContext_ring] at hm
  obtain ⟨_, _, r, hr, rfl⟩ := hm
  have hring := h.ring
  rw [← List.append_assoc] at hring
  have hd := h.ring.list.nodup
  simp only [List.nodup_append, List.nodup_cons, List.mem_append, List.mem_cons] at hd
  refine ⟨⟨?_, ?_, ?_⟩, ⟨by simp, by simp, by simp⟩⟩
  · have hr' := hring.of_toHead hr
    rwa [List.append_assoc] at hr'
  · intro d
    simp only [freeContext_mrHandle]
    by_cases hdc : d = c
    · subst hdc
      simp only [if_true, Option.isSome_none, Bool.false_eq_true, List.mem_append, false_iff]
      grind
    · rw [if_neg hdc, h.busy]
      simp [hdc]
  · intro d hm
    rw [freeContext_max]
    apply h.bound
    simp only [List.cons_append, List.mem_cons, List.mem_append] at hm ⊢
    grind

theorem Holds.markBusy (h : e.Holds (c :: fl) bl) {x : Option Mr.Context}
    (hm : (e.setMrHandle c x).markBusy c = .ok e') :
    e'.Holds fl (bl ++ [c]) ∧ SameBooks e e' := by
  simp only [Egress.markBusy, bind_eq_ok, nnAssert_eq_ok, pure_eq_ok] at hm
  obtain ⟨_, _, _, hx, r, hr, rfl⟩ := hm
  obtain ⟨r', hr', hh⟩ := Ring.Holds.toTail (l := fl ++ bl) h.ring
  have hrr : r = r' := by
    rw [show (e.setMrHandle c x).ring = e.ring from rfl, hr'] at hr
    exact (Except.ok.inj hr).symm
  refine ⟨⟨?_, ?_, ?_⟩, ⟨rfl, rfl, rfl⟩⟩
  · rw [← List.append_assoc]
    exact hrr ▸ hh
  · intro d
    by_cases hdc : d = c
    · subst hdc
      simpa using hx
    · simp [setMrHandle, hdc, h.busy]
  · intro d hd
    apply h.bound
    simp only [List.cons_append, List.mem_cons, List.mem_append, List.not_mem_nil] at hd ⊢
    grind

theorem Holds.putBack (h : e.Holds (c :: fl) bl) (x : Option Mr.Context) :
    ((e.setMrHandle c x).freeContext c).Holds (c :: fl) bl ∧
      SameBooks e ((e.setMrHandle c x).freeContext c) := by
  refine ⟨⟨?_, ?_, ?_⟩, ⟨by simp [setMrHandle], by simp [setMrHandle], by simp [setMrHandle]⟩⟩
  · simpa [setMrHandle] using h.ring
  · intro d
    by_cases hdc : d = c
    · subst hdc
      simp only [freeContext_mrHandle, if_true, Option.isSome_none, Bool.false_eq_true, false_iff]
      exact h.not_mem_of_free
    · simp [setMrHandle, hdc, h.busy]
  · simpa [setMrHandle] using h.bound

theorem Holds.postBuffers {p : Post} {m : Msg} {ret : Int} (h : e.Holds fl bl)
    (hp : e.postBuffers p m = .ok (ret, e')) :
    (ret ≠ 0 ∧ e'.Holds fl bl ∧ SameBooks e e') ∨
      ∃ c fl', fl = c :: fl' ∧ ret = 0 ∧ e'.Holds fl' (bl ++ [c]) ∧
        SameBooks { e with txOut := c :: e.txOut } e' := by
  cases postBuffers_cases hp with
  | noContext hg hret he =>
    subst he
    exact .inl ⟨by simp [hret, EAGAIN], h, rfl, rfl, rfl⟩
  | @refused c hg hret hr he =>
    obtain ⟨fl', rfl⟩ := h.getContext_some hg
    have h₁ : Holds { e.setMsg c m with mrm := (Mr.describe p.answers e.mrm (iovs m)).mgr }
        (c :: fl') bl := h.congr rfl rfl rfl
    obtain ⟨hb, hs⟩ := h₁.putBack (Mr.describe p.answers e.mrm (iovs m)).handle
    subst he
    exact .inl ⟨hret, hb, hs.counter, hs.max, hs.txOut⟩
  | @posted c hg hret hd hb =>
    obtain ⟨fl', rfl⟩ := h.getContext_some hg
    obtain ⟨hh, hs⟩ := Holds.markBusy (e := { e.setMsg c m with
      mrm := (Mr.describe p.answers e.mrm (iovs m)).mgr
      txOut := c :: e.txOut
      wire := _ }) (h.congr rfl rfl rfl) hb
    exact .inr ⟨c, fl', rfl, hret, hh, hs.counter, hs.max, hs.txOut⟩

theorem Holds.flush_free (h : e.Holds (c :: fl) bl) : e.flush = .ok e := by
  have hn := h.handle_none h.not_mem_of_free
  have hm := h.bound c (by simp)
  obtain ⟨k, hk⟩ : ∃ k, e.max = k + 1 := ⟨e.max - 1, by omega⟩
  simp [flush, hk, h.ring.head, flushFrom, hn]

theorem Holds.flushFrom {done todo : List Nat} {fuel : Nat} (h : e.Holds done todo)
    (hf : todo.length ≤ fuel) (hs : e.stageoutCounter + todo.length < 2 ^ 32) :
    ∃ e', flushFrom fuel todo.head? e = .ok e' ∧ e'.Holds (done ++ todo) [] ∧
      e'.stageoutCounter = e.stageoutCounter + todo.length ∧ e'.max = e.max ∧
      e'.txOut = e.txOut := by
  induction todo generalizing done fuel e with
  | nil =>
    refine ⟨e, by cases fuel <;> rfl, ?_, rfl, rfl, rfl⟩
    simpa using h
  | cons c todo ih =>
    obtain ⟨fuel, rfl⟩ : ∃ k, fuel = k + 1 := ⟨fuel - 1, by simp at hf; omega⟩
    obtain ⟨_, hn⟩ := h.ring.list.pointers
    have hd := h.ring.list.nodup
    simp only [List.nodup_append, List.nodup_cons] at hd
    have h' : (e.atomicInc.2.freeContext c).Holds (done ++ [c]) todo := by
      refine ⟨?_, ?_, ?_⟩
      · simpa [atomicInc] using h.ring
      · intro d
        by_cases hdc : d = c
        · subst hdc
          simpa using hd.2.1.1
        · simp [atomicInc, hdc, h.busy]
      · simpa [atomicInc] using h.bound
    simp only [List.length_cons] at hf hs
    have hc : (e.atomicInc.2.freeContext c).stageoutCounter = e.stageoutCounter + 1 := by
      simp only [freeContext_counter, atomicInc]
      omega
    obtain ⟨e', he', hh, hcnt, hmax, htx⟩ := ih h'
      (show todo.length ≤ fuel by omega) (by omega)
    refine ⟨e', ?_, ?_, ?_, ?_, ?_⟩
    · simp only [List.head?_cons, Egress.flushFrom, (h.busy c).2 (by simp), if_true,
        freeContext_ring]
      rw [show e.atomicInc.2.ring = e.ring from rfl, hn]
      exact he'
    · simpa using hh
    · rw [hcnt, hc, List.length_cons]
      omega
    · rw [hmax, freeContext_max]
      rfl
    · rw [htx, freeContext_txOut]
      rfl

theorem Holds.flush_all (h : e.Holds [] bl) (hs : e.stageoutCounter + bl.length < 2 ^ 32) :
    ∃ e', e.flush = .ok e' ∧ e'.Holds bl [] ∧
      e'.stageoutCounter = e.stageoutCounter + bl.length ∧ e'.max = e.max ∧
      e'.txOut = e.txOut := by
  have hl : bl.length ≤ e.max := by
    rw [← h.inFlight_eq]
    exact Nat.le_trans List.countP_le_length (by simp)
  rw [flush, h.ring.head]
  exact h.flushFrom hl hs

theorem Holds.handle {b₁ b₂ : List Nat} {n : Bool} (h : e.Holds fl (b₁ ++ c :: b₂))
    (hh : e.handle c = .ok (n, e')) :
    e'.Holds (c :: fl) (b₁ ++ b₂) ∧
      e'.stageoutCounter = (e.stageoutCounter + 1) % 2 ^ 32 ∧ e'.max = e.max ∧
      e'.txOut = e.txOut := by
  simp only [Egress.handle, bind_eq_ok, pure_eq_ok, Prod.mk.injEq] at hh
  obtain ⟨e₁, hf, _, rfl⟩ := hh
  obtain ⟨hh, hs⟩ := h.release hf
  refine ⟨hh.congr rfl rfl rfl, ?_, hs.max, hs.txOut⟩
  simp [atomicInc, hs.counter]

end Operations

end OfiTransport.Egress
