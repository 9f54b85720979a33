import OfiTransport.Sofi.Ingress
import Mathlib.Data.List.Perm.Basic

/-! What the operations on the ingress buffers do to their lists. -/

namespace OfiTransport

open Lib

namespace Buffers

/-- The `n` buffers are spread over the free, busy and populated lists `F`, `B`, `Q` and
the buffers `D` that are in the hands of the code. -/
structure Holds (q : Buffers) (n : Nat) (D F B Q : List Nat) : Prop where
  all : (D ++ (F ++ (B ++ Q))).Perm (List.range n)
  freeList : q.links.IsList F
  busyList : q.links.IsList B
  popList : q.links.IsList Q
  free : q.free = F.head?
  busy : q.busy = B.head?
  popHead : q.popHead = Q.head?
  popTail : q.popTail = Q.getLast?

structure Loose (q : Buffers) (b : Nat) : Prop where
  prev : q.links.prev b = none
  next : q.links.next b = none

variable {q : Buffers} {n b : Nat} {D F B Q : List Nat}

theorem Holds.nodup (h : q.Holds n D F B Q) : (D ++ (F ++ (B ++ Q))).Nodup :=
  h.all.nodup_iff.2 List.nodup_range

theorem Holds.length (h : q.Holds n D F B Q) :
    D.length + (F.length + (B.length + Q.length)) = n := by
  have hl := h.all.length_eq
  simpa using hl

theorem Holds.detached (h : q.Holds n (b :: D) F B Q) : b ∉ F ∧ b ∉ B ∧ b ∉ Q := by
  have hd := h.nodup
  simp only [List.cons_append, List.nodup_cons, List.mem_append, not_or] at hd
  exact hd.1.2

theorem Holds.toFree (h : q.Holds n (b :: D) F B Q) : (q.toFree b).Holds n D (b :: F) B Q := by
  obtain ⟨hF, hB, hQ⟩ := h.detached
  have hd := h.nodup
  have hout : ∀ x, x ∈ B ++ Q → q.free ≠ some x := by
    intro x hx e
    rw [h.free] at e
    have hx' := List.mem_of_head? e
    simp only [List.nodup_append, List.mem_append] at hd hx
    grind
  refine ⟨?_, ?_, ?_, ?_, rfl, h.busy, h.popHead, h.popTail⟩
  · refine List.Perm.trans ?_ h.all
    exact List.perm_middle
  · simpa [Buffers.toFree, h.free] using h.freeList.pushFront hF
  · exact h.busyList.frame_pushFront hB (fun x hx => hout x (by simp [hx]))
  · exact h.popList.frame_pushFront hQ (fun x hx => hout x (by simp [hx]))

theorem Holds.markBusy (h : q.Holds n (b :: D) F B Q) :
    (q.markBusy b).Holds n D F (b :: B) Q := by
  obtain ⟨hF, hB, hQ⟩ := h.detached
  have hd := h.nodup
  have hout : ∀ x, x ∈ F ++ Q → q.busy ≠ some x := by
    intro x hx e
    rw [h.busy] at e
    have hx' := List.mem_of_head? e
    simp only [List.nodup_append, List.mem_append] at hd hx
    grind
  refine ⟨?_, ?_, ?_, ?_, h.free, rfl, h.popHead, h.popTail⟩
  · refine List.Perm.trans ?_ h.all
    rw [← List.append_assoc]
    refine List.perm_middle.trans ?_
    simp
  · exact h.freeList.frame_pushFront hF (fun x hx => hout x (by simp [hx]))
  · simpa [Buffers.markBusy, h.busy] using h.busyList.pushFront hB
  · exact h.popList.frame_pushFront hQ (fun x hx => hout x (by simp [hx]))

theorem Holds.toPopulated (h : q.Holds n (b :: D) F B Q) :
    (q.toPopulated b).Holds n D F B (Q ++ [b]) := by
  obtain ⟨hF, hB, hQ⟩ := h.detached
  have hd := h.nodup
  have hout : ∀ x, x ∈ F ++ B → q.popTail ≠ some x := by
    intro x hx e
    rw [h.popTail] at e
    have hx' := List.mem_of_getLast? e
    simp only [List.nodup_append, List.mem_append] at hd hx
    grind
  refine ⟨?_, ?_, ?_, ?_, h.free, h.busy, ?_, ?_⟩
  · refine List.Perm.trans ?_ h.all
    simp only [← List.append_assoc]
    exact List.perm_append_singleton ..
  · exact h.freeList.frame_pushBack hF (fun x hx => hout x (by simp [hx]))
  · exact h.busyList.frame_pushBack hB (fun x hx => hout x (by simp [hx]))
  · simpa [Buffers.toPopulated, h.popTail] using h.popList.pushBack hQ
  · cases Q <;> simp [Buffers.toPopulated, h.popTail, h.popHead]
  · simp [Buffers.toPopulated]

theorem Holds.popFree (h : q.Holds n D (b :: F) B Q) :
    ∃ q', q.popFree = some (b, q') ∧ q'.Holds n (b :: D) F B Q ∧ q'.Loose b := by
  obtain ⟨_, hn⟩ := h.freeList.pointers_head
  have hd := h.nodup
  have hout : ∀ x, x ∈ B ++ Q → x ≠ b ∧ q.links.next b ≠ some x := by
    intro x hx
    rw [hn]
    simp only [List.cons_append, List.nodup_append, List.nodup_cons, List.mem_cons,
      List.mem_append] at hd hx
    refine ⟨by grind, fun e => ?_⟩
    have hx' := List.mem_of_head? e
    grind
  refine ⟨{ q with
    links := (q.links.setPrev? (q.links.next b) none).detach b
    free := q.links.next b }, by simp [Buffers.popFree, h.free], ⟨?_, ?_, ?_, ?_, hn, h.busy,
    h.popHead, h.popTail⟩, by simp [Links.detach], by simp [Links.detach]⟩
  · refine List.Perm.trans ?_ h.all
    exact List.perm_middle.symm
  · exact h.freeList.tail
  · exact h.busyList.frame_tail (fun e => (hout b (by simp [e])).1 rfl)
      (fun x hx => (hout x (by simp [hx])).2)
  · exact h.popList.frame_tail (fun e => (hout b (by simp [e])).1 rfl)
      (fun x hx => (hout x (by simp [hx])).2)

theorem Holds.popFree_nil (h : q.Holds n D [] B Q) : q.popFree = none := by
  simp [Buffers.popFree, h.free]

theorem Holds.popPopulated (h : q.Holds n D F B (b :: Q)) :
    ∃ q', q.popPopulated = some (b, q') ∧ q'.Holds n (b :: D) F B Q ∧ q'.Loose b := by
  obtain ⟨_, hn⟩ := h.popList.pointers_head
  have hd := h.nodup
  have hout : ∀ x, x ∈ F ++ B → x ≠ b ∧ q.links.next b ≠ some x := by
    intro x hx
    rw [hn]
    simp only [List.nodup_append, List.nodup_cons, List.mem_cons, List.mem_append] at hd hx
    refine ⟨by grind, fun e => ?_⟩
    have hx' := List.mem_of_head? e
    grind
  refine ⟨{ q with
    links := (q.links.setPrev? (q.links.next b) none).detach b
    popHead := q.links.next b
    popTail := if q.links.next b = none then none else q.popTail },
    by simp [Buffers.popPopulated, h.popHead], ⟨?_, ?_, ?_, ?_, h.free, h.busy, hn, ?_⟩,
    by simp [Links.detach], by simp [Links.detach]⟩
  · refine List.Perm.trans ?_ h.all
    simp only [← List.append_assoc]
    exact List.perm_middle.symm
  · exact h.freeList.frame_tail (fun e => (hout b (by simp [e])).1 rfl)
      (fun x hx => (hout x (by simp [hx])).2)
  · exact h.busyList.frame_tail (fun e => (hout b (by simp [e])).1 rfl)
      (fun x hx => (hout x (by simp [hx])).2)
  · exact h.popList.tail
  · cases Q with
    | nil => simp [hn]
    | cons c Q => simp [hn, h.popTail, List.getLast?_cons]

theorem Holds.popPopulated_nil (h : q.Holds n D F B []) : q.popPopulated = none := by
  simp [Buffers.popPopulated, h.popHead]

theorem Holds.leaveBusy {B₁ B₂ : List Nat} (h : q.Holds n D F (B₁ ++ b :: B₂) Q) :
    (q.leaveBusy b).Holds n (b :: D) F (B₁ ++ B₂) Q := by
  obtain ⟨hp, hn⟩ := h.busyList.pointers
  have hd := h.nodup
  have hall : (b :: D ++ (F ++ (B₁ ++ B₂ ++ Q))).Perm (List.range n) := by
    refine List.Perm.trans ?_ h.all
    rw [List.perm_iff_count]
    intro x
    simp only [List.cons_append, List.append_assoc, List.count_append, List.count_cons]
    omega
  have hout : ∀ x, x ∈ F ++ Q → x ≠ b ∧ q.links.prev b ≠ some x ∧ q.links.next b ≠ some x := by
    intro x hx
    rw [hp, hn]
    simp only [List.nodup_append, List.nodup_cons, List.mem_cons, List.mem_append] at hd hx
    refine ⟨by grind, fun e => ?_, fun e => ?_⟩
    · have hx' := List.mem_of_getLast? e
      grind
    · have hx' := List.mem_of_head? e
      grind
  cases B₁ with
  | nil =>
    have hb : q.busy = some b := h.busy
    simp only [Buffers.leaveBusy, hb, if_true]
    refine ⟨hall, ?_, ?_, ?_, h.free, hn, h.popHead, h.popTail⟩
    · exact h.freeList.frame_tail (fun e => (hout b (by simp [e])).1 rfl)
        (fun x hx => (hout x (by simp [hx])).2.2)
    · exact h.busyList.tail
    · exact h.popList.frame_tail (fun e => (hout b (by simp [e])).1 rfl)
        (fun x hx => (hout x (by simp [hx])).2.2)
  | cons a B₁ =>
    have hab : a ≠ b := by
      simp only [List.nodup_append, List.nodup_cons, List.mem_cons, List.mem_append] at hd
      grind
    have hb : q.busy = some a := h.busy
    have hbb : q.links.next b ≠ some b := by
      rw [hn]
      intro e
      have he := List.mem_of_head? e
      simp only [List.nodup_append, List.nodup_cons, List.mem_cons, List.mem_append] at hd
      grind
    have hpb : (q.links.prev b).isSome = true := by
      rw [hp]
      simp
    simp only [Buffers.leaveBusy, hb, Option.some.injEq, hab, if_false, hpb, true_or, if_true]
    refine ⟨hall, ?_, h.busyList.unlink, ?_, h.free, rfl, h.popHead, h.popTail⟩
    · exact h.freeList.frame_unlink (fun x hx => (hout x (by simp [hx])).2.1)
        (fun x hx => (hout x (by simp [hx])).2.2) hbb
    · exact h.popList.frame_unlink (fun x hx => (hout x (by simp [hx])).2.1)
        (fun x hx => (hout x (by simp [hx])).2.2) hbb

/-- A loose buffer is not on the busy list in the first place. -/
theorem Holds.leaveBusy_loose (h : q.Holds n (b :: D) F B Q) (hl : q.Loose b) :
    q.leaveBusy b = q := by
  have hb : q.busy ≠ some b := by
    intro e
    rw [h.busy] at e
    exact h.detached.2.1 (List.mem_of_head? e)
  simp [Buffers.leaveBusy, hb, hl.prev, hl.next]

theorem Holds.markFree_loose (h : q.Holds n (b :: D) F B Q) (hl : q.Loose b) :
    (q.markFree b).Holds n D (b :: F) B Q := by
  rw [Buffers.markFree, h.leaveBusy_loose hl]
  exact h.toFree

theorem Holds.markFree_busy {B₁ B₂ : List Nat} (h : q.Holds n D F (B₁ ++ b :: B₂) Q) :
    (q.markFree b).Holds n D (b :: F) (B₁ ++ B₂) Q := h.leaveBusy.toFree

theorem Holds.markPopulated {B₁ B₂ : List Nat} (h : q.Holds n D F (B₁ ++ b :: B₂) Q) :
    (q.markPopulated b).Holds n D F (B₁ ++ B₂) (Q ++ [b]) := h.leaveBusy.toPopulated

/-- The buffers are spread over the lists, and those in the hands of the code are loose.  What
`nn_sofi_ingress_mark_free` infers from the links of a buffer rests on this. -/
structure Spread (q : Buffers) (n : Nat) (D F B Q : List Nat) : Prop extends
    Holds q n D F B Q where
  loose : ∀ b ∈ D, q.Loose b

section Spread

variable {c : Nat} {B₁ B₂ : List Nat}

theorem Holds.spread (h : q.Holds n [] F B Q) : q.Spread n [] F B Q := ⟨h, by simp⟩

theorem loose_iff : q.Loose c ↔ q.links.IsList [c] := by
  rw [Links.isList_singleton]
  constructor
  · exact fun h => ⟨h.prev, h.next⟩
  · exact fun h => ⟨h.1, h.2⟩

theorem head_ne {l : List Nat} (h : c ∉ l) : ∀ x ∈ [c], l.head? ≠ some x := by
  intro x hx e
  rw [List.mem_singleton] at hx
  exact h (hx ▸ List.mem_of_head? e)

theorem last_ne {l : List Nat} (h : c ∉ l) : ∀ x ∈ [c], l.getLast? ≠ some x := by
  intro x hx e
  rw [List.mem_singleton] at hx
  exact h (hx ▸ List.mem_of_getLast? e)

theorem Holds.apart (h : q.Holds n D F B Q) (hc : c ∈ D) : c ∉ F ∧ c ∉ B ∧ c ∉ Q := by
  have hd := (List.nodup_append.1 h.nodup).2.2
  have hx : ∀ x ∈ F ++ (B ++ Q), x ≠ c := fun x hx e => hd c hc x hx e.symm
  simp only [List.mem_append] at hx
  exact ⟨fun h => hx c (.inl h) rfl, fun h => hx c (.inr (.inl h)) rfl,
    fun h => hx c (.inr (.inr h)) rfl⟩

theorem Holds.perm_hands {D' : List Nat} (h : q.Holds n D F B Q) (hD : D'.Perm D) :
    q.Holds n D' F B Q :=
  ⟨(hD.append_right _).trans h.all, h.freeList, h.busyList, h.popList, h.free, h.busy, h.popHead,
    h.popTail⟩

theorem Spread.perm_hands {D' : List Nat} (h : q.Spread n D F B Q) (hD : D'.Perm D) :
    q.Spread n D' F B Q :=
  ⟨h.toHolds.perm_hands hD, fun b hb => h.loose b (hD.mem_iff.1 hb)⟩

theorem Loose.frame_tail {l : List Nat} (h : q.Loose c) (hl : q.links.IsList (b :: l))
    (hc : c ∉ b :: l) : ((q.links.setPrev? (q.links.next b) none).detach b).IsList [c] := by
  rw [List.mem_cons, not_or] at hc
  refine (loose_iff.1 h).frame_tail (by simpa using Ne.symm hc.1) ?_
  rw [hl.pointers_head.2]
  exact head_ne hc.2

theorem Spread.popFree (h : q.Spread n D (b :: F) B Q) :
    ∃ q', q.popFree = some (b, q') ∧ q'.Spread n (b :: D) F B Q := by
  obtain ⟨q', hq, hh, hl⟩ := h.toHolds.popFree
  refine ⟨q', hq, hh, List.forall_mem_cons.2 ⟨hl, ?_⟩⟩
  intro c hc
  simp only [Buffers.popFree, h.free, List.head?_cons, Option.some.injEq, Prod.mk.injEq,
    true_and] at hq
  rw [← hq, loose_iff]
  exact (h.loose c hc).frame_tail h.freeList (h.apart hc).1

theorem Spread.popPopulated (h : q.Spread n D F B (b :: Q)) :
    ∃ q', q.popPopulated = some (b, q') ∧ q'.Spread n (b :: D) F B Q := by
  obtain ⟨q', hq, hh, hl⟩ := h.toHolds.popPopulated
  refine ⟨q', hq, hh, List.forall_mem_cons.2 ⟨hl, ?_⟩⟩
  intro c hc
  simp only [Buffers.popPopulated, h.popHead, List.head?_cons, Option.some.injEq, Prod.mk.injEq,
    true_and] at hq
  rw [← hq, loose_iff]
  exact (h.loose c hc).frame_tail h.popList (h.apart hc).2.2

theorem Spread.leaveBusy_others (h : q.Spread n D F (B₁ ++ b :: B₂) Q) (hc : c ∈ D) :
    (q.leaveBusy b).Loose c := by
  obtain ⟨_, hB, _⟩ := h.apart hc
  simp only [List.mem_append, List.mem_cons, not_or] at hB
  obtain ⟨hp, hn⟩ := h.busyList.pointers
  have hl := loose_iff.1 (h.loose c hc)
  rw [Buffers.leaveBusy]
  split
  · rw [loose_iff]
    refine hl.frame_tail (by simpa using Ne.symm hB.2.1) ?_
    rw [hn]
    exact head_ne hB.2.2
  · split
    · rw [loose_iff]
      refine hl.frame_unlink ?_ ?_ ?_
      · rw [hp]
        exact last_ne hB.1
      · rw [hn]
        exact head_ne hB.2.2
      · rw [hn]
        intro e
        have hd := h.busyList.nodup
        simp only [List.nodup_append, List.nodup_cons] at hd
        exact hd.2.1.1 (List.mem_of_head? e)
    · exact h.loose c hc

section Linking

variable (h : q.Holds n (b :: D) F B Q) (hl : ∀ c ∈ D, q.Loose c)

include h in
theorem Holds.others (hc : c ∈ D) : b ∉ [c] ∧ c ∉ F ∧ c ∉ B ∧ c ∉ Q := by
  have hd := h.nodup
  rw [List.cons_append, List.nodup_cons, List.mem_append, not_or] at hd
  refine ⟨?_, h.apart (List.mem_cons_of_mem b hc)⟩
  rw [List.mem_singleton]
  exact fun e => hd.1.1 (e ▸ hc)

include h hl

/-- Linking `b` writes to a list and to `b` itself, so the others stay loose. -/
theorem Holds.toFree_spread : (q.toFree b).Spread n D (b :: F) B Q := by
  refine ⟨h.toFree, ?_⟩
  intro c hc
  obtain ⟨hb, hF, _, _⟩ := h.others hc
  rw [loose_iff]
  refine (loose_iff.1 (hl c hc)).frame_pushFront hb ?_
  rw [h.free]
  exact head_ne hF

theorem Holds.markBusy_spread : (q.markBusy b).Spread n D F (b :: B) Q := by
  refine ⟨h.markBusy, ?_⟩
  intro c hc
  obtain ⟨hb, _, hB, _⟩ := h.others hc
  rw [loose_iff]
  refine (loose_iff.1 (hl c hc)).frame_pushFront hb ?_
  rw [h.busy]
  exact head_ne hB

theorem Holds.toPopulated_spread : (q.toPopulated b).Spread n D F B (Q ++ [b]) := by
  refine ⟨h.toPopulated, ?_⟩
  intro c hc
  obtain ⟨hb, _, _, hQ⟩ := h.others hc
  rw [loose_iff]
  refine (loose_iff.1 (hl c hc)).frame_pushBack hb ?_
  rw [h.popTail]
  exact last_ne hQ

end Linking

theorem Spread.markFree (h : q.Spread n (b :: D) F B Q) :
    (q.markFree b).Spread n D (b :: F) B Q := by
  rw [Buffers.markFree, h.leaveBusy_loose (h.loose b List.mem_cons_self)]
  exact h.toFree_spread (fun c hc => h.loose c (List.mem_cons_of_mem b hc))

theorem Spread.markBusy (h : q.Spread n (b :: D) F B Q) :
    (q.markBusy b).Spread n D F (b :: B) Q :=
  h.markBusy_spread (fun c hc => h.loose c (List.mem_cons_of_mem b hc))

theorem Spread.markFree_busy (h : q.Spread n D F (B₁ ++ b :: B₂) Q) :
    (q.markFree b).Spread n D (b :: F) (B₁ ++ B₂) Q :=
  h.leaveBusy.toFree_spread (fun _ hc => h.leaveBusy_others hc)

theorem Spread.markPopulated_busy (h : q.Spread n D F (B₁ ++ b :: B₂) Q) :
    (q.markPopulated b).Spread n D F (B₁ ++ B₂) (Q ++ [b]) :=
  h.leaveBusy.toPopulated_spread (fun _ hc => h.leaveBusy_others hc)

theorem Spread.flushBusy {fuel : Nat} (h : q.Spread n D F B Q) (hf : B.length ≤ fuel) :
    ∃ q', q.flushBusy fuel = .ok q' ∧ q'.Spread n D (B.reverse ++ F) [] Q := by
  induction B generalizing q F fuel with
  | nil => exact ⟨q, by cases fuel <;> simp [Buffers.flushBusy, h.busy], h⟩
  | cons b B ih =>
    obtain ⟨fuel, rfl⟩ : ∃ k, fuel = k + 1 := ⟨fuel - 1, by simp at hf; omega⟩
    have h₀ : q.Spread n D F ([] ++ b :: B) Q := h
    obtain ⟨q', hq, hh⟩ := ih h₀.markFree_busy (Nat.le_of_succ_le_succ hf)
    refine ⟨q', by simpa [Buffers.flushBusy, h.busy] using hq, ?_⟩
    simpa using hh

theorem Spread.flushPopulated {fuel : Nat} (h : q.Spread n D F B Q) (hf : Q.length ≤ fuel) :
    ∃ q', q.flushPopulated fuel = .ok q' ∧ q'.Spread n D (Q.reverse ++ F) B [] := by
  induction Q generalizing q F fuel with
  | nil =>
    refine ⟨q, ?_, h⟩
    cases fuel <;> simp [Buffers.flushPopulated, h.popHead, h.popPopulated_nil]
  | cons b Q ih =>
    obtain ⟨fuel, rfl⟩ : ∃ k, fuel = k + 1 := ⟨fuel - 1, by simp at hf; omega⟩
    obtain ⟨q₁, hq₁, h₁⟩ := h.popPopulated
    obtain ⟨q', hq, hh⟩ := ih h₁.markFree (Nat.le_of_succ_le_succ hf)
    exact ⟨q', by simpa [Buffers.flushPopulated, hq₁] using hq, by simpa using hh⟩

end Spread

end Buffers

namespace Ingress

structure Reposts (i i' : Ingress) : Prop where
  nnbusy : i'.nnbusy = i.nnbusy
  nnlater : i'.nnlater = i.nnlater
  received : i'.received = i.received
  flushFlag : i'.flushFlag = i.flushFlag
  max : i'.max = i.max
  held : i'.held = i.held
  chunk : i'.chunk = i.chunk
  msg : i'.msg = i.msg

theorem post_reposts (i : Ingress) (r : Int) : Reposts i (i.post r).2 := by
  simp only [post]
  split
  · exact ⟨rfl, rfl, rfl, rfl, rfl, rfl, rfl, rfl⟩
  · next b q _ =>
    by_cases hr : r = 0
    · simp only [postBuffer, hr, ne_eq, not_true, if_false]
      exact ⟨rfl, rfl, rfl, rfl, rfl, rfl, rfl, rfl⟩
    · simp only [postBuffer, ne_eq, hr, not_false_eq_true, if_true]
      split <;> exact ⟨rfl, rfl, rfl, rfl, rfl, rfl, rfl, rfl⟩

theorem postLate_reposts (i : Ingress) (r : Int) : Reposts i (i.postLate r) := by
  simp only [postLate]
  split
  · obtain ⟨h₁, h₂, h₃, h₄, h₅, h₆, h₇, h₈⟩ := post_reposts { i with postlater := false } r
    exact ⟨h₁, h₂, h₃, h₄, h₅, h₆, h₇, h₈⟩
  · exact ⟨rfl, rfl, rfl, rfl, rfl, rfl, rfl, rfl⟩

end Ingress

end OfiTransport
