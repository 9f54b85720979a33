import Mathlib.Data.Multiset.AddSub

/-! Handles that are given out and taken back, each under a number of its own.  A number is never
given out again, so what was taken back is gone for good. -/

universe u

namespace OfiTransport.Lib

structure Ledger (κ : Type u) where
  live : Multiset (κ × Nat)
  next : Nat
  nodup : live.Nodup
  fresh : ∀ h ∈ live, h.2 < next

namespace Ledger

variable {κ : Type u}

def empty : Ledger κ := ⟨0, 0, Multiset.nodup_zero, by simp⟩

def give (k : κ) (L : Ledger κ) : Nat × Ledger κ :=
  (L.next,
    { live := (k, L.next) ::ₘ L.live
      next := L.next + 1
      nodup := Multiset.nodup_cons.2 ⟨fun h => Nat.lt_irrefl _ (L.fresh _ h), L.nodup⟩
      fresh := by
        intro h hh
        rcases Multiset.mem_cons.1 hh with rfl | hh
        · exact Nat.lt_succ_self _
        · exact Nat.lt_succ_of_lt (L.fresh h hh) })

@[simp] theorem live_empty : (empty : Ledger κ).live = 0 := rfl

@[simp] theorem give_live (k : κ) (L : Ledger κ) : (L.give k).2.live = (k, L.next) ::ₘ L.live := rfl

@[simp] theorem give_next (k : κ) (L : Ledger κ) : (L.give k).2.next = L.next + 1 := rfl

variable [DecidableEq κ]

def take (h : κ × Nat) (L : Ledger κ) : Option (Ledger κ) :=
  if h ∈ L.live then
    some
      { live := L.live.erase h
        next := L.next
        nodup := Multiset.Nodup.erase h L.nodup
        fresh := fun g hg => L.fresh g (Multiset.mem_of_mem_erase hg) }
  else none

section Laws

variable {L : Ledger κ} {h : κ × Nat} {m : Multiset (κ × Nat)}

theorem take_of_mem (hm : h ∈ L.live) :
    ∃ L', L.take h = some L' ∧ L.live = h ::ₘ L'.live ∧ L'.next = L.next :=
  ⟨_, if_pos hm, (Multiset.cons_erase hm).symm, rfl⟩

theorem take_of_cons (hl : L.live = h ::ₘ m) :
    ∃ L', L.take h = some L' ∧ L'.live = m ∧ L'.next = L.next := by
  obtain ⟨L', ht, hl', hn⟩ := take_of_mem (L := L) (h := h) (hl ▸ Multiset.mem_cons_self h m)
  rw [hl'] at hl
  exact ⟨L', ht, (Multiset.cons_inj_right h).1 hl, hn⟩

end Laws

end Ledger

end OfiTransport.Lib
