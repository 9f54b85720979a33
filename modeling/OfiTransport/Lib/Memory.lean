import Mathlib.Data.List.Basic

/-! Byte-addressed memory and its regions.  Addresses are naturals and do not wrap. -/

namespace OfiTransport.Lib

structure Region where
  base : Nat
  len : Nat
  deriving DecidableEq

namespace Region

def stop (r : Region) : Nat := r.base + r.len

def Covers (r s : Region) : Prop := r.base ≤ s.base ∧ s.stop ≤ r.stop

instance (r s : Region) : Decidable (r.Covers s) := inferInstanceAs (Decidable (_ ∧ _))

def Apart (r s : Region) : Prop := r.stop ≤ s.base ∨ s.stop ≤ r.base

instance (r s : Region) : Decidable (r.Apart s) := inferInstanceAs (Decidable (_ ∨ _))

theorem covers_self (r : Region) : r.Covers r := ⟨Nat.le_refl _, Nat.le_refl _⟩

theorem Apart.symm {r s : Region} (h : r.Apart s) : s.Apart r := Or.symm h

theorem Apart.of_covers {r s t : Region} (h : r.Apart s) (hc : r.Covers t) : t.Apart s := by
  simp only [Apart, Covers, stop] at *
  omega

def Shares (r s : Region) : Prop := ∃ a, (r.base ≤ a ∧ a < r.stop) ∧ s.base ≤ a ∧ a < s.stop

theorem shares_iff {r s : Region} :
    r.Shares s ↔ (0 < r.len ∧ 0 < s.len) ∧ r.base < s.stop ∧ s.base < r.stop := by
  simp only [Shares, stop]
  constructor
  · rintro ⟨a, hr, hs⟩
    omega
  · intro h
    exact ⟨max r.base s.base, by omega, by omega⟩

instance (r s : Region) : Decidable (r.Shares s) := decidable_of_iff _ shares_iff.symm

theorem not_shares_empty {r s : Region} (h : r.len = 0) : ¬ r.Shares s := by
  rw [shares_iff]
  omega

theorem Shares.of_covers {r s t : Region} (h : t.Shares s) (hc : r.Covers t) : r.Shares s := by
  obtain ⟨a, ht, hs⟩ := h
  simp only [Covers] at hc
  exact ⟨a, by omega, hs⟩

theorem covers_part {base size count j len : Nat} (hj : j < count) (hl : len ≤ size) :
    (⟨base, count * size⟩ : Region).Covers ⟨base + size * j, len⟩ := by
  have h : size * j + size ≤ count * size := by
    calc size * j + size = (j + 1) * size := by rw [Nat.add_mul, Nat.mul_comm, Nat.one_mul]
      _ ≤ count * size := Nat.mul_le_mul_right size hj
  simp only [Covers, stop]
  omega

theorem apart_parts {base size i j m n : Nat} (hij : i ≠ j) (hm : m ≤ size) (hn : n ≤ size) :
    (⟨base + size * i, m⟩ : Region).Apart ⟨base + size * j, n⟩ := by
  simp only [Apart, stop]
  rcases Nat.lt_or_gt_of_ne hij with h | h
  · have := Nat.mul_le_mul_left size h
    rw [Nat.mul_succ] at this
    omega
  · have := Nat.mul_le_mul_left size h
    rw [Nat.mul_succ] at this
    omega

end Region

def Memory := Nat → UInt8

namespace Memory

def read (m : Memory) (r : Region) : List UInt8 := (List.range r.len).map (fun k => m (r.base + k))

def copy (m : Memory) (dst : Nat) (src : Region) : Memory := fun a =>
  if dst ≤ a ∧ a < dst + src.len then m (src.base + (a - dst)) else m a

@[simp] theorem read_length (m : Memory) (r : Region) : (m.read r).length = r.len := by
  simp [read]

theorem read_empty {r : Region} (h : r.len = 0) (m : Memory) : m.read r = [] := by
  simp [read, h]

theorem read_copy_same (m : Memory) (dst : Nat) (src : Region) :
    (m.copy dst src).read ⟨dst, src.len⟩ = m.read src := by
  simp only [read]
  apply List.map_congr_left
  intro k hk
  rw [List.mem_range] at hk
  simp [copy, hk]

theorem read_copy_apart {m : Memory} {dst : Nat} {src r : Region}
    (h : (⟨dst, src.len⟩ : Region).Apart r) : (m.copy dst src).read r = m.read r := by
  simp only [read]
  apply List.map_congr_left
  intro k hk
  rw [List.mem_range] at hk
  simp only [Region.Apart, Region.stop] at h
  simp only [copy]
  rw [if_neg]
  omega

def gather (m : Memory) (rs : List Region) : List UInt8 := (rs.map m.read).flatten

@[simp] theorem gather_nil (m : Memory) : m.gather [] = [] := rfl

@[simp] theorem gather_cons (m : Memory) (r : Region) (rs : List Region) :
    m.gather (r :: rs) = m.read r ++ m.gather rs := rfl

theorem gather_append (m : Memory) (rs ss : List Region) :
    m.gather (rs ++ ss) = m.gather rs ++ m.gather ss := by
  simp [gather]

theorem gather_congr {m m' : Memory} {rs : List Region} (h : ∀ r ∈ rs, m'.read r = m.read r) :
    m'.gather rs = m.gather rs := by
  simp only [gather]
  rw [List.map_congr_left h]

end Memory

end OfiTransport.Lib
