import OfiTransport.Nanomsg
import Mathlib.Data.Int.Order.Basic
import Mathlib.Tactic.Common

/-! The calibration of the pool by the clock (`nn_ofiw_kinstr_per_ms` in `ofiw.c`), whose
result the spin wait of `nn_ofiw_poller_thread` counts down. -/

namespace OfiTransport.Ofiw

structure Timespec where
  sec : Int
  nsec : Int
  nonneg : 0 ≤ nsec
  lt : nsec < 10 ^ 9
  deriving DecidableEq

namespace Timespec

def NotAfter (a b : Timespec) : Prop := a.sec < b.sec ∨ a.sec = b.sec ∧ a.nsec ≤ b.nsec

instance (a b : Timespec) : Decidable (a.NotAfter b) := inferInstanceAs (Decidable (_ ∨ _))

def nanos (t : Timespec) : Int := t.sec * 10 ^ 9 + t.nsec

def elapsed (a b : Timespec) : Int := b.nanos - a.nanos

theorem notAfter_iff {a b : Timespec} : a.NotAfter b ↔ 0 ≤ elapsed a b := by
  obtain ⟨s, n, h₁, h₂⟩ := a
  obtain ⟨s', n', h₁', h₂'⟩ := b
  simp only [NotAfter, elapsed, nanos]
  omega

end Timespec

/-- The C division, with none for a division by zero. -/
def divide (n d : Int) : Option Int := if d = 0 then none else some (n.tdiv d)

/-- `nn_ofiw_kinstr_per_ms`, given what the clock says before and after the loop. -/
def kinstrPerMs (a b : Timespec) : Option Nat := do
  let q ← divide 1000000000 (b.nsec - a.nsec)
  let kinstMs := toUInt64 q
  if kinstMs > 4294967295 then return 4294967295
  else if kinstMs = 0 then return 1
  else return toUInt32 kinstMs

/-- What the loop took, as a rate between 1 and 2^32 - 1. -/
def rate (ns : Int) : Nat := max 1 (min (10 ^ 9 / ns).toNat (2 ^ 32 - 1))

/-- A result comes out, and it is the rate.  If no time has passed there is no rate and any
result in the range would do. -/
def Calibrated (a b : Timespec) : Prop :=
  ∃ k, kinstrPerMs a b = some k ∧ 1 ≤ k ∧ k < 2 ^ 32 ∧
    (Timespec.elapsed a b ≠ 0 → k = rate (Timespec.elapsed a b))

section Calibration

variable {a b : Timespec} {d : Int} {k : Nat}

theorem quotient_bounds (h₁ : 0 < d) (h₂ : d ≤ 10 ^ 9) :
    1 ≤ (10 ^ 9 : Int) / d ∧ (10 ^ 9 : Int) / d ≤ 10 ^ 9 := by
  refine ⟨?_, Int.ediv_le_self _ (by decide)⟩
  rw [Int.le_ediv_iff_mul_le h₁, Int.one_mul]
  exact h₂

theorem rate_eq (h₁ : 0 < d) (h₂ : d ≤ 10 ^ 9) : rate d = ((10 ^ 9 : Int) / d).toNat := by
  obtain ⟨hl, hu⟩ := quotient_bounds h₁ h₂
  rw [rate]
  omega

theorem rate_eq_one (h : 10 ^ 9 < d) : rate d = 1 := by
  have hq : (10 ^ 9 : Int) / d = 0 := Int.ediv_eq_zero_of_lt (by decide) h
  rw [rate, hq]
  rfl

theorem rate_eq_one_iff (h₁ : 0 < d) (h₂ : d ≤ 10 ^ 9) : rate d = 1 ↔ 10 ^ 9 < 2 * d := by
  have hq : (10 ^ 9 : Int) / d < 2 ↔ 10 ^ 9 < 2 * d := Int.ediv_lt_iff_lt_mul h₁
  obtain ⟨hl, _⟩ := quotient_bounds h₁ h₂
  rw [rate_eq h₁ h₂, ← hq]
  omega

theorem rate_range (d : Int) : 1 ≤ rate d ∧ rate d < 2 ^ 32 := by
  rw [rate]
  omega

theorem rate_le (d : Int) : rate d ≤ 10 ^ 9 := by
  have hu : (10 ^ 9 : Int) / d ≤ 10 ^ 9 := Int.ediv_le_self _ (by decide)
  rw [rate]
  omega

theorem kinstrPerMs_level (h : a.nsec = b.nsec) : kinstrPerMs a b = none := by
  simp [kinstrPerMs, divide, h]

theorem kinstrPerMs_forward (h : a.nsec < b.nsec) :
    kinstrPerMs a b = some (rate (b.nsec - a.nsec)) := by
  have ha := a.nonneg
  have hb := b.lt
  have hd : b.nsec - a.nsec ≠ 0 := by omega
  have hq : (1000000000 : Int).tdiv (b.nsec - a.nsec) = 10 ^ 9 / (b.nsec - a.nsec) :=
    Int.tdiv_eq_ediv_of_nonneg (by decide)
  rw [rate_eq (by omega) (by omega)]
  obtain ⟨hl, hu⟩ := quotient_bounds (d := b.nsec - a.nsec) (by omega) (by omega)
  generalize (10 ^ 9 : Int) / (b.nsec - a.nsec) = q at hq hl hu
  have hc : toUInt64 q = q.toNat := by
    rw [toUInt64]
    omega
  have hc' : toUInt32 (q.toNat : Int) = q.toNat := by
    rw [toUInt32]
    omega
  simp only [kinstrPerMs, divide, hd, if_false, hq, hc, hc', bind, Option.bind, pure]
  rw [if_neg (by omega), if_neg (by omega)]

theorem kinstrPerMs_backward (h : b.nsec < a.nsec) : kinstrPerMs a b = some (2 ^ 32 - 1) := by
  have ha := a.lt
  have hb := b.nonneg
  have hd : b.nsec - a.nsec ≠ 0 := by omega
  have hq : (1000000000 : Int).tdiv (b.nsec - a.nsec) = -(10 ^ 9 / (a.nsec - b.nsec)) := by
    rw [← Int.neg_sub a.nsec b.nsec, Int.tdiv_neg, Int.tdiv_eq_ediv_of_nonneg (by decide)]
    rfl
  obtain ⟨hl, hu⟩ := quotient_bounds (d := a.nsec - b.nsec) (by omega) (by omega)
  generalize (10 ^ 9 : Int) / (a.nsec - b.nsec) = q at hq hl hu
  have hc : 4294967295 < toUInt64 (-q) := by
    rw [toUInt64]
    omega
  simp [kinstrPerMs, divide, hd, hq, hc]

theorem Timespec.elapsed_eq (a b : Timespec) :
    elapsed a b = (b.sec - a.sec) * 10 ^ 9 + (b.nsec - a.nsec) := by
  simp only [elapsed, nanos]
  omega

theorem calibrated_forward (h : a.NotAfter b) (hn : a.nsec < b.nsec) :
    Calibrated a b ↔ a.sec = b.sec ∨ 10 ^ 9 < 2 * (b.nsec - a.nsec) := by
  have ha := a.nonneg
  have hb := b.lt
  have hle := Timespec.notAfter_iff.1 h
  have he := Timespec.elapsed_eq a b
  have hd : Timespec.elapsed a b ≠ 0 := by omega
  have hc : Calibrated a b ↔ rate (b.nsec - a.nsec) = rate (Timespec.elapsed a b) := by
    obtain ⟨hl, hu⟩ := rate_range (b.nsec - a.nsec)
    simp only [Calibrated, kinstrPerMs_forward hn, Option.some.injEq, exists_eq_left', hl, hu, hd,
      ne_eq, not_false_eq_true, forall_const, true_and]
  rw [hc]
  by_cases hs : a.sec = b.sec
  · simp [he, hs]
  · rw [rate_eq_one (d := Timespec.elapsed a b) (by omega), rate_eq_one_iff (by omega) (by omega)]
    simp [hs]

theorem not_calibrated_backward (h : a.NotAfter b) (hn : b.nsec < a.nsec) :
    ¬ Calibrated a b := by
  have ha := a.lt
  have hb := b.nonneg
  have hle := Timespec.notAfter_iff.1 h
  have he := Timespec.elapsed_eq a b
  have hr := rate_le (Timespec.elapsed a b)
  rintro ⟨k, hk, _, _, hq⟩
  rw [kinstrPerMs_backward hn, Option.some.injEq] at hk
  have hk' := hq (by omega)
  omega

/-- The pool is calibrated if the nanoseconds have gone forward within one second, or by more
than half a second whatever the seconds say. -/
theorem calibrated_iff (h : a.NotAfter b) :
    Calibrated a b ↔
      a.nsec < b.nsec ∧ (a.sec = b.sec ∨ 10 ^ 9 < 2 * (b.nsec - a.nsec)) := by
  rcases lt_trichotomy a.nsec b.nsec with hn | hn | hn
  · rw [calibrated_forward h hn]
    simp [hn]
  · have hc : ¬ Calibrated a b := by
      rintro ⟨k, hk, _⟩
      simp [kinstrPerMs_level hn] at hk
    simp [hc, hn]
  · have hlt : ¬ a.nsec < b.nsec := by omega
    simp [not_calibrated_backward h hn, hlt]

theorem calibrated_second :
    Calibrated ⟨7, 0, by decide, by decide⟩ ⟨7, 1000000, by decide, by decide⟩ :=
  (calibrated_iff (by decide)).2 (by decide)

/-- A millisecond that straddles a second is taken for no time at all. -/
theorem second_straddled :
    kinstrPerMs ⟨7, 999500000, by decide, by decide⟩ ⟨8, 500000, by decide, by decide⟩ =
      some 4294967295 ∧
    ¬ ∀ a b : Timespec, a.NotAfter b → Calibrated a b := by
  have hk : kinstrPerMs ⟨7, 999500000, by decide, by decide⟩ ⟨8, 500000, by decide, by decide⟩ =
      some 4294967295 := by decide
  refine ⟨hk, ?_⟩
  intro h
  obtain ⟨k, hk', _, _, hr⟩ := h ⟨7, 999500000, by decide, by decide⟩
    ⟨8, 500000, by decide, by decide⟩ (by decide)
  rw [hk, Option.some.injEq] at hk'
  have hr' := hr (by decide)
  rw [← hk'] at hr'
  revert hr'
  decide

end Calibration

end OfiTransport.Ofiw
