import OfiTransport.Mr.Errors
import Mathlib.Data.Nat.Find

/-! Which banks `ofi_mr_invalidate` works on, and when it refuses. -/

namespace OfiTransport.Mr

open Lib

def Busy (m : Manager) (v : Region) (i : Nat) : Prop :=
  Meets (m.banks i).region v ∧ 0 < (m.banks i).ref

def FirstBusy (m : Manager) (v : Region) (i : Nat) : Prop :=
  i < m.attr.bankCount ∧ Busy m v i ∧ ∀ k < i, ¬ Busy m v k

def Calm (m : Manager) (v : Region) : Prop := ∀ i < m.attr.bankCount, ¬ Busy m v i

def Bank.swept (close : Int) (v : Region) (b : Bank) : Bank :=
  if Meets b.region v then
    if b.registered = true ∧ close = 0 then
      { b with registered := false, base := 0, len := 0, nonvolatile := false }
    else { b with nonvolatile := false }
  else b

section Loop

variable {close : Nat → Int} {m : Manager} {v : Region}

instance (m : Manager) (v : Region) (i : Nat) : Decidable (Busy m v i) :=
  inferInstanceAs (Decidable (_ ∧ _))

theorem meets_iff {b v : Region} : Meets b v ↔ b.base ≤ v.stop ∧ v.base ≤ b.stop := by
  simp only [Meets, Region.stop]
  omega

theorem meets_of_shares {b v : Region} (h : b.Shares v) : Meets b v := by
  rw [Region.shares_iff] at h
  rw [meets_iff]
  omega

def sweep (close : Nat → Int) (v : Region) (m : Manager) (i : Nat) : Manager :=
  if Meets (m.banks i).region v then
    (unregister (close i) m i).2.modifyBank i (fun b => { b with nonvolatile := false })
  else m

theorem sweep_banks (close : Nat → Int) (v : Region) (m : Manager) (i k : Nat) :
    (sweep close v m i).banks k =
      if k = i then (m.banks i).swept (close i) v else m.banks k := by
  by_cases hm : Meets (m.banks i).region v
  · by_cases hki : k = i
    · subst hki
      cases hr : (m.banks k).registered with
      | false => simp [sweep, Bank.swept, hm, hr, unregister_idle hr]
      | true =>
        by_cases hc : close k = 0
        · simp [sweep, Bank.swept, hm, hr, hc, unregister]
        · simp [sweep, Bank.swept, hm, hr, hc, unregister_fail hr hc]
    · simp [sweep, hm, hki, (unregister_elsewhere (close i) m i).2 k hki]
  · by_cases hki : k = i
    · subst hki
      simp [sweep, Bank.swept, hm]
    · simp [sweep, hm, hki]

theorem sweep_idle {i : Nat}
    (h : Meets (m.banks i).region v →
      (m.banks i).nonvolatile = false ∧ ((m.banks i).registered = true → close i ≠ 0)) :
    sweep close v m i = m := by
  by_cases hm : Meets (m.banks i).region v
  · obtain ⟨hn, hc⟩ := h hm
    have hu : (unregister (close i) m i).2 = m := by
      cases hr : (m.banks i).registered with
      | false => rw [unregister_idle hr]
      | true => rw [unregister_fail hr (hc hr)]
    have hb : { m.banks i with nonvolatile := false } = m.banks i := by rw [← hn]
    simp [sweep, hm, hu, Manager.modifyBank, hb]
  · simp [sweep, hm]

theorem sweeps_banks (close : Nat → Int) (v : Region) (m : Manager) (n k : Nat) :
    ((List.range n).foldl (sweep close v) m).banks k =
      if k < n then (m.banks k).swept (close k) v else m.banks k := by
  induction n generalizing k with
  | zero => simp
  | succ n ih =>
    rw [List.range_succ, List.foldl_append, List.foldl_cons, List.foldl_nil, sweep_banks]
    by_cases hk : k = n
    · subst hk
      simp [ih]
    · rw [if_neg hk, ih]
      simp only [Nat.lt_succ_iff_lt_or_eq, hk, or_false]

theorem sweeps_idle {n : Nat} (h : ∀ i < n, Meets (m.banks i).region v →
    (m.banks i).nonvolatile = false ∧ ((m.banks i).registered = true → close i ≠ 0)) :
    (List.range n).foldl (sweep close v) m = m := by
  induction n with
  | zero => rfl
  | succ n ih =>
    rw [List.range_succ, List.foldl_append, ih (fun i hi => h i (by omega))]
    exact sweep_idle (h n (by omega))

@[simp] theorem Bank.swept_ref (c : Int) (v : Region) (b : Bank) : (b.swept c v).ref = b.ref := by
  simp only [Bank.swept]
  split
  · split <;> rfl
  · rfl

theorem sweep_busy {i k : Nat} (h : ¬ Busy m v k) : ¬ Busy (sweep close v m i) v k := by
  simp only [Busy, sweep_banks] at h ⊢
  by_cases hki : k = i
  · subst hki
    simp only [if_true, Bank.swept_ref]
    by_cases hm : Meets (m.banks k).region v
    · exact fun hb => h ⟨hm, hb.2⟩
    · simp [Bank.swept, hm]
  · simpa [hki] using h

theorem invalidateFrom_append {is : List Nat} (h : ∀ i ∈ is, ¬ Busy m v i) (js : List Nat) :
    invalidateFrom close v (is ++ js) m =
      invalidateFrom close v js (is.foldl (sweep close v) m) := by
  induction is generalizing m with
  | nil => rfl
  | cons i is ih =>
    have hi := h i (by simp)
    have hs := ih (m := sweep close v m i) (fun k hk => sweep_busy (h k (by simp [hk])))
    simp only [List.cons_append, List.foldl_cons, invalidateFrom, ← hs]
    by_cases hm : Meets (m.banks i).region v
    · have hb : ¬ 0 < (m.banks i).ref := fun hb => hi ⟨hm, hb⟩
      simp [sweep, hm, hb]
    · simp [sweep, hm]

theorem invalidate_calm (h : Calm m v) :
    invalidate close m v = (0, (List.range m.attr.bankCount).foldl (sweep close v) m) := by
  have ha : invalidateFrom close v (List.range m.attr.bankCount ++ []) m = _ :=
    invalidateFrom_append (fun i hi => h i (List.mem_range.1 hi)) []
  rw [List.append_nil] at ha
  rw [invalidate, ha]
  rfl

theorem invalidate_first {i : Nat} (h : FirstBusy m v i) :
    invalidate close m v = (-EBUSY, (List.range i).foldl (sweep close v) m) := by
  obtain ⟨hi, hb, hf⟩ := h
  obtain ⟨r, hr⟩ : ∃ r, m.attr.bankCount = i + (r + 1) := ⟨m.attr.bankCount - i - 1, by omega⟩
  have hrange : List.range m.attr.bankCount =
      List.range i ++ i :: (List.range r).map (fun k => i + (k + 1)) := by
    rw [hr, List.range_add, List.range_succ_eq_map, List.map_cons, List.map_map]
    rfl
  have hbank : ((List.range i).foldl (sweep close v) m).banks i = m.banks i := by
    simp [sweeps_banks]
  rw [invalidate, hrange, invalidateFrom_append (fun k hk => hf k (List.mem_range.1 hk)),
    invalidateFrom, hbank, if_pos hb.1, if_pos hb.2]

theorem calm_or_first (m : Manager) (v : Region) : Calm m v ∨ ∃ i, FirstBusy m v i := by
  by_cases h : ∃ i, i < m.attr.bankCount ∧ Busy m v i
  · right
    have hf := Nat.find_spec h
    refine ⟨Nat.find h, hf.1, hf.2, fun k hk hb => ?_⟩
    exact Nat.find_min h hk ⟨by omega, hb⟩
  · left
    intro i hi hb
    exact h ⟨i, hi, hb⟩

theorem FirstBusy.not_calm {i : Nat} (h : FirstBusy m v i) : ¬ Calm m v :=
  fun hc => hc i h.1 h.2.1

theorem invalidate_ret (close : Nat → Int) (m : Manager) (v : Region) :
    ((invalidate close m v).1 = -EBUSY ↔ ¬ Calm m v) ∧
      ((invalidate close m v).1 = 0 ↔ Calm m v) := by
  rcases calm_or_first m v with hc | ⟨i, hf⟩
  · rw [invalidate_calm hc]
    simp [hc, EBUSY]
  · rw [invalidate_first hf]
    simp [hf.not_calm, EBUSY]

end Loop

section Refusal

variable {close : Nat → Int} {m : Manager} {v : Region}

/-- Invalidation refuses exactly when a bank that shares a byte with the region is in use. It
changes nothing then, and otherwise unregisters no bank that shares no byte. -/
structure Refuses (close : Nat → Int) (m : Manager) (v : Region) : Prop where
  busy : (invalidate close m v).1 = -EBUSY ↔
    ∃ i < m.attr.bankCount, 0 < (m.banks i).ref ∧ (m.banks i).region.Shares v
  unchanged : (invalidate close m v).1 = -EBUSY → (invalidate close m v).2 = m
  only : (invalidate close m v).1 ≠ -EBUSY → ∀ i, (m.banks i).registered = true →
    ((invalidate close m v).2.banks i).registered = false → (m.banks i).region.Shares v

/-- A busy bank shares a byte with the region, or another one in use does. The banks before it
that meet the region have nothing to lose. Without a busy bank, those that merely
touch the region have nothing that can be closed. -/
structure Discerns (close : Nat → Int) (m : Manager) (v : Region) : Prop where
  shared : ∀ i < m.attr.bankCount, Busy m v i →
    ∃ k < m.attr.bankCount, 0 < (m.banks k).ref ∧ (m.banks k).region.Shares v
  spared : ∀ i, FirstBusy m v i → ∀ k < i, Meets (m.banks k).region v →
    (m.banks k).nonvolatile = false ∧ ((m.banks k).registered = true → close k ≠ 0)
  touching : Calm m v → ∀ i < m.attr.bankCount, Meets (m.banks i).region v →
    ¬ (m.banks i).region.Shares v → (m.banks i).registered = true → close i ≠ 0

theorem Bank.swept_nonvolatile {c : Int} {b : Bank} (h : Meets b.region v) :
    (b.swept c v).nonvolatile = false := by
  simp only [Bank.swept, if_pos h]
  split <;> rfl

theorem Bank.swept_registered (c : Int) (v : Region) (b : Bank) :
    (b.swept c v).registered = false ↔
      b.registered = false ∨ (Meets b.region v ∧ c = 0) := by
  simp only [Bank.swept]
  by_cases hm : Meets b.region v
  · by_cases hr : b.registered = true ∧ c = 0
    · simp [hm, hr]
    · simp only [hm, hr, if_true, if_false, true_and]
      cases hb : b.registered <;> simp_all
  · simp [hm]

/-- Which inputs make invalidation refuse as it should. -/
theorem refuses_iff (close : Nat → Int) (m : Manager) (v : Region) :
    Refuses close m v ↔ Discerns close m v := by
  obtain ⟨hbusy, _⟩ := invalidate_ret close m v
  have hmeets : ∀ i < m.attr.bankCount, 0 < (m.banks i).ref → (m.banks i).region.Shares v →
      ¬ Calm m v := fun i hi hr hs hc => hc i hi ⟨meets_of_shares hs, hr⟩
  constructor
  · intro h
    refine ⟨?_, ?_, ?_⟩
    · intro i hi hb
      exact h.busy.1 (hbusy.2 (fun hc => hc i hi hb))
    · intro i hf k hk hm
      have hsame := h.unchanged (hbusy.2 hf.not_calm)
      rw [invalidate_first hf] at hsame
      have hb : (m.banks k).swept (close k) v = m.banks k := by
        have hb := sweeps_banks close v m i k
        simp only at hsame
        rw [hsame, if_pos hk] at hb
        exact hb.symm
      refine ⟨?_, fun hr hc => ?_⟩
      · rw [← hb]
        exact Bank.swept_nonvolatile hm
      · have hr' := (Bank.swept_registered (close k) v (m.banks k)).2 (.inr ⟨hm, hc⟩)
        rw [hb, hr] at hr'
        cases hr'
    · intro hc i hi hm hs hr hz
      apply hs
      refine h.only (fun hret => hbusy.1 hret hc) i hr ?_
      rw [invalidate_calm hc]
      simp only [sweeps_banks, hi, if_true]
      exact (Bank.swept_registered ..).2 (.inr ⟨hm, hz⟩)
  · intro h
    refine ⟨?_, ?_, ?_⟩
    · rw [hbusy]
      constructor
      · intro hc
        obtain ⟨i, hf⟩ := (calm_or_first m v).resolve_left hc
        exact h.shared i hf.1 hf.2.1
      · rintro ⟨i, hi, hr, hs⟩
        exact hmeets i hi hr hs
    · intro hret
      obtain ⟨i, hf⟩ := (calm_or_first m v).resolve_left (hbusy.1 hret)
      rw [invalidate_first hf]
      exact sweeps_idle (h.spared i hf)
    · intro hret i hr hr'
      have hc : Calm m v := by
        by_contra hc
        exact hret (hbusy.2 hc)
      rw [invalidate_calm hc] at hr'
      simp only [sweeps_banks] at hr'
      split at hr'
      · next hi =>
        rcases (Bank.swept_registered ..).1 hr' with hf | ⟨hm, hz⟩
        · rw [hr] at hf
          cases hf
        · by_contra hs
          exact h.touching hc i hi hm hs hr hz
      · rw [hr] at hr'
        cases hr'

/-- A region that begins where a referenced bank ends cannot be invalidated. -/
theorem adjacent_refused :
    ¬ ∀ s, machine.Reachable s → ∀ close v, 0 < v.len → Refuses close s.mgr v := by
  intro h
  obtain ⟨s, hs, hp⟩ := Machine.exists_reachable (M := machine) (s := oneBank)
    [.describe [⟨4096, 100⟩] (fun _ => ⟨0, 0⟩)]
    (fun s => (invalidate (fun _ => 0) s.mgr ⟨4196, 100⟩).1 = -EBUSY ∧
      s.mgr.attr.bankCount = 1 ∧ ¬ (s.mgr.banks 0).region.Shares ⟨4196, 100⟩)
    ⟨_, _, _, _, rfl⟩ (by decide)
  simp only [Bool.decide_and, Bool.and_eq_true, decide_eq_true_eq] at hp
  obtain ⟨hret, hn, hs'⟩ := hp
  obtain ⟨i, hi, _, hsh⟩ := (h s hs (fun _ => 0) ⟨4196, 100⟩ (by decide)).busy.1 hret
  rw [hn] at hi
  obtain rfl : i = 0 := by omega
  exact hs' hsh

end Refusal

end OfiTransport.Mr
