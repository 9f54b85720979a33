import OfiTransport.Mr.Purge

/-! Which bank `ofi_mr_find_bank` evicts.  The ages of the banks are numbers of registrations,
of which 32 bits are kept. -/

namespace OfiTransport.Mr

open Lib

def Bank.since (b : Bank) : Nat :=
  match b.mr with
  | none => 0
  | some id => id + 1

def Uncovered (m : Manager) (v : Region) : Prop :=
  ∀ k < m.attr.bankCount, ¬ (m.banks k).region.Covers v

def Precedes (m : Manager) (i k : Nat) : Prop :=
  (m.banks i).age < (m.banks k).age ∨ ((m.banks i).age = (m.banks k).age ∧ i ≤ k)

instance (m : Manager) (v : Region) : Decidable (Uncovered m v) :=
  inferInstanceAs (Decidable (∀ k < _, _))

instance (m : Manager) (i k : Nat) : Decidable (Precedes m i k) :=
  inferInstanceAs (Decidable (_ ∨ _))

instance (m : Manager) (i : Nat) : Decidable (Evictable m i) :=
  inferInstanceAs (Decidable (_ ∧ _))

structure Foremost (m : Manager) (i : Nat) : Prop where
  bound : i < m.attr.bankCount
  evictable : Evictable m i
  least : ∀ k < m.attr.bankCount, Evictable m k → Precedes m i k

structure Oldest (m : Manager) (i : Nat) : Prop where
  bound : i < m.attr.bankCount
  evictable : Evictable m i
  least : ∀ k < m.attr.bankCount, Evictable m k → (m.banks i).since ≤ (m.banks k).since

/-- The search is for bank `i` to be registered anew, returns what the provider answers to that,
and does nothing to another bank. -/
structure Reregisters (a : Answers) (m : Manager) (v : Region) (i : Nat) : Prop where
  picked : lookup m v = .evict i
  others : ∀ k, k ≠ i → (findBank a m v).2.1.banks k = m.banks k
  ret : (findBank a m v).1 = if (m.banks i).registered = true ∧ a.close ≠ 0 then a.close else a.reg
  anew : (findBank a m v).1 = 0 → (findBank a m v).2.2 = some i ∧
    ((findBank a m v).2.1.banks i).registered = true ∧
    ((findBank a m v).2.1.banks i).mr = some m.domain.nextMr

/-- Without a bank for the region, the search gives up exactly when none may be evicted, and
else the oldest is registered anew. -/
structure EvictsOldest (a : Answers) (m : Manager) (v : Region) : Prop where
  again : (findBank a m v).1 = -EAGAIN ↔ ∀ i < m.attr.bankCount, ¬ Evictable m i
  oldest : (∃ i < m.attr.bankCount, Evictable m i) → ∃ i, Oldest m i ∧ Reregisters a m v i

/-- An oldest bank precedes all that were registered later, and the provider does not itself
answer with the error that stands for no bank. -/
structure Orderly (a : Answers) (m : Manager) : Prop where
  aged : (∃ i < m.attr.bankCount, Evictable m i) → ∃ i, Oldest m i ∧
    ∀ k < m.attr.bankCount, Evictable m k → (m.banks i).since < (m.banks k).since → Precedes m i k
  answered : ∀ i, Foremost m i → if (m.banks i).registered then
    a.close ≠ -EAGAIN ∧ (a.close = 0 → a.reg ≠ -EAGAIN) else a.reg ≠ -EAGAIN

section Scan

variable {m : Manager} {v : Region} {a : Answers} {i k l : Nat}

theorem Precedes.refl (m : Manager) (i : Nat) : Precedes m i i := .inr ⟨rfl, Nat.le_refl i⟩

theorem Precedes.trans (h : Precedes m i k) (h' : Precedes m k l) : Precedes m i l := by
  simp only [Precedes] at *
  omega

theorem Precedes.antisymm (h : Precedes m i k) (h' : Precedes m k i) : i = k := by
  simp only [Precedes] at *
  omega

theorem Foremost.unique (h : Foremost m i) (h' : Foremost m k) : i = k :=
  (h.least k h'.bound h'.evictable).antisymm (h'.least i h.bound h.evictable)

theorem scan_evict_least {is : List Nat} (hs : is.Pairwise (· < ·)) {o : Option Nat}
    (ho : ∀ k, o = some k → ∀ l ∈ is, k < l) (h : scan m v is o = .evict i) :
    (∀ k, o = some k → Precedes m i k) ∧ ∀ l ∈ is, Evictable m l → Precedes m i l := by
  induction is generalizing o with
  | nil =>
    cases o with
    | none => cases h
    | some k =>
      cases h
      exact ⟨fun k hk => by cases hk; exact .refl m i, by simp⟩
  | cons j is ih =>
    obtain ⟨hj, hs⟩ := List.pairwise_cons.1 hs
    simp only [scan] at h
    split at h
    · cases h
    · have hnew : ∀ k, some j = some k → ∀ l ∈ is, k < l := by
        intro k hk
        cases hk
        exact hj
      have hold : ∀ k, o = some k → ∀ l ∈ is, k < l :=
        fun k hk l hl => ho k hk l (List.mem_cons_of_mem j hl)
      cases o with
      | none =>
        by_cases hf : (m.banks j).ref = 0 ∧ (m.banks j).nonvolatile = false
        · rw [older, if_pos hf] at h
          obtain ⟨hpre, hrest⟩ := ih hs hnew h
          refine ⟨by simp, fun l hl hel => ?_⟩
          rcases List.mem_cons.1 hl with rfl | hl
          · exact hpre l rfl
          · exact hrest l hl hel
        · rw [older, if_neg hf] at h
          obtain ⟨_, hrest⟩ := ih hs hold h
          refine ⟨by simp, fun l hl hel => ?_⟩
          rcases List.mem_cons.1 hl with rfl | hl
          · exact absurd hel hf
          · exact hrest l hl hel
      | some p =>
        have hpj := ho p rfl j List.mem_cons_self
        by_cases hf : (m.banks j).ref = 0 ∧ (m.banks j).nonvolatile = false ∧
            (m.banks j).age < (m.banks p).age
        · rw [older, if_pos hf] at h
          obtain ⟨hpre, hrest⟩ := ih hs hnew h
          have hij := hpre j rfl
          refine ⟨fun k hk => ?_, fun l hl hel => ?_⟩
          · cases hk
            exact hij.trans (.inl hf.2.2)
          · rcases List.mem_cons.1 hl with rfl | hl
            · exact hij
            · exact hrest l hl hel
        · rw [older, if_neg hf] at h
          obtain ⟨hpre, hrest⟩ := ih hs hold h
          have hip := hpre p rfl
          refine ⟨hpre, fun l hl hel => ?_⟩
          rcases List.mem_cons.1 hl with rfl | hl
          · have hage : ¬ (m.banks l).age < (m.banks p).age := fun ha => hf ⟨hel.1, hel.2, ha⟩
            refine hip.trans ?_
            simp only [Precedes]
            omega
          · exact hrest l hl hel

theorem lookup_evict_foremost (h : lookup m v = .evict i) : Foremost m i := by
  obtain ⟨hi, he, _⟩ := lookup_evict_spec h
  refine ⟨hi, he, fun k hk => ?_⟩
  exact (scan_evict_least List.pairwise_lt_range (by simp) h).2 k (List.mem_range.2 hk)

theorem lookup_again (h : lookup m v = .again) : ∀ i < m.attr.bankCount, ¬ Evictable m i := by
  rintro i hi ⟨hr, hn⟩
  have hs := (scan_again h).2 i (List.mem_range.2 hi)
  simp [hr, hn] at hs

theorem Uncovered.lookup (h : Uncovered m v) :
    (Mr.lookup m v = .again ∧ ∀ i < m.attr.bankCount, ¬ Evictable m i) ∨
      ∃ i, Mr.lookup m v = .evict i ∧ Foremost m i := by
  cases hl : Mr.lookup m v with
  | hit i =>
    obtain ⟨hi, hc⟩ := lookup_hit hl
    exact absurd hc (h i hi)
  | again => exact .inl ⟨rfl, lookup_again hl⟩
  | evict i => exact .inr ⟨i, rfl, lookup_evict_foremost hl⟩

theorem Uncovered.foremost_lookup (h : Uncovered m v) (hf : Foremost m i) :
    Mr.lookup m v = .evict i := by
  rcases h.lookup with ⟨_, hn⟩ | ⟨k, hl, hk⟩
  · exact absurd hf.evictable (hn i hf.bound)
  · rw [hl, hf.unique hk]

theorem register_ret (a : Answers) (m : Manager) (i : Nat) : (register a m i).1 =
    if (m.banks i).registered = true ∧ a.close ≠ 0 then a.close else a.reg := by
  have hfresh : ∀ m : Manager, (registerFresh a.reg m i).1 = a.reg := by
    intro m
    by_cases hr : a.reg = 0
    · rw [hr, registerFresh_zero]
    · rw [registerFresh_fail hr]
  cases hi : (m.banks i).registered with
  | false => simp [register, hi, hfresh]
  | true =>
    by_cases hc : a.close = 0
    · have hu : (unregister 0 m i).1 = 0 := by simp [unregister, hi]
      simp [register, hi, hc, hu, hfresh]
    · simp [register, hi, unregister_fail hi hc, hc]

theorem findBank_evict_ret (hl : lookup m v = .evict i) : (findBank a m v).1 =
    if (m.banks i).registered = true ∧ a.close ≠ 0 then a.close else a.reg := by
  have hr := register_ret a (m.modifyBank i (fun b => { b with base := v.base, len := v.len })) i
  simp only [Manager.modifyBank_banks, if_true] at hr
  simp only [findBank, hl]
  split
  · exact hr
  · next h0 =>
    rw [← hr]
    simpa using (not_not.1 h0).symm

theorem register_registered (h : (register a m i).1 = 0) :
    ((register a m i).2.banks i).registered = true := by
  have hfresh : ∀ m : Manager, (registerFresh a.reg m i).1 = 0 →
      ((registerFresh a.reg m i).2.banks i).registered = true := by
    intro m h
    by_cases hr : a.reg = 0
    · rw [hr, registerFresh_zero]
      simp
    · rw [registerFresh_fail hr] at h
      exact absurd h hr
  simp only [register] at h ⊢
  split at h
  · next hi =>
    rw [if_pos hi]
    split at h
    · next hu => exact absurd h hu
    · next hu =>
      rw [if_neg hu]
      exact hfresh _ h
  · next hi =>
    rw [if_neg hi]
    exact hfresh m h

theorem reregisters_of_evict (hl : lookup m v = .evict i) : Reregisters a m v i := by
  refine ⟨hl, fun k hk => ?_, findBank_evict_ret hl, fun h => ?_⟩
  · have hs := register_elsewhere a
      (m.modifyBank i (fun b => { b with base := v.base, len := v.len })) i k hk
    rw [Manager.modifyBank_banks, if_neg hk] at hs
    simp only [findBank, hl]
    split <;> exact hs
  · simp only [findBank, hl] at h ⊢
    split at h
    · next hr => exact absurd h hr
    · next hr =>
      have hr := not_not.1 hr
      obtain ⟨_, hmr, _⟩ := register_ok hr
      rw [if_neg (not_not.2 hr)]
      exact ⟨rfl, register_registered hr, hmr⟩

/-- Which states and answers make the search evict the oldest bank. -/
theorem evictsOldest_iff (hu : Uncovered m v) : EvictsOldest a m v ↔ Orderly a m := by
  have hans : ∀ i, Foremost m i → ((findBank a m v).1 = -EAGAIN ↔
      ¬ if (m.banks i).registered then a.close ≠ -EAGAIN ∧ (a.close = 0 → a.reg ≠ -EAGAIN)
        else a.reg ≠ -EAGAIN) := by
    intro i hf
    rw [findBank_evict_ret (hu.foremost_lookup hf)]
    cases hr : (m.banks i).registered with
    | false => simp
    | true =>
      by_cases hc : a.close = 0
      · simp [hc, EAGAIN]
      · simp [hc]
  constructor
  · intro h
    refine ⟨fun he => ?_, fun i hf => ?_⟩
    · obtain ⟨i, ho, hr⟩ := h.oldest he
      exact ⟨i, ho, fun k hk hek _ => (lookup_evict_foremost hr.picked).least k hk hek⟩
    · by_contra hn
      exact h.again.1 ((hans i hf).2 hn) i hf.bound hf.evictable
  · intro h
    rcases hu.lookup with ⟨hl, hn⟩ | ⟨i, hl, hf⟩
    · refine ⟨?_, ?_⟩
      · simp only [findBank, hl, true_iff]
        exact hn
      · rintro ⟨i, hi, he⟩
        exact absurd he (hn i hi)
    · refine ⟨?_, fun he => ⟨i, ?_, reregisters_of_evict hl⟩⟩
      · rw [hans i hf]
        constructor
        · intro hn
          exact absurd (h.answered i hf) hn
        · intro hn
          exact absurd hf.evictable (hn i hf.bound)
      · obtain ⟨k, ho, hlater⟩ := h.aged he
        -- a bank registered after an oldest one is not what the scan prefers
        have hle : (m.banks i).since ≤ (m.banks k).since := by
          by_contra hlt
          have hik := (hlater i hf.bound hf.evictable (by omega)).antisymm
            (hf.least k ho.bound ho.evictable)
          rw [hik] at hlt
          omega
        exact ⟨hf.bound, hf.evictable, fun l hl he => Nat.le_trans hle (ho.least l hl he)⟩

def served (m : Manager) (v : Region) : Manager := (findBank ⟨0, 0⟩ m v).2.1

theorem served_reachable {s : System} (r : machine.Reachable s)
    (hv : s.mgr.attr.slabSize < v.len) (hf : (findBank ⟨0, 0⟩ s.mgr v).2.2 = some i) :
    machine.Reachable ⟨served s.mgr v, s.live⟩ := by
  obtain ⟨m, hm⟩ : ∃ m, findBank ⟨0, 0⟩ s.mgr v = (0, m, some i) := by
    have h0 := (findBank_some hf).1
    exact ⟨_, Prod.ext h0 (Prod.ext rfl hf)⟩
  have hlen : v.len ≠ 0 := by omega
  have hslab : tryslab s.mgr v = (-EFBIG, s.mgr, none) := by rw [tryslab, if_pos hv]
  let c : Context := ⟨[(m.banks i).mr], [i], []⟩
  have hd : describe (fun _ => ⟨0, 0⟩) s.mgr [v] =
      ⟨0, m.modifyBank i (fun b => { b with ref := b.ref + 1 }), [v], some c⟩ := by
    simp [describe, describeFrom, describeIov, Describing.start, hlen, hslab, hm, c]
  have hr : release (m.modifyBank i (fun b => { b with ref := b.ref + 1 })) c = m := by
    simp [release, releaseBanks, releaseSlabs, Manager.modifyBank, c]
  have hs : machine.step s (.describe [v] (fun _ => ⟨0, 0⟩)) =
      .ok ⟨m.modifyBank i (fun b => { b with ref := b.ref + 1 }), c :: s.live⟩ := by
    simp [machine, step, hd]
  have hs' : machine.step ⟨m.modifyBank i (fun b => { b with ref := b.ref + 1 }), c :: s.live⟩
      (.release c) = .ok ⟨m, s.live⟩ := by
    simp [machine, step, hr]
  rw [served, hm]
  exact (r.step rfl hs).step (by simp [machine, enabled]) hs'

/-- Three banks, of which the first has been evicted for the fourth message. -/
def fourServed : Manager :=
  [⟨4096, 100⟩, ⟨8192, 100⟩, ⟨12288, 100⟩, ⟨16384, 100⟩].foldl served
    (init ⟨3, 0, 0, 0⟩ .unused 0 0).2

theorem fourServed_reachable : machine.Reachable ⟨fourServed, []⟩ := by
  have r : machine.Reachable ⟨(init ⟨3, 0, 0, 0⟩ .unused 0 0).2, []⟩ :=
    ⟨[], .init ⟨_, _, _, _, rfl⟩⟩
  have r₁ := served_reachable (v := ⟨4096, 100⟩) (i := 0) r (by decide) (by decide)
  have r₂ := served_reachable (v := ⟨8192, 100⟩) (i := 1) r₁ (by decide) (by decide)
  have r₃ := served_reachable (v := ⟨12288, 100⟩) (i := 2) r₂ (by decide) (by decide)
  exact served_reachable (v := ⟨16384, 100⟩) (i := 0) r₃ (by decide) (by decide)

theorem fourServed_evictsOldest : machine.Reachable ⟨fourServed, []⟩ ∧
    EvictsOldest ⟨0, 0⟩ fourServed ⟨20480, 100⟩ := by
  refine ⟨fourServed_reachable, (evictsOldest_iff (by decide)).2 ⟨fun _ => ?_, fun _ _ => ?_⟩⟩
  · exact ⟨1, ⟨by decide, by decide, by decide⟩, by decide⟩
  · split <;> decide

end Scan

/-- The ages are the numbers of the registrations, of which 32 bits are kept. -/
structure Aged (off : Nat) (m : Manager) : Prop where
  begun : off ≤ m.domain.nextMr
  clock : m.age = toUInt32 (m.domain.nextMr - off : Nat)
  never : ∀ i, (m.banks i).mr = none → (m.banks i).age = 0
  bank : ∀ i id, (m.banks i).mr = some id →
    off ≤ id ∧ id < m.domain.nextMr ∧ (m.banks i).age = toUInt32 (id + 1 - off : Nat)

section Ages

variable {off : Nat} {m m' : Manager} {v : Region} {a : Answers} {i : Nat}

theorem Aged.congr (h : Aged off m) (hn : m'.domain.nextMr = m.domain.nextMr)
    (hc : m'.age = m.age) (hm : ∀ i, (m'.banks i).mr = (m.banks i).mr)
    (ha : ∀ i, (m'.banks i).age = (m.banks i).age) : Aged off m' := by
  refine ⟨?_, ?_, fun i hi => ?_, fun i id hi => ?_⟩
  · rw [hn]
    exact h.begun
  · rw [hc, hn]
    exact h.clock
  · rw [ha]
    exact h.never i ((hm i).symm.trans hi)
  · rw [ha, hn]
    exact h.bank i id ((hm i).symm.trans hi)

theorem Turn.aged (h : Aged off m) (ht : Turn m m') : Aged off m' := by
  cases ht with
  | note i f hr hm ha =>
    refine h.congr rfl rfl (fun k => ?_) (fun k => ?_)
    · by_cases hki : k = i <;> simp [hki, hm]
    · by_cases hki : k = i <;> simp [hki, ha]
  | flag j u => exact h.congr rfl rfl (fun _ => rfl) (fun _ => rfl)
  | copy dst src => exact h.congr rfl rfl (fun _ => rfl) (fun _ => rfl)
  | close i hi =>
    obtain ⟨hn, hb⟩ := unregister_elsewhere 0 m i
    refine h.congr hn ?_ (fun k => ?_) (fun k => ?_)
    · simp [unregister, hi, Manager.modifyBank]
    · by_cases hki : k = i
      · simp [unregister, hi, hki]
      · rw [hb k hki]
    · by_cases hki : k = i
      · simp [unregister, hi, hki]
      · rw [hb k hki]
  | adopt i hi =>
    have hbegun := h.begun
    have hage : toUInt32 (m.age + 1) = toUInt32 (m.domain.nextMr + 1 - off : Nat) := by
      rw [h.clock]
      simp only [toUInt32]
      omega
    rw [registerFresh_zero]
    refine ⟨Nat.le_succ_of_le hbegun, hage, fun k hk => ?_, fun k id hk => ?_⟩
    · have hki : k ≠ i := by
        rintro rfl
        simp at hk
      simpa [hki] using h.never k (by simpa [hki] using hk)
    · by_cases hki : k = i
      · have he : m.domain.nextMr = id := by simpa [hki] using hk
        rw [← he]
        exact ⟨hbegun, Nat.lt_succ_self _, by simpa [hki] using hage⟩
      · obtain ⟨hle, hlt, ha⟩ := h.bank k id (by simpa [hki] using hk)
        exact ⟨hle, Nat.lt_succ_of_lt hlt, by simpa [hki] using ha⟩

theorem init_aged (attr : Attr) (domain : Domain) (slabMem : Nat) (reg : Int) :
    Aged (init attr domain slabMem reg).2.domain.nextMr (init attr domain slabMem reg).2 := by
  simp only [init]
  split
  · exact ⟨Nat.le_refl _, by simp [toUInt32], by simp, by simp⟩
  · split <;> exact ⟨Nat.le_refl _, by simp [toUInt32], by simp, by simp⟩

theorem Turns.aged (h : Turns m m') (hm : Aged off m) : Aged off m' :=
  h.keeps (fun _ _ hm ht => ht.aged hm) hm

/-- As long as the counter has not come round, the ages are in the order of the
registrations. -/
theorem Aged.since (h : Aged off m) (hfew : m.domain.nextMr < off + 2 ^ 32) (i : Nat) :
    (m.banks i).since = if (m.banks i).age = 0 then 0 else (m.banks i).age + off := by
  simp only [Bank.since]
  cases hm : (m.banks i).mr with
  | none => simp [h.never i hm]
  | some id =>
    obtain ⟨hle, hlt, ha⟩ := h.bank i id hm
    have hage : (m.banks i).age = id + 1 - off := by
      rw [ha]
      simp only [toUInt32]
      omega
    rw [if_neg (by omega)]
    simp only
    omega

/-- A manager that has made fewer than 2 ^ 32 registrations evicts the oldest bank. -/
theorem path_evictsOldest {s₀ s : System} {h : List (System × Event)} (hi : machine.init s₀)
    (p : Machine.Path machine s₀ h s)
    (hfew : s.mgr.domain.nextMr < s₀.mgr.domain.nextMr + 2 ^ 32) (hu : Uncovered s.mgr v)
    (ha : a.close ≠ -EAGAIN ∧ a.reg ≠ -EAGAIN) : EvictsOldest a s.mgr v := by
  obtain ⟨attr, domain, slabMem, reg, rfl⟩ := hi
  have hm : Aged _ s.mgr := (path_turns p).aged (init_aged attr domain slabMem reg)
  have hsince := hm.since hfew
  rw [evictsOldest_iff hu]
  refine ⟨?_, fun i _ => ?_⟩
  · rintro ⟨k, hk, hek⟩
    rcases hu.lookup with ⟨_, hn⟩ | ⟨i, _, hf⟩
    · exact absurd hek (hn k hk)
    · refine ⟨i, ⟨hf.bound, hf.evictable, fun l hl hel => ?_⟩, fun l hl hel _ => hf.least l hl hel⟩
      have hp := hf.least l hl hel
      rw [hsince, hsince]
      simp only [Precedes] at hp
      split <;> split <;> omega
  · split
    · exact ⟨ha.1, fun _ => ha.2⟩
    · exact ha.2

end Ages

section Wrap

variable {m : Manager} {v : Region} {i k n : Nat} {s : System}

theorem Foremost.served (h : Foremost m i) (hu : Uncovered m v)
    (hi : (m.banks i).registered = true) {id : Nat} (hmr : (m.banks i).mr = some id) :
    (findBank ⟨0, 0⟩ m v).2.2 = some i ∧
    (served m v).domain.nextMr = m.domain.nextMr + 1 ∧
    (served m v).banks = Function.update m.banks i { m.banks i with
      base := 0, len := 0, mr := some m.domain.nextMr, age := toUInt32 (m.age + 1) } := by
  let f : Bank → Bank := fun b => { b with base := v.base, len := v.len }
  have hl := hu.foremost_lookup h
  have hmr' : ((m.modifyBank i f).banks i).mr = some id := by simpa [f] using hmr
  have hun := unregister_zero (by simpa [f] using hi) hmr'
  have hreg : (register ⟨0, 0⟩ (m.modifyBank i f) i).1 = 0 := register_easy ..
  refine ⟨by simp [findBank, hl, hreg, f], ?_, ?_⟩
  · have hn := (register_ok hreg).1
    simpa [Mr.served, findBank, hl, hreg, f] using hn
  · have hs : (Mr.served m v).banks = (register ⟨0, 0⟩ (m.modifyBank i f) i).2.banks := by
      simp [Mr.served, findBank, hl, hreg, f]
    rw [hs]
    funext j
    by_cases hj : j = i
    · subst hj
      have hi' : ((m.modifyBank j f).banks j).registered = true := by simpa [f] using hi
      simp only [register, if_pos hi', hun, ne_eq, not_true, if_false, registerFresh_zero]
      simp [Domain.mrClose, Manager.modifyBank, f, hi]
    · rw [Function.update_of_ne hj, (register_ok hreg).2.2 j hj]
      simp [hj]

/-- Two banks that have served one message after the other in turn: the registrations `n` and
`n + 1` are the last, and bank `id % 2` has the registration `id`. -/
structure Alternating (n : Nat) (s : System) : Prop where
  reachable : machine.Reachable s
  count : s.mgr.attr.bankCount = 2
  slabless : s.mgr.attr.slabSize = 0
  next : s.mgr.domain.nextMr = n + 2
  aged : Aged 0 s.mgr
  evictable : ∀ i < 2, Evictable s.mgr i
  registered : ∀ i < 2, (s.mgr.banks i).registered = true
  uncovered : Uncovered s.mgr ⟨12288, 100⟩
  mr : ∀ id, n ≤ id → id < n + 2 → (s.mgr.banks (id % 2)).mr = some id

theorem Alternating.age (h : Alternating n s) (id : Nat) (hle : n ≤ id) (hlt : id < n + 2) :
    (s.mgr.banks (id % 2)).age = toUInt32 (id + 1 : Nat) :=
  (h.aged.bank _ id (h.mr id hle hlt)).2.2

theorem Alternating.foremost (h : Alternating n s) (hn : n + 2 < 2 ^ 32) :
    Foremost s.mgr (n % 2) := by
  have hbound : n % 2 < 2 := Nat.mod_lt n (by omega)
  have hfirst : (s.mgr.banks (n % 2)).age = n + 1 := by
    rw [h.age n (Nat.le_refl n) (by omega)]
    simp only [toUInt32]
    omega
  have hsecond : (s.mgr.banks ((n + 1) % 2)).age = n + 2 := by
    rw [h.age (n + 1) (Nat.le_succ n) (by omega)]
    simp only [toUInt32]
    omega
  refine ⟨by rwa [h.count], h.evictable _ hbound, fun k hk _ => ?_⟩
  rw [h.count] at hk
  have hcases : k = n % 2 ∨ k = (n + 1) % 2 := by omega
  rcases hcases with rfl | rfl
  · exact .refl ..
  · left
    rw [hfirst, hsecond]
    exact Nat.lt_succ_self _

theorem Alternating.succ (h : Alternating n s) (hn : n + 2 < 2 ^ 32) :
    ∃ s', Alternating (n + 1) s' := by
  have hbound : n % 2 < 2 := Nat.mod_lt n (by omega)
  obtain ⟨hf, hnext, hbanks⟩ := (h.foremost hn).served h.uncovered (h.registered _ hbound)
    (h.mr n (Nat.le_refl n) (by omega))
  have hturns : Turns s.mgr (served s.mgr ⟨12288, 100⟩) := findBank_turns ..
  have hattr := hturns.fixed.1
  refine ⟨⟨served s.mgr ⟨12288, 100⟩, s.live⟩, ?_, ?_, ?_, ?_, ?_, ?_, ?_, ?_, ?_⟩
  · exact served_reachable h.reachable (by rw [h.slabless]; decide) hf
  · exact (congrArg Attr.bankCount hattr).trans h.count
  · exact (congrArg Attr.slabSize hattr).trans h.slabless
  · rw [hnext, h.next]
  · exact hturns.aged h.aged
  · intro i hi
    simp only [Evictable, hbanks, Function.update_apply]
    split
    · exact h.evictable _ hbound
    · exact h.evictable i hi
  · intro i hi
    simp only [hbanks, Function.update_apply]
    split
    · exact h.registered _ hbound
    · exact h.registered i hi
  · intro i hi
    rw [hattr] at hi
    simp only [hbanks, Function.update_apply]
    split
    · show ¬ (⟨0, 0⟩ : Region).Covers ⟨12288, 100⟩
      decide
    · exact h.uncovered i hi
  · intro id hle hlt
    simp only [hbanks, Function.update_apply]
    split
    · rw [h.next]
      simp only [Option.some.injEq]
      omega
    · exact h.mr id (by omega) (by omega)

def twoServed : Manager :=
  [⟨4096, 100⟩, ⟨8192, 100⟩].foldl served (init ⟨2, 0, 0, 0⟩ .unused 0 0).2

theorem twoServed_alternating : Alternating 0 ⟨twoServed, []⟩ := by
  have r : machine.Reachable ⟨(init ⟨2, 0, 0, 0⟩ .unused 0 0).2, []⟩ :=
    ⟨[], .init ⟨_, _, _, _, rfl⟩⟩
  have r₁ := served_reachable (v := ⟨4096, 100⟩) (i := 0) r (by decide) (by decide)
  have r₂ := served_reachable (v := ⟨8192, 100⟩) (i := 1) r₁ (by decide) (by decide)
  refine ⟨r₂, rfl, rfl, rfl, ?_, by decide, by decide, by decide, ?_⟩
  · exact (findBank_turns ..).aged ((findBank_turns ..).aged (init_aged ⟨2, 0, 0, 0⟩ .unused 0 0))
  · intro id _ hid
    have hcases : id = 0 ∨ id = 1 := by omega
    rcases hcases with rfl | rfl <;> rfl

theorem exists_alternating (hn : n + 1 < 2 ^ 32) : ∃ s, Alternating n s := by
  induction n with
  | zero => exact ⟨_, twoServed_alternating⟩
  | succ n ih =>
    obtain ⟨s, hs⟩ := ih (by omega)
    exact hs.succ (by omega)

/-- The registration after 2 ^ 32 - 1 others has age 0, and its bank is evicted first. -/
theorem wrapped_age_evicted : ¬ ∀ s, machine.Reachable s → ∀ a v, Uncovered s.mgr v →
    EvictsOldest a s.mgr v := by
  intro h
  obtain ⟨s, hs⟩ := exists_alternating (n := 2 ^ 32 - 2) (by omega)
  have hcount := hs.count
  obtain ⟨i, ho, hr⟩ := (h s hs.reachable ⟨0, 0⟩ _ hs.uncovered).oldest
    ⟨0, by omega, hs.evictable 0 (by omega)⟩
  have hf := lookup_evict_foremost hr.picked
  have hage0 : (s.mgr.banks 0).age = 2 ^ 32 - 1 := hs.age (2 ^ 32 - 2) (by omega) (by omega)
  have hage1 : (s.mgr.banks 1).age = 0 := hs.age (2 ^ 32 - 1) (by omega) (by omega)
  have hbound := hf.bound
  have hi0 : i ≠ 0 := by
    rintro rfl
    have hp := hf.least 1 (by omega) (hs.evictable 1 (by omega))
    simp only [Precedes, hage0, hage1] at hp
    omega
  obtain rfl : i = 1 := by omega
  have hle := ho.least 0 (by omega) (hs.evictable 0 (by omega))
  have hmr0 : (s.mgr.banks 0).mr = some (2 ^ 32 - 2) :=
    hs.mr (2 ^ 32 - 2) (by omega) (by omega)
  have hmr1 : (s.mgr.banks 1).mr = some (2 ^ 32 - 1) :=
    hs.mr (2 ^ 32 - 1) (by omega) (by omega)
  simp only [Bank.since, hmr0, hmr1] at hle
  omega

end Wrap

end OfiTransport.Mr
