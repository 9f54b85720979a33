import OfiTransport.Mr.Supply
import OfiTransport.Mr.Frame

/-! The registrations an operation adds: each has a number that was never given out before,
and the key of a bank. -/

namespace OfiTransport.Mr

open Lib

structure Grows (m m' : Manager) : Prop where
  attr : m'.attr = m.attr
  next : m.domain.nextMr ≤ m'.domain.nextMr
  regs : ∀ id g, m'.domain.regs id = some g → m.domain.regs id = some g ∨
    m.domain.nextMr ≤ id ∧ ∃ i < m.attr.bankCount, g.key = toUInt64 (m.attr.baseKey + i + 1)

section Growth

variable {m m' m'' : Manager} {i : Nat}

theorem Grows.refl (m : Manager) : Grows m m := ⟨rfl, Nat.le_refl _, fun _ _ => .inl⟩

theorem Grows.trans (h : Grows m m') (h' : Grows m' m'') : Grows m m'' where
  attr := h'.attr.trans h.attr
  next := Nat.le_trans h.next h'.next
  regs id g hg := by
    rcases h'.regs id g hg with hg | ⟨hid, hk⟩
    · exact h.regs id g hg
    · rw [h.attr] at hk
      exact .inr ⟨Nat.le_trans h.next hid, hk⟩

theorem Grows.of_domain (ha : m'.attr = m.attr) (hd : m'.domain = m.domain) : Grows m m' :=
  ⟨ha, by rw [hd], fun _ _ hg => .inl (by rwa [hd] at hg)⟩

theorem modifyBank_grows (m : Manager) (i : Nat) (f : Bank → Bank) : Grows m (m.modifyBank i f) :=
  .of_domain rfl rfl

theorem unregister_grows (close : Int) (m : Manager) (i : Nat) :
    Grows m (unregister close m i).2 := by
  simp only [unregister]
  split
  · exact .refl m
  · split
    · exact .refl m
    · cases (m.banks i).mr with
      | none => exact .of_domain rfl rfl
      | some id =>
        refine ⟨rfl, Nat.le_refl _, fun id' g hg => .inl ?_⟩
        simp only [Manager.modifyBank_domain, Domain.mrClose_regs] at hg
        split at hg
        · cases hg
        · exact hg

theorem registerFresh_grows (hi : i < m.attr.bankCount) (reg : Int) :
    Grows m (registerFresh reg m i).2 := by
  by_cases hr : reg = 0
  · rw [hr, registerFresh_zero]
    refine ⟨rfl, Nat.le_succ _, fun id g hg => ?_⟩
    simp only [Manager.modifyBank_domain, Domain.mrReg_regs] at hg
    split at hg
    · next hid =>
      cases hg
      exact .inr ⟨Nat.le_of_eq hid.symm, i, hi, rfl⟩
    · exact .inl hg
  · rw [registerFresh_fail hr]
    exact .refl m

theorem register_grows (hi : i < m.attr.bankCount) (a : Answers) :
    Grows m (register a m i).2 := by
  have hu := unregister_grows a.close m i
  simp only [register]
  split
  · split
    · exact hu
    · exact hu.trans (registerFresh_grows (by rwa [hu.attr]) _)
  · exact registerFresh_grows hi _

theorem lookup_evict {v : Region} (h : lookup m v = .evict i) : i < m.attr.bankCount := by
  obtain ⟨hi, _⟩ := (scan_evict h).resolve_right (by simp)
  exact List.mem_range.1 hi

theorem findBank_grows (a : Answers) (m : Manager) (v : Region) :
    Grows m (findBank a m v).2.1 := by
  simp only [findBank]
  cases hl : lookup m v with
  | hit i => exact .refl m
  | again => exact .refl m
  | evict i =>
    have hm := modifyBank_grows m i (fun b => { b with base := v.base, len := v.len })
    have hr := hm.trans (register_grows (by rw [hm.attr]; exact lookup_evict hl) a)
    simp only
    split <;> exact hr

theorem tryslab_grows (m : Manager) (v : Region) : Grows m (tryslab m v).2.1 := by
  simp only [tryslab]
  split
  · exact .refl m
  · split
    · exact .refl m
    · exact ⟨rfl, Nat.le_refl _, fun _ _ => .inl⟩

theorem describeIov_grows (a : Answers) (d : Describing) (v : Region) :
    Grows d.mgr (describeIov a d v).2.mgr := by
  simp only [describeIov]
  split
  · exact .refl _
  · split
    · next _ m j ht =>
      have hs := tryslab_grows d.mgr v
      rw [ht] at hs
      exact hs
    · have hs := findBank_grows a d.mgr v
      split
      · next _ m i he =>
        rw [he] at hs
        exact hs.trans (.of_domain rfl rfl)
      · next _ m he =>
        rw [he] at hs
        exact hs

theorem describeFrom_grows (a : Nat → Answers) (k : Nat) (vs : List Region) (d : Describing) :
    Grows d.mgr (describeFrom a k vs d).2.mgr := by
  induction vs generalizing k d with
  | nil => exact .refl _
  | cons v vs ih =>
    simp only [describeFrom]
    split
    · exact describeIov_grows ..
    · exact (describeIov_grows ..).trans (ih ..)

theorem release_grows (m : Manager) (c : Context) : Grows m (release m c) :=
  .of_domain (release_same m c).attr (release_domain m c)

theorem describe_grows (a : Nat → Answers) (m : Manager) (iov : List Region) :
    Grows m (describe a m iov).mgr := by
  simp only [describe]
  split
  · exact .refl m
  · have hf := describeFrom_grows a 0 iov (.start m)
    split
    · exact hf.trans (release_grows _ _)
    · exact hf

end Growth

structure Refills (m m' : Manager) : Prop where
  next : m.domain.nextMr ≤ m'.domain.nextMr
  bank : ∀ i, ((m'.banks i).region = (m.banks i).region ∧ (m'.banks i).mr = (m.banks i).mr) ∨
    ∃ id, (m'.banks i).mr = some id ∧ m.domain.nextMr ≤ id

section Refilling

variable {m m' m'' : Manager} {a : Answers} {v : Region} {i : Nat}

theorem Refills.refl (m : Manager) : Refills m m := ⟨Nat.le_refl _, fun _ => .inl ⟨rfl, rfl⟩⟩

theorem Refills.trans (h : Refills m m') (h' : Refills m' m'') : Refills m m'' where
  next := Nat.le_trans h.next h'.next
  bank i := by
    rcases h'.bank i with ⟨hr', hm'⟩ | ⟨id, hid, hle⟩
    · rw [hr', hm']
      exact h.bank i
    · exact .inr ⟨id, hid, Nat.le_trans h.next hle⟩

theorem Refills.younger (h : Refills m m') {n : Nat} (hn : n ≤ m.domain.nextMr)
    (hi : (m'.banks i).region = (m.banks i).region → ∃ id, (m.banks i).mr = some id ∧ n ≤ id) :
    ∃ id, (m'.banks i).mr = some id ∧ n ≤ id := by
  rcases h.bank i with ⟨hr, hm⟩ | ⟨id, hid, hle⟩
  · rw [hm]
    exact hi hr
  · exact ⟨id, hid, Nat.le_trans hn hle⟩

theorem SameBanks.refills (h : SameBanks m m') (hn : m'.domain.nextMr = m.domain.nextMr) :
    Refills m m' :=
  ⟨Nat.le_of_eq hn.symm, fun i => .inl ⟨h.region i, h.mr i⟩⟩

theorem unregister_elsewhere (close : Int) (m : Manager) (i : Nat) :
    (unregister close m i).2.domain.nextMr = m.domain.nextMr ∧
      ∀ k, k ≠ i → (unregister close m i).2.banks k = m.banks k := by
  simp only [unregister]
  split
  · exact ⟨rfl, fun _ _ => rfl⟩
  · split
    · exact ⟨rfl, fun _ _ => rfl⟩
    · cases (m.banks i).mr with
      | none => exact ⟨rfl, fun k hk => by simp [hk]⟩
      | some id => exact ⟨rfl, fun k hk => by simp [hk]⟩

theorem register_ok (h : (register a m i).1 = 0) :
    (register a m i).2.domain.nextMr = m.domain.nextMr + 1 ∧
      ((register a m i).2.banks i).mr = some m.domain.nextMr ∧
      ∀ k, k ≠ i → (register a m i).2.banks k = m.banks k := by
  have hfresh : ∀ m₁ : Manager, (registerFresh a.reg m₁ i).1 = 0 →
      (registerFresh a.reg m₁ i).2.domain.nextMr = m₁.domain.nextMr + 1 ∧
      ((registerFresh a.reg m₁ i).2.banks i).mr = some m₁.domain.nextMr ∧
      ∀ k, k ≠ i → (registerFresh a.reg m₁ i).2.banks k = m₁.banks k := by
    intro m₁ h₁
    by_cases hr : a.reg = 0
    · rw [hr, registerFresh_zero]
      exact ⟨rfl, by simp, fun k hk => by simp [hk]⟩
    · rw [registerFresh_fail hr] at h₁
      exact absurd h₁ hr
  obtain ⟨hn, hk⟩ := unregister_elsewhere a.close m i
  simp only [register] at h ⊢
  split at h
  · next hreg =>
    rw [if_pos hreg]
    split at h
    · next hr => exact absurd h hr
    · next hr =>
      rw [if_neg hr]
      obtain ⟨h₁, h₂, h₃⟩ := hfresh _ h
      rw [hn] at h₁ h₂
      exact ⟨h₁, h₂, fun k hki => (h₃ k hki).trans (hk k hki)⟩
  · next hreg =>
    rw [if_neg hreg]
    exact hfresh m h

theorem findBank_some (hi : (findBank a m v).2.2 = some i) :
    (findBank a m v).1 = 0 ∧
      ((lookup m v = .hit i ∧ (findBank a m v).2.1 = m) ∨
        ((∀ k, lookup m v ≠ .hit k) ∧ Refills m (findBank a m v).2.1 ∧
          ((findBank a m v).2.1.banks i).mr = some m.domain.nextMr)) := by
  simp only [findBank] at hi ⊢
  cases hl : lookup m v with
  | hit k =>
    simp only [hl, Option.some.injEq] at hi
    subst hi
    exact ⟨rfl, .inl ⟨rfl, rfl⟩⟩
  | again => simp [hl] at hi
  | evict k =>
    simp only [hl] at hi ⊢
    split at hi
    · cases hi
    · next hr =>
      simp only [Option.some.injEq] at hi
      subst hi
      rw [if_neg hr]
      obtain ⟨hn, hm, hk⟩ := register_ok (by simpa using hr)
      refine ⟨rfl, .inr ⟨by simp, ⟨?_, ?_⟩, hm⟩⟩
      · exact Nat.le_of_lt (Nat.lt_of_lt_of_eq (Nat.lt_succ_self _) hn.symm)
      · intro l
        by_cases hlk : l = k
        · subst hlk
          exact .inr ⟨_, hm, Nat.le_refl _⟩
        · left
          rw [hk l hlk]
          simp [hlk]

theorem tryslab_refills (m : Manager) (v : Region) : Refills m (tryslab m v).2.1 := by
  refine (tryslab_same m v).refills ?_
  simp only [tryslab]
  split
  · rfl
  · split <;> rfl

theorem describeIov_large {d : Describing} (hl : d.mgr.attr.slabSize < v.len) :
    (∀ i, (findBank a d.mgr v).2.2 = some i → (describeIov a d v).1 = 0 ∧
      (describeIov a d v).2.ctx.descriptors =
        d.ctx.descriptors ++ [((findBank a d.mgr v).2.1.banks i).mr]) ∧
    ((findBank a d.mgr v).2.2 = none → (describeIov a d v).1 ≠ 0) := by
  have ht : tryslab d.mgr v = (-EFBIG, d.mgr, none) := by rw [tryslab, if_pos hl]
  have hv : v.len ≠ 0 := by omega
  have hn := findBank_none (a := a) (m := d.mgr) (v := v)
  rw [describeIov, if_neg hv, ht]
  rcases hf : findBank a d.mgr v with ⟨ret, m, _ | i⟩
  · rw [hf] at hn
    exact ⟨fun i h => by simp at h, fun _ => hn rfl⟩
  · refine ⟨?_, fun h => by simp at h⟩
    intro k hk
    cases hk
    exact ⟨rfl, by simp⟩

theorem describeIov_refills {d : Describing} (h : (describeIov a d v).1 = 0) :
    Refills d.mgr (describeIov a d v).2.mgr := by
  simp only [describeIov] at h ⊢
  split
  · exact .refl _
  · next hv =>
    rw [if_neg hv] at h
    have ht := tryslab_refills d.mgr v
    split
    · next _ m j he =>
      rw [he] at ht
      exact ht
    · next _ m he =>
      rw [he] at h
      have hn := findBank_none (a := a) (m := d.mgr) (v := v)
      split
      · next _ m₁ i hf =>
        have hs := findBank_some (a := a) (m := d.mgr) (v := v) (i := i)
        rw [hf] at hs
        obtain ⟨_, ⟨_, hm⟩ | ⟨_, hr, _⟩⟩ := hs rfl
        · simp only at hm
          rw [hm]
          exact (reference_same d.mgr i).refills rfl
        · exact hr.trans ((reference_same m₁ i).refills rfl)
      · next ret m₁ hf =>
        rw [hf] at hn h
        exact absurd h (hn rfl)

theorem describeFrom_refills {a : Nat → Answers} {k : Nat} {vs : List Region} {d : Describing}
    (h : (describeFrom a k vs d).1 = 0) : Refills d.mgr (describeFrom a k vs d).2.mgr := by
  induction vs generalizing k d with
  | nil => exact .refl _
  | cons v vs ih =>
    simp only [describeFrom] at h ⊢
    split at h
    · next hr => exact absurd h hr
    · next hr =>
      rw [if_neg hr]
      exact (describeIov_refills (by simpa using hr)).trans (ih h)

theorem describe_refills {a : Nat → Answers} {iov : List Region}
    (h : (describe a m iov).ret = 0) : Refills m (describe a m iov).mgr := by
  simp only [describe] at h ⊢
  split at h
  · cases h
  · next hl =>
    rw [if_neg hl]
    split at h
    · next hr => exact absurd h hr
    · next hr =>
      rw [if_neg hr]
      exact describeFrom_refills (by simpa using hr)

theorem release_refills (m : Manager) (c : Context) : Refills m (release m c) :=
  (release_same m c).refills (by rw [release_domain])

theorem describeFrom_append (a : Nat → Answers) (k : Nat) (vs ws : List Region) (d : Describing) :
    describeFrom a k (vs ++ ws) d =
      if (describeFrom a k vs d).1 ≠ 0 then describeFrom a k vs d
      else describeFrom a (k + vs.length) ws (describeFrom a k vs d).2 := by
  induction vs generalizing k d with
  | nil => simp [describeFrom]
  | cons v vs ih =>
    simp only [List.cons_append, describeFrom, List.length_cons]
    split
    · simp
    · rw [ih, Nat.add_assoc, Nat.add_comm 1]

end Refilling

section Large

variable {m : Manager} {a : Nat → Answers} {vs : List Region} {v : Region}

def Manager.upTo (m : Manager) (a : Nat → Answers) (vs : List Region) : Manager :=
  (describeFrom a 0 vs (.start m)).2.mgr

theorem describe_large (hlen : vs.length < 16) (hl : m.attr.slabSize < v.len) (c : Context) :
    (describe a m (vs ++ [v])).handle = some c ↔
      (describeFrom a 0 vs (.start m)).1 = 0 ∧
      ∃ i, (findBank (a vs.length) (m.upTo a vs) v).2.2 = some i ∧
        c = (describeIov (a vs.length) (describeFrom a 0 vs (.start m)).2 v).2.ctx := by
  have hattr : (m.upTo a vs).attr = m.attr := (describeFrom_grows a 0 vs (.start m)).attr
  have hiov := describeIov_large (a := a vs.length) (v := v)
    (d := (describeFrom a 0 vs (.start m)).2) (by
      show (m.upTo a vs).attr.slabSize < v.len
      rwa [hattr])
  have hlen' : ¬ 16 < (vs ++ [v]).length := by
    simp only [List.length_append, List.length_singleton]
    omega
  rw [describe, if_neg hlen', describeFrom_append, Nat.zero_add]
  simp only [describeFrom]
  by_cases hd : (describeFrom a 0 vs (.start m)).1 = 0
  · simp only [hd, ne_eq, not_true, if_false, true_and]
    cases hf : (findBank (a vs.length) (m.upTo a vs) v).2.2 with
    | none =>
      have hne := hiov.2 hf
      simp [hne]
    | some i =>
      obtain ⟨hz, _⟩ := hiov.1 i hf
      simp [hz, eq_comm]
  · simp [hd]

theorem scan_hit_mem {is : List Nat} {o : Option Nat} {i : Nat} (h : scan m v is o = .hit i) :
    i ∈ is := by
  induction is generalizing o with
  | nil => cases o <;> cases h
  | cons k is ih =>
    simp only [scan] at h
    split at h
    · cases h
      exact List.mem_cons_self
    · exact List.mem_cons_of_mem k (ih h)

theorem lookup_hit {i : Nat} (h : lookup m v = .hit i) :
    i < m.attr.bankCount ∧ (m.banks i).region.Covers v :=
  ⟨List.mem_range.1 (scan_hit_mem h), scan_hit h⟩

theorem upTo_grows (m : Manager) (a : Nat → Answers) (vs : List Region) : Grows m (m.upTo a vs) :=
  describeFrom_grows a 0 vs (.start m)

/-- A large last iov is described by a registration from `n` on exactly when no bank that would
serve it has an older one. -/
theorem describe_large_iff (hlen : vs.length < 16) (hl : m.attr.slabSize < v.len) {n : Nat}
    (hn : n ≤ m.domain.nextMr) :
    (∀ c, (describe a m (vs ++ [v])).handle = some c →
      ∃ id, c.descriptors.getLast? = some (some id) ∧ n ≤ id) ↔
    ((describeFrom a 0 vs (.start m)).1 = 0 → ∀ i, lookup (m.upTo a vs) v = .hit i →
      ∃ id, ((m.upTo a vs).banks i).mr = some id ∧ n ≤ id) := by
  have hg := upTo_grows m a vs
  have hiov := describeIov_large (a := a vs.length) (v := v)
    (d := (describeFrom a 0 vs (.start m)).2) (by
      show (m.upTo a vs).attr.slabSize < v.len
      rwa [hg.attr])
  constructor
  · intro h hd i hi
    have hf : (findBank (a vs.length) (m.upTo a vs) v).2 = (m.upTo a vs, some i) := by
      simp [findBank, hi]
    obtain ⟨id, hid, hle⟩ := h _ ((describe_large hlen hl _).2 ⟨hd, i, by rw [hf], rfl⟩)
    have hdesc := (hiov.1 i (congrArg Prod.snd hf)).2
    rw [hdesc, List.getLast?_concat, Option.some.injEq] at hid
    refine ⟨id, ?_, hle⟩
    rw [← hid]
    exact (congrArg (fun q : Manager × Option Nat => (q.1.banks i).mr) hf).symm
  · intro h c hc
    obtain ⟨hd, i, hf, rfl⟩ := (describe_large hlen hl c).1 hc
    rw [(hiov.1 i hf).2, List.getLast?_concat]
    obtain ⟨_, ⟨hhit, hm⟩ | ⟨_, _, hm⟩⟩ := findBank_some hf
    · obtain ⟨id, hid, hle⟩ := h hd i hhit
      refine ⟨id, ?_, hle⟩
      rw [← hid]
      exact congrArg (fun m : Manager => some (m.banks i).mr) hm
    · refine ⟨_, congrArg some hm, ?_⟩
      exact Nat.le_trans hn hg.next

end Large

end OfiTransport.Mr
