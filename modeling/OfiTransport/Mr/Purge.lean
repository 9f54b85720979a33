import OfiTransport.Mr.Invalidate
import Mathlib.Data.Finset.Card
import Mathlib.Data.Finset.Filter

/-! What is left of a region once `ofi_mr_invalidate` has returned 0 for it, now and in the
descriptors of every later `ofi_mr_describe`. -/

namespace OfiTransport.Mr

open Lib

/-- A descriptor for an iov that shares a byte with the region is that of the slabs, or of a
registration numbered `n` or later. -/
def Fresh (n : Nat) (slab : Option Nat) (v : Region) (desc : Option Nat) (u : Region) : Prop :=
  u.Shares v → desc ≠ slab → ∀ id, desc = some id → n ≤ id

/-- Bank `i` is registered for a range that shares a byte with the region, by what it records
or by what the provider holds. -/
def RegisteredFor (m : Manager) (v : Region) (i : Nat) : Prop :=
  (m.banks i).registered = true ∧ ((m.banks i).region.Shares v ∨
    ∃ id g, (m.banks i).mr = some id ∧ m.domain.regs id = some g ∧ g.region.Shares v)

def invalidated (close : Nat → Int) (s : System) (v : Region) : System :=
  ⟨(invalidate close s.mgr v).2, s.live⟩

/-- Nothing of the region is left. -/
structure Purges (close : Nat → Int) (s : System) (v : Region) : Prop where
  gone : ∀ i < s.mgr.attr.bankCount, ¬ RegisteredFor (invalidated close s v).mgr v i
  old : ∀ h s₁, Machine.Path machine (invalidated close s v) h s₁ → ∀ iov a c,
    (describe a s₁.mgr iov).handle = some c → ∀ id, some id ∈ c.descriptors →
      some id ≠ s.mgr.slabMr → id < s.mgr.domain.nextMr →
        ∀ g, (describe a s₁.mgr iov).mgr.domain.regs id = some g → ¬ g.region.Shares v
  fresh : ∀ h s₁, Machine.Path machine (invalidated close s v) h s₁ → Machine.Guarded Clean h →
    ∀ iov a c, (describe a s₁.mgr iov).handle = some c →
      List.Forall₂ (Fresh s.mgr.domain.nextMr s.mgr.slabMr v) c.descriptors
        (describe a s₁.mgr iov).iov
  free : ∀ i < s.mgr.attr.bankCount, (s.mgr.banks i).nonvolatile = true →
    (s.mgr.banks i).region.Shares v → Markable (invalidated close s v).mgr i

/-- What shares a byte with the region is recorded there and can be closed, and a bank that
claims such a range without a registration never had one. -/
structure Removable (close : Nat → Int) (m : Manager) (v : Region) : Prop where
  recorded : ∀ i < m.attr.bankCount, (m.banks i).registered = true →
    (m.banks i).region.Shares v → close i = 0
  actual : ∀ i < m.attr.bankCount, (m.banks i).registered = true → ∀ id g,
    (m.banks i).mr = some id → m.domain.regs id = some g → g.region.Shares v →
      Meets (m.banks i).region v ∧ close i = 0
  lost : ∀ i < m.attr.bankCount, (m.banks i).registered = false →
    (m.banks i).region.Shares v → (m.banks i).mr = none

section Constants

variable {m m' : Manager}

theorem Turn.fixed (h : Turn m m') : m'.attr = m.attr ∧ m'.slabMr = m.slabMr := by
  cases h with
  | note i f hr hm ha => exact ⟨rfl, rfl⟩
  | flag j u => exact ⟨rfl, rfl⟩
  | copy dst src => exact ⟨rfl, rfl⟩
  | close i hi => simp [unregister, hi, Manager.modifyBank]
  | adopt i hi =>
    rw [registerFresh_zero]
    exact ⟨rfl, rfl⟩

theorem Turns.fixed (h : Turns m m') : m'.attr = m.attr ∧ m'.slabMr = m.slabMr :=
  h.keeps (I := fun m' => m'.attr = m.attr ∧ m'.slabMr = m.slabMr)
    (fun _ _ hm ht => ⟨ht.fixed.1.trans hm.1, ht.fixed.2.trans hm.2⟩) ⟨rfl, rfl⟩

theorem path_turns {s s' : System} {h : List (System × Event)} (p : Machine.Path machine s h s') :
    Turns s.mgr s'.mgr := by
  induction p with
  | refl => exact .refl _
  | step _ _ hs ih => exact ih.trans (step_turns hs)

end Constants

section Descriptors

variable {J : Manager → Prop} {P : Option Nat → Region → Prop}

structure Yields (J : Manager → Prop) (P : Option Nat → Region → Prop) : Prop where
  empty : ∀ u, u.len = 0 → P none u
  slab : ∀ m u, J m → P m.slabMr u
  hit : ∀ m u i, J m → lookup m u = .hit i → P (m.banks i).mr u
  new : ∀ m u, J m → P (some m.domain.nextMr) u
  step : ∀ a (d : Describing) u, J d.mgr → (describeIov a d u).1 = 0 →
    J (describeIov a d u).2.mgr

theorem describeIov_yields (hy : Yields J P) {a : Answers} {d : Describing} {u : Region}
    (hj : J d.mgr) (hd : List.Forall₂ P d.ctx.descriptors d.iov)
    (hret : (describeIov a d u).1 = 0) :
    List.Forall₂ P (describeIov a d u).2.ctx.descriptors (describeIov a d u).2.iov := by
  have hlast : ∀ {desc u}, P desc u →
      List.Forall₂ P (d.ctx.descriptors ++ [desc]) (d.iov ++ [u]) :=
    fun hp => List.rel_append hd (.cons hp .nil)
  simp only [describeIov] at hret ⊢
  split
  · next hu => exact hlast (hy.empty u hu)
  · next hu =>
    rw [if_neg hu] at hret
    split
    · next _ m j ht =>
      have hs := (tryslab_same d.mgr u).slabMr
      rw [ht] at hs
      simp only at hs
      rw [hs]
      exact hlast (hy.slab _ _ hj)
    · next _ _ ht =>
      rw [ht] at hret
      split
      · next _ m i he =>
        apply hlast
        obtain ⟨_, ⟨hl, hm⟩ | ⟨_, _, hm⟩⟩ :=
          findBank_some (a := a) (m := d.mgr) (v := u) (i := i) (by rw [he])
        · rw [he] at hm
          simp only at hm
          simpa [hm] using hy.hit _ _ i hj hl
        · rw [he] at hm
          simp only at hm
          simpa [hm] using hy.new _ u hj
      · next ret m he =>
        have hn := findBank_none (a := a) (m := d.mgr) (v := u) (by rw [he])
        rw [he] at hn hret
        exact absurd hret hn

theorem describeFrom_yields (hy : Yields J P) {a : Nat → Answers} {k : Nat} {vs : List Region}
    {d : Describing} (hj : J d.mgr) (hd : List.Forall₂ P d.ctx.descriptors d.iov)
    (hret : (describeFrom a k vs d).1 = 0) :
    List.Forall₂ P (describeFrom a k vs d).2.ctx.descriptors (describeFrom a k vs d).2.iov := by
  induction vs generalizing k d with
  | nil => exact hd
  | cons v vs ih =>
    simp only [describeFrom] at hret ⊢
    split at hret
    · next hr => exact absurd hret hr
    · next hr =>
      rw [if_neg hr]
      have hr : (describeIov (a k) d v).1 = 0 := by simpa using hr
      exact ih (hy.step _ _ _ hj hr) (describeIov_yields hy hj hd hr) hret

theorem describe_yields (hy : Yields J P) {a : Nat → Answers} {m : Manager} {iov : List Region}
    {c : Context} (hj : J m) (hc : (describe a m iov).handle = some c) :
    List.Forall₂ P c.descriptors (describe a m iov).iov := by
  simp only [describe] at hc ⊢
  split at hc
  · cases hc
  · next hl =>
    rw [if_neg hl]
    split at hc
    · cases hc
    · next hr =>
      rw [if_neg hr]
      cases hc
      exact describeFrom_yields hy (d := .start m) hj .nil (by simpa using hr)

end Descriptors

structure Younger (n : Nat) (v : Region) (m : Manager) : Prop where
  next : n ≤ m.domain.nextMr
  bank : ∀ i < m.attr.bankCount, (m.banks i).region.Shares v →
    ∀ id, (m.banks i).mr = some id → n ≤ id

section Younger

variable {m m' : Manager} {n : Nat} {v u : Region} {a : Answers} {i : Nat}

theorem Younger.turn (h : Younger n v m) (ht : Turns m m')
    (hb : ∀ k < m.attr.bankCount,
      ((m'.banks k).region = (m.banks k).region ∧ (m'.banks k).mr = (m.banks k).mr) ∨
      (m'.banks k).len = 0 ∨ ∃ id, (m'.banks k).mr = some id ∧ m.domain.nextMr ≤ id) :
    Younger n v m' := by
  refine ⟨Nat.le_trans h.next ht.inherits.next, fun k hk hs id hid => ?_⟩
  rw [ht.fixed.1] at hk
  rcases hb k hk with ⟨hr, hm⟩ | hz | ⟨id', hid', hle⟩
  · rw [hr] at hs
    rw [hm] at hid
    exact h.bank k hk hs id hid
  · exact absurd hs (Region.not_shares_empty hz)
  · rw [hid, Option.some.injEq] at hid'
    rw [hid']
    exact Nat.le_trans h.next hle

theorem SameBanks.younger (h : SameBanks m m') (ht : Turns m m') (hy : Younger n v m) :
    Younger n v m' :=
  hy.turn ht (fun k _ => .inl ⟨h.region k, h.mr k⟩)

theorem registerFresh_elsewhere (reg : Int) (m : Manager) (i : Nat) :
    ∀ k, k ≠ i → (registerFresh reg m i).2.banks k = m.banks k := by
  intro k hk
  by_cases hr : reg = 0
  · rw [hr, registerFresh_zero]
    simp [hk]
  · rw [registerFresh_fail hr]

theorem register_elsewhere (a : Answers) (m : Manager) (i : Nat) :
    ∀ k, k ≠ i → (register a m i).2.banks k = m.banks k := by
  intro k hk
  have hu := (unregister_elsewhere a.close m i).2 k hk
  simp only [register]
  split
  · split
    · exact hu
    · exact (registerFresh_elsewhere _ _ i k hk).trans hu
  · exact registerFresh_elsewhere _ m i k hk

theorem register_young
    (h : if (m.banks i).registered then a.close = 0 else a.reg = 0) :
    ((register a m i).2.banks i).len = 0 ∨
      ∃ id, ((register a m i).2.banks i).mr = some id ∧ m.domain.nextMr ≤ id := by
  cases hi : (m.banks i).registered with
  | false =>
    have hr : a.reg = 0 := by simpa [hi] using h
    right
    refine ⟨m.domain.nextMr, ?_, Nat.le_refl _⟩
    simp [register, hi, hr, registerFresh_zero]
  | true =>
    have hc : a.close = 0 := by simpa [hi] using h
    have hn := (unregister_elsewhere 0 m i).1
    have hu : (unregister 0 m i).1 = 0 := by simp [unregister, hi]
    simp only [register, hi, hc, if_true, hu, ne_eq, not_true, if_false]
    by_cases hr : a.reg = 0
    · right
      refine ⟨m.domain.nextMr, ?_, Nat.le_refl _⟩
      simp [hr, registerFresh_zero, hn]
    · left
      rw [registerFresh_fail hr]
      simp [unregister, hi]

theorem findBank_younger (h : Younger n v m) (hc : EvictsClean a m u) :
    Younger n v (findBank a m u).2.1 := by
  refine h.turn (findBank_turns a m u) (fun k _ => ?_)
  simp only [EvictsClean] at hc
  simp only [findBank]
  cases hl : lookup m u with
  | hit i => exact .inl ⟨rfl, rfl⟩
  | again => exact .inl ⟨rfl, rfl⟩
  | evict i =>
    simp only [hl] at hc
    simp only
    generalize hr : register a
      (m.modifyBank i (fun b => { b with base := u.base, len := u.len })) i = r
    have hb : ((r.2.banks k).region = (m.banks k).region ∧ (r.2.banks k).mr = (m.banks k).mr) ∨
        (r.2.banks k).len = 0 ∨ ∃ id, (r.2.banks k).mr = some id ∧ m.domain.nextMr ≤ id := by
      rw [← hr]
      by_cases hki : k = i
      · subst hki
        exact .inr (register_young (by simpa using hc))
      · rw [register_elsewhere _ _ _ k hki]
        simp [hki]
    split <;> exact hb

theorem describeIov_younger {d : Describing} (h : Younger n v d.mgr) (hc : CleanIov a d.mgr u) :
    Younger n v (describeIov a d u).2.mgr := by
  simp only [describeIov]
  split
  · exact h
  · next hu =>
    split
    · next _ m j ht =>
      have hs := tryslab_same d.mgr u
      have htr := tryslab_turns d.mgr u
      rw [ht] at hs htr
      exact hs.younger htr h
    · next _ _ ht =>
      have hf := findBank_younger h (hc hu (by rw [ht]))
      split
      · next _ m i he =>
        rw [he] at hf
        have hr : Turn m (m.modifyBank i (fun b => { b with ref := b.ref + 1 })) :=
          .note i _ rfl rfl rfl
        exact (reference_same m i).younger hr.turns hf
      · next _ m he =>
        rw [he] at hf
        exact hf

theorem describeIov_clean {d : Describing} (h : (describeIov a d u).1 = 0) :
    CleanIov a d.mgr u := by
  intro hu ht
  simp only [describeIov, if_neg hu] at h
  split at h
  · next _ _ j he =>
    rw [he] at ht
    cases ht
  · split at h
    · next _ _ i he => exact findBank_clean (i := i) (by rw [he])
    · next _ _ he =>
      have hn := findBank_none (a := a) (m := d.mgr) (v := u) (by rw [he])
      rw [he] at hn
      exact absurd h hn

end Younger

section Paths

variable {s : System} {u : Region}

theorem find_range {n : Nat} {p : Nat → Bool} {j : Nat} (h : (List.range n).find? p = some j) :
    j < n ∧ p j = true ∧ ∀ k < j, p k = false := by
  obtain ⟨hp, hj, hk⟩ := List.find?_range_eq_some.1 h
  exact ⟨List.mem_range.1 hj, hp, fun k hkj => by simpa using hk k hkj⟩

theorem find_range_none {n : Nat} {p : Nat → Bool} (h : (List.range n).find? p = none) :
    ∀ k < n, p k = false := by
  intro k hk
  have hn := List.find?_eq_none.1 h k (List.mem_range.2 hk)
  simpa using hn

theorem tryslab_banks (m : Manager) (u : Region) : (tryslab m u).2.1.banks = m.banks := by
  simp only [tryslab]
  split
  · rfl
  · split <;> rfl

theorem describe_slab {m : Manager} {l : List Context} {j : Nat} (hu : u.len ≠ 0)
    (ht : (tryslab m u).2.2 = some j) (a : Nat → Answers) :
    (describe a m [u]).mgr = (tryslab m u).2.1 ∧ Clean ⟨m, l⟩ (.describe [u] a) := by
  obtain ⟨⟨ret, m', o⟩, hr⟩ : ∃ r, tryslab m u = r := ⟨_, rfl⟩
  rw [hr] at ht
  simp only at ht
  subst ht
  refine ⟨?_, fun _ => ⟨fun _ hn => ?_, fun _ => trivial⟩⟩
  · simp [describe, describeFrom, describeIov, Describing.start, hu, hr]
  · simp only [Describing.start, hr] at hn
    cases hn

theorem card_filter_lt {n j : Nat} {p q : Nat → Prop} [DecidablePred p] [DecidablePred q]
    (hqp : ∀ k, q k → p k) (hj : j < n) (hp : p j) (hq : ¬ q j) :
    ((Finset.range n).filter q).card < ((Finset.range n).filter p).card := by
  apply Finset.card_lt_card
  refine ⟨Finset.monotone_filter_right _ fun k _ => hqp k, fun h => ?_⟩
  have hm := h (Finset.mem_filter.2 ⟨Finset.mem_range.2 hj, hp⟩)
  exact hq (Finset.mem_filter.1 hm).2

theorem exhaust_slabs (hu : u.len ≠ 0) :
    ∃ h s₁, Machine.Path machine s h s₁ ∧ Machine.Guarded Clean h ∧
      s₁.mgr.banks = s.mgr.banks ∧ (tryslab s₁.mgr u).2.2 = none := by
  refine Machine.exists_path (R := fun s t => t.mgr.banks = s.mgr.banks)
    (fun s => ((Finset.range s.mgr.attr.slabCount).filter
      fun k => (s.mgr.slabs k).inuse = false).card)
    (fun _ => rfl) (fun s t u (h : t.mgr.banks = s.mgr.banks) h' => h ▸ h') (fun s hs => ?_) s
  obtain ⟨j, ht⟩ := Option.ne_none_iff_exists'.1 hs
  obtain ⟨_, hj, hfree, _⟩ := tryslab_some ht
  obtain ⟨hmgr, hclean⟩ := describe_slab (l := s.live) hu ht (fun _ => ⟨0, 0⟩)
  refine ⟨.describe [u] (fun _ => ⟨0, 0⟩), _, rfl, rfl, hclean, ?_, ?_⟩
  · exact (congrArg Manager.banks hmgr).trans (tryslab_banks s.mgr u)
  · have hslabs : (describe (fun _ => ⟨0, 0⟩) s.mgr [u]).mgr.slabs = (s.mgr.setSlab j true).slabs :=
      (congrArg Manager.slabs hmgr).trans (tryslab_slabs ht)
    have hcount : (describe (fun _ => ⟨0, 0⟩) s.mgr [u]).mgr.attr.slabCount =
        s.mgr.attr.slabCount := by
      rw [hmgr, (tryslab_same s.mgr u).attr]
    rw [hcount, hslabs]
    refine card_filter_lt (fun k hk => ?_) hj hfree (by simp [Manager.setSlab])
    by_cases he : k = j
    · simp [Manager.setSlab, he] at hk
    · simpa [Manager.setSlab, he] using hk

theorem getFreeBank_first {m : Manager} {j : Nat} (h : getFreeBank m = some j) :
    Markable m j ∧ ∀ k < j, ¬ Markable m k := by
  obtain ⟨_, hj, hk⟩ := find_range h
  simp only [decide_eq_true_eq, decide_eq_false_iff_not] at hj hk
  exact ⟨⟨⟨hj.1, hj.2.1⟩, hj.2.2⟩, fun k hkj hm => hk k hkj ⟨hm.1.1, hm.1.2, hm.2⟩⟩

theorem getFreeBank_none {m : Manager} (h : getFreeBank m = none) :
    ∀ k < m.attr.bankCount, ¬ Markable m k := by
  intro k hk hm
  have hn := find_range_none h k hk
  simp only [decide_eq_false_iff_not] at hn
  exact hn ⟨hm.1.1, hm.1.2, hm.2⟩

theorem mark_nothing {m : Manager} {j : Nat} (h : getFreeBank m = some j) :
    ((mark ⟨0, 0⟩ m ⟨0, 0⟩).2.banks j).region = ⟨0, 0⟩ ∧
      ((mark ⟨0, 0⟩ m ⟨0, 0⟩).2.banks j).registered = true ∧
      ∀ k, k ≠ j → (mark ⟨0, 0⟩ m ⟨0, 0⟩).2.banks k = m.banks k := by
  refine ⟨?_, ?_, fun k hk => ?_⟩
  · simp [mark, h, register, registerFresh_zero, Bank.region]
  · simp [mark, h, register, registerFresh_zero]
  · simp [mark, h, register, registerFresh_zero, hk]

theorem mark_markable {m : Manager} {j : Nat} (h : getFreeBank m = some j) (k : Nat) :
    Markable (mark ⟨0, 0⟩ m ⟨0, 0⟩).2 k ↔ Markable m k ∧ k ≠ j := by
  obtain ⟨_, hreg, hothers⟩ := mark_nothing h
  by_cases he : k = j
  · subst he
    simp [Markable, hreg]
  · simp [Markable, Evictable, hothers k he, he]

theorem mark_ahead (i : Nat) (hi : i < s.mgr.attr.bankCount) :
    ∃ h s₁, Machine.Path machine s h s₁ ∧ Machine.Guarded Clean h ∧
      (∀ k < i, ¬ Markable s₁.mgr k) ∧
      ∀ k, s₁.mgr.banks k = s.mgr.banks k ∨ (k < i ∧ (s₁.mgr.banks k).region = ⟨0, 0⟩) := by
  classical
  obtain ⟨h, s₁, p, hc, ⟨hattr, hbanks⟩, hnone⟩ := Machine.exists_path (M := machine) (C := Clean)
    (P := fun s => i < s.mgr.attr.bankCount → ∀ k < i, ¬ Markable s.mgr k)
    (R := fun s t => t.mgr.attr = s.mgr.attr ∧
      ∀ k, t.mgr.banks k = s.mgr.banks k ∨ (k < i ∧ (t.mgr.banks k).region = ⟨0, 0⟩))
    (fun s => ((Finset.range i).filter fun k => Markable s.mgr k).card)
    (fun _ => ⟨rfl, fun _ => .inl rfl⟩)
    (by
      rintro s t u ⟨ha, hb⟩ ⟨ha', hb'⟩
      refine ⟨ha'.trans ha, fun k => ?_⟩
      rcases hb' k with he | he
      · rw [he]
        exact hb k
      · exact .inr he)
    (fun s hs => by
      simp only [not_forall, not_not] at hs
      obtain ⟨hi, k, hk, hm⟩ := hs
      obtain ⟨j, hj⟩ : ∃ j, getFreeBank s.mgr = some j := by
        rw [← Option.ne_none_iff_exists']
        exact fun hn => getFreeBank_none hn k (by omega) hm
      obtain ⟨hmj, hbefore⟩ := getFreeBank_first hj
      have hji : j < i := by
        by_contra hij
        exact hbefore k (by omega) hm
      obtain ⟨hregion, _, hothers⟩ := mark_nothing hj
      refine ⟨.mark ⟨0, 0⟩ ⟨0, 0⟩, _, rfl, rfl, fun _ => rfl,
        ⟨(mark_turns _ s.mgr _).fixed.1, fun l => ?_⟩, ?_⟩
      · by_cases he : l = j
        · subst he
          exact .inr ⟨hji, hregion⟩
        · exact .inl (hothers l he)
      · exact card_filter_lt (fun l hl => ((mark_markable hj l).1 hl).1) hji hmj
          fun hl => ((mark_markable hj j).1 hl).2 rfl) s
  exact ⟨h, s₁, p, hc, hnone (by rwa [hattr]), hbanks⟩

theorem scan_append {m : Manager} {is : List Nat} {o : Option Nat}
    (h : ∀ k ∈ is, ¬ (m.banks k).region.Covers u) {i : Nat} (hi : (m.banks i).region.Covers u)
    (js : List Nat) : scan m u (is ++ i :: js) o = .hit i := by
  induction is generalizing o with
  | nil => simp [scan, hi]
  | cons k is ih =>
    rw [List.cons_append, scan, if_neg (h k (by simp))]
    exact ih (fun l hl => h l (by simp [hl]))

theorem lookup_first {m : Manager} {i : Nat} (hi : i < m.attr.bankCount)
    (hc : (m.banks i).region.Covers u) (h : ∀ k < i, ¬ (m.banks k).region.Covers u) :
    lookup m u = .hit i := by
  obtain ⟨r, hr⟩ : ∃ r, m.attr.bankCount = i + (r + 1) := ⟨m.attr.bankCount - i - 1, by omega⟩
  rw [lookup, hr, List.range_add, List.range_succ_eq_map, List.map_cons]
  exact scan_append (fun k hk => h k (List.mem_range.1 hk)) hc _

theorem describe_hit {m : Manager} {i : Nat} (hu : u.len ≠ 0) (ht : (tryslab m u).2.2 = none)
    (hl : lookup m u = .hit i) (a : Nat → Answers) :
    (describe a m [u]).handle = some ⟨[(m.banks i).mr], [i], []⟩ ∧
      (describe a m [u]).iov = [u] := by
  obtain ⟨⟨ret, m', o⟩, hr⟩ : ∃ r, tryslab m u = r := ⟨_, rfl⟩
  rw [hr] at ht
  simp only at ht
  subst ht
  constructor <;>
    simp [describe, describeFrom, describeIov, Describing.start, hu, hr, findBank, hl]

end Paths

section Invalidation

variable {close : Nat → Int} {s : System} {v : Region} {i : Nat}

theorem invalidated_turns (close : Nat → Int) (s : System) (v : Region) :
    Turns s.mgr (invalidated close s v).mgr := invalidateFrom_turns close v _ s.mgr

theorem Calm.banks (hc : Calm s.mgr v) (hi : i < s.mgr.attr.bankCount) :
    (invalidated close s v).mgr.banks i = (s.mgr.banks i).swept (close i) v := by
  simp only [invalidated, invalidate_calm hc, sweeps_banks, hi, if_true]

theorem Bank.swept_kept {c : Int} {b : Bank} (h : (b.swept c v).registered = true) :
    b.registered = true ∧ (b.swept c v).region = b.region ∧ (b.swept c v).mr = b.mr ∧
      ¬ (Meets b.region v ∧ c = 0) := by
  simp only [Bank.swept] at h ⊢
  by_cases hm : Meets b.region v
  · by_cases hr : b.registered = true ∧ c = 0
    · simp [hm, hr] at h
    · rw [if_pos hm, if_neg hr] at h ⊢
      exact ⟨h, rfl, rfl, fun hc => hr ⟨h, hc.2⟩⟩
  · rw [if_neg hm] at h ⊢
    exact ⟨h, rfl, rfl, fun hc => hm hc.1⟩

theorem Bank.swept_shares {c : Int} {b : Bank} (h : (b.swept c v).region.Shares v) :
    b.region.Shares v ∧ (b.swept c v).mr = b.mr ∧ (b.registered = true → c ≠ 0) := by
  simp only [Bank.swept] at h ⊢
  by_cases hm : Meets b.region v
  · by_cases hr : b.registered = true ∧ c = 0
    · rw [if_pos hm, if_pos hr] at h
      exact absurd h (Region.not_shares_empty rfl)
    · rw [if_pos hm, if_neg hr] at h ⊢
      exact ⟨h, rfl, fun hb hc => hr ⟨hb, hc⟩⟩
  · rw [if_neg hm] at h
    exact absurd (meets_of_shares h) hm

theorem Calm.registeredFor (hc : Calm s.mgr v) (ht : Tracked s.mgr)
    (hi : i < s.mgr.attr.bankCount) : RegisteredFor (invalidated close s v).mgr v i ↔
      RegisteredFor s.mgr v i ∧ ¬ (Meets (s.mgr.banks i).region v ∧ close i = 0) := by
  have hturns := invalidated_turns close s v
  have ht' := hturns.tracked ht
  have hb : (invalidated close s v).mgr.banks i = _ := hc.banks hi
  constructor
  · rintro ⟨hr, hs⟩
    rw [hb] at hr hs
    obtain ⟨hr, hregion, hmr, hkept⟩ := Bank.swept_kept hr
    rw [hregion, hmr] at hs
    refine ⟨⟨hr, hs.imp_right ?_⟩, hkept⟩
    rintro ⟨id, g, hid, hg, hgs⟩
    exact ⟨id, g, hid, hturns.inherits.regs id g (ht.known i id hid) hg, hgs⟩
  · rintro ⟨⟨hr, hs⟩, hkept⟩
    have hr' : ((s.mgr.banks i).swept (close i) v).registered = true := by
      rw [← Bool.not_eq_false, Bank.swept_registered]
      rintro (hf | hf)
      · rw [hr] at hf
        cases hf
      · exact hkept hf
    obtain ⟨_, hregion, hmr, _⟩ := Bank.swept_kept hr'
    rw [RegisteredFor, hb]
    refine ⟨hr', hs.imp (by rw [hregion]; exact id) ?_⟩
    rintro ⟨id, g, hid, hg, hgs⟩
    obtain ⟨id', g', hid', hg'⟩ := ht'.live i (by rw [hb]; exact hr')
    rw [hb, hmr, hid, Option.some.injEq] at hid'
    subst hid'
    have hold := hturns.inherits.regs id g' (ht.known i id hid) hg'
    rw [hg, Option.some.injEq] at hold
    exact ⟨id, g', by rw [hmr]; exact hid, hg', hold ▸ hgs⟩

theorem Removable.gone (h : Removable close s.mgr v) (hc : Calm s.mgr v) (ht : Tracked s.mgr)
    (hi : i < s.mgr.attr.bankCount) : ¬ RegisteredFor (invalidated close s v).mgr v i := by
  rw [hc.registeredFor ht hi]
  rintro ⟨⟨hr, hs | ⟨id, g, hid, hg, hs⟩⟩, hkept⟩
  · exact hkept ⟨meets_of_shares hs, h.recorded i hi hr hs⟩
  · exact hkept (h.actual i hi hr id g hid hg hs)

theorem Removable.younger (h : Removable close s.mgr v) (hc : Calm s.mgr v) :
    Younger s.mgr.domain.nextMr v (invalidated close s v).mgr := by
  have hturns := invalidated_turns close s v
  refine ⟨hturns.inherits.next, fun i hi hs id hid => ?_⟩
  rw [hturns.fixed.1] at hi
  rw [hc.banks hi] at hs hid
  obtain ⟨hs, hmr, hopen⟩ := Bank.swept_shares hs
  rw [hmr] at hid
  cases hr : (s.mgr.banks i).registered with
  | true => exact absurd (h.recorded i hi hr hs) (hopen hr)
  | false =>
    rw [h.lost i hi hr hs] at hid
    cases hid

theorem Younger.fresh {n : Nat} {s₁ : System} (hy : Younger n v s₁.mgr) {iov : List Region}
    {a : Nat → Answers} {c : Context} (hd : (describe a s₁.mgr iov).handle = some c) :
    List.Forall₂ (Fresh n s₁.mgr.slabMr v) c.descriptors (describe a s₁.mgr iov).iov := by
  have hyields : Yields (fun m => Younger n v m ∧ m.slabMr = s₁.mgr.slabMr)
      (Fresh n s₁.mgr.slabMr v) := by
    refine ⟨?_, ?_, ?_, ?_, ?_⟩
    · intro u hu hs
      exact absurd hs (Region.not_shares_empty hu)
    · intro m u hm _ hne
      exact absurd hm.2 hne
    · intro m u i hm hl hs _ id hid
      obtain ⟨hi, hcov⟩ := lookup_hit hl
      exact hm.1.bank i hi (hs.of_covers hcov) id hid
    · intro m u hm _ _ id hid
      rw [Option.some.injEq] at hid
      rw [← hid]
      exact hm.1.next
    · intro a d u hm hret
      exact ⟨describeIov_younger hm.1 (describeIov_clean hret),
        (describeIov_turns a d u).fixed.2.trans hm.2⟩
  exact describe_yields hyields ⟨hy, rfl⟩ hd

theorem Removable.free (h : Removable close s.mgr v) (hc : Calm s.mgr v)
    (hl : Carries s.mgr s.live) (hi : i < s.mgr.attr.bankCount)
    (hs : (s.mgr.banks i).region.Shares v) : Markable (invalidated close s v).mgr i := by
  have hm := meets_of_shares hs
  have href := hl.ref i
  have hbusy : ¬ 0 < (s.mgr.banks i).ref := fun hr => hc i hi ⟨hm, hr⟩
  rw [Markable, Evictable, hc.banks hi, Bank.swept_ref, Bank.swept_registered]
  refine ⟨⟨by omega, Bank.swept_nonvolatile hm⟩, ?_⟩
  cases hr : (s.mgr.banks i).registered with
  | false => exact .inl rfl
  | true => exact .inr ⟨hm, h.recorded i hi hr hs⟩

theorem Purges.lost (h : Purges close s v) (r : machine.Reachable s) (hc : Calm s.mgr v)
    (hi : i < s.mgr.attr.bankCount) (hr : (s.mgr.banks i).registered = false)
    (hs : (s.mgr.banks i).region.Shares v) : (s.mgr.banks i).mr = none := by
  have ht := reachable_tracked r
  have hl := reachable_carries r
  have hturns := invalidated_turns close s v
  obtain ⟨x, hx, hxv⟩ := hs
  let u : Region := ⟨x, 1⟩
  have hshare : ∀ {b : Region}, b.Covers u → b.Shares v := by
    intro b hb
    simp only [Region.Covers, u, Region.stop] at hb
    exact ⟨x, ⟨hb.1, by simp only [Region.stop]; omega⟩, hxv⟩
  -- what is left in the way of bank `i` can be marked for something else
  have hahead : ∀ k < i, ((invalidated close s v).mgr.banks k).region.Covers u →
      Markable (invalidated close s v).mgr k := by
    intro k hk hcov
    have hkn : k < s.mgr.attr.bankCount := by omega
    have hreg : ((invalidated close s v).mgr.banks k).registered = false := by
      rw [← Bool.not_eq_true]
      exact fun hr => h.gone k hkn ⟨hr, .inl (hshare hcov)⟩
    rw [hc.banks hkn] at hcov
    have hm := meets_of_shares (Bank.swept_shares (hshare hcov)).1
    have href := hl.ref k
    have hbusy : ¬ 0 < (s.mgr.banks k).ref := fun hr => hc k hkn ⟨hm, hr⟩
    refine ⟨?_, hreg⟩
    rw [Evictable, hc.banks hkn, Bank.swept_ref]
    exact ⟨by omega, Bank.swept_nonvolatile hm⟩
  have hn : i < (invalidated close s v).mgr.attr.bankCount := by
    rw [hturns.fixed.1]
    exact hi
  obtain ⟨h₁, s₁, p₁, hc₁, hfree, hbanks⟩ := mark_ahead i hn
  obtain ⟨h₂, s₂, p₂, hc₂, hsame, hslab⟩ := exhaust_slabs (s := s₁) (u := u) (by simp [u])
  have hbank : s₂.mgr.banks i = (s.mgr.banks i).swept (close i) v := by
    rw [hsame, ← hc.banks hi]
    exact (hbanks i).resolve_right (fun hlt => Nat.lt_irrefl i hlt.1)
  have hswept : ((s.mgr.banks i).swept (close i) v).region = (s.mgr.banks i).region ∧
      ((s.mgr.banks i).swept (close i) v).mr = (s.mgr.banks i).mr := by
    simp only [Bank.swept, hr, Bool.false_eq_true, false_and, if_false]
    split <;> exact ⟨rfl, rfl⟩
  have hhit : lookup s₂.mgr u = .hit i := by
    apply lookup_first
    · rw [((path_turns (p₁.trans p₂)).fixed.1)]
      exact hn
    · rw [hbank, hswept.1]
      simp only [Region.Covers, u, Region.stop] at hx ⊢
      omega
    · intro k hk hcov
      rw [hsame] at hcov
      rcases hbanks k with he | ⟨_, he⟩
      · rw [he] at hcov
        have hm := hahead k hk hcov
        refine hfree k hk ?_
        simpa only [Markable, Evictable, he] using hm
      · rw [he] at hcov
        simp [Region.Covers, Region.stop, u] at hcov
  obtain ⟨hhandle, hiov⟩ := describe_hit (u := u) (by simp [u]) hslab hhit (fun _ => ⟨0, 0⟩)
  have hfresh := h.fresh _ s₂ (p₁.trans p₂) (by simpa using ⟨hc₂, hc₁⟩) _ _ _ hhandle
  rw [hiov, List.forall₂_cons, hbank, hswept.2] at hfresh
  cases hid : (s.mgr.banks i).mr with
  | none => rfl
  | some id =>
    have hslabs : some id ≠ s.mgr.slabMr := fun he => (ht.slab id he.symm).2 i hid
    have hle := hfresh.1 (hshare (Region.covers_self u)) (by rw [hid]; exact hslabs) id hid
    have hlt := ht.known i id hid
    omega

end Invalidation

end OfiTransport.Mr
