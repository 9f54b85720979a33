import OfiTransport.Mr.Defs
import Mathlib.Data.List.Forall2

/-! Which registrations stand behind the descriptors that `ofi_mr_describe` stores. -/

namespace OfiTransport.Mr

open Lib

def Backed (d : Domain) (desc : Option Nat) (v : Region) : Prop :=
  v.len ≠ 0 → ∃ id g, desc = some id ∧ d.regs id = some g ∧ g.region.Covers v

/-- After a describe that returned 0 every iov is backed. -/
def DescribesSound (s : System) : Event → Prop
  | .describe iov a =>
    let r := describe a s.mgr iov
    r.ret = 0 → ∃ ctx, r.handle = some ctx ∧ r.iov.length = iov.length ∧
      List.Forall₂ (Backed r.mgr.domain) ctx.descriptors r.iov
  | _ => True

section Condition

/-- An eviction does no harm if it registers an unregistered bank, or gives up between
closing the old registration and making the new one. -/
def EvictsWell (a : Answers) (m : Manager) (v : Region) : Prop :=
  match lookup m v with
  | .evict i => if (m.banks i).registered then a.close = 0 ∧ a.reg ≠ 0 else a.reg = 0
  | _ => True

def CarefulIov (a : Answers) (m : Manager) (v : Region) : Prop :=
  v.len ≠ 0 →
    match tryslab m v with
    | (_, _, some _) => m.slabMr.isSome
    | (_, _, none) => EvictsWell a m v

def CarefulFrom (a : Nat → Answers) : Nat → List Region → Describing → Prop
  | _, [], _ => True
  | k, v :: vs, d =>
    CarefulIov (a k) d.mgr v ∧
      ((describeIov (a k) d v).1 = 0 → CarefulFrom a (k + 1) vs (describeIov (a k) d v).2)

/-- The marks register what they mark, the slabs in use are registered, and no eviction
goes wrong. -/
def Careful (s : System) : Event → Prop
  | .mark v a => v.len ≠ 0 → (getFreeBank s.mgr).isSome → a.reg = 0
  | .describe iov a => iov.length ≤ 16 → CarefulFrom a 0 iov (.start s.mgr)
  | _ => True

end Condition

structure Honest (m : Manager) : Prop where
  registered : ∀ i, (m.banks i).registered = true →
    ∃ id g, (m.banks i).mr = some id ∧ m.domain.regs id = some g ∧ g.region = (m.banks i).region
  unregistered : ∀ i, (m.banks i).registered = false → (m.banks i).len = 0
  distinct : ∀ i k, i ≠ k → (m.banks i).registered = true → (m.banks k).registered = true →
    (m.banks i).mr ≠ (m.banks k).mr
  slab : ∀ id, m.slabMr = some id → ∃ g, m.domain.regs id = some g ∧
    g.region = ⟨m.slabMem, m.attr.slabCount * m.attr.slabSize⟩
  apart : ∀ i, (m.banks i).registered = true → m.slabMr = none ∨ (m.banks i).mr ≠ m.slabMr
  addr : ∀ j, (m.slabs j).addr = m.slabMem + m.attr.slabSize * j

def Domain.Extends (d d' : Domain) : Prop := ∀ id g, d.regs id = some g → d'.regs id = some g

theorem Domain.Extends.refl (d : Domain) : d.Extends d := fun _ _ h => h

theorem Domain.mrReg_extends (d : Domain) (g : Registration) : d.Extends (d.mrReg g).2 := by
  intro id g' h
  rw [Domain.mrReg_regs, if_neg]
  · exact h
  · rintro rfl
    rw [d.fresh _ (Nat.le_refl _)] at h
    cases h

theorem Backed.mono {d d' : Domain} (h : Backed d desc v) (he : d.Extends d') :
    Backed d' desc v := by
  intro hv
  obtain ⟨id, g, hd, hg, hc⟩ := h hv
  exact ⟨id, g, hd, he id g hg, hc⟩

section Banks

variable {m : Manager}

structure SameBanks (m m' : Manager) : Prop where
  attr : m'.attr = m.attr
  slabMr : m'.slabMr = m.slabMr
  slabMem : m'.slabMem = m.slabMem
  regs : m'.domain.regs = m.domain.regs
  addr : ∀ j, (m'.slabs j).addr = (m.slabs j).addr
  registered : ∀ i, (m'.banks i).registered = (m.banks i).registered
  region : ∀ i, (m'.banks i).region = (m.banks i).region
  mr : ∀ i, (m'.banks i).mr = (m.banks i).mr

theorem SameBanks.refl (m : Manager) : SameBanks m m :=
  ⟨rfl, rfl, rfl, rfl, fun _ => rfl, fun _ => rfl, fun _ => rfl, fun _ => rfl⟩

theorem SameBanks.trans {m m' m'' : Manager} (h : SameBanks m m') (h' : SameBanks m' m'') :
    SameBanks m m'' where
  attr := h'.attr.trans h.attr
  slabMr := h'.slabMr.trans h.slabMr
  slabMem := h'.slabMem.trans h.slabMem
  regs := h'.regs.trans h.regs
  addr j := (h'.addr j).trans (h.addr j)
  registered i := (h'.registered i).trans (h.registered i)
  region i := (h'.region i).trans (h.region i)
  mr i := (h'.mr i).trans (h.mr i)

theorem SameBanks.extends {m m' : Manager} (h : SameBanks m m') : m.domain.Extends m'.domain := by
  intro id g hg
  rw [h.regs]
  exact hg

theorem SameBanks.honest {m m' : Manager} (h : SameBanks m m') (hm : Honest m) : Honest m' where
  registered i hi := by
    rw [h.registered] at hi
    rw [h.mr, h.regs, h.region]
    exact hm.registered i hi
  unregistered i hi := by
    rw [h.registered] at hi
    have hl : (m'.banks i).region.len = (m.banks i).region.len := by rw [h.region]
    exact hl.trans (hm.unregistered i hi)
  distinct i k hik hi hk := by
    rw [h.registered] at hi hk
    rw [h.mr, h.mr]
    exact hm.distinct i k hik hi hk
  slab id hid := by
    rw [h.slabMr] at hid
    rw [h.regs, h.slabMem, h.attr]
    exact hm.slab id hid
  apart i hi := by
    rw [h.registered] at hi
    rw [h.slabMr, h.mr]
    exact hm.apart i hi
  addr j := by
    rw [h.addr, h.slabMem, h.attr]
    exact hm.addr j

theorem modifyBank_same (m : Manager) (i : Nat) {f : Bank → Bank}
    (hr : (f (m.banks i)).registered = (m.banks i).registered)
    (hv : (f (m.banks i)).region = (m.banks i).region)
    (hm : (f (m.banks i)).mr = (m.banks i).mr) : SameBanks m (m.modifyBank i f) where
  attr := rfl
  slabMr := rfl
  slabMem := rfl
  regs := rfl
  addr _ := rfl
  registered k := by by_cases h : k = i <;> simp [h, hr]
  region k := by by_cases h : k = i <;> simp [h, hv]
  mr k := by by_cases h : k = i <;> simp [h, hm]

theorem reference_same (m : Manager) (i : Nat) :
    SameBanks m (m.modifyBank i (fun b => { b with ref := b.ref + 1 })) :=
  modifyBank_same m i rfl rfl rfl

theorem setSlab_same (m : Manager) (j : Nat) (u : Bool) : SameBanks m (m.setSlab j u) :=
  ⟨rfl, rfl, rfl, rfl, fun _ => Manager.setSlab_addr .., fun _ => rfl, fun _ => rfl, fun _ => rfl⟩

theorem releaseBanks_same (m : Manager) (is : List Nat) : SameBanks m (releaseBanks m is) := by
  induction is generalizing m with
  | nil => exact .refl m
  | cons i is ih => exact (modifyBank_same m i rfl rfl rfl).trans (ih _)

theorem releaseSlabs_same (m : Manager) (js : List Nat) : SameBanks m (releaseSlabs m js) := by
  induction js generalizing m with
  | nil => exact .refl m
  | cons j js ih => exact (setSlab_same m j false).trans (ih _)

theorem release_same (m : Manager) (c : Context) : SameBanks m (release m c) :=
  (releaseBanks_same m c.banks).trans (releaseSlabs_same _ c.slabs)

structure SameElsewhere (i : Nat) (m m' : Manager) : Prop where
  attr : m'.attr = m.attr
  slabMr : m'.slabMr = m.slabMr
  slabMem : m'.slabMem = m.slabMem
  slabs : m'.slabs = m.slabs
  banks : ∀ k, k ≠ i → m'.banks k = m.banks k

theorem Honest.drop {m m' : Manager} (h : Honest m) (hs : SameElsewhere i m m')
    (hd : ∀ id g, ((m.banks i).registered = true → (m.banks i).mr ≠ some id) →
      m.domain.regs id = some g → m'.domain.regs id = some g)
    (hr : (m'.banks i).registered = false) (hz : (m'.banks i).len = 0) : Honest m' := by
  have hne : ∀ k, (m'.banks k).registered = true → k ≠ i := by
    rintro k hk rfl
    simp [hr] at hk
  refine ⟨?registered, ?unregistered, ?distinct, ?slab, ?apart, ?addr⟩
  case registered =>
    intro k hk
    have hki := hne k hk
    rw [hs.banks k hki] at hk ⊢
    obtain ⟨id, g, hid, hg, hv⟩ := h.registered k hk
    refine ⟨id, g, hid, hd id g ?_ hg, hv⟩
    intro hi
    rw [← hid]
    exact h.distinct i k hki.symm hi hk
  case unregistered =>
    intro k hk
    by_cases hki : k = i
    · rw [hki, hz]
    · rw [hs.banks k hki] at hk ⊢
      exact h.unregistered k hk
  case distinct =>
    intro k l hkl hk hl
    have hki := hne k hk
    have hli := hne l hl
    rw [hs.banks k hki] at hk ⊢
    rw [hs.banks l hli] at hl ⊢
    exact h.distinct k l hkl hk hl
  case slab =>
    intro id hid
    rw [hs.slabMr] at hid
    rw [hs.slabMem, hs.attr]
    obtain ⟨g, hg, hv⟩ := h.slab id hid
    refine ⟨g, hd id g ?_ hg, hv⟩
    intro hi
    rcases h.apart i hi with hn | hn
    · simp [hn] at hid
    · rwa [hid] at hn
  case apart =>
    intro k hk
    have hki := hne k hk
    rw [hs.banks k hki] at hk ⊢
    rw [hs.slabMr]
    exact h.apart k hk
  case addr =>
    intro j
    rw [hs.slabs, hs.slabMem, hs.attr]
    exact h.addr j

theorem Honest.adopt {m m' : Manager} (h : Honest m) (hs : SameElsewhere i m m')
    (hd : m'.domain = (m.domain.mrReg g).2) (hmr : (m'.banks i).mr = some m.domain.nextMr)
    (hr : (m'.banks i).registered = true) (hg : g.region = (m'.banks i).region) : Honest m' := by
  have hold : ∀ {id g'}, m.domain.regs id = some g' → m'.domain.regs id = some g' := by
    intro id g' h'
    rw [hd]
    exact m.domain.mrReg_extends g id g' h'
  have hfresh : ∀ {id g'}, m.domain.regs id = some g' → id ≠ m.domain.nextMr := by
    rintro id g' h' rfl
    rw [m.domain.fresh _ (Nat.le_refl _)] at h'
    cases h'
  have hne : ∀ k, k ≠ i → (m'.banks k).registered = true →
      (m'.banks k).mr ≠ some m.domain.nextMr := by
    intro k hki hk
    rw [hs.banks k hki] at hk ⊢
    obtain ⟨id, g', hid, hg', _⟩ := h.registered k hk
    rw [hid]
    simpa using hfresh hg'
  refine ⟨?registered, ?unregistered, ?distinct, ?slab, ?apart, ?addr⟩
  case registered =>
    intro k hk
    by_cases hki : k = i
    · subst hki
      exact ⟨_, g, hmr, by simp [hd], hg⟩
    · rw [hs.banks k hki] at hk ⊢
      obtain ⟨id, g', hid, hg', hv⟩ := h.registered k hk
      exact ⟨id, g', hid, hold hg', hv⟩
  case unregistered =>
    intro k hk
    have hki : k ≠ i := by
      rintro rfl
      simp [hr] at hk
    rw [hs.banks k hki] at hk ⊢
    exact h.unregistered k hk
  case distinct =>
    intro k l hkl hk hl
    by_cases hki : k = i
    · rw [hki, hmr]
      exact (hne l (fun e => hkl (hki.trans e.symm)) hl).symm
    · by_cases hli : l = i
      · rw [hli, hmr]
        exact hne k hki hk
      · rw [hs.banks k hki] at hk ⊢
        rw [hs.banks l hli] at hl ⊢
        exact h.distinct k l hkl hk hl
  case slab =>
    intro id hid
    rw [hs.slabMr] at hid
    rw [hs.slabMem, hs.attr]
    obtain ⟨g', hg', hv⟩ := h.slab id hid
    exact ⟨g', hold hg', hv⟩
  case apart =>
    intro k hk
    rw [hs.slabMr]
    by_cases hki : k = i
    · rw [hki, hmr]
      cases hsl : m.slabMr with
      | none => exact .inl rfl
      | some id =>
        obtain ⟨g', hg', _⟩ := h.slab id hsl
        exact .inr (by simpa using (hfresh hg').symm)
    · rw [hs.banks k hki] at hk ⊢
      exact h.apart k hk
  case addr =>
    intro j
    rw [hs.slabs, hs.slabMem, hs.attr]
    exact h.addr j

end Banks

section Operations

variable {m : Manager} {a : Answers} {v : Region}

theorem unregister_zero {i id : Nat} (hi : (m.banks i).registered = true)
    (hid : (m.banks i).mr = some id) :
    unregister 0 m i =
      (0, { m with domain := m.domain.mrClose id }.modifyBank i
        (fun b => { b with registered := false, base := 0, len := 0 })) := by
  simp [unregister, hi, hid]

theorem unregister_ranged_honest (h : Honest m) {i : Nat} {f : Bank → Bank}
    (hi : (m.banks i).registered = true) (hr : (f (m.banks i)).registered = true)
    (hm : (f (m.banks i)).mr = (m.banks i).mr) :
    Honest (unregister 0 (m.modifyBank i f) i).2 := by
  obtain ⟨id, g, hid, _, _⟩ := h.registered i hi
  have hid' : ((m.modifyBank i f).banks i).mr = some id := by simpa [hm] using hid
  rw [unregister_zero (by simpa using hr) hid']
  refine h.drop (i := i) ⟨rfl, rfl, rfl, rfl, ?_⟩ ?_ (by simp) (by simp)
  · intro k hk
    simp [hk]
  · intro id' g' hne hg'
    have hid' : id' ≠ id := by
      rintro rfl
      exact hne hi hid
    simp [hid', hg']

theorem unregister_honest (h : Honest m) (close : Int) (i : Nat) :
    Honest (unregister close m i).2 := by
  by_cases hi : (m.banks i).registered = true
  · by_cases hc : close = 0
    · have hm : m.modifyBank i (fun b => b) = m := by simp [Manager.modifyBank]
      have hd := unregister_ranged_honest h (i := i) (f := fun b => b) hi hi rfl
      rwa [hm, ← hc] at hd
    · simpa [unregister, hi, hc] using h
  · simpa [unregister, hi] using h

theorem registerFresh_zero (m : Manager) (i : Nat) :
    registerFresh 0 m i =
      (0, { m with
        domain := (m.domain.mrReg
          ⟨(m.banks i).region, toUInt64 (m.attr.baseKey + i + 1)⟩).2
        age := toUInt32 (m.age + 1) }.modifyBank i
          (fun b => { b with
            mr := some m.domain.nextMr, registered := true, age := toUInt32 (m.age + 1) })) := by
  simp [registerFresh, Domain.mrReg]

theorem registerFresh_fail {reg : Int} (hr : reg ≠ 0) (m : Manager) (i : Nat) :
    registerFresh reg m i = (reg, m) := by
  simp [registerFresh, hr]

theorem registerFresh_honest (h : Honest m) (i : Nat) {f : Bank → Bank} :
    Honest (registerFresh 0 (m.modifyBank i f) i).2 := by
  rw [registerFresh_zero]
  refine h.adopt (i := i) ⟨rfl, rfl, rfl, rfl, ?_⟩ rfl ?_ ?_ ?_
  · intro k hk
    simp [hk]
  · simp
  · simp
  · simp [Bank.region]

theorem mark_honest (h : Honest m) (hc : v.len ≠ 0 → (getFreeBank m).isSome → a.reg = 0) :
    Honest (mark a m v).2 := by
  simp only [mark]
  cases hf : getFreeBank m with
  | none => exact h
  | some i =>
    simp only [register, Manager.modifyBank_banks, if_true, Bool.false_eq_true, if_false]
    by_cases hr : a.reg = 0
    · rw [hr]
      exact registerFresh_honest h i
    · rw [registerFresh_fail hr]
      -- only an empty mark may fail, and the bank stays empty then
      have hv : v.len = 0 := by
        by_contra hv
        exact hr (hc hv (by simp [hf]))
      refine h.drop (i := i) ⟨rfl, rfl, rfl, rfl, ?_⟩ (fun _ _ _ hg => hg) (by simp)
        (by simpa using hv)
      intro k hk
      simp [hk]

theorem invalidateFrom_honest (h : Honest m) (close : Nat → Int) (is : List Nat) :
    Honest (invalidateFrom close v is m).2 := by
  induction is generalizing m with
  | nil => exact h
  | cons i is ih =>
    simp only [invalidateFrom]
    split
    · split
      · exact h
      · apply ih
        exact (modifyBank_same _ i rfl rfl rfl).honest (unregister_honest h _ i)
    · exact ih h

theorem scan_hit {is : List Nat} {o : Option Nat} (h : scan m v is o = .hit i) :
    (m.banks i).region.Covers v := by
  induction is generalizing o with
  | nil => cases o <;> cases h
  | cons k is ih =>
    simp only [scan] at h
    split at h
    · next hk =>
      cases h
      exact hk
    · exact ih h

theorem Honest.backed (h : Honest m) (hc : (m.banks i).region.Covers v) :
    Backed m.domain (m.banks i).mr v := by
  intro hv
  have hi : (m.banks i).registered = true := by
    rw [← Bool.not_eq_false]
    intro hi
    have hz := h.unregistered i hi
    simp only [Bank.region, Region.Covers, Region.stop] at hc
    omega
  obtain ⟨id, g, hid, hg, hr⟩ := h.registered i hi
  exact ⟨id, g, hid, hg, hr ▸ hc⟩

theorem findBank_honest (h : Honest m) (hc : EvictsWell a m v) : Honest (findBank a m v).2.1 := by
  simp only [EvictsWell] at hc
  simp only [findBank]
  cases hl : lookup m v with
  | hit i => exact h
  | again => exact h
  | evict i =>
    simp only [hl] at hc
    by_cases hi : (m.banks i).registered = true
    · -- the old registration is closed and none is made in its place
      rw [if_pos hi] at hc
      have hd := unregister_ranged_honest h (i := i)
        (f := fun b => { b with base := v.base, len := v.len }) hi hi rfl
      simpa [register, hi, hc.1, registerFresh_fail hc.2, hc.2, unregister] using hd
    · rw [if_neg hi] at hc
      have hi' : (m.banks i).registered = false := by simpa using hi
      simpa [register, hi', hc, registerFresh_zero] using
        registerFresh_honest h i (f := fun b => { b with base := v.base, len := v.len })

theorem findBank_backed {i : Nat} (h : Honest m) (hc : EvictsWell a m v)
    (hi : (findBank a m v).2.2 = some i) :
    m.domain.Extends (findBank a m v).2.1.domain ∧
      Backed (findBank a m v).2.1.domain ((findBank a m v).2.1.banks i).mr v := by
  simp only [EvictsWell] at hc
  simp only [findBank] at hi ⊢
  cases hl : lookup m v with
  | hit k =>
    simp only [hl, Option.some.injEq] at hi ⊢
    subst hi
    exact ⟨.refl _, h.backed (scan_hit hl)⟩
  | again => simp [hl] at hi
  | evict k =>
    simp only [hl] at hc hi ⊢
    by_cases hk : (m.banks k).registered = true
    · rw [if_pos hk] at hc
      simp [register, hk, hc.1, registerFresh_fail hc.2, hc.2, unregister] at hi
    · rw [if_neg hk] at hc
      have hk' : (m.banks k).registered = false := by simpa using hk
      simp only [register, hk', hc, registerFresh_zero, Manager.modifyBank_banks, if_true,
        Bool.false_eq_true, if_false, ne_eq, not_true, Option.some.injEq] at hi ⊢
      subst hi
      refine ⟨m.domain.mrReg_extends _, ?_⟩
      intro _
      refine ⟨m.domain.nextMr, _, by simp, by simp; rfl, ?_⟩
      exact Region.covers_self v

theorem findBank_none (hn : (findBank a m v).2.2 = none) : (findBank a m v).1 ≠ 0 := by
  simp only [findBank] at hn ⊢
  cases hl : lookup m v with
  | hit i => simp [hl] at hn
  | again => simp [EAGAIN]
  | evict i =>
    simp only [hl] at hn ⊢
    split at hn
    · next hr => simp [hr]
    · cases hn

structure Advances (d d' : Describing) (v v' : Region) (desc : Option Nat) : Prop where
  descriptors : d'.ctx.descriptors = d.ctx.descriptors ++ [desc]
  iov : d'.iov = d.iov ++ [v']
  len : v'.len = v.len

theorem tryslab_same (m : Manager) (v : Region) : SameBanks m (tryslab m v).2.1 := by
  simp only [tryslab]
  split
  · exact .refl m
  · split
    · exact .refl m
    · next k _ =>
      exact ⟨rfl, rfl, rfl, rfl, fun _ => Manager.setSlab_addr .., fun _ => rfl, fun _ => rfl,
        fun _ => rfl⟩

theorem tryslab_some {j : Nat} (ht : (tryslab m v).2.2 = some j) :
    v.len ≤ m.attr.slabSize ∧ j < m.attr.slabCount ∧ (m.slabs j).inuse = false ∧
      (tryslab m v).2.1.domain.mem = m.domain.mem.copy (m.slabs j).addr v := by
  simp only [tryslab] at ht ⊢
  split at ht
  · cases ht
  · next hl =>
    split at ht
    · cases ht
    · next k hk =>
      cases ht
      have hm := List.mem_of_find?_eq_some hk
      have hp := List.find?_some hk
      simp only [List.mem_range] at hm
      simp only [Bool.not_eq_eq_eq_not, Bool.not_true] at hp
      exact ⟨by omega, hm, hp, by simp [hl]⟩

theorem describeIov_honest {d : Describing} (h : Honest d.mgr) (hc : CarefulIov a d.mgr v) :
    Honest (describeIov a d v).2.mgr := by
  simp only [describeIov]
  split
  · exact h
  · next hv =>
    have hc := hc hv
    split
    · next _ m j ht =>
      have hs := tryslab_same d.mgr v
      rw [ht] at hs
      exact hs.honest h
    · next _ _ ht =>
      rw [ht] at hc
      have hf := findBank_honest h hc
      split
      · next _ m i he =>
        rw [he] at hf
        exact (reference_same m i).honest hf
      · next _ m he =>
        rw [he] at hf
        exact hf

theorem describeIov_backed {d : Describing} (h : Honest d.mgr) (hc : CarefulIov a d.mgr v)
    (hret : (describeIov a d v).1 = 0) :
    d.mgr.domain.Extends (describeIov a d v).2.mgr.domain ∧
      ∃ v' desc, Advances d (describeIov a d v).2 v v' desc ∧
        Backed (describeIov a d v).2.mgr.domain desc v' := by
  simp only [describeIov] at hret ⊢
  split
  · next hv =>
    refine ⟨.refl _, v, none, ⟨rfl, rfl, rfl⟩, ?_⟩
    intro hv'
    exact absurd hv hv'
  · next hv =>
    have hc := hc hv
    split
    · next _ m j ht =>
      rw [ht] at hc
      have hs := tryslab_same d.mgr v
      have hj := tryslab_some (m := d.mgr) (v := v) (j := j) (by rw [ht])
      rw [ht] at hs
      refine ⟨hs.extends, ⟨(m.slabs j).addr, v.len⟩, m.slabMr, ⟨rfl, rfl, rfl⟩, ?_⟩
      intro _
      have hm := hs.honest h
      obtain ⟨id, hid⟩ := Option.isSome_iff_exists.1 hc
      rw [← hs.slabMr] at hid
      obtain ⟨g, hg, hr⟩ := hm.slab id hid
      refine ⟨id, g, hid, hg, ?_⟩
      rw [hr, hm.addr]
      exact Region.covers_part (by rw [hs.attr]; exact hj.2.1) (by rw [hs.attr]; exact hj.1)
    · next _ _ ht =>
      rw [ht] at hc
      split
      · next _ m i he =>
        have hb := findBank_backed (i := i) h hc (by rw [he])
        rw [he] at hb
        exact ⟨hb.1, v, (m.banks i).mr, ⟨by simp, rfl, rfl⟩, hb.2⟩
      · next ret m he =>
        have hn := findBank_none (a := a) (m := d.mgr) (v := v) (by rw [he])
        simp only [he, ht, hv, if_false] at hret hn
        exact absurd hret hn

end Operations

section Runs

theorem describeFrom_honest {a : Nat → Answers} {d : Describing} (h : Honest d.mgr)
    (hc : CarefulFrom a k vs d) : Honest (describeFrom a k vs d).2.mgr := by
  induction vs generalizing k d with
  | nil => exact h
  | cons v vs ih =>
    have hd := describeIov_honest h hc.1
    simp only [describeFrom]
    split
    · exact hd
    · next hr => exact ih hd (hc.2 (by simpa using hr))

theorem describeFrom_backed {a : Nat → Answers} {d : Describing} (h : Honest d.mgr)
    (hc : CarefulFrom a k vs d)
    (hb : List.Forall₂ (Backed d.mgr.domain) d.ctx.descriptors d.iov)
    (hret : (describeFrom a k vs d).1 = 0) :
    List.Forall₂ (Backed (describeFrom a k vs d).2.mgr.domain)
        (describeFrom a k vs d).2.ctx.descriptors (describeFrom a k vs d).2.iov ∧
      (describeFrom a k vs d).2.iov.length = d.iov.length + vs.length := by
  induction vs generalizing k d with
  | nil => exact ⟨hb, rfl⟩
  | cons v vs ih =>
    simp only [describeFrom] at hret ⊢
    split at hret
    · next hr => exact absurd hret hr
    · next hr =>
      rw [if_neg hr]
      have hr : (describeIov (a k) d v).1 = 0 := by simpa using hr
      obtain ⟨he, v', desc, hadv, hv⟩ := describeIov_backed h hc.1 hr
      have hb' : List.Forall₂ (Backed (describeIov (a k) d v).2.mgr.domain)
          (describeIov (a k) d v).2.ctx.descriptors (describeIov (a k) d v).2.iov := by
        rw [hadv.descriptors, hadv.iov]
        exact List.rel_append (hb.imp (fun _ _ hx => hx.mono he)) (.cons hv .nil)
      have hlen : (describeIov (a k) d v).2.iov.length = d.iov.length + 1 := by simp [hadv.iov]
      obtain ⟨hf, hl⟩ := ih (describeIov_honest h hc.1) (hc.2 hr) hb' hret
      exact ⟨hf, by rw [hl, hlen, List.length_cons]; omega⟩

variable {s s' : System}

theorem describe_honest {iov : List Region} {a : Nat → Answers} (h : Honest s.mgr)
    (hc : Careful s (.describe iov a)) : Honest (describe a s.mgr iov).mgr := by
  simp only [describe]
  split
  · exact h
  · next hl =>
    have hf := describeFrom_honest (d := .start s.mgr) h (hc (by omega))
    split
    · exact (release_same _ _).honest hf
    · exact hf

theorem describe_sound {iov : List Region} {a : Nat → Answers} (h : Honest s.mgr)
    (hc : Careful s (.describe iov a)) : DescribesSound s (.describe iov a) := by
  simp only [DescribesSound, describe]
  split
  · intro hr
    cases hr
  · next hl =>
    split
    · next hr =>
      intro hr'
      exact absurd hr' hr
    · next hr =>
      intro _
      have hr : (describeFrom a 0 iov (.start s.mgr)).1 = 0 := by simpa using hr
      obtain ⟨hf, hlen⟩ :=
        describeFrom_backed (d := .start s.mgr) h (hc (by omega)) .nil hr
      exact ⟨_, rfl, by simpa [Describing.start] using hlen, hf⟩

theorem init_honest (attr : Attr) (domain : Domain) (slabMem : Nat) (reg : Int) :
    Honest (init attr domain slabMem reg).2 := by
  have hb : ∀ (d : Domain) (slabMr : Option Nat),
      (∀ id, slabMr = some id → ∃ g, d.regs id = some g ∧
        g.region = ⟨slabMem, attr.slabCount * attr.slabSize⟩) →
      Honest ⟨attr, d, fun _ => ⟨0, 0, 0, none, 0, false, false⟩, 0,
        fun j => ⟨slabMem + attr.slabSize * j, false⟩, slabMr, slabMem⟩ := by
    intro d slabMr hs
    exact ⟨by simp, by simp, by simp, hs, by simp, fun _ => rfl⟩
  simp only [init]
  split
  · exact hb domain none (by simp)
  · split
    · exact hb domain none (by simp)
    · apply hb
      intro id hid
      cases hid
      exact ⟨⟨⟨slabMem, _⟩, attr.baseKey⟩, by simp, rfl⟩

theorem step_honest (h : Honest s.mgr) (hc : Careful s e) (hs : step s e = .ok s') :
    Honest s'.mgr := by
  cases e with
  | mark v a =>
    cases hs
    exact mark_honest h hc
  | invalidate v close =>
    cases hs
    exact invalidateFrom_honest h close _
  | describe iov a =>
    cases hs
    exact describe_honest h hc
  | release c =>
    cases hs
    exact (release_same _ _).honest h

theorem always_honest (r : machine.Run h s) (hc : Machine.Guarded Careful h) :
    Machine.Always (fun s => Honest s.mgr) h s := by
  refine r.always_of_guarded ?_ ?_ hc
  · rintro s ⟨attr, domain, slabMem, reg, rfl⟩
    exact init_honest attr domain slabMem reg
  · intro s e s' hm hc _ hs
    exact step_honest hm hc hs

/-- In a run of careful operations every describe that returned 0 is sound. -/
theorem guarded_describesSound (r : machine.Run h s) (hc : Machine.Guarded Careful h) :
    Machine.Guarded DescribesSound h := by
  intro p hp
  have hm := (always_honest r hc).2 p hp
  have hc := hc p hp
  obtain ⟨s, e⟩ := p
  cases e with
  | describe iov a => exact describe_sound hm hc
  | mark v a => trivial
  | invalidate v close => trivial
  | release c => trivial

def oneBank : System :=
  ⟨(init ⟨1, 0, 0, 0⟩ .unused 0 0).2, []⟩

theorem oneBank_describesSound :
    Machine.Guarded DescribesSound [(oneBank, .describe [⟨4096, 100⟩] (fun _ => ⟨0, 0⟩))] := by
  apply guarded_describesSound (.step (.init ⟨_, _, _, _, rfl⟩) rfl rfl)
  rw [Machine.guarded_cons]
  refine ⟨?_, by simp⟩
  intro _
  exact ⟨fun _ => rfl, fun _ => trivial⟩

/-- The second describe evicts the bank that the first one registered, and registers it
for nothing at address 0. -/
theorem describe_after_eviction_unsound :
    ¬ ∀ s, machine.Reachable s → ∀ e, DescribesSound s e := by
  intro h
  obtain ⟨s, hs, hp⟩ := Machine.exists_reachable (M := machine) (s := oneBank)
    [.describe [⟨4096, 100⟩] (fun _ => ⟨0, 0⟩), .release ⟨[some 0], [0], []⟩]
    (fun s =>
      let r := describe (fun _ => ⟨0, 0⟩) s.mgr [⟨8192, 100⟩]
      r.ret = 0 ∧ r.handle = some ⟨[some 1], [0], []⟩ ∧ r.iov = [⟨8192, 100⟩] ∧
        r.mgr.domain.regs 1 = some ⟨⟨0, 0⟩, 1⟩)
    ⟨_, _, _, _, rfl⟩ (by decide)
  simp only [Bool.decide_and, Bool.and_eq_true, decide_eq_true_eq] at hp
  obtain ⟨hret, hctx, hiov, hreg⟩ := hp
  obtain ⟨ctx, hc, _, hf⟩ := h s hs (.describe [⟨8192, 100⟩] (fun _ => ⟨0, 0⟩)) hret
  rw [hctx, Option.some.injEq] at hc
  subst hc
  rw [hiov, List.forall₂_cons] at hf
  obtain ⟨id, g, hid, hg, hcov⟩ := hf.1 (by decide)
  cases hid
  rw [hreg, Option.some.injEq] at hg
  subst hg
  revert hcov
  decide

end Runs

end OfiTransport.Mr
