import OfiTransport.Mr.References

/-! What the manager leaves alone: the banks that are referred to, their registrations, and
the slabs that are in use. -/

namespace OfiTransport.Mr

open Lib

def Manager.slabBytes (m : Manager) (j : Nat) : List UInt8 :=
  m.domain.mem.read ⟨(m.slabs j).addr, m.attr.slabSize⟩

structure KeepsBank (i : Nat) (m m' : Manager) : Prop where
  mr : (m'.banks i).mr = (m.banks i).mr
  base : (m'.banks i).base = (m.banks i).base
  len : (m'.banks i).len = (m.banks i).len
  registered : (m'.banks i).registered = (m.banks i).registered
  regs : ∀ id, (m.banks i).registered = true → (m.banks i).mr = some id →
    m'.domain.regs id = m.domain.regs id

structure KeepsSlab (j : Nat) (m m' : Manager) : Prop where
  addr : (m'.slabs j).addr = (m.slabs j).addr
  bytes : m'.slabBytes j = m.slabBytes j

structure Spares (m m' : Manager) : Prop where
  bank : ∀ i, 0 < (m.banks i).ref → KeepsBank i m m'
  slab : ∀ j, (m.slabs j).inuse = true → KeepsSlab j m m'

structure Retains (m m' : Manager) : Prop where
  ref : ∀ i, (m.banks i).ref ≤ (m'.banks i).ref
  inuse : ∀ j, (m.slabs j).inuse = true → (m'.slabs j).inuse = true

structure Separate (m : Manager) : Prop where
  known : ∀ i, (m.banks i).registered = true →
    ∃ id, (m.banks i).mr = some id ∧ id < m.domain.nextMr
  distinct : ∀ i k, i ≠ k → (m.banks i).registered = true → (m.banks k).registered = true →
    (m.banks i).mr ≠ (m.banks k).mr

section Relations

variable {m m' m'' : Manager} {i j : Nat}

theorem KeepsBank.refl (i : Nat) (m : Manager) : KeepsBank i m m :=
  ⟨rfl, rfl, rfl, rfl, fun _ _ _ => rfl⟩

theorem KeepsBank.trans (h : KeepsBank i m m') (h' : KeepsBank i m' m'') : KeepsBank i m m'' where
  mr := h'.mr.trans h.mr
  base := h'.base.trans h.base
  len := h'.len.trans h.len
  registered := h'.registered.trans h.registered
  regs id hr hid :=
    (h'.regs id (h.registered.trans hr) (h.mr.trans hid)).trans (h.regs id hr hid)

theorem KeepsSlab.refl (j : Nat) (m : Manager) : KeepsSlab j m m := ⟨rfl, rfl⟩

theorem KeepsSlab.trans (h : KeepsSlab j m m') (h' : KeepsSlab j m' m'') : KeepsSlab j m m'' :=
  ⟨h'.addr.trans h.addr, h'.bytes.trans h.bytes⟩

theorem Spares.refl (m : Manager) : Spares m m :=
  ⟨fun i _ => .refl i m, fun j _ => .refl j m⟩

theorem Spares.trans (h : Spares m m') (hr : Retains m m') (h' : Spares m' m'') :
    Spares m m'' where
  bank i hi := (h.bank i hi).trans (h'.bank i (Int.lt_of_lt_of_le hi (hr.ref i)))
  slab j hj := (h.slab j hj).trans (h'.slab j (hr.inuse j hj))

theorem Retains.refl (m : Manager) : Retains m m := ⟨fun _ => Int.le_refl _, fun _ => id⟩

theorem Retains.trans (h : Retains m m') (h' : Retains m' m'') : Retains m m'' :=
  ⟨fun i => Int.le_trans (h.ref i) (h'.ref i), fun j hj => h'.inuse j (h.inuse j hj)⟩

theorem SameRefs.retains (h : SameRefs m m') : Retains m m' :=
  ⟨fun i => Int.le_of_eq (h.ref i).symm, fun j hj => (h.inuse j).trans hj⟩

theorem SameBanks.spares (h : SameBanks m m') (hm : m'.domain.mem = m.domain.mem) :
    Spares m m' where
  bank i _ := by
    have hv := h.region i
    simp only [Bank.region, Region.mk.injEq] at hv
    exact ⟨h.mr i, hv.1, hv.2, h.registered i, fun id _ _ => by rw [h.regs]⟩
  slab j _ := ⟨h.addr j, by rw [Manager.slabBytes, hm, h.addr, h.attr]; rfl⟩

theorem SameBanks.separate (h : SameBanks m m') (hn : m'.domain.nextMr = m.domain.nextMr)
    (hm : Separate m) : Separate m' where
  known i hi := by
    rw [h.registered] at hi
    rw [h.mr, hn]
    exact hm.known i hi
  distinct i k hik hi hk := by
    rw [h.registered] at hi hk
    rw [h.mr, h.mr]
    exact hm.distinct i k hik hi hk

end Relations

structure Touches (i : Nat) (m m' : Manager) : Prop where
  elsewhere : SameElsewhere i m m'
  mem : m'.domain.mem = m.domain.mem
  regs : ∀ k id, k ≠ i → (m.banks k).registered = true → (m.banks k).mr = some id →
    m'.domain.regs id = m.domain.regs id
  separate : Separate m'

section Touching

variable {m m' m'' : Manager} {i : Nat}

theorem SameElsewhere.trans (h : SameElsewhere i m m') (h' : SameElsewhere i m' m'') :
    SameElsewhere i m m'' where
  attr := h'.attr.trans h.attr
  slabMr := h'.slabMr.trans h.slabMr
  slabMem := h'.slabMem.trans h.slabMem
  slabs := h'.slabs.trans h.slabs
  banks k hk := (h'.banks k hk).trans (h.banks k hk)

theorem Touches.trans (h : Touches i m m') (h' : Touches i m' m'') : Touches i m m'' where
  elsewhere := h.elsewhere.trans h'.elsewhere
  mem := h'.mem.trans h.mem
  regs k id hk hr hid := by
    have hb := h.elsewhere.banks k hk
    rw [h'.regs k id hk (hb ▸ hr) (hb ▸ hid), h.regs k id hk hr hid]
  separate := h'.separate

theorem Touches.spares (h : Touches i m m') (hi : ¬ 0 < (m.banks i).ref) : Spares m m' where
  bank k hk := by
    have hki : k ≠ i := by
      rintro rfl
      exact hi hk
    have hb := h.elsewhere.banks k hki
    exact ⟨by rw [hb], by rw [hb], by rw [hb], by rw [hb], fun id => h.regs k id hki⟩
  slab j _ := by
    refine ⟨by rw [h.elsewhere.slabs], ?_⟩
    rw [Manager.slabBytes, h.mem, h.elsewhere.slabs, h.elsewhere.attr]
    rfl

theorem modifyBank_touches (h : Separate m) (i : Nat) {f : Bank → Bank}
    (hf : ∀ b, (f b).registered = true → b.registered = true ∧ (f b).mr = b.mr) :
    Touches i m (m.modifyBank i f) := by
  have hr : ∀ k, ((m.modifyBank i f).banks k).registered = true →
      (m.banks k).registered = true ∧ ((m.modifyBank i f).banks k).mr = (m.banks k).mr := by
    intro k hk
    by_cases hki : k = i
    · subst hki
      simpa using hf _ (by simpa using hk)
    · simpa [hki] using hk
  refine ⟨⟨rfl, rfl, rfl, rfl, fun k hk => by simp [hk]⟩, rfl, fun _ _ _ _ _ => rfl, ?_, ?_⟩
  · intro k hk
    obtain ⟨hk, hm⟩ := hr k hk
    rw [hm]
    exact h.known k hk
  · intro k l hkl hk hl
    obtain ⟨hk, hm⟩ := hr k hk
    obtain ⟨hl, hm'⟩ := hr l hl
    rw [hm, hm']
    exact h.distinct k l hkl hk hl

theorem Touches.refl (h : Separate m) (i : Nat) : Touches i m m :=
  ⟨⟨rfl, rfl, rfl, rfl, fun _ _ => rfl⟩, rfl, fun _ _ _ _ _ => rfl, h⟩

theorem unregister_touches (h : Separate m) (close : Int) (i : Nat) :
    Touches i m (unregister close m i).2 := by
  by_cases hi : (m.banks i).registered = true
  · by_cases hc : close = 0
    · obtain ⟨id, hid, _⟩ := h.known i hi
      rw [hc, unregister_zero hi hid]
      have hs : Separate { m with domain := m.domain.mrClose id } := ⟨h.known, h.distinct⟩
      have ht := modifyBank_touches hs i
        (f := fun b => { b with registered := false, base := 0, len := 0 }) (by simp)
      refine ⟨⟨rfl, rfl, rfl, rfl, fun k hk => by simp [hk]⟩, rfl, ?_, ht.separate⟩
      intro k id' hki hk hid'
      have hne : id' ≠ id := by
        rintro rfl
        exact h.distinct k i hki hk hi (hid'.trans hid.symm)
      simp [hne]
    · simpa [unregister, hi, hc] using Touches.refl h i
  · simpa [unregister, hi] using Touches.refl h i

theorem registerFresh_touches (h : Separate m) (reg : Int) (i : Nat) :
    Touches i m (registerFresh reg m i).2 := by
  by_cases hr : reg = 0
  · rw [hr, registerFresh_zero]
    refine ⟨⟨rfl, rfl, rfl, rfl, fun k hk => by simp [hk]⟩, rfl, ?_, ?_, ?_⟩
    · intro k id _ hk hid
      obtain ⟨id', hid', hlt⟩ := h.known k hk
      rw [hid, Option.some.injEq] at hid'
      have hne : id ≠ m.domain.nextMr := by omega
      simp [hne]
    · intro k hk
      by_cases hki : k = i
      · subst hki
        exact ⟨m.domain.nextMr, by simp, Nat.lt_succ_self _⟩
      · obtain ⟨id, hid, hlt⟩ := h.known k (by simpa [hki] using hk)
        exact ⟨id, by simpa [hki] using hid, Nat.lt_succ_of_lt hlt⟩
    · have hne : ∀ k, k ≠ i → (m.banks k).registered = true →
          (m.banks k).mr ≠ some m.domain.nextMr := by
        intro k _ hk he
        obtain ⟨id, hid, hlt⟩ := h.known k hk
        rw [hid, Option.some.injEq] at he
        omega
      intro k l hkl hk hl
      by_cases hki : k = i
      · have hli : l ≠ i := fun e => hkl (hki.trans e.symm)
        simpa [hki, hli] using (hne l hli (by simpa [hli] using hl)).symm
      · by_cases hli : l = i
        · simpa [hki, hli] using hne k hki (by simpa [hki] using hk)
        · simpa [hki, hli] using
            h.distinct k l hkl (by simpa [hki] using hk) (by simpa [hli] using hl)
  · rw [registerFresh_fail hr]
    exact .refl h i

theorem register_touches (h : Separate m) (a : Answers) (i : Nat) :
    Touches i m (register a m i).2 := by
  have hu := unregister_touches h a.close i
  simp only [register]
  split
  · split
    · exact hu
    · exact hu.trans (registerFresh_touches hu.separate ..)
  · exact registerFresh_touches h ..

end Touching

section Operations

variable {m m' : Manager} {a : Answers} {v : Region}

theorem getFreeBank_some {i : Nat} (h : getFreeBank m = some i) :
    (m.banks i).ref = 0 ∧ (m.banks i).nonvolatile = false ∧ (m.banks i).registered = false := by
  simpa using List.find?_some h

theorem mark_spares (h : Separate m) (a : Answers) (v : Region) :
    Spares m (mark a m v).2 ∧ Separate (mark a m v).2 := by
  simp only [mark]
  cases hf : getFreeBank m with
  | none => exact ⟨.refl m, h⟩
  | some i =>
    have hm := modifyBank_touches h i (f := fun b => { b with
      base := v.base, len := v.len, nonvolatile := true, registered := false }) (by simp)
    have ht := hm.trans (register_touches hm.separate a i)
    have hi := (getFreeBank_some hf).1
    exact ⟨ht.spares (by omega), ht.separate⟩

theorem invalidateFrom_spares (h : Separate m) (close : Nat → Int) (v : Region) (is : List Nat) :
    Spares m (invalidateFrom close v is m).2 ∧ Separate (invalidateFrom close v is m).2 := by
  induction is generalizing m with
  | nil => exact ⟨.refl m, h⟩
  | cons i is ih =>
    simp only [invalidateFrom]
    split
    · split
      · exact ⟨.refl m, h⟩
      · next hi =>
        have hu := unregister_touches h (close i) i
        have hm := modifyBank_touches hu.separate i (f := fun b => { b with nonvolatile := false })
          (fun b hb => ⟨hb, rfl⟩)
        have ht := hu.trans hm
        obtain ⟨hs, hsep⟩ := ih ht.separate
        refine ⟨(ht.spares hi).trans (SameRefs.retains ?_) hs, hsep⟩
        refine .trans (unregister_refs (close i) m i) ?_
        exact .update rfl rfl rfl
    · exact ih h

theorem older_some {o : Option Nat} {i k : Nat} (h : older m i o = some k) :
    k = i ∧ (m.banks i).ref = 0 ∧ (m.banks i).nonvolatile = false ∨ o = some k := by
  cases o with
  | none =>
    simp only [older] at h
    split at h
    · next hi =>
      cases h
      exact .inl ⟨rfl, hi⟩
    · cases h
  | some l =>
    simp only [older] at h
    split at h
    · next hi =>
      cases h
      exact .inl ⟨rfl, hi.1, hi.2.1⟩
    · exact .inr h

theorem scan_evict {is : List Nat} {o : Option Nat} {i : Nat} (h : scan m v is o = .evict i) :
    i ∈ is ∧ (m.banks i).ref = 0 ∧ (m.banks i).nonvolatile = false ∨ o = some i := by
  induction is generalizing o with
  | nil =>
    cases o with
    | none => cases h
    | some k =>
      cases h
      exact .inr rfl
  | cons k is ih =>
    simp only [scan] at h
    split at h
    · cases h
    · obtain ⟨hi, hb⟩ | hi := ih h
      · exact .inl ⟨List.mem_cons_of_mem k hi, hb⟩
      · obtain ⟨rfl, hb⟩ | hi := older_some hi
        · exact .inl ⟨List.mem_cons_self, hb⟩
        · exact .inr hi

theorem findBank_spares (h : Separate m) (a : Answers) (v : Region) :
    Spares m (findBank a m v).2.1 ∧ Separate (findBank a m v).2.1 := by
  simp only [findBank]
  cases hl : lookup m v with
  | hit i => exact ⟨.refl m, h⟩
  | again => exact ⟨.refl m, h⟩
  | evict i =>
    obtain ⟨_, hi, _⟩ := (scan_evict hl).resolve_right (by simp)
    have hm := modifyBank_touches h i (f := fun b => { b with base := v.base, len := v.len })
      (fun b hb => ⟨hb, rfl⟩)
    have ht := hm.trans (register_touches hm.separate a i)
    have hs : ¬ 0 < (m.banks i).ref := by omega
    simp only
    split <;> exact ⟨ht.spares hs, ht.separate⟩

theorem tryslab_spares (h : SlabsPlaced m) (hs : Separate m) {j : Nat}
    (ht : (tryslab m v).2.2 = some j) :
    Spares m (tryslab m v).2.1 ∧ Retains m (tryslab m v).2.1 ∧ Separate (tryslab m v).2.1 := by
  obtain ⟨hlen, _, hfree, hmem⟩ := tryslab_some ht
  have hb := tryslab_same m v
  have hslabs := tryslab_slabs ht
  have hbanks : (tryslab m v).2.1.banks = m.banks ∧
      (tryslab m v).2.1.domain.nextMr = m.domain.nextMr := by
    simp only [tryslab]
    split
    · exact ⟨rfl, rfl⟩
    · split <;> exact ⟨rfl, rfl⟩
  have hne : ∀ k, (m.slabs k).inuse = true → j ≠ k := by
    rintro k hk rfl
    simp [hfree] at hk
  refine ⟨⟨?bank, ?slab⟩, ⟨?ref, ?inuse⟩, hb.separate hbanks.2 hs⟩
  case bank =>
    intro i _
    exact ⟨hb.mr i, by rw [hbanks.1], by rw [hbanks.1], hb.registered i,
      fun id _ _ => by rw [hb.regs]⟩
  case slab =>
    intro k hk
    refine ⟨hb.addr k, ?_⟩
    rw [Manager.slabBytes, hmem, hb.addr, hb.attr]
    apply Memory.read_copy_apart
    rw [h j, h k]
    exact Region.apart_parts (hne k hk) hlen (Nat.le_refl _)
  case ref =>
    intro i
    exact Int.le_of_eq (by rw [hbanks.1])
  case inuse =>
    intro k hk
    rw [hslabs]
    simp [Manager.setSlab, Function.update_of_ne (hne k hk).symm, hk]

theorem reference_retains (m : Manager) (i : Nat) :
    Retains m (m.modifyBank i (fun b => { b with ref := b.ref + 1 })) where
  ref k := by
    by_cases hki : k = i
    · rw [hki, Manager.modifyBank_banks, if_pos rfl]
      exact Int.le_of_lt (Int.lt_succ _)
    · simp [hki]
  inuse _ := id

theorem describeIov_spares {d : Describing} (h : SlabsPlaced d.mgr) (hs : Separate d.mgr)
    (a : Answers) (v : Region) :
    Spares d.mgr (describeIov a d v).2.mgr ∧ Retains d.mgr (describeIov a d v).2.mgr ∧
      Separate (describeIov a d v).2.mgr := by
  simp only [describeIov]
  split
  · exact ⟨.refl _, .refl _, hs⟩
  · split
    · next _ m j ht =>
      have hj := tryslab_spares (j := j) (v := v) h hs (by rw [ht])
      rw [ht] at hj
      exact hj
    · obtain ⟨hf, hsep⟩ := findBank_spares hs a v
      have hr := (findBank_refs a d.mgr v).retains
      split
      · next _ m i he =>
        rw [he] at hf hsep hr
        have hb := reference_same m i
        exact ⟨hf.trans hr (hb.spares rfl), hr.trans (reference_retains m i), hb.separate rfl hsep⟩
      · next _ m he =>
        rw [he] at hf hsep hr
        exact ⟨hf, hr, hsep⟩

theorem describeFrom_spares {d : Describing} (h : SlabsPlaced d.mgr) (hs : Separate d.mgr)
    (a : Nat → Answers) (k : Nat) (vs : List Region) :
    Spares d.mgr (describeFrom a k vs d).2.mgr ∧ Retains d.mgr (describeFrom a k vs d).2.mgr ∧
      Separate (describeFrom a k vs d).2.mgr := by
  induction vs generalizing k d with
  | nil => exact ⟨.refl _, .refl _, hs⟩
  | cons v vs ih =>
    obtain ⟨hv, hr, hsep⟩ := describeIov_spares h hs (a k) v
    simp only [describeFrom]
    split
    · exact ⟨hv, hr, hsep⟩
    · obtain ⟨hvs, hrs, hseps⟩ := ih ((describeIov_places (a k) d v).placed h) hsep (k + 1)
      exact ⟨hv.trans hr hvs, hr.trans hrs, hseps⟩

theorem release_domain (m : Manager) (c : Context) : (release m c).domain = m.domain := by
  have hb : ∀ (is : List Nat) (m : Manager), (releaseBanks m is).domain = m.domain := by
    intro is
    induction is with
    | nil => exact fun _ => rfl
    | cons i is ih => exact fun m => ih _
  have hs : ∀ (js : List Nat) (m : Manager), (releaseSlabs m js).domain = m.domain := by
    intro js
    induction js with
    | nil => exact fun _ => rfl
    | cons j js ih => exact fun m => ih _
  rw [release, hs, hb]

theorem release_spares (hs : Separate m) (c : Context) :
    Spares m (release m c) ∧ Separate (release m c) := by
  have hd := release_domain m c
  exact ⟨(release_same m c).spares (by rw [hd]), (release_same m c).separate (by rw [hd]) hs⟩

theorem describe_spares (h : SlabsPlaced m) (hs : Separate m) (a : Nat → Answers)
    (iov : List Region) : Spares m (describe a m iov).mgr ∧ Separate (describe a m iov).mgr := by
  simp only [describe]
  split
  · exact ⟨.refl m, hs⟩
  · obtain ⟨hf, hr, hsep⟩ := describeFrom_spares (d := .start m) h hs a 0 iov
    split
    · obtain ⟨hrel, hsep'⟩ := release_spares hsep (describeFrom a 0 iov (.start m)).2.ctx
      exact ⟨hf.trans hr hrel, hsep'⟩
    · exact ⟨hf, hsep⟩

end Operations

section Runs

variable {s s' : System} {e : Event} {c : Context}

structure Arranged (m : Manager) : Prop where
  placed : SlabsPlaced m
  separate : Separate m

theorem init_arranged (attr : Attr) (domain : Domain) (slabMem : Nat) (reg : Int) :
    Arranged (init attr domain slabMem reg).2 :=
  ⟨(init_honest attr domain slabMem reg).addr, by
    simp only [init]
    split
    · exact ⟨by simp, by simp⟩
    · split <;> exact ⟨by simp, by simp⟩⟩

theorem step_spares (h : Arranged s.mgr) (hs : step s e = .ok s') :
    Spares s.mgr s'.mgr ∧ Arranged s'.mgr := by
  cases e with
  | mark v a =>
    cases hs
    obtain ⟨hm, hsep⟩ := mark_spares h.separate a v
    exact ⟨hm, (mark_slabs a s.mgr v).placed h.placed, hsep⟩
  | invalidate v close =>
    cases hs
    obtain ⟨hm, hsep⟩ := invalidateFrom_spares h.separate close v (List.range s.mgr.attr.bankCount)
    exact ⟨hm, (invalidateFrom_slabs close v _ s.mgr).placed h.placed, hsep⟩
  | describe iov a =>
    cases hs
    obtain ⟨hm, hsep⟩ := describe_spares h.placed h.separate a iov
    exact ⟨hm, (describe_places a s.mgr iov).placed h.placed, hsep⟩
  | release c =>
    cases hs
    obtain ⟨hm, hsep⟩ := release_spares h.separate c
    exact ⟨hm, (release_same s.mgr c).places.placed h.placed, hsep⟩

theorem reachable_arranged (r : machine.Reachable s) : Arranged s.mgr := by
  refine r.invariant (I := fun s => Arranged s.mgr) ?_ (fun s e s' h _ hs => (step_spares h hs).2)
  rintro s ⟨attr, domain, slabMem, reg, rfl⟩
  exact init_arranged attr domain slabMem reg

/-- What a handle refers to is as it was. -/
structure Undisturbed (c : Context) (m m' : Manager) : Prop where
  bank : ∀ i ∈ c.banks, KeepsBank i m m'
  slab : ∀ j ∈ c.slabs, KeepsSlab j m m'

theorem Carries.undisturbed {m m' : Manager} {l : List Context} (h : Carries m l) (hc : c ∈ l)
    (hs : Spares m m') : Undisturbed c m m' where
  bank i hi := by
    apply hs.bank
    rw [h.ref]
    exact Int.natCast_pos.2 (bankUses_pos hc hi)
  slab j hj := by
    apply hs.slab
    have hu := slabUses_pos hc hj
    rw [h.inuse] at hu
    split at hu
    · assumption
    · cases hu

/-- Whatever is done to the manager until a handle is released leaves the banks and the slabs
of the handle as they are. -/
theorem handle_undisturbed (r : machine.Reachable s) (p : machine.Path s h s')
    (hc : Machine.Guarded (fun s _ => c ∈ s.live) h) : Undisturbed c s.mgr s'.mgr := by
  refine p.relates (R := fun s s' => Undisturbed c s.mgr s'.mgr) ?refl ?trans ?step r hc
  case refl => exact fun s => ⟨fun i _ => .refl i s.mgr, fun j _ => .refl j s.mgr⟩
  case trans =>
    intro s₁ s₂ s₃ h h'
    exact ⟨fun i hi => (h.bank i hi).trans (h'.bank i hi),
      fun j hj => (h.slab j hj).trans (h'.slab j hj)⟩
  case step =>
    intro s e s' r hc _ hs
    exact (reachable_carries r).undisturbed hc (step_spares (reachable_arranged r) hs).1

def oneSlab : System := ⟨(init ⟨1, 1, 64, 0⟩ .unused 0x10000 0).2, []⟩

theorem oneSlab_undisturbed :
    let a : Nat → Answers := fun _ => ⟨0, 0⟩
    let m := (describe a oneSlab.mgr [⟨4096, 100⟩, ⟨8192, 10⟩]).mgr
    let m' := (describe a m [⟨12288, 10⟩]).mgr
    Undisturbed ⟨[some 1, some 0], [0], [0]⟩ m (invalidate (fun _ => 0) m' ⟨4096, 100⟩).2 :=
  handle_undisturbed (s := ⟨_, [⟨[some 1, some 0], [0], [0]⟩]⟩)
    ⟨_, .step (s := oneSlab) (e := .describe [⟨4096, 100⟩, ⟨8192, 10⟩] (fun _ => ⟨0, 0⟩))
      (.init ⟨_, _, _, _, rfl⟩) rfl rfl⟩
    (.step (e := .invalidate ⟨4096, 100⟩ (fun _ => 0))
      (.step (e := .describe [⟨12288, 10⟩] (fun _ => ⟨0, 0⟩)) .refl rfl rfl) rfl rfl)
    (by
      rw [Machine.guarded_cons, Machine.guarded_cons]
      exact ⟨List.mem_singleton_self _, List.mem_singleton_self _, by simp⟩)

end Runs

end OfiTransport.Mr
