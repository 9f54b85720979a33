import OfiTransport.Mr.Soundness

/-! What the iovs of a described message hold: the slabs an iov may be redirected to get
the bytes it had, and stay apart from each other and from the memory of the user. -/

namespace OfiTransport.Mr

open Lib

def SlabsPlaced (m : Manager) : Prop := ∀ j, (m.slabs j).addr = m.slabMem + m.attr.slabSize * j

def Manager.slabBlock (m : Manager) : Region := ⟨m.slabMem, m.attr.slabCount * m.attr.slabSize⟩

structure SameSlabs (m m' : Manager) : Prop where
  attr : m'.attr = m.attr
  slabs : m'.slabs = m.slabs
  slabMem : m'.slabMem = m.slabMem
  mem : m'.domain.mem = m.domain.mem

section Frame

variable {m m' m'' : Manager} {a : Answers} {v : Region}

theorem SameSlabs.refl (m : Manager) : SameSlabs m m := ⟨rfl, rfl, rfl, rfl⟩

theorem SameSlabs.trans (h : SameSlabs m m') (h' : SameSlabs m' m'') : SameSlabs m m'' :=
  ⟨h'.attr.trans h.attr, h'.slabs.trans h.slabs, h'.slabMem.trans h.slabMem, h'.mem.trans h.mem⟩

theorem unregister_slabs (close : Int) (m : Manager) (i : Nat) :
    SameSlabs m (unregister close m i).2 := by
  simp only [unregister]
  repeat' split
  all_goals exact ⟨rfl, rfl, rfl, by simp⟩

theorem registerFresh_slabs (reg : Int) (m : Manager) (i : Nat) :
    SameSlabs m (registerFresh reg m i).2 := by
  simp only [registerFresh]
  split <;> exact ⟨rfl, rfl, rfl, rfl⟩

theorem register_slabs (a : Answers) (m : Manager) (i : Nat) :
    SameSlabs m (register a m i).2 := by
  simp only [register]
  split
  · split
    · exact unregister_slabs ..
    · exact (unregister_slabs ..).trans (registerFresh_slabs ..)
  · exact registerFresh_slabs ..

theorem findBank_slabs (a : Answers) (m : Manager) (v : Region) :
    SameSlabs m (findBank a m v).2.1 := by
  simp only [findBank]
  cases lookup m v with
  | hit i => exact .refl m
  | again => exact .refl m
  | evict i =>
    have hr := register_slabs a
      (m.modifyBank i (fun b => { b with base := v.base, len := v.len })) i
    have hm : SameSlabs m (m.modifyBank i (fun b => { b with base := v.base, len := v.len })) :=
      ⟨rfl, rfl, rfl, rfl⟩
    simp only
    split <;> exact hm.trans hr

theorem mark_slabs (a : Answers) (m : Manager) (v : Region) : SameSlabs m (mark a m v).2 := by
  simp only [mark]
  split
  · exact .refl m
  · refine .trans ?_ (register_slabs ..)
    exact ⟨rfl, rfl, rfl, rfl⟩

theorem invalidateFrom_slabs (close : Nat → Int) (v : Region) (is : List Nat) (m : Manager) :
    SameSlabs m (invalidateFrom close v is m).2 := by
  induction is generalizing m with
  | nil => exact .refl m
  | cons i is ih =>
    simp only [invalidateFrom]
    split
    · split
      · exact .refl m
      · refine .trans (.trans (unregister_slabs (close i) m i) ?_) (ih _)
        exact ⟨rfl, rfl, rfl, rfl⟩
    · exact ih m

end Frame

section Redirection

variable {a : Answers} {d : Describing} {v : Region}

def Settled (m : Manager) (w : Region) : Prop :=
  w.len ≠ 0 → w.Apart m.slabBlock ∨
    ∃ j, (m.slabs j).inuse = true ∧ w.base = (m.slabs j).addr ∧ w.len ≤ m.attr.slabSize

structure Redirects (d d' : Describing) (v : Region) : Prop where
  placed : SlabsPlaced d'.mgr
  block : d'.mgr.slabBlock = d.mgr.slabBlock
  settled : ∀ w ∈ d'.iov, Settled d'.mgr w
  kept : ∀ w : Region, w.Apart d.mgr.slabBlock → d'.mgr.domain.mem.read w = d.mgr.domain.mem.read w
  gather : d'.mgr.domain.mem.gather d'.iov =
    d.mgr.domain.mem.gather d.iov ++ d.mgr.domain.mem.read v

theorem SameSlabs.placed {m m' : Manager} (h : SameSlabs m m') (hp : SlabsPlaced m) :
    SlabsPlaced m' := by
  intro j
  rw [h.slabs, h.slabMem, h.attr]
  exact hp j

theorem SameSlabs.block {m m' : Manager} (h : SameSlabs m m') : m'.slabBlock = m.slabBlock := by
  simp only [Manager.slabBlock, h.slabMem, h.attr]

theorem SameSlabs.settled {m m' : Manager} (h : SameSlabs m m') {w : Region} (hw : Settled m w) :
    Settled m' w := by
  simp only [Settled] at *
  rwa [h.block, h.slabs, h.attr]

theorem Redirects.stay {d' : Describing} (h : SlabsPlaced d.mgr) (hw : ∀ w ∈ d.iov, Settled d.mgr w)
    (hv : v.len ≠ 0 → v.Apart d.mgr.slabBlock) (hs : SameSlabs d.mgr d'.mgr)
    (hi : d'.iov = d.iov ++ [v]) : Redirects d d' v where
  placed := hs.placed h
  block := hs.block
  settled w hm := by
    rw [hi, List.mem_append, List.mem_singleton] at hm
    apply hs.settled
    rcases hm with hm | rfl
    · exact hw w hm
    · intro hl
      exact .inl (hv hl)
  kept w _ := by rw [hs.mem]
  gather := by simp [hi, hs.mem, Memory.gather_append]

theorem slab_apart_settled {m : Manager} (h : SlabsPlaced m) {j : Nat}
    (hj : (m.slabs j).inuse = false)
    (hc : j < m.attr.slabCount) {n : Nat} (hn : n ≤ m.attr.slabSize) {w : Region} (hl : w.len ≠ 0)
    (hw : Settled m w) : (⟨(m.slabs j).addr, n⟩ : Region).Apart w := by
  rcases hw hl with ha | ⟨k, hk, hb, hle⟩
  · apply Region.Apart.of_covers ha.symm
    rw [h j]
    exact Region.covers_part hc hn
  · have hjk : j ≠ k := by
      rintro rfl
      simp [hj] at hk
    have hp : (⟨m.slabMem + m.attr.slabSize * j, n⟩ : Region).Apart ⟨_, w.len⟩ :=
      Region.apart_parts hjk hn hle
    rw [h j]
    rw [h k] at hb
    cases w
    cases hb
    exact hp

theorem tryslab_slabs {m : Manager} {j : Nat} (ht : (tryslab m v).2.2 = some j) :
    (tryslab m v).2.1.slabs = (m.setSlab j true).slabs := by
  simp only [tryslab] at ht ⊢
  split at ht
  · cases ht
  · next hl =>
    split at ht
    · cases ht
    · cases ht
      simp [hl]

theorem tryslab_redirects {j : Nat} (h : SlabsPlaced d.mgr) (hw : ∀ w ∈ d.iov, Settled d.mgr w)
    (ht : (tryslab d.mgr v).2.2 = some j) {d' : Describing} (hm : d'.mgr = (tryslab d.mgr v).2.1)
    (hi : d'.iov = d.iov ++ [⟨((tryslab d.mgr v).2.1.slabs j).addr, v.len⟩]) :
    Redirects d d' v := by
  obtain ⟨hlen, hj, hfree, hmem⟩ := tryslab_some ht
  have hs := tryslab_same d.mgr v
  have hslabs := tryslab_slabs ht
  have hblock : d'.mgr.slabBlock = d.mgr.slabBlock := by
    simp only [hm, Manager.slabBlock, hs.slabMem, hs.attr]
  have haddr : ((tryslab d.mgr v).2.1.slabs j).addr = (d.mgr.slabs j).addr := hs.addr j
  have huse : (d'.mgr.slabs j).inuse = true := by
    rw [hm, hslabs]
    simp [Manager.setSlab]
  refine ⟨?placed, hblock, ?settled, ?kept, ?gather⟩
  case placed =>
    intro k
    rw [hm, hs.addr, hs.slabMem, hs.attr]
    exact h k
  case settled =>
    intro w hwm hl
    rw [hi, List.mem_append, List.mem_singleton] at hwm
    rcases hwm with hwm | rfl
    · rcases hw w hwm hl with ha | ⟨k, hk, hb, hle⟩
      · exact .inl (hblock ▸ ha)
      · refine .inr ⟨k, ?_, ?_, ?_⟩
        · rw [hm, hslabs]
          by_cases hkj : k = j <;> simp [Manager.setSlab, hkj, hk]
        · rw [hb, hm, hs.addr]
        · rw [hm, hs.attr]
          exact hle
    · exact .inr ⟨j, huse, by rw [hm], by rw [hm, hs.attr]; exact hlen⟩
  case kept =>
    intro w ha
    rw [hm, hmem]
    apply Memory.read_copy_apart
    apply Region.Apart.of_covers ha.symm
    rw [h j]
    exact Region.covers_part hj hlen
  case gather =>
    have hold : d'.mgr.domain.mem.gather d.iov = d.mgr.domain.mem.gather d.iov := by
      apply Memory.gather_congr
      intro w hwm
      by_cases hl : w.len = 0
      · rw [Memory.read_empty hl, Memory.read_empty hl]
      · rw [hm, hmem]
        exact Memory.read_copy_apart (slab_apart_settled h hfree hj hlen hl (hw w hwm))
    rw [hi, Memory.gather_append, hold, haddr, hm, hmem]
    simp [Memory.read_copy_same]

theorem describeIov_redirects (h : SlabsPlaced d.mgr) (hw : ∀ w ∈ d.iov, Settled d.mgr w)
    (hv : v.len ≠ 0 → v.Apart d.mgr.slabBlock) (hret : (describeIov a d v).1 = 0) :
    Redirects d (describeIov a d v).2 v := by
  simp only [describeIov] at hret ⊢
  split
  · exact .stay h hw hv (.refl _) rfl
  · next hl =>
    split
    · next _ m j ht =>
      apply tryslab_redirects (j := j) h hw <;> simp [ht]
    · next _ _ ht =>
      have hs := findBank_slabs a d.mgr v
      split
      · next _ m i he =>
        rw [he] at hs
        exact .stay h hw hv (hs.trans ⟨rfl, rfl, rfl, rfl⟩) rfl
      · next ret m he =>
        have hn := findBank_none (a := a) (m := d.mgr) (v := v) (by rw [he])
        simp only [he, ht, hl, if_false] at hret hn
        exact absurd hret hn

theorem describeFrom_gather {a : Nat → Answers} (h : SlabsPlaced d.mgr)
    (hw : ∀ w ∈ d.iov, Settled d.mgr w)
    (hv : ∀ v ∈ vs, v.len ≠ 0 → v.Apart d.mgr.slabBlock)
    (hret : (describeFrom a k vs d).1 = 0) :
    (describeFrom a k vs d).2.mgr.domain.mem.gather (describeFrom a k vs d).2.iov =
      d.mgr.domain.mem.gather d.iov ++ d.mgr.domain.mem.gather vs := by
  induction vs generalizing k d with
  | nil => simp [describeFrom]
  | cons v vs ih =>
    simp only [describeFrom] at hret ⊢
    split at hret
    · next hr => exact absurd hret hr
    · next hr =>
      rw [if_neg hr]
      have hd := describeIov_redirects h hw (hv v (by simp)) (by simpa using hr)
      have hvs : ∀ w ∈ vs, w.len ≠ 0 → w.Apart (describeIov (a k) d v).2.mgr.slabBlock := by
        intro w hm hl
        rw [hd.block]
        exact hv w (by simp [hm]) hl
      have hrest : (describeIov (a k) d v).2.mgr.domain.mem.gather vs =
          d.mgr.domain.mem.gather vs := by
        apply Memory.gather_congr
        intro w hm
        by_cases hl : w.len = 0
        · rw [Memory.read_empty hl, Memory.read_empty hl]
        · exact hd.kept w (hv w (by simp [hm]) hl)
      rw [ih hd.placed hd.settled hvs hret, hd.gather, hrest, Memory.gather_cons,
        List.append_assoc]

end Redirection

theorem describe_gather {a : Nat → Answers} {m : Manager} {iov : List Region} (h : SlabsPlaced m)
    (hv : ∀ v ∈ iov, v.len ≠ 0 → v.Apart m.slabBlock) (hret : (describe a m iov).ret = 0) :
    (describe a m iov).mgr.domain.mem.gather (describe a m iov).iov = m.domain.mem.gather iov := by
  simp only [describe] at hret ⊢
  split at hret
  · cases hret
  · next hl =>
    rw [if_neg hl]
    split at hret
    · next hr => exact absurd hret hr
    · next hr =>
      rw [if_neg hr]
      have hg := describeFrom_gather (a := a) (k := 0) (d := .start m) h
        (by simp [Describing.start]) hv (by simpa using hr)
      simpa [Describing.start] using hg

section Placement

structure SamePlaces (m m' : Manager) : Prop where
  attr : m'.attr = m.attr
  slabMem : m'.slabMem = m.slabMem
  addr : ∀ j, (m'.slabs j).addr = (m.slabs j).addr

theorem SamePlaces.trans {m m' m'' : Manager} (h : SamePlaces m m') (h' : SamePlaces m' m'') :
    SamePlaces m m'' :=
  ⟨h'.attr.trans h.attr, h'.slabMem.trans h.slabMem, fun j => (h'.addr j).trans (h.addr j)⟩

theorem SameSlabs.places {m m' : Manager} (h : SameSlabs m m') : SamePlaces m m' :=
  ⟨h.attr, h.slabMem, fun j => by rw [h.slabs]⟩

theorem SameBanks.places {m m' : Manager} (h : SameBanks m m') : SamePlaces m m' :=
  ⟨h.attr, h.slabMem, h.addr⟩

theorem SamePlaces.placed {m m' : Manager} (h : SamePlaces m m') (hp : SlabsPlaced m) :
    SlabsPlaced m' := by
  intro j
  rw [h.addr, h.slabMem, h.attr]
  exact hp j

theorem describeIov_places (a : Answers) (d : Describing) (v : Region) :
    SamePlaces d.mgr (describeIov a d v).2.mgr := by
  simp only [describeIov]
  split
  · exact (SameSlabs.refl _).places
  · split
    · next _ m j ht =>
      have hs := tryslab_same d.mgr v
      rw [ht] at hs
      exact hs.places
    · have hs := findBank_slabs a d.mgr v
      split
      · next _ m i he =>
        rw [he] at hs
        exact hs.places.trans (reference_same m i).places
      · next _ m he =>
        rw [he] at hs
        exact hs.places

theorem describeFrom_places (a : Nat → Answers) (k : Nat) (vs : List Region) (d : Describing) :
    SamePlaces d.mgr (describeFrom a k vs d).2.mgr := by
  induction vs generalizing k d with
  | nil => exact (SameSlabs.refl _).places
  | cons v vs ih =>
    simp only [describeFrom]
    split
    · exact describeIov_places ..
    · exact (describeIov_places ..).trans (ih ..)

theorem describe_places (a : Nat → Answers) (m : Manager) (iov : List Region) :
    SamePlaces m (describe a m iov).mgr := by
  simp only [describe]
  split
  · exact (SameSlabs.refl _).places
  · have hf := describeFrom_places a 0 iov (.start m)
    split
    · exact hf.trans (release_same _ _).places
    · exact hf

end Placement

end OfiTransport.Mr
