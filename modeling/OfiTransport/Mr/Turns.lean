import OfiTransport.Mr.Registrations
import Mathlib.Logic.Relation

/-! Every operation on the manager comes down to a few small turns.  What each of them keeps
holds in all reachable states, whatever the provider answers. -/

namespace OfiTransport.Mr

open Lib

inductive Turn : Manager → Manager → Prop
  | note (i : Nat) (f : Bank → Bank) : (f (m.banks i)).registered = (m.banks i).registered →
      (f (m.banks i)).mr = (m.banks i).mr → (f (m.banks i)).age = (m.banks i).age →
      Turn m (m.modifyBank i f)
  | flag (j : Nat) (u : Bool) : Turn m (m.setSlab j u)
  | copy (dst : Nat) (src : Region) : Turn m { m with domain := m.domain.copy dst src }
  | close (i : Nat) : (m.banks i).registered = true → Turn m (unregister 0 m i).2
  | adopt (i : Nat) : (m.banks i).registered = false → Turn m (registerFresh 0 m i).2

def Turns : Manager → Manager → Prop := Relation.ReflTransGen Turn

section Operations

variable {m m' m'' : Manager}

theorem Turns.refl (m : Manager) : Turns m m := Relation.ReflTransGen.refl

theorem Turns.trans (h : Turns m m') (h' : Turns m' m'') : Turns m m'' :=
  Relation.ReflTransGen.trans h h'

theorem Turn.turns (h : Turn m m') : Turns m m' := Relation.ReflTransGen.single h

theorem Turns.keeps {I : Manager → Prop} (hI : ∀ m m', I m → Turn m m' → I m') (h : Turns m m')
    (hm : I m) : I m' := by
  induction h with
  | refl => exact hm
  | tail _ ht ih => exact hI _ _ ih ht

theorem unregister_idle {close : Int} {i : Nat} (hi : (m.banks i).registered = false) :
    unregister close m i = (0, m) := by
  simp [unregister, hi]

theorem unregister_fail {close : Int} {i : Nat} (hi : (m.banks i).registered = true)
    (hc : close ≠ 0) : unregister close m i = (close, m) := by
  simp [unregister, hi, hc]

theorem unregister_turns (close : Int) (m : Manager) (i : Nat) :
    Turns m (unregister close m i).2 := by
  cases hi : (m.banks i).registered with
  | false =>
    rw [unregister_idle hi]
    exact .refl m
  | true =>
    by_cases hc : close = 0
    · rw [hc]
      exact (Turn.close i hi).turns
    · rw [unregister_fail hi hc]
      exact .refl m

theorem registerFresh_turns (reg : Int) {i : Nat} (hi : (m.banks i).registered = false) :
    Turns m (registerFresh reg m i).2 := by
  by_cases hr : reg = 0
  · rw [hr]
    exact (Turn.adopt i hi).turns
  · rw [registerFresh_fail hr]
    exact .refl m

theorem unregister_ok {close : Int} {i : Nat} (h : (unregister close m i).1 = 0) :
    ((unregister close m i).2.banks i).registered = false := by
  simp only [unregister] at h ⊢
  split
  · next hi => exact hi
  · next hi =>
    rw [if_neg hi] at h
    split at h
    · next hc => exact absurd h hc
    · next hc => simp [hc]

theorem register_turns (a : Answers) (m : Manager) (i : Nat) : Turns m (register a m i).2 := by
  have hu := unregister_turns a.close m i
  simp only [register]
  split
  · split
    · exact hu
    · next hr => exact hu.trans (registerFresh_turns a.reg (unregister_ok (by simpa using hr)))
  · next hi => exact registerFresh_turns a.reg (by simpa using hi)

theorem mark_turns (a : Answers) (m : Manager) (v : Region) : Turns m (mark a m v).2 := by
  simp only [mark]
  cases hf : getFreeBank m with
  | none => exact .refl m
  | some i =>
    have hr := (getFreeBank_some hf).2.2
    exact (Turn.note i _ hr.symm rfl rfl).turns.trans (register_turns a _ i)

theorem invalidateFrom_turns (close : Nat → Int) (v : Region) (is : List Nat) (m : Manager) :
    Turns m (invalidateFrom close v is m).2 := by
  induction is generalizing m with
  | nil => exact .refl m
  | cons i is ih =>
    simp only [invalidateFrom]
    split
    · split
      · exact .refl m
      · have hi := unregister_turns (close i) m i
        exact (hi.trans (Turn.note i _ rfl rfl rfl).turns).trans (ih _)
    · exact ih m

theorem findBank_turns (a : Answers) (m : Manager) (v : Region) :
    Turns m (findBank a m v).2.1 := by
  simp only [findBank]
  cases lookup m v with
  | hit i => exact .refl m
  | again => exact .refl m
  | evict i =>
    have hr := (Turn.note (m := m) i (fun b => { b with base := v.base, len := v.len })
      rfl rfl rfl).turns.trans (register_turns a _ i)
    simp only
    split <;> exact hr

theorem tryslab_turns (m : Manager) (v : Region) : Turns m (tryslab m v).2.1 := by
  simp only [tryslab]
  split
  · exact .refl m
  · split
    · exact .refl m
    · exact (Turn.flag _ true).turns.trans (Turn.copy _ v).turns

theorem describeIov_turns (a : Answers) (d : Describing) (v : Region) :
    Turns d.mgr (describeIov a d v).2.mgr := by
  simp only [describeIov]
  split
  · exact .refl _
  · split
    · next _ m j ht =>
      have hs := tryslab_turns d.mgr v
      rw [ht] at hs
      exact hs
    · have hs := findBank_turns a d.mgr v
      split
      · next _ m i he =>
        rw [he] at hs
        have hr : Turn m (m.modifyBank i (fun b => { b with ref := b.ref + 1 })) :=
          .note i _ rfl rfl rfl
        exact hs.trans hr.turns
      · next _ m he =>
        rw [he] at hs
        exact hs

theorem describeFrom_turns (a : Nat → Answers) (k : Nat) (vs : List Region) (d : Describing) :
    Turns d.mgr (describeFrom a k vs d).2.mgr := by
  induction vs generalizing k d with
  | nil => exact .refl _
  | cons v vs ih =>
    simp only [describeFrom]
    split
    · exact describeIov_turns ..
    · exact (describeIov_turns ..).trans (ih ..)

theorem release_turns (m : Manager) (c : Context) : Turns m (release m c) := by
  have hb : ∀ (is : List Nat) (m : Manager), Turns m (releaseBanks m is) := by
    intro is
    induction is with
    | nil => exact .refl
    | cons i is ih => exact fun m => (Turn.note i _ rfl rfl rfl).turns.trans (ih _)
  have hs : ∀ (js : List Nat) (m : Manager), Turns m (releaseSlabs m js) := by
    intro js
    induction js with
    | nil => exact .refl
    | cons j js ih => exact fun m => (Turn.flag j false).turns.trans (ih _)
  exact (hb ..).trans (hs ..)

theorem describe_turns (a : Nat → Answers) (m : Manager) (iov : List Region) :
    Turns m (describe a m iov).mgr := by
  simp only [describe]
  split
  · exact .refl m
  · have hf := describeFrom_turns a 0 iov (.start m)
    split
    · exact hf.trans (release_turns _ _)
    · exact hf

theorem step_turns {s s' : System} {e : Event} (hs : step s e = .ok s') :
    Turns s.mgr s'.mgr := by
  cases e with
  | mark v a =>
    cases hs
    exact mark_turns ..
  | invalidate v close =>
    cases hs
    exact invalidateFrom_turns ..
  | describe iov a =>
    cases hs
    exact describe_turns ..
  | release c =>
    cases hs
    exact release_turns ..

theorem reachable_keeps {I : Manager → Prop} {s : System}
    (hinit : ∀ attr domain slabMem reg, I (init attr domain slabMem reg).2)
    (hI : ∀ m m', I m → Turn m m' → I m') (r : machine.Reachable s) : I s.mgr := by
  refine r.invariant (I := fun s => I s.mgr) ?_ (fun s e s' h _ hs => (step_turns hs).keeps hI h)
  rintro s ⟨attr, domain, slabMem, reg, rfl⟩
  exact hinit attr domain slabMem reg

end Operations

structure Tracked (m : Manager) : Prop where
  known : ∀ i id, (m.banks i).mr = some id → id < m.domain.nextMr
  live : ∀ i, (m.banks i).registered = true →
    ∃ id g, (m.banks i).mr = some id ∧ m.domain.regs id = some g
  stale : ∀ i id, (m.banks i).registered = false → (m.banks i).mr = some id →
    m.domain.regs id = none
  distinct : ∀ i k, i ≠ k → (m.banks i).registered = true → (m.banks k).registered = true →
    (m.banks i).mr ≠ (m.banks k).mr
  slab : ∀ id, m.slabMr = some id → id < m.domain.nextMr ∧ ∀ i, (m.banks i).mr ≠ some id

section Tracking

variable {m m' m'' : Manager} {s : System}

theorem Tracked.congr (h : Tracked m) (hn : m'.domain.nextMr = m.domain.nextMr)
    (hg : m'.domain.regs = m.domain.regs) (hs : m'.slabMr = m.slabMr)
    (hr : ∀ i, (m'.banks i).registered = (m.banks i).registered)
    (hm : ∀ i, (m'.banks i).mr = (m.banks i).mr) : Tracked m' := by
  refine ⟨?_, ?_, ?_, ?_, ?_⟩
  · intro i id
    rw [hm, hn]
    exact h.known i id
  · intro i
    rw [hr, hm, hg]
    exact h.live i
  · intro i id
    rw [hr, hm, hg]
    exact h.stale i id
  · intro i k
    rw [hr, hr, hm, hm]
    exact h.distinct i k
  · intro id
    rw [hs, hn]
    simp only [hm]
    exact h.slab id

theorem Tracked.close (h : Tracked m) {i : Nat} (hi : (m.banks i).registered = true) :
    Tracked (unregister 0 m i).2 := by
  obtain ⟨id, g, hid, _⟩ := h.live i hi
  rw [unregister_zero hi hid]
  refine ⟨?_, ?_, ?_, ?_, ?_⟩
  · intro k id' hk
    by_cases hki : k = i
    · subst hki
      exact h.known k id' (by simpa using hk)
    · exact h.known k id' (by simpa [hki] using hk)
  · intro k hk
    have hki : k ≠ i := by
      rintro rfl
      simp at hk
    have hkr : (m.banks k).registered = true := by simpa [hki] using hk
    obtain ⟨id', g', hid', hg'⟩ := h.live k hkr
    have hne : id' ≠ id := by
      rintro rfl
      exact h.distinct k i hki hkr hi (hid'.trans hid.symm)
    exact ⟨id', g', by simpa [hki] using hid', by simpa [hne] using hg'⟩
  · intro k id' hk hid'
    by_cases hki : k = i
    · subst hki
      have he : id' = id := by simpa [hid] using hid'.symm
      simp [he]
    · have hn := h.stale k id' (by simpa [hki] using hk) (by simpa [hki] using hid')
      simp [hn]
  · intro k l hkl hk hl
    have hki : k ≠ i := by
      rintro rfl
      simp at hk
    have hli : l ≠ i := by
      rintro rfl
      simp at hl
    simpa [hki, hli] using h.distinct k l hkl (by simpa [hki] using hk) (by simpa [hli] using hl)
  · intro id' hs
    obtain ⟨hlt, hne⟩ := h.slab id' hs
    refine ⟨hlt, fun k => ?_⟩
    by_cases hki : k = i
    · subst hki
      simpa using hne k
    · simpa [hki] using hne k

theorem Tracked.adopt (h : Tracked m) (i : Nat) : Tracked (registerFresh 0 m i).2 := by
  have hne : ∀ k, (m.banks k).mr ≠ some m.domain.nextMr := by
    intro k hk
    exact Nat.lt_irrefl _ (h.known k _ hk)
  rw [registerFresh_zero]
  refine ⟨?_, ?_, ?_, ?_, ?_⟩
  · intro k id hk
    by_cases hki : k = i
    · have he : m.domain.nextMr = id := by simpa [hki] using hk
      rw [← he]
      exact Nat.lt_succ_self _
    · exact Nat.lt_succ_of_lt (h.known k id (by simpa [hki] using hk))
  · intro k hk
    by_cases hki : k = i
    · exact ⟨m.domain.nextMr, _, by simp [hki], by simp; rfl⟩
    · obtain ⟨id, g, hid, hg⟩ := h.live k (by simpa [hki] using hk)
      have hid' : id ≠ m.domain.nextMr := by
        rintro rfl
        exact hne k hid
      exact ⟨id, g, by simpa [hki] using hid, by simpa [hid'] using hg⟩
  · intro k id hk hid
    have hki : k ≠ i := by
      rintro rfl
      simp at hk
    have hid : (m.banks k).mr = some id := by simpa [hki] using hid
    have hid' : id ≠ m.domain.nextMr := by
      rintro rfl
      exact hne k hid
    simpa [hid'] using h.stale k id (by simpa [hki] using hk) hid
  · intro k l hkl hk hl
    by_cases hki : k = i
    · have hli : l ≠ i := fun e => hkl (hki.trans e.symm)
      simpa [hki, hli] using (hne l).symm
    · by_cases hli : l = i
      · simpa [hki, hli] using hne k
      · simpa [hki, hli] using
          h.distinct k l hkl (by simpa [hki] using hk) (by simpa [hli] using hl)
  · intro id hs
    obtain ⟨hlt, hs⟩ := h.slab id hs
    refine ⟨Nat.lt_succ_of_lt hlt, fun k => ?_⟩
    by_cases hki : k = i
    · have hid : m.domain.nextMr ≠ id := by omega
      simpa [hki] using hid
    · simpa [hki] using hs k

theorem Turn.tracked (h : Tracked m) (ht : Turn m m') : Tracked m' := by
  cases ht with
  | note i f hr hm ha =>
    refine h.congr rfl rfl rfl (fun k => ?_) (fun k => ?_)
    · by_cases hki : k = i <;> simp [hki, hr]
    · by_cases hki : k = i <;> simp [hki, hm]
  | flag j u => exact h.congr rfl rfl rfl (fun _ => rfl) (fun _ => rfl)
  | copy dst src => exact h.congr rfl rfl rfl (fun _ => rfl) (fun _ => rfl)
  | close i hi => exact h.close hi
  | adopt i hi => exact h.adopt i

theorem init_tracked (attr : Attr) (domain : Domain) (slabMem : Nat) (reg : Int) :
    Tracked (init attr domain slabMem reg).2 := by
  simp only [init]
  split
  · exact ⟨by simp, by simp, by simp, by simp, by simp⟩
  · split
    · exact ⟨by simp, by simp, by simp, by simp, by simp⟩
    · refine ⟨by simp, by simp, by simp, by simp, ?_⟩
      intro id hid
      cases hid
      exact ⟨Nat.lt_succ_self _, by simp⟩

theorem reachable_tracked (r : machine.Reachable s) : Tracked s.mgr :=
  reachable_keeps init_tracked (fun _ _ h ht => ht.tracked h) r

structure Inherits (m m' : Manager) : Prop where
  next : m.domain.nextMr ≤ m'.domain.nextMr
  regs : ∀ id g, id < m.domain.nextMr → m'.domain.regs id = some g → m.domain.regs id = some g
  mr : ∀ i id, id < m.domain.nextMr → (m'.banks i).mr = some id → (m.banks i).mr = some id

theorem Inherits.trans (h : Inherits m m') (h' : Inherits m' m'') : Inherits m m'' where
  next := Nat.le_trans h.next h'.next
  regs id g hid hg := h.regs id g hid (h'.regs id g (Nat.lt_of_lt_of_le hid h.next) hg)
  mr i id hid hm := h.mr i id hid (h'.mr i id (Nat.lt_of_lt_of_le hid h.next) hm)

theorem Turn.inherits (h : Turn m m') : Inherits m m' := by
  cases h with
  | note i f hr hm ha =>
    refine ⟨Nat.le_refl _, fun _ _ _ hg => hg, fun k id _ hk => ?_⟩
    by_cases hki : k = i
    · subst hki
      simpa [hm] using hk
    · simpa [hki] using hk
  | flag j u => exact ⟨Nat.le_refl _, fun _ _ _ hg => hg, fun _ _ _ hk => hk⟩
  | copy dst src => exact ⟨Nat.le_refl _, fun _ _ _ hg => hg, fun _ _ _ hk => hk⟩
  | close i hi =>
    have hg := (unregister_grows 0 m i).regs
    obtain ⟨hn, hb⟩ := unregister_elsewhere 0 m i
    refine ⟨Nat.le_of_eq hn.symm, fun id g hid hg' => ?_, fun k id _ hk => ?_⟩
    · exact (hg id g hg').resolve_right (fun h => Nat.not_le_of_lt hid h.1)
    · by_cases hki : k = i
      · subst hki
        simpa [unregister, hi] using hk
      · rwa [hb k hki] at hk
  | adopt i hi =>
    rw [registerFresh_zero]
    refine ⟨Nat.le_succ _, fun id g hid hg => ?_, fun k id hid hk => ?_⟩
    · simpa [Nat.ne_of_lt hid] using hg
    · by_cases hki : k = i
      · have he : m.domain.nextMr = id := by simpa [hki] using hk
        omega
      · simpa [hki] using hk

theorem Turns.inherits (h : Turns m m') : Inherits m m' :=
  h.keeps (fun _ _ hi ht => hi.trans ht.inherits)
    ⟨Nat.le_refl _, fun _ _ _ hg => hg, fun _ _ _ hk => hk⟩

end Tracking

end OfiTransport.Mr
