import OfiTransport.Mr.Turns

/-! What a mark or a describe leaves behind when it fails.  The range and the flags of a bank
are written before the provider is asked, and nothing takes them back. -/

namespace OfiTransport.Mr

open Lib

structure Agrees (m : Manager) : Prop where
  registered : ∀ i, (m.banks i).registered = true →
    ∃ id g, (m.banks i).mr = some id ∧ m.domain.regs id = some g ∧ g.region = (m.banks i).region
  unregistered : ∀ i, (m.banks i).registered = false →
    (m.banks i).len = 0 ∧ (m.banks i).nonvolatile = false ∧
      ∀ id, (m.banks i).mr = some id → m.domain.regs id = none

def Evictable (m : Manager) (i : Nat) : Prop :=
  (m.banks i).ref = 0 ∧ (m.banks i).nonvolatile = false

def Markable (m : Manager) (i : Nat) : Prop := Evictable m i ∧ (m.banks i).registered = false

/-- A call that failed has left the cache consistent. -/
def FailsClean (s : System) : Event → Prop
  | .mark v a =>
    let r := mark a s.mgr v
    r.1 ≠ 0 → Agrees r.2 ∧ SameRefs s.mgr r.2 ∧ ∀ i, getFreeBank s.mgr = some i → Markable r.2 i
  | .describe iov a =>
    let r := describe a s.mgr iov
    r.ret ≠ 0 → Agrees r.mgr ∧ SameRefs s.mgr r.mgr ∧ ∀ i, Evictable s.mgr i → Evictable r.mgr i
  | _ => True

section Condition

/-- The call that an eviction depends on succeeds: closing what the bank has, if it has
something, and registering it otherwise. -/
def EvictsClean (a : Answers) (m : Manager) (v : Region) : Prop :=
  match lookup m v with
  | .evict i => if (m.banks i).registered then a.close = 0 else a.reg = 0
  | _ => True

def CleanIov (a : Answers) (m : Manager) (v : Region) : Prop :=
  v.len ≠ 0 → (tryslab m v).2.2 = none → EvictsClean a m v

def CleanFrom (a : Nat → Answers) : Nat → List Region → Describing → Prop
  | _, [], _ => True
  | k, v :: vs, d =>
    CleanIov (a k) d.mgr v ∧
      ((describeIov (a k) d v).1 = 0 → CleanFrom a (k + 1) vs (describeIov (a k) d v).2)

/-- No mark fails to register the bank it picked, and no describe fails in a call that an
eviction depends on. -/
def Clean (s : System) : Event → Prop
  | .mark _ a => (getFreeBank s.mgr).isSome → a.reg = 0
  | .describe iov a => iov.length ≤ 16 → CleanFrom a 0 iov (.start s.mgr)
  | _ => True

end Condition

structure Fits (m : Manager) (i : Nat) : Prop where
  registered : (m.banks i).registered = true →
    ∀ id g, (m.banks i).mr = some id → m.domain.regs id = some g → g.region = (m.banks i).region
  unregistered : (m.banks i).registered = false →
    (m.banks i).len = 0 ∧ (m.banks i).nonvolatile = false

section Banks

variable {m m' : Manager} {a : Answers} {v : Region} {i : Nat}

theorem Tracked.separate (h : Tracked m) : Separate m where
  known i hi := by
    obtain ⟨id, g, hid, hg⟩ := h.live i hi
    exact ⟨id, hid, h.known i id hid⟩
  distinct := h.distinct

theorem Tracked.agrees_iff (h : Tracked m) : Agrees m ↔ ∀ i, Fits m i := by
  constructor
  · intro ha i
    refine ⟨fun hi id g hid hg => ?_, fun hi => ?_⟩
    · obtain ⟨id', g', hid', hg', hr⟩ := ha.registered i hi
      rw [hid, Option.some.injEq] at hid'
      rw [← hid', hg, Option.some.injEq] at hg'
      rw [hg', hr]
    · obtain ⟨hl, hn, _⟩ := ha.unregistered i hi
      exact ⟨hl, hn⟩
  · intro hf
    refine ⟨fun i hi => ?_, fun i hi => ?_⟩
    · obtain ⟨id, g, hid, hg⟩ := h.live i hi
      exact ⟨id, g, hid, hg, (hf i).registered hi id g hid hg⟩
    · obtain ⟨hl, hn⟩ := (hf i).unregistered hi
      exact ⟨hl, hn, fun id => h.stale i id hi⟩

theorem Touches.fits (ht : Touches i m m') (h : ∀ k, Fits m k) :
    (∀ k, Fits m' k) ↔ Fits m' i := by
  constructor
  · intro hf
    exact hf i
  · intro hi k
    by_cases hki : k = i
    · rw [hki]
      exact hi
    · have hb := ht.elsewhere.banks k hki
      refine ⟨fun hk id g hid hg => ?_, fun hk => ?_⟩
      · rw [hb] at hk hid ⊢
        rw [ht.regs k id hki hk hid] at hg
        exact (h k).registered hk id g hid hg
      · rw [hb] at hk ⊢
        exact (h k).unregistered hk

theorem SameBanks.fits (h : SameBanks m m') (hf : SameFlags m m') :
    (∀ k, Fits m' k) ↔ ∀ k, Fits m k := by
  have hk : ∀ k, Fits m' k ↔ Fits m k := by
    intro k
    have hl : (m'.banks k).len = (m.banks k).len := congrArg Region.len (h.region k)
    constructor
    · intro hk
      refine ⟨fun hr id g hid hg => ?_, fun hr => ?_⟩
      · rw [← h.region]
        exact hk.registered ((h.registered k).trans hr) id g ((h.mr k).trans hid) (by rwa [h.regs])
      · rw [← hl, ← hf k]
        exact hk.unregistered ((h.registered k).trans hr)
    · intro hk
      refine ⟨fun hr id g hid hg => ?_, fun hr => ?_⟩
      · rw [h.region]
        rw [h.registered] at hr
        rw [h.mr] at hid
        rw [h.regs] at hg
        exact hk.registered hr id g hid hg
      · rw [hl, hf k]
        exact hk.unregistered ((h.registered k).symm.trans hr)
  simp only [hk]

theorem adopt_fits (m : Manager) (i : Nat) : Fits (registerFresh 0 m i).2 i := by
  rw [registerFresh_zero]
  refine ⟨fun _ id g hid hg => ?_, fun hi => by simp at hi⟩
  have he : m.domain.nextMr = id := by simpa using hid
  have hg : (⟨(m.banks i).region, toUInt64 (m.attr.baseKey + i + 1)⟩ : Registration) = g := by
    simpa [← he] using hg
  rw [← hg]
  simp [Bank.region]

theorem register_fits (h : Tracked m) (hn : (m.banks i).nonvolatile = false)
    (hne : (m.banks i).registered = true → ¬ Fits m i)
    (hlen : (m.banks i).registered = false → (m.banks i).len ≠ 0) :
    Fits (register a m i).2 i ↔
      if (m.banks i).registered then a.close = 0 else a.reg = 0 := by
  by_cases hi : (m.banks i).registered = true
  · obtain ⟨id, g, hid, _⟩ := h.live i hi
    simp only [register, hi, if_true]
    by_cases hc : a.close = 0
    · simp only [hc, unregister_zero hi hid, ne_eq, not_true, if_false, iff_true]
      by_cases hr : a.reg = 0
      · rw [hr]
        exact adopt_fits _ i
      · rw [registerFresh_fail hr]
        exact ⟨by simp, by simp [hn]⟩
    · simpa [unregister, hi, hc] using hne hi
  · have hi' : (m.banks i).registered = false := by simpa using hi
    simp only [register, hi', Bool.false_eq_true, if_false]
    by_cases hr : a.reg = 0
    · simp only [hr, iff_true]
      exact adopt_fits m i
    · simp only [registerFresh_fail hr, hr, iff_false]
      intro hf
      exact hlen hi' (hf.unregistered hi').1

end Banks

section Operations

variable {m : Manager} {a : Answers} {v : Region}

theorem scan_evict_covers {is : List Nat} {o : Option Nat} {i : Nat}
    (h : scan m v is o = .evict i) : ∀ k ∈ is, ¬ (m.banks k).region.Covers v := by
  induction is generalizing o with
  | nil => simp
  | cons l is ih =>
    simp only [scan] at h
    split at h
    · cases h
    · next hl =>
      intro k hk
      rcases List.mem_cons.1 hk with rfl | hk
      · exact hl
      · exact ih h k hk

theorem lookup_evict_spec {i : Nat} (h : lookup m v = .evict i) :
    i < m.attr.bankCount ∧ Evictable m i ∧
      ∀ k < m.attr.bankCount, ¬ (m.banks k).region.Covers v :=
  ⟨lookup_evict h, ((scan_evict h).resolve_right (by simp)).2,
    fun k hk => scan_evict_covers h k (List.mem_range.2 hk)⟩

theorem modifyBank_tracked (h : Tracked m) (i : Nat) {f : Bank → Bank}
    (hr : (f (m.banks i)).registered = (m.banks i).registered)
    (hm : (f (m.banks i)).mr = (m.banks i).mr) (ha : (f (m.banks i)).age = (m.banks i).age) :
    Tracked (m.modifyBank i f) := (Turn.note i f hr hm ha).tracked h

theorem Turns.tracked {m' : Manager} (h : Turns m m') (hm : Tracked m) : Tracked m' :=
  h.keeps (fun _ _ hm ht => ht.tracked hm) hm

theorem findBank_fits (h : Tracked m) (hf : ∀ k, Fits m k) (hv : v.len ≠ 0) :
    (∀ k, Fits (findBank a m v).2.1 k) ↔ EvictsClean a m v := by
  simp only [findBank, EvictsClean]
  cases hl : lookup m v with
  | hit i => simpa using hf
  | again => simpa using hf
  | evict i =>
    obtain ⟨hi, ⟨_, hn⟩, hc⟩ := lookup_evict_spec hl
    have hm := modifyBank_touches h.separate i
      (f := fun b => { b with base := v.base, len := v.len }) (fun b hb => ⟨hb, rfl⟩)
    have ht := hm.trans (register_touches hm.separate a i)
    have hmt : Tracked (m.modifyBank i (fun b => { b with base := v.base, len := v.len })) :=
      modifyBank_tracked h i rfl rfl rfl
    have hr := register_fits (a := a) (i := i) hmt (by simpa using hn)
      (by
        -- the range would be the one that did not contain the region
        intro hreg hfit
        have hreg : (m.banks i).registered = true := by simpa using hreg
        obtain ⟨id, g, hid, hg⟩ := h.live i hreg
        have hnew := hfit.registered (by simpa using hreg) id g (by simpa using hid) hg
        have hold := (hf i).registered hreg id g hid hg
        apply hc i hi
        rw [← hold, hnew]
        simpa [Bank.region] using Region.covers_self v)
      (by simpa using fun _ => hv)
    simp only [Manager.modifyBank_banks, if_true] at hr
    simp only
    rw [← hr]
    split <;> exact ht.fits hf

theorem register_answers {i : Nat} (h : (register a m i).1 = 0) :
    if (m.banks i).registered then a.close = 0 else a.reg = 0 := by
  have hfresh : ∀ m : Manager, (registerFresh a.reg m i).1 = 0 → a.reg = 0 := by
    intro m h
    by_contra hr
    rw [registerFresh_fail hr] at h
    exact hr h
  by_cases hi : (m.banks i).registered = true
  · rw [if_pos hi]
    by_contra hc
    simp [register, unregister, hi, hc] at h
  · rw [if_neg hi]
    simp only [register, hi, if_false, Bool.false_eq_true] at h
    exact hfresh m h

theorem findBank_clean {i : Nat} (h : (findBank a m v).2.2 = some i) : EvictsClean a m v := by
  simp only [findBank, EvictsClean] at h ⊢
  cases hl : lookup m v with
  | hit k => trivial
  | again => trivial
  | evict k =>
    simp only [hl] at h ⊢
    split at h
    · cases h
    · next hr =>
      have ha := register_answers (by simpa using hr)
      simpa using ha

theorem tryslab_fits : (∀ k, Fits (tryslab m v).2.1 k) ↔ ∀ k, Fits m k :=
  (tryslab_same m v).fits (tryslab_flags m v)

theorem describeIov_fits {d : Describing} (h : Tracked d.mgr) (hf : ∀ k, Fits d.mgr k) :
    ((∀ k, Fits (describeIov a d v).2.mgr k) ↔ CleanIov a d.mgr v) ∧
      ((describeIov a d v).1 = 0 → CleanIov a d.mgr v) := by
  simp only [describeIov, CleanIov]
  split
  · next hv => simpa [hv] using hf
  · next hv =>
    simp only [hv, ne_eq, not_false_eq_true, true_implies]
    split
    · next _ m j ht =>
      have hs := tryslab_fits (m := d.mgr) (v := v)
      rw [ht] at hs ⊢
      simpa using hs.2 hf
    · next _ _ ht =>
      have hb := findBank_fits (a := a) h hf hv
      rw [ht]
      simp only [true_implies]
      split
      · next _ m i he =>
        refine ⟨?_, fun _ => findBank_clean (i := i) (by rw [he])⟩
        rw [he] at hb
        rw [← hb]
        exact (reference_same m i).fits (.update (i := i) rfl rfl)
      · next ret m he =>
        have hn := findBank_none (a := a) (m := d.mgr) (v := v) (by rw [he])
        rw [he] at hb hn
        exact ⟨hb, fun hr => absurd hr hn⟩

theorem describeFrom_fits {a : Nat → Answers} {k : Nat} {d : Describing} (h : Tracked d.mgr)
    (hf : ∀ i, Fits d.mgr i) (vs : List Region) :
    ((∀ i, Fits (describeFrom a k vs d).2.mgr i) ↔ CleanFrom a k vs d) ∧
      ((describeFrom a k vs d).1 = 0 → CleanFrom a k vs d) := by
  induction vs generalizing k d with
  | nil => simpa [describeFrom, CleanFrom] using hf
  | cons v vs ih =>
    obtain ⟨hiff, hok⟩ := describeIov_fits (a := a k) (v := v) h hf
    simp only [describeFrom, CleanFrom]
    split
    · next hr =>
      rw [hiff]
      simp [hr]
    · next hr =>
      have hr : (describeIov (a k) d v).1 = 0 := by simpa using hr
      have hclean := hok hr
      have hrec := ih (k := k + 1) ((describeIov_turns (a k) d v).tracked h) (hiff.2 hclean)
      simpa [hr, hclean] using hrec

theorem release_fits (m : Manager) (c : Context) :
    (∀ i, Fits (release m c) i) ↔ ∀ i, Fits m i :=
  (release_same m c).fits (release_flags m c)

theorem describe_fits {a : Nat → Answers} (h : Tracked m) (hf : ∀ i, Fits m i)
    (iov : List Region) :
    ((∀ i, Fits (describe a m iov).mgr i) ↔ (iov.length ≤ 16 → CleanFrom a 0 iov (.start m))) ∧
      ((describe a m iov).ret = 0 → iov.length ≤ 16 → CleanFrom a 0 iov (.start m)) := by
  simp only [describe]
  split
  · next hl =>
    have hl : ¬ iov.length ≤ 16 := by omega
    simpa [hl] using hf
  · next hl =>
    have hl : iov.length ≤ 16 := by omega
    obtain ⟨hiff, hok⟩ := describeFrom_fits (a := a) (k := 0) (d := .start m) h hf iov
    simp only [hl, true_implies]
    split
    · next hr =>
      rw [release_fits]
      exact ⟨hiff, fun hr' => absurd hr' hr⟩
    · next hr => exact ⟨hiff, fun _ => hok (by simpa using hr)⟩

theorem mark_fits (h : Tracked m) (hf : ∀ i, Fits m i) :
    (∀ i, Fits (mark a m v).2 i) ↔ ((getFreeBank m).isSome → a.reg = 0) := by
  simp only [mark]
  cases hg : getFreeBank m with
  | none => simpa using hf
  | some i =>
    have hr := (getFreeBank_some hg).2.2
    have hm := modifyBank_touches h.separate i (f := fun b => { b with
      base := v.base, len := v.len, nonvolatile := true, registered := false }) (by simp)
    have ht := hm.trans (register_touches hm.separate a i)
    rw [ht.fits hf]
    simp only [register, Manager.modifyBank_banks, if_true, Bool.false_eq_true, if_false,
      Option.isSome_some, true_implies]
    by_cases hz : a.reg = 0
    · simp only [hz, iff_true]
      exact adopt_fits _ i
    · simp only [registerFresh_fail hz, hz, iff_false]
      -- the flag NONVOLATILE stays on a bank that is not registered
      intro hfit
      have hn := (hfit.unregistered (by simp)).2
      simp at hn

theorem unregister_fits (h : Tracked m) {i : Nat} (hf : Fits m i) (close : Int) :
    Fits ((unregister close m i).2.modifyBank i (fun b => { b with nonvolatile := false })) i := by
  cases hi : (m.banks i).registered with
  | false =>
    rw [unregister_idle hi]
    exact ⟨by simp [hi], by simpa using fun _ => (hf.unregistered hi).1⟩
  | true =>
    by_cases hc : close = 0
    · obtain ⟨id, g, hid, _⟩ := h.live i hi
      rw [hc, unregister_zero hi hid]
      exact ⟨by simp, by simp⟩
    · rw [unregister_fail hi hc]
      exact ⟨by simpa [Bank.region] using hf.registered, by simp [hi]⟩

theorem invalidateFrom_fits (h : Tracked m) (hf : ∀ i, Fits m i) (close : Nat → Int)
    (is : List Nat) : ∀ i, Fits (invalidateFrom close v is m).2 i := by
  induction is generalizing m with
  | nil => exact hf
  | cons i is ih =>
    simp only [invalidateFrom]
    split
    · split
      · exact hf
      · have hu := unregister_touches h.separate (close i) i
        have hm := modifyBank_touches hu.separate i (f := fun b => { b with nonvolatile := false })
          (fun b hb => ⟨hb, rfl⟩)
        have htr : Turns m ((unregister (close i) m i).2.modifyBank i
            (fun b => { b with nonvolatile := false })) :=
          (unregister_turns (close i) m i).trans (Turn.note i _ rfl rfl rfl).turns
        apply ih (htr.tracked h)
        rw [(hu.trans hm).fits hf]
        exact unregister_fits h (hf i) (close i)
    · exact ih h hf

end Operations

section Runs

variable {s s' : System} {e : Event}

theorem Carries.sameRefs {m m' : Manager} {l : List Context} (h : Carries m l)
    (h' : Carries m' l) : SameRefs m m' := by
  refine ⟨fun i => (h'.ref i).trans (h.ref i).symm, fun j => ?_⟩
  have hj := (h.inuse j).symm.trans (h'.inuse j)
  cases hu : (m.slabs j).inuse <;> cases hu' : (m'.slabs j).inuse <;> simp_all

theorem describe_failed {a : Nat → Answers} {m : Manager} {iov : List Region}
    (h : (describe a m iov).ret ≠ 0) : (describe a m iov).handle = none := by
  simp only [describe] at h ⊢
  split
  · rfl
  · next hl =>
    rw [if_neg hl] at h
    split
    · rfl
    · next hr =>
      rw [if_neg hr] at h
      exact absurd rfl h

theorem step_fits (r : machine.Reachable s) (hf : ∀ i, Fits s.mgr i) (hc : Clean s e)
    (hs : step s e = .ok s') : ∀ i, Fits s'.mgr i := by
  have ht := reachable_tracked r
  cases e with
  | mark v a =>
    cases hs
    exact (mark_fits ht hf).2 hc
  | invalidate v close =>
    cases hs
    exact invalidateFrom_fits ht hf close _
  | describe iov a =>
    cases hs
    exact (describe_fits ht hf iov).1.2 hc
  | release c =>
    cases hs
    exact (release_fits _ c).2 hf

theorem mark_failsClean (r : machine.Reachable s) (hf : ∀ i, Fits s.mgr i) (v : Region)
    (a : Answers) : FailsClean s (.mark v a) ↔ Clean s (.mark v a) := by
  have ht := reachable_tracked r
  have ht' := (mark_turns a s.mgr v).tracked ht
  have hiff := mark_fits (a := a) (v := v) ht hf
  constructor
  · intro h hsome
    obtain ⟨i, hi⟩ := Option.isSome_iff_exists.1 hsome
    by_contra hr
    have hret : (mark a s.mgr v).1 ≠ 0 := by
      simpa [mark, hi, register, registerFresh_fail hr] using hr
    exact hr (hiff.1 (ht'.agrees_iff.1 (h hret).1) hsome)
  · intro hc hret
    have hnone : getFreeBank s.mgr = none := by
      by_contra hne
      obtain ⟨i, hi⟩ := Option.ne_none_iff_exists'.1 hne
      have hr : a.reg = 0 := hc (by simp [hi])
      exact hret (by simp [mark, hi, register, hr, registerFresh_zero])
    have hsame : (mark a s.mgr v).2 = s.mgr := by simp [mark, hnone]
    refine ⟨ht'.agrees_iff.2 (hiff.2 hc), ?_, by simp [hnone]⟩
    rw [hsame]
    exact .refl _

theorem describe_failsClean (r : machine.Reachable s) (hf : ∀ i, Fits s.mgr i)
    (iov : List Region) (a : Nat → Answers) :
    FailsClean s (.describe iov a) ↔ Clean s (.describe iov a) := by
  have ht := reachable_tracked r
  have ht' := (describe_turns a s.mgr iov).tracked ht
  obtain ⟨hiff, hok⟩ := describe_fits (a := a) ht hf iov
  constructor
  · intro h
    by_cases hret : (describe a s.mgr iov).ret = 0
    · exact hok hret
    · exact hiff.1 (ht'.agrees_iff.1 (h hret).1)
  · intro hc hret
    have hcar := reachable_carries r
    have hcar' := describe_carries hcar a iov
    rw [describe_failed hret] at hcar'
    have hrefs := hcar.sameRefs hcar'
    refine ⟨ht'.agrees_iff.2 (hiff.2 hc), hrefs, fun i hi => ?_⟩
    exact ⟨(hrefs.ref i).trans hi.1, (describe_flags a s.mgr iov i).trans hi.2⟩

theorem init_fits (attr : Attr) (domain : Domain) (slabMem : Nat) (reg : Int) (i : Nat) :
    Fits (init attr domain slabMem reg).2 i := by
  simp only [init]
  split
  · exact ⟨by simp, by simp⟩
  · split <;> exact ⟨by simp, by simp⟩

/-- In a run every failed call leaves the cache consistent exactly when no mark fails to
register what it picked, and no eviction fails in the call it depends on. -/
theorem failsClean_iff (r : machine.Run h s) :
    Machine.Guarded FailsClean h ↔ Machine.Guarded Clean h := by
  refine r.guarded_iff (I := fun s => ∀ i, Fits s.mgr i) ?_ ?_ ?_
  · rintro s ⟨attr, domain, slabMem, reg, rfl⟩
    exact init_fits attr domain slabMem reg
  · intro s e s' r hf hc _ hs
    exact step_fits r hf hc hs
  · intro s e r hf
    cases e with
    | mark v a => exact mark_failsClean r hf v a
    | describe iov a => exact describe_failsClean r hf iov a
    | invalidate v close => exact Iff.rfl
    | release c => exact Iff.rfl

theorem failsClean_again :
    Machine.Guarded FailsClean
      [(oneBank, .describe [⟨4096, 100⟩, ⟨8192, 100⟩] (fun _ => ⟨0, 0⟩))] := by
  refine (failsClean_iff (.step (.init ⟨_, _, _, _, rfl⟩) rfl rfl)).2 ?_
  rw [Machine.guarded_cons]
  refine ⟨?_, by simp⟩
  intro _
  exact ⟨fun _ _ => rfl, fun _ => ⟨fun _ _ => trivial, fun _ => trivial⟩⟩

/-- After the describe that failed, the bank claims the range it has no registration for. -/
theorem describe_failed_claims : ¬ ∀ s, machine.Reachable s → ∀ e, FailsClean s e := by
  intro h
  have hm := h oneBank ⟨[], .init ⟨_, _, _, _, rfl⟩⟩ (.describe [⟨4096, 100⟩] (fun _ => ⟨0, -12⟩))
    (by decide)
  have hlen := (hm.1.unregistered 0 (by decide)).1
  revert hlen
  decide

end Runs

end OfiTransport.Mr
