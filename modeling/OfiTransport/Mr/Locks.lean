import OfiTransport.Mr.Soundness
import OfiTransport.Lib.Locking

/-! The mutexes of the memory region manager.  The operations are written out once more with
every lock and unlock of the source; started without locks they do what they do
without mutexes, and leave none locked.  The exception is `ofi_mr_mark`. -/

namespace OfiTransport.Mr.Locked

open Lib Lib.Locking

inductive Mutex
  | bank (i : Nat)
  | slab
  deriving DecidableEq

def tryslab (m : Manager) (v : Region) : Locking Mutex (Int × Manager × Option Nat) :=
  if m.attr.slabSize < v.len then pure (-EFBIG, m, none)
  else do
    lock .slab
    match (List.range m.attr.slabCount).find? (fun j => !(m.slabs j).inuse) with
    | none =>
      unlock .slab
      pure (-ENOMEM, m, none)
    | some j =>
      let m := m.setSlab j true
      unlock .slab
      pure (0, { m with domain := m.domain.copy (m.slabs j).addr v }, some j)

/-- The loop of `ofi_mr_get_free_bank`, which returns with the bank it found locked. -/
def freeBank (m : Manager) : List Nat → Locking Mutex (Option Nat)
  | [] => pure none
  | i :: is => do
    lock (.bank i)
    if (m.banks i).ref = 0 ∧ (m.banks i).nonvolatile = false ∧ (m.banks i).registered = false then
      pure (some i)
    else do
      unlock (.bank i)
      freeBank m is

def getFreeBank (m : Manager) : Locking Mutex (Option Nat) :=
  freeBank m (List.range m.attr.bankCount)

def unlockOldest : Option Nat → Locking Mutex PUnit
  | none => pure ⟨⟩
  | some o => unlock (.bank o)

/-- The loop of `ofi_mr_find_bank`, which keeps its candidate locked. -/
def scan (m : Manager) (v : Region) : List Nat → Option Nat → Locking Mutex Lookup
  | [], none => pure .again
  | [], some o => pure (.evict o)
  | i :: is, o => do
    lock (.bank i)
    if (m.banks i).region.Covers v then do
      unlockOldest o
      pure (.hit i)
    else do
      if older m i o ≠ o then unlockOldest o
      if older m i o ≠ some i then unlock (.bank i)
      scan m v is (older m i o)

def findBank (a : Answers) (m : Manager) (v : Region) :
    Locking Mutex (Int × Manager × Option Nat) := do
  match ← scan m v (List.range m.attr.bankCount) none with
  | .hit i => pure (0, m, some i)
  | .evict i =>
    let m := m.modifyBank i (fun b => { b with base := v.base, len := v.len })
    let (ret, m) := register a m i
    if ret ≠ 0 then do
      unlock (.bank i)
      pure (ret, m, none)
    else pure (0, m, some i)
  | .again => pure (-EAGAIN, m, none)

def mark (a : Answers) (m : Manager) (v : Region) : Locking Mutex (Int × Manager) := do
  match ← getFreeBank m with
  | none => pure (-ENOMEM, m)
  | some i =>
    let (ret, m) := register a (m.modifyBank i
      (fun b => { b with
        base := v.base, len := v.len, nonvolatile := true, registered := false })) i
    -- both exits lock the mutex
    lock (.bank i)
    pure (ret, m)

def invalidateFrom (close : Nat → Int) (v : Region) :
    List Nat → Manager → Locking Mutex (Int × Manager)
  | [], m => pure (0, m)
  | i :: is, m => do
    lock (.bank i)
    if Meets (m.banks i).region v then
      if 0 < (m.banks i).ref then do
        unlock (.bank i)
        pure (-EBUSY, m)
      else do
        let m := (unregister (close i) m i).2
        let m := m.modifyBank i (fun b => { b with nonvolatile := false })
        unlock (.bank i)
        invalidateFrom close v is m
    else do
      unlock (.bank i)
      invalidateFrom close v is m

def invalidate (close : Nat → Int) (m : Manager) (v : Region) : Locking Mutex (Int × Manager) :=
  invalidateFrom close v (List.range m.attr.bankCount) m

def describeIov (a : Answers) (d : Describing) (v : Region) : Locking Mutex (Int × Describing) :=
  if v.len = 0 then
    pure (0, { d with
      ctx := { d.ctx with descriptors := d.ctx.descriptors ++ [none] }
      iov := d.iov ++ [v] })
  else do
    match ← tryslab d.mgr v with
    | (_, m, some j) =>
      pure (0, { mgr := m
                 ctx := { d.ctx with
                   descriptors := d.ctx.descriptors ++ [m.slabMr]
                   slabs := d.ctx.slabs ++ [j] }
                 iov := d.iov ++ [⟨(m.slabs j).addr, v.len⟩] })
    | (_, _, none) =>
      match ← findBank a d.mgr v with
      | (_, m, some i) =>
        let m := m.modifyBank i (fun b => { b with ref := b.ref + 1 })
        let ctx := { d.ctx with
          descriptors := d.ctx.descriptors ++ [(m.banks i).mr]
          banks := d.ctx.banks ++ [i] }
        unlock (.bank i)
        pure (0, ⟨m, ctx, d.iov ++ [v]⟩)
      | (ret, m, none) => pure (ret, { d with mgr := m })

def describeFrom (a : Nat → Answers) :
    Nat → List Region → Describing → Locking Mutex (Int × Describing)
  | _, [], d => pure (0, d)
  | k, v :: vs, d => do
    let (ret, d) ← describeIov (a k) d v
    if ret ≠ 0 then pure (ret, d) else describeFrom a (k + 1) vs d

def releaseBanks (m : Manager) : List Nat → Locking Mutex Manager
  | [] => pure m
  | i :: is => do
    lock (.bank i)
    let m := m.modifyBank i (fun b => { b with ref := b.ref - 1 })
    unlock (.bank i)
    releaseBanks m is

/-- `ofi_mr_release` clears the flags of the slabs without their mutex. -/
def release (m : Manager) (c : Context) : Locking Mutex Manager := do
  let m ← releaseBanks m c.banks
  pure (releaseSlabs m c.slabs)

def describe (a : Nat → Answers) (m : Manager) (iov : List Region) : Locking Mutex Described :=
  if 16 < iov.length then pure ⟨-E2BIG, m, iov, none⟩
  else do
    let (ret, d) ← describeFrom a 0 iov (.start m)
    if ret ≠ 0 then do
      let m ← releaseBanks d.mgr d.ctx.banks
      lock .slab
      let m := releaseSlabs m d.ctx.slabs
      unlock .slab
      pure ⟨ret, m, d.iov ++ iov.drop d.iov.length, none⟩
    else pure ⟨0, d.mgr, d.iov, some d.ctx⟩

def step (s : System) : Event → Locking Mutex System
  | .mark v a => do
    let r ← mark a s.mgr v
    pure { s with mgr := r.2 }
  | .invalidate v close => do
    let r ← invalidate close s.mgr v
    pure { s with mgr := r.2 }
  | .describe iov a => do
    let r ← describe a s.mgr iov
    pure ⟨r.mgr, r.handle.toList ++ s.live⟩
  | .release c => do
    let m ← release s.mgr c
    pure ⟨m, s.live.erase c⟩

def kept (o : Option Nat) : List Mutex := o.toList.map Mutex.bank

def found : Lookup → Option Nat
  | .hit i => some i
  | .evict i => some i
  | .again => none

section Operations

variable {m : Manager} {v : Region} {a : Answers}

theorem runs_tryslab (m : Manager) (v : Region) : Runs (tryslab m v) [] (Mr.tryslab m v) [] := by
  simp only [tryslab, Mr.tryslab]
  split
  · exact runs_pure _ _
  · refine (runs_lock (by simp)).bind ?_
    cases (List.range m.attr.slabCount).find? (fun j => !(m.slabs j).inuse) with
    | none => exact (runs_unlock _ _).bind (runs_pure _ _)
    | some j => exact (runs_unlock _ _).bind (runs_pure _ _)

theorem runs_freeBank (m : Manager) (is : List Nat) :
    ∃ o, Runs (freeBank m is) [] o (kept o) ∧ o = is.find? (fun i =>
      (m.banks i).ref = 0 ∧ (m.banks i).nonvolatile = false ∧ (m.banks i).registered = false) := by
  induction is with
  | nil => exact ⟨none, runs_pure _ _, rfl⟩
  | cons i is ih =>
    simp only [freeBank, List.find?_cons]
    by_cases hi : (m.banks i).ref = 0 ∧ (m.banks i).nonvolatile = false ∧
        (m.banks i).registered = false
    · refine ⟨some i, ?_, by simp [hi]⟩
      rw [if_pos hi]
      exact (runs_lock (by simp)).bind (runs_pure _ _)
    · obtain ⟨o, ho, heq⟩ := ih
      refine ⟨o, ?_, by simp [hi, heq]⟩
      rw [if_neg hi]
      exact (runs_lock (by simp)).bind ((runs_unlock _ _).bind ho)

theorem runs_getFreeBank (m : Manager) :
    Runs (getFreeBank m) [] (Mr.getFreeBank m) (kept (Mr.getFreeBank m)) := by
  obtain ⟨o, ho, heq⟩ := runs_freeBank m (List.range m.attr.bankCount)
  rw [Mr.getFreeBank, ← heq]
  exact ho

theorem runs_scan (is : List Nat) (hn : is.Nodup) {o : Option Nat}
    (ho : ∀ k, o = some k → k ∉ is) :
    Runs (scan m v is o) (kept o) (Mr.scan m v is o) (kept (found (Mr.scan m v is o))) := by
  induction is generalizing o with
  | nil => cases o <;> exact runs_pure _ _
  | cons i is ih =>
    obtain ⟨hi, hn⟩ := List.nodup_cons.1 hn
    have hne : ∀ k, o = some k → i ≠ k := by
      rintro k hk rfl
      exact ho i hk List.mem_cons_self
    have hlock : Mutex.bank i ∉ kept o := by
      cases o with
      | none => simp [kept]
      | some k => simpa [kept] using hne k rfl
    simp only [scan, Mr.scan]
    refine (runs_lock hlock).bind ?_
    by_cases hc : (m.banks i).region.Covers v
    · rw [if_pos hc, if_pos hc]
      cases o with
      | none => exact (runs_pure _ _).bind (runs_pure _ _)
      | some k => exact (runs_unlock_below (by simpa using hne k rfl)).bind (runs_pure _ _)
    · rw [if_neg hc, if_neg hc]
      have hnew : ∀ k, some i = some k → k ∉ is := by
        intro k hk
        cases hk
        exact hi
      have hold : ∀ k, o = some k → k ∉ is := fun k hk hm => ho k hk (List.mem_cons_of_mem i hm)
      cases o with
      | none =>
        by_cases hf : (m.banks i).ref = 0 ∧ (m.banks i).nonvolatile = false
        · have he : older m i none = some i := by simp [older, hf]
          simp only [he, ne_eq, not_true, if_false, reduceCtorEq, not_false_eq_true, if_true]
          exact (runs_pure _ _).bind (ih hn hnew)
        · have he : older m i none = none := by simp [older, hf]
          simp only [he, ne_eq, not_true, if_false, reduceCtorEq, not_false_eq_true, if_true]
          exact (runs_unlock _ _).bind (ih hn hold)
      | some k =>
        have hik := hne k rfl
        by_cases hf : (m.banks i).ref = 0 ∧ (m.banks i).nonvolatile = false ∧
            (m.banks i).age < (m.banks k).age
        · have he : older m i (some k) = some i := by simp [older, hf]
          simp only [he, ne_eq, not_true, if_false, Option.some.injEq, hik, not_false_eq_true,
            if_true]
          exact (runs_unlock_below (by simpa using hik)).bind (ih hn hnew)
        · have he : older m i (some k) = some k := by simp [older, hf]
          simp only [he, ne_eq, not_true, if_false, Option.some.injEq, hik.symm, not_false_eq_true,
            if_true]
          exact (runs_unlock _ _).bind (ih hn hold)

theorem runs_findBank (a : Answers) (m : Manager) (v : Region) :
    Runs (findBank a m v) [] (Mr.findBank a m v) (kept (Mr.findBank a m v).2.2) := by
  have hs := runs_scan (m := m) (v := v) (o := none) (List.range m.attr.bankCount)
    List.nodup_range (by simp)
  simp only [findBank, Mr.findBank, lookup]
  refine Runs.bind hs ?_
  cases Mr.scan m v (List.range m.attr.bankCount) none with
  | hit i => exact runs_pure _ _
  | again => exact runs_pure _ _
  | evict i =>
    simp only
    split
    · exact (runs_unlock _ _).bind (runs_pure _ _)
    · exact runs_pure _ _

theorem runs_invalidateFrom (close : Nat → Int) (v : Region) (is : List Nat) (m : Manager) :
    Runs (invalidateFrom close v is m) [] (Mr.invalidateFrom close v is m) [] := by
  induction is generalizing m with
  | nil => exact runs_pure _ _
  | cons i is ih =>
    simp only [invalidateFrom, Mr.invalidateFrom]
    refine (runs_lock (by simp)).bind ?_
    split
    · split
      · exact (runs_unlock _ _).bind (runs_pure _ _)
      · exact (runs_unlock _ _).bind (ih _)
    · exact (runs_unlock _ _).bind (ih _)

theorem runs_describeIov (a : Answers) (d : Describing) (v : Region) :
    Runs (describeIov a d v) [] (Mr.describeIov a d v) [] := by
  simp only [describeIov, Mr.describeIov]
  split
  · exact runs_pure _ _
  · refine (runs_tryslab d.mgr v).bind ?_
    rcases Mr.tryslab d.mgr v with ⟨_, m, _ | j⟩
    · have hf := runs_findBank a d.mgr v
      refine hf.bind ?_
      rcases Mr.findBank a d.mgr v with ⟨ret, m, _ | i⟩
      · exact runs_pure _ _
      · exact (runs_unlock _ _).bind (runs_pure _ _)
    · exact runs_pure _ _

theorem runs_describeFrom (a : Nat → Answers) (k : Nat) (vs : List Region) (d : Describing) :
    Runs (describeFrom a k vs d) [] (Mr.describeFrom a k vs d) [] := by
  induction vs generalizing k d with
  | nil => exact runs_pure _ _
  | cons v vs ih =>
    simp only [describeFrom, Mr.describeFrom]
    refine (runs_describeIov (a k) d v).bind ?_
    split
    · exact runs_pure _ _
    · exact ih _ _

theorem runs_releaseBanks (m : Manager) (is : List Nat) :
    Runs (releaseBanks m is) [] (Mr.releaseBanks m is) [] := by
  induction is generalizing m with
  | nil => exact runs_pure _ _
  | cons i is ih =>
    simp only [releaseBanks]
    exact (runs_lock (by simp)).bind ((runs_unlock _ _).bind (ih _))

theorem runs_release (m : Manager) (c : Context) :
    Runs (release m c) [] (Mr.release m c) [] :=
  (runs_releaseBanks m c.banks).bind (runs_pure _ _)

theorem runs_describe (a : Nat → Answers) (m : Manager) (iov : List Region) :
    Runs (describe a m iov) [] (Mr.describe a m iov) [] := by
  simp only [describe, Mr.describe]
  split
  · exact runs_pure _ _
  · refine (runs_describeFrom a 0 iov _).bind ?_
    split
    · refine (runs_releaseBanks _ _).bind ?_
      exact (runs_lock (by simp)).bind ((runs_unlock _ _).bind (runs_pure _ _))
    · exact runs_pure _ _

/-- A mark that picks a bank takes the mutex of it twice. -/
theorem not_runs_mark {i : Nat} (hf : Mr.getFreeBank m = some i) {r : Int × Manager}
    {held : List Mutex} : ¬ Runs (mark a m v) [] r held := by
  have hg := runs_getFreeBank m
  rw [hf] at hg
  intro hr
  exact not_runs_relock (by simp [kept]) (hg.of_bind hr)

theorem runs_mark (hf : Mr.getFreeBank m = none) : Runs (mark a m v) [] (Mr.mark a m v) [] := by
  have hg := runs_getFreeBank m
  rw [hf] at hg
  have hm : Mr.mark a m v = (-ENOMEM, m) := by simp [Mr.mark, hf]
  rw [hm]
  exact hg.bind (runs_pure _ _)

end Operations

/-- Started without locks, the operation misuses none, does what it does without mutexes, and
leaves none locked. -/
def Balanced (s : System) (e : Event) : Prop :=
  ∃ s', Mr.step s e = .ok s' ∧ Runs (step s e) [] s' []

/-- The operation is no mark that picks a bank. -/
def Unpicked (s : System) : Event → Prop
  | .mark _ _ => Mr.getFreeBank s.mgr = none
  | _ => True

/-- Which operations are balanced. -/
theorem balanced_iff (s : System) (e : Event) : Balanced s e ↔ Unpicked s e := by
  cases e with
  | mark v a =>
    constructor
    · rintro ⟨s', _, hr⟩
      obtain ⟨r, held, hm⟩ := hr.head
      cases hf : Mr.getFreeBank s.mgr with
      | none => exact hf
      | some i => exact absurd hm (not_runs_mark hf)
    · intro hf
      exact ⟨_, rfl, (runs_mark hf).bind (runs_pure _ _)⟩
  | invalidate v close =>
    refine iff_of_true ⟨_, rfl, ?_⟩ trivial
    exact (runs_invalidateFrom close v _ s.mgr).bind (runs_pure _ _)
  | describe iov a =>
    refine iff_of_true ⟨_, rfl, ?_⟩ trivial
    exact (runs_describe a s.mgr iov).bind (runs_pure _ _)
  | release c =>
    refine iff_of_true ⟨_, rfl, ?_⟩ trivial
    exact (runs_release s.mgr c).bind (runs_pure _ _)

/-- The first mark does not give the mutex of its bank back. -/
theorem mark_relocks : ¬ ∀ s, machine.Reachable s → ∀ e, Balanced s e := by
  intro h
  obtain ⟨s', _, hr⟩ := h oneBank ⟨[], .init ⟨_, _, _, _, rfl⟩⟩ (.mark ⟨4096, 100⟩ ⟨0, 0⟩)
  obtain ⟨r, held, hm⟩ := hr.head
  exact not_runs_mark (i := 0) (by decide) hm

end OfiTransport.Mr.Locked
