import OfiTransport.Mr.Slabs
import Mathlib.Algebra.BigOperators.Group.List.Basic

/-! The reference counts of the banks and the flags of the slabs: what they say about the
contexts that have been described and not yet released. -/

namespace OfiTransport.Mr

open Lib

def bankUses (l : List Context) (i : Nat) : Nat := (l.map (fun c => c.banks.count i)).sum

def slabUses (l : List Context) (j : Nat) : Nat := (l.map (fun c => c.slabs.count j)).sum

structure Carries (m : Manager) (l : List Context) : Prop where
  ref : ∀ i, (m.banks i).ref = bankUses l i
  inuse : ∀ j, slabUses l j = if (m.slabs j).inuse then 1 else 0

structure SameRefs (m m' : Manager) : Prop where
  ref : ∀ i, (m'.banks i).ref = (m.banks i).ref
  inuse : ∀ j, (m'.slabs j).inuse = (m.slabs j).inuse

section Uses

@[simp] theorem bankUses_nil (i : Nat) : bankUses [] i = 0 := rfl

@[simp] theorem bankUses_cons (c : Context) (l : List Context) (i : Nat) :
    bankUses (c :: l) i = c.banks.count i + bankUses l i := by
  simp [bankUses]

@[simp] theorem slabUses_nil (j : Nat) : slabUses [] j = 0 := rfl

@[simp] theorem slabUses_cons (c : Context) (l : List Context) (j : Nat) :
    slabUses (c :: l) j = c.slabs.count j + slabUses l j := by
  simp [slabUses]

theorem bankUses_perm {l l' : List Context} (h : l.Perm l') (i : Nat) :
    bankUses l i = bankUses l' i := (h.map _).sum_eq

theorem slabUses_perm {l l' : List Context} (h : l.Perm l') (j : Nat) :
    slabUses l j = slabUses l' j := (h.map _).sum_eq

theorem bankUses_pos {l : List Context} {c : Context} {i : Nat} (hc : c ∈ l) (hi : i ∈ c.banks) :
    0 < bankUses l i := by
  rw [bankUses_perm (List.perm_cons_erase hc), bankUses_cons]
  have := List.count_pos_iff.2 hi
  omega

theorem slabUses_pos {l : List Context} {c : Context} {j : Nat} (hc : c ∈ l) (hj : j ∈ c.slabs) :
    0 < slabUses l j := by
  rw [slabUses_perm (List.perm_cons_erase hc), slabUses_cons]
  have := List.count_pos_iff.2 hj
  omega

theorem countP_eq_slabUses {l : List Context} {j : Nat} (h : slabUses l j ≤ 1) :
    l.countP (fun c => j ∈ c.slabs) = slabUses l j := by
  induction l with
  | nil => rfl
  | cons c l ih =>
    rw [slabUses_cons] at h ⊢
    rw [List.countP_cons, ih (by omega)]
    by_cases hj : j ∈ c.slabs
    · have := List.count_pos_iff.2 hj
      simp [hj]
      omega
    · simp [hj, List.count_eq_zero_of_not_mem hj]

end Uses

section Operations

variable {m m' m'' : Manager} {l l' : List Context} {c : Context}

theorem SameRefs.refl (m : Manager) : SameRefs m m := ⟨fun _ => rfl, fun _ => rfl⟩

theorem SameRefs.trans (h : SameRefs m m') (h' : SameRefs m' m'') : SameRefs m m'' :=
  ⟨fun i => (h'.ref i).trans (h.ref i), fun j => (h'.inuse j).trans (h.inuse j)⟩

theorem Carries.same (h : Carries m l) (hs : SameRefs m m') : Carries m' l where
  ref i := (hs.ref i).trans (h.ref i)
  inuse j := by
    rw [hs.inuse]
    exact h.inuse j

theorem Carries.perm (h : Carries m l) (hp : l.Perm l') : Carries m l' where
  ref i := by
    rw [← bankUses_perm hp]
    exact h.ref i
  inuse j := by
    rw [← slabUses_perm hp]
    exact h.inuse j

theorem Carries.cons_iff (hb : c.banks = []) (hs : c.slabs = []) :
    Carries m (c :: l) ↔ Carries m l := by
  constructor
  · intro h
    exact ⟨fun i => by simpa [hb] using h.ref i, fun j => by simpa [hs] using h.inuse j⟩
  · intro h
    exact ⟨fun i => by simpa [hb] using h.ref i, fun j => by simpa [hs] using h.inuse j⟩

theorem SameRefs.update {i : Nat} {b : Bank} (hb : m'.banks = Function.update m.banks i b)
    (hr : b.ref = (m.banks i).ref) (hs : m'.slabs = m.slabs) : SameRefs m m' where
  ref k := by by_cases hk : k = i <;> simp [hb, hk, hr]
  inuse j := by rw [hs]

theorem unregister_refs (close : Int) (m : Manager) (i : Nat) :
    SameRefs m (unregister close m i).2 := by
  simp only [unregister]
  split
  · exact .refl m
  · split
    · exact .refl m
    · exact .update rfl rfl rfl

theorem registerFresh_refs (reg : Int) (m : Manager) (i : Nat) :
    SameRefs m (registerFresh reg m i).2 := by
  simp only [registerFresh]
  split
  · exact .refl m
  · exact .update rfl rfl rfl

theorem register_refs (a : Answers) (m : Manager) (i : Nat) : SameRefs m (register a m i).2 := by
  simp only [register]
  split
  · split
    · exact unregister_refs ..
    · exact (unregister_refs ..).trans (registerFresh_refs ..)
  · exact registerFresh_refs ..

theorem mark_refs (a : Answers) (m : Manager) (v : Region) : SameRefs m (mark a m v).2 := by
  simp only [mark]
  split
  · exact .refl m
  · refine .trans ?_ (register_refs ..)
    exact .update rfl rfl rfl

theorem invalidateFrom_refs (close : Nat → Int) (v : Region) (is : List Nat) (m : Manager) :
    SameRefs m (invalidateFrom close v is m).2 := by
  induction is generalizing m with
  | nil => exact .refl m
  | cons i is ih =>
    simp only [invalidateFrom]
    split
    · split
      · exact .refl m
      · refine .trans ?_ (ih _)
        refine .trans (unregister_refs (close i) m i) ?_
        exact .update rfl rfl rfl
    · exact ih m

theorem findBank_refs (a : Answers) (m : Manager) (v : Region) :
    SameRefs m (findBank a m v).2.1 := by
  simp only [findBank]
  cases lookup m v with
  | hit i => exact .refl m
  | again => exact .refl m
  | evict i =>
    have hm : SameRefs m (m.modifyBank i (fun b => { b with base := v.base, len := v.len })) :=
      .update rfl rfl rfl
    simp only
    split <;> exact hm.trans (register_refs ..)

theorem tryslab_carries {v : Region} {j : Nat} (h : Carries m (c :: l))
    (ht : (tryslab m v).2.2 = some j) (hm : m' = (tryslab m v).2.1) (hb : c'.banks = c.banks)
    (hs : c'.slabs = c.slabs ++ [j]) : Carries m' (c' :: l) := by
  have hfree := (tryslab_some ht).2.2.1
  have hbanks : m'.banks = m.banks := by
    rw [hm]
    simp only [tryslab]
    split
    · rfl
    · split <;> rfl
  refine ⟨?_, ?_⟩
  · intro i
    rw [hbanks, h.ref, bankUses_cons, bankUses_cons, hb]
  · intro k
    have hk := h.inuse k
    rw [hm, tryslab_slabs ht, slabUses_cons, hs, List.count_append]
    rw [slabUses_cons] at hk
    by_cases hkj : k = j
    · subst hkj
      rw [hfree] at hk
      simp [Manager.setSlab] at hk ⊢
      omega
    · have hc : List.count k [j] = 0 := by simp [Ne.symm hkj]
      simp only [hc, Manager.setSlab, Function.update_of_ne hkj]
      omega

theorem Carries.reference (h : Carries m (c :: l)) (i : Nat) (hb : c'.banks = c.banks ++ [i])
    (hs : c'.slabs = c.slabs) :
    Carries (m.modifyBank i (fun b => { b with ref := b.ref + 1 })) (c' :: l) := by
  refine ⟨?_, ?_⟩
  · intro k
    have hk := h.ref k
    rw [bankUses_cons] at hk
    rw [bankUses_cons, hb, List.count_append]
    by_cases hki : k = i
    · subst hki
      simp only [Manager.modifyBank_banks, if_true, hk, List.count_singleton_self]
      omega
    · have hc : List.count k [i] = 0 := by simp [Ne.symm hki]
      simp only [Manager.modifyBank_banks, hki, if_false, hk, hc]
      omega
  · intro j
    rw [slabUses_cons, hs, ← slabUses_cons]
    exact h.inuse j

theorem describeIov_carries (h : Carries d.mgr (d.ctx :: l)) (a : Answers) (v : Region) :
    Carries (describeIov a d v).2.mgr ((describeIov a d v).2.ctx :: l) := by
  simp only [describeIov]
  split
  · exact ⟨h.ref, h.inuse⟩
  · split
    · next _ m j ht => exact tryslab_carries (j := j) h (by rw [ht]) (by rw [ht]) rfl rfl
    · have hs := findBank_refs a d.mgr v
      split
      · next _ m i he =>
        rw [he] at hs
        exact (h.same hs).reference i rfl rfl
      · next _ m he =>
        rw [he] at hs
        exact h.same hs

theorem describeFrom_carries (h : Carries d.mgr (d.ctx :: l)) (a : Nat → Answers) (k : Nat)
    (vs : List Region) :
    Carries (describeFrom a k vs d).2.mgr ((describeFrom a k vs d).2.ctx :: l) := by
  induction vs generalizing k d with
  | nil => exact h
  | cons v vs ih =>
    simp only [describeFrom]
    split
    · exact describeIov_carries h (a k) v
    · exact ih (describeIov_carries h (a k) v) (k + 1)

theorem releaseBanks_ref (m : Manager) (is : List Nat) (i : Nat) :
    ((releaseBanks m is).banks i).ref = (m.banks i).ref - is.count i := by
  induction is generalizing m with
  | nil => simp [releaseBanks]
  | cons k is ih =>
    have hr : releaseBanks m (k :: is) =
        releaseBanks (m.modifyBank k (fun b => { b with ref := b.ref - 1 })) is := rfl
    rw [hr, ih, List.count_cons]
    by_cases hik : i = k
    · subst hik
      simp
      omega
    · simp [hik, Ne.symm hik]

@[simp] theorem releaseBanks_slabs (m : Manager) (is : List Nat) :
    (releaseBanks m is).slabs = m.slabs := by
  induction is generalizing m with
  | nil => rfl
  | cons k is ih => exact ih _

@[simp] theorem releaseSlabs_banks (m : Manager) (js : List Nat) :
    (releaseSlabs m js).banks = m.banks := by
  induction js generalizing m with
  | nil => rfl
  | cons k js ih => exact ih _

theorem releaseSlabs_inuse (m : Manager) (js : List Nat) (j : Nat) :
    ((releaseSlabs m js).slabs j).inuse = if j ∈ js then false else (m.slabs j).inuse := by
  induction js generalizing m with
  | nil => simp [releaseSlabs]
  | cons k js ih =>
    have hr : releaseSlabs m (k :: js) = releaseSlabs (m.setSlab k false) js := rfl
    rw [hr, ih]
    by_cases hjk : j = k
    · subst hjk
      simp [Manager.setSlab]
    · simp [Manager.setSlab, hjk]

theorem Carries.release (h : Carries m (c :: l)) : Carries (release m c) l := by
  refine ⟨?_, ?_⟩
  · intro i
    have hi := h.ref i
    rw [bankUses_cons] at hi
    rw [Mr.release, releaseSlabs_banks, releaseBanks_ref, hi]
    omega
  · intro j
    have hj := h.inuse j
    rw [slabUses_cons] at hj
    rw [Mr.release, releaseSlabs_inuse, releaseBanks_slabs]
    by_cases hc : j ∈ c.slabs
    · have := List.count_pos_iff.2 hc
      simp only [hc, if_true, Bool.false_eq_true, if_false]
      split at hj <;> omega
    · rw [List.count_eq_zero_of_not_mem hc, Nat.zero_add] at hj
      simp only [hc, if_false]
      exact hj

theorem describe_carries (h : Carries m l) (a : Nat → Answers) (iov : List Region) :
    Carries (describe a m iov).mgr ((describe a m iov).handle.toList ++ l) := by
  simp only [describe]
  split
  · exact h
  · have hd :=
      describeFrom_carries (d := .start m) (l := l) ((Carries.cons_iff rfl rfl).2 h) a 0 iov
    split
    · exact hd.release
    · exact hd

end Operations

section Runs

variable {s s' : System} {e : Event}

theorem init_carries (attr : Attr) (domain : Domain) (slabMem : Nat) (reg : Int) :
    Carries (init attr domain slabMem reg).2 [] := by
  simp only [init]
  split
  · exact ⟨fun _ => rfl, fun _ => rfl⟩
  · split <;> exact ⟨fun _ => rfl, fun _ => rfl⟩

theorem step_carries (h : Carries s.mgr s.live) (he : enabled s e = true)
    (hs : step s e = .ok s') : Carries s'.mgr s'.live := by
  cases e with
  | mark v a =>
    cases hs
    exact h.same (mark_refs a s.mgr v)
  | invalidate v close =>
    cases hs
    exact h.same (invalidateFrom_refs close v _ s.mgr)
  | describe iov a =>
    cases hs
    exact describe_carries h a iov
  | release c =>
    cases hs
    simp only [enabled, decide_eq_true_eq] at he
    exact (h.perm (List.perm_cons_erase he)).release

theorem reachable_carries (r : machine.Reachable s) : Carries s.mgr s.live := by
  refine r.invariant (I := fun s => Carries s.mgr s.live) ?_ (fun s e s' h he hs => ?_)
  · rintro s ⟨attr, domain, slabMem, reg, rfl⟩
    exact init_carries attr domain slabMem reg
  · exact step_carries h he hs

/-- The counts are the numbers of references, and a slab is in use for one context. -/
structure Conserved (s : System) : Prop where
  ref : ∀ i, (s.mgr.banks i).ref = bankUses s.live i
  inuse : ∀ j, (s.mgr.slabs j).inuse = true ↔ s.live.countP (fun c => j ∈ c.slabs) = 1
  unshared : ∀ j, s.live.countP (fun c => j ∈ c.slabs) ≤ 1

theorem Carries.conserved (h : Carries s.mgr s.live) : Conserved s := by
  have huse : ∀ j, slabUses s.live j ≤ 1 := by
    intro j
    rw [h.inuse]
    split <;> omega
  refine ⟨h.ref, ?_, ?_⟩
  · intro j
    rw [countP_eq_slabUses (huse j), h.inuse]
    split <;> simp [*]
  · intro j
    rw [countP_eq_slabUses (huse j)]
    exact huse j

theorem termBanks_ok (is : List Nat) {m : Manager} (h : ∀ i ∈ is, (m.banks i).ref = 0)
    (close : Nat → Int) : ∃ m', termBanks close is m = .ok m' := by
  induction is generalizing m with
  | nil => exact ⟨m, rfl⟩
  | cons i is ih =>
    have hi := h i (by simp)
    have his : ∀ k ∈ is, ((unregister (close i) m i).2.banks k).ref = 0 := by
      intro k hk
      rw [(unregister_refs (close i) m i).ref]
      exact h k (by simp [hk])
    obtain ⟨m', hm⟩ := ih his
    exact ⟨m', by simpa [termBanks, nnAssert, hi, bind, Except.bind] using hm⟩

/-- Nothing is referred to, and `ofi_mr_term` finds no reserved bank. -/
structure Unreserved (m : Manager) : Prop where
  ref : ∀ i, (m.banks i).ref = 0
  inuse : ∀ j, (m.slabs j).inuse = false
  term : ∀ close closeSlab, term close closeSlab m ≠ .error .assertFailed

theorem Carries.unreserved {m : Manager} (h : Carries m []) : Unreserved m := by
  have href : ∀ i, (m.banks i).ref = 0 := h.ref
  refine ⟨href, ?_, ?_⟩
  · intro j
    have hj := h.inuse j
    cases hu : (m.slabs j).inuse with
    | false => rfl
    | true => simp [hu] at hj
  · intro close closeSlab
    obtain ⟨m', hm⟩ := termBanks_ok (List.range m.attr.bankCount) (fun i _ => href i) close
    simp only [Mr.term, hm, bind, Except.bind]
    split
    · simp [pure, Except.pure]
    · split <;> simp [pure, Except.pure]

/-- In every reachable state the references are conserved, and once all handles have been
released nothing is reserved any more. -/
theorem reachable_conserved (r : machine.Reachable s) :
    Conserved s ∧ (s.live = [] → Unreserved s.mgr) := by
  have h := reachable_carries r
  refine ⟨h.conserved, fun hl => ?_⟩
  rw [hl] at h
  exact h.unreserved

theorem described_conserved :
    (∃ s, s.live.length = 2 ∧ (s.mgr.banks 0).ref = 2 ∧ (s.mgr.slabs 0).inuse = true ∧
      Conserved s ∧ (s.live = [] → Unreserved s.mgr)) ∧
    ∃ s, (s.mgr.banks 0).registered = true ∧ s.live = [] ∧
      Conserved s ∧ (s.live = [] → Unreserved s.mgr) := by
  let first : Event := .describe [⟨65536, 8⟩, ⟨131072, 100⟩] (fun _ => ⟨0, 0⟩)
  let second : Event := .describe [⟨131100, 50⟩] (fun _ => ⟨0, 0⟩)
  have hi : machine.init ⟨(init ⟨2, 1, 8, 0⟩ .unused 1024 0).2, []⟩ := ⟨_, _, _, _, rfl⟩
  constructor
  · obtain ⟨s, hr, hs⟩ := Machine.exists_reachable (M := machine) [first, second]
      (fun s => decide (s.live.length = 2 ∧ (s.mgr.banks 0).ref = 2 ∧
        (s.mgr.slabs 0).inuse = true)) hi (by decide)
    obtain ⟨hl, hb, hj⟩ := of_decide_eq_true hs
    exact ⟨s, hl, hb, hj, reachable_conserved hr⟩
  · obtain ⟨s, hr, hs⟩ := Machine.exists_reachable (M := machine)
      [first, second, .release ⟨[some 0, some 1], [0], [0]⟩, .release ⟨[some 1], [0], []⟩]
      (fun s => decide ((s.mgr.banks 0).registered = true ∧ s.live = [])) hi (by decide)
    obtain ⟨hb, hl⟩ := of_decide_eq_true hs
    exact ⟨s, hb, hl, reachable_conserved hr⟩

end Runs

end OfiTransport.Mr
