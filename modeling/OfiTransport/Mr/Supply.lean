import OfiTransport.Mr.References
import Mathlib.Data.List.Perm.Subperm

/-! When the manager is sure to have a bank for another region: there are more banks than
references to them, and none is kept out of the eviction. -/

namespace OfiTransport.Mr

open Lib

def Volatile (m : Manager) : Prop := ∀ i, (m.banks i).nonvolatile = false

def referred (l : List Context) : List Nat := l.flatMap Context.banks

section Flags

variable {m m' m'' : Manager}

def SameFlags (m m' : Manager) : Prop :=
  ∀ i, (m'.banks i).nonvolatile = (m.banks i).nonvolatile

theorem SameFlags.refl (m : Manager) : SameFlags m m := fun _ => rfl

theorem SameFlags.trans (h : SameFlags m m') (h' : SameFlags m' m'') : SameFlags m m'' :=
  fun i => (h' i).trans (h i)

theorem SameFlags.update {i : Nat} {b : Bank} (hb : m'.banks = Function.update m.banks i b)
    (hn : b.nonvolatile = (m.banks i).nonvolatile) : SameFlags m m' := by
  intro k
  by_cases hk : k = i <;> simp [hb, hk, hn]

theorem Volatile.same (h : Volatile m) (hs : SameFlags m m') : Volatile m' :=
  fun i => (hs i).trans (h i)

theorem unregister_flags (close : Int) (m : Manager) (i : Nat) :
    SameFlags m (unregister close m i).2 := by
  simp only [unregister]
  split
  · exact .refl m
  · split
    · exact .refl m
    · exact .update rfl rfl

theorem registerFresh_flags (reg : Int) (m : Manager) (i : Nat) :
    SameFlags m (registerFresh reg m i).2 := by
  simp only [registerFresh]
  split
  · exact .refl m
  · exact .update rfl rfl

theorem register_flags (a : Answers) (m : Manager) (i : Nat) :
    SameFlags m (register a m i).2 := by
  simp only [register]
  split
  · split
    · exact unregister_flags _ _ _
    · exact (unregister_flags _ _ _).trans (registerFresh_flags _ _ _)
  · exact registerFresh_flags _ _ _

theorem findBank_flags (a : Answers) (m : Manager) (v : Region) :
    SameFlags m (findBank a m v).2.1 := by
  simp only [findBank]
  cases lookup m v with
  | hit i => exact .refl m
  | again => exact .refl m
  | evict i =>
    have hm : SameFlags m (m.modifyBank i (fun b => { b with base := v.base, len := v.len })) :=
      .update rfl rfl
    simp only
    split <;> exact hm.trans (register_flags _ _ _)

theorem tryslab_flags (m : Manager) (v : Region) : SameFlags m (tryslab m v).2.1 := by
  simp only [tryslab]
  split
  · exact .refl m
  · split <;> exact .refl m

theorem describeIov_flags (a : Answers) (d : Describing) (v : Region) :
    SameFlags d.mgr (describeIov a d v).2.mgr := by
  simp only [describeIov]
  split
  · exact .refl _
  · split
    · next _ m j ht =>
      have hs := tryslab_flags d.mgr v
      rw [ht] at hs
      exact hs
    · have hf := findBank_flags a d.mgr v
      split
      · next _ m i he =>
        rw [he] at hf
        exact hf.trans (.update (i := i) rfl rfl)
      · next _ m he =>
        rw [he] at hf
        exact hf

theorem describeFrom_flags (a : Nat → Answers) (k : Nat) (vs : List Region) (d : Describing) :
    SameFlags d.mgr (describeFrom a k vs d).2.mgr := by
  induction vs generalizing k d with
  | nil => exact .refl _
  | cons v vs ih =>
    simp only [describeFrom]
    split
    · exact describeIov_flags _ _ _
    · exact (describeIov_flags _ _ _).trans (ih _ _)

theorem release_flags (m : Manager) (c : Context) : SameFlags m (release m c) := by
  have hb : ∀ is (m : Manager), SameFlags m (releaseBanks m is) := by
    intro is
    induction is with
    | nil => exact .refl
    | cons i is ih =>
      intro m
      have hi : SameFlags m (m.modifyBank i (fun b => { b with ref := b.ref - 1 })) :=
        .update rfl rfl
      exact hi.trans (ih _)
  intro i
  rw [release, releaseSlabs_banks]
  exact hb c.banks m i

theorem describe_flags (a : Nat → Answers) (m : Manager) (iov : List Region) :
    SameFlags m (describe a m iov).mgr := by
  simp only [describe]
  split
  · exact .refl m
  · have hf := describeFrom_flags a 0 iov (.start m)
    split
    · exact hf.trans (release_flags _ _)
    · exact hf

end Flags

section References

variable {d : Describing}

theorem describeIov_banks (a : Answers) (d : Describing) (v : Region) :
    (describeIov a d v).2.ctx.banks.length ≤ d.ctx.banks.length + 1 := by
  simp only [describeIov]
  split
  · exact Nat.le_succ _
  · split
    · exact Nat.le_succ _
    · split
      · exact Nat.le_of_eq (by simp)
      · exact Nat.le_succ _

theorem describeFrom_banks (a : Nat → Answers) (k : Nat) (vs : List Region) (d : Describing) :
    (describeFrom a k vs d).2.ctx.banks.length ≤ d.ctx.banks.length + vs.length := by
  induction vs generalizing k d with
  | nil => exact Nat.le_refl _
  | cons v vs ih =>
    have hv := describeIov_banks (a k) d v
    have hvs := ih (k + 1) (describeIov (a k) d v).2
    rw [List.length_cons]
    simp only [describeFrom]
    split
    · exact Nat.le_trans hv (by omega)
    · exact Nat.le_trans hvs (by omega)

theorem describe_banks {a : Nat → Answers} {m : Manager} {iov : List Region} {c : Context}
    (h : (describe a m iov).handle = some c) : c.banks.length ≤ iov.length := by
  have hb := describeFrom_banks a 0 iov (.start m)
  simp only [describe] at h
  split at h
  · cases h
  · split at h
    · cases h
    · cases h
      simpa [Describing.start] using hb

end References

section Supply

variable {m : Manager} {l : List Context} {d : Describing} {v : Region}

theorem mem_referred {i : Nat} (h : bankUses l i ≠ 0) : i ∈ referred l := by
  induction l with
  | nil => exact absurd rfl h
  | cons c l ih =>
    rw [bankUses_cons] at h
    rw [referred, List.flatMap_cons, List.mem_append]
    by_cases hc : c.banks.count i = 0
    · exact .inr (ih (by omega))
    · exact .inl (List.count_pos_iff.1 (by omega))

theorem referred_length_le {n : Nat} (h : ∀ c ∈ l, c.banks.length ≤ n) :
    (referred l).length ≤ n * l.length := by
  induction l with
  | nil => simp [referred]
  | cons c l ih =>
    have hc := h c (by simp)
    have hl := ih (fun c' hc' => h c' (by simp [hc']))
    rw [referred] at hl
    rw [referred, List.flatMap_cons, List.length_append, List.length_cons, Nat.mul_succ]
    omega

theorem scan_again {is : List Nat} {o : Option Nat} (h : scan m v is o = .again) :
    o = none ∧ ∀ i ∈ is, (m.banks i).ref ≠ 0 ∨ (m.banks i).nonvolatile = true := by
  induction is generalizing o with
  | nil =>
    cases o with
    | none => exact ⟨rfl, nofun⟩
    | some k => cases h
  | cons i is ih =>
    simp only [scan] at h
    split at h
    · cases h
    · obtain ⟨ho, his⟩ := ih h
      cases o with
      | some k =>
        simp only [older] at ho
        split at ho <;> cases ho
      | none =>
        simp only [older] at ho
        split at ho
        · cases ho
        · next hi =>
          refine ⟨rfl, fun k hk => ?_⟩
          rcases List.mem_cons.1 hk with rfl | hk
          · by_cases hr : (m.banks k).ref = 0
            · exact .inr (by simpa [hr] using hi)
            · exact .inl hr
          · exact his k hk

theorem Carries.again (h : Carries m l) (hv : Volatile m) (ha : lookup m v = .again) :
    m.attr.bankCount ≤ (referred l).length := by
  have hs : List.range m.attr.bankCount ⊆ referred l := by
    intro i hi
    have hr := (scan_again ha).2 i hi
    rw [hv i, h.ref] at hr
    exact mem_referred (by simpa using hr)
  have hl := (List.subperm_of_subset List.nodup_range hs).length_le
  simpa using hl

theorem register_easy (m : Manager) (i : Nat) : (register ⟨0, 0⟩ m i).1 = 0 := by
  simp only [register, unregister, registerFresh]
  repeat' split
  all_goals simp_all

theorem describeIov_easy (d : Describing) (v : Region) :
    (describeIov ⟨0, 0⟩ d v).1 = 0 ∨ (describeIov ⟨0, 0⟩ d v).1 = -EAGAIN := by
  have hf : (findBank ⟨0, 0⟩ d.mgr v).1 = 0 ∨ (findBank ⟨0, 0⟩ d.mgr v).1 = -EAGAIN := by
    simp only [Mr.findBank]
    cases lookup d.mgr v with
    | hit i => exact .inl rfl
    | again => exact .inr rfl
    | evict i => simp [register_easy]
  simp only [Mr.describeIov]
  split
  · exact .inl rfl
  · split
    · exact .inl rfl
    · split
      · exact .inl rfl
      · next ret m hn =>
        rw [hn] at hf
        exact hf

theorem describeFrom_easy (k : Nat) (vs : List Region) (d : Describing) :
    (describeFrom (fun _ => ⟨0, 0⟩) k vs d).1 = 0 ∨
      (describeFrom (fun _ => ⟨0, 0⟩) k vs d).1 = -EAGAIN := by
  induction vs generalizing k d with
  | nil => exact .inl rfl
  | cons v vs ih =>
    simp only [Mr.describeFrom]
    split
    · exact describeIov_easy d v
    · exact ih _ _

theorem Carries.findBank (h : Carries m l) (hv : Volatile m)
    (hl : (referred l).length < m.attr.bankCount) (v : Region) :
    (findBank ⟨0, 0⟩ m v).1 = 0 := by
  simp only [Mr.findBank]
  cases hlk : lookup m v with
  | hit i => rfl
  | again =>
    have hle := h.again hv hlk
    omega
  | evict i => simp [register_easy]

theorem Carries.describeIov (h : Carries d.mgr (d.ctx :: l)) (hv : Volatile d.mgr)
    (hl : d.ctx.banks.length + (referred l).length < d.mgr.attr.bankCount) (v : Region) :
    (describeIov ⟨0, 0⟩ d v).1 = 0 := by
  have hf := h.findBank hv (by simpa [referred] using hl) v
  simp only [Mr.describeIov]
  split
  · rfl
  · split
    · rfl
    · split
      · rfl
      · next ret m hn =>
        rw [hn] at hf
        exact hf

theorem Carries.describeFrom (h : Carries d.mgr (d.ctx :: l)) (hv : Volatile d.mgr)
    (vs : List Region) (k : Nat)
    (hl : d.ctx.banks.length + vs.length + (referred l).length ≤ d.mgr.attr.bankCount) :
    (describeFrom (fun _ => ⟨0, 0⟩) k vs d).1 = 0 := by
  induction vs generalizing k d with
  | nil => rfl
  | cons v vs ih =>
    rw [List.length_cons] at hl
    have hz := h.describeIov hv (by omega) v
    have hb := describeIov_banks ⟨0, 0⟩ d v
    have ha := (describeIov_places ⟨0, 0⟩ d v).attr
    simp only [Mr.describeFrom, hz, ne_eq, not_true, if_false]
    exact ih (describeIov_carries h _ v) (hv.same (describeIov_flags _ _ v)) (k + 1)
      (by rw [ha]; omega)

theorem Carries.describe (h : Carries m l) (hv : Volatile m) {iov : List Region}
    (hi : iov.length ≤ 16) (hl : iov.length + (referred l).length ≤ m.attr.bankCount) :
    (describe (fun _ => ⟨0, 0⟩) m iov).ret = 0 ∧
      ∃ c, (describe (fun _ => ⟨0, 0⟩) m iov).handle = some c := by
  have hz := Carries.describeFrom (d := .start m) ((Carries.cons_iff rfl rfl).2 h) hv iov 0
    (by simpa [Describing.start] using hl)
  simp only [Mr.describe, hz, show ¬ 16 < iov.length by omega, ne_eq, not_true, if_false]
  exact ⟨trivial, _, rfl⟩

theorem Carries.findBank_within (h : Carries m l) (hv : Volatile m) {vs ws : List Region}
    (hl : (vs ++ v :: ws).length + (referred l).length ≤ m.attr.bankCount) :
    (Mr.findBank ⟨0, 0⟩ (Mr.describeFrom (fun _ => ⟨0, 0⟩) 0 vs (.start m)).2.mgr v).1 = 0 := by
  have hc := describeFrom_carries (d := .start m) (l := l) ((Carries.cons_iff rfl rfl).2 h)
    (fun _ => ⟨0, 0⟩) 0 vs
  have hb := describeFrom_banks (fun _ => ⟨0, 0⟩) 0 vs (.start m)
  have ha := (describeFrom_places (fun _ => ⟨0, 0⟩) 0 vs (.start m)).attr
  refine hc.findBank (hv.same (describeFrom_flags _ 0 vs _)) ?_ v
  rw [ha]
  simp only [referred, List.flatMap_cons, List.length_append, List.length_cons] at hl hb ⊢
  simp only [Describing.start, List.length_nil] at hb ⊢
  omega

end Supply

end OfiTransport.Mr
