import OfiTransport.Bofi.Defs
import Mathlib.Data.List.Nodup
import Mathlib.Data.List.Basic

/-! The offsets handed out to accepted SOFIs, on which their memory registration keys are
built. -/

namespace OfiTransport.Bofi

open Lib

def live (b : Bofi) : List Nat := b.sofis.map (·.offset)

structure OffsetsUnique (b : Bofi) : Prop where
  nodup : b.live.Nodup
  marked : ∀ o ∈ b.live, b.sofiOffsets[o]? = some true

/-- A connection that gets accepted finds a free slot in the table. -/
def FreeSlot (b : Bofi) : Event → Prop
  | .connreq r => r.init = 0 → r.accept = 0 → false ∈ b.sofiOffsets
  | _ => True

section Allocator

theorem newSofiOffset_of_free {b : Bofi} (h : false ∈ b.sofiOffsets) :
    ∃ i, b.sofiOffsets[i]? = some false ∧
      b.newSofiOffset = (i, { b with sofiOffsets := b.sofiOffsets.set i true }) := by
  have hi : b.sofiOffsets.findIdx (fun used => !used) < b.sofiOffsets.length :=
    List.findIdx_lt_length_of_exists ⟨false, h, rfl⟩
  refine ⟨b.sofiOffsets.findIdx (fun used => !used), ?_, by simp [newSofiOffset, hi]⟩
  have hf := List.findIdx_getElem (w := hi)
  rw [List.getElem?_eq_getElem hi]
  simpa using hf

theorem newSofiOffset_of_full {b : Bofi} (h : false ∉ b.sofiOffsets) :
    b.newSofiOffset = (b.sofiOffsets.length,
      { b with sofiOffsets := b.sofiOffsets ++ List.replicate 64 false }) := by
  have hi : ¬ b.sofiOffsets.findIdx (fun used => !used) < b.sofiOffsets.length := by
    intro hlt
    have hf := List.findIdx_getElem (w := hlt)
    have hmem := List.getElem_mem hlt
    simp only [Bool.not_eq_eq_eq_not, Bool.not_true] at hf
    exact h (hf ▸ hmem)
  simp [newSofiOffset, hi]

theorem newSofiOffset_fresh {b : Bofi} (h : OffsetsUnique b) : b.newSofiOffset.1 ∉ b.live := by
  intro hl
  have hm := h.marked _ hl
  by_cases hf : false ∈ b.sofiOffsets
  · obtain ⟨i, hi, he⟩ := newSofiOffset_of_free hf
    rw [he] at hm
    simp [hi] at hm
  · rw [newSofiOffset_of_full hf] at hm
    simp at hm

theorem newSofiOffset_marked {b : Bofi} {o : Nat} (h : b.sofiOffsets[o]? = some true) :
    b.newSofiOffset.2.sofiOffsets[o]? = some true := by
  by_cases hf : false ∈ b.sofiOffsets
  · obtain ⟨i, hi, he⟩ := newSofiOffset_of_free hf
    have hne : i ≠ o := by
      rintro rfl
      simp [hi] at h
    rw [he]
    simpa [hne] using h
  · rw [newSofiOffset_of_full hf]
    rw [List.getElem?_append_left]
    · exact h
    · exact (List.getElem?_eq_some_iff.1 h).1

theorem newSofiOffset_marks_iff (b : Bofi) :
    b.newSofiOffset.2.sofiOffsets[b.newSofiOffset.1]? = some true ↔ false ∈ b.sofiOffsets := by
  by_cases hf : false ∈ b.sofiOffsets
  · obtain ⟨i, hi, he⟩ := newSofiOffset_of_free hf
    rw [he]
    simp [hf, (List.getElem?_eq_some_iff.1 hi).1]
  · rw [newSofiOffset_of_full hf]
    simp [hf]

@[simp] theorem newSofiOffset_live (b : Bofi) : b.newSofiOffset.2.live = b.live := by
  by_cases hf : false ∈ b.sofiOffsets
  · obtain ⟨i, _, he⟩ := newSofiOffset_of_free hf
    rw [he]
    rfl
  · rw [newSofiOffset_of_full hf]
    rfl

theorem newSofiOffset_unique {b : Bofi} (h : OffsetsUnique b) :
    OffsetsUnique b.newSofiOffset.2 where
  nodup := by simpa using h.nodup
  marked := by
    intro o ho
    rw [newSofiOffset_live] at ho
    exact newSofiOffset_marked (h.marked o ho)

end Allocator

section Frame

structure SameOffsets (b b' : Bofi) : Prop where
  live : b'.live = b.live
  table : b'.sofiOffsets = b.sofiOffsets

theorem SameOffsets.trans {a b c : Bofi} (h : SameOffsets a b) (h' : SameOffsets b c) :
    SameOffsets a c := ⟨h'.live.trans h.live, h'.table.trans h.table⟩

theorem SameOffsets.unique_iff {b b' : Bofi} (h : SameOffsets b b') :
    OffsetsUnique b' ↔ OffsetsUnique b := by
  constructor
  · intro hu
    exact ⟨h.live ▸ hu.nodup, h.table ▸ h.live ▸ hu.marked⟩
  · intro hu
    exact ⟨h.live.symm ▸ hu.nodup, h.table.symm ▸ h.live.symm ▸ hu.marked⟩

theorem passiveEndpointClose_same {b b' : Bofi} (h : b.passiveEndpointClose = .ok b') :
    SameOffsets b b' := by
  simp only [passiveEndpointClose] at h
  split at h
  · cases h
  · split at h
    · cases h
      exact ⟨rfl, rfl⟩
    · cases h

theorem cmReject_eq {b b' : Bofi} {readable : Bool} (h : b.cmReject readable = .ok b') :
    b' = b := by
  simp only [cmReject] at h
  split at h
  · cases h
  · split at h
    · cases h
    · split at h <;> cases h
      rfl

theorem startAccepting_same (l : Listen) (b : Bofi) : SameOffsets b (b.startAccepting l).2 := by
  simp only [startAccepting, passiveEndpointOpen]
  repeat' split
  all_goals exact ⟨rfl, rfl⟩

theorem shutdownWait_same (b : Bofi) : SameOffsets b b.shutdownWait := by
  simp only [shutdownWait]
  split <;> exact ⟨rfl, rfl⟩

@[simp] theorem Child.stop_offset (s : Child) : s.stop.offset = s.offset := by
  simp only [Child.stop]
  split <;> rfl

@[simp] theorem Child.ends_offset (s c : Child) : (s.ends c).offset = c.offset := by
  simp only [Child.ends]
  split
  · next h => exact h ▸ rfl
  · rfl

theorem shutdown_stop_same {b b' : Bofi} (h : b.shutdown .stop = .ok b') : SameOffsets b b' := by
  simp only [shutdown, bind_eq_ok] at h
  obtain ⟨b₁, hc, h⟩ := h
  cases h
  have h₁ : SameOffsets b b₁ := by
    have := passiveEndpointClose_same hc
    exact ⟨this.live, this.table⟩
  have h₂ : SameOffsets b₁ { b₁ with sofis := b₁.sofis.map Child.stop } := ⟨by simp [live], rfl⟩
  exact h₁.trans (h₂.trans (shutdownWait_same _))

theorem fsmStop_same {b b' : Bofi} (h : b.fsmStop = .ok b') : SameOffsets b b' := by
  simp only [fsmStop] at h
  split at h
  · have := shutdown_stop_same h
    exact ⟨this.live, this.table⟩
  · cases h
    exact ⟨rfl, rfl⟩

theorem listenAgain_same {l : Listen} {b b' : Bofi} (h : b.listenAgain l = .ok b') :
    SameOffsets b b' := by
  simp only [listenAgain] at h
  have hs := startAccepting_same l b
  split at h
  · exact hs.trans (fsmStop_same h)
  · cases h
    exact hs

end Frame

section Steps

theorem reapSofi_unique {b b' : Bofi} {s : Child} (h : OffsetsUnique b)
    (hr : b.reapSofi s = .ok b') : OffsetsUnique b' := by
  simp only [reapSofi, freeSofiOffset, bind_eq_ok] at hr
  obtain ⟨b₁, ⟨_, _, h₁⟩, hr⟩ := hr
  cases h₁
  split at hr
  · next hs =>
    cases hr
    have hd : b.sofis.Nodup := List.Nodup.of_map _ h.nodup
    have hlive : ∀ o ∈ (b.sofis.erase s).map (·.offset), o ∈ b.live ∧ o ≠ s.offset := by
      intro o ho
      obtain ⟨c, hc, rfl⟩ := List.mem_map.1 ho
      rw [hd.mem_erase_iff] at hc
      refine ⟨List.mem_map_of_mem hc.2, ?_⟩
      intro he
      exact hc.1 (List.inj_on_of_nodup_map h.nodup hc.2 hs he)
    refine ⟨?_, ?_⟩
    · exact h.nodup.sublist (List.Sublist.map _ List.erase_sublist)
    · intro o ho
      obtain ⟨hl, hne⟩ := hlive o ho
      simpa [Ne.symm hne] using h.marked o hl
  · cases hr

theorem handleConnreq_unique_iff {b b' : Bofi} {r : Request} (h : OffsetsUnique b)
    (hr : b.handleConnreq r = .ok b') :
    OffsetsUnique b' ↔ (r.init = 0 → r.accept = 0 → false ∈ b.sofiOffsets) := by
  have hu := newSofiOffset_unique h
  simp only [handleConnreq] at hr
  split at hr
  · next hi =>
    rw [bind_eq_ok] at hr
    obtain ⟨b₁, h₁, hr⟩ := hr
    have hu₁ : OffsetsUnique b₁ := by
      refine reapSofi_unique ?_ h₁
      exact ⟨hu.nodup, hu.marked⟩
    exact ⟨fun _ h0 => absurd h0 hi, fun _ => (fsmStop_same hr).unique_iff.2 hu₁⟩
  · split at hr
    · next ha =>
      simp only [bind_eq_ok] at hr
      obtain ⟨b₁, h₁, b₂, h₂, hr⟩ := hr
      rw [cmReject_eq h₁] at h₂
      have hs := (passiveEndpointClose_same h₂).trans (listenAgain_same hr)
      exact ⟨fun _ _ h0 => absurd h0 ha, fun _ => hs.unique_iff.2 ⟨hu.nodup, hu.marked⟩⟩
    · next hi ha =>
      rw [bind_eq_ok] at hr
      obtain ⟨b₁, h₁, hr⟩ := hr
      have hs := passiveEndpointClose_same h₁
      rw [(listenAgain_same hr).unique_iff]
      have hlive : b₁.live = b.live := hs.live.trans (newSofiOffset_live b)
      have htable : b₁.sofiOffsets = b.newSofiOffset.2.sofiOffsets := hs.table
      simp only [not_not] at hi ha
      simp only [hi, ha, forall_const, ← newSofiOffset_marks_iff b]
      constructor
      · intro hb
        have := hb.marked b.newSofiOffset.1 (by simp [live])
        simpa [htable] using this
      · intro hm
        refine ⟨?_, ?_⟩
        · have hn := newSofiOffset_fresh h
          rw [← hlive] at hn
          have hd : b₁.live.Nodup := hlive ▸ h.nodup
          simp only [live, List.map_append, List.map_cons, List.map_nil] at hn hd ⊢
          exact List.Nodup.append hd (List.nodup_singleton _) (by simpa using hn)
        · intro o ho
          simp only [live, List.map_append, List.map_cons, List.map_nil, List.mem_append,
            List.mem_singleton] at ho
          rw [show b₁.sofis.map (·.offset) = b.live from hlive] at ho
          rcases ho with ho | rfl
          · exact htable ▸ newSofiOffset_marked (h.marked o ho)
          · exact htable ▸ hm

theorem step_unique_iff {b b' : Bofi} {e : Event} (h : OffsetsUnique b)
    (hs : b.step e = .ok b') : OffsetsUnique b' ↔ b.FreeSlot e := by
  cases e with
  | userStop => simpa [FreeSlot, (fsmStop_same hs).unique_iff] using h
  | sofiEnds s =>
    cases hs
    have hsame : SameOffsets b { b with sofis := b.sofis.map s.ends } := ⟨by simp [live], rfl⟩
    simpa [FreeSlot, hsame.unique_iff] using h
  | sofiStopped s =>
    simp only [FreeSlot, iff_true]
    simp only [step, feed] at hs
    split at hs
    · simp only [shutdown, bind_eq_ok] at hs
      obtain ⟨b₁, h₁, hs⟩ := hs
      cases hs
      exact (shutdownWait_same b₁).unique_iff.2 (reapSofi_unique h h₁)
    · cases hst : b.state with
      | active => exact reapSofi_unique h (by simpa [handler, hst] using hs)
      | idle | stopping => simp [handler, hst] at hs
  | connreq r =>
    simp only [step, feed] at hs
    split at hs
    · cases hs
    · cases hst : b.state with
      | active => exact handleConnreq_unique_iff h (by simpa [handler, hst] using hs)
      | idle | stopping => simp [handler, hst] at hs
  | eq type =>
    simp only [step, feed] at hs
    split at hs
    · cases hs
    · cases hst : b.state <;> simp [handler, hst] at hs

theorem create_unique {l : Listen} {b : Bofi} (h : create l = .ok b) : OffsetsUnique b := by
  simp only [create, handler, bind_eq_ok] at h
  obtain ⟨b₁, h₁, h⟩ := h
  cases h
  have hs := listenAgain_same h₁
  have : OffsetsUnique b₁ := hs.unique_iff.2 ⟨List.nodup_nil, by simp [live]⟩
  exact ⟨this.nodup, this.marked⟩

end Steps

/-- Live SOFIs keep distinct, marked offsets all along a run exactly when no connection is
accepted while the table is full, and then no offset is handed out twice. -/
theorem always_offsetsUnique_iff {h : List (Bofi × Event)} {b : Bofi}
    (r : machine.Run h b) :
    (Machine.Always OffsetsUnique h b ↔ Machine.Guarded FreeSlot h) ∧
      (Machine.Guarded FreeSlot h → b.newSofiOffset.1 ∉ b.live) := by
  have hiff : Machine.Always OffsetsUnique h b ↔ Machine.Guarded FreeSlot h := by
    refine r.always_iff_guarded (I := fun _ => True) ?_ (fun _ _ _ _ _ _ => trivial) ?_
    · rintro b ⟨l, hb⟩
      exact ⟨trivial, create_unique hb⟩
    · intro b e b' _ hu _ hs
      exact step_unique_iff hu hs
  refine ⟨hiff, ?_⟩
  intro hg
  exact newSofiOffset_fresh (hiff.2 hg).1

def listening : Listen := ⟨0, 0, 0, 0⟩

def accepted : Request := ⟨0, 0, true, listening⟩

def fresh : Bofi :=
  ⟨.active, .active, some 0, [0], 1, List.replicate 64 false, [], 0, true, 0⟩

theorem fresh_init : machine.init fresh := ⟨listening, rfl⟩

/-- The second of three SOFIs is reaped, and a fourth one gets its offset. -/
def reaping : List Event :=
  [.connreq accepted, .connreq accepted, .connreq accepted, .sofiEnds ⟨1, 1, .active, false⟩,
    .sofiStopped ⟨1, 1, .idle, true⟩, .connreq accepted]

theorem reaped_offsetsUnique : ∃ (h : List (Bofi × Event)) (b : Bofi), machine.Run h b ∧
    b.live = [0, 2, 1] ∧ Machine.Always OffsetsUnique h b ∧ b.newSofiOffset.1 ∉ b.live := by
  obtain ⟨h, b, r, hg, hl⟩ := Machine.exists_guarded (M := machine) (C := FreeSlot)
    (c := fun b _ => false ∈ b.sofiOffsets) reaping
    (fun b => b.live = [0, 2, 1]) (fun b e hf => by
      cases e with
      | connreq r => exact fun _ _ => of_decide_eq_true hf
      | _ => trivial) fresh_init (by decide)
  obtain ⟨hiff, hnew⟩ := always_offsetsUnique_iff r
  exact ⟨h, b, r, of_decide_eq_true hl, hiff.2 hg, hnew hg⟩

/-- With 66 connections accepted, two live SOFIs hold the offset 64. -/
theorem offsets_collide :
    ∃ b, machine.Reachable b ∧ ¬ OffsetsUnique b ∧ b.live.count 64 = 2 := by
  obtain ⟨b, hr, hb⟩ := Machine.exists_reachable (M := machine) (s := fresh)
    (List.replicate 66 (.connreq accepted)) (fun b => b.live.count 64 = 2)
    fresh_init (by decide +kernel)
  simp only [decide_eq_true_eq] at hb
  refine ⟨b, hr, ?_, hb⟩
  intro hu
  have := List.nodup_iff_count_le_one.1 hu.nodup 64
  omega

end OfiTransport.Bofi
