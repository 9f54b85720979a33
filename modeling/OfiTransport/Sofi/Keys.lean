import OfiTransport.Sofi.Managed
import Mathlib.Data.List.Nodup

/-! The keys under which the SOFIs on a domain register their memory: a page of keys for each
offset, with a fixed place in it for each kind of buffer. -/

namespace OfiTransport.Sofi

open Lib

namespace Setup

/-- NN_SOFI_MRM_KEY_PAGE_SIZE times the offset, as an `int`. -/
def page (u : Setup) : Int := toInt32 (0x1000 * u.offset)

def auxKey (u : Setup) : Nat := toUInt64 (u.page + 0x0000)

def slabKey (u : Setup) : Nat := u.mrAttr.baseKey

def bankKey (u : Setup) (i : Nat) : Nat := toUInt64 (u.mrAttr.baseKey + i + 1)

def recvKey (u : Setup) (i : Nat) : Nat := toUInt64 (u.page + 0x0800 + i)

/-- All the keys a SOFI asks for.  Without a slab there is no slab registration. -/
def keys (u : Setup) : List Nat :=
  u.auxKey :: (if 0 < u.txQueue then [u.slabKey] else []) ++
    (List.range (2 * u.txQueue.toNat)).map u.bankKey ++ (List.range u.rxQueue.toNat).map u.recvKey

/-- The banks end before the receive buffers begin. -/
def Fits (u : Setup) : Prop := 0 < u.rxQueue → 2 + 2 * u.txQueue ≤ 0x0800

def extent (u : Setup) : Int :=
  if 0 < u.rxQueue then 0x0800 + u.rxQueue else if 0 < u.txQueue then 2 + 2 * u.txQueue else 1

/-- One of the SOFIs is done with its keys before the page of the other begins. -/
def Apart (u v : Setup) : Prop := u.page + u.extent ≤ v.page ∨ v.page + v.extent ≤ u.page

def Uses (u : Setup) (d : Int) : Prop :=
  d = 0 ∨ (0 < u.txQueue ∧ 1 ≤ d ∧ d < 2 + 2 * u.txQueue) ∨ (0x0800 ≤ d ∧ d < 0x0800 + u.rxQueue)

end Setup

section Arithmetic

theorem toUInt64_inj {a b : Int} (h : toUInt64 a = toUInt64 b) (h₁ : a - b < 2 ^ 64)
    (h₂ : b - a < 2 ^ 64) : a = b := by
  simp only [toUInt64] at h
  omega

theorem toUInt64_add (a b : Int) : toUInt64 (toUInt64 a + b) = toUInt64 (a + b) := by
  simp only [toUInt64]
  omega

theorem toInt32_bounds (n : Int) : -2 ^ 31 ≤ toInt32 n ∧ toInt32 n < 2 ^ 31 := by
  have h₁ := Int.le_bmod (x := n) (m := 2 ^ 32) (by decide)
  have h₂ := Int.bmod_lt (x := n) (m := 2 ^ 32) (by decide)
  simp only [toInt32]
  omega

theorem toInt32_eq {n : Int} (h₁ : -2 ^ 31 ≤ n) (h₂ : n < 2 ^ 31) : toInt32 n = n := by
  simp only [toInt32, Int.bmod_def]
  split <;> omega

theorem toInt32_dvd {a n : Int} (ha : a ∣ 2 ^ 32) (h : a ∣ n) : a ∣ toInt32 n := by
  have hd : toInt32 n = n - 2 ^ 32 * ((n - toInt32 n) / 2 ^ 32) := by
    have hm : (2 ^ 32 : Int) ∣ n - toInt32 n := by
      have := Int.dvd_self_sub_bmod (x := n) (m := 2 ^ 32)
      simpa [toInt32] using this
    omega
  rw [hd]
  exact Int.dvd_sub h (Int.dvd_mul_of_dvd_left ha)

end Arithmetic

section Places

variable {u v : Setup}

theorem Setup.page_bounds (u : Setup) : -2 ^ 31 ≤ u.page ∧ u.page < 2 ^ 31 := toInt32_bounds _

theorem Setup.page_dvd (u : Setup) : 0x1000 ∣ u.page :=
  toInt32_dvd (by decide) (Int.dvd_mul_right ..)

theorem Setup.queues_lt (u : Setup) : u.txQueue < 2 ^ 31 ∧ u.rxQueue < 2 ^ 31 :=
  ⟨queueSize_lt _ _, queueSize_lt _ _⟩

theorem Setup.Uses.bounds {d : Int} (h : u.Uses d) : 0 ≤ d ∧ d < 2 ^ 33 := by
  have := u.queues_lt
  simp only [Uses] at h
  omega

theorem Setup.bankKey_eq (u : Setup) (i : Nat) : u.bankKey i = toUInt64 (u.page + (2 + i)) := by
  have := toUInt64_add (u.page + 1) (i + 1)
  simp only [bankKey, mrAttr]
  rw [show (toUInt64 (toInt32 (0x1000 * u.offset) + 1) : Int) + i + 1 =
    toUInt64 (u.page + 1) + (i + 1) by rw [page]; omega, this]
  congr 1
  omega

theorem Setup.recvKey_eq (u : Setup) (i : Nat) :
    u.recvKey i = toUInt64 (u.page + (0x0800 + i)) := by
  rw [recvKey, Int.add_assoc]

def Setup.places (u : Setup) : List Int :=
  0 :: (if 0 < u.txQueue then [1] else []) ++
    (List.range (2 * u.txQueue.toNat)).map (fun i : Nat => 2 + (i : Int)) ++
    (List.range u.rxQueue.toNat).map (fun i : Nat => 0x0800 + (i : Int))

theorem Setup.keys_eq (u : Setup) : u.keys = u.places.map (fun d => toUInt64 (u.page + d)) := by
  have hbank : u.bankKey = fun i : Nat => toUInt64 (u.page + (2 + i)) := funext u.bankKey_eq
  have hrecv : u.recvKey = fun i : Nat => toUInt64 (u.page + (0x0800 + i)) :=
    funext u.recvKey_eq
  simp only [keys, places, hbank, hrecv, List.map_append, List.map_cons, List.map_map]
  split <;> rfl

theorem Setup.mem_places {d : Int} : d ∈ u.places ↔ u.Uses d := by
  simp only [places, Uses, List.cons_append, List.mem_cons, List.mem_append, List.mem_map,
    List.mem_range]
  constructor
  · rintro (rfl | (hd | ⟨i, hi, rfl⟩) | ⟨i, hi, rfl⟩)
    · exact .inl rfl
    · split at hd
      · next ht =>
        rw [List.mem_singleton.1 hd]
        omega
      · cases hd
    · omega
    · omega
  · rintro (rfl | hd | hd)
    · exact .inl rfl
    · by_cases h₁ : d = 1
      · exact .inr (.inl (.inl (by simp [hd.1, h₁])))
      · exact .inr (.inl (.inr ⟨(d - 2).toNat, by omega, by omega⟩))
    · exact .inr (.inr ⟨(d - 0x0800).toNat, by omega, by omega⟩)

theorem Setup.mem_keys {k : Nat} :
    k ∈ u.keys ↔ ∃ d, u.Uses d ∧ k = toUInt64 (u.page + d) := by
  simp only [keys_eq, List.mem_map, mem_places, eq_comm]

theorem Setup.Uses.key_inj {d d' : Int} (h : u.Uses d) (h' : v.Uses d')
    (hk : toUInt64 (u.page + d) = toUInt64 (v.page + d')) : u.page + d = v.page + d' := by
  have hu := u.page_bounds
  have hv := v.page_bounds
  have hd := h.bounds
  have hd' := h'.bounds
  exact toUInt64_inj hk (by omega) (by omega)

theorem Setup.Uses.lt_extent {d : Int} (h : u.Uses d) (hf : u.Fits) : d < u.extent := by
  simp only [Uses, Fits, extent] at *
  split
  · omega
  · split <;> omega

theorem Setup.places_nodup_iff : u.places.Nodup ↔ u.Fits := by
  have hbanks : ((List.range (2 * u.txQueue.toNat)).map (fun i : Nat => 2 + (i : Int))).Nodup :=
    List.nodup_range.map (fun i j h => by omega)
  have hrecvs : ((List.range u.rxQueue.toNat).map (fun i : Nat => 0x0800 + (i : Int))).Nodup :=
    List.nodup_range.map (fun i j h => by omega)
  simp only [places, List.nodup_append, hbanks, hrecvs, List.mem_map, List.mem_range,
    List.mem_append, true_and]
  constructor
  · intro hn hrx
    by_contra hfit
    exact hn.2 0x0800 (.inr ⟨0x07fe, by omega, by omega⟩) 0x0800 ⟨0, by omega, by omega⟩ rfl
  · intro hfit
    have hfront : ∀ d ∈ (0 : Int) :: (if 0 < u.txQueue then [1] else []), d = 0 ∨ d = 1 := by
      intro d hd
      split at hd
      · simpa using hd
      · exact .inl (List.mem_singleton.1 hd)
    refine ⟨⟨by split <;> simp, ?_⟩, ?_⟩
    · rintro d hd d' ⟨i, _, rfl⟩
      have := hfront d hd
      omega
    · simp only [Fits] at hfit
      rintro d (hd | ⟨i, hi, rfl⟩) d' ⟨j, hj, rfl⟩
      · have := hfront d hd
        omega
      · omega

theorem Setup.keys_nodup_iff : u.keys.Nodup ↔ u.Fits := by
  rw [keys_eq, ← places_nodup_iff]
  refine ⟨List.Nodup.of_map _, List.Nodup.map_on fun d hd d' hd' hk => ?_⟩
  have hinj := (mem_places.1 hd).key_inj (mem_places.1 hd') hk
  omega

theorem Setup.uses_of_lt_extent {d : Int} (h₀ : 0 ≤ d) (hd : 0x1000 ∣ d) (hlt : d < u.extent) :
    u.Uses d := by
  simp only [extent] at hlt
  simp only [Uses]
  split at hlt
  · omega
  · split at hlt <;> omega

theorem Setup.meet_of_le (hle : u.page ≤ v.page) (h : v.page < u.page + u.extent) :
    ∃ k ∈ u.keys, k ∈ v.keys := by
  have hd : u.Uses (v.page - u.page) :=
    uses_of_lt_extent (by omega) (Int.dvd_sub v.page_dvd u.page_dvd) (by omega)
  refine ⟨v.auxKey, mem_keys.2 ⟨_, hd, ?_⟩, List.mem_cons_self⟩
  rw [auxKey]
  congr 1
  omega

theorem Setup.keys_disjoint_iff (hu : u.Fits) (hv : v.Fits) :
    List.Disjoint u.keys v.keys ↔ Apart u v := by
  constructor
  · intro hd
    by_contra hn
    simp only [Apart, not_or, Int.not_le] at hn
    rcases Int.le_total u.page v.page with hle | hle
    · obtain ⟨k, hk, hk'⟩ := meet_of_le hle hn.1
      exact hd hk hk'
    · obtain ⟨k, hk, hk'⟩ := meet_of_le hle hn.2
      exact hd hk' hk
  · intro ha k hk hk'
    obtain ⟨d, hd, rfl⟩ := mem_keys.1 hk
    obtain ⟨d', hd', he⟩ := mem_keys.1 hk'
    have heq := hd.key_inj hd' he
    have h₁ := hd.lt_extent hu
    have h₂ := hd'.lt_extent hv
    have h₃ := hd.bounds
    have h₄ := hd'.bounds
    rcases ha with ha | ha <;> omega

/-- With at most 1023 contexts and 2048 buffers each, and no overflow, the offsets do it. -/
theorem Setup.apart_of_small (ho : u.offset ≠ v.offset)
    (hu : 0 ≤ u.offset ∧ u.offset < 2 ^ 19 ∧ u.txQueue ≤ 1023 ∧ u.rxQueue ≤ 2048)
    (hv : 0 ≤ v.offset ∧ v.offset < 2 ^ 19 ∧ v.txQueue ≤ 1023 ∧ v.rxQueue ≤ 2048) :
    Apart u v := by
  have hpage : ∀ w : Setup, 0 ≤ w.offset → w.offset < 2 ^ 19 → w.page = 0x1000 * w.offset :=
    fun w h₁ h₂ => toInt32_eq (by omega) (by omega)
  have hextent : ∀ w : Setup, w.txQueue ≤ 1023 → w.rxQueue ≤ 2048 → w.extent ≤ 0x1000 := by
    intro w h₁ h₂
    simp only [extent]
    split
    · omega
    · split <;> omega
  have h₁ := hextent u hu.2.2.1 hu.2.2.2
  have h₂ := hextent v hv.2.2.1 hv.2.2.2
  rw [Apart, hpage u hu.1 hu.2.1, hpage v hv.1 hv.2.1]
  omega

end Places

section Requests

def Keyed (u : Setup) (m : Mr.Manager) : Prop :=
  m.attr = u.mrAttr ∧
    ∀ id g, m.domain.regs id = some g → u.domain.regs id = some g ∨ g.key ∈ u.keys

variable {u : Setup} {m m' : Mr.Manager}

theorem Setup.bankCount_eq (h : 1 ≤ u.txQueue) : u.mrAttr.bankCount = 2 * u.txQueue.toNat := by
  have hq := u.queues_lt
  simp only [mrAttr, toUInt64]
  omega

theorem Keyed.grows (hk : Keyed u m) (h₁ : 1 ≤ u.txQueue) (h : Mr.Grows m m') : Keyed u m' := by
  obtain ⟨ha, hr⟩ := hk
  refine ⟨h.attr.trans ha, fun id g hg => ?_⟩
  rcases h.regs id g hg with hg | ⟨_, i, hi, hk⟩
  · exact hr id g hg
  · rw [ha, Setup.bankCount_eq h₁] at hi
    rw [ha] at hk
    refine .inr (List.mem_append_left _ (List.mem_append_right _ (List.mem_map.2 ?_)))
    exact ⟨i, List.mem_range.2 hi, hk.symm⟩

theorem Setup.started_keyed (h₁ : 1 ≤ u.txQueue) : Keyed u u.started.egress.mrm := by
  have ht : 0 < u.txQueue := h₁
  simp only [started, sofi, Mr.init]
  split
  · exact ⟨rfl, fun _ _ => .inl⟩
  · split
    · exact ⟨rfl, fun _ _ => .inl⟩
    · refine ⟨rfl, fun id g hg => ?_⟩
      simp only [Mr.Domain.mrReg_regs] at hg
      split at hg
      · cases hg
        refine .inr (List.mem_append_left _ (List.mem_append_left _ (List.mem_cons_of_mem _ ?_)))
        rw [if_pos ht]
        exact List.mem_singleton_self _
      · exact .inl hg

/-- Everything the manager of a SOFI has registered, in any run, has a key of that SOFI. -/
theorem reachable_keyed {s : Sofi} (h : machine.Reachable s) :
    ∃ u : Setup, 1 ≤ u.rxQueue ∧ u.rxQueue ≤ u.txQueue ∧ Keyed u s.egress.mrm := by
  refine (h.invariant (I := fun s => Phase s ∧ ∃ u : Setup, 1 ≤ u.rxQueue ∧
    u.rxQueue ≤ u.txQueue ∧ Keyed u s.egress.mrm) ?_ ?_).2
  · intro s hi
    obtain ⟨u, h₁, h₂, rfl⟩ := machine_init hi
    exact ⟨u.started_phase, u, h₁, h₂, Setup.started_keyed (Int.le_trans h₁ h₂)⟩
  · rintro s e s' ⟨hp, u, h₁, h₂, hk⟩ he h
    have hm := step_moves hp he h
    exact ⟨hm.phase hp, u, h₁, h₂, hk.grows (Int.le_trans h₁ h₂) hm.worked.grows⟩

end Requests

/-- The keys of the SOFIs on a domain are all different exactly when in each the banks end
before the receive buffers, and no SOFI reaches into the page of another. -/
theorem keys_distinct_iff (us : List Setup) :
    (us.flatMap Setup.keys).Nodup ↔ (∀ u ∈ us, u.Fits) ∧ us.Pairwise Setup.Apart := by
  rw [List.nodup_flatMap]
  simp only [Setup.keys_nodup_iff]
  refine and_congr_right ?_
  intro hf
  refine List.Pairwise.iff_of_mem ?_
  intro u v hu hv
  exact Setup.keys_disjoint_iff (hf u hu) (hf v hv)

/-- A SOFI with 1024 TX contexts registers a bank under the key of its first receive buffer,
and the pages of the offsets 0 and 2 ^ 20 are one. -/
theorem keys_collide :
    (let o := Options.default.setopt .txQueueSize 1024
      let u := { Setup.easy o.2 with txSize := 1024 }
      o.1 = 0 ∧ (∃ s, init u = .ok (0, some s)) ∧ ¬ ([u].flatMap Setup.keys).Nodup) ∧
    let u := Setup.easy .default
    let v := { Setup.easy .default with offset := 2 ^ 20 }
    u.offset ≠ v.offset ∧ ¬ ([u, v].flatMap Setup.keys).Nodup := by
  refine ⟨⟨rfl, ⟨_, init_eq (by decide) (by decide)⟩, ?_⟩, by decide, ?_⟩
  · rw [List.flatMap_singleton, Setup.keys_nodup_iff]
    intro hf
    exact absurd (hf (by decide)) (by decide)
  · intro hn
    rw [List.nodup_flatMap] at hn
    have hd := List.rel_of_pairwise_cons hn.2 (List.mem_singleton_self _)
    exact hd (a := 0) (by decide) (by decide)

end OfiTransport.Sofi
