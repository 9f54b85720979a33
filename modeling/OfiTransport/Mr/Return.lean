import OfiTransport.Mr.Purge
import OfiTransport.Lib.Stock

/-! What a manager has of the registrations of its domain, and what of them is still there when
it was terminated. -/

namespace OfiTransport.Mr

open Lib

def Domain.stock (d : Domain) : Stock where
  there id := (d.regs id).isSome = true
  next := d.nextMr
  fresh id h := by
    by_contra hn
    rw [d.fresh id (by omega)] at h
    cases h

def Domain.close (d : Domain) (id : Nat) (ret : Int) : Domain := if ret = 0 then d.mrClose id else d

def Manager.Registered (m : Manager) (id : Nat) : Prop :=
  ∃ i < m.attr.bankCount, (m.banks i).registered = true ∧ (m.banks i).mr = some id

def Manager.Recorded (m : Manager) (id : Nat) : Prop :=
  ∃ i, (m.banks i).registered = true ∧ (m.banks i).mr = some id

def Confined (m : Manager) : Prop := ∀ i, (m.banks i).registered = true → i < m.attr.bankCount

section Domains

variable {d : Domain}

theorem Domain.reg_works (d : Domain) (g : Registration) :
    d.stock.Works (d.mrReg g).2.stock (fun _ => False) (fun x => x = d.nextMr) fun _ => False where
  next := Nat.le_succ _
  others x hx _ := by
    have hne : x ≠ d.nextMr := Nat.ne_of_lt hx
    simp [stock, hne]
  mine x hx := by
    have hx : d.nextMr ≤ x := hx.resolve_left id
    by_cases he : x = d.nextMr
    · simp [stock, he]
    · simp [stock, he, d.fresh x hx]
  had x hx := .inr (Nat.le_of_eq (hx.resolve_right id).symm)
  apart _ _ := id

theorem Domain.close_works {id : Nat} (ret : Int) (h : (d.regs id).isSome = true) :
    d.stock.Works (d.close id ret).stock (fun x => x = id) (fun _ => False)
      fun x => x = id ∧ ret ≠ 0 := by
  have hlt : id < d.nextMr := d.stock.fresh id h
  by_cases hr : ret = 0
  · simp only [close, hr, if_true]
    refine ⟨Nat.le_refl _, fun x _ hx => ?_, fun x hx => ?_, ?_, ?_⟩
    · simp [stock, hx]
    · rcases hx with hx | hx
      · simp [stock, hx]
      · simp [stock, d.fresh x hx]
    · simp
    · simp
  · simp only [close, hr, if_false]
    refine ⟨Nat.le_refl _, fun _ _ _ => Iff.rfl, fun x hx => ?_, fun x hx => ?_,
      fun _ => False.elim⟩
    · rcases hx with rfl | hx
      · simp [stock, h, hr]
      · have hne : x ≠ id := fun he => Nat.not_le_of_lt hlt (he ▸ hx)
        simp [stock, d.fresh x hx, hne]
    · exact .inl (hx.resolve_left not_false).1

end Domains

section Banks

variable {m m' m'' : Manager} {i : Nat}

theorem Confined.same (h : SameBanks m m') (hm : Confined m) : Confined m' := by
  intro i hi
  rw [h.registered] at hi
  rw [h.attr]
  exact hm i hi

theorem Confined.touch (h : Confined m) (ha : m'.attr = m.attr)
    (hb : ∀ k, k ≠ i → m'.banks k = m.banks k)
    (hi : (m'.banks i).registered = true → i < m.attr.bankCount) : Confined m' := by
  intro k hk
  rw [ha]
  by_cases hki : k = i
  · subst hki
    exact hi hk
  · rw [hb k hki] at hk
    exact h k hk

theorem unregister_confined (close : Int) (h : Confined m) (i : Nat) :
    Confined (unregister close m i).2 := by
  refine h.touch (unregister_grows close m i).attr (unregister_elsewhere close m i).2 fun hi => ?_
  refine h i ?_
  by_contra hr
  rw [unregister_idle (by simpa using hr)] at hi
  exact hr hi

theorem register_confined (a : Answers) (h : Confined m) (hi : i < m.attr.bankCount) :
    Confined (register a m i).2 :=
  h.touch (register_grows hi a).attr (register_elsewhere a m i) fun _ => hi

theorem modifyBank_confined (h : Confined m) (i : Nat) {f : Bank → Bank}
    (hf : (f (m.banks i)).registered = true → (m.banks i).registered = true) :
    Confined (m.modifyBank i f) := by
  refine h.touch rfl (fun k hk => by simp [hk]) fun hi => h i (hf ?_)
  simpa using hi

theorem mark_confined (a : Answers) (h : Confined m) (v : Region) : Confined (mark a m v).2 := by
  simp only [mark]
  cases hf : getFreeBank m with
  | none => exact h
  | some i =>
    have hi : i < m.attr.bankCount := List.mem_range.1 (List.mem_of_find?_eq_some hf)
    exact register_confined a (modifyBank_confined h i (by simp)) hi

theorem invalidateFrom_confined (close : Nat → Int) (v : Region) (is : List Nat)
    (h : Confined m) : Confined (invalidateFrom close v is m).2 := by
  induction is generalizing m with
  | nil => exact h
  | cons i is ih =>
    simp only [invalidateFrom]
    split
    · split
      · exact h
      · exact ih (modifyBank_confined (unregister_confined (close i) h i) i id)
    · exact ih h

theorem findBank_confined (a : Answers) (h : Confined m) (v : Region) :
    Confined (findBank a m v).2.1 := by
  simp only [findBank]
  cases hl : lookup m v with
  | hit i => exact h
  | again => exact h
  | evict i =>
    have hr := register_confined a
      (modifyBank_confined h i (f := fun b => { b with base := v.base, len := v.len }) id)
      (show i < m.attr.bankCount from lookup_evict hl)
    simp only
    split <;> exact hr

theorem describeIov_confined (a : Answers) {d : Describing} (h : Confined d.mgr) (v : Region) :
    Confined (describeIov a d v).2.mgr := by
  simp only [describeIov]
  split
  · exact h
  · split
    · next _ m j ht =>
      have hs := h.same (tryslab_same d.mgr v)
      rw [ht] at hs
      exact hs
    · have hs := findBank_confined a h v
      split
      · next _ m i he =>
        rw [he] at hs
        exact hs.same (reference_same m i)
      · next _ m he =>
        rw [he] at hs
        exact hs

theorem describeFrom_confined (a : Nat → Answers) (k : Nat) (vs : List Region) {d : Describing}
    (h : Confined d.mgr) : Confined (describeFrom a k vs d).2.mgr := by
  induction vs generalizing k d with
  | nil => exact h
  | cons v vs ih =>
    simp only [describeFrom]
    split
    · exact describeIov_confined (a k) h v
    · exact ih (k + 1) (describeIov_confined (a k) h v)

theorem step_confined {s s' : System} {e : Event} (h : Confined s.mgr) (hs : step s e = .ok s') :
    Confined s'.mgr := by
  cases e with
  | mark v a =>
    cases hs
    exact mark_confined a h v
  | invalidate v close =>
    cases hs
    exact invalidateFrom_confined close v _ h
  | describe iov a =>
    cases hs
    simp only [describe]
    split
    · exact h
    · have hf := describeFrom_confined a 0 iov (d := .start s.mgr) h
      split
      · exact hf.same (release_same _ _)
      · exact hf
  | release c =>
    cases hs
    exact h.same (release_same _ _)

theorem init_confined (attr : Attr) (domain : Domain) (slabMem : Nat) (reg : Int) :
    Confined (init attr domain slabMem reg).2 := by
  intro i hi
  simp only [init] at hi
  split at hi
  · cases hi
  · split at hi <;> cases hi

theorem Confined.registered (h : Confined m) : m.Registered = m.Recorded := by
  funext id
  refine propext ⟨?_, ?_⟩
  · rintro ⟨i, _, hi⟩
    exact ⟨i, hi⟩
  · rintro ⟨i, hi⟩
    exact ⟨i, h i hi.1, hi⟩

end Banks

section Turning

variable {m m' : Manager} {i : Nat}

theorem Tracked.recorded (h : Tracked m) {id : Nat} (hid : m.Recorded id) :
    m.domain.stock.there id := by
  obtain ⟨i, hi, hm⟩ := hid
  obtain ⟨id', g, hm', hg⟩ := h.live i hi
  rw [hm, Option.some.injEq] at hm'
  rw [hm']
  simp [Domain.stock, hg]

theorem Tracked.still (h : Tracked m) (hd : m'.domain.stock = m.domain.stock)
    (hr : ∀ k, (m'.banks k).registered = (m.banks k).registered)
    (hm : ∀ k, (m'.banks k).mr = (m.banks k).mr) :
    m.domain.stock.Works m'.domain.stock m.Recorded m'.Recorded fun _ => False := by
  have he : m'.Recorded = m.Recorded := by
    funext id
    simp [Manager.Recorded, hr, hm]
  rw [hd, he]
  exact .refl fun id => h.recorded

theorem Tracked.close_works (h : Tracked m) (hi : (m.banks i).registered = true) :
    m.domain.stock.Works (unregister 0 m i).2.domain.stock m.Recorded
      (unregister 0 m i).2.Recorded fun _ => False := by
  obtain ⟨id, g, hid, hg⟩ := h.live i hi
  rw [unregister_zero hi hid]
  have hrec : ∀ x, Manager.Recorded ({ m with domain := m.domain.mrClose id }.modifyBank i
      (fun b => { b with registered := false, base := 0, len := 0 })) x ↔
        m.Recorded x ∧ x ≠ id := by
    intro x
    simp only [Manager.Recorded, Manager.modifyBank_banks]
    constructor
    · rintro ⟨k, hk, hx⟩
      by_cases hki : k = i
      · simp [hki] at hk
      · rw [if_neg hki] at hk hx
        refine ⟨⟨k, hk, hx⟩, ?_⟩
        rintro rfl
        exact h.distinct k i hki hk hi (hx.trans hid.symm)
    · rintro ⟨⟨k, hk, hx⟩, hne⟩
      have hki : k ≠ i := by
        rintro rfl
        rw [hid, Option.some.injEq] at hx
        exact hne hx.symm
      exact ⟨k, by rwa [if_neg hki], by rwa [if_neg hki]⟩
  refine ⟨Nat.le_refl _, fun x _ hx => ?_, fun x hx => ?_, fun x hx => ?_, fun _ _ => not_false⟩
  · have hne : x ≠ id := fun he => hx (he ▸ ⟨i, hi, hid⟩)
    simp [Domain.stock, hne]
  · rw [hrec, or_false]
    by_cases hne : x = id
    · simp [Domain.stock, hne]
    · rcases hx with hx | hx
      · simpa [Domain.stock, hne, hx] using h.recorded hx
      · have hn : ¬ m.Recorded x := fun hr =>
          Nat.not_le_of_lt (m.domain.stock.fresh x (h.recorded hr)) hx
        simp [Domain.stock, hne, hn, m.domain.fresh x hx]
  · exact .inl ((hrec x).1 (hx.resolve_right not_false)).1

theorem Tracked.adopt_works (h : Tracked m) (hi : (m.banks i).registered = false) :
    m.domain.stock.Works (registerFresh 0 m i).2.domain.stock m.Recorded
      (registerFresh 0 m i).2.Recorded fun _ => False := by
  have hrec : ∀ x, (registerFresh 0 m i).2.Recorded x ↔ m.Recorded x ∨ x = m.domain.nextMr := by
    intro x
    rw [registerFresh_zero]
    simp only [Manager.Recorded, Manager.modifyBank_banks]
    constructor
    · rintro ⟨k, hk, hx⟩
      by_cases hki : k = i
      · simp only [hki, if_true, Option.some.injEq] at hx
        exact .inr hx.symm
      · rw [if_neg hki] at hk hx
        exact .inl ⟨k, hk, hx⟩
    · rintro (⟨k, hk, hx⟩ | rfl)
      · have hki : k ≠ i := by
          rintro rfl
          rw [hi] at hk
          cases hk
        exact ⟨k, by rwa [if_neg hki], by rwa [if_neg hki]⟩
      · exact ⟨i, by simp, by simp⟩
  have hw := Domain.reg_works m.domain ⟨(m.banks i).region, toUInt64 (m.attr.baseKey + i + 1)⟩
  have hboth := (Stock.Works.refl (S := m.domain.stock) fun _ => h.recorded).both hw
    (fun _ => False.elim) (fun _ _ => id)
  have he : (registerFresh 0 m i).2.Recorded = fun x => m.Recorded x ∨ x = m.domain.nextMr :=
    funext fun x => propext (hrec x)
  rw [he, registerFresh_zero]
  simpa using hboth

theorem Turn.works (h : Tracked m) (ht : Turn m m') :
    m.domain.stock.Works m'.domain.stock m.Recorded m'.Recorded fun _ => False := by
  cases ht with
  | note i f hr hm ha =>
    refine h.still rfl (fun k => ?_) (fun k => ?_)
    · by_cases hki : k = i <;> simp [hki, hr]
    · by_cases hki : k = i <;> simp [hki, hm]
  | flag j u => exact h.still rfl (fun _ => rfl) (fun _ => rfl)
  | copy dst src => exact h.still rfl (fun _ => rfl) (fun _ => rfl)
  | close i hi => exact h.close_works hi
  | adopt i hi => exact h.adopt_works hi

theorem Turns.works (h : Tracked m) (ht : Turns m m') :
    m.domain.stock.Works m'.domain.stock m.Recorded m'.Recorded fun _ => False := by
  have hm := ht.keeps (I := fun m' => Tracked m' ∧
    m.domain.stock.Works m'.domain.stock m.Recorded m'.Recorded fun _ => False) ?_
    ⟨h, h.still rfl (fun _ => rfl) (fun _ => rfl)⟩
  · exact hm.2
  · rintro m₁ m₂ ⟨h₁, hw⟩ ht
    exact ⟨ht.tracked h₁, by simpa using hw.trans (ht.works h₁)⟩

theorem Tracked.elsewhere (h : Tracked m) {d : Domain} {own own' left : Nat → Prop}
    (hw : m.domain.stock.Works d.stock own own' left)
    (ho : ∀ id, own id → m.domain.stock.there id) (hne : ∀ id, own id → ¬ m.Recorded id) :
    Tracked { m with domain := d } where
  known i id hid := Nat.lt_of_lt_of_le (h.known i id hid) hw.next
  live i hi := by
    obtain ⟨id, g, hid, hg⟩ := h.live i hi
    have hr : m.Recorded id := ⟨i, hi, hid⟩
    have hthere := (hw.others id (h.known i id hid) (fun ho => hne id ho hr)).2 (h.recorded hr)
    obtain ⟨g', hg'⟩ := Option.isSome_iff_exists.1 hthere
    exact ⟨id, g', hid, hg'⟩
  stale i id hi hid := by
    have hg := h.stale i id hi hid
    have hn : ¬ m.domain.stock.there id := by simp [Domain.stock, hg]
    have hn' := mt (hw.others id (h.known i id hid) (fun h => hn (ho id h))).1 hn
    simpa [Domain.stock] using hn'
  distinct := h.distinct
  slab id hid := by
    obtain ⟨hlt, hs⟩ := h.slab id hid
    exact ⟨Nat.lt_of_lt_of_le hlt hw.next, hs⟩

end Turning

section Ending

variable {m m' : Manager} {close : Nat → Int}

theorem unregister_registered (close : Int) (m : Manager) (i k : Nat) :
    ((unregister close m i).2.banks k).mr = (m.banks k).mr ∧
      (((unregister close m i).2.banks k).registered = true ↔
        (m.banks k).registered = true ∧ (k = i → close ≠ 0)) := by
  cases hi : (m.banks i).registered with
  | false =>
    rw [unregister_idle hi]
    refine ⟨rfl, ⟨fun hk => ⟨hk, ?_⟩, And.left⟩⟩
    rintro rfl
    rw [hi] at hk
    cases hk
  | true =>
    by_cases hc : close = 0
    · by_cases hki : k = i
      · subst hki
        simp [unregister, hi, hc]
      · rw [(unregister_elsewhere close m i).2 k hki]
        simp [hki]
    · rw [unregister_fail hi hc]
      simp [hc]

theorem termBanks_spec {is : List Nat} (h : termBanks close is m = .ok m') :
    Turns m m' ∧ ∀ k, (m'.banks k).mr = (m.banks k).mr ∧
      ((m'.banks k).registered = true ↔
        (m.banks k).registered = true ∧ (k ∈ is → close k ≠ 0)) := by
  induction is generalizing m with
  | nil =>
    obtain rfl := Except.ok.inj h
    exact ⟨.refl m, by simp⟩
  | cons i is ih =>
    simp only [termBanks, bind_eq_ok] at h
    obtain ⟨_, _, h⟩ := h
    obtain ⟨ht, hk⟩ := ih h
    refine ⟨(unregister_turns (close i) m i).trans ht, fun k => ?_⟩
    obtain ⟨hm, hr⟩ := hk k
    obtain ⟨hm', hr'⟩ := unregister_registered (close i) m i k
    refine ⟨hm.trans hm', ?_⟩
    rw [hr, hr', List.mem_cons, and_assoc]
    refine and_congr_right fun _ => ?_
    constructor
    · rintro ⟨h₁, h₂⟩ (rfl | hx)
      · exact h₁ rfl
      · exact h₂ hx
    · intro hx
      refine ⟨?_, fun hk => hx (.inr hk)⟩
      rintro rfl
      exact hx (.inl rfl)

theorem termBanks_ok_iff (m : Manager) (close : Nat → Int) (is : List Nat) :
    (∃ m', termBanks close is m = .ok m') ↔ ∀ i ∈ is, (m.banks i).ref = 0 := by
  constructor
  · intro hex
    induction is generalizing m with
    | nil => simp
    | cons i is ih =>
      obtain ⟨m', h⟩ := hex
      simp only [termBanks, bind_eq_ok, nnAssert_eq_ok] at h
      obtain ⟨_, hi, h⟩ := h
      intro k hk
      rcases List.mem_cons.1 hk with rfl | hk
      · exact hi
      · rw [← (unregister_refs (close i) m i).ref]
        exact ih _ ⟨m', h⟩ k hk
  · intro h
    exact termBanks_ok is h close

theorem bankUses_eq_zero {l : List Context} {i : Nat} :
    bankUses l i = 0 ↔ ∀ c ∈ l, i ∉ c.banks := by
  induction l with
  | nil => simp
  | cons c l ih => simp [ih, List.count_eq_zero]

theorem term_ok_iff (m : Manager) (close : Nat → Int) (closeSlab : Int) :
    (∃ r, term close closeSlab m = .ok r) ↔
      (∀ i < m.attr.bankCount, (m.banks i).ref = 0) ∧
        (m.attr.slabCount = 0 ∨ m.slabMr ≠ none) := by
  have hbanks := termBanks_ok_iff m close (List.range m.attr.bankCount)
  simp only [List.mem_range] at hbanks
  rw [← hbanks]
  constructor
  · rintro ⟨r, hr⟩
    simp only [term, bind_eq_ok] at hr
    obtain ⟨m', hm, hr⟩ := hr
    obtain ⟨ha, hs⟩ := (termBanks_spec hm).1.fixed
    refine ⟨⟨m', hm⟩, ?_⟩
    rw [← ha, ← hs]
    by_cases h₀ : m'.attr.slabCount = 0
    · exact .inl h₀
    · rw [if_neg h₀] at hr
      cases hs : m'.slabMr with
      | none =>
        rw [hs] at hr
        cases hr
      | some id => exact .inr (by simp)
  · rintro ⟨⟨m', hm⟩, hslab⟩
    obtain ⟨ha, hs⟩ := (termBanks_spec hm).1.fixed
    rw [← ha, ← hs] at hslab
    simp only [term, hm, bind, Except.bind]
    by_cases h₀ : m'.attr.slabCount = 0
    · exact ⟨_, if_pos h₀⟩
    · obtain ⟨id, hid⟩ := Option.ne_none_iff_exists'.1 (hslab.resolve_left h₀)
      simp only [if_neg h₀, hid]
      exact ⟨_, rfl⟩

theorem term_works {closeSlab ret : Int} {d : Domain} (h : Tracked m) (hc : Confined m)
    (h₀ : m.attr.slabCount = 0 → m.slabMr = none) (ht : term close closeSlab m = .ok (ret, d)) :
    ∃ d', m.domain.stock.Works d'.stock m.Registered (fun _ => False)
        (fun id => ∃ i < m.attr.bankCount, (m.banks i).registered = true ∧
          (m.banks i).mr = some id ∧ close i ≠ 0) ∧
      d = match m.slabMr with
        | none => d'
        | some id => d'.close id closeSlab := by
  simp only [term, bind_eq_ok] at ht
  obtain ⟨m', hm, ht⟩ := ht
  obtain ⟨hturns, hb⟩ := termBanks_spec hm
  obtain ⟨ha, hs⟩ := hturns.fixed
  refine ⟨m'.domain, ?_, ?_⟩
  · have hleft : m'.Recorded = fun id => ∃ i < m.attr.bankCount,
        (m.banks i).registered = true ∧ (m.banks i).mr = some id ∧ close i ≠ 0 := by
      funext id
      simp only [Manager.Recorded, (hb _).1, (hb _).2, List.mem_range, eq_iff_iff]
      constructor
      · rintro ⟨i, ⟨hi, hne⟩, hid⟩
        exact ⟨i, hc i hi, hi, hid, hne (hc i hi)⟩
      · rintro ⟨i, hlt, hi, hid, hne⟩
        exact ⟨i, ⟨hi, fun _ => hne⟩, hid⟩
    rw [hc.registered, ← hleft]
    simpa using (hturns.works h).lose
  · rw [ha, hs] at ht
    by_cases hn : m.attr.slabCount = 0
    · rw [if_pos hn] at ht
      rw [h₀ hn]
      cases ht
      rfl
    · rw [if_neg hn] at ht
      cases hs : m.slabMr with
      | none =>
        rw [hs] at ht
        cases ht
      | some id =>
        rw [hs] at ht
        cases ht
        rfl

end Ending

end OfiTransport.Mr
