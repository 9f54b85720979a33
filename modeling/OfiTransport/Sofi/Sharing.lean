import OfiTransport.Sofi.Keys
import OfiTransport.Mr.Return

/-! The SOFIs of an endpoint share its domain.  What each of them has registered there, from its
initialisation to its termination, and what is never closed. -/

namespace OfiTransport

open Lib

namespace Sofi

/-- Where the buffers of a SOFI are, and what `fi_mr_reg` is going to return for them. -/
structure Grants where
  auxBuf : Nat
  auxReg : Int
  chunk : Nat → Nat
  recvReg : Nat → Int

/-- What a SOFI has of the domain: `aux_mr`, its manager, and the registrations of its ingress
buffers.  The domain that the manager records may be out of date. -/
structure Holding where
  aux : Option Nat
  mrs : Mr.System
  recv : List Nat

def Setup.registerAux (u : Setup) (g : Grants) (d : Mr.Domain) : Option Nat × Mr.Domain :=
  -- the error is printed, and the pointer stays what it was
  if g.auxReg ≠ 0 then (none, d)
  else
    let (id, d) := d.mrReg ⟨⟨g.auxBuf, 4096⟩, u.auxKey⟩
    (some id, d)

def Setup.registerRecv (u : Setup) (g : Grants) :
    List Nat → Mr.Domain → M (Int × Mr.Domain × List Nat)
  | [], d => .ok (0, d, [])
  | i :: is, d =>
    if u.chunkAlloc i ≠ 0 then .ok (u.chunkAlloc i, d, [])
    -- the error is printed, and then the descriptor of NULL is read
    else if g.recvReg i ≠ 0 then .error .nullDeref
    else do
      let (id, d) := d.mrReg ⟨⟨g.chunk i, toUInt64 u.rcvbuf⟩, u.recvKey i⟩
      let (ret, d, ids) ← u.registerRecv g is d
      return (ret, d, id :: ids)

/-- What `nn_sofi_init` registers.  When it fails there is no SOFI. -/
def Setup.register (u : Setup) (g : Grants) (d : Mr.Domain) : M (Mr.Domain × Option Holding) := do
  let rx := u.rxQueue.toNat
  let (aux, d) := u.registerAux g d
  let (_, m) := Mr.init u.mrAttr d u.slabMem u.slabReg
  -- the egress contexts are linked before the ingress buffers are registered
  let _ ← linkElements u.txQueue.toNat rx
  if rx = 0 then .error .outOfBounds
  else
    let (ret, d, recv) ← u.registerRecv g (List.range rx) m.domain
    return (d, if ret = 0 then some ⟨aux, ⟨m, []⟩, recv⟩ else none)

structure Closings where
  banks : Nat → Int
  slab : Int
  recv : Nat → Int
  aux : Int

def Holding.close (c : Closings) (s : Holding) (d : Mr.Domain) : M Mr.Domain := do
  let (_, d) ← Mr.term c.banks c.slab { s.mrs.mgr with domain := d }
  let d := s.recv.zipIdx.foldl (fun d p => d.close p.1 (c.recv p.2)) d
  match s.aux with
  | none => .error .nullDeref
  | some id => return d.close id c.aux

end Sofi

structure Sharing where
  domain : Mr.Domain
  sofis : Nat → Option Sofi.Holding

namespace Sharing

inductive Event
  | init (k : Nat) (u : Sofi.Setup) (g : Sofi.Grants)
  | manage (k : Nat) (e : Mr.Event)
  | term (k : Nat) (c : Sofi.Closings)

def enabled (h : Sharing) : Event → Bool
  | .init k .. => (h.sofis k).isNone
  | .manage k e =>
    match h.sofis k with
    | none => false
    | some s => Mr.enabled s.mrs e
  | .term k _ => (h.sofis k).isSome

def step (h : Sharing) : Event → M Sharing
  | .init k u g => do
    let (d, s) ← u.register g h.domain
    return ⟨d, Function.update h.sofis k s⟩
  | .manage k e =>
    match h.sofis k with
    | none => .ok h
    | some s => do
      let r ← Mr.step ⟨{ s.mrs.mgr with domain := h.domain }, s.mrs.live⟩ e
      return ⟨r.mgr.domain, Function.update h.sofis k (some { s with mrs := r })⟩
  | .term k c =>
    match h.sofis k with
    | none => .ok h
    | some s => do
      let d ← s.close c h.domain
      return ⟨d, Function.update h.sofis k none⟩

def machine : Machine Sharing Event Fault where
  init h := (∀ id, h.domain.regs id = none) ∧ ∀ k, h.sofis k = none
  enabled := enabled
  step := step

end Sharing

namespace Sofi

def Holding.direct (s : Holding) : List Nat :=
  s.aux.toList ++ s.mrs.mgr.slabMr.toList ++ s.recv

def Holding.Has (s : Holding) (id : Nat) : Prop := id ∈ s.direct ∨ s.mrs.mgr.Registered id

def Holding.Left (c : Closings) (s : Holding) (id : Nat) : Prop :=
  (∃ i < s.mrs.mgr.attr.bankCount, (s.mrs.mgr.banks i).registered = true ∧
      (s.mrs.mgr.banks i).mr = some id ∧ c.banks i ≠ 0) ∨
    (s.mrs.mgr.slabMr = some id ∧ c.slab ≠ 0) ∨ (∃ i, s.recv[i]? = some id ∧ c.recv i ≠ 0) ∨
    (s.aux = some id ∧ c.aux ≠ 0)

structure Holding.Sound (s : Holding) (d : Mr.Domain) : Prop where
  tracked : Mr.Tracked { s.mrs.mgr with domain := d }
  confined : Mr.Confined s.mrs.mgr
  carries : Mr.Carries s.mrs.mgr s.mrs.live
  noSlab : s.mrs.mgr.attr.slabCount = 0 → s.mrs.mgr.slabMr = none
  nodup : s.direct.Nodup
  apart : ∀ id ∈ s.direct, ∀ i, (s.mrs.mgr.banks i).mr ≠ some id

section Registering

variable {u : Setup} {g : Grants} {d d' : Mr.Domain}

theorem registerAux_works (u : Setup) (g : Grants) (d : Mr.Domain) :
    d.stock.Works (u.registerAux g d).2.stock (fun _ => False)
      (fun x => x ∈ (u.registerAux g d).1.toList) fun _ => False := by
  simp only [Setup.registerAux]
  by_cases h : g.auxReg = 0
  · simpa [h, eq_comm] using Mr.Domain.reg_works d ⟨⟨g.auxBuf, 4096⟩, u.auxKey⟩
  · simpa [h] using Stock.Works.nothing d.stock

theorem mrInit_works (attr : Mr.Attr) (d : Mr.Domain) (mem : Nat) (reg : Int) :
    d.stock.Works (Mr.init attr d mem reg).2.domain.stock (fun _ => False)
      (fun x => x ∈ (Mr.init attr d mem reg).2.slabMr.toList) fun _ => False := by
  simp only [Mr.init]
  split
  · simpa using Stock.Works.nothing d.stock
  · split
    · simpa using Stock.Works.nothing d.stock
    · simpa [eq_comm] using
        Mr.Domain.reg_works d ⟨⟨mem, attr.slabCount * attr.slabSize⟩, attr.baseKey⟩

theorem registerRecv_works {is ids : List Nat} {ret : Int}
    (h : u.registerRecv g is d = .ok (ret, d', ids)) :
    ids.Nodup ∧ (∀ id ∈ ids, d.nextMr ≤ id) ∧
      d.stock.Works d'.stock (fun _ => False) (fun x => x ∈ ids) fun _ => False := by
  induction is generalizing d ids with
  | nil =>
    cases h
    exact ⟨.nil, by simp, by simpa using Stock.Works.nothing _⟩
  | cons i is ih =>
    simp only [Setup.registerRecv] at h
    split at h
    · cases h
      exact ⟨.nil, by simp, by simpa using Stock.Works.nothing _⟩
    · split at h
      · cases h
      · simp only [bind_eq_ok, pure_eq_ok, Prod.mk.injEq] at h
        obtain ⟨⟨_, _, ids'⟩, hrec, rfl, rfl, rfl⟩ := h
        obtain ⟨hn, hle, hw⟩ := ih hrec
        have hlt : ∀ id ∈ ids', d.nextMr < id := fun id hid => hle id hid
        have hreg := Mr.Domain.reg_works d ⟨⟨g.chunk i, toUInt64 u.rcvbuf⟩, u.recvKey i⟩
        refine ⟨List.nodup_cons.2 ⟨fun hid => Nat.lt_irrefl _ (hlt _ hid), hn⟩, ?_, ?_⟩
        · intro id hid
          rcases List.mem_cons.1 hid with rfl | hid
          · exact Nat.le_refl _
          · exact Nat.le_of_lt (hlt id hid)
        · simpa using hreg.both hw (fun _ => False.elim) (fun _ h => h.elim)

theorem registerRecv_ok_iff (s n : Nat) :
    (∃ r, u.registerRecv g (List.range' s n) d = .ok r) ↔
      ∀ i < n, (∀ j ≤ i, u.chunkAlloc (s + j) = 0) → g.recvReg (s + i) = 0 := by
  induction n generalizing s d with
  | zero => simp [Setup.registerRecv]
  | succ n ih =>
    simp only [List.range'_succ, Setup.registerRecv]
    by_cases ha : u.chunkAlloc s = 0
    · by_cases hr : g.recvReg s = 0
      · simp only [ha, hr, ne_eq, not_true, if_false, bind_eq_ok, pure_eq_ok]
        have hrec := ih (s + 1) (d := (d.mrReg ⟨⟨g.chunk s, toUInt64 u.rcvbuf⟩, u.recvKey s⟩).2)
        constructor
        · rintro ⟨_, ⟨r, hok, _⟩⟩ i hi hj
          cases i with
          | zero => exact hr
          | succ i =>
            rw [Nat.add_comm i 1, ← Nat.add_assoc]
            refine hrec.1 ⟨r, hok⟩ i (by omega) fun j hji => ?_
            rw [Nat.add_assoc, Nat.add_comm 1 j]
            exact hj (j + 1) (by omega)
        · intro h
          obtain ⟨r, hok⟩ := hrec.2 fun i hi hj => by
            rw [Nat.add_assoc, Nat.add_comm 1 i]
            refine h (i + 1) (by omega) fun j hji => ?_
            cases j with
            | zero => exact ha
            | succ j =>
              rw [Nat.add_comm j 1, ← Nat.add_assoc]
              exact hj j (by omega)
          exact ⟨_, r, hok, rfl⟩
      · simp only [ha, hr, ne_eq, not_true, not_false_eq_true, if_false, if_true, reduceCtorEq,
          exists_false, false_iff]
        intro h
        exact hr (h 0 (by omega) fun j hj => by rwa [Nat.le_zero.1 hj])
    · simp only [ha, ne_eq, not_false_eq_true, if_true]
      refine ⟨fun _ i _ hj => absurd (hj 0 (Nat.zero_le i)) ha, fun _ => ⟨_, rfl⟩⟩

theorem Setup.register_inv {s : Option Holding} (h : u.register g d = .ok (d', s)) :
    ∃ m aux recv ret, u.registerRecv g (List.range u.rxQueue.toNat) m.domain = .ok (ret, d', recv) ∧
      (aux, m) = ((u.registerAux g d).1,
        (Mr.init u.mrAttr (u.registerAux g d).2 u.slabMem u.slabReg).2) ∧
      s = if ret = 0 then some ⟨aux, ⟨m, []⟩, recv⟩ else none := by
  simp only [Setup.register, bind_eq_ok] at h
  obtain ⟨_, _, h⟩ := h
  split at h
  · cases h
  · simp only [bind_eq_ok, pure_eq_ok, Prod.mk.injEq] at h
    obtain ⟨⟨ret, _, recv⟩, hrec, rfl, rfl⟩ := h
    exact ⟨_, _, recv, ret, hrec, rfl, rfl⟩

/-- The arrays can be linked, and a buffer that has its chunk gets its registration. -/
def Setup.Registrable (u : Setup) (g : Grants) : Prop :=
  1 ≤ u.rxQueue.toNat ∧ u.rxQueue.toNat ≤ u.txQueue.toNat ∧
    ∀ i < u.rxQueue.toNat, (∀ j ≤ i, u.chunkAlloc j = 0) → g.recvReg i = 0

theorem Setup.register_ok_iff : (∃ r, u.register g d = .ok r) ↔ u.Registrable g := by
  have hrecv := registerRecv_ok_iff (u := u) (g := g)
    (d := (Mr.init u.mrAttr (u.registerAux g d).2 u.slabMem u.slabReg).2.domain) 0 u.rxQueue.toNat
  simp only [Nat.zero_add, ← List.range_eq_range'] at hrecv
  rw [Registrable, ← hrecv]
  simp only [register, bind_eq_ok]
  constructor
  · rintro ⟨_, L, hL, hr⟩
    split at hr
    · cases hr
    · next hrx =>
      simp only [bind_eq_ok] at hr
      obtain ⟨r, hr, _⟩ := hr
      exact ⟨by omega, linkElements_ok_iff.1 ⟨L, hL⟩, r, hr⟩
  · rintro ⟨hrx, hle, r, hr⟩
    have h₀ : ¬ u.rxQueue.toNat = 0 := by omega
    simp only [h₀, if_false, bind_eq_ok, pure_eq_ok]
    exact ⟨_, _, linkElements_ok hle, r, hr, rfl⟩

theorem mrInit_fixed (attr : Mr.Attr) (d : Mr.Domain) (mem : Nat) (reg : Int) :
    let m := (Mr.init attr d mem reg).2
    (m.attr.slabCount = 0 → m.slabMr = none) ∧ ∀ i, (m.banks i).mr = none ∧
      (m.banks i).registered = false := by
  simp only [Mr.init]
  split
  · exact ⟨fun _ => rfl, fun _ => ⟨rfl, rfl⟩⟩
  · next h =>
    split
    · exact ⟨fun _ => rfl, fun _ => ⟨rfl, rfl⟩⟩
    · exact ⟨fun h₀ => absurd h₀ h, fun _ => ⟨rfl, rfl⟩⟩

theorem register_works {s : Option Holding} (h : u.register g d = .ok (d', s)) :
    ∃ ids : List Nat, d.stock.Works d'.stock (fun _ => False) (fun x => x ∈ ids) (fun _ => False) ∧
      ∀ s', s = some s' → s'.Has = (fun x => x ∈ ids) ∧ s'.Sound d' := by
  obtain ⟨m, aux, recv, ret, hrec, hm, rfl⟩ := Setup.register_inv h
  obtain ⟨rfl, rfl⟩ := Prod.mk.inj hm
  have haux := registerAux_works u g d
  have hslab := mrInit_works u.mrAttr (u.registerAux g d).2 u.slabMem u.slabReg
  obtain ⟨hn, hle, hrecv⟩ := registerRecv_works hrec
  obtain ⟨hnone, hbanks⟩ := mrInit_fixed u.mrAttr (u.registerAux g d).2 u.slabMem u.slabReg
  have hfirst := haux.both hslab (fun _ => False.elim) (fun _ h => h.elim)
  have hall := hfirst.both hrecv (fun _ => False.elim) (fun _ _ => id)
  refine ⟨(u.registerAux g d).1.toList ++
    (Mr.init u.mrAttr (u.registerAux g d).2 u.slabMem u.slabReg).2.slabMr.toList ++ recv, ?_, ?_⟩
  · simpa only [List.mem_append, or_false] using hall
  · intro s hs
    split at hs
    · obtain rfl := Option.some.inj hs
      refine ⟨?_, ?_⟩
      · funext x
        simp [Holding.Has, Holding.direct, Mr.Manager.Registered, hbanks]
      · have hpair : ((u.registerAux g d).1.toList ++ _).Nodup :=
          List.nodup_append'.2 ⟨Option.toList_nodup _, Option.toList_nodup _, fun x hx hx' =>
            (hslab.had x (.inl hx')).elim id (Nat.not_le_of_lt (haux.lt (.inl hx)))⟩
        refine ⟨(Mr.init_tracked ..).elsewhere hrecv (fun _ => False.elim) (fun _ => False.elim),
          Mr.init_confined _ _ _ _, Mr.init_carries .., hnone, ?_, fun _ _ i => ?_⟩
        · refine List.nodup_append'.2 ⟨hpair, hn, fun x hx hx' => ?_⟩
          exact Nat.not_le_of_lt (hfirst.lt (.inl (List.mem_append.1 hx))) (hle x hx')
        · simp [(hbanks i).1]
    · cases hs

end Registering

section Holding

variable {s : Holding} {d d' : Mr.Domain}

theorem Holding.Sound.lt (hall : ∀ id, s.Has id → d.stock.there id) {id : Nat}
    (hid : id ∈ s.direct) :
    id < d.nextMr := d.stock.fresh id (hall id (.inl hid))

theorem Holding.Sound.not_registered (h : s.Sound d) {id : Nat} (hid : id ∈ s.direct) :
    ¬ s.mrs.mgr.Registered id := by
  rintro ⟨i, _, _, hm⟩
  exact h.apart id hid i hm

theorem Holding.Sound.manage (h : s.Sound d) (hall : ∀ id, s.Has id → d.stock.there id)
    {e : Mr.Event} {r : Mr.System} (he : Mr.enabled s.mrs e = true)
    (hr : Mr.step ⟨{ s.mrs.mgr with domain := d }, s.mrs.live⟩ e = .ok r) :
    d.stock.Works r.mgr.domain.stock s.Has { s with mrs := r }.Has (fun _ => False) ∧
      { s with mrs := r }.Sound r.mgr.domain := by
  have hturns := Mr.step_turns hr
  obtain ⟨ha, hs⟩ := hturns.fixed
  have hconf := Mr.step_confined (s := ⟨{ s.mrs.mgr with domain := d }, s.mrs.live⟩) h.confined hr
  have hdirect : Holding.direct { s with mrs := r } = s.direct := by
    simp only [Holding.direct, hs]
  have hw := hturns.works h.tracked
  rw [← hconf.registered,
    ← Mr.Confined.registered (m := { s.mrs.mgr with domain := d }) h.confined] at hw
  constructor
  · have hown : d.stock.Works d.stock (fun x => x ∈ s.direct) (fun x => x ∈ s.direct)
        fun _ => False := .refl fun x hx => hall x (.inl hx)
    refine (hown.both hw (fun x hx => d.stock.fresh x (hall x (.inr hx)))
      (fun x hx => h.not_registered hx)).congr (fun _ => Iff.rfl) (fun x => ?_) (by simp)
    rw [Holding.Has, hdirect]
  · refine ⟨hturns.tracked h.tracked, hconf,
      Mr.step_carries (s := ⟨{ s.mrs.mgr with domain := d }, s.mrs.live⟩)
        ⟨h.carries.ref, h.carries.inuse⟩ he hr, ?_, ?_, ?_⟩
    · rw [ha, hs]
      exact h.noSlab
    · rw [hdirect]
      exact h.nodup
    · intro id hid i hm
      rw [hdirect] at hid
      exact h.apart id hid i (hturns.inherits.mr i id (Sound.lt hall hid) hm)

theorem closes_works (l : List (Nat × Int)) (hn : (l.map Prod.fst).Nodup)
    (h : ∀ p ∈ l, d.stock.there p.1) :
    d.stock.Works (l.foldl (fun d p => d.close p.1 p.2) d).stock (fun x => x ∈ l.map Prod.fst)
      (fun _ => False) fun x => ∃ p ∈ l, p.1 = x ∧ p.2 ≠ 0 := by
  induction l generalizing d with
  | nil => simpa using Stock.Works.nothing _
  | cons p l ih =>
    obtain ⟨hp, hn⟩ := List.nodup_cons.1 hn
    have hw := Mr.Domain.close_works p.2 (h p (by simp))
    have hne : ∀ q ∈ l, q.1 ≠ p.1 := fun q hq he => hp (List.mem_map.2 ⟨q, hq, he⟩)
    have hthere : ∀ q ∈ l, (d.close p.1 p.2).stock.there q.1 := fun q hq =>
      have ht := h q (by simp [hq])
      (hw.others q.1 (d.stock.fresh _ ht) (hne q hq)).2 ht
    refine (hw.both (ih hn hthere) (fun x hx => ?_) (fun x he hx => ?_)).congr
      (fun x => by simp) (fun x => by simp) (fun x => by simp [eq_comm])
    · obtain ⟨q, hq, rfl⟩ := List.mem_map.1 hx
      exact d.stock.fresh _ (h q (by simp [hq]))
    · exact hp (he ▸ hx)

theorem Holding.Sound.close {c : Closings} (h : s.Sound d)
    (hall : ∀ id, s.Has id → d.stock.there id) (hc : s.close c d = .ok d') :
    d.stock.Works d'.stock s.Has (fun _ => False) (s.Left c) := by
  simp only [Holding.close, bind_eq_ok] at hc
  obtain ⟨⟨ret, d₁⟩, ht, hc⟩ := hc
  obtain ⟨d₂, hw, hd₁⟩ := Mr.term_works h.tracked h.confined h.noSlab ht
  cases ha : s.aux with
  | none => simp [ha] at hc
  | some aux =>
    simp only [ha, pure_eq_ok] at hc
    let l := s.mrs.mgr.slabMr.toList.map (fun id => (id, c.slab)) ++
      s.recv.zipIdx.map (fun p => (p.1, c.recv p.2)) ++ [(aux, c.aux)]
    have hd' : d' = l.foldl (fun d p => d.close p.1 p.2) d₂ := by
      rw [← hc, hd₁]
      simp only [l, List.foldl_append, List.foldl_map, List.foldl_cons, List.foldl_nil]
      cases s.mrs.mgr.slabMr <;> rfl
    have hl : l.map Prod.fst = s.mrs.mgr.slabMr.toList ++ s.recv ++ [aux] := by
      simp [l, Function.comp_def]
    have hperm : (l.map Prod.fst).Perm s.direct := by
      rw [hl, Holding.direct, ha]
      simpa using List.perm_append_singleton aux (s.mrs.mgr.slabMr.toList ++ s.recv)
    have hthere : ∀ id ∈ s.direct, d₂.stock.there id := fun id hid =>
      (hw.others id (Sound.lt hall hid) (h.not_registered hid)).2 (hall id (.inl hid))
    have hcl := closes_works (d := d₂) l (hperm.nodup_iff.2 h.nodup)
      (fun p hp => hthere _ (hperm.subset (List.mem_map_of_mem hp)))
    rw [← hd'] at hcl
    refine (hw.both hcl (fun x hx => Sound.lt hall (hperm.subset hx))
      (fun x hx hx' => h.not_registered (hperm.subset hx') hx)).congr
      (fun x => ?_) (by simp) (fun x => ?_)
    · rw [hperm.mem_iff, or_comm, Holding.Has]
      exact Iff.rfl
    · refine or_congr Iff.rfl ?_
      simp only [l, List.mem_append, List.mem_map, Option.mem_toList, List.mem_singleton,
        List.mem_zipIdx_iff_getElem?, or_and_right, exists_or, or_assoc]
      refine or_congr ⟨?_, ?_⟩ (or_congr ⟨?_, ?_⟩ ⟨?_, ?_⟩)
      · rintro ⟨hs, hne⟩
        exact ⟨_, ⟨x, hs, rfl⟩, rfl, hne⟩
      · rintro ⟨_, ⟨id, hs, rfl⟩, rfl, hne⟩
        exact ⟨hs, hne⟩
      · rintro ⟨i, hs, hne⟩
        exact ⟨_, ⟨(x, i), hs, rfl⟩, rfl, hne⟩
      · rintro ⟨_, ⟨q, hs, rfl⟩, rfl, hne⟩
        exact ⟨q.2, hs, hne⟩
      · rintro ⟨hs, hne⟩
        exact ⟨_, rfl, Option.some.inj (ha.symm.trans hs), hne⟩
      · rintro ⟨_, rfl, rfl, hne⟩
        exact ⟨ha, hne⟩

theorem Holding.close_ok_iff {c : Closings} : (∃ d', s.close c d = .ok d') ↔
    s.aux ≠ none ∧ (s.mrs.mgr.attr.slabCount = 0 ∨ s.mrs.mgr.slabMr ≠ none) ∧
      ∀ i < s.mrs.mgr.attr.bankCount, (s.mrs.mgr.banks i).ref = 0 := by
  have hterm := Mr.term_ok_iff { s.mrs.mgr with domain := d } c.banks c.slab
  rw [and_comm (a := _ ∨ _), ← hterm]
  simp only [Holding.close, bind_eq_ok]
  cases s.aux with
  | none => simp
  | some aux =>
    simp only [ne_eq, reduceCtorEq, not_false_eq_true, true_and, pure_eq_ok]
    constructor
    · rintro ⟨_, r, hr, _⟩
      exact ⟨r, hr⟩
    · rintro ⟨r, hr⟩
      exact ⟨_, r, hr, rfl⟩

end Holding

end Sofi

namespace Sharing

def Has (h : Sharing) (k id : Nat) : Prop := ∃ s, h.sofis k = some s ∧ s.Has id

/-- The event leaves a registration behind that no SOFI has: `nn_sofi_init` made it and failed, or
`nn_sofi_term` could not close it. -/
def Left (h : Sharing) : Event → Nat → Prop
  | .init _ u g, id => ∃ d, u.register g h.domain = .ok (d, none) ∧ h.domain.nextMr ≤ id ∧
      (d.regs id).isSome = true
  | .manage .., _ => False
  | .term k c, id => ∃ s, h.sofis k = some s ∧ s.Left c id

/-- SOFI `k` has the registrations it made by itself, and no handle is left that refers to
a bank. -/
def Closable (h : Sharing) (k : Nat) : Prop :=
  ∀ s, h.sofis k = some s →
    s.aux ≠ none ∧ (s.mrs.mgr.attr.slabCount = 0 ∨ s.mrs.mgr.slabMr ≠ none) ∧
      ∀ c ∈ s.mrs.live, ∀ i < s.mrs.mgr.attr.bankCount, i ∉ c.banks

structure Sound (h : Sharing) (lost : Nat → Prop) : Prop where
  divided : h.domain.stock.Divided h.Has lost
  sofi : ∀ k s, h.sofis k = some s → s.Sound h.domain

structure Deals (h h' : Sharing) (k : Nat) (left : Nat → Prop) : Prop where
  works : h.domain.stock.Works h'.domain.stock (h.Has k) (h'.Has k) left
  others : ∀ j, j ≠ k → h'.sofis j = h.sofis j
  sound : ∀ s, h'.sofis k = some s → s.Sound h'.domain

section Steps

variable {h h' : Sharing} {lost left : Nat → Prop} {k : Nat} {e : Event}

theorem has_some {s : Sofi.Holding} (hk : h.sofis k = some s) : h.Has k = s.Has := by
  funext id
  simp [Has, hk]

theorem has_none (hk : h.sofis k = none) : h.Has k = fun _ => False := by
  funext id
  simp [Has, hk]

theorem Sound.there (hs : h.Sound lost) {s : Sofi.Holding} (hk : h.sofis k = some s) (id : Nat)
    (hid : s.Has id) : h.domain.stock.there id :=
  (hs.divided.there id).2 (.inl ⟨k, s, hk, hid⟩)

theorem Sound.deals (hs : h.Sound lost) (hd : Deals h h' k left) :
    h'.Sound fun x => lost x ∨ left x := by
  constructor
  · have hw := hs.divided.works hd.works
    have he : h'.Has = Function.update h.Has k (h'.Has k) := by
      funext j
      by_cases hj : j = k
      · subst hj
        simp
      · rw [Function.update_of_ne hj]
        funext id
        simp [Has, hd.others j hj]
    rwa [he]
  · intro j s hj
    by_cases hjk : j = k
    · subst hjk
      exact hd.sound s hj
    · rw [hd.others j hjk] at hj
      have hsj := hs.sofi j s hj
      refine { hsj with
        tracked := hsj.tracked.elsewhere hd.works (fun id hid => ?_) fun id hid hr => ?_ }
      · exact (hs.divided.there id).2 (.inl ⟨k, hid⟩)
      · rw [← Mr.Confined.registered (m := { s.mrs.mgr with domain := h.domain })
          hsj.confined] at hr
        exact hjk (hs.divided.unique j k id ⟨s, hj, .inr hr⟩ hid)

theorem Sound.step (hs : h.Sound lost) (he : h.enabled e = true) (hstep : h.step e = .ok h') :
    ∃ k, Deals h h' k (h.Left e) := by
  cases e with
  | init k u g =>
    simp only [Sharing.step, bind_eq_ok, pure_eq_ok] at hstep
    obtain ⟨⟨d, s⟩, hreg, rfl⟩ := hstep
    have hk : h.sofis k = none := by simpa [enabled] using he
    obtain ⟨ids, hw, hsofi⟩ := Sofi.register_works hreg
    refine ⟨k, ?_, fun j hj => Function.update_of_ne hj .., fun s' hs' => ?_⟩
    · rw [has_none hk]
      cases s with
      | none =>
        rw [has_none (by simp)]
        refine hw.lose.congr (fun _ => Iff.rfl) (fun _ => Iff.rfl) (fun x => ?_)
        rw [or_false, Left, hreg]
        constructor
        · rintro ⟨d', hd, hle, hthere⟩
          cases hd
          exact ((hw.mine x (.inr hle)).1 hthere).resolve_right not_false
        · intro hx
          exact ⟨d, rfl, (hw.had x (.inl hx)).resolve_left not_false, hw.there (.inl hx)⟩
      | some s =>
        rw [has_some (s := s) (by simp), (hsofi s rfl).1]
        refine hw.congr (fun _ => Iff.rfl) (fun _ => Iff.rfl) (fun x => ?_)
        simp [Left, hreg]
    · exact (hsofi s' (by simpa using hs')).2
  | manage k e =>
    cases hk : h.sofis k with
    | none => simp [enabled, hk] at he
    | some s =>
      simp only [Sharing.step, hk, bind_eq_ok, pure_eq_ok] at hstep
      obtain ⟨r, hr, rfl⟩ := hstep
      obtain ⟨hw, hsound⟩ :=
        (hs.sofi k s hk).manage (hs.there hk) (by simpa [enabled, hk] using he) hr
      refine ⟨k, ?_, fun j hj => Function.update_of_ne hj .., fun s' hs' => ?_⟩
      · rw [has_some hk, has_some (s := { s with mrs := r }) (by simp)]
        exact hw
      · obtain rfl : { s with mrs := r } = s' := by simpa using hs'
        exact hsound
  | term k c =>
    cases hk : h.sofis k with
    | none => simp [enabled, hk] at he
    | some s =>
      simp only [Sharing.step, hk, bind_eq_ok, pure_eq_ok] at hstep
      obtain ⟨d, hd, rfl⟩ := hstep
      have hw := (hs.sofi k s hk).close (hs.there hk) hd
      refine ⟨k, ?_, fun j hj => Function.update_of_ne hj .., fun s' hs' => by simp at hs'⟩
      rw [has_some hk, has_none (by simp)]
      exact hw.congr (fun _ => Iff.rfl) (fun _ => Iff.rfl) (fun x => by simp [Left, hk])

end Steps

section Runs

variable {h : Sharing} {l : List (Sharing × Event)}

theorem run_sound (r : machine.Run l h) : h.Sound fun id => ∃ q ∈ l, q.1.Left q.2 id := by
  induction r with
  | init hi =>
    obtain ⟨hregs, hsofis⟩ := hi
    have hnone : ∀ k, Has _ k = fun _ => False := fun k => has_none (hsofis k)
    refine ⟨⟨fun id => ?_, fun k _ id hk => ?_, fun k id hk => ?_⟩, fun k s hk => ?_⟩
    · simp [Mr.Domain.stock, hregs, hnone]
    · rw [hnone] at hk
      exact hk.elim
    · rw [hnone] at hk
      exact hk.elim
    · rw [hsofis] at hk
      cases hk
  | @step l h e h' r he hs ih =>
    obtain ⟨k, hd⟩ := ih.step he hs
    have hsound := ih.deals hd
    have hl : (fun id => ∃ q ∈ (h, e) :: l, q.1.Left q.2 id) =
        fun id => (∃ q ∈ l, q.1.Left q.2 id) ∨ h.Left e id := by
      funext id
      simp [or_comm]
    rwa [hl]

/-- What is registered on the domain is what the SOFIs have, each registration one of them, and
what was left behind. -/
theorem registrations_accounted (r : machine.Run l h) :
    (∀ id, (h.domain.regs id).isSome = true ↔
        (∃ k, h.Has k id) ∨ ∃ q ∈ l, q.1.Left q.2 id) ∧
      (∀ k j id, h.Has k id → h.Has j id → k = j) ∧
      ∀ k id, h.Has k id → ∀ q ∈ l, ¬ q.1.Left q.2 id := by
  have hd := (run_sound r).divided
  exact ⟨hd.there, hd.unique, fun k id hk q hq hl => hd.kept k id hk ⟨q, hq, hl⟩⟩

def small : Sofi.Setup := .easy ⟨2, 2, 64⟩

def granted : Sofi.Grants := ⟨1024, 0, fun i => 8192 * (i + 1), fun _ => 0⟩

theorem bank_left_behind : ∃ l h, machine.Run l h ∧ (∀ k, h.sofis k = none) ∧
    ∀ id, (h.domain.regs id).isSome = true ↔ id = 4 := by
  have r₀ : machine.Run [] ⟨.unused, fun _ => none⟩ := .init ⟨fun _ => rfl, fun _ => rfl⟩
  have r₁ : machine.Run _ _ := .step (e := .init 0 small granted) r₀ rfl rfl
  have r₂ : machine.Run _ _ := .step (e := .manage 0 (.describe [⟨65536, 100⟩] fun _ => ⟨0, 0⟩))
    r₁ rfl rfl
  have r₃ : machine.Run _ _ := .step (e := .manage 0 (.release ⟨[some 4], [0], []⟩)) r₂ rfl rfl
  have r₄ : machine.Run _ _ := .step (e := .term 0 ⟨fun _ => -16, 0, fun _ => 0, 0⟩) r₃ rfl rfl
  refine ⟨_, _, r₄, fun k => by cases k <;> rfl, fun id => ?_⟩
  rw [(registrations_accounted r₄).1]
  constructor
  · rintro (⟨k, s, hk, _⟩ | ⟨q, hq, hl⟩)
    · cases k <;> cases hk
    · simp only [List.mem_cons, List.not_mem_nil, or_false] at hq
      rcases hq with rfl | rfl | rfl | rfl
      · obtain ⟨s, hs, hl⟩ := hl
        obtain rfl := Option.some.inj hs
        rcases hl with ⟨i, _, hr, hm, _⟩ | ⟨_, hne⟩ | ⟨_, _, hne⟩ | ⟨_, hne⟩
        · cases i with
          | zero => exact (Option.some.inj hm).symm
          | succ i => cases hr
        · exact absurd rfl hne
        · exact absurd rfl hne
        · exact absurd rfl hne
      · exact hl.elim
      · exact hl.elim
      · obtain ⟨d, hd, _⟩ := hl
        cases hd
  · rintro rfl
    exact .inr ⟨_, List.mem_cons_self, _, rfl, .inl ⟨0, by decide, rfl, rfl, by decide⟩⟩

/-- `nn_sofi_init` gets through its registrations when they are granted, and `nn_sofi_term` through
its closings when no message is under way in a bank and nothing that it closes is missing. -/
theorem goes_on_iff (r : machine.Reachable h) :
    (∀ k u g, (∃ h', h.step (.init k u g) = .ok h') ↔ u.Registrable g) ∧
      ∀ k c, (∃ h', h.step (.term k c) = .ok h') ↔ h.Closable k := by
  obtain ⟨l, r⟩ := r
  refine ⟨fun k u g => ?_, fun k c => ?_⟩
  · rw [← Sofi.Setup.register_ok_iff (d := h.domain)]
    simp only [Sharing.step, bind_eq_ok, pure_eq_ok]
    constructor
    · rintro ⟨_, q, hq, _⟩
      exact ⟨q, hq⟩
    · rintro ⟨q, hq⟩
      exact ⟨_, q, hq, rfl⟩
  · simp only [Closable, Sharing.step]
    cases hk : h.sofis k with
    | none => simp
    | some s =>
      have href : (∀ i < s.mrs.mgr.attr.bankCount, (s.mrs.mgr.banks i).ref = 0) ↔
          ∀ c ∈ s.mrs.live, ∀ i < s.mrs.mgr.attr.bankCount, i ∉ c.banks := by
        have hc := ((run_sound r).sofi k s hk).carries
        have hzero : ∀ i, (s.mrs.mgr.banks i).ref = 0 ↔ ∀ c ∈ s.mrs.live, i ∉ c.banks := by
          intro i
          rw [hc.ref, ← Mr.bankUses_eq_zero]
          exact Int.natCast_eq_zero
        simp only [hzero]
        exact ⟨fun h c hc i hi => h i hi c hc, fun h i hi c hc => h c hc i hi⟩
      simp only [bind_eq_ok, pure_eq_ok, Option.some.injEq, forall_eq', ← href,
        ← Sofi.Holding.close_ok_iff (c := c) (d := h.domain)]
      constructor
      · rintro ⟨_, d, hd, _⟩
        exact ⟨d, hd⟩
      · rintro ⟨d, hd⟩
        exact ⟨_, d, hd, rfl⟩

theorem held_not_terminated : ∃ h, machine.Reachable h ∧
    ∀ c, ¬ ∃ h', step h (.term 0 c) = .ok h' := by
  have r₀ : machine.Run [] ⟨.unused, fun _ => none⟩ := .init ⟨fun _ => rfl, fun _ => rfl⟩
  have r₁ : machine.Run _ _ := .step (e := .init 0 small granted) r₀ rfl rfl
  have r₂ : machine.Run _ _ := .step (e := .manage 0 (.describe [⟨65536, 100⟩] fun _ => ⟨0, 0⟩))
    r₁ rfl rfl
  refine ⟨_, r₂.reachable, fun c hc => ?_⟩
  rw [(goes_on_iff r₂.reachable).2] at hc
  exact (hc _ rfl).2.2 ⟨[some 4], [0], []⟩ List.mem_cons_self 0 (by decide) List.mem_cons_self

end Runs

end Sharing

end OfiTransport
