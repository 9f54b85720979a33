import OfiTransport.Fabric.Transport
import OfiTransport.Lib.Fifo
import Mathlib.Algebra.BigOperators.Group.List.Basic
import Mathlib.Algebra.Order.Group.Multiset
import Mathlib.Tactic.Abel

/-! What the transport holds at any time, what it gives back and what is lost. -/

namespace OfiTransport.Fabric

open Lib

def OfiFabric.owned (F : OfiFabric) : Multiset Handle :=
  {(.fabric, F.item), (.info, F.fi), (.thread, F.pool.thread), (.locks, F.pool.locks)}

def OfiDomain.owned (d : OfiDomain) : Multiset Handle :=
  {(.domain, d.item), (.info, d.fi), (.domainFid, d.domain)}

def OfiWorker.owned (w : OfiWorker) : Multiset Handle := {(.worker, w.item)}

namespace Endpoint

def owned : Endpoint → Multiset Handle
  | .bofi self .. => {(.bofi, self)}
  | .cofi self _ => {(.cofi, self)}

def workers : Endpoint → List OfiWorker
  | .bofi _ _ w _ => [w]
  | .cofi .. => []

def held (e : Endpoint) : Multiset Handle :=
  e.owned + e.domain.owned + (e.workers.map OfiWorker.owned).sum

end Endpoint

namespace Transport

def owned (t : Transport) : Multiset Handle :=
  (t.hints.toList.map fun h => {(.info, h)}).sum + (t.fabrics.map OfiFabric.owned).sum +
    (t.domains.map OfiDomain.owned).sum + (t.workers.map OfiWorker.owned).sum +
    (t.endpoints.map Endpoint.owned).sum

def Opens (t : Transport) (address : Address) (flags : AddrFlags) (a : Answers) : Prop :=
  (matchFabric address flags a.found t.strings).2.1 ≠ none ∧ a.fabric = 0 ∧ a.pool = 0

instance (t : Transport) (address : Address) (flags : AddrFlags) (a : Answers) :
    Decidable (t.Opens address flags a) := inferInstanceAs (Decidable (_ ∧ _))

def opens (t : Transport) : Event → Bool
  | .bind address a _ => t.Opens address .addrLocal a
  | .connect address a _ => t.Opens address .addrRemote a
  | .destroy _ | .term => false

def lostOpening (t : Transport) (address : Address) (flags : AddrFlags) (a : Answers) : List Kind :=
  if (matchFabric address flags a.found t.strings).2.1 = none ∨ a.fabric ≠ 0 then []
  else if a.pool ≠ 0 then [.fabricFid, .locks]
  else [.fabricFid, .eqFid]

def lostCreating (domain : Int) (kept : List Kind) : List Kind :=
  if domain ≠ 0 then [.info] else kept

def lost (t : Transport) : Event → List Kind
  | .bind address a domain => t.lostOpening address .addrLocal a ++
      if t.Opens address .addrLocal a then lostCreating domain [.offsets] else []
  | .connect address a domain => t.lostOpening address .addrRemote a ++
      if t.Opens address .addrRemote a then lostCreating domain [] else []
  | .destroy _ | .term => []

section Specs

variable {t : Transport} {h : Handle} {m : Multiset Handle}

theorem release_ok (hl : t.ledger.live = {h} + m) :
    ∃ L, t.release h = .ok { t with ledger := L } ∧ L.live = m := by
  obtain ⟨L, ht, hm, _⟩ := Ledger.take_of_cons (hl.trans (Multiset.singleton_add h m))
  exact ⟨L, by simp [release, ht], hm⟩

theorem alloc_live (k : Kind) (t : Transport) :
    (t.alloc k).2.ledger.live = {(k, (t.alloc k).1)} + t.ledger.live :=
  (Multiset.singleton_add _ _).symm

theorem fabricOpen_spec (address : Address) (flags : AddrFlags) (a : Answers) (t : Transport) :
    ∃ ret o R L, t.fabricOpen address flags a =
        .ok (ret, o, { t with strings := R, fabrics := t.fabrics ++ o.toList, ledger := L }) ∧
      ret = (Fabric.fabricOpen address flags a t.strings).1 ∧
      (o ≠ none ↔ t.Opens address flags a) ∧ (∀ F ∈ o, F.ref = 1) ∧
      ∃ m : Multiset Handle, L.live = (o.toList.map OfiFabric.owned).sum + m + t.ledger.live ∧
        m.map Prod.fst = t.lostOpening address flags a := by
  rcases hm : matchFabric address flags a.found t.strings with ⟨ret, o, R, q⟩
  let n := t.ledger.next
  let L₁ := (t.ledger.give .fabric).2
  let L₂ := (L₁.give .info).2
  let L₃ := (L₂.give .fabricFid).2
  let L₄ := (L₃.give .locks).2
  simp only [Opens, lostOpening, Fabric.fabricOpen, hm]
  cases o with
  | none =>
    obtain ⟨L, hr, hL⟩ := release_ok (t := { t with strings := R, ledger := L₁ })
      (h := (.fabric, n)) (Multiset.singleton_add _ _).symm
    refine ⟨ret, none, R, L, ?_, rfl, by simp, by simp, 0, by simp [hL], by simp⟩
    simp only [fabricOpen, alloc, hm, Option.toList, List.append_nil]
    exact bind_eq_ok.2 ⟨_, hr, rfl⟩
  | some x =>
    by_cases hf : a.fabric = 0
    · by_cases hp : a.pool = 0
      · refine ⟨0, some ⟨n, n + 2, n + 1, ⟨n + 3, n + 4, n + 5⟩, 1⟩, R,
          ((L₄.give .eqFid).2.give .thread).2, ?_, by simp [hf, hp], by simp [hf, hp], by simp,
          {(.fabricFid, n + 2), (.eqFid, n + 4)}, ?_, by simp [hf, hp]; rfl⟩
        · simp only [fabricOpen, alloc, hm, hf, hp, poolInit, ne_eq, not_true_eq_false, if_false]
          rfl
        · simp only [L₄, L₃, L₂, L₁, n, Ledger.give_live, Ledger.give_next, OfiFabric.owned,
            Option.toList, List.map_cons, List.map_nil, List.sum_cons, List.sum_nil,
            Multiset.insert_eq_cons, ← Multiset.singleton_add]
          abel
      · have hl : L₄.live = {(.info, n + 1)} +
            ({(.fabric, n)} + ({(.fabricFid, n + 2), (.locks, n + 3)} + t.ledger.live)) := by
          simp only [L₄, L₃, L₂, L₁, n, Ledger.give_live, Ledger.give_next,
            Multiset.insert_eq_cons, ← Multiset.singleton_add]
          abel
        obtain ⟨L, hr, hL⟩ := release_ok (t := { t with strings := R, ledger := L₄ }) hl
        obtain ⟨L', hr', hL'⟩ := release_ok (t := { t with strings := R, ledger := L }) hL
        refine ⟨a.pool, none, R, L', ?_, by simp [hf, hp], by simp [hp], by simp,
          {(.fabricFid, n + 2), (.locks, n + 3)}, by simp [hL'], by simp [hf, hp]; rfl⟩
        simp only [fabricOpen, alloc, hm, hf, hp, poolInit, ne_eq, not_true_eq_false,
          not_false_eq_true, if_true, if_false, Option.toList, List.append_nil]
        exact bind_eq_ok.2 ⟨_, hr, bind_eq_ok.2 ⟨_, hr', rfl⟩⟩
    · obtain ⟨L, hr, hL⟩ := release_ok (t := { t with strings := R, ledger := L₂ })
        (h := (.info, n + 1)) (Multiset.singleton_add _ _).symm
      obtain ⟨L', hr', hL'⟩ := release_ok (t := { t with strings := R, ledger := L })
        (h := (.fabric, n)) (hL.trans (Multiset.singleton_add _ _).symm)
      refine ⟨a.fabric, none, R, L', ?_, by simp [hf], by simp [hf], by simp, 0, by simp [hL'],
        by simp [hf]⟩
      simp only [fabricOpen, alloc, hm, Option.toList, List.append_nil]
      rw [if_pos hf]
      exact bind_eq_ok.2 ⟨_, hr, bind_eq_ok.2 ⟨_, hr', rfl⟩⟩

theorem domainOpen_spec (F : OfiFabric) (ret : Int) (t : Transport) :
    ∃ o L, t.domainOpen F ret =
        .ok (ret, o, { t with domains := t.domains ++ o.toList, ledger := L }) ∧
      (o = none ↔ ret ≠ 0) ∧ (∀ d ∈ o, d.parent = F.item) ∧
      ∃ m : Multiset Handle, L.live = (o.toList.map OfiDomain.owned).sum + m + t.ledger.live ∧
        m.map Prod.fst = if ret ≠ 0 then {.info} else 0 := by
  let n := t.ledger.next
  let L₁ := (t.ledger.give .domain).2
  let L₂ := (L₁.give .info).2
  by_cases hr : ret = 0
  · refine ⟨some ⟨n, F.item, n + 2, n + 1⟩, (L₂.give .domainFid).2, ?_, by simp [hr], by simp, 0,
      ?_, by simp [hr]⟩
    · simp only [domainOpen, alloc, hr, ne_eq, not_true_eq_false, if_false]
      rfl
    · simp only [L₂, L₁, n, Ledger.give_live, Ledger.give_next, OfiDomain.owned, Option.toList,
        List.map_cons, List.map_nil, List.sum_cons, List.sum_nil, Multiset.insert_eq_cons,
        ← Multiset.singleton_add]
      abel
  · have hl : L₂.live = {(.domain, n)} + ({(.info, n + 1)} + t.ledger.live) := by
      simp only [L₂, L₁, n, Ledger.give_live, Ledger.give_next, ← Multiset.singleton_add]
      abel
    obtain ⟨L, hrel, hL⟩ := release_ok (t := { t with ledger := L₂ }) hl
    refine ⟨none, L, ?_, by simp [hr], by simp, {(.info, n + 1)}, by simp [hL], by simp [hr]⟩
    simp only [domainOpen, alloc, Option.toList, List.append_nil]
    rw [if_pos hr]
    exact bind_eq_ok.2 ⟨_, hrel, rfl⟩

theorem domainClose_ok {d : OfiDomain} (hd : d ∈ t.domains)
    (hl : t.ledger.live = d.owned + m) :
    ∃ L, t.domainClose d = .ok { t with domains := t.domains.erase d, ledger := L } ∧
      L.live = m := by
  have h₁ : t.ledger.live =
      {(.domainFid, d.domain)} + ({(.info, d.fi)} + ({(.domain, d.item)} + m)) := by
    rw [hl]
    simp only [OfiDomain.owned, Multiset.insert_eq_cons, ← Multiset.singleton_add]
    abel
  obtain ⟨L₁, hr₁, hl₁⟩ := release_ok h₁
  obtain ⟨L₂, hr₂, hl₂⟩ := release_ok
    (t := { t with domains := t.domains.erase d, ledger := L₁ }) hl₁
  obtain ⟨L₃, hr₃, hl₃⟩ := release_ok
    (t := { t with domains := t.domains.erase d, ledger := L₂ }) hl₂
  refine ⟨L₃, ?_, hl₃⟩
  rw [domainClose, if_pos hd]
  exact bind_eq_ok.2 ⟨_, hr₁, bind_eq_ok.2 ⟨_, hr₂, hr₃⟩⟩

theorem domainsClose_ok {ds : List OfiDomain} (hd : ds.Subperm t.domains)
    (hl : t.ledger.live = (ds.map OfiDomain.owned).sum + m) :
    ∃ L, t.domainsClose ds = .ok { t with domains := t.domains.diff ds, ledger := L } ∧
      L.live = m := by
  induction ds generalizing t with
  | nil => exact ⟨t.ledger, rfl, by simpa using hl⟩
  | cons d ds ih =>
    have hmem : d ∈ t.domains := hd.subset List.mem_cons_self
    rw [List.map_cons, List.sum_cons, add_assoc] at hl
    obtain ⟨L₁, hr₁, hl₁⟩ := domainClose_ok hmem hl
    have hle : ds.Subperm (t.domains.erase d) := by
      simpa using hd.erase d
    obtain ⟨L, hr, hl'⟩ := ih (t := { t with domains := t.domains.erase d, ledger := L₁ }) hle hl₁
    exact ⟨L, bind_eq_ok.2 ⟨_, hr₁, by rw [hr, List.diff_cons]⟩, hl'⟩

theorem diff_filter_perm {α : Type} [DecidableEq α] (l : List α) (p : α → Bool) :
    (l.diff (l.filter p)).Perm (l.filter fun a => ¬ p a) := by
  rw [← Multiset.coe_eq_coe, ← Multiset.coe_sub]
  simpa using Multiset.sub_filter_eq_filter_not (fun a => p a = true) (l : Multiset α)

theorem sum_diff {α : Type} [DecidableEq α] {l l' : List α} (f : α → Multiset Handle)
    (h : l'.Subperm l) : (l.map f).sum = (l'.map f).sum + ((l.diff l').map f).sum := by
  have hp : (l' ++ l.diff l').Perm l := by
    rw [← Multiset.coe_eq_coe, ← Multiset.coe_add, ← Multiset.coe_sub, add_comm]
    exact Multiset.sub_add_cancel h
  rw [← (hp.map f).sum_eq, List.map_append, List.sum_append]

theorem poolTerm_ok {p : OfiwPool}
    (hl : t.ledger.live = {(.thread, p.thread)} + ({(.locks, p.locks)} + m)) :
    ∃ L, t.poolTerm p = .ok { t with ledger := L } ∧ L.live = m := by
  obtain ⟨L₁, hr₁, hl₁⟩ := release_ok hl
  obtain ⟨L₂, hr₂, hl₂⟩ := release_ok (t := { t with ledger := L₁ }) hl₁
  exact ⟨L₂, bind_eq_ok.2 ⟨_, hr₁, hr₂⟩, hl₂⟩

theorem fabricClose_ok {F : OfiFabric} (hF : F ∈ t.fabrics) (hr : F.ref = 1)
    (hl : t.ledger.live = F.owned +
      (((t.domains.filter fun d => d.parent = F.item).map OfiDomain.owned).sum + m)) :
    ∃ L, t.fabricClose F = .ok { t with
        fabrics := t.fabrics.erase F
        domains := t.domains.diff (t.domains.filter fun d => d.parent = F.item)
        ledger := L } ∧ L.live = m := by
  have h₁ : t.ledger.live =
      ((t.domains.filter fun d => d.parent = F.item).map OfiDomain.owned).sum + ({(.info, F.fi)} +
        ({(.thread, F.pool.thread)} + ({(.locks, F.pool.locks)} + ({(.fabric, F.item)} + m)))) := by
    rw [hl]
    simp only [OfiFabric.owned, Multiset.insert_eq_cons, ← Multiset.singleton_add]
    abel
  obtain ⟨L₁, hr₁, hl₁⟩ := domainsClose_ok (List.filter_sublist.subperm) h₁
  obtain ⟨L₂, hr₂, hl₂⟩ := release_ok (t := { t with
    fabrics := t.fabrics.erase F
    domains := t.domains.diff (t.domains.filter fun d => d.parent = F.item)
    ledger := L₁ }) hl₁
  obtain ⟨L₃, hr₃, hl₃⟩ := poolTerm_ok (t := { t with
    fabrics := t.fabrics.erase F
    domains := t.domains.diff (t.domains.filter fun d => d.parent = F.item)
    ledger := L₂ }) hl₂
  obtain ⟨L₄, hr₄, hl₄⟩ := release_ok (t := { t with
    fabrics := t.fabrics.erase F
    domains := t.domains.diff (t.domains.filter fun d => d.parent = F.item)
    ledger := L₃ }) hl₃
  refine ⟨L₄, ?_, hl₄⟩
  rw [fabricClose, if_pos hF, if_neg (by omega)]
  exact bind_eq_ok.2 ⟨_, hr₁, bind_eq_ok.2 ⟨_, hr₂, bind_eq_ok.2 ⟨_, hr₃, hr₄⟩⟩⟩

theorem fabricsClose_ok {n : Nat} (hn : t.fabrics.length < n) (hone : ∀ F ∈ t.fabrics, F.ref = 1)
    (hhome : ∀ d ∈ t.domains, d.parent ∈ t.fabrics.map OfiFabric.item)
    (hl : t.ledger.live = (t.fabrics.map OfiFabric.owned).sum +
      ((t.domains.map OfiDomain.owned).sum + m)) :
    ∃ L, t.fabricsClose n = .ok { t with fabrics := [], domains := [], ledger := L } ∧
      L.live = m := by
  induction n generalizing t with
  | zero => omega
  | succ n ih =>
    cases hfs : t.fabrics with
    | nil =>
      have hds : t.domains = [] := by
        refine List.eq_nil_iff_forall_not_mem.2 fun d hd => ?_
        simpa [hfs] using hhome d hd
      refine ⟨t.ledger, ?_, by simpa [hfs, hds] using hl⟩
      obtain ⟨_, _, fs, ds, _, _, _⟩ := t
      obtain rfl : fs = [] := hfs
      obtain rfl : ds = [] := hds
      rfl
    | cons F fs =>
      have hF : F ∈ t.fabrics := hfs ▸ List.mem_cons_self
      let p : OfiDomain → Bool := fun d => d.parent = F.item
      have h₁ : t.ledger.live = F.owned + (((t.domains.filter p).map OfiDomain.owned).sum +
          ((fs.map OfiFabric.owned).sum +
            (((t.domains.diff (t.domains.filter p)).map OfiDomain.owned).sum + m))) := by
        rw [hl, hfs, sum_diff OfiDomain.owned (List.filter_sublist (p := p)).subperm, List.map_cons,
          List.sum_cons]
        abel
      obtain ⟨L₁, hr₁, hl₁⟩ := fabricClose_ok hF (hone F hF) h₁
      have hfs' : t.fabrics.erase F = fs := by simp [hfs]
      let t₁ : Transport := { t with
        fabrics := t.fabrics.erase F
        domains := t.domains.diff (t.domains.filter p)
        ledger := L₁ }
      have hn₁ : t₁.fabrics.length < n := by
        simp only [t₁, hfs, List.erase_cons_head, List.length_cons] at hn ⊢
        omega
      have hone₁ : ∀ G ∈ t₁.fabrics, G.ref = 1 := fun G hG => hone G (List.mem_of_mem_erase hG)
      have hhome₁ : ∀ d ∈ t₁.domains, d.parent ∈ t₁.fabrics.map OfiFabric.item := by
        intro d hd
        have hd' : d ∈ t.domains ∧ d.parent ≠ F.item := by
          simpa [p] using (diff_filter_perm t.domains p).subset hd
        have := hhome d hd'.1
        simp only [t₁, hfs, List.erase_cons_head, List.map_cons, List.mem_cons] at this ⊢
        exact this.resolve_left hd'.2
      have hl₂ : t₁.ledger.live = (t₁.fabrics.map OfiFabric.owned).sum +
          ((t₁.domains.map OfiDomain.owned).sum + m) := by
        simpa only [t₁, hfs'] using hl₁
      obtain ⟨L, hr, hl'⟩ := ih hn₁ hone₁ hhome₁ hl₂
      refine ⟨L, ?_, hl'⟩
      rw [fabricsClose, hfs]
      exact bind_eq_ok.2 ⟨_, hr₁, hr⟩

theorem term_ok {i : Nat} (hi : t.hints = some i) (hone : ∀ F ∈ t.fabrics, F.ref = 1)
    (hhome : ∀ d ∈ t.domains, d.parent ∈ t.fabrics.map OfiFabric.item)
    (hl : t.ledger.live = (t.fabrics.map OfiFabric.owned).sum +
      ((t.domains.map OfiDomain.owned).sum + ({(.info, i)} + m))) :
    ∃ R L, t.term = .ok { t with
        strings := R, hints := none, fabrics := [], domains := [], ledger := L } ∧ L.live = m := by
  have hn : t.fabrics.length < (t.fabrics.map fun F => F.ref.toNat).sum + 1 := by
    rw [List.map_congr_left (g := fun _ => 1) fun F hF => by rw [hone F hF]; rfl]
    simp
  obtain ⟨L₁, hr₁, hl₁⟩ := fabricsClose_ok hn hone hhome hl
  let R : Resources := { t.strings with hints := ⟨none⟩ }
  obtain ⟨L, hr, hl'⟩ := release_ok (t := { t with
    strings := R, fabrics := [], domains := [], ledger := L₁ }) hl₁
  refine ⟨R, L, bind_eq_ok.2 ⟨_, hr₁, ?_⟩, hl'⟩
  simp only [hi] at hr ⊢
  exact bind_eq_ok.2 ⟨_, hr, rfl⟩

theorem ofiwTerm_ok {w : OfiWorker} (hw : w ∈ t.workers)
    (hp : w.parent ∈ t.fabrics.map OfiFabric.item) (hl : t.ledger.live = w.owned + m) :
    ∃ L, t.ofiwTerm w = .ok { t with workers := t.workers.erase w, ledger := L } ∧ L.live = m := by
  obtain ⟨L, hr, hl'⟩ := release_ok (t := { t with workers := t.workers.erase w }) hl
  exact ⟨L, by rw [ofiwTerm, if_pos ⟨hw, hp⟩, hr], hl'⟩

def Creates (F : OfiFabric) (ks : List Kind) (t : Transport) (x : M (Int × Transport)) : Prop :=
  ∃ (r : Int) (o : Option Endpoint) (L : Ledger Kind), x = .ok (r, { t with
      domains := t.domains ++ o.toList.map Endpoint.domain
      workers := t.workers ++ o.toList.flatMap Endpoint.workers
      endpoints := t.endpoints ++ o.toList
      ledger := L }) ∧
    (∀ e ∈ o, e.domain.parent = F.item ∧ ∀ w ∈ e.workers, w.parent = F.item) ∧
    ∃ m : Multiset Handle, L.live = (o.toList.map Endpoint.held).sum + m + t.ledger.live ∧
      m.map Prod.fst = ks

theorem allocDomain_spec (k : Kind) (F : OfiFabric) (ret : Int) (t : Transport) :
    (ret ≠ 0 ∧ ∃ L L' m,
        (t.alloc k).2.domainOpen F ret = .ok (ret, none, { (t.alloc k).2 with ledger := L }) ∧
        { (t.alloc k).2 with ledger := L }.release (k, (t.alloc k).1) =
          .ok { t with ledger := L' } ∧
        L'.live = m + t.ledger.live ∧ m.map Prod.fst = {.info}) ∨
      (ret = 0 ∧ ∃ d L, (t.alloc k).2.domainOpen F ret =
          .ok (0, some d, { (t.alloc k).2 with domains := t.domains ++ [d], ledger := L }) ∧
        d.parent = F.item ∧ L.live = d.owned + {(k, (t.alloc k).1)} + t.ledger.live) := by
  obtain ⟨o, L, hopen, ho, hpar, m, hl, hm⟩ := domainOpen_spec F ret (t.alloc k).2
  rw [alloc_live] at hl
  cases o with
  | none =>
    have hne := ho.1 rfl
    have hl' : L.live = {(k, (t.alloc k).1)} + (m + t.ledger.live) := by
      rw [hl]
      simp only [Option.toList, List.map_nil, List.sum_nil, zero_add]
      abel
    obtain ⟨L', hr, hL'⟩ := release_ok (t := { (t.alloc k).2 with ledger := L }) hl'
    refine .inl ⟨hne, L, L', m, ?_, hr, hL', by simpa [hne] using hm⟩
    simpa only [Option.toList, List.append_nil] using hopen
  | some d =>
    have hz : ret = 0 := not_not.1 fun hne => absurd (ho.2 hne) (by simp)
    obtain rfl : m = 0 := by simpa [hz] using hm
    subst hz
    refine .inr ⟨rfl, d, L, hopen, hpar d rfl, ?_⟩
    rw [hl, Option.toList, List.map_cons, List.map_nil, List.sum_cons, List.sum_nil]
    abel

theorem bofiCreate_spec (F : OfiFabric) (ret : Int) (t : Transport) :
    Creates F (lostCreating ret [.offsets]) t (t.bofiCreate F ret) := by
  obtain ⟨hne, L, L', m, hopen, hr, hl, hm⟩ | ⟨rfl, d, L, hopen, hpar, hl⟩ :=
    allocDomain_spec .bofi F ret t
  · refine ⟨ret, none, L', ?_, by simp, m, by simp [hl], by simp [hm, lostCreating, hne]⟩
    simp only [Option.toList, List.map_nil, List.append_nil, List.flatMap_nil]
    exact bind_eq_ok.2 ⟨_, hopen, bind_eq_ok.2 ⟨_, hr, rfl⟩⟩
  · let L₁ := (L.give .worker).2
    refine ⟨0, some (.bofi (t.alloc .bofi).1 d ⟨L.next, F.item⟩ (L.next + 1)), (L₁.give .offsets).2,
      bind_eq_ok.2 ⟨_, hopen, rfl⟩, ?_, {(.offsets, L.next + 1)}, ?_, ?_⟩
    · simpa [Endpoint.domain, Endpoint.workers] using hpar
    · simp only [L₁, Ledger.give_live, Ledger.give_next, hl, Endpoint.held, Endpoint.owned,
        Endpoint.domain, Endpoint.workers, OfiWorker.owned, Option.toList, List.map_cons,
        List.map_nil, List.sum_cons, List.sum_nil, ← Multiset.singleton_add]
      abel
    · simp [lostCreating]

theorem cofiCreate_spec (F : OfiFabric) (ret : Int) (t : Transport) :
    Creates F (lostCreating ret []) t (t.cofiCreate F ret) := by
  obtain ⟨hne, L, L', m, hopen, hr, hl, hm⟩ | ⟨rfl, d, L, hopen, hpar, hl⟩ :=
    allocDomain_spec .cofi F ret t
  · refine ⟨ret, none, L', ?_, by simp, m, by simp [hl], by simp [hm, lostCreating, hne]⟩
    simp only [Option.toList, List.map_nil, List.append_nil, List.flatMap_nil]
    exact bind_eq_ok.2 ⟨_, hopen, bind_eq_ok.2 ⟨_, hr, rfl⟩⟩
  · refine ⟨0, some (.cofi (t.alloc .cofi).1 d), L, bind_eq_ok.2 ⟨_, hopen, ?_⟩, ?_, 0, ?_, ?_⟩
    · simp [Endpoint.domain, Endpoint.workers, alloc, pure, Except.pure]
    · simpa [Endpoint.domain, Endpoint.workers] using hpar
    · simp only [hl, Endpoint.held, Endpoint.owned, Endpoint.domain, Endpoint.workers,
        Option.toList, List.map_cons, List.map_nil, List.sum_cons, List.sum_nil]
      abel
    · simp [lostCreating]

theorem destroy_ok {e : Endpoint} (hd : e.domain ∈ t.domains) (hw : ∀ w ∈ e.workers,
      w ∈ t.workers ∧ w.parent ∈ t.fabrics.map OfiFabric.item)
    (hl : t.ledger.live = e.held + m) :
    ∃ L, t.destroy e = .ok { t with
        domains := t.domains.erase e.domain
        workers := t.workers.diff e.workers
        endpoints := t.endpoints.erase e
        ledger := L } ∧ L.live = m := by
  cases e with
  | bofi self d w offsets =>
    have h₁ : t.ledger.live = d.owned + (w.owned + ({(.bofi, self)} + m)) := by
      rw [hl]
      simp only [Endpoint.held, Endpoint.owned, Endpoint.domain, Endpoint.workers, List.map_cons,
        List.map_nil, List.sum_cons, List.sum_nil]
      abel
    obtain ⟨hwt, hwp⟩ := hw w (by simp [Endpoint.workers])
    obtain ⟨L₁, hr₁, hl₁⟩ := domainClose_ok hd h₁
    obtain ⟨L₂, hr₂, hl₂⟩ := ofiwTerm_ok
      (t := { t with domains := t.domains.erase d, ledger := L₁ }) hwt hwp hl₁
    obtain ⟨L₃, hr₃, hl₃⟩ := release_ok (t := { t with
      domains := t.domains.erase d, workers := t.workers.erase w, ledger := L₂ }) hl₂
    refine ⟨L₃, bind_eq_ok.2 ⟨_, hr₁, bind_eq_ok.2 ⟨_, hr₂, bind_eq_ok.2 ⟨_, hr₃, ?_⟩⟩⟩, hl₃⟩
    simp [Endpoint.domain, Endpoint.workers, List.diff_cons]
  | cofi self d =>
    have h₁ : t.ledger.live = d.owned + ({(.cofi, self)} + m) := by
      rw [hl]
      simp only [Endpoint.held, Endpoint.owned, Endpoint.domain, Endpoint.workers, List.map_nil,
        List.sum_nil]
      abel
    obtain ⟨L₁, hr₁, hl₁⟩ := domainClose_ok hd h₁
    obtain ⟨L₂, hr₂, hl₂⟩ := release_ok
      (t := { t with domains := t.domains.erase d, ledger := L₁ }) hl₁
    exact ⟨L₂, bind_eq_ok.2 ⟨_, hr₁, bind_eq_ok.2 ⟨_, hr₂, rfl⟩⟩, hl₂⟩

end Specs

/-! Whole runs. -/

structure Tree (t : Transport) : Prop where
  single : ∀ F ∈ t.fabrics, F.ref = 1
  domains : t.domains.Perm (t.endpoints.map Endpoint.domain)
  workers : t.workers.Perm (t.endpoints.flatMap Endpoint.workers)
  homes : ∀ d ∈ t.domains, d.parent ∈ t.fabrics.map OfiFabric.item
  pools : ∀ w ∈ t.workers, w.parent ∈ t.fabrics.map OfiFabric.item

inductive Shape (t : Transport) : Prop
  | up (hi : t.hints.isSome = true) (h : Tree t)
  | down (hi : t.hints = none) (hf : t.fabrics = []) (hd : t.domains = [])
      (hw : t.workers.Perm (t.endpoints.flatMap Endpoint.workers))

def Accounts (ks : List Kind) (t : Transport) : Prop :=
  ∃ m : Multiset Handle, t.ledger.live = t.owned + m ∧ m.map Prod.fst = ks

/-- Destroying an endpoint of a transport that was terminated. -/
def Safe (t : Transport) : Event → Prop
  | .destroy _ => t.hints.isSome = true
  | _ => True

section Runs

variable {t t' : Transport} {e : Event} {ks : List Kind}

theorem open_spec {create : OfiFabric → Transport → M (Int × Transport)} {lost : List Kind}
    (hc : ∀ F t, Creates F lost t (create F t)) (address : Address) (flags : AddrFlags)
    (a : Answers) (ht : Tree t) (ha : Accounts ks t) :
    ∃ r t', (do
        match ← t.fabricOpen address flags a with
        | (ret, none, t) => return (ret, t)
        | (_, some F, t) => create F t) = .ok (r, t') ∧
      t'.hints = t.hints ∧ Tree t' ∧
      Accounts (ks ++ (t.lostOpening address flags a ++
        if t.Opens address flags a then lost else [])) t' ∧
      t'.fabrics.length = t.fabrics.length + if t.Opens address flags a then 1 else 0 := by
  obtain ⟨ret, o, R, L, hopen, -, ho, hone, m, hl, hm⟩ := fabricOpen_spec address flags a t
  obtain ⟨m₀, hl₀, hm₀⟩ := ha
  cases o with
  | none =>
    have hno : ¬ t.Opens address flags a := fun h => ho.2 h rfl
    refine ⟨ret, _, bind_eq_ok.2 ⟨_, hopen, rfl⟩, rfl, ?_, ⟨m₀ + m, ?_, ?_⟩, by simp [hno]⟩
    · simpa using (⟨ht.single, ht.domains, ht.workers, ht.homes, ht.pools⟩ :
        Tree { t with strings := R, ledger := L })
    · simp only [hl, hl₀, owned, Option.toList, List.append_nil, List.map_nil, List.sum_nil,
        zero_add]
      abel
    · simp [hm₀, hm, hno]
  | some F =>
    have hyes : t.Opens address flags a := ho.1 (by simp)
    obtain ⟨r, o, L', hcr, hpar, m', hl', hm'⟩ := hc F
      { t with strings := R, fabrics := t.fabrics ++ (some F).toList, ledger := L }
    refine ⟨r, _, bind_eq_ok.2 ⟨_, hopen, hcr⟩, rfl, ?_, ⟨m₀ + m + m', ?_, ?_⟩, by simp [hyes]⟩
    · refine ⟨?_, ?_, ?_, ?_, ?_⟩
      · simp only [List.mem_append]
        rintro G (hG | hG)
        · exact ht.single G hG
        · exact hone G (by simpa [eq_comm] using hG)
      · simpa using ht.domains.append_right _
      · simpa using ht.workers.append_right _
      · simp only [List.mem_append, List.map_append]
        rintro d (hd | hd)
        · exact .inl (ht.homes d hd)
        · right
          obtain ⟨e, he, rfl⟩ := List.mem_map.1 hd
          simp [(hpar e (by simpa using he)).1]
      · simp only [List.mem_append, List.map_append]
        rintro w (hw | hw)
        · exact .inl (ht.pools w hw)
        · right
          obtain ⟨e, he, hwe⟩ := List.mem_flatMap.1 hw
          simp [(hpar e (by simpa using he)).2 w hwe]
    · simp only [hl', hl, hl₀, owned, List.map_append, List.sum_append]
      cases o with
      | none =>
        simp only [Option.toList, List.map_nil, List.sum_nil, List.flatMap_nil]
        abel
      | some e =>
        simp only [Option.toList, List.map_cons, List.map_nil, List.sum_cons, List.sum_nil,
          List.flatMap_cons, List.flatMap_nil, List.append_nil, Endpoint.held]
        abel
    · simp [hm₀, hm, hm', hyes]

theorem Endpoint.workers_diff {e : Endpoint} {es : List Endpoint} (he : e ∈ es)
    {ws : List OfiWorker} (hw : ws.Perm (es.flatMap Endpoint.workers)) :
    e.workers.Subperm ws ∧ (ws.diff e.workers).Perm ((es.erase e).flatMap Endpoint.workers) := by
  have hp : ws.Perm (e.workers ++ (es.erase e).flatMap Endpoint.workers) :=
    hw.trans ((List.perm_cons_erase he).flatMap_right _)
  refine ⟨(List.sublist_append_left _ _).subperm.trans hp.symm.subperm, ?_⟩
  cases e with
  | bofi self d w offsets => simpa [Endpoint.workers, List.diff_cons] using hp.erase w
  | cofi => simpa [Endpoint.workers] using hp

theorem Tree.destroy {e : Endpoint} (ht : Tree t) (he : e ∈ t.endpoints) (ha : Accounts ks t) :
    ∃ t', t.destroy e = .ok t' ∧ t'.hints = t.hints ∧ t'.fabrics = t.fabrics ∧ Tree t' ∧
      Accounts ks t' := by
  obtain ⟨m, hl, hm⟩ := ha
  have hd : e.domain ∈ t.domains := ht.domains.symm.subset (List.mem_map_of_mem he)
  obtain ⟨hsub, hws⟩ := Endpoint.workers_diff he ht.workers
  have hw : ∀ w ∈ e.workers, w ∈ t.workers ∧ w.parent ∈ t.fabrics.map OfiFabric.item := by
    intro w hw
    have hwt := hsub.subset hw
    exact ⟨hwt, ht.pools w hwt⟩
  let t₁ : Transport := { t with
    domains := t.domains.erase e.domain
    workers := t.workers.diff e.workers
    endpoints := t.endpoints.erase e }
  have hown : t.owned = e.held + t₁.owned := by
    simp only [t₁, owned, Endpoint.held, ← List.sum_map_erase OfiDomain.owned hd,
      ← List.sum_map_erase Endpoint.owned he, sum_diff OfiWorker.owned hsub]
    abel
  rw [hown, add_assoc] at hl
  obtain ⟨L, hdes, hL⟩ := destroy_ok hd hw hl
  refine ⟨_, hdes, rfl, rfl, ⟨ht.single, ?_, hws, ?_, ?_⟩, m, hL, hm⟩
  · simpa using (ht.domains.trans ((List.perm_cons_erase he).map _)).erase e.domain
  · exact fun d hd => ht.homes d (List.mem_of_mem_erase hd)
  · exact fun w hw => ht.pools w (List.diff_subset _ _ hw)

theorem Tree.term {i : Nat} (ht : Tree t) (hi : t.hints = some i) (ha : Accounts ks t) :
    ∃ t', t.term = .ok t' ∧ t'.hints = none ∧ Shape t' ∧ Accounts ks t' := by
  obtain ⟨m, hl, hm⟩ := ha
  have hl' : t.ledger.live = (t.fabrics.map OfiFabric.owned).sum +
      ((t.domains.map OfiDomain.owned).sum + ({(.info, i)} +
        ((t.workers.map OfiWorker.owned).sum + (t.endpoints.map Endpoint.owned).sum + m))) := by
    rw [hl]
    simp only [owned, hi, Option.toList, List.map_cons, List.map_nil, List.sum_cons, List.sum_nil]
    abel
  obtain ⟨R, L, hterm, hL⟩ := term_ok hi ht.single ht.homes hl'
  refine ⟨_, hterm, rfl, .down rfl rfl rfl ht.workers, m, ?_, hm⟩
  simp [hL, owned]

theorem Safe.up (hsafe : t.Safe e) (he : t.enabled e = true) : t.hints.isSome = true := by
  cases e with
  | destroy e => exact hsafe
  | _ => exact he

theorem step_spec (hs : Shape t) (ha : Accounts ks t) (he : t.enabled e = true) (hsafe : t.Safe e) :
    ∃ t', t.step e = .ok t' ∧ Shape t' ∧ Accounts (ks ++ t.lost e) t' ∧
      (t'.hints.isSome = true →
        t'.fabrics.length = t.fabrics.length + if t.opens e then 1 else 0) := by
  have hup := hsafe.up he
  cases hs with
  | down hi => simp [hi] at hup
  | up _ ht =>
    cases e with
    | bind address a domain =>
      obtain ⟨r, t', hstep, hi, ht', ha', hn⟩ :=
        open_spec (fun F t => bofiCreate_spec F domain t) address .addrLocal a ht ha
      exact ⟨t', bind_eq_ok.2 ⟨_, hstep, rfl⟩, .up (hi ▸ hup) ht', ha',
        fun _ => by simpa [opens] using hn⟩
    | connect address a domain =>
      obtain ⟨r, t', hstep, hi, ht', ha', hn⟩ :=
        open_spec (fun F t => cofiCreate_spec F domain t) address .addrRemote a ht ha
      exact ⟨t', bind_eq_ok.2 ⟨_, hstep, rfl⟩, .up (hi ▸ hup) ht', ha',
        fun _ => by simpa [opens] using hn⟩
    | destroy e =>
      obtain ⟨t', hstep, hi, hf, ht', ha'⟩ := ht.destroy (by simpa [enabled] using he) ha
      exact ⟨t', hstep, .up (hi ▸ hup) ht', by simpa [lost] using ha', fun _ => by simp [hf, opens]⟩
    | term =>
      obtain ⟨i, hi⟩ := Option.isSome_iff_exists.1 hup
      obtain ⟨t', hstep, hi', hs', ha'⟩ := ht.term hi ha
      exact ⟨t', hstep, hs', by simpa [lost] using ha', fun h => by simp [hi'] at h⟩

theorem step_unsafe (hs : Shape t) (hsafe : ¬ t.Safe e) : t.step e = .error .useAfterFree := by
  cases e with
  | destroy e =>
    cases hs with
    | up hi => exact absurd hi hsafe
    | down _ _ hd =>
      cases e <;> simp [step, Transport.destroy, domainClose, hd, Bind.bind, Except.bind]
  | _ => exact absurd trivial hsafe

theorem start_shape (h : Allocated) : Shape (start h) ∧ Accounts [] (start h) := by
  refine ⟨.up rfl ⟨by simp [start], .refl _, .refl _, by simp [start], by simp [start]⟩, 0, ?_, rfl⟩
  simp [start, owned]
  rfl

theorem run_shape {h : List (Transport × Event)} (r : machine.Run h t) :
    Shape t ∧ Accounts (Machine.collect lost h) t ∧
      (t.hints.isSome = true → t.fabrics.length = h.countP fun p => p.1.opens p.2) := by
  induction r with
  | init hi =>
    obtain ⟨a, rfl⟩ := hi
    exact ⟨(start_shape a).1, (start_shape a).2, fun _ => rfl⟩
  | @step h t e t' r he hs ih =>
    obtain ⟨hshape, hacc, hn⟩ := ih
    have hsafe : t.Safe e := by
      by_contra hno
      rw [show machine.step t e = t.step e from rfl, step_unsafe hshape hno] at hs
      cases hs
    obtain ⟨t₁, hs₁, hshape', hacc', hn'⟩ := step_spec hshape hacc he hsafe
    obtain rfl : t₁ = t' := Except.ok.inj (hs₁.symm.trans hs)
    refine ⟨hshape', by simpa using hacc', fun hi => ?_⟩
    rw [hn' hi, hn (hsafe.up he), List.countP_cons]

theorem count_kind {α : Type} {f : α → Multiset Handle} {k : Kind} {c : Nat}
    (hf : ∀ a, ((f a).map Prod.fst).count k = c) (l : List α) :
    ((l.map f).sum.map Prod.fst).count k = c * l.length := by
  induction l with
  | nil => simp
  | cons a l ih =>
    rw [List.map_cons, List.sum_cons, Multiset.map_add, Multiset.count_add, hf, ih,
      List.length_cons]
    exact (Nat.mul_succ c l.length).symm ▸ Nat.add_comm _ _

theorem count_thread_owned (t : Transport) :
    (t.owned.map Prod.fst).count .thread = t.fabrics.length := by
  simp only [owned, Multiset.map_add, Multiset.count_add]
  rw [count_kind (c := 0) (fun _ => rfl), count_kind (c := 1) (fun _ => rfl),
    count_kind (c := 0) (fun _ => rfl), count_kind (c := 0) (fun _ => rfl),
    count_kind (c := 0) (fun e => by cases e <;> rfl)]
  omega

theorem thread_notMem_lost (h : List (Transport × Event)) :
    Kind.thread ∉ Machine.collect lost h := by
  induction h with
  | nil => simp
  | cons p h ih =>
    rw [Machine.collect_cons, List.mem_append, not_or]
    refine ⟨ih, ?_⟩
    obtain ⟨t, e⟩ := p
    have ho : ∀ address flags a, Kind.thread ∉ t.lostOpening address flags a := by
      intro address flags a
      unfold lostOpening
      split_ifs <;> simp
    have hc : ∀ domain, Kind.thread ∉ lostCreating domain [.offsets] ∧
        Kind.thread ∉ lostCreating domain [] := by
      intro domain
      unfold lostCreating
      split_ifs <;> simp
    cases e with
    | bind address a domain =>
      simp only [lost, List.mem_append, not_or]
      refine ⟨ho _ _ _, ?_⟩
      split_ifs
      exacts [(hc domain).1, List.not_mem_nil]
    | connect address a domain =>
      simp only [lost, List.mem_append, not_or]
      refine ⟨ho _ _ _, ?_⟩
      split_ifs
      exacts [(hc domain).2, List.not_mem_nil]
    | destroy => exact List.not_mem_nil
    | term => exact List.not_mem_nil

end Runs

def somewhere : Address := ⟨[colon], by decide⟩

def resolved : Answers := ⟨⟨0, some 0⟩, 0, 0⟩

def server : Endpoint := .bofi 7 ⟨8, 1, 10, 9⟩ ⟨11, 1⟩ 12

/-- Nothing is used after it was freed, closed twice or freed twice, unless nanomsg destroys an
endpoint of a transport that it has terminated. -/
theorem fails_iff {t : Transport} {e : Event} (r : machine.Reachable t) (he : t.enabled e = true) :
    (∀ f, t.step e = .error f → f = .useAfterFree) ∧
      ((∃ t', t.step e = .ok t') ↔ ∀ ep, e = .destroy ep → t.hints.isSome = true) := by
  obtain ⟨h, r⟩ := r
  obtain ⟨hs, ha, _⟩ := run_shape r
  have hiff : t.Safe e ↔ ∀ ep, e = .destroy ep → t.hints.isSome = true := by
    cases e <;> simp [Safe]
  rw [← hiff]
  by_cases hsafe : t.Safe e
  · obtain ⟨t', hstep, _⟩ := step_spec hs ha he hsafe
    exact ⟨fun f hf => by simp [hstep] at hf, iff_of_true ⟨t', hstep⟩ hsafe⟩
  · have hstep := step_unsafe hs hsafe
    refine ⟨fun f hf => ?_, iff_of_false ?_ hsafe⟩
    · rw [hstep] at hf
      exact (Except.error.inj hf).symm
    · rintro ⟨t', ht'⟩
      rw [hstep] at ht'
      cases ht'

theorem server_destroyed : ∃ t t', t.endpoints = [server] ∧ step t (.destroy server) = .ok t' := by
  have r := Machine.Run.step (M := machine) (e := .bind somewhere resolved 0)
    (.init ⟨.zeroed, rfl⟩) rfl rfl
  obtain ⟨t', ht'⟩ := (fails_iff r.reachable (e := .destroy server) (by decide)).2.2 fun _ _ => rfl
  exact ⟨_, t', rfl, ht'⟩

/-- The poller of a fabric runs on until the transport is terminated, whatever became of the
endpoint that the fabric was opened for, while a domain is closed with its endpoint. -/
theorem pollers_run {h : List (Transport × Event)} {t : Transport} (r : machine.Run h t)
    (hi : t.hints.isSome = true) :
    (t.ledger.live.map Prod.fst).count .thread = h.countP (fun p => p.1.opens p.2) ∧
      t.domains.Perm (t.endpoints.map Endpoint.domain) := by
  obtain ⟨hs, ⟨m, hl, hm⟩, hn⟩ := run_shape r
  refine ⟨?_, ?_⟩
  · rw [hl, Multiset.map_add, Multiset.count_add, count_thread_owned, hm, hn hi,
      Multiset.count_eq_zero.2 (by simpa using thread_notMem_lost h), Nat.add_zero]
  · cases hs with
    | up _ ht => exact ht.domains
    | down hi' => simp [hi'] at hi

theorem two_pollers : ∃ h t, machine.Run h t ∧ t.endpoints = [] ∧ t.domains = [] ∧
    (t.ledger.live.map Prod.fst).count .thread = 2 := by
  have r₁ := Machine.Run.step (M := machine) (e := .bind somewhere resolved 0)
    (.init ⟨.zeroed, rfl⟩) rfl rfl
  have r₂ := r₁.step (e := .connect somewhere resolved (-12)) rfl rfl
  have r₃ := r₂.step (e := .destroy server) (by decide) rfl
  obtain ⟨hn, hd⟩ := pollers_run r₃ rfl
  exact ⟨_, _, r₃, rfl, hd.eq_nil, hn.trans (by decide)⟩

/-- What is never given back, when every endpoint was destroyed and then the transport
terminated. -/
theorem term_leaves {h : List (Transport × Event)} {t : Transport} (r : machine.Run h t)
    (hi : t.hints = none) (he : t.endpoints = []) :
    t.ledger.live.map Prod.fst = Machine.collect lost h := by
  obtain ⟨hs, ⟨m, hl, hm⟩, _⟩ := run_shape r
  cases hs with
  | up hi' => simp [hi] at hi'
  | down _ hf hd hw =>
    have hws : t.workers = [] := by
      rw [he] at hw
      exact hw.eq_nil
    rw [hl, ← hm]
    simp [owned, hi, hf, hd, hws, he]

theorem session_leaves : ∃ h t, machine.Run h t ∧ t.hints = none ∧ t.ledger.live.map Prod.fst =
    ([.fabricFid, .eqFid, .offsets, .fabricFid, .eqFid, .info] : List Kind) := by
  have r₁ := Machine.Run.step (M := machine) (e := .bind somewhere resolved 0)
    (.init ⟨.zeroed, rfl⟩) rfl rfl
  have r₂ := r₁.step (e := .connect somewhere resolved (-12)) rfl rfl
  have r₃ := r₂.step (e := .destroy server) (by decide) rfl
  have r₄ := r₃.step (e := .term) rfl rfl
  exact ⟨_, _, r₄, rfl, (term_leaves r₄ rfl rfl).trans (by decide)⟩

end Transport

end OfiTransport.Fabric
