import OfiTransport.Bofi.Opening
import OfiTransport.Lib.Machine
import OfiTransport.Nanomsg
import Mathlib.Algebra.Order.Group.Multiset
import Mathlib.Data.Finset.Card
import Mathlib.Tactic.Abel

/-! Endpoints that are opened and closed in any order, and what the attempts that failed leave
behind for good: objects of the provider, structures, and the buffers of the workers' items. -/

namespace OfiTransport.Opening

open Lib Attempt

deriving instance DecidableEq for Info, ActiveEndpoint

namespace ActiveEndpoint

def fids (a : ActiveEndpoint) : List Fid :=
  [⟨.ep, a.ep⟩, ⟨.queue .eq, a.eq⟩, ⟨.queue .cq, a.cqTx⟩, ⟨.queue .cq, a.cqRx⟩]

def watches (src : Nat) (a : ActiveEndpoint) : List Watch :=
  [⟨.eq, a.eq, src ||| OFI_SRC_EQ, eqCmEntrySize⟩,
    ⟨.cq, a.cqTx, src ||| OFI_SRC_CQ_TX, a.fi.txSize⟩,
    ⟨.cq, a.cqRx, src ||| OFI_SRC_CQ_RX, a.fi.rxSize⟩]

end ActiveEndpoint

def Watch.fid (it : Watch) : Fid := ⟨.queue it.fdType, it.fd⟩

namespace World

def unwatch (fd : Nat) (s : World) : World :=
  { s with items := s.items.eraseP fun it => it.fd = fd }

/-- `fi_cancel` and `fi_eq_read` need the object. -/
def useFid (f : Fid) (s : World) : M Unit := if f ∈ s.fids then .ok () else .error .useAfterFree

def without (f : Fid) (s : World) : World :=
  { s with
    fids := s.fids.erase f
    fresh := fun g hg => s.fresh g (List.mem_of_mem_erase hg) }

/-- `FT_CLOSE_FID` -/
def closeFid (f : Fid) (s : World) : M World :=
  if f ∈ s.fids then .ok (s.without f) else .error .useAfterFree

/-- The end of `ofi_active_endpoint_close`. -/
def freeEndpoint (a : ActiveEndpoint) (s : World) : M World :=
  if a.fi.id ∈ s.infos ∧ a.id ∈ s.aeps then
    .ok { s with infos := s.infos.erase a.fi.id, aeps := s.aeps.erase a.id }
  else .error .useAfterFree

end World

def activeEndpointClose (a : ActiveEndpoint) (s : World) : M World := do
  let s := ((s.unwatch a.eq).unwatch a.cqTx).unwatch a.cqRx
  s.useFid ⟨.ep, a.ep⟩
  s.useFid ⟨.queue .eq, a.eq⟩
  let s ← s.closeFid ⟨.ep, a.ep⟩
  let s ← s.closeFid ⟨.queue .eq, a.eq⟩
  let s ← s.closeFid ⟨.queue .cq, a.cqTx⟩
  let s ← s.closeFid ⟨.queue .cq, a.cqRx⟩
  s.freeEndpoint a

/-- A SOFI that was started, as far as it concerns the provider: the endpoint, if it could be
opened, and the items of its worker. -/
structure Port where
  aep : Option ActiveEndpoint
  items : List Watch
  deriving DecidableEq

/-- The SOFIs, the `fi_info` that came with connection requests, and the data buffers of items
that were not freed.  The items of the world are those of all workers. -/
structure Ports where
  world : World
  ports : List Port
  requests : List Info
  buffers : Nat

namespace Ports

/-- FI_CONNREQ brings an `fi_info`.  A SOFI is started with it, or with the `fi_info` of the
domain.  It closes its endpoint, or is terminated because it was not started. -/
inductive Event
  | request (txSize rxSize : Nat)
  | start (o : Sofi.Opening) (d : Domain) (src : Nat) (fi : Option Info)
  | close (a : ActiveEndpoint)
  | term (x : Port)

def request (txSize rxSize : Nat) (p : Ports) : Ports :=
  { p with
    world := (World.dupInfo ⟨0, txSize, rxSize⟩ p.world).2
    requests := p.requests ++ [(World.dupInfo ⟨0, txSize, rxSize⟩ p.world).1] }

/-- `ofi_active_endpoint_open` -/
def start (o : Sofi.Opening) (d : Domain) (src : Nat) (fi : Option Info) (p : Ports) : Ports :=
  let (r, w) := (activeEndpointOpen none o d src fi).run.run p.world
  let items := w.items.drop p.world.items.length
  { world := w
    ports := p.ports ++ [⟨r.toOption, items⟩]
    requests := fi.elim p.requests p.requests.erase
    buffers := p.buffers + items.length }

/-- `ofi_active_endpoint_close`.  An item that is removed is freed with its buffer, and nothing
is left for `nn_ofiw_term`. -/
def close (a : ActiveEndpoint) (p : Ports) : M Ports := do
  let w ← activeEndpointClose a p.world
  return { p with
    world := w
    ports := p.ports.eraseP fun x => x.aep = some a
    buffers := p.buffers - (p.world.items.length - w.items.length) }

/-- `nn_ofiw_term` frees the items and leaves their buffers. -/
def term (x : Port) (p : Ports) : Ports :=
  { p with
    world := { p.world with items := p.world.items.diff x.items }
    ports := p.ports.erase x }

def enabled (p : Ports) : Event → Bool
  | .request .. => true
  | .start _ _ _ fi => fi.all fun i => i ∈ p.requests
  | .close a => p.ports.any fun x => x.aep = some a
  | .term x => x ∈ p.ports

def step (p : Ports) : Event → M Ports
  | .request txSize rxSize => .ok (p.request txSize rxSize)
  | .start o d src fi => .ok (p.start o d src fi)
  | .close a => p.close a
  | .term x => .ok (p.term x)

def empty : Ports := ⟨⟨[], ∅, ∅, [], none, 0, by simp⟩, [], [], 0⟩

def machine : Machine Ports Event Fault := ⟨fun p => p = empty, enabled, step⟩

end Ports

/-! What an attempt leaves. -/

def opens (o : Sofi.Opening) : Nat :=
  if o.endpoint ≠ 0 then 0
  else if o.openEq ≠ 0 then 1
  else if o.bindEq ≠ 0 ∨ o.openCqTx ≠ 0 then 2
  else if o.bindCqTx ≠ 0 ∨ o.openCqRx ≠ 0 then 3
  else 4

def frees (o : Sofi.Opening) : Bool :=
  o.endpoint ≠ 0 || o.openEq ≠ 0 || o.bindEq = 0 &&
    (o.openCqTx ≠ 0 || o.bindCqTx = 0 && o.openCqRx ≠ 0)

structure Leaves (aep : Nat) (freed : Bool) (opened : List Fid) (watched : List Watch)
    (s t : World) : Prop where
  fids : t.fids = s.fids ++ opened
  items : t.items = s.items ++ watched
  infos : t.infos = s.infos
  aeps : t.aeps = if freed then s.aeps.erase aep else s.aeps
  next : t.next = s.next + opened.length

section Attempts

variable {o : Sofi.Opening} {src aep : Nat} {s t : World}

def World.withQueue (k : Ofiw.ItemType) (src dataSize : Nat) (s : World) : World :=
  ((s.openFid (.queue k)).2.watch ⟨k, s.next, src, dataSize⟩).2

section Fields

variable (k : Ofiw.ItemType) (src dataSize aep : Nat) (s : World)

@[simp] theorem World.withQueue_fids :
    (s.withQueue k src dataSize).fids = s.fids ++ [⟨.queue k, s.next⟩] := rfl

@[simp] theorem World.withQueue_items :
    (s.withQueue k src dataSize).items = s.items ++ [⟨k, s.next, src, dataSize⟩] := rfl

@[simp] theorem World.withQueue_infos : (s.withQueue k src dataSize).infos = s.infos := rfl

@[simp] theorem World.withQueue_aeps : (s.withQueue k src dataSize).aeps = s.aeps := rfl

@[simp] theorem World.withQueue_next : (s.withQueue k src dataSize).next = s.next + 1 := rfl

@[simp] theorem World.freeAep_fids : (s.freeAep aep).fids = s.fids := rfl

@[simp] theorem World.freeAep_items : (s.freeAep aep).items = s.items := rfl

@[simp] theorem World.freeAep_infos : (s.freeAep aep).infos = s.infos := rfl

@[simp] theorem World.freeAep_aeps : (s.freeAep aep).aeps = s.aeps.erase aep := rfl

@[simp] theorem World.freeAep_next : (s.freeAep aep).next = s.next := rfl

end Fields

theorem openQueue_ends (k : Ofiw.ItemType) {ret : Int} (src dataSize : Nat) (s : World)
    (h : ret = 0) :
    Ends (openQueue k ret src dataSize) s (.ok s.next) (s.withQueue k src dataSize) :=
  (ends_check s h).bind ((ends_act _ _).bind ((ends_act _ _).bind (ends_pure _ _)))

theorem queue_cases {α : Type} {k : Ofiw.ItemType} {ret bind : Int} {dataSize : Nat}
    {f : Nat → Open α} {r : Except Int α}
    (h : Ends (do
      let fd ← leaving (World.freeAep aep) (openQueue k ret src dataSize)
      check bind
      f fd) s r t) :
    ret ≠ 0 ∧ t = s.freeAep aep ∧ r = .error ret ∨
      ret = 0 ∧ bind ≠ 0 ∧ t = s.withQueue k src dataSize ∧ r = .error bind ∨
        ret = 0 ∧ bind = 0 ∧ Ends (f s.next) (s.withQueue k src dataSize) r t := by
  by_cases hr : ret = 0
  · have h₁ := (openQueue_ends k src dataSize s hr).leaving.of_bind h
    by_cases hb : bind = 0
    · exact .inr (.inr ⟨hr, hb, (ends_check _ hb).of_bind h₁⟩)
    · obtain ⟨rfl, rfl⟩ := h₁.unique (ends_check_error _ hb).bind_error
      exact .inr (.inl ⟨hr, hb, rfl, rfl⟩)
  · have hq : Ends (openQueue k ret src dataSize) s (.error ret) s :=
      (ends_check_error s hr).bind_error
    obtain ⟨rfl, rfl⟩ := h.unique hq.leaving_error.bind_error
    exact .inl ⟨hr, rfl, rfl⟩

theorem openQueues_leaves {info : Info} {r : Except Int (Nat × Nat × Nat)}
    (h : Ends (openQueues o src aep info) s r t) (ho : o.endpoint = 0) (ep : Nat) :
    let a : ActiveEndpoint := ⟨aep, info, none, ep, s.next, s.next + 1, s.next + 2⟩
    Leaves aep (frees o) (a.fids.tail.take (opens o - 1)) ((a.watches src).take (opens o - 1)) s t ∧
      (if (Sofi.activeEndpointOpen o).1 = 0 then r = .ok (a.eq, a.cqTx, a.cqRx)
        else ∃ e, r = .error e) := by
  simp only [ActiveEndpoint.fids, ActiveEndpoint.watches, opens, frees, Sofi.activeEndpointOpen]
  obtain ⟨h₁, rfl, rfl⟩ | ⟨h₁, h₂, rfl, rfl⟩ | ⟨h₁, h₂, h⟩ := queue_cases h
  · exact ⟨by constructor <;> simp [ho, h₁], by simp [ho, h₁]⟩
  · exact ⟨by constructor <;> simp [ho, h₁, h₂], by simp [ho, h₁, h₂]⟩
  obtain ⟨h₃, rfl, rfl⟩ | ⟨h₃, h₄, rfl, rfl⟩ | ⟨h₃, h₄, h⟩ := queue_cases h
  · exact ⟨by constructor <;> simp [ho, h₁, h₂, h₃], by simp [ho, h₁, h₂, h₃]⟩
  · exact ⟨by constructor <;> simp [ho, h₁, h₂, h₃, h₄], by simp [ho, h₁, h₂, h₃, h₄]⟩
  obtain ⟨h₅, rfl, rfl⟩ | ⟨h₅, h₆, rfl, rfl⟩ | ⟨h₅, h₆, h⟩ := queue_cases h
  · exact ⟨by constructor <;> simp [ho, h₁, h₂, h₃, h₄, h₅], by simp [ho, h₁, h₂, h₃, h₄, h₅]⟩
  · exact ⟨by constructor <;> simp [ho, h₁, h₂, h₃, h₄, h₅],
      by simp [ho, h₁, h₂, h₃, h₄, h₅, h₆]⟩
  by_cases h₇ : o.enable = 0
  · obtain ⟨rfl, rfl⟩ := h.unique ((ends_check _ h₇).bind (ends_pure _ _))
    exact ⟨by constructor <;> simp [ho, h₁, h₂, h₃, h₄, h₅],
      by simp [ho, h₁, h₂, h₃, h₄, h₅, h₆, h₇]⟩
  · obtain ⟨rfl, rfl⟩ := h.unique (ends_check_error _ h₇).bind_error
    exact ⟨by constructor <;> simp [ho, h₁, h₂, h₃, h₄, h₅],
      by simp [ho, h₁, h₂, h₃, h₄, h₅, h₆, h₇]⟩

theorem openEndpoint_leaves {x : Info × Option Nat} {r : Except Int ActiveEndpoint}
    (h : Ends (openEndpoint o src aep x) s r t) :
    let a : ActiveEndpoint := ⟨aep, x.1, x.2, s.next, s.next + 1, s.next + 2, s.next + 3⟩
    Leaves aep (frees o) (a.fids.take (opens o)) ((a.watches src).take (opens o - 1)) s t ∧
      r.toOption = if (Sofi.activeEndpointOpen o).1 = 0 then some a else none := by
  intro a
  by_cases ho : o.endpoint = 0
  · have h₁ := (ends_act _ _).of_bind ((ends_check s ho).leaving.of_bind h)
    have hpos : opens o = opens o - 1 + 1 := by
      simp only [opens, ho]
      split_ifs <;> simp_all
    have hfids : a.fids.take (opens o) = ⟨.ep, s.next⟩ :: a.fids.tail.take (opens o - 1) := by
      rw [hpos]
      rfl
    have hafter : ∀ u, Leaves aep (frees o) (a.fids.tail.take (opens o - 1))
        ((a.watches src).take (opens o - 1)) (World.openFid .ep s).2 u →
        Leaves aep (frees o) (a.fids.take (opens o)) ((a.watches src).take (opens o - 1)) s u := by
      intro u hu
      refine ⟨?_, hu.items, hu.infos, hu.aeps, ?_⟩
      · rw [hu.fids, hfids]
        exact List.append_assoc _ _ _
      · rw [hu.next, hfids]
        exact Nat.add_right_comm _ _ _
    obtain ⟨q, u, hq, h₂⟩ | ⟨e, hq, rfl⟩ := h₁.cases
    · obtain ⟨hl, hr⟩ := openQueues_leaves hq ho s.next
      obtain ⟨rfl, rfl⟩ := h₂.unique ((ends_act _ _).bind (ends_pure _ _))
      split_ifs at hr with hz
      · obtain rfl := Except.ok.inj hr
        have hu := hafter u hl
        exact ⟨⟨hu.fids, hu.items, hu.infos, hu.aeps, hu.next⟩, by rw [if_pos hz]; rfl⟩
      · obtain ⟨e, he⟩ := hr
        cases he
    · obtain ⟨hl, hr⟩ := openQueues_leaves hq ho s.next
      split_ifs at hr with hz
      exact ⟨hafter t hl, by rw [if_neg hz]; rfl⟩
  · obtain ⟨rfl, rfl⟩ := h.unique (ends_check_error s ho).leaving_error.bind_error
    exact ⟨by constructor <;> simp [opens, frees, ho],
      by simp [Sofi.activeEndpointOpen, ho, Except.toOption]⟩

def World.endpoint (d : Domain) (fi : Option Info) (s : World) : ActiveEndpoint :=
  ⟨s.next, { fi.getD d.fi with id := s.next + 1 }, none, s.next + 2, s.next + 3, s.next + 4,
    s.next + 5⟩

def World.prepared (fi : Option Info) (s : World) : World :=
  let infos := insert (s.next + 1) s.infos
  { s with
    infos := fi.elim infos fun i => infos.erase i.id
    aeps := insert s.next s.aeps
    next := s.next + 2
    fresh := fun f hf => Nat.lt_add_right 2 (s.fresh f hf) }

theorem activeEndpointOpen_leaves {d : Domain} {fi : Option Info} {r : Except Int ActiveEndpoint}
    (h : Ends (activeEndpointOpen none o d src fi) s r t) :
    Leaves s.next (frees o) ((s.endpoint d fi).fids.take (opens o))
        (((s.endpoint d fi).watches src).take (opens o - 1)) (s.prepared fi) t ∧
      r.toOption = if (Sofi.activeEndpointOpen o).1 = 0 then some (s.endpoint d fi) else none := by
  have h₁ := (ends_act World.allocAep s).of_bind h
  cases fi with
  | none =>
    have h₂ := (endpointInfo_none none d _ _).of_bind h₁
    exact openEndpoint_leaves (s := s.prepared none) h₂
  | some fi =>
    have hi : Ends (endpointInfo none d s.allocAep.1 (some fi)) s.allocAep.2 _ _ :=
      (ends_act _ _).bind ((ends_act _ _).bind (ends_pure _ _))
    have h₂ := hi.of_bind h₁
    exact openEndpoint_leaves (s := s.prepared (some fi)) h₂

end Attempts

/-! What is opened can be closed. -/

theorem World.unwatch_items {it : Watch} {items : List Watch} {s : World}
    (hi : s.items.Perm (it :: items)) (hd : (s.items.map Watch.fd).Nodup) :
    (s.unwatch it.fd).items.Perm items ∧ ((s.unwatch it.fd).items.map Watch.fd).Nodup := by
  have hp : (s.unwatch it.fd).items.Perm items := by
    have hone : s.items.Pairwise fun x y => decide (x.fd = it.fd) = true →
        decide (y.fd = it.fd) = true → False := by
      refine (List.pairwise_map.1 hd).imp ?_
      intro x y hne hx hy
      simp only [decide_eq_true_eq] at hx hy
      exact hne (hx.trans hy.symm)
    have he := List.Perm.eraseP (fun x : Watch => decide (x.fd = it.fd)) hone hi
    rwa [List.eraseP_cons_of_pos (by simp)] at he
  exact ⟨hp, (hp.map _).nodup_iff.2 ((hi.map Watch.fd).nodup_iff.1 hd).of_cons⟩

theorem World.closeFid_ok {f : Fid} {fids : List Fid} {s : World} (hf : s.fids.Perm (f :: fids)) :
    s.closeFid f = .ok (s.without f) ∧ (s.without f).fids.Perm fids := by
  refine ⟨if_pos (hf.mem_iff.2 List.mem_cons_self), ?_⟩
  have he := hf.erase f
  rwa [List.erase_cons_head] at he

theorem activeEndpointClose_spec {a : ActiveEndpoint} {src : Nat} {s : World} {fids : List Fid}
    {items : List Watch} (hf : s.fids.Perm (a.fids ++ fids))
    (hi : s.items.Perm (a.watches src ++ items)) (hd : (s.items.map Watch.fd).Nodup)
    (hinfo : a.fi.id ∈ s.infos) (haep : a.id ∈ s.aeps) :
    ∃ t, activeEndpointClose a s = .ok t ∧ t.fids.Perm fids ∧ t.items.Perm items ∧
      t.infos = s.infos.erase a.fi.id ∧ t.aeps = s.aeps.erase a.id ∧ t.next = s.next := by
  obtain ⟨hi₁, hd₁⟩ := World.unwatch_items hi hd
  obtain ⟨hi₂, hd₂⟩ := World.unwatch_items hi₁ hd₁
  obtain ⟨hi₃, -⟩ := World.unwatch_items hi₂ hd₂
  let u := ((s.unwatch a.eq).unwatch a.cqTx).unwatch a.cqRx
  have hep : u.useFid ⟨.ep, a.ep⟩ = .ok () := if_pos (hf.mem_iff.2 (by simp [ActiveEndpoint.fids]))
  have heq : u.useFid ⟨.queue .eq, a.eq⟩ = .ok () :=
    if_pos (hf.mem_iff.2 (by simp [ActiveEndpoint.fids]))
  obtain ⟨hc₁, hf₁⟩ := World.closeFid_ok (s := u) hf
  obtain ⟨hc₂, hf₂⟩ := World.closeFid_ok hf₁
  obtain ⟨hc₃, hf₃⟩ := World.closeFid_ok hf₂
  obtain ⟨hc₄, hf₄⟩ := World.closeFid_ok hf₃
  let v := (((u.without ⟨.ep, a.ep⟩).without ⟨.queue .eq, a.eq⟩).without
    ⟨.queue .cq, a.cqTx⟩).without ⟨.queue .cq, a.cqRx⟩
  refine ⟨{ v with infos := v.infos.erase a.fi.id, aeps := v.aeps.erase a.id }, ?_, hf₄, hi₃,
    rfl, rfl, rfl⟩
  refine bind_eq_ok.2 ⟨_, hep, bind_eq_ok.2 ⟨_, heq, bind_eq_ok.2 ⟨_, hc₁, ?_⟩⟩⟩
  exact bind_eq_ok.2 ⟨_, hc₂, bind_eq_ok.2 ⟨_, hc₃, bind_eq_ok.2 ⟨_, hc₄, if_pos ⟨hinfo, haep⟩⟩⟩⟩

namespace Port

def fids (x : Port) : List Fid := x.aep.toList.flatMap ActiveEndpoint.fids

def infos (x : Port) : List Nat := x.aep.toList.map fun a => a.fi.id

def aeps (x : Port) : List Nat := x.aep.toList.map ActiveEndpoint.id

end Port

namespace Ports

structure Books (p : Ports) : Prop where
  fids : ∃ lost, p.world.fids.Perm (p.ports.flatMap Port.fids ++ lost)
  items : p.world.items.Perm (p.ports.flatMap Port.items)
  distinct : (p.world.items.map Watch.fd).Nodup
  watched : ∀ it ∈ p.world.items, it.fid ∈ p.world.fids
  layout : ∀ x ∈ p.ports, ∀ a, x.aep = some a → ∃ src, x.items = a.watches src
  infos : ∃ lost, p.world.infos.val =
    ↑(p.requests.map Info.id) + ↑(p.ports.flatMap Port.infos) + lost
  aeps : ∃ lost, p.world.aeps.val = ↑(p.ports.flatMap Port.aeps) + lost
  freshInfos : ∀ i ∈ p.world.infos, i < p.world.next
  freshAeps : ∀ i ∈ p.world.aeps, i < p.world.next
  buffers : p.world.items.length ≤ p.buffers

theorem books_empty : Books empty where
  fids := ⟨[], .nil⟩
  items := .nil
  distinct := .nil
  watched := by simp [empty]
  layout := by simp [empty]
  infos := ⟨0, rfl⟩
  aeps := ⟨0, rfl⟩
  freshInfos := by simp [empty]
  freshAeps := by simp [empty]
  buffers := Nat.le_refl 0

theorem insert_val_fresh {n : Nat} {s : Finset Nat} (h : ∀ i ∈ s, i < n) :
    (insert n s).val = n ::ₘ s.val :=
  Finset.insert_val_of_notMem fun hm => Nat.lt_irrefl n (h n hm)

variable {p : Ports}

theorem Books.request (hp : Books p) (txSize rxSize : Nat) : Books (p.request txSize rxSize) where
  fids := hp.fids
  items := hp.items
  distinct := hp.distinct
  watched := hp.watched
  layout := hp.layout
  infos := by
    obtain ⟨lost, hl⟩ := hp.infos
    refine ⟨lost, ?_⟩
    show (insert p.world.next p.world.infos).val = _
    rw [insert_val_fresh hp.freshInfos, hl]
    simp only [Ports.request, World.dupInfo, List.map_append, List.map_cons, List.map_nil,
      ← Multiset.coe_add, Multiset.coe_singleton, ← Multiset.singleton_add]
    abel
  aeps := hp.aeps
  freshInfos := by
    intro i hi
    obtain rfl | hi := Finset.mem_insert.1 hi
    · exact Nat.lt_succ_self _
    · exact Nat.lt_succ_of_lt (hp.freshInfos i hi)
  freshAeps := fun i hi => Nat.lt_succ_of_lt (hp.freshAeps i hi)
  buffers := hp.buffers

theorem fid_of_rest {a : ActiveEndpoint} {src : Nat} {s : World} {fids : List Fid}
    {items : List Watch} {it : Watch} (hf : s.fids.Perm (a.fids ++ fids))
    (hi : s.items.Perm (a.watches src ++ items)) (hd : (s.items.map Watch.fd).Nodup)
    (hw : ∀ it ∈ s.items, it.fid ∈ s.fids) (hit : it ∈ items) : it.fid ∈ fids := by
  have hm : it.fid ∈ a.fids ++ fids :=
    hf.mem_iff.1 (hw it (hi.mem_iff.2 (List.mem_append_right _ hit)))
  refine (List.mem_append.1 hm).resolve_left fun ha => ?_
  have hn : ((a.watches src).map Watch.fd ++ items.map Watch.fd).Nodup := by
    rw [← List.map_append]
    exact (hi.map _).nodup_iff.1 hd
  refine List.disjoint_of_nodup_append hn (a := it.fd) ?_ (List.mem_map_of_mem hit)
  simp only [ActiveEndpoint.fids, List.mem_cons, Watch.fid, Fid.mk.injEq, List.not_mem_nil,
    reduceCtorEq, false_and, or_false, false_or] at ha
  rcases ha with ⟨-, h⟩ | ⟨-, h⟩ | ⟨-, h⟩
  all_goals simp [ActiveEndpoint.watches, h]

theorem coe_flatMap {ports rest : List Port} {y : Port} (f : Port → List Nat)
    (h : ports.Perm (y :: rest)) :
    (↑(ports.flatMap f) : Multiset Nat) = ↑(f y) + ↑(rest.flatMap f) := by
  rw [Multiset.coe_add, ← List.flatMap_cons]
  exact Multiset.coe_eq_coe.2 (h.flatMap_right f)

theorem Books.close {a : ActiveEndpoint} (hp : Books p) (ha : p.enabled (.close a) = true) :
    ∃ q, p.close a = .ok q ∧ Books q ∧ q.world.fids.length + 4 = p.world.fids.length ∧
      q.buffers + 3 = p.buffers ∧ q.world.infos.card + 1 = p.world.infos.card ∧
      q.world.aeps.card + 1 = p.world.aeps.card := by
  obtain ⟨x, hx, hxa⟩ := List.any_eq_true.1 ha
  obtain ⟨y, l₁, l₂, -, hy, hl, he⟩ :=
    List.exists_of_eraseP (p := fun x : Port => decide (x.aep = some a)) hx hxa
  replace hy : y.aep = some a := of_decide_eq_true hy
  have hports : p.ports.Perm (y :: (l₁ ++ l₂)) := hl ▸ List.perm_middle
  have hmem : ∀ z ∈ l₁ ++ l₂, z ∈ p.ports := fun z hz =>
    hports.mem_iff.2 (List.mem_cons_of_mem y hz)
  obtain ⟨src, hsrc⟩ := hp.layout y (hports.mem_iff.2 List.mem_cons_self) a hy
  have hyf : y.fids = a.fids := by simp [Port.fids, hy]
  have hyi : (↑y.infos : Multiset Nat) = {a.fi.id} := by simp [Port.infos, hy]
  have hya : (↑y.aeps : Multiset Nat) = {a.id} := by simp [Port.aeps, hy]
  obtain ⟨lost, hfids⟩ := hp.fids
  have hf : p.world.fids.Perm (a.fids ++ ((l₁ ++ l₂).flatMap Port.fids ++ lost)) := by
    refine hfids.trans (((hports.flatMap_right Port.fids).append_right lost).trans ?_)
    rw [List.flatMap_cons, hyf, List.append_assoc]
  have hi : p.world.items.Perm (a.watches src ++ (l₁ ++ l₂).flatMap Port.items) := by
    refine hp.items.trans ((hports.flatMap_right Port.items).trans ?_)
    rw [List.flatMap_cons, hsrc]
  obtain ⟨lostInfos, hI⟩ := hp.infos
  have hinfos : p.world.infos.val = a.fi.id ::ₘ
      (↑(p.requests.map Info.id) + ↑((l₁ ++ l₂).flatMap Port.infos) + lostInfos) := by
    rw [hI, coe_flatMap _ hports, hyi, ← Multiset.singleton_add]
    abel
  obtain ⟨lostAeps, hA⟩ := hp.aeps
  have haeps : p.world.aeps.val = a.id ::ₘ (↑((l₁ ++ l₂).flatMap Port.aeps) + lostAeps) := by
    rw [hA, coe_flatMap _ hports, hya, ← Multiset.singleton_add]
    abel
  have hmi : a.fi.id ∈ p.world.infos := by
    rw [← Finset.mem_val, hinfos]
    exact Multiset.mem_cons_self _ _
  have hma : a.id ∈ p.world.aeps := by
    rw [← Finset.mem_val, haeps]
    exact Multiset.mem_cons_self _ _
  obtain ⟨t, ht, hft, hit, hti, hta, htn⟩ := activeEndpointClose_spec hf hi hp.distinct hmi hma
  have hlen : p.world.items.length = 3 + t.items.length := by
    rw [hi.length_eq, hit.length_eq, List.length_append]
    rfl
  have hb := hp.buffers
  refine ⟨_, bind_eq_ok.2 ⟨t, ht, rfl⟩, ?_, ?_, ?_, ?_, ?_⟩
  · show Books ⟨t, p.ports.eraseP _, p.requests, _⟩
    rw [he]
    refine ⟨⟨lost, hft⟩, hit, ?_, ?_, fun z hz => hp.layout z (hmem z hz), ⟨lostInfos, ?_⟩,
      ⟨lostAeps, ?_⟩, ?_, ?_, ?_⟩
    · have hn := (hi.map Watch.fd).nodup_iff.1 hp.distinct
      rw [List.map_append] at hn
      exact (hit.map _).nodup_iff.2 hn.of_append_right
    · intro it hm
      exact hft.mem_iff.2 (fid_of_rest hf hi hp.distinct hp.watched (hit.mem_iff.1 hm))
    · rw [hti, Finset.erase_val, hinfos, Multiset.erase_cons_head]
    · rw [hta, Finset.erase_val, haeps, Multiset.erase_cons_head]
    · intro i hm
      rw [hti] at hm
      rw [htn]
      exact hp.freshInfos i (Finset.mem_of_mem_erase hm)
    · intro i hm
      rw [hta] at hm
      rw [htn]
      exact hp.freshAeps i (Finset.mem_of_mem_erase hm)
    · show t.items.length ≤ p.buffers - (p.world.items.length - t.items.length)
      omega
  · show t.fids.length + 4 = _
    simp only [hf.length_eq, hft.length_eq, List.length_append, ActiveEndpoint.fids,
      List.length_cons, List.length_nil]
    omega
  · show p.buffers - (p.world.items.length - t.items.length) + 3 = _
    omega
  · show t.infos.card + 1 = _
    rw [hti, Finset.card_erase_add_one hmi]
  · show t.aeps.card + 1 = _
    rw [hta, Finset.card_erase_add_one hma]

theorem append_diff_left (l l' : List Watch) : (l ++ l').diff l = l' := by
  induction l with
  | nil => rfl
  | cons it l ih => rw [List.cons_append, List.diff_cons, List.erase_cons_head, ih]

theorem Books.term {x : Port} (hp : Books p) (hx : x ∈ p.ports) : Books (p.term x) := by
  have hports : p.ports.Perm (x :: p.ports.erase x) := List.perm_cons_erase hx
  have hd : (p.world.items.diff x.items).Perm ((p.ports.erase x).flatMap Port.items) := by
    have := (hp.items.trans (hports.flatMap_right Port.items)).diff_right x.items
    rwa [List.flatMap_cons, append_diff_left] at this
  have hsub : (p.world.items.diff x.items).Sublist p.world.items := List.diff_sublist _ _
  refine ⟨?_, hd, hp.distinct.sublist (hsub.map Watch.fd),
    fun it hm => hp.watched it (hsub.subset hm),
    fun z hz => hp.layout z (List.mem_of_mem_erase hz), ?_, ?_,
    hp.freshInfos, hp.freshAeps, Nat.le_trans hsub.length_le hp.buffers⟩
  · obtain ⟨lost, hfids⟩ := hp.fids
    refine ⟨x.fids ++ lost,
      hfids.trans (((hports.flatMap_right Port.fids).append_right lost).trans ?_)⟩
    rw [List.flatMap_cons, ← List.append_assoc]
    exact List.perm_append_comm.append_right lost
  · obtain ⟨lost, hinfos⟩ := hp.infos
    refine ⟨↑x.infos + lost, hinfos.trans ?_⟩
    rw [coe_flatMap _ hports]
    simp only [Ports.term]
    abel
  · obtain ⟨lost, haeps⟩ := hp.aeps
    refine ⟨↑x.aeps + lost, haeps.trans ?_⟩
    rw [coe_flatMap _ hports]
    simp only [Ports.term]
    abel

theorem opens_of_succeeds {o : Sofi.Opening} (h : (Sofi.activeEndpointOpen o).1 = 0) :
    opens o = 4 ∧ frees o = false := by
  obtain ⟨-, h₁, h₂, h₃, h₄, h₅, h₆, -, -⟩ := (succeeds_iff none o none).2 ⟨rfl, h⟩
  simp [opens, frees, h₁, h₂, h₃, h₄, h₅, h₆]

theorem opens_le (o : Sofi.Opening) : opens o ≤ 4 := by
  unfold opens
  split_ifs <;> omega

theorem Books.prepared {fi : Option Info} (hp : Books p) (hfi : ∀ i, fi = some i → i ∈ p.requests) :
    (∃ lost, (p.world.prepared fi).infos.val = {p.world.next + 1} +
        (↑((fi.elim p.requests p.requests.erase).map Info.id) +
          ↑(p.ports.flatMap Port.infos) + lost)) ∧
      (p.world.prepared fi).infos.card + fi.toList.length = p.world.infos.card + 1 := by
  obtain ⟨lost, hl⟩ := hp.infos
  have hn : p.world.next + 1 ∉ p.world.infos := fun hm =>
    absurd (hp.freshInfos _ hm) (by omega)
  have hv : (insert (p.world.next + 1) p.world.infos).val =
      (p.world.next + 1) ::ₘ p.world.infos.val := Finset.insert_val_of_notMem hn
  cases fi with
  | none =>
    refine ⟨⟨lost, ?_⟩, Finset.card_insert_of_notMem hn⟩
    show (insert (p.world.next + 1) p.world.infos).val = _
    rw [hv, hl, Multiset.singleton_add]
    rfl
  | some i =>
    have hr : (↑(p.requests.map Info.id) : Multiset Nat) =
        i.id ::ₘ ↑((p.requests.erase i).map Info.id) :=
      Multiset.coe_eq_coe.2 ((List.perm_cons_erase (hfi i rfl)).map Info.id)
    have hm : i.id ∈ insert (p.world.next + 1) p.world.infos := by
      rw [← Finset.mem_val, hv, hl, hr]
      simp
    refine ⟨⟨lost, ?_⟩, ?_⟩
    · show ((insert (p.world.next + 1) p.world.infos).erase i.id).val = _
      rw [Finset.erase_val, hv, hl, hr, Multiset.cons_add, Multiset.cons_add, Multiset.cons_swap,
        Multiset.erase_cons_head, Multiset.singleton_add]
      rfl
    · show ((insert (p.world.next + 1) p.world.infos).erase i.id).card + 1 = _
      rw [Finset.card_erase_add_one hm, Finset.card_insert_of_notMem hn]

theorem prepared_infos_subset (fi : Option Info) (s : World) :
    (s.prepared fi).infos ⊆ insert (s.next + 1) s.infos := by
  cases fi with
  | none => exact Finset.Subset.refl _
  | some i => exact Finset.erase_subset _ _

theorem take_watches (a : ActiveEndpoint) (src n : Nat) :
    ∀ it ∈ (a.watches src).take (n - 1), it.fid ∈ a.fids.take n := by
  intro it hit
  cases n with
  | zero => exact absurd hit (by simp)
  | succ n =>
    have hm : it.fid ∈ ((a.watches src).take n).map Watch.fid := List.mem_map_of_mem hit
    rw [List.map_take] at hm
    exact List.mem_cons_of_mem _ hm

theorem watches_fresh (d : Domain) (fi : Option Info) (src : Nat) (s : World) :
    (((s.endpoint d fi).watches src).map Watch.fd).Nodup ∧
      ∀ it ∈ (s.endpoint d fi).watches src, s.next ≤ it.fd := by
  simp [ActiveEndpoint.watches, World.endpoint]

theorem port_of_attempt (o : Sofi.Opening) (a : ActiveEndpoint) (items : List Watch) :
    let x : Port := ⟨if (Sofi.activeEndpointOpen o).1 = 0 then some a else none, items⟩
    (∃ lost, a.fids.take (opens o) = x.fids ++ lost) ∧
      (∃ lost, ({a.fi.id} : Multiset Nat) = ↑x.infos + lost) ∧
      ∃ lost, (if frees o then 0 else {a.id} : Multiset Nat) = ↑x.aeps + lost := by
  intro x
  by_cases hz : (Sofi.activeEndpointOpen o).1 = 0
  · obtain ⟨ho, hf⟩ := opens_of_succeeds hz
    have hx : x.aep = some a := if_pos hz
    refine ⟨⟨[], ?_⟩, ⟨0, ?_⟩, ⟨0, ?_⟩⟩
    · rw [ho, List.append_nil, Port.fids, hx]
      rfl
    · rw [Port.infos, hx]
      rfl
    · rw [hf, Port.aeps, hx]
      rfl
  · have hx : x.aep = none := if_neg hz
    simp [Port.fids, Port.infos, Port.aeps, hx]

theorem Books.start {fi : Option Info} (o : Sofi.Opening) (d : Domain) (src : Nat) (hp : Books p)
    (hfi : ∀ i, fi = some i → i ∈ p.requests) :
    Books (p.start o d src fi) ∧
      (p.start o d src fi).world.fids.length = p.world.fids.length + opens o ∧
      (p.start o d src fi).buffers = p.buffers + (opens o - 1) ∧
      (p.start o d src fi).world.infos.card + fi.toList.length = p.world.infos.card + 1 ∧
      (p.start o d src fi).world.aeps.card = p.world.aeps.card + if frees o then 0 else 1 := by
  rcases hr : (activeEndpointOpen none o d src fi).run.run p.world with ⟨r, w⟩
  obtain ⟨hl, hres⟩ := activeEndpointOpen_leaves hr
  let a := p.world.endpoint d fi
  let items := (a.watches src).take (opens o - 1)
  let x : Port := ⟨if (Sofi.activeEndpointOpen o).1 = 0 then some a else none, items⟩
  have hdrop : w.items.drop p.world.items.length = items := by
    rw [hl.items]
    exact List.drop_left
  have hq : p.start o d src fi = ⟨w, p.ports ++ [x], fi.elim p.requests p.requests.erase,
      p.buffers + items.length⟩ := by
    simp only [Ports.start, hr, hdrop, hres]
    rfl
  rw [hq]
  have hle := opens_le o
  have hlen : items.length = opens o - 1 := by
    simp only [items, ActiveEndpoint.watches, List.length_take, List.length_cons, List.length_nil]
    omega
  have hfids : w.fids = p.world.fids ++ a.fids.take (opens o) := hl.fids
  have hitems : w.items = p.world.items ++ items := hl.items
  obtain ⟨⟨lf, hlf⟩, ⟨li, hli⟩, ⟨la, hla⟩⟩ := port_of_attempt o a items
  obtain ⟨⟨lostInfos, hinfos⟩, hcard⟩ := hp.prepared hfi
  have hnew : p.world.next ∉ p.world.aeps := fun hm => Nat.lt_irrefl _ (hp.freshAeps _ hm)
  have haeps : w.aeps = if frees o then p.world.aeps else insert p.world.next p.world.aeps := by
    rw [hl.aeps]
    split_ifs
    · exact Finset.erase_insert hnew
    · rfl
  have haval : w.aeps.val = (if frees o then 0 else {a.id}) + p.world.aeps.val := by
    rw [haeps]
    split_ifs
    · exact (zero_add _).symm
    · rw [insert_val_fresh hp.freshAeps, Multiset.singleton_add]
      rfl
  have hsub : items.Sublist (a.watches src) := List.take_sublist _ _
  have hnext : w.next = p.world.next + 2 + (a.fids.take (opens o)).length := hl.next
  obtain ⟨hfd, hge⟩ := watches_fresh d fi src p.world
  refine ⟨⟨?_, ?_, ?_, ?_, ?_, ?_, ?_, ?_, ?_, ?_⟩, ?_, ?_, ?_, ?_⟩
  · obtain ⟨lost, hlost⟩ := hp.fids
    refine ⟨lost ++ lf, ?_⟩
    show w.fids.Perm _
    rw [hfids, hlf, List.flatMap_append, List.flatMap_singleton]
    refine (hlost.append_right _).trans ?_
    rw [List.append_assoc, List.append_assoc]
    refine List.Perm.append_left _ ?_
    rw [← List.append_assoc, ← List.append_assoc]
    exact List.perm_append_comm.append_right lf
  · show w.items.Perm _
    rw [hitems, List.flatMap_append, List.flatMap_singleton]
    exact hp.items.append_right items
  · show (w.items.map Watch.fd).Nodup
    rw [hitems, List.map_append]
    refine hp.distinct.append (hfd.sublist (hsub.map Watch.fd)) ?_
    intro n hn hn'
    obtain ⟨it, hit, rfl⟩ := List.mem_map.1 hn
    obtain ⟨it', hit', he⟩ := List.mem_map.1 hn'
    have h₁ : it.fd < p.world.next := p.world.fresh _ (hp.watched it hit)
    have h₂ := hge it' (hsub.subset hit')
    omega
  · intro it hit
    show it.fid ∈ w.fids
    rw [hfids]
    obtain hm | hm := List.mem_append.1 (hitems ▸ hit : it ∈ p.world.items ++ items)
    · exact List.mem_append_left _ (hp.watched it hm)
    · exact List.mem_append_right _ (take_watches a src _ it hm)
  · intro z hz b hb
    obtain hm | hm := List.mem_append.1 hz
    · exact hp.layout z hm b hb
    · obtain rfl := List.mem_singleton.1 hm
      by_cases hok : (Sofi.activeEndpointOpen o).1 = 0
      · obtain rfl : a = b := by simpa [x, hok] using hb
        exact ⟨src, by simp [x, items, (opens_of_succeeds hok).1, ActiveEndpoint.watches]⟩
      · exact absurd hb (by simp [x, hok])
  · refine ⟨li + lostInfos, ?_⟩
    show w.infos.val = _
    rw [hl.infos, hinfos, List.flatMap_append, List.flatMap_singleton, ← Multiset.coe_add]
    have : ({p.world.next + 1} : Multiset Nat) = ↑x.infos + li := hli
    rw [this]
    simp only
    abel
  · obtain ⟨lost, hlost⟩ := hp.aeps
    refine ⟨la + lost, ?_⟩
    show w.aeps.val = _
    rw [haval, hla, hlost, List.flatMap_append, List.flatMap_singleton, ← Multiset.coe_add]
    simp only [x]
    abel
  · intro i hi
    show i < w.next
    rw [hnext]
    obtain rfl | hi := Finset.mem_insert.1 (prepared_infos_subset fi p.world (hl.infos ▸ hi))
    · omega
    · exact Nat.lt_of_lt_of_le (hp.freshInfos i hi) (by omega)
  · intro i hi
    show i < w.next
    rw [hnext]
    change i ∈ w.aeps at hi
    rw [haeps] at hi
    split_ifs at hi
    · exact Nat.lt_of_lt_of_le (hp.freshAeps i hi) (by omega)
    · obtain rfl | hi := Finset.mem_insert.1 hi
      · omega
      · exact Nat.lt_of_lt_of_le (hp.freshAeps i hi) (by omega)
  · show w.items.length ≤ p.buffers + items.length
    rw [hitems, List.length_append]
    exact Nat.add_le_add_right hp.buffers _
  · show w.fids.length = _
    rw [hfids, List.length_append, List.length_take]
    simp only [ActiveEndpoint.fids, List.length_cons, List.length_nil]
    omega
  · show p.buffers + items.length = _
    rw [hlen]
  · show w.infos.card + _ = _
    rw [hl.infos, hcard]
  · show w.aeps.card = _
    rw [haeps]
    split_ifs
    · rfl
    · exact Finset.card_insert_of_notMem hnew

/-! Whole runs. -/

theorem books_step {e : Event} {q : Ports} (hp : Books p) (he : p.enabled e = true)
    (hs : p.step e = .ok q) : Books q := by
  cases e with
  | request txSize rxSize =>
    obtain rfl := Except.ok.inj hs
    exact hp.request txSize rxSize
  | start o d src fi =>
    obtain rfl := Except.ok.inj hs
    refine (hp.start o d src ?_).1
    rintro i rfl
    simpa [enabled] using he
  | close a =>
    obtain ⟨q', hq, hb, -⟩ := hp.close he
    obtain rfl := Except.ok.inj (hq.symm.trans hs)
    exact hb
  | term x =>
    obtain rfl := Except.ok.inj hs
    exact hp.term (of_decide_eq_true he)

theorem books_of_reachable (r : machine.Reachable p) : Books p :=
  r.invariant (by rintro s rfl; exact books_empty) fun _ _ _ hI he hs => books_step hI he hs

namespace Event

def attempts : Event → Nat
  | .start .. => 1
  | _ => 0

def succeeds : Event → Nat
  | .start o .. => if (Sofi.activeEndpointOpen o).1 = 0 then 1 else 0
  | _ => 0

def objects : Event → Nat
  | .start o .. => opens o
  | _ => 0

def buffers : Event → Nat
  | .start o .. => opens o - 1
  | _ => 0

def structs : Event → Nat
  | .start o .. => if frees o then 0 else 1
  | _ => 0

def closes : Event → Nat
  | .close _ => 1
  | _ => 0

end Event

def tally (f : Event → Nat) (h : List (Ports × Event)) : Nat := (h.map fun q => f q.2).sum

theorem tally_cons (f : Event → Nat) (q : Ports × Event) (h : List (Ports × Event)) :
    tally f (q :: h) = f q.2 + tally f h := List.sum_cons

def closable (p : Ports) : Nat := p.ports.countP fun x => x.aep.isSome

structure Balance (h : List (Ports × Event)) (p : Ports) : Prop where
  fids : p.world.fids.length + 4 * tally Event.closes h = tally Event.objects h
  buffers : p.buffers + 3 * tally Event.closes h = tally Event.buffers h
  infos : p.world.infos.card + tally Event.closes h = p.requests.length + tally Event.attempts h
  aeps : p.world.aeps.card + tally Event.closes h = tally Event.structs h
  closable : p.closable + tally Event.closes h ≤ tally Event.succeeds h

theorem closable_close {q : Ports} {a : ActiveEndpoint} (ha : p.enabled (.close a) = true)
    (hs : p.close a = .ok q) : q.closable + 1 = p.closable ∧ q.requests = p.requests := by
  obtain ⟨x, hx, hxa⟩ := List.any_eq_true.1 ha
  obtain ⟨y, l₁, l₂, -, hy, hl, he⟩ :=
    List.exists_of_eraseP (p := fun x : Port => decide (x.aep = some a)) hx hxa
  replace hy : y.aep = some a := of_decide_eq_true hy
  obtain ⟨w, -, hq⟩ := bind_eq_ok.1 hs
  obtain rfl := Except.ok.inj hq
  refine ⟨?_, rfl⟩
  show (p.ports.eraseP _).countP _ + 1 = p.ports.countP _
  rw [he, hl, List.countP_append, List.countP_append, List.countP_cons_of_pos (by simp [hy])]
  omega

theorem closable_start (o : Sofi.Opening) (d : Domain) (src : Nat) (fi : Option Info) (p : Ports) :
    (p.start o d src fi).closable =
        p.closable + (if (Sofi.activeEndpointOpen o).1 = 0 then 1 else 0) ∧
      (p.start o d src fi).requests = fi.elim p.requests p.requests.erase := by
  rcases hr : (activeEndpointOpen none o d src fi).run.run p.world with ⟨r, w⟩
  obtain ⟨-, hres⟩ := activeEndpointOpen_leaves hr
  simp only [Ports.start, hr, closable, hres, List.countP_append, List.countP_singleton]
  by_cases hz : (Sofi.activeEndpointOpen o).1 = 0 <;> simp [hz]

theorem closable_term (x : Port) (p : Ports) : (p.term x).closable ≤ p.closable :=
  (List.erase_sublist).countP_le

theorem Balance.step {e : Event} {q : Ports} {h : List (Ports × Event)} (hB : Balance h p)
    (hp : Books p) (he : p.enabled e = true) (hs : p.step e = .ok q) :
    Balance ((p, e) :: h) q := by
  obtain ⟨hf, hb, hi, ha, hc⟩ := hB
  cases e with
  | request txSize rxSize =>
    obtain rfl := Except.ok.inj hs
    have hcard : (p.request txSize rxSize).world.infos.card = p.world.infos.card + 1 :=
      Finset.card_insert_of_notMem fun hm => Nat.lt_irrefl _ (hp.freshInfos _ hm)
    have hlen : (p.request txSize rxSize).requests.length = p.requests.length + 1 :=
      List.length_append
    constructor <;> simp only [tally_cons, Event.objects, Event.closes, Event.buffers,
      Event.attempts, Event.structs, Event.succeeds, hcard, hlen, Nat.zero_add]
    · exact hf
    · exact hb
    · omega
    · exact ha
    · exact hc
  | start o d src fi =>
    obtain rfl := Except.ok.inj hs
    have hfi : ∀ i, fi = some i → i ∈ p.requests := by
      rintro i rfl
      simpa [enabled] using he
    obtain ⟨-, hf', hb', hi', ha'⟩ := hp.start o d src hfi
    obtain ⟨hc', hr⟩ := closable_start o d src fi p
    have hlen : (p.start o d src fi).requests.length + fi.toList.length = p.requests.length := by
      rw [hr]
      cases fi with
      | none => rfl
      | some i => exact List.length_erase_add_one (hfi i rfl)
    constructor <;> simp only [tally_cons, Event.objects, Event.closes, Event.buffers,
      Event.attempts, Event.structs, Event.succeeds]
    all_goals omega
  | close a =>
    obtain ⟨q', hq, -, hf', hb', hi', ha'⟩ := hp.close he
    obtain rfl := Except.ok.inj (hq.symm.trans hs)
    obtain ⟨hc', hr⟩ := closable_close he hq
    constructor <;> simp only [tally_cons, Event.objects, Event.closes, Event.buffers,
      Event.attempts, Event.structs, Event.succeeds, hr]
    all_goals omega
  | term x =>
    obtain rfl := Except.ok.inj hs
    have hc' := closable_term x p
    constructor <;> simp only [tally_cons, Event.objects, Event.closes, Event.buffers,
      Event.attempts, Event.structs, Event.succeeds, Nat.zero_add]
    · exact hf
    · exact hb
    · exact hi
    · exact ha
    · omega

theorem balance_of_run {h : List (Ports × Event)} (r : machine.Run h p) : Balance h p := by
  induction r with
  | init hi =>
    obtain rfl := hi
    constructor <;> rfl
  | step r he hs ih => exact ih.step (books_of_reachable r.reachable) he hs

theorem tally_split {f : Event → Nat} {c : Nat}
    (hf : ∀ e, e.succeeds ≠ 0 → f e = c * e.succeeds) (h : List (Ports × Event)) :
    ∃ n, tally f h = c * tally Event.succeeds h + n ∧
      (n = 0 ↔ ∀ q ∈ h, q.2.succeeds = 0 → f q.2 = 0) := by
  induction h with
  | nil => exact ⟨0, by simp [tally]⟩
  | cons q h ih =>
    obtain ⟨n, hn, hz⟩ := ih
    simp only [tally_cons, hn, List.forall_mem_cons]
    by_cases hq : q.2.succeeds = 0
    · refine ⟨f q.2 + n, by rw [hq, Nat.zero_add]; omega, ?_⟩
      rw [Nat.add_eq_zero_iff, hz]
      exact ⟨fun hs => ⟨fun _ => hs.1, hs.2⟩, fun hs => ⟨hs.1 hq, hs.2⟩⟩
    · refine ⟨n, by rw [hf q.2 hq, Nat.mul_add]; omega, ?_⟩
      rw [hz]
      exact ⟨fun hs => ⟨fun h₀ => absurd h₀ hq, hs⟩, fun hs => hs.2⟩

def Even (f : Event → Nat) (h : List (Ports × Event)) : Prop :=
  tally Event.closes h = tally Event.succeeds h ∧ ∀ q ∈ h, q.2.succeeds = 0 → f q.2 = 0

theorem even_iff {f : Event → Nat} {c n : Nat} {h : List (Ports × Event)} (hc : 0 < c)
    (hf : ∀ e, e.succeeds ≠ 0 → f e = c * e.succeeds)
    (hn : n + c * tally Event.closes h = tally f h)
    (hle : tally Event.closes h ≤ tally Event.succeeds h) : n = 0 ↔ Even f h := by
  obtain ⟨m, hm, hz⟩ := tally_split hf h
  have hmul : c * tally Event.closes h ≤ c * tally Event.succeeds h := Nat.mul_le_mul_left c hle
  rw [Even, ← hz]
  constructor
  · rintro rfl
    have : c * tally Event.closes h = c * tally Event.succeeds h := by omega
    exact ⟨Nat.eq_of_mul_eq_mul_left hc this, by omega⟩
  · rintro ⟨he, rfl⟩
    rw [he] at hn
    omega

theorem succeeds_of_ne {e : Event} (h : e.succeeds ≠ 0) :
    e.succeeds = 1 ∧ e.objects = 4 ∧ e.buffers = 3 ∧ e.attempts = 1 ∧ e.structs = 1 := by
  cases e with
  | start o d src fi =>
    have hz : (Sofi.activeEndpointOpen o).1 = 0 := by
      by_contra hne
      exact h (if_neg hne)
    obtain ⟨ho, hf⟩ := opens_of_succeeds hz
    simp [Event.succeeds, Event.objects, Event.buffers, Event.attempts, Event.structs, hz, ho, hf]
  | request | close | term => exact absurd rfl h

/-- No step faults, and what the workers watch is open. -/
theorem endpoints_never_fault (r : machine.Reachable p) :
    (∀ e, p.enabled e = true → ∃ q, p.step e = .ok q) ∧
      (∀ it ∈ p.world.items, it.fid ∈ p.world.fids) ∧ (p.world.items.map Watch.fd).Nodup := by
  have hp := books_of_reachable r
  refine ⟨fun e he => ?_, hp.watched, hp.distinct⟩
  cases e with
  | request | start | term => exact ⟨_, rfl⟩
  | close a =>
    obtain ⟨q, hq, -⟩ := hp.close he
    exact ⟨q, hq⟩

def answered : Ports := (empty.request 16 32).start ⟨0, 0, 0, 0, 0, 0, 0, 0⟩ ⟨7, info⟩ 0 (some info)

def accepted : ActiveEndpoint := (empty.request 16 32).world.endpoint ⟨7, info⟩ (some info)

theorem answered_run : ∃ h, machine.Run h answered ∧ h.length = 2 :=
  ⟨_, .step (e := .start ⟨0, 0, 0, 0, 0, 0, 0, 0⟩ ⟨7, info⟩ 0 (some info))
    (.step (e := .request 16 32) (.init rfl) rfl rfl) rfl rfl, rfl⟩

theorem answered_safe : (∃ q, answered.step (.close accepted) = .ok q) ∧
    answered.world.items.map Watch.fd = [4, 5, 6] ∧
    ∀ it ∈ answered.world.items, it.fid ∈ answered.world.fids := by
  obtain ⟨h, r, -⟩ := answered_run
  have hs := endpoints_never_fault r.reachable
  exact ⟨hs.1 (.close accepted) rfl, rfl, hs.2.1⟩

/-- When nothing is left of a run, of each kind. -/
theorem nothing_left_iff {h : List (Ports × Event)} (r : machine.Run h p) :
    (p.world.fids = [] ↔ Even Event.objects h) ∧ (p.buffers = 0 ↔ Even Event.buffers h) ∧
      (p.world.infos = ∅ ↔ p.requests = [] ∧ Even Event.attempts h) ∧
      (p.world.aeps = ∅ ↔ Even Event.structs h) := by
  obtain ⟨hf, hb, hi, ha, hc⟩ := balance_of_run r
  have hle : tally Event.closes h ≤ tally Event.succeeds h := by omega
  have hreq : p.requests.length ≤ p.world.infos.card := by
    obtain ⟨lost, hl⟩ := (books_of_reachable r.reachable).infos
    have := congrArg Multiset.card hl
    simp only [Multiset.card_add, Multiset.coe_card, List.length_map] at this
    exact Nat.le_trans (by omega) (Nat.le_of_eq this.symm)
  refine ⟨?_, ?_, ?_, ?_⟩
  · rw [← List.length_eq_zero_iff]
    refine even_iff (c := 4) (by decide) (fun e he => ?_) hf hle
    rw [(succeeds_of_ne he).1, (succeeds_of_ne he).2.1]
  · refine even_iff (c := 3) (by decide) (fun e he => ?_) hb hle
    rw [(succeeds_of_ne he).1, (succeeds_of_ne he).2.2.1]
  · have hi' : p.world.infos.card - p.requests.length + 1 * tally Event.closes h =
        tally Event.attempts h := by omega
    have he := even_iff (by decide) (fun e he => ?_) hi' hle
    · rw [← Finset.card_eq_zero, ← List.length_eq_zero_iff, ← he]
      omega
    · rw [(succeeds_of_ne he).1, (succeeds_of_ne he).2.2.2.1]
  · rw [← Finset.card_eq_zero]
    refine even_iff (c := 1) (by decide) (fun e he => ?_) (by omega) hle
    rw [(succeeds_of_ne he).1, (succeeds_of_ne he).2.2.2.2]

theorem left_behind : (∃ h p, machine.Run h p ∧ h.length = 3 ∧ p.world.fids = [] ∧
      Even Event.objects h) ∧
    ∃ h p, machine.Run h p ∧ p.world.fids.length = 4 ∧ p.buffers = 3 ∧
      ¬ Even Event.objects h ∧ ¬ Even Event.buffers h := by
  constructor
  · obtain ⟨h, r, hlen⟩ := answered_run
    obtain ⟨q, hq, -, hf, -⟩ := (books_of_reachable r.reachable).close (a := accepted) rfl
    have hnil : q.world.fids = [] := List.eq_nil_of_length_eq_zero (Nat.add_right_cancel hf)
    have r' : machine.Run ((answered, .close accepted) :: h) q := .step r rfl hq
    exact ⟨_, q, r', congrArg (· + 1) hlen, hnil, (nothing_left_iff r').1.1 hnil⟩
  · have r : machine.Run
        [(empty, .start ⟨0, 0, 0, 0, 0, 0, 0, -EINVAL⟩ ⟨7, info⟩ 0 none)]
        (empty.start ⟨0, 0, 0, 0, 0, 0, 0, -EINVAL⟩ ⟨7, info⟩ 0 none) := .step (.init rfl) rfl rfl
    have hn := nothing_left_iff r
    exact ⟨_, _, r, rfl, rfl, fun he => absurd (hn.1.2 he) (by decide),
      fun he => absurd (hn.2.1.2 he) (by decide)⟩

end Ports

end OfiTransport.Opening
