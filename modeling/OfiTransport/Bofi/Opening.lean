import OfiTransport.Bofi.Requests
import OfiTransport.Lib.Attempt
import OfiTransport.Ofiw.Defs
import Mathlib.Data.Finset.Erase
import Mathlib.Data.Finset.Insert
import Mathlib.Logic.Relation

/-! Opening an active endpoint (`ofi_active_endpoint_open`), with the queues that the worker is
told to watch, and what is left of it when one of the calls to the provider fails. -/

namespace OfiTransport.Opening

open Lib Attempt

def OFI_SRC_EQ : Nat := 0x10000000

def OFI_SRC_CQ_TX : Nat := 0x20000000

def OFI_SRC_CQ_RX : Nat := 0x40000000

def eqCmEntrySize : Nat := 16

inductive Kind
  | domain
  | ep
  | queue (t : Ofiw.ItemType)
  deriving DecidableEq

structure Fid where
  kind : Kind
  id : Nat
  deriving DecidableEq

/-- `struct fi_info`, with the sizes of the queues it asks for. -/
structure Info where
  id : Nat
  txSize : Nat
  rxSize : Nat

/-- `struct nn_ofiw_item` -/
structure Watch where
  fdType : Ofiw.ItemType
  fd : Nat
  src : Nat
  dataSize : Nat
  deriving DecidableEq

/-- The objects that are open, the `fi_info` and `ofi_active_endpoint` structures that were not
freed, the items of the worker, and the pointer that the endpoint is returned in. -/
structure World where
  fids : List Fid
  infos : Finset Nat
  aeps : Finset Nat
  items : List Watch
  out : Option Nat
  next : Nat
  fresh : ∀ f ∈ fids, f.id < next

structure Domain where
  domain : Nat
  fi : Info

structure ActiveEndpoint where
  id : Nat
  fi : Info
  fdomain : Option Nat
  ep : Nat
  eq : Nat
  cqTx : Nat
  cqRx : Nat

namespace World

def openFid (k : Kind) (s : World) : Nat × World :=
  (s.next,
    { s with
      fids := s.fids ++ [⟨k, s.next⟩]
      next := s.next + 1
      fresh := by
        intro f hf
        rcases List.mem_append.1 hf with hf | hf
        · exact Nat.lt_succ_of_lt (s.fresh f hf)
        · obtain rfl := List.mem_singleton.1 hf
          exact Nat.lt_succ_self _ })

def alloc (s : World) : World :=
  { s with next := s.next + 1, fresh := fun f hf => Nat.lt_succ_of_lt (s.fresh f hf) }

def allocAep (s : World) : Nat × World :=
  (s.next, { s.alloc with aeps := insert s.next s.aeps })

def dupInfo (fi : Info) (s : World) : Info × World :=
  ({ fi with id := s.next }, { s.alloc with infos := insert s.next s.infos })

def freeInfo (fi : Info) (s : World) : Unit × World :=
  ((), { s with infos := s.infos.erase fi.id })

def freeAep (aep : Nat) (s : World) : World := { s with aeps := s.aeps.erase aep, out := none }

def setOut (aep : Nat) (s : World) : Unit × World := ((), { s with out := some aep })

def watch (it : Watch) (s : World) : Unit × World := ((), { s with items := s.items ++ [it] })

end World

abbrev Open := Attempt Int World

def openQueue (t : Ofiw.ItemType) (ret : Int) (src dataSize : Nat) : Open Nat := do
  check ret
  let fd ← act (World.openFid (.queue t))
  act (World.watch ⟨t, fd, src, dataSize⟩)
  return fd

def openEq (ret : Int) (src : Nat) : Open Nat := openQueue .eq ret src eqCmEntrySize

def openCq (ret : Int) (src size : Nat) : Open Nat := openQueue .cq ret src size

/-- The `fi_info` of the endpoint and, when there is one for each endpoint, the domain.  Then
`domainPerEp` is what `fi_domain` returns. -/
def endpointInfo (domainPerEp : Option Int) (d : Domain) (aep : Nat) :
    Option Info → Open (Info × Option Nat)
  | none => do
    let info ← act (World.dupInfo d.fi)
    return (info, none)
  | some fi => do
    let info ← act (World.dupInfo fi)
    act (World.freeInfo fi)
    match domainPerEp with
    | none => return (info, none)
    | some ret =>
      leaving (World.freeAep aep) (check ret)
      let fdomain ← act (World.openFid .domain)
      return (info, some fdomain)

def openQueues (o : Sofi.Opening) (src aep : Nat) (info : Info) : Open (Nat × Nat × Nat) := do
  let eq ← leaving (World.freeAep aep) (openEq o.openEq (src ||| OFI_SRC_EQ))
  check o.bindEq
  let cqTx ← leaving (World.freeAep aep) (openCq o.openCqTx (src ||| OFI_SRC_CQ_TX) info.txSize)
  check o.bindCqTx
  let cqRx ← leaving (World.freeAep aep) (openCq o.openCqRx (src ||| OFI_SRC_CQ_RX) info.rxSize)
  check o.bindCqRx
  check o.enable
  return (eq, cqTx, cqRx)

def openEndpoint (o : Sofi.Opening) (src aep : Nat) (x : Info × Option Nat) :
    Open ActiveEndpoint := do
  leaving (World.freeAep aep) (check o.endpoint)
  let ep ← act (World.openFid .ep)
  let q ← openQueues o src aep x.1
  act (World.setOut aep)
  return ⟨aep, x.1, x.2, ep, q.1, q.2.1, q.2.2⟩

def activeEndpointOpen (domainPerEp : Option Int) (o : Sofi.Opening) (d : Domain) (src : Nat)
    (fi : Option Info) : Open ActiveEndpoint := do
  let aep ← act World.allocAep
  let x ← endpointInfo domainPerEp d aep fi
  openEndpoint o src aep x

/-! What a failure leaves. -/

structure Restored (fi : Option Info) (s t : World) : Prop where
  fids : ∀ f ∈ t.fids, f.kind ≠ .domain → f ∈ s.fids
  items : t.items = s.items
  info : ∀ i, fi = some i → i.id ∈ t.infos

def AllOrNothing (domainPerEp : Option Int) (o : Sofi.Opening) (d : Domain) (src : Nat)
    (fi : Option Info) (s : World) : Prop :=
  ∀ e t, Ends (activeEndpointOpen domainPerEp o d src fi) s (.error e) t → Restored fi s t

def domainCall (domainPerEp : Option Int) : Option Info → Int
  | none => 0
  | some _ => domainPerEp.getD 0

structure Succeeds (domainPerEp : Option Int) (o : Sofi.Opening) (fi : Option Info) : Prop where
  domain : domainCall domainPerEp fi = 0
  endpoint : o.endpoint = 0
  openEq : o.openEq = 0
  bindEq : o.bindEq = 0
  openCqTx : o.openCqTx = 0
  bindCqTx : o.bindCqTx = 0
  openCqRx : o.openCqRx = 0
  bindCqRx : o.bindCqRx = 0
  enable : o.enable = 0

def World.endpoints (s : World) : List Fid := s.fids.filter fun f => f.kind = .ep

def SameEndpoints (s t : World) : Prop := t.endpoints = s.endpoints

instance : Std.Refl SameEndpoints := ⟨fun _ => rfl⟩

instance : IsTrans World SameEndpoints := ⟨fun _ _ _ h h' => h'.trans h⟩

def Frees (s t : World) : Prop := t.infos ⊆ s.infos

instance : Std.Refl Frees := ⟨fun _ => Finset.Subset.refl _⟩

instance : IsTrans World Frees := ⟨fun _ _ _ h h' => Finset.Subset.trans h' h⟩

section Queues

variable {R : World → World → Prop} [Std.Refl R] [IsTrans World R]

theorem openQueue_within (t : Ofiw.ItemType) (ret : Int) (src dataSize : Nat)
    (ho : ∀ t s, R s (World.openFid (.queue t) s).2) (hw : ∀ it s, R s (World.watch it s).2) :
    Within R (openQueue t ret src dataSize) := by
  refine (within_check ret).bind fun _ => ?_
  refine (within_act (ho t)).bind fun fd => ?_
  exact (within_act (hw _)).bind fun _ => within_pure fd

theorem openQueues_within (o : Sofi.Opening) (src aep : Nat) (info : Info)
    (ho : ∀ t s, R s (World.openFid (.queue t) s).2) (hw : ∀ it s, R s (World.watch it s).2)
    (hf : ∀ s, R s (s.freeAep aep)) : Within R (openQueues o src aep info) := by
  refine ((openQueue_within .eq _ _ _ ho hw).leaving hf).bind fun eq => ?_
  refine (within_check _).bind fun _ => ?_
  refine ((openQueue_within .cq _ _ _ ho hw).leaving hf).bind fun cqTx => ?_
  refine (within_check _).bind fun _ => ?_
  refine ((openQueue_within .cq _ _ _ ho hw).leaving hf).bind fun cqRx => ?_
  refine (within_check _).bind fun _ => ?_
  exact (within_check _).bind fun _ => within_pure _

theorem openEndpoint_after {o : Sofi.Opening} {src aep : Nat} {x : Info × Option Nat}
    {s t : World} {r : Except Int ActiveEndpoint} (ho : o.endpoint = 0)
    (h : Ends (openEndpoint o src aep x) s r t)
    (hq : ∀ t s, R s (World.openFid (.queue t) s).2) (hw : ∀ it s, R s (World.watch it s).2)
    (hf : ∀ s, R s (s.freeAep aep)) (hs : ∀ s, R s (s.setOut aep).2) :
    R (World.openFid .ep s).2 t := by
  have h₁ := (ends_check s ho).leaving.of_bind h
  refine Within.of_bind (ends_act _ s) h₁ ?_
  refine (openQueues_within o src aep x.1 hq hw hf).bind fun q => ?_
  exact (within_act hs).bind fun _ => within_pure _

theorem openEndpoint_within (o : Sofi.Opening) (src aep : Nat) (x : Info × Option Nat)
    (ho : ∀ k s, R s (World.openFid k s).2) (hw : ∀ it s, R s (World.watch it s).2)
    (hf : ∀ s, R s (s.freeAep aep)) (hs : ∀ s, R s (s.setOut aep).2) :
    Within R (openEndpoint o src aep x) := by
  refine ((within_check _).leaving hf).bind fun _ => ?_
  refine (within_act (ho .ep)).bind fun ep => ?_
  refine (openQueues_within o src aep x.1 (fun t => ho (.queue t)) hw hf).bind fun q => ?_
  exact (within_act hs).bind fun _ => within_pure _

end Queues

theorem endpointInfo_returns (domainPerEp : Option Int) (d : Domain) (aep : Nat)
    (fi : Option Info) :
    Returns (domainCall domainPerEp fi) (endpointInfo domainPerEp d aep fi) := by
  cases fi with
  | none => exact (returns_act _).bind_zero fun info => returns_pure _
  | some fi =>
    refine (returns_act _).bind_zero fun info => (returns_act _).bind_zero fun _ => ?_
    cases domainPerEp with
    | none => exact returns_pure _
    | some ret =>
      refine (returns_check ret).leaving.bind_safe fun _ => ?_
      exact (returns_act _).bind_zero fun fdomain => returns_pure _

theorem openQueue_returns (t : Ofiw.ItemType) (ret : Int) (src dataSize : Nat) :
    Returns ret (openQueue t ret src dataSize) := by
  refine (returns_check ret).bind_safe fun _ => ?_
  refine (returns_act _).bind_zero fun fd => ?_
  exact (returns_act _).bind_zero fun _ => returns_pure fd

theorem openQueues_returns (o : Sofi.Opening) (src aep : Nat) (info : Info) :
    Returns (if o.openEq ≠ 0 then o.openEq
      else if o.bindEq ≠ 0 then o.bindEq
      else if o.openCqTx ≠ 0 then o.openCqTx
      else if o.bindCqTx ≠ 0 then o.bindCqTx
      else if o.openCqRx ≠ 0 then o.openCqRx
      else if o.bindCqRx ≠ 0 then o.bindCqRx
      else o.enable) (openQueues o src aep info) := by
  refine (openQueue_returns .eq _ _ _).leaving.bind fun eq => ?_
  refine (returns_check _).bind fun _ => ?_
  refine (openQueue_returns .cq _ _ _).leaving.bind fun cqTx => ?_
  refine (returns_check _).bind fun _ => ?_
  refine (openQueue_returns .cq _ _ _).leaving.bind fun cqRx => ?_
  refine (returns_check _).bind fun _ => ?_
  exact (returns_check _).bind_safe fun _ => returns_pure _

theorem openEndpoint_returns (o : Sofi.Opening) (src aep : Nat) (x : Info × Option Nat) :
    Returns (Sofi.activeEndpointOpen o).1 (openEndpoint o src aep x) := by
  have ho : (Sofi.activeEndpointOpen o).1 =
      if o.endpoint ≠ 0 then o.endpoint
      else if o.openEq ≠ 0 then o.openEq
      else if o.bindEq ≠ 0 then o.bindEq
      else if o.openCqTx ≠ 0 then o.openCqTx
      else if o.bindCqTx ≠ 0 then o.bindCqTx
      else if o.openCqRx ≠ 0 then o.openCqRx
      else if o.bindCqRx ≠ 0 then o.bindCqRx
      else o.enable := by
    unfold Sofi.activeEndpointOpen
    split_ifs <;> rfl
  rw [ho]
  refine (returns_check _).leaving.bind fun _ => ?_
  refine (returns_act _).bind_zero fun ep => ?_
  refine (openQueues_returns o src aep x.1).bind_safe fun q => ?_
  exact (returns_act _).bind_zero fun _ => returns_pure _

theorem activeEndpointOpen_returns (domainPerEp : Option Int) (o : Sofi.Opening) (d : Domain)
    (src : Nat) (fi : Option Info) :
    Returns (if domainCall domainPerEp fi ≠ 0 then domainCall domainPerEp fi
      else (Sofi.activeEndpointOpen o).1) (activeEndpointOpen domainPerEp o d src fi) := by
  refine (returns_act _).bind_zero fun aep => ?_
  exact (endpointInfo_returns domainPerEp d aep fi).bind fun x => openEndpoint_returns o src aep x

theorem succeeds_iff (domainPerEp : Option Int) (o : Sofi.Opening) (fi : Option Info) :
    Succeeds domainPerEp o fi ↔
      domainCall domainPerEp fi = 0 ∧ (Sofi.activeEndpointOpen o).1 = 0 := by
  constructor
  · intro h
    refine ⟨h.domain, ?_⟩
    simp [Sofi.activeEndpointOpen, h.endpoint, h.openEq, h.bindEq, h.openCqTx, h.bindCqTx,
      h.openCqRx, h.bindCqRx, h.enable]
  · rintro ⟨hd, ho⟩
    unfold Sofi.activeEndpointOpen at ho
    refine ⟨hd, ?_, ?_, ?_, ?_, ?_, ?_, ?_, ?_⟩
    all_goals grind

theorem World.freeAep_frees (aep : Nat) (s : World) : Frees s (s.freeAep aep) := refl_of Frees s

theorem openFid_sameEndpoints {k : Kind} (h : k ≠ .ep) (s : World) :
    SameEndpoints s (s.openFid k).2 := by
  simp [SameEndpoints, World.endpoints, World.openFid, h]

theorem openEndpoint_endpoints {o : Sofi.Opening} {src aep : Nat} {x : Info × Option Nat}
    {s t : World} {r : Except Int ActiveEndpoint} (h : Ends (openEndpoint o src aep x) s r t) :
    t.endpoints = s.endpoints ++ List.replicate (Sofi.activeEndpointOpen o).2 ⟨.ep, s.next⟩ := by
  by_cases ho : o.endpoint = 0
  · have hk : SameEndpoints (World.openFid .ep s).2 t :=
      openEndpoint_after ho h (fun t => openFid_sameEndpoints (k := .queue t) (by simp))
        (fun _ s => refl_of SameEndpoints s) (fun s => refl_of SameEndpoints s)
        (fun s => refl_of SameEndpoints s)
    have hone : (Sofi.activeEndpointOpen o).2 = 1 := by
      unfold Sofi.activeEndpointOpen
      rw [if_neg (by simpa using ho)]
      split_ifs <;> rfl
    rw [hk, hone]
    simp [World.endpoints, World.openFid]
  · obtain ⟨-, rfl⟩ := h.unique (ends_check_error _ ho).leaving_error.bind_error
    rw [Sofi.activeEndpointOpen_none.2 ho, List.replicate_zero, List.append_nil]
    rfl

theorem endpointInfo_frees {domainPerEp : Option Int} {d : Domain} {aep : Nat} {fi : Info}
    {s t : World} {r : Except Int (Info × Option Nat)}
    (h : Ends (endpointInfo domainPerEp d aep (some fi)) s r t) : fi.id ∉ t.infos := by
  have h₁ := (ends_act (World.dupInfo fi) s).of_bind h
  have hk : Frees (World.freeInfo fi (World.dupInfo fi s).2).2 t := by
    refine Within.of_bind (ends_act _ _) h₁ ?_
    cases domainPerEp with
    | none => exact within_pure _
    | some ret =>
      refine ((within_check (R := Frees) ret).leaving (World.freeAep_frees aep)).bind fun _ => ?_
      exact (within_act (R := Frees) fun s => refl_of Frees s).bind fun _ => within_pure _
  exact fun hm => Finset.notMem_erase fi.id _ (hk hm)

theorem activeEndpointOpen_frees {domainPerEp : Option Int} {o : Sofi.Opening} {d : Domain}
    {src : Nat} {fi : Info} {s t : World} {r : Except Int ActiveEndpoint}
    (h : Ends (activeEndpointOpen domainPerEp o d src (some fi)) s r t) : fi.id ∉ t.infos := by
  have h₁ := (ends_act World.allocAep s).of_bind h
  obtain ⟨x, u, hx, h₂⟩ | ⟨e, hx, -⟩ := h₁.cases
  · have hk : Frees u t :=
      openEndpoint_within (R := Frees) o src _ x (fun _ s => refl_of Frees s)
        (fun _ s => refl_of Frees s) (fun s => refl_of Frees s) (fun s => refl_of Frees s) u r t h₂
    exact fun hm => endpointInfo_frees hx (hk hm)
  · exact endpointInfo_frees hx

theorem endpointInfo_none (domainPerEp : Option Int) (d : Domain) (aep : Nat) (s : World) :
    Ends (endpointInfo domainPerEp d aep none) s (.ok ((s.dupInfo d.fi).1, none))
      (s.dupInfo d.fi).2 :=
  (ends_act _ s).bind (ends_pure _ _)

theorem activeEndpointOpen_opens {domainPerEp : Option Int} {o : Sofi.Opening} {d : Domain}
    {src : Nat} {s t : World} {r : Except Int ActiveEndpoint} (ho : o.endpoint = 0)
    (h : Ends (activeEndpointOpen domainPerEp o d src none) s r t) :
    ∃ f ∈ t.fids, f.kind = .ep ∧ f ∉ s.fids := by
  have h₁ := (ends_act World.allocAep s).of_bind h
  have h₂ := (endpointInfo_none domainPerEp d _ _).of_bind h₁
  have hcount : (Sofi.activeEndpointOpen o).2 ≠ 0 := by
    rw [ne_eq, Sofi.activeEndpointOpen_none]
    exact not_not.2 ho
  have hopen : ⟨.ep, (World.dupInfo d.fi s.allocAep.2).2.next⟩ ∈ t.endpoints := by
    rw [openEndpoint_endpoints h₂]
    exact List.mem_append_right _ (List.mem_replicate.2 ⟨hcount, rfl⟩)
  refine ⟨_, List.mem_of_mem_filter hopen, rfl, fun hm => ?_⟩
  have hlt : (World.dupInfo d.fi s.allocAep.2).2.next < s.next := s.fresh _ hm
  have hnext : (World.dupInfo d.fi s.allocAep.2).2.next = s.next + 1 + 1 := rfl
  omega

theorem activeEndpointOpen_restored {domainPerEp : Option Int} {o : Sofi.Opening} {d : Domain}
    {src : Nat} {s t : World} {r : Except Int ActiveEndpoint} (ho : o.endpoint ≠ 0)
    (h : Ends (activeEndpointOpen domainPerEp o d src none) s r t) : Restored none s t := by
  have h₁ := (ends_act World.allocAep s).of_bind h
  have h₂ := (endpointInfo_none domainPerEp d _ _).of_bind h₁
  obtain ⟨-, rfl⟩ := h₂.unique (ends_check_error _ ho).leaving_error.bind_error
  exact ⟨fun f hf _ => hf, rfl, by simp⟩

theorem allOrNothing_iff (domainPerEp : Option Int) (o : Sofi.Opening) (d : Domain) (src : Nat)
    (fi : Option Info) (s : World) :
    AllOrNothing domainPerEp o d src fi s ↔
      Succeeds domainPerEp o fi ∨ fi = none ∧ o.endpoint ≠ 0 := by
  have hret := activeEndpointOpen_returns domainPerEp o d src fi
  rw [succeeds_iff]
  constructor
  · intro h
    by_cases hs : domainCall domainPerEp fi = 0 ∧ (Sofi.activeEndpointOpen o).1 = 0
    · exact .inl hs
    · have hne : (if domainCall domainPerEp fi ≠ 0 then domainCall domainPerEp fi
          else (Sofi.activeEndpointOpen o).1) ≠ 0 := by
        split_ifs with hd
        · exact hd
        · exact fun ho => hs ⟨not_not.1 hd, ho⟩
      obtain ⟨t, ht⟩ := hret.exists_error hne s
      have hr := h _ t ht
      cases fi with
      | some fi => exact absurd (hr.info fi rfl) (activeEndpointOpen_frees ht)
      | none =>
        refine .inr ⟨rfl, fun ho => ?_⟩
        obtain ⟨f, hf, hk, hn⟩ := activeEndpointOpen_opens ho ht
        exact hn (hr.fids f hf (by simp [hk]))
  · rintro (⟨hd, ho⟩ | ⟨rfl, ho⟩) e t ht
    · exact absurd (by rw [if_neg (by simpa using hd), ho]) (hret.ne_zero ht)
    · exact activeEndpointOpen_restored ho ht

def idle : World := ⟨[], {0}, ∅, [], none, 1, by simp⟩

def info : Info := ⟨0, 16, 32⟩

/-- When the endpoint cannot be enabled it stays open, with its queues, which the worker goes on
to read; and an `fi_info` is gone as soon as it was passed in. -/
theorem failure_leaves :
    (let o : Sofi.Opening := ⟨0, 0, 0, 0, 0, 0, 0, -EINVAL⟩;
      ¬ AllOrNothing none o ⟨7, info⟩ 0 none idle ∧
        ((activeEndpointOpen none o ⟨7, info⟩ 0 none).run.run idle).2.items =
          [⟨.eq, 4, OFI_SRC_EQ, 16⟩, ⟨.cq, 5, OFI_SRC_CQ_TX, 16⟩, ⟨.cq, 6, OFI_SRC_CQ_RX, 32⟩]) ∧
      ¬ AllOrNothing none ⟨-EINVAL, 0, 0, 0, 0, 0, 0, 0⟩ ⟨7, info⟩ 0 (some info) idle := by
  refine ⟨⟨fun h => ?_, rfl⟩, fun h => ?_⟩
  · exact absurd (h _ _ rfl).items (by decide)
  · exact absurd ((h _ _ rfl).info info rfl) (by decide)

end OfiTransport.Opening
