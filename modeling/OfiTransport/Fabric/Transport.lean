import OfiTransport.Fabric.Defs
import OfiTransport.Lib.Machine
import OfiTransport.Lib.Ledger

/-! The transport as nanomsg sees it (`ofi.c`): endpoints that are created and destroyed, and the
fabrics and domains under them (`ofiapi.c`).  A definition has the name of the function it models,
less the prefixes `ofi_` and `nn_`.  Closing an object of the provider succeeds. -/

namespace OfiTransport.Fabric

open Lib

/-- What the provider, the system and `nn_alloc` give out. -/
inductive Kind
  | info
  | fabricFid
  | domainFid
  | eqFid
  | locks
  | thread
  | fabric
  | domain
  | worker
  | bofi
  | offsets
  | cofi
  deriving DecidableEq

abbrev Handle := Kind × Nat

structure OfiwPool where
  locks : Nat
  eq : Nat
  thread : Nat
  deriving DecidableEq

structure OfiFabric where
  item : Nat
  fabric : Nat
  fi : Nat
  pool : OfiwPool
  ref : Int
  deriving DecidableEq

structure OfiDomain where
  item : Nat
  parent : Nat
  domain : Nat
  fi : Nat
  deriving DecidableEq

structure OfiWorker where
  item : Nat
  parent : Nat
  deriving DecidableEq

inductive Endpoint
  | bofi (self : Nat) (domain : OfiDomain) (worker : OfiWorker) (offsets : Nat)
  | cofi (self : Nat) (domain : OfiDomain)
  deriving DecidableEq

def Endpoint.domain : Endpoint → OfiDomain
  | .bofi _ d _ _ => d
  | .cofi _ d => d

/-- The state of the transport and of all the fabrics: `domains` and `workers` are the lists of all
of them, each in its order.  The hints are none once they were freed. -/
structure Transport where
  strings : Resources
  hints : Option Nat
  fabrics : List OfiFabric
  domains : List OfiDomain
  workers : List OfiWorker
  endpoints : List Endpoint
  ledger : Ledger Kind

namespace Transport

def alloc (k : Kind) (t : Transport) : Nat × Transport :=
  ((t.ledger.give k).1, { t with ledger := (t.ledger.give k).2 })

def release (h : Handle) (t : Transport) : M Transport :=
  match t.ledger.take h with
  | none => .error .useAfterFree
  | some L => .ok { t with ledger := L }

def poolInit (ret : Int) (t : Transport) : Int × Option OfiwPool × Transport :=
  let (locks, t) := t.alloc .locks
  if ret ≠ 0 then (ret, none, t)
  else
    let (eq, t) := t.alloc .eqFid
    let (thread, t) := t.alloc .thread
    (0, some ⟨locks, eq, thread⟩, t)

/-- `nn_ofiw_pool_term`, which leaves the internal queue open. -/
def poolTerm (pool : OfiwPool) (t : Transport) : M Transport := do
  let t ← t.release (.thread, pool.thread)
  t.release (.locks, pool.locks)

def fabricOpen (address : Address) (flags : AddrFlags) (a : Answers) (t : Transport) :
    M (Int × Option OfiFabric × Transport) := do
  let (item, t) := t.alloc .fabric
  match matchFabric address flags a.found t.strings with
  | (ret, none, R, _) => return (ret, none, ← { t with strings := R }.release (.fabric, item))
  | (_, some _, R, _) =>
    let (fi, t) := { t with strings := R }.alloc .info
    if a.fabric ≠ 0 then
      let t ← t.release (.info, fi)
      return (a.fabric, none, ← t.release (.fabric, item))
    else
      let (fabric, t) := t.alloc .fabricFid
      match t.poolInit a.pool with
      | (ret, none, t) =>
        -- the fabric of the provider stays open
        let t ← t.release (.info, fi)
        return (ret, none, ← t.release (.fabric, item))
      | (_, some pool, t) =>
        let F : OfiFabric := ⟨item, fabric, fi, pool, 1⟩
        return (0, some F, { t with fabrics := t.fabrics ++ [F] })

/-- `ofi_domain_open` on the fabric's own `fi_info`, where `ret` is what `fi_domain` returns. -/
def domainOpen (F : OfiFabric) (ret : Int) (t : Transport) :
    M (Int × Option OfiDomain × Transport) := do
  let (item, t) := t.alloc .domain
  let (fi, t) := t.alloc .info
  if ret ≠ 0 then
    -- the copy of the `fi_info` is not freed
    return (ret, none, ← t.release (.domain, item))
  else
    let (domain, t) := t.alloc .domainFid
    let d : OfiDomain := ⟨item, F.item, domain, fi⟩
    return (0, some d, { t with domains := t.domains ++ [d] })

def domainClose (d : OfiDomain) (t : Transport) : M Transport :=
  if d ∈ t.domains then do
    let t ← t.release (.domainFid, d.domain)
    let t ← { t with domains := t.domains.erase d }.release (.info, d.fi)
    t.release (.domain, d.item)
  else .error .useAfterFree

def domainsClose : List OfiDomain → Transport → M Transport
  | [], t => .ok t
  | d :: ds, t => do domainsClose ds (← t.domainClose d)

def fabricClose (F : OfiFabric) (t : Transport) : M Transport :=
  if F ∈ t.fabrics then
    if 1 < F.ref then
      .ok { t with
        fabrics := t.fabrics.map fun G => if G = F then { F with ref := F.ref - 1 } else G }
    else do
      let t ← t.domainsClose (t.domains.filter fun d => d.parent = F.item)
      let t ← { t with fabrics := t.fabrics.erase F }.release (.info, F.fi)
      let t ← t.poolTerm F.pool
      t.release (.fabric, F.item)
  else .error .useAfterFree

def fabricsClose : Nat → Transport → M Transport
  | 0, _ => .error .endlessLoop
  | n + 1, t =>
    match t.fabrics with
    | [] => .ok t
    | F :: _ => do fabricsClose n (← t.fabricClose F)

/-- `ofi_term`, with as many turns of the loop as there are references. -/
def term (t : Transport) : M Transport := do
  let t ← t.fabricsClose ((t.fabrics.map fun F => F.ref.toNat).sum + 1)
  match t.hints with
  | none => .error .nullDeref
  | some hints =>
    let t := { t with strings := { t.strings with hints := ⟨none⟩ } }
    return { ← t.release (.info, hints) with hints := none }

def getworker (F : OfiFabric) (t : Transport) : OfiWorker × Transport :=
  let (item, t) := t.alloc .worker
  let w : OfiWorker := ⟨item, F.item⟩
  (w, { t with workers := t.workers ++ [w] })

/-- `nn_ofiw_term`: the worker leaves the list of its pool. -/
def ofiwTerm (w : OfiWorker) (t : Transport) : M Transport :=
  if w ∈ t.workers ∧ w.parent ∈ t.fabrics.map OfiFabric.item then
    { t with workers := t.workers.erase w }.release (.worker, w.item)
  else .error .useAfterFree

/-- `nn_bofi_create` up to the start of its machine. -/
def bofiCreate (F : OfiFabric) (ret : Int) (t : Transport) : M (Int × Transport) := do
  let (self, t) := t.alloc .bofi
  match ← t.domainOpen F ret with
  | (ret, none, t) => return (ret, ← t.release (.bofi, self))
  | (_, some d, t) =>
    let (w, t) := t.getworker F
    let (offsets, t) := t.alloc .offsets
    return (0, { t with endpoints := t.endpoints ++ [.bofi self d w offsets] })

def cofiCreate (F : OfiFabric) (ret : Int) (t : Transport) : M (Int × Transport) := do
  let (self, t) := t.alloc .cofi
  match ← t.domainOpen F ret with
  | (ret, none, t) => return (ret, ← t.release (.cofi, self))
  | (_, some d, t) => return (0, { t with endpoints := t.endpoints ++ [.cofi self d] })

/-- `nn_bofi_destroy`, which leaves the offsets allocated, and `nn_cofi_destroy`. -/
def destroy (e : Endpoint) (t : Transport) : M Transport :=
  match e with
  | .bofi self d w _ => do
    let t ← t.domainClose d
    let t ← t.ofiwTerm w
    return { ← t.release (.bofi, self) with endpoints := t.endpoints.erase e }
  | .cofi self d => do
    let t ← t.domainClose d
    return { ← t.release (.cofi, self) with endpoints := t.endpoints.erase e }

def ofiBind (address : Address) (a : Answers) (domain : Int) (t : Transport) :
    M (Int × Transport) := do
  match ← t.fabricOpen address .addrLocal a with
  | (ret, none, t) => return (ret, t)
  | (_, some F, t) => t.bofiCreate F domain

def ofiConnect (address : Address) (a : Answers) (domain : Int) (t : Transport) :
    M (Int × Transport) := do
  match ← t.fabricOpen address .addrRemote a with
  | (ret, none, t) => return (ret, t)
  | (_, some F, t) => t.cofiCreate F domain

/-- After `ofi_init` has had its hints. -/
def start (h : Allocated) : Transport :=
  let (hints, L) := (Ledger.empty : Ledger Kind).give .info
  ⟨Fabric.fresh h, some hints, [], [], [], [], L⟩

inductive Event
  | bind (address : Address) (a : Answers) (domain : Int)
  | connect (address : Address) (a : Answers) (domain : Int)
  | destroy (e : Endpoint)
  | term

def enabled (t : Transport) : Event → Bool
  | .bind .. | .connect .. | .term => t.hints.isSome
  | .destroy e => e ∈ t.endpoints

def step (t : Transport) : Event → M Transport
  | .bind address a domain => do return (← t.ofiBind address a domain).2
  | .connect address a domain => do return (← t.ofiConnect address a domain).2
  | .destroy e => t.destroy e
  | .term => t.term

def machine : Machine Transport Event Fault where
  init t := ∃ h, t = start h
  enabled := enabled
  step := step

end Transport

end OfiTransport.Fabric
