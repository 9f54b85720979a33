import OfiTransport.Nanomsg
import OfiTransport.Lib.Machine
import OfiTransport.Lib.Memory
import Mathlib.Logic.Function.Basic

/-! The memory region manager (`ofimr.c`).  A definition has the name of the function it
models, less the prefix `ofi_mr_`, and takes what `fi_mr_reg` and `fi_close` are going to
return as arguments.  The mutexes are left out: one operation runs at a time here. -/

namespace OfiTransport.Mr

open Lib

structure Registration where
  region : Region
  key : Nat
  deriving DecidableEq

/-- The domain a manager works on: the memory of the process and the registrations, which
are numbered in the order in which they were made. -/
structure Domain where
  mem : Memory
  regs : Nat → Option Registration
  nextMr : Nat
  fresh : ∀ id, nextMr ≤ id → regs id = none

namespace Domain

def unused : Domain := ⟨fun _ => 0, fun _ => none, 0, fun _ _ => rfl⟩

def mrReg (d : Domain) (g : Registration) : Nat × Domain :=
  (d.nextMr,
    { mem := d.mem
      regs := Function.update d.regs d.nextMr (some g)
      nextMr := d.nextMr + 1
      fresh := by
        intro id h
        rw [Function.update_of_ne (by omega)]
        exact d.fresh id (by omega) })

def mrClose (d : Domain) (id : Nat) : Domain where
  mem := d.mem
  regs := Function.update d.regs id none
  nextMr := d.nextMr
  fresh := by
    intro id' h
    by_cases hid : id' = id
    · simp [hid]
    · rw [Function.update_of_ne hid]
      exact d.fresh id' h

def copy (d : Domain) (dst : Nat) (src : Region) : Domain :=
  { d with mem := d.mem.copy dst src }

@[simp] theorem mrReg_id (d : Domain) (g : Registration) : (d.mrReg g).1 = d.nextMr := rfl

@[simp] theorem mrReg_regs (d : Domain) (g : Registration) (id : Nat) :
    (d.mrReg g).2.regs id = if id = d.nextMr then some g else d.regs id := by
  simp [mrReg, Function.update_apply]

@[simp] theorem mrClose_regs (d : Domain) (id id' : Nat) :
    (d.mrClose id).regs id' = if id' = id then none else d.regs id' := by
  simp [mrClose, Function.update_apply]

@[simp] theorem mrClose_mem (d : Domain) (id : Nat) : (d.mrClose id).mem = d.mem := rfl

@[simp] theorem copy_mem (d : Domain) (dst : Nat) (src : Region) :
    (d.copy dst src).mem = d.mem.copy dst src := rfl

end Domain

/-- A bank, with its flag bits NONVOLATILE and REGISTERED.  Its `ref` is an `int` in the source
and has no bounds here. -/
structure Bank where
  ref : Int
  base : Nat
  len : Nat
  mr : Option Nat
  age : Nat
  nonvolatile : Bool
  registered : Bool

def Bank.region (b : Bank) : Region := ⟨b.base, b.len⟩

structure Slab where
  addr : Nat
  inuse : Bool

structure Attr where
  bankCount : Nat
  slabCount : Nat
  slabSize : Nat
  baseKey : Nat

structure Manager where
  attr : Attr
  domain : Domain
  banks : Nat → Bank
  age : Nat
  slabs : Nat → Slab
  slabMr : Option Nat
  slabMem : Nat

namespace Manager

def modifyBank (m : Manager) (i : Nat) (f : Bank → Bank) : Manager :=
  { m with banks := Function.update m.banks i (f (m.banks i)) }

def setSlab (m : Manager) (j : Nat) (inuse : Bool) : Manager :=
  { m with slabs := Function.update m.slabs j { m.slabs j with inuse := inuse } }

@[simp] theorem modifyBank_banks (m : Manager) (i k : Nat) (f : Bank → Bank) :
    (m.modifyBank i f).banks k = if k = i then f (m.banks i) else m.banks k := by
  simp [modifyBank, Function.update_apply]

@[simp] theorem modifyBank_domain (m : Manager) (i : Nat) (f : Bank → Bank) :
    (m.modifyBank i f).domain = m.domain := rfl

@[simp] theorem setSlab_domain (m : Manager) (j : Nat) (u : Bool) :
    (m.setSlab j u).domain = m.domain := rfl

@[simp] theorem setSlab_addr (m : Manager) (j k : Nat) (u : Bool) :
    ((m.setSlab j u).slabs k).addr = (m.slabs k).addr := by
  by_cases h : k = j <;> simp [setSlab, h]

end Manager

/-- What the provider calls made for one bank are going to return. -/
structure Answers where
  close : Int
  reg : Int

/-- `ofi_mr_tryslab`, which also redirects the copy to the slab it found. -/
def tryslab (m : Manager) (v : Region) : Int × Manager × Option Nat :=
  if m.attr.slabSize < v.len then (-EFBIG, m, none)
  else
    match (List.range m.attr.slabCount).find? (fun j => !(m.slabs j).inuse) with
    | none => (-ENOMEM, m, none)
    | some j =>
      let m := m.setSlab j true
      (0, { m with domain := m.domain.copy (m.slabs j).addr v }, some j)

def unregister (close : Int) (m : Manager) (i : Nat) : Int × Manager :=
  if (m.banks i).registered = false then (0, m)
  else if close ≠ 0 then (close, m)
  else
    let domain := match (m.banks i).mr with
      | none => m.domain
      | some id => m.domain.mrClose id
    (0, { m with domain := domain }.modifyBank i
      (fun b => { b with registered := false, base := 0, len := 0 }))

/-- The rest of `ofi_mr_register`, once the bank is known to be unregistered. -/
def registerFresh (reg : Int) (m : Manager) (i : Nat) : Int × Manager :=
  let b := m.banks i
  if reg ≠ 0 then (reg, m)
  else
    let (id, domain) := m.domain.mrReg ⟨b.region, toUInt64 (m.attr.baseKey + i + 1)⟩
    let age := toUInt32 (m.age + 1)
    (0, { m with domain := domain, age := age }.modifyBank i
      (fun b => { b with mr := some id, registered := true, age := age }))

def register (a : Answers) (m : Manager) (i : Nat) : Int × Manager :=
  if (m.banks i).registered then
    let (ret, m) := unregister a.close m i
    if ret ≠ 0 then (ret, m) else registerFresh a.reg m i
  else registerFresh a.reg m i

def getFreeBank (m : Manager) : Option Nat :=
  (List.range m.attr.bankCount).find? (fun i =>
    (m.banks i).ref = 0 ∧ (m.banks i).nonvolatile = false ∧ (m.banks i).registered = false)

/-- How the loop of `ofi_mr_find_bank` over the banks ends. -/
inductive Lookup
  | hit (i : Nat)
  | evict (i : Nat)
  | again

def older (m : Manager) (i : Nat) : Option Nat → Option Nat
  | none => if (m.banks i).ref = 0 ∧ (m.banks i).nonvolatile = false then some i else none
  | some o =>
    if (m.banks i).ref = 0 ∧ (m.banks i).nonvolatile = false ∧ (m.banks i).age < (m.banks o).age
    then some i else some o

def scan (m : Manager) (v : Region) : List Nat → Option Nat → Lookup
  | [], none => .again
  | [], some o => .evict o
  | i :: is, o => if (m.banks i).region.Covers v then .hit i else scan m v is (older m i o)

def lookup (m : Manager) (v : Region) : Lookup := scan m v (List.range m.attr.bankCount) none

def findBank (a : Answers) (m : Manager) (v : Region) : Int × Manager × Option Nat :=
  match lookup m v with
  | .hit i => (0, m, some i)
  | .evict i =>
    -- registering a bank that is still registered resets this range first
    let m := m.modifyBank i (fun b => { b with base := v.base, len := v.len })
    let (ret, m) := register a m i
    if ret ≠ 0 then (ret, m, none) else (0, m, some i)
  | .again => (-EAGAIN, m, none)

/-- `ofi_mr_init`, given the block `nn_alloc` returned for the slabs. -/
def init (attr : Attr) (domain : Domain) (slabMem : Nat) (reg : Int) : Int × Manager :=
  let m : Manager :=
    { attr := attr
      domain := domain
      banks := fun _ => ⟨0, 0, 0, none, 0, false, false⟩
      age := 0
      slabs := fun j => ⟨slabMem + attr.slabSize * j, false⟩
      slabMr := none
      slabMem := slabMem }
  if attr.slabCount = 0 then (0, m)
  else if reg ≠ 0 then (reg, m)
  else
    let (id, domain) := domain.mrReg ⟨⟨slabMem, attr.slabCount * attr.slabSize⟩, attr.baseKey⟩
    (0, { m with domain := domain, slabMr := some id })

def termBanks (close : Nat → Int) : List Nat → Manager → M Manager
  | [], m => .ok m
  | i :: is, m => do
    nnAssert ((m.banks i).ref = 0)
    termBanks close is (unregister (close i) m i).2

/-- `ofi_mr_term`, which leaves nothing but the domain. -/
def term (close : Nat → Int) (closeSlab : Int) (m : Manager) : M (Int × Domain) := do
  let m ← termBanks close (List.range m.attr.bankCount) m
  if m.attr.slabCount = 0 then return (0, m.domain)
  else
    match m.slabMr with
    | none => .error .nullDeref
    | some id => return (0, if closeSlab = 0 then m.domain.mrClose id else m.domain)

def mark (a : Answers) (m : Manager) (v : Region) : Int × Manager :=
  match getFreeBank m with
  | none => (-ENOMEM, m)
  | some i =>
    register a (m.modifyBank i
      (fun b => { b with
        base := v.base, len := v.len, nonvolatile := true, registered := false })) i

/-- The test of `ofi_mr_invalidate`, with its comparisons on both ends inclusive. -/
def Meets (b v : Region) : Prop :=
  (b.base ≤ v.base ∧ v.base ≤ b.stop) ∨ (b.base ≤ v.stop ∧ v.stop ≤ b.stop) ∨
  (v.base ≤ b.base ∧ b.base ≤ v.stop) ∨ (v.base ≤ b.stop ∧ b.stop ≤ v.stop)

instance (b v : Region) : Decidable (Meets b v) := inferInstanceAs (Decidable (_ ∨ _))

def invalidateFrom (close : Nat → Int) (v : Region) : List Nat → Manager → Int × Manager
  | [], m => (0, m)
  | i :: is, m =>
    if Meets (m.banks i).region v then
      if 0 < (m.banks i).ref then (-EBUSY, m)
      else
        let m := (unregister (close i) m i).2
        invalidateFrom close v is (m.modifyBank i (fun b => { b with nonvolatile := false }))
    else invalidateFrom close v is m

def invalidate (close : Nat → Int) (m : Manager) (v : Region) : Int × Manager :=
  invalidateFrom close v (List.range m.attr.bankCount) m

/-- `struct ofi_mr_context`; a descriptor is the `fid_mr` it was taken from. -/
structure Context where
  descriptors : List (Option Nat)
  banks : List Nat
  slabs : List Nat
  deriving DecidableEq

/-- The state of `ofi_mr_describe` in its loop, with the iovs it has been through. -/
structure Describing where
  mgr : Manager
  ctx : Context
  iov : List Region

def Describing.start (m : Manager) : Describing := ⟨m, ⟨[], [], []⟩, []⟩

def describeIov (a : Answers) (d : Describing) (v : Region) : Int × Describing :=
  if v.len = 0 then
    (0, { d with
      ctx := { d.ctx with descriptors := d.ctx.descriptors ++ [none] }
      iov := d.iov ++ [v] })
  else
    match tryslab d.mgr v with
    | (_, m, some j) =>
      (0, { mgr := m
            ctx := { d.ctx with
              descriptors := d.ctx.descriptors ++ [m.slabMr]
              slabs := d.ctx.slabs ++ [j] }
            iov := d.iov ++ [⟨(m.slabs j).addr, v.len⟩] })
    | (_, _, none) =>
      match findBank a d.mgr v with
      | (_, m, some i) =>
        let m := m.modifyBank i (fun b => { b with ref := b.ref + 1 })
        (0, { mgr := m
              ctx := { d.ctx with
                descriptors := d.ctx.descriptors ++ [(m.banks i).mr]
                banks := d.ctx.banks ++ [i] }
              iov := d.iov ++ [v] })
      | (ret, m, none) => (ret, { d with mgr := m })

def describeFrom (a : Nat → Answers) : Nat → List Region → Describing → Int × Describing
  | _, [], d => (0, d)
  | k, v :: vs, d =>
    let (ret, d) := describeIov (a k) d v
    if ret ≠ 0 then (ret, d) else describeFrom a (k + 1) vs d

def releaseBanks (m : Manager) (is : List Nat) : Manager :=
  is.foldl (fun m i => m.modifyBank i (fun b => { b with ref := b.ref - 1 })) m

def releaseSlabs (m : Manager) (js : List Nat) : Manager :=
  js.foldl (fun m j => m.setSlab j false) m

/-- `ofi_mr_release`, and the undo path of `ofi_mr_describe`. -/
def release (m : Manager) (c : Context) : Manager := releaseSlabs (releaseBanks m c.banks) c.slabs

structure Described where
  ret : Int
  mgr : Manager
  iov : List Region
  handle : Option Context

def describe (a : Nat → Answers) (m : Manager) (iov : List Region) : Described :=
  if 16 < iov.length then ⟨-E2BIG, m, iov, none⟩
  else
    let (ret, d) := describeFrom a 0 iov (.start m)
    if ret ≠ 0 then ⟨ret, release d.mgr d.ctx, d.iov ++ iov.drop d.iov.length, none⟩
    else ⟨0, d.mgr, d.iov, some d.ctx⟩

/-- A manager and the handles that were returned for it and not yet released. -/
structure System where
  mgr : Manager
  live : List Context

inductive Event
  | mark (v : Region) (a : Answers)
  | invalidate (v : Region) (close : Nat → Int)
  | describe (iov : List Region) (a : Nat → Answers)
  | release (c : Context)

def enabled (s : System) : Event → Bool
  | .release c => c ∈ s.live
  | _ => true

def step (s : System) : Event → M System
  | .mark v a => .ok { s with mgr := (mark a s.mgr v).2 }
  | .invalidate v close => .ok { s with mgr := (invalidate close s.mgr v).2 }
  | .describe iov a =>
    let r := describe a s.mgr iov
    .ok ⟨r.mgr, r.handle.toList ++ s.live⟩
  | .release c => .ok ⟨release s.mgr c, s.live.erase c⟩

def machine : Machine System Event Fault where
  init s := ∃ attr domain slabMem reg, s = ⟨(init attr domain slabMem reg).2, []⟩
  enabled := enabled
  step := step

end OfiTransport.Mr
