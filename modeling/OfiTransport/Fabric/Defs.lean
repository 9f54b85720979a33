import OfiTransport.Nanomsg
import OfiTransport.Lib.CString
import Mathlib.Data.UInt
import Mathlib.Logic.Function.Basic

/-! Fabrics and the addresses they are opened for (`ofiapi.c`).  A definition has the name of
the function it models, less the prefix `ofi_`, and takes what the provider is going to return
as arguments.  Allocations succeed. -/

namespace OfiTransport.Fabric

open Lib

/-- A string that was passed in: its characters before the NUL. -/
structure Address where
  chars : List UInt8
  clean : 0 ∉ chars
  deriving DecidableEq

def atSign : UInt8 := '@'.toUInt8

def colon : UInt8 := ':'.toUInt8

structure Ptr where
  block : Nat
  offset : Nat
  deriving DecidableEq

/-- The buffers that `nn_alloc` returned and that were not freed yet, in the order in which
they were allocated. -/
structure Heap where
  blocks : Nat → Option (List UInt8)
  next : Nat
  fresh : ∀ b, next ≤ b → blocks b = none

namespace Heap

def unused : Heap := ⟨fun _ => none, 0, fun _ _ => rfl⟩

def alloc (h : Heap) (buf : List UInt8) : Nat × Heap :=
  (h.next,
    { blocks := Function.update h.blocks h.next (some buf)
      next := h.next + 1
      fresh := by
        intro b hb
        rw [Function.update_of_ne (by omega)]
        exact h.fresh b (by omega) })

def free (h : Heap) (b : Nat) : Heap where
  blocks := Function.update h.blocks b none
  next := h.next
  fresh := by
    intro b' hb
    by_cases he : b' = b
    · simp [he]
    · rw [Function.update_of_ne he]
      exact h.fresh b' hb

end Heap

/-- What a `char *` says to the one who gets it. -/
inductive Given
  | null
  | string (s : List UInt8)
  | dangling
  deriving DecidableEq

def Heap.deref (h : Heap) : Option Ptr → Given
  | none => .null
  | some p =>
    match (h.blocks p.block).bind (fun buf => CString.read buf p.offset) with
    | none => .dangling
    | some s => .string s

structure FabricAttr where
  name : Option Ptr
  provName : Option Ptr
  deriving DecidableEq

structure Hints where
  fabricAttr : Option FabricAttr
  deriving DecidableEq

structure Opened where
  fi : Nat
  ref : Int
  deriving DecidableEq

structure Resources where
  heap : Heap
  hints : Hints
  fabrics : List Opened

inductive AddrFlags
  | addrLocal
  | addrRemote
  deriving DecidableEq

/-- What `fi_getinfo` is going to return, and the `fi_info` it is going to store. -/
structure Found where
  ret : Int
  ans : Option Nat

structure Query where
  node : Given
  service : Given
  source : Bool
  fabric : Given
  provider : Given
  deriving DecidableEq

/-- The local buffer of `ofi_match_fabric` and the places in it that were found. -/
structure Specs where
  buf : List UInt8
  fabric : Option Nat
  provider : Option Nat
  deriving DecidableEq

/-- The first half of `ofi_match_fabric`, on what stands behind the last '@'. -/
def fabricSpecs (buf : List UInt8) : Specs :=
  match CString.strrchr buf 0 atSign with
  | none => ⟨buf, none, none⟩
  | some i =>
    let buf := buf.set i 0
    let fabric := i + 1
    let (buf, provider) :=
      match CString.strrchr buf fabric colon with
      | none => (buf, none)
      | some j => (buf.set j 0, some (j + 1))
    ⟨buf, if CString.strlen buf fabric = 0 then none else some fabric, provider⟩

def Specs.populate (sp : Specs) (node : Nat) (hints : Hints) : Hints :=
  if sp.fabric.isSome ∨ sp.provider.isSome then
    ⟨some ⟨sp.fabric.map (Ptr.mk node), sp.provider.map (Ptr.mk node)⟩⟩
  else hints

def getinfo (heap : Heap) (hints : Hints) (node service : Nat) (addf : AddrFlags) : Query where
  node := heap.deref (some ⟨node, 0⟩)
  service := heap.deref (some ⟨node, service⟩)
  source := addf = .addrLocal
  fabric := heap.deref (hints.fabricAttr.bind FabricAttr.name)
  provider := heap.deref (hints.fabricAttr.bind FabricAttr.provName)

/-- `ofi_match_fabric`: its result, with the `fi_info`, the resources it leaves behind, and
what it asked for if it came to that. -/
def matchFabric (addr : Address) (addf : AddrFlags) (found : Found) (R : Resources) :
    Int × Option Nat × Resources × Option Query :=
  let sp := fabricSpecs (addr.chars ++ [0])
  match CString.strrchr sp.buf 0 colon with
  | none =>
    let (node, heap) := R.heap.alloc sp.buf
    (-EINVAL, none, { R with heap := heap.free node }, none)
  | some k =>
    let (node, heap) := R.heap.alloc (sp.buf.set k 0)
    let hints := sp.populate node R.hints
    let query := getinfo heap hints node (k + 1) addf
    let R := { R with heap := heap.free node, hints := hints }
    if found.ret ≠ 0 then (found.ret, none, R, some query)
    else
      match found.ans with
      | none => (-ENODATA, none, R, some query)
      | some fi => (0, some fi, R, some query)

/-- What `fi_allocinfo` returns: zeroed attributes, or none. -/
inductive Allocated
  | zeroed
  | bare

def Allocated.hints : Allocated → Hints
  | .zeroed => ⟨some ⟨none, none⟩⟩
  | .bare => ⟨none⟩

def fresh (a : Allocated) : Resources := ⟨.unused, a.hints, []⟩

structure Answers where
  found : Found
  fabric : Int
  pool : Int

def fabricOpen (address : Address) (flags : AddrFlags) (a : Answers) (R : Resources) :
    Int × Resources × Option Query :=
  match matchFabric address flags a.found R with
  | (ret, none, R, query) => (ret, R, query)
  | (_, some fi, R, query) =>
    if a.fabric ≠ 0 then (a.fabric, R, query)
    else if a.pool ≠ 0 then (a.pool, R, query)
    else (0, { R with fabrics := R.fabrics ++ [⟨fi, 1⟩] }, query)

end OfiTransport.Fabric
