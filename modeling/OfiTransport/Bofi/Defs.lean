import OfiTransport.Nanomsg
import OfiTransport.Lib.Machine

/-! The listening endpoint (`bofi.c`) with the passive endpoint of `ofiapi.c` it opens
again after every connection request.  A definition has the name of the function it
models, less the prefixes `nn_bofi_` and `ofi_`. -/

namespace OfiTransport

inductive Bofi.State
  | idle
  | active
  | stopping
  deriving DecidableEq

structure Bofi.Child where
  id : Nat
  offset : Nat
  fsm : FsmState
  raised : Bool
  deriving DecidableEq

/-- `openPeps` are the passive endpoints that were opened and not yet closed, whether or
not `pep` still points to them. -/
structure Bofi where
  fsm : FsmState
  state : Bofi.State
  pep : Option Nat
  openPeps : List Nat
  nextPep : Nat
  sofiOffsets : List Bool
  sofis : List Bofi.Child
  nextSofi : Nat
  worker : Bool
  epbaseStopped : Nat

namespace Bofi

/-- What `fi_passive_ep`, `nn_ofiw_open_eq`, `fi_pep_bind` and `fi_listen` return. -/
structure Listen where
  ep : Int
  eq : Int
  bind : Int
  listen : Int

/-- What `nn_sofi_init` and `nn_sofi_start_accept` return for a connection request, whether the
process gets over the read of a freed `fi_info`, and the fate of the endpoint opened after it. -/
structure Request where
  init : Int
  accept : Int
  readable : Bool
  relisten : Listen

inductive Input
  | start (l : Listen)
  | stop
  | sofiStopped (s : Child)
  | connreq (r : Request)
  | eq (type : Int)

def newSofiOffset (b : Bofi) : Nat × Bofi :=
  let i := b.sofiOffsets.findIdx (fun used => !used)
  if i < b.sofiOffsets.length then
    (i, { b with sofiOffsets := b.sofiOffsets.set i true })
  else
    -- the slots added here all stay zero, the returned one included
    (b.sofiOffsets.length, { b with sofiOffsets := b.sofiOffsets ++ List.replicate 64 false })

def freeSofiOffset (b : Bofi) (offset : Nat) : M Bofi := do
  nnAssert (offset < b.sofiOffsets.length)
  return { b with sofiOffsets := b.sofiOffsets.set offset false }

def passiveEndpointOpen (l : Listen) (b : Bofi) : Int × Bofi :=
  if l.ep ≠ 0 then (l.ep, { b with pep := none })
  else if l.eq ≠ 0 then (l.eq, { b with pep := none })
  -- a failed bind leaves the caller's pointer as it was
  else if l.bind ≠ 0 then (l.bind, b)
  else (0, { b with
    pep := some b.nextPep
    openPeps := b.nextPep :: b.openPeps
    nextPep := b.nextPep + 1 })

def passiveEndpointClose (b : Bofi) : M Bofi :=
  match b.pep with
  | none => .error .nullDeref
  | some p =>
    if p ∈ b.openPeps then .ok { b with openPeps := b.openPeps.erase p }
    else .error .useAfterFree

/-- `ofi_cm_reject` reads the passive endpoint, and the handle in the `fi_info` of the request,
which `ofi_active_endpoint_open` has freed.  What comes of that is not up to the code. -/
def cmReject (readable : Bool) (b : Bofi) : M Bofi :=
  match b.pep with
  | none => .error .nullDeref
  | some p =>
    if p ∉ b.openPeps then .error .useAfterFree
    else if readable then .ok b
    else .error .freedInfo

def startAccepting (l : Listen) (b : Bofi) : Int × Bofi :=
  let (ret, b) := passiveEndpointOpen l { b with worker := false }
  if ret ≠ 0 then (ret, b)
  else if l.listen ≠ 0 then (l.listen, b)
  else (0, { b with worker := true, state := .active })

def reapSofi (b : Bofi) (s : Child) : M Bofi := do
  let b ← b.freeSofiOffset s.offset
  if s ∈ b.sofis then return { b with sofis := b.sofis.erase s }
  else .error .eraseNotInList

def Child.stop (s : Child) : Child := if s.fsm = .active then { s with fsm := .stopping } else s

def shutdownWait (b : Bofi) : Bofi :=
  if b.sofis = [] then { b with fsm := .idle, epbaseStopped := b.epbaseStopped + 1 } else b

def shutdown (b : Bofi) : Input → M Bofi
  | .stop => do
    let b ← { b with state := .stopping }.passiveEndpointClose
    return { b with sofis := b.sofis.map Child.stop }.shutdownWait
  | .sofiStopped s => do
    let b ← b.reapSofi s
    return b.shutdownWait
  | _ => .error .badState

def fsmStop (b : Bofi) : M Bofi :=
  if b.fsm = .active then shutdown { b with fsm := .stopping } .stop else .ok b

def criticalError (b : Bofi) : M Bofi := b.fsmStop

def listenAgain (l : Listen) (b : Bofi) : M Bofi :=
  let (ret, b) := b.startAccepting l
  if ret ≠ 0 then b.criticalError else .ok b

def handleConnreq (r : Request) (b : Bofi) : M Bofi := do
  let (offset, b) := b.newSofiOffset
  let s : Child := ⟨b.nextSofi, offset, .idle, false⟩
  let b := { b with nextSofi := b.nextSofi + 1 }
  if r.init ≠ 0 then
    let b ← b.reapSofi s
    b.criticalError
  else if r.accept ≠ 0 then
    let b ← b.cmReject r.readable
    let b ← b.passiveEndpointClose
    b.listenAgain r.relisten
  else
    let b ← b.passiveEndpointClose
    let b := { b with sofis := b.sofis ++ [{ s with fsm := .active }] }
    b.listenAgain r.relisten

def handler (b : Bofi) : Input → M Bofi :=
  match b.state with
  | .idle => fun
    | .start l => b.listenAgain l
    | .stop => .error .badAction
    | _ => .error .badSource
  | .active => fun
    | .sofiStopped s => b.reapSofi s
    | .connreq r => b.handleConnreq r
    | .eq _ => .error .badAction
    | _ => .error .badSource
  | .stopping => fun _ => .error .badState

def feed (b : Bofi) (i : Input) : M Bofi :=
  if b.fsm = .stopping then b.shutdown i else b.handler i

def create (l : Listen) : M Bofi := do
  let b ← handler ⟨.idle, .idle, none, [], 0, List.replicate 64 false, [], 0, false, 0⟩ (.start l)
  return { b with fsm := .active }

/-- What can happen to a BOFI: `nn_bofi_stop` at any moment, the end of a SOFI, by itself or
after a stop, the delivery of the NN_SOFI_STOPPED it has raised, and the events of the
passive endpoint while that is open and watched. -/
inductive Event
  | userStop
  | sofiEnds (s : Child)
  | sofiStopped (s : Child)
  | connreq (r : Request)
  | eq (type : Int)

def watched (b : Bofi) : Bool := b.worker && b.pep.any (fun p => p ∈ b.openPeps)

def enabled (b : Bofi) : Event → Bool
  | .userStop => true
  | .sofiEnds s => s ∈ b.sofis ∧ s.fsm ≠ .idle
  | .sofiStopped s => s ∈ b.sofis ∧ s.raised
  | .connreq _ | .eq _ => b.watched

def Child.ends (s c : Child) : Child := if c = s then { s with fsm := .idle, raised := true } else c

def step (b : Bofi) : Event → M Bofi
  | .userStop => b.fsmStop
  | .sofiEnds s => .ok { b with sofis := b.sofis.map s.ends }
  | .sofiStopped s => b.feed (.sofiStopped s)
  | .connreq r => b.feed (.connreq r)
  | .eq type => b.feed (.eq type)

def machine : Lib.Machine Bofi Event Fault where
  init b := ∃ l, create l = .ok b
  enabled := enabled
  step := step

end Bofi

end OfiTransport
