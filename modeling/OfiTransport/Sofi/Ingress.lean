import OfiTransport.Nanomsg
import OfiTransport.Lib.Linked

/-! The receiving half of a SOFI (`nn_sofi_ingress_*` in `sofi.c`): the buffers on their
three lists, and the chunks that a received message shares with its buffer. -/

namespace OfiTransport

open Lib

structure Buffers where
  links : Links Nat
  free : Option Nat
  busy : Option Nat
  popHead : Option Nat
  popTail : Option Nat

namespace Buffers

def popPopulated (q : Buffers) : Option (Nat × Buffers) :=
  match q.popHead with
  | none => none
  | some b =>
    let head := q.links.next b
    some (b, { q with
      links := (q.links.setPrev? head none).detach b
      popHead := head
      popTail := if head = none then none else q.popTail })

def popFree (q : Buffers) : Option (Nat × Buffers) :=
  match q.free with
  | none => none
  | some b =>
    let head := q.links.next b
    some (b, { q with links := (q.links.setPrev? head none).detach b, free := head })

/-- How marking a buffer free or populated begins: if it was busy it leaves that list. -/
def leaveBusy (q : Buffers) (b : Nat) : Buffers :=
  if q.busy = some b then
    let head := q.links.next b
    { q with links := (q.links.setPrev? head none).detach b, busy := head }
  else if (q.links.prev b).isSome ∨ (q.links.next b).isSome then
    { q with links := q.links.unlink b }
  else q

def toFree (q : Buffers) (b : Nat) : Buffers :=
  { q with links := q.links.pushFront b q.free, free := some b }

def toPopulated (q : Buffers) (b : Nat) : Buffers :=
  { q with
    links := q.links.pushBack b q.popTail
    popHead := if q.popTail = none then some b else q.popHead
    popTail := some b }

def markFree (q : Buffers) (b : Nat) : Buffers := (q.leaveBusy b).toFree b

def markBusy (q : Buffers) (b : Nat) : Buffers :=
  { q with links := q.links.pushFront b q.busy, busy := some b }

def markPopulated (q : Buffers) (b : Nat) : Buffers := (q.leaveBusy b).toPopulated b

/-- The first loop of `nn_sofi_ingress_flush`. -/
def flushBusy : Nat → Buffers → M Buffers
  | 0, q => if q.busy = none then .ok q else .error .endlessLoop
  | fuel + 1, q =>
    match q.busy with
    | none => .ok q
    | some b => flushBusy fuel (q.markFree b)

/-- The second loop of `nn_sofi_ingress_flush`. -/
def flushPopulated : Nat → Buffers → M Buffers
  | 0, q => if q.popHead = none then .ok q else .error .endlessLoop
  | fuel + 1, q =>
    match q.popPopulated with
    | none => .ok q
    | some (b, q) => flushPopulated fuel (q.markFree b)

end Buffers

/-- The chunk of a buffer, of which a message that shares it shows the first `size` bytes. -/
structure Chunk where
  data : List UInt8
  size : Nat
  refs : Nat

def Chunk.shown (c : Chunk) : List UInt8 := c.data.take c.size

/-- A message that nanomsg holds: the buffer whose chunk it shares, and the bytes of the
completion it was made from. -/
structure Held where
  buf : Nat
  bytes : List UInt8
  deriving DecidableEq

/-- The receiving half.  `posted` belongs to the fabric, `received` and `held` to nanomsg:
the notifications not yet answered and the messages not yet freed.  A buffer is noted in
`touched` when it is posted or its chunk reset while nanomsg holds its message. -/
structure Ingress where
  bufs : Buffers
  chunk : Nat → Chunk
  msg : Nat → List UInt8
  postlater : Bool
  nnbusy : Bool
  nnlater : Bool
  flushFlag : Bool
  max : Nat
  bufSize : Nat
  posted : List Nat
  received : Nat
  held : List Held
  touched : List Nat

def keepalivePacket : List UInt8 :=
  [0xff, 0xff, 0xff, 0xff, 0xff, 0xff, 0xff, 0xff,
   0xce, 0x9a, 0x11, 0x7e, 0xce, 0x9a, 0x11, 0x7e,
   0xff, 0xff, 0xff, 0xff, 0xff, 0xff, 0xff, 0xff]

namespace Ingress

def queued (i : Ingress) : List (List UInt8) :=
  (i.bufs.links.walk i.max i.bufs.popHead).map (fun b => (i.chunk b).shown)

def empty (i : Ingress) : Bool := i.bufs.popHead = none ∧ i.bufs.busy = none

def isHeld (i : Ingress) (b : Nat) : Bool := i.held.any (fun m => m.buf = b)

def touch (i : Ingress) (b : Nat) : Ingress :=
  { i with touched := if i.isHeld b then b :: i.touched else i.touched }

/-- `nn_sofi_ingress_post_buffer`, given what `ofi_recvmsg` is going to return. -/
def postBuffer (ret : Int) (i : Ingress) (b : Nat) : Int × Ingress :=
  let i := i.touch b
  if ret ≠ 0 then (ret, { i with bufs := i.bufs.markFree b })
  else (0, { i with bufs := i.bufs.markBusy b, posted := b :: i.posted })

def post (ret : Int) (i : Ingress) : Int × Ingress :=
  match i.bufs.popFree with
  | none => (-EAGAIN, i)
  | some (b, q) =>
    let (ret, i) := postBuffer ret { i with bufs := q } b
    if ret < 0 then (ret, i) else (0, i)

/-- The late post of `nn_sofi_ingress_handle` and `nn_sofi_ingress_fetch`, which do not
look at its result. -/
def postLate (ret : Int) (i : Ingress) : Ingress :=
  if i.postlater then (post ret { i with postlater := false }).2 else i

def isKeepalive (i : Ingress) (b len : Nat) : Bool :=
  len = keepalivePacket.length ∧ (i.chunk b).data.take keepalivePacket.length = keepalivePacket

def notifyNanomsg (i : Ingress) : Ingress := { i with nnbusy := true, received := i.received + 1 }

/-- `nn_sofi_ingress_handle` without the tick counter. -/
def handle (ret : Int) (i : Ingress) (b len : Nat) : Ingress :=
  if i.isKeepalive b len then postLate ret { i with bufs := i.bufs.markFree b }
  else
    let i := i.touch b
    let c := i.chunk b
    let i := { i with
      chunk := Function.update i.chunk b { c with size := len, refs := c.refs + 1 }
      msg := Function.update i.msg b (c.data.take len)
      bufs := i.bufs.markPopulated b }
    if i.nnbusy then { i with nnlater := true } else i.notifyNanomsg

def flush (i : Ingress) : M Ingress := do
  let i := { i with bufs := ← i.bufs.flushBusy i.max }
  if i.nnbusy then return { i with flushFlag := true }
  else
    return { i with bufs := ← i.bufs.flushPopulated i.max, postlater := false, nnlater := false }

def fetch (ret : Int) (i : Ingress) : M (Int × Ingress) := do
  nnAssert i.nnbusy
  match i.bufs.popPopulated with
  | none => return (-EAGAIN, i)
  | some (b, q) =>
    let i := postLate ret { i with bufs := q.markFree b, held := ⟨b, i.msg b⟩ :: i.held }
    let i := { i with nnbusy := false }
    let i := if i.nnlater then { i with nnlater := false }.notifyNanomsg else i
    if i.flushFlag then return (0, ← i.flush) else return (0, i)

end Ingress

end OfiTransport
