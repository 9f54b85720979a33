import OfiTransport.Lib.Machine
import Mathlib.Logic.Function.Basic

/-! The worker pool (`ofiw.c`), with the poller thread in its spinning variant and the threads
that change the lists of the pool or start and stop workers.  Every access to a flag, an event
fd, a mutex or a context is a step of its own.  The pool is never terminated here. -/

namespace OfiTransport.Ofiw

open Lib

/-- What ends a run: memory that was freed, or a mutex that is not held. -/
inductive Fault
  | useAfterFree
  | notOwner
  deriving DecidableEq

inductive ItemType
  | eq
  | cq
  deriving DecidableEq

structure Item where
  id : Nat
  fdType : ItemType
  fd : Nat
  deriving DecidableEq

/-- A worker, with the context of its owner and the thread that is inside `nn_ofiw_stop` of
this worker. -/
structure Worker where
  active : Nat
  efdSync : Bool
  items : List Item
  ctx : Nat
  caller : Option Nat

/-- What is done to the lists between `nn_ofiw_lock_thread` and `nn_ofiw_unlock_thread`. -/
inductive Change
  | getworker (ctx : Nat)
  | term (w : Nat)
  | add (w : Nat) (fdType : ItemType) (fd : Nat)
  | remove (w fd : Nat)

inductive Call
  | change (c : Change)
  | start (w : Nat)
  | stop (w : Nat)

/-- Where the poller thread is inside its iteration.  After the entry in hand it is going to
feed `n` more. -/
inductive Iterate
  | check (w : Nat)
  | recheck (w : Nat)
  | signalSync (w : Nat)
  | read (w : Nat) (it : Item)
  | setSafe (w : Nat) (it : Item) (n : Nat)
  | ctxEnter (w : Nat) (it : Item) (n : Nat)
  | feed (w : Nat) (it : Item) (n : Nat)
  | handle (w : Nat) (it : Item) (n : Nat)
  | ctxLeave (w : Nat)
  | clearSafe

inductive Poller
  | top
  | signalAck
  | waitReq
  | unsignalReq
  | iterate (p : Iterate)

def Poller.position : Option Nat → Poller
  | none => .top
  | some w => .iterate (.check w)

/-- The steps of `nn_ofiw_lock_thread`, the change and `nn_ofiw_unlock_thread`. -/
inductive Locking
  | enter
  | mutexLock
  | raise
  | waitAck
  | unsignalAck
  | change
  | leave
  | signalReq
  | lower
  | mutexUnlock
  deriving DecidableEq

/-- The steps of `nn_ofiw_stop`. -/
inductive Stopping
  | readActive
  | readSafe
  | now
  | ask
  | wait
  | done
  | unsignal
  deriving DecidableEq

inductive Thread
  | idle
  | lock (p : Locking) (c : Change)
  | stop (p : Stopping) (w : Nat)

inductive Holder
  | poller
  | thread (t : Nat)
  deriving DecidableEq

structure Pool where
  workers : List Nat
  worker : Nat → Worker
  allocated : Nat
  lockState : Bool
  lockSafe : Bool
  lockMutex : Option Nat
  efdLockReq : Bool
  efdLockAck : Bool
  ctxs : Nat → Option Holder
  poller : Poller
  threads : Nat → Thread

/-- `nn_list_next`, with none for the end of the list. -/
def next {α : Type} [DecidableEq α] (l : List α) (x : α) : Except Fault (Option α) :=
  match l.dropWhile (fun y => y ≠ x) with
  | [] => .error .useAfterFree
  | _ :: l => .ok l.head?

namespace Pool

def init : Pool where
  workers := []
  worker _ := ⟨0, false, [], 0, none⟩
  allocated := 0
  lockState := false
  lockSafe := false
  lockMutex := none
  efdLockReq := false
  efdLockAck := false
  ctxs _ := none
  poller := .top
  threads _ := .idle

def modifyWorker (s : Pool) (w : Nat) (f : Worker → Worker) : Pool :=
  { s with worker := Function.update s.worker w (f (s.worker w)) }

def setThread (s : Pool) (t : Nat) (p : Thread) : Pool :=
  { s with threads := Function.update s.threads t p }

def setPoller (s : Pool) (p : Poller) : Pool := { s with poller := p }

def setCtx (s : Pool) (c : Nat) (h : Option Holder) : Pool :=
  { s with ctxs := Function.update s.ctxs c h }

def use (s : Pool) (w : Nat) (r : Except Fault Pool) : Except Fault Pool :=
  if w ∈ s.workers then r else .error .useAfterFree

def useItem (s : Pool) (w : Nat) (it : Item) (r : Except Fault Pool) : Except Fault Pool :=
  if w ∈ s.workers ∧ it ∈ (s.worker w).items then r else .error .useAfterFree

def apply (s : Pool) : Change → Except Fault Pool
  | .getworker ctx =>
    .ok { s with
      workers := s.workers ++ [s.allocated]
      worker := Function.update s.worker s.allocated ⟨0, false, [], ctx, none⟩
      allocated := s.allocated + 1 }
  | .term w => s.use w (.ok { s with workers := s.workers.erase w })
  | .add w fdType fd =>
    s.use w (.ok { s.modifyWorker w (fun x => { x with
      items := x.items ++ [⟨s.allocated, fdType, fd⟩] }) with allocated := s.allocated + 1 })
  | .remove w fd =>
    s.use w (.ok (s.modifyWorker w (fun x => { x with
      items := x.items.eraseP (fun it => it.fd = fd) })))

def atWorker (s : Pool) (w : Option Nat) : Pool := s.setPoller (.position w)

def atItem (s : Pool) (w : Nat) : Option Item → Except Fault Pool
  | none => do return s.atWorker (← next s.workers w)
  | some it => .ok (s.setPoller (.iterate (.read w it)))

/-- The poller inside its iteration.  A read may find entries to be fed, one and `n` more. -/
def iterate (s : Pool) (o : Option Nat) : Iterate → Except Fault Pool
  | .check w =>
    s.use w (if (s.worker w).active < 2 then .ok (s.setPoller (.iterate (.recheck w)))
      else s.atItem w (s.worker w).items.head?)
  | .recheck w =>
    s.use w (if (s.worker w).active = 1 then .ok (s.setPoller (.iterate (.signalSync w)))
      else s.atItem w none)
  | .signalSync w =>
    s.use w ((s.modifyWorker w (fun x => { x with efdSync := true })).atItem w none)
  | .read w it =>
    s.useItem w it (match o with
      | none => do s.atItem w (← next (s.worker w).items it)
      | some n => .ok (s.setPoller (.iterate (.setSafe w it n))))
  | .setSafe w it n => .ok ({ s with lockSafe := true }.setPoller (.iterate (.ctxEnter w it n)))
  | .ctxEnter w it n =>
    s.use w (.ok ((s.setCtx (s.worker w).ctx (some .poller)).setPoller (.iterate (.feed w it n))))
  | .feed w it n => s.useItem w it (.ok (s.setPoller (.iterate (.handle w it n))))
  | .handle w it (n + 1) => .ok (s.setPoller (.iterate (.feed w it n)))
  | .handle w _ 0 => .ok (s.setPoller (.iterate (.ctxLeave w)))
  | .ctxLeave w =>
    s.use w (.ok ((s.setCtx (s.worker w).ctx none).setPoller (.iterate .clearSafe)))
  | .clearSafe => .ok ({ s with lockSafe := false }.setPoller .top)

def poll (s : Pool) (o : Option Nat) : Except Fault Pool :=
  match s.poller with
  | .top => .ok (if s.lockState then s.setPoller .signalAck else s.atWorker s.workers.head?)
  | .signalAck => .ok ({ s with efdLockAck := true }.setPoller .waitReq)
  | .waitReq => .ok (s.setPoller .unsignalReq)
  | .unsignalReq => .ok ({ s with efdLockReq := false }.atWorker s.workers.head?)
  | .iterate p => s.iterate o p

def lockStep (s : Pool) (t : Nat) (c : Change) : Locking → Except Fault Pool
  | .enter => .ok (s.setThread t (.lock (if s.lockSafe then .change else .mutexLock) c))
  | .mutexLock => .ok ({ s with lockMutex := some t }.setThread t (.lock .raise c))
  | .raise => .ok ({ s with lockState := true }.setThread t (.lock .waitAck c))
  | .waitAck => .ok (s.setThread t (.lock .unsignalAck c))
  | .unsignalAck => .ok ({ s with efdLockAck := false }.setThread t (.lock .change c))
  | .change => do return (← s.apply c).setThread t (.lock .leave c)
  | .leave => .ok (s.setThread t (if s.lockSafe then .idle else .lock .signalReq c))
  | .signalReq => .ok ({ s with efdLockReq := true }.setThread t (.lock .lower c))
  | .lower => .ok ({ s with lockState := false }.setThread t (.lock .mutexUnlock c))
  | .mutexUnlock =>
    if s.lockMutex = some t then .ok ({ s with lockMutex := none }.setThread t .idle)
    else .error .notOwner

def stopped (s : Pool) (t w : Nat) : Pool :=
  (s.modifyWorker w (fun x => { x with caller := none })).setThread t .idle

def stopStep (s : Pool) (t w : Nat) : Stopping → Except Fault Pool
  | .readActive =>
    s.use w (.ok (if (s.worker w).active ≠ 2 then s.stopped t w
      else s.setThread t (.stop .readSafe w)))
  | .readSafe => s.use w (.ok (s.setThread t (.stop (if s.lockSafe then .now else .ask) w)))
  | .now => s.use w (.ok ((s.modifyWorker w (fun x => { x with active := 0 })).stopped t w))
  | .ask =>
    s.use w (.ok ((s.modifyWorker w (fun x => { x with active := 1 })).setThread t
      (.stop .wait w)))
  | .wait => s.use w (.ok (s.setThread t (.stop .done w)))
  | .done =>
    s.use w (.ok ((s.modifyWorker w (fun x => { x with active := 0 })).setThread t
      (.stop .unsignal w)))
  | .unsignal =>
    s.use w (.ok ((s.modifyWorker w (fun x => { x with efdSync := false })).stopped t w))

def threadStep (s : Pool) (t : Nat) : Except Fault Pool :=
  match s.threads t with
  | .idle => .ok s
  | .lock p c => s.lockStep t c p
  | .stop p w => s.stopStep t w p

def start (s : Pool) (w : Nat) : Except Fault Pool :=
  s.use w (.ok (s.modifyWorker w (fun x => { x with active := 2 })))

def begin (s : Pool) (t : Nat) : Call → Except Fault Pool
  | .change c => .ok (s.setThread t (.lock .enter c))
  | .start w => s.start w
  | .stop w =>
    .ok ((s.modifyWorker w (fun x => { x with caller := some t })).setThread t
      (.stop .readActive w))

/-- A call that the owner makes while it is fed an event.  In the poller thread `lock_safe` is
set, and nothing is waited for. -/
def callback (s : Pool) : Call → Except Fault Pool
  | .change c => s.apply c
  | .start w => s.start w
  | .stop w =>
    s.use w (.ok (if (s.worker w).active ≠ 2 then s
      else s.modifyWorker w (fun x => { x with active := 0 })))

end Pool

inductive Event
  | poll (o : Option Nat)
  | callback (c : Call)
  | begin (t : Nat) (c : Call)
  | thread (t : Nat)
  | enter (t c : Nat)
  | leave (t c : Nat)

/-- Calls are for workers that were allocated, and those of `nn_ofiw_start` and `nn_ofiw_stop`
for one worker do not overlap. -/
def callable (s : Pool) : Call → Bool
  | .change _ => true
  | .start w => w < s.allocated ∧ (s.worker w).caller = none
  | .stop w => w < s.allocated ∧ (s.worker w).caller = none

def enabled (s : Pool) : Event → Bool
  | .poll o =>
    match s.poller with
    | .waitReq => s.efdLockReq
    | .iterate (.read _ it) => it.fdType = .cq ∨ o.getD 0 = 0
    | .iterate (.ctxEnter w _ _) => s.ctxs (s.worker w).ctx = none
    | _ => true
  | .callback c =>
    match s.poller with
    | .iterate (.handle ..) => s.lockSafe && callable s c
    | _ => false
  | .begin t c =>
    match s.threads t with
    | .idle => callable s c
    | _ => false
  | .thread t =>
    match s.threads t with
    | .idle => false
    | .lock .mutexLock _ => s.lockMutex = none
    | .lock .waitAck _ => s.efdLockAck
    | .stop .wait w => (s.worker w).efdSync
    | _ => true
  | .enter t c =>
    match s.threads t with
    | .idle => s.ctxs c = none
    | _ => false
  | .leave t c =>
    match s.threads t with
    | .idle => s.ctxs c = some (.thread t)
    | _ => false

def step (s : Pool) : Event → Except Fault Pool
  | .poll o => s.poll o
  | .callback c => s.callback c
  | .begin t c => s.begin t c
  | .thread t => s.threadStep t
  | .enter t c => .ok (s.setCtx c (some (.thread t)))
  | .leave _ c => .ok (s.setCtx c none)

def machine : Machine Pool Event Fault where
  init s := s = .init
  enabled := enabled
  step := step

end OfiTransport.Ofiw
