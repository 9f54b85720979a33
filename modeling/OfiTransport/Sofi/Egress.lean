import OfiTransport.Mr.Defs
import OfiTransport.Lib.Linked
import Mathlib.Data.List.Perm.Basic
import Mathlib.Data.List.Count

/-! The sending half of a SOFI (`nn_sofi_egress_*` in `sofi.c`): the ring of contexts with
the free ones in front, the messages in transit and the back-pressure counter. -/

namespace OfiTransport

open Lib

/-- The part of an `nn_msg` that is sent: where its header and its body lie. -/
structure Msg where
  sphdr : Region
  body : Region
  deriving DecidableEq

def Msg.empty : Msg := ⟨⟨0, 0⟩, ⟨0, 0⟩⟩

structure Ring where
  links : Links Nat
  head : Option Nat
  tail : Option Nat

namespace Ring

/-- The pointer work of `nn_sofi_egress_mark_busy`. -/
def toTail (r : Ring) (c : Nat) : M Ring :=
  match r.tail with
  | none => .error .nullDeref
  | some t =>
    let L := (r.links.setPrev c (some t)).setNext t (some c)
    match L.next c with
    | none => .error .nullDeref
    | some n => .ok ⟨(L.setPrev n none).setNext c none, some n, some c⟩

/-- The pointer work of `nn_sofi_egress_mark_free`. -/
def toHead (r : Ring) (c : Nat) : M Ring :=
  if r.tail = some c then
    match r.links.prev c, r.head with
    | some p, some h =>
      let L := (r.links.setNext p none).setPrev c none
      .ok ⟨(L.setNext c (some h)).setPrev h (some c), some c, some p⟩
    | _, _ => .error .nullDeref
  else if r.head = some c then .ok r
  else
    match r.links.next c, r.links.prev c, r.head with
    | some n, some p, some h =>
      let L := (r.links.setPrev n (some p)).setNext p (some n)
      .ok ⟨((L.setNext c (some h)).setPrev h (some c)).setPrev c none, some c, r.tail⟩
    | _, _, _ => .error .nullDeref

structure Holds (r : Ring) (l : List Nat) : Prop where
  list : r.links.IsList l
  head : r.head = l.head?
  tail : r.tail = l.getLast?

theorem Holds.unique {r : Ring} (h : r.Holds l) (h' : r.Holds l') : l = l' :=
  h.list.chain.unique h'.list.chain (h.head.symm.trans h'.head)

theorem Holds.toTail {r : Ring} (h : r.Holds (c :: l)) :
    ∃ r', r.toTail c = .ok r' ∧ r'.Holds (l ++ [c]) := by
  obtain ⟨hp, hn⟩ := h.list.pointers_head
  have hc : c ∉ l := (List.nodup_cons.1 h.list.nodup).1
  cases l with
  | nil =>
    have ht : r.tail = some c := h.tail
    refine ⟨⟨_, some c, some c⟩, by simp [Ring.toTail, ht]; rfl, ⟨List.nodup_singleton c, ?_⟩, rfl,
      rfl⟩
    simp [Links.Chain]
  | cons n l =>
    obtain ⟨t, hl⟩ : ∃ t, (n :: l).getLast? = some t := ⟨_, List.getLast?_eq_some_getLast (by simp)⟩
    have ht : r.tail = some t := by rw [h.tail, List.getLast?_cons, hl]; rfl
    have htc : c ≠ t := fun e => hc (e ▸ List.mem_of_getLast? hl)
    have hnc : c ≠ n := fun e => hc (e ▸ List.mem_cons_self)
    simp only [List.head?_cons] at hn
    refine ⟨⟨_, some n, some c⟩, by simp [Ring.toTail, ht, htc, hn]; rfl, ?_, rfl, ?_⟩
    · have hl₀ : r.links.IsList ([] ++ c :: n :: l) := h.list
      have hu := hl₀.unlink.pushBack hc
      rw [List.nil_append, hl] at hu
      refine hu.congr ?_ ?_ <;> intro b _ <;>
      · simp [Links.pushBack, Links.unlink, hn, hp]
        grind
    · rw [List.getLast?_concat]

theorem Holds.toHead {r : Ring} (h : r.Holds (l₁ ++ c :: l₂)) (hne : l₁ ++ l₂ ≠ []) :
    ∃ r', r.toHead c = .ok r' ∧ r'.Holds (c :: (l₁ ++ l₂)) := by
  obtain ⟨hp, hn⟩ := h.list.pointers
  have hu := h.list.unlink
  have hd := h.list.nodup
  simp only [List.nodup_append, List.nodup_cons, List.mem_cons, ne_eq] at hd
  obtain ⟨_, ⟨hc₂, _⟩, hdis⟩ := hd
  have hc₁ : c ∉ l₁ := fun e => hdis c e c (.inl rfl) rfl
  have hc : c ∉ l₁ ++ l₂ := by simp [hc₁, hc₂]
  have hw := hu.pushFront hc
  cases l₁ with
  | nil =>
    -- the head of the ring stays where it is
    obtain ⟨t, hl⟩ : ∃ t, l₂.getLast? = some t :=
      ⟨_, List.getLast?_eq_some_getLast (by simpa using hne)⟩
    have htc : t ≠ c := fun e => hc₂ (e ▸ List.mem_of_getLast? hl)
    have ht : r.tail = some t := by
      rw [h.tail, List.nil_append, List.getLast?_cons, hl]
      rfl
    exact ⟨r, by simp [Ring.toHead, ht, htc, h.head], h⟩
  | cons a l₁ =>
    have ha : r.head = some a := h.head
    have hac : a ≠ c := fun e => hc₁ (e ▸ List.mem_cons_self)
    obtain ⟨p, hlp⟩ : ∃ p, (a :: l₁).getLast? = some p :=
      ⟨_, List.getLast?_eq_some_getLast (by simp)⟩
    rw [hlp] at hp
    have hpc : p ≠ c := fun e => hc₁ (e ▸ List.mem_of_getLast? hlp)
    rw [List.cons_append, List.head?_cons] at hw
    cases l₂ with
    | nil =>
      have ht : r.tail = some c := by rw [h.tail, List.getLast?_concat]
      refine ⟨⟨_, some c, some p⟩, by simp [Ring.toHead, ht, hp, ha]; rfl, ?_, rfl, ?_⟩
      · refine hw.congr ?_ ?_ <;> intro b _ <;>
        · simp [Links.pushFront, Links.unlink, hn, hp]
          grind
      · rw [List.append_nil, List.getLast?_cons, hlp]
        rfl
    | cons n l₂ =>
      obtain ⟨t, hl⟩ : ∃ t, (n :: l₂).getLast? = some t :=
        ⟨_, List.getLast?_eq_some_getLast (by simp)⟩
      have htc : t ≠ c := fun e => hc₂ (e ▸ List.mem_of_getLast? hl)
      have ht : r.tail = some t := by
        rw [h.tail, List.getLast?_append, List.getLast?_cons, hl]
        rfl
      have hnc : n ≠ c := fun e => hc₂ (e ▸ List.mem_cons_self)
      simp only [List.head?_cons] at hn
      refine ⟨⟨_, some c, some t⟩, by simp [Ring.toHead, ht, htc, hp, ha, hac, hn]; rfl, ?_, rfl,
        ?_⟩
      · refine hw.congr ?_ ?_ <;> intro b _ <;>
        · simp [Links.pushFront, Links.unlink, hn, hp]
          grind
      · rw [List.getLast?_cons, List.getLast?_append, hl]
        rfl

theorem Holds.toHead_singleton {r : Ring} (h : r.Holds [c]) : r.toHead c = .error .nullDeref := by
  obtain ⟨hp, _⟩ := h.list.pointers_head
  have ht : r.tail = some c := h.tail
  simp [Ring.toHead, ht, hp]

theorem Holds.of_toHead {r r' : Ring} (h : r.Holds (l₁ ++ c :: l₂)) (hr : r.toHead c = .ok r') :
    r'.Holds (c :: (l₁ ++ l₂)) := by
  by_cases hne : l₁ ++ l₂ = []
  · obtain ⟨rfl, rfl⟩ := List.append_eq_nil_iff.1 hne
    rw [h.toHead_singleton] at hr
    cases hr
  · obtain ⟨r'', hr', hh⟩ := h.toHead hne
    rw [hr'] at hr
    cases hr
    exact hh

end Ring

structure Post where
  answers : Nat → Mr.Answers
  sendmsg : Int

def Post.easy : Post := ⟨fun _ => ⟨0, 0⟩, 0⟩

/-- The sending half.  The last two fields belong to the fabric: the contexts posted with
FI_COMPLETION whose CQ event has not been delivered, and the packets posted so far. -/
structure Egress where
  ring : Ring
  msg : Nat → Msg
  mrHandle : Nat → Option Mr.Context
  stageoutCounter : Nat
  max : Nat
  mrm : Mr.Manager
  txOut : List Nat
  wire : List (List UInt8)

namespace Egress

def empty (e : Egress) : Bool := e.stageoutCounter = e.max

/-- `nn_atomic_inc` by one on the counter, which returns the old value. -/
def atomicInc (e : Egress) : Nat × Egress :=
  (e.stageoutCounter, { e with stageoutCounter := (e.stageoutCounter + 1) % 2 ^ 32 })

/-- `nn_atomic_dec` by one, which wraps around at zero. -/
def atomicDec (e : Egress) : Nat × Egress :=
  (e.stageoutCounter, { e with
    stageoutCounter := if e.stageoutCounter = 0 then 2 ^ 32 - 1 else e.stageoutCounter - 1 })

/-- `nn_sofi_egress_get_context`, with none for -EAGAIN. -/
def getContext (e : Egress) : M (Option Nat) :=
  match e.ring.head with
  | none => .error .nullDeref
  | some c => .ok (if (e.mrHandle c).isSome then none else some c)

def markBusy (e : Egress) (c : Nat) : M Egress := do
  nnAssert (e.ring.head = some c)
  nnAssert ((e.mrHandle c).isSome)
  return { e with ring := ← e.ring.toTail c }

def markFree (e : Egress) (c : Nat) : M Egress := do
  nnAssert (e.mrHandle c = none)
  return { e with ring := ← e.ring.toHead c }

def setMsg (e : Egress) (c : Nat) (m : Msg) : Egress :=
  { e with msg := Function.update e.msg c m }

def setMrHandle (e : Egress) (c : Nat) (h : Option Mr.Context) : Egress :=
  { e with mrHandle := Function.update e.mrHandle c h }

def freeContext (e : Egress) (c : Nat) : Egress :=
  let e := e.setMsg c .empty
  match e.mrHandle c with
  | none => e
  | some h => { e with mrm := Mr.release e.mrm h }.setMrHandle c none

/-- The iovs of a message, of which an empty header takes none. -/
def iovs (m : Msg) : List Region := if m.sphdr.len = 0 then [m.body] else [m.sphdr, m.body]

def postBuffers (p : Post) (e : Egress) (outmsg : Msg) : M (Int × Egress) := do
  match ← e.getContext with
  | none => return (-EAGAIN, e)
  | some c =>
    let e := e.setMsg c outmsg
    let r := Mr.describe p.answers e.mrm (iovs outmsg)
    let e := { e with mrm := r.mgr }.setMrHandle c r.handle
    if r.ret ≠ 0 then return (r.ret, e.freeContext c)
    else if p.sendmsg ≠ 0 then return (p.sendmsg, e.freeContext c)
    else
      let e := { e with txOut := c :: e.txOut, wire := r.mgr.domain.mem.gather r.iov :: e.wire }
      return (0, ← e.markBusy c)

def handleError (e : Egress) (c : Nat) : M Egress := (e.freeContext c).markFree c

/-- `nn_sofi_egress_handle` without the tick counter, with the question whether nanomsg
has to be told that it can send again. -/
def handle (e : Egress) (c : Nat) : M (Bool × Egress) := do
  let e ← (e.freeContext c).markFree c
  let (old, e) := e.atomicInc
  return (old = 0, e)

def flushFrom : Nat → Option Nat → Egress → M Egress
  | _, none, e => .ok e
  | 0, some _, _ => .error .endlessLoop
  | fuel + 1, some c, e =>
    if (e.mrHandle c).isSome then
      let e := e.atomicInc.2.freeContext c
      flushFrom fuel (e.ring.links.next c) e
    else .ok e

def flush (e : Egress) : M Egress := flushFrom e.max e.ring.head e

end Egress

end OfiTransport
