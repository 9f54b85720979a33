import OfiTransport.Sofi.Defs
import OfiTransport.Sofi.EgressLaws
import OfiTransport.Sofi.IngressLaws

/-! Building a SOFI (`nn_sofi_init`) and starting it.  The result of registering the slabs is not
looked at there.  The other two kinds of buffers are taken to be registered: the descriptor of a
receive buffer is read whether it is or not, and `nn_sofi_term` closes `aux_mr` in any case. -/

namespace OfiTransport

open Lib

structure Options where
  rxQueueSize : Int
  txQueueSize : Int
  slabSize : Int
  deriving DecidableEq

namespace Options

inductive Name
  | rxQueueSize
  | txQueueSize
  | slabSize
  deriving DecidableEq

def default : Options := ⟨16, 16, 4096⟩

/-- `nn_ofi_optset_setopt` for options of the size of an int. -/
def setopt (o : Options) (name : Name) (val : Int) : Int × Options :=
  match name with
  | .rxQueueSize => if val < 2 then (-EINVAL, o) else (0, { o with rxQueueSize := val })
  | .txQueueSize => if val < 0 then (-EINVAL, o) else (0, { o with txQueueSize := val })
  | .slabSize => if val < 0 then (-EINVAL, o) else (0, { o with slabSize := val })

end Options

namespace Sofi

/-- What `nn_sofi_init` works with: the options, the limits of the provider, the memory the
slabs get, and what the provider and the allocator are going to return. -/
structure Setup where
  options : Options
  rcvbuf : Int
  txSize : Nat
  rxSize : Nat
  offset : Int
  domain : Mr.Domain
  slabMem : Nat
  slabReg : Int
  chunkAlloc : Nat → Int

/-- The length of a queue: AUTO stands for the limit, and no value exceeds it.  The
comparison is one of unsigned 64-bit integers. -/
def queueSize (opt : Int) (limit : Nat) : Int :=
  let q := toInt32 (if opt = 0 then limit else opt)
  if limit < toUInt64 q then toInt32 limit else q

def Setup.txQueue (u : Setup) : Int := queueSize u.options.txQueueSize u.txSize

def Setup.rxQueue (u : Setup) : Int := queueSize u.options.rxQueueSize u.rxSize

/-- The body of both linking loops, on an array of `size` elements. -/
def linkElement (size n : Nat) (L : Links Nat) (i : Nat) : M (Links Nat) :=
  if size ≤ i then .error .outOfBounds
  else
    let L := if 0 < i then L.setNext (i - 1) (some i) else L
    if i + 1 < n then
      if size ≤ i + 1 then .error .outOfBounds else .ok (L.setPrev (i + 1) (some i))
    else .ok L

/-- A linking loop up to `n`, on an array of `size` elements that holds zeros. -/
def linkElements (size n : Nat) : M (Links Nat) :=
  (List.range n).foldlM (linkElement size n) ⟨fun _ => none, fun _ => none⟩

/-- The allocation of a chunk fails in the end with this code, or with 0 it succeeds. -/
def Setup.firstFailure (u : Setup) (n : Nat) : Int :=
  match (List.range n).find? (fun i => u.chunkAlloc i ≠ 0) with
  | none => 0
  | some i => u.chunkAlloc i

def Setup.mrAttr (u : Setup) : Mr.Attr where
  bankCount := toUInt64 (u.txQueue * 2)
  slabCount := toUInt64 u.txQueue
  slabSize := toUInt64 u.options.slabSize
  baseKey := toUInt64 (toInt32 (0x1000 * u.offset) + 1)

def Setup.sofi (u : Setup) (txLinks rxLinks : Links Nat) : Sofi where
  fsm := .idle
  state := .idle
  socketState := .idle
  error := 0
  timerShutdown := .idle
  timerKeepalive := .idle
  ticksIn := 0
  ticksOut := 0
  staged := false
  outActive := false
  outmsg := .empty
  egress :=
    { ring := ⟨txLinks, some 0, some (u.rxQueue.toNat - 1)⟩
      msg := fun _ => .empty
      mrHandle := fun _ => none
      stageoutCounter := toUInt32 u.txQueue
      max := u.txQueue.toNat
      mrm := (Mr.init u.mrAttr u.domain u.slabMem u.slabReg).2
      txOut := []
      wire := [] }
  ingress :=
    { bufs := ⟨rxLinks, some 0, none, none, none⟩
      chunk := fun _ => ⟨[], 0, 1⟩
      msg := fun _ => []
      postlater := false
      nnbusy := false
      nnlater := false
      flushFlag := false
      max := u.rxQueue.toNat
      bufSize := toUInt64 u.rcvbuf
      posted := []
      received := 0
      held := []
      touched := [] }
  sents := 0
  stoppeds := 0
  auxOut := 0
  epOpen := false

/-- `nn_sofi_init`: an error code, or 0 and the SOFI. -/
def init (u : Setup) : M (Int × Option Sofi) := do
  let rx := u.rxQueue.toNat
  -- this loop runs to rx too, and so does the tail of the egress contexts
  let txLinks ← linkElements u.txQueue.toNat rx
  if rx = 0 then .error .outOfBounds
  else
    let rxLinks ← linkElements rx rx
    let ret := u.firstFailure rx
    if ret ≠ 0 then return (ret, none) else return (0, some (u.sofi txLinks rxLinks))

/-- `nn_sofi_start_connect` and `nn_sofi_start_accept`, given what opening the endpoint and
then connecting or accepting returns. -/
def start (opened joined : Int) (s : Sofi) : M (Int × Sofi) := do
  if opened ≠ 0 then return (opened, s)
  else
    let s := { s with epOpen := true, socketState := .connecting }
    if joined ≠ 0 then return (joined, { s with socketState := .closed })
    else
      -- `nn_fsm_start`
      let s ← s.handler .start
      return (0, { s with fsm := .active })

section Linking

def linked (n k : Nat) : Links Nat where
  next i := if i + 1 < k then some (i + 1) else none
  prev i := if 0 < i ∧ i ≤ k ∧ i < n then some (i - 1) else none

theorem linkElement_linked {size n i : Nat} (hi : i < n) (hs : i < size)
    (hlast : i + 1 < n → i + 1 < size) :
    linkElement size n (linked n i) i = .ok (linked n (i + 1)) := by
  have h₁ : ¬ size ≤ i := by omega
  have h₂ : i + 1 < n → ¬ size ≤ i + 1 := by omega
  simp only [linkElement, h₁, if_false]
  -- the first round sets no next pointer, the last one no previous
  by_cases h₀ : 0 < i <;> by_cases hn : i + 1 < n
  all_goals
    simp only [h₀, hn, h₂, if_true, if_false, Except.ok.injEq]
    apply Links.ext
    all_goals
      funext j
      simp [linked]
      grind

theorem linkElements_linked {size n k : Nat} (hk : k ≤ n) (hs : k ≤ size)
    (h : k < size ∨ n ≤ size) :
    (List.range k).foldlM (linkElement size n) ⟨fun _ => none, fun _ => none⟩ =
      .ok (linked n k) := by
  induction k with
  | zero =>
    simp only [List.range_zero, List.foldlM_nil, pure_eq_ok, linked, Links.mk.injEq]
    constructor
    · simp
    · funext i
      simp
      omega
  | succ k ih =>
    rw [List.range_succ, List.foldlM_append, ih (by omega) (by omega) (by omega)]
    simp only [List.foldlM_cons, List.foldlM_nil, bind, Except.bind]
    rw [linkElement_linked (by omega) (by omega) (by omega)]
    rfl

theorem linkElements_overflow {size n : Nat} (h : size < n) :
    linkElements size n = .error .outOfBounds := by
  obtain ⟨d, rfl⟩ : ∃ d, n = size + (d + 1) := ⟨n - (size + 1), by omega⟩
  cases size with
  | zero =>
    simp only [linkElements, Nat.zero_add, List.range_succ_eq_map, List.foldlM_cons]
    rfl
  | succ k =>
    have hk : linkElement (k + 1) (k + 1 + (d + 1)) (linked (k + 1 + (d + 1)) k) k =
        .error .outOfBounds := by
      simp only [linkElement]
      rw [if_neg (by omega), if_pos (by omega), if_pos (by omega)]
    rw [linkElements, show k + 1 + (d + 1) = k + (d + 1 + 1) by omega, List.range_add,
      List.foldlM_append, linkElements_linked (by omega) (by omega) (by omega)]
    rw [show k + 1 + (d + 1) = k + (d + 1 + 1) by omega] at hk
    simp only [List.range_succ_eq_map, List.map_cons, List.foldlM_cons, Nat.add_zero, bind,
      Except.bind, hk]

theorem linked_isList (n : Nat) : (linked n n).IsList (List.range n) := by
  refine ⟨List.nodup_range, ?_⟩
  rw [List.range_eq_range']
  apply Links.chain_range'
  intro i _ hi
  simp only [linked]
  refine ⟨?_, by simp⟩
  by_cases h₀ : i = 0
  · simp [h₀]
  · rw [if_pos (by omega), if_neg h₀]

end Linking

section Pool

/-- The egress contexts as `nn_sofi_init` should leave them: one list of all the elements
of the array, each once and free, as long as the limit and the counter say. -/
structure PoolReady (u : Setup) (s : Sofi) : Prop where
  ring : ∃ l, s.egress.ring.Holds l ∧ l.Perm (List.range u.txQueue.toNat) ∧
    l.length = s.egress.max ∧ l.length = s.egress.stageoutCounter
  free : ∀ c, s.egress.mrHandle c = none

theorem linkElements_ok {size n : Nat} (h : n ≤ size) :
    linkElements size n = .ok (linked n n) := by
  rw [linkElements]
  exact linkElements_linked (Nat.le_refl n) h (.inr h)

theorem linkElements_ok_iff {size n : Nat} : (∃ L, linkElements size n = .ok L) ↔ n ≤ size := by
  constructor
  · rintro ⟨L, h⟩
    by_contra hn
    rw [linkElements_overflow (by omega)] at h
    cases h
  · intro h
    exact ⟨_, linkElements_ok h⟩

theorem init_eq {u : Setup} (h₁ : 1 ≤ u.rxQueue) (h : u.rxQueue ≤ u.txQueue) :
    init u =
      if u.firstFailure u.rxQueue.toNat ≠ 0 then .ok (u.firstFailure u.rxQueue.toNat, none)
      else .ok (0, some (u.sofi (linked u.rxQueue.toNat u.rxQueue.toNat)
        (linked u.rxQueue.toNat u.rxQueue.toNat))) := by
  have h₀ : ¬ u.rxQueue.toNat = 0 := by omega
  simp only [init, linkElements_ok (show u.rxQueue.toNat ≤ u.txQueue.toNat by omega),
    linkElements_ok (Nat.le_refl u.rxQueue.toNat), bind, Except.bind, h₀, if_false]
  split <;> rfl

theorem init_overflow {u : Setup} (h₁ : 1 ≤ u.rxQueue) (h : u.txQueue < u.rxQueue) :
    init u = .error .outOfBounds := by
  simp only [init, linkElements_overflow (show u.txQueue.toNat < u.rxQueue.toNat by omega), bind,
    Except.bind]

theorem init_inv {u : Setup} {s : Sofi} (h : init u = .ok (0, some s)) :
    1 ≤ u.rxQueue ∧ u.rxQueue ≤ u.txQueue ∧
      s = u.sofi (linked u.rxQueue.toNat u.rxQueue.toNat)
        (linked u.rxQueue.toNat u.rxQueue.toNat) := by
  have hrx : 1 ≤ u.rxQueue := by
    by_contra hr
    have h₀ : u.rxQueue.toNat = 0 := by omega
    simp [init, h₀, linkElements, bind, Except.bind, pure, Except.pure] at h
  by_cases hle : u.rxQueue ≤ u.txQueue
  · rw [init_eq hrx hle] at h
    split at h
    · simp at h
    · simp only [Except.ok.injEq, Prod.mk.injEq, Option.some.injEq, true_and] at h
      exact ⟨hrx, hle, h.symm⟩
  · rw [init_overflow hrx (by omega)] at h
    cases h

theorem sofi_ring {u : Setup} (h₁ : 1 ≤ u.rxQueue) (L : Links Nat) :
    (u.sofi (linked u.rxQueue.toNat u.rxQueue.toNat) L).egress.ring.Holds
      (List.range u.rxQueue.toNat) := by
  obtain ⟨n, hn⟩ : ∃ n, u.rxQueue.toNat = n + 1 := ⟨u.rxQueue.toNat - 1, by omega⟩
  refine ⟨linked_isList _, ?_, ?_⟩
  · simp [Setup.sofi, hn, List.range_succ_eq_map]
  · simp [Setup.sofi, hn, List.range_succ]

theorem queueSize_lt (opt : Int) (limit : Nat) : queueSize opt limit < 2 ^ 31 := by
  have hlt : ∀ n : Int, toInt32 n < 2 ^ 31 := by
    intro n
    have h := Int.bmod_lt (x := n) (m := 2 ^ 32) (by decide)
    simpa [toInt32] using h
  simp only [queueSize]
  generalize (if opt = 0 then (limit : Int) else opt) = o
  split
  · exact hlt limit
  · exact hlt o

theorem toUInt32_queueSize {opt : Int} {limit : Nat} (h : 1 ≤ queueSize opt limit) :
    toUInt32 (queueSize opt limit) = (queueSize opt limit).toNat := by
  have hlt := queueSize_lt opt limit
  simp only [toUInt32]
  omega

/-- With both queue sizes admissible and the chunks allocated, the pool of egress contexts
is built as it should be exactly when the two queues have the same length. -/
theorem init_poolReady_iff {u : Setup} (htx : 1 ≤ u.txQueue) (hrx : 1 ≤ u.rxQueue)
    (ha : u.firstFailure u.rxQueue.toNat = 0) :
    (∃ s, init u = .ok (0, some s) ∧ PoolReady u s) ↔ u.rxQueue = u.txQueue := by
  constructor
  · rintro ⟨s, hs, hp⟩
    by_cases h : u.rxQueue ≤ u.txQueue
    · rw [init_eq hrx h, if_neg (by simpa using ha)] at hs
      simp only [Except.ok.injEq, Prod.mk.injEq, Option.some.injEq, true_and] at hs
      subst hs
      obtain ⟨l, hl, hperm, _⟩ := hp.ring
      have hr := hl.unique (sofi_ring hrx _)
      have hlen := hperm.length_eq
      rw [hr, List.length_range, List.length_range] at hlen
      omega
    · rw [init_overflow hrx (by omega)] at hs
      cases hs
  · intro h
    refine ⟨_, by rw [init_eq hrx (by omega), if_neg (by simpa using ha)], ⟨?_, fun _ => rfl⟩⟩
    refine ⟨_, sofi_ring hrx _, by rw [h], ?_, ?_⟩
    · simp [Setup.sofi, h]
    · simp only [Setup.sofi, List.length_range, h]
      exact (toUInt32_queueSize htx).symm

def Setup.easy (o : Options) : Setup :=
  ⟨o, 1024, 256, 256, 0, .unused, 4096, 0, fun _ => 0⟩

theorem default_poolReady :
    ∃ s, init (.easy .default) = .ok (0, some s) ∧ PoolReady (.easy .default) s :=
  (init_poolReady_iff (by decide) (by decide) (by decide)).2 (by decide)

/-- Two RX buffers and three TX contexts: `nn_sofi_init` succeeds, and the third context is
on no list. -/
theorem init_unequal_queues :
    let o := (Options.default.setopt .rxQueueSize 2).2.setopt .txQueueSize 3
    o.1 = 0 ∧ ∃ s, init (.easy o.2) = .ok (0, some s) ∧ ¬ PoolReady (.easy o.2) s ∧
      s.egress.max = 3 ∧ s.egress.ring.Holds [0, 1] := by
  refine ⟨rfl, _, init_eq (by decide) (by decide), ?_, by decide, sofi_ring (by decide) _⟩
  rintro ⟨⟨l, hl, hperm, _⟩, _⟩
  have hr := hl.unique (sofi_ring (by decide) _)
  have hlen := hperm.length_eq
  rw [hr] at hlen
  revert hlen
  decide

end Pool

end Sofi

end OfiTransport
