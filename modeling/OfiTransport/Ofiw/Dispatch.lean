import OfiTransport.Nanomsg
import OfiTransport.Ofiw.Defs

/-! What one iteration of the poller thread reads and feeds (`nn_ofiw_poller_thread`), with the
memory that the reads are written to.  A place in that memory holds an `α`: a completion entry,
a connection event or the entry of an error. -/

namespace OfiTransport.Ofiw.Dispatch

def FI_EAVAIL : Int := 259

def NN_OFIW_COMPLETED : Int := 1

def NN_OFIW_ERROR : Int := 2

def eqErrEntrySize : Int := 48

variable {α : Type}

/-- An item with the buffer for its events (an event queue uses the first place alone) and
the one for an error. -/
structure PollItem (α : Type) extends Item where
  src : Int
  data : Nat → α
  dataErr : α

structure PollWorker (α : Type) where
  active : Nat
  efdSync : Bool
  owner : Nat
  items : List (PollItem α)

/-- What the provider returns and writes when a queue is read: `ret` and the data (with the
event, for an event queue) from `fi_cq_read` or `fi_eq_read`, and then `sret` and the error
from `fi_cq_readerr` or `fi_eq_readerr`, if they are called. -/
structure Answer (α : Type) where
  ret : Int
  event : UInt32
  data : Nat → α
  sret : Int
  error : α

/-- The answers to the reads of an iteration, in their order, whether the owner frees the item
or its worker while it handles an entry of a batch, and the field `err` of an error. -/
structure Env (α : Type) where
  ask : Nat → Answer α
  frees : Nat → Bool
  err : α → Int

/-- The arguments of `nn_fsm_feed`. -/
structure Fed (α : Type) where
  owner : Nat
  src : Int
  type : Int
  data : α
  deriving DecidableEq

/-- Where an iteration is: the local variable `event`, the number of items that were read, what
was fed, and whether it is at `continue_outer`. -/
structure Progress (α : Type) where
  event : UInt32
  reads : Nat
  fed : List (Fed α)
  ended : Bool
  fault : Option Fault

def feed (w : PollWorker α) (it : PollItem α) (type : Int) (d : α) : Fed α :=
  ⟨w.owner, it.src, type, d⟩

def Progress.feed (p : Progress α) (w : PollWorker α) (it : PollItem α) (type : Int) (d : α) :
    Progress α :=
  { p with fed := p.fed ++ [Dispatch.feed w it type d] }

def written (d : Nat → α) (n : Nat) (data : Nat → α) (i : Nat) : α :=
  if i < n then d i else data i

/-- The loop over the entries of a completion queue, of which `n` are left from `i` on. -/
def feedEntries (v : Env α) (w : PollWorker α) (it : PollItem α) :
    Nat → Nat → Progress α → Progress α
  | 0, _, p => p
  | n + 1, i, p =>
    let q := p.feed w it NN_OFIW_COMPLETED (it.data i)
    if v.frees i ∧ n ≠ 0 then { q with fault := some .useAfterFree }
    else feedEntries v w it n (i + 1) q

def readCq (v : Env α) (w : PollWorker α) (it : PollItem α) (p : Progress α) :
    PollItem α × Progress α :=
  let a := v.ask p.reads
  let p := { p with reads := p.reads + 1 }
  if 0 < a.ret then
    let it := { it with data := written a.data a.ret.toNat it.data }
    (it, { feedEntries v w it a.ret.toNat 0 p with ended := true })
  else if a.ret ≠ -EAGAIN then
    -- what `fi_cq_readerr` returns is not looked at
    let it := { it with dataErr := if 0 < a.sret then a.error else it.dataErr }
    (it, { p.feed w it NN_OFIW_ERROR it.dataErr with ended := true })
  else (it, p)

def readEq (v : Env α) (w : PollWorker α) (it : PollItem α) (p : Progress α) :
    PollItem α × Progress α :=
  let a := v.ask p.reads
  let p := { p with
    reads := p.reads + 1
    event := if 0 < a.ret then a.event else p.event }
  let it := { it with data := written a.data (if 0 < a.ret then 1 else 0) it.data }
  if a.ret ≠ -EAGAIN then
    if a.ret = -FI_EAVAIL then
      let it := { it with dataErr := if 0 < a.sret then a.error else it.dataErr }
      if a.sret ≠ eqErrEntrySize then (it, p)
      else (it, { p.feed w it (-v.err it.dataErr) it.dataErr with ended := true })
    else (it, { p.feed w it (toInt32 p.event.toNat) (it.data 0) with ended := true })
  else (it, p)

def pollItem (v : Env α) (w : PollWorker α) (it : PollItem α) (p : Progress α) :
    PollItem α × Progress α :=
  match it.fdType with
  | .cq => readCq v w it p
  | .eq => readEq v w it p

def pollItems (v : Env α) (w : PollWorker α) :
    List (PollItem α) → Progress α → List (PollItem α) × Progress α
  | [], p => ([], p)
  | it :: l, p =>
    let x := pollItem v w it p
    if x.2.ended then (x.1 :: l, x.2)
    else
      let y := pollItems v w l x.2
      (x.1 :: y.1, y.2)

def pollWorkers (v : Env α) :
    List (PollWorker α) → Progress α → List (PollWorker α) × Progress α
  | [], p => ([], p)
  | w :: ws, p =>
    if w.active < 2 then
      let y := pollWorkers v ws p
      ((if w.active = 1 then { w with efdSync := true } else w) :: y.1, y.2)
    else
      let x := pollItems v w w.items p
      if x.2.ended then ({ w with items := x.1 } :: ws, x.2)
      else
        let y := pollWorkers v ws x.2
        ({ w with items := x.1 } :: y.1, y.2)

/-- One iteration of `nn_ofiw_poller_thread`, from what `event` holds.  The queue of the pool
itself is read at the end, into the same variable. -/
def pollerThread (v : Env α) (event : UInt32) (ws : List (PollWorker α)) :
    List (PollWorker α) × Progress α :=
  let x := pollWorkers v ws ⟨event, 0, [], false, none⟩
  if x.2.ended then x
  else
    let a := v.ask x.2.reads
    (x.1, { x.2 with event := if 0 < a.ret then a.event else x.2.event })

/-! What was read has to be fed, and nothing else. -/

def Answer.due (v : Env α) (a : Answer α) : ItemType → List (Int × α)
  | .cq =>
    if 0 < a.ret then (List.range a.ret.toNat).map fun i => (NN_OFIW_COMPLETED, a.data i)
    else if a.ret = -FI_EAVAIL ∧ 0 < a.sret then [(NN_OFIW_ERROR, a.error)]
    else []
  | .eq =>
    if 0 < a.ret then [(toInt32 a.event.toNat, a.data 0)]
    else if a.ret = -FI_EAVAIL ∧ a.sret = eqErrEntrySize then [(-v.err a.error, a.error)]
    else []

def polled (ws : List (PollWorker α)) : List (PollWorker α × PollItem α) :=
  (ws.filter fun w => 2 ≤ w.active).flatMap fun w => w.items.map fun it => (w, it)

def dueAt (v : Env α) (x : PollWorker α × PollItem α) (n : Nat) : List (Fed α) :=
  ((v.ask n).due v x.2.fdType).map fun e => feed x.1 x.2 e.1 e.2

def due (v : Env α) (l : List (PollWorker α × PollItem α)) (n m : Nat) : List (Fed α) :=
  ((l.take m).zipIdx n).flatMap fun x => dueAt v x.1 x.2

/-- An iteration feeds the owners of the items that it read what these reads are due. -/
def Faithful (v : Env α) (event : UInt32) (ws : List (PollWorker α)) : Prop :=
  let p := (pollerThread v event ws).2
  p.fault = none ∧ p.fed = due v (polled ws) 0 p.reads

def Answer.Passes (a : Answer α) : ItemType → Prop
  | .cq => a.ret = -EAGAIN
  | .eq => a.ret = -EAGAIN ∨ a.ret = -FI_EAVAIL ∧ a.sret ≠ eqErrEntrySize

/-- The answers that are handled as they should be.  For a completion queue, an error is one
that is available and can be read, and no entry but the last has the item freed. -/
def Answer.Clean (v : Env α) (a : Answer α) : ItemType → Prop
  | .cq =>
    a.ret = -EAGAIN ∨ (0 < a.ret ∧ ∀ i, i + 1 < a.ret.toNat → v.frees i = false) ∨
      (a.ret = -FI_EAVAIL ∧ 0 < a.sret)
  | .eq => 0 < a.ret ∨ a.ret = -EAGAIN ∨ a.ret = -FI_EAVAIL

theorem Answer.Passes.clean {v : Env α} {a : Answer α} {t : ItemType} (h : a.Passes t) :
    a.Clean v t := by
  cases t with
  | cq => exact .inl h
  | eq =>
    obtain h | h := h
    · exact .inr (.inl h)
    · exact .inr (.inr h.1)

theorem Answer.Passes.due {v : Env α} {a : Answer α} {t : ItemType} (h : a.Passes t) :
    a.due v t = [] := by
  cases t with
  | cq => simp_all [Passes, Answer.due, EAGAIN, FI_EAVAIL]
  | eq =>
    obtain h | h := h
    · simp [Answer.due, h, EAGAIN, FI_EAVAIL]
    · simp [Answer.due, h.1, h.2, FI_EAVAIL]

theorem Answer.not_passes_eq {a : Answer α} (h : ¬ a.Passes .eq) :
    a.ret ≠ -EAGAIN ∧ (a.ret = -FI_EAVAIL → a.sret = eqErrEntrySize) := by
  refine ⟨fun hr => h (.inl hr), fun ha => ?_⟩
  by_contra hs
  exact h (.inr ⟨ha, hs⟩)

section Steps

variable (v : Env α) (w : PollWorker α) (it : PollItem α)

theorem feedEntries_reads (n i : Nat) (p : Progress α) :
    (feedEntries v w it n i p).reads = p.reads := by
  induction n generalizing i p with
  | zero => rfl
  | succ n ih =>
    simp only [feedEntries]
    split
    · rfl
    · exact ih _ _

theorem feedEntries_fault (n i : Nat) (p : Progress α) (hp : p.fault = none) :
    (feedEntries v w it n i p).fault = none ↔ ∀ j, j + 1 < n → v.frees (i + j) = false := by
  induction n generalizing i p with
  | zero => simp [feedEntries, hp]
  | succ n ih =>
    simp only [feedEntries]
    split
    · next h =>
      refine iff_of_false (by simp) fun hf => ?_
      have := hf 0 (by omega)
      simp_all
    · next h =>
      rw [ih _ (p.feed w it NN_OFIW_COMPLETED (it.data i)) hp]
      constructor
      · intro hf j hj
        cases j with
        | zero => simpa [show n ≠ 0 by omega] using h
        | succ j => simpa [Nat.add_comm, Nat.add_left_comm] using hf j (by omega)
      · intro hf j hj
        simpa [Nat.add_comm, Nat.add_left_comm] using hf (j + 1) (by omega)

theorem feedEntries_fed (n i : Nat) (p : Progress α) (h : (feedEntries v w it n i p).fault = none) :
    (feedEntries v w it n i p).fed =
      p.fed ++ (List.range' i n).map fun j => feed w it NN_OFIW_COMPLETED (it.data j) := by
  induction n generalizing i p with
  | zero => simp [feedEntries]
  | succ n ih =>
    simp only [feedEntries] at h ⊢
    split at h
    · simp at h
    · next hf =>
      rw [if_neg hf, ih _ _ h]
      simp [Progress.feed, List.range'_succ]

theorem pollItem_reads (p : Progress α) : (pollItem v w it p).2.reads = p.reads + 1 := by
  unfold pollItem readCq readEq
  split <;> simp only <;> split_ifs <;> simp [feedEntries_reads, Progress.feed]

theorem pollItem_passes (p : Progress α) (h : (v.ask p.reads).Passes it.fdType) :
    (pollItem v w it p).2.ended = p.ended ∧ (pollItem v w it p).2.fed = p.fed ∧
      (pollItem v w it p).2.fault = p.fault := by
  cases ht : it.fdType with
  | cq =>
    rw [ht] at h
    have h : (v.ask p.reads).ret = -EAGAIN := h
    simp [pollItem, ht, readCq, h, EAGAIN]
  | eq =>
    rw [ht] at h
    obtain h | ⟨h, hs⟩ := h
    · simp [pollItem, ht, readEq, h]
    · simp [pollItem, ht, readEq, h, hs, EAGAIN, FI_EAVAIL]

theorem pollItem_stops (p : Progress α) (h : ¬ (v.ask p.reads).Passes it.fdType) :
    (pollItem v w it p).2.ended = true := by
  cases ht : it.fdType with
  | cq =>
    rw [ht] at h
    have h : (v.ask p.reads).ret ≠ -EAGAIN := h
    simp only [pollItem, ht, readCq]
    split_ifs <;> rfl
  | eq =>
    rw [ht] at h
    obtain ⟨hr, hs⟩ := Answer.not_passes_eq h
    by_cases ha : (v.ask p.reads).ret = -FI_EAVAIL
    · simp [pollItem, ht, readEq, ha, hs ha, EAGAIN, FI_EAVAIL]
    · simp [pollItem, ht, readEq, hr, ha]

theorem readCq_faithful (p : Progress α) (hp : p.fault = none)
    (h : (v.ask p.reads).ret ≠ -EAGAIN) :
    ((readCq v w it p).2.fault = none ∧ (readCq v w it p).2.fed =
        p.fed ++ ((v.ask p.reads).due v .cq).map fun e => feed w it e.1 e.2) ↔
      (v.ask p.reads).Clean v .cq := by
  by_cases hr : 0 < (v.ask p.reads).ret
  · have ha : (v.ask p.reads).ret ≠ -FI_EAVAIL := by unfold FI_EAVAIL; omega
    have hc : (v.ask p.reads).Clean v .cq ↔
        ∀ j, j + 1 < (v.ask p.reads).ret.toNat → v.frees j = false := by
      simp [Answer.Clean, h, hr, ha]
    rw [hc]
    simp only [readCq, Answer.due, if_pos hr]
    generalize hd : written _ _ _ = d
    generalize hq : ({ p with reads := p.reads + 1 } : Progress α) = q
    have hqf : q.fault = none := hq ▸ hp
    have hqd : q.fed = p.fed := hq ▸ rfl
    rw [feedEntries_fault v w _ _ 0 q hqf]
    simp only [Nat.zero_add, and_iff_left_iff_imp]
    intro hf
    rw [feedEntries_fed v w _ _ 0 q ((feedEntries_fault v w _ _ 0 q hqf).2 (by simpa using hf)),
      hqd, ← List.range_eq_range', List.map_map, List.append_cancel_left_eq]
    refine List.map_congr_left fun j hj => ?_
    simp [feed, ← hd, written, List.mem_range.1 hj]
  · by_cases ha : (v.ask p.reads).ret = -FI_EAVAIL ∧ 0 < (v.ask p.reads).sret
    · refine iff_of_true ?_ (.inr (.inr ha))
      simp [readCq, hp, ha.1, ha.2, Answer.due, Progress.feed, feed, EAGAIN, FI_EAVAIL]
    · refine iff_of_false ?_ (by simp [Answer.Clean, hr, h, ha])
      simp [readCq, hr, h, ha, Answer.due, Progress.feed]

theorem readEq_faithful (p : Progress α) (hp : p.fault = none)
    (h : ¬ (v.ask p.reads).Passes .eq) :
    ((readEq v w it p).2.fault = none ∧ (readEq v w it p).2.fed =
        p.fed ++ ((v.ask p.reads).due v .eq).map fun e => feed w it e.1 e.2) ↔
      (v.ask p.reads).Clean v .eq := by
  obtain ⟨hg, hs⟩ := Answer.not_passes_eq h
  by_cases hr : 0 < (v.ask p.reads).ret
  · have ha : (v.ask p.reads).ret ≠ -FI_EAVAIL := by unfold FI_EAVAIL; omega
    refine iff_of_true ?_ (.inl hr)
    simp [readEq, hg, ha, hr, hp, Answer.due, Progress.feed, written, feed]
  · by_cases ha : (v.ask p.reads).ret = -FI_EAVAIL
    · refine iff_of_true ?_ (.inr (.inr ha))
      simp [readEq, ha, hs ha, hp, Answer.due, Progress.feed, feed, EAGAIN, FI_EAVAIL,
        eqErrEntrySize]
    · refine iff_of_false ?_ (by simp [Answer.Clean, hr, hg, ha])
      simp [readEq, hg, ha, hr, Answer.due, Progress.feed]

theorem pollItem_faithful (p : Progress α) (hp : p.fault = none)
    (h : ¬ (v.ask p.reads).Passes it.fdType) :
    ((pollItem v w it p).2.fault = none ∧
        (pollItem v w it p).2.fed = p.fed ++ dueAt v (w, it) p.reads) ↔
      (v.ask p.reads).Clean v it.fdType := by
  unfold pollItem dueAt
  cases ht : it.fdType with
  | cq =>
    rw [ht] at h
    exact readCq_faithful v w it p hp h
  | eq =>
    rw [ht] at h
    exact readEq_faithful v w it p hp h

end Steps

section Loops

variable (v : Env α)

def Progress.next (p : Progress α) (x : PollWorker α × PollItem α) : Progress α :=
  if p.ended then p else (pollItem v x.1 x.2 p).2

theorem foldl_next_ended (l : List (PollWorker α × PollItem α)) (p : Progress α) (h : p.ended) :
    l.foldl (Progress.next v) p = p := by
  induction l with
  | nil => rfl
  | cons x l ih => rw [List.foldl_cons, Progress.next, if_pos h, ih]

theorem pollItems_progress (w : PollWorker α) (l : List (PollItem α)) (p : Progress α)
    (h : p.ended = false) :
    (pollItems v w l p).2 = (l.map fun it => (w, it)).foldl (Progress.next v) p := by
  induction l generalizing p with
  | nil => rfl
  | cons it l ih =>
    rw [List.map_cons, List.foldl_cons, Progress.next, if_neg (by simp [h]), pollItems]
    by_cases ho : (pollItem v w it p).2.ended
    · rw [foldl_next_ended v _ _ ho]
      simp only [if_pos ho]
    · rw [← ih _ (by simpa using ho)]
      simp only [if_neg ho]

theorem pollWorkers_progress (ws : List (PollWorker α)) (p : Progress α) (h : p.ended = false) :
    (pollWorkers v ws p).2 = (polled ws).foldl (Progress.next v) p := by
  induction ws generalizing p with
  | nil => rfl
  | cons w ws ih =>
    by_cases ha : w.active < 2
    · have hw : polled (w :: ws) = polled ws := by simp [polled, ha]
      rw [hw, pollWorkers, if_pos ha]
      exact ih p h
    · have hw : polled (w :: ws) = w.items.map (fun it => (w, it)) ++ polled ws := by
        simp [polled, show 2 ≤ w.active by omega]
      rw [hw, List.foldl_append, ← pollItems_progress v w _ p h, pollWorkers, if_neg ha]
      by_cases ho : (pollItems v w w.items p).2.ended
      · rw [foldl_next_ended v _ _ ho]
        simp only [if_pos ho]
      · rw [← ih _ (by simpa using ho)]
        simp only [if_neg ho]

def CleanFrom (l : List (PollWorker α × PollItem α)) (n : Nat) : Prop :=
  ∀ j x, l[j]? = some x →
    (∀ i < j, ∀ y, l[i]? = some y → (v.ask (n + i)).Passes y.2.fdType) →
      (v.ask (n + j)).Clean v x.2.fdType

theorem cleanFrom_cons (x : PollWorker α × PollItem α) (l : List (PollWorker α × PollItem α))
    (n : Nat) : CleanFrom v (x :: l) n ↔ (v.ask n).Clean v x.2.fdType ∧
      ((v.ask n).Passes x.2.fdType → CleanFrom v l (n + 1)) := by
  constructor
  · intro h
    refine ⟨h 0 x rfl (by simp), fun hx j y hy hj => ?_⟩
    rw [show n + 1 + j = n + (j + 1) by omega]
    refine h (j + 1) y hy fun i hi z hz => ?_
    cases i with
    | zero =>
      obtain rfl : x = z := by simpa using hz
      exact hx
    | succ i =>
      rw [show n + (i + 1) = n + 1 + i by omega]
      exact hj i (by omega) z hz
  · rintro ⟨hx, h⟩ j y hy hj
    cases j with
    | zero =>
      obtain rfl : x = y := by simpa using hy
      exact hx
    | succ j =>
      rw [show n + (j + 1) = n + 1 + j by omega]
      refine h (hj 0 (by omega) x rfl) j y hy fun i hi z hz => ?_
      rw [show n + 1 + i = n + (i + 1) by omega]
      exact hj (i + 1) (by omega) z hz

theorem due_cons (x : PollWorker α × PollItem α) (l : List (PollWorker α × PollItem α))
    (n m : Nat) : due v (x :: l) n (m + 1) = dueAt v x n ++ due v l (n + 1) m := by
  simp [due]

theorem foldl_next_reads (l : List (PollWorker α × PollItem α)) (p : Progress α) :
    p.reads ≤ (l.foldl (Progress.next v) p).reads := by
  induction l generalizing p with
  | nil => exact le_rfl
  | cons x l ih =>
    rw [List.foldl_cons]
    refine le_trans ?_ (ih _)
    unfold Progress.next
    split
    · exact le_rfl
    · rw [pollItem_reads]
      omega

theorem foldl_next_faithful (l : List (PollWorker α × PollItem α)) (p : Progress α)
    (ho : p.ended = false) (hp : p.fault = none) :
    ((l.foldl (Progress.next v) p).fault = none ∧ (l.foldl (Progress.next v) p).fed =
        p.fed ++ due v l p.reads ((l.foldl (Progress.next v) p).reads - p.reads)) ↔
      CleanFrom v l p.reads := by
  induction l generalizing p with
  | nil => simp [due, CleanFrom, hp]
  | cons x l ih =>
    rw [cleanFrom_cons, List.foldl_cons, Progress.next, if_neg (by simp [ho])]
    have hr := pollItem_reads v x.1 x.2 p
    by_cases hx : (v.ask p.reads).Passes x.2.fdType
    · obtain ⟨ho', hd, hf⟩ := pollItem_passes v x.1 x.2 p hx
      have hn := foldl_next_reads v l (pollItem v x.1 x.2 p).2
      have hk : (l.foldl (Progress.next v) (pollItem v x.1 x.2 p).2).reads - p.reads =
          (l.foldl (Progress.next v) (pollItem v x.1 x.2 p).2).reads - (p.reads + 1) + 1 := by
        omega
      have hdue : dueAt v x p.reads = [] := by simp [dueAt, hx.due]
      have := ih (pollItem v x.1 x.2 p).2 (ho'.trans ho) (hf.trans hp)
      rw [hr, hd] at this
      rw [hk, due_cons, hdue, List.nil_append, this]
      simp [hx, hx.clean]
    · have hs := pollItem_stops v x.1 x.2 p hx
      rw [foldl_next_ended v _ _ hs, hr, show p.reads + 1 - p.reads = 0 + 1 by omega, due_cons]
      have hz : due v l (p.reads + 1) 0 = [] := rfl
      rw [hz, List.append_nil, pollItem_faithful v x.1 x.2 p hp hx]
      simp [hx]

end Loops

theorem pollerThread_progress (v : Env α) (event : UInt32) (ws : List (PollWorker α)) :
    let p := (pollWorkers v ws ⟨event, 0, [], false, none⟩).2
    (pollerThread v event ws).2.fault = p.fault ∧ (pollerThread v event ws).2.fed = p.fed ∧
      (pollerThread v event ws).2.reads = p.reads := by
  unfold pollerThread
  dsimp only
  split <;> exact ⟨rfl, rfl, rfl⟩

theorem faithful_iff (v : Env α) (event : UInt32) (ws : List (PollWorker α)) :
    Faithful v event ws ↔ CleanFrom v (polled ws) 0 := by
  obtain ⟨hf, hd, hr⟩ := pollerThread_progress v event ws
  have := foldl_next_faithful v (polled ws) ⟨event, 0, [], false, none⟩ rfl rfl
  rw [← pollWorkers_progress v ws _ rfl] at this
  simpa only [Faithful, hf, hd, hr, List.nil_append, Nat.sub_zero] using this

instance [DecidableEq α] (v : Env α) (event : UInt32) (ws : List (PollWorker α)) :
    Decidable (Faithful v event ws) :=
  inferInstanceAs (Decidable (_ ∧ _))

def lone (t : ItemType) : List (PollWorker Nat) :=
  [⟨2, false, 1, [{ id := 0, fdType := t, fd := 0, src := 3, data := fun _ => 50, dataErr := 60 }]⟩]

def refusing (ret : Int) : Env Nat where
  ask _ := ⟨ret, 0, id, -EAGAIN, 0⟩
  frees _ := false
  err _ := 0

/-- An error that cannot be read is fed all the same, with what is in the buffer, and so is the
event of an event queue after an error that is not an available one. -/
theorem stale_fed :
    ¬ Faithful (refusing (-FI_EAVAIL)) 9 (lone .cq) ∧
      (pollerThread (refusing (-FI_EAVAIL)) 9 (lone .cq)).2.fed = [⟨1, 3, NN_OFIW_ERROR, 60⟩] ∧
    ¬ Faithful (refusing (-EINTR)) 9 (lone .eq) ∧
      (pollerThread (refusing (-EINTR)) 9 (lone .eq)).2.fed = [⟨1, 3, 9, 50⟩] := by
  decide

example : (pollerThread (refusing 2) 9 (lone .cq)).2.fed =
    [⟨1, 3, NN_OFIW_COMPLETED, 0⟩, ⟨1, 3, NN_OFIW_COMPLETED, 1⟩] := by
  decide

/-! A read as the poller of the pool takes it. -/

instance (a : Answer α) (t : ItemType) : Decidable (a.Passes t) :=
  match t with
  | .cq => inferInstanceAs (Decidable (a.ret = -EAGAIN))
  | .eq => inferInstanceAs (Decidable (_ ∨ _))

end OfiTransport.Ofiw.Dispatch
