import OfiTransport.Lib.Fifo
import OfiTransport.Ofiw.Dispatch
import Mathlib.Algebra.Order.BigOperators.Group.List
import Mathlib.Algebra.Order.Group.Nat

/-! The poller over many iterations: what the provider queues up, and when it is fed. -/

namespace OfiTransport.Ofiw.Dispatch

open Lib

/-- What waits in a queue of the provider: an event or a completion, or an error. -/
inductive Entry (α : Type)
  | event (type : UInt32) (data : α)
  | error (data : α)
  deriving DecidableEq

namespace Entry

variable {α : Type}

def isEvent : Entry α → Bool
  | .event .. => true
  | .error _ => false

def data : Entry α → α
  | .event _ d => d
  | .error d => d

def due (err : α → Int) : ItemType → Entry α → Int × α
  | .cq, .event _ d => (NN_OFIW_COMPLETED, d)
  | .cq, .error d => (NN_OFIW_ERROR, d)
  | .eq, .event type d => (toInt32 type.toNat, d)
  | .eq, .error d => (-err d, d)

end Entry

variable {α : Type}

/-- What a read takes out of a queue: one error, or events up to the first error.  An event
queue gives one of them, a completion queue `n` at most.  With `n = 0` the provider keeps
them to itself. -/
def batch (t : ItemType) (n : Nat) : List (Entry α) → List (Entry α)
  | [] => []
  | .error d :: _ => if n = 0 then [] else [.error d]
  | .event type d :: q =>
    let l := .event type d :: q.takeWhile Entry.isEvent
    match t with
    | .cq => l.take n
    | .eq => l.take (min n 1)

def eqCmEntrySize : Int := 16

def answer (t : ItemType) (it : PollItem α) (b : List (Entry α)) : Answer α :=
  let data i := (b[i]?).elim (it.data i) Entry.data
  match b with
  | [] => ⟨-EAGAIN, 0, data, -EAGAIN, it.dataErr⟩
  | .error d :: _ =>
    ⟨-FI_EAVAIL, 0, it.data, match t with | .cq => 1 | .eq => eqErrEntrySize, d⟩
  | .event type _ :: _ =>
    ⟨match t with | .cq => b.length | .eq => eqCmEntrySize, type, data, -EAGAIN, it.dataErr⟩

/-- The workers of the pool, the variable `event` of the poller, and the queues of the provider,
with what waits in them. -/
structure Backlog (α : Type) where
  workers : List (PollWorker α)
  event : UInt32
  queues : ItemType → Nat → List (Entry α)

/-- How a read of an iteration goes: how many entries the provider gives at most each time,
whether the owner frees the item while it handles an entry, and what the read of the queue of
the pool returns. -/
structure Turn (α : Type) where
  gives : Nat → Nat
  frees : Nat → Bool
  own : Answer α

def Turn.Eager (u : Turn α) : Prop := ∀ i, 0 < u.gives i

def Turn.plain (n : Nat) (d : α) : Turn α :=
  ⟨fun _ => n, fun _ => false, ⟨-EAGAIN, 0, fun _ => d, 0, d⟩⟩

namespace Backlog

/-- The provider queues entries up, the workers and their items change while the poller does not
look at them, or there is an iteration of the poller. -/
inductive Event (α : Type)
  | arrive (t : ItemType) (fd : Nat) (entries : List (Entry α))
  | change (workers : List (PollWorker α))
  | poll (u : Turn α)

variable (err : α → Int)

def batchAt (u : Turn α) (s : Backlog α) (i : Nat) (it : PollItem α) : List (Entry α) :=
  batch it.fdType (u.gives i) (s.queues it.fdType it.fd)

def env (u : Turn α) (s : Backlog α) : Env α where
  ask i := match (polled s.workers)[i]? with
    | some x => answer x.2.fdType x.2 (s.batchAt u i x.2)
    | none => u.own
  frees := u.frees
  err := err

def iterate (u : Turn α) (s : Backlog α) : List (PollWorker α) × Progress α :=
  pollerThread (s.env err u) s.event s.workers

def found (u : Turn α) (s : Backlog α) : Option (PollItem α) :=
  let p := (s.iterate err u).2
  if p.ended then ((polled s.workers)[p.reads - 1]?).map Prod.snd else none

def rest (u : Turn α) (s : Backlog α) (t : ItemType) (fd : Nat) : List (Entry α) :=
  match s.found err u with
  | none => s.queues t fd
  | some it =>
    if it.fdType = t ∧ it.fd = fd then
      (s.queues t fd).drop (s.batchAt u ((s.iterate err u).2.reads - 1) it).length
    else s.queues t fd

def step (s : Backlog α) : Event α → Except Fault (Backlog α)
  | .arrive t fd entries =>
    .ok { s with queues := fun t' fd' =>
      if t = t' ∧ fd = fd' then s.queues t' fd' ++ entries else s.queues t' fd' }
  | .change workers => .ok { s with workers := workers }
  | .poll u =>
    let x := s.iterate err u
    match x.2.fault with
    | some f => .error f
    | none => .ok ⟨x.1, x.2.event, s.rest err u⟩

def machine : Machine (Backlog α) (Event α) Fault :=
  ⟨fun s => ∀ t fd, s.queues t fd = [], fun _ _ => true, step err⟩

def arrived (t : ItemType) (fd : Nat) (_ : Backlog α) : Event α → List (Int × α)
  | .arrive t' fd' entries => if t' = t ∧ fd' = fd then entries.map (Entry.due err t) else []
  | _ => []

def delivered (t : ItemType) (fd : Nat) (s : Backlog α) : Event α → List (Int × α)
  | .poll u =>
    match s.found err u with
    | none => []
    | some it =>
      if it.fdType = t ∧ it.fd = fd then
        (s.iterate err u).2.fed.map fun f => (f.type, f.data)
      else []
  | _ => []

end Backlog

/-! A read. -/

section Reads

variable {t : ItemType} {n m : Nat} {q : List (Entry α)}

theorem batch_cases (t : ItemType) (n : Nat) (q : List (Entry α)) :
    batch t n q = [] ∨ (∃ d, batch t n q = [.error d]) ∨
      ∃ type d l, batch t n q = .event type d :: l ∧ (∀ e ∈ l, e.isEvent = true) ∧
        (t = .eq → l = []) := by
  cases q with
  | nil => exact .inl rfl
  | cons e q =>
    cases n with
    | zero => cases e <;> cases t <;> exact .inl rfl
    | succ n =>
      cases e with
      | error d => exact .inr (.inl ⟨d, rfl⟩)
      | event type d =>
        cases t with
        | cq =>
          refine .inr (.inr ⟨type, d, (q.takeWhile Entry.isEvent).take n, rfl, ?_, by simp⟩)
          intro e he
          exact List.all_eq_true.1 List.all_takeWhile e (List.mem_of_mem_take he)
        | eq =>
          refine .inr (.inr ⟨type, d, [], ?_, by simp, fun _ => rfl⟩)
          simp [batch]

theorem batch_append (t : ItemType) (n : Nat) (q : List (Entry α)) :
    batch t n q ++ q.drop (batch t n q).length = q := by
  have hp : batch t n q <+: q := by
    cases q with
    | nil => exact List.nil_prefix
    | cons e q =>
      cases e with
      | error d =>
        simp only [batch]
        split_ifs
        · exact List.nil_prefix
        · exact ⟨q, rfl⟩
      | event type d =>
        have hw : Entry.event type d :: q.takeWhile Entry.isEvent <+: .event type d :: q :=
          (List.prefix_cons_inj _).2 (List.takeWhile_prefix _)
        cases t <;> exact (List.take_prefix _ _).trans hw
  exact List.prefix_iff_eq_append.1 hp

theorem batch_ne_nil (hn : 0 < n) (hq : q ≠ []) : batch t n q ≠ [] := by
  cases q with
  | nil => exact absurd rfl hq
  | cons e q =>
    cases n with
    | zero => exact absurd hn (Nat.lt_irrefl 0)
    | succ n => cases e <;> cases t <;> simp [batch]

variable {it : PollItem α} {v : Env α}

theorem answer_passes (t : ItemType) (it : PollItem α) (b : List (Entry α)) :
    (answer t it b).Passes t ↔ b = [] := by
  cases b with
  | nil => cases t <;> simp [answer, Answer.Passes]
  | cons e b =>
    refine iff_of_false ?_ (by simp)
    cases e <;> cases t <;>
      simp [answer, Answer.Passes, EAGAIN, FI_EAVAIL, eqErrEntrySize, eqCmEntrySize]
    omega

theorem answer_due (it : PollItem α) (v : Env α) :
    (answer t it (batch t n q)).due v t = (batch t n q).map (Entry.due v.err t) := by
  obtain hb | ⟨d, hb⟩ | ⟨type, d, l, hb, hl, ht⟩ := batch_cases t n q
  · rw [hb]
    exact ((answer_passes t it []).2 rfl).due
  · rw [hb]
    cases t <;> simp [answer, Answer.due, Entry.due, FI_EAVAIL, eqErrEntrySize]
  · rw [hb]
    cases t with
    | eq =>
      obtain rfl := ht rfl
      simp [answer, Answer.due, Entry.due, Entry.data, eqCmEntrySize]
    | cq =>
      let b : List (Entry α) := .event type d :: l
      have hret : (answer .cq it b).ret = (b.length : Int) := rfl
      have hpos : 0 < (answer .cq it b).ret := by
        rw [hret]
        exact Int.natCast_pos.2 (Nat.succ_pos _)
      show (if 0 < (answer .cq it b).ret then _ else _) = b.map _
      rw [if_pos hpos, hret, Int.toNat_natCast]
      refine List.ext_getElem (by simp) fun i _ hi => ?_
      have hi' : i < b.length := by simpa using hi
      have he : b[i].isEvent = true := by
        obtain hm | hm := List.mem_cons.1 (List.getElem_mem hi')
        · rw [hm]
          rfl
        · exact hl _ hm
      have hd : (answer .cq it b).data i = b[i].data := by
        show (b[i]?).elim _ _ = _
        rw [List.getElem?_eq_getElem hi']
        rfl
      rw [List.getElem_map, List.getElem_range, List.getElem_map, hd]
      cases hc : b[i] with
      | event => rfl
      | error => simp [hc, Entry.isEvent] at he

theorem answer_clean (ha : v.ask n = answer t it (batch t m q))
    (hf : 0 < (v.ask n).ret → t = .cq → ∀ i, i + 1 < (v.ask n).ret.toNat → v.frees i = false) :
    (v.ask n).Clean v t := by
  obtain hb | ⟨d, hb⟩ | ⟨type, d, l, hb, -, -⟩ := batch_cases t m q
  · rw [hb] at ha
    exact Answer.Passes.clean (ha ▸ (answer_passes t it []).2 rfl)
  · rw [ha, hb]
    cases t with
    | cq => exact .inr (.inr ⟨rfl, Int.one_pos⟩)
    | eq => exact .inr (.inr rfl)
  · have hpos : 0 < (v.ask n).ret := by
      rw [ha, hb]
      cases t with
      | cq => exact Int.natCast_pos.2 (Nat.succ_pos _)
      | eq => simp [answer, eqCmEntrySize]
    cases t with
    | eq => exact .inl hpos
    | cq => exact .inr (.inl ⟨hpos, hf hpos rfl⟩)

theorem readCq_frees {w : PollWorker α} {p : Progress α} (ht : it.fdType = t) (hp : p.fault = none)
    (hf : (pollItem v w it p).2.fault = none) (hpos : 0 < (v.ask p.reads).ret) (hcq : t = .cq) :
    ∀ i, i + 1 < (v.ask p.reads).ret.toNat → v.frees i = false := by
  subst hcq
  simp only [pollItem, ht, readCq, if_pos hpos] at hf
  simpa using (feedEntries_fault v w _ _ 0 { p with reads := p.reads + 1 } hp).1 hf

end Reads

/-! An iteration. -/

theorem foldl_next_cases (v : Env α) (l : List (PollWorker α × PollItem α)) (p : Progress α)
    (ho : p.ended = false) (hp : p.fault = none) :
    (∀ i x, l[i]? = some x → (v.ask (p.reads + i)).Passes x.2.fdType) ∧
        (l.foldl (Progress.next v) p).ended = false ∧
        (l.foldl (Progress.next v) p).fed = p.fed ∨
      ∃ i x p', l[i]? = some x ∧
        (∀ j y, j < i → l[j]? = some y → (v.ask (p.reads + j)).Passes y.2.fdType) ∧
        ¬ (v.ask (p.reads + i)).Passes x.2.fdType ∧
        l.foldl (Progress.next v) p = (pollItem v x.1 x.2 p').2 ∧
        p'.reads = p.reads + i ∧ p'.fed = p.fed ∧ p'.fault = none := by
  induction l generalizing p with
  | nil => exact .inl ⟨by simp, ho, rfl⟩
  | cons x l ih =>
    rw [List.foldl_cons, Progress.next, if_neg (by simp [ho])]
    by_cases hx : (v.ask p.reads).Passes x.2.fdType
    · obtain ⟨ho', hd, hf⟩ := pollItem_passes v x.1 x.2 p hx
      have hr := pollItem_reads v x.1 x.2 p
      have hshift : ∀ i, (pollItem v x.1 x.2 p).2.reads + i = p.reads + (i + 1) := by
        intro i
        omega
      obtain ⟨hall, he, hfed⟩ | ⟨i, y, p', hy, hbefore, hn, hq, hr', hd', hf'⟩ :=
        ih (pollItem v x.1 x.2 p).2 (ho'.trans ho) (hf.trans hp)
      · refine .inl ⟨?_, he, hfed.trans hd⟩
        intro i z hz
        cases i with
        | zero =>
          obtain rfl : x = z := by simpa using hz
          exact hx
        | succ i => exact hshift i ▸ hall i z hz
      · refine .inr ⟨i + 1, y, p', hy, ?_, hshift i ▸ hn, hq, hr'.trans (hshift i), hd'.trans hd,
          hf'⟩
        intro j z hj hz
        cases j with
        | zero =>
          obtain rfl : x = z := by simpa using hz
          exact hx
        | succ j => exact hshift j ▸ hbefore j z (Nat.lt_of_succ_lt_succ hj) hz
    · refine .inr ⟨0, x, p, rfl, by simp, hx, ?_, rfl, rfl, hp⟩
      rw [foldl_next_ended v _ _ (pollItem_stops v x.1 x.2 p hx)]

theorem pollerThread_ended (v : Env α) (event : UInt32) (ws : List (PollWorker α)) :
    (pollerThread v event ws).2.ended = (pollWorkers v ws ⟨event, 0, [], false, none⟩).2.ended := by
  unfold pollerThread
  dsimp only
  split <;> rfl

/-! An iteration changes nothing but the buffers and what it signals. -/

def PollItem.key (it : PollItem α) : ItemType × Nat := (it.fdType, it.fd)

def keys (ws : List (PollWorker α)) : List (ItemType × Nat) :=
  (ws.filter fun w => 2 ≤ w.active).flatMap fun w => w.items.map PollItem.key

theorem polled_keys (ws : List (PollWorker α)) : (polled ws).map (fun x => x.2.key) = keys ws := by
  simp only [polled, keys, List.map_flatMap, List.map_map]
  rfl

section Keys

variable (v : Env α)

theorem pollItem_key (w : PollWorker α) (it : PollItem α) (p : Progress α) :
    (pollItem v w it p).1.key = it.key := by
  unfold pollItem readCq readEq
  split <;> simp only <;> split_ifs <;> rfl

theorem pollItems_keys (w : PollWorker α) (l : List (PollItem α)) (p : Progress α) :
    (pollItems v w l p).1.map PollItem.key = l.map PollItem.key := by
  induction l generalizing p with
  | nil => rfl
  | cons it l ih =>
    simp only [pollItems]
    split_ifs
    · simp [pollItem_key]
    · simp [pollItem_key, ih]

theorem pollWorkers_keys (ws : List (PollWorker α)) (p : Progress α) :
    keys (pollWorkers v ws p).1 = keys ws := by
  induction ws generalizing p with
  | nil => rfl
  | cons w ws ih =>
    have hcons : ∀ (w : PollWorker α) ws, keys (w :: ws) =
        (if 2 ≤ w.active then w.items.map PollItem.key else []) ++ keys ws := by
      intro w ws
      by_cases h : 2 ≤ w.active <;> simp [keys, h]
    by_cases h : w.active < 2
    · rw [pollWorkers, if_pos h]
      by_cases h₁ : w.active = 1
      · simp [hcons, ih, h₁]
      · simp [hcons, ih, h₁]
    · rw [pollWorkers, if_neg h]
      dsimp only
      split_ifs
      · simp [hcons, pollItems_keys]
      · simp [hcons, pollItems_keys, ih]

theorem pollerThread_keys (event : UInt32) (ws : List (PollWorker α)) :
    keys (pollerThread v event ws).1 = keys ws := by
  unfold pollerThread
  dsimp only
  split_ifs <;> exact pollWorkers_keys v ws _

end Keys

namespace Backlog

section Iteration

variable {err : α → Int} {u : Turn α} {s s' : Backlog α}

theorem env_ask {i : Nat} {x : PollWorker α × PollItem α} (h : (polled s.workers)[i]? = some x) :
    (s.env err u).ask i = answer x.2.fdType x.2 (s.batchAt u i x.2) := by
  simp only [env, h]

theorem iterate_cases (hf : (s.iterate err u).2.fault = none) :
    (∀ i x, (polled s.workers)[i]? = some x → s.batchAt u i x.2 = []) ∧
        s.found err u = none ∧ (s.iterate err u).2.fed = [] ∨
      ∃ i x, (polled s.workers)[i]? = some x ∧
        (∀ j y, j < i → (polled s.workers)[j]? = some y → s.batchAt u j y.2 = []) ∧
        s.batchAt u i x.2 ≠ [] ∧ s.found err u = some x.2 ∧
        (s.iterate err u).2.reads = i + 1 ∧
        (s.iterate err u).2.fed = (s.batchAt u i x.2).map fun e =>
          feed x.1 x.2 (e.due err x.2.fdType).1 (e.due err x.2.fdType).2 := by
  let p : Progress α := ⟨s.event, 0, [], false, none⟩
  let l := polled s.workers
  obtain ⟨hfault, hfed, hreads⟩ := pollerThread_progress (s.env err u) s.event s.workers
  have hended := pollerThread_ended (s.env err u) s.event s.workers
  rw [pollWorkers_progress _ _ _ rfl] at hfault hfed hreads hended
  have hnil : ∀ {i : Nat} {x : PollWorker α × PollItem α}, l[i]? = some x →
      (((s.env err u).ask (0 + i)).Passes x.2.fdType ↔ s.batchAt u i x.2 = []) := by
    intro i x hx
    rw [Nat.zero_add, env_ask hx]
    exact answer_passes _ _ _
  obtain ⟨hall, he, hd⟩ | ⟨i, x, p', hx, hbefore, hn, hq, hr, hd, hp'⟩ :=
    foldl_next_cases (s.env err u) l p rfl rfl
  · refine .inl ⟨fun i x hx => (hnil hx).1 (hall i x hx), ?_, hfed.trans hd⟩
    have : (s.iterate err u).2.ended = false := hended.trans he
    simp only [found, this, Bool.false_eq_true, if_false]
  · have hr' : p'.reads = i := hr.trans (Nat.zero_add i)
    have hread : (s.iterate err u).2.reads = i + 1 := by
      refine hreads.trans ?_
      rw [hq, pollItem_reads, hr']
    have ha : (s.env err u).ask p'.reads =
        answer x.2.fdType x.2 (batch x.2.fdType (u.gives i) (s.queues x.2.fdType x.2.fd)) := by
      rw [hr', env_ask hx]
      rfl
    have hpass : ¬ ((s.env err u).ask p'.reads).Passes x.2.fdType := by
      rw [hr', ← Nat.zero_add i]
      exact hn
    have hf' : (pollItem (s.env err u) x.1 x.2 p').2.fault = none := hq ▸ hfault.symm.trans hf
    have hc := answer_clean ha (readCq_frees rfl hp' hf')
    have hfed' := ((pollItem_faithful (s.env err u) x.1 x.2 p' hp' hpass).2 hc).2
    refine .inr ⟨i, x, hx, fun j y hj hy => (hnil hy).1 (hbefore j y hj hy),
      fun h => hn ((hnil hx).2 h), ?_, hread, ?_⟩
    · have : (s.iterate err u).2.ended = true := by
        refine hended.trans ?_
        rw [hq]
        exact pollItem_stops _ _ _ _ hpass
      simp only [found, this, if_true, hread, Nat.add_sub_cancel]
      exact congrArg (Option.map Prod.snd) hx
    · refine hfed.trans ?_
      rw [hq, hfed', hd, dueAt, ha, answer_due, List.map_map]
      rfl

theorem iterate_ok (hu : ∀ i, u.frees i = false) : (s.iterate err u).2.fault = none := by
  have hc : CleanFrom (s.env err u) (polled s.workers) 0 := by
    intro j x hx _
    rw [Nat.zero_add]
    exact answer_clean (env_ask hx) fun _ _ i _ => hu i
  obtain ⟨hfault, -, -⟩ := pollerThread_progress (s.env err u) s.event s.workers
  rw [pollWorkers_progress _ _ _ rfl] at hfault
  exact hfault.trans ((foldl_next_faithful _ _ _ rfl rfl).2 hc).1

theorem step_poll (h : step err s (.poll u) = .ok s') :
    (s.iterate err u).2.fault = none ∧
      s' = ⟨(s.iterate err u).1, (s.iterate err u).2.event, s.rest err u⟩ := by
  simp only [step] at h
  cases hf : (s.iterate err u).2.fault with
  | none =>
    simp only [hf] at h
    exact ⟨rfl, (Except.ok.inj h).symm⟩
  | some f => simp [hf] at h

theorem poll_moves (t : ItemType) (fd : Nat) (hf : (s.iterate err u).2.fault = none) :
    delivered err t fd s (.poll u) ++ (s.rest err u t fd).map (Entry.due err t) =
      (s.queues t fd).map (Entry.due err t) := by
  obtain ⟨-, hn, -⟩ | ⟨i, x, -, -, -, hx, hr, hd⟩ := iterate_cases hf
  · simp only [delivered, rest, hn, List.nil_append]
  · simp only [delivered, rest, hx, hr, hd, Nat.add_sub_cancel, List.map_map]
    split_ifs with hk
    · obtain ⟨rfl, rfl⟩ := hk
      refine List.map_append.symm.trans (congrArg (List.map (Entry.due err x.2.fdType)) ?_)
      exact batch_append x.2.fdType (u.gives i) (s.queues x.2.fdType x.2.fd)
    · rfl

end Iteration

def fifo (err : α → Int) (t : ItemType) (fd : Nat) : Machine.Fifo (machine err) (Int × α) :=
  ⟨arrived err t fd, delivered err t fd, fun s => (s.queues t fd).map (Entry.due err t),
    fun _ => True⟩

theorem step_queue {err : α → Int} {s s' : Backlog α} {e : Event α} (t : ItemType) (fd : Nat)
    (h : step err s e = .ok s') :
    delivered err t fd s e ++ (s'.queues t fd).map (Entry.due err t) =
      (s.queues t fd).map (Entry.due err t) ++ arrived err t fd s e := by
  cases e with
  | arrive t' fd' entries =>
    obtain rfl := Except.ok.inj h
    simp only [delivered, arrived, List.nil_append]
    split_ifs
    · exact List.map_append
    · exact (List.append_nil _).symm
  | change workers =>
    obtain rfl := Except.ok.inj h
    exact (List.append_nil _).symm
  | poll u =>
    obtain ⟨hf, rfl⟩ := step_poll h
    exact (poll_moves t fd hf).trans (List.append_nil _).symm

theorem fifo_ordered (err : α → Int) (t : ItemType) (fd : Nat) :
    (fifo err t fd).Ordered fun _ => True where
  init s hi := ⟨trivial, by simp [fifo, hi t fd]⟩
  invariant _ _ _ _ _ _ := trivial
  kept _ _ _ _ _ hs _ := ⟨trivial, step_queue t fd hs⟩
  taken _ _ _ _ _ hs _ := ⟨_, step_queue t fd hs⟩
  given_up _ _ _ _ _ _ hk := absurd trivial hk

theorem fed_owner {err : α → Int} {h : List (Backlog α × Event α)} {s : Backlog α}
    (r : (machine err).Run h s) : ∀ q ∈ h, ∀ u, q.2 = .poll u →
      ∀ f ∈ (q.1.iterate err u).2.fed, ∃ x ∈ polled q.1.workers, q.1.found err u = some x.2 ∧
        f.owner = x.1.owner ∧ f.src = x.2.src := by
  induction r with
  | init hi => simp
  | @step h s e s' r _ hs ih =>
    intro q hq u hu f hf
    obtain rfl | hq := List.mem_cons.1 hq
    · obtain rfl : e = .poll u := hu
      obtain ⟨-, -, hn⟩ | ⟨i, x, hi, -, -, hx, -, hd⟩ := iterate_cases (step_poll hs).1
      · rw [hn] at hf
        exact absurd hf List.not_mem_nil
      · rw [hd] at hf
        obtain ⟨e, -, rfl⟩ := List.mem_map.1 hf
        exact ⟨x, List.mem_of_getElem? hi, hx, rfl, rfl⟩
    · exact ih q hq u hu f hf

/-- Of every queue exactly what was queued up is fed, in this order, each entry once, apart from
what still waits; and to the owner of the item. -/
theorem fed_in_order {err : α → Int} {h : List (Backlog α × Event α)} {s : Backlog α}
    (r : (machine err).Run h s) :
    (∀ t fd, Machine.collect (delivered err t fd) h ++ (s.queues t fd).map (Entry.due err t) =
        Machine.collect (arrived err t fd) h) ∧
      ∀ q ∈ h, ∀ u, q.2 = .poll u → ∀ f ∈ (q.1.iterate err u).2.fed,
        ∃ x ∈ polled q.1.workers, q.1.found err u = some x.2 ∧ f.owner = x.1.owner ∧
          f.src = x.2.src :=
  ⟨fun t fd => ((fifo_ordered err t fd).run r).2 trivial, fed_owner r⟩

def pair : Backlog Nat :=
  ⟨[⟨2, false, 1, [
      { id := 0, fdType := .cq, fd := 4, src := 3, data := fun _ => 50, dataErr := 60 },
      { id := 1, fdType := .eq, fd := 5, src := 7, data := fun _ => 50, dataErr := 60 }]⟩],
    0, fun _ _ => []⟩

theorem pair_fed : ∃ h s, (machine Int.ofNat).Run h s ∧ h.length = 4 ∧
    Machine.collect (delivered Int.ofNat .cq 4) h = [(1, 10), (1, 11), (2, 12)] ∧
    s.queues .eq 5 = [.event 7 20] ∧
    Machine.collect (delivered Int.ofNat .cq 4) h ++
        (s.queues .cq 4).map (Entry.due Int.ofNat .cq) =
      Machine.collect (arrived Int.ofNat .cq 4) h := by
  have r₁ : (machine Int.ofNat).Run _ _ := .step (e := .arrive .eq 5 [.event 7 20])
    (.step (e := .arrive .cq 4 [.event 0 10, .event 0 11, .error 12])
      (.init (show (machine Int.ofNat).init pair from fun _ _ => rfl)) rfl rfl) rfl rfl
  have r₂ : (machine Int.ofNat).Run _ _ :=
    .step (e := .poll (.plain 8 0)) (.step (e := .poll (.plain 8 0)) r₁ rfl rfl) rfl rfl
  exact ⟨_, _, r₂, rfl, by decide, by decide, (fed_in_order r₂).1 .cq 4⟩

/-! How long an entry waits. -/

def waiting (s : Backlog α) : Nat := ((keys s.workers).map fun k => (s.queues k.1 k.2).length).sum

section Waiting

variable {err : α → Int} {u : Turn α} {s s' : Backlog α}

theorem iterate_keys : keys (s.iterate err u).1 = keys s.workers :=
  pollerThread_keys _ _ _

theorem mem_keys {i : Nat} {x : PollWorker α × PollItem α} (h : (polled s.workers)[i]? = some x) :
    x.2.key ∈ keys s.workers := by
  rw [← polled_keys]
  exact List.mem_map_of_mem (List.mem_of_getElem? h)

theorem rest_length_le (t : ItemType) (fd : Nat) :
    (s.rest err u t fd).length ≤ (s.queues t fd).length := by
  unfold rest
  split
  · exact Nat.le_refl _
  · split_ifs
    · exact (List.drop_sublist _ _).length_le
    · exact Nat.le_refl _

theorem poll_lowers (hu : Turn.Eager u) (h : step err s (.poll u) = .ok s') :
    s'.waiting ≤ s.waiting - 1 := by
  obtain ⟨hf, rfl⟩ := step_poll h
  have hle : ∀ k ∈ keys s.workers, (s.rest err u k.1 k.2).length ≤ (s.queues k.1 k.2).length :=
    fun k _ => rest_length_le k.1 k.2
  simp only [waiting, iterate_keys]
  obtain ⟨hall, -, -⟩ | ⟨i, x, hi, -, hne, hx, hr, -⟩ := iterate_cases hf
  · have hzero : ∀ k ∈ keys s.workers, (s.queues k.1 k.2).length = 0 := by
      intro k hk
      rw [← polled_keys] at hk
      obtain ⟨x, hm, rfl⟩ := List.mem_map.1 hk
      obtain ⟨i, hi⟩ := List.mem_iff_getElem?.1 hm
      by_contra hq
      exact batch_ne_nil (hu i) (fun hn => hq (List.length_eq_zero_iff.2 hn)) (hall i x hi)
    refine Nat.le_trans (List.sum_le_sum hle) ?_
    rw [List.map_congr_left hzero]
    simp
  · refine Nat.le_sub_one_of_lt (List.sum_lt_sum _ _ hle ⟨x.2.key, mem_keys hi, ?_⟩)
    have hlt : 0 < (s.batchAt u i x.2).length := List.length_pos_iff.2 hne
    have happ := congrArg List.length (batch_append x.2.fdType (u.gives i)
      (s.queues x.2.fdType x.2.fd))
    simp only [PollItem.key, rest, hx, hr, Nat.add_sub_cancel, and_self, if_true]
    simp only [List.length_append, batchAt] at happ hlt ⊢
    omega

/-- Once nothing new arrives, as many iterations as there are entries empty all queues that are
polled. -/
theorem polls_drain {h : List (Backlog α × Event α)} (p : (machine err).Path s h s')
    (hg : Machine.Guarded (fun _ e => ∃ u, e = .poll u ∧ Turn.Eager u) h)
    (hn : s.waiting ≤ h.length) : ∀ x ∈ polled s'.workers, s'.queues x.2.fdType x.2.fd = [] := by
  have hw : s'.waiting ≤ s.waiting - h.length := by
    clear hn
    induction p with
    | refl => exact Nat.le_refl _
    | step p _ hs ih =>
      rw [Machine.guarded_cons] at hg
      obtain ⟨⟨u, rfl, hu⟩, hg⟩ := hg
      have h₁ := poll_lowers hu hs
      have h₂ := ih hg
      rw [List.length_cons]
      omega
  intro x hx
  have hz : s'.waiting = 0 := by omega
  have hk : x.2.key ∈ keys s'.workers := by
    rw [← polled_keys]
    exact List.mem_map_of_mem hx
  have hl : (s'.queues x.2.fdType x.2.fd).length ≤ s'.waiting :=
    List.le_sum_of_mem (List.mem_map_of_mem (f := fun k => (s'.queues k.1 k.2).length) hk)
  exact List.length_eq_zero_iff.1 (Nat.le_zero.1 (hz ▸ hl))

theorem polled_of_keys {i : Nat} {k : ItemType × Nat} (h : (keys s.workers)[i]? = some k) :
    ∃ x, (polled s.workers)[i]? = some x ∧ x.2.key = k := by
  rw [← polled_keys, List.getElem?_map, Option.map_eq_some_iff] at h
  exact h

theorem poll_spares {l l' : List (ItemType × Nat)} {k k' : ItemType × Nat} (hu : Turn.Eager u)
    (h : step err s (.poll u) = .ok s') (hl : keys s.workers = l ++ l') (hk : k ∈ l)
    (hq : s.queues k.1 k.2 ≠ []) (hk' : k' ∉ l) :
    s'.queues k'.1 k'.2 = s.queues k'.1 k'.2 ∧ delivered err k'.1 k'.2 s (.poll u) = [] := by
  obtain ⟨hf, rfl⟩ := step_poll h
  obtain ⟨j, hj⟩ := List.mem_iff_getElem?.1 hk
  obtain ⟨hjl, -⟩ := List.getElem?_eq_some_iff.1 hj
  have hkeys : (keys s.workers)[j]? = some k := by
    rw [hl, List.getElem?_append_left hjl, hj]
  obtain ⟨y, hy, rfl⟩ := polled_of_keys hkeys
  have hgive : s.batchAt u j y.2 ≠ [] := batch_ne_nil (hu j) hq
  obtain ⟨hall, -, -⟩ | ⟨i, x, hi, hbefore, -, hx, -, -⟩ := iterate_cases hf
  · exact absurd (hall j y hy) hgive
  · have hij : i ≤ j := by
      by_contra hlt
      exact hgive (hbefore j y (Nat.lt_of_not_le hlt) hy)
    have hxl : x.2.key ∈ l := by
      have hxk : (keys s.workers)[i]? = some x.2.key := by
        rw [← polled_keys, List.getElem?_map, hi]
        rfl
      rw [hl, List.getElem?_append_left (Nat.lt_of_le_of_lt hij hjl)] at hxk
      exact List.mem_of_getElem? hxk
    have hne : ¬ (x.2.fdType = k'.1 ∧ x.2.fd = k'.2) := by
      rintro ⟨ht, hd⟩
      have hkey : x.2.key = k' := Prod.ext ht hd
      exact hk' (hkey ▸ hxl)
    simp only [rest, delivered, hx, if_neg hne, and_self]

def Event.polls : Event α → Bool
  | .poll _ => true
  | _ => false

theorem round_spares (err : α → Int) {l l' : List (ItemType × Nat)} {k k' : ItemType × Nat}
    (d : α) (hl : keys s.workers = l ++ l') (hk : k ∈ l) (hk' : k' ∉ l) :
    ∃ s₁ s₂, step err s (.arrive k.1 k.2 [.error d]) = .ok s₁ ∧
      step err s₁ (.poll (.plain 1 d)) = .ok s₂ ∧ keys s₂.workers = l ++ l' ∧
      s₂.queues k'.1 k'.2 = s.queues k'.1 k'.2 ∧
      delivered err k'.1 k'.2 s₁ (.poll (.plain 1 d)) = [] := by
  let s₁ : Backlog α := { s with queues := fun t fd =>
    if k.1 = t ∧ k.2 = fd then s.queues t fd ++ [.error d] else s.queues t fd }
  have hf : (s₁.iterate err (.plain 1 d)).2.fault = none := iterate_ok fun _ => rfl
  let s₂ : Backlog α := ⟨(s₁.iterate err (.plain 1 d)).1, (s₁.iterate err (.plain 1 d)).2.event,
    s₁.rest err (.plain 1 d)⟩
  have hs₂ : step err s₁ (.poll (.plain 1 d)) = .ok s₂ := by simp only [step, hf, s₂]
  have hq : s₁.queues k.1 k.2 ≠ [] := by simp [s₁]
  obtain ⟨hqueue, hd⟩ := poll_spares (fun _ => Nat.one_pos) hs₂ hl hk hq hk'
  refine ⟨s₁, s₂, rfl, hs₂, iterate_keys.trans hl, hqueue.trans ?_, hd⟩
  refine if_neg ?_
  rintro ⟨ht, hfd⟩
  have hkey : k = k' := Prod.ext ht hfd
  exact hk' (hkey ▸ hk)

/-- The poller is not fair: entries that keep arriving in one queue make those of a later one wait
for any number of iterations. -/
theorem later_waits (err : α → Int) {l l' : List (ItemType × Nat)} {k k' : ItemType × Nat}
    (d : α) (hl : keys s.workers = l ++ l') (hk : k ∈ l) (hk' : k' ∉ l) (n : Nat) :
    ∃ h s', (machine err).Path s h s' ∧ h.countP (fun q => q.2.polls) = n ∧
      Machine.Guarded (fun _ e => ∀ u, e = .poll u → Turn.Eager u) h ∧
      keys s'.workers = keys s.workers ∧ s'.queues k'.1 k'.2 = s.queues k'.1 k'.2 ∧
      Machine.collect (delivered err k'.1 k'.2) h = [] := by
  induction n with
  | zero => exact ⟨[], s, .refl, rfl, Machine.guarded_nil _, rfl, rfl, rfl⟩
  | succ n ih =>
    obtain ⟨h, s', p, hn, hg, hkeys, hq, hd⟩ := ih
    obtain ⟨s₁, s₂, h₁, h₂, hl₂, hq₂, hd₂⟩ := round_spares err d (hkeys.trans hl) hk hk'
    have p₁ : (machine err).Path s ((s', .arrive k.1 k.2 [.error d]) :: h) s₁ := .step p rfl h₁
    have p₂ : (machine err).Path s ((s₁, .poll (.plain 1 d)) :: _ :: h) s₂ := .step p₁ rfl h₂
    refine ⟨_, s₂, p₂, ?_, ?_, hl₂.trans hl.symm, hq₂.trans hq, ?_⟩
    · rw [List.countP_cons_of_pos rfl, List.countP_cons_of_neg (by simp [Event.polls]), hn]
    · rw [Machine.guarded_cons, Machine.guarded_cons]
      refine ⟨?_, by simp, hg⟩
      rintro u he
      obtain rfl := Event.poll.inj he
      exact fun _ => Nat.one_pos
    · rw [Machine.collect_cons, Machine.collect_cons, hd, hd₂]
      rfl

end Waiting

def loaded : Backlog Nat := { pair with queues := fun t _ =>
  match t with
  | .cq => [.event 0 10, .event 0 11, .error 12]
  | .eq => [.event 7 20] }

theorem loaded_drains : ∃ h s, (machine Int.ofNat).Path loaded h s ∧ loaded.waiting = 4 ∧
    h.length = 4 ∧ ∀ x ∈ polled s.workers, s.queues x.2.fdType x.2.fd = [] := by
  have p₂ : (machine Int.ofNat).Path loaded _ _ :=
    .step (e := .poll (.plain 8 0)) (.step (e := .poll (.plain 8 0)) .refl rfl rfl) rfl rfl
  have p₄ : (machine Int.ofNat).Path loaded _ _ :=
    .step (e := .poll (.plain 8 0)) (.step (e := .poll (.plain 8 0)) p₂ rfl rfl) rfl rfl
  have hu : Turn.Eager (.plain 8 0 : Turn Nat) := fun _ => Nat.succ_pos 7
  refine ⟨_, _, p₄, rfl, rfl, polls_drain p₄ ?_ (Nat.le_refl 4)⟩
  simp only [Machine.guarded_cons, Machine.guarded_nil, and_true]
  exact ⟨⟨_, rfl, hu⟩, ⟨_, rfl, hu⟩, ⟨_, rfl, hu⟩, ⟨_, rfl, hu⟩⟩

theorem loaded_waits : ∃ h s, (machine Int.ofNat).Path loaded h s ∧
    h.countP (fun q => q.2.polls) = 100 ∧ s.queues .eq 5 = [.event 7 20] := by
  have hl : keys loaded.workers = [(.cq, 4)] ++ [(.eq, 5)] := rfl
  have hk' : ((.eq, 5) : ItemType × Nat) ∉ [((.cq, 4) : ItemType × Nat)] := by decide
  obtain ⟨h, s, p, hn, -, -, hq, -⟩ :=
    later_waits Int.ofNat 0 hl (List.mem_singleton.2 rfl) hk' 100
  exact ⟨h, s, p, hn, hq⟩

end Backlog

end OfiTransport.Ofiw.Dispatch
