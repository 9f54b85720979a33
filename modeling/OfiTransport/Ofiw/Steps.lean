import OfiTransport.Ofiw.Defs

/-! What one step can do to the pool: the poller inside its iteration, and the frames of the
other steps. -/

namespace OfiTransport.Ofiw

open Lib

section Fields

variable (s : Pool) (w t : Nat)

@[simp] theorem Pool.setPoller_poller (p : Poller) : (s.setPoller p).poller = p := rfl

@[simp] theorem Pool.setThread_self (p : Thread) : (s.setThread t p).threads t = p := by
  simp [setThread]

@[simp] theorem Pool.modifyWorker_self (f : Worker → Worker) :
    (s.modifyWorker w f).worker w = f (s.worker w) := by
  simp [modifyWorker]

theorem Pool.modifyWorker_other {w' : Nat} (f : Worker → Worker) (h : w' ≠ w) :
    (s.modifyWorker w f).worker w' = s.worker w' := by
  simp [modifyWorker, h]

theorem moved_cases {f : Nat → Thread} {t t' : Nat} {x y : Thread}
    (h : Function.update f t x t' = y) : t' = t ∧ x = y ∨ t' ≠ t ∧ f t' = y := by
  rw [Function.update_apply] at h
  split at h
  · next ht => exact .inl ⟨ht, h⟩
  · next ht => exact .inr ⟨ht, h⟩

end Fields

inductive Iterates (s : Pool) : Option Nat → Iterate → Pool → Prop
  | leave (hp : p = .check w ∨ p = .recheck w ∨ ∃ it, p = .read w it) (o x : Option Nat) :
      Iterates s o p (s.atWorker x)
  | skip (hw : w ∈ s.workers) (h : (s.worker w).active < 2) :
      Iterates s o (.check w) (s.setPoller (.iterate (.recheck w)))
  | visit (hw : w ∈ s.workers) (h : 2 ≤ (s.worker w).active) :
      Iterates s o (.check w) (s.setPoller (.iterate (.read w it)))
  | asked (hw : w ∈ s.workers) (h : (s.worker w).active = 1) :
      Iterates s o (.recheck w) (s.setPoller (.iterate (.signalSync w)))
  | signal (hw : w ∈ s.workers) (x : Option Nat) :
      Iterates s o (.signalSync w)
        ((s.modifyWorker w (fun x => { x with efdSync := true })).atWorker x)
  | nothing (hw : w ∈ s.workers) :
      Iterates s none (.read w it) (s.setPoller (.iterate (.read w it')))
  | found (hw : w ∈ s.workers) :
      Iterates s (some n) (.read w it) (s.setPoller (.iterate (.setSafe w it n)))
  | setSafe : Iterates s o (.setSafe w it n)
      ({ s with lockSafe := true }.setPoller (.iterate (.ctxEnter w it n)))
  | ctxEnter (hw : w ∈ s.workers) : Iterates s o (.ctxEnter w it n)
      ((s.setCtx (s.worker w).ctx (some .poller)).setPoller (.iterate (.feed w it n)))
  | feed (hw : w ∈ s.workers) :
      Iterates s o (.feed w it n) (s.setPoller (.iterate (.handle w it n)))
  | more : Iterates s o (.handle w it (n + 1)) (s.setPoller (.iterate (.feed w it n)))
  | last : Iterates s o (.handle w it 0) (s.setPoller (.iterate (.ctxLeave w)))
  | ctxLeave (hw : w ∈ s.workers) : Iterates s o (.ctxLeave w)
      ((s.setCtx (s.worker w).ctx none).setPoller (.iterate .clearSafe))
  | clearSafe : Iterates s o .clearSafe ({ s with lockSafe := false }.setPoller .top)

section Inversion

variable {s s' : Pool} {w : Nat}

theorem bind_eq_ok {α β : Type} {x : Except Fault α} {f : α → Except Fault β} {b : β} :
    x >>= f = .ok b ↔ ∃ a, x = .ok a ∧ f a = .ok b := by
  cases x with
  | error e => simp [bind, Except.bind]
  | ok a => simp [bind, Except.bind]

theorem use_eq_ok {r : Except Fault Pool} :
    s.use w r = .ok s' ↔ w ∈ s.workers ∧ r = .ok s' := by
  simp only [Pool.use]
  split <;> simp [*]

theorem useItem_eq_ok {it : Item} {r : Except Fault Pool} :
    s.useItem w it r = .ok s' ↔ (w ∈ s.workers ∧ it ∈ (s.worker w).items) ∧ r = .ok s' := by
  simp only [Pool.useItem]
  split <;> simp [*]

theorem atItem_cases {o : Option Item} (h : s.atItem w o = .ok s') :
    (∃ x, s' = s.atWorker x) ∨ ∃ it, s' = s.setPoller (.iterate (.read w it)) := by
  cases o with
  | none =>
    simp only [Pool.atItem, bind_eq_ok] at h
    obtain ⟨x, _, h⟩ := h
    cases h
    exact .inl ⟨x, rfl⟩
  | some it =>
    cases h
    exact .inr ⟨it, rfl⟩

theorem atWorker_of_atItem (h : s.atItem w none = .ok s') : ∃ x, s' = s.atWorker x := by
  simp only [Pool.atItem, bind_eq_ok] at h
  obtain ⟨x, _, h⟩ := h
  cases h
  exact ⟨x, rfl⟩

theorem iterate_iterates {o : Option Nat} {p : Iterate} (h : s.iterate o p = .ok s') :
    Iterates s o p s' := by
  cases p with
  | check w =>
    obtain ⟨hw, h⟩ := use_eq_ok.1 h
    split at h
    · next ha =>
      cases h
      exact .skip hw ha
    · next ha =>
      rcases atItem_cases h with ⟨x, rfl⟩ | ⟨it, rfl⟩
      · exact .leave (.inl rfl) o x
      · exact .visit hw (by omega)
  | recheck w =>
    obtain ⟨hw, h⟩ := use_eq_ok.1 h
    split at h
    · next ha =>
      cases h
      exact .asked hw ha
    · obtain ⟨x, rfl⟩ := atWorker_of_atItem h
      exact .leave (.inr (.inl rfl)) o x
  | signalSync w =>
    obtain ⟨hw, h⟩ := use_eq_ok.1 h
    obtain ⟨x, rfl⟩ := atWorker_of_atItem h
    exact .signal hw x
  | read w it =>
    obtain ⟨⟨hw, _⟩, h⟩ := useItem_eq_ok.1 h
    cases o with
    | none =>
      simp only [bind_eq_ok] at h
      obtain ⟨y, _, h⟩ := h
      rcases atItem_cases h with ⟨x, rfl⟩ | ⟨it', rfl⟩
      · exact .leave (.inr (.inr ⟨it, rfl⟩)) none x
      · exact .nothing hw
    | some n =>
      cases h
      exact .found hw
  | setSafe w it n =>
    cases h
    exact .setSafe
  | ctxEnter w it n =>
    obtain ⟨hw, h⟩ := use_eq_ok.1 h
    cases h
    exact .ctxEnter hw
  | feed w it n =>
    obtain ⟨⟨hw, _⟩, h⟩ := useItem_eq_ok.1 h
    cases h
    exact .feed hw
  | handle w it n =>
    cases n with
    | zero =>
      cases h
      exact .last
    | succ n =>
      cases h
      exact .more
  | ctxLeave w =>
    obtain ⟨hw, h⟩ := use_eq_ok.1 h
    cases h
    exact .ctxLeave hw
  | clearSafe =>
    cases h
    exact .clearSafe

end Inversion

end OfiTransport.Ofiw
