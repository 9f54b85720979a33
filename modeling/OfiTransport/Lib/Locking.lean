import Mathlib.Data.List.Basic

/-! Code that takes and gives back locks.  A computation carries the locks that its thread
holds; to take one twice, or to give back one that is not held, ends it. -/

universe u

namespace OfiTransport.Lib

inductive Misuse (L : Type u)
  | relock (l : L)
  | notHeld (l : L)

abbrev Locking (L : Type u) : Type u → Type u := StateT (List L) (Except (Misuse L))

namespace Locking

variable {L : Type u} {α β : Type u} {held held₁ held₂ : List L} {l k : L}

/-- Started with the locks `held`, `x` misuses none, returns `a` and leaves `held₁`. -/
def Runs (x : Locking L α) (held : List L) (a : α) (held₁ : List L) : Prop :=
  x.run held = .ok (a, held₁)

theorem runs_pure (a : α) (held : List L) : Runs (pure a) held a held := rfl

theorem Runs.bind {x : Locking L α} {f : α → Locking L β} {a : α} {b : β}
    (h : Runs x held a held₁) (h' : Runs (f a) held₁ b held₂) : Runs (x >>= f) held b held₂ := by
  rw [Runs, StateT.run_bind, h]
  exact h'

theorem Runs.of_bind {x : Locking L α} {f : α → Locking L β} {a : α} {b : β}
    (h : Runs x held a held₁) (h' : Runs (x >>= f) held b held₂) : Runs (f a) held₁ b held₂ := by
  rw [Runs, StateT.run_bind, h] at h'
  exact h'

theorem Runs.head {x : Locking L α} {f : α → Locking L β} {b : β}
    (h : Runs (x >>= f) held b held₂) : ∃ a held₁, Runs x held a held₁ := by
  rw [Runs, StateT.run_bind] at h
  cases hx : x.run held with
  | error e =>
    rw [hx] at h
    cases h
  | ok r => exact ⟨r.1, r.2, hx⟩

section Locks

variable [DecidableEq L]

def lock (l : L) : Locking L PUnit := fun held =>
  if l ∈ held then .error (.relock l) else .ok (⟨⟩, l :: held)

def unlock (l : L) : Locking L PUnit := fun held =>
  if l ∈ held then .ok (⟨⟩, held.erase l) else .error (.notHeld l)

theorem runs_lock (h : l ∉ held) : Runs (lock l) held ⟨⟩ (l :: held) := by
  show lock l held = _
  rw [lock, if_neg h]

theorem runs_unlock (l : L) (held : List L) : Runs (unlock l) (l :: held) ⟨⟩ held := by
  show unlock l (l :: held) = _
  simp [unlock]

theorem runs_unlock_below (h : k ≠ l) : Runs (unlock l) (k :: l :: held) ⟨⟩ (k :: held) := by
  show unlock l (k :: l :: held) = _
  simp [unlock, h]

theorem not_runs_relock {f : PUnit → Locking L β} {b : β} (hl : l ∈ held) :
    ¬ Runs (lock l >>= f) held b held₁ := by
  have hlock : (lock l).run held = .error (.relock l) := by
    show lock l held = _
    rw [lock, if_pos hl]
  rw [Runs, StateT.run_bind, hlock]
  intro h
  cases h

end Locks

end Locking

end OfiTransport.Lib
