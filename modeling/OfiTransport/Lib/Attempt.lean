import Mathlib.Algebra.Notation.Defs
import Mathlib.Order.Defs.Unbundled

/-! Code that is left at the first call that fails.  What was done to the state up to there
stays done, unless the exit takes it back. -/

universe u

namespace OfiTransport.Lib

abbrev Attempt (ε σ : Type u) : Type u → Type u := ExceptT ε (StateM σ)

namespace Attempt

variable {ε σ α β : Type u}

/-- Started in `s`, `x` ends with the result `r` and leaves `t`. -/
def Ends (x : Attempt ε σ α) (s : σ) (r : Except ε α) (t : σ) : Prop :=
  x.run.run s = (r, t)

def check [Zero ε] [DecidableEq ε] (ret : ε) : Attempt ε σ PUnit :=
  if ret ≠ 0 then throw ret else pure ⟨⟩

/-- What is done before an error of `x` is returned on. -/
def leaving (exit : σ → σ) (x : Attempt ε σ α) : Attempt ε σ α :=
  tryCatch x fun e => do
    modify exit
    throw e

def act (f : σ → α × σ) : Attempt ε σ α := fun s => (.ok (f s).1, (f s).2)

section Ends

variable {x : Attempt ε σ α} {f : α → Attempt ε σ β} {s t : σ}

theorem exists_ends (x : Attempt ε σ α) (s : σ) : ∃ r t, Ends x s r t :=
  ⟨_, _, rfl⟩

theorem Ends.unique {r r' : Except ε α} {t' : σ} (h : Ends x s r t) (h' : Ends x s r' t') :
    r = r' ∧ t = t' := by
  rw [Ends, h] at h'
  exact Prod.mk.inj h'

theorem ends_pure (a : α) (s : σ) : Ends (pure a : Attempt ε σ α) s (.ok a) s := rfl

theorem ends_act (g : σ → α × σ) (s : σ) :
    Ends (act g : Attempt ε σ α) s (.ok (g s).1) (g s).2 := rfl

theorem Ends.bind {a : α} {r : Except ε β} {u : σ} (h : Ends x s (.ok a) t)
    (h' : Ends (f a) t r u) : Ends (x >>= f) s r u := by
  rw [Ends, ExceptT.run_bind, StateT.run_bind, h]
  exact h'

theorem Ends.bind_error {e : ε} (h : Ends x s (.error e) t) :
    Ends (x >>= f) s (.error e) t := by
  rw [Ends, ExceptT.run_bind, StateT.run_bind, h]
  rfl

theorem Ends.of_bind {a : α} {r : Except ε β} {u : σ} (h : Ends x s (.ok a) t)
    (h' : Ends (x >>= f) s r u) : Ends (f a) t r u := by
  rw [Ends, ExceptT.run_bind, StateT.run_bind, h] at h'
  exact h'

theorem Ends.cases {r : Except ε β} {u : σ} (h : Ends (x >>= f) s r u) :
    (∃ a t, Ends x s (.ok a) t ∧ Ends (f a) t r u) ∨
      ∃ e, Ends x s (.error e) u ∧ r = .error e := by
  obtain ⟨r', t, hx⟩ := exists_ends x s
  cases r' with
  | ok a => exact .inl ⟨a, t, hx, hx.of_bind h⟩
  | error e =>
    obtain ⟨rfl, rfl⟩ := h.unique hx.bind_error
    exact .inr ⟨e, hx, rfl⟩

theorem Ends.leaving {exit : σ → σ} {a : α} (h : Ends x s (.ok a) t) :
    Ends (leaving exit x) s (.ok a) t := by
  show (tryCatch x _ : Attempt ε σ α).run.run s = _
  rw [ExceptT.run_tryCatch, StateT.run_bind, h]
  rfl

theorem Ends.leaving_error {exit : σ → σ} {e : ε} (h : Ends x s (.error e) t) :
    Ends (Attempt.leaving exit x) s (.error e) (exit t) := by
  show (tryCatch x _ : Attempt ε σ α).run.run s = _
  rw [ExceptT.run_tryCatch, StateT.run_bind, h]
  rfl

section Check

variable [Zero ε] [DecidableEq ε] {ret : ε}

theorem ends_check (s : σ) (h : ret = 0) : Ends (check ret) s (.ok PUnit.unit) s := by
  rw [check, if_neg (by simpa using h)]
  exact ends_pure PUnit.unit s

theorem ends_check_error (s : σ) (h : ret ≠ 0) : Ends (check ret) s (.error ret) s := by
  rw [check, if_pos h]
  rfl

end Check

end Ends

/-! What a computation can do to the state, whether it fails or not. -/

def Within (R : σ → σ → Prop) (x : Attempt ε σ α) : Prop :=
  ∀ s r t, Ends x s r t → R s t

section Within

variable {R : σ → σ → Prop} {x : Attempt ε σ α} {f : α → Attempt ε σ β}

theorem within_pure [Std.Refl R] (a : α) : Within R (pure a : Attempt ε σ α) := by
  intro s r t h
  obtain ⟨-, rfl⟩ := h.unique (ends_pure a s)
  exact refl t

theorem within_act {g : σ → α × σ} (h : ∀ s, R s (g s).2) :
    Within R (act g : Attempt ε σ α) := by
  intro s r t ht
  obtain ⟨-, rfl⟩ := ht.unique (ends_act g s)
  exact h s

theorem within_check [Zero ε] [DecidableEq ε] [Std.Refl R] (ret : ε) :
    Within R (check ret) := by
  intro s r t ht
  by_cases hr : ret = 0
  · obtain ⟨-, rfl⟩ := ht.unique (ends_check s hr)
    exact refl t
  · obtain ⟨-, rfl⟩ := ht.unique (ends_check_error s hr)
    exact refl t

theorem Within.leaving [IsTrans σ R] {exit : σ → σ} (hx : Within R x) (he : ∀ s, R s (exit s)) :
    Within R (leaving exit x) := by
  intro s r t ht
  obtain ⟨r', u, h⟩ := exists_ends x s
  cases r' with
  | ok a =>
    obtain ⟨-, rfl⟩ := ht.unique h.leaving
    exact hx s _ t h
  | error e =>
    obtain ⟨-, rfl⟩ := ht.unique h.leaving_error
    exact trans_of R (hx s _ u h) (he u)

theorem Within.bind [IsTrans σ R] (hx : Within R x) (hf : ∀ a, Within R (f a)) :
    Within R (x >>= f) := by
  intro s r t h
  obtain ⟨a, u, h₁, h₂⟩ | ⟨e, h, -⟩ := h.cases
  · exact trans_of R (hx s _ u h₁) (hf a u r t h₂)
  · exact hx s _ t h

theorem Within.of_bind {a : α} {r : Except ε β} {s t u : σ} (hx : Ends x s (.ok a) t)
    (h : Ends (x >>= f) s r u) (hf : Within R (f a)) : R t u :=
  hf t r u (hx.of_bind h)

end Within

/-! The error that is returned, where it does not depend on the state. -/

/-- Every run of `x` ends with the error `ret`, or well if that is zero. -/
def Returns [Zero ε] [DecidableEq ε] (ret : ε) (x : Attempt ε σ α) : Prop :=
  ∀ s r t, Ends x s r t → ret = 0 ∧ (∃ a, r = .ok a) ∨ ret ≠ 0 ∧ r = .error ret

section Returns

variable [Zero ε] [DecidableEq ε] {ret ret' : ε} {x : Attempt ε σ α} {f : α → Attempt ε σ β}

theorem returns_pure (a : α) : Returns 0 (pure a : Attempt ε σ α) := by
  intro s r t h
  exact .inl ⟨rfl, a, (h.unique (ends_pure a s)).1⟩

theorem returns_act (g : σ → α × σ) : Returns 0 (act g : Attempt ε σ α) := by
  intro s r t h
  exact .inl ⟨rfl, _, (h.unique (ends_act g s)).1⟩

theorem returns_check (ret : ε) : Returns ret (check ret : Attempt ε σ PUnit) := by
  intro s r t h
  by_cases hr : ret = 0
  · exact .inl ⟨hr, _, (h.unique (ends_check s hr)).1⟩
  · exact .inr ⟨hr, (h.unique (ends_check_error s hr)).1⟩

theorem Returns.leaving {exit : σ → σ} (hx : Returns ret x) :
    Returns ret (leaving exit x) := by
  intro s r t h
  obtain ⟨r', u, h'⟩ := exists_ends x s
  have := hx s r' u h'
  cases r' with
  | ok a => rwa [(h.unique h'.leaving).1]
  | error e => rwa [(h.unique h'.leaving_error).1]

theorem Returns.bind (hx : Returns ret x) (hf : ∀ a, Returns ret' (f a)) :
    Returns (if ret ≠ 0 then ret else ret') (x >>= f) := by
  intro s r t h
  obtain ⟨a, u, h₁, h₂⟩ | ⟨e, h₁, rfl⟩ := h.cases
  · obtain ⟨hr, -⟩ | ⟨-, he⟩ := hx s _ u h₁
    · rw [if_neg (by simpa using hr)]
      exact hf a u r t h₂
    · cases he
  · obtain ⟨-, a, he⟩ | ⟨hr, he⟩ := hx s _ t h₁
    · cases he
    · cases he
      exact .inr ⟨by rwa [if_pos hr], by rw [if_pos hr]⟩

theorem Returns.bind_zero (hx : Returns 0 x) (hf : ∀ a, Returns ret (f a)) :
    Returns ret (x >>= f) := by
  have := hx.bind hf
  rwa [if_neg (by simp)] at this

theorem Returns.bind_safe (hx : Returns ret x) (hf : ∀ a, Returns 0 (f a)) :
    Returns ret (x >>= f) := by
  have := hx.bind hf
  by_cases hr : ret = 0
  · rwa [if_neg (by simpa using hr), ← hr] at this
  · rwa [if_pos hr] at this

theorem Returns.exists_error (hx : Returns ret x) (h : ret ≠ 0) (s : σ) :
    ∃ t, Ends x s (.error ret) t := by
  obtain ⟨r, t, hr⟩ := exists_ends x s
  obtain ⟨hz, -⟩ | ⟨-, rfl⟩ := hx s r t hr
  · exact absurd hz h
  · exact ⟨t, hr⟩

theorem Returns.ne_zero {s t : σ} {e : ε} (hx : Returns ret x) (h : Ends x s (.error e) t) :
    ret ≠ 0 := by
  obtain ⟨-, a, h⟩ | ⟨hr, -⟩ := hx s _ t h
  · cases h
  · exact hr

end Returns

end Attempt

end OfiTransport.Lib
