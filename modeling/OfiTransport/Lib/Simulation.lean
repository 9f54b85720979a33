import OfiTransport.Lib.Machine

/-! Forward simulation between machines.  A step of the one may be matched by several steps of
the other, or by none. -/

universe u v w x y z

namespace OfiTransport.Lib.Machine

variable {σ : Type u} {ε : Type v} {φ : Type w} {τ : Type x} {δ : Type y} {ψ : Type z}

structure Simulates (M : Machine σ ε φ) (N : Machine τ δ ψ) (R : σ → τ → Prop) : Prop where
  init : ∀ s, M.init s → ∃ t, N.init t ∧ R s t
  step : ∀ s e s' t, N.Reachable t → R s t → M.enabled s e = true → M.step s e = .ok s' →
    ∃ h t', Path N t h t' ∧ R s' t'

variable {M : Machine σ ε φ} {N : Machine τ δ ψ} {R : σ → τ → Prop}

theorem Path.single {t t' : τ} {d : δ} (he : N.enabled t d = true) (hs : N.step t d = .ok t') :
    Path N t [(t, d)] t' :=
  .step .refl he hs

theorem Simulates.reachable (hsim : Simulates M N R) (r : M.Reachable s) :
    ∃ t, N.Reachable t ∧ R s t := by
  obtain ⟨h, r⟩ := r
  induction r with
  | init hi =>
    obtain ⟨t, ht, hR⟩ := hsim.init _ hi
    exact ⟨t, ⟨[], .init ht⟩, hR⟩
  | step _ he hs ih =>
    obtain ⟨t, rt, hR⟩ := ih
    obtain ⟨_, t', p, hR'⟩ := hsim.step _ _ _ t rt hR he hs
    exact ⟨t', rt.path p, hR'⟩

end OfiTransport.Lib.Machine
