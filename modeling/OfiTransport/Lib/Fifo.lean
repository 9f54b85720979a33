import OfiTransport.Lib.Machine
import Mathlib.Data.List.Basic

/-! Queues inside a machine.  Every step may put elements in at one end, take some out at the
other, or give the queue up for good. -/

universe u v w x

namespace OfiTransport.Lib.Machine

variable {σ : Type u} {ε : Type v} {φ : Type w} {α : Type x}

def collect (f : σ → ε → List α) : List (σ × ε) → List α
  | [] => []
  | p :: h => collect f h ++ f p.1 p.2

@[simp] theorem collect_nil (f : σ → ε → List α) : collect f [] = [] := rfl

@[simp] theorem collect_cons (f : σ → ε → List α) (p : σ × ε) (h : List (σ × ε)) :
    collect f (p :: h) = collect f h ++ f p.1 p.2 := rfl

/-- The queue of a machine: what the steps put in and take out, what is in it in a state,
and whether it has not been given up yet. -/
structure Fifo (M : Machine σ ε φ) (α : Type x) where
  input : σ → ε → List α
  output : σ → ε → List α
  queue : σ → List α
  kept : σ → Prop

namespace Fifo

variable {M : Machine σ ε φ}

/-- The steps from good states respect the order of the queue. -/
structure Ordered (q : Fifo M α) (I : σ → Prop) : Prop where
  init : ∀ s, M.init s → I s ∧ q.queue s = []
  invariant : ∀ s e s', I s → M.enabled s e = true → M.step s e = .ok s' → I s'
  kept : ∀ s e s', I s → M.enabled s e = true → M.step s e = .ok s' → q.kept s' →
    q.kept s ∧ q.output s e ++ q.queue s' = q.queue s ++ q.input s e
  taken : ∀ s e s', I s → M.enabled s e = true → M.step s e = .ok s' → q.kept s →
    q.output s e <+: q.queue s ++ q.input s e
  given_up : ∀ s e s', I s → M.enabled s e = true → M.step s e = .ok s' → ¬ q.kept s →
    q.output s e = []

/-- What has come out of a queue is the beginning of what was put in, and the rest is what
the queue holds, as long as it is kept. -/
theorem Ordered.run {q : Fifo M α} {I : σ → Prop} (ho : q.Ordered I) (r : Run M h s) :
    collect q.output h <+: collect q.input h ∧
      (q.kept s → collect q.output h ++ q.queue s = collect q.input h) := by
  induction r with
  | init hi => exact ⟨List.nil_prefix, fun _ => (ho.init _ hi).2⟩
  | @step h s e s' r he hs ih =>
    have hI := r.invariant (fun s hs => (ho.init s hs).1) ho.invariant
    obtain ⟨hp, hq⟩ := ih
    rw [collect_cons, collect_cons]
    constructor
    · by_cases hk : q.kept s
      · rw [← hq hk, List.append_assoc]
        exact (List.prefix_append_right_inj _).2 (ho.taken s e s' hI he hs hk)
      · rw [ho.given_up s e s' hI he hs hk, List.append_nil]
        exact hp.trans (List.prefix_append ..)
    · intro hk'
      obtain ⟨hk, hout⟩ := ho.kept s e s' hI he hs hk'
      rw [List.append_assoc, hout, ← List.append_assoc, hq hk]

end Fifo

/-- A queue whose end may be cut off, after which nothing that is put in gets into it. -/
structure Channel (M : Machine σ ε φ) (α : Type x) where
  input : σ → ε → List α
  output : σ → ε → List α
  pending : σ → List α
  whole : σ → Prop

namespace Channel

variable {M : Machine σ ε φ}

/-- The steps from good states take out of the channel from the front only. -/
structure Ordered (q : Channel M α) (I : σ → Prop) : Prop where
  init : ∀ s, M.init s → I s ∧ q.pending s = []
  invariant : ∀ s e s', I s → M.enabled s e = true → M.step s e = .ok s' → I s'
  whole : ∀ s e s', I s → M.enabled s e = true → M.step s e = .ok s' → q.whole s' →
    q.whole s ∧ q.output s e ++ q.pending s' = q.pending s ++ q.input s e
  cut : ∀ s e s', I s → M.enabled s e = true → M.step s e = .ok s' → ¬ q.whole s' →
    q.output s e ++ q.pending s' <+: q.pending s

/-- What came out and what is still to come are the beginning of what was put in, and all of
it while the channel is whole. -/
theorem Ordered.run {q : Channel M α} {I : σ → Prop} (ho : q.Ordered I) (r : Run M h s) :
    collect q.output h ++ q.pending s <+: collect q.input h ∧
      (q.whole s → collect q.output h ++ q.pending s = collect q.input h) := by
  induction r with
  | init hi =>
    rw [(ho.init _ hi).2]
    exact ⟨List.nil_prefix, fun _ => rfl⟩
  | @step h s e s' r he hs ih =>
    have hI := r.invariant (fun s hs => (ho.init s hs).1) ho.invariant
    obtain ⟨hp, hq⟩ := ih
    rw [collect_cons, collect_cons, List.append_assoc]
    have keeps (hw : q.whole s') : collect q.output h ++ (q.output s e ++ q.pending s') =
        collect q.input h ++ q.input s e := by
      obtain ⟨hw, hout⟩ := ho.whole s e s' hI he hs hw
      rw [hout, ← List.append_assoc, hq hw]
    refine ⟨?_, keeps⟩
    by_cases hw : q.whole s'
    · simp only [keeps hw, List.prefix_rfl]
    · have hc := (List.prefix_append_right_inj (collect q.output h)).2 (ho.cut s e s' hI he hs hw)
      exact (hc.trans hp).trans (List.prefix_append ..)

end Channel

end OfiTransport.Lib.Machine
