import Mathlib.Logic.Basic

/-! Machines fed with events.  The surroundings decide which events may arrive in a
state, the code decides what happens then, and a fault (an abort, a NULL dereference)
ends the run.  A run keeps its history, newest first, so that a statement can speak
about every step that was taken on the way. -/

universe u v w

namespace OfiTransport.Lib

structure Machine (σ : Type u) (ε : Type v) (φ : Type w) where
  init : σ → Prop
  enabled : σ → ε → Bool
  step : σ → ε → Except φ σ

namespace Machine

variable {σ : Type u} {ε : Type v} {φ : Type w}

inductive Run (M : Machine σ ε φ) : List (σ × ε) → σ → Prop
  | init : M.init s → Run M [] s
  | step : Run M h s → M.enabled s e = true → M.step s e = .ok s' → Run M ((s, e) :: h) s'

def Reachable (M : Machine σ ε φ) (s : σ) : Prop := ∃ h, Run M h s

/-- What may follow on the state `s`, with the history since then. -/
inductive Path (M : Machine σ ε φ) (s : σ) : List (σ × ε) → σ → Prop
  | refl : Path M s [] s
  | step : Path M s h s₁ → M.enabled s₁ e = true → M.step s₁ e = .ok s₂ →
      Path M s ((s₁, e) :: h) s₂

/-- `P` holds in the last state of a run and in every state it passed through. -/
def Always (P : σ → Prop) (h : List (σ × ε)) (s : σ) : Prop := P s ∧ ∀ p ∈ h, P p.1

/-- Every event of a run was delivered in a state that meets `C`. -/
def Guarded (C : σ → ε → Prop) (h : List (σ × ε)) : Prop := ∀ p ∈ h, C p.1 p.2

/-- Every event of a run is one that `C` admits after the history before it. -/
def Heeds (C : List (σ × ε) → ε → Prop) : List (σ × ε) → Prop
  | [] => True
  | p :: h => C h p.2 ∧ Heeds C h

@[simp] theorem always_nil (P : σ → Prop) (s : σ) : Always P ([] : List (σ × ε)) s ↔ P s := by
  simp [Always]

@[simp] theorem always_cons (P : σ → Prop) (p : σ × ε) (h : List (σ × ε)) (s : σ) :
    Always P (p :: h) s ↔ P s ∧ Always P h p.1 := by
  simp [Always]

@[simp] theorem guarded_nil (C : σ → ε → Prop) : Guarded C [] := by simp [Guarded]

@[simp] theorem guarded_cons (C : σ → ε → Prop) (p : σ × ε) (h : List (σ × ε)) :
    Guarded C (p :: h) ↔ C p.1 p.2 ∧ Guarded C h := by
  simp [Guarded]

@[simp] theorem guarded_append (C : σ → ε → Prop) (h h' : List (σ × ε)) :
    Guarded C (h' ++ h) ↔ Guarded C h' ∧ Guarded C h := by
  simp [Guarded, or_imp, forall_and]

theorem Always.mono {P Q : σ → Prop} {h : List (σ × ε)} {s : σ} (ha : Always P h s)
    (hpq : ∀ s, P s → Q s) : Always Q h s :=
  ⟨hpq s ha.1, fun p hp => hpq p.1 (ha.2 p hp)⟩

theorem Run.reachable {M : Machine σ ε φ} (r : Run M h s) : M.Reachable s := ⟨h, r⟩

theorem Reachable.step {M : Machine σ ε φ} (r : M.Reachable s) (he : M.enabled s e = true)
    (hs : M.step s e = .ok s') : M.Reachable s' := by
  obtain ⟨h, r⟩ := r
  exact ⟨_, .step r he hs⟩

theorem Path.trans {M : Machine σ ε φ} (p : Path M s h s₁) (q : Path M s₁ h' s₂) :
    Path M s (h' ++ h) s₂ := by
  induction q with
  | refl => exact p
  | step _ he hs ih => exact .step ih he hs

theorem Run.path {M : Machine σ ε φ} (r : Run M h s) (p : Path M s h' s') :
    Run M (h' ++ h) s' := by
  induction p with
  | refl => exact r
  | step _ he hs ih => exact .step ih he hs

theorem Reachable.path {M : Machine σ ε φ} (r : M.Reachable s) (p : Path M s h s') :
    M.Reachable s' := by
  induction p with
  | refl => exact r
  | step _ he hs ih => exact ih.step he hs

section Rules

variable {M : Machine σ ε φ} {I P : σ → Prop} {C : σ → ε → Prop}

theorem Run.invariant (hinit : ∀ s, M.init s → I s)
    (hstep : ∀ s e s', I s → M.enabled s e = true → M.step s e = .ok s' → I s')
    (r : Run M h s) : I s := by
  induction r with
  | init hi => exact hinit _ hi
  | step r he hs ih => exact hstep _ _ _ ih he hs

theorem Reachable.invariant (hinit : ∀ s, M.init s → I s)
    (hstep : ∀ s e s', I s → M.enabled s e = true → M.step s e = .ok s' → I s')
    (r : M.Reachable s) : I s := by
  obtain ⟨h, r⟩ := r
  exact r.invariant hinit hstep

theorem Run.always_of_guarded (hinit : ∀ s, M.init s → P s)
    (hstep : ∀ s e s', P s → C s e → M.enabled s e = true → M.step s e = .ok s' → P s')
    (r : Run M h s) (hg : Guarded C h) : Always P h s := by
  induction r with
  | init hi => simpa using hinit _ hi
  | step r he hs ih =>
    rw [guarded_cons] at hg
    rw [always_cons]
    have hp := ih hg.2
    exact ⟨hstep _ _ _ hp.1 hg.1 he hs, hp⟩

/-- A relation of the history to the state that the admitted steps keep. -/
theorem Run.invariant_of_heeds {I : List (σ × ε) → σ → Prop} {D : List (σ × ε) → ε → Prop}
    (hinit : ∀ s, M.init s → I [] s)
    (hstep : ∀ h s e s', Run M h s → I h s → D h e → M.enabled s e = true → M.step s e = .ok s' →
      I ((s, e) :: h) s')
    (r : Run M h s) (hd : Heeds D h) : I h s := by
  induction r with
  | init hi => exact hinit _ hi
  | step r he hs ih => exact hstep _ _ _ _ r (ih hd.2) hd.1 he hs

theorem Run.guarded_of_always (hinit : ∀ s, M.init s → I s)
    (hinv : ∀ s e s', I s → M.enabled s e = true → M.step s e = .ok s' → I s')
    (hstep : ∀ s e s', I s → M.enabled s e = true → M.step s e = .ok s' → P s' → C s e)
    (r : Run M h s) (ha : Always P h s) : Guarded C h := by
  induction r with
  | init hi => exact guarded_nil C
  | step r he hs ih =>
    rw [always_cons] at ha
    rw [guarded_cons]
    exact ⟨hstep _ _ _ (r.invariant hinit hinv) he hs ha.1, ih ha.2⟩

/-- A relation that the steps from good states establish between the state before and the
state after holds between both ends of a path made of such steps. -/
theorem Path.relates {R : σ → σ → Prop} (hrefl : ∀ s, R s s)
    (htrans : ∀ s₁ s₂ s₃, R s₁ s₂ → R s₂ s₃ → R s₁ s₃)
    (hstep : ∀ s e s', M.Reachable s → C s e → M.enabled s e = true → M.step s e = .ok s' → R s s')
    (r : M.Reachable s) (p : Path M s h s') (hg : Guarded C h) : R s s' := by
  induction p with
  | refl => exact hrefl s
  | step p he hs ih =>
    rw [guarded_cons] at hg
    exact htrans _ _ _ (ih hg.2) (hstep _ _ _ (r.path p) hg.1 he hs)

/-- Where no step raises a rank and the ones that `a` counts lower it, the rank bounds their
number. -/
theorem Path.count_add_le {a : σ → ε → Bool} (rank : σ → Nat)
    (hstep : ∀ s e s', I s → C s e → M.enabled s e = true → M.step s e = .ok s' →
      I s' ∧ rank s' + (if a s e then 1 else 0) ≤ rank s)
    (p : Path M s h s') (hg : Guarded C h) (hI : I s) :
    I s' ∧ rank s' + h.countP (fun q => a q.1 q.2) ≤ rank s := by
  induction p with
  | refl => exact ⟨hI, by simp⟩
  | @step h s₁ e s₂ p he hs ih =>
    rw [guarded_cons] at hg
    obtain ⟨hI₁, hn⟩ := ih hg.2
    obtain ⟨hI', hn'⟩ := hstep s₁ e s₂ hI₁ hg.1 he hs
    refine ⟨hI', ?_⟩
    simp only [List.countP_cons]
    omega

/-- When `C` decides, step by step, whether `P` survives, a run keeps `P` exactly when
all its steps meet `C`. -/
theorem Run.always_iff_guarded (hinit : ∀ s, M.init s → I s ∧ P s)
    (hinv : ∀ s e s', I s → M.enabled s e = true → M.step s e = .ok s' → I s')
    (hstep : ∀ s e s', I s → P s → M.enabled s e = true → M.step s e = .ok s' → (P s' ↔ C s e))
    (r : Run M h s) : Always P h s ↔ Guarded C h := by
  induction r with
  | init hi => simpa using (hinit _ hi).2
  | step r he hs ih =>
    have hI := r.invariant (fun s hs => (hinit s hs).1) hinv
    rw [always_cons, guarded_cons, ← ih]
    constructor
    · intro h
      exact ⟨(hstep _ _ _ hI h.2.1 he hs).1 h.1, h.2⟩
    · intro h
      exact ⟨(hstep _ _ _ hI h.2.1 he hs).2 h.1, h.2⟩

/-- Where steps that meet `C` keep the states good, and `P` and `C` agree on good states, they
agree on whole runs. -/
theorem Run.guarded_iff {P : σ → ε → Prop} (hinit : ∀ s, M.init s → I s)
    (hstep : ∀ s e s', M.Reachable s → I s → C s e → M.enabled s e = true → M.step s e = .ok s' →
      I s')
    (hiff : ∀ s e, M.Reachable s → I s → (P s e ↔ C s e)) (r : Run M h s) :
    Guarded P h ↔ Guarded C h := by
  have hI : ∀ {h s}, Run M h s → Guarded C h → I s := by
    intro h s r hc
    induction r with
    | init hi => exact hinit _ hi
    | step r he hs ih =>
      rw [guarded_cons] at hc
      exact hstep _ _ _ r.reachable (ih hc.2) hc.1 he hs
  induction r with
  | init hi => simp
  | step r he hs ih =>
    rw [guarded_cons, guarded_cons]
    constructor
    · rintro ⟨hp, hg⟩
      have hc := ih.1 hg
      exact ⟨(hiff _ _ r.reachable (hI r hc)).1 hp, hc⟩
    · rintro ⟨hp, hc⟩
      exact ⟨(hiff _ _ r.reachable (hI r hc)).2 hp, ih.2 hc⟩

end Rules

/-- Where every state without `P` has a step that lowers a rank, a path leads to `P`. -/
theorem exists_path {M : Machine σ ε φ} {C : σ → ε → Prop} {P : σ → Prop} {R : σ → σ → Prop}
    (rank : σ → Nat) (hrefl : ∀ s, R s s) (htrans : ∀ s t u, R s t → R t u → R s u)
    (hstep : ∀ s, ¬ P s → ∃ e s', M.enabled s e = true ∧ M.step s e = .ok s' ∧ C s e ∧ R s s' ∧
      rank s' < rank s) (s : σ) : ∃ h t, Path M s h t ∧ Guarded C h ∧ R s t ∧ P t := by
  by_cases hP : P s
  · exact ⟨[], s, .refl, guarded_nil C, hrefl s, hP⟩
  · obtain ⟨e, s', he, hs, hC, hR, _⟩ := hstep s hP
    obtain ⟨h, t, p, hg, hR', hP'⟩ := exists_path rank hrefl htrans hstep s'
    refine ⟨h ++ [(s, e)], t, (Path.step .refl he hs).trans p, ?_, htrans s s' t hR hR', hP'⟩
    rw [guarded_append, guarded_cons]
    exact ⟨hg, hC, guarded_nil C⟩
termination_by rank s

/-- Deliver the events of a list in order, up to the first fault. -/
def deliver (M : Machine σ ε φ) : σ → List ε → Except φ σ
  | s, [] => .ok s
  | s, e :: es =>
    match M.step s e with
    | .ok s' => M.deliver s' es
    | .error f => .error f

/-- The surroundings may send the events of a list, each when its turn comes. -/
def Admits (M : Machine σ ε φ) : σ → List ε → Prop
  | _, [] => True
  | s, e :: es => M.enabled s e = true ∧ ∀ s', M.step s e = .ok s' → M.Admits s' es

section Delivery

variable {M : Machine σ ε φ} {I : σ → Prop} {C : ε → Prop}

theorem Admits.of_prefix (h : M.Admits s es) (hp : pre <+: es) : M.Admits s pre := by
  induction pre generalizing s es with
  | nil => trivial
  | cons e pre ih =>
    obtain ⟨es', rfl⟩ := hp
    exact ⟨h.1, fun s' hs => ih (h.2 s' hs) (List.prefix_append pre es')⟩

theorem Admits.deliver (hstep : ∀ s e, I s → C e → M.enabled s e = true →
      ∃ s', M.step s e = .ok s' ∧ I s')
    (ha : M.Admits s es) (hc : ∀ e ∈ es, C e) (hs : I s) :
    ∃ s', M.deliver s es = .ok s' ∧ I s' := by
  induction es generalizing s with
  | nil => exact ⟨s, rfl, hs⟩
  | cons e es ih =>
    obtain ⟨s', hs', hi⟩ := hstep s e hs (hc e List.mem_cons_self) ha.1
    obtain ⟨t, ht, hit⟩ := ih (ha.2 s' hs') (fun d hd => hc d (List.mem_cons_of_mem e hd)) hi
    exact ⟨t, by simp only [Machine.deliver, hs', ht], hit⟩

theorem Admits.of_deliver (hstep : ∀ s e s', I s → M.enabled s e = true → M.step s e = .ok s' →
      C e ∧ I s')
    (ha : M.Admits s es) (hd : M.deliver s es = .ok t) (hs : I s) : ∀ e ∈ es, C e := by
  induction es generalizing s with
  | nil => simp
  | cons e es ih =>
    cases hs' : M.step s e with
    | error f => simp [Machine.deliver, hs'] at hd
    | ok s' =>
      simp only [Machine.deliver, hs'] at hd
      obtain ⟨hc, hi⟩ := hstep s e s' hs ha.1 hs'
      rw [List.forall_mem_cons]
      exact ⟨hc, ih (ha.2 s' hs') hd hi⟩

end Delivery

def exec (M : Machine σ ε φ) : σ → List ε → Option σ
  | s, [] => some s
  | s, e :: es =>
    if M.enabled s e then
      match M.step s e with
      | .ok s' => M.exec s' es
      | .error _ => none
    else none

theorem Admits.of_exec {M : Machine σ ε φ} (es : List ε)
    (h : (M.exec s es).map (fun t => M.enabled t e) = some true) : M.Admits s (es ++ [e]) := by
  induction es generalizing s with
  | nil =>
    simp only [Machine.exec, Option.map_some, Option.some.injEq] at h
    exact ⟨h, fun _ _ => trivial⟩
  | cons d es ih =>
    simp only [Machine.exec] at h
    split at h
    · next he =>
      split at h
      · next s₁ hs =>
        refine ⟨he, ?_⟩
        intro s' hs'
        rw [hs, Except.ok.injEq] at hs'
        exact hs' ▸ ih h
      · cases h
    · cases h

theorem Reachable.exec {M : Machine σ ε φ} (es : List ε) (r : M.Reachable s)
    (h : M.exec s es = some s') : M.Reachable s' := by
  induction es generalizing s with
  | nil =>
    simp only [Machine.exec, Option.some.injEq] at h
    exact h ▸ r
  | cons e es ih =>
    simp only [Machine.exec] at h
    split at h
    · next he =>
      split at h
      · next s₁ hs => exact ih (r.step he hs) h
      · cases h
    · cases h

theorem exists_reachable {M : Machine σ ε φ} (es : List ε) (p : σ → Bool) (hi : M.init s)
    (h : (M.exec s es).map p = some true) : ∃ s', M.Reachable s' ∧ p s' = true := by
  cases hr : M.exec s es with
  | none => simp [hr] at h
  | some s' =>
    rw [hr, Option.map_some, Option.some.injEq] at h
    exact ⟨s', Reachable.exec es ⟨[], .init hi⟩ hr, h⟩

def restrict (M : Machine σ ε φ) (c : σ → ε → Bool) : Machine σ ε φ :=
  { M with enabled := fun s e => M.enabled s e && c s e }

theorem Run.of_restrict {M : Machine σ ε φ} {c : σ → ε → Bool} (r : Run (M.restrict c) h s) :
    Run M h s ∧ Guarded (fun s e => c s e = true) h := by
  induction r with
  | init hi => exact ⟨.init hi, guarded_nil _⟩
  | step r he hs ih =>
    obtain ⟨he, hc⟩ := Bool.and_eq_true_iff.1 he
    rw [guarded_cons]
    exact ⟨.step ih.1 he hs, hc, ih.2⟩

theorem exists_guarded {M : Machine σ ε φ} {C : σ → ε → Prop} {c : σ → ε → Bool} (es : List ε)
    (p : σ → Bool) (hc : ∀ s e, c s e = true → C s e) (hi : M.init s)
    (h : ((M.restrict c).exec s es).map p = some true) :
    ∃ h' s', Run M h' s' ∧ Guarded C h' ∧ p s' = true := by
  obtain ⟨s', ⟨h', r⟩, hp⟩ := exists_reachable (M := M.restrict c) es p hi h
  obtain ⟨r, hg⟩ := r.of_restrict
  exact ⟨h', s', r, fun q hq => hc _ _ (hg q hq), hp⟩

/-- The machine with its history in the state, fed with what `d` lets through after it. -/
def recorded (M : Machine σ ε φ) (d : List (σ × ε) → ε → Bool) :
    Machine (List (σ × ε) × σ) ε φ where
  init q := q.1 = [] ∧ M.init q.2
  enabled q e := M.enabled q.2 e && d q.1 e
  step q e := (M.step q.2 e).map (fun s => ((q.2, e) :: q.1, s))

theorem Reachable.of_recorded {M : Machine σ ε φ} {d : List (σ × ε) → ε → Bool}
    {q : List (σ × ε) × σ} (r : (M.recorded d).Reachable q) :
    Run M q.1 q.2 ∧ Heeds (fun h e => d h e = true) q.1 := by
  refine r.invariant (I := fun q => Run M q.1 q.2 ∧ Heeds (fun h e => d h e = true) q.1) ?_ ?_
  · rintro ⟨h, s⟩ ⟨rfl, hi⟩
    exact ⟨.init hi, trivial⟩
  · rintro ⟨h, s⟩ e q' ⟨r, hh⟩ he hs
    obtain ⟨he, hd⟩ := Bool.and_eq_true_iff.1 he
    cases hs' : M.step s e with
    | error f =>
      simp only [recorded, hs', Except.map] at hs
      cases hs
    | ok s' =>
      simp only [recorded, hs', Except.map, Except.ok.injEq] at hs
      subst hs
      exact ⟨.step r he hs', hd, hh⟩

theorem Heeds.mono {D D' : List (σ × ε) → ε → Prop} {h : List (σ × ε)} (hd : Heeds D h)
    (hD : ∀ h e, D h e → D' h e) : Heeds D' h := by
  induction h with
  | nil => trivial
  | cons q h ih => exact ⟨hD h q.2 hd.1, ih hd.2⟩

theorem exists_heeds {M : Machine σ ε φ} {D : List (σ × ε) → ε → Prop}
    {d : List (σ × ε) → ε → Bool} (es : List ε) (p : σ → Bool)
    (hd : ∀ h e, d h e = true → D h e) (hi : M.init s)
    (h : ((M.recorded d).exec ([], s) es).map (fun q => p q.2) = some true) :
    ∃ h' s', Run M h' s' ∧ Heeds D h' ∧ p s' = true := by
  obtain ⟨⟨h', s'⟩, r, hp⟩ := exists_reachable (M := M.recorded d) es (fun q => p q.2)
    ⟨rfl, hi⟩ h
  obtain ⟨r, hh⟩ := r.of_recorded
  exact ⟨h', s', r, hh.mono hd, hp⟩

end Machine

end OfiTransport.Lib
