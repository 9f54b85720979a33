import OfiTransport.Ofiw.Stop

/-! Threads that stop a worker from inside the context of its owner. -/

namespace OfiTransport.Ofiw

open Lib

def Poller.awaits : Poller → Option Nat
  | .iterate (.setSafe w _ _) | .iterate (.ctxEnter w _ _) => some w
  | _ => none

/-- The thread `t` waits for the poller, inside the context of the worker that it stops. -/
structure Waits (s : Pool) (t w : Nat) : Prop where
  waiting : s.threads t = .stop .wait w
  unsignalled : (s.worker w).efdSync = false
  inside : s.ctxs (s.worker w).ctx = some (.thread t)

/-- The poller does not wait for the context of a thread that waits for the poller. -/
def NoDeadlock (s : Pool) : Prop :=
  ∀ t w, Waits s t w → ∀ w' it n, s.poller = .iterate (.ctxEnter w' it n) →
    (s.worker w').ctx ≠ (s.worker w).ctx

/-- No thread starts to wait inside a context that the poller is about to enter, and the poller
finds no events for a context inside which a thread waits. -/
def NoCrossing (s : Pool) : Event → Prop
  | .thread t => ∀ w, s.threads t = .stop .ask w → (s.worker w).efdSync = false →
    s.ctxs (s.worker w).ctx = some (.thread t) →
    ∀ w', s.poller.awaits = some w' → (s.worker w').ctx ≠ (s.worker w).ctx
  | .poll (some _) => ∀ w' it, s.poller = .iterate (.read w' it) →
    ∀ t w, Waits s t w → (s.worker w').ctx ≠ (s.worker w).ctx
  | _ => True

def Apart (s : Pool) : Prop :=
  ∀ t w, Waits s t w → ∀ w', s.poller.awaits = some w' → (s.worker w').ctx ≠ (s.worker w).ctx

variable {s s' : Pool} {e : Event} {t w : Nat}

theorem awaits_uses {p : Poller} (h : p.awaits = some w) : p.uses = some w := by
  cases p with
  | iterate p => cases p <;> first | exact h | cases h
  | _ => cases h

theorem Apart.noDeadlock (h : Apart s) : NoDeadlock s := by
  intro t w hw w' it n hp
  exact h t w hw w' (by rw [hp]; rfl)

theorem Iterates.awaits {o : Option Nat} {p : Iterate} (hp : s.poller = .iterate p)
    (h : Iterates s o p s') (hw : s'.poller.awaits = some w) :
    s.poller.awaits = some w ∨ ∃ it n, s.poller = .iterate (.read w it) ∧ o = some n := by
  cases h with
  | leave _ _ x | signal _ x => cases (position_uses x).symm.trans (awaits_uses hw)
  | found =>
    cases hw
    exact .inr ⟨_, _, hp, rfl⟩
  | setSafe =>
    rw [hp]
    exact .inl hw
  | _ => cases hw

theorem step_awaits {o : Option Nat} (h : step s (.poll o) = .ok s')
    (hw : s'.poller.awaits = some w) :
    s.poller.awaits = some w ∨ ∃ it n, s.poller = .iterate (.read w it) ∧ o = some n := by
  simp only [step, Pool.poll] at h
  split at h
  · split at h <;> cases h
    · cases hw
    · cases (position_uses _).symm.trans (awaits_uses hw)
  · cases h
    cases hw
  · cases h
    cases hw
  · cases h
    cases (position_uses _).symm.trans (awaits_uses hw)
  · next p hp => exact (iterate_iterates h).awaits hp hw

theorem Apart.frame (h : Apart s)
    (hw : ∀ t w, Waits s' t w → Waits s t w ∧ (s'.worker w).ctx = (s.worker w).ctx)
    (hp : ∀ w, s'.poller.awaits = some w →
      s.poller.awaits = some w ∧ (s'.worker w).ctx = (s.worker w).ctx) : Apart s' := by
  intro t w h' w' ha
  obtain ⟨h', hctx⟩ := hw t w h'
  obtain ⟨ha, hctx'⟩ := hp w' ha
  rw [hctx, hctx']
  exact h t w h' w' ha

theorem Aside.apart (h : Aside s s') (hc : Called s) (ha : Apart s) : Apart s' := by
  refine ha.frame (fun t w hw => ?_) (fun w hw => ?_)
  · have ht := (h.threads t _ w).1 hw.waiting
    have hl := h.like (hc.stopping ht)
    refine ⟨⟨ht, hl.efdSync.symm.trans hw.unsignalled, ?_⟩, hl.ctx⟩
    have hin := hw.inside
    rw [hl.ctx] at hin
    rcases h.ctxs _ t hin with hin | hidle
    · exact hin
    · cases hidle.symm.trans ht
  · rw [h.poller] at hw
    exact ⟨hw, (h.like (hc.used w (awaits_uses hw))).ctx⟩

theorem Apart.modify {f : Worker → Worker} (ha : Apart s)
    (hs : ∀ x : Worker, (f x).efdSync = x.efdSync) (hctx : ∀ x : Worker, (f x).ctx = x.ctx) :
    Apart (s.modifyWorker w f) := by
  have hs' := fun w' => modifyWorker_field (s := s) (w := w) Worker.efdSync f w' hs
  have hctx' := fun w' => modifyWorker_field (s := s) (w := w) Worker.ctx f w' hctx
  refine ha.frame (fun t w' hw => ⟨⟨hw.waiting, (hs' w').symm.trans hw.unsignalled, ?_⟩, hctx' w'⟩)
    (fun w' hw => ⟨hw, hctx' w'⟩)
  rw [← hctx' w']
  exact hw.inside

theorem put_ctx {y : Worker} {x : Thread} (hy : y.ctx = (s.worker w).ctx) (w' : Nat) :
    ((s.put t w y x).worker w').ctx = (s.worker w').ctx := by
  simp only [Pool.put, Function.update_apply]
  split
  · next hw => rw [hw, hy]
  · rfl

theorem Advances.ctx {p : Stopping} {y y' : Worker} {x : Thread} (h : Advances w y p y' x) :
    y'.ctx = y.ctx := by
  cases h <;> rfl

theorem Apart.put {y : Worker} {x : Thread} (ha : Apart s)
    (hother : ∀ t' p, s.threads t' = .stop p w → t' = t) (hy : y.ctx = (s.worker w).ctx)
    (hx : ∀ w', x = .stop .wait w' → w' = w ∧ (y.efdSync = false →
      s.ctxs (s.worker w).ctx = some (.thread t) →
      ∀ w', s.poller.awaits = some w' → (s.worker w').ctx ≠ (s.worker w).ctx)) :
    Apart (s.put t w y x) := by
  rintro t' w' ⟨ht, hs, hin⟩ w'' hp
  rw [put_ctx hy] at hin
  rw [put_ctx hy, put_ctx hy]
  by_cases htt : t' = t
  · -- the thread starts to wait
    subst htt
    simp only [Pool.put, Function.update_self] at ht
    obtain ⟨rfl, hx⟩ := hx w' ht
    simp only [Pool.put, Function.update_self] at hs
    exact hx hs hin w'' hp
  · simp only [Pool.put, Function.update_of_ne htt] at ht
    have hww : w' ≠ w := by
      rintro rfl
      exact htt (hother t' _ ht)
    simp only [Pool.put, Function.update_of_ne hww] at hs
    exact ha t' w' ⟨ht, hs, hin⟩ w'' hp

theorem Polls.waits (h : Polls s s') (hu : s'.poller.uses ≠ none) (hw : Waits s' t w) :
    Waits s t w where
  waiting := by
    rw [← h.threads]
    exact hw.waiting
  unsignalled := by
    rcases h.efdSync w with hs | hn
    · rw [← hs]
      exact hw.unsignalled
    · exact absurd hn hu
  inside := by
    rw [← h.ctx w]
    exact h.ctxs _ t hw.inside

theorem Polls.apart {o : Option Nat} (h : Polls s s') (ha : Apart s) (hn : NoCrossing s (.poll o))
    (hp : ∀ w, s'.poller.awaits = some w →
      s.poller.awaits = some w ∨ ∃ it n, s.poller = .iterate (.read w it) ∧ o = some n) :
    Apart s' := by
  intro t w hw w' hw'
  have hwait := h.waits (by rw [awaits_uses hw']; nofun) hw
  rw [h.ctx, h.ctx]
  rcases hp w' hw' with hold | ⟨it, n, hread, rfl⟩
  · exact ha t w hwait w' hold
  · exact hn w' it hread t w hwait

theorem Stops.apart (h : Stops s e s') (hc : Called s) (ha : Apart s) (hn : NoCrossing s e)
    (hp : ∀ o, e = .poll o → ∀ w, s'.poller.awaits = some w →
      s.poller.awaits = some w ∨ ∃ it n, s.poller = .iterate (.read w it) ∧ o = some n) :
    Apart s' := by
  cases h with
  | aside h => exact h.apart hc ha
  | poll h => exact h.apart ha hn (hp _ rfl)
  | start | callback => exact ha.modify (fun _ => rfl) (fun _ => rfl)
  | call ht hw hfree =>
    refine ha.put (fun t' p h => ?_) rfl nofun
    cases hfree.symm.trans (hc.caller t' p _ h).1
  | thread ht he h =>
    refine ha.put (fun _ _ h' => hc.unique ht h') h.ctx ?_
    cases h with
    | ask =>
      rintro _ ⟨⟩
      exact ⟨rfl, hn _ ht⟩
    | _ => exact nofun

/-- In a run without a crossing the stop and the feed never wait for each other. -/
theorem guarded_noDeadlock {h : List (Pool × Event)} (r : machine.Run h s)
    (hg : Machine.Guarded NoCrossing h) : Machine.Always NoDeadlock h s := by
  have ha : Machine.Always (fun s => Called s ∧ Apart s) h s := by
    refine r.always_of_guarded ?_ ?_ hg
    · rintro s rfl
      exact ⟨init_called, nofun⟩
    · rintro s e s' ⟨hc, ha⟩ hn he hstep
      have hst := step_stops he hstep
      refine ⟨hst.called hc, hst.apart hc ha hn ?_⟩
      rintro o rfl w hw
      exact step_awaits hstep hw
  exact ha.mono fun s h => h.2.noDeadlock

def Event.finds : Event → Bool
  | .poll (some _) => true
  | _ => false

/-- The thread `t` waits to stop worker `w`, and the poller to enter a context for it. -/
def crossing (s : Pool) (t w : Nat) : Bool :=
  match s.threads t, s.poller with
  | .stop .wait w₁, .iterate (.ctxEnter w₂ _ _) =>
    w₁ = w ∧ w₂ = w ∧ (s.worker w).efdSync = false ∧
      s.ctxs (s.worker w).ctx = some (.thread t)
  | _, _ => false

theorem stopped_inside : ∃ (h : List (Pool × Event)) (s : Pool), machine.Run h s ∧
    ((s.worker 0).active = 0 ∧ s.ctxs (s.worker 0).ctx = some (.thread 1)) ∧
    Machine.Always NoDeadlock h s := by
  obtain ⟨h, s, r, hg, hp⟩ := Machine.exists_guarded (M := machine) (C := NoCrossing)
    (c := fun s e => !e.finds && s.poller.awaits = none)
    (working ++ [.enter 1 0, .begin 1 (.stop 0)] ++ List.replicate 3 (.thread 1) ++
      List.replicate 5 (.poll none) ++ List.replicate 3 (.thread 1))
    (fun s => (s.worker 0).active = 0 ∧ s.ctxs (s.worker 0).ctx = some (.thread 1))
    (fun s e hc => by
      cases e with
      | thread t =>
        intro w _ _ _ w' hw
        simp [hw] at hc
      | poll o =>
        cases o with
        | none => trivial
        | some n => simp [Event.finds] at hc
      | _ => trivial) rfl (by decide)
  exact ⟨h, s, r, of_decide_eq_true hp, guarded_noDeadlock r hg⟩

theorem stop_deadlocks : ∃ s, machine.Reachable s ∧ ¬ NoDeadlock s := by
  -- the poller reads a completion after the thread found `lock_safe` clear
  obtain ⟨s, hr, hc⟩ := Machine.exists_reachable (M := machine) (s := .init)
    (working ++ [.enter 1 0, .begin 1 (.stop 0), .thread 1, .thread 1, .poll (some 0), .thread 1,
      .poll none])
    (fun s => crossing s 1 0) rfl (by decide)
  refine ⟨s, hr, fun hn => ?_⟩
  simp only [crossing] at hc
  split at hc
  · next ht hp =>
    obtain ⟨rfl, rfl, hs, hin⟩ := of_decide_eq_true hc
    exact hn 1 _ ⟨ht, hs, hin⟩ _ _ _ hp rfl
  · cases hc

end OfiTransport.Ofiw
