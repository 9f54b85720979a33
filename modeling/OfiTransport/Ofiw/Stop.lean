import OfiTransport.Ofiw.Lock

/-! The workers that are started and stopped while the poller goes on. -/

namespace OfiTransport.Ofiw

open Lib

def Iterate.uses : Iterate → Option Nat
  | .read w _ | .setSafe w _ _ | .ctxEnter w _ _ | .feed w _ _ | .handle w _ (_ + 1) => some w
  | _ => none

def Poller.uses : Poller → Option Nat
  | .iterate p => p.uses
  | _ => none

@[simp] theorem position_uses (x : Option Nat) : (Poller.position x).uses = none := by
  cases x <;> rfl

structure Worker.Like (x y : Worker) : Prop where
  active : y.active = x.active
  efdSync : y.efdSync = x.efdSync
  ctx : y.ctx = x.ctx
  caller : y.caller = x.caller

structure Aside (s s' : Pool) : Prop where
  worker : ∀ w, (s.worker w).Like (s'.worker w) ∨
    w = s.allocated ∧ (s'.worker w).active = 0 ∧ (s'.worker w).caller = none
  allocated : s.allocated ≤ s'.allocated
  workers : ∀ w ∈ s'.workers, w ∈ s.workers ∨ w < s'.allocated
  poller : s'.poller = s.poller
  threads : ∀ t p w, s'.threads t = .stop p w ↔ s.threads t = .stop p w
  ctxs : ∀ c t, s'.ctxs c = some (.thread t) →
    s.ctxs c = some (.thread t) ∨ s.threads t = .idle

structure Polls (s s' : Pool) : Prop where
  active : ∀ w, (s'.worker w).active = (s.worker w).active
  efdSync : ∀ w, (s'.worker w).efdSync = (s.worker w).efdSync ∨ s'.poller.uses = none
  ctx : ∀ w, (s'.worker w).ctx = (s.worker w).ctx
  caller : ∀ w, (s'.worker w).caller = (s.worker w).caller
  allocated : s'.allocated = s.allocated
  workers : s'.workers = s.workers
  threads : s'.threads = s.threads
  ctxs : ∀ c t, s'.ctxs c = some (.thread t) → s.ctxs c = some (.thread t)
  uses : ∀ w, s'.poller.uses = some w →
    s.poller.uses = some w ∨ w ∈ s.workers ∧ 2 ≤ (s.worker w).active

def Pool.put (s : Pool) (t w : Nat) (y : Worker) (x : Thread) : Pool :=
  { s with worker := Function.update s.worker w y, threads := Function.update s.threads t x }

inductive Advances (w : Nat) (y : Worker) : Stopping → Worker → Thread → Prop
  | inactive (h : y.active ≠ 2) : Advances w y .readActive { y with caller := none } .idle
  | active (h : y.active = 2) : Advances w y .readActive y (.stop .readSafe w)
  | withoutSync : Advances w y .readSafe y (.stop .now w)
  | withSync : Advances w y .readSafe y (.stop .ask w)
  | now : Advances w y .now { y with active := 0, caller := none } .idle
  | ask : Advances w y .ask { y with active := 1 } (.stop .wait w)
  | wait : Advances w y .wait y (.stop .done w)
  | done : Advances w y .done { y with active := 0 } (.stop .unsignal w)
  | unsignal : Advances w y .unsignal { y with efdSync := false, caller := none } .idle

inductive Stops (s : Pool) : Event → Pool → Prop
  | aside (h : Aside s s') : Stops s e s'
  | poll (h : Polls s s') : Stops s (.poll o) s'
  | start (hw : w < s.allocated) (hc : (s.worker w).caller = none) :
      Stops s e (s.modifyWorker w (fun x => { x with active := 2 }))
  | call (ht : s.threads t = .idle) (hw : w < s.allocated) (hc : (s.worker w).caller = none) :
      Stops s (.begin t (.stop w))
        (s.put t w { s.worker w with caller := some t } (.stop .readActive w))
  | thread (ht : s.threads t = .stop p w) (he : p = .wait → (s.worker w).efdSync = true)
      (h : Advances w (s.worker w) p y x) : Stops s (.thread t) (s.put t w y x)
  | callback (hw : w < s.allocated) (hc : (s.worker w).caller = none)
      (ha : (s.worker w).active = 2) :
      Stops s (.callback (.stop w)) (s.modifyWorker w (fun x => { x with active := 0 }))

section Steps

variable {s s' : Pool} {t w : Nat}

theorem Worker.Like.rfl {x : Worker} : x.Like x := ⟨.refl _, .refl _, .refl _, .refl _⟩

theorem Aside.refl (s : Pool) : Aside s s :=
  ⟨fun _ => .inl .rfl, Nat.le_refl _, fun _ h => .inl h, rfl, fun _ _ _ => .rfl,
    fun _ _ h => .inl h⟩

theorem Aside.thread {s₁ : Pool} {x : Thread} (h : Aside s s₁)
    (ht : ∀ p w, s.threads t ≠ .stop p w) (hs : s'.threads = Function.update s₁.threads t x)
    (h₁ : s'.worker = s₁.worker) (h₂ : s'.allocated = s₁.allocated)
    (h₃ : s'.workers = s₁.workers) (h₄ : s'.poller = s₁.poller) (h₅ : s'.ctxs = s₁.ctxs)
    (hx : ∀ p w, x ≠ .stop p w) : Aside s s' where
  worker w := by
    rw [h₁]
    exact h.worker w
  allocated := h₂ ▸ h.allocated
  workers w hw := by
    rw [h₂]
    exact h.workers w (h₃ ▸ hw)
  poller := h₄.trans h.poller
  threads t' p w := by
    rw [hs, Function.update_apply]
    split
    · next htt =>
      rw [htt]
      exact ⟨fun h => absurd h (hx p w), fun h => absurd h (ht p w)⟩
    · exact h.threads t' p w
  ctxs c t' hc := h.ctxs c t' (h₅ ▸ hc)

theorem modifyWorker_field {α : Type} (g : Worker → α) (f : Worker → Worker) (w' : Nat)
    (hf : ∀ x, g (f x) = g x) : g ((s.modifyWorker w f).worker w') = g (s.worker w') := by
  by_cases hw : w' = w
  · rw [hw, Pool.modifyWorker_self, hf]
  · rw [Pool.modifyWorker_other _ _ _ hw]

theorem aside_modifyWorker (f : Worker → Worker) (hf : ∀ x : Worker, x.Like (f x)) :
    Aside s (s.modifyWorker w f) where
  worker w' := .inl {
    active := modifyWorker_field Worker.active f w' fun x => (hf x).active
    efdSync := modifyWorker_field Worker.efdSync f w' fun x => (hf x).efdSync
    ctx := modifyWorker_field Worker.ctx f w' fun x => (hf x).ctx
    caller := modifyWorker_field Worker.caller f w' fun x => (hf x).caller }
  allocated := Nat.le_refl _
  workers _ h := .inl h
  poller := rfl
  threads _ _ _ := .rfl
  ctxs _ _ h := .inl h

theorem aside_of_apply {c : Change} (h : s.apply c = .ok s') : Aside s s' := by
  cases c with
  | getworker ctx =>
    cases h
    refine ⟨fun w => ?_, Nat.le_succ _, fun w h => ?_, rfl, fun _ _ _ => .rfl, fun _ _ h => .inl h⟩
    · simp only [Function.update_apply]
      split
      · next hw => exact .inr ⟨hw, rfl, rfl⟩
      · exact .inl .rfl
    · simp only [List.mem_append, List.mem_singleton] at h
      rcases h with h | rfl
      · exact .inl h
      · exact .inr (Nat.lt_succ_self _)
  | term w =>
    obtain ⟨_, h⟩ := use_eq_ok.1 h
    cases h
    exact ⟨fun _ => .inl .rfl, Nat.le_refl _, fun _ h => .inl (List.mem_of_mem_erase h),
      rfl, fun _ _ _ => .rfl, fun _ _ h => .inl h⟩
  | add w fdType fd =>
    obtain ⟨_, h⟩ := use_eq_ok.1 h
    cases h
    have ha := aside_modifyWorker (s := s) (w := w) (fun x => { x with
      items := x.items ++ [⟨s.allocated, fdType, fd⟩] }) (fun _ => ⟨rfl, rfl, rfl, rfl⟩)
    exact ⟨ha.worker, Nat.le_succ _, fun _ h => .inl h, rfl, ha.threads, ha.ctxs⟩
  | remove w fd =>
    obtain ⟨_, h⟩ := use_eq_ok.1 h
    cases h
    exact aside_modifyWorker _ (by exact fun _ => ⟨rfl, rfl, rfl, rfl⟩)

theorem aside_of_lockStep {p : Locking} {c : Change} (ht : s.threads t = .lock p c)
    (h : s.lockStep t c p = .ok s') : Aside s s' := by
  have hn : ∀ q w, s.threads t ≠ .stop q w := fun q w h => by cases ht.symm.trans h
  cases p with
  | change =>
    simp only [Pool.lockStep, bind_eq_ok] at h
    obtain ⟨s₁, hs₁, h⟩ := h
    cases h
    exact (aside_of_apply hs₁).thread hn rfl rfl rfl rfl rfl rfl (by simp)
  | leave =>
    cases h
    refine (Aside.refl s).thread hn rfl rfl rfl rfl rfl rfl ?_
    split <;> simp
  | mutexUnlock =>
    simp only [Pool.lockStep] at h
    split at h
    · cases h
      exact (Aside.refl s).thread hn rfl rfl rfl rfl rfl rfl (by simp)
    · cases h
  | _ =>
    cases h
    exact (Aside.refl s).thread hn rfl rfl rfl rfl rfl rfl (by simp)

theorem setCtx_thread {c c' : Nat} {x : Option Holder} (hx : ∀ t, x ≠ some (.thread t))
    (h : (s.setCtx c x).ctxs c' = some (.thread t)) : s.ctxs c' = some (.thread t) := by
  simp only [Pool.setCtx, Function.update_apply] at h
  split at h
  · exact absurd h (hx t)
  · exact h

theorem Polls.of_worker (h₁ : s'.worker = s.worker) (h₂ : s'.allocated = s.allocated)
    (h₃ : s'.workers = s.workers) (h₄ : s'.threads = s.threads)
    (hc : ∀ c t, s'.ctxs c = some (.thread t) → s.ctxs c = some (.thread t))
    (hu : ∀ w, s'.poller.uses = some w →
      s.poller.uses = some w ∨ w ∈ s.workers ∧ 2 ≤ (s.worker w).active) : Polls s s' where
  active w := by rw [h₁]
  efdSync w := .inl (by rw [h₁])
  ctx w := by rw [h₁]
  caller w := by rw [h₁]
  allocated := h₂
  workers := h₃
  threads := h₄
  ctxs := hc
  uses := hu

theorem polls_move {p : Poller} (hu : ∀ w, p.uses = some w →
    s.poller.uses = some w ∨ w ∈ s.workers ∧ 2 ≤ (s.worker w).active) : Polls s (s.setPoller p) :=
  .of_worker rfl rfl rfl rfl (fun _ _ h => h) hu

theorem Iterates.polls {o : Option Nat} {p : Iterate} (hp : s.poller = .iterate p)
    (h : Iterates s o p s') : Polls s s' := by
  cases h with
  | leave _ _ x =>
    apply polls_move
    rw [position_uses]
    nofun
  | signal hw x =>
    refine ⟨fun w' => ?_, fun _ => .inr (position_uses x), fun w' => ?_, fun w' => ?_,
      rfl, rfl, rfl,
      fun _ _ h => h, fun _ h => by cases (position_uses x).symm.trans h⟩
    · exact modifyWorker_field Worker.active (fun x => { x with efdSync := true }) w' fun _ => rfl
    · exact modifyWorker_field Worker.ctx (fun x => { x with efdSync := true }) w' fun _ => rfl
    · exact modifyWorker_field Worker.caller (fun x => { x with efdSync := true }) w' fun _ => rfl
  | visit hw h =>
    apply polls_move
    rintro _ ⟨⟩
    exact .inr ⟨hw, h⟩
  | nothing | found =>
    apply polls_move
    intro w h
    rw [hp]
    exact .inl h
  | setSafe =>
    exact .of_worker rfl rfl rfl rfl (fun _ _ h => h) fun _ h => .inl (hp ▸ h)
  | ctxEnter hw =>
    exact .of_worker rfl rfl rfl rfl (fun _ _ h => setCtx_thread (x := some .poller) nofun h)
      fun _ h => .inl (hp ▸ h)
  | @feed w o it n hw =>
    apply polls_move
    intro w h
    rw [hp]
    cases n with
    | zero => cases h
    | succ n => exact .inl h
  | more =>
    apply polls_move
    intro w h
    rw [hp]
    exact .inl h
  | ctxLeave hw =>
    exact .of_worker rfl rfl rfl rfl (fun _ _ h => setCtx_thread (x := none) nofun h) nofun
  | clearSafe =>
    exact .of_worker rfl rfl rfl rfl (fun _ _ h => h) nofun
  | skip | asked | last =>
    apply polls_move
    exact nofun

theorem setThread_put (x : Thread) : s.setThread t x = s.put t w (s.worker w) x := by
  rw [Pool.put, Function.update_eq_self, Pool.setThread]

theorem stopped_put (f : Worker → Worker) :
    (s.modifyWorker w f).stopped t w = s.put t w { f (s.worker w) with caller := none } .idle := by
  simp [Pool.stopped, Pool.modifyWorker, Pool.setThread, Pool.put]

theorem stopStep_advances {p : Stopping} (h : s.stopStep t w p = .ok s') :
    ∃ y x, Advances w (s.worker w) p y x ∧ s' = s.put t w y x := by
  cases p with
  | readActive =>
    obtain ⟨_, h⟩ := use_eq_ok.1 h
    split at h
    · next ha =>
      cases h
      exact ⟨_, _, .inactive ha, rfl⟩
    · next ha =>
      cases h
      exact ⟨_, _, .active (Decidable.of_not_not ha), setThread_put _⟩
  | readSafe =>
    obtain ⟨_, h⟩ := use_eq_ok.1 h
    cases h
    cases s.lockSafe with
    | true => exact ⟨_, _, .withoutSync, setThread_put _⟩
    | false => exact ⟨_, _, .withSync, setThread_put _⟩
  | now =>
    obtain ⟨_, h⟩ := use_eq_ok.1 h
    cases h
    exact ⟨_, _, .now, stopped_put _⟩
  | ask =>
    obtain ⟨_, h⟩ := use_eq_ok.1 h
    cases h
    exact ⟨_, _, .ask, rfl⟩
  | wait =>
    obtain ⟨_, h⟩ := use_eq_ok.1 h
    cases h
    exact ⟨_, _, .wait, setThread_put _⟩
  | done =>
    obtain ⟨_, h⟩ := use_eq_ok.1 h
    cases h
    exact ⟨_, _, .done, rfl⟩
  | unsignal =>
    obtain ⟨_, h⟩ := use_eq_ok.1 h
    cases h
    exact ⟨_, _, .unsignal, stopped_put _⟩

theorem callable_of_callback {c : Call} (he : enabled s (.callback c) = true) :
    callable s c = true := by
  simp only [enabled] at he
  split at he
  · exact (Bool.and_eq_true_iff.1 he).2
  · cases he

theorem callable_of_begin {c : Call} (he : enabled s (.begin t c) = true) :
    s.threads t = .idle ∧ callable s c = true := by
  simp only [enabled] at he
  split at he
  · next ht => exact ⟨ht, he⟩
  · cases he

theorem step_stops {e : Event} (he : enabled s e = true) (h : step s e = .ok s') :
    Stops s e s' := by
  cases e with
  | poll o =>
    simp only [step, Pool.poll] at h
    split at h
    · next hp =>
      split at h
      · cases h
        exact .poll (polls_move (by simp [Poller.uses]))
      · cases h
        exact .poll (polls_move (by simp))
    · next hp =>
      cases h
      exact .poll (.of_worker rfl rfl rfl rfl (fun _ _ h => h) (by simp [Poller.uses]))
    · next hp =>
      cases h
      exact .poll (polls_move (by simp [Poller.uses]))
    · next hp =>
      cases h
      refine .poll (.of_worker rfl rfl rfl rfl (fun _ _ h => h) fun w h => ?_)
      cases (position_uses _).symm.trans h
    · next p hp => exact .poll ((iterate_iterates h).polls hp)
  | callback c =>
    have hc := callable_of_callback he
    cases c with
    | change c => exact .aside (aside_of_apply h)
    | start w =>
      obtain ⟨_, h⟩ := use_eq_ok.1 h
      cases h
      obtain ⟨hw, hn⟩ := of_decide_eq_true hc
      exact .start hw hn
    | stop w =>
      obtain ⟨_, h⟩ := use_eq_ok.1 h
      obtain ⟨hw, hn⟩ := of_decide_eq_true hc
      split at h
      · cases h
        exact .aside (.refl _)
      · next ha =>
        cases h
        exact .callback hw hn (Decidable.of_not_not ha)
  | begin t c =>
    obtain ⟨ht, hc⟩ := callable_of_begin he
    cases c with
    | change c =>
      cases h
      exact .aside ((Aside.refl s).thread (by simp [ht]) rfl rfl rfl rfl rfl rfl (by simp))
    | start w =>
      obtain ⟨_, h⟩ := use_eq_ok.1 h
      cases h
      obtain ⟨hw, hn⟩ := of_decide_eq_true hc
      exact .start hw hn
    | stop w =>
      cases h
      obtain ⟨hw, hn⟩ := of_decide_eq_true hc
      exact .call ht hw hn
  | thread t =>
    simp only [step, Pool.threadStep] at h
    split at h
    · next ht => simp [enabled, ht] at he
    · next p c ht => exact .aside (aside_of_lockStep ht h)
    · next p w ht =>
      obtain ⟨y, x, ha, rfl⟩ := stopStep_advances h
      refine .thread ht ?_ ha
      rintro rfl
      simpa only [enabled, ht] using he
  | enter t c =>
    cases h
    simp only [enabled] at he
    split at he
    · next ht =>
      refine .aside ⟨fun _ => .inl .rfl, Nat.le_refl _, fun _ h => .inl h, rfl, fun _ _ _ => .rfl,
        fun c' t' h => ?_⟩
      simp only [Pool.setCtx, Function.update_apply] at h
      split at h
      · cases h
        exact .inr ht
      · exact .inl h
    · cases he
  | leave t c =>
    cases h
    exact .aside ⟨fun _ => .inl .rfl, Nat.le_refl _, fun _ h => .inl h, rfl, fun _ _ _ => .rfl,
      fun _ _ h => .inl (setCtx_thread (x := none) (by simp) h)⟩

end Steps

section Calls

def Stopping.fits (a : Nat) : Stopping → Prop
  | .wait | .done => a = 1
  | .unsignal => a = 0
  | _ => True

structure Called (s : Pool) : Prop where
  caller : ∀ t p w, s.threads t = .stop p w →
    (s.worker w).caller = some t ∧ p.fits (s.worker w).active
  bound : ∀ w, (s.worker w).caller ≠ none → w < s.allocated
  listed : ∀ w ∈ s.workers, w < s.allocated
  used : ∀ w, s.poller.uses = some w → w < s.allocated
  active : ∀ w, (s.worker w).active ≤ 2

variable {s s' : Pool} {e : Event} {t w : Nat} {x : Thread} {y : Worker}

theorem Aside.like (h : Aside s s') (hw : w < s.allocated) :
    (s.worker w).Like (s'.worker w) := by
  rcases h.worker w with h | ⟨rfl, _⟩
  · exact h
  · exact absurd hw (Nat.lt_irrefl _)

theorem Called.stopping {p : Stopping} (h : Called s) (ht : s.threads t = .stop p w) :
    w < s.allocated := by
  apply h.bound
  rw [(h.caller t p w ht).1]
  nofun

theorem Called.unique {t' : Nat} {p p' : Stopping} (h : Called s) (ht : s.threads t = .stop p w)
    (ht' : s.threads t' = .stop p' w) : t' = t := by
  have hc := (h.caller t p w ht).1
  rw [(h.caller t' p' w ht').1] at hc
  exact Option.some.inj hc

theorem Aside.called (h : Aside s s') (hc : Called s) : Called s' where
  caller t p w ht := by
    have ht' := (h.threads t p w).1 ht
    have hl := h.like (hc.stopping ht')
    rw [hl.caller, hl.active]
    exact hc.caller t p w ht'
  bound w hn := by
    rcases h.worker w with hl | ⟨_, _, hn'⟩
    · rw [hl.caller] at hn
      exact Nat.lt_of_lt_of_le (hc.bound w hn) h.allocated
    · exact absurd hn' hn
  listed w hw := by
    rcases h.workers w hw with hw | hw
    · exact Nat.lt_of_lt_of_le (hc.listed w hw) h.allocated
    · exact hw
  used w hu := by
    rw [h.poller] at hu
    exact Nat.lt_of_lt_of_le (hc.used w hu) h.allocated
  active w := by
    rcases h.worker w with hl | ⟨_, ha, _⟩
    · rw [hl.active]
      exact hc.active w
    · omega

theorem Polls.called (h : Polls s s') (hc : Called s) : Called s' where
  caller t p w ht := by
    rw [h.threads] at ht
    rw [h.caller, h.active]
    exact hc.caller t p w ht
  bound w hn := by
    rw [h.caller] at hn
    rw [h.allocated]
    exact hc.bound w hn
  listed w hw := by
    rw [h.workers] at hw
    rw [h.allocated]
    exact hc.listed w hw
  used w hu := by
    rw [h.allocated]
    rcases h.uses w hu with hu | ⟨hw, _⟩
    · exact hc.used w hu
    · exact hc.listed w hw
  active w := by
    rw [h.active]
    exact hc.active w

theorem Called.modify {f : Worker → Worker} (hc : Called s) (hn : (s.worker w).caller = none)
    (hf : (f (s.worker w)).caller = none) (ha : (f (s.worker w)).active ≤ 2) :
    Called (s.modifyWorker w f) where
  caller t p w' ht := by
    by_cases hw : w' = w
    · rw [hw] at ht
      cases hn.symm.trans (hc.caller t p w ht).1
    · rw [Pool.modifyWorker_other _ _ _ hw]
      exact hc.caller t p w' ht
  bound w' hn' := by
    by_cases hw : w' = w
    · rw [hw, Pool.modifyWorker_self] at hn'
      exact absurd hf hn'
    · rw [Pool.modifyWorker_other _ _ _ hw] at hn'
      exact hc.bound w' hn'
  listed := hc.listed
  used := hc.used
  active w' := by
    by_cases hw : w' = w
    · rw [hw, Pool.modifyWorker_self]
      exact ha
    · rw [Pool.modifyWorker_other _ _ _ hw]
      exact hc.active w'

theorem Called.put (hc : Called s) (hw : w < s.allocated)
    (hother : ∀ t' p, s.threads t' = .stop p w → t' = t)
    (hx : ∀ p w', x = .stop p w' → w' = w ∧ y.caller = some t ∧ p.fits y.active)
    (ha : y.active ≤ 2) : Called (s.put t w y x) where
  caller t' p w' ht := by
    simp only [Pool.put, Function.update_apply] at ht ⊢
    split at ht
    · next htt =>
      obtain ⟨rfl, h⟩ := hx p w' ht
      rw [htt, if_pos rfl]
      exact h
    · next htt =>
      have hne : w' ≠ w := by
        rintro rfl
        exact htt (hother t' p ht)
      rw [if_neg hne]
      exact hc.caller t' p w' ht
  bound w' hn := by
    simp only [Pool.put, Function.update_apply] at hn
    split at hn
    · next hww => exact hww ▸ hw
    · exact hc.bound w' hn
  listed := hc.listed
  used := hc.used
  active w' := by
    simp only [Pool.put, Function.update_apply]
    split
    · exact ha
    · exact hc.active w'

theorem Advances.fits {p : Stopping} {y' : Worker} (h : Advances w y p y' x)
    (hc : y.caller = some t) (hp : p.fits y.active) :
    ∀ q w', x = .stop q w' → w' = w ∧ y'.caller = some t ∧ q.fits y'.active := by
  cases h with
  | inactive | now | unsignal => exact nofun
  | active | withoutSync | withSync =>
    rintro _ _ ⟨⟩
    exact ⟨rfl, hc, trivial⟩
  | ask | done =>
    rintro _ _ ⟨⟩
    exact ⟨rfl, hc, rfl⟩
  | wait =>
    rintro _ _ ⟨⟩
    exact ⟨rfl, hc, hp⟩

theorem Advances.active_le {p : Stopping} {y' : Worker} (h : Advances w y p y' x)
    (ha : y.active ≤ 2) : y'.active ≤ 2 := by
  cases h with
  | now | done => exact Nat.zero_le 2
  | ask => exact Nat.le_succ 1
  | _ => exact ha

theorem Stops.called (h : Stops s e s') (hc : Called s) : Called s' := by
  cases h with
  | aside h => exact h.called hc
  | poll h => exact h.called hc
  | start hw hn => exact hc.modify hn hn (Nat.le_refl 2)
  | callback hw hn ha => exact hc.modify hn hn (Nat.zero_le 2)
  | @call t w ht hw hn =>
    refine hc.put hw (fun t' p h => ?_) ?_ (hc.active w)
    · cases hn.symm.trans (hc.caller t' p w h).1
    · rintro _ _ ⟨⟩
      exact ⟨rfl, rfl, trivial⟩
  | thread ht he h =>
    obtain ⟨hown, hp⟩ := hc.caller _ _ _ ht
    exact hc.put (hc.stopping ht) (fun _ _ h => hc.unique ht h) (h.fits hown hp)
      (h.active_le (hc.active _))

theorem init_called : Called .init where
  caller _ _ _ h := by cases h
  bound _ h := absurd rfl h
  listed := nofun
  used := nofun
  active _ := Nat.zero_le 2

end Calls

section Quiet

/-- The poller is between its look at `active` and the last event it feeds for this worker. -/
def Inside (s : Pool) (w : Nat) : Prop := s.poller.uses = some w

/-- A worker that is not started, and that nobody is just stopping, has none of its items used
and none of its events fed. -/
def Quiet (s : Pool) : Prop :=
  ∀ w, (s.worker w).active ≠ 2 → (s.worker w).caller = none → ¬ Inside s w

/-- A stop without waiting, or on a signal that is left over, finds the poller elsewhere. -/
def StopsOutside (s : Pool) : Event → Prop
  | .thread t => ∀ w, (s.threads t = .stop .now w → ¬ Inside s w) ∧
      (s.threads t = .stop .ask w → (s.worker w).efdSync = true → ¬ Inside s w)
  | .callback (.stop w) => (s.worker w).active = 2 → ¬ Inside s w
  | _ => True

def Attended (s : Pool) : Prop :=
  ∀ w, Inside s w → (s.worker w).active = 2 ∨
    (s.worker w).active = 1 ∧ (s.worker w).efdSync = false ∧ ∃ t, s.threads t = .stop .wait w

variable {s s' : Pool} {e : Event} {t w : Nat}

theorem Attended.quiet (h : Attended s) (hc : Called s) : Quiet s := by
  intro w ha hn hi
  rcases h w hi with h | ⟨_, _, t, ht⟩
  · exact ha h
  · cases hn.symm.trans (hc.caller t _ w ht).1

theorem Aside.attended (h : Aside s s') (hc : Called s) (ha : Attended s) : Attended s' := by
  intro w hi
  rw [Inside, h.poller] at hi
  have hl := h.like (hc.used w hi)
  rw [hl.active, hl.efdSync]
  rcases ha w hi with h₂ | ⟨h₁, hs, t, ht⟩
  · exact .inl h₂
  · exact .inr ⟨h₁, hs, t, (h.threads t _ w).2 ht⟩

theorem Polls.attended (h : Polls s s') (hc : Called s) (ha : Attended s) : Attended s' := by
  intro w hi
  rw [h.active]
  rcases h.uses w hi with hi' | ⟨_, h₂⟩
  · rcases ha w hi' with h₂ | ⟨h₁, hs, t, ht⟩
    · exact .inl h₂
    · refine .inr ⟨h₁, ?_, t, by rw [h.threads, ht]⟩
      rcases h.efdSync w with he | hn
      · rw [he, hs]
      · cases hi.symm.trans hn
  · exact .inl (Nat.le_antisymm (hc.active w) h₂)

theorem Attended.modify {f : Worker → Worker} (ha : Attended s)
    (hf : (f (s.worker w)).active = 2 ∨ ¬ Inside s w) : Attended (s.modifyWorker w f) := by
  intro w' hi
  by_cases hw : w' = w
  · rw [hw, Pool.modifyWorker_self]
    rcases hf with hf | hf
    · exact .inl hf
    · exact absurd (hw ▸ hi) hf
  · rw [Pool.modifyWorker_other _ _ _ hw]
    exact ha w' hi

theorem Attended.put {y : Worker} {x : Thread} (ha : Attended s)
    (ht : ∀ w', s.threads t = .stop .wait w' → w' = w)
    (hy : Inside s w → y.active = 2 ∨
      y.active = 1 ∧ y.efdSync = false ∧ x = .stop .wait w) : Attended (s.put t w y x) := by
  intro w' hi
  by_cases hw : w' = w
  · subst hw
    simp only [Pool.put, Function.update_self]
    rcases hy hi with h | ⟨h₁, hs, hx⟩
    · exact .inl h
    · exact .inr ⟨h₁, hs, t, by rw [Function.update_self, hx]⟩
  · simp only [Pool.put, Function.update_of_ne hw]
    rcases ha w' hi with h | ⟨h₁, hs, t', ht'⟩
    · exact .inl h
    · refine .inr ⟨h₁, hs, t', ?_⟩
      have hne : t' ≠ t := by
        rintro rfl
        exact hw (ht w' ht')
      rw [Function.update_of_ne hne, ht']

theorem Attended.started {p : Stopping} (ha : Attended s) (hc : Called s)
    (ht : s.threads t = .stop p w) (hp : p ≠ .wait) (hi : Inside s w) :
    (s.worker w).active = 2 := by
  rcases ha w hi with h | ⟨_, _, t', ht'⟩
  · exact h
  · rw [hc.unique ht ht', ht] at ht'
    cases ht'
    exact absurd rfl hp

theorem Attended.advance {p : Stopping} {y : Worker} {x : Thread} (ha : Attended s)
    (hc : Called s) (ht : s.threads t = .stop p w)
    (he : p = .wait → (s.worker w).efdSync = true) (hs : StopsOutside s (.thread t))
    (h : Advances w (s.worker w) p y x) : Attended (s.put t w y x) := by
  refine ha.put (fun w' ht' => ?_) (fun hi => ?_)
  · cases ht.symm.trans ht'
    rfl
  · have hfit := (hc.caller t p w ht).2
    cases h with
    | inactive h => exact absurd (ha.started hc ht nofun hi) h
    | active h => exact .inl h
    | withoutSync | withSync => exact .inl (ha.started hc ht nofun hi)
    | now => exact absurd hi ((hs w).1 ht)
    | ask =>
      refine .inr ⟨rfl, ?_, rfl⟩
      rw [← Bool.not_eq_true]
      exact fun hsync => (hs w).2 ht hsync hi
    | wait =>
      rcases ha w hi with h₂ | ⟨_, hsync, _⟩
      · exact .inl h₂
      · cases hsync.symm.trans (he rfl)
    | done =>
      cases hfit.symm.trans (ha.started hc ht nofun hi)
    | unsignal =>
      cases hfit.symm.trans (ha.started hc ht nofun hi)

theorem Stops.attended (h : Stops s e s') (hc : Called s) (ha : Attended s)
    (hs : StopsOutside s e) : Attended s' := by
  cases h with
  | aside h => exact h.attended hc ha
  | poll h => exact h.attended hc ha
  | start hw hn => exact ha.modify (.inl rfl)
  | callback hw hn h₂ => exact ha.modify (.inr (hs h₂))
  | call ht hw hn =>
    refine ha.put (fun w' ht' => ?_) (fun hi => ?_)
    · cases ht.symm.trans ht'
    · rcases ha _ hi with h₂ | ⟨_, _, t', ht'⟩
      · exact .inl h₂
      · cases hn.symm.trans (hc.caller t' _ _ ht').1
  | thread ht he h => exact ha.advance hc ht he hs h

/-- In a run whose stops all find the poller outside the worker, or wait for it, a worker that is
stopped stays quiet. -/
theorem guarded_quiet {h : List (Pool × Event)} (r : machine.Run h s)
    (hg : Machine.Guarded StopsOutside h) : Machine.Always Quiet h s := by
  have ha : Machine.Always (fun s => Called s ∧ Attended s) h s := by
    refine r.always_of_guarded ?_ ?_ hg
    · rintro s rfl
      exact ⟨init_called, nofun⟩
    · rintro s e s' ⟨hc, ha⟩ hs he hstep
      have hst := step_stops he hstep
      exact ⟨hst.called hc, hst.attended hc ha hs⟩
  exact ha.mono fun s h => h.2.quiet h.1

theorem stopped_quiet : ∃ (h : List (Pool × Event)) (s : Pool), machine.Run h s ∧
    (s.workers = [0] ∧ (s.worker 0).active = 0) ∧ Machine.Always Quiet h s := by
  obtain ⟨h, s, r, hg, hp⟩ := Machine.exists_guarded (M := machine) (C := StopsOutside)
    (c := fun s e => e.isPoll || s.poller.uses = none)
    (working ++ [.poll none, .begin 1 (.stop 0)] ++ List.replicate 3 (.thread 1) ++
      List.replicate 4 (.poll none) ++ List.replicate 3 (.thread 1))
    (fun s => s.workers = [0] ∧ (s.worker 0).active = 0) (fun s e hc => by
      have hi : s.poller.uses = none → ∀ w, ¬ Inside s w :=
        fun hn w hi => by cases hn.symm.trans hi
      cases e with
      | thread t =>
        have hi := hi (by simpa [Event.isPoll] using hc)
        exact fun w => ⟨fun _ => hi w, fun _ _ => hi w⟩
      | callback c =>
        have hi := hi (by simpa [Event.isPoll] using hc)
        cases c with
        | stop w => exact fun _ => hi w
        | _ => trivial
      | _ => trivial) rfl (by decide)
  exact ⟨h, s, r, of_decide_eq_true hp, guarded_quiet r hg⟩

theorem fed_after_stop : ∃ s, machine.Reachable s ∧ ¬ Quiet s := by
  -- another thread finds `lock_safe` set while the poller has a completion in hand
  obtain ⟨s, hr, hc⟩ := Machine.exists_reachable (M := machine) (s := .init)
    (working ++ [.poll (some 0), .poll none, .begin 1 (.stop 0)] ++
      List.replicate 3 (.thread 1) ++ [.poll none])
    (fun s => (s.worker 0).active ≠ 2 ∧ (s.worker 0).caller = none ∧ s.poller.uses = some 0)
    rfl (by decide)
  obtain ⟨ha, hn, hi⟩ := of_decide_eq_true hc
  exact ⟨s, hr, fun hq => hq 0 ha hn hi⟩

end Quiet

end OfiTransport.Ofiw
