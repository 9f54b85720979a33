import OfiTransport.Ofiw.Lock

/-! Who is going to wake the poller once it has been asked to wait. -/

namespace OfiTransport.Ofiw

open Lib

def Owned (s : Pool) (q : Locking → Bool) : Prop :=
  ∃ t, s.lockMutex = some t ∧ ∀ p c, s.threads t = .lock p c → q p = false

def Locking.last (p : Locking) : Bool := p = .mutexUnlock

def Locking.signalled (p : Locking) : Bool := p = .lower ∨ p = .mutexUnlock

structure Parking (s : Pool) : Prop where
  raising : ∀ t c, s.threads t = .lock .raise c → s.lockMutex = some t
  request : s.lockState = true → Owned s Locking.last
  parked : s.poller = .signalAck ∨ s.poller = .waitReq → s.efdLockReq = false →
    Owned s Locking.signalled

/-- Unless the mutex is taken or waited for, the poller does not wait for a signal that has not
been given. -/
def NotParked (s : Pool) : Prop :=
  s.lockMutex = none → (∀ t c, s.threads t ≠ .lock .mutexLock c) →
    ¬ (s.poller = .waitReq ∧ s.efdLockReq = false)

/-- The poller does not find a request whose thread has given its signal already. -/
def NoStaleRequest (s : Pool) : Event → Prop
  | .poll _ => s.poller = .top → s.lockState = true → s.efdLockReq = false →
    ∀ t c, s.lockMutex = some t → s.threads t ≠ .lock .lower c
  | _ => True

variable {s s' : Pool} {e : Event} {q : Locking → Bool}

theorem Owned.mono (h : Owned s q) (hm : s'.lockMutex = s.lockMutex)
    (ht : ∀ t p c, s.lockMutex = some t → s'.threads t = .lock p c →
      s.threads t = .lock p c ∨ q p = false) : Owned s' q := by
  obtain ⟨t, hown, hq⟩ := h
  refine ⟨t, hm.trans hown, fun p c h' => ?_⟩
  rcases ht t p c hown h' with h | h
  · exact hq p c h
  · exact h

theorem Owned.frame (h : Owned s q) (hm : s'.lockMutex = s.lockMutex)
    (ht : s'.threads = s.threads) : Owned s' q :=
  h.mono hm fun _ _ _ _ h' => .inl (by rw [← ht, h'])

theorem Owned.move {t : Nat} {x : Thread} (h : Owned s q) (hm : s'.lockMutex = s.lockMutex)
    (ht : s'.threads = Function.update s.threads t x) (hx : ∀ p c, x = .lock p c → q p = false) :
    Owned s' q := by
  refine h.mono hm fun t' p c _ h' => ?_
  rw [ht] at h'
  rcases moved_cases h' with ⟨_, h'⟩ | ⟨_, h'⟩
  · exact .inr (hx p c h')
  · exact .inl h'

theorem Owned.absurd {t : Nat} {p : Locking} {c : Change} (h : Owned s q)
    (ht : s.threads t = .lock p c) (hq : q p = true) : s.lockMutex ≠ some t := by
  obtain ⟨t', hown, hn⟩ := h
  intro hm
  obtain rfl : t' = t := Option.some.inj (hown.symm.trans hm)
  rw [hn p c ht] at hq
  cases hq

theorem Parking.not_parked (h : Parking s) : NotParked s := by
  rintro hm - ⟨hp, hr⟩
  obtain ⟨t, hown, _⟩ := h.parked (.inr hp) hr
  rw [hm] at hown
  cases hown

theorem Parking.poll (h : Parking s) (hm : s'.lockMutex = s.lockMutex)
    (hl : s'.lockState = s.lockState) (ht : s'.threads = s.threads)
    (hp : s'.poller ≠ .signalAck ∧ s'.poller ≠ .waitReq) : Parking s' where
  raising t c h' := by
    rw [ht] at h'
    rw [hm]
    exact h.raising t c h'
  request h' := by
    rw [hl] at h'
    exact (h.request h').frame hm ht
  parked h' _ := by
    rcases h' with h' | h'
    · exact absurd h' hp.1
    · exact absurd h' hp.2

theorem resumed (h : s.poller = .top ∨ ∃ p, s.poller = .iterate p) :
    s.poller ≠ .signalAck ∧ s.poller ≠ .waitReq := by
  rcases h with h | ⟨p, h⟩
  · exact ⟨by simp [h], by simp [h]⟩
  · exact ⟨by simp [h], by simp [h]⟩

theorem Parking.still_raising {t t' : Nat} {x : Thread} {c : Change} (h : Parking s)
    (hx : ∀ c, x ≠ .lock .raise c) (h' : Function.update s.threads t x t' = .lock .raise c) :
    t' ≠ t ∧ s.lockMutex = some t' := by
  rcases moved_cases h' with ⟨_, h'⟩ | ⟨hne, h'⟩
  · exact absurd h' (hx c)
  · exact ⟨hne, h.raising t' c h'⟩

theorem Parking.move {t : Nat} {x : Thread} (h : Parking s) (hm : s'.lockMutex = s.lockMutex)
    (hl : s'.lockState = s.lockState) (hr : s'.efdLockReq = s.efdLockReq)
    (hp : s'.poller = s.poller) (ht : s'.threads = Function.update s.threads t x)
    (hx : ∀ p c, x = .lock p c → p ≠ .raise ∧ p.signalled = false) : Parking s' where
  raising t' c h' := by
    rw [ht] at h'
    rw [hm]
    exact (h.still_raising (fun c hc => (hx _ c hc).1 rfl) h').2
  request h' := by
    rw [hl] at h'
    refine (h.request h').move hm ht fun p c hpc => ?_
    have hs := (hx p c hpc).2
    cases p <;> first | rfl | cases hs
  parked h' hr' := by
    rw [hp] at h'
    rw [hr] at hr'
    exact (h.parked h' hr').move hm ht fun p c hpc => (hx p c hpc).2

theorem Outside.parking (h : Outside s s') (hk : Parking s) : Parking s' where
  raising t c h' := by
    rcases h.threads t _ c h' with hn | h'
    · cases hn
    · rw [h.lockMutex]
      exact hk.raising t c h'
  request h' := by
    rw [h.lockState] at h'
    refine (hk.request h').mono h.lockMutex fun t p c _ h' => ?_
    rcases h.threads t p c h' with rfl | h'
    · exact .inr rfl
    · exact .inl h'
  parked h' hr := by
    rw [h.poller] at h'
    rw [h.efdLockReq] at hr
    refine (hk.parked h' hr).mono h.lockMutex fun t p c _ h' => ?_
    rcases h.threads t p c h' with rfl | h'
    · exact .inr rfl
    · exact .inl h'

theorem Parking.lockStep {t : Nat} {p : Locking} {c : Change} (h : Parking s)
    (hen : enabled s (.thread t) = true) (ht : s.threads t = .lock p c)
    (hs : s.lockStep t c p = .ok s') : Parking s' := by
  simp only [enabled, ht] at hen
  cases p with
  | enter =>
    cases hs
    refine h.move (x := .lock (if s.lockSafe then .change else .mutexLock) c) rfl rfl rfl rfl rfl ?_
    rintro _ _ ⟨⟩
    split <;> exact ⟨by simp, rfl⟩
  | mutexLock =>
    cases hs
    have hfree : s.lockMutex = none := by simpa using hen
    have hn : ∀ q, ¬ Owned s q := by
      rintro q ⟨t', hown, _⟩
      rw [hfree] at hown
      cases hown
    refine ⟨fun t' d h' => ?_, fun h' => ?_, fun h' hr => ?_⟩
    · rcases moved_cases h' with ⟨rfl, _⟩ | ⟨_, h'⟩
      · rfl
      · cases hfree.symm.trans (h.raising t' d h')
    · exact absurd (h.request h') (hn _)
    · exact absurd (h.parked h' hr) (hn _)
  | raise =>
    cases hs
    refine ⟨fun t' d h' => (h.still_raising (by simp) h').2,
      fun _ => ⟨t, h.raising t c ht, fun p d h' => ?_⟩, fun h' hr => ?_⟩
    · rcases moved_cases h' with ⟨_, h'⟩ | ⟨hne, _⟩
      · cases h'
        rfl
      · exact absurd rfl hne
    · refine (h.parked h' hr).move (x := .lock .waitAck c) rfl rfl ?_
      rintro _ _ ⟨⟩
      rfl
  | waitAck =>
    cases hs
    refine h.move (x := .lock .unsignalAck c) rfl rfl rfl rfl rfl ?_
    rintro _ _ ⟨⟩
    exact ⟨by simp, rfl⟩
  | unsignalAck =>
    cases hs
    refine h.move (x := .lock .change c) rfl rfl rfl rfl rfl ?_
    rintro _ _ ⟨⟩
    exact ⟨by simp, rfl⟩
  | change =>
    simp only [Pool.lockStep, bind_eq_ok] at hs
    obtain ⟨s₁, hs₁, hs⟩ := hs
    cases hs
    have ho := outside_of_apply hs₁
    refine (ho.parking h).move (x := .lock .leave c) rfl rfl rfl rfl rfl ?_
    rintro _ _ ⟨⟩
    exact ⟨by simp, rfl⟩
  | leave =>
    cases hs
    refine h.move (x := if s.lockSafe then .idle else .lock .signalReq c) rfl rfl rfl rfl rfl ?_
    intro q d hq
    split at hq
    · cases hq
    · cases hq
      exact ⟨by simp, rfl⟩
  | signalReq =>
    cases hs
    refine ⟨fun t' d h' => (h.still_raising (by simp) h').2, fun h' => ?_,
      fun _ hr => (by cases hr)⟩
    refine (h.request h').move (x := .lock .lower c) rfl rfl ?_
    rintro _ _ ⟨⟩
    rfl
  | lower =>
    cases hs
    refine ⟨fun t' d h' => (h.still_raising (by simp) h').2, fun h' => (by cases h'),
      fun h' hr => ?_⟩
    -- the poller waits for another thread
    have hother := (h.parked h' hr).absurd ht rfl
    refine (h.parked h' hr).mono rfl fun t' p d hown h'' => ?_
    rcases moved_cases h'' with ⟨rfl, _⟩ | ⟨_, h''⟩
    · exact absurd hown hother
    · exact .inl h''
  | mutexUnlock =>
    simp only [Pool.lockStep] at hs
    split at hs
    · next hown =>
      cases hs
      refine ⟨fun t' d h' => ?_, fun h' => ?_, fun h' hr => ?_⟩
      · obtain ⟨hne, hown'⟩ := h.still_raising (by simp) h'
        exact absurd (Option.some.inj (hown'.symm.trans hown)) hne
      · exact absurd hown ((h.request h').absurd ht rfl)
      · exact absurd hown ((h.parked h' hr).absurd ht rfl)
    · cases hs

theorem Locks.parking (h : Locks s e s') (hk : Parking s) (hen : enabled s e = true)
    (hc : NoStaleRequest s e) : Parking s' := by
  cases h with
  | outside h => exact h.parking hk
  | park hp hl =>
    refine ⟨hk.raising, hk.request, fun _ hr => ?_⟩
    obtain ⟨t, hown, hn⟩ := hk.request hl
    refine ⟨t, hown, fun p c ht => ?_⟩
    have hlow : p ≠ .lower := by
      rintro rfl
      exact hc hp hl hr t c hown ht
    have hlast := hn p c ht
    cases p <;> first | rfl | exact absurd rfl hlow | cases hlast
  | round hp hl x => exact hk.poll rfl rfl rfl (resumed (position_cases x))
  | ack hp => exact ⟨hk.raising, hk.request, fun _ hr => hk.parked (.inl hp) hr⟩
  | wake hp hr => exact hk.poll rfl rfl rfl ⟨nofun, nofun⟩
  | resume hp x => exact hk.poll rfl rfl rfl (resumed (position_cases x))
  | iterate hp h =>
    have hf := h.frame
    exact hk.poll hf.lockMutex hf.lockState hf.threads (resumed hf.poller)
  | thread ht h => exact hk.lockStep hen ht h

theorem init_parking : Parking .init where
  raising _ _ h := by cases h
  request h := by cases h
  parked h := by rcases h with h | h <;> cases h

/-- A run in which the poller meets no stale request never leaves it parked. -/
theorem guarded_notParked {h : List (Pool × Event)} (r : machine.Run h s)
    (hg : Machine.Guarded NoStaleRequest h) : Machine.Always NotParked h s := by
  have ha : Machine.Always Parking h s := by
    refine r.always_of_guarded ?_ ?_ hg
    · rintro s rfl
      exact init_parking
    · intro s e s' hk hc he hstep
      exact (step_locks he hstep).parking hk he hc
  exact ha.mono fun s h => h.not_parked

def lowering (s : Pool) : Bool :=
  match s.lockMutex.map s.threads with
  | some (.lock .lower _) => true
  | _ => false

theorem working_notParked : ∃ (h : List (Pool × Event)) (s : Pool), machine.Run h s ∧
    s.lockMutex = none ∧ Machine.Always NotParked h s := by
  obtain ⟨h, s, r, hg, hm⟩ := Machine.exists_guarded (M := machine) (C := NoStaleRequest)
    (c := fun s e => !e.isPoll || !lowering s) working (fun s => s.lockMutex = none)
    (fun s e hc => by
      cases e with
      | poll o =>
        intro _ _ _ t c hown ht
        simp [Event.isPoll, lowering, hown, ht] at hc
      | _ => trivial) rfl (by decide)
  exact ⟨h, s, r, of_decide_eq_true hm, guarded_notParked r hg⟩

theorem poller_parked : ∃ s, machine.Reachable s ∧ ¬ NotParked s := by
  have r₁ := (Machine.Run.init (M := machine) (s := .init) rfl).step
    (e := .begin 0 (.change (.getworker 0))) rfl rfl
  have r₄ := ((r₁.step (e := .thread 0) rfl rfl).step (e := .thread 0) rfl rfl).step
    (e := .thread 0) rfl rfl
  have r₆ := (r₄.step (e := .poll none) rfl rfl).step (e := .poll none) rfl rfl
  have r₁₁ := ((((r₆.step (e := .thread 0) rfl rfl).step (e := .thread 0) rfl rfl).step
    (e := .thread 0) rfl rfl).step (e := .thread 0) rfl rfl).step (e := .thread 0) rfl rfl
  -- the poller goes round once and finds the request that was signalled
  have r₁₅ := (((r₁₁.step (e := .poll none) rfl rfl).step (e := .poll none) rfl rfl).step
    (e := .poll none) rfl rfl).step (e := .poll none) rfl rfl
  have r₁₇ := (r₁₅.step (e := .poll none) rfl rfl).step (e := .poll none) rfl rfl
  have r₁₉ := (r₁₇.step (e := .thread 0) rfl rfl).step (e := .thread 0) rfl rfl
  refine ⟨_, r₁₉.reachable, fun h => ?_⟩
  refine h rfl (fun t c ht => ?_) ⟨rfl, rfl⟩
  rcases t with _ | t <;> cases ht

end OfiTransport.Ofiw
