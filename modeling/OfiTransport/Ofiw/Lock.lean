import OfiTransport.Ofiw.Steps

/-! The lock that keeps the other threads from the lists while the poller goes through them. -/

namespace OfiTransport.Ofiw

open Lib

def Iterate.safe : Iterate → Bool
  | .ctxEnter .. | .feed .. | .handle .. | .ctxLeave _ | .clearSafe => true
  | _ => false

def Poller.safe : Poller → Bool
  | .iterate p => p.safe
  | _ => false

def Locking.holds : Locking → Bool
  | .enter | .mutexLock => false
  | _ => true

structure Outside (s s' : Pool) : Prop where
  lockState : s'.lockState = s.lockState
  lockSafe : s'.lockSafe = s.lockSafe
  lockMutex : s'.lockMutex = s.lockMutex
  efdLockReq : s'.efdLockReq = s.efdLockReq
  efdLockAck : s'.efdLockAck = s.efdLockAck
  poller : s'.poller = s.poller
  threads : ∀ t p c, s'.threads t = .lock p c → p = .enter ∨ s.threads t = .lock p c

inductive Locks (s : Pool) : Event → Pool → Prop
  | outside (h : Outside s s') : Locks s e s'
  | park (hp : s.poller = .top) (hl : s.lockState = true) :
      Locks s (.poll o) (s.setPoller .signalAck)
  | round (hp : s.poller = .top) (hl : s.lockState = false) (x : Option Nat) :
      Locks s (.poll o) (s.atWorker x)
  | ack (hp : s.poller = .signalAck) :
      Locks s (.poll o) ({ s with efdLockAck := true }.setPoller .waitReq)
  | wake (hp : s.poller = .waitReq) (hr : s.efdLockReq = true) :
      Locks s (.poll o) (s.setPoller .unsignalReq)
  | resume (hp : s.poller = .unsignalReq) (x : Option Nat) :
      Locks s (.poll o) ({ s with efdLockReq := false }.atWorker x)
  | iterate (hp : s.poller = .iterate p) (h : Iterates s o p s') : Locks s (.poll o) s'
  | thread (ht : s.threads t = .lock p c) (h : s.lockStep t c p = .ok s') :
      Locks s (.thread t) s'

section Steps

variable {s s' : Pool} {t : Nat}

theorem outside_of_apply {c : Change} (h : s.apply c = .ok s') : Outside s s' := by
  cases c with
  | getworker ctx =>
    cases h
    exact ⟨rfl, rfl, rfl, rfl, rfl, rfl, fun _ _ _ h => .inr h⟩
  | term w | add w fdType fd | remove w fd =>
    obtain ⟨_, h⟩ := use_eq_ok.1 h
    cases h
    exact ⟨rfl, rfl, rfl, rfl, rfl, rfl, fun _ _ _ h => .inr h⟩

theorem apply_threads {c : Change} (h : s.apply c = .ok s') : s'.threads = s.threads := by
  cases c with
  | getworker ctx =>
    cases h
    rfl
  | term w | add w fdType fd | remove w fd =>
    obtain ⟨_, h⟩ := use_eq_ok.1 h
    cases h
    rfl

theorem Outside.of_thread {p : Thread} (hp : ∀ q c, p = .lock q c → q = .enter)
    (h₁ : s'.lockState = s.lockState) (h₂ : s'.lockSafe = s.lockSafe)
    (h₃ : s'.lockMutex = s.lockMutex) (h₄ : s'.efdLockReq = s.efdLockReq)
    (h₅ : s'.efdLockAck = s.efdLockAck) (h₆ : s'.poller = s.poller)
    (ht : s'.threads = Function.update s.threads t p) : Outside s s' := by
  refine ⟨h₁, h₂, h₃, h₄, h₅, h₆, fun t' q c h => ?_⟩
  rw [ht] at h
  rcases moved_cases h with ⟨_, h⟩ | ⟨_, h⟩
  · exact .inl (hp q c h)
  · exact .inr h

theorem outside_of_stop {w : Nat} {p : Stopping} (h : s.stopStep t w p = .ok s') :
    Outside s s' := by
  cases p with
  | readActive =>
    obtain ⟨_, h⟩ := use_eq_ok.1 h
    split at h
    · cases h
      exact .of_thread (p := .idle) nofun rfl rfl rfl rfl rfl rfl rfl
    · cases h
      exact .of_thread (p := .stop .readSafe w) nofun rfl rfl rfl rfl rfl rfl rfl
  | _ =>
    obtain ⟨_, h⟩ := use_eq_ok.1 h
    cases h
    refine .of_thread ?_ rfl rfl rfl rfl rfl rfl rfl
    exact nofun

theorem outside_of_begin {c : Call} (h : s.begin t c = .ok s') : Outside s s' := by
  cases c with
  | change c =>
    cases h
    refine .of_thread (p := .lock .enter c) ?_ rfl rfl rfl rfl rfl rfl rfl
    rintro q c h
    cases h
    rfl
  | start w =>
    obtain ⟨_, h⟩ := use_eq_ok.1 h
    cases h
    exact ⟨rfl, rfl, rfl, rfl, rfl, rfl, fun _ _ _ h => .inr h⟩
  | stop w =>
    cases h
    exact .of_thread (p := .stop .readActive w) nofun rfl rfl rfl rfl rfl rfl rfl

theorem outside_of_callback {c : Call} (h : s.callback c = .ok s') : Outside s s' := by
  cases c with
  | change c => exact outside_of_apply h
  | start w =>
    obtain ⟨_, h⟩ := use_eq_ok.1 h
    cases h
    exact ⟨rfl, rfl, rfl, rfl, rfl, rfl, fun _ _ _ h => .inr h⟩
  | stop w =>
    obtain ⟨_, h⟩ := use_eq_ok.1 h
    split at h <;>
    · cases h
      exact ⟨rfl, rfl, rfl, rfl, rfl, rfl, fun _ _ _ h => .inr h⟩

theorem step_locks {e : Event} (he : enabled s e = true) (h : step s e = .ok s') :
    Locks s e s' := by
  cases e with
  | poll o =>
    simp only [step, Pool.poll] at h
    split at h
    · next hp =>
      split at h
      · next hl =>
        cases h
        exact .park hp hl
      · next hl =>
        cases h
        exact .round hp (by simpa using hl) _
    · next hp =>
      cases h
      exact .ack hp
    · next hp =>
      cases h
      simp only [enabled, hp] at he
      exact .wake hp he
    · next hp =>
      cases h
      exact .resume hp _
    · next p hp => exact .iterate hp (iterate_iterates h)
  | callback c => exact .outside (outside_of_callback h)
  | begin t c => exact .outside (outside_of_begin h)
  | thread t =>
    simp only [step, Pool.threadStep] at h
    split at h
    · next ht => simp [enabled, ht] at he
    · next p c ht => exact .thread ht h
    · exact .outside (outside_of_stop h)
  | enter t c =>
    cases h
    exact .outside ⟨rfl, rfl, rfl, rfl, rfl, rfl, fun _ _ _ h => .inr h⟩
  | leave t c =>
    cases h
    exact .outside ⟨rfl, rfl, rfl, rfl, rfl, rfl, fun _ _ _ h => .inr h⟩

@[simp] theorem position_safe (x : Option Nat) : (Poller.position x).safe = false := by
  cases x <;> rfl

structure Iterates.Frame (s s' : Pool) : Prop where
  lockState : s'.lockState = s.lockState
  lockMutex : s'.lockMutex = s.lockMutex
  efdLockReq : s'.efdLockReq = s.efdLockReq
  efdLockAck : s'.efdLockAck = s.efdLockAck
  threads : s'.threads = s.threads
  poller : s'.poller = .top ∨ ∃ p, s'.poller = .iterate p

theorem position_cases (x : Option Nat) :
    Poller.position x = .top ∨ ∃ p, Poller.position x = .iterate p := by
  cases x with
  | none => exact .inl rfl
  | some w => exact .inr ⟨_, rfl⟩

theorem Iterates.frame {o : Option Nat} {p : Iterate} (h : Iterates s o p s') :
    Iterates.Frame s s' := by
  cases h with
  | leave _ _ x | signal _ x => exact ⟨rfl, rfl, rfl, rfl, rfl, position_cases x⟩
  | clearSafe => exact ⟨rfl, rfl, rfl, rfl, rfl, .inl rfl⟩
  | _ => exact ⟨rfl, rfl, rfl, rfl, rfl, .inr ⟨_, rfl⟩⟩

theorem Iterates.safe {o : Option Nat} {p : Iterate} (h : Iterates s o p s')
    (hs : s.lockSafe = p.safe) : s'.lockSafe = s'.poller.safe := by
  cases h with
  | leave hp o x =>
    have hn : s.lockSafe = false := by
      rcases hp with rfl | rfl | ⟨it, rfl⟩ <;> exact hs
    exact hn.trans (position_safe x).symm
  | signal _ x => exact hs.trans (position_safe x).symm
  | setSafe | clearSafe => rfl
  | _ => exact hs

theorem lockStep_safe {c : Change} {p : Locking} (h : s.lockStep t c p = .ok s') :
    s'.lockSafe = s.lockSafe ∧ s'.poller = s.poller := by
  cases p with
  | change =>
    simp only [Pool.lockStep, bind_eq_ok] at h
    obtain ⟨s₁, hs, h⟩ := h
    cases h
    have ho := outside_of_apply hs
    exact ⟨ho.lockSafe, ho.poller⟩
  | mutexUnlock =>
    simp only [Pool.lockStep] at h
    split at h
    · cases h
      exact ⟨rfl, rfl⟩
    · cases h
  | _ =>
    cases h
    exact ⟨rfl, rfl⟩

def SafeInside (s : Pool) : Prop := s.lockSafe = s.poller.safe

theorem Locks.safeInside {e : Event} (h : Locks s e s') (hs : SafeInside s) : SafeInside s' := by
  have hn : s.poller.safe = false → s.lockSafe = false := fun h => hs.trans h
  cases h with
  | outside h => exact h.lockSafe.trans (hs.trans (by rw [h.poller]))
  | park hp | ack hp | wake hp => exact hn (by rw [hp]; rfl)
  | round hp _ x | resume hp x => exact (hn (by rw [hp]; rfl)).trans (position_safe x).symm
  | iterate hp h => exact h.safe (hs.trans (by rw [hp]; rfl))
  | thread _ h =>
    obtain ⟨h₁, h₂⟩ := lockStep_safe h
    exact h₁.trans (hs.trans (by rw [h₂]))

end Steps

section Exclusion

/-- How far the poller and the thread that has the mutex have got. -/
inductive Phase
  | free
  | acked
  | held
  | released

def Phase.allows : Phase → Locking → Bool
  | .held, .change | .held, .leave | .held, .signalReq => true
  | .held, _ => false
  | .acked, .unsignalAck => true
  | _, .raise | _, .waitAck | _, .lower | _, .mutexUnlock => true
  | _, _ => false

def Phase.Fits (s : Pool) : Phase → Prop
  | .free =>
    s.poller ≠ .waitReq ∧ s.poller ≠ .unsignalReq ∧ s.efdLockAck = false ∧ s.efdLockReq = false
  | .acked => s.poller = .waitReq ∧ s.efdLockAck = true ∧ s.efdLockReq = false
  | .held =>
    s.poller = .waitReq ∧ s.efdLockAck = false ∧ s.efdLockReq = false ∧ s.lockMutex ≠ none
  | .released =>
    (s.poller = .waitReq ∨ s.poller = .unsignalReq) ∧ s.efdLockAck = false ∧
      s.efdLockReq = true

structure Handshake (s : Pool) (ph : Phase) : Prop where
  fits : ph.Fits s
  owner : ∀ t p c, s.threads t = .lock p c → p.holds = true →
    s.lockMutex = some t ∧ ph.allows p = true

/-- While another thread may change the lists the poller is not inside its iteration, and the
mutex is unlocked by the thread that locked it. -/
structure Exclusive (s : Pool) : Prop where
  lists : ∀ t p c, s.threads t = .lock p c → p = .change ∨ p = .leave →
    ∀ q, s.poller ≠ .iterate q
  mutex : ∀ t c, s.threads t = .lock .mutexUnlock c → s.lockMutex = some t

/-- No other thread finds `lock_safe` set when it is about to lock. -/
def NoShortcut (s : Pool) : Event → Prop
  | .thread t => ∀ c, s.threads t = .lock .enter c → s.lockSafe = false
  | _ => True

variable {s s' : Pool} {e : Event} {ph : Phase}

theorem Handshake.exclusive (h : Handshake s ph) : Exclusive s := by
  constructor
  · rintro t p c ht hp q hq
    have ha := (h.owner t p c ht (by rcases hp with rfl | rfl <;> rfl)).2
    have hf := h.fits
    cases ph with
    | held =>
      have hw := hf.1
      rw [hq] at hw
      cases hw
    | free | acked | released => rcases hp with rfl | rfl <;> cases ha
  · intro t c ht
    exact (h.owner t _ c ht rfl).1

theorem Outside.handshake (h : Outside s s') (hh : Handshake s ph) : Handshake s' ph := by
  refine ⟨?_, fun t p c ht hp => ?_⟩
  · have hf := hh.fits
    cases ph <;> simpa only [Phase.Fits, h.poller, h.efdLockAck, h.efdLockReq, h.lockMutex] using hf
  · rcases h.threads t p c ht with rfl | ht
    · cases hp
    · rw [h.lockMutex]
      exact hh.owner t p c ht hp

theorem Handshake.eq_free {p : Poller} (h : Handshake s ph) (hp : s.poller = p)
    (h₁ : p ≠ .waitReq) (h₂ : p ≠ .unsignalReq) : ph = .free := by
  subst hp
  have hf := h.fits
  cases ph with
  | free => rfl
  | acked | held => exact absurd hf.1 h₁
  | released => exact hf.1.elim (absurd · h₁) (absurd · h₂)

theorem Handshake.poll {ph' : Phase} (h : Handshake s ph) (hm : s'.lockMutex = s.lockMutex)
    (ht : s'.threads = s.threads) (hf : ph'.Fits s')
    (ha : ∀ p, ph.allows p = true → ph'.allows p = true) : Handshake s' ph' := by
  refine ⟨hf, fun t p c h' hp => ?_⟩
  rw [ht] at h'
  rw [hm]
  exact ⟨(h.owner t p c h' hp).1, ha p (h.owner t p c h' hp).2⟩

theorem Handshake.unique {t t' : Nat} {p p' : Locking} {c c' : Change} (h : Handshake s ph)
    (ht : s.threads t = .lock p c) (hp : p.holds = true) (ht' : s.threads t' = .lock p' c')
    (hp' : p'.holds = true) : t' = t := by
  have hown := (h.owner t p c ht hp).1
  rw [(h.owner t' p' c' ht' hp').1] at hown
  exact Option.some.inj hown

theorem Handshake.move {ph' : Phase} {t : Nat} {p p' : Locking} {c : Change}
    (h : Handshake s ph) (ht : s.threads t = .lock p c) (hp : p.holds = true)
    (hs : s'.threads = Function.update s.threads t (.lock p' c))
    (hm : s'.lockMutex = s.lockMutex) (hf : ph'.Fits s') (ha : ph'.allows p' = true) :
    Handshake s' ph' := by
  refine ⟨hf, fun t' q d h' hq => ?_⟩
  rw [hs] at h'
  rw [hm]
  rcases moved_cases h' with ⟨rfl, hx⟩ | ⟨hne, h'⟩
  · cases hx
    exact ⟨(h.owner t' p c ht hp).1, ha⟩
  · exact absurd (h.unique ht hp h' hq) hne

theorem Handshake.other {t : Nat} {q : Thread} (h : Handshake s ph)
    (hq : ∀ p c, q = .lock p c → p.holds = false)
    (hs : s'.threads = Function.update s.threads t q) (hm : s'.lockMutex = s.lockMutex)
    (hf : ph.Fits s') : Handshake s' ph := by
  refine ⟨hf, fun t' p c h' hp => ?_⟩
  rw [hs] at h'
  rw [hm]
  rcases moved_cases h' with ⟨_, h'⟩ | ⟨_, h'⟩
  · rw [hq p c h'] at hp
    cases hp
  · exact h.owner t' p c h' hp

theorem Phase.eq_held {p : Locking} (h : ph.allows p = true)
    (hp : p = .change ∨ p = .leave ∨ p = .signalReq) : ph = .held := by
  rcases hp with rfl | rfl | rfl <;> cases ph <;> first | rfl | cases h

theorem Phase.eq_acked (h : ph.allows .unsignalAck = true) : ph = .acked := by
  cases ph <;> first | rfl | cases h

theorem Phase.allows_around {p : Locking} (hp : p = .raise ∨ p = .waitAck ∨ p = .lower ∨
    p = .mutexUnlock) : ph.allows p = true ↔ ph ≠ .held := by
  rcases hp with rfl | rfl | rfl | rfl <;> cases ph <;> simp [Phase.allows]

theorem Handshake.lockStep {t : Nat} {p : Locking} {c : Change} (h : Handshake s ph)
    (hsafe : SafeInside s) (hen : enabled s (.thread t) = true) (hc : NoShortcut s (.thread t))
    (ht : s.threads t = .lock p c) (hs : s.lockStep t c p = .ok s') : ∃ ph', Handshake s' ph' := by
  have hf := h.fits
  have ha : p.holds = true → ph.allows p = true := fun hp => (h.owner t p c ht hp).2
  simp only [enabled, ht] at hen
  cases p with
  | enter =>
    cases hs
    rw [hc c ht]
    refine ⟨ph, h.other (q := .lock .mutexLock c) ?_ rfl rfl hf⟩
    rintro _ _ ⟨⟩
    rfl
  | mutexLock =>
    cases hs
    have hfree : s.lockMutex = none := by simpa using hen
    have hne : ph ≠ .held := by
      rintro rfl
      exact hf.2.2.2 hfree
    refine ⟨ph, ?_, fun t' q d h' hq => ?_⟩
    · cases ph with
      | held => exact absurd rfl hne
      | free | acked | released => exact hf
    · rcases moved_cases h' with ⟨rfl, hx⟩ | ⟨_, h'⟩
      · cases hx
        exact ⟨rfl, (Phase.allows_around (.inl rfl)).2 hne⟩
      · cases hfree.symm.trans (h.owner t' q d h' hq).1
  | raise =>
    cases hs
    have hne := (Phase.allows_around (.inl rfl)).1 (ha rfl)
    exact ⟨ph, h.move ht rfl rfl rfl hf ((Phase.allows_around (.inr (.inl rfl))).2 hne)⟩
  | waitAck =>
    cases hs
    -- the signal is there, so the poller has given it
    have hack : ph = .acked := by
      cases ph with
      | acked => rfl
      | free => simp [hf.2.2.1] at hen
      | held | released => simp [hf.2.1] at hen
    subst hack
    exact ⟨.acked, h.move ht rfl rfl rfl hf rfl⟩
  | unsignalAck =>
    cases hs
    obtain rfl := Phase.eq_acked (ha rfl)
    refine ⟨.held, h.move ht rfl rfl rfl ⟨hf.1, rfl, hf.2.2, ?_⟩ rfl⟩
    rw [Pool.setThread, (h.owner t _ c ht rfl).1]
    simp
  | change =>
    simp only [Pool.lockStep, bind_eq_ok] at hs
    obtain ⟨s₁, hs₁, hs⟩ := hs
    cases hs
    obtain rfl := Phase.eq_held (ha rfl) (.inl rfl)
    have ho := outside_of_apply hs₁
    refine ⟨.held, h.move ht rfl (by rw [Pool.setThread, apply_threads hs₁]) ho.lockMutex ?_ rfl⟩
    exact (ho.handshake h).fits
  | leave =>
    cases hs
    obtain rfl := Phase.eq_held (ha rfl) (.inr (.inl rfl))
    have hls : s.lockSafe = false := by
      rw [hsafe, hf.1]
      rfl
    rw [hls]
    exact ⟨.held, h.move ht rfl rfl rfl hf rfl⟩
  | signalReq =>
    cases hs
    obtain rfl := Phase.eq_held (ha rfl) (.inr (.inr rfl))
    exact ⟨.released, h.move ht rfl rfl rfl ⟨.inl hf.1, hf.2.1, rfl⟩ rfl⟩
  | lower =>
    cases hs
    have hne := (Phase.allows_around (.inr (.inr (.inl rfl)))).1 (ha rfl)
    exact ⟨ph, h.move ht rfl rfl rfl hf ((Phase.allows_around (.inr (.inr (.inr rfl)))).2 hne)⟩
  | mutexUnlock =>
    simp only [Pool.lockStep] at hs
    split at hs
    · next hown =>
      cases hs
      have hne := (Phase.allows_around (.inr (.inr (.inr rfl)))).1 (ha rfl)
      refine ⟨ph, ?_, fun t' q d h' hq => ?_⟩
      · cases ph with
        | held => exact absurd rfl hne
        | free | acked | released => exact hf
      · rcases moved_cases h' with ⟨_, h'⟩ | ⟨hne', h'⟩
        · cases h'
        · exact absurd (h.unique ht rfl h' hq) hne'
    · cases hs

theorem free_fits (h : s'.poller = .top ∨ ∃ p, s'.poller = .iterate p)
    (ha : s'.efdLockAck = false) (hr : s'.efdLockReq = false) : Phase.free.Fits s' := by
  rcases h with h | ⟨p, h⟩
  · exact ⟨by simp [h], by simp [h], ha, hr⟩
  · exact ⟨by simp [h], by simp [h], ha, hr⟩

theorem Locks.handshake (h : Locks s e s') (hh : Handshake s ph) (hsafe : SafeInside s)
    (hen : enabled s e = true) (hc : NoShortcut s e) : ∃ ph', Handshake s' ph' := by
  have hf := hh.fits
  cases h with
  | outside h => exact ⟨ph, h.handshake hh⟩
  | park hp hl =>
    obtain rfl := hh.eq_free hp (by simp) (by simp)
    exact ⟨.free, hh.poll rfl rfl ⟨nofun, nofun, hf.2.2⟩ (fun _ => id)⟩
  | round hp hl x =>
    obtain rfl := hh.eq_free hp (by simp) (by simp)
    exact ⟨.free, hh.poll rfl rfl (free_fits (position_cases x) hf.2.2.1 hf.2.2.2) (fun _ => id)⟩
  | ack hp =>
    obtain rfl := hh.eq_free hp (by simp) (by simp)
    refine ⟨.acked, hh.poll rfl rfl ⟨rfl, rfl, hf.2.2.2⟩ (fun p h => ?_)⟩
    cases p <;> first | rfl | cases h
  | wake hp hr =>
    cases ph with
    | free => exact absurd hp hf.1
    | acked => cases hr.symm.trans hf.2.2
    | held => cases hr.symm.trans hf.2.2.1
    | released =>
      exact ⟨.released, hh.poll rfl rfl ⟨.inr rfl, hf.2.1, hf.2.2⟩ (fun _ => id)⟩
  | resume hp x =>
    cases ph with
    | free => exact absurd hp hf.2.1
    | acked | held => cases hp.symm.trans hf.1
    | released =>
      refine ⟨.free, hh.poll rfl rfl (free_fits (position_cases x) hf.2.1 rfl) (fun p h => ?_)⟩
      cases p <;> first | rfl | cases h
  | iterate hp h =>
    obtain rfl := hh.eq_free hp (by simp) (by simp)
    have hk := h.frame
    refine ⟨.free, hh.poll hk.lockMutex hk.threads (free_fits hk.poller ?_ ?_) (fun _ => id)⟩
    · exact hk.efdLockAck.trans hf.2.2.1
    · exact hk.efdLockReq.trans hf.2.2.2
  | thread ht h => exact hh.lockStep hsafe hen hc ht h

theorem init_handshake : Handshake .init .free := by
  refine ⟨⟨nofun, nofun, rfl, rfl⟩, ?_⟩
  intro t p c ht
  cases ht

theorem handshake_of_run {h : List (Pool × Event)} (r : machine.Run h s)
    (hg : Machine.Guarded NoShortcut h) :
    Machine.Always (fun s => SafeInside s ∧ ∃ ph, Handshake s ph) h s := by
  refine r.always_of_guarded ?_ ?_ hg
  · rintro s rfl
    exact ⟨rfl, .free, init_handshake⟩
  · rintro s e s' ⟨hsafe, ph, hh⟩ hc he hstep
    have hl := step_locks he hstep
    exact ⟨hl.safeInside hsafe, hl.handshake hh hsafe he hc⟩

/-- Another thread that finds `lock_safe` set goes straight on to its change. -/
theorem noShortcut_of_exclusive (hsafe : SafeInside s) (hstep : step s e = .ok s')
    (hx : Exclusive s') : NoShortcut s e := by
  cases e with
  | thread t =>
    intro c ht
    cases hl : s.lockSafe with
    | false => rfl
    | true =>
      simp only [step, Pool.threadStep, ht, Pool.lockStep, hl] at hstep
      cases hstep
      exfalso
      have hin : s.poller.safe = true := hsafe.symm.trans hl
      cases hp : s.poller with
      | iterate q => exact hx.lists t .change c (by simp) (.inl rfl) q hp
      | _ => simp [hp, Poller.safe] at hin
  | _ => trivial

/-- Exactly in the runs without a shortcut the lists are changed by one at a time. -/
theorem always_exclusive_iff {h : List (Pool × Event)} (r : machine.Run h s) :
    Machine.Always Exclusive h s ↔ Machine.Guarded NoShortcut h := by
  constructor
  · intro ha
    refine r.guarded_of_always (I := SafeInside) ?_ ?_ ?_ ha
    · rintro s rfl
      rfl
    · intro s e s' hs he hstep
      exact (step_locks he hstep).safeInside hs
    · intro s e s' hs _ hstep hx
      exact noShortcut_of_exclusive hs hstep hx
  · intro hg
    refine (handshake_of_run r hg).mono ?_
    rintro s ⟨_, ph, h⟩
    exact h.exclusive

def changing (t : Nat) (c : Change) : List Event :=
  .begin t (.change c) :: List.replicate 3 (.thread t) ++ List.replicate 2 (.poll none) ++
    List.replicate 7 (.thread t) ++ List.replicate 2 (.poll none)

def working : List Event :=
  changing 0 (.getworker 0) ++ List.replicate 2 (.poll none) ++ changing 0 (.add 0 .cq 7) ++
    [.begin 0 (.start 0), .poll none]

def Event.isPoll : Event → Bool
  | .poll _ => true
  | _ => false

def sharing (s : Pool) (t : Nat) : Bool :=
  match s.threads t, s.poller with
  | .lock .change _, .iterate _ => true
  | _, _ => false

theorem working_exclusive : ∃ (h : List (Pool × Event)) (s : Pool), machine.Run h s ∧
    s.workers = [0] ∧ Machine.Always Exclusive h s := by
  obtain ⟨h, s, r, hg, hw⟩ := Machine.exists_guarded (M := machine) (C := NoShortcut)
    (c := fun s _ => !s.lockSafe) working (fun s => s.workers = [0]) (fun s e hc => by
      cases e with
      | thread t => exact fun _ _ => by simpa using hc
      | _ => trivial) rfl (by decide)
  exact ⟨h, s, r, of_decide_eq_true hw, (always_exclusive_iff r).2 hg⟩

theorem lists_shared : ∃ s, machine.Reachable s ∧ ¬ Exclusive s := by
  -- the poller has a completion in hand and waits for the context of the owner
  obtain ⟨s, hr, hc⟩ := Machine.exists_reachable (M := machine) (s := .init)
    (working ++ [.poll (some 0), .poll none, .begin 1 (.change (.remove 0 7)), .thread 1])
    (fun s => sharing s 1) rfl (by decide)
  refine ⟨s, hr, fun hx => ?_⟩
  simp only [sharing] at hc
  split at hc
  · next ht hp => exact hx.lists 1 _ _ ht (.inl rfl) _ hp
  · cases hc

end Exclusion

end OfiTransport.Ofiw
