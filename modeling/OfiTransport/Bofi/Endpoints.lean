import OfiTransport.Bofi.Offsets
import OfiTransport.Sofi.Defs

/-! The passive endpoint of the listening side: when it is closed, and which of the events
its queue and the SOFIs deliver the machine can take. -/

namespace OfiTransport.Bofi

open Lib

def Listen.Opens (l : Listen) : Prop := l.ep = 0 ∧ l.eq = 0 ∧ l.bind = 0

/-- The call closed no passive endpoint but an open one. -/
def Disciplined (r : M Bofi) : Prop := r ≠ .error .nullDeref ∧ r ≠ .error .useAfterFree

/-- A stop finds an endpoint, and the one opened after a connection request opens.  None is opened
after a rejection that the process does not get over. -/
def EndpointThere (b : Bofi) : Event → Prop
  | .userStop => b.fsm = .active → b.pep ≠ none
  | .connreq r => r.init = 0 → (r.accept ≠ 0 → r.readable = true) → r.relisten.Opens
  | _ => True

/-- What the children of a BOFI are documented to deliver: the events of `ofiapi.h` that are
no connection requests, and errors under a negative type. -/
def Documented : Event → Prop
  | .eq type => type = Sofi.FI_SHUTDOWN ∨ type < 0
  | _ => True

section Disciplined

@[simp] theorem disciplined_ok (b : Bofi) : Disciplined (.ok b) := by simp [Disciplined]

@[simp] theorem disciplined_error (f : Fault) :
    Disciplined (.error f) ↔ f ≠ .nullDeref ∧ f ≠ .useAfterFree := by
  simp [Disciplined]

end Disciplined

section Listening

variable {b b' : Bofi} {l : Listen}

theorem passiveEndpointClose_open {p : Nat} (hp : b.pep = some p) (ho : b.openPeps = [p]) :
    b.passiveEndpointClose = .ok { b with openPeps := [] } := by
  simp [passiveEndpointClose, hp, ho]

theorem cmReject_open {p : Nat} (readable : Bool) (hp : b.pep = some p) (ho : b.openPeps = [p]) :
    b.cmReject readable = if readable then .ok b else .error .freedInfo := by
  simp [cmReject, hp, ho]

theorem passiveEndpointClose_closed (ho : b.openPeps = []) :
    ∃ f, b.passiveEndpointClose = .error f ∧ (f = .nullDeref ∨ f = .useAfterFree) := by
  cases hp : b.pep with
  | none => exact ⟨.nullDeref, by simp [passiveEndpointClose, hp], .inl rfl⟩
  | some p => exact ⟨.useAfterFree, by simp [passiveEndpointClose, hp, ho], .inr rfl⟩

inductive Accepting (l : Listen) (b : Bofi) : Int × Bofi → Prop
  | listens (ho : l.Opens) : Accepting l b (0, { b with
      pep := some b.nextPep, openPeps := b.nextPep :: b.openPeps, nextPep := b.nextPep + 1,
      worker := true, state := .active })
  | deaf (ho : l.Opens) (hr : ret ≠ 0) : Accepting l b (ret, { b with
      pep := some b.nextPep, openPeps := b.nextPep :: b.openPeps, nextPep := b.nextPep + 1,
      worker := false })
  | unopened {p : Option Nat} (ho : ¬ l.Opens) (hr : ret ≠ 0) (hp : p = none ∨ p = b.pep) :
      Accepting l b (ret, { b with pep := p, worker := false })

theorem startAccepting_accepting (l : Listen) (b : Bofi) : Accepting l b (b.startAccepting l) := by
  by_cases he : l.ep = 0
  · by_cases hq : l.eq = 0
    · by_cases hb : l.bind = 0
      · by_cases hl : l.listen = 0
        · simpa [startAccepting, passiveEndpointOpen, he, hq, hb, hl] using
            Accepting.listens (l := l) (b := b) ⟨he, hq, hb⟩
        · simpa [startAccepting, passiveEndpointOpen, he, hq, hb, hl] using
            Accepting.deaf (l := l) (b := b) ⟨he, hq, hb⟩ hl
      · simpa [startAccepting, passiveEndpointOpen, he, hq, hb] using
          Accepting.unopened (l := l) (b := b) (fun h => hb h.2.2) hb (.inr rfl)
    · simpa [startAccepting, passiveEndpointOpen, he, hq] using
        Accepting.unopened (l := l) (b := b) (fun h => hq h.2.1) hq (.inl rfl)
  · simpa [startAccepting, passiveEndpointOpen, he] using
      Accepting.unopened (l := l) (b := b) (fun h => he h.1) he (.inl rfl)

end Listening

section Postures

inductive Posture (b : Bofi) : Prop
  | listening (hf : b.fsm = .active) (hs : b.state = .active) (hp : b.pep = some p)
      (ho : b.openPeps = [p]) (he : b.epbaseStopped = 0)
  | failed (hf : b.fsm = .active) (hs : b.state = .idle) (hw : b.worker = false)
      (ho : b.openPeps = b.pep.toList) (hn : b.sofis = []) (he : b.epbaseStopped = 0)
  | stopping (hf : b.fsm = .stopping) (hs : b.state = .stopping) (ho : b.openPeps = [])
      (hn : b.sofis ≠ []) (he : b.epbaseStopped = 0)
  | stopped (hf : b.fsm = .idle) (hs : b.state = .stopping) (ho : b.openPeps = [])
      (hn : b.sofis = []) (he : b.epbaseStopped = 1)

variable {b b' : Bofi} {e : Event}

theorem shutdownWait_posture (hf : b.fsm = .stopping) (hs : b.state = .stopping)
    (ho : b.openPeps = []) (he : b.epbaseStopped = 0) : Posture b.shutdownWait := by
  simp only [shutdownWait]
  split
  · next hn => exact .stopped rfl hs ho hn (by simp [he])
  · next hn => exact .stopping hf hs ho hn he

theorem fsmStop_open {p : Nat} (hf : b.fsm = .active) (hp : b.pep = some p)
    (ho : b.openPeps = [p]) :
    b.fsmStop = .ok { b with
      fsm := .stopping, state := .stopping, openPeps := []
      sofis := b.sofis.map Child.stop }.shutdownWait := by
  have hc := passiveEndpointClose_open (b := { b with fsm := .stopping, state := .stopping }) hp ho
  simp only [fsmStop, hf, if_true, shutdown, hc]
  rfl

theorem fsmStop_closed (hf : b.fsm = .active) (ho : b.openPeps = []) :
    ∃ f, b.fsmStop = .error f ∧ (f = .nullDeref ∨ f = .useAfterFree) := by
  obtain ⟨f, hc, hfault⟩ :=
    passiveEndpointClose_closed (b := { b with fsm := .stopping, state := .stopping }) ho
  refine ⟨f, ?_, hfault⟩
  simp only [fsmStop, hf, if_true, shutdown, hc]
  rfl

theorem fsmStop_posture {p : Nat} (hf : b.fsm = .active) (hp : b.pep = some p)
    (ho : b.openPeps = [p]) (he : b.epbaseStopped = 0) :
    ∃ b', b.fsmStop = .ok b' ∧ Posture b' :=
  ⟨_, fsmStop_open hf hp ho, shutdownWait_posture rfl rfl rfl he⟩

theorem listenAgain_opens {l : Listen} (hl : l.Opens) (hf : b.fsm = .active)
    (ho : b.openPeps = []) (he : b.epbaseStopped = 0) :
    ∃ b', b.listenAgain l = .ok b' ∧ Posture b' := by
  simp only [listenAgain]
  have ha := startAccepting_accepting l b
  generalize b.startAccepting l = r at ha
  cases ha with
  | listens => exact ⟨_, rfl, .listening hf rfl rfl (by simp [ho]) he⟩
  | deaf _ hr =>
    simp only [ne_eq, hr, not_false_eq_true, if_true, criticalError]
    exact fsmStop_posture hf rfl (by simp [ho]) he
  | unopened hn => exact absurd hl hn

theorem listenAgain_unopened {l : Listen} (hl : ¬ l.Opens) (hf : b.fsm = .active)
    (ho : b.openPeps = []) :
    ∃ f, b.listenAgain l = .error f ∧ (f = .nullDeref ∨ f = .useAfterFree) := by
  simp only [listenAgain]
  have ha := startAccepting_accepting l b
  generalize b.startAccepting l = r at ha
  cases ha with
  | listens h | deaf h => exact absurd h hl
  | unopened _ hr =>
    simp only [ne_eq, hr, not_false_eq_true, if_true, criticalError]
    exact fsmStop_closed hf ho

theorem Posture.frame {f : Child → Child} (h : Posture b) :
    Posture { b with sofis := b.sofis.map f } := by
  cases h with
  | listening hf hs hp ho he => exact .listening hf hs hp ho he
  | failed hf hs hw ho hn he => exact .failed hf hs hw ho (by simp [hn]) he
  | stopping hf hs ho hn he => exact .stopping hf hs ho (by simpa using hn) he
  | stopped hf hs ho hn he => exact .stopped hf hs ho (by simp [hn]) he

theorem reapSofi_cases (b : Bofi) (s : Child) :
    (∃ f, b.reapSofi s = .error f ∧ (f = .assertFailed ∨ f = .eraseNotInList)) ∨
      s ∈ b.sofis ∧ b.reapSofi s = .ok { b with
        sofiOffsets := b.sofiOffsets.set s.offset false, sofis := b.sofis.erase s } := by
  simp only [reapSofi, freeSofiOffset, nnAssert]
  by_cases ho : s.offset < b.sofiOffsets.length
  · by_cases hs : s ∈ b.sofis
    · exact .inr ⟨hs, by simp [ho, hs, bind, Except.bind, pure, Except.pure]⟩
    · exact .inl ⟨.eraseNotInList, by simp [ho, hs, bind, Except.bind, pure, Except.pure], .inr rfl⟩
  · exact .inl ⟨.assertFailed, by simp [ho, bind, Except.bind], .inl rfl⟩

def Reaps : Event → Prop
  | .sofiStopped _ => True
  | .connreq r => r.init ≠ 0
  | _ => False

def Unread : Event → Prop
  | .connreq r => r.init = 0 ∧ r.accept ≠ 0 ∧ r.readable = false
  | _ => False

inductive Outcome (b : Bofi) (e : Event) : M Bofi → Prop
  | done {b₁ : Bofi} (hp : Posture b₁) (ht : EndpointThere b e) (hn : ∀ type, e ≠ .eq type) :
      Outcome b e (.ok b₁)
  | unclosed (hf : f = .nullDeref ∨ f = .useAfterFree) (ht : ¬ EndpointThere b e)
      (hn : ∀ type, e ≠ .eq type) : Outcome b e (.error f)
  | unreaped (hf : f = .assertFailed ∨ f = .eraseNotInList) (ht : EndpointThere b e)
      (hr : Reaps e) : Outcome b e (.error f)
  | unread (ht : EndpointThere b e) (hu : Unread e) : Outcome b e (.error .freedInfo)
  | aborted (he : e = .eq type) : Outcome b e (.error .badAction)

theorem newSofiOffset_table (b : Bofi) :
    ∃ t, b.newSofiOffset.2 = { b with sofiOffsets := t } := by
  simp only [newSofiOffset]
  split <;> exact ⟨_, rfl⟩

theorem handleConnreq_outcome {p : Nat} {r : Request} (hf : b.fsm = .active) (hp : b.pep = some p)
    (ho : b.openPeps = [p]) (he : b.epbaseStopped = 0) :
    Outcome b (.connreq r) (b.handleConnreq r) := by
  have hn : ∀ type, Event.connreq r ≠ .eq type := by simp
  obtain ⟨t, hoff⟩ := newSofiOffset_table b
  simp only [handleConnreq, hoff]
  by_cases hi : r.init = 0
  · rw [if_neg (by simpa using hi)]
    -- both ways on close the endpoint and listen again
    have hagain : ∀ b₁ : Bofi, (r.accept ≠ 0 → r.readable = true) → b₁.fsm = .active →
        b₁.openPeps = [] → b₁.epbaseStopped = 0 →
          Outcome b (.connreq r) (b₁.listenAgain r.relisten) := by
      intro b₁ hr hf₁ ho₁ he₁
      by_cases hl : r.relisten.Opens
      · obtain ⟨b', hb, hp'⟩ := listenAgain_opens hl hf₁ ho₁ he₁
        rw [hb]
        exact .done hp' (fun _ _ => hl) hn
      · obtain ⟨f, hb, hfault⟩ := listenAgain_unopened hl hf₁ ho₁
        rw [hb]
        exact .unclosed hfault (fun h => hl (h hi hr)) hn
    have hclose := passiveEndpointClose_open
      (b := { b with sofiOffsets := t, nextSofi := b.nextSofi + 1 }) hp ho
    split
    · next ha =>
      rw [cmReject_open (b := { b with sofiOffsets := t, nextSofi := b.nextSofi + 1 })
        r.readable hp ho]
      by_cases hread : r.readable = true
      · simp only [hread, if_true, hclose, bind, Except.bind]
        exact hagain _ (fun _ => hread) hf rfl he
      · simp only [hread, bind, Except.bind]
        exact .unread (fun _ h => absurd (h ha) hread) ⟨hi, ha, by simpa using hread⟩
    · next ha =>
      simp only [hclose, bind, Except.bind]
      exact hagain _ (fun hne => absurd hne ha) hf rfl he
  · rw [if_pos (by simpa using hi)]
    have ht : EndpointThere b (.connreq r) := fun h _ => absurd h hi
    obtain ⟨f, hr, hfault⟩ | ⟨hs, hr⟩ := reapSofi_cases
      { b with sofiOffsets := t, nextSofi := b.nextSofi + 1 }
      ⟨b.nextSofi, b.newSofiOffset.1, .idle, false⟩
    · simp only [hr, bind, Except.bind]
      exact .unreaped hfault ht hi
    · simp only [hr, bind, Except.bind, criticalError]
      obtain ⟨b', hb, hp'⟩ := fsmStop_posture (b := { b with
        sofiOffsets := t.set b.newSofiOffset.1 false, nextSofi := b.nextSofi + 1,
        sofis := b.sofis.erase ⟨b.nextSofi, b.newSofiOffset.1, .idle, false⟩ }) hf hp ho he
      simp only [hb]
      exact .done hp' ht hn

theorem Posture.outcome (h : Posture b) (hen : b.enabled e = true) : Outcome b e (b.step e) := by
  cases e with
  | userStop =>
    have hn : ∀ type, Event.userStop ≠ .eq type := by simp
    simp only [step]
    cases h with
    | listening hf _ hp ho he =>
      obtain ⟨b', hb, hp'⟩ := fsmStop_posture hf hp ho he
      rw [hb]
      exact .done hp' (fun _ => by simp [hp]) hn
    | failed hf _ _ ho _ he =>
      cases hp : b.pep with
      | none =>
        obtain ⟨f, hb, hfault⟩ := fsmStop_closed hf (by simpa [hp] using ho)
        rw [hb]
        exact .unclosed hfault (fun h => h hf hp) hn
      | some p =>
        obtain ⟨b', hb, hp'⟩ := fsmStop_posture hf hp (by simpa [hp] using ho) he
        rw [hb]
        exact .done hp' (fun _ => by simp [hp]) hn
    | stopping hf hs ho hne he =>
      simp only [fsmStop, hf]
      exact .done (.stopping hf hs ho hne he) (by simp [EndpointThere, hf]) hn
    | stopped hf hs ho hne he =>
      simp only [fsmStop, hf]
      exact .done (.stopped hf hs ho hne he) (by simp [EndpointThere, hf]) hn
  | sofiEnds s => exact .done h.frame trivial (by simp)
  | sofiStopped s =>
    have hn : ∀ type, Event.sofiStopped s ≠ .eq type := by simp
    have hs : s ∈ b.sofis := by
      simp only [enabled, decide_eq_true_eq] at hen
      exact hen.1
    simp only [step, feed]
    cases h with
    | listening hf hst hp ho he =>
      simp only [hf, handler, hst, reduceCtorEq, if_false]
      obtain ⟨f, hr, hfault⟩ | ⟨_, hr⟩ := reapSofi_cases b s
      · rw [hr]
        exact .unreaped hfault trivial trivial
      · rw [hr]
        exact .done (.listening hf hst hp ho he) trivial hn
    | stopping hf hst ho _ he =>
      simp only [hf, if_true, shutdown]
      obtain ⟨f, hr, hfault⟩ | ⟨_, hr⟩ := reapSofi_cases b s
      · rw [hr]
        exact .unreaped hfault trivial trivial
      · rw [hr]
        exact .done (shutdownWait_posture hf hst ho he) trivial hn
    | failed _ _ _ _ hne | stopped _ _ _ hne => simp [hne] at hs
  | connreq r =>
    cases h with
    | listening hf hst hp ho he =>
      simp only [step, feed, hf, handler, hst, reduceCtorEq, if_false]
      exact handleConnreq_outcome hf hp ho he
    | failed _ _ hw => simp [enabled, watched, hw] at hen
    | stopping _ _ ho | stopped _ _ ho => simp [enabled, watched, ho] at hen
  | eq type =>
    cases h with
    | listening hf hst =>
      simp only [step, feed, hf, handler, hst, reduceCtorEq, if_false]
      exact .aborted rfl
    | failed _ _ hw => simp [enabled, watched, hw] at hen
    | stopping _ _ ho | stopped _ _ ho => simp [enabled, watched, ho] at hen

theorem create_ok (l : Listen) : ∃ b, create l = .ok b ∧ Posture b := by
  simp only [create, handler, listenAgain]
  have ha := startAccepting_accepting l
    ⟨.idle, .idle, none, [], 0, List.replicate 64 false, [], 0, false, 0⟩
  generalize startAccepting l _ = r at ha
  cases ha with
  | listens => exact ⟨_, rfl, .listening rfl rfl rfl rfl rfl⟩
  | deaf _ hr =>
    simp only [ne_eq, hr, not_false_eq_true, if_true, criticalError, fsmStop]
    exact ⟨_, rfl, .failed rfl rfl rfl rfl rfl rfl⟩
  | unopened _ hr hp =>
    simp only [ne_eq, hr, not_false_eq_true, if_true, criticalError, fsmStop]
    exact ⟨_, rfl, .failed rfl rfl rfl (by rcases hp with rfl | rfl <;> rfl) rfl rfl⟩

theorem reachable_posture (h : machine.Reachable b) : Posture b := by
  refine h.invariant ?_ ?_
  · rintro b ⟨l, hb⟩
    obtain ⟨b₁, h₁, hp⟩ := create_ok l
    have heq : b₁ = b := by simpa using h₁.symm.trans hb
    exact heq ▸ hp
  · intro b e b' hp hen hs
    have ho := hp.outcome hen
    rw [show machine.step b e = b.step e from rfl] at hs
    rw [hs] at ho
    cases ho with
    | done hp' => exact hp'

theorem Posture.of_watched (h : Posture b) (hw : b.watched = true) :
    b.fsm = .active ∧ (∃ p, b.pep = some p ∧ b.openPeps = [p]) ∧ b.epbaseStopped = 0 := by
  cases h with
  | listening hf _ hp ho he => exact ⟨hf, ⟨_, hp, ho⟩, he⟩
  | failed _ _ hn => simp [watched, hn] at hw
  | stopping _ _ ho | stopped _ _ ho => simp [watched, ho] at hw

theorem Posture.step_connreq (h : Posture b) (hw : b.watched = true) (r : Request) :
    b.step (.connreq r) = b.handleConnreq r := by
  cases h with
  | listening hf hst => simp [step, feed, hf, handler, hst]
  | failed _ _ hn => simp [watched, hn] at hw
  | stopping _ _ ho | stopped _ _ ho => simp [watched, ho] at hw

end Postures

section Told

def members (b : Bofi) : List Nat := b.sofis.map (·.id)

structure Told (b b' : Bofi) : Prop where
  sofis : b'.sofis = b.sofis ∨ b'.sofis = b.sofis.map Child.stop
  table : b'.sofiOffsets.length = b.sofiOffsets.length
  nextSofi : b'.nextSofi = b.nextSofi

variable {b b' : Bofi}

theorem passiveEndpointClose_eq (h : b.passiveEndpointClose = .ok b') :
    ∃ l, b' = { b with openPeps := l } := by
  simp only [passiveEndpointClose] at h
  split at h
  · cases h
  · split at h <;> cases h
    exact ⟨_, rfl⟩

theorem fsmStop_told (h : b.fsmStop = .ok b') : Told b b' := by
  simp only [fsmStop] at h
  split at h
  · simp only [shutdown, bind_eq_ok] at h
    obtain ⟨b₁, hc, h⟩ := h
    obtain ⟨l, rfl⟩ := passiveEndpointClose_eq hc
    cases h
    simp only [shutdownWait]
    split <;> exact ⟨.inr rfl, rfl, rfl⟩
  · cases h
    exact ⟨.inl rfl, rfl, rfl⟩

theorem fsmStop_eq (h : b.fsmStop = .ok b') (hf : b'.fsm = .active) : b' = b := by
  simp only [fsmStop] at h
  split at h
  · simp only [shutdown, bind_eq_ok] at h
    obtain ⟨b₁, hc, h⟩ := h
    obtain ⟨l, rfl⟩ := passiveEndpointClose_eq hc
    cases h
    simp only [shutdownWait] at hf
    split at hf <;> simp at hf
  · cases h
    rfl

theorem listenAgain_told {l : Listen} (h : b.listenAgain l = .ok b') : Told b b' := by
  simp only [listenAgain] at h
  have ha := startAccepting_accepting l b
  generalize b.startAccepting l = r at ha h
  cases ha with
  | listens =>
    cases h
    exact ⟨.inl rfl, rfl, rfl⟩
  | deaf _ hr | unopened _ hr =>
    simp only [ne_eq, hr, not_false_eq_true, if_true, criticalError] at h
    obtain ⟨hs, ht, hn⟩ := fsmStop_told h
    exact ⟨hs, ht, hn⟩

@[simp] theorem Child.stop_id (s : Child) : s.stop.id = s.id := by
  simp only [Child.stop]
  split <;> rfl

theorem Child.stop_idle (s : Child) : s.stop.fsm = .idle ↔ s.fsm = .idle := by
  simp only [Child.stop]
  split
  · next h => simp [h]
  · rfl

@[simp] theorem Child.ends_id (s c : Child) : (s.ends c).id = c.id := by
  simp only [Child.ends]
  split
  · next h => exact h ▸ rfl
  · rfl

theorem Told.members (h : Told b b') : b'.members = b.members := by
  rcases h.sofis with hs | hs <;> simp [Bofi.members, hs]

theorem handleConnreq_told {r : Request} (hi : r.init = 0) (ha : r.accept = 0)
    (h : b.handleConnreq r = .ok b') :
    ∃ o t, o < t.length ∧ b.sofiOffsets.length ≤ t.length ∧
      Told { b with
        sofiOffsets := t, sofis := b.sofis ++ [⟨b.nextSofi, o, .active, false⟩]
        nextSofi := b.nextSofi + 1 } b' := by
  have hoff : b.newSofiOffset.1 < b.newSofiOffset.2.sofiOffsets.length ∧
      b.sofiOffsets.length ≤ b.newSofiOffset.2.sofiOffsets.length := by
    simp only [newSofiOffset]
    split
    · next h => exact ⟨by simpa using h, by simp⟩
    · exact ⟨by simp, by simp⟩
  obtain ⟨t, ht⟩ := newSofiOffset_table b
  rw [ht] at hoff
  simp only [handleConnreq, hi, ha, ht, ne_eq, not_true_eq_false, if_false] at h
  rw [bind_eq_ok] at h
  obtain ⟨b₁, hc, h⟩ := h
  obtain ⟨l, rfl⟩ := passiveEndpointClose_eq hc
  have htold := listenAgain_told h
  exact ⟨_, t, hoff.1, hoff.2, htold.sofis, htold.table, htold.nextSofi⟩

theorem handleConnreq_rejected {r : Request} (hi : r.init = 0) (ha : r.accept ≠ 0)
    (h : b.handleConnreq r = .ok b') :
    Told { b with
      sofiOffsets := b.newSofiOffset.2.sofiOffsets, nextSofi := b.nextSofi + 1 } b' := by
  obtain ⟨t, ht⟩ := newSofiOffset_table b
  simp only [handleConnreq, hi, ha, ne_eq, not_true_eq_false, not_false_eq_true, if_true,
    if_false, bind_eq_ok] at h
  obtain ⟨b₁, hr, b₂, hc, h⟩ := h
  rw [cmReject_eq hr] at hc
  obtain ⟨l, rfl⟩ := passiveEndpointClose_eq hc
  have htold := listenAgain_told h
  have hl : b.newSofiOffset.2.sofis = b.sofis ∧ b.newSofiOffset.2.nextSofi = b.nextSofi := by
    rw [ht]
    exact ⟨rfl, rfl⟩
  exact ⟨hl.1 ▸ htold.sofis, htold.table, hl.2 ▸ htold.nextSofi⟩

end Told

/-- In every run, closing a passive endpoint meets an open one exactly when the endpoint is
there, and once the endpoint base is told of the stop none is left open. -/
theorem disciplined_iff_endpointThere {h : List (Bofi × Event)} {b : Bofi} (r : machine.Run h b) :
    (∀ l, Disciplined (create l)) ∧
      (∀ e, b.enabled e = true → (Disciplined (b.step e) ↔ b.EndpointThere e)) ∧
        (0 < b.epbaseStopped → b.openPeps = []) := by
  have hp := reachable_posture r.reachable
  refine ⟨?_, ?_, ?_⟩
  · intro l
    obtain ⟨b₁, hb, _⟩ := create_ok l
    simp [hb]
  · intro e hen
    have ho := hp.outcome hen
    generalize b.step e = x at ho
    cases ho with
    | done _ ht => simp [ht]
    | unclosed hf ht => rcases hf with rfl | rfl <;> simp [ht]
    | unreaped hf ht => rcases hf with rfl | rfl <;> simp [ht]
    | unread ht => simp [ht]
    | aborted he => simp [he, EndpointThere]
  · intro hs
    cases hp with
    | listening _ _ _ _ he | failed _ _ _ _ _ he | stopping _ _ _ _ he => omega
    | stopped _ _ ho => exact ho

theorem reaping_disciplined :
    (∃ b : Bofi, machine.Reachable b ∧ b.openPeps = [4] ∧ Disciplined (b.step .userStop)) ∧
      ∃ b : Bofi, machine.Reachable b ∧ b.epbaseStopped = 1 ∧ b.openPeps = [] := by
  constructor
  · obtain ⟨b, ⟨h, r⟩, hb⟩ := Machine.exists_reachable (M := machine) reaping
      (fun b => b.openPeps = [4] ∧ b.pep = some 4) fresh_init (by decide)
    obtain ⟨ho, hp⟩ := of_decide_eq_true hb
    refine ⟨b, ⟨h, r⟩, ho, ?_⟩
    exact ((disciplined_iff_endpointThere r).2.1 .userStop rfl).2 (fun _ => by simp [hp])
  · obtain ⟨b, ⟨h, r⟩, hb⟩ := Machine.exists_reachable (M := machine)
      (reaping ++ [.userStop, .sofiEnds ⟨0, 0, .stopping, false⟩, .sofiStopped ⟨0, 0, .idle, true⟩,
        .sofiEnds ⟨3, 1, .stopping, false⟩, .sofiEnds ⟨2, 2, .stopping, false⟩,
        .sofiStopped ⟨2, 2, .idle, true⟩, .sofiStopped ⟨3, 1, .idle, true⟩])
      (fun b => b.epbaseStopped = 1) fresh_init (by decide)
    have hs := of_decide_eq_true hb
    exact ⟨b, ⟨h, r⟩, hs, (disciplined_iff_endpointThere r).2.2 (by omega)⟩

/-- After the first connection `fi_passive_ep` fails, or `fi_pep_bind`: the stop closes NULL,
or the endpoint that was closed before. -/
theorem endpoint_closed_twice :
    machine.Reachable fresh ∧
      fresh.enabled (.connreq ⟨0, 0, true, ⟨-ENOMEM, 0, 0, 0⟩⟩) = true ∧
        fresh.step (.connreq ⟨0, 0, true, ⟨-ENOMEM, 0, 0, 0⟩⟩) = .error .nullDeref ∧
          fresh.step (.connreq ⟨0, 0, true, ⟨0, 0, -ENOMEM, 0⟩⟩) = .error .useAfterFree :=
  ⟨⟨[], .init fresh_init⟩, rfl, rfl, rfl⟩

/-- Of the events its children deliver, a BOFI survives those that are no EQ event other than
FI_CONNREQ. -/
theorem survives_iff_not_eq {b : Bofi} (hr : machine.Reachable b) :
    (∀ l, ¬ Aborts (create l)) ∧
      ∀ e, b.enabled e = true → Documented e →
        (¬ Aborts (b.step e) ↔ ∀ type, e ≠ .eq type) := by
  refine ⟨?_, ?_⟩
  · intro l
    obtain ⟨b₁, hb, _⟩ := create_ok l
    simp [hb]
  · intro e hen _
    have ho := (reachable_posture hr).outcome hen
    generalize b.step e = x at ho
    cases ho with
    | done _ _ hn => simpa using hn
    | unclosed hf _ hn =>
      rcases hf with rfl | rfl <;> simpa [Fault.isAbort] using hn
    | unreaped hf _ hr =>
      have hn : ∀ type, e ≠ .eq type := by
        rintro type rfl
        exact hr
      rcases hf with rfl | rfl <;> simpa [Fault.isAbort] using hn
    | unread _ hu =>
      have hn : ∀ type, e ≠ .eq type := by
        rintro type rfl
        exact hu
      simpa [Fault.isAbort] using hn
    | aborted he => simp [he, Fault.isAbort]

theorem fresh_survives_connreq : ¬ Aborts (fresh.step (.connreq accepted)) :=
  ((survives_iff_not_eq ⟨[], .init fresh_init⟩).2 (.connreq accepted) rfl trivial).2 (by simp)

/-- FI_SHUTDOWN and an error in the event queue of the passive endpoint. -/
theorem shutdown_event_aborts :
    machine.Reachable fresh ∧
      fresh.enabled (.eq Sofi.FI_SHUTDOWN) = true ∧ Aborts (fresh.step (.eq Sofi.FI_SHUTDOWN)) ∧
        fresh.enabled (.eq (-EINVAL)) = true ∧ Aborts (fresh.step (.eq (-EINVAL))) :=
  ⟨⟨[], .init fresh_init⟩, rfl, ⟨_, rfl, rfl⟩, rfl, ⟨_, rfl, rfl⟩⟩

end OfiTransport.Bofi
