import OfiTransport.Bofi.Endpoints

/-! Stopping the listening side while the SOFIs it has accepted stop too, by themselves or
because they are told.  A SOFI is known by its number here, as it is by its address in the
events it raises: nothing says that the address is still good when the event arrives. -/

namespace OfiTransport.Bofi

open Lib

/-- A BOFI, the NN_SOFI_STOPPED events that were raised and not yet delivered, and the SOFIs
it has reaped. -/
structure World where
  bofi : Bofi
  queue : List Nat
  reaped : List Nat

instance (l : Listen) : Decidable l.Opens := inferInstanceAs (Decidable (_ ∧ _))

def gone (b b' : Bofi) : List Nat := b.members.filter (fun i => i ∉ b'.members)

namespace World

/-- `nn_bofi_stop`, a connection request that is accepted, the end of a SOFI, and the
delivery of what it has raised then. -/
inductive Event
  | stop
  | connreq (l : Listen)
  | ends (i : Nat)
  | stopped (i : Nat)

def find (w : World) (i : Nat) : M Child :=
  match w.bofi.sofis.find? (fun s => s.id = i) with
  | none => .error .useAfterFree
  | some s => .ok s

def enabled (w : World) : Event → Bool
  | .stop => true
  | .connreq l => w.bofi.watched ∧ l.Opens
  | .ends i => w.bofi.sofis.any (fun s => s.id = i ∧ s.fsm ≠ .idle)
  | .stopped i => i ∈ w.queue

def follow (w : World) (queue : List Nat) (r : M Bofi) : M World := do
  let b ← r
  return ⟨b, queue, gone w.bofi b ++ w.reaped⟩

def step (w : World) : Event → M World
  | .stop => w.follow w.queue (w.bofi.step .userStop)
  | .connreq l => w.follow w.queue (w.bofi.step (.connreq ⟨0, 0, true, l⟩))
  | .ends i => do
    let s ← w.find i
    w.follow (w.queue ++ [i]) (w.bofi.step (.sofiEnds s))
  | .stopped i => do
    let s ← w.find i
    w.follow (w.queue.erase i) (w.bofi.step (.sofiStopped s))

def machine : Lib.Machine World Event Fault where
  init w := ∃ l : Listen, l.Opens ∧ create l = .ok w.bofi ∧ w.queue = [] ∧ w.reaped = []
  enabled := enabled
  step := step

end World

section Gone

variable {b b' : Bofi}

theorem reapSofi_ok {s : Child} (hs : s ∈ b.sofis) (ho : s.offset < b.sofiOffsets.length) :
    b.reapSofi s = .ok { b with
      sofiOffsets := b.sofiOffsets.set s.offset false, sofis := b.sofis.erase s } := by
  simp [reapSofi, freeSofiOffset, nnAssert, ho, hs, bind, Except.bind, pure, Except.pure]

theorem gone_of_subset (h : b.members ⊆ b'.members) : gone b b' = [] := by
  simp only [gone, List.filter_eq_nil_iff, decide_eq_true_eq, not_not]
  exact h

theorem members_erase {s : Child} (hs : s ∈ b.sofis) (hd : b.members.Nodup)
    (h : b'.sofis = b.sofis.erase s) :
    gone b b' = [s.id] ∧ b.members.Perm (s.id :: b'.members) := by
  obtain ⟨l₁, l₂, _, hl, he⟩ := List.exists_erase_eq hs
  have hb : b.members = l₁.map (·.id) ++ s.id :: l₂.map (·.id) := by simp [members, hl]
  have hb' : b'.members = l₁.map (·.id) ++ l₂.map (·.id) := by simp [members, h, he]
  have hp : b.members.Perm (s.id :: b'.members) := by
    rw [hb, hb']
    exact List.perm_middle
  have hn : s.id ∉ b'.members := (List.nodup_cons.1 (hp.nodup_iff.1 hd)).1
  refine ⟨?_, hp⟩
  rw [hb'] at hn
  rw [gone, hb, hb', List.filter_append, List.filter_cons_of_pos (by simpa using hn)]
  have hkeep : ∀ l : List Child, (∀ c ∈ l, c.id ∈ l₁.map (·.id) ++ l₂.map (·.id)) →
      (l.map (·.id)).filter (fun i => i ∉ l₁.map (·.id) ++ l₂.map (·.id)) = [] := by
    intro l hl
    simp only [List.filter_eq_nil_iff, List.forall_mem_map, decide_eq_true_eq, not_not]
    exact hl
  rw [hkeep l₁ (fun c hc => by simp [List.mem_map_of_mem (f := (·.id)) hc])]
  rw [hkeep l₂ (fun c hc => by simp [List.mem_map_of_mem (f := (·.id)) hc])]
  rfl

end Gone

namespace World

structure Counted (w : World) : Prop where
  once : (w.bofi.members ++ w.reaped).Perm (List.range w.bofi.nextSofi)
  table : ∀ s ∈ w.bofi.sofis, s.offset < w.bofi.sofiOffsets.length
  raised : ∀ s ∈ w.bofi.sofis, s.id ∈ w.queue ↔ s.fsm = .idle
  queued : ∀ i ∈ w.queue, i ∈ w.bofi.members
  nodup : w.queue.Nodup

structure Tended (w : World) : Prop extends Counted w where
  posture : Posture w.bofi
  there : w.bofi.fsm = .active → w.bofi.pep ≠ none

variable {w w' : World}

theorem Counted.members_nodup (h : Counted w) : w.bofi.members.Nodup :=
  (h.once.nodup_iff.2 List.nodup_range).sublist (List.sublist_append_left _ _)

theorem Counted.member_lt {i : Nat} (h : Counted w) (hi : i ∈ w.bofi.members) :
    i < w.bofi.nextSofi := by
  have hm := h.once.mem_iff.1 (List.mem_append_left w.reaped hi)
  simpa using hm

theorem Counted.find {s : Child} (h : Counted w) (hs : s ∈ w.bofi.sofis) :
    w.find s.id = .ok s := by
  cases hf : w.bofi.sofis.find? (fun c => c.id = s.id) with
  | none =>
    rw [List.find?_eq_none] at hf
    exact absurd (decide_eq_true rfl) (hf s hs)
  | some c =>
    have hid : c.id = s.id := by simpa using List.find?_some hf
    have hc : c = s :=
      List.inj_on_of_nodup_map h.members_nodup (List.mem_of_find?_eq_some hf) hs hid
    simp [World.find, hf, hc]

theorem Counted.told {b : Bofi} (h : Counted w) (ht : Told w.bofi b) :
    Counted { w with bofi := b } := by
  have hm := ht.members
  refine ⟨?_, ?_, ?_, ?_, h.nodup⟩
  · simpa [hm, ht.nextSofi] using h.once
  · intro s hs
    rw [ht.table]
    rcases ht.sofis with hl | hl
    · exact h.table s (hl ▸ hs)
    · obtain ⟨c, hc, rfl⟩ := List.mem_map.1 (hl ▸ hs)
      simpa using h.table c hc
  · intro s hs
    rcases ht.sofis with hl | hl
    · exact h.raised s (hl ▸ hs)
    · obtain ⟨c, hc, rfl⟩ := List.mem_map.1 (hl ▸ hs)
      rw [Child.stop_id, Child.stop_idle]
      exact h.raised c hc
  · intro i hi
    rw [hm]
    exact h.queued i hi

theorem Counted.accepted {o : Nat} {t : List Bool} (h : Counted w) (ho : o < t.length)
    (ht : w.bofi.sofiOffsets.length ≤ t.length) :
    Counted { w with bofi := { w.bofi with
      sofiOffsets := t, sofis := w.bofi.sofis ++ [⟨w.bofi.nextSofi, o, .active, false⟩]
      nextSofi := w.bofi.nextSofi + 1 } } := by
  refine ⟨?_, ?_, ?_, ?_, h.nodup⟩
  · simp only [members, List.map_append, List.map_cons, List.map_nil, List.range_succ]
    rw [List.append_assoc]
    refine (List.Perm.append_left _ List.perm_append_comm).trans ?_
    rw [← List.append_assoc]
    exact h.once.append_right _
  · intro s hs
    rcases List.mem_append.1 hs with hs | hs
    · exact Nat.lt_of_lt_of_le (h.table s hs) ht
    · rw [List.mem_singleton.1 hs]
      exact ho
  · intro s hs
    rcases List.mem_append.1 hs with hs | hs
    · exact h.raised s hs
    · rw [List.mem_singleton.1 hs]
      have hn : w.bofi.nextSofi ∉ w.queue := by
        intro hq
        have hlt := h.member_lt (h.queued _ hq)
        omega
      simp [hn]
  · intro i hi
    have hm := h.queued i hi
    simp only [members, List.map_append]
    exact List.mem_append_left _ hm

theorem Counted.ended {s : Child} (h : Counted w) (hs : s ∈ w.bofi.sofis) (hf : s.fsm ≠ .idle) :
    Counted { w with
      bofi := { w.bofi with sofis := w.bofi.sofis.map s.ends }, queue := w.queue ++ [s.id] } := by
  have hm : members { w.bofi with sofis := w.bofi.sofis.map s.ends } = w.bofi.members := by
    simp [members]
  refine ⟨?_, ?_, ?_, ?_, ?_⟩
  · simpa [hm] using h.once
  · intro c' hc'
    obtain ⟨c, hc, rfl⟩ := List.mem_map.1 hc'
    simpa using h.table c hc
  · intro c' hc'
    obtain ⟨c, hc, rfl⟩ := List.mem_map.1 hc'
    rw [Child.ends_id, List.mem_append, List.mem_singleton, h.raised c hc]
    by_cases he : c = s
    · simp [Child.ends, he]
    · have hne : c.id ≠ s.id := by
        intro hi
        exact he (List.inj_on_of_nodup_map h.members_nodup hc hs hi)
      simp [Child.ends, he, hne]
  · intro i hi
    rw [hm]
    rcases List.mem_append.1 hi with hi | hi
    · exact h.queued i hi
    · rw [List.mem_singleton.1 hi]
      exact List.mem_map_of_mem hs
  · rw [List.nodup_append]
    refine ⟨h.nodup, List.nodup_singleton _, ?_⟩
    rintro i hi j hj rfl
    rw [List.mem_singleton.1 hj] at hi
    exact hf ((h.raised s hs).1 hi)

theorem Counted.reaped {b : Bofi} {s : Child} (h : Counted w) (hs : s ∈ w.bofi.sofis)
    (hl : b.sofis = w.bofi.sofis.erase s)
    (ht : b.sofiOffsets.length = w.bofi.sofiOffsets.length)
    (hn : b.nextSofi = w.bofi.nextSofi) :
    Counted ⟨b, w.queue.erase s.id, s.id :: w.reaped⟩ := by
  obtain ⟨_, hp⟩ := members_erase hs h.members_nodup hl
  have hsub : ∀ c ∈ b.sofis, c ∈ w.bofi.sofis := fun c hc => List.mem_of_mem_erase (hl ▸ hc)
  have hnd := List.nodup_cons.1 (hp.nodup_iff.1 h.members_nodup)
  refine ⟨?_, ?_, ?_, ?_, h.nodup.erase _⟩
  · rw [hn]
    refine List.perm_middle.trans (List.Perm.trans ?_ h.once)
    exact hp.symm.append_right _
  · intro c hc
    rw [ht]
    exact h.table c (hsub c hc)
  · intro c hc
    have hne : c.id ≠ s.id := by
      intro he
      exact hnd.1 (he ▸ List.mem_map_of_mem (f := (·.id)) hc)
    rw [List.mem_erase_of_ne hne]
    exact h.raised c (hsub c hc)
  · intro i hi
    rw [h.nodup.mem_erase_iff] at hi
    have hm := hp.mem_iff.1 (h.queued i hi.2)
    exact (List.mem_cons.1 hm).resolve_left hi.1

theorem follow_kept {b : Bofi} {q : List Nat} (hm : w.bofi.members ⊆ b.members) :
    w.follow q (.ok b) = .ok ⟨b, q, w.reaped⟩ := by
  simp [follow, gone_of_subset hm, bind, Except.bind, pure, Except.pure]

theorem Tended.stop (h : Tended w) : ∃ w', w.step .stop = .ok w' ∧ Tended w' := by
  have ho := h.posture.outcome (e := .userStop) rfl
  generalize hb : w.bofi.step .userStop = x at ho
  cases ho with
  | done hp =>
    have ht := fsmStop_told hb
    refine ⟨_, ?_, h.toCounted.told ht, hp,
      fun hf => fsmStop_eq hb hf ▸ h.there (fsmStop_eq hb hf ▸ hf)⟩
    rw [step, hb, follow_kept (by rw [ht.members]; exact List.Subset.refl _)]
  | unclosed _ ht => exact absurd h.there ht
  | unreaped _ _ hr => exact absurd hr (by simp [Reaps])
  | unread _ hu => exact hu.elim
  | aborted he => cases he

theorem Tended.connreq {l : Listen} (h : Tended w) (hen : w.enabled (.connreq l) = true) :
    ∃ w', w.step (.connreq l) = .ok w' ∧ Tended w' := by
  simp only [enabled, decide_eq_true_eq] at hen
  obtain ⟨hw, hl⟩ := hen
  have ho := h.posture.outcome (e := .connreq ⟨0, 0, true, l⟩) hw
  generalize hb : w.bofi.step (.connreq ⟨0, 0, true, l⟩) = x at ho
  cases ho with
  | unclosed _ ht => exact absurd (fun _ _ => hl) ht
  | unreaped _ _ hr => exact absurd rfl hr
  | unread _ hu => exact absurd rfl hu.2.1
  | aborted he => cases he
  | @done b hp =>
    have hc : w.bofi.handleConnreq ⟨0, 0, true, l⟩ = .ok b := by
      simp only [Bofi.step, feed] at hb
      split at hb
      · cases hb
      · cases hs : w.bofi.state <;> simp [handler, hs] at hb
        exact hb
    obtain ⟨o, t, hot, htt, htold⟩ := handleConnreq_told rfl rfl hc
    have hm : b.members = w.bofi.members ++ [w.bofi.nextSofi] := by
      rw [htold.members]
      simp [members]
    refine ⟨_, ?_, (h.toCounted.accepted hot htt).told htold, hp, ?_⟩
    · rw [step, hb, follow_kept (by simp [hm])]
    · intro hf
      cases hp with
      | listening _ _ hpep => simp [hpep]
      | failed _ _ _ _ hn => simp [members, hn] at hm
      | stopping hf' | stopped hf' => simp [hf'] at hf

theorem Tended.ends {i : Nat} (h : Tended w) (hen : w.enabled (.ends i) = true) :
    ∃ w', w.step (.ends i) = .ok w' ∧ Tended w' := by
  simp only [enabled, List.any_eq_true, decide_eq_true_eq] at hen
  obtain ⟨s, hs, rfl, hf⟩ := hen
  have hc := h.toCounted.ended hs hf
  have hm : w.bofi.members ⊆ members { w.bofi with sofis := w.bofi.sofis.map s.ends } := by
    intro j hj
    obtain ⟨c, hc, rfl⟩ := List.mem_map.1 hj
    exact List.mem_map.2 ⟨s.ends c, List.mem_map_of_mem hc, Child.ends_id s c⟩
  refine ⟨_, ?_, hc, h.posture.frame, h.there⟩
  simp only [step, h.toCounted.find hs, Bofi.step]
  exact follow_kept hm

theorem Tended.stopped {i : Nat} (h : Tended w) (hen : w.enabled (.stopped i) = true) :
    ∃ w', w.step (.stopped i) = .ok w' ∧ Tended w' ∧ w'.reaped = i :: w.reaped := by
  have hq : i ∈ w.queue := by simpa [enabled] using hen
  obtain ⟨s, hs, rfl⟩ := List.mem_map.1 (h.queued i hq)
  -- one look-up and one reaping, whichever function the event goes to
  obtain ⟨b, hb, hp, hpep, hl, ht, hn⟩ : ∃ b, w.bofi.step (.sofiStopped s) = .ok b ∧ Posture b ∧
      (b.fsm = .active → b.pep ≠ none) ∧ b.sofis = w.bofi.sofis.erase s ∧
        b.sofiOffsets.length = w.bofi.sofiOffsets.length ∧ b.nextSofi = w.bofi.nextSofi := by
    have hr := reapSofi_ok hs (h.table s hs)
    generalize hb : ({ w.bofi with
      sofiOffsets := w.bofi.sofiOffsets.set s.offset false
      sofis := w.bofi.sofis.erase s } : Bofi) = b at hr
    cases h.posture with
    | listening hf hst hp ho he =>
      refine ⟨b, ?_, ?_⟩
      · simpa [Bofi.step, feed, hf, handler, hst] using hr
      · subst hb
        exact ⟨.listening hf hst hp ho he, fun _ => by simp [hp], rfl, by simp, rfl⟩
    | stopping hf hst ho _ he =>
      refine ⟨b.shutdownWait, ?_, ?_⟩
      · simp only [Bofi.step, feed, hf, if_true, shutdown, hr]
        rfl
      · subst hb
        refine ⟨shutdownWait_posture hf hst ho he, ?_⟩
        simp only [shutdownWait]
        split <;> simp [hf]
    | failed _ _ _ _ hne | stopped _ _ _ hne => simp [hne] at hs
  have hg := (members_erase hs h.members_nodup hl).1
  refine ⟨_, ?_, ⟨h.toCounted.reaped hs hl ht hn, hp, hpep⟩, rfl⟩
  simp only [step, h.toCounted.find hs]
  simp [follow, hb, hg, bind, Except.bind, pure, Except.pure]

theorem Tended.step {e : Event} (h : Tended w) (hen : w.enabled e = true) :
    ∃ w', w.step e = .ok w' ∧ Tended w' := by
  cases e with
  | stop => exact h.stop
  | connreq l => exact h.connreq hen
  | ends i => exact h.ends hen
  | stopped i =>
    obtain ⟨w', hs, ht, _⟩ := h.stopped hen
    exact ⟨w', hs, ht⟩

theorem tended_of_init (h : machine.init w) : Tended w := by
  obtain ⟨b, queue, reaped⟩ := w
  obtain ⟨l, hl, hc, rfl, rfl⟩ := h
  obtain ⟨b₁, hc₁, hp⟩ := create_ok l
  have hb : b₁ = b := by simpa using hc₁.symm.trans hc
  subst hb
  have ht : b₁.sofis = [] ∧ b₁.nextSofi = 0 ∧ b₁.pep ≠ none := by
    simp only [create, handler, listenAgain] at hc
    have ha := startAccepting_accepting l
      ⟨.idle, .idle, none, [], 0, List.replicate 64 false, [], 0, false, 0⟩
    generalize startAccepting l _ = r at ha hc
    cases ha with
    | listens =>
      cases hc
      exact ⟨rfl, rfl, by simp⟩
    | deaf _ hr =>
      simp only [ne_eq, hr, not_false_eq_true, if_true, criticalError, fsmStop] at hc
      cases hc
      exact ⟨rfl, rfl, by simp⟩
    | unopened hn => exact absurd hl hn
  obtain ⟨hs, hn, hpep⟩ := ht
  refine ⟨⟨?_, ?_, ?_, ?_, List.nodup_nil⟩, hp, fun _ => hpep⟩
  · simp [members, hs, hn]
  · simp [hs]
  · simp [hs]
  · simp

theorem reachable_tended (h : machine.Reachable w) : Tended w := by
  refine h.invariant (fun w hi => tended_of_init hi) ?_
  intro w e w' ht hen hs
  obtain ⟨w₁, h₁, ht₁⟩ := ht.step hen
  have heq : w₁ = w' := by simpa using h₁.symm.trans hs
  exact heq ▸ ht₁

/-- How stopping goes.  `never` says that no event touches a SOFI that was reaped, nor reaps
one twice, and `counted` that each one accepted is in the list or was reaped, once. -/
structure Wound (w : World) : Prop where
  never : ∀ e, w.enabled e = true → ∃ w', w.step e = .ok w'
  reaps : ∀ i w', w.enabled (.stopped i) = true → w.step (.stopped i) = .ok w' →
    w'.reaped = i :: w.reaped
  counted : (w.bofi.members ++ w.reaped).Perm (List.range w.bofi.nextSofi)
  atMostOnce : w.bofi.epbaseStopped ≤ 1
  iff : w.bofi.epbaseStopped = 1 ↔ w.bofi.state = .stopping ∧ w.bofi.sofis = []

end World

/-- Every accepted SOFI is reaped once, and the endpoint base is told once, after the stop and
the last SOFI. -/
theorem stop_protocol {h : List (World × World.Event)} {w : World} (r : World.machine.Run h w) :
    w.Wound := by
  have ht := World.reachable_tended r.reachable
  refine ⟨?_, ?_, ht.once, ?_, ?_⟩
  · intro e hen
    obtain ⟨w', hs, _⟩ := ht.step hen
    exact ⟨w', hs⟩
  · intro i w' hen hs
    obtain ⟨w₁, h₁, _, hr⟩ := ht.stopped hen
    have heq : w₁ = w' := by simpa using h₁.symm.trans hs
    exact heq ▸ hr
  · cases ht.posture <;> omega
  · cases ht.posture with
    | listening _ hst _ _ he | failed _ hst _ _ _ he => simp [hst, he]
    | stopping _ hst _ hn he => simp [hst, he, hn]
    | stopped _ hst _ hn he => simp [hst, he, hn]

theorem stopped_after_stop :
    ∃ w, World.machine.Reachable w ∧ w.Wound ∧ w.reaped = [0] ∧ w.bofi.epbaseStopped = 1 := by
  obtain ⟨w, ⟨h, r⟩, hw⟩ := Machine.exists_reachable (M := World.machine) (s := ⟨fresh, [], []⟩)
    [.connreq listening, .ends 0, .stop, .stopped 0]
    (fun w => w.reaped = [0] ∧ w.bofi.epbaseStopped = 1)
    ⟨listening, ⟨rfl, rfl, rfl⟩, rfl, rfl, rfl⟩ (by decide)
  simp only [decide_eq_true_eq] at hw
  exact ⟨w, ⟨h, r⟩, stop_protocol r, hw⟩

end OfiTransport.Bofi
