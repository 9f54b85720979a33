import OfiTransport.Bofi.Server

/-! What becomes of a BOFI with its SOFIs over whole runs: the requests it serves, the steps it
takes, and the keys of the SOFIs that live at the same time. -/

namespace OfiTransport

open Lib

namespace Server

open Bofi (Child Listen Connection Accepted)

section Following

open Bofi
open Sofi (SlabsRegistered)

variable {v v' : Server} {b : Bofi} {c : Child} {a : Accepted} {s' : Sofi}

section Requests

variable {q : Connection} {close : Nat → Int} {closeSlab : Int} {p : Nat}

theorem setupAt_init (he : Even q) (b : Bofi) : Sofi.init (q.setupAt b) =
    if q.request.init ≠ 0 then .ok (q.request.init, none)
    else .ok (0, some ((q.setupAt b).sofi
      (Sofi.linked q.setup.rxQueue.toNat q.setup.rxQueue.toNat)
      (Sofi.linked q.setup.rxQueue.toNat q.setup.rxQueue.toNat))) :=
  Sofi.init_eq (u := q.setupAt b) (Int.le_trans (by decide) he.1) (Int.le_of_eq he.2)

theorem handleConnreq_unbuilt (close : Nat → Int) (closeSlab : Int) (hn : Numbered v.bofi)
    (he : Even q) (hi : q.request.init ≠ 0) :
    ∃ f, v.handleConnreq q close closeSlab = .error f := by
  have hinit := setupAt_init he v.bofi
  rw [if_pos hi] at hinit
  obtain ⟨t, ht⟩ := newSofiOffset_table v.bofi
  have hu : v.bofi.nextSofi ∉ v.bofi.members := fun hm => Nat.lt_irrefl _ (hn _ hm)
  obtain ⟨f, hf⟩ := reapSofi_unlisted
    (b := { v.bofi with sofiOffsets := t, nextSofi := v.bofi.nextSofi + 1 })
    (s := ⟨v.bofi.nextSofi, v.bofi.newSofiOffset.1, .idle, false⟩) hu
  refine ⟨f, ?_⟩
  simp only [Server.handleConnreq, hinit, ht, hf, bind, Except.bind]

theorem handleConnreq_refused (close : Nat → Int) (closeSlab : Int) (he : Even q)
    (hi : q.request.init = 0) (ha : q.request.accept ≠ 0) (hp : v.bofi.pep = some p)
    (ho : v.bofi.openPeps = [p]) :
    ∃ s : Sofi, ((∃ s', s.term close closeSlab = .ok s') ↔ q.setup.slabReg = 0) ∧
      (q.readable = true → v.handleConnreq q close closeSlab = (do
        let _ ← s.term close closeSlab
        Server.listenAgain q.relisten { v with bofi := v.bofi.cleared })) ∧
      (q.readable = false → ∃ f, v.handleConnreq q close closeSlab = .error f) := by
  have hinit := setupAt_init he v.bofi
  rw [if_neg (not_not.2 hi)] at hinit
  have hfail : (Sofi.activeEndpointOpen q.opening).1 ≠ 0 ∨ q.accept ≠ 0 := by
    by_contra hn
    simp only [not_or, not_not] at hn
    exact ha (by simp [Connection.request, hn.1, hn.2])
  obtain ⟨ret, s, hne, ⟨ep, k, hs⟩, hst⟩ := Sofi.start_refused hfail ((q.setupAt v.bofi).sofi
    (Sofi.linked q.setup.rxQueue.toNat q.setup.rxQueue.toNat)
    (Sofi.linked q.setup.rxQueue.toNat q.setup.rxQueue.toNat))
  have hslabs : (q.setupAt v.bofi).mrAttr.slabCount ≠ 0 := by
    have h₂ := he.1
    have heq := he.2
    have hlt := q.setup.queues_lt
    simp only [Sofi.Setup.mrAttr, toUInt64]
    show (q.setup.txQueue % 2 ^ 64).toNat ≠ 0
    omega
  refine ⟨s, ?_, fun hr => ?_, fun hr => ?_⟩
  · rw [Sofi.quiet_term_ok_iff, hs]
    · exact Sofi.slabsRegistered_init hslabs _ _ _
    · rw [hs]
      exact (Mr.init_carries ..).unreserved
    all_goals
      rw [hs]
      rfl
  · simp only [Server.handleConnreq, hinit, Sofi.startAccept, hst, newSofiOffset_nextSofi, hne, hr,
      cmReject_numbered hp ho, passiveEndpointClose_numbered hp ho, ne_eq, not_false_eq_true,
      if_true, bind, Except.bind, pure, Except.pure]
  · obtain ⟨f, hf⟩ := cmReject_unread
      { v.bofi.newSofiOffset.2 with nextSofi := v.bofi.nextSofi + 1 }
    refine ⟨f, ?_⟩
    simp only [Server.handleConnreq, hinit, Sofi.startAccept, hst, newSofiOffset_nextSofi, hne, hr,
      hf, ne_eq, not_false_eq_true, if_true, bind, Except.bind, pure, Except.pure]

theorem handleConnreq_accepted (he : Even q) (hi : q.request.init = 0) (ha : q.request.accept = 0)
    (hp : v.bofi.pep = some p) (ho : v.bofi.openPeps = [p]) :
    v.handleConnreq q close closeSlab = Server.listenAgain q.relisten
      ⟨{ v.bofi.cleared with sofis := v.bofi.cleared.sofis ++ [v.bofi.newChild] },
        Function.update v.sofis v.bofi.newChild.id
          (some ⟨q.setupAt v.bofi, (q.setupAt v.bofi).started, false⟩)⟩ := by
  have hinit := setupAt_init he v.bofi
  rw [if_neg (not_not.2 hi)] at hinit
  obtain ⟨hopen, haccept⟩ : (Sofi.activeEndpointOpen q.opening).1 = 0 ∧ q.accept = 0 := by
    simp only [Connection.request] at ha
    split at ha
    · next hne => exact absurd ha hne
    · next hne => exact ⟨not_not.1 hne, ha⟩
  simp only [Server.handleConnreq, hinit, Sofi.startAccept, hopen, haccept, newSofiOffset_nextSofi,
    passiveEndpointClose_numbered hp ho, bind, Except.bind, pure, Except.pure]
  rfl

end Requests

/-- The events that the process survives: a stop finds a passive endpoint, a request can be served
and listening again opens one, a rejection is got over, no keepalive packet of a SOFI that handles
completions ends in an error, and a SOFI that is terminated had its slabs registered. -/
def Safe (v : Server) : Event → Prop
  | .userStop => v.bofi.EndpointThere .userStop
  | .connreq q .. => q.request.init = 0 ∧ q.relisten.Opens ∧
    (q.request.accept ≠ 0 → q.readable = true ∧ q.setup.slabReg = 0)
  | .eq _ => False
  | .sofi c e => ∀ a ∈ v.sofis c.id, a.sofi.Bears e
  | .sofiStopped c .. => ∀ a ∈ v.sofis c.id, SlabsRegistered a.sofi.egress.mrm

def Event.control : Event → Option Bofi.Event
  | .userStop => some .userStop
  | .connreq q .. => some (.connreq q.request)
  | .eq type => some (.eq type)
  | .sofi .. => none
  | .sofiStopped c .. => some (.sofiStopped c)

inductive Follows (v : Server) (e : Event) (v' : Server) : Prop
  | sees {d : Bofi.Event} {b : Bofi} (hd : e.control = some d) (he : v.bofi.enabled d = true)
      (hs : v.bofi.step d = .ok b) (h : Settles b v')
  | unseen (hd : e.control = none) (h : Settles v.bofi v')

section Steps

variable {e : Event} {q : Connection} {close : Nat → Int} {closeSlab : Int}

theorem connreq_eq (q : Connection) (close : Nat → Int) (closeSlab : Int)
    (hp : Posture v.bofi) (hw : v.bofi.watched = true) :
    v.connreq q close closeSlab = v.handleConnreq q close closeSlab ∧
      ∀ r, v.bofi.step (.connreq r) = v.bofi.handleConnreq r := by
  refine ⟨?_, hp.step_connreq hw⟩
  cases hp with
  | listening hf hst => simp [Server.connreq, hf, hst]
  | failed _ _ hn => simp [watched, hn] at hw
  | stopping _ _ ho | stopped _ _ ho => simp [watched, ho] at hw

theorem listenAgain_cleared {l : Listen} (cs : List Child) (hf : v.bofi.fsm = .active)
    (he : v.bofi.epbaseStopped = 0) :
    (l.Opens → ∃ b', Bofi.listenAgain l { v.bofi.cleared with sofis := cs } = .ok b') ∧
      (¬ l.Opens → ∃ f, Bofi.listenAgain l { v.bofi.cleared with sofis := cs } = .error f) := by
  obtain ⟨t, ht⟩ := newSofiOffset_table v.bofi
  refine ⟨fun hl => ?_, fun hl => ?_⟩
  · obtain ⟨b', hb, _⟩ := listenAgain_opens (b := { v.bofi.cleared with sofis := cs }) hl
      (by rw [cleared, ht]; exact hf) rfl (by rw [cleared, ht]; exact he)
    exact ⟨b', hb⟩
  · obtain ⟨f, hb, _⟩ := listenAgain_unopened (b := { v.bofi.cleared with sofis := cs }) hl
      (by rw [cleared, ht]; exact hf) rfl
    exact ⟨f, hb⟩

theorem Sound.connreq (h : Sound v) (hn : Numbered v.bofi) (hp : Posture v.bofi)
    (he : v.enabled (.connreq q close closeSlab) = true)
    (hs : Safe v (.connreq q close closeSlab)) :
    ∃ v', v.step (.connreq q close closeSlab) = .ok v' ∧
      Follows v (.connreq q close closeSlab) v' := by
  simp only [enabled, decide_eq_true_eq] at he
  obtain ⟨hw, heven⟩ := he
  obtain ⟨hi, hl, hslab⟩ := hs
  obtain ⟨hf, ⟨p, hpep, ho⟩, hz⟩ := hp.of_watched hw
  obtain ⟨hconn, hbofi⟩ := connreq_eq q close closeSlab hp hw
  obtain ⟨hcs, hcf, hct, hco⟩ := cleared_framed v.bofi
  by_cases ha : q.request.accept = 0
  · obtain ⟨b, hb⟩ := (listenAgain_cleared (v.bofi.cleared.sofis ++ [v.bofi.newChild]) hf hz).1 hl
    have hm : Minds v.bofi.newChild ⟨q.setupAt v.bofi, (q.setupAt v.bofi).started, false⟩ := by
      refine ⟨Sofi.Setup.started_alive heven.1 heven.2 hi, ?_, ?_, rfl, ?_, ?_⟩
      · exact iff_of_false (by simp [newChild]) (by simp [Sofi.Setup.started])
      · exact iff_of_false (by simp [newChild]) (by simp [Sofi.Setup.started])
      · exact Int.le_trans (Int.le_trans (by decide) heven.1) (Int.le_of_eq heven.2)
      · exact Sofi.Setup.started_keyed
          (Int.le_trans (Int.le_trans (by decide) heven.1) (Int.le_of_eq heven.2))
    have hu : v.bofi.newChild.id ∉ v.bofi.members := fun hm => Nat.lt_irrefl _ (hn _ hm)
    obtain ⟨v', hv, hset⟩ := (h.accepted hu hcs hct hco hm).listenAgain hb
    refine ⟨v', ?_, .sees rfl hw ?_ hset⟩
    · exact hconn.trans ((handleConnreq_accepted heven hi ha hpep ho).trans hv)
    · exact (hbofi _).trans ((Bofi.handleConnreq_accepted hi ha hpep ho).trans hb)
  · obtain ⟨b, hb⟩ := (listenAgain_cleared v.bofi.cleared.sofis hf hz).1 hl
    obtain ⟨s, hiff, hv₁, _⟩ := handleConnreq_refused close closeSlab heven hi ha hpep ho
    obtain ⟨hr, hreg⟩ := hslab ha
    obtain ⟨s', ht⟩ := hiff.2 hreg
    obtain ⟨v', hv, hset⟩ := (h.framed hcs hct).listenAgain hb
    refine ⟨v', ?_, .sees rfl hw ?_ hset⟩
    · refine hconn.trans ((hv₁ hr).trans ?_)
      simp only [ht, bind, Except.bind]
      exact hv
    · exact (hbofi _).trans ((Bofi.handleConnreq_refused hi ha hr hpep ho).trans hb)

theorem connreq_unsafe (hn : Numbered v.bofi) (hp : Posture v.bofi)
    (he : v.enabled (.connreq q close closeSlab) = true)
    (hs : ¬ Safe v (.connreq q close closeSlab)) :
    ∃ f, v.step (.connreq q close closeSlab) = .error f := by
  simp only [enabled, decide_eq_true_eq] at he
  obtain ⟨hw, heven⟩ := he
  obtain ⟨hf, ⟨p, hpep, ho⟩, hz⟩ := hp.of_watched hw
  obtain ⟨hconn, _⟩ := connreq_eq q close closeSlab hp hw
  by_cases hi : q.request.init = 0
  · by_cases ha : q.request.accept = 0
    · have hl : ¬ q.relisten.Opens := fun hl => hs ⟨hi, hl, fun hne => absurd ha hne⟩
      obtain ⟨f, hb⟩ := (listenAgain_cleared (v.bofi.cleared.sofis ++ [v.bofi.newChild])
        hf hz).2 hl
      refine ⟨f, hconn.trans ((handleConnreq_accepted heven hi ha hpep ho).trans ?_)⟩
      exact listenAgain_error hb
    · obtain ⟨s, hiff, hv₁, hv₀⟩ := handleConnreq_refused close closeSlab heven hi ha hpep ho
      cases hr : q.readable with
      | false =>
        obtain ⟨f, hv⟩ := hv₀ hr
        exact ⟨f, hconn.trans hv⟩
      | true =>
        cases ht : s.term close closeSlab with
        | error f =>
          refine ⟨f, hconn.trans ((hv₁ hr).trans ?_)⟩
          simp only [ht, bind, Except.bind]
        | ok s' =>
          -- the SOFI could be terminated, so it is the listening that fails
          have hl : ¬ q.relisten.Opens := fun hl => hs ⟨hi, hl, fun _ => ⟨hr, hiff.1 ⟨s', ht⟩⟩⟩
          obtain ⟨f, hb⟩ := (listenAgain_cleared v.bofi.cleared.sofis hf hz).2 hl
          refine ⟨f, hconn.trans ((hv₁ hr).trans ?_)⟩
          simp only [ht, bind, Except.bind]
          exact listenAgain_error hb
  · obtain ⟨f, hv⟩ := handleConnreq_unbuilt close closeSlab hn heven hi
    exact ⟨f, hconn.trans hv⟩

theorem Sound.step_safe (h : Sound v) (hn : Numbered v.bofi) (hp : Posture v.bofi)
    (he : v.enabled e = true) (hs : Safe v e) : ∃ v', v.step e = .ok v' ∧ Follows v e v' := by
  cases e with
  | userStop =>
    have ho := hp.outcome (e := .userStop) rfl
    generalize hb : v.bofi.step .userStop = x at ho
    cases ho with
    | @done b =>
      obtain ⟨v', hv, hset⟩ := h.fsmStop hb
      exact ⟨v', hv, .sees rfl rfl hb hset⟩
    | unclosed _ ht => exact absurd hs ht
    | unreaped _ _ hr => exact absurd hr (by simp [Reaps])
    | unread _ hu => exact hu.elim
    | aborted heq => cases heq
  | connreq q close closeSlab => exact h.connreq hn hp he hs
  | eq type => exact hs.elim
  | sofi c e =>
    obtain ⟨v', hv, hset⟩ := h.sofi he hs
    exact ⟨v', hv, .unseen rfl hset⟩
  | sofiStopped c close closeSlab =>
    simp only [enabled, decide_eq_true_eq] at he
    obtain ⟨a, ha, hf, hcon, _⟩ := h.ended he.1 he.2
    obtain ⟨s', ht⟩ := (Sofi.term_ok_iff hcon hf close closeSlab).2 (hs a ha)
    obtain ⟨v', hv, hb, hsound⟩ := h.sofiStopped hp he.1 ha ht
    have hen : v.bofi.enabled (.sofiStopped c) = true := by
      simpa only [Bofi.enabled, decide_eq_true_eq] using he
    exact ⟨v', hv, .sees rfl hen hb (.refl hsound)⟩

theorem Sound.step_unsafe (h : Sound v) (hn : Numbered v.bofi) (hp : Posture v.bofi)
    (he : v.enabled e = true) (hs : ¬ Safe v e) : ∃ f, v.step e = .error f := by
  cases e with
  | userStop =>
    have ho := hp.outcome (e := .userStop) rfl
    generalize hb : v.bofi.step .userStop = x at ho
    cases ho with
    | done _ ht => exact absurd ht hs
    | unclosed => exact ⟨_, fsmStop_error hb⟩
    | unreaped _ ht | unread ht => exact absurd ht hs
    | aborted heq => cases heq
  | connreq q close closeSlab => exact connreq_unsafe hn hp he hs
  | eq type =>
    have ho := hp.outcome (e := .eq type) he
    generalize hb : v.bofi.step (.eq type) = x at ho
    have hfeed : v.bofi.feed (.eq type) = x := hb
    cases ho with
    | done _ _ hn => exact absurd rfl (hn type)
    | unclosed _ _ hn => exact absurd rfl (hn type)
    | unreaped _ _ hr => exact hr.elim
    | unread _ hu => exact hu.elim
    | aborted => exact ⟨.badAction, by simp [Server.step, hfeed, bind, Except.bind]⟩
  | sofi => exact h.sofi_unborne he hs
  | sofiStopped c close closeSlab =>
    simp only [enabled, decide_eq_true_eq] at he
    obtain ⟨a, ha, hf, hcon, _⟩ := h.ended he.1 he.2
    have hbad : ¬ SlabsRegistered a.sofi.egress.mrm := by
      refine fun hreg => hs fun a₁ ha₁ => ?_
      have heq : a₁ = a := Option.some.inj (Eq.trans (Eq.symm ha₁) ha)
      exact heq ▸ hreg
    cases ht : a.sofi.term close closeSlab with
    | ok s' => exact absurd ((Sofi.term_ok_iff hcon hf close closeSlab).1 ⟨s', ht⟩) hbad
    | error f =>
      refine ⟨f, sofiStopped_error hp he.1 ?_⟩
      simp only [Server.reapSofi, reapSofi_ok he.1 (h.table c he.1), find, ha, ht, bind,
        Except.bind]

theorem Follows.path (h : Follows v e v') :
    (∃ l, Machine.Path Bofi.machine v.bofi l v'.bofi) ∧ Sound v' := by
  cases h with
  | sees _ he hs h =>
    obtain ⟨_, p⟩ := h.path
    exact ⟨⟨_, (Machine.Path.single (N := Bofi.machine) he hs).trans p⟩, h.sound⟩
  | unseen _ h => exact ⟨h.path, h.sound⟩

theorem create_sound {l : Listen} (hc : Bofi.create l = .ok b) : Sound ⟨b, fun _ => none⟩ := by
  have hs : b.sofis = [] := by
    simp only [create, handler, bind_eq_ok, pure_eq_ok] at hc
    obtain ⟨b₁, h₁, rfl⟩ := hc
    rcases (listenAgain_told h₁).sofis with h | h <;> simp [h]
  refine ⟨?_, ?_, ?_, fun _ _ => rfl⟩
  · simp [hs]
  · simp [members, hs]
  · simp [hs]

theorem simulates : Machine.Simulates machine Bofi.machine (fun v b => v.bofi = b ∧ Sound v) where
  init := by
    rintro v ⟨l, b, hc, rfl⟩
    exact ⟨b, ⟨l, hc⟩, rfl, create_sound hc⟩
  step := by
    rintro v e v' b hr ⟨rfl, h⟩ he hs
    have hn := reachable_numbered hr
    have hp := reachable_posture hr
    by_cases hsafe : Safe v e
    · obtain ⟨v₁, h₁, hf⟩ := h.step_safe hn hp he hsafe
      have heq : v₁ = v' := Except.ok.inj (h₁.symm.trans hs)
      subst heq
      obtain ⟨⟨l, p⟩, hsound⟩ := hf.path
      exact ⟨l, _, p, rfl, hsound⟩
    · obtain ⟨f, hf⟩ := h.step_unsafe hn hp he hsafe
      rw [show machine.step v e = v.step e from rfl, hf] at hs
      cases hs

end Steps

section Keys

/-- A key under which the SOFI has memory registered: its auxiliary buffer, a receive buffer, or
what its manager has registered and not closed, the slabs and the banks. -/
inductive Registers (a : Accepted) : Nat → Prop
  | aux : Registers a a.setup.auxKey
  | recv {i : Nat} (hi : i < a.setup.rxQueue.toNat) : Registers a (a.setup.recvKey i)
  | managed {id : Nat} {g : Mr.Registration} (hg : a.sofi.egress.mrm.domain.regs id = some g)
      (hn : a.setup.domain.regs id ≠ some g) : Registers a g.key

/-- The keys of the page `p`, from the auxiliary buffer to the second receive buffer. -/
def Shows (a : Accepted) (p : Nat) : Prop :=
  a.setup.auxKey = p ∧ 2 ≤ a.setup.rxQueue.toNat ∧
    (∀ i < 2, a.setup.recvKey i = p + 0x0800 + i) ∧
      ∀ i < 2, a.setup.domain.regs i = none ∧
        (a.sofi.egress.mrm.domain.regs i).map (·.key) = some (p + 1 + i)

instance (a : Accepted) (p : Nat) : Decidable (Shows a p) :=
  inferInstanceAs (Decidable (_ ∧ _ ∧ _ ∧ _))

theorem Shows.registers {p : Nat} (h : Shows a p) :
    ∀ k ∈ [0, 1, 2, 0x0800, 0x0801], Registers a (p + k) := by
  obtain ⟨haux, hrx, hrecv, hregs⟩ := h
  have managed : ∀ i < 2, Registers a (p + (1 + i)) := by
    intro i hi
    obtain ⟨hn, hm⟩ := hregs i hi
    obtain ⟨g, hg, hk⟩ := Option.map_eq_some_iff.1 hm
    rw [← Nat.add_assoc, ← hk]
    exact .managed hg (by simp [hn])
  have recv : ∀ i < 2, Registers a (p + (0x0800 + i)) := by
    intro i hi
    rw [← Nat.add_assoc, ← hrecv i hi]
    exact .recv (by omega)
  intro k hk
  simp only [List.mem_cons, List.not_mem_nil, or_false] at hk
  rcases hk with rfl | rfl | rfl | rfl | rfl
  · exact haux ▸ .aux
  · exact managed 0 (by decide)
  · exact managed 1 (by decide)
  · exact recv 0 (by decide)
  · exact recv 1 (by decide)

def Small (a : Accepted) : Prop := a.setup.txQueue ≤ 1023 ∧ a.setup.rxQueue ≤ 2048

instance (a : Accepted) : Decidable (Small a) := inferInstanceAs (Decidable (_ ∧ _))

def FreeSlot (v : Server) (e : Event) : Prop := ∀ d, e.control = some d → v.bofi.FreeSlot d

theorem Follows.offsetsUnique (h : Follows v e v') (hu : OffsetsUnique v.bofi)
    (hf : FreeSlot v e) : OffsetsUnique v'.bofi := by
  cases h with
  | sees hd _ hs h => exact h.same.unique_iff.2 ((step_unique_iff hu hs).2 (hf _ hd))
  | unseen _ h => exact h.same.unique_iff.2 hu

theorem run_offsetsUnique {h : List (Server × Event)} (r : machine.Run h v)
    (hg : Machine.Guarded FreeSlot h) : Sound v ∧ OffsetsUnique v.bofi := by
  refine (r.always_of_guarded (P := fun v => Bofi.machine.Reachable v.bofi ∧ Sound v ∧
    OffsetsUnique v.bofi) ?_ ?_ hg).1.2
  · rintro v ⟨l, b, hc, rfl⟩
    exact ⟨⟨[], .init ⟨l, hc⟩⟩, create_sound hc, create_unique hc⟩
  · rintro v e v' ⟨hr, h, hu⟩ hf he hs
    have hn := reachable_numbered hr
    have hp := reachable_posture hr
    by_cases hsafe : Safe v e
    · obtain ⟨v₁, h₁, hfol⟩ := h.step_safe hn hp he hsafe
      have heq : v₁ = v' := Except.ok.inj (h₁.symm.trans hs)
      subst heq
      obtain ⟨⟨_, p⟩, hsound⟩ := hfol.path
      exact ⟨hr.path p, hsound, hfol.offsetsUnique hu hf⟩
    · obtain ⟨f, hf⟩ := h.step_unsafe hn hp he hsafe
      rw [show machine.step v e = v.step e from rfl, hf] at hs
      cases hs

theorem Minds.key_mem {k : Nat} (h : Minds c a) (hk : Registers a k) : k ∈ a.setup.keys := by
  cases hk with
  | aux => exact List.mem_cons_self
  | recv hi =>
    exact List.mem_append_right _ (List.mem_map_of_mem (List.mem_range.2 hi))
  | managed hg hn => exact (h.keyed.2 _ _ hg).resolve_left hn

end Keys

end Following

def twos : Connection :=
  ⟨.easy ⟨2, 2, 8⟩, ⟨0, 0, 0, 0, 0, 0, 0, 0⟩, 0, true, Bofi.listening⟩

def fresh : Server := ⟨Bofi.fresh, fun _ => none⟩

theorem fresh_init : machine.init fresh := ⟨Bofi.listening, Bofi.fresh, rfl, rfl⟩

open Sofi (FI_CONNECTED FI_SHUTDOWN) in
/-- Two connections are accepted.  One is made, the remote side hangs up, and the SOFI is reaped. -/
def hangup : List Event :=
  [.connreq twos (fun _ => 0) 0, .connreq twos (fun _ => 0) 0,
   .sofi ⟨0, 0, .active, false⟩ (.eq FI_CONNECTED 0 .easy),
   .sofi ⟨0, 0, .active, false⟩ (.eq FI_SHUTDOWN 0 .easy),
   .sofi ⟨0, 0, .active, false⟩ (.keepalive .stopped 0),
   .sofiStopped ⟨0, 0, .idle, true⟩ (fun _ => 0) 0]

section Results

open Bofi

variable {v : Server}

/-- A run of the BOFI with its SOFIs is one of the BOFI that sees them from outside, and what that
one knows of a SOFI is so: it is there as long as it is in the list, and has ended if the BOFI
says so. -/
theorem bofi_reachable (r : machine.Reachable v) : Bofi.machine.Reachable v.bofi ∧
    (∀ c ∈ v.bofi.sofis, ∃ a, v.sofis c.id = some a ∧ (c.fsm = .idle ↔ a.sofi.fsm = .idle) ∧
      (c.raised = true ↔ a.sofi.stoppeds = 1)) ∧
    ∀ i, i ∉ v.bofi.members → v.sofis i = none := by
  obtain ⟨b, rb, rfl, h⟩ := simulates.reachable r
  refine ⟨rb, fun c hc => ?_, h.only⟩
  obtain ⟨a, ha, hm⟩ := h.minded c hc
  obtain ⟨_, hl, _⟩ := hm.alive
  refine ⟨a, ha, hm.idle, hm.raised.trans ?_⟩
  rw [hl.stoppeds]
  split <;> simp_all

theorem hangup_bofi_reachable : ∃ v : Server, v.bofi.members = [1] ∧
    Bofi.machine.Reachable v.bofi ∧ v.sofis 0 = none := by
  obtain ⟨v, r, hp⟩ := Machine.exists_reachable hangup
    (fun v => v.bofi.members = [1]) fresh_init (by decide)
  have hm := of_decide_eq_true hp
  obtain ⟨rb, _, honly⟩ := bofi_reachable r
  exact ⟨v, hm, rb, honly 0 (by simp [hm])⟩

/-- The process survives exactly the safe events, and a SOFI that is reaped has come to its end,
with everything it had posted accounted for and its endpoint closed. -/
theorem survives_safe_only {e : Event} (r : machine.Reachable v) (he : v.enabled e = true) :
    ((∃ v', v.step e = .ok v') ↔ Safe v e) ∧
      (∀ c close closeSlab, e = .sofiStopped c close closeSlab →
        ∃ a, v.sofis c.id = some a ∧ a.sofi.fsm = .idle ∧ a.sofi.Concluded ∧
          a.sofi.epOpen = false) := by
  obtain ⟨b, rb, rfl, h⟩ := simulates.reachable r
  have hn := reachable_numbered rb
  have hp := reachable_posture rb
  refine ⟨⟨?_, ?_⟩, ?_⟩
  · rintro ⟨v', hs⟩
    by_contra hsafe
    obtain ⟨f, hf⟩ := h.step_unsafe hn hp he hsafe
    rw [hf] at hs
    cases hs
  · intro hs
    obtain ⟨v', hv, _⟩ := h.step_safe hn hp he hs
    exact ⟨v', hv⟩
  · rintro c close closeSlab rfl
    simp only [enabled, decide_eq_true_eq] at he
    exact h.ended he.1 he.2

theorem hangup_survives : ∃ v : Server, v.bofi.members = [1] ∧
    ∃ v', v.step .userStop = .ok v' := by
  obtain ⟨v, r, hp⟩ := Machine.exists_reachable hangup
    (fun v => v.bofi.members = [1] ∧ v.bofi.pep ≠ none) fresh_init (by decide)
  obtain ⟨hm, hpep⟩ := of_decide_eq_true hp
  exact ⟨v, hm, (survives_safe_only r (e := .userStop) rfl).1.2 fun _ => hpep⟩

/-- As long as no connection is accepted while the table of offsets is full, and it stays below
2 ^ 19, no two SOFIs have registrations under the same key. -/
theorem keys_apart {h : List (Server × Event)} (r : machine.Run h v)
    (hg : Machine.Guarded FreeSlot h) (hlen : v.bofi.sofiOffsets.length ≤ 2 ^ 19)
    {c₁ c₂ : Child} (h₁ : c₁ ∈ v.bofi.sofis) (h₂ : c₂ ∈ v.bofi.sofis) (hne : c₁ ≠ c₂)
    {a₁ a₂ : Accepted} (ha₁ : v.sofis c₁.id = some a₁) (ha₂ : v.sofis c₂.id = some a₂)
    (hs₁ : Small a₁) (hs₂ : Small a₂) :
    ∀ k, Registers a₁ k → ¬ Registers a₂ k := by
  obtain ⟨hsound, hu⟩ := run_offsetsUnique r hg
  have mind : ∀ c ∈ v.bofi.sofis, ∀ a, v.sofis c.id = some a → Minds c a := by
    intro c hc a ha
    obtain ⟨a', ha', hm⟩ := hsound.minded c hc
    exact Option.some.inj (ha'.symm.trans ha) ▸ hm
  have hm₁ := mind c₁ h₁ a₁ ha₁
  have hm₂ := mind c₂ h₂ a₂ ha₂
  have hoff : a₁.setup.offset ≠ a₂.setup.offset := by
    rw [hm₁.offset, hm₂.offset]
    exact fun he => hne (List.inj_on_of_nodup_map hu.nodup h₁ h₂ (Int.ofNat_inj.1 he))
  have place : ∀ c ∈ v.bofi.sofis, ∀ a, Minds c a → Small a → 0 ≤ a.setup.offset ∧
      a.setup.offset < 2 ^ 19 ∧ a.setup.txQueue ≤ 1023 ∧ a.setup.rxQueue ≤ 2048 := by
    intro c hc a hm hs
    have hlt := hsound.table c hc
    rw [hm.offset]
    exact ⟨by omega, by omega, hs⟩
  have hfit : ∀ a : Accepted, Small a → a.setup.Fits := by
    rintro a ⟨htx, _⟩ _
    omega
  have hd := (Sofi.Setup.keys_disjoint_iff (hfit a₁ hs₁) (hfit a₂ hs₂)).2
    (Sofi.Setup.apart_of_small hoff (place c₁ h₁ a₁ hm₁ hs₁) (place c₂ h₂ a₂ hm₂ hs₂))
  exact fun k hk₁ hk₂ => hd (hm₁.key_mem hk₁) (hm₂.key_mem hk₂)

open Sofi (FI_CONNECTED) in
/-- Two connections are accepted, and both SOFIs send from memory that goes into a bank. -/
def talk : List Event :=
  [.connreq twos (fun _ => 0) 0, .connreq twos (fun _ => 0) 0,
   .sofi ⟨0, 0, .active, false⟩ (.eq FI_CONNECTED 0 .easy),
   .sofi ⟨1, 1, .active, false⟩ (.eq FI_CONNECTED 0 .easy),
   .sofi ⟨0, 0, .active, false⟩ (.send ⟨⟨0, 0⟩, ⟨0x20000, 100⟩⟩ .easy),
   .sofi ⟨1, 1, .active, false⟩ (.send ⟨⟨0, 0⟩, ⟨0x20000, 100⟩⟩ .easy)]

theorem talk_apart : ∃ a₁ a₂ : Accepted, ∀ k ∈ [0, 1, 2, 0x0800, 0x0801],
    (Registers a₁ k ∧ ¬ Registers a₂ k) ∧ Registers a₂ (0x1000 + k) ∧
      ¬ Registers a₁ (0x1000 + k) := by
  have hi : ∀ v : Server, ∀ e, (decide (false ∈ v.bofi.sofiOffsets)) = true → FreeSlot v e := by
    intro v e hf d _
    cases d <;> first | trivial | exact fun _ _ => of_decide_eq_true hf
  obtain ⟨h, v, r, hg, hp⟩ := Machine.exists_guarded talk
    (fun v => v.bofi.sofiOffsets.length ≤ 2 ^ 19 ∧
      v.bofi.sofis = [⟨0, 0, .active, false⟩, ⟨1, 1, .active, false⟩] ∧
      (∃ a ∈ v.sofis 0, Small a ∧ Shows a 0) ∧ ∃ a ∈ v.sofis 1, Small a ∧ Shows a 0x1000)
    hi fresh_init (by decide)
  obtain ⟨hlen, hs, ⟨a₁, ha₁, hs₁, hk₁⟩, a₂, ha₂, hs₂, hk₂⟩ := of_decide_eq_true hp
  have hm₁ : (⟨0, 0, .active, false⟩ : Child) ∈ v.bofi.sofis := by simp [hs]
  have hm₂ : (⟨1, 1, .active, false⟩ : Child) ∈ v.bofi.sofis := by simp [hs]
  have hd := keys_apart r hg hlen hm₁ hm₂ (by simp) ha₁ ha₂ hs₁ hs₂
  refine ⟨a₁, a₂, fun k hk => ⟨⟨?_, ?_⟩, ?_, ?_⟩⟩
  · simpa using hk₁.registers k hk
  · exact hd k (by simpa using hk₁.registers k hk)
  · exact hk₂.registers k hk
  · exact fun h => hd _ h (hk₂.registers k hk)

/-- Nanomsg is told once that the BOFI has stopped.  It may destroy it then: no SOFI and no passive
endpoint is left. -/
theorem told_when_empty (r : machine.Reachable v) : v.bofi.epbaseStopped ≤ 1 ∧
    (v.bofi.epbaseStopped = 1 ↔ v.bofi.fsm = .idle) ∧
    (v.bofi.epbaseStopped = 1 → v.destroy = .ok () ∧ v.bofi.openPeps = [] ∧
      ∀ i, v.sofis i = none) := by
  obtain ⟨b, rb, rfl, h⟩ := simulates.reachable r
  cases reachable_posture rb with
  | listening hf _ _ _ he | failed hf _ _ _ _ he | stopping hf _ _ _ he =>
    rw [he, hf]
    simp
  | stopped hf _ ho hn he =>
    rw [he, hf]
    refine ⟨Nat.le_refl 1, by simp, fun _ => ⟨?_, ho, fun i => h.only i ?_⟩⟩
    · simp [destroy, nnAssert, hn]
    · simp [members, hn]

theorem hangup_told : ∃ v : Server, v.bofi.epbaseStopped = 1 ∧ v.destroy = .ok () := by
  obtain ⟨v, r, hp⟩ := Machine.exists_reachable
    (hangup ++ [.userStop, .sofiStopped ⟨1, 1, .idle, true⟩ (fun _ => 0) 0])
    (fun v => v.bofi.epbaseStopped = 1) fresh_init (by decide)
  have hn := of_decide_eq_true hp
  exact ⟨v, hn, ((told_when_empty r).2.2 hn).1⟩

end Results

end Server

end OfiTransport
