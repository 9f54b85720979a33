import OfiTransport.Bofi.Requests
import OfiTransport.Bofi.Stop
import OfiTransport.Lib.Simulation
import OfiTransport.Sofi.Keys
import OfiTransport.Sofi.Owned

/-! The listening endpoint together with the SOFIs it has accepted, of which `Bofi` knows only
whether they have stopped.  What a function of `bofi.c` does to the listening endpoint is what
`Bofi` says; here it also calls the functions of the SOFIs. -/

namespace OfiTransport

open Lib

structure Bofi.Accepted where
  setup : Sofi.Setup
  sofi : Sofi
  made : Bool

structure Server where
  bofi : Bofi
  sofis : Nat → Option Bofi.Accepted

namespace Bofi

variable {b : Bofi} {r : Request} {p : Nat}

def cleared (b : Bofi) : Bofi :=
  { b.newSofiOffset.2 with nextSofi := b.nextSofi + 1, openPeps := [] }

def newChild (b : Bofi) : Child := ⟨b.nextSofi, b.newSofiOffset.1, .active, false⟩

theorem passiveEndpointClose_numbered (hp : b.pep = some p) (ho : b.openPeps = [p]) :
    passiveEndpointClose { b.newSofiOffset.2 with nextSofi := b.nextSofi + 1 } =
      .ok b.cleared := by
  obtain ⟨t, ht⟩ := newSofiOffset_table b
  rw [cleared, ht]
  exact passiveEndpointClose_open (b := { b with sofiOffsets := t, nextSofi := b.nextSofi + 1 })
    hp ho

theorem newSofiOffset_nextSofi (b : Bofi) : b.newSofiOffset.2.nextSofi = b.nextSofi := by
  obtain ⟨t, ht⟩ := newSofiOffset_table b
  rw [ht]

theorem cmReject_numbered (hp : b.pep = some p) (ho : b.openPeps = [p]) :
    cmReject true { b.newSofiOffset.2 with nextSofi := b.nextSofi + 1 } =
      .ok { b.newSofiOffset.2 with nextSofi := b.nextSofi + 1 } := by
  obtain ⟨t, ht⟩ := newSofiOffset_table b
  rw [ht]
  exact cmReject_open (b := { b with sofiOffsets := t, nextSofi := b.nextSofi + 1 }) true hp ho

theorem cmReject_unread (b : Bofi) : ∃ f, b.cmReject false = .error f := by
  simp only [cmReject, Bool.false_eq_true, if_false]
  repeat' split
  all_goals exact ⟨_, rfl⟩

theorem handleConnreq_refused (hi : r.init = 0) (ha : r.accept ≠ 0) (hr : r.readable = true)
    (hp : b.pep = some p) (ho : b.openPeps = [p]) :
    b.handleConnreq r = b.cleared.listenAgain r.relisten := by
  simp only [handleConnreq, hi, ha, hr, newSofiOffset_nextSofi, cmReject_numbered hp ho,
    passiveEndpointClose_numbered hp ho, ne_eq, not_true_eq_false, not_false_eq_true, if_true,
    if_false, bind, Except.bind]

theorem handleConnreq_accepted (hi : r.init = 0) (ha : r.accept = 0) (hp : b.pep = some p)
    (ho : b.openPeps = [p]) : b.handleConnreq r =
      listenAgain r.relisten { b.cleared with sofis := b.cleared.sofis ++ [b.newChild] } := by
  simp only [handleConnreq, hi, ha, newSofiOffset_nextSofi, passiveEndpointClose_numbered hp ho,
    ne_eq, not_true_eq_false, if_false, bind, Except.bind]
  rfl

theorem cleared_framed (b : Bofi) : b.cleared.sofis = b.sofis ∧ b.cleared.fsm = b.fsm ∧
    b.sofiOffsets.length ≤ b.cleared.sofiOffsets.length ∧
      b.newSofiOffset.1 < b.cleared.sofiOffsets.length := by
  simp only [cleared, newSofiOffset]
  split
  · next h => exact ⟨rfl, rfl, by simp, by simpa using h⟩
  · exact ⟨rfl, rfl, by simp, by simp⟩

end Bofi

namespace Server

open Bofi (Child Listen Connection Accepted)

def find (v : Server) (i : Nat) : M Accepted :=
  match v.sofis i with
  | none => .error .useAfterFree
  | some a => .ok a

def put (v : Server) (c : Child) (a : Accepted) (s' : Sofi) : Server where
  bofi :=
    if a.sofi.stoppeds < s'.stoppeds then { v.bofi with sofis := v.bofi.sofis.map c.ends }
    else v.bofi
  sofis := Function.update v.sofis c.id (some { a with sofi := s' })

def stopSofi (v : Server) (c : Child) : M Server := do
  let a ← v.find c.id
  return v.put c a (← a.sofi.fsmStop)

def fsmStop (v : Server) : M Server :=
  if v.bofi.fsm = .active then do
    let b ← v.bofi.fsmStop
    -- a SOFI that stops stays in the list
    b.sofis.foldlM stopSofi { v with bofi := b }
  else .ok v

def listenAgain (l : Listen) (v : Server) : M Server :=
  let (ret, b) := v.bofi.startAccepting l
  if ret ≠ 0 then fsmStop { v with bofi := b } else .ok { v with bofi := b }

def reapSofi (close : Nat → Int) (closeSlab : Int) (v : Server) (c : Child) : M Server := do
  let b ← v.bofi.reapSofi c
  let a ← v.find c.id
  let _ ← a.sofi.term close closeSlab
  return ⟨b, Function.update v.sofis c.id none⟩

def handleConnreq (q : Connection) (close : Nat → Int) (closeSlab : Int) (v : Server) :
    M Server := do
  let u := q.setupAt v.bofi
  let (offset, b) := v.bofi.newSofiOffset
  let c : Child := ⟨b.nextSofi, offset, .idle, false⟩
  let b := { b with nextSofi := b.nextSofi + 1 }
  let (_, built) ← Sofi.init u
  match built with
  | none =>
    let b ← b.reapSofi c
    fsmStop { v with bofi := b }
  | some s =>
    let (ret, s, _) ← Sofi.startAccept q.opening q.accept s
    if ret ≠ 0 then
      let b ← b.cmReject q.readable
      let b ← b.passiveEndpointClose
      let _ ← s.term close closeSlab
      listenAgain q.relisten { v with bofi := b }
    else
      let b ← b.passiveEndpointClose
      listenAgain q.relisten {
        bofi := { b with sofis := b.sofis ++ [{ c with fsm := .active }] }
        sofis := Function.update v.sofis c.id (some ⟨u, s, false⟩) }

def sofiStopped (close : Nat → Int) (closeSlab : Int) (v : Server) (c : Child) : M Server :=
  if v.bofi.fsm = .stopping then do
    let v ← v.reapSofi close closeSlab c
    return { v with bofi := v.bofi.shutdownWait }
  else
    match v.bofi.state with
    | .idle => .error .badSource
    | .active => v.reapSofi close closeSlab c
    | .stopping => .error .badState

def connreq (q : Connection) (close : Nat → Int) (closeSlab : Int) (v : Server) : M Server :=
  if v.bofi.fsm = .stopping then .error .badState
  else
    match v.bofi.state with
    | .idle => .error .badSource
    | .active => v.handleConnreq q close closeSlab
    | .stopping => .error .badState

/-- What can happen to a BOFI and its SOFIs.  Terminating a SOFI closes registrations, with the
results given. -/
inductive Event
  | userStop
  | connreq (q : Connection) (close : Nat → Int) (closeSlab : Int)
  | eq (type : Int)
  | sofi (c : Child) (e : Sofi.Event)
  | sofiStopped (c : Child) (close : Nat → Int) (closeSlab : Int)

def Even (q : Connection) : Prop :=
  2 ≤ q.setup.rxQueue ∧ q.setup.rxQueue = q.setup.txQueue

instance (q : Connection) : Decidable (Even q) := inferInstanceAs (Decidable (_ ∧ _))

def enabled (v : Server) : Event → Bool
  | .userStop => true
  | .connreq q .. => v.bofi.watched ∧ Even q
  | .eq _ => v.bofi.watched
  | .sofi c e =>
    c ∈ v.bofi.sofis ∧ ∃ a ∈ v.sofis c.id, a.sofi.enabled e ∧ a.sofi.lawful a.made e
  | .sofiStopped c .. => c ∈ v.bofi.sofis ∧ c.raised

def step (v : Server) : Event → M Server
  | .userStop => v.fsmStop
  | .connreq q close closeSlab => v.connreq q close closeSlab
  | .eq type => do return { v with bofi := ← v.bofi.feed (.eq type) }
  | .sofi c e => do
    let a ← v.find c.id
    return v.put c { a with made := a.made || e.connects } (← a.sofi.step e)
  | .sofiStopped c close closeSlab => v.sofiStopped close closeSlab c

def machine : Machine Server Event Fault where
  init v := ∃ l b, Bofi.create l = .ok b ∧ v = ⟨b, fun _ => none⟩
  enabled := enabled
  step := step

/-- `nn_bofi_destroy`: the list of the SOFIs must be empty. -/
def destroy (v : Server) : M Unit := nnAssert (v.bofi.sofis = [])

section Following

open Bofi
open Sofi (Idles Keyed SlabsRegistered step_moves)

variable {v v' : Server} {b b' : Bofi} {c d : Child} {a : Accepted} {s s' : Sofi}

structure Minds (c : Child) (a : Accepted) : Prop where
  alive : a.sofi.Alive a.made
  idle : c.fsm = .idle ↔ a.sofi.fsm = .idle
  raised : c.raised = true ↔ a.sofi.fsm = .idle
  offset : a.setup.offset = c.offset
  queue : 1 ≤ a.setup.txQueue
  keyed : Keyed a.setup a.sofi.egress.mrm

structure Sound (v : Server) : Prop where
  minded : ∀ c ∈ v.bofi.sofis, ∃ a, v.sofis c.id = some a ∧ Minds c a
  nodup : v.bofi.members.Nodup
  table : ∀ c ∈ v.bofi.sofis, c.offset < v.bofi.sofiOffsets.length
  only : ∀ i, i ∉ v.bofi.members → v.sofis i = none

structure Settles (b : Bofi) (v' : Server) : Prop where
  path : ∃ h, Machine.Path Bofi.machine b h v'.bofi
  same : SameOffsets b v'.bofi
  sound : Sound v'

theorem Settles.refl (h : Sound v) : Settles v.bofi v := ⟨⟨[], .refl⟩, ⟨rfl, rfl⟩, h⟩

theorem Settles.trans (h : Settles b v) (h' : Settles v.bofi v') : Settles b v' := by
  obtain ⟨_, p⟩ := h.path
  obtain ⟨_, p'⟩ := h'.path
  exact ⟨⟨_, p.trans p'⟩, h.same.trans h'.same, h'.sound⟩

theorem Sound.child_inj (h : Sound v) (hc : c ∈ v.bofi.sofis) (hd : d ∈ v.bofi.sofis)
    (hi : d.id = c.id) : d = c :=
  List.inj_on_of_nodup_map h.nodup hd hc hi

theorem put_sofis (v : Server) (c : Child) (a : Accepted) (s' : Sofi) :
    (v.put c a s').sofis = Function.update v.sofis c.id (some { a with sofi := s' }) := rfl

theorem Sound.put {made : Bool} (h : Sound v) (hc : c ∈ v.bofi.sofis) (hm : Minds c a)
    (hal : s'.Alive made) (hi : Idles a.sofi s') (hk : Keyed a.setup s'.egress.mrm) :
    Settles v.bofi (v.put c { a with made := made } s') := by
  have hother : ∀ d ∈ v.bofi.sofis, d ≠ c → ∃ a₁, (v.put c { a with made := made } s').sofis d.id =
      some a₁ ∧ Minds d a₁ := by
    intro d hd hne
    obtain ⟨a₁, ha₁, hm₁⟩ := h.minded d hd
    have hid : d.id ≠ c.id := fun he => hne (h.child_inj hc hd he)
    exact ⟨a₁, by rw [put_sofis, Function.update_of_ne hid, ha₁], hm₁⟩
  have hself : (v.put c { a with made := made } s').sofis c.id =
      some { a with made := made, sofi := s' } := by
    rw [put_sofis, Function.update_self]
  have honly : ∀ i, i ∉ v.bofi.members → (v.put c { a with made := made } s').sofis i = none := by
    intro i hi
    have hne : i ≠ c.id := fun he => hi (he ▸ List.mem_map_of_mem hc)
    rw [put_sofis, Function.update_of_ne hne, h.only i hi]
  cases hi with
  | keeps hf hn =>
    have hb : (v.put c { a with made := made } s').bofi = v.bofi := by simp [Server.put, hn]
    refine ⟨⟨[], hb ▸ .refl⟩, ⟨by rw [hb], by rw [hb]⟩, ⟨?_, ?_, ?_, ?_⟩⟩
    · intro d hd
      rw [hb] at hd
      by_cases he : d = c
      · subst he
        exact ⟨_, hself, hal, hm.idle.trans hf.symm, hm.raised.trans hf.symm, hm.offset, hm.queue,
          hk⟩
      · exact hother d hd he
    · rw [hb]
      exact h.nodup
    · rw [hb]
      exact h.table
    · rw [hb]
      exact honly
  | ends hf hf' hn =>
    have hb : (v.put c { a with made := made } s').bofi =
        { v.bofi with sofis := v.bofi.sofis.map c.ends } := by simp [Server.put, hn]
    have hmem : (v.put c { a with made := made } s').bofi.members = v.bofi.members := by
      simp [hb, members]
    have hen : v.bofi.enabled (.sofiEnds c) = true := by
      simpa [Bofi.enabled, hm.idle, hc] using hf
    have hp : Machine.Path Bofi.machine v.bofi [(v.bofi, .sofiEnds c)]
        (v.put c { a with made := made } s').bofi := by
      rw [hb]
      exact .step .refl hen rfl
    refine ⟨⟨_, hp⟩, ⟨by simp [hb, live], by rw [hb]⟩,
      ⟨?_, hmem ▸ h.nodup, ?_, hmem ▸ honly⟩⟩
    · intro d hd
      rw [hb] at hd
      obtain ⟨d₀, hd₀, rfl⟩ := List.mem_map.1 hd
      rw [Child.ends_id]
      by_cases he : d₀ = c
      · subst he
        refine ⟨_, hself, hal, ?_, ?_, ?_, hm.queue, hk⟩
        · simp [Child.ends, hf']
        · simp [Child.ends, hf']
        · simpa using hm.offset
      · obtain ⟨a₁, ha₁, hm₁⟩ := hother d₀ hd₀ he
        refine ⟨a₁, ha₁, ?_⟩
        rw [Child.ends, if_neg he]
        exact hm₁
    · intro d hd
      rw [hb] at hd ⊢
      obtain ⟨d₀, hd₀, rfl⟩ := List.mem_map.1 hd
      simpa using h.table d₀ hd₀

theorem Sound.stopSofi (h : Sound v) (hc : c ∈ v.bofi.sofis) :
    ∃ v', v.stopSofi c = .ok v' ∧ Settles v.bofi v' ∧
      ∀ d ∈ v.bofi.sofis, d ≠ c → d ∈ v'.bofi.sofis := by
  obtain ⟨a, ha, hm⟩ := h.minded c hc
  obtain ⟨s', hs, hal, hi⟩ := hm.alive.fsmStop
  have hk : Keyed a.setup s'.egress.mrm := by
    obtain ⟨_, hl, _⟩ := hm.alive
    exact hm.keyed.grows hm.queue (step_moves hl.phase (e := .stop) rfl hs).worked.grows
  refine ⟨v.put c a s', ?_, h.put hc hm hal hi hk, ?_⟩
  · simp [Server.stopSofi, find, ha, hs, bind, Except.bind, pure, Except.pure]
  · intro d hd hne
    simp only [Server.put]
    split
    · refine List.mem_map.2 ⟨d, hd, ?_⟩
      rw [Child.ends, if_neg hne]
    · exact hd

theorem Sound.stopSofis {cs : List Child} (h : Sound v) (hcs : ∀ c ∈ cs, c ∈ v.bofi.sofis)
    (hn : cs.Nodup) : ∃ v', cs.foldlM Server.stopSofi v = .ok v' ∧ Settles v.bofi v' := by
  induction cs generalizing v with
  | nil => exact ⟨v, rfl, .refl h⟩
  | cons c cs ih =>
    rw [List.nodup_cons] at hn
    obtain ⟨v₁, h₁, hs₁, hkeep⟩ := h.stopSofi (hcs c List.mem_cons_self)
    obtain ⟨v', h', hs'⟩ := ih hs₁.sound (fun d hd => hkeep d (hcs d (List.mem_cons_of_mem c hd))
      (fun he => hn.1 (he ▸ hd))) hn.2
    refine ⟨v', ?_, hs₁.trans hs'⟩
    rw [List.foldlM_cons, h₁]
    exact h'

theorem Minds.stop (h : Minds c a) : Minds c.stop a := by
  have hr : c.stop.raised = c.raised := by
    simp only [Child.stop]
    split <;> rfl
  exact ⟨h.alive, c.stop_idle.trans h.idle, by rw [hr, h.raised], by simpa using h.offset, h.queue,
    h.keyed⟩

theorem Sound.told (h : Sound v) (ht : Told v.bofi b) : Sound { v with bofi := b } := by
  have hmem := ht.members
  refine ⟨?_, hmem ▸ h.nodup, ?_, hmem ▸ h.only⟩
  · intro c hc
    rcases ht.sofis with hl | hl
    · exact h.minded c (hl ▸ hc)
    · obtain ⟨d, hd, rfl⟩ := List.mem_map.1 (hl ▸ hc)
      obtain ⟨a, ha, hm⟩ := h.minded d hd
      exact ⟨a, by rwa [Child.stop_id], hm.stop⟩
  · intro c hc
    rw [ht.table]
    rcases ht.sofis with hl | hl
    · exact h.table c (hl ▸ hc)
    · obtain ⟨d, hd, rfl⟩ := List.mem_map.1 (hl ▸ hc)
      simpa using h.table d hd

theorem Sound.fsmStop (h : Sound v) (hb : v.bofi.fsmStop = .ok b) :
    ∃ v', v.fsmStop = .ok v' ∧ Settles b v' := by
  by_cases hf : v.bofi.fsm = .active
  · have h₁ := h.told (fsmStop_told hb)
    obtain ⟨v', hv, hs⟩ := h₁.stopSofis (fun c hc => hc) (List.Nodup.of_map _ h₁.nodup)
    refine ⟨v', ?_, hs⟩
    simp only [Server.fsmStop, hf, if_true, hb, bind, Except.bind]
    exact hv
  · have heq : v.bofi = b := by simpa [Bofi.fsmStop, hf] using hb
    subst heq
    exact ⟨v, by simp [Server.fsmStop, hf], .refl h⟩

theorem fsmStop_error {f : Fault} (hb : v.bofi.fsmStop = .error f) : v.fsmStop = .error f := by
  by_cases hf : v.bofi.fsm = .active
  · simp [Server.fsmStop, hf, hb, bind, Except.bind]
  · simp [Bofi.fsmStop, hf] at hb

theorem startAccepting_told (l : Listen) (b : Bofi) : Told b (b.startAccepting l).2 := by
  have ha := startAccepting_accepting l b
  generalize b.startAccepting l = r at ha
  cases ha <;> exact ⟨.inl rfl, rfl, rfl⟩

theorem Sound.listenAgain {l : Listen} (h : Sound v) (hb : v.bofi.listenAgain l = .ok b) :
    ∃ v', v.listenAgain l = .ok v' ∧ Settles b v' := by
  have h₁ := h.told (startAccepting_told l v.bofi)
  simp only [Bofi.listenAgain] at hb
  simp only [Server.listenAgain]
  split at hb
  · next hr =>
    rw [if_pos hr]
    exact h₁.fsmStop hb
  · next hr =>
    rw [if_neg hr]
    cases hb
    exact ⟨_, rfl, .refl h₁⟩

theorem listenAgain_error {l : Listen} {f : Fault} (hb : v.bofi.listenAgain l = .error f) :
    v.listenAgain l = .error f := by
  simp only [Bofi.listenAgain] at hb
  simp only [Server.listenAgain]
  split at hb
  · next hr =>
    rw [if_pos hr]
    exact fsmStop_error hb
  · cases hb

theorem Sound.of_sofi {e : Sofi.Event} (h : Sound v) (he : v.enabled (.sofi c e) = true) :
    ∃ a, c ∈ v.bofi.sofis ∧ v.sofis c.id = some a ∧ Minds c a ∧ a.sofi.enabled e = true ∧
      a.sofi.lawful a.made e = true := by
  simp only [enabled, decide_eq_true_eq] at he
  obtain ⟨hc, a, ha, hen, hlaw⟩ := he
  obtain ⟨a₁, ha₁, hm⟩ := h.minded c hc
  have heq : a = a₁ := Option.some.inj (Eq.trans (Eq.symm ha) ha₁)
  subst heq
  exact ⟨a, hc, ha, hm, hen, hlaw⟩

theorem Sound.sofi {e : Sofi.Event} (h : Sound v) (he : v.enabled (.sofi c e) = true)
    (hb : ∀ a ∈ v.sofis c.id, a.sofi.Bears e) :
    ∃ v', v.step (.sofi c e) = .ok v' ∧ Settles v.bofi v' := by
  obtain ⟨a, hc, ha, hm, hen, hlaw⟩ := h.of_sofi he
  obtain ⟨s', hs, hal, hi⟩ := hm.alive.step hen hlaw (hb a ha)
  have hk : Keyed a.setup s'.egress.mrm := by
    obtain ⟨_, hl, _⟩ := hm.alive
    exact hm.keyed.grows hm.queue (step_moves hl.phase hen hs).worked.grows
  refine ⟨_, ?_, h.put hc hm hal hi hk⟩
  simp [Server.step, find, ha, hs, bind, Except.bind, pure, Except.pure]

theorem Sound.sofi_unborne {e : Sofi.Event} (h : Sound v) (he : v.enabled (.sofi c e) = true)
    (hb : ¬ ∀ a ∈ v.sofis c.id, a.sofi.Bears e) : ∃ f, v.step (.sofi c e) = .error f := by
  obtain ⟨a, _, ha, hm, hen, _⟩ := h.of_sofi he
  have hb : ¬ a.sofi.Bears e := by
    refine fun hbear => hb fun a₁ ha₁ => ?_
    have heq : a₁ = a := Option.some.inj (Eq.trans (Eq.symm ha₁) ha)
    exact heq ▸ hbear
  obtain ⟨f, hs⟩ := hm.alive.unborne hen hb
  exact ⟨f, by simp [Server.step, find, ha, hs, bind, Except.bind]⟩

theorem Sound.ended (h : Sound v) (hc : c ∈ v.bofi.sofis) (hr : c.raised = true) :
    ∃ a, v.sofis c.id = some a ∧ a.sofi.fsm = .idle ∧ a.sofi.Concluded ∧
      a.sofi.epOpen = false := by
  obtain ⟨a, ha, hm⟩ := h.minded c hc
  have hf := hm.raised.1 hr
  obtain ⟨hcon, hep⟩ := hm.alive.concluded hf
  exact ⟨a, ha, hf, hcon, hep⟩

theorem Sound.reapSofi {close : Nat → Int} {closeSlab : Int} (h : Sound v)
    (hc : c ∈ v.bofi.sofis) (ha : v.sofis c.id = some a)
    (ht : a.sofi.term close closeSlab = .ok s') :
    ∃ v', v.reapSofi close closeSlab c = .ok v' ∧ v.bofi.reapSofi c = .ok v'.bofi ∧ Sound v' := by
  have hr := reapSofi_ok hc (h.table c hc)
  let b : Bofi := { v.bofi with
    sofiOffsets := v.bofi.sofiOffsets.set c.offset false, sofis := v.bofi.sofis.erase c }
  obtain ⟨_, hp⟩ := members_erase hc h.nodup (show b.sofis = _ from rfl)
  have hn := List.nodup_cons.1 (hp.nodup_iff.1 h.nodup)
  have hsub : ∀ d ∈ b.sofis, d ∈ v.bofi.sofis ∧ d.id ≠ c.id := by
    intro d hd
    exact ⟨List.mem_of_mem_erase hd, fun he => hn.1 (he ▸ List.mem_map_of_mem hd)⟩
  refine ⟨⟨b, Function.update v.sofis c.id none⟩, ?_, hr, ?_, hn.2, ?_, ?_⟩
  · simp only [Server.reapSofi, hr, find, ha, ht, bind, Except.bind]
    rfl
  · intro d hd
    obtain ⟨hd₀, hne⟩ := hsub d hd
    obtain ⟨a₁, ha₁, hm⟩ := h.minded d hd₀
    exact ⟨a₁, (Function.update_of_ne hne _ _).trans ha₁, hm⟩
  · intro d hd
    simpa [b] using h.table d (hsub d hd).1
  · intro i hi
    by_cases he : i = c.id
    · subst he
      exact Function.update_self ..
    · refine (Function.update_of_ne he _ _).trans (h.only i fun hm => hi ?_)
      exact (List.mem_cons.1 (hp.mem_iff.1 hm)).resolve_left he

theorem Sound.sofiStopped {close : Nat → Int} {closeSlab : Int} (h : Sound v)
    (hp : Posture v.bofi) (hc : c ∈ v.bofi.sofis) (ha : v.sofis c.id = some a)
    (ht : a.sofi.term close closeSlab = .ok s') :
    ∃ v', v.sofiStopped close closeSlab c = .ok v' ∧
      v.bofi.step (.sofiStopped c) = .ok v'.bofi ∧ Sound v' := by
  obtain ⟨v₁, h₁, hb, hs⟩ := h.reapSofi hc ha ht
  cases hp with
  | listening hf hst =>
    refine ⟨v₁, ?_, ?_, hs⟩
    · simpa [Server.sofiStopped, hf, hst] using h₁
    · simpa [Bofi.step, feed, hf, handler, hst] using hb
  | stopping hf hst =>
    refine ⟨{ v₁ with bofi := v₁.bofi.shutdownWait }, ?_, ?_, ?_⟩
    · simp only [Server.sofiStopped, hf, if_true, h₁, bind, Except.bind]
      rfl
    · simp only [Bofi.step, feed, hf, if_true, shutdown, hb, bind, Except.bind]
      rfl
    · refine hs.told ?_
      simp only [shutdownWait]
      split <;> exact ⟨.inl rfl, rfl, rfl⟩
  | failed _ _ _ _ hne | stopped _ _ _ hne => simp [hne] at hc

theorem sofiStopped_error {close : Nat → Int} {closeSlab : Int} {f : Fault} (hp : Posture v.bofi)
    (hc : c ∈ v.bofi.sofis) (hr : v.reapSofi close closeSlab c = .error f) :
    v.sofiStopped close closeSlab c = .error f := by
  cases hp with
  | listening hf hst => simpa [Server.sofiStopped, hf, hst] using hr
  | stopping hf hst => simp [Server.sofiStopped, hf, hr, bind, Except.bind]
  | failed _ _ _ _ hne | stopped _ _ _ hne => simp [hne] at hc

theorem Sound.framed (h : Sound v) (hs : b.sofis = v.bofi.sofis)
    (ht : v.bofi.sofiOffsets.length ≤ b.sofiOffsets.length) : Sound { v with bofi := b } := by
  have hmem : b.members = v.bofi.members := by rw [members, hs, members]
  refine ⟨fun c hc => h.minded c (hs ▸ hc), hmem ▸ h.nodup, fun c hc => ?_, hmem ▸ h.only⟩
  exact Nat.lt_of_lt_of_le (h.table c (hs ▸ hc)) ht

theorem Sound.accepted (h : Sound v) (hn : c.id ∉ v.bofi.members) (hs : b.sofis = v.bofi.sofis)
    (ht : v.bofi.sofiOffsets.length ≤ b.sofiOffsets.length) (ho : c.offset < b.sofiOffsets.length)
    (hm : Minds c a) : Sound ⟨{ b with sofis := b.sofis ++ [c] },
      Function.update v.sofis c.id (some a)⟩ := by
  have hf := h.framed hs ht
  have hn : c.id ∉ b.members := by rwa [members, hs]
  have hmem : members { b with sofis := b.sofis ++ [c] } = b.members ++ [c.id] := by
    simp [members]
  refine ⟨?_, ?_, ?_, ?_⟩
  · intro d hd
    rcases List.mem_append.1 hd with hd | hd
    · obtain ⟨a₁, ha₁, hm₁⟩ := hf.minded d hd
      have hne : d.id ≠ c.id := fun he => hn (he ▸ List.mem_map_of_mem hd)
      exact ⟨a₁, (Function.update_of_ne hne _ _).trans ha₁, hm₁⟩
    · rw [List.mem_singleton.1 hd]
      exact ⟨a, Function.update_self .., hm⟩
  · rw [hmem]
    exact List.Nodup.append hf.nodup (List.nodup_singleton _) (by simpa using hn)
  · intro d hd
    rcases List.mem_append.1 hd with hd | hd
    · exact hf.table d hd
    · rw [List.mem_singleton.1 hd]
      exact ho
  · intro i hi
    rw [hmem, List.mem_append, List.mem_singleton, not_or] at hi
    exact (Function.update_of_ne hi.2 _ _).trans (hf.only i hi.1)

end Following

end Server

end OfiTransport
