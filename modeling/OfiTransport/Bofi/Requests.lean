import OfiTransport.Bofi.Endpoints
import OfiTransport.Sofi.Init

/-! A connection request with every call it leads to: building the SOFI, opening its endpoint
and accepting, and what each of the failures on that way leaves behind. -/

namespace OfiTransport

open Lib

namespace Sofi

/-- What the calls made in `ofi_active_endpoint_open` return, in their order. -/
structure Opening where
  endpoint : Int
  openEq : Int
  bindEq : Int
  openCqTx : Int
  bindCqTx : Int
  openCqRx : Int
  bindCqRx : Int
  enable : Int

/-- `ofi_active_endpoint_open`, with the number of endpoints that `fi_endpoint` has opened and
that are still open: no failure exit closes one. -/
def activeEndpointOpen (o : Opening) : Int × Nat :=
  if o.endpoint ≠ 0 then (o.endpoint, 0)
  else if o.openEq ≠ 0 then (o.openEq, 1)
  else if o.bindEq ≠ 0 then (o.bindEq, 1)
  else if o.openCqTx ≠ 0 then (o.openCqTx, 1)
  else if o.bindCqTx ≠ 0 then (o.bindCqTx, 1)
  else if o.openCqRx ≠ 0 then (o.openCqRx, 1)
  else if o.bindCqRx ≠ 0 then (o.bindCqRx, 1)
  else (o.enable, 1)

def startAccept (o : Opening) (accept : Int) (s : Sofi) : M (Int × Sofi × Nat) := do
  let (opened, endpoints) := activeEndpointOpen o
  let (ret, s) ← start opened accept s
  return (ret, s, endpoints)

theorem activeEndpointOpen_none {o : Opening} : (activeEndpointOpen o).2 = 0 ↔ o.endpoint ≠ 0 := by
  simp only [activeEndpointOpen]
  by_cases h : o.endpoint = 0
  · rw [if_neg (by simpa using h)]
    repeat' split
    all_goals simp [h]
  · simp [h]

theorem startAccept_failed {o : Opening} {accept : Int} (s : Sofi)
    (h : (activeEndpointOpen o).1 ≠ 0 ∨ accept ≠ 0) :
    ∃ ret s', ret ≠ 0 ∧ startAccept o accept s = .ok (ret, s', (activeEndpointOpen o).2) := by
  by_cases ho : (activeEndpointOpen o).1 = 0
  · have ha : accept ≠ 0 := h.resolve_left (fun hn => hn ho)
    refine ⟨accept, { s with epOpen := true, socketState := .closed }, ha, ?_⟩
    simp [startAccept, start, ho, ha, bind, Except.bind, pure, Except.pure]
  · refine ⟨_, s, ho, ?_⟩
    simp [startAccept, start, ho, bind, Except.bind, pure, Except.pure]

theorem startAccept_ret {o : Opening} {accept ret : Int} {s s' : Sofi} {n : Nat}
    (h : startAccept o accept s = .ok (ret, s', n)) :
    n = (activeEndpointOpen o).2 ∧
      ret = if (activeEndpointOpen o).1 ≠ 0 then (activeEndpointOpen o).1 else accept := by
  simp only [startAccept, start, bind_eq_ok, pure_eq_ok] at h
  obtain ⟨⟨ret₁, s₁⟩, h, he⟩ := h
  simp only [Prod.mk.injEq] at he
  obtain ⟨rfl, -, rfl⟩ := he
  refine ⟨rfl, ?_⟩
  split at h
  · next ho =>
    simp only [pure_eq_ok, Prod.mk.injEq] at h
    rw [if_pos ho, ← h.1]
  · next ho =>
    rw [if_neg ho]
    split at h
    · simp only [pure_eq_ok, Prod.mk.injEq] at h
      exact h.1.symm
    · next ha =>
      simp only [bind_eq_ok, pure_eq_ok, Prod.mk.injEq] at h
      obtain ⟨_, _, h, _⟩ := h
      rw [not_not.1 ha, h]

theorem init_ret {u : Setup} {ret : Int} {built : Option Sofi} (h : init u = .ok (ret, built)) :
    ret = u.firstFailure u.rxQueue.toNat ∧ (built = none ↔ ret ≠ 0) := by
  simp only [init, bind_eq_ok] at h
  obtain ⟨_, _, h⟩ := h
  split at h
  · cases h
  · simp only [bind_eq_ok] at h
    obtain ⟨_, _, h⟩ := h
    split at h
    · next hf =>
      simp only [pure_eq_ok, Prod.mk.injEq] at h
      exact ⟨h.1.symm, by simp [← h.1, ← h.2, hf]⟩
    · next hf =>
      simp only [pure_eq_ok, Prod.mk.injEq] at h
      exact ⟨by rw [← h.1, not_not.1 hf], by simp [← h.1, ← h.2]⟩

end Sofi

namespace Bofi

/-- A connection request: what `nn_sofi_init` works with, what opening the endpoint and
`ofi_cm_accept` return, whether the process gets over the read of a freed `fi_info`, and the fate
of the passive endpoint opened next. -/
structure Connection where
  setup : Sofi.Setup
  opening : Sofi.Opening
  accept : Int
  readable : Bool
  relisten : Listen

/-- What a request leaves behind beside the BOFI: endpoints opened for it that nobody is going
to close, and how often `nn_sofi_term` ran on a SOFI that was not complete. -/
structure Aftermath where
  endpoints : Nat
  incomplete : Nat

namespace Connection

def setupAt (q : Connection) (b : Bofi) : Sofi.Setup :=
  { q.setup with offset := b.newSofiOffset.1 }

def handle (q : Connection) (b : Bofi) : M (Bofi × Aftermath) := do
  let u := q.setupAt b
  let (offset, b) := b.newSofiOffset
  let s : Child := ⟨b.nextSofi, offset, .idle, false⟩
  let b := { b with nextSofi := b.nextSofi + 1 }
  let (_, built) ← Sofi.init u
  match built with
  | none =>
    let b ← b.reapSofi s
    let b ← b.criticalError
    return (b, ⟨0, 1⟩)
  | some sofi =>
    let (ret, _, endpoints) ← Sofi.startAccept q.opening q.accept sofi
    if ret ≠ 0 then
      let b ← b.cmReject q.readable
      let b ← b.passiveEndpointClose
      let b ← b.listenAgain q.relisten
      return (b, ⟨endpoints, 0⟩)
    else
      let b ← b.passiveEndpointClose
      let b := { b with sofis := b.sofis ++ [{ s with fsm := .active }] }
      let b ← b.listenAgain q.relisten
      return (b, ⟨0, 0⟩)

/-- One of the failure exits of `nn_sofi_init` or `nn_sofi_start_accept` is taken. -/
def Fails (q : Connection) (b : Bofi) : Prop :=
  (∃ ret, Sofi.init (q.setupAt b) = .ok (ret, none)) ∨
    (∃ s, Sofi.init (q.setupAt b) = .ok (0, some s)) ∧
      ((Sofi.activeEndpointOpen q.opening).1 ≠ 0 ∨ q.accept ≠ 0)

end Connection

structure Restored (b b' : Bofi) (a : Aftermath) : Prop where
  members : b'.members = b.members
  marks : ∀ o, b'.sofiOffsets[o]? = some true ↔ o ∈ b'.live
  endpoints : a.endpoints = 0
  incomplete : a.incomplete = 0

namespace Connection

/-- The request is handled to its end, without an erase from a list the item is not in. -/
def EndsAsWas (q : Connection) (b : Bofi) : Prop :=
  ∃ b' a, q.handle b = .ok (b', a) ∧ Restored b b' a

/-- So it is whatever comes of reading memory that was freed. -/
def LeavesAsWas (q : Connection) (b : Bofi) : Prop :=
  ∀ readable, { q with readable := readable }.EndsAsWas b

/-- The chunks can be allocated, `fi_endpoint` fails, listening again opens an endpoint, and
the live SOFIs hold the marked offsets and the first free one, if there is one. -/
structure Harmless (q : Connection) (b : Bofi) : Prop where
  chunks : q.setup.firstFailure q.setup.rxQueue.toNat = 0
  endpoint : q.opening.endpoint ≠ 0
  relisten : q.relisten.Opens
  offsets : ∀ o, (b.sofiOffsets[o]? = some true ∨
    b.sofiOffsets.findIdx? (fun used => !used) = some o) ↔ o ∈ b.live

end Connection

def Connection.request (q : Connection) : Request where
  init := q.setup.firstFailure q.setup.rxQueue.toNat
  accept :=
    if (Sofi.activeEndpointOpen q.opening).1 ≠ 0 then (Sofi.activeEndpointOpen q.opening).1
    else q.accept
  readable := q.readable
  relisten := q.relisten

section Failures

variable {b b' : Bofi} {q : Connection}

theorem Connection.handle_bofi {a : Aftermath} (h : q.handle b = .ok (b', a)) :
    b.handleConnreq q.request = .ok b' := by
  simp only [handle, bind_eq_ok] at h
  obtain ⟨⟨ret, built⟩, hi, h⟩ := h
  obtain ⟨hret, hnone⟩ := Sofi.init_ret hi
  have hinit : q.request.init = ret := hret.symm
  cases built with
  | none =>
    simp only [bind_eq_ok, pure_eq_ok, Prod.mk.injEq] at h
    obtain ⟨b₁, h₁, b₂, h₂, rfl, _⟩ := h
    simp only [handleConnreq, hinit, hnone.1 rfl, ne_eq, not_false_eq_true, if_true, bind_eq_ok]
    exact ⟨b₁, h₁, h₂⟩
  | some sofi =>
    have hz : ret = 0 := by
      by_contra hne
      exact absurd (hnone.2 hne) (by simp)
    simp only [bind_eq_ok] at h
    obtain ⟨⟨ret', s', n⟩, hs, h⟩ := h
    have haccept : q.request.accept = ret' := (Sofi.startAccept_ret hs).2.symm
    simp only [handleConnreq, hinit, hz, haccept, ne_eq, not_true_eq_false, if_false]
    split at h
    · next hne =>
      rw [if_pos hne]
      simp only [bind_eq_ok, pure_eq_ok, Prod.mk.injEq] at h ⊢
      obtain ⟨b₁, h₁, b₂, h₂, b₃, h₃, rfl, _⟩ := h
      exact ⟨b₁, h₁, b₂, h₂, h₃⟩
    · next hne =>
      rw [if_neg hne]
      simp only [bind_eq_ok, pure_eq_ok, Prod.mk.injEq] at h ⊢
      obtain ⟨b₁, h₁, b₂, h₂, rfl, _⟩ := h
      exact ⟨b₁, h₁, h₂⟩

theorem newSofiOffset_marks (b : Bofi) (o : Nat) :
    b.newSofiOffset.2.sofiOffsets[o]? = some true ↔
      b.sofiOffsets[o]? = some true ∨ b.sofiOffsets.findIdx? (fun used => !used) = some o := by
  simp only [newSofiOffset, List.findIdx?_eq_some_iff_findIdx_eq]
  split
  · next h =>
    generalize b.sofiOffsets.findIdx (fun used => !used) = i at h
    by_cases hi : i = o
    · subst hi
      simp [h]
    · simp [hi]
  · next h =>
    have hn : ¬ (o < b.sofiOffsets.length ∧
        b.sofiOffsets.findIdx (fun used => !used) = o) := by
      rintro ⟨hlt, rfl⟩
      exact h hlt
    simp only [hn, or_false]
    rw [List.getElem?_append]
    split
    · rfl
    · next ho =>
      rw [List.getElem?_eq_none (by omega : b.sofiOffsets.length ≤ o)]
      rw [List.getElem?_replicate]
      split <;> simp

def Numbered (b : Bofi) : Prop := ∀ i ∈ b.members, i < b.nextSofi

theorem Told.numbered (h : Told b b') (hn : Numbered b) : Numbered b' := by
  intro i hi
  rw [h.members] at hi
  rw [h.nextSofi]
  exact hn i hi

theorem reapSofi_numbered {s : Child} (hn : Numbered b) (h : b.reapSofi s = .ok b') :
    Numbered b' := by
  obtain ⟨f, hr, _⟩ | ⟨_, hr⟩ := reapSofi_cases b s
  · simp [hr] at h
  · rw [hr] at h
    cases h
    intro i hi
    exact hn i (List.Sublist.subset (List.erase_sublist.map _) hi)

theorem reapSofi_unlisted {s : Child} (hs : s.id ∉ b.members) : ∃ f, b.reapSofi s = .error f := by
  obtain ⟨f, hr, _⟩ | ⟨hm, _⟩ := reapSofi_cases b s
  · exact ⟨f, hr⟩
  · exact absurd (List.mem_map_of_mem hm) hs

theorem handleConnreq_numbered {r : Request} (hn : Numbered b) (h : b.handleConnreq r = .ok b') :
    Numbered b' := by
  have hlt : ∀ i ∈ b.members, i < b.nextSofi + 1 := fun i hi => Nat.lt_succ_of_lt (hn i hi)
  by_cases hi : r.init = 0
  · by_cases ha : r.accept = 0
    · obtain ⟨o, t, _, _, htold⟩ := handleConnreq_told hi ha h
      refine htold.numbered ?_
      intro i hm
      simp only [members, List.map_append, List.mem_append] at hm
      rcases hm with hm | hm
      · exact hlt i hm
      · simp only [List.map_cons, List.map_nil, List.mem_singleton] at hm
        exact hm ▸ Nat.lt_succ_self _
    · exact (handleConnreq_rejected hi ha h).numbered hlt
  · obtain ⟨t, ht⟩ := newSofiOffset_table b
    simp only [handleConnreq, hi, ht, ne_eq, not_false_eq_true, if_true, bind_eq_ok] at h
    obtain ⟨b₁, h₁, h⟩ := h
    have hn₁ := reapSofi_numbered
      (b := { b with sofiOffsets := t, nextSofi := b.nextSofi + 1 }) hlt h₁
    exact (fsmStop_told h).numbered hn₁

theorem step_numbered {e : Event} (hn : Numbered b) (h : b.step e = .ok b') : Numbered b' := by
  cases e with
  | userStop => exact (fsmStop_told h).numbered hn
  | sofiEnds s =>
    cases h
    intro i hi
    refine hn i ?_
    simpa [members] using hi
  | sofiStopped s =>
    simp only [step, feed] at h
    split at h
    · simp only [shutdown, bind_eq_ok, pure_eq_ok] at h
      obtain ⟨b₁, h₁, rfl⟩ := h
      have hn₁ := reapSofi_numbered hn h₁
      simp only [shutdownWait]
      split <;> exact hn₁
    · cases hs : b.state <;> simp [handler, hs] at h
      exact reapSofi_numbered hn h
  | connreq r =>
    simp only [step, feed] at h
    split at h
    · cases h
    · cases hs : b.state <;> simp [handler, hs] at h
      exact handleConnreq_numbered hn h
  | eq type =>
    simp only [step, feed] at h
    split at h
    · cases h
    · cases hs : b.state <;> simp [handler, hs] at h

theorem reachable_numbered (h : machine.Reachable b) : Numbered b := by
  refine h.invariant ?_ ?_
  · rintro b ⟨l, hc⟩
    simp only [create, handler, bind_eq_ok] at hc
    obtain ⟨b₁, h₁, hc⟩ := hc
    cases hc
    have hn := (listenAgain_told h₁).numbered (by simp [Numbered, members])
    exact hn
  · intro b e b' hn _ hs
    exact step_numbered hn hs

/-- When `nn_sofi_init` fails, the handler reaps a SOFI that is in no list. -/
theorem Connection.handle_unbuilt {ret : Int} (hn : Numbered b)
    (hi : Sofi.init (q.setupAt b) = .ok (ret, none)) : ∃ f, q.handle b = .error f := by
  obtain ⟨t, ht⟩ := newSofiOffset_table b
  have hnew : b.nextSofi ∉ b.members := by
    intro hm
    exact Nat.lt_irrefl _ (hn _ hm)
  obtain ⟨f, hr⟩ := reapSofi_unlisted
    (b := { b with sofiOffsets := t, nextSofi := b.nextSofi + 1 })
    (s := ⟨b.nextSofi, b.newSofiOffset.1, .idle, false⟩) hnew
  refine ⟨f, ?_⟩
  simp only [handle, hi, ht, hr, bind, Except.bind]

/-- When `nn_sofi_start_accept` fails, the passive endpoint is closed and opened again, if the
process gets that far. -/
theorem Connection.handle_rejected {p : Nat} {s : Sofi} (hp : b.pep = some p)
    (ho : b.openPeps = [p]) (hi : Sofi.init (q.setupAt b) = .ok (0, some s))
    (hf : (Sofi.activeEndpointOpen q.opening).1 ≠ 0 ∨ q.accept ≠ 0) :
    q.handle b =
      if q.readable then (do
        let b' ← listenAgain q.relisten { b with
          sofiOffsets := b.newSofiOffset.2.sofiOffsets, nextSofi := b.nextSofi + 1, openPeps := [] }
        return (b', ⟨(Sofi.activeEndpointOpen q.opening).2, 0⟩))
      else .error .freedInfo := by
  obtain ⟨t, ht⟩ := newSofiOffset_table b
  obtain ⟨ret, s', hne, hs⟩ := Sofi.startAccept_failed s hf
  have hreject := fun readable => cmReject_open
    (b := { b with sofiOffsets := t, nextSofi := b.nextSofi + 1 }) readable hp ho
  have hclose := passiveEndpointClose_open
    (b := { b with sofiOffsets := t, nextSofi := b.nextSofi + 1 }) hp ho
  by_cases hr : q.readable = true
  · simp only [handle, hi, ht, hs, bind, Except.bind, hne, ne_eq, not_false_eq_true, if_true,
      hreject, hr, hclose]
  · simp only [handle, hi, ht, hs, bind, Except.bind, hne, ne_eq, not_false_eq_true, if_true,
      hreject, hr, reduceCtorEq, if_false]

theorem Connection.unbuilt_not {ret : Int} (hn : Numbered b)
    (hi : Sofi.init (q.setupAt b) = .ok (ret, none)) : ¬ q.EndsAsWas b := by
  rintro ⟨b', a, hq, _⟩
  obtain ⟨f, he⟩ := handle_unbuilt hn hi
  rw [he] at hq
  cases hq

theorem Connection.unread_not {p : Nat} {s : Sofi} (hp : b.pep = some p) (ho : b.openPeps = [p])
    (hi : Sofi.init (q.setupAt b) = .ok (0, some s))
    (hf : (Sofi.activeEndpointOpen q.opening).1 ≠ 0 ∨ q.accept ≠ 0) :
    ¬ { q with readable := false }.EndsAsWas b := by
  rintro ⟨b', a, hq, _⟩
  rw [handle_rejected (q := { q with readable := false }) hp ho hi hf] at hq
  cases hq

theorem Connection.rejected_iff {p : Nat} {s : Sofi} (hfsm : b.fsm = .active)
    (hp : b.pep = some p) (ho : b.openPeps = [p]) (he : b.epbaseStopped = 0)
    (hi : Sofi.init (q.setupAt b) = .ok (0, some s))
    (hf : (Sofi.activeEndpointOpen q.opening).1 ≠ 0 ∨ q.accept ≠ 0) (hr : q.readable = true) :
    q.EndsAsWas b ↔ q.Harmless b := by
  have hhandle := handle_rejected hp ho hi hf
  rw [if_pos hr] at hhandle
  generalize hb₁ : ({ b with
    sofiOffsets := b.newSofiOffset.2.sofiOffsets
    nextSofi := b.nextSofi + 1, openPeps := [] } : Bofi) = b₁ at hhandle
  have hlive : b₁.live = b.live := by rw [← hb₁]; rfl
  have hmem : b₁.members = b.members := by rw [← hb₁]; rfl
  have htable : b₁.sofiOffsets = b.newSofiOffset.2.sofiOffsets := by rw [← hb₁]
  have hfsm₁ : b₁.fsm = .active := by rw [← hb₁]; exact hfsm
  have ho₁ : b₁.openPeps = [] := by rw [← hb₁]
  have he₁ : b₁.epbaseStopped = 0 := by rw [← hb₁]; exact he
  by_cases hl : q.relisten.Opens
  · obtain ⟨b', hb', _⟩ := listenAgain_opens hl hfsm₁ ho₁ he₁
    have hsame := listenAgain_same hb'
    have hmarks : (∀ o, b'.sofiOffsets[o]? = some true ↔ o ∈ b'.live) ↔
        ∀ o, (b.sofiOffsets[o]? = some true ∨
          b.sofiOffsets.findIdx? (fun used => !used) = some o) ↔ o ∈ b.live := by
      rw [hsame.table, htable, hsame.live, hlive]
      simp only [newSofiOffset_marks]
    have hq : q.handle b = .ok (b', ⟨(Sofi.activeEndpointOpen q.opening).2, 0⟩) := by
      rw [hhandle, hb']
      rfl
    constructor
    · rintro ⟨b₂, a, hq₂, h⟩
      rw [hq] at hq₂
      cases hq₂
      have hchunks := (Sofi.init_ret hi).1.symm
      exact ⟨hchunks, Sofi.activeEndpointOpen_none.1 h.endpoints, hl, hmarks.1 h.marks⟩
    · intro h
      refine ⟨b', _, hq, ?_, hmarks.2 h.offsets, ?_, rfl⟩
      · rw [(listenAgain_told hb').members, hmem]
      · exact Sofi.activeEndpointOpen_none.2 h.endpoint
  · obtain ⟨f, hb', _⟩ := listenAgain_unopened hl hfsm₁ ho₁
    constructor
    · rintro ⟨b', a, hq, _⟩
      rw [hhandle, hb'] at hq
      cases hq
    · intro h
      exact absurd h.relisten hl

end Failures

/-- A failed request never leaves the BOFI as it was: the SOFI is erased from a list it is not in,
or what comes next hangs on the read of a freed `fi_info`.  Where that goes well the BOFI is as it
was exactly when the failure was harmless, and what it has become is what the machine's step
makes of it. -/
theorem never_leavesAsWas {b : Bofi} {q : Connection} (hr : machine.Reachable b)
    (hen : b.enabled (.connreq q.request) = true) (hf : q.Fails b) :
    ¬ q.LeavesAsWas b ∧ (q.readable = true → (q.EndsAsWas b ↔ q.Harmless b)) ∧
      ∀ b' a, q.handle b = .ok (b', a) → b.step (.connreq q.request) = .ok b' := by
  have hstep : ∀ b' a, q.handle b = .ok (b', a) → b.step (.connreq q.request) = .ok b' :=
    fun b' a h => ((reachable_posture hr).step_connreq hen _).trans (Connection.handle_bofi h)
  rcases hf with ⟨ret, hi⟩ | ⟨⟨s, hi⟩, hf⟩
  · obtain ⟨hret, hnone⟩ := Sofi.init_ret hi
    have hn := reachable_numbered hr
    refine ⟨fun h => ?_, fun _ => ⟨fun h => ?_, fun h => ?_⟩, hstep⟩
    · exact Connection.unbuilt_not (q := { q with readable := true }) hn hi (h true)
    · exact absurd h (Connection.unbuilt_not hn hi)
    · exact absurd (hret.trans h.chunks) (hnone.1 rfl)
  · obtain ⟨hfsm, ⟨p, hp, ho⟩, he⟩ := (reachable_posture hr).of_watched hen
    refine ⟨fun h => ?_, Connection.rejected_iff hfsm hp ho he hi hf, hstep⟩
    exact Connection.unread_not hp ho hi hf (h false)

theorem Connection.easy_builds {c : Nat → Int} {b : Bofi} {q : Connection}
    (hq : q.setup = { Sofi.Setup.easy .default with chunkAlloc := c }) :
    (c 0 ≠ 0 → Sofi.init (q.setupAt b) = .ok (c 0, none)) ∧
      ((∀ i, c i = 0) → ∃ s, Sofi.init (q.setupAt b) = .ok (0, some s)) := by
  have hrx : (q.setupAt b).rxQueue = 16 := by
    rw [show (q.setupAt b).rxQueue = q.setup.rxQueue from rfl, hq]
    exact (by decide : (Sofi.Setup.easy .default).rxQueue = 16)
  have htx : (q.setupAt b).txQueue = 16 := by
    rw [show (q.setupAt b).txQueue = q.setup.txQueue from rfl, hq]
    exact (by decide : (Sofi.Setup.easy .default).txQueue = 16)
  have hc : (q.setupAt b).chunkAlloc = c := by
    rw [show (q.setupAt b).chunkAlloc = q.setup.chunkAlloc from rfl, hq]
  have hinit := Sofi.init_eq (u := q.setupAt b) (by omega) (by omega)
  constructor
  · intro h
    have hff : (q.setupAt b).firstFailure (q.setupAt b).rxQueue.toNat = c 0 := by
      simp [Sofi.Setup.firstFailure, hrx, hc, List.range_succ_eq_map, h]
    rw [hinit, hff, if_pos h]
  · intro h
    have hff : (q.setupAt b).firstFailure (q.setupAt b).rxQueue.toNat = 0 := by
      have hnone : (List.range (q.setupAt b).rxQueue.toNat).find?
          (fun i => (q.setupAt b).chunkAlloc i ≠ 0) = none := by
        simp [hc, h]
      simp only [Sofi.Setup.firstFailure, hnone]
    exact ⟨_, by rw [hinit, if_neg (by simpa using hff)]⟩

theorem full_table_unharmed :
    ∃ b, machine.Reachable b ∧ b.live = List.range 64 ∧
      let q : Connection :=
        ⟨.easy .default, ⟨-ENOMEM, 0, 0, 0, 0, 0, 0, 0⟩, 0, true, listening⟩
      q.Fails b ∧ ¬ q.LeavesAsWas b ∧ q.EndsAsWas b := by
  obtain ⟨b, hr, hb⟩ := Machine.exists_reachable (M := machine) (s := fresh)
    (List.replicate 64 (.connreq accepted))
    (fun b => b.watched ∧ b.live = List.range 64 ∧ b.sofiOffsets = List.replicate 64 true)
    fresh_init (by decide +kernel)
  simp only [decide_eq_true_eq] at hb
  obtain ⟨hw, hl, ht⟩ := hb
  refine ⟨b, hr, hl, ?_⟩
  intro q
  have hf : q.Fails b := .inr ⟨(Connection.easy_builds rfl).2 (fun _ => rfl), .inl (by decide)⟩
  obtain ⟨hn, hiff, _⟩ := never_leavesAsWas hr hw hf
  refine ⟨hf, hn, (hiff rfl).2 ⟨by decide, by decide, ⟨rfl, rfl, rfl⟩, ?_⟩⟩
  intro o
  have hfull : (List.replicate 64 true).findIdx? (fun used => !used) = none := by decide
  rw [hl, ht, hfull, List.getElem?_replicate, List.mem_range]
  split <;> simp [*]

/-- A connection that cannot be accepted keeps its offset marked and its endpoint open, and one
whose chunks cannot be allocated is erased from a list it is not in, whether or not the process
gets over a read of freed memory. -/
theorem failed_request_harms :
    machine.Reachable fresh ∧ fresh.watched = true ∧
      (let q : Connection :=
        ⟨.easy .default, ⟨0, 0, 0, 0, 0, 0, 0, 0⟩, -EINVAL, true, listening⟩;
        q.Fails fresh ∧ ¬ q.EndsAsWas fresh ∧ ¬ q.LeavesAsWas fresh) ∧
      let q : Connection :=
        ⟨{ Sofi.Setup.easy .default with chunkAlloc := fun _ => -ENOMEM },
          ⟨0, 0, 0, 0, 0, 0, 0, 0⟩, 0, true, listening⟩
      q.Fails fresh ∧ ¬ q.EndsAsWas fresh ∧ ¬ q.LeavesAsWas fresh := by
  have hr : machine.Reachable fresh := ⟨[], .init fresh_init⟩
  refine ⟨hr, rfl, ?_, ?_⟩
  · intro q
    obtain ⟨s, hi⟩ : ∃ s, Sofi.init (q.setupAt fresh) = .ok (0, some s) :=
      (Connection.easy_builds rfl).2 (fun _ => rfl)
    have hf : (Sofi.activeEndpointOpen q.opening).1 ≠ 0 ∨ q.accept ≠ 0 := .inr (by decide)
    have hq : ¬ q.EndsAsWas fresh := fun h =>
      ((Connection.rejected_iff rfl rfl rfl rfl hi hf rfl).1 h).endpoint rfl
    exact ⟨.inr ⟨⟨s, hi⟩, hf⟩, hq, fun h => hq (h true)⟩
  · intro q
    have hi : Sofi.init (q.setupAt fresh) = .ok (-ENOMEM, none) :=
      (Connection.easy_builds (c := fun _ => -ENOMEM) rfl).1 (by decide)
    have hq : ¬ q.EndsAsWas fresh := Connection.unbuilt_not (reachable_numbered hr) hi
    exact ⟨.inl ⟨_, hi⟩, hq, fun h => hq (h true)⟩

end Bofi

end OfiTransport
