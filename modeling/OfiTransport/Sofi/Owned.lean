import OfiTransport.Sofi.Lifecycle
import OfiTransport.Sofi.Term
import OfiTransport.Mr.Return

/-! A SOFI as the endpoint that owns it sees it: what may happen to it between its start and its
NN_SOFI_STOPPED, and that it can be terminated then. -/

namespace OfiTransport

open Lib

namespace Sofi

/-- What the fabric may send to a SOFI after or before FI_CONNECTED, and what nanomsg may do.  The
SOFI is stopped by its owner only. -/
def lawful (s : Sofi) (made : Bool) : Event → Bool
  | .eq type _ _ =>
    type < 0 ∨ (type = FI_CONNECTED ∧ made = false) ∨ (type = FI_SHUTDOWN ∧ made = true)
  | .send .. => s.staged = false
  | .stop => false
  | _ => true

/-- An error for the keepalive packet is not borne but where completions are thrown away. -/
def Bears (s : Sofi) : Event → Prop
  | .txError .aux _ => s.fsm = .stopping ∧ s.error ≠ 0
  | _ => True

def Event.connects : Event → Bool
  | .eq type _ _ => type = FI_CONNECTED
  | _ => false

section Life

variable {s s' : Sofi} {e : Event} {h h' : List (Sofi × Event)} {made : Bool}

theorem start_refused {opened joined : Int} (h : opened ≠ 0 ∨ joined ≠ 0) (s : Sofi) :
    ∃ ret s', ret ≠ 0 ∧ (∃ ep k, s' = { s with epOpen := ep, socketState := k }) ∧
      start opened joined s = .ok (ret, s') := by
  by_cases ho : opened = 0
  · have hj := h.resolve_left (not_not.2 ho)
    exact ⟨joined, _, hj, ⟨true, .closed, rfl⟩, by simp [start, ho, hj]⟩
  · exact ⟨opened, s, ho, ⟨_, _, rfl⟩, by simp [start, ho]⟩

theorem Setup.started_pooled {u : Setup} (h₂ : 2 ≤ u.rxQueue) (heq : u.rxQueue = u.txQueue)
    (hf : u.firstFailure u.rxQueue.toNat = 0) : pooled.init u.started := by
  refine ⟨Setup.started_init (by omega) (by omega) hf, ?_, _,
    sofi_ring (by omega) (linked u.rxQueue.toNat u.rxQueue.toNat), ?_⟩
  · show 2 ≤ u.txQueue.toNat
    omega
  · show (List.range u.rxQueue.toNat).Perm (List.range u.txQueue.toNat)
    rw [heq]

def SlabsRegistered (m : Mr.Manager) : Prop := m.attr.slabCount = 0 ∨ m.slabMr ≠ none

theorem slabsRegistered_init {attr : Mr.Attr} (h : attr.slabCount ≠ 0) (d : Mr.Domain) (mem : Nat)
    (reg : Int) : SlabsRegistered (Mr.init attr d mem reg).2 ↔ reg = 0 := by
  simp only [SlabsRegistered, Mr.init, if_neg h]
  split
  · next hr => simp [h, hr]
  · next hr => simp [not_not.1 hr]

theorem quiet_term_ok_iff (hu : Mr.Unreserved s.egress.mrm) (hk : s.timerKeepalive = .idle)
    (ht : s.timerShutdown = .idle) (hf : s.fsm = .idle) (close : Nat → Int) (closeSlab : Int) :
    (∃ s', s.term close closeSlab = .ok s') ↔ SlabsRegistered s.egress.mrm := by
  have hm : (∃ r, Mr.term close closeSlab s.egress.mrm = .ok r) ↔
      SlabsRegistered s.egress.mrm := by
    rw [Mr.term_ok_iff]
    exact and_iff_right fun i _ => hu.ref i
  rw [← hm]
  constructor
  · rintro ⟨s', h⟩
    simp only [term, bind_eq_ok] at h
    obtain ⟨r, hr, _⟩ := h
    exact ⟨r, hr⟩
  · rintro ⟨⟨ret, dom⟩, hr⟩
    simp only [term, hr, nnAssert, hk, ht, hf, if_true, bind, Except.bind]
    exact ⟨_, rfl⟩

theorem term_ok_iff (hc : Concluded s) (hf : s.fsm = .idle) (close : Nat → Int) (closeSlab : Int) :
    (∃ s', s.term close closeSlab = .ok s') ↔ SlabsRegistered s.egress.mrm :=
  quiet_term_ok_iff hc.reserved hc.keepalive hc.shutdown hf close closeSlab

theorem Living.stoppeds (hl : Living h s) : s.stoppeds = if s.fsm = .idle then 1 else 0 := by
  cases hl.stage with
  | connecting hf _ _ hu | active hf _ _ hu | stopping hf _ _ hu => simp [hf, hu.stoppeds]
  | stopped hf _ _ _ _ hn => simp [hf, hn]

inductive Idles (s s' : Sofi) : Prop
  | keeps (hf : s'.fsm = .idle ↔ s.fsm = .idle) (hn : s'.stoppeds = s.stoppeds)
  | ends (hf : s.fsm ≠ .idle) (hf' : s'.fsm = .idle) (hn : s.stoppeds < s'.stoppeds)

theorem Living.idles (hl : Living h s) (hl' : Living h' s') (hen : s.enabled e = true)
    (hs : s.step e = .ok s') : Idles s s' := by
  have hn := hl.stoppeds
  have hn' := hl'.stoppeds
  by_cases hf : s.fsm = .idle <;> by_cases hf' : s'.fsm = .idle
  · exact .keeps (iff_of_true hf' hf) (by rw [hn, hn', if_pos hf, if_pos hf'])
  · rw [if_pos hf] at hn
    rw [if_neg hf'] at hn'
    cases hl.closing hl' hen hs with
    | stays _ h₁ => omega
    | closes _ h₁ => omega
  · rw [if_neg hf] at hn
    rw [if_pos hf'] at hn'
    exact .ends hf hf' (by omega)
  · exact .keeps (iff_of_false hf' hf) (by rw [hn, hn', if_neg hf, if_neg hf'])

/-- The SOFI is at some point of its life, in which FI_CONNECTED has come or not. -/
def Alive (s : Sofi) (made : Bool) : Prop := ∃ h, Living h s ∧ (Made h ↔ made = true)

theorem Setup.started_alive {u : Setup} (h₂ : 2 ≤ u.rxQueue) (heq : u.rxQueue = u.txQueue)
    (hf : u.firstFailure u.rxQueue.toNat = 0) : u.started.Alive false :=
  ⟨[], pooled_living (Setup.started_pooled h₂ heq hf), by simp [Made]⟩

theorem lawful_iff (hl : s.lawful made e = true) (hm : Made h ↔ made = true)
    (ha : ¬ ∃ err, e = .txError .aux err) : Lawful h e ∧ ¬ Overruns s e := by
  cases e with
  | eq type r p =>
    simp only [lawful, decide_eq_true_eq] at hl
    refine ⟨?_, id⟩
    simpa [Lawful, hm] using hl
  | txError op => cases op <;> simp_all [lawful, Lawful, Overruns]
  | send => simpa [lawful, Lawful, Overruns] using hl
  | _ => exact ⟨trivial, id⟩

theorem Living.discard {err : Int} (hl : Living h s)
    (he : s.enabled (.txError .aux err) = true) (hb : s.Bears (.txError .aux err)) :
    ∃ s', s.step (.txError .aux err) = .ok s' ∧ Living ((s, .txError .aux err) :: h) s' := by
  obtain ⟨hf, herr⟩ := hb
  cases hl.stage with
  | connecting hf' | active hf' | stopped hf' => simp [hf'] at hf
  | stopping _ hst hm hu ha hw =>
    obtain ⟨s', hs', hstage⟩ := wait_stage (s := { s with auxOut := s.auxOut - 1 }) hf hst hm
      (hu.congr rfl rfl) ha (hw.congr rfl rfl)
    have hs : s.step (.txError .aux err) = .ok s' := by
      simpa [Sofi.step, feed, hf, shutdown, shutdownTx, herr, bind, Except.bind] using hs'
    exact ⟨s', hs, hl.of_stage he hs (hstage.congr (iff_of_true hm (made_cons.2 (.inr hm))))⟩

theorem Alive.step (ha : Alive s made) (he : s.enabled e = true)
    (hlaw : s.lawful made e = true) (hb : s.Bears e) :
    ∃ s', s.step e = .ok s' ∧ Alive s' (made || e.connects) ∧ Idles s s' := by
  obtain ⟨h, hl, hm⟩ := ha
  obtain ⟨s', hs, hl'⟩ : ∃ s', s.step e = .ok s' ∧ Living ((s, e) :: h) s' := by
    by_cases haux : ∃ err, e = .txError .aux err
    · obtain ⟨err, rfl⟩ := haux
      exact hl.discard he hb
    · obtain ⟨hlaw, hno⟩ := lawful_iff hlaw hm haux
      obtain ⟨s', hs, _⟩ := hl.step_total he hlaw hno
      exact ⟨s', hs, hl.step he hlaw hs⟩
  refine ⟨s', hs, ⟨_, hl', ?_⟩, hl.idles hl' he hs⟩
  rw [made_cons, hm, Bool.or_eq_true, or_comm]
  refine or_congr_right ?_
  cases e <;> simp [Event.connects]

theorem Alive.unborne (ha : Alive s made) (he : s.enabled e = true) (hb : ¬ s.Bears e) :
    ∃ f, s.step e = .error f := by
  obtain ⟨h, hl, _⟩ := ha
  cases e with
  | txError op err =>
    cases op with
    | ctx => exact absurd trivial hb
    | aux =>
      cases hl.stage with
      | connecting hf hst =>
        exact ⟨.badSource, by simp [Sofi.step, feed, hf, handler, hst, handlerConnecting]⟩
      | active hf hst => exact ⟨_, step_wildContext (by simp [handlesTx, hf, hst])⟩
      | stopping hf =>
        have herr : s.error = 0 := by
          by_contra hne
          exact hb ⟨hf, hne⟩
        exact ⟨_, step_wildContext (by simp [handlesTx, hf, herr])⟩
      | stopped hf => simp [enabled, hf] at he
  | _ => exact absurd trivial hb

theorem Alive.fsmStop (ha : Alive s made) :
    ∃ s', s.fsmStop = .ok s' ∧ Alive s' made ∧ Idles s s' := by
  obtain ⟨h, hl, hm⟩ := ha
  obtain ⟨s', hs, _⟩ := hl.step_total (e := .stop) rfl trivial id
  have hl' := Living.step (e := .stop) hl rfl trivial hs
  refine ⟨s', hs, ⟨_, hl', ?_⟩, hl.idles hl' rfl hs⟩
  rw [made_cons]
  simpa using hm

theorem Alive.concluded (ha : Alive s made) (hf : s.fsm = .idle) :
    Concluded s ∧ s.epOpen = false := by
  obtain ⟨h, hl, _⟩ := ha
  rcases hl.ended with ⟨_, hn⟩ | ⟨_, hep, _, hc⟩
  · rw [hl.stoppeds, if_pos hf] at hn
    cases hn
  · exact ⟨hc, hep⟩

end Life

end Sofi

end OfiTransport
