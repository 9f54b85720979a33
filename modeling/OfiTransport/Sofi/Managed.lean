import OfiTransport.Mr.Registrations
import OfiTransport.Sofi.Steps
import Mathlib.Logic.Relation

/-! What a SOFI does to its memory region manager: it describes messages and releases what was
returned for them. -/

namespace OfiTransport

open Lib

namespace Mr

inductive Operates : Manager → Manager → Prop
  | describe (a : Nat → Answers) (m : Manager) (iov : List Region) :
    Operates m (describe a m iov).mgr
  | release (m : Manager) (c : Context) : Operates m (release m c)

def Worked : Manager → Manager → Prop := Relation.ReflTransGen Operates

variable {m m' m'' : Manager}

theorem Worked.refl (m : Manager) : Worked m m := Relation.ReflTransGen.refl

theorem Worked.trans (h : Worked m m') (h' : Worked m' m'') : Worked m m'' :=
  Relation.ReflTransGen.trans h h'

theorem Operates.worked (h : Operates m m') : Worked m m' := .single h

theorem Worked.grows (h : Worked m m') : Grows m m' := by
  induction h with
  | refl => exact .refl m
  | tail _ ho ih =>
    cases ho with
    | describe a _ iov => exact ih.trans (describe_grows ..)
    | release _ c => exact ih.trans (release_grows ..)

theorem Worked.places (h : Worked m m') : SamePlaces m m' := by
  induction h with
  | refl => exact (SameSlabs.refl m).places
  | tail _ ho ih =>
    cases ho with
    | describe a _ iov => exact ih.trans (describe_places ..)
    | release _ c => exact ih.trans (release_same _ c).places

end Mr

namespace Egress

variable {e e' : Egress} {p : Post} {m : Msg} {c : Nat}

theorem freeContext_worked (e : Egress) (c : Nat) : Mr.Worked e.mrm (e.freeContext c).mrm := by
  simp only [freeContext]
  split
  · exact .refl _
  · exact (Mr.Operates.release _ _).worked

theorem handleError_worked (h : e.handleError c = .ok e') : Mr.Worked e.mrm e'.mrm := by
  obtain ⟨r, rfl⟩ := handleError_inv h
  exact freeContext_worked e c

theorem handle_worked {n : Bool} (h : e.handle c = .ok (n, e')) : Mr.Worked e.mrm e'.mrm := by
  obtain ⟨_, r, k, rfl⟩ := handle_inv h
  exact freeContext_worked e c

theorem flushFrom_worked {fuel : Nat} {o : Option Nat} (h : flushFrom fuel o e = .ok e') :
    Mr.Worked e.mrm e'.mrm := by
  induction fuel generalizing o e with
  | zero =>
    cases o with
    | none =>
      cases h
      exact .refl _
    | some c => cases h
  | succ fuel ih =>
    cases o with
    | none =>
      cases h
      exact .refl _
    | some c =>
      simp only [flushFrom] at h
      split at h
      · exact (freeContext_worked e.atomicInc.2 c).trans (ih h)
      · cases h
        exact .refl _

theorem postBuffers_worked {ret : Int} (h : e.postBuffers p m = .ok (ret, e')) :
    Mr.Worked e.mrm e'.mrm := by
  have hd := (Mr.Operates.describe p.answers e.mrm (iovs m)).worked
  cases postBuffers_cases h with
  | noContext _ _ he =>
    rw [he]
    exact .refl _
  | @refused c _ _ _ he =>
    rw [he]
    exact hd.trans (freeContext_worked (e.described p m c) c)
  | posted _ _ _ hb =>
    obtain ⟨r, rfl⟩ := markBusy_inv hb
    exact hd

end Egress

namespace Sofi

variable {s s' : Sofi} {e : Event}

theorem Closes.worked (h : Closes s s') : Mr.Worked s.egress.mrm s'.egress.mrm := by
  rcases h.egress with ⟨_, he⟩ | ⟨_, hf⟩
  · rw [he]
    exact .refl _
  · exact Egress.flushFrom_worked hf

theorem Moves.worked (h : Moves s e s') : Mr.Worked s.egress.mrm s'.egress.mrm := by
  have same : s'.egress = s.egress → Mr.Worked s.egress.mrm s'.egress.mrm := by
    intro ho
    rw [ho]
    exact .refl _
  cases h with
  | stay he hk hi ho =>
    obtain ⟨w, ho⟩ := ho
    rw [ho]
    exact .refl _
  | close hc _ hf he hi ho => exact ho ▸ hc.worked
  | sent ho hst hk hi hpb hout =>
    have hpl := Egress.postBuffers_worked hpb
    rw [hout]
    exact hpl
  | sendFailed hc _ ho hst hne hpb hi hout herr =>
    subst hout
    exact (Egress.postBuffers_worked hpb).trans hc.worked
  | connected hst hfsm hst' herr hout _ hra hi ho =>
    rcases ho with ⟨_, ho⟩ | ⟨eg, hpb, ho⟩
    · exact same ho
    · have hpl := Egress.postBuffers_worked hpb
      rw [ho]
      exact hpl
  | connectFailed hc _ hst hi ho =>
    rcases ho with ⟨ho, _⟩ | ⟨_, ret, eg, hpb, _, ho, _⟩
    · exact ho ▸ hc.worked
    · subst ho
      exact (Egress.postBuffers_worked hpb).trans hc.worked
  | txCompleted he hk hi hh =>
    have hpl := Egress.handle_worked hh
    exact hpl
  | txFailed hc _ hf hi hh herr =>
    have hpl := (Egress.handleError_worked hh).trans hc.worked
    exact hpl
  | txErrored hf he hk hi hh =>
    have hpl := Egress.handleError_worked hh
    exact hpl
  | txDiscarded hev hf he hk hi ho =>
    rw [ho]
    exact .refl _
  | rxCompleted hst hk ho hi => exact same ho
  | rxDrained hst hk ho hi => exact same ho
  | rxFailed hc _ hst hi ho herr => exact ho ▸ hc.worked
  | rxErrored hst hk ho hi => exact same ho
  | fetched hk ho hi => exact same ho
  | freed hk ho hi => exact same ho

end Sofi

end OfiTransport
