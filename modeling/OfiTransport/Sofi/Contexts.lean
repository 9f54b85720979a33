import OfiTransport.Lib.Machine
import OfiTransport.Sofi.EgressLaws
import OfiTransport.Sofi.Init

/-! The list of the egress contexts by itself.  Contexts are taken from its head and come back
to it in any order, whatever else the sending half does in between. -/

namespace OfiTransport.Egress

open Lib

inductive Turn
  | take (h : Mr.Context)
  | sent (c : Nat)
  | failed (c : Nat)

def Turn.isRelease : Turn → Bool
  | .take _ => false
  | .sent _ | .failed _ => true

/-- What `nn_sofi_egress_post_buffers` does to the list when nothing fails. -/
def take (e : Egress) (h : Mr.Context) : M Egress := do
  match ← e.getContext with
  | none => return e
  | some c => (e.setMrHandle c (some h)).markBusy c

/-- The uses of a list of contexts `l`, all of them free at first.  Only the busy ones are ever
released. -/
def contexts (l : List Nat) : Machine Egress Turn Fault where
  init e := e.ring.Holds l ∧ ∀ c ∈ l, e.mrHandle c = none
  enabled e t :=
    match t with
    | .take _ => true
    | .sent c | .failed c => c ∈ l ∧ (e.mrHandle c).isSome
  step e t :=
    match t with
    | .take h => e.take h
    | .sent c => (e.handle c).map Prod.snd
    | .failed c => e.handleError c

structure Parted (l : List Nat) (e : Egress) (fl bl : List Nat) : Prop where
  perm : (fl ++ bl).Perm l
  ring : e.ring.Holds (fl ++ bl)
  free : ∀ c ∈ fl, e.mrHandle c = none
  busy : ∀ c ∈ bl, (e.mrHandle c).isSome = true

/-- What the list is for: it is whole, and a context is found if there is a free one. -/
structure Sound (l : List Nat) (e : Egress) : Prop where
  parted : ∃ fl bl, e.Parted l fl bl
  found : (∃ c, e.getContext = .ok (some c)) ↔ ∃ c ∈ l, e.mrHandle c = none

section Parted

variable {e e' : Egress} {l fl bl : List Nat} {c : Nat}

theorem Parted.congr (h : e.Parted l fl bl) (hr : e'.ring = e.ring)
    (hm : e'.mrHandle = e.mrHandle) : e'.Parted l fl bl :=
  ⟨h.perm, hr ▸ h.ring, hm ▸ h.free, hm ▸ h.busy⟩

theorem Parted.mem_busy (h : e.Parted l fl bl) (hc : c ∈ l)
    (hb : (e.mrHandle c).isSome = true) : c ∈ bl := by
  rcases List.mem_append.1 (h.perm.mem_iff.2 hc) with hf | hf
  · simp [h.free c hf] at hb
  · exact hf

theorem Parted.sound (h : e.Parted l fl bl) (hl : l ≠ []) : e.Sound l := by
  refine ⟨⟨fl, bl, h⟩, ?_⟩
  cases fl with
  | nil =>
    cases bl with
    | nil => exact absurd (List.nil_perm.1 h.perm) hl
    | cons c bl =>
      have hb := h.busy c List.mem_cons_self
      have hg : e.getContext = .ok none := by simp [Egress.getContext, h.ring.head, hb]
      simp only [hg, Except.ok.injEq, reduceCtorEq, exists_false, false_iff]
      rintro ⟨d, hd, hf⟩
      have hdb := h.busy d (by simpa using h.perm.mem_iff.2 hd)
      simp [hf] at hdb
  | cons c fl =>
    have hf := h.free c List.mem_cons_self
    have hg : e.getContext = .ok (some c) := by simp [Egress.getContext, h.ring.head, hf]
    have hc : c ∈ l := h.perm.mem_iff.1 (by simp)
    simp only [hg, Except.ok.injEq, Option.some.injEq, exists_eq', true_iff]
    exact ⟨c, hc, hf⟩

theorem Parted.take (h : e.Parted l fl bl) (hl : l ≠ []) (x : Mr.Context) :
    ∃ e' fl' bl', e.take x = .ok e' ∧ e'.Parted l fl' bl' := by
  cases fl with
  | nil =>
    cases bl with
    | nil => exact absurd (List.nil_perm.1 h.perm) hl
    | cons c bl =>
      have hb := h.busy c List.mem_cons_self
      exact ⟨e, [], c :: bl, by simp [Egress.take, Egress.getContext, h.ring.head, hb]; rfl, h⟩
  | cons c fl =>
    have hf := h.free c List.mem_cons_self
    have hg : e.getContext = .ok (some c) := by simp [Egress.getContext, h.ring.head, hf]
    obtain ⟨r, hr, hh⟩ := Ring.Holds.toTail (c := c) (l := fl ++ bl) h.ring
    have hd := h.ring.list.nodup
    rw [List.cons_append, List.nodup_cons, List.mem_append, not_or] at hd
    rw [List.append_assoc] at hh
    refine ⟨{ e.setMrHandle c (some x) with ring := r }, fl, bl ++ [c], ?_, ?_, hh, ?_, ?_⟩
    · simp [Egress.take, hg, bind_eq_ok, markBusy, setMrHandle, h.ring.head, hr]
    · refine List.Perm.trans ?_ h.perm
      rw [← List.append_assoc]
      exact List.perm_append_singleton c (fl ++ bl)
    · intro d hdf
      have hdc : d ≠ c := fun hdc => hd.1.1 (hdc ▸ hdf)
      simpa [setMrHandle, hdc] using h.free d (List.mem_cons_of_mem c hdf)
    · intro d hdb
      by_cases hdc : d = c
      · simp [setMrHandle, hdc]
      · have hdb' : d ∈ bl := by simpa [hdc] using hdb
        simpa [setMrHandle, hdc] using h.busy d hdb'

theorem Parted.release (h : e.Parted l fl bl) (hl : 2 ≤ l.length) (hc : c ∈ bl) :
    ∃ e' fl' bl', e.handleError c = .ok e' ∧ e'.Parted l fl' bl' := by
  obtain ⟨b₁, b₂, rfl⟩ := List.append_of_mem hc
  have hp : (c :: (fl ++ b₁ ++ b₂)).Perm (fl ++ (b₁ ++ c :: b₂)) := by
    rw [← List.append_assoc]
    exact List.perm_middle.symm
  have hne : fl ++ b₁ ++ b₂ ≠ [] := by
    intro he
    have hlen := (hp.trans h.perm).length_eq
    rw [he, List.length_singleton] at hlen
    omega
  have hring : e.ring.Holds (fl ++ b₁ ++ c :: b₂) := by
    rw [List.append_assoc]
    exact h.ring
  obtain ⟨r, hr, hh⟩ := release_ring hring hne
  have hd := hp.nodup_iff.2 h.ring.list.nodup
  rw [List.nodup_cons] at hd
  refine ⟨_, c :: fl, b₁ ++ b₂, hr, ?_, ?_, ?_, ?_⟩
  · rw [List.cons_append, ← List.append_assoc]
    exact hp.trans h.perm
  · rw [List.cons_append, ← List.append_assoc]
    exact hh
  · intro d hdf
    by_cases hdc : d = c
    · simp [hdc]
    · have hdf' : d ∈ fl := by simpa [hdc] using hdf
      simpa [hdc] using h.free d hdf'
  · intro d hdb
    have hdc : d ≠ c := by
      rintro rfl
      exact hd.1 (by
        rw [List.append_assoc]
        exact List.mem_append_right fl hdb)
    simp only [List.mem_append] at hdb
    simpa [hdc] using h.busy d (by
      simp only [List.mem_append, List.mem_cons]
      tauto)

theorem Parted.handleError_alone (h : e.Parted [c] fl bl) :
    e.handleError c = .error .nullDeref := by
  have hr : e.ring.Holds [c] := List.perm_singleton.1 h.perm ▸ h.ring
  simp [handleError, markFree, nnAssert, hr.toHead_singleton]
  rfl

theorem handle_eq (e : Egress) (c : Nat) :
    (e.handle c).map Prod.snd = (e.handleError c).map (fun e' => e'.atomicInc.2) := by
  simp only [Egress.handle, handleError]
  cases (e.freeContext c).markFree c <;> rfl

end Parted

section Uses

variable {e e' : Egress} {l fl bl : List Nat} {c : Nat} {t : Turn} {ts : List Turn}

theorem Parted.init (h : (contexts l).init e) : e.Parted l l [] := by
  refine ⟨by simp, by simpa using h.1, h.2, by simp⟩

theorem Parted.step (h : e.Parted l fl bl) (hl : l ≠ [])
    (ht : 2 ≤ l.length ∨ t.isRelease = false) (he : (contexts l).enabled e t = true) :
    ∃ e', (contexts l).step e t = .ok e' ∧ ∃ fl bl, e'.Parted l fl bl := by
  have released : ∀ c, t.isRelease = true → c ∈ l ∧ (e.mrHandle c).isSome = true →
      ∃ e' fl bl, e.handleError c = .ok e' ∧ e'.Parted l fl bl := by
    rintro c hr ⟨hc, hb⟩
    exact h.release (by simpa [hr] using ht) (h.mem_busy hc hb)
  cases t with
  | take x =>
    obtain ⟨e', fl', bl', he', hp⟩ := h.take hl x
    exact ⟨e', he', fl', bl', hp⟩
  | sent c =>
    obtain ⟨e', fl', bl', he', hp⟩ := released c rfl (by simpa [contexts] using he)
    refine ⟨e'.atomicInc.2, ?_, fl', bl', hp.congr rfl rfl⟩
    simp only [contexts, handle_eq, he']
    rfl
  | failed c =>
    obtain ⟨e', fl', bl', he', hp⟩ := released c rfl (by simpa [contexts] using he)
    exact ⟨e', he', fl', bl', hp⟩

theorem Parted.step_alone (h : e.Parted [c] fl bl) (he : (contexts [c]).enabled e t = true)
    (hs : (contexts [c]).step e t = .ok e') : t.isRelease = false := by
  cases t with
  | take x => rfl
  | sent d =>
    simp only [contexts, List.mem_singleton, decide_eq_true_eq] at he
    simp only [contexts, handle_eq, he.1, h.handleError_alone] at hs
    cases hs
  | failed d =>
    simp only [contexts, List.mem_singleton, decide_eq_true_eq] at he
    simp only [contexts, he.1, h.handleError_alone] at hs
    cases hs

/-- The list stays whole on the way through any uses of it if it has two contexts, and if it
has one exactly as long as that is never released. -/
theorem list_sound_iff (hl : l ≠ []) (hi : (contexts l).init e)
    (ha : (contexts l).Admits e ts) :
    (∀ pre, pre <+: ts → ∃ e', (contexts l).deliver e pre = .ok e' ∧ e'.Sound l) ↔
      2 ≤ l.length ∨ ∀ t ∈ ts, t.isRelease = false := by
  have hp : ∃ fl bl, e.Parted l fl bl := ⟨l, [], .init hi⟩
  constructor
  · intro h
    obtain ⟨e', hd, _⟩ := h ts (List.prefix_refl ts)
    by_cases hlen : 2 ≤ l.length
    · exact .inl hlen
    · right
      obtain ⟨c, rfl⟩ : ∃ c, l = [c] := by
        have hpos := List.length_pos_of_ne_nil hl
        exact List.length_eq_one_iff.1 (by omega)
      refine ha.of_deliver (I := fun e => ∃ fl bl, e.Parted [c] fl bl) ?_ hd hp
      rintro e t e' ⟨fl, bl, h⟩ he hs
      have hr := h.step_alone he hs
      obtain ⟨e₁, hs₁, hp₁⟩ := h.step hl (.inr hr) he
      rw [hs₁, Except.ok.injEq] at hs
      exact ⟨hr, hs ▸ hp₁⟩
  · intro hc pre hpre
    have hc' : ∀ t ∈ pre, 2 ≤ l.length ∨ t.isRelease = false := by
      intro t ht
      exact hc.imp_right (fun h => h t (hpre.subset ht))
    obtain ⟨e', hd, fl, bl, hp'⟩ := (ha.of_prefix hpre).deliver
      (I := fun e => ∃ fl bl, e.Parted l fl bl) (fun e t h ht he => h.choose_spec.choose_spec.step
        hl ht he) hc' hp
    exact ⟨e', hd, hp'.sound hl⟩

theorem linked_init {u : Sofi.Setup} (h : 1 ≤ u.rxQueue) (L : Links Nat) :
    (contexts (List.range u.rxQueue.toNat)).init
      (u.sofi (Sofi.linked u.rxQueue.toNat u.rxQueue.toNat) L).egress :=
  ⟨Sofi.sofi_ring h L, fun _ _ => rfl⟩

def narrow (n : Nat) : Sofi.Setup := { Sofi.Setup.easy .default with txSize := n, rxSize := n }

def ofProvider (n : Nat) : Egress :=
  ((narrow n).sofi (Sofi.linked n n) (Sofi.linked n n)).egress

theorem list_sound_pair :
    ∃ e', (contexts [0, 1]).deliver (ofProvider 2)
      [.take ⟨[], [], []⟩, .take ⟨[], [], []⟩, .sent 0] = .ok e' ∧ e'.Sound [0, 1] := by
  have hi : (contexts [0, 1]).init (ofProvider 2) := linked_init (u := narrow 2) (by decide) _
  have ha : (contexts [0, 1]).Admits (ofProvider 2)
      [.take ⟨[], [], []⟩, .take ⟨[], [], []⟩, .sent 0] :=
    Machine.Admits.of_exec [Turn.take ⟨[], [], []⟩, .take ⟨[], [], []⟩] rfl
  exact (list_sound_iff (by decide) hi ha).2 (.inl (by decide)) _ (List.prefix_refl _)

/-- The only context of a list is taken and comes back. -/
theorem release_alone :
    (contexts [0]).deliver (ofProvider 1) [.take ⟨[], [], []⟩, .sent 0] = .error .nullDeref ∧
    ¬ ∀ (l : List Nat) (e : Egress) (ts : List Turn), l ≠ [] → (contexts l).init e →
      (contexts l).Admits e ts → ∀ pre, pre <+: ts →
        ∃ e', (contexts l).deliver e pre = .ok e' ∧ e'.Sound l := by
  have hd : (contexts [0]).deliver (ofProvider 1) [.take ⟨[], [], []⟩, .sent 0] =
      .error .nullDeref := rfl
  have hi : (contexts [0]).init (ofProvider 1) := linked_init (u := narrow 1) (by decide) _
  have ha : (contexts [0]).Admits (ofProvider 1) [.take ⟨[], [], []⟩, .sent 0] :=
    Machine.Admits.of_exec [Turn.take ⟨[], [], []⟩] rfl
  refine ⟨hd, ?_⟩
  intro h
  obtain ⟨e', he', _⟩ := h [0] (ofProvider 1) _ (by decide) hi ha _ (List.prefix_refl _)
  rw [hd] at he'
  cases he'

end Uses

end OfiTransport.Egress
