import Mathlib.Logic.Function.Basic
import Mathlib.Tactic.Tauto

/-! A stock of things that several parties share, each thing under a number of its own.  A party
makes new things and does away with those that it has, and sometimes it loses one. -/

universe u

namespace OfiTransport.Lib

structure Stock where
  there : Nat → Prop
  next : Nat
  fresh : ∀ x, there x → x < next

/-- One party has worked on the stock.  It had `own` and has `own'` now, `left` it has lost. -/
structure Stock.Works (S S' : Stock) (own own' left : Nat → Prop) : Prop where
  next : S.next ≤ S'.next
  others : ∀ x < S.next, ¬ own x → (S'.there x ↔ S.there x)
  mine : ∀ x, own x ∨ S.next ≤ x → (S'.there x ↔ own' x ∨ left x)
  had : ∀ x, own' x ∨ left x → own x ∨ S.next ≤ x
  apart : ∀ x, own' x → ¬ left x

structure Stock.Divided {ι : Type u} (S : Stock) (has : ι → Nat → Prop) (lost : Nat → Prop) :
    Prop where
  there : ∀ x, S.there x ↔ (∃ p, has p x) ∨ lost x
  unique : ∀ p q x, has p x → has q x → p = q
  kept : ∀ p x, has p x → ¬ lost x

namespace Stock

section Working

variable {S S₁ S₂ : Stock} {own own' own₁ own₂ left left₁ left₂ : Nat → Prop}

theorem Works.there (h : Works S S₁ own own₁ left) {x : Nat} (hx : own₁ x ∨ left x) :
    S₁.there x := (h.mine x (h.had x hx)).2 hx

theorem Works.lt (h : Works S S₁ own own₁ left) {x : Nat} (hx : own₁ x ∨ left x) : x < S₁.next :=
  S₁.fresh x (h.there hx)

theorem Works.refl (h : ∀ x, own x → S.there x) : Works S S own own (fun _ => False) where
  next := Nat.le_refl _
  others _ _ _ := Iff.rfl
  mine x hx := by
    refine ⟨fun ht => .inl (hx.resolve_right ?_), fun ho => h x (ho.resolve_right id)⟩
    exact Nat.not_le_of_lt (S.fresh x ht)
  had _ hx := .inl (hx.resolve_right id)
  apart _ _ := id

theorem Works.nothing (S : Stock) :
    Works S S (fun _ => False) (fun _ => False) fun _ => False := .refl fun _ => False.elim

theorem Works.congr (h : Works S S₁ own own₁ left) (ho : ∀ x, own' x ↔ own x)
    (ho₁ : ∀ x, own₂ x ↔ own₁ x) (hl : ∀ x, left₁ x ↔ left x) : Works S S₁ own' own₂ left₁ := by
  rwa [funext fun x => propext (ho x), funext fun x => propext (ho₁ x),
    funext fun x => propext (hl x)]

theorem Works.trans (h : Works S S₁ own own₁ left₁) (h' : Works S₁ S₂ own₁ own₂ left₂) :
    Works S S₂ own own₂ (fun x => left₁ x ∨ left₂ x) where
  next := Nat.le_trans h.next h'.next
  others x hx ho := by
    have ho' : ¬ own₁ x := fun ho₁ => (h.had x (.inl ho₁)).elim ho (Nat.not_le_of_lt hx)
    exact (h'.others x (Nat.lt_of_lt_of_le hx h.next) ho').trans (h.others x hx ho)
  mine x hx := by
    by_cases hx' : own₁ x ∨ S₁.next ≤ x
    · have hl : ¬ left₁ x := fun hl =>
        hx'.elim (fun ho => h.apart x ho hl) (Nat.not_le_of_lt (h.lt (.inr hl)))
      simpa [hl] using h'.mine x hx'
    · have hlt : x < S₁.next := Nat.lt_of_not_le fun h => hx' (.inr h)
      have ho : ¬ own₁ x := fun h => hx' (.inl h)
      have hn : ¬ (own₂ x ∨ left₂ x) := fun h => hx' (h'.had x h)
      rw [h'.others x hlt ho, h.mine x hx]
      tauto
  had x hx := by
    have hback : own₁ x ∨ S₁.next ≤ x → own x ∨ S.next ≤ x := fun h₁ =>
      h₁.elim (fun ho => h.had x (.inl ho)) (fun hn => .inr (Nat.le_trans h.next hn))
    rcases hx with ho | hl | hl
    · exact hback (h'.had x (.inl ho))
    · exact h.had x (.inr hl)
    · exact hback (h'.had x (.inr hl))
  apart x ho hl := by
    refine hl.elim (fun hl => ?_) (h'.apart x ho)
    rcases h'.had x (.inl ho) with ho₁ | hn
    · exact h.apart x ho₁ hl
    · exact Nat.not_le_of_lt (h.lt (.inr hl)) hn

theorem Works.lose (h : Works S S₁ own own₁ left) :
    Works S S₁ own (fun _ => False) (fun x => own₁ x ∨ left x) where
  next := h.next
  others := h.others
  mine x hx := by rw [h.mine x hx, false_or]
  had x hx := h.had x (hx.resolve_left not_false)
  apart _ ho := ho.elim

theorem Works.both (h : Works S S₁ own own' left) (h' : Works S₁ S₂ own₁ own₂ left₁)
    (hold : ∀ x, own₁ x → x < S.next) (hne : ∀ x, own x → ¬ own₁ x) :
    Works S S₂ (fun x => own x ∨ own₁ x) (fun x => own' x ∨ own₂ x)
      (fun x => left x ∨ left₁ x) := by
  -- what the first half comes to is nothing the second half begins with, and conversely
  have h₁ : ∀ x, own₁ x → ¬ (own' x ∨ left x) := fun x ho hx =>
    (h.had x hx).elim (fun h => hne x h ho) (Nat.not_le_of_lt (hold x ho))
  have h₂ : ∀ x, own' x ∨ left x → ¬ (own₂ x ∨ left₁ x) := fun x hx hx' =>
    (h'.had x hx').elim (fun ho => h₁ x ho hx) (Nat.not_le_of_lt (h.lt hx))
  refine ⟨Nat.le_trans h.next h'.next, fun x hx ho => ?_, fun x hx => ?_, fun x hx => ?_,
    fun x ho hl => ?_⟩
  · obtain ⟨ho, ho'⟩ := not_or.1 ho
    exact (h'.others x (Nat.lt_of_lt_of_le hx h.next) ho').trans (h.others x hx ho)
  · by_cases hx' : own₁ x ∨ S₁.next ≤ x
    · have hn : ¬ (own' x ∨ left x) := fun hx₁ =>
        hx'.elim (fun ho => h₁ x ho hx₁) (Nat.not_le_of_lt (h.lt hx₁))
      rw [h'.mine x hx']
      tauto
    · have hlt : x < S₁.next := Nat.lt_of_not_le fun h => hx' (.inr h)
      have ho : ¬ own₁ x := fun h => hx' (.inl h)
      have hn : ¬ (own₂ x ∨ left₁ x) := fun h => hx' (h'.had x h)
      rw [h'.others x hlt ho, h.mine x (by tauto)]
      tauto
  · have hnext : S₁.next ≤ x → S.next ≤ x := Nat.le_trans h.next
    have := h.had x
    have := h'.had x
    tauto
  · have := h.apart x
    have := h'.apart x
    have := h₂ x
    tauto

end Working

section Dividing

variable {ι : Type u} {S S' : Stock} {has : ι → Nat → Prop}
  {lost own left : Nat → Prop} {p : ι}

theorem Divided.lt (h : S.Divided has lost) {q : ι} {x : Nat} (hq : has q x) : x < S.next :=
  S.fresh x ((h.there x).2 (.inl ⟨q, hq⟩))

theorem Divided.others (h : S.Divided has lost) (hw : Works S S' (has p) own left) {q : ι} {x : Nat}
    (hqp : q ≠ p) (hq : has q x) : S'.there x ∧ ¬ own x ∧ ¬ left x := by
  have hlt := h.lt hq
  have hp : ¬ has p x := fun hp => hqp (h.unique q p x hq hp)
  have hn : ¬ (own x ∨ left x) := fun hx => (hw.had x hx).elim hp (Nat.not_le_of_lt hlt)
  exact ⟨(hw.others x hlt hp).2 ((h.there x).2 (.inl ⟨q, hq⟩)), not_or.1 hn⟩

theorem Divided.works [DecidableEq ι] (h : S.Divided has lost)
    (hw : Works S S' (has p) own left) :
    S'.Divided (Function.update has p own) (fun x => lost x ∨ left x) where
  there x := by
    simp only [Function.update_apply]
    constructor
    · intro hx
      by_cases hp : has p x ∨ S.next ≤ x
      · rcases (hw.mine x hp).1 hx with ho | hl
        · exact .inl ⟨p, by rwa [if_pos rfl]⟩
        · exact .inr (.inr hl)
      · obtain ⟨hp, hn⟩ := not_or.1 hp
        rw [hw.others x (Nat.lt_of_not_le hn) hp, h.there] at hx
        rcases hx with ⟨q, hq⟩ | hl
        · refine .inl ⟨q, ?_⟩
          rwa [if_neg]
          rintro rfl
          exact hp hq
        · exact .inr (.inl hl)
    · rintro (⟨q, hq⟩ | hl | hl)
      · split at hq
        · exact hw.there (.inl hq)
        · exact (h.others hw ‹_› hq).1
      · have hx := (h.there x).2 (.inr hl)
        exact (hw.others x (S.fresh x hx) (fun hp => h.kept p x hp hl)).2 hx
      · exact hw.there (.inr hl)
  unique q r x hq hr := by
    simp only [Function.update_apply] at hq hr
    split at hq <;> split at hr
    · next hq' hr' => exact hq'.trans hr'.symm
    · exact absurd hq (h.others hw ‹_› hr).2.1
    · exact absurd hr (h.others hw ‹_› hq).2.1
    · exact h.unique q r x hq hr
  kept q x hq hx := by
    simp only [Function.update_apply] at hq
    split at hq
    · rcases hx with hl | hl
      · have hlt := S.fresh x ((h.there x).2 (.inr hl))
        exact (hw.had x (.inl hq)).elim (fun hp => h.kept p x hp hl) (Nat.not_le_of_lt hlt)
      · exact hw.apart x hq hl
    · rcases hx with hl | hl
      · exact h.kept q x hq hl
      · exact (h.others hw ‹_› hq).2.2 hl

end Dividing

end Stock

end OfiTransport.Lib
