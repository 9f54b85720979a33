import Mathlib.Algebra.Notation.Defs
import Mathlib.Data.List.Basic

/-! Strings as C keeps them: in a buffer, each up to the next NUL. -/

namespace OfiTransport.Lib

variable {α : Type*}

section Cutting

variable [DecidableEq α]

def lastPlace (c : α) : List α → Option Nat
  | [] => none
  | a :: l =>
    match lastPlace c l with
    | some i => some (i + 1)
    | none => if a = c then some 0 else none

def cutLast (c : α) : List α → Option (List α × List α)
  | [] => none
  | a :: l =>
    match cutLast c l with
    | some (p, s) => some (a :: p, s)
    | none => if a = c then some ([], l) else none

variable {c : α} {l p s : List α}

theorem cutLast_eq_none : cutLast c l = none ↔ c ∉ l := by
  induction l with
  | nil => simp [cutLast]
  | cons a l ih =>
    simp only [cutLast, List.mem_cons, not_or]
    cases hl : cutLast c l with
    | some q =>
      have hm : ¬ c ∉ l := fun hn => by simp [ih.2 hn] at hl
      simp [hm]
    | none =>
      have hm := ih.1 hl
      by_cases ha : a = c
      · simp [ha]
      · simp [ha, hm, Ne.symm ha]

theorem cutLast_eq_some : cutLast c l = some (p, s) ↔ l = p ++ c :: s ∧ c ∉ s := by
  induction l generalizing p with
  | nil => simp [cutLast]
  | cons a l ih =>
    simp only [cutLast]
    cases hl : cutLast c l with
    | some q =>
      have hc : c ∈ l := by
        by_contra hn
        simp [cutLast_eq_none.2 hn] at hl
      simp only [Option.some.injEq, Prod.mk.injEq]
      constructor
      · rintro ⟨rfl, rfl⟩
        obtain ⟨rfl, hs⟩ := ih.1 (hl.trans rfl)
        exact ⟨rfl, hs⟩
      · rintro ⟨he, hs⟩
        cases p with
        | nil =>
          obtain ⟨rfl, rfl⟩ := List.cons.inj he
          exact absurd hc hs
        | cons b p =>
          obtain ⟨rfl, hl'⟩ := List.cons.inj he
          have hq := hl.symm.trans (ih.2 ⟨hl', hs⟩)
          cases hq
          exact ⟨rfl, rfl⟩
    | none =>
      have hc := cutLast_eq_none.1 hl
      by_cases ha : a = c
      · subst ha
        simp only [if_true, Option.some.injEq, Prod.mk.injEq]
        constructor
        · rintro ⟨rfl, rfl⟩
          exact ⟨rfl, hc⟩
        · rintro ⟨he, hs⟩
          cases p with
          | nil => exact ⟨rfl, (List.cons.inj he).2⟩
          | cons b p =>
            obtain ⟨_, rfl⟩ := List.cons.inj he
            simp at hc
      · simp only [ha, if_false, reduceCtorEq, false_iff, not_and]
        rintro he
        cases p with
        | nil => exact absurd (List.cons.inj he).1 ha
        | cons b p =>
          obtain ⟨_, rfl⟩ := List.cons.inj he
          simp at hc

theorem lastPlace_eq (c : α) (l : List α) :
    lastPlace c l = (cutLast c l).map (fun q => q.1.length) := by
  induction l with
  | nil => rfl
  | cons a l ih =>
    simp only [lastPlace, cutLast, ih]
    cases cutLast c l with
    | some q => rfl
    | none =>
      simp only [Option.map_none]
      split <;> rfl

end Cutting

namespace CString

variable [Zero α]

/-- The string at `o` is `l`. -/
structure Holds (buf : List α) (o : Nat) (l : List α) : Prop where
  clean : 0 ∉ l
  drop : ∃ post, buf.drop o = l ++ 0 :: post

variable {buf l p s : List α} {o k : Nat} {c : α}

theorem holds_start (h : (0 : α) ∉ l) : Holds (l ++ [0]) 0 l := ⟨h, [], by simp⟩

theorem Holds.set_before (h : Holds buf o l) (hk : k < o) (a : α) : Holds (buf.set k a) o l := by
  obtain ⟨post, hd⟩ := h.drop
  exact ⟨h.clean, post, by rw [List.drop_set, if_pos hk, hd]⟩

theorem Holds.set_behind (h : Holds buf o l) (hk : o + l.length < k) (a : α) :
    Holds (buf.set k a) o l := by
  obtain ⟨post, hd⟩ := h.drop
  obtain ⟨d, rfl⟩ : ∃ d, k = o + l.length + 1 + d := ⟨k - (o + l.length + 1), by omega⟩
  refine ⟨h.clean, post.set d a, ?_⟩
  rw [List.drop_set, if_neg (by omega), hd, List.set_append_right _ _ (by omega),
    show o + l.length + 1 + d - o - l.length = d + 1 by omega, List.set_cons_succ]

theorem Holds.cut (h : Holds buf o (p ++ c :: s)) : Holds (buf.set (o + p.length) 0) o p := by
  obtain ⟨post, hd⟩ := h.drop
  have hc := h.clean
  simp only [List.mem_append, List.mem_cons, not_or] at hc
  refine ⟨hc.1, s ++ 0 :: post, ?_⟩
  rw [List.drop_set, if_neg (by omega), hd, Nat.add_sub_cancel_left, List.append_assoc,
    List.set_append_right _ _ (by omega), Nat.sub_self]
  rfl

theorem Holds.rest (h : Holds buf o (p ++ c :: s)) :
    Holds (buf.set (o + p.length) 0) (o + p.length + 1) s := by
  obtain ⟨post, hd⟩ := h.drop
  have hc := h.clean
  simp only [List.mem_append, List.mem_cons, not_or] at hc
  have hs : Holds buf (o + p.length + 1) s := by
    refine ⟨hc.2.2, post, ?_⟩
    rw [Nat.add_assoc, ← List.drop_drop, hd, List.append_assoc]
    simp
  exact hs.set_before (Nat.lt_succ_self _) 0

section Reading

variable [DecidableEq α]

def text (buf : List α) (o : Nat) : List α := (buf.drop o).takeWhile (· ≠ 0)

def strlen (buf : List α) (o : Nat) : Nat := (text buf o).length

def strrchr (buf : List α) (o : Nat) (c : α) : Option Nat :=
  (lastPlace c (text buf o)).map (fun i => o + i)

def read (buf : List α) (o : Nat) : Option (List α) :=
  if 0 ∈ buf.drop o then some (text buf o) else none

theorem Holds.text (h : Holds buf o l) : text buf o = l := by
  obtain ⟨post, hd⟩ := h.drop
  have hl : ∀ a ∈ l, decide (a ≠ 0) = true := by
    intro a ha
    have hne : a ≠ 0 := fun e => h.clean (e ▸ ha)
    simpa using hne
  rw [CString.text, hd, List.takeWhile_append_of_pos hl]
  simp

theorem Holds.strlen (h : Holds buf o l) : strlen buf o = l.length := by
  rw [CString.strlen, h.text]

theorem Holds.strrchr (h : Holds buf o l) (c : α) :
    strrchr buf o c = (cutLast c l).map (fun q => o + q.1.length) := by
  rw [CString.strrchr, h.text, lastPlace_eq, Option.map_map]
  rfl

theorem Holds.read (h : Holds buf o l) : read buf o = some l := by
  obtain ⟨post, hd⟩ := h.drop
  have hm : (0 : α) ∈ buf.drop o := by simp [hd]
  rw [CString.read, if_pos hm, h.text]

end Reading

end CString

end OfiTransport.Lib
