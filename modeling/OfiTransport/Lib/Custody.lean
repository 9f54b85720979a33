import Mathlib.Data.List.Basic
import Mathlib.Logic.Function.Basic

/-! Things that are handed on by copying.  Whoever accepts a thing keeps it in a slot, may copy
it to another slot and release it from there; the old copy stays behind and must not be used
again.  A thing is lost when none of the slots that still count has it. -/

universe u v

namespace OfiTransport.Lib

/-- What is done with the things: one is accepted into a slot or into none, the copy in a slot
goes to another one, or the thing in a slot is released and the slot cleared. -/
inductive Deed (κ : Type u) (α : Type v)
  | accept (x : α) (k : Option κ)
  | move (k l : κ)
  | drop (k : κ)

/-- The things accepted so far, which are known by their number, the slots with what was last
put in them, and how often each of the things was released. -/
structure Custody (κ : Type u) (α : Type v) where
  things : List α
  slot : κ → Option Nat
  drops : Nat → Nat

namespace Custody

variable {κ : Type u} {α : Type v}

def empty : Custody κ α := ⟨[], fun _ => none, fun _ => 0⟩

/-- The slots that count have different things, which were not released yet, and nothing was
released twice. -/
structure Kept (c : Custody κ α) (rest : κ → Option α) : Prop where
  held : ∀ k x, rest k = some x → ∃ n, c.slot k = some n ∧ c.things[n]? = some x ∧ c.drops n = 0
  apart : ∀ k l n, (rest k).isSome → (rest l).isSome → c.slot k = some n → c.slot l = some n → k = l
  once : ∀ n, c.drops n ≤ 1
  fresh : ∀ n, c.things.length ≤ n → c.drops n = 0

/-- Everything that was not released rests in a slot that counts. -/
def Whole (c : Custody κ α) (rest : κ → Option α) : Prop :=
  ∀ n < c.things.length, c.drops n = 0 → ∃ k, (rest k).isSome ∧ c.slot k = some n

section Basics

variable {c : Custody κ α} {rest : κ → Option α} {k : κ} {x : α}

theorem kept_empty : (empty : Custody κ α).Kept (fun _ => none) where
  held _ _ h := by cases h
  apart _ _ _ h := by cases h
  once _ := Nat.zero_le 1
  fresh _ _ := rfl

theorem whole_empty : (empty : Custody κ α).Whole (fun _ => none) := by
  intro n hn
  simp [empty] at hn

theorem Kept.slot_some (h : c.Kept rest) (hk : rest k = some x) :
    ∃ n, c.slot k = some n ∧ n < c.things.length ∧ c.drops n = 0 := by
  obtain ⟨n, hs, ht, hd⟩ := h.held k x hk
  exact ⟨n, hs, (List.getElem?_eq_some_iff.1 ht).1, hd⟩

theorem Kept.slot_lt {n : Nat} (h : c.Kept rest) (hk : (rest k).isSome) (hs : c.slot k = some n) :
    n < c.things.length := by
  obtain ⟨x, hx⟩ := Option.isSome_iff_exists.1 hk
  obtain ⟨m, hm, hlt, _⟩ := h.slot_some hx
  rw [hs, Option.some.injEq] at hm
  exact hm ▸ hlt

/-- Once no slot counts any more, nothing is lost just when everything was released. -/
theorem Kept.whole_iff_dropped (h : c.Kept (fun _ => none)) :
    c.Whole (fun _ => none) ↔ ∀ n < c.things.length, c.drops n = 1 := by
  constructor
  · intro hw n hn
    have h₁ := h.once n
    have h₀ : c.drops n ≠ 0 := by
      intro hd
      obtain ⟨_, hj, _⟩ := hw n hn hd
      cases hj
    omega
  · intro hw n hn hd
    rw [hw n hn] at hd
    cases hd

end Basics

section Rules

variable [DecidableEq κ]

def act (c : Custody κ α) : Deed κ α → Custody κ α
  | .accept x none => { c with things := c.things ++ [x] }
  | .accept x (some k) =>
    { c with
      things := c.things ++ [x]
      slot := Function.update c.slot k (some c.things.length) }
  | .move k l => { c with slot := Function.update c.slot l (c.slot k) }
  | .drop k =>
    match c.slot k with
    | none => c
    | some n =>
      { c with
        slot := Function.update c.slot k none
        drops := Function.update c.drops n (c.drops n + 1) }

def replay (c : Custody κ α) (ds : List (Deed κ α)) : Custody κ α := ds.foldl act c

@[simp] theorem replay_nil (c : Custody κ α) : c.replay [] = c := rfl

@[simp] theorem replay_cons (c : Custody κ α) (d : Deed κ α) (ds : List (Deed κ α)) :
    c.replay (d :: ds) = (c.act d).replay ds := rfl

theorem replay_append (c : Custody κ α) (ds es : List (Deed κ α)) :
    c.replay (ds ++ es) = (c.replay ds).replay es := List.foldl_append ..

@[simp] theorem act_move_slot (c : Custody κ α) (k l : κ) :
    (c.act (.move k l)).slot = Function.update c.slot l (c.slot k) := rfl

theorem act_drop_none {c : Custody κ α} {k : κ} (h : c.slot k = none) : c.act (.drop k) = c := by
  simp [act, h]

theorem act_drop_some {c : Custody κ α} {k : κ} {n : Nat} (h : c.slot k = some n) :
    c.act (.drop k) =
      { c with
        slot := Function.update c.slot k none
        drops := Function.update c.drops n (c.drops n + 1) } := by
  simp [act, h]

variable {c : Custody κ α} {rest : κ → Option α} {k l : κ} {x : α}

theorem Kept.forget (h : c.Kept rest) (k : κ) : c.Kept (Function.update rest k none) where
  held j y hj := by
    by_cases hjk : j = k
    · simp [hjk] at hj
    · exact h.held j y (by simpa [hjk] using hj)
  apart j l n hj hl := by
    by_cases hjk : j = k
    · simp [hjk] at hj
    · by_cases hlk : l = k
      · simp [hlk] at hl
      · exact h.apart j l n (by simpa [hjk] using hj) (by simpa [hlk] using hl)
  once := h.once
  fresh := h.fresh

theorem Kept.not_whole_forget (h : c.Kept rest) (hk : rest k = some x) :
    ¬ c.Whole (Function.update rest k none) := by
  intro hw
  obtain ⟨n, hs, hlt, hd⟩ := h.slot_some hk
  obtain ⟨j, hj, hjs⟩ := hw n hlt hd
  by_cases hjk : j = k
  · simp [hjk] at hj
  · simp only [Function.update_of_ne hjk] at hj
    exact hjk (h.apart j k n hj (by simp [hk]) hjs hs)

theorem Kept.accept (h : c.Kept rest) (x : α) (k : κ) :
    (c.act (.accept x (some k))).Kept (Function.update rest k (some x)) where
  held j y hj := by
    by_cases hjk : j = k
    · subst hjk
      simp only [Function.update_self, Option.some.injEq] at hj
      exact ⟨c.things.length, by simp [act], by simp [act, hj], h.fresh _ (Nat.le_refl _)⟩
    · obtain ⟨n, hs, ht, hd⟩ := h.held j y (by simpa [hjk] using hj)
      have hlt := (List.getElem?_eq_some_iff.1 ht).1
      exact ⟨n, by simp [act, hjk, hs], by simp only [act, List.getElem?_append_left hlt, ht], hd⟩
  apart j l n hj hl hjs hls := by
    -- the new number is not in any other slot
    have hother : ∀ i, i ≠ k → (Function.update rest k (some x) i).isSome →
        (c.act (.accept x (some k))).slot i = some n → n < c.things.length := by
      intro i hik hi his
      simp only [Function.update_of_ne hik] at hi
      exact h.slot_lt hi (by simpa [act, hik] using his)
    have hnew : (c.act (.accept x (some k))).slot k = some n → n = c.things.length := by
      intro hks
      simpa [act, eq_comm] using hks
    by_cases hjk : j = k <;> by_cases hlk : l = k
    · exact hjk.trans hlk.symm
    · subst hjk
      have hlt := hother l hlk hl hls
      have he := hnew hjs
      omega
    · subst hlk
      have hlt := hother j hjk hj hjs
      have he := hnew hls
      omega
    · simp only [act, Function.update_of_ne hjk, Function.update_of_ne hlk] at hj hl hjs hls
      exact h.apart j l n hj hl hjs hls
  once := h.once
  fresh n hn := h.fresh n (by simp [act] at hn; omega)

theorem whole_accept (hk : rest k = none) :
    (c.act (.accept x (some k))).Whole (Function.update rest k (some x)) ↔ c.Whole rest := by
  constructor
  · intro hw n hn hd
    obtain ⟨j, hj, hs⟩ := hw n (by simp [act]; omega) hd
    by_cases hjk : j = k
    · subst hjk
      simp only [act, Function.update_self, Option.some.injEq] at hs
      omega
    · simp only [act, Function.update_of_ne hjk] at hj hs
      exact ⟨j, hj, hs⟩
  · intro hw n hn hd
    by_cases hlt : n < c.things.length
    · obtain ⟨j, hj, hs⟩ := hw n hlt hd
      have hjk : j ≠ k := by
        rintro rfl
        simp [hk] at hj
      exact ⟨j, by simpa [hjk] using hj, by simpa [act, hjk] using hs⟩
    · simp only [act, List.length_append, List.length_singleton] at hn
      refine ⟨k, by simp, ?_⟩
      simp only [act, Function.update_self, Option.some.injEq]
      omega

theorem Kept.refuse (h : c.Kept rest) (x : α) : (c.act (.accept x none)).Kept rest where
  held j y hj := by
    obtain ⟨n, hs, ht, hd⟩ := h.held j y hj
    have hlt := (List.getElem?_eq_some_iff.1 ht).1
    exact ⟨n, hs, by simp only [act, List.getElem?_append_left hlt, ht], hd⟩
  apart := h.apart
  once := h.once
  fresh n hn := h.fresh n (by simp [act] at hn; omega)

theorem Kept.not_whole_refuse (h : c.Kept rest) (x : α) :
    ¬ (c.act (.accept x none)).Whole rest := by
  intro hw
  obtain ⟨j, hj, hs⟩ := hw c.things.length (by simp [act]) (h.fresh _ (Nat.le_refl _))
  exact Nat.lt_irrefl _ (h.slot_lt hj hs)

theorem Kept.move (h : c.Kept rest) (hk : rest k = some x) (hl : rest l = none) :
    (c.act (.move k l)).Kept (Function.update (Function.update rest k none) l (some x)) := by
  have hkl : k ≠ l := by
    rintro rfl
    simp [hk] at hl
  obtain ⟨n, hs, ht, hd⟩ := h.held k x hk
  -- a slot that counts now other than `l` counted before and is not `k`
  have hold : ∀ j, j ≠ l →
      (Function.update (Function.update rest k none) l (some x) j).isSome →
      j ≠ k ∧ (rest j).isSome := by
    intro j hjl hj
    rw [Function.update_of_ne hjl] at hj
    by_cases hjk : j = k
    · simp [hjk] at hj
    · exact ⟨hjk, by simpa [hjk] using hj⟩
  refine ⟨?held, ?apart, h.once, h.fresh⟩
  case held =>
    intro j y hj
    by_cases hjl : j = l
    · subst hjl
      simp only [Function.update_self, Option.some.injEq] at hj
      exact ⟨n, by simp [act, hs], hj ▸ ht, hd⟩
    · obtain ⟨hjk, _⟩ := hold j hjl (by simp [hj])
      obtain ⟨m, hms, hmt, hmd⟩ := h.held j y (by simpa [hjl, hjk] using hj)
      exact ⟨m, by simp [act, hjl, hms], hmt, hmd⟩
  case apart =>
    intro i j m hi hj his hjs
    by_cases hil : i = l <;> by_cases hjl : j = l
    · exact hil.trans hjl.symm
    · subst hil
      obtain ⟨hjk, hj'⟩ := hold j hjl hj
      simp only [act, Function.update_self, Function.update_of_ne hjl] at his hjs
      exact absurd (h.apart j k m hj' (by simp [hk]) hjs his) hjk
    · subst hjl
      obtain ⟨hik, hi'⟩ := hold i hil hi
      simp only [act, Function.update_self, Function.update_of_ne hil] at his hjs
      exact absurd (h.apart i k m hi' (by simp [hk]) his hjs) hik
    · simp only [act, Function.update_of_ne hil, Function.update_of_ne hjl] at his hjs
      exact h.apart i j m (hold i hil hi).2 (hold j hjl hj).2 his hjs

theorem Kept.whole_move (h : c.Kept rest) (hk : rest k = some x) (hl : rest l = none) :
    (c.act (.move k l)).Whole (Function.update (Function.update rest k none) l (some x)) ↔
      c.Whole rest := by
  have hkl : k ≠ l := by
    rintro rfl
    simp [hk] at hl
  obtain ⟨n, hs, _, _⟩ := h.slot_some hk
  constructor
  · intro hw m hm hd
    obtain ⟨j, hj, hjs⟩ := hw m hm hd
    by_cases hjl : j = l
    · subst hjl
      exact ⟨k, by simp [hk], by simpa [act] using hjs⟩
    · have hjk : j ≠ k := by
        rintro rfl
        simp [hjl] at hj
      exact ⟨j, by simpa [hjl, hjk] using hj, by simpa [act, hjl] using hjs⟩
  · intro hw m hm hd
    obtain ⟨j, hj, hjs⟩ := hw m hm hd
    by_cases hjk : j = k
    · subst hjk
      exact ⟨l, by simp, by simpa [act] using hjs⟩
    · have hjl : j ≠ l := by
        rintro rfl
        simp [hl] at hj
      exact ⟨j, by simpa [hjl, hjk] using hj, by simpa [act, hjl] using hjs⟩

theorem Kept.drop (h : c.Kept rest) (hk : rest k = some x) :
    (c.act (.drop k)).Kept (Function.update rest k none) := by
  obtain ⟨n, hs, hlt, hd⟩ := h.slot_some hk
  have hf := h.forget k
  rw [act_drop_some hs]
  refine ⟨?held, ?apart, ?once, ?fresh⟩
  case held =>
    intro j y hj
    have hjk : j ≠ k := by
      rintro rfl
      simp at hj
    obtain ⟨m, hms, hmt, hmd⟩ := hf.held j y hj
    have hmn : m ≠ n := by
      rintro rfl
      exact hjk (h.apart j k m (by simp [Function.update_of_ne hjk] at hj; simp [hj])
        (by simp [hk]) hms hs)
    exact ⟨m, by simp [hjk, hms], hmt, by simp [hmn, hmd]⟩
  case apart =>
    intro i j m hi hj his hjs
    by_cases hik : i = k
    · simp [hik] at hi
    · by_cases hjk : j = k
      · simp [hjk] at hj
      · exact hf.apart i j m hi hj (by simpa [hik] using his) (by simpa [hjk] using hjs)
  case once =>
    intro m
    by_cases hmn : m = n
    · simp [hmn, hd]
    · simpa [hmn] using h.once m
  case fresh =>
    intro m hm
    have hmn : m ≠ n := by
      rintro rfl
      exact absurd hlt (by simpa using hm)
    simpa [hmn] using h.fresh m hm

theorem Kept.whole_drop (h : c.Kept rest) (hk : rest k = some x) :
    (c.act (.drop k)).Whole (Function.update rest k none) ↔ c.Whole rest := by
  obtain ⟨n, hs, hlt, hd⟩ := h.slot_some hk
  rw [act_drop_some hs]
  constructor
  · intro hw m hm hmd
    by_cases hmn : m = n
    · exact ⟨k, by simp [hk], hmn ▸ hs⟩
    · obtain ⟨j, hj, hjs⟩ := hw m hm (by simpa [hmn] using hmd)
      have hjk : j ≠ k := by
        rintro rfl
        simp at hj
      exact ⟨j, by simpa [hjk] using hj, by simpa [hjk] using hjs⟩
  · intro hw m hm hmd
    have hmn : m ≠ n := by
      rintro rfl
      simp at hmd
    obtain ⟨j, hj, hjs⟩ := hw m hm (by simpa [hmn] using hmd)
    have hjk : j ≠ k := by
      rintro rfl
      rw [hs, Option.some.injEq] at hjs
      exact hmn hjs.symm
    exact ⟨j, by simpa [hjk] using hj, by simpa [hjk] using hjs⟩

@[simp] theorem act_drop_slot (c : Custody κ α) (k : κ) :
    (c.act (.drop k)).slot = Function.update c.slot k none := by
  cases hs : c.slot k with
  | none => rw [act_drop_none hs, ← hs, Function.update_eq_self]
  | some n => rw [act_drop_some hs]

theorem Kept.replay_drops {ks : List κ} (h : c.Kept rest)
    (hk : ∀ k ∈ ks, (rest k).isSome ∨ (rest k = none ∧ c.slot k = none)) :
    (c.replay (ks.map .drop)).Kept (fun j => if j ∈ ks then none else rest j) ∧
      ((c.replay (ks.map .drop)).Whole (fun j => if j ∈ ks then none else rest j) ↔
        c.Whole rest) := by
  induction ks generalizing c rest with
  | nil => simpa using h
  | cons k ks ih =>
    have hcons : ∀ {r : κ → Option α}, r k = none → (∀ j, j ≠ k → r j = rest j) →
        (fun j => if j ∈ k :: ks then none else rest j) =
          fun j => if j ∈ ks then none else r j := by
      intro r hrk hr
      funext j
      by_cases hjk : j = k
      · simp [hjk, hrk]
      · simp [hjk, hr j hjk]
    rw [List.map_cons, replay_cons]
    rcases hk k List.mem_cons_self with hs | ⟨hr, hs⟩
    · obtain ⟨x, hx⟩ := Option.isSome_iff_exists.1 hs
      rw [hcons (r := Function.update rest k none) (by simp) (fun j hj => by simp [hj]),
        ← h.whole_drop hx]
      refine ih (h.drop hx) fun j hj => ?_
      by_cases hjk : j = k
      · exact .inr ⟨by simp [hjk], by simp [hjk]⟩
      · simpa [hjk] using hk j (List.mem_cons_of_mem k hj)
    · rw [act_drop_none hs, hcons (r := rest) hr (fun _ _ => rfl)]
      exact ih h fun j hj => hk j (List.mem_cons_of_mem k hj)

end Rules

end Custody

end OfiTransport.Lib
