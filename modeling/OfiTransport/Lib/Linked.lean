import Mathlib.Data.List.Nodup
import Mathlib.Data.List.Basic
import Mathlib.Logic.Function.Basic

/-! Doubly linked lists threaded through their nodes.  `Links` is the memory of the two
pointer fields, `Chain L p l q` says that the nodes `l` are linked both ways between a
predecessor `p` and a successor `q`, and `IsList L l` that `l` is a whole list. -/

universe u

namespace OfiTransport.Lib

@[ext] structure Links (α : Type u) where
  next : α → Option α
  prev : α → Option α

namespace Links

variable {α : Type u} [DecidableEq α]

def setNext (L : Links α) (a : α) (v : Option α) : Links α :=
  { L with next := Function.update L.next a v }

def setPrev (L : Links α) (a : α) (v : Option α) : Links α :=
  { L with prev := Function.update L.prev a v }

/-- Write through a pointer that may be NULL, in which case nothing happens. -/
def setNext? (L : Links α) : Option α → Option α → Links α
  | none, _ => L
  | some a, v => L.setNext a v

def setPrev? (L : Links α) : Option α → Option α → Links α
  | none, _ => L
  | some a, v => L.setPrev a v

def detach (L : Links α) (a : α) : Links α := (L.setPrev a none).setNext a none

def unlink (L : Links α) (a : α) : Links α :=
  let L₁ := L.setPrev? (L.next a) (L.prev a)
  L₁.setNext? (L₁.prev a) (L₁.next a)

def pushFront (L : Links α) (a : α) (head : Option α) : Links α :=
  ((L.setNext a head).setPrev? head (some a)).setPrev a none

def pushBack (L : Links α) (a : α) (tail : Option α) : Links α :=
  ((L.setPrev a tail).setNext? tail (some a)).setNext a none

@[simp] theorem setNext_prev (L : Links α) (a : α) (v : Option α) :
    (L.setNext a v).prev = L.prev := rfl

@[simp] theorem setPrev_next (L : Links α) (a : α) (v : Option α) :
    (L.setPrev a v).next = L.next := rfl

@[simp] theorem setNext_next (L : Links α) (a b : α) (v : Option α) :
    (L.setNext a v).next b = if b = a then v else L.next b := by
  simp [setNext, Function.update_apply]

@[simp] theorem setPrev_prev (L : Links α) (a b : α) (v : Option α) :
    (L.setPrev a v).prev b = if b = a then v else L.prev b := by
  simp [setPrev, Function.update_apply]

@[simp] theorem setNext?_prev (L : Links α) (a v : Option α) :
    (L.setNext? a v).prev = L.prev := by cases a <;> rfl

@[simp] theorem setPrev?_next (L : Links α) (a v : Option α) :
    (L.setPrev? a v).next = L.next := by cases a <;> rfl

@[simp] theorem setNext?_next (L : Links α) (a : Option α) (b : α) (v : Option α) :
    (L.setNext? a v).next b = if a = some b then v else L.next b := by
  cases a with
  | none => simp [setNext?]
  | some a => simp [setNext?, eq_comm]

@[simp] theorem setPrev?_prev (L : Links α) (a : Option α) (b : α) (v : Option α) :
    (L.setPrev? a v).prev b = if a = some b then v else L.prev b := by
  cases a with
  | none => simp [setPrev?]
  | some a => simp [setPrev?, eq_comm]

def walk (L : Links α) : Nat → Option α → List α
  | 0, _ => []
  | _, none => []
  | n + 1, some a => a :: L.walk n (L.next a)

/-- The nodes `l` are linked both ways, entered from `p` and left towards `q`. -/
def Chain (L : Links α) : Option α → List α → Option α → Prop
  | _, [], _ => True
  | p, a :: l, q => L.prev a = p ∧ L.next a = l.head?.or q ∧ L.Chain (some a) l q

structure IsList (L : Links α) (l : List α) : Prop where
  nodup : l.Nodup
  chain : L.Chain none l none

omit [DecidableEq α] in
theorem Chain.congr {L M : Links α} (h : L.Chain p l q)
    (hn : ∀ a ∈ l, M.next a = L.next a) (hp : ∀ a ∈ l, M.prev a = L.prev a) :
    M.Chain p l q := by
  induction l generalizing p with
  | nil => trivial
  | cons a l ih =>
    obtain ⟨h₁, h₂, h₃⟩ := h
    refine ⟨(hp a (by simp)).trans h₁, (hn a (by simp)).trans h₂, ih h₃ ?_ ?_⟩
    · intro b hb; exact hn b (by simp [hb])
    · intro b hb; exact hp b (by simp [hb])

omit [DecidableEq α] in
theorem chain_append {L : Links α} : L.Chain p (l₁ ++ l₂) q ↔
    L.Chain p l₁ (l₂.head?.or q) ∧ L.Chain (l₁.getLast?.or p) l₂ q := by
  induction l₁ generalizing p with
  | nil => simp [Chain]
  | cons a l ih =>
    simp only [List.cons_append, Chain, ih, and_assoc]
    have hh : (l ++ l₂).head?.or q = l.head?.or (l₂.head?.or q) := by
      cases l <;> simp
    have hl : (a :: l).getLast?.or p = l.getLast?.or (some a) := by
      rw [List.getLast?_cons]
      cases l.getLast? <;> simp
    rw [hh, hl]

omit [DecidableEq α] in
theorem Chain.unique {L : Links α} (h : L.Chain p l none) (h' : L.Chain p' l' none)
    (hh : l.head? = l'.head?) : l = l' := by
  induction l generalizing p p' l' with
  | nil => simpa using hh.symm
  | cons a l ih =>
    cases l' with
    | nil => simp at hh
    | cons a' l' =>
      simp only [List.head?_cons, Option.some.injEq] at hh
      subst hh
      have hn := h.2.1.symm.trans h'.2.1
      simp only [Option.or_none] at hn
      rw [ih h.2.2 h'.2.2 hn]

theorem chain_range' {L : Links Nat} {s n : Nat}
    (h : ∀ i, s ≤ i → i < s + n → L.prev i = (if i = s then p else some (i - 1)) ∧
      L.next i = if i + 1 < s + n then some (i + 1) else q) :
    L.Chain p (List.range' s n) q := by
  induction n generalizing s p with
  | zero => trivial
  | succ n ih =>
    rw [List.range'_succ]
    obtain ⟨hp, hn⟩ := h s (Nat.le_refl s) (by omega)
    refine ⟨by simpa using hp, ?_, ih ?_⟩
    · cases n with
      | zero => simpa using hn
      | succ n => simpa [List.range'_succ] using hn
    · intro i hi hlt
      obtain ⟨hp, hn⟩ := h i (by omega) (by omega)
      rw [if_neg (by omega)] at hp
      refine ⟨?_, by rw [hn]; simp only [show i + 1 < s + (n + 1) ↔ i + 1 < s + 1 + n by omega]⟩
      by_cases his : i = s + 1
      · rw [hp, if_pos his, his]
        rfl
      · rw [hp, if_neg his]

theorem Chain.setPrev?_head {L : Links α} (h : L.Chain p l q) (hd : l.Nodup) (p' : Option α) :
    (L.setPrev? l.head? p').Chain p' l q := by
  cases l with
  | nil => trivial
  | cons a l =>
    obtain ⟨_, h₂, h₃⟩ := h
    rw [List.nodup_cons] at hd
    refine ⟨by simp, by simpa using h₂, h₃.congr (by simp) ?_⟩
    intro b hb
    have hne : a ≠ b := fun e => hd.1 (e ▸ hb)
    simp [hne]

theorem Chain.setNext?_last {L : Links α} (h : L.Chain p l q) (hd : l.Nodup) (q' : Option α) :
    (L.setNext? l.getLast? q').Chain p l q' := by
  induction l generalizing p with
  | nil => trivial
  | cons a l ih =>
    obtain ⟨h₁, h₂, h₃⟩ := h
    rw [List.nodup_cons] at hd
    cases l with
    | nil => exact ⟨by simpa using h₁, by simp, trivial⟩
    | cons b l =>
      have hlast : (a :: b :: l).getLast? = (b :: l).getLast? := by simp [List.getLast?_cons]
      rw [hlast]
      refine ⟨by simpa using h₁, ?_, ih h₃ hd.2⟩
      have hne : (b :: l).getLast? ≠ some a := fun e => hd.1 (List.mem_of_getLast? e)
      simpa [hne] using h₂

section Lists

variable {L : Links α} {l l₁ l₂ : List α} {a : α}

omit [DecidableEq α] in
theorem IsList.congr {M : Links α} (h : L.IsList l) (hn : ∀ a ∈ l, M.next a = L.next a)
    (hp : ∀ a ∈ l, M.prev a = L.prev a) : M.IsList l :=
  ⟨h.nodup, h.chain.congr hn hp⟩

omit [DecidableEq α] in
theorem isList_nil : L.IsList [] := ⟨List.nodup_nil, trivial⟩

omit [DecidableEq α] in
theorem IsList.pointers (h : L.IsList (l₁ ++ a :: l₂)) :
    L.prev a = l₁.getLast? ∧ L.next a = l₂.head? := by
  obtain ⟨_, hp, hn, _⟩ := chain_append.1 h.chain
  exact ⟨by simpa using hp, by simpa using hn⟩

omit [DecidableEq α] in
theorem IsList.pointers_head (h : L.IsList (a :: l)) : L.prev a = none ∧ L.next a = l.head? :=
  ⟨h.chain.1, h.chain.2.1.trans (Option.or_none ..)⟩

omit [DecidableEq α] in
theorem IsList.next_iff_prev {b : α} (h : L.IsList l) (ha : a ∈ l) (hb : b ∈ l) :
    L.next a = some b ↔ L.prev b = some a := by
  constructor
  · intro hn
    obtain ⟨l₁, l₂, rfl⟩ := List.append_of_mem ha
    rw [h.pointers.2] at hn
    obtain ⟨l₃, rfl⟩ := List.head?_eq_some_iff.1 hn
    have h' : L.IsList ((l₁ ++ [a]) ++ b :: l₃) := by simpa using h
    rw [h'.pointers.1, List.getLast?_concat]
  · intro hp
    obtain ⟨l₁, l₂, rfl⟩ := List.append_of_mem hb
    rw [h.pointers.1] at hp
    obtain ⟨l₀, rfl⟩ := List.getLast?_eq_some_iff.1 hp
    have h' : L.IsList (l₀ ++ a :: (b :: l₂)) := by simpa using h
    rw [h'.pointers.2, List.head?_cons]

omit [DecidableEq α] in
theorem isList_singleton : L.IsList [a] ↔ L.prev a = none ∧ L.next a = none := by
  constructor
  · exact fun h => h.pointers_head
  · intro h
    exact ⟨List.nodup_singleton a, h.1, h.2, trivial⟩

omit [DecidableEq α] in
theorem IsList.walk {n : Nat} (h : L.IsList l) (hn : l.length ≤ n) : L.walk n l.head? = l := by
  suffices hw : ∀ (l : List α) (p : Option α), L.Chain p l none → ∀ n, l.length ≤ n →
      L.walk n l.head? = l from hw l none h.chain n hn
  intro l
  induction l with
  | nil =>
    intro p _ n _
    cases n <;> rfl
  | cons a l ih =>
    intro p hc n hn
    obtain ⟨n, rfl⟩ : ∃ k, n = k + 1 := ⟨n - 1, by simp at hn; omega⟩
    have hnext : L.next a = l.head? := hc.2.1.trans (Option.or_none ..)
    rw [List.head?_cons, Links.walk, hnext, ih _ hc.2.2 n (Nat.le_of_succ_le_succ hn)]

theorem IsList.pushFront (h : L.IsList l) (ha : a ∉ l) :
    (L.pushFront a l.head?).IsList (a :: l) := by
  refine ⟨List.nodup_cons.2 ⟨ha, h.nodup⟩, by simp [Links.pushFront], ?_, ?_⟩
  · simp [Links.pushFront]
  · refine (h.chain.setPrev?_head h.nodup (some a)).congr ?_ ?_
    · intro b hb
      have hne : b ≠ a := fun e => ha (e ▸ hb)
      simp [Links.pushFront, hne]
    · intro b hb
      have hne : b ≠ a := fun e => ha (e ▸ hb)
      simp [Links.pushFront, hne]

theorem IsList.pushBack (h : L.IsList l) (ha : a ∉ l) :
    (L.pushBack a l.getLast?).IsList (l ++ [a]) := by
  have hd : (l ++ [a]).Nodup := by
    rw [List.nodup_append]
    refine ⟨h.nodup, List.nodup_singleton a, ?_⟩
    intro b hb c hc e
    rw [List.mem_singleton] at hc
    exact ha (hc ▸ e ▸ hb)
  refine ⟨hd, chain_append.2 ⟨?_, ?_⟩⟩
  · refine (h.chain.setNext?_last h.nodup (some a)).congr ?_ ?_ <;> intro b hb <;>
    · have hba : b ≠ a := fun e => ha (e ▸ hb)
      simp [Links.pushBack, hba]
  · exact ⟨by simp [Links.pushBack], by simp [Links.pushBack], trivial⟩

theorem IsList.unlink (h : L.IsList (l₁ ++ a :: l₂)) : (L.unlink a).IsList (l₁ ++ l₂) := by
  obtain ⟨hp, hn⟩ := h.pointers
  have hd := h.nodup
  simp only [List.nodup_append, List.nodup_cons, List.mem_cons, ne_eq] at hd
  obtain ⟨hd₁, ⟨ha₂, hd₂⟩, hdis⟩ := hd
  have ha₁ : a ∉ l₁ := fun e => hdis a e a (.inl rfl) rfl
  have h₂ : l₂.head? ≠ some a := fun e => ha₂ (List.mem_of_head? e)
  obtain ⟨hc₁, _, _, hc₂⟩ := chain_append.1 h.chain
  refine ⟨?_, chain_append.2 ⟨?_, ?_⟩⟩
  · simp only [List.nodup_append, ne_eq]
    exact ⟨hd₁, hd₂, fun x hx y hy => hdis x hx y (.inr hy)⟩
  · refine (hc₁.setNext?_last hd₁ (l₂.head?.or none)).congr ?_ ?_
    · intro b _
      simp [Links.unlink, hp, hn, h₂]
    · intro b hb
      have hb' : l₂.head? ≠ some b := fun e => hdis b hb b (.inr (List.mem_of_head? e)) rfl
      simp [Links.unlink, hp, hn, hb']
  · refine (hc₂.setPrev?_head hd₂ (l₁.getLast?.or none)).congr ?_ ?_
    · intro b hb
      have hb' : l₁.getLast? ≠ some b := fun e => hdis b (List.mem_of_getLast? e) b (.inr hb) rfl
      simp [Links.unlink, hp, hn, h₂, hb']
    · intro b _
      simp [Links.unlink, hp, hn]

theorem IsList.frame_unlink (h : L.IsList l) (hp : ∀ b ∈ l, L.prev a ≠ some b)
    (hn : ∀ b ∈ l, L.next a ≠ some b) (ha : L.next a ≠ some a) : (L.unlink a).IsList l := by
  refine h.congr ?_ ?_
  · intro b hb
    simp [Links.unlink, ha, hp b hb]
  · intro b hb
    simp [Links.unlink, hn b hb]

theorem IsList.frame_pushFront (h : L.IsList l) (ha : a ∉ l) {head : Option α}
    (hh : ∀ b ∈ l, head ≠ some b) : (L.pushFront a head).IsList l := by
  refine h.congr ?_ ?_ <;> intro b hb <;>
  · have hne : b ≠ a := fun e => ha (e ▸ hb)
    simp [Links.pushFront, hne, hh b hb]

theorem IsList.frame_pushBack (h : L.IsList l) (ha : a ∉ l) {tail : Option α}
    (ht : ∀ b ∈ l, tail ≠ some b) : (L.pushBack a tail).IsList l := by
  refine h.congr ?_ ?_ <;> intro b hb <;>
  · have hne : b ≠ a := fun e => ha (e ▸ hb)
    simp [Links.pushBack, hne, ht b hb]

theorem IsList.frame_detach (h : L.IsList l) (ha : a ∉ l) : (L.detach a).IsList l := by
  refine h.congr ?_ ?_ <;> intro b hb <;>
  · have hne : b ≠ a := fun e => ha (e ▸ hb)
    simp [detach, hne]

theorem IsList.tail (h : L.IsList (a :: l)) : ((L.setPrev? (L.next a) none).detach a).IsList l := by
  obtain ⟨_, hn⟩ := h.pointers_head
  obtain ⟨ha, hd⟩ := List.nodup_cons.1 h.nodup
  have hl : (L.setPrev? (L.next a) none).IsList l := by
    rw [hn]
    exact ⟨hd, h.chain.2.2.setPrev?_head hd none⟩
  exact hl.frame_detach ha

theorem IsList.frame_tail (h : L.IsList l) (ha : a ∉ l) (hn : ∀ b ∈ l, L.next a ≠ some b) :
    ((L.setPrev? (L.next a) none).detach a).IsList l := by
  refine IsList.frame_detach (h.congr ?_ ?_) ha
  · intro b _
    simp
  · intro b hb
    simp [hn b hb]

end Lists

end Links

end OfiTransport.Lib
