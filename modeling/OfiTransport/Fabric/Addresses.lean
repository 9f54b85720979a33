import OfiTransport.Fabric.Defs

/-! What an address says about the fabric, and what `fi_getinfo` is asked for. -/

namespace OfiTransport.Fabric

open Lib

namespace Address

/-- The part of an address that is about the node and the service. -/
def endpoint (a : Address) : List UInt8 :=
  match cutLast atSign a.chars with
  | none => a.chars
  | some (p, _) => p

def specs (a : Address) : Option (List UInt8) := (cutLast atSign a.chars).map Prod.snd

/-- The fabric an address names: what comes before a last ':' there, unless it is empty. -/
def fabric (a : Address) : Option (List UInt8) :=
  a.specs.bind fun f =>
    let name := ((cutLast colon f).map Prod.fst).getD f
    if name = [] then none else some name

def provider (a : Address) : Option (List UInt8) :=
  a.specs.bind fun f => (cutLast colon f).map Prod.snd

def Names (a : Address) : Prop := a.fabric ≠ none ∨ a.provider ≠ none

instance (a : Address) : Decidable a.Names := inferInstanceAs (Decidable (_ ∨ _))

def Accepted (a : Address) : Prop := colon ∈ a.endpoint

instance (a : Address) : Decidable a.Accepted := inferInstanceAs (Decidable (_ ∈ _))

end Address

def Given.ofOption : Option (List UInt8) → Given
  | none => .null
  | some s => .string s

section Specs

inductive Points (buf : List UInt8) (k : Nat) : Option Nat → Option (List UInt8) → Prop
  | null : Points buf k none none
  | string (h : CString.Holds buf o l) (hk : k < o) : Points buf k (some o) (some l)

structure Cuts (a : Address) (sp : Specs) : Prop where
  endpoint : CString.Holds sp.buf 0 a.endpoint
  fabric : Points sp.buf a.endpoint.length sp.fabric a.fabric
  provider : Points sp.buf a.endpoint.length sp.provider a.provider

variable {a : Address}

theorem Points.named {buf l : List UInt8} {o k : Nat} (h : CString.Holds buf o l) (hk : k < o) :
    Points buf k (if CString.strlen buf o = 0 then none else some o)
      (if l = [] then none else some l) := by
  simp only [h.strlen, List.length_eq_zero_iff]
  split
  · exact .null
  · exact .string h hk

theorem fabricSpecs_cuts (a : Address) : Cuts a (fabricSpecs (a.chars ++ [0])) := by
  have hstart := CString.holds_start a.clean
  have hat := hstart.strrchr atSign
  cases hcut : cutLast atSign a.chars with
  | none =>
    rw [hcut, Option.map_none] at hat
    simp only [fabricSpecs, hat]
    refine ⟨?_, ?_, ?_⟩
    · simpa [Address.endpoint, hcut] using hstart
    · simpa [Address.fabric, Address.specs, hcut] using Points.null
    · simpa [Address.provider, Address.specs, hcut] using Points.null
  | some q =>
    obtain ⟨p, f⟩ := q
    obtain ⟨hchars, _⟩ := cutLast_eq_some.1 hcut
    rw [hcut, Option.map_some, Nat.zero_add] at hat
    rw [hchars] at hstart
    have hnode := hstart.cut
    have hspecs := hstart.rest
    rw [Nat.zero_add, ← hchars] at hnode hspecs
    have hep : a.endpoint = p := by simp [Address.endpoint, hcut]
    have hsp : a.specs = some f := by simp [Address.specs, hcut]
    have hcolon := hspecs.strrchr colon
    have hlt : p.length < p.length + 1 := Nat.lt_succ_self _
    simp only [fabricSpecs, hat]
    cases hcut' : cutLast colon f with
    | none =>
      rw [hcut', Option.map_none] at hcolon
      simp only [hcolon]
      refine ⟨by rwa [hep], ?_, ?_⟩
      · simpa [hep, Address.fabric, hsp, hcut'] using Points.named hspecs hlt
      · simpa [Address.provider, hsp, hcut'] using Points.null
    | some q =>
      obtain ⟨n, v⟩ := q
      obtain ⟨hf, _⟩ := cutLast_eq_some.1 hcut'
      rw [hcut', Option.map_some] at hcolon
      simp only [hcolon]
      rw [hf] at hspecs
      refine ⟨?_, ?_, ?_⟩
      · rw [hep]
        exact hnode.set_behind (by omega) 0
      · simpa [hep, Address.fabric, hsp, hcut'] using Points.named hspecs.cut hlt
      · simpa [hep, Address.provider, hsp, hcut'] using Points.string hspecs.rest (by omega)

end Specs

def Hints.Clean (h : Hints) : Prop :=
  h.fabricAttr.bind FabricAttr.name = none ∧ h.fabricAttr.bind FabricAttr.provName = none

def Freed (heap : Heap) (hints : Hints) : Prop :=
  ∀ p, (hints.fabricAttr.bind FabricAttr.name = some p ∨
    hints.fabricAttr.bind FabricAttr.provName = some p) →
      p.block < heap.next ∧ heap.blocks p.block = none

section Freeing

variable {heap : Heap} {hints : Hints} {buf : List UInt8}

theorem scratch_blocks (heap : Heap) (buf : List UInt8) (b : Nat) :
    ((heap.alloc buf).2.free (heap.alloc buf).1).blocks b =
      if b = heap.next then none else heap.blocks b := by
  by_cases hb : b = heap.next <;> simp [Heap.alloc, Heap.free, hb]

theorem Freed.scratch (h : Freed heap hints) :
    Freed ((heap.alloc buf).2.free (heap.alloc buf).1) hints := by
  intro p hp
  obtain ⟨hlt, hb⟩ := h p hp
  refine ⟨Nat.lt_succ_of_lt hlt, ?_⟩
  rw [scratch_blocks, hb, ite_self]

theorem Freed.populate (h : Freed heap hints) (sp : Specs) :
    Freed ((heap.alloc buf).2.free (heap.alloc buf).1) (sp.populate (heap.alloc buf).1 hints) := by
  rw [Specs.populate]
  split
  · rintro p hp
    have hb : p.block = heap.next := by
      simp only [Option.bind_some, Option.map_eq_some_iff] at hp
      rcases hp with ⟨_, _, rfl⟩ | ⟨_, _, rfl⟩ <;> rfl
    refine ⟨?_, ?_⟩
    · rw [hb]
      exact Nat.lt_succ_self _
    · rw [scratch_blocks, if_pos hb]
  · exact h.scratch

theorem deref_freed {o : Option Ptr}
    (h : ∀ p, o = some p → p.block < heap.next ∧ heap.blocks p.block = none) :
    (heap.alloc buf).2.deref o = .null ∨ (heap.alloc buf).2.deref o = .dangling := by
  cases o with
  | none => exact .inl rfl
  | some p =>
    obtain ⟨hlt, hb⟩ := h p rfl
    right
    simp [Heap.deref, Heap.alloc, Function.update_of_ne (Nat.ne_of_lt hlt), hb]

end Freeing

section Matching

variable {a : Address}

theorem deref_eq_null {h : Heap} {p : Option Ptr} : h.deref p = .null ↔ p = none := by
  cases p with
  | none => simp [Heap.deref]
  | some p =>
    simp only [Heap.deref, reduceCtorEq, iff_false]
    split <;> simp

theorem deref_alloc {h : Heap} {buf l : List UInt8} {o : Nat} (hl : CString.Holds buf o l) :
    (h.alloc buf).2.deref (some ⟨(h.alloc buf).1, o⟩) = .string l := by
  simp [Heap.deref, Heap.alloc, hl.read]

theorem Points.deref {h : Heap} {buf : List UInt8} {k : Nat} {p : Option Nat}
    {l : Option (List UInt8)} (hp : Points buf k p l) :
    (h.alloc buf).2.deref (p.map (Ptr.mk (h.alloc buf).1)) = .ofOption l := by
  cases hp with
  | null => rfl
  | string hl _ => exact deref_alloc hl

theorem Points.set {buf : List UInt8} {k i : Nat} {p : Option Nat} {l : Option (List UInt8)}
    (hp : Points buf k p l) (hi : i < k) (b : UInt8) : Points (buf.set i b) k p l := by
  cases hp with
  | null => exact .null
  | string hl hk => exact .string (hl.set_before (Nat.lt_trans hi hk) b) hk

theorem Points.isSome {buf : List UInt8} {k : Nat} {p : Option Nat} {l : Option (List UInt8)}
    (hp : Points buf k p l) : p.isSome = l.isSome := by
  cases hp <;> rfl

structure Asks (a : Address) (R R' : Heap × Hints) (q : Query) : Prop where
  endpoint : ∃ n s, cutLast colon a.endpoint = some (n, s) ∧ q.node = .string n ∧
    q.service = .string s
  named : a.Names → q.fabric = .ofOption a.fabric ∧ q.provider = .ofOption a.provider ∧
    ¬ R'.2.Clean
  unnamed : ¬ a.Names → R'.2 = R.2 ∧ (R.2.Clean ↔ q.fabric = .null ∧ q.provider = .null)
  freed : Freed R.1 R.2 → Freed R'.1 R'.2 ∧
    (¬ a.Names → (q.fabric = .null ∨ q.fabric = .dangling) ∧
      (q.provider = .null ∨ q.provider = .dangling))

theorem Cuts.names {sp : Specs} (h : Cuts a sp) :
    (sp.fabric.isSome = true ∨ sp.provider.isSome = true) ↔ a.Names := by
  rw [h.fabric.isSome, h.provider.isSome, Option.isSome_iff_ne_none, Option.isSome_iff_ne_none]
  rfl

theorem Cuts.asks {sp : Specs} {n s : List UInt8} (h : Cuts a sp)
    (hc : cutLast colon a.endpoint = some (n, s)) (addf : AddrFlags) (heap : Heap)
    (hints : Hints) :
    let buf := sp.buf.set n.length 0
    let node := (heap.alloc buf).1
    Asks a (heap, hints) ((heap.alloc buf).2.free node, sp.populate node hints)
      (getinfo (heap.alloc buf).2 (sp.populate node hints) node (n.length + 1) addf) := by
  intro buf node
  obtain ⟨he, _⟩ := cutLast_eq_some.1 hc
  have hstart := h.endpoint
  rw [he] at hstart
  have hnode := hstart.cut
  have hservice := hstart.rest
  rw [Nat.zero_add] at hnode hservice
  have hlt : n.length < a.endpoint.length := by simp [he]
  have hfabric : Points buf a.endpoint.length sp.fabric a.fabric := h.fabric.set hlt 0
  have hprovider : Points buf a.endpoint.length sp.provider a.provider := h.provider.set hlt 0
  have hsame : ¬ a.Names → sp.populate node hints = hints := by
    intro hn
    rw [Specs.populate, if_neg (fun hs => hn (h.names.1 hs))]
  refine ⟨⟨n, s, hc, deref_alloc hnode, deref_alloc hservice⟩, ?_, ?_, ?_⟩
  · intro hn
    have hp : sp.populate node hints =
        ⟨some ⟨sp.fabric.map (Ptr.mk node), sp.provider.map (Ptr.mk node)⟩⟩ := by
      rw [Specs.populate, if_pos (h.names.2 hn)]
    simp only [hp]
    refine ⟨hfabric.deref, hprovider.deref, ?_⟩
    rintro ⟨hf, hv⟩
    rcases h.names.2 hn with hs | hs
    · simp [Option.map_eq_none_iff.1 hf] at hs
    · simp [Option.map_eq_none_iff.1 hv] at hs
  · intro hn
    simp only [hsame hn, getinfo, deref_eq_null, true_and]
    exact Iff.rfl
  · intro hfreed
    refine ⟨hfreed.populate sp, ?_⟩
    intro hn
    simp only [hsame hn, getinfo]
    exact ⟨deref_freed (fun p hp => hfreed p (.inl hp)),
      deref_freed (fun p hp => hfreed p (.inr hp))⟩

theorem matchFabric_rejected (ha : ¬ a.Accepted) (addf : AddrFlags) (found : Found)
    (R : Resources) :
    ∃ heap, matchFabric a addf found R = (-EINVAL, none, { R with heap := heap }, none) ∧
      (Freed R.heap R.hints → Freed heap R.hints) := by
  have hc := (fabricSpecs_cuts a).endpoint.strrchr colon
  rw [cutLast_eq_none.2 ha, Option.map_none] at hc
  simp only [matchFabric, hc]
  exact ⟨_, rfl, fun h => h.scratch⟩

theorem matchFabric_accepted (ha : a.Accepted) (addf : AddrFlags) (found : Found)
    (R : Resources) :
    ∃ ret fi R' q, matchFabric a addf found R = (ret, fi, R', some q) ∧
      Asks a (R.heap, R.hints) (R'.heap, R'.hints) q := by
  have hcuts := fabricSpecs_cuts a
  have hc := hcuts.endpoint.strrchr colon
  cases hcut : cutLast colon a.endpoint with
  | none => exact absurd ha (cutLast_eq_none.1 hcut)
  | some q =>
    obtain ⟨n, s⟩ := q
    rw [hcut, Option.map_some, Nat.zero_add] at hc
    have hasks := hcuts.asks hcut addf R.heap R.hints
    simp only [matchFabric, hc]
    split
    · exact ⟨_, _, _, _, rfl, hasks⟩
    · split <;> exact ⟨_, _, _, _, rfl, hasks⟩

end Matching

section Opening

variable {a : Address}

theorem fabricOpen_rejected (ha : ¬ a.Accepted) (addf : AddrFlags) (ans : Answers)
    (R : Resources) :
    ∃ heap, fabricOpen a addf ans R = (-EINVAL, { R with heap := heap }, none) ∧
      (Freed R.heap R.hints → Freed heap R.hints) := by
  obtain ⟨heap, hm, hf⟩ := matchFabric_rejected ha addf ans.found R
  exact ⟨heap, by rw [fabricOpen, hm], hf⟩

theorem fabricOpen_accepted (ha : a.Accepted) (addf : AddrFlags) (ans : Answers)
    (R : Resources) :
    ∃ ret R' q, fabricOpen a addf ans R = (ret, R', some q) ∧
      Asks a (R.heap, R.hints) (R'.heap, R'.hints) q := by
  obtain ⟨ret, fi, R', q, hm, hq⟩ := matchFabric_accepted ha addf ans.found R
  cases fi with
  | none => exact ⟨ret, R', q, by rw [fabricOpen, hm], hq⟩
  | some fi =>
    simp only [fabricOpen, hm]
    split
    · exact ⟨_, _, _, rfl, hq⟩
    · split <;> exact ⟨_, _, _, rfl, hq⟩

end Opening

section Sequences

structure Request where
  address : Address
  flags : AddrFlags
  answers : Answers

def asked (R : Resources) : List Request → List (Request × Query)
  | [] => []
  | r :: rs =>
    let (_, R', q) := fabricOpen r.address r.flags r.answers R
    q.toList.map (fun q => (r, q)) ++ asked R' rs

/-- The constraints that are passed are those of the address. -/
def Written (x : Request × Query) : Prop :=
  x.2.fabric = .ofOption x.1.address.fabric ∧ x.2.provider = .ofOption x.1.address.provider

theorem Asks.written_iff {r : Request} {R R' : Heap × Hints} {q : Query}
    (h : Asks r.address R R' q) (hn : ¬ r.address.Names) : Written (r, q) ↔ R.2.Clean := by
  obtain ⟨hf, hp⟩ := not_or.1 hn
  rw [(h.unnamed hn).2, Written, not_not.1 hf, not_not.1 hp]
  rfl

theorem asked_written_iff (R : Resources) (rs : List Request) :
    (∀ x ∈ asked R rs, Written x) ↔
      (¬ R.hints.Clean → ∀ r ∈ rs, r.address.Accepted → r.address.Names) ∧
      rs.Pairwise (fun r r' => r.address.Accepted → r.address.Names →
        r'.address.Accepted → r'.address.Names) := by
  induction rs generalizing R with
  | nil => simp [asked]
  | cons r rs ih =>
    rw [List.pairwise_cons]
    by_cases ha : r.address.Accepted
    · obtain ⟨ret, R', q, ho, hq⟩ := fabricOpen_accepted ha r.flags r.answers R
      have hstep : (∀ x ∈ asked R (r :: rs), Written x) ↔
          Written (r, q) ∧ ∀ x ∈ asked R' rs, Written x := by
        simp [asked, ho]
      rw [hstep, ih]
      by_cases hn : r.address.Names
      · obtain ⟨hf, hp, hd⟩ := hq.named hn
        have hw : Written (r, q) := ⟨hf, hp⟩
        simp only [hw, hd, ha, hn, List.mem_cons, forall_eq_or_imp, not_false_eq_true,
          forall_const, true_and]
        constructor
        · rintro ⟨hl, hp⟩
          exact ⟨fun _ => hl, hl, hp⟩
        · rintro ⟨_, hl, hp⟩
          exact ⟨hl, hp⟩
      · have hh : R'.hints = R.hints := (hq.unnamed hn).1
        rw [hq.written_iff hn, hh]
        simp only [ha, hn, List.mem_cons, forall_eq_or_imp]
        tauto
    · obtain ⟨heap, ho, _⟩ := fabricOpen_rejected ha r.flags r.answers R
      have hstep : asked R (r :: rs) = asked { R with heap := heap } rs := by
        simp [asked, ho]
      rw [hstep, ih]
      simp only [ha, List.mem_cons, forall_eq_or_imp, false_implies, implies_true, true_and]

theorem asked_written_or_freed {R : Resources} {rs : List Request}
    (h : Freed R.heap R.hints) : ∀ x ∈ asked R rs,
      (x.2.fabric = .ofOption x.1.address.fabric ∨ x.2.fabric = .dangling) ∧
      (x.2.provider = .ofOption x.1.address.provider ∨ x.2.provider = .dangling) := by
  induction rs generalizing R with
  | nil => simp [asked]
  | cons r rs ih =>
    by_cases ha : r.address.Accepted
    · obtain ⟨ret, R', q, ho, hq⟩ := fabricOpen_accepted ha r.flags r.answers R
      obtain ⟨hf, hleft⟩ := hq.freed h
      have hstep : asked R (r :: rs) = (r, q) :: asked R' rs := by simp [asked, ho]
      rw [hstep, List.forall_mem_cons]
      refine ⟨?_, ih hf⟩
      by_cases hn : r.address.Names
      · obtain ⟨hf, hp, _⟩ := hq.named hn
        exact ⟨.inl hf, .inl hp⟩
      · obtain ⟨hf, hp⟩ := not_or.1 hn
        rw [not_not.1 hf, not_not.1 hp]
        exact hleft hn
    · obtain ⟨heap, ho, hf⟩ := fabricOpen_rejected ha r.flags r.answers R
      have hstep : asked R (r :: rs) = asked { R with heap := heap } rs := by simp [asked, ho]
      rw [hstep]
      exact ih (hf h)

theorem fresh_clean (alloc : Allocated) : (fresh alloc).hints.Clean := by
  cases alloc <;> exact ⟨rfl, rfl⟩

theorem fresh_freed (alloc : Allocated) : Freed (fresh alloc).heap (fresh alloc).hints := by
  rintro p (hp | hp)
  · rw [(fresh_clean alloc).1] at hp
    cases hp
  · rw [(fresh_clean alloc).2] at hp
    cases hp

/-- Every constraint that is passed is written in the address or refers to a freed buffer. -/
theorem written_or_freed (alloc : Allocated) (rs : List Request) :
    ∀ x ∈ asked (fresh alloc) rs,
      (x.2.fabric = .ofOption x.1.address.fabric ∨ x.2.fabric = .dangling) ∧
      (x.2.provider = .ofOption x.1.address.provider ∨ x.2.provider = .dangling) :=
  asked_written_or_freed (fresh_freed alloc)

def Address.request (a : Address) : Request := ⟨a, .addrRemote, ⟨⟨0, some 0⟩, 0, 0⟩⟩

def onFabric : Address := ⟨['a', ':', '1', '@', 'f'].map Char.toUInt8, by decide⟩

def onAny : Address := ⟨['b', ':', '2'].map Char.toUInt8, by decide⟩

end Sequences

/-- The constraints of every address are passed, and no others, exactly when no address that
has a service and names no constraint comes after one that has a service and names one. -/
theorem constraints_written_iff (alloc : Allocated) (rs : List Request) :
    (∀ x ∈ asked (fresh alloc) rs, Written x) ↔
      rs.Pairwise (fun r r' => r.address.Accepted → r.address.Names →
        r'.address.Accepted → r'.address.Names) := by
  rw [asked_written_iff]
  simp [fresh_clean alloc]

/-- After "a:1@f" the address "b:2" is looked up with a fabric whose name has been freed. -/
theorem constraint_left_over :
    (asked (fresh .zeroed) [onFabric.request, onAny.request]).map (fun x => x.2.fabric) =
      [.string ['f'.toUInt8], .dangling] ∧
    ¬ ∀ x ∈ asked (fresh .zeroed) [onFabric.request, onAny.request], Written x := by
  have hq : (asked (fresh .zeroed) [onFabric.request, onAny.request]).map (fun x => x.2.fabric) =
      [.string ['f'.toUInt8], .dangling] := by decide
  refine ⟨hq, ?_⟩
  intro h
  have hd : Given.dangling ∈
      (asked (fresh .zeroed) [onFabric.request, onAny.request]).map (fun x => x.2.fabric) := by
    rw [hq]
    exact List.mem_cons_of_mem _ (List.mem_singleton_self _)
  obtain ⟨x, hx, he⟩ := List.mem_map.1 hd
  have hw := (h x hx).1
  rw [he] at hw
  cases hx' : x.1.address.fabric <;> simp [hx', Given.ofOption] at hw

end OfiTransport.Fabric
