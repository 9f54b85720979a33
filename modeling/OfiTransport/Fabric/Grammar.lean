import OfiTransport.Fabric.Addresses

/-! The forms of an address that the documentation of `ofi_fabric_open` and the comment of
`ofi_match_fabric` list, and what becomes of an address of each. -/

namespace OfiTransport.Fabric

open Lib

def asterisk : UInt8 := '*'.toUInt8

/-- `[ip]:[service]`, `[ip]:[service]@[fabric]`, `[ip]:[service]@[fabric]:[provider]` and
`*@[fabric]` -/
inductive Form
  | service (node service : List UInt8)
  | fabric (node service fabric : List UInt8)
  | provider (node service fabric provider : List UInt8)
  | anyNode (fabric : List UInt8)
  deriving DecidableEq

structure Parts where
  node : List UInt8
  service : Option (List UInt8)
  fabric : Option (List UInt8)
  provider : Option (List UInt8)
  deriving DecidableEq

def named (fabric : List UInt8) : Option (List UInt8) := if fabric = [] then none else some fabric

namespace Form

def chars : Form → List UInt8
  | .service n s => n ++ colon :: s
  | .fabric n s f => n ++ colon :: s ++ atSign :: f
  | .provider n s f p => n ++ colon :: s ++ atSign :: (f ++ colon :: p)
  | .anyNode f => asterisk :: atSign :: f

def Legal : Form → Prop
  | .service n s => atSign ∉ n ∧ atSign ∉ s ∧ colon ∉ s
  | .fabric n s f => atSign ∉ n ∧ atSign ∉ s ∧ colon ∉ s ∧ atSign ∉ f ∧ colon ∉ f
  | .provider n s f p =>
    atSign ∉ n ∧ atSign ∉ s ∧ colon ∉ s ∧ atSign ∉ f ∧ atSign ∉ p ∧ colon ∉ p
  | .anyNode f => atSign ∉ f ∧ colon ∉ f

instance : DecidablePred Legal
  | .service .. | .fabric .. | .provider .. | .anyNode .. => inferInstanceAs (Decidable (_ ∧ _))

def parts : Form → Parts
  | .service n s => ⟨n, some s, none, none⟩
  | .fabric n s f => ⟨n, some s, named f, none⟩
  | .provider n s f p => ⟨n, some s, named f, some p⟩
  | .anyNode f => ⟨[asterisk], none, named f, none⟩

end Form

namespace Address

def Is (a : Address) (f : Form) : Prop := f.Legal ∧ a.chars = f.chars

def IsAnyNode (a : Address) : Prop := ∃ f, a.Is (.anyNode f)

end Address

def Found.result (found : Found) : Int × Option Nat :=
  if found.ret ≠ 0 then (found.ret, none)
  else
    match found.ans with
    | none => (-ENODATA, none)
    | some fi => (0, some fi)

structure Parts.Handed (p : Parts) (q : Query) : Prop where
  node : q.node = .string p.node
  service : q.service = .ofOption p.service
  fabric : q.fabric = .ofOption p.fabric
  provider : q.provider = .ofOption p.provider

def Taken (a : Address) (addf : AddrFlags) (found : Found) (R : Resources) (p : Parts) : Prop :=
  ∃ R' q, matchFabric a addf found R = (found.result.1, found.result.2, R', some q) ∧ p.Handed q

def Refused (a : Address) (addf : AddrFlags) (found : Found) (R : Resources) : Prop :=
  ∃ R', matchFabric a addf found R = (-EINVAL, none, R', none)

/-- The address is dealt with as documented: if it is of one of the forms, and if it has no
service. -/
structure Documented (a : Address) (addf : AddrFlags) (found : Found) (R : Resources) : Prop where
  taken : ∀ f, a.Is f → Taken a addf found R f.parts
  refused : ¬ a.Accepted → ¬ a.IsAnyNode → Refused a addf found R

structure Reads (a : Address) (p : Parts) : Prop where
  endpoint : ∃ s, p.service = some s ∧ cutLast colon a.endpoint = some (p.node, s)
  fabric : a.fabric = p.fabric
  provider : a.provider = p.provider

section Reading

variable {a : Address} {n s f v : List UInt8}

theorem not_mem_joined (h : atSign ∉ n) (h' : atSign ∉ s) : atSign ∉ n ++ colon :: s := by
  have hne : atSign ≠ colon := by decide
  simp [h, h', hne]

theorem Address.endpoint_eq (h : a.chars = n ++ atSign :: f) (hf : atSign ∉ f) :
    a.endpoint = n ∧ a.specs = some f := by
  have hc := cutLast_eq_some.2 ⟨h, hf⟩
  simp [Address.endpoint, Address.specs, hc]

theorem Address.endpoint_all (h : atSign ∉ a.chars) : a.endpoint = a.chars ∧ a.specs = none := by
  simp [Address.endpoint, Address.specs, cutLast_eq_none.2 h]

theorem Address.Is.reads_service (h : a.Is (.service n s)) : Reads a (Form.service n s).parts := by
  obtain ⟨⟨hn, hs, hs'⟩, hc⟩ := h
  have hat : atSign ∉ a.chars := hc ▸ not_mem_joined hn hs
  obtain ⟨he, hspecs⟩ := Address.endpoint_all hat
  refine ⟨⟨s, rfl, ?_⟩, by simp [Address.fabric, hspecs, Form.parts],
    by simp [Address.provider, hspecs, Form.parts]⟩
  rw [he]
  exact cutLast_eq_some.2 ⟨hc, hs'⟩

theorem Address.Is.reads_fabric (h : a.Is (.fabric n s f)) : Reads a (Form.fabric n s f).parts := by
  obtain ⟨⟨hn, hs, hs', hf, hf'⟩, hc⟩ := h
  obtain ⟨he, hspecs⟩ := Address.endpoint_eq (n := n ++ colon :: s) hc hf
  have hnone := cutLast_eq_none.2 hf'
  refine ⟨⟨s, rfl, ?_⟩, by simp [Address.fabric, hspecs, hnone, Form.parts, named],
    by simp [Address.provider, hspecs, hnone, Form.parts]⟩
  rw [he]
  exact cutLast_eq_some.2 ⟨rfl, hs'⟩

theorem Address.Is.reads_provider (h : a.Is (.provider n s f v)) :
    Reads a (Form.provider n s f v).parts := by
  obtain ⟨⟨hn, hs, hs', hf, hv, hv'⟩, hc⟩ := h
  obtain ⟨he, hspecs⟩ :=
    Address.endpoint_eq (n := n ++ colon :: s) hc (not_mem_joined hf hv)
  have hcut : cutLast colon (f ++ colon :: v) = some (f, v) := cutLast_eq_some.2 ⟨rfl, hv'⟩
  refine ⟨⟨s, rfl, ?_⟩, by simp [Address.fabric, hspecs, hcut, Form.parts, named],
    by simp [Address.provider, hspecs, hcut, Form.parts]⟩
  rw [he]
  exact cutLast_eq_some.2 ⟨rfl, hs'⟩

theorem Address.IsAnyNode.not_accepted (h : a.IsAnyNode) : ¬ a.Accepted := by
  obtain ⟨f, ⟨hf, _⟩, hc⟩ := h
  obtain ⟨he, _⟩ := Address.endpoint_eq (n := [asterisk]) hc hf
  rw [Address.Accepted, he]
  decide

theorem Address.Is.reads {g : Form} (h : a.Is g) (ha : ¬ a.IsAnyNode) : Reads a g.parts := by
  cases g with
  | service n s => exact h.reads_service
  | fabric n s f => exact h.reads_fabric
  | provider n s f v => exact h.reads_provider
  | anyNode f => exact absurd ⟨f, h⟩ ha

/-- What is accepted is of one of the other forms, unless its node or its service holds an '@'. -/
theorem Address.exists_form_iff :
    (∃ g, a.Is g) ∧ ¬ a.IsAnyNode ↔ a.Accepted ∧ atSign ∉ a.endpoint := by
  constructor
  · rintro ⟨⟨g, hg⟩, hany⟩
    obtain ⟨s, hs, hcut⟩ := (hg.reads hany).endpoint
    obtain ⟨he, _⟩ := cutLast_eq_some.1 hcut
    rw [Address.Accepted, he]
    refine ⟨by simp, ?_⟩
    cases g with
    | anyNode f => exact absurd ⟨f, hg⟩ hany
    | service n s' | fabric n s' _ | provider n s' _ _ =>
      cases hs
      exact not_mem_joined hg.1.1 hg.1.2.1
  · rintro ⟨ha, hat⟩
    refine ⟨?_, fun hany => hany.not_accepted ha⟩
    obtain ⟨n, s, hcut⟩ : ∃ n s, cutLast colon a.endpoint = some (n, s) := by
      cases hc : cutLast colon a.endpoint with
      | none => exact absurd ha (cutLast_eq_none.1 hc)
      | some q => exact ⟨q.1, q.2, rfl⟩
    obtain ⟨he, hs⟩ := cutLast_eq_some.1 hcut
    rw [he, List.mem_append, List.mem_cons, not_or, not_or] at hat
    obtain ⟨hn, _, hs'⟩ := hat
    cases hcut' : cutLast atSign a.chars with
    | none =>
      have hc : a.endpoint = a.chars := by simp [Address.endpoint, hcut']
      exact ⟨.service n s, ⟨hn, hs', hs⟩, hc ▸ he⟩
    | some q =>
      obtain ⟨e, f⟩ := q
      obtain ⟨hc, hf⟩ := cutLast_eq_some.1 hcut'
      have hee : a.endpoint = e := by simp [Address.endpoint, hcut']
      rw [← hee, he] at hc
      cases hcut'' : cutLast colon f with
      | none => exact ⟨.fabric n s f, ⟨hn, hs', hs, hf, cutLast_eq_none.1 hcut''⟩, hc⟩
      | some q =>
        obtain ⟨f', v⟩ := q
        obtain ⟨rfl, hv⟩ := cutLast_eq_some.1 hcut''
        rw [List.mem_append, List.mem_cons, not_or, not_or] at hf
        exact ⟨.provider n s f' v, ⟨hn, hs', hs, hf.1, hf.2.2, hv⟩, hc⟩

end Reading

section Matching

variable {a : Address} {p : Parts} {addf : AddrFlags} {found : Found} {R R' : Resources} {q : Query}

theorem matchFabric_result {ret : Int} {fi : Option Nat}
    (h : matchFabric a addf found R = (ret, fi, R', some q)) :
    ret = found.result.1 ∧ fi = found.result.2 := by
  simp only [matchFabric] at h
  rw [Found.result]
  split at h
  · cases h
  · by_cases hr : found.ret ≠ 0
    · rw [if_pos hr] at h ⊢
      cases h
      exact ⟨rfl, rfl⟩
    · rw [if_neg hr] at h ⊢
      cases ha : found.ans with
      | none | some fi =>
        rw [ha] at h
        cases h
        exact ⟨rfl, rfl⟩

theorem Reads.taken_iff (h : Reads a p) : Taken a addf found R p ↔ (¬ a.Names → R.hints.Clean) := by
  obtain ⟨s, hs, hcut⟩ := h.endpoint
  have ha : a.Accepted := by
    obtain ⟨he, _⟩ := cutLast_eq_some.1 hcut
    simp [Address.Accepted, he]
  obtain ⟨ret, fi, R', q, hm, hq⟩ := matchFabric_accepted ha addf found R
  obtain ⟨rfl, rfl⟩ := matchFabric_result hm
  obtain ⟨n', s', hcut', hnode, hservice⟩ := hq.endpoint
  rw [hcut, Option.some.injEq, Prod.mk.injEq] at hcut'
  obtain ⟨rfl, rfl⟩ := hcut'
  have htaken : Taken a addf found R p ↔
      q.fabric = .ofOption a.fabric ∧ q.provider = .ofOption a.provider := by
    rw [h.fabric, h.provider]
    constructor
    · rintro ⟨R₁, q₁, hm₁, hp⟩
      rw [hm] at hm₁
      cases hm₁
      exact ⟨hp.fabric, hp.provider⟩
    · rintro ⟨hf, hv⟩
      exact ⟨R', q, hm, hnode, by rw [hservice, hs]; rfl, hf, hv⟩
  rw [htaken]
  by_cases hn : a.Names
  · obtain ⟨hf, hv, _⟩ := hq.named hn
    simp [hn, hf, hv]
  · obtain ⟨hf, hv⟩ := not_or.1 hn
    rw [not_not.1 hf, not_not.1 hv]
    simpa [hn, Given.ofOption] using (hq.unnamed hn).2.symm

/-- An address is dealt with as documented unless it is of the last form, or names no constraint
and is looked up with one that an earlier call has left. -/
theorem documented_iff (a : Address) (addf : AddrFlags) (found : Found) (R : Resources) :
    Documented a addf found R ↔
      ¬ a.IsAnyNode ∧ ((∃ g, a.Is g) → ¬ a.Names → R.hints.Clean) := by
  constructor
  · intro h
    have hany : ¬ a.IsAnyNode := by
      rintro ⟨f, hf⟩
      obtain ⟨R', q, hm, _⟩ := h.taken _ hf
      obtain ⟨heap, hm', _⟩ :=
        matchFabric_rejected (Address.IsAnyNode.not_accepted ⟨f, hf⟩) addf found R
      simp [hm'] at hm
    refine ⟨hany, ?_⟩
    rintro ⟨g, hg⟩
    exact (hg.reads hany).taken_iff.1 (h.taken g hg)
  · rintro ⟨hany, hc⟩
    refine ⟨?_, ?_⟩
    · intro g hg
      exact (hg.reads hany).taken_iff.2 (hc ⟨g, hg⟩)
    · intro ha _
      obtain ⟨heap, hm, _⟩ := matchFabric_rejected ha addf found R
      exact ⟨_, hm⟩

/-- The address "*@f" is refused, whatever it is opened for. -/
theorem any_node_refused :
    (Address.mk (['*', '@', 'f'].map Char.toUInt8) (by decide)).IsAnyNode ∧
    ¬ ∀ a addf found R, Documented a addf found R := by
  have hany : (Address.mk (['*', '@', 'f'].map Char.toUInt8) (by decide)).IsAnyNode :=
    ⟨['f'.toUInt8], by decide, rfl⟩
  refine ⟨hany, ?_⟩
  intro h
  obtain ⟨R', q, hm, _⟩ := (h ⟨['*', '@', 'f'].map Char.toUInt8, by decide⟩ .addrRemote
    ⟨0, some 0⟩ (fresh .zeroed)).taken (.anyNode ['f'.toUInt8]) ⟨by decide, rfl⟩
  have hq : (matchFabric ⟨['*', '@', 'f'].map Char.toUInt8, by decide⟩ .addrRemote ⟨0, some 0⟩
      (fresh .zeroed)).2.2.2 = none := by decide
  rw [hm] at hq
  cases hq

end Matching

end OfiTransport.Fabric
