import OfiTransport.Sofi.Resources
import OfiTransport.Sofi.Wire

/-! The memory of the messages: it is allocated, sent and freed, and the registrations that the
manager keeps for it are not told. -/

namespace OfiTransport

open Lib

namespace Egress

variable {e e' : Egress} {p : Post} {m : Msg} {c : Nat}

def headers (m : Msg) : List Region := if m.sphdr.len = 0 then [] else [m.sphdr]

theorem iovs_eq (m : Msg) : iovs m = headers m ++ [m.body] := by
  simp only [iovs, headers]
  split <;> rfl

theorem headers_length (m : Msg) : (headers m).length < 16 := by
  simp only [headers]
  split <;> simp

theorem freeContext_refills (e : Egress) (c : Nat) : Mr.Refills e.mrm (e.freeContext c).mrm := by
  simp only [freeContext]
  split
  · exact .refl _
  · exact Mr.release_refills _ _

theorem handleError_refills (h : e.handleError c = .ok e') : Mr.Refills e.mrm e'.mrm := by
  obtain ⟨r, rfl⟩ := handleError_inv h
  exact freeContext_refills e c

theorem handle_refills {n : Bool} (h : e.handle c = .ok (n, e')) : Mr.Refills e.mrm e'.mrm := by
  obtain ⟨_, r, k, rfl⟩ := handle_inv h
  exact freeContext_refills e c

theorem postBuffers_refills (h : e.postBuffers p m = .ok (0, e')) : Mr.Refills e.mrm e'.mrm := by
  obtain ⟨_, _, hm, _⟩ := postBuffers_handle h
  rw [hm]
  exact Mr.describe_refills (postBuffers_wire h).1

end Egress

namespace Sofi

variable {s s' : Sofi} {e : Event}

theorem Moves.refills (h : Moves s e s') (hs : s'.state ≠ .closing) :
    Mr.Refills s.egress.mrm s'.egress.mrm := by
  have same : s'.egress = s.egress → Mr.Refills s.egress.mrm s'.egress.mrm := by
    intro ho
    rw [ho]
    exact .refl _
  cases h with
  | stay he hk hi ho =>
    obtain ⟨w, ho⟩ := ho
    rw [ho]
    exact .refl _
  | close hc => exact absurd hc.state hs
  | sent ho hst hk hi hpb hout =>
    have hr := Egress.postBuffers_refills hpb
    rw [hout]
    exact hr
  | sendFailed hc => exact absurd hc.state hs
  | connected hst hfsm hst' herr hout _ hra hi ho =>
    rcases ho with ⟨_, ho⟩ | ⟨eg, hpb, ho⟩
    · exact same ho
    · have hr := Egress.postBuffers_refills hpb
      rw [ho]
      exact hr
  | connectFailed hc => exact absurd hc.state hs
  | txCompleted he hk hi hh =>
    have hr := Egress.handle_refills hh
    exact hr
  | txFailed hc => exact absurd hc.state hs
  | txErrored hf he hk hi hh =>
    have hr := Egress.handleError_refills hh
    exact hr
  | txDiscarded hev hf he hk hi ho =>
    rw [ho]
    exact .refl _
  | rxCompleted hst hk ho hi => exact same ho
  | rxDrained hst hk ho hi => exact same ho
  | rxFailed hc => exact absurd hc.state hs
  | rxErrored hst hk ho hi => exact same ho
  | fetched hk ho hi => exact same ho
  | freed hk ho hi => exact same ho

theorem Moves.not_closing (h : Moves s e s') (hs : s'.state ≠ .closing) : s.state ≠ .closing := by
  have keeps : KeepsControl s s' → s.state ≠ .closing := fun hk => hk.state ▸ hs
  cases h with
  | stay he hk hi ho => exact keeps hk
  | close hc => exact absurd hc.state hs
  | sent ho hst hk hi hpb hout => exact hst
  | sendFailed hc => exact absurd hc.state hs
  | connected hst => simp [hst]
  | connectFailed hc => exact absurd hc.state hs
  | txCompleted he hk => exact keeps hk
  | txFailed hc => exact absurd hc.state hs
  | txErrored hf he hk => exact keeps hk
  | txDiscarded hev hf he hk => exact keeps hk
  | rxCompleted hst hk => exact keeps hk
  | rxDrained hst hk => exact keeps hk
  | rxFailed hc => exact absurd hc.state hs
  | rxErrored hst hk => exact keeps hk
  | fetched hk => exact keeps hk
  | freed hk => exact keeps hk

def describes (s : Sofi) : Event → Option (Msg × Post)
  | .send m p =>
    if s.outActive ∧ s.state ≠ .closing ∧ s.egress.getContext ≠ .ok none then some (m, p)
    else none
  | .eq type r p =>
    if type = FI_CONNECTED ∧ s.state = .connecting ∧ (s.ingress.post r).1 = 0 ∧ s.staged ∧
      s.egress.getContext ≠ .ok none then some (s.outmsg, p) else none
  | _ => none

/-- The message that is staged, and for each context the last one that it was used for. -/
def unsent (s : Sofi) : List Msg :=
  (if s.staged ∧ s.state ≠ .closing then [s.outmsg] else []) ++
    (List.range s.egress.max).map s.egress.msg

end Sofi

structure Block where
  region : Region
  born : Nat
  deriving DecidableEq

structure Process where
  sofi : Sofi
  blocks : List Block

namespace Process

def mrm (p : Process) : Mr.Manager := p.sofi.egress.mrm

inductive Event
  | alloc (v : Region)
  | free (b : Block)
  | sofi (e : Sofi.Event)

/-- What is allocated is apart from what is in use.  A message to be sent lies in allocated
memory, which is not freed before the message has been sent. -/
def enabled (p : Process) : Event → Bool
  | .alloc v => ∀ b ∈ p.blocks, v.Apart b.region
  | .free b => b ∈ p.blocks ∧ ∀ m ∈ p.sofi.unsent, ∀ v ∈ Egress.iovs m, v.Apart b.region
  | .sofi (.send m q) => p.sofi.enabled (.send m q) ∧
    ∀ v ∈ Egress.iovs m, v.len ≠ 0 → ∃ b ∈ p.blocks, b.region.Covers v
  | .sofi e => p.sofi.enabled e

def step (p : Process) : Event → M Process
  | .alloc v => .ok { p with blocks := ⟨v, p.mrm.domain.nextMr⟩ :: p.blocks }
  | .free b => .ok { p with blocks := p.blocks.erase b }
  | .sofi e => do return { p with sofi := ← p.sofi.step e }

def machine : Machine Process Event Fault where
  init p := Sofi.machine.init p.sofi ∧ (∀ b ∈ p.blocks, b.born ≤ p.mrm.domain.nextMr) ∧
    p.blocks.Pairwise (fun b b' => b.region.Apart b'.region)
  enabled := enabled
  step := step

structure Serves (p : Process) (e : Event) (m : Msg) (q : Post) (b : Block) : Prop where
  event : ∃ f, e = .sofi f ∧ p.sofi.describes f = some (m, q)
  large : p.mrm.attr.slabSize < m.body.len
  block : b ∈ p.blocks
  lies : b.region.Covers m.body

/-- The registration that is returned for a large body was made after its block was allocated. -/
def Fresh (p : Process) (e : Event) : Prop :=
  ∀ m q b, Serves p e m q b → ∀ c, (Mr.describe q.answers p.mrm (Egress.iovs m)).handle = some c →
    ∃ id, c.descriptors.getLast? = some (some id) ∧ b.born ≤ id

/-- When a large body is looked up, the first bank whose range covers it, if there is one, got
its registration after the block of the body was allocated. -/
def Hits (p : Process) (e : Event) : Prop :=
  ∀ m q b, Serves p e m q b →
    (Mr.describeFrom q.answers 0 (Egress.headers m) (.start p.mrm)).1 = 0 →
    ∀ i, Mr.lookup (p.mrm.upTo q.answers (Egress.headers m)) m.body = .hit i →
      ∃ id, ((p.mrm.upTo q.answers (Egress.headers m)).banks i).mr = some id ∧ b.born ≤ id

/-- No bank has a range in memory that is being allocated. -/
def Cold (p : Process) : Event → Prop
  | .alloc v => ∀ i < p.mrm.attr.bankCount, (p.mrm.banks i).region.Apart v
  | _ => True

section Runs

variable {p p' : Process} {e : Event} {h : List (Process × Event)}

theorem step_sofi {e : Sofi.Event} :
    step p (.sofi e) = .ok p' ↔ ∃ s, p.sofi.step e = .ok s ∧ { p with sofi := s } = p' := by
  simp only [step, bind_eq_ok, pure_eq_ok]

theorem enabled_sofi {e : Sofi.Event} (he : enabled p (.sofi e) = true) :
    p.sofi.enabled e = true := by
  cases e with
  | send m q =>
    simp only [enabled, decide_eq_true_eq] at he
    exact he.1
  | _ => exact he

structure Dated (p : Process) : Prop where
  phase : Sofi.Phase p.sofi
  born : ∀ b ∈ p.blocks, b.born ≤ p.mrm.domain.nextMr

theorem init_dated (hi : machine.init p) : Dated p := by
  obtain ⟨u, _, _, hu⟩ := Sofi.machine_init hi.1
  exact ⟨hu ▸ u.started_phase, hi.2.1⟩

theorem step_dated (hd : Dated p) (he : enabled p e = true) (hs : step p e = .ok p') :
    Dated p' := by
  cases e with
  | alloc v =>
    cases hs
    refine ⟨hd.phase, ?_⟩
    rintro b (_ | ⟨_, hb⟩)
    · exact Nat.le_refl _
    · exact hd.born b hb
  | free b =>
    cases hs
    exact ⟨hd.phase, fun b' hb => hd.born b' (List.mem_of_mem_erase hb)⟩
  | sofi e =>
    obtain ⟨s, hstep, rfl⟩ := step_sofi.1 hs
    have hm := Sofi.step_moves hd.phase (enabled_sofi he) hstep
    exact ⟨hm.phase hd.phase, fun b hb => Nat.le_trans (hd.born b hb) hm.worked.grows.next⟩

def Warm (p : Process) : Prop :=
  p.sofi.state ≠ .closing → ∀ i < p.mrm.attr.bankCount, ∀ b ∈ p.blocks,
    ¬ (p.mrm.banks i).region.Apart b.region → ∃ id, (p.mrm.banks i).mr = some id ∧ b.born ≤ id

theorem init_warm (hi : machine.init p) : Warm p := by
  obtain ⟨u, _, _, hu⟩ := Sofi.machine_init hi.1
  have hr : ∀ i, (p.mrm.banks i).region = ⟨0, 0⟩ := by
    intro i
    simp only [mrm, hu, Sofi.Setup.started, Sofi.Setup.sofi, Mr.init]
    split
    · rfl
    · split <;> rfl
  intro _ i _ b _ hn
  refine absurd (.inl ?_) hn
  rw [hr]
  exact Nat.zero_le _

theorem step_warm (hd : Dated p) (hw : Warm p) (hc : Cold p e) (he : enabled p e = true)
    (hs : step p e = .ok p') : Warm p' := by
  cases e with
  | alloc v =>
    cases hs
    rintro hst i hi b (_ | ⟨_, hb⟩) hn
    · exact absurd (hc i hi) hn
    · exact hw hst i hi b hb hn
  | free b =>
    cases hs
    exact fun hst i hi b' hb hn => hw hst i hi b' (List.mem_of_mem_erase hb) hn
  | sofi e =>
    obtain ⟨s, hstep, rfl⟩ := step_sofi.1 hs
    have hm := Sofi.step_moves hd.phase (enabled_sofi he) hstep
    intro hst i hi b hb hn
    have ha : s.egress.mrm.attr = p.mrm.attr := hm.worked.grows.attr
    have hi : i < p.mrm.attr.bankCount := by rwa [← ha]
    refine (hm.refills hst).younger (hd.born b hb) ?_
    intro hr
    exact hw (hm.not_closing hst) i hi b hb (hr ▸ hn)

theorem Serves.not_closing {m : Msg} {q : Post} {b : Block} (h : Serves p e m q b) :
    p.sofi.state ≠ .closing := by
  obtain ⟨f, _, hf⟩ := h.event
  cases f with
  | send m' q' =>
    simp only [Sofi.describes] at hf
    split at hf
    · next hc => exact hc.2.1
    · cases hf
  | eq type r q' =>
    simp only [Sofi.describes] at hf
    split at hf
    · next hc => simp [hc.2.1]
    · cases hf
  | _ => cases hf

theorem fresh_step_iff (hd : Dated p) : Fresh p e ↔ Hits p e := by
  simp only [Fresh, Hits]
  refine forall_congr' fun m => forall_congr' fun q => forall_congr' fun b => ?_
  refine forall_congr' fun hv => ?_
  rw [Egress.iovs_eq]
  exact Mr.describe_large_iff (Egress.headers_length m) hv.large (hd.born b hv.block)

theorem Warm.hits (hd : Dated p) (hw : Warm p) : Hits p e := by
  intro m q b hv hz i hi
  obtain ⟨hlt, hcov⟩ := Mr.lookup_hit hi
  have hr : Mr.Refills p.mrm (p.mrm.upTo q.answers (Egress.headers m)) :=
    Mr.describeFrom_refills hz
  rw [(Mr.upTo_grows ..).attr] at hlt
  refine hr.younger (hd.born b hv.block) ?_
  intro hsame
  refine hw hv.not_closing i hlt b hv.block ?_
  rw [← hsame]
  have hl := hv.large
  have hb := hv.lies
  simp only [Region.Apart, Region.Covers, Region.stop] at *
  omega

theorem run_dated (r : machine.Run h p) : ∀ x ∈ h, Dated x.1 :=
  (r.always_of_guarded (P := Dated) (C := fun _ _ => True) (fun _ => init_dated)
    (fun _ _ _ hd _ he hs => step_dated hd he hs) (fun _ _ => trivial)).2

theorem run_warm (r : machine.Run h p) (hc : Machine.Guarded Cold h) : ∀ x ∈ h, Warm x.1 := by
  have ha : Machine.Always (fun p => Dated p ∧ Warm p) h p := by
    refine r.always_of_guarded ?_ ?_ hc
    · exact fun p hi => ⟨init_dated hi, init_warm hi⟩
    · exact fun p e p' hp hc he hs =>
        ⟨step_dated hp.1 he hs, step_warm hp.1 hp.2 hc he hs⟩
  exact fun x hx => (ha.2 x hx).2

end Runs

/-- In any run every registration returned for a large body is younger than the memory of the
body exactly when every lookup that is a hit for one finds a bank that was registered since.
It is so in particular when no memory is allocated over the range of a bank. -/
theorem fresh_iff_hits {h : List (Process × Event)} {p : Process} (r : machine.Run h p) :
    (Machine.Guarded Fresh h ↔ Machine.Guarded Hits h) ∧
      (Machine.Guarded Cold h → Machine.Guarded Fresh h) := by
  have hd := run_dated r
  refine ⟨forall_congr' fun x => forall_congr' fun hx => fresh_step_iff (hd x hx), ?_⟩
  intro hc x hx
  exact (fresh_step_iff (hd x hx)).2 ((run_warm r hc x hx).hits (hd x hx))

def bulk : Msg := ⟨⟨0, 0⟩, ⟨0x20000, 5000⟩⟩

def start : Process := ⟨Sofi.fresh, []⟩

theorem start_init : machine.init start := ⟨Sofi.fresh_init, by simp [start], .nil⟩

def first : List Event :=
  [.sofi (.eq Sofi.FI_CONNECTED 0 .easy), .alloc bulk.body, .sofi (.send bulk .easy)]

def again : List Event := first ++ [.sofi (.txCompleted 0), .free ⟨bulk.body, 1⟩, .alloc bulk.body]

theorem first_fresh : ∃ h p, machine.Run h p ∧ Machine.Guarded Fresh h ∧ h.length = 3 ∧
    p.mrm.domain.nextMr = 2 := by
  have r : machine.Run [(⟨Sofi.online, [⟨bulk.body, 1⟩]⟩, .sofi (.send bulk .easy)),
      (⟨Sofi.online, []⟩, .alloc bulk.body), (start, .sofi (.eq Sofi.FI_CONNECTED 0 .easy))] _ :=
    .step (.step (.step (.init start_init) rfl rfl) rfl rfl) rfl rfl
  have hcold : ∀ i < (Sofi.online.egress.mrm).attr.bankCount,
      (Sofi.online.egress.mrm.banks i).region.Apart bulk.body := by decide
  refine ⟨_, _, r, (fresh_iff_hits r).2 ?_, rfl, rfl⟩
  simp only [Machine.guarded_cons, Machine.guarded_nil, and_true]
  exact ⟨trivial, hcold, trivial⟩

def Reuses (p : Process) : Prop :=
  p.enabled (.sofi (.send bulk .easy)) = true ∧ (p.step (.sofi (.send bulk .easy))).isOk = true ∧
    p.sofi.outActive = true ∧ p.sofi.state ≠ .closing ∧ p.sofi.egress.getContext ≠ .ok none ∧
    p.mrm.attr.slabSize < bulk.body.len ∧ ⟨bulk.body, 2⟩ ∈ p.blocks ∧
    (Mr.describe Post.easy.answers p.mrm (Egress.iovs bulk)).handle = some ⟨[some 1], [0], []⟩

instance (p : Process) : Decidable (Reuses p) := inferInstanceAs (Decidable (_ ∧ _))

/-- The second message at the same place is sent with the registration of the first. -/
theorem registration_reused : ¬ ∀ h p, machine.Run h p → Machine.Guarded Fresh h := by
  intro hall
  obtain ⟨p, ⟨h, r⟩, hp⟩ := Machine.exists_reachable again (fun p => decide (Reuses p)) start_init
    (by decide)
  obtain ⟨he, hs, ho, hst, hg, hl, hb, hd⟩ := of_decide_eq_true hp
  cases hn : p.step (.sofi (.send bulk .easy)) with
  | error f => simp [hn, Except.isOk, Except.toBool] at hs
  | ok p' =>
    have hserves : Serves p (.sofi (.send bulk .easy)) bulk .easy ⟨bulk.body, 2⟩ :=
      ⟨⟨_, rfl, by rw [Sofi.describes, if_pos ⟨ho, hst, hg⟩]⟩, hl, hb, Region.covers_self _⟩
    have r' : machine.Run ((p, .sofi (.send bulk .easy)) :: h) p' := .step r he hn
    obtain ⟨id, hid, hle⟩ := hall _ _ r' _ List.mem_cons_self _ _ _ hserves _ hd
    cases hid
    exact absurd hle (by decide)

end Process

end OfiTransport
