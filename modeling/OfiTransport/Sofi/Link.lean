import OfiTransport.Lib.Fifo
import OfiTransport.Sofi.Stale
import OfiTransport.Sofi.Stream

/-! Two SOFIs connected by the fabric, which delivers the packets of one to the other in order,
and their users, who write to the memory of their messages. -/

namespace OfiTransport

open Lib

namespace Sofi

variable {s : Sofi} {μ : Memory}

def withMem (s : Sofi) (μ : Memory) : Sofi := { s with egress := s.egress.withMem μ }

def Untouched (s : Sofi) (μ : Memory) : Prop :=
  (∀ m ∈ s.unsent, (s.egress.withMem μ).text m = s.egress.text m) ∧
    μ.read s.egress.mrm.slabBlock = s.egress.mrm.domain.mem.read s.egress.mrm.slabBlock

instance (s : Sofi) (μ : Memory) : Decidable (s.Untouched μ) := inferInstanceAs (Decidable (_ ∧ _))

theorem Flowing.withMem (h : Flowing s) (μ : Memory) : Flowing (s.withMem μ) where
  steady := by
    obtain ⟨fl, bl, hs⟩ := h.steady.sending
    exact ⟨h.steady.phase.congr rfl rfl rfl rfl,
      ⟨fl, bl, hs.holds.congr rfl rfl rfl, hs.small, hs.connecting, hs.credit, hs.txOut⟩,
      h.steady.idle⟩
  ingress := by
    obtain ⟨F, B, Q, hr, hd⟩ := h.ingress
    exact ⟨F, B, Q, ⟨hr.running, hr.closing, hr.connecting⟩, hd⟩
  placed := h.placed
  clear := h.clear

theorem Untouched.waiting (h : Untouched s μ) : (s.withMem μ).waiting = s.waiting := by
  have hs : (s.withMem μ).staging = s.staging := rfl
  rw [Sofi.waiting, hs, Sofi.waiting]
  congr 1
  apply List.map_congr_left
  intro m hm
  refine h.1 m ?_
  simp only [Option.mem_toList, staging] at hm
  split at hm
  · next hc =>
    cases hm
    simp [unsent, hc]
  · cases hm

end Sofi

/-- The two ends, and how many packets of its peer each of them has got. -/
structure Link where
  sofi : Side → Sofi
  got : Side → Nat

namespace Link

open Sofi

inductive Event
  | sofi (x : Side) (e : Sofi.Event)
  | write (x : Side) (μ : Memory)

def flight (l : Link) (x : Side) : List (List UInt8) := (l.sofi x).flight (l.got x.other)

/-- The packets arrive in order and unaltered.  The user does not write to a message before its
context is used for another one, nor ever to the slabs.  Everything else may happen at any time,
errors included. -/
def enabled (l : Link) : Event → Bool
  | .sofi x (.rxCompleted b bytes late r) =>
    (l.sofi x).enabled (.rxCompleted b bytes late r) ∧ (l.flight x.other).head? = some bytes
  | .sofi x e => (l.sofi x).enabled e ∧ e.Clear (l.sofi x)
  | .write x μ => (l.sofi x).Untouched μ

def Event.arrives : Sofi.Event → Nat
  | .rxCompleted .. => 1
  | _ => 0

def advance (l : Link) (x : Side) (e : Sofi.Event) (s : Sofi) : Link where
  sofi := Function.update l.sofi x s
  got := Function.update l.got x (l.got x + Event.arrives e)

def step (l : Link) : Event → M Link
  | .sofi x e => do return l.advance x e (← (l.sofi x).step e)
  | .write x μ => .ok { l with sofi := Function.update l.sofi x ((l.sofi x).withMem μ) }

def machine : Machine Link Event Fault where
  init l := (∀ x, Sofi.machine.init (l.sofi x)) ∧ ∀ x, l.got x = 0
  enabled := enabled
  step := step

/-- What nanomsg gives `x` to send, less what the peer takes for a keepalive. -/
def offered (x : Side) (l : Link) : Event → List (List UInt8)
  | .sofi y e => if y = x then (l.sofi y).offered e else []
  | .write .. => []

def delivered (x : Side) (l : Link) : Event → List (List UInt8)
  | .sofi y e => if y = x then (l.sofi y).delivered e else []
  | .write .. => []

/-- What is on its way from `x` to the nanomsg of its peer: in the queue there, on the wire and
waiting for the connection. -/
def transit (x : Side) (l : Link) : List (List UInt8) :=
  (l.sofi x.other).ingress.queued ++
    if (l.sofi x.other).state = .closing then [] else data (l.flight x) ++ (l.sofi x).waiting

/-- The way from the nanomsg of `x` to that of its peer, which is cut by either of them. -/
def channel (x : Side) : Machine.Channel machine (List UInt8) where
  input := offered x
  output := delivered x.other
  pending := transit x
  whole l := ∀ y, (l.sofi y).state ≠ .closing

structure Sound (l : Link) : Prop where
  flowing : ∀ x, Flowing (l.sofi x)
  got : ∀ x, l.got x.other ≤ (l.sofi x).egress.wire.length

variable {l l' : Link} {x y : Side} {e : Sofi.Event} {s : Sofi}

@[simp] theorem advance_sofi_self : (l.advance x e s).sofi x = s := by simp [advance]

@[simp] theorem advance_sofi_other : (l.advance x e s).sofi x.other = l.sofi x.other := by
  simp [advance]

@[simp] theorem advance_got_self : (l.advance x e s).got x = l.got x + Event.arrives e := by
  simp [advance]

@[simp] theorem advance_got_other : (l.advance x e s).got x.other = l.got x.other := by
  simp [advance]

theorem enabled_sofi (h : l.enabled (.sofi x e) = true) :
    (l.sofi x).enabled e = true ∧ e.Clear (l.sofi x) := by
  cases e with
  | rxCompleted b bytes late r =>
    simp only [enabled, decide_eq_true_eq] at h
    exact ⟨h.1, trivial⟩
  | _ => simpa only [enabled, decide_eq_true_eq] using h

theorem step_sofi : l.step (.sofi x e) = .ok l' ↔
    ∃ s, (l.sofi x).step e = .ok s ∧ l.advance x e s = l' := by
  simp only [step, bind_eq_ok, pure_eq_ok]

theorem Sound.flight_sender {ws : List (List UInt8)} (h : Sound l)
    (he : Emits (l.sofi x) e s ws) : (l.advance x e s).flight x = l.flight x ++ ws := by
  have hg := h.got x
  rw [flight, advance_sofi_self, advance_got_other, Sofi.flight, he.wire, List.reverse_append,
    List.reverse_reverse, List.drop_append_of_le_length (by simpa using hg)]
  rfl

theorem arrives_le (h : l.enabled (.sofi x e) = true) :
    Event.arrives e ≤ (l.flight x.other).length := by
  cases e with
  | rxCompleted b bytes late r =>
    simp only [enabled, decide_eq_true_eq] at h
    obtain ⟨ws, hws⟩ := List.head?_eq_some_iff.1 h.2
    simp [hws, Event.arrives]
  | _ => exact Nat.zero_le _

theorem flight_receiver :
    (l.advance x e s).flight x.other = (l.flight x.other).drop (Event.arrives e) := by
  have ho : (l.advance x e s).sofi x.other = l.sofi x.other := advance_sofi_other
  rw [flight, ho, flight, Side.other_other, advance_got_self, Sofi.flight, Sofi.flight,
    List.drop_drop]

theorem accepted_receiver (h : l.enabled (.sofi x e) = true) (hp : Phase (l.sofi x))
    (hs : (l.sofi x).step e = .ok s) (hst : s.state ≠ .closing) :
    accepted (l.sofi x) e ++ data ((l.advance x e s).flight x.other) = data (l.flight x.other) := by
  rw [flight_receiver]
  cases e with
  | rxCompleted b bytes late r =>
    have hact : (l.sofi x).state = .active := by
      cases step_moves hp (enabled_sofi h).1 hs with
      | stay hpas => exact hpas.elim
      | close _ _ _ he => rcases he with he | ⟨he, _⟩ <;> cases he
      | txDiscarded hev => rcases hev with he | ⟨_, he⟩ <;> cases he
      | rxCompleted hact => exact hact
      | rxDrained hcl hk => exact absurd (hk.state.trans hcl) hst
    simp only [enabled, decide_eq_true_eq] at h
    obtain ⟨ws, hws⟩ := List.head?_eq_some_iff.1 h.2
    simp [hws, Event.arrives, accepted, hact, ← data_append]
  | _ => rfl

theorem Sound.step_sofi (h : Sound l) (he : l.enabled (.sofi x e) = true)
    (hs : (l.sofi x).step e = .ok s) : Sound (l.advance x e s) := by
  obtain ⟨hen, hc⟩ := enabled_sofi he
  have hf := (h.flowing x).step hc hen hs
  obtain ⟨ws, hw⟩ := step_emits (h.flowing x) hf.steady hc hen hs
  constructor
  · intro y
    rcases y.eq_or_eq_other x with rfl | rfl
    · simpa using hf
    · simpa using h.flowing _
  · intro y
    rcases y.eq_or_eq_other x with rfl | rfl
    · have hg := h.got y
      rw [advance_got_other, advance_sofi_self, hw.wire, List.length_append]
      omega
    · have hg := h.got x.other
      have ha := arrives_le he
      simp only [flight, Sofi.flight, Side.other_other, List.length_drop,
        List.length_reverse] at ha hg
      rw [Side.other_other, advance_got_self, advance_sofi_other]
      omega

theorem Sound.write (h : Sound l) (x : Side) (μ : Memory) :
    Sound { l with sofi := Function.update l.sofi x ((l.sofi x).withMem μ) } := by
  constructor
  · intro y
    rcases y.eq_or_eq_other x with rfl | rfl
    · simpa using (h.flowing y).withMem μ
    · simpa using h.flowing _
  · intro y
    rcases y.eq_or_eq_other x with rfl | rfl
    · simpa [Sofi.withMem, Egress.withMem] using h.got y
    · simpa using h.got x.other

theorem init_sound (h : machine.init l) : Sound l :=
  ⟨fun x => machine_flowing (h.1 x), fun x => by simp [h.2]⟩

theorem step_sound {e : Event} (h : Sound l) (he : l.enabled e = true) (hs : l.step e = .ok l') :
    Sound l' := by
  cases e with
  | sofi x e =>
    obtain ⟨s, hstep, rfl⟩ := Link.step_sofi.1 hs
    exact h.step_sofi he hstep
  | write x μ =>
    cases hs
    exact h.write x μ

theorem Sound.sends (h : Sound l) (he : l.enabled (.sofi x e) = true)
    (hs : (l.sofi x).step e = .ok s) :
    (s.state = .closing ∨ (l.sofi x.other).state = .closing →
      transit x (l.advance x e s) <+: transit x l) ∧
    (s.state ≠ .closing → (l.sofi x.other).state ≠ .closing →
      transit x (l.advance x e s) = transit x l ++ (l.sofi x).offered e) := by
  obtain ⟨hen, hc⟩ := enabled_sofi he
  have hf := (h.flowing x).step hc hen hs
  obtain ⟨ws, hw⟩ := step_emits (h.flowing x) hf.steady hc hen hs
  simp only [transit, advance_sofi_other, advance_sofi_self, h.flight_sender hw]
  by_cases hy : (l.sofi x.other).state = .closing
  · simp [hy]
  · simp only [hy, if_false, or_false]
    constructor
    · intro hst
      rw [hw.closing hst, hf.steady.waiting (by simp [hst]), List.append_nil, List.append_nil,
        List.prefix_append_right_inj]
      exact List.prefix_append ..
    · intro hst _
      rw [data_append, List.append_assoc, hw.kept hst, List.append_assoc, List.append_assoc]

theorem Sound.receives (h : Sound l) (he : l.enabled (.sofi x e) = true)
    (hs : (l.sofi x).step e = .ok s) :
    (s.state = .closing →
      (l.sofi x).delivered e ++ transit x.other (l.advance x e s) <+: transit x.other l) ∧
    (s.state ≠ .closing → (l.sofi x).state ≠ .closing ∧
      (l.sofi x).delivered e ++ transit x.other (l.advance x e s) = transit x.other l) := by
  obtain ⟨hen, hc⟩ := enabled_sofi he
  have ht := step_takes (h.flowing x) hen hs
  have hp := (h.flowing x).steady.phase
  simp only [transit, Side.other_other, advance_sofi_other, advance_sofi_self]
  constructor
  · intro hst
    simp only [hst, if_true, List.append_nil]
    exact (ht.closing hst).trans (List.prefix_append ..)
  · intro hst
    have hst₀ := (step_moves hp hen hs).not_closing hst
    refine ⟨hst₀, ?_⟩
    simp only [hst, hst₀, if_false]
    rw [← accepted_receiver he hp hs hst, ← List.append_assoc, ht.kept hst, List.append_assoc,
      List.append_assoc]

theorem transit_write {μ : Memory} (h : l.enabled (.write y μ) = true) (x : Side) :
    transit x { l with sofi := Function.update l.sofi y ((l.sofi y).withMem μ) } =
      transit x l := by
  simp only [enabled, decide_eq_true_eq] at h
  have hw := h.waiting
  rcases y.eq_or_eq_other x with rfl | rfl
  · simp only [transit, flight, Function.update_self, ne_eq, Side.other_ne, not_false_eq_true,
      Function.update_of_ne, hw]
    rfl
  · simp only [transit, flight, Function.update_self, ne_eq, Side.ne_other, not_false_eq_true,
      Function.update_of_ne]
    rfl

theorem init_transit (h : machine.init l) (x : Side) : transit x l = [] := by
  obtain ⟨u, _, _, hu⟩ := machine_init (h.1 x)
  obtain ⟨v, hv, _, hw⟩ := machine_init (h.1 x.other)
  have hq : (l.sofi x.other).ingress.queued = [] := by
    rw [hw, Ingress.queued_eq (Setup.started_receiving hv).lists.choose_spec]
    rfl
  have hf : l.flight x = [] := by
    rw [flight, hu]
    exact flight_eq_nil.2 (Nat.zero_le _)
  rw [transit, hq, hf, waiting_of_staging (staging_unstaged (by rw [hu]; rfl))]
  simp

theorem whole_iff (x : Side) :
    (channel x).whole l ↔ (l.sofi x).state ≠ .closing ∧ (l.sofi x.other).state ≠ .closing := by
  constructor
  · exact fun h => ⟨h x, h x.other⟩
  · rintro ⟨hx, hy⟩ y
    rcases y.eq_or_eq_other x with rfl | rfl
    · exact hx
    · exact hy

theorem whole_write {μ : Memory} (x y : Side) :
    (channel x).whole { l with sofi := Function.update l.sofi y ((l.sofi y).withMem μ) } ↔
      (channel x).whole l := by
  refine forall_congr' fun z => ?_
  rcases z.eq_or_eq_other y with rfl | rfl <;> simp [withMem]

theorem step_transit {x : Side} {e : Event} (h : Sound l) (he : l.enabled e = true)
    (hs : l.step e = .ok l') :
    ((channel x).whole l' → (channel x).whole l ∧
      delivered x.other l e ++ transit x l' = transit x l ++ offered x l e) ∧
    (¬ (channel x).whole l' → delivered x.other l e ++ transit x l' <+: transit x l) := by
  cases e with
  | write y μ =>
    cases hs
    rw [whole_write, transit_write he]
    simp [delivered, offered]
  | sofi y e =>
    obtain ⟨s, hstep, rfl⟩ := step_sofi.1 hs
    rw [whole_iff, whole_iff]
    rcases y.eq_or_eq_other x with rfl | rfl
    · obtain ⟨hcut, hkept⟩ := h.sends he hstep
      obtain ⟨hen, _⟩ := enabled_sofi he
      simp only [advance_sofi_self, advance_sofi_other, delivered, offered, if_true,
        Side.ne_other, if_false, List.nil_append]
      refine ⟨?_, fun hw => hcut ?_⟩
      · rintro ⟨hx, hy⟩
        have hx' := (step_moves (h.flowing y).steady.phase hen hstep).not_closing hx
        exact ⟨⟨hx', hy⟩, hkept hx hy⟩
      · rwa [not_and_or, not_not, not_not] at hw
    · obtain ⟨hcut, hkept⟩ := h.receives he hstep
      have hx : (l.advance x.other e s).sofi x = l.sofi x := by simp [advance]
      rw [Side.other_other] at hcut hkept
      simp only [advance_sofi_self, hx, delivered, offered, if_true, Side.other_ne, if_false,
        List.append_nil]
      refine ⟨?_, fun hw => ?_⟩
      · rintro ⟨hx, hy⟩
        exact ⟨⟨hx, (hkept hy).1⟩, (hkept hy).2⟩
      · by_cases hy : s.state = .closing
        · exact hcut hy
        · simp only [(hkept hy).2, List.prefix_rfl]

theorem channel_ordered (x : Side) : (channel x).Ordered Sound where
  init _ hi := ⟨init_sound hi, init_transit hi x⟩
  invariant _ _ _ h he hs := step_sound h he hs
  whole _ _ _ h he hs := (step_transit h he hs).1
  cut _ _ _ h he hs := (step_transit h he hs).2

/-- What nanomsg reads at one end is the beginning of what it was given to send at the other, in
the same order, each message once and unaltered, whatever errors occur, and apart from messages
that equal a keepalive packet.  As long as neither end closes nothing is lost either: the rest is
on its way. -/
theorem reads_what_was_sent {h : List (Link × Event)} (r : machine.Run h l) (x : Side) :
    Machine.collect (delivered x.other) h ++ transit x l <+: Machine.collect (offered x) h ∧
      ((∀ y, (l.sofi y).state ≠ .closing) →
        Machine.collect (delivered x.other) h ++ transit x l =
          Machine.collect (offered x) h) :=
  (channel_ordered x).run r

def idle : Link := ⟨fun _ => (Setup.easy ⟨2, 2, 8⟩).started, fun _ => 0⟩

theorem idle_init : machine.init idle :=
  ⟨fun _ => Setup.started_init (by decide) (by decide) (by decide), fun _ => rfl⟩

def hello : Msg := ⟨⟨0x20000, 4⟩, ⟨0x20100, 1⟩⟩

def sevens : Memory := fun a => if a < 0x20000 then 0 else 7

theorem hello_read : ∃ (h : List (Link × Event)) (l : Link),
    Machine.collect (delivered .right) h ++ transit .left l = [[7, 7, 7, 7, 7]] ∧
      transit .left l = [] := by
  have r₁ := Machine.Run.step (M := machine) (e := .write .left sevens) (.init idle_init)
    (by decide) rfl
  have r₂ := r₁.step (e := .sofi .left (.send hello .easy)) (by decide) rfl
  have r₃ := r₂.step (e := .sofi .left (.eq FI_CONNECTED 0 .easy)) (by decide) rfl
  have r₄ := r₃.step (e := .sofi .right (.eq FI_CONNECTED 0 .easy)) (by decide) rfl
  have r₅ := r₄.step (e := .sofi .right (.rxCompleted 0 [7, 7, 7, 7, 7] 0 0)) (by decide) rfl
  have r₆ := r₅.step (e := .sofi .right (.recv 0)) (by decide) rfl
  obtain ⟨_, hk⟩ := reads_what_was_sent r₆ .left
  refine ⟨_, _, (hk ?_).trans (by decide), by decide⟩
  rintro (_ | _) <;> decide

end Link

end OfiTransport
