import OfiTransport.Mr.Supply
import OfiTransport.Sofi.Backpressure

/-! The back-pressure and the resources of the sending half.  The counter bounds the messages
in flight, so that there are a context and banks for every message that nanomsg may send. -/

namespace OfiTransport

open Lib

namespace Egress

structure Stocked (e : Egress) (fl bl : List Nat) : Prop where
  full : fl.length + bl.length = e.max
  count : e.mrm.attr.bankCount = 2 * e.max
  volatile : Mr.Volatile e.mrm
  carries : Mr.Carries e.mrm (bl.filterMap e.mrHandle)
  pair : ∀ c h, e.mrHandle c = some h → h.banks.length ≤ 2

/-- A message finds a context and a bank for every lookup, so that it can be posted. -/
structure Served (e : Egress) (m : Msg) : Prop where
  context : ∃ c, e.getContext = .ok (some c)
  bank : ∀ vs v ws, iovs m = vs ++ v :: ws →
    (Mr.findBank ⟨0, 0⟩ (Mr.describeFrom (fun _ => ⟨0, 0⟩) 0 vs (.start e.mrm)).2.mgr v).1 = 0
  describe : (Mr.describe (fun _ => ⟨0, 0⟩) e.mrm (iovs m)).ret = 0
  post : ∃ e', e.postBuffers .easy m = .ok (0, e')

variable {e e' : Egress} {fl bl : List Nat} {c : Nat} {m : Msg}

theorem Stocked.congr (h : e.Stocked fl bl) (hm : e'.mrm = e.mrm) (hh : e'.mrHandle = e.mrHandle)
    (hx : e'.max = e.max) : e'.Stocked fl bl where
  full := hx ▸ h.full
  count := by
    rw [hm, hx]
    exact h.count
  volatile := hm ▸ h.volatile
  carries := by
    rw [hm, hh]
    exact h.carries
  pair := hh ▸ h.pair

theorem iovs_length (m : Msg) : (iovs m).length ≤ 2 := by
  simp only [iovs]
  split <;> simp

section Operations

theorem postBuffers_handle {p : Post} (h : e.postBuffers p m = .ok (0, e')) :
    ∃ c, e.getContext = .ok (some c) ∧
      e'.mrm = (Mr.describe p.answers e.mrm (iovs m)).mgr ∧
      e'.mrHandle =
        Function.update e.mrHandle c (Mr.describe p.answers e.mrm (iovs m)).handle ∧
      e'.max = e.max := by
  cases postBuffers_cases h with
  | noContext _ hret => simp [EAGAIN] at hret
  | refused _ hret => exact absurd rfl hret
  | posted hg _ _ hb =>
    obtain ⟨r, rfl⟩ := markBusy_inv hb
    exact ⟨_, hg, rfl, rfl, rfl⟩

theorem handle_handle {n : Bool} (h : e.handle c = .ok (n, e')) :
    e'.mrm = (e.freeContext c).mrm ∧ e'.mrHandle = (e.freeContext c).mrHandle ∧
      e'.max = e.max := by
  obtain ⟨_, r, k, rfl⟩ := handle_inv h
  exact ⟨rfl, rfl, freeContext_max e c⟩

theorem Holds.getContext_free (h : e.Holds (c :: fl) bl) : e.getContext = .ok (some c) := by
  have hn := h.handle_none h.not_mem_of_free
  simp [Egress.getContext, h.ring.head, hn]

theorem filterMap_update {f : Nat → Option Mr.Context} {l : List Nat} (hc : c ∉ l)
    (x : Option Mr.Context) : l.filterMap (Function.update f c x) = l.filterMap f := by
  apply List.filterMap_congr
  intro d hd
  have hdc : d ≠ c := fun he => hc (he ▸ hd)
  simp [hdc]

theorem Holds.posted_carries {p : Post} (hh : e.Holds (c :: fl) bl)
    (h : Mr.Carries e.mrm (bl.filterMap e.mrHandle)) (hp : e.postBuffers p m = .ok (0, e')) :
    Mr.Carries e'.mrm ((bl ++ [c]).filterMap e'.mrHandle) := by
  obtain ⟨c', hg, hm, hhd, _⟩ := postBuffers_handle hp
  rw [hh.getContext_free, Except.ok.injEq, Option.some.injEq] at hg
  subst hg
  rw [hm, hhd, List.filterMap_append, filterMap_update hh.not_mem_of_free]
  refine (Mr.describe_carries h p.answers (iovs m)).perm ?_
  cases hr : (Mr.describe p.answers e.mrm (iovs m)).handle with
  | none => simp
  | some x => simpa using (List.perm_append_singleton x (bl.filterMap e.mrHandle)).symm

theorem Holds.freed_carries {b₁ b₂ : List Nat} (hh : e.Holds fl (b₁ ++ c :: b₂))
    (h : Mr.Carries e.mrm ((b₁ ++ c :: b₂).filterMap e.mrHandle)) :
    Mr.Carries (e.freeContext c).mrm ((b₁ ++ b₂).filterMap (e.freeContext c).mrHandle) := by
  obtain ⟨x, hcx⟩ := Option.isSome_iff_exists.1 ((hh.busy c).2 (by simp))
  have hfree : e.freeContext c = { e.setMsg c .empty with mrm := Mr.release e.mrm x }.setMrHandle
      c none := by
    simp [freeContext, setMsg, hcx]
  obtain ⟨hc₁, hc₂⟩ := hh.not_mem_of_busy
  rw [List.filterMap_append, List.filterMap_cons_some hcx] at h
  have hrel := (h.perm List.perm_middle).release
  rw [hfree, List.filterMap_append]
  simp only [setMrHandle, filterMap_update hc₁, filterMap_update hc₂]
  exact hrel

theorem Stocked.posted {p : Post} (h : e.Stocked (c :: fl) bl) (hh : e.Holds (c :: fl) bl)
    (hp : e.postBuffers p m = .ok (0, e')) : e'.Stocked fl (bl ++ [c]) := by
  obtain ⟨c', hg, hm, hhd, hx⟩ := postBuffers_handle hp
  rw [hh.getContext_free, Except.ok.injEq, Option.some.injEq] at hg
  subst hg
  have hfull := h.full
  rw [List.length_cons] at hfull
  constructor
  · rw [hx, List.length_append, List.length_singleton]
    omega
  · rw [hm, (Mr.describe_places ..).attr, hx]
    exact h.count
  · rw [hm]
    exact h.volatile.same (Mr.describe_flags p.answers _ (iovs m))
  · exact hh.posted_carries h.carries hp
  · intro d x hx
    rw [hhd, Function.update_apply] at hx
    split at hx
    · exact Nat.le_trans (Mr.describe_banks hx) (iovs_length m)
    · exact h.pair d x hx

theorem Stocked.handled {n : Bool} {b₁ b₂ : List Nat} (h : e.Stocked fl (b₁ ++ c :: b₂))
    (hh : e.Holds fl (b₁ ++ c :: b₂)) (hc : e.handle c = .ok (n, e')) :
    e'.Stocked (c :: fl) (b₁ ++ b₂) := by
  obtain ⟨hm, hhd, hx⟩ := handle_handle hc
  obtain ⟨x, hcx⟩ := Option.isSome_iff_exists.1 ((hh.busy c).2 (by simp))
  have hfree : (e.freeContext c).mrm = Mr.release e.mrm x := by
    simp [freeContext, setMsg, hcx, setMrHandle]
  have hfull := h.full
  rw [List.length_append, List.length_cons] at hfull
  constructor
  · rw [hx, List.length_append, List.length_cons]
    omega
  · rw [hm, hfree, hx]
    exact (congrArg Mr.Attr.bankCount (Mr.release_same e.mrm x).attr).trans h.count
  · rw [hm, hfree]
    exact h.volatile.same (Mr.release_flags _ x)
  · rw [hm, hhd]
    exact hh.freed_carries h.carries
  · intro d y hy
    rw [hhd, freeContext_mrHandle] at hy
    split at hy
    · cases hy
    · exact h.pair d y hy

theorem Stocked.referred_le (h : e.Stocked fl bl) :
    (Mr.referred (bl.filterMap e.mrHandle)).length ≤ 2 * bl.length := by
  have hp : ∀ x ∈ bl.filterMap e.mrHandle, x.banks.length ≤ 2 := by
    intro x hx
    obtain ⟨c, _, hc⟩ := List.mem_filterMap.1 hx
    exact h.pair c x hc
  have hl := List.length_filterMap_le e.mrHandle bl
  have hr := Mr.referred_length_le hp
  omega

theorem Stocked.served (h : e.Stocked (c :: fl) bl) (hh : e.Holds (c :: fl) bl) (m : Msg) :
    e.Served m := by
  have hfull := h.full
  have hcount := h.count
  have hr := h.referred_le
  have hi := iovs_length m
  rw [List.length_cons] at hfull
  have hroom : (iovs m).length + (Mr.referred (bl.filterMap e.mrHandle)).length ≤
      e.mrm.attr.bankCount := by omega
  have hmax : (iovs m).length ≤ 16 := by omega
  obtain ⟨hret, x, hx⟩ := h.carries.describe h.volatile hmax hroom
  refine ⟨⟨c, hh.getContext_free⟩, ?_, hret, ?_⟩
  · intro vs v ws hvs
    exact h.carries.findBank_within h.volatile (hvs ▸ hroom)
  · obtain ⟨r, hr, _⟩ := Ring.Holds.toTail (l := fl ++ bl) hh.ring
    have hhead : e.ring.head = some c := hh.ring.head
    simp [postBuffers, hh.getContext_free, hret, hx, Post.easy, bind, Except.bind, markBusy,
      setMrHandle, setMsg, nnAssert, hhead, hr, pure, Except.pure]

end Operations

end Egress

namespace Sofi

variable {s s' : Sofi} {e : Event} {fl bl : List Nat}

def Supplied (s : Sofi) : Prop :=
  s.state ≠ .closing → ∃ fl bl, s.egress.Holds fl bl ∧ s.egress.Stocked fl bl

theorem Supplied.stocked (h : Supplied s) (hs : Sending s fl bl) (hst : s.state ≠ .closing) :
    s.egress.Stocked fl bl := by
  obtain ⟨fl', bl', hh, hk⟩ := h hst
  obtain ⟨rfl, rfl⟩ := hs.holds.unique hh
  exact hk

theorem Closes.supplied (h : Closes s s') : Supplied s' := fun hst => absurd h.state hst

theorem Supplied.keeps (h : Supplied s) (hk : KeepsControl s s')
    (ho : ∃ w, s'.egress = { s.egress with wire := w }) : Supplied s' := by
  intro hst
  obtain ⟨w, ho⟩ := ho
  obtain ⟨fl, bl, hh, hs⟩ := h (hk.state ▸ hst)
  exact ⟨fl, bl, hh.congr (by rw [ho]) (by rw [ho]) (by rw [ho]),
    hs.congr (by rw [ho]) (by rw [ho]) (by rw [ho])⟩

theorem Supplied.posted {p : Post} {m : Msg} {eg : Egress} (h : Supplied s) (hs : Sending s fl bl)
    (hst : s.state ≠ .closing) (hpb : s.egress.postBuffers p m = .ok (0, eg))
    (ho : s'.egress = eg.atomicDec.2) : Supplied s' := by
  rcases hs.holds.postBuffers hpb with ⟨hr, _⟩ | ⟨c, fl', rfl, _, hh, _⟩
  · exact absurd rfl hr
  · have hk := (h.stocked hs hst).posted hs.holds hpb
    exact fun _ => ⟨fl', bl ++ [c], hh.congr (by simp [ho]) (by simp [ho]) (by simp [ho]),
      hk.congr (by rw [ho]; rfl) (by simp [ho]) (by simp [ho])⟩

theorem Supplied.completed {c : Nat} {n : Bool} (h : Supplied s) (hs : Sending s fl bl)
    (hst : s.state ≠ .closing) (hf : s.fsm = .active) (hc : c ∈ s.egress.txOut)
    (hh : (s.removeTx c).egress.handle c = .ok (n, s'.egress)) : Supplied s' := by
  obtain ⟨b₁, b₂, rfl, _⟩ := hs.mem_of_txOut hc (.inl hf)
  have hk : (s.removeTx c).egress.Stocked fl (b₁ ++ c :: b₂) :=
    (h.stocked hs hst).congr rfl rfl rfl
  have hold := holds_removeTx (c := c) hs.holds
  exact fun _ => ⟨c :: fl, b₁ ++ b₂, (hold.handle hh).1, hk.handled hold hh⟩

theorem Moves.supplied (h : Moves s e s') (hen : s.enabled e = true) (hp : Phase s)
    (hs : Sending s fl bl) (hi : Supplied s) : Supplied s' := by
  have closed : s.fsm ≠ .active → KeepsControl s s' → Supplied s' :=
    fun hf hk hst => absurd (hk.state.trans (hp.closing hf)) hst
  cases h with
  | stay _ hk _ ho => exact hi.keeps hk ho
  | close hc | sendFailed hc | connectFailed hc | txFailed hc | rxFailed hc => exact hc.supplied
  | sent _ hst _ _ hpb ho => exact hi.posted hs hst hpb ho
  | connected hst _ _ _ _ _ _ _ ho =>
    rcases ho with ⟨_, ho⟩ | ⟨eg, hpb, ho⟩
    · obtain ⟨fl, bl, hh, hk⟩ := hi (by simp [hst])
      exact fun _ => ⟨fl, bl, ho ▸ hh, ho ▸ hk⟩
    · exact hi.posted hs (by simp [hst]) hpb ho
  | txCompleted _ hk _ hh =>
    simp only [enabled, decide_eq_true_eq] at hen
    intro hst
    have hne := hk.state ▸ hst
    exact hi.completed hs hne (hp.fsm_active hne) hen.2 hh hst
  | txErrored hf _ hk => exact closed hf hk
  | txDiscarded _ hf _ hk => exact closed hf hk
  | rxCompleted _ hk ho | rxDrained _ hk ho | rxErrored _ hk ho | fetched hk ho | freed hk ho =>
    exact hi.keeps hk ⟨_, ho⟩

structure Equipped (s : Sofi) (fl : List Nat) : Prop extends Ready s fl where
  contexts : fl.length = s.egress.max
  banks : s.egress.mrm.attr.bankCount = 2 * s.egress.max
  unused : Mr.Carries s.egress.mrm []
  volatile : Mr.Volatile s.egress.mrm

theorem Equipped.supplied (h : Equipped s fl) : Supplied s := by
  refine fun _ => ⟨fl, [], h.sending.holds, h.contexts, h.banks, h.volatile, h.unused, ?_⟩
  intro c x hx
  have hc := (h.sending.holds.busy c).1 (by simp [hx])
  cases hc

theorem Setup.started_equipped {u : Setup} (h₁ : 1 ≤ u.rxQueue) (h₂ : u.rxQueue = u.txQueue) :
    Equipped u.started (List.range u.rxQueue.toNat) := by
  have hm : u.started.egress.mrm = (Mr.init u.mrAttr u.domain u.slabMem u.slabReg).2 := rfl
  have hmax : u.started.egress.max = u.txQueue.toNat := rfl
  have hattr : u.started.egress.mrm.attr = u.mrAttr := by
    rw [hm]
    simp only [Mr.init]
    repeat' split
    all_goals rfl
  have hlt : u.txQueue < 2 ^ 31 := queueSize_lt u.options.txQueueSize u.txSize
  refine ⟨u.started_ready h₁ (by omega), ?_, ?_, ?_, ?_⟩
  · rw [List.length_range, hmax, h₂]
  · rw [hattr, hmax]
    simp only [Setup.mrAttr, toUInt64]
    omega
  · rw [hm]
    exact Mr.init_carries ..
  · intro i
    rw [hm]
    simp only [Mr.init]
    repeat' split
    all_goals rfl

theorem egressSend_total {p : Post} {eg : Egress} (ho : s.outActive = true)
    (hstaged : s.staged = true) (hpb : s.egress.postBuffers p s.outmsg = .ok (0, eg)) :
    ∃ s', s.egressSend p = .ok (0, s') ∧ s'.state = s.state := by
  simp only [egressSend, nnAssert, ho, hstaged, hpb, if_true, bind, Except.bind, ne_eq, not_true,
    if_false]
  split
  · exact ⟨_, rfl, rfl⟩
  · exact ⟨_, rfl, rfl⟩

theorem send_total {p : Post} {m : Msg} (hst : s.state ≠ .closing) (hstaged : s.staged = false)
    (hpb : ∃ eg, s.egress.postBuffers p m = .ok (0, eg)) :
    ∃ s', s.send p m = .ok s' ∧ s'.state = s.state := by
  obtain ⟨eg, hpb⟩ := hpb
  simp only [send, egressStage, nnAssert, hstaged, hst, if_true, if_false, bind, Except.bind]
  split
  · next ho =>
    obtain ⟨s', hs', hst'⟩ := egressSend_total
      (s := { s with ticksOut := 0, outmsg := m, staged := true }) ho rfl hpb
    rw [hs']
    exact ⟨s', rfl, hst'⟩
  · exact ⟨_, rfl, rfl⟩

end Sofi

namespace Pipe

open Sofi

variable {p p' : Pipe} {e : Event}

def equipped : Machine Pipe Event Fault where
  init p := (∃ fl, Equipped p.sofi fl) ∧ p.calls = 0 ∧ p.accepted = 0
  enabled := enabled
  step := step

theorem reachable_supplied (h : equipped.Reachable p) :
    machine.Reachable p ∧ Supplied p.sofi := by
  refine h.invariant (I := fun p => machine.Reachable p ∧ Supplied p.sofi) ?_ ?_
  · rintro p ⟨⟨fl, hq⟩, hc⟩
    exact ⟨⟨[], .init ⟨⟨fl, hq.toReady⟩, hc⟩⟩, hq.supplied⟩
  · rintro p e p' ⟨hr, hi⟩ hen hstep
    obtain ⟨hp, ⟨fl, bl, hs⟩, _⟩ := reachable_handshake hr
    refine ⟨hr.step hen hstep, ?_⟩
    obtain ⟨s', hs', rfl⟩ := step_inv hstep
    have hen' := enabled_sofi hen
    rw [advance_sofi]
    exact (step_moves hp hen' hs').supplied hen' hp hs hi

/-- Nanomsg may send, or has done so before the connection was made. -/
def Due (p : Pipe) : Prop := p.calls = p.sofi.sents ∨ p.sofi.staged = true

theorem Handshake.credit (h : Handshake p) (hp : Phase p.sofi) (hst : p.sofi.state ≠ .closing)
    (hd : Due p) : 0 < p.sofi.egress.stageoutCounter := by
  rcases hp.running (hp.fsm_active hst) with hcon | hact
  · exact (h.connecting hcon).1
  · obtain ⟨hns, hz⟩ := h.active hact
    have hacc := h.running hst
    rcases hd with hfree | hstaged
    · omega
    · rw [hns] at hstaged
      cases hstaged

/-- Every message that comes when it is due finds a context and a bank for each of its
parts, and sending it does not end the connection. -/
theorem reachable_served (h : equipped.Reachable p) (hst : p.sofi.state ≠ .closing)
    (hd : Due p) (m : Msg) :
    p.sofi.egress.Served m ∧
      (p.enabled (.send m .easy) = true →
        ∃ p', p.step (.send m .easy) = .ok p' ∧ p'.sofi.state = p.sofi.state) := by
  obtain ⟨hr, hi⟩ := reachable_supplied h
  obtain ⟨hp, ⟨fl, bl, hs⟩, hh⟩ := reachable_handshake hr
  have hk := hi.stocked hs hst
  have hfull := hk.full
  have hcredit := hs.credit hst
  have hpos := hh.credit hp hst hd
  obtain ⟨c, fl', rfl⟩ : ∃ c fl', fl = c :: fl' := by
    refine List.exists_cons_of_ne_nil (fun hnil => ?_)
    rw [hnil, List.length_nil] at hfull
    omega
  have hserved := hk.served hs.holds m
  refine ⟨hserved, fun hen => ?_⟩
  simp only [enabled, decide_eq_true_eq] at hen
  have hacc := hh.running hst
  have hns : p.sofi.staged = false := by
    rcases hp.running (hp.fsm_active hst) with hcon | hact
    · have hstg := (hh.connecting hcon).2
      rw [← Bool.not_eq_true, ← hstg]
      omega
    · exact (hh.active hact).1
  obtain ⟨s', hs', hst'⟩ := send_total hst hns hserved.post
  refine ⟨p.advance (.send m .easy) s', ?_, hst'⟩
  simp only [step, Sofi.step, hs']
  rfl

theorem small_served : ∃ p : Pipe, p.sofi.egress.inFlight = 1 ∧
    ∀ m, p.sofi.egress.Served m := by
  obtain ⟨p, hr, hc⟩ := Machine.exists_reachable (M := equipped)
    [.eq FI_CONNECTED 0 .easy, .send ⟨⟨0, 0⟩, ⟨0x20000, 8⟩⟩ .easy]
    (fun p => p.sofi.state ≠ .closing ∧ p.calls = p.sofi.sents ∧ p.sofi.egress.inFlight = 1)
    (s := small) ⟨⟨_, Setup.started_equipped (by decide) (by decide)⟩, rfl, rfl⟩ (by decide)
  obtain ⟨hst, hfree, hfl⟩ := of_decide_eq_true hc
  exact ⟨p, hfl, fun m => (reachable_served hr hst (.inl hfree) m).1⟩

end Pipe

end OfiTransport
