import OfiTransport.Sofi.Ownership

/-! The end of a SOFI.  `nn_sofi_term` releases what is left in the egress contexts and takes
from each ingress chunk the reference of its buffer, so what else refers to a chunk then must
be a message that nanomsg holds. -/

namespace OfiTransport

open Lib

def Held.sharing (b : Nat) (l : List Held) : Nat := l.countP (fun m => m.buf = b)

namespace Egress

/-- The contexts as the last loop of `nn_sofi_term` meets them. -/
def listed (e : Egress) : List Nat := e.ring.links.walk e.max e.ring.head

def termDeeds (e : Egress) : List (Deed Place Msg) := (e.listed.map .ctx).map .drop

theorem Holds.listed {e : Egress} {fl bl : List Nat} (h : e.Holds fl bl) : e.listed = fl ++ bl := by
  have hlen := h.length_le
  rw [Egress.listed, h.ring.head]
  exact h.ring.list.walk (by simpa using hlen)

theorem Booked.term {e : Egress} {fl bl : List Nat} {b : Custody Place Msg} (h : Booked b none e)
    (hh : e.Holds fl bl) :
    (b.replay e.termDeeds).Kept (fun _ => none) ∧
      ((b.replay e.termDeeds).Whole (fun _ => none) ↔ b.Whole (rest none e)) := by
  have hn : (fun k => if k ∈ e.listed.map Place.ctx then none else rest none e k) =
      fun _ => none := by
    funext k
    cases k with
    | staged => simp
    | ctx c =>
      by_cases hc : c ∈ fl ++ bl
      · exact if_pos (List.mem_map_of_mem (hh.listed ▸ hc))
      · have hb : c ∉ bl := fun hm => hc (List.mem_append_right fl hm)
        simp [rest_free (hh.handle_none hb)]
  have hk : ∀ k ∈ e.listed.map Place.ctx,
      (rest none e k).isSome ∨ (rest none e k = none ∧ b.slot k = none) := by
    intro k hk
    obtain ⟨c, _, rfl⟩ := List.mem_map.1 hk
    cases hc : e.mrHandle c with
    | none => exact .inr ⟨rest_free hc, h.clear c hc⟩
    | some x => exact .inl (by rw [rest_busy (by simp [hc])]; rfl)
  have hr := h.kept.replay_drops hk
  rwa [hn] at hr

end Egress

namespace Sofi

/-- `nn_sofi_term`, which insists on a SOFI that has stopped. -/
def term (close : Nat → Int) (closeSlab : Int) (s : Sofi) : M Sofi := do
  let (_, domain) ← Mr.term close closeSlab s.egress.mrm
  let s := { s with
    egress := { s.egress with mrm := { s.egress.mrm with domain := domain } }
    ingress := { s.ingress with
      chunk := fun b =>
        if b < s.ingress.max then { s.ingress.chunk b with refs := (s.ingress.chunk b).refs - 1 }
        else s.ingress.chunk b } }
  nnAssert (s.timerKeepalive = .idle)
  nnAssert (s.timerShutdown = .idle)
  let s := { s with egress := { s.egress with
    msg := fun c => if c ∈ s.egress.listed then .empty else s.egress.msg c } }
  nnAssert (s.fsm = .idle)
  return s

theorem term_inv {close : Nat → Int} {closeSlab : Int} {s s' : Sofi}
    (h : s.term close closeSlab = .ok s') : s.fsm = .idle ∧ s'.ingress.held = s.ingress.held ∧
      ∀ b < s.ingress.max, (s'.ingress.chunk b).refs = (s.ingress.chunk b).refs - 1 := by
  simp only [term, bind_eq_ok, nnAssert_eq_ok, pure_eq_ok] at h
  obtain ⟨⟨_, d⟩, _, _, _, _, _, _, hf, rfl⟩ := h
  refine ⟨hf, rfl, fun b hb => ?_⟩
  simp [hb]

def ClosesBy (s : Sofi) (e : Event) : Prop :=
  s.state ≠ .closing ∧ ∃ s', s.step e = .ok s' ∧ s'.state = .closing

def Event.isRecv : Event → Bool
  | .recv _ => true
  | _ => false

/-- No flush finds messages that nanomsg has not read: the STOP action finds a notification
unanswered or an empty queue, and the read after it takes the last message. -/
def KeepsReceived (s : Sofi) (e : Event) : Prop :=
  (s.ClosesBy e → s.ingress.nnbusy = true ∨ s.ingress.bufs.popHead = none) ∧
    (s.state = .closing → e.isRecv = true →
      s.ingress.nnlater = true ∨ s.ingress.bufs.popHead = s.ingress.bufs.popTail)

section Received

variable {s s' s₁ : Sofi} {e : Event} {F B Q Q' : List Nat} {h : List (Sofi × Event)}

theorem fetched_of_not_recv (he : e.isRecv = false) : fetched s e = [] := by
  cases e with
  | recv late => cases he
  | _ => rfl

theorem Receiving.fetch_held {late : Int} {i : Ingress} (hr : Receiving s F B Q)
    (hi : Ingress.fetch late { s.ingress with received := s.ingress.received - 1 } = .ok (0, i)) :
    ∃ b, i.held = ⟨b, s.ingress.msg b⟩ :: s.ingress.held := by
  by_cases hst : s.state = .closing
  · obtain ⟨_, b, _, _, _, _, hf, _⟩ := (hr.closing hst).fetch hi
    exact ⟨b, hf.held⟩
  · obtain ⟨_, _, b, _, _, _, hf⟩ := (hr.running hst).fetch hi
    exact ⟨b, hf.held⟩

theorem Receiving.fetched_ne_nil {late : Int} (hr : Receiving s F B Q)
    (h : s.step (.recv late) = .ok s') : fetched s (.recv late) ≠ [] := by
  simp only [step, recv, bind_eq_ok, nnAssert_eq_ok, pure_eq_ok] at h
  obtain ⟨⟨ret, i⟩, hi, _, rfl, _⟩ := h
  obtain ⟨b, hb⟩ := hr.fetch_held hi
  simp [fetched_recv hi hb]

theorem Receiving.not_recv (hr : Receiving s F B Q) (h : s.step e = .ok s')
    (hf : fetched s e = []) : e.isRecv = false := by
  rw [← Bool.not_eq_true]
  intro he
  cases e with
  | recv late => exact hr.fetched_ne_nil h hf
  | _ => cases he

theorem Moves.closing_nnbusy (h : Moves s e s') (hst : s'.state = .closing)
    (he : e.isRecv = false) : s'.ingress.nnbusy = s.ingress.nnbusy := by
  have closes : ∀ {s₁ : Sofi}, Closes s₁ s' → s'.ingress.nnbusy = s₁.ingress.nnbusy :=
    fun hc => Ingress.flush_nnbusy hc.ingress
  cases h with
  | stay _ _ hi | sent _ _ _ hi | txCompleted _ _ hi | txErrored _ _ _ hi
  | txDiscarded _ _ _ _ hi => rw [hi]
  | close hc _ _ _ hi | sendFailed hc _ _ _ _ _ hi | txFailed hc _ _ hi => rw [closes hc, hi]
  | connected _ _ hst' => simp [hst'] at hst
  | connectFailed hc _ _ hi => rw [closes hc, hi, (Ingress.post_reposts _ _).nnbusy]
  | rxCompleted hst' hk => simp [hk.state, hst'] at hst
  | rxDrained _ _ _ hi | rxErrored _ _ _ hi =>
    rw [hi]
    rfl
  | rxFailed hc _ _ hi =>
    rw [closes hc, hi]
    rfl
  | fetched => cases he
  | freed _ _ hi =>
    rw [hi]
    rfl

def Complete (h : List (Sofi × Event)) (s : Sofi) : Prop :=
  Machine.collect fetched h ++ s.ingress.queue = Machine.collect arrived h

theorem Queues.complete_iff (hq : Queues s Q e s' Q') (r : machine.Run h s) (hm : Moves s e s')
    (hs : s.step e = .ok s') (hr : Receiving s F B Q) (hr' : Receiving s' F' B' Q') :
    Complete ((s, e) :: h) s' ↔ Complete h s ∧ KeepsReceived s e := by
  have hkept : (s.state = .closing → s.ingress.nnbusy = true) → Complete h s :=
    (inbox_ordered.run r).2
  have hclose : s.ClosesBy e → s.state ≠ .closing ∧ s'.state = .closing := by
    rintro ⟨hst, s₁, hs₁, hc⟩
    rw [hs] at hs₁
    cases hs₁
    exact ⟨hst, hc⟩
  obtain ⟨B₁, ht⟩ := hr.exists_tidy
  simp only [Complete, Machine.collect_cons, hr.queue_eq, hr'.queue_eq] at hkept ⊢
  cases hq with
  | keep ha hf _ _ hmsg hst =>
    have hnr := hr.not_recv hs hf
    have hk : KeepsReceived s e := by
      refine ⟨fun hc => ?_, fun _ hv => by simp [hnr] at hv⟩
      obtain ⟨hne, hc'⟩ := hclose hc
      exact .inl ((hst hc').resolve_left hne)
    rw [ha, hf, hmsg, List.append_nil, List.append_nil, and_iff_left hk]
  | flush ha hf hst hb =>
    have hnr := hr.not_recv hs hf
    have hb₀ : s.ingress.nnbusy = false := (hm.closing_nnbusy hst hnr).symm.trans hb
    rw [ha, hf, List.append_nil, List.append_nil, List.map_nil, List.append_nil]
    by_cases hcl : s.state = .closing
    · have hQ := (hr.closing hcl).drained hb₀
      have hk : KeepsReceived s e :=
        ⟨fun hc => absurd hcl (hclose hc).1, fun _ hv => by simp [hnr] at hv⟩
      rw [hQ, List.map_nil, List.append_nil, and_iff_left hk]
    · have hL := hkept (fun h' => absurd h' hcl)
      have hk : KeepsReceived s e ↔ Q = [] := by
        constructor
        · intro hk
          have hp := (hk.1 ⟨hcl, s', hs, hst⟩).resolve_left (by simp [hb₀])
          rwa [ht.lists.popHead, List.head?_eq_none_iff] at hp
        · rintro rfl
          exact ⟨fun _ => .inr ht.lists.popHead, fun h' => absurd h' hcl⟩
      rw [hk, ← hL, List.self_eq_append_right, List.map_eq_nil_iff, and_iff_right rfl]
  | @push b bytes ha hf hst hst' _ _ hmsg hbQ =>
    have hk : KeepsReceived s e := by
      refine ⟨fun hc => ?_, fun h' => by simp [hst] at h'⟩
      have hc' := (hclose hc).2
      simp [hst'] at hc'
    have hmap : Q.map (fun c => (⟨c, s'.ingress.msg c⟩ : Held)) =
        Q.map (fun c => ⟨c, s.ingress.msg c⟩) := by
      apply List.map_congr_left
      intro c hc
      have hcb : c ≠ b := fun he => hbQ (he ▸ hc)
      simp [hmsg, hcb]
    have hlast : [b].map (fun c => (⟨c, s'.ingress.msg c⟩ : Held)) = [⟨b, bytes⟩] := by
      simp [hmsg]
    rw [ha, hf, List.append_nil, List.map_append, hmap, hlast, ← List.append_assoc,
      and_iff_left hk]
    exact List.append_left_inj _
  | @pop b Q₁ ha hf hQ hi hst hl =>
    have hk : KeepsReceived s e := by
      refine ⟨fun hc => ?_, fun hcl _ => .inl (hl hcl)⟩
      obtain ⟨hne, hc'⟩ := hclose hc
      exact absurd (hst ▸ hc') hne
    rw [ha, hf, hQ, hi.msg, List.append_nil, List.append_assoc, and_iff_left hk]
    rfl
  | @popFlush b Q₁ ha hf hQ hi hst hst' hl =>
    subst hQ
    have hL := hkept (fun _ => hi.busy)
    have hrecv : e.isRecv = true := by
      rw [← Bool.not_eq_false]
      intro hn
      simp [fetched_of_not_recv hn] at hf
    have hk : KeepsReceived s e ↔ Q₁ = [] := by
      rw [← ht.head_eq_tail]
      constructor
      · intro hk
        exact (hk.2 hst hrecv).resolve_left (by simp [hl])
      · intro hp
        exact ⟨fun hc => absurd hst (hclose hc).1, fun _ _ => .inr hp⟩
    rw [ha, hf, hk, ← hL, List.append_nil, List.map_nil, List.append_nil, and_iff_right rfl]
    simp

theorem run_complete (r : machine.Run h s) :
    Complete h s ↔ Machine.Guarded KeepsReceived h := by
  induction r with
  | init hi =>
    obtain ⟨u, h₁, _, rfl⟩ := machine_init hi
    refine iff_of_true ?_ (Machine.guarded_nil _)
    exact (Setup.started_receiving h₁).queue_eq
  | @step h s e s' r hen hs ih =>
    obtain ⟨hp, F, B, Q, hr⟩ := reachable_receiving r.reachable
    have hm := step_moves hp hen hs
    obtain ⟨F', B', Q', hr', hq⟩ := hm.queues hen hp hr
    rw [hq.complete_iff r hm hs hr hr', ih, Machine.guarded_cons]
    exact and_comm

theorem sharing_le (r : machine.Run h s) (b : Nat) :
    Held.sharing b (Machine.collect fetched h) ≤ Held.sharing b (Machine.collect arrived h) :=
  (inbox_ordered.run r).1.sublist.countP_le

end Received

section Chunks

variable {s s' s₁ : Sofi} {e : Event} {F B Q : List Nat} {h : List (Sofi × Event)}

def Refers (s : Sofi) (e : Event) (s' : Sofi) : Prop := ∀ b,
  (s'.ingress.chunk b).refs + Held.sharing b s.ingress.held + Held.sharing b (fetched s e) =
    (s.ingress.chunk b).refs + Held.sharing b s'.ingress.held + Held.sharing b (arrived s e)

theorem Refers.of_same (hc : ∀ b, (s'.ingress.chunk b).refs = (s.ingress.chunk b).refs)
    (hh : s'.ingress.held = s.ingress.held) (he : arrived s e = [] ∧ fetched s e = []) :
    Refers s e s' := by
  intro b
  rw [hc, hh, he.1, he.2]

theorem Closes.refers (h : Closes s₁ s') (ht : s₁.ingress.Tidy F B Q)
    (hc : s₁.ingress.chunk = s.ingress.chunk) (hh : s₁.ingress.held = s.ingress.held)
    (he : arrived s e = [] ∧ fetched s e = []) : Refers s e s' := by
  refine .of_same (fun b => ?_) ?_ he
  all_goals
    rcases Ingress.flush_cases ht.lists h.ingress with ⟨_, q, _, hi⟩ | ⟨_, q, _, hi⟩
    all_goals simp [hi, hc, hh]

theorem arrive_refs (i : Ingress) (b c : Nat) (bytes : List UInt8) :
    ((arrive i b bytes).chunk c).refs = (i.chunk c).refs := by
  by_cases hc : c = b
  · simp [arrive, hc]
  · simp [arrive, hc]

theorem complete_refs (i : Ingress) (b c : Nat) (bytes : List UInt8) (late r : Int) :
    (complete late r (arrive i b bytes) b bytes.length).held = i.held ∧
      ((complete late r (arrive i b bytes) b bytes.length).chunk c).refs =
        (i.chunk c).refs + if bytes ≠ keepalivePacket ∧ c = b then 1 else 0 := by
  obtain ⟨l, he⟩ := Ingress.complete_eq late r (arrive i b bytes) b bytes.length
  have hp := Ingress.post_reposts ((arrive i b bytes).handle late b bytes.length) r
  rw [he]
  show Ingress.held (Ingress.post r _).2 = _ ∧ (Ingress.chunk (Ingress.post r _).2 c).refs = _
  rw [hp.held, hp.chunk]
  by_cases hk : bytes = keepalivePacket
  · have hl := Ingress.postLate_reposts
      { arrive i b bytes with bufs := (arrive i b bytes).bufs.markFree b } late
    rw [Ingress.handle_keepalive ((Ingress.isKeepalive_arrive i b bytes).2 hk), hl.held, hl.chunk]
    exact ⟨rfl, by simp [hk, arrive_refs]⟩
  · have hd : (arrive i b bytes).isKeepalive b bytes.length = false := by
      rw [← Bool.not_eq_true, Ingress.isKeepalive_arrive]
      exact hk
    rw [Ingress.handle_data hd]
    refine ⟨rfl, ?_⟩
    by_cases hc : c = b
    · subst hc
      simp [hk, arrive_refs]
    · simp [hk, hc, arrive_refs]

theorem sharing_arrived {b c : Nat} {bytes : List UInt8} {late r : Int} (hst : s.state = .active) :
    Held.sharing c (arrived s (.rxCompleted b bytes late r)) =
      if bytes ≠ keepalivePacket ∧ c = b then 1 else 0 := by
  by_cases hb : bytes = keepalivePacket
  · simp [arrived, hb, Held.sharing]
  · by_cases hcb : c = b
    · simp [arrived, hst, hb, hcb, Held.sharing]
    · simp [arrived, hst, hb, hcb, Ne.symm hcb, Held.sharing]

theorem freeMessage_refs {i : Ingress} {m : Held} (hm : m ∈ i.held)
    (hpos : 0 < (i.chunk m.buf).refs) (b : Nat) :
    ((freeMessage i m).chunk b).refs + Held.sharing b i.held =
      (i.chunk b).refs + Held.sharing b (freeMessage i m).held := by
  have hp := (List.perm_cons_erase hm).countP_eq (fun m => m.buf = b)
  have hh : (freeMessage i m).held = i.held.erase m := rfl
  rw [hh, Held.sharing, Held.sharing, hp, List.countP_cons]
  by_cases hb : m.buf = b
  · subst hb
    simp only [freeMessage, Function.update_self, decide_true, if_true]
    omega
  · simp [freeMessage, Ne.symm hb, hb]

theorem Receiving.fetch_refs {late : Int} {i : Ingress} (hr : Receiving s F B Q)
    (hi : Ingress.fetch late { s.ingress with received := s.ingress.received - 1 } = .ok (0, i)) :
    i.chunk = s.ingress.chunk := by
  obtain ⟨B₁, ht⟩ := hr.exists_tidy
  obtain ⟨b, Q₁, q, _, hb, hq, hc⟩ :=
    Ingress.fetch_cases (i := { s.ingress with received := s.ingress.received - 1 }) ht.lists hi
  have hl := Ingress.postLate_reposts
    (Ingress.handOver { s.ingress with received := s.ingress.received - 1 } b q) late
  rcases hc with ⟨_, rfl⟩ | ⟨_, hf⟩
  · exact hl.chunk
  · obtain ⟨_, _, ht', _⟩ := Ingress.Tidy.read (i := s.ingress) ht hb hq late
    rcases Ingress.flush_cases ht'.lists hf with ⟨_, _, _, rfl⟩ | ⟨_, _, _, rfl⟩
    · exact hl.chunk
    · exact hl.chunk

theorem refers_of_moves (h : Moves s e s') (hen : s.enabled e = true) (hr : Receiving s F B Q)
    (hpos : ∀ m ∈ s.ingress.held, 0 < (s.ingress.chunk m.buf).refs) : Refers s e s' := by
  obtain ⟨B₁, ht⟩ := hr.exists_tidy
  have same : s'.ingress = s.ingress → arrived s e = [] ∧ fetched s e = [] → Refers s e s' :=
    fun hi he => .of_same (fun b => by rw [hi]) (by rw [hi]) he
  have closes : ∀ {s₁ : Sofi}, Closes s₁ s' → s₁.ingress = s.ingress →
      arrived s e = [] ∧ fetched s e = [] → Refers s e s' :=
    fun hc hi he => hc.refers (hi ▸ ht) (by rw [hi]) (by rw [hi]) he
  cases h with
  | stay he _ hi => exact same hi (not_moved_of_passive he)
  | close hc _ _ he hi =>
    refine closes hc hi ?_
    rcases he with he | ⟨rfl, _⟩
    · exact not_moved_of_breaks he
    · exact ⟨rfl, rfl⟩
  | sent _ _ _ hi | txCompleted _ _ hi | txErrored _ _ _ hi => exact same hi ⟨rfl, rfl⟩
  | sendFailed hc _ _ _ _ _ hi | txFailed hc _ _ hi => exact closes hc hi ⟨rfl, rfl⟩
  | txDiscarded hev _ _ _ hi =>
    refine same hi ?_
    rcases hev with rfl | ⟨_, rfl⟩ <;> exact ⟨rfl, rfl⟩
  | @connected r _ _ _ _ _ _ _ _ _ hi =>
    have hk := Ingress.post_reposts s.ingress r
    exact .of_same (fun b => by rw [hi, hk.chunk]) (by rw [hi, hk.held]) ⟨rfl, rfl⟩
  | @connectFailed _ _ r _ hc _ hst hi =>
    have hk := Ingress.post_reposts s.ingress r
    obtain ⟨_, _, hop⟩ := (hr.running (by simp [hst])).post r
    exact hc.refers (hi ▸ hop.toTidy) (by rw [hi, hk.chunk]) (by rw [hi, hk.held]) ⟨rfl, rfl⟩
  | @rxCompleted _ late r b bytes hst hk _ hi =>
    intro c
    obtain ⟨hh, hc⟩ := complete_refs s.ingress b c bytes late r
    have hf : Held.sharing c (fetched s (.rxCompleted b bytes late r)) = 0 := rfl
    rw [hi, hh, hc, sharing_arrived hst, hf]
    omega
  | rxDrained hst _ _ hi =>
    refine .of_same (fun b => by rw [hi, arrive_refs]) (by rw [hi]; rfl) ⟨?_, rfl⟩
    simp [arrived, hst]
  | rxFailed hc _ _ hi =>
    exact hc.refers (hi ▸ ht.removePosted _) (by rw [hi]; rfl) (by rw [hi]; rfl) ⟨rfl, rfl⟩
  | rxErrored _ _ _ hi =>
    exact .of_same (fun b => by rw [hi]; rfl) (by rw [hi]; rfl) ⟨rfl, rfl⟩
  | @fetched _ late _ _ hi =>
    intro b
    obtain ⟨b', hh⟩ := hr.fetch_held hi
    have ha : Held.sharing b (arrived s (.recv late)) = 0 := rfl
    rw [hr.fetch_refs hi, hh, fetched_recv hi hh, ha]
    simp only [Held.sharing, List.countP_cons, List.countP_nil]
    omega
  | @freed _ m _ _ hi =>
    intro b
    simp only [enabled, decide_eq_true_eq] at hen
    have ha : Held.sharing b (arrived s (.free m)) = 0 := rfl
    have hf : Held.sharing b (fetched s (.free m)) = 0 := rfl
    rw [ha, hf, hi, Nat.add_zero, Nat.add_zero]
    exact freeMessage_refs hen (hpos m hen) b

theorem run_refs (r : machine.Run h s) (b : Nat) :
    (s.ingress.chunk b).refs + Held.sharing b (Machine.collect fetched h) =
      1 + Held.sharing b s.ingress.held + Held.sharing b (Machine.collect arrived h) := by
  induction r generalizing b with
  | init hi =>
    obtain ⟨u, _, _, rfl⟩ := machine_init hi
    rfl
  | @step h s e s' r hen hs ih =>
    obtain ⟨hp, F, B, Q, hr⟩ := reachable_receiving r.reachable
    have hpos : ∀ m ∈ s.ingress.held, 0 < (s.ingress.chunk m.buf).refs := by
      intro m _
      have hle := sharing_le r m.buf
      have hb := ih m.buf
      omega
    have hstep := refers_of_moves (step_moves hp hen hs) hen hr hpos b
    have hb := ih b
    simp only [Machine.collect_cons, Held.sharing, List.countP_append] at hstep hb ⊢
    omega

end Chunks

section Stopped

variable {s s' s₁ : Sofi} {e : Event}

theorem wait_drained (h : s₁.shutdownWait = .ok s') (hf : s₁.fsm = .stopping)
    (hi : s'.fsm = .idle) : s'.ingress.bufs.popHead = none := by
  rcases shutdownWait_cases h with ⟨_, rfl⟩ | ⟨_, _, rfl⟩ | ⟨hr, _, rfl⟩
  · simp [hf] at hi
  · simp [hf] at hi
  · have he := hr.ingress
    simp only [Ingress.empty, decide_eq_true_eq] at he
    exact he.1

theorem step_drained (hp : Phase s) (hd : s.fsm = .idle → s.ingress.bufs.popHead = none)
    (hen : s.enabled e = true) (hs : s.step e = .ok s') (hi : s'.fsm = .idle) :
    s'.ingress.bufs.popHead = none := by
  cases hf : s.fsm with
  | idle =>
    cases e with
    | stop =>
      simp only [step, fsmStop, hf, reduceCtorEq, if_false] at hs
      cases hs
      exact hd hf
    | free m =>
      cases hs
      exact hd hf
    | txError op err => cases op <;> simp [enabled, hf] at hen
    | _ => simp [enabled, hf] at hen
  | active =>
    rcases (step_moves hp hen hs).control with hk | ⟨_, hc, _⟩ | ⟨_, hf', _⟩
    · simp [hk.fsm.2 hf] at hi
    · obtain ⟨_, hw, hst, _⟩ := hc.wait
      exact wait_drained hw hst hi
    · simp [hf'] at hi
  | stopping =>
    cases step_turns hf (hp.closing (by simp [hf])) hen hs with
    | same _ _ _ hsame => simp [hsame, hf] at hi
    | expired _ h' => simp [h', hf] at hi
    | again _ h' => simp [h', hf] at hi
    | waits hw hst | waitsKeepalive hw hst | waitsTimer hw hst | waitsTx hw hst =>
      exact wait_drained hw hst hi

theorem reachable_drained (h : machine.Reachable s) (hf : s.fsm = .idle) :
    s.ingress.bufs.popHead = none := by
  refine (h.invariant
    (I := fun s => Phase s ∧ (s.fsm = .idle → s.ingress.bufs.popHead = none)) ?_ ?_).2 hf
  · intro s hi
    obtain ⟨u, _, _, rfl⟩ := machine_init hi
    exact ⟨u.started_phase, fun h' => by cases h'⟩
  · rintro s e s' ⟨hp, hd⟩ he hs
    exact ⟨(step_moves hp he hs).phase hp, step_drained hp hd he hs⟩

end Stopped

/-- The messages of a run that ends with `nn_sofi_term` in `s`, which leaves `s'`: what was sent
was released once, what has arrived was handed to nanomsg, and nothing else refers to the
chunks than the messages that nanomsg still holds. -/
structure Owned (h : List (Sofi × Event)) (s s' : Sofi) : Prop where
  sent : ∀ n < ((ledger h).replay s.egress.termDeeds).things.length,
    ((ledger h).replay s.egress.termDeeds).drops n = 1
  received : Machine.collect fetched h = Machine.collect arrived h
  chunks : ∀ b < s.ingress.max, (s'.ingress.chunk b).refs = Held.sharing b s'.ingress.held

/-- All messages are accounted for in the end just when no step of the run lost one. -/
theorem owned_iff {h : List (Sofi × Event)} {s s' : Sofi} {close : Nat → Int} {closeSlab : Int}
    (r : machine.Run h s) (ht : s.term close closeSlab = .ok s') :
    Owned h s s' ↔ Machine.Guarded (fun s e => KeepsSent s e ∧ KeepsReceived s e) h := by
  obtain ⟨hf, hh, hc⟩ := term_inv ht
  obtain ⟨hst, hb, hw⟩ := run_booked r
  obtain ⟨fl, bl, hs⟩ := hst.sending
  rw [staging_closing (hst.phase.closing (by simp [hf]))] at hb hw
  obtain ⟨hk, hw'⟩ := hb.term hs.holds
  obtain ⟨_, F, B, Q, hr⟩ := reachable_receiving r.reachable
  obtain ⟨B₁, htidy⟩ := hr.exists_tidy
  have hq : s.ingress.queue = [] := by
    have hp := reachable_drained r.reachable hf
    rw [htidy.lists.popHead, List.head?_eq_none_iff] at hp
    rw [hr.queue_eq, hp, List.map_nil]
  have hrec := run_complete r
  rw [Complete, hq, List.append_nil] at hrec
  have hsplit : Machine.Guarded (fun s e => KeepsSent s e ∧ KeepsReceived s e) h ↔
      Machine.Guarded KeepsSent h ∧ Machine.Guarded KeepsReceived h :=
    forall₂_and
  rw [hsplit, ← hw, ← hrec, ← hw', hk.whole_iff_dropped]
  constructor
  · intro ho
    exact ⟨ho.sent, ho.received⟩
  · rintro ⟨hsent, hreceived⟩
    refine ⟨hsent, hreceived, fun b hb => ?_⟩
    have hrefs := run_refs r b
    rw [hc b hb, hh]
    rw [hreceived] at hrefs
    omega

theorem owned_exchange : ∃ (h : List (Sofi × Event)) (s s' : Sofi), machine.Run h s ∧
    s.term (fun _ => 0) 0 = .ok s' ∧ Owned h s s' ∧ s.ingress.held = [⟨0, [1]⟩] := by
  obtain ⟨h, s, r, hg, hp⟩ := Machine.exists_guarded (M := machine)
    (C := fun s e => KeepsSent s e ∧ KeepsReceived s e)
    (c := fun s e => KeepsSent s e ∧ (s.ingress.nnbusy ∨ s.ingress.bufs.popHead = none) ∧
      (s.state = .closing → e.isRecv = false))
    [.eq FI_CONNECTED 0 .easy, .send ⟨⟨0, 0⟩, ⟨0x20000, 8⟩⟩ .easy, .rxCompleted 0 [1] 0 0,
      .recv 0, .txCompleted 0, .stop, .keepalive .stopped 0, .shutdownTimer .timeout,
      .shutdownTimer .stopped, .eq FI_SHUTDOWN 0 .easy, .shutdownTimer .stopped]
    (fun s => (s.term (fun _ => 0) 0).toOption.isSome ∧ s.ingress.held = [⟨0, [1]⟩])
    (fun s e hc => by
      obtain ⟨hk, hb, hv⟩ := of_decide_eq_true hc
      exact ⟨hk, fun _ => hb, fun hst he => by simp [hv hst] at he⟩)
    fresh_init (by decide)
  obtain ⟨ht, hh⟩ := of_decide_eq_true hp
  cases hs : s.term (fun _ => 0) 0 with
  | error f => simp [hs, Except.toOption] at ht
  | ok s' => exact ⟨h, s, s', r, hs, (owned_iff r hs).2 hg, hh⟩

/-- A SOFI is stopped with three messages unread, and is sent one more.  That one is never
released, and nanomsg is not given the last of the three. -/
theorem stopped_messages_lost : ∃ (h : List (Sofi × Event)) (s s' : Sofi), machine.Run h s ∧
    s.term (fun _ => 0) 0 = .ok s' ∧ (∃ n < ((ledger h).replay s.egress.termDeeds).things.length,
      ((ledger h).replay s.egress.termDeeds).drops n = 0) ∧
    (Machine.collect fetched h).length = 2 ∧ (Machine.collect arrived h).length = 3 ∧
    ¬ Owned h s s' := by
  obtain ⟨⟨h, s⟩, hr, hp⟩ := Machine.exists_reachable (M := machine.recorded (fun _ _ => true))
    [.eq FI_CONNECTED 0 .easy, .send ⟨⟨0, 0⟩, ⟨0x20000, 8⟩⟩ .easy, .txCompleted 0,
      .rxCompleted 0 [1] 0 0, .rxCompleted 1 [2] 0 0, .rxCompleted 2 [3] 0 0, .stop,
      .send ⟨⟨0, 0⟩, ⟨0x20000, 8⟩⟩ .easy, .recv 0, .recv 0, .keepalive .stopped 0,
      .shutdownTimer .timeout, .shutdownTimer .stopped, .shutdownTimer .timeout,
      .shutdownTimer .stopped]
    (fun q => (q.2.term (fun _ => 0) 0).toOption.isSome ∧
      (∃ n < ((ledger q.1).replay q.2.egress.termDeeds).things.length,
        ((ledger q.1).replay q.2.egress.termDeeds).drops n = 0) ∧
      (Machine.collect fetched q.1).length = 2 ∧ (Machine.collect arrived q.1).length = 3)
    (s := ([], fresh)) ⟨rfl, fresh_init⟩ (by decide)
  obtain ⟨ht, hlost, hf, ha⟩ := of_decide_eq_true hp
  cases hs : s.term (fun _ => 0) 0 with
  | error f => simp [hs, Except.toOption] at ht
  | ok s' =>
    refine ⟨h, s, s', hr.of_recorded.1, hs, hlost, hf, ha, fun ho => ?_⟩
    have hlen : 2 = 3 := hf.symm.trans ((congrArg List.length ho.received).trans ha)
    omega

end Sofi

end OfiTransport
