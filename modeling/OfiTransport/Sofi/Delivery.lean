import OfiTransport.Sofi.Receive

/-! The messages that nanomsg holds share their chunks with the ingress buffers.  What
becomes of such a chunk while the message is alive. -/

namespace OfiTransport

open Lib

namespace Ingress

structure Delivery (i : Ingress) (Q : List Nat) : Prop where
  queue : ∀ b ∈ Q, b ∉ i.posted ∧ (i.chunk b).shown = i.msg b
  held : i.touched = [] → ∀ m ∈ i.held, m.buf ∉ i.posted ∧ (i.chunk m.buf).shown = m.bytes

def NextUnheld (i : Ingress) : Prop := ∀ b, i.bufs.free = some b → i.isHeld b = false

variable {i i' : Ingress} {F B Q : List Nat} {b : Nat}

theorem isHeld_iff : i.isHeld b = true ↔ ∃ m ∈ i.held, m.buf = b := by
  simp [isHeld]

theorem Delivery.not_held (h : Delivery i Q) (ht : i.touched = []) (hb : b ∈ i.posted) :
    i.isHeld b = false := by
  rw [← Bool.not_eq_true, isHeld_iff]
  rintro ⟨m, hm, rfl⟩
  exact (h.held ht m hm).1 hb

@[simp] theorem touch_posted (i : Ingress) (b : Nat) : (i.touch b).posted = i.posted := rfl

theorem Unused.nextUnheld (h : Unused i F B Q) : i.NextUnheld := by
  intro b _
  simp [isHeld, h.held]

theorem touch_touched : (i.touch b).touched = [] ↔ i.touched = [] ∧ i.isHeld b = false := by
  simp only [touch]
  cases i.isHeld b <;> simp

theorem Delivery.post (hd : Delivery i Q) (h : i.bufs.Holds i.max [] F B Q) (r : Int) :
    Delivery (i.post r).2 Q ∧
      ((i.post r).2.touched = [] ↔ i.touched = [] ∧ i.NextUnheld) := by
  rcases post_cases h r with ⟨rfl, hp⟩ | ⟨b, F₁, q, rfl, ⟨hr, hq, hp⟩ | ⟨rfl, hq, hp⟩⟩
  · rw [hp]
    exact ⟨hd, by simp [NextUnheld, h.free]⟩
  · have ht : (i.touch b).touched = [] ↔ i.touched = [] ∧ i.NextUnheld := by
      rw [touch_touched, NextUnheld, h.free]
      simp
    rw [hp]
    exact ⟨⟨hd.queue, fun h' => hd.held (ht.1 h').1⟩, ht⟩
  · have ht : (i.touch b).touched = [] ↔ i.touched = [] ∧ i.NextUnheld := by
      rw [touch_touched, NextUnheld, h.free]
      simp
    have hbQ : b ∉ Q := by
      have hnd := h.nodup
      simp only [List.nil_append, List.cons_append, List.nodup_cons, List.mem_append, not_or] at hnd
      exact hnd.1.2.2
    rw [hp]
    refine ⟨⟨?_, ?_⟩, ht⟩
    · intro c hc
      obtain ⟨hcp, hcs⟩ := hd.queue c hc
      refine ⟨?_, hcs⟩
      rw [List.mem_cons, not_or]
      exact ⟨fun e => hbQ (e ▸ hc), hcp⟩
    · intro h' m hm
      obtain ⟨ht', hu⟩ := ht.1 h'
      obtain ⟨hmp, hms⟩ := hd.held ht' m hm
      refine ⟨?_, hms⟩
      rw [List.mem_cons, not_or]
      refine ⟨fun e => ?_, hmp⟩
      have hb := hu b h.free
      rw [← Bool.not_eq_true, isHeld_iff] at hb
      exact hb ⟨m, hm, e⟩

theorem Delivery.postLate (hd : Delivery i Q) (h : i.bufs.Holds i.max [] F B Q) (r : Int) :
    Delivery (i.postLate r) Q ∧ ((i.postLate r).touched = [] ↔
      i.touched = [] ∧ (i.postlater = true → i.NextUnheld)) := by
  simp only [Ingress.postLate]
  cases hl : i.postlater with
  | false =>
    simp only [Bool.false_eq_true, if_false]
    exact ⟨hd, by simp⟩
  | true =>
    obtain ⟨hd', ht⟩ := Delivery.post (i := { i with postlater := false }) ⟨hd.queue, hd.held⟩ h r
    simp only [if_true]
    refine ⟨hd', ht.trans ?_⟩
    simp [NextUnheld, isHeld]

theorem Delivery.arrive (hd : Delivery i Q) (hb : b ∈ i.posted) (bytes : List UInt8) :
    Delivery (Sofi.arrive i b bytes) Q := by
  have hne : ∀ c, c ∉ i.posted → c ∉ i.posted.erase b ∧
      (Sofi.arrive i b bytes).chunk c = i.chunk c := by
    intro c hc
    refine ⟨fun h' => hc (List.mem_of_mem_erase h'), ?_⟩
    have hcb : c ≠ b := fun e => hc (e ▸ hb)
    simp [Sofi.arrive, hcb]
  refine ⟨?_, ?_⟩
  · intro c hc
    obtain ⟨hcp, hcs⟩ := hd.queue c hc
    obtain ⟨h₁, h₂⟩ := hne c hcp
    exact ⟨h₁, h₂ ▸ hcs⟩
  · intro ht m hm
    obtain ⟨hmp, hms⟩ := hd.held ht m hm
    obtain ⟨h₁, h₂⟩ := hne m.buf hmp
    exact ⟨h₁, h₂ ▸ hms⟩

theorem Delivery.removePosted (hd : Delivery i Q) (b : Nat) :
    Delivery (Sofi.removePosted i b) Q := by
  refine ⟨?_, ?_⟩
  · intro c hc
    obtain ⟨hcp, hcs⟩ := hd.queue c hc
    exact ⟨fun h' => hcp (List.mem_of_mem_erase h'), hcs⟩
  · intro ht m hm
    obtain ⟨hmp, hms⟩ := hd.held ht m hm
    exact ⟨fun h' => hmp (List.mem_of_mem_erase h'), hms⟩

theorem Delivery.freeMessage (hd : Delivery i Q) (m : Held) :
    Delivery (Sofi.freeMessage i m) Q := by
  have hs : ∀ c, ((Sofi.freeMessage i m).chunk c).shown = (i.chunk c).shown := by
    intro c
    by_cases hc : c = m.buf
    · subst hc
      simp [Sofi.freeMessage, Chunk.shown]
    · simp [Sofi.freeMessage, hc]
  refine ⟨?_, ?_⟩
  · intro c hc
    rw [hs]
    exact hd.queue c hc
  · intro ht n hn
    rw [hs]
    exact hd.held ht n (List.mem_of_mem_erase hn)

theorem postLate_free (h : i.bufs.Holds i.max [] (b :: F) B Q) (late : Int) :
    (i.postLate late).bufs.free = if i.postlater = true ∧ late = 0 then F.head? else some b := by
  simp only [Ingress.postLate]
  cases i.postlater with
  | false => simpa using h.free
  | true =>
    rcases post_cases (i := { i with postlater := false }) h late with
      ⟨he, _⟩ | ⟨c, F₁, q, he, ⟨hr, hq, hp⟩ | ⟨hr, hq, hp⟩⟩
    · cases he
    · rw [if_pos rfl, hp]
      simpa [hr] using hq.free
    · cases he
      rw [if_pos rfl, hp]
      simpa [hr] using hq.free

theorem Delivery.handle_data {len : Nat} (hd : Delivery i Q) (hk : i.isKeepalive b len = false)
    (hbp : b ∉ i.posted) (hbQ : b ∉ Q) (hu : i.touched = [] → i.isHeld b = false) (late : Int) :
    Delivery (i.handle late b len) (Q ++ [b]) ∧
      ((i.handle late b len).touched = [] ↔ i.touched = []) := by
  have ht : (i.touch b).touched = [] ↔ i.touched = [] := by
    rw [touch_touched]
    exact ⟨And.left, fun h => ⟨h, hu h⟩⟩
  rw [Ingress.handle_data hk]
  refine ⟨⟨?_, ?_⟩, ht⟩
  · intro c hc
    rw [List.mem_append, List.mem_singleton] at hc
    rcases hc with hc | rfl
    · have hcb : c ≠ b := fun e => hbQ (e ▸ hc)
      simpa [hcb] using hd.queue c hc
    · exact ⟨hbp, by simp [Chunk.shown]⟩
  · intro h₁ m hm
    have h₀ := ht.1 h₁
    have hmb : m.buf ≠ b := by
      intro e
      have hn := hu h₀
      rw [← Bool.not_eq_true, isHeld_iff] at hn
      exact hn ⟨m, hm, e⟩
    simpa [hmb] using hd.held h₀ m hm

theorem Delivery.complete {late r : Int} {len : Nat} (hd : Delivery (i.handle late b len) Q)
    (h : (i.handle late b len).bufs.Holds (i.handle late b len).max [] F B Q) :
    Delivery (Sofi.complete late r i b len) Q ∧ ((Sofi.complete late r i b len).touched = [] ↔
      (i.handle late b len).touched = [] ∧ (i.handle late b len).NextUnheld) := by
  obtain ⟨l, he⟩ := complete_eq late r i b len
  obtain ⟨hd', ht⟩ := hd.post h r
  rw [he]
  exact ⟨⟨hd'.queue, hd'.held⟩, ht⟩

theorem Delivery.complete_data {bytes : List UInt8} (hd : Delivery i Q) (h : Open i F B Q)
    (hb : b ∈ i.posted) (hne : bytes ≠ keepalivePacket) (late r : Int) :
    let i' := Sofi.complete late r (Sofi.arrive i b bytes) b bytes.length
    Delivery i' (Q ++ [b]) ∧ (i.touched = [] → (i'.touched = [] ↔ i.NextUnheld)) := by
  obtain ⟨B₁, B₂, rfl, hp⟩ := h.arrive hb bytes
  have hk : (Sofi.arrive i b bytes).isKeepalive b bytes.length = false := by
    rw [← Bool.not_eq_true, isKeepalive_arrive]
    exact hne
  have hnd := h.lists.nodup
  simp only [List.nil_append, List.nodup_append, List.nodup_cons, List.mem_append,
    List.mem_cons] at hnd
  have hbp : b ∉ (Sofi.arrive i b bytes).posted := by
    rw [hp.mem_iff, List.mem_append]
    grind
  have hbQ : b ∉ Q := by grind
  obtain ⟨hd₁, ht₁⟩ := Delivery.handle_data (hd.arrive hb bytes) hk hbp hbQ
    (fun ht => hd.not_held ht hb) late
  have hl : ((Sofi.arrive i b bytes).handle late b bytes.length).bufs.Holds
      ((Sofi.arrive i b bytes).handle late b bytes.length).max [] F (B₁ ++ B₂) (Q ++ [b]) := by
    rw [Ingress.handle_data hk]
    exact h.lists.markPopulated
  obtain ⟨hd₂, ht₂⟩ := Delivery.complete (r := r) hd₁ hl
  refine ⟨hd₂, fun ht => ht₂.trans ?_⟩
  rw [ht₁, NextUnheld, hl.free, NextUnheld, h.lists.free, Ingress.handle_data hk]
  simp only [Sofi.arrive, ht, true_and]
  rfl

theorem Delivery.complete_keepalive (hd : Delivery i Q) (h : Open i F B Q) (hb : b ∈ i.posted)
    (late r : Int) :
    let i' := Sofi.complete late r (Sofi.arrive i b keepalivePacket) b keepalivePacket.length
    Delivery i' Q ∧ (i.touched = [] →
      (i'.touched = [] ↔ (i.postlater = true ∧ late = 0 → i.NextUnheld))) := by
  obtain ⟨B₁, B₂, rfl, hp⟩ := h.arrive hb keepalivePacket
  have hk := (isKeepalive_arrive i b keepalivePacket).2 rfl
  have hd₀ := hd.arrive hb keepalivePacket
  generalize hi₁ : { Sofi.arrive i b keepalivePacket with
    bufs := (Sofi.arrive i b keepalivePacket).bufs.markFree b } = i₁
  have hl₁ : i₁.bufs.Holds i₁.max [] (b :: F) (B₁ ++ B₂) Q := by
    rw [← hi₁]
    exact h.lists.markFree_busy
  have hd₁ : Delivery i₁ Q := by
    rw [← hi₁]
    exact ⟨hd₀.queue, hd₀.held⟩
  have ht₁ : i₁.touched = i.touched ∧ i₁.held = i.held ∧ i₁.postlater = i.postlater := by
    rw [← hi₁]
    exact ⟨rfl, rfl, rfl⟩
  have hh : (Sofi.arrive i b keepalivePacket).handle late b keepalivePacket.length =
      Ingress.postLate late i₁ := by
    rw [handle_keepalive hk, hi₁]
  obtain ⟨F₂, B₃, hl₂, _⟩ := postLate_lists hl₁ late
  obtain ⟨hd₂, ht₂⟩ := hd₁.postLate hl₁ late
  rw [← (postLate_reposts i₁ late).max, ← hh] at hl₂
  rw [← hh] at hd₂ ht₂
  obtain ⟨hd₃, ht₃⟩ := Delivery.complete (r := r) hd₂ hl₂
  refine ⟨hd₃, fun ht => ht₃.trans ?_⟩
  have hu : i.isHeld b = false := hd.not_held ht hb
  have hheld : ∀ c, (Ingress.postLate late i₁).isHeld c = i.isHeld c := by
    intro c
    rw [isHeld, (postLate_reposts i₁ late).held, ht₁.2.1, isHeld]
  have hnext : i₁.NextUnheld := by
    intro c hc
    rw [hl₁.free, List.head?_cons, Option.some.injEq] at hc
    rw [isHeld, ht₁.2.1, ← hc]
    exact hu
  have hnext₂ : (Ingress.postLate late i₁).NextUnheld ↔
      (i.postlater = true ∧ late = 0 → i.NextUnheld) := by
    rw [NextUnheld, postLate_free hl₁, ht₁.2.2, NextUnheld, h.lists.free]
    by_cases hc : i.postlater = true ∧ late = 0
    · rw [if_pos hc]
      simp only [hheld]
      exact ⟨fun h' _ => h', fun h' => h' hc⟩
    · rw [if_neg hc]
      refine iff_of_true ?_ (fun h' => absurd h' hc)
      rintro c hc
      cases hc
      exact (hheld b).trans hu
  rw [ht₂, hh, hnext₂, ht₁.1]
  simp only [ht, hnext, implies_true, true_and]

theorem Delivery.handOver (hd : Delivery i (b :: Q)) (q : Buffers) :
    Delivery (i.handOver b q) Q := by
  refine ⟨fun c hc => hd.queue c (List.mem_cons_of_mem b hc), ?_⟩
  intro ht m hm
  rcases List.mem_cons.1 hm with rfl | hm
  · exact hd.queue b List.mem_cons_self
  · exact hd.held ht m hm

theorem Delivery.flush (hd : Delivery i Q) (h : i.bufs.Holds i.max [] F B Q)
    (hf : i.flush = .ok i') :
    i'.touched = i.touched ∧ ∃ F' Q', i'.bufs.Holds i'.max [] F' [] Q' ∧ Delivery i' Q' := by
  rcases flush_cases h hf with ⟨_, q, hq, rfl⟩ | ⟨_, q, hq, rfl⟩
  · exact ⟨rfl, _, _, hq, hd.queue, hd.held⟩
  · exact ⟨rfl, _, [], hq, ⟨fun c hc => absurd hc List.not_mem_nil, hd.held⟩⟩

theorem Delivery.fetch {late : Int} (hd : Delivery i Q) (h : i.bufs.Holds i.max [] F B Q)
    (hf : Ingress.fetch late { i with received := i.received - 1 } = .ok (0, i')) :
    (i'.touched = [] ↔ i.touched = [] ∧ i.postlater = false) ∧
      ∃ F' B' Q', i'.bufs.Holds i'.max [] F' B' Q' ∧ Delivery i' Q' := by
  obtain ⟨b, Q₁, q, rfl, hb, hq, hc⟩ :=
    fetch_cases (i := { i with received := i.received - 1 }) h hf
  generalize hi₀ : ({ i with received := i.received - 1 } : Ingress).handOver b q = i₀ at hc
  have hd₀ : Delivery i₀ Q₁ := by
    rw [← hi₀]
    exact Delivery.handOver (i := { i with received := i.received - 1 }) ⟨hd.queue, hd.held⟩ q
  have hl₀ : i₀.bufs.Holds i₀.max [] (b :: F) B Q₁ := by
    rw [← hi₀]
    exact hq
  have hu : ¬ i₀.NextUnheld := by
    intro hn
    have hn := hn b (by rw [hl₀.free]; rfl)
    rw [← Bool.not_eq_true, isHeld_iff, ← hi₀] at hn
    exact hn ⟨_, List.mem_cons_self, rfl⟩
  obtain ⟨hd₁, ht₁⟩ := hd₀.postLate hl₀ late
  obtain ⟨F₁, B₁, hl₁, _⟩ := postLate_lists hl₀ late
  rw [← (postLate_reposts i₀ late).max] at hl₁
  have ht : (i₀.postLate late).answered.touched = [] ↔ i.touched = [] ∧ i.postlater = false := by
    refine ht₁.trans ?_
    rw [← Bool.not_eq_true, ← hi₀] at *
    simp only [hu, imp_false]
    rfl
  have hd₁' : Delivery (i₀.postLate late).answered Q₁ := ⟨hd₁.queue, hd₁.held⟩
  rcases hc with ⟨_, rfl⟩ | ⟨_, hfl⟩
  · exact ⟨ht, F₁, B₁, Q₁, hl₁, hd₁'⟩
  · obtain ⟨ht', F', Q', hl', hd'⟩ := hd₁'.flush hl₁ hfl
    exact ⟨ht' ▸ ht, F', [], Q', hl', hd'⟩

end Ingress

namespace Sofi

variable {s s' s₁ : Sofi} {e : Event} {F B Q F' B' Q' : List Nat}

theorem Receiving.lists (h : Receiving s F B Q) :
    ∃ B', s.ingress.bufs.Holds s.ingress.max [] F B' Q := by
  obtain ⟨B', ht⟩ := h.exists_tidy
  exact ⟨B', ht.lists⟩

theorem Receiving.queue_unique (h : Receiving s F B Q)
    (h' : s.ingress.bufs.Holds n D F' B' Q') : Q' = Q := by
  obtain ⟨_, hl⟩ := h.lists
  exact h'.popList.chain.unique hl.popList.chain (h'.popHead.symm.trans hl.popHead)

/-- No buffer was posted or its chunk reset while nanomsg held its message, and the messages
that nanomsg holds are those of their completions. -/
def MessagesKept (s : Sofi) : Prop :=
  s.ingress.touched = [] ∧ ∀ m ∈ s.ingress.held, (s.ingress.chunk m.buf).shown = m.bytes

/-- A read finds POSTLATER clear, and a completion is not followed by posting a buffer that
is shared with nanomsg. -/
def PostsUnheld (s : Sofi) : Event → Prop
  | .recv _ => s.ingress.postlater = false
  | .rxCompleted _ bytes late _ => s.state = .active →
    (bytes = keepalivePacket → s.ingress.postlater = true ∧ late = 0) → s.ingress.NextUnheld
  | _ => True

instance (i : Ingress) : Decidable i.NextUnheld :=
  inferInstanceAs (Decidable (∀ b ∈ i.bufs.free, i.isHeld b = false))

instance (s : Sofi) : DecidablePred (PostsUnheld s)
  | .recv _ => inferInstanceAs (Decidable (_ = _))
  | .rxCompleted .. => inferInstanceAs (Decidable (_ → _ → _))
  | .eq .. | .txCompleted _ | .txError .. | .rxError .. | .keepalive .. | .shutdownTimer _
  | .send .. | .stop | .free _ => .isTrue trivial

theorem postsUnheld_of_passive (h : e.Passive s) : PostsUnheld s e := by
  cases e with
  | rxCompleted => exact h.elim
  | recv => exact h.elim
  | _ => trivial

theorem postsUnheld_of_breaks (h : e.Breaks s) : PostsUnheld s e := by
  cases e with
  | rxCompleted => exact h.elim
  | recv => exact h.elim
  | _ => trivial

theorem Closes.delivery (h : Closes s₁ s') (hl : s₁.ingress.bufs.Holds s₁.ingress.max [] F B Q)
    (hd : s₁.ingress.Delivery Q) (hr : Receiving s' F' B' Q') :
    s'.ingress.Delivery Q' ∧ s'.ingress.touched = s₁.ingress.touched := by
  obtain ⟨ht, _, Q₁, hl', hd'⟩ := hd.flush hl h.ingress
  exact ⟨hr.queue_unique hl' ▸ hd', ht⟩

structure Delivers (s : Sofi) (e : Event) (s' : Sofi) (Q' : List Nat) : Prop where
  delivery : s'.ingress.Delivery Q'
  touched : s.ingress.touched = [] → (s'.ingress.touched = [] ↔ PostsUnheld s e)

theorem Moves.delivers (h : Moves s e s') (hen : s.enabled e = true) (hr : Receiving s F B Q)
    (hd : s.ingress.Delivery Q) (hr' : Receiving s' F' B' Q') : Delivers s e s' Q' := by
  obtain ⟨B₁, hl⟩ := hr.lists
  have closes : ∀ {s₁ : Sofi}, Closes s₁ s' → s₁.ingress = s.ingress → PostsUnheld s e →
      Delivers s e s' Q' := by
    intro s₁ hc hi hu
    obtain ⟨hd', ht⟩ := hc.delivery (hi ▸ hl) (hi ▸ hd) hr'
    refine ⟨hd', fun h₀ => iff_of_true ?_ hu⟩
    rw [ht, hi, h₀]
  have lists : ∀ i : Ingress, i.bufs = s.ingress.bufs → i.max = s.ingress.max →
      i.bufs.Holds i.max [] F B₁ Q := by
    intro i hb hm
    rw [hb, hm]
    exact hl
  have frame : s'.ingress.bufs = s.ingress.bufs → s'.ingress.max = s.ingress.max →
      s'.ingress.touched = s.ingress.touched → s'.ingress.Delivery Q → PostsUnheld s e →
      Delivers s e s' Q' := by
    intro hb hm ht hd' hu
    have hQ := hr'.queue_unique (lists _ hb hm)
    exact ⟨hQ ▸ hd', fun h₀ => iff_of_true (ht.trans h₀) hu⟩
  have keeps : s'.ingress = s.ingress → PostsUnheld s e → Delivers s e s' Q' := fun hi hu =>
    frame (by rw [hi]) (by rw [hi]) (by rw [hi]) (hi ▸ hd) hu
  cases h with
  | stay he hk hi ho => exact keeps hi (postsUnheld_of_passive he)
  | close hc _ hf he hi ho =>
    refine closes hc hi ?_
    rcases he with he | ⟨rfl, _⟩
    · exact postsUnheld_of_breaks he
    · trivial
  | sent ho hst hk hi hpb hout => exact keeps hi trivial
  | sendFailed hc _ ho hst hne hpb hi hout herr => exact closes hc hi trivial
  | @connected r p _ hst hfsm hst' herr hout _ hra hi ho =>
    have hun := (hr.connecting hst).nextUnheld
    obtain ⟨hd₁, ht⟩ := hd.post hl r
    obtain ⟨F₁, B₂, hl₁, _⟩ := Ingress.post_lists hl r
    rw [← hi] at hd₁ ht hl₁
    exact ⟨hr'.queue_unique hl₁ ▸ hd₁, fun h₀ => iff_of_true (ht.2 ⟨h₀, hun⟩) trivial⟩
  | @connectFailed _ _ r _ hc _ hst hi ho =>
    have hun := (hr.connecting hst).nextUnheld
    obtain ⟨hd₁, ht⟩ := hd.post hl r
    obtain ⟨F₁, B₂, hl₁, _⟩ := Ingress.post_lists hl r
    rw [← (Ingress.post_reposts s.ingress r).max] at hl₁
    rw [← hi] at hd₁ ht hl₁
    obtain ⟨hd', ht'⟩ := hc.delivery hl₁ hd₁ hr'
    exact ⟨hd', fun h₀ => iff_of_true (ht' ▸ ht.2 ⟨h₀, hun⟩) trivial⟩
  | txCompleted he hk hi hh => exact keeps hi trivial
  | txFailed hc _ hf hi hh herr => exact closes hc hi trivial
  | txErrored hf he hk hi hh => exact keeps hi trivial
  | txDiscarded hev hf he hk hi ho =>
    rcases hev with rfl | ⟨err, rfl⟩ <;> exact keeps hi trivial
  | @rxCompleted _ late r b bytes hst hk ho hi =>
    simp only [enabled, decide_eq_true_eq] at hen
    have hop := hr.running (by simp [hst])
    by_cases hb : bytes = keepalivePacket
    · subst hb
      obtain ⟨_, _, hop', _⟩ := hop.complete_keepalive hen.2.1 late r
      obtain ⟨hd', ht⟩ := hd.complete_keepalive hop hen.2.1 late r
      rw [← hi] at hop' hd' ht
      exact ⟨hr'.queue_unique hop'.lists ▸ hd', by simpa [PostsUnheld, hst] using ht⟩
    · obtain ⟨_, _, hop', _⟩ := hop.complete_data hen.2.1 hb late r
      obtain ⟨hd', ht⟩ := hd.complete_data hop hen.2.1 hb late r
      rw [← hi] at hop' hd' ht
      exact ⟨hr'.queue_unique hop'.lists ▸ hd', by simpa [PostsUnheld, hst, hb] using ht⟩
  | @rxDrained _ b bytes _ _ hst hk ho hi =>
    simp only [enabled, decide_eq_true_eq] at hen
    have hd' := hd.arrive hen.2.1 bytes
    rw [← hi] at hd'
    refine frame (by rw [hi]; rfl) (by rw [hi]; rfl) (by rw [hi]; rfl) hd' fun h' => ?_
    simp [hst] at h'
  | @rxFailed _ _ b _ hc _ hst hi ho herr =>
    have hd₁ := hd.removePosted b
    rw [← hi] at hd₁
    obtain ⟨hd', ht⟩ := hc.delivery (lists _ (by rw [hi]; rfl) (by rw [hi]; rfl)) hd₁ hr'
    refine ⟨hd', fun h₀ => iff_of_true ?_ trivial⟩
    rw [ht, hi]
    exact h₀
  | @rxErrored _ b _ hst hk ho hi =>
    have hd' := hd.removePosted b
    rw [← hi] at hd'
    exact frame (by rw [hi]; rfl) (by rw [hi]; rfl) (by rw [hi]; rfl) hd' trivial
  | fetched hk ho hi =>
    obtain ⟨ht, F₁, B₂, Q₁, hl', hd'⟩ := hd.fetch hl hi
    refine ⟨hr'.queue_unique hl' ▸ hd', fun h₀ => ht.trans ?_⟩
    simp only [h₀, true_and]
    rfl
  | @freed _ m hk ho hi =>
    have hd' := hd.freeMessage m
    rw [← hi] at hd'
    exact frame (by rw [hi]; rfl) (by rw [hi]; rfl) (by rw [hi]; rfl) hd' trivial

/-- Along a run delivered messages stay as they are exactly as long as no step posts a buffer
that is shared with nanomsg. -/
theorem always_messagesKept_iff {s : Sofi} {h : List (Sofi × Event)} (r : machine.Run h s) :
    Machine.Always MessagesKept h s ↔ Machine.Guarded PostsUnheld h := by
  refine r.always_iff_guarded (I := fun s => Phase s ∧
    ∃ F B Q, Receiving s F B Q ∧ s.ingress.Delivery Q) ?_ ?_ ?_
  · intro s hi
    obtain ⟨u, h₁, _, rfl⟩ := machine_init hi
    refine ⟨⟨u.started_phase, _, _, _, Setup.started_receiving h₁, ⟨?_, ?_⟩⟩, rfl, ?_⟩
    · exact fun b hb => absurd hb List.not_mem_nil
    · exact fun _ m hm => absurd hm List.not_mem_nil
    · exact fun m hm => absurd hm List.not_mem_nil
  · rintro s e s' ⟨hp, F, B, Q, hr, hd⟩ he h
    have hm := step_moves hp he h
    obtain ⟨F', B', Q', hr'⟩ := hm.receiving he hp hr
    exact ⟨hm.phase hp, F', B', Q', hr', (hm.delivers he hr hd hr').delivery⟩
  · rintro s e s' ⟨hp, F, B, Q, hr, hd⟩ ⟨ht, _⟩ he h
    have hm := step_moves hp he h
    obtain ⟨F', B', Q', hr'⟩ := hm.receiving he hp hr
    obtain ⟨hd', hiff⟩ := hm.delivers he hr hd hr'
    rw [← hiff ht]
    exact ⟨And.left, fun ht' => ⟨ht', fun m hm => (hd'.held ht' m hm).2⟩⟩

theorem exchange_messagesKept : ∃ (h : List (Sofi × Event)) (s : Sofi), machine.Run h s ∧
    (s.ingress.held = [⟨1, [2]⟩] ∧ (s.ingress.chunk 0).shown = [3]) ∧
      Machine.Always MessagesKept h s := by
  obtain ⟨h, s, r, hg, hp⟩ := Machine.exists_guarded (M := machine) (C := PostsUnheld)
    (c := fun s e => PostsUnheld s e) exchange
    (fun s => s.ingress.held = [⟨1, [2]⟩] ∧ (s.ingress.chunk 0).shown = [3])
    (fun _ _ => of_decide_eq_true) fresh_init (by decide)
  exact ⟨h, s, r, of_decide_eq_true hp, (always_messagesKept_iff r).2 hg⟩

/-- Nanomsg keeps a message, and its buffer is posted again and filled by the next one. -/
theorem message_overwritten : ¬ ∀ s, machine.Reachable s → MessagesKept s := by
  intro h
  obtain ⟨s, hr, hc⟩ := Machine.exists_reachable
    [.eq FI_CONNECTED 0 .easy, .rxCompleted 0 [1] 0 0, .recv 0, .rxCompleted 1 [2] 0 0,
      .rxCompleted 0 [3] 0 0]
    (fun s => s.ingress.held = [⟨0, [1]⟩] ∧ (s.ingress.chunk 0).shown = [3]) fresh_init (by decide)
  obtain ⟨hheld, hs⟩ := of_decide_eq_true hc
  have hm := (h s hr).2 ⟨0, [1]⟩ (by simp [hheld])
  rw [hs] at hm
  simp at hm

end Sofi

end OfiTransport
