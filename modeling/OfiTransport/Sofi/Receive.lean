import OfiTransport.Sofi.Steps

/-! The receiving half along a run: what a step does to the lists of the buffers and to the
flags that stand between the SOFI and nanomsg. -/

namespace OfiTransport

open Lib

namespace Ingress

section Operations

variable {i i' : Ingress} {F B Q : List Nat}

/-- Posting takes the first free buffer, if there is one, and puts it back if it is refused.
A positive answer is taken for a success, too. -/
theorem post_cases (h : i.bufs.Holds i.max [] F B Q) (r : Int) :
    (F = [] ∧ i.post r = (-EAGAIN, i)) ∨ ∃ b F₁ q, F = b :: F₁ ∧
      ((r ≠ 0 ∧ q.Holds i.max [] F B Q ∧
          i.post r = (if r < 0 then r else 0, { i.touch b with bufs := q })) ∨
        (r = 0 ∧ q.Holds i.max [] F₁ (b :: B) Q ∧
          i.post r = (0, { i.touch b with bufs := q, posted := b :: i.posted }))) := by
  cases F with
  | nil => exact .inl ⟨rfl, by simp [post, h.popFree_nil]⟩
  | cons b F =>
    obtain ⟨q, hq, hh, hl⟩ := h.popFree
    refine .inr ⟨b, F, ?_⟩
    by_cases hr : r = 0
    · refine ⟨q.markBusy b, rfl, .inr ⟨hr, hh.markBusy, ?_⟩⟩
      simp only [post, hq, postBuffer, hr]
      rfl
    · refine ⟨q.markFree b, rfl, .inl ⟨hr, hh.markFree_loose hl, ?_⟩⟩
      simp only [post, hq, postBuffer, ne_eq, hr, not_false_eq_true, if_true]
      split <;> rfl

theorem post_lists (h : i.bufs.Holds i.max [] F B Q) (r : Int) :
    ∃ F' B', (i.post r).2.bufs.Holds i.max [] F' B' Q ∧
      (i.posted.Perm B → (i.post r).2.posted.Perm B') := by
  rcases post_cases h r with ⟨_, hp⟩ | ⟨b, F₁, q, rfl, ⟨_, hq, hp⟩ | ⟨_, hq, hp⟩⟩
  · rw [hp]
    exact ⟨_, _, h, id⟩
  · rw [hp]
    exact ⟨_, _, hq, id⟩
  · rw [hp]
    exact ⟨_, _, hq, fun hb => hb.cons b⟩

theorem postLate_lists (h : i.bufs.Holds i.max [] F B Q) (r : Int) :
    ∃ F' B', (i.postLate r).bufs.Holds i.max [] F' B' Q ∧
      (i.posted.Perm B → (i.postLate r).posted.Perm B') := by
  simp only [postLate]
  split
  · exact post_lists (i := { i with postlater := false }) h r
  · exact ⟨F, B, h, id⟩

theorem handle_keepalive {b len : Nat} (hk : i.isKeepalive b len = true) (late : Int) :
    i.handle late b len = postLate late { i with bufs := i.bufs.markFree b } := by
  simp [handle, hk]

theorem handle_data {b len : Nat} (hk : i.isKeepalive b len = false) (late : Int) :
    i.handle late b len = { i.touch b with
      chunk := Function.update i.chunk b
        { i.chunk b with size := len, refs := (i.chunk b).refs + 1 }
      msg := Function.update i.msg b ((i.chunk b).data.take len)
      bufs := i.bufs.markPopulated b
      nnbusy := true
      nnlater := if i.nnbusy then true else i.nnlater
      received := if i.nnbusy then i.received else i.received + 1 } := by
  simp only [handle, hk, Bool.false_eq_true, if_false]
  cases hb : i.nnbusy with
  | false => simp [touch, hb, notifyNanomsg]
  | true => simp [touch, hb]

def handOver (i : Ingress) (b : Nat) (q : Buffers) : Ingress :=
  { i with bufs := q, held := ⟨b, i.msg b⟩ :: i.held }

def answered (i : Ingress) : Ingress :=
  { i with
    nnbusy := i.nnlater
    nnlater := false
    received := if i.nnlater then i.received + 1 else i.received }

theorem fetch_eq {late : Int} {b : Nat} {q : Buffers} (hb : i.nnbusy = true)
    (hq : i.bufs.popPopulated = some (b, q)) :
    i.fetch late = (if i.flushFlag then
        ((i.handOver b (q.markFree b)).postLate late).answered.flush >>= fun i' => .ok (0, i')
      else .ok (0, ((i.handOver b (q.markFree b)).postLate late).answered)) := by
  have hfl := (postLate_reposts (i.handOver b (q.markFree b)) late).flushFlag
  simp only [handOver] at hfl ⊢
  simp only [fetch, nnAssert, if_pos hb, bind, Except.bind, hq]
  generalize postLate late { i with bufs := q.markFree b, held := ⟨b, i.msg b⟩ :: i.held } = i₁
    at hfl ⊢
  have ha : (if i₁.nnlater then { i₁ with nnbusy := false, nnlater := false }.notifyNanomsg
      else { i₁ with nnbusy := false }) = i₁.answered := by
    cases hn : i₁.nnlater <;> simp [answered, notifyNanomsg, hn]
  have hfl' : i₁.answered.flushFlag = i.flushFlag := hfl
  simp only [ha, hfl']
  rfl

theorem fetch_cases {late : Int} (h : i.bufs.Holds i.max [] F B Q)
    (hf : i.fetch late = .ok (0, i')) :
    ∃ b Q₁ q, Q = b :: Q₁ ∧ i.nnbusy = true ∧ q.Holds i.max [] (b :: F) B Q₁ ∧
      ((i.flushFlag = false ∧ i' = ((i.handOver b q).postLate late).answered) ∨
        (i.flushFlag = true ∧ ((i.handOver b q).postLate late).answered.flush = .ok i')) := by
  have hb : i.nnbusy = true := by
    simp only [fetch, bind_eq_ok, nnAssert_eq_ok] at hf
    exact hf.choose_spec.1
  cases Q with
  | nil =>
    simp [fetch, hb, nnAssert, bind, Except.bind, h.popPopulated_nil, EAGAIN, pure, Except.pure]
      at hf
  | cons b Q =>
    obtain ⟨q, hq, hh, hl⟩ := h.popPopulated
    refine ⟨b, Q, q.markFree b, rfl, hb, hh.markFree_loose hl, ?_⟩
    rw [fetch_eq hb hq] at hf
    cases hff : i.flushFlag with
    | false =>
      simp only [hff, Bool.false_eq_true, if_false, Except.ok.injEq, Prod.mk.injEq, true_and] at hf
      exact .inl ⟨rfl, hf.symm⟩
    | true =>
      simp only [hff, if_true, bind_eq_ok, Except.ok.injEq, Prod.mk.injEq, true_and] at hf
      obtain ⟨i₂, hi₂, rfl⟩ := hf
      exact .inr ⟨rfl, hi₂⟩

theorem flush_cases (h : i.bufs.Holds i.max [] F B Q) (hf : i.flush = .ok i') :
    (i.nnbusy = true ∧ ∃ q, q.Holds i.max [] (B.reverse ++ F) [] Q ∧
      i' = { i with bufs := q, flushFlag := true }) ∨
    (i.nnbusy = false ∧ ∃ q, q.Holds i.max [] (Q.reverse ++ (B.reverse ++ F)) [] [] ∧
      i' = { i with bufs := q, postlater := false, nnlater := false }) := by
  have hl := h.length
  obtain ⟨q, hq, hh⟩ := h.spread.flushBusy (show B.length ≤ i.max by omega)
  obtain ⟨q', hq', hh'⟩ := hh.flushPopulated (show Q.length ≤ i.max by omega)
  simp only [flush, hq, bind_eq_ok, Except.ok.injEq, exists_eq_left'] at hf
  cases hb : i.nnbusy with
  | true =>
    simp only [hb, if_true, pure_eq_ok] at hf
    exact .inl ⟨rfl, q, hh.toHolds, by rw [← hf, ← hb]⟩
  | false =>
    simp only [hb, Bool.false_eq_true, if_false, bind_eq_ok, hq', Except.ok.injEq, exists_eq_left',
      pure_eq_ok] at hf
    exact .inr ⟨rfl, q', hh'.toHolds, by rw [← hf, ← hb]⟩

end Operations

/-- The buffers are on the lists `F`, `B`, `Q`, and nanomsg has been told of the queue just
when NNBUSY is set. -/
structure Tidy (i : Ingress) (F B Q : List Nat) : Prop where
  lists : i.bufs.Holds i.max [] F B Q
  received : i.received = if i.nnbusy then 1 else 0

/-- Before the connection closes the busy buffers are the posted ones. -/
structure Open (i : Ingress) (F B Q : List Nat) : Prop extends Tidy i F B Q where
  posted : i.posted.Perm B
  flushFlag : i.flushFlag = false

/-- From the STOP action on no buffer is busy, and a queue is kept only until nanomsg has
answered. -/
structure Closed (i : Ingress) (F Q : List Nat) : Prop extends Tidy i F [] Q where
  flushFlag : i.nnbusy = true → i.flushFlag = true
  drained : i.nnbusy = false → Q = []

structure Flushes (i i' : Ingress) (Q Q' : List Nat) : Prop where
  nnbusy : i'.nnbusy = i.nnbusy
  busy : i.nnbusy = true → Q' = Q ∧ i'.nnlater = i.nnlater
  clear : i.nnbusy = false → Q' = [] ∧ i'.nnlater = false
  msg : i'.msg = i.msg
  held : i'.held = i.held

structure Fetches (i i' : Ingress) (b : Nat) : Prop where
  busy : i.nnbusy = true
  nnbusy : i'.nnbusy = i.nnlater
  nnlater : i'.nnlater = false
  msg : i'.msg = i.msg
  held : i'.held = ⟨b, i.msg b⟩ :: i.held

section Invariants

variable {i i' : Ingress} {F B Q : List Nat} {b : Nat}

theorem Tidy.flush (h : Tidy i F B Q) (hf : i.flush = .ok i') :
    ∃ F' Q', Closed i' F' Q' ∧ Flushes i i' Q Q' := by
  rcases flush_cases h.lists hf with ⟨hb, q, hq, rfl⟩ | ⟨hb, q, hq, rfl⟩
  · exact ⟨_, Q, ⟨⟨hq, h.received⟩, fun _ => rfl, fun h' => by simp [hb] at h'⟩,
      ⟨rfl, fun _ => ⟨rfl, rfl⟩, fun h' => by simp [hb] at h', rfl, rfl⟩⟩
  · exact ⟨_, [], ⟨⟨hq, h.received⟩, fun h' => by simp [hb] at h', fun _ => rfl⟩,
      ⟨rfl, fun h' => by simp [hb] at h', fun _ => ⟨rfl, rfl⟩, rfl, rfl⟩⟩

theorem Open.post (h : Open i F B Q) (r : Int) : ∃ F' B', Open (i.post r).2 F' B' Q := by
  have hk := post_reposts i r
  obtain ⟨F', B', hl, hp⟩ := post_lists h.lists r
  refine ⟨F', B', ⟨⟨by rwa [hk.max], ?_⟩, hp h.posted, hk.flushFlag.trans h.flushFlag⟩⟩
  rw [hk.received, hk.nnbusy]
  exact h.received

theorem Open.postLate (h : Open i F B Q) (r : Int) : ∃ F' B', Open (i.postLate r) F' B' Q := by
  have hk := postLate_reposts i r
  obtain ⟨F', B', hl, hp⟩ := postLate_lists h.lists r
  refine ⟨F', B', ⟨⟨by rwa [hk.max], ?_⟩, hp h.posted, hk.flushFlag.trans h.flushFlag⟩⟩
  rw [hk.received, hk.nnbusy]
  exact h.received

theorem Tidy.removePosted (h : Tidy i F B Q) (b : Nat) : Tidy (Sofi.removePosted i b) F B Q :=
  ⟨h.lists, h.received⟩

theorem Closed.removePosted (h : Closed i F Q) (b : Nat) : Closed (Sofi.removePosted i b) F Q :=
  ⟨h.toTidy.removePosted b, h.flushFlag, h.drained⟩

theorem Closed.arrive (h : Closed i F Q) (b : Nat) (bytes : List UInt8) :
    Closed (Sofi.arrive i b bytes) F Q :=
  ⟨⟨h.lists, h.received⟩, h.flushFlag, h.drained⟩

theorem Open.arrive (h : Open i F B Q) (hb : b ∈ i.posted) (bytes : List UInt8) :
    ∃ B₁ B₂, B = B₁ ++ b :: B₂ ∧ (Sofi.arrive i b bytes).posted.Perm (B₁ ++ B₂) := by
  obtain ⟨B₁, B₂, rfl⟩ := List.append_of_mem (h.posted.mem_iff.1 hb)
  refine ⟨B₁, B₂, rfl, ?_⟩
  have hp := (h.posted.trans List.perm_middle).erase b
  simpa [Sofi.arrive] using hp

theorem isKeepalive_arrive (i : Ingress) (b : Nat) (bytes : List UInt8) :
    (Sofi.arrive i b bytes).isKeepalive b bytes.length = true ↔ bytes = keepalivePacket := by
  simp only [isKeepalive, Sofi.arrive, Function.update_self, decide_eq_true_eq]
  constructor
  · rintro ⟨hl, ht⟩
    rw [← hl, List.take_left] at ht
    exact ht
  · rintro rfl
    exact ⟨rfl, List.take_left⟩

theorem complete_eq (late r : Int) (i : Ingress) (b len : Nat) :
    ∃ l, Sofi.complete late r i b len =
      { ((i.handle late b len).post r).2 with postlater := l } := by
  simp only [Sofi.complete]
  split
  · exact ⟨_, rfl⟩
  · exact ⟨_, rfl⟩

theorem Open.complete_keepalive (h : Open i F B Q) (hb : b ∈ i.posted) (late r : Int) :
    ∃ F' B',
      let i' := Sofi.complete late r (Sofi.arrive i b keepalivePacket) b keepalivePacket.length
      Open i' F' B' Q ∧ i'.nnbusy = i.nnbusy ∧ i'.nnlater = i.nnlater ∧ i'.msg = i.msg := by
  obtain ⟨B₁, B₂, rfl, hp⟩ := h.arrive hb keepalivePacket
  have hk := (isKeepalive_arrive i b keepalivePacket).2 rfl
  obtain ⟨l, he⟩ := complete_eq late r (Sofi.arrive i b keepalivePacket) b keepalivePacket.length
  rw [he, handle_keepalive hk]
  generalize hi₁ : { Sofi.arrive i b keepalivePacket with
    bufs := (Sofi.arrive i b keepalivePacket).bufs.markFree b } = i₁
  have ho : Open i₁ (b :: F) (B₁ ++ B₂) Q := by
    rw [← hi₁]
    exact ⟨⟨h.lists.markFree_busy, h.received⟩, hp, h.flushFlag⟩
  have hn : i₁.nnbusy = i.nnbusy ∧ i₁.nnlater = i.nnlater ∧ i₁.msg = i.msg := by
    rw [← hi₁]
    exact ⟨rfl, rfl, rfl⟩
  have hk₁ := postLate_reposts i₁ late
  obtain ⟨F₁, B₃, ho₁⟩ := ho.postLate late
  have hk₂ := post_reposts (Ingress.postLate late i₁) r
  obtain ⟨F₂, B₄, ho₂⟩ := ho₁.post r
  exact ⟨F₂, B₄, ⟨⟨ho₂.lists, ho₂.received⟩, ho₂.posted, ho₂.flushFlag⟩,
    (hk₂.nnbusy.trans hk₁.nnbusy).trans hn.1, (hk₂.nnlater.trans hk₁.nnlater).trans hn.2.1,
    (hk₂.msg.trans hk₁.msg).trans hn.2.2⟩

theorem Open.complete_data {bytes : List UInt8} (h : Open i F B Q) (hb : b ∈ i.posted)
    (hd : bytes ≠ keepalivePacket) (late r : Int) :
    ∃ F' B', let i' := Sofi.complete late r (Sofi.arrive i b bytes) b bytes.length
      Open i' F' B' (Q ++ [b]) ∧ i'.nnbusy = true ∧
        i'.nnlater = (if i.nnbusy then true else i.nnlater) ∧
        i'.msg = Function.update i.msg b bytes := by
  obtain ⟨B₁, B₂, rfl, hp⟩ := h.arrive hb bytes
  have hk : (Sofi.arrive i b bytes).isKeepalive b bytes.length = false := by
    rw [← Bool.not_eq_true, isKeepalive_arrive]
    exact hd
  obtain ⟨l, he⟩ := complete_eq late r (Sofi.arrive i b bytes) b bytes.length
  rw [he]
  have ho : Open ((Sofi.arrive i b bytes).handle late b bytes.length) F (B₁ ++ B₂) (Q ++ [b]) := by
    rw [handle_data hk]
    refine ⟨⟨h.lists.markPopulated, ?_⟩, hp, h.flushFlag⟩
    have hr := h.received
    cases hn : i.nnbusy <;> simp [Sofi.arrive, hn, hr]
  have hn : ((Sofi.arrive i b bytes).handle late b bytes.length).nnbusy = true ∧
      ((Sofi.arrive i b bytes).handle late b bytes.length).nnlater =
        (if i.nnbusy then true else i.nnlater) ∧
      ((Sofi.arrive i b bytes).handle late b bytes.length).msg =
        Function.update i.msg b bytes := by
    rw [handle_data hk]
    refine ⟨rfl, rfl, ?_⟩
    simp [Sofi.arrive]
  have hk₁ := post_reposts ((Sofi.arrive i b bytes).handle late b bytes.length) r
  obtain ⟨F₂, B₄, ho₂⟩ := ho.post r
  exact ⟨F₂, B₄, ⟨⟨ho₂.lists, ho₂.received⟩, ho₂.posted, ho₂.flushFlag⟩, hk₁.nnbusy.trans hn.1,
    hk₁.nnlater.trans hn.2.1, hk₁.msg.trans hn.2.2⟩

theorem Tidy.read {q : Buffers} {Q₁ : List Nat} (h : Tidy i F B Q) (hb : i.nnbusy = true)
    (hq : q.Holds i.max [] F' B Q₁) (late : Int) :
    ∃ F₁ B₁, let i₁ := ((handOver { i with received := i.received - 1 } b q).postLate late).answered
      Tidy i₁ F₁ B₁ Q₁ ∧ (i.posted.Perm B → i₁.posted.Perm B₁) ∧ Fetches i i₁ b ∧
        i₁.flushFlag = i.flushFlag := by
  have hr := h.received
  rw [if_pos hb] at hr
  have hk := postLate_reposts (handOver { i with received := i.received - 1 } b q) late
  obtain ⟨F₁, B₁, hl, hp⟩ :=
    postLate_lists (i := handOver { i with received := i.received - 1 } b q) hq late
  refine ⟨F₁, B₁, ⟨?_, ?_⟩, hp, ⟨hb, hk.nnlater, rfl, hk.msg, hk.held⟩, hk.flushFlag⟩
  · rw [← hk.max] at hl
    exact hl
  · have hr₀ :
        ((handOver { i with received := i.received - 1 } b q).postLate late).received = 0 := by
      rw [hk.received, handOver, hr]
    simp [answered, hr₀]

theorem Open.fetch {late : Int} (h : Open i F B Q)
    (hf : Ingress.fetch late { i with received := i.received - 1 } = .ok (0, i')) :
    ∃ F' B' b Q₁, Q = b :: Q₁ ∧ Open i' F' B' Q₁ ∧ Fetches i i' b := by
  obtain ⟨b, Q₁, q, rfl, hb, hq, hc⟩ :=
    fetch_cases (i := { i with received := i.received - 1 }) h.lists hf
  obtain ⟨F₁, B₁, ht, hp, hn, hff⟩ := h.toTidy.read hb hq late
  rcases hc with ⟨_, rfl⟩ | ⟨hff', _⟩
  · exact ⟨F₁, B₁, b, Q₁, rfl, ⟨ht, hp h.posted, hff.trans h.flushFlag⟩, hn⟩
  · have hff₀ := h.flushFlag
    rw [show _ = i.flushFlag from rfl, hff₀] at hff'
    cases hff'

theorem Closed.fetch {late : Int} (h : Closed i F Q)
    (hf : Ingress.fetch late { i with received := i.received - 1 } = .ok (0, i')) :
    ∃ F' b Q₁ Q', Q = b :: Q₁ ∧ Closed i' F' Q' ∧ Fetches i i' b ∧
      Q' = if i.nnlater then Q₁ else [] := by
  obtain ⟨b, Q₁, q, rfl, hb, hq, hc⟩ :=
    fetch_cases (i := { i with received := i.received - 1 }) h.lists hf
  obtain ⟨F₁, B₁, ht, _, hn, _⟩ := h.toTidy.read hb hq late
  rcases hc with ⟨hff, _⟩ | ⟨_, hfl⟩
  · have hff₀ := h.flushFlag hb
    rw [show _ = i.flushFlag from rfl, hff₀] at hff
    cases hff
  · obtain ⟨F', Q', hc, hfl⟩ := ht.flush hfl
    refine ⟨F', b, Q₁, Q', rfl, hc, ⟨hb, hfl.nnbusy.trans hn.nnbusy, ?_, hfl.msg.trans hn.msg,
      hfl.held.trans hn.held⟩, ?_⟩
    · cases hl : i.nnlater with
      | true => exact (hfl.busy (hn.nnbusy.trans hl)).2.trans hn.nnlater
      | false => exact (hfl.clear (hn.nnbusy.trans hl)).2
    · cases hl : i.nnlater with
      | true => exact (hfl.busy (hn.nnbusy.trans hl)).1
      | false => exact (hfl.clear (hn.nnbusy.trans hl)).1

theorem Open.not_queued (h : Open i F B Q) (hb : b ∈ i.posted) : b ∉ Q := by
  intro hQ
  have hnd := h.lists.nodup
  simp only [List.nil_append, List.nodup_append, List.mem_append] at hnd
  exact hnd.2.1.2.2 b (h.posted.mem_iff.1 hb) b hQ rfl

theorem Tidy.head_eq_tail (h : Tidy i F B (b :: Q)) :
    i.bufs.popHead = i.bufs.popTail ↔ Q = [] := by
  rw [h.lists.popHead, h.lists.popTail]
  cases Q with
  | nil => simp
  | cons c Q =>
    have hb := (List.nodup_cons.1 h.lists.popList.nodup).1
    simp only [List.head?_cons, List.getLast?_cons_cons, reduceCtorEq, iff_false]
    exact fun he => hb (List.mem_of_getLast? he.symm)

end Invariants

structure Unused (i : Ingress) (F B Q : List Nat) : Prop where
  free : F ≠ []
  busy : B = []
  queue : Q = []
  nnbusy : i.nnbusy = false
  postlater : i.postlater = false
  held : i.held = []
  touched : i.touched = []

end Ingress

namespace Sofi

structure Receiving (s : Sofi) (F B Q : List Nat) : Prop where
  running : s.state ≠ .closing → s.ingress.Open F B Q
  closing : s.state = .closing → s.ingress.Closed F Q
  connecting : s.state = .connecting → s.ingress.Unused F B Q

section Steps

variable {s s' s₁ : Sofi} {e : Event} {F B Q : List Nat}

theorem Receiving.opened (hst : s'.state = .active) (ho : s'.ingress.Open F B Q) :
    Receiving s' F B Q :=
  ⟨fun _ => ho, fun h' => by simp [hst] at h', fun h' => by simp [hst] at h'⟩

theorem Receiving.closed (hst : s'.state = .closing) (hc : s'.ingress.Closed F Q) :
    Receiving s' F B Q :=
  ⟨fun h' => absurd hst h', fun _ => hc, fun h' => by simp [hst] at h'⟩

theorem Receiving.keeps (h : Receiving s F B Q) (hk : KeepsControl s s')
    (hi : s'.ingress = s.ingress) : Receiving s' F B Q := by
  refine ⟨?_, ?_, ?_⟩
  · rw [hk.state, hi]
    exact h.running
  · rw [hk.state, hi]
    exact h.closing
  · rw [hk.state, hi]
    exact h.connecting

theorem Receiving.exists_tidy (h : Receiving s F B Q) : ∃ B', s.ingress.Tidy F B' Q := by
  by_cases hst : s.state = .closing
  · exact ⟨[], (h.closing hst).toTidy⟩
  · exact ⟨B, (h.running hst).toTidy⟩

theorem Receiving.tidy (h : Receiving s F B Q) (hf : s.fsm = .active) (hp : Phase s) :
    s.ingress.Tidy F B Q := by
  refine (h.running ?_).toTidy
  rcases hp.running hf with hst | hst <;> simp [hst]

def arrived (s : Sofi) : Event → List Held
  | .rxCompleted b bytes _ _ =>
    if s.state = .active ∧ bytes ≠ keepalivePacket then [⟨b, bytes⟩] else []
  | _ => []

def fetched (s : Sofi) : Event → List Held
  | .recv late =>
    match s.recv late with
    | .ok s' => s'.ingress.held.take 1
    | .error _ => []
  | _ => []

inductive Queues (s : Sofi) (Q : List Nat) (e : Event) (s' : Sofi) : List Nat → Prop
  | keep (ha : arrived s e = []) (hf : fetched s e = [])
      (hb : s'.ingress.nnbusy = s.ingress.nnbusy) (hl : s'.ingress.nnlater = s.ingress.nnlater)
      (hm : s'.ingress.msg = s.ingress.msg)
      (hst : s'.state = .closing → s.state = .closing ∨ s.ingress.nnbusy = true) :
      Queues s Q e s' Q
  | flush (ha : arrived s e = []) (hf : fetched s e = []) (hst : s'.state = .closing)
      (hb : s'.ingress.nnbusy = false) (hl : s'.ingress.nnlater = false) : Queues s Q e s' []
  | push (ha : arrived s e = [⟨b, bytes⟩]) (hf : fetched s e = []) (hst : s.state = .active)
      (hst' : s'.state = .active) (hb : s'.ingress.nnbusy = true)
      (hl : s'.ingress.nnlater = if s.ingress.nnbusy then true else s.ingress.nnlater)
      (hm : s'.ingress.msg = Function.update s.ingress.msg b bytes) (hq : b ∉ Q) :
      Queues s Q e s' (Q ++ [b])
  | pop (ha : arrived s e = []) (hf : fetched s e = [⟨b, s.ingress.msg b⟩]) (hQ : Q = b :: Q₁)
      (hi : Ingress.Fetches s.ingress s'.ingress b) (hst : s'.state = s.state)
      (hl : s.state = .closing → s.ingress.nnlater = true) : Queues s Q e s' Q₁
  | popFlush (ha : arrived s e = []) (hf : fetched s e = [⟨b, s.ingress.msg b⟩])
      (hQ : Q = b :: Q₁) (hi : Ingress.Fetches s.ingress s'.ingress b) (hst : s.state = .closing)
      (hst' : s'.state = .closing) (hl : s.ingress.nnlater = false) : Queues s Q e s' []

theorem not_moved_of_passive (h : e.Passive s) : arrived s e = [] ∧ fetched s e = [] := by
  cases e <;> first | exact h.elim | exact ⟨rfl, rfl⟩

theorem not_moved_of_breaks (h : e.Breaks s) : arrived s e = [] ∧ fetched s e = [] := by
  cases e <;> first | exact h.elim | exact ⟨rfl, rfl⟩

theorem recv_of_fetch {late : Int} {i : Ingress}
    (h : Ingress.fetch late { s.ingress with received := s.ingress.received - 1 } = .ok (0, i)) :
    s.recv late = .ok { s with ingress := i } := by
  simp [recv, h, bind, Except.bind, nnAssert, pure, Except.pure]

theorem fetched_recv {late : Int} {i : Ingress} {b : Nat}
    (h : Ingress.fetch late { s.ingress with received := s.ingress.received - 1 } = .ok (0, i))
    (hi : i.held = ⟨b, s.ingress.msg b⟩ :: s.ingress.held) :
    fetched s (.recv late) = [⟨b, s.ingress.msg b⟩] := by
  simp [fetched, recv_of_fetch h, hi]

theorem Closes.queues (h : Closes s₁ s') (ht : s₁.ingress.Tidy F B Q)
    (hb : s₁.ingress.nnbusy = s.ingress.nnbusy) (hl : s₁.ingress.nnlater = s.ingress.nnlater)
    (hm : s₁.ingress.msg = s.ingress.msg) (he : arrived s e = [] ∧ fetched s e = []) :
    ∃ F' B' Q', Receiving s' F' B' Q' ∧ Queues s Q e s' Q' := by
  obtain ⟨F', Q', hc, hfl⟩ := ht.flush h.ingress
  refine ⟨F', [], Q', .closed h.state hc, ?_⟩
  cases hn : s₁.ingress.nnbusy with
  | true =>
    obtain ⟨rfl, hl'⟩ := hfl.busy hn
    exact .keep he.1 he.2 (hfl.nnbusy.trans hb) (hl'.trans hl) (hfl.msg.trans hm)
      (fun _ => .inr (hb.symm.trans hn))
  | false =>
    obtain ⟨rfl, hl'⟩ := hfl.clear hn
    exact .flush he.1 he.2 h.state (hfl.nnbusy.trans hn) hl'

theorem Receiving.queues_keep (h : Receiving s F B Q) (hk : KeepsControl s s')
    (hi : s'.ingress = s.ingress) (he : arrived s e = [] ∧ fetched s e = []) :
    ∃ F' B' Q', Receiving s' F' B' Q' ∧ Queues s Q e s' Q' :=
  ⟨F, B, Q, h.keeps hk hi, .keep he.1 he.2 (by rw [hi]) (by rw [hi]) (by rw [hi])
    (fun h' => .inl (hk.state ▸ h'))⟩

theorem Receiving.queues_fetched {late : Int} (hr : Receiving s F B Q) (hk : KeepsControl s s')
    (hi : Ingress.fetch late { s.ingress with received := s.ingress.received - 1 } =
      .ok (0, s'.ingress)) :
    ∃ F' B' Q', Receiving s' F' B' Q' ∧ Queues s Q (.recv late) s' Q' := by
  by_cases hst : s.state = .closing
  · have hst' := hk.state.trans hst
    obtain ⟨F', b, Q₁, Q', hQ, hc, hf, rfl⟩ := (hr.closing hst).fetch hi
    refine ⟨F', [], _, .closed hst' hc, ?_⟩
    cases hl : s.ingress.nnlater with
    | true => exact .pop rfl (fetched_recv hi hf.held) hQ hf hk.state (fun _ => hl)
    | false => exact .popFlush rfl (fetched_recv hi hf.held) hQ hf hst hst' hl
  · obtain ⟨F', B', b, Q', hQ, hop, hf⟩ := (hr.running hst).fetch hi
    refine ⟨F', B', Q', ⟨fun _ => hop, fun h' => absurd (hk.state ▸ h') hst, fun h' => ?_⟩,
      .pop rfl (fetched_recv hi hf.held) hQ hf hk.state (fun h' => absurd h' hst)⟩
    -- nothing was announced before the connection was made
    have hn := (hr.connecting (hk.state ▸ h')).nnbusy
    rw [hf.busy] at hn
    cases hn

theorem Moves.queues (h : Moves s e s') (hen : s.enabled e = true) (hp : Phase s)
    (hr : Receiving s F B Q) : ∃ F' B' Q', Receiving s' F' B' Q' ∧ Queues s Q e s' Q' := by
  cases h with
  | stay he hk hi ho => exact hr.queues_keep hk hi (not_moved_of_passive he)
  | close hc _ hf he hi ho =>
    refine hc.queues (hi ▸ hr.tidy hf hp) (by rw [hi]) (by rw [hi]) (by rw [hi]) ?_
    rcases he with he | ⟨rfl, _⟩
    · exact not_moved_of_breaks he
    · exact ⟨rfl, rfl⟩
  | sent ho hst hk hi hpb hout => exact hr.queues_keep hk hi ⟨rfl, rfl⟩
  | sendFailed hc _ ho hst hne hpb hi hout herr =>
    exact hc.queues (hi ▸ (hr.running hst).toTidy) (by rw [hi]) (by rw [hi]) (by rw [hi]) ⟨rfl, rfl⟩
  | @connected r p _ hst hfsm hst' herr hout _ hr' hi ho =>
    obtain ⟨F', B', hop⟩ := (hr.running (by simp [hst])).post r
    have hk := Ingress.post_reposts s.ingress r
    refine ⟨F', B', Q, .opened hst' (hi ▸ hop), ?_⟩
    exact .keep rfl rfl (hi ▸ hk.nnbusy) (hi ▸ hk.nnlater) (hi ▸ hk.msg)
      (fun h' => by simp [hst'] at h')
  | @connectFailed _ _ r _ hc _ hst hi ho =>
    obtain ⟨F', B', hop⟩ := (hr.running (by simp [hst])).post r
    have hk := Ingress.post_reposts s.ingress r
    exact hc.queues (hi ▸ hop.toTidy) (hi ▸ hk.nnbusy) (hi ▸ hk.nnlater) (hi ▸ hk.msg) ⟨rfl, rfl⟩
  | txCompleted he hk hi hh => exact hr.queues_keep hk hi ⟨rfl, rfl⟩
  | txFailed hc _ hf hi hh herr =>
    exact hc.queues (hi ▸ hr.tidy hf hp) (by rw [hi]) (by rw [hi]) (by rw [hi]) ⟨rfl, rfl⟩
  | txErrored hf he hk hi hh => exact hr.queues_keep hk hi ⟨rfl, rfl⟩
  | txDiscarded hev hf he hk hi ho =>
    refine hr.queues_keep hk hi ?_
    rcases hev with rfl | ⟨err, rfl⟩ <;> exact ⟨rfl, rfl⟩
  | @rxCompleted _ late r b bytes hst hk ho hi =>
    simp only [enabled, decide_eq_true_eq] at hen
    have hop := hr.running (by simp [hst])
    have hst' := hk.state.trans hst
    by_cases hb : bytes = keepalivePacket
    · subst hb
      obtain ⟨F', B', hop', hn, hl, hm⟩ := hop.complete_keepalive hen.2.1 late r
      refine ⟨F', B', Q, .opened hst' (hi ▸ hop'), ?_⟩
      exact .keep (by simp [arrived]) rfl (hi ▸ hn) (hi ▸ hl) (hi ▸ hm)
        (fun h' => by simp [hst'] at h')
    · obtain ⟨F', B', hop', hn, hl, hm⟩ := hop.complete_data hen.2.1 hb late r
      refine ⟨F', B', _, .opened hst' (hi ▸ hop'), ?_⟩
      exact .push (by simp [arrived, hst, hb]) rfl hst hst' (hi ▸ hn) (hi ▸ hl) (hi ▸ hm)
        (hop.not_queued hen.2.1)
  | @rxDrained late b bytes r _ hst hk ho hi =>
    have hst' := hk.state.trans hst
    refine ⟨F, B, Q, .closed hst' (hi ▸ (hr.closing hst).arrive b bytes), ?_⟩
    exact .keep (by simp [arrived, hst]) rfl (by rw [hi]; rfl) (by rw [hi]; rfl) (by rw [hi]; rfl)
      (fun _ => .inl hst)
  | @rxFailed _ _ b _ hc _ hst hi ho herr =>
    exact hc.queues (hi ▸ (hr.running (by simp [hst])).toTidy.removePosted b) (by rw [hi]; rfl)
      (by rw [hi]; rfl) (by rw [hi]; rfl) ⟨rfl, rfl⟩
  | @rxErrored _ b _ hst hk ho hi =>
    refine ⟨F, B, Q, .closed (hk.state.trans hst) (hi ▸ (hr.closing hst).removePosted b), ?_⟩
    exact .keep rfl rfl (by rw [hi]; rfl) (by rw [hi]; rfl) (by rw [hi]; rfl) (fun _ => .inl hst)
  | fetched hk ho hi => exact hr.queues_fetched hk hi
  | freed hk ho hi =>
    simp only [enabled, decide_eq_true_eq] at hen
    refine ⟨F, B, Q, ⟨fun h' => ?_, fun h' => ?_, fun h' => ?_⟩, .keep rfl rfl (by rw [hi]; rfl)
      (by rw [hi]; rfl) (by rw [hi]; rfl) (fun h' => .inl (hk.state ▸ h'))⟩
    · have hop := hr.running (hk.state ▸ h')
      rw [hi]
      exact ⟨⟨hop.lists, hop.received⟩, hop.posted, hop.flushFlag⟩
    · have hc := hr.closing (hk.state ▸ h')
      rw [hi]
      exact ⟨⟨hc.lists, hc.received⟩, hc.flushFlag, hc.drained⟩
    · have hu := (hr.connecting (hk.state ▸ h')).held
      simp [hu] at hen

theorem Moves.receiving (h : Moves s e s') (hen : s.enabled e = true) (hp : Phase s)
    (hr : Receiving s F B Q) : ∃ F' B' Q', Receiving s' F' B' Q' := by
  obtain ⟨F', B', Q', hr', _⟩ := h.queues hen hp hr
  exact ⟨F', B', Q', hr'⟩

theorem Setup.started_receiving {u : Setup} (h₁ : 1 ≤ u.rxQueue) :
    Receiving u.started (List.range u.rxQueue.toNat) [] [] := by
  obtain ⟨n, hn⟩ : ∃ n, u.rxQueue.toNat = n + 1 := ⟨u.rxQueue.toNat - 1, by omega⟩
  have hl : u.started.ingress.bufs.Holds u.started.ingress.max [] (List.range u.rxQueue.toNat)
      [] [] := by
    refine ⟨by simp [Setup.started, Setup.sofi], linked_isList _, Links.isList_nil,
      Links.isList_nil, ?_, rfl, rfl, rfl⟩
    simp [Setup.started, Setup.sofi, hn, List.range_succ_eq_map]
  refine ⟨fun _ => ⟨⟨hl, rfl⟩, .nil, rfl⟩, fun h => ?_, fun _ => ⟨?_, rfl, rfl, rfl, rfl, rfl, rfl⟩⟩
  · simp [Setup.started] at h
  · simp [hn, List.range_succ_eq_map]

theorem machine_receiving (h : machine.init s) : Phase s ∧ ∃ F B Q, Receiving s F B Q := by
  obtain ⟨u, h₁, _, rfl⟩ := machine_init h
  exact ⟨u.started_phase, _, _, _, Setup.started_receiving h₁⟩

theorem step_receiving (hi : Phase s ∧ ∃ F B Q, Receiving s F B Q) (he : s.enabled e = true)
    (h : s.step e = .ok s') : Phase s' ∧ ∃ F B Q, Receiving s' F B Q := by
  obtain ⟨hp, F, B, Q, hr⟩ := hi
  have hm := step_moves hp he h
  exact ⟨hm.phase hp, hm.receiving he hp hr⟩

theorem reachable_receiving (h : machine.Reachable s) :
    Phase s ∧ ∃ F B Q, Receiving s F B Q := by
  refine h.invariant (I := fun s => Phase s ∧ ∃ F B Q, Receiving s F B Q) ?_ ?_
  · exact fun _ hi => machine_receiving hi
  · exact fun _ _ _ hi he h => step_receiving hi he h

end Steps

section Wakeup

variable {s s' : Sofi} {e : Event} {F B Q : List Nat}

/-- While there are messages in the queue, NNBUSY is set and nanomsg has a notification
that it has not answered. -/
def NoLostWakeup (s : Sofi) : Prop :=
  s.state = .active → s.ingress.bufs.popHead ≠ none →
    s.ingress.nnbusy = true ∧ 0 < s.ingress.received

/-- A read finds NNLATER set or takes the only message of the queue. -/
def ReadsLast (s : Sofi) : Event → Prop
  | .recv _ => s.state = .active →
    s.ingress.nnlater = true ∨ s.ingress.bufs.popHead = s.ingress.bufs.popTail
  | _ => True

instance (s : Sofi) : DecidablePred (ReadsLast s)
  | .recv _ => inferInstanceAs (Decidable (_ → _))
  | .eq .. | .txCompleted _ | .txError .. | .rxCompleted .. | .rxError .. | .keepalive ..
  | .shutdownTimer _ | .send .. | .stop | .free _ => .isTrue trivial

theorem Receiving.noLostWakeup_iff (h : Receiving s F B Q) (hst : s.state = .active) :
    NoLostWakeup s ↔ (Q ≠ [] → s.ingress.nnbusy = true) := by
  have hop := h.running (by simp [hst])
  have hr := hop.received
  simp only [NoLostWakeup, hst, true_imp_iff, hop.lists.popHead, ne_eq, List.head?_eq_none_iff]
  cases hn : s.ingress.nnbusy <;> simp [hr, hn]

/-- Reading is the only step that can leave messages behind without a notification. -/
theorem Moves.noLostWakeup_iff (h : Moves s e s') (hen : s.enabled e = true)
    (hr : Receiving s F B Q) (hw : NoLostWakeup s) : NoLostWakeup s' ↔ ReadsLast s e := by
  have closes : ∀ {s₁ : Sofi}, Closes s₁ s' → NoLostWakeup s' :=
    fun hc h' => by simp [hc.state] at h'
  have keeps : KeepsControl s s' → s'.ingress = s.ingress → NoLostWakeup s' := by
    intro hk hi
    rw [NoLostWakeup, hk.state, hi]
    exact hw
  cases h with
  | stay he hk hi ho =>
    refine iff_of_true (keeps hk hi) ?_
    cases e <;> first | exact he.elim | trivial
  | close hc _ hf he hi ho =>
    refine iff_of_true (closes hc) ?_
    rcases he with he | ⟨rfl, _⟩
    · cases e <;> first | exact he.elim | trivial
    · trivial
  | sent ho hst hk hi hpb hout => exact iff_of_true (keeps hk hi) trivial
  | sendFailed hc _ ho hst hne hpb hi hout herr => exact iff_of_true (closes hc) trivial
  | @connected r p _ hst hfsm hst' herr hout _ hr' hi ho =>
    refine iff_of_true ?_ trivial
    have hu := hr.connecting hst
    obtain ⟨F', B', hop⟩ := (hr.running (by simp [hst])).post r
    rw [Receiving.noLostWakeup_iff (.opened hst' (hi ▸ hop)) hst', hu.queue]
    simp
  | connectFailed hc _ hst hi ho => exact iff_of_true (closes hc) trivial
  | txCompleted he hk hi hh => exact iff_of_true (keeps hk hi) trivial
  | txFailed hc _ hf hi hh herr => exact iff_of_true (closes hc) trivial
  | txErrored hf he hk hi hh => exact iff_of_true (keeps hk hi) trivial
  | txDiscarded hev hf he hk hi ho =>
    rcases hev with rfl | ⟨err, rfl⟩ <;> exact iff_of_true (keeps hk hi) trivial
  | @rxCompleted _ late r b bytes hst hk ho hi =>
    simp only [enabled, decide_eq_true_eq] at hen
    refine iff_of_true ?_ trivial
    have hst' := hk.state.trans hst
    have hop := hr.running (by simp [hst])
    by_cases hb : bytes = keepalivePacket
    · subst hb
      obtain ⟨F', B', hop', hn, _⟩ := hop.complete_keepalive hen.2.1 late r
      rw [Receiving.noLostWakeup_iff (.opened hst' (hi ▸ hop')) hst', hi, hn]
      exact (hr.noLostWakeup_iff hst).1 hw
    · obtain ⟨F', B', hop', hn, _⟩ := hop.complete_data hen.2.1 hb late r
      rw [Receiving.noLostWakeup_iff (.opened hst' (hi ▸ hop')) hst', hi, hn]
      exact fun _ => rfl
  | rxDrained hst hk ho hi =>
    exact iff_of_true (fun h' => by simp [hk.state, hst] at h') trivial
  | rxFailed hc _ hst hi ho herr => exact iff_of_true (closes hc) trivial
  | rxErrored hst hk ho hi =>
    exact iff_of_true (fun h' => by simp [hk.state, hst] at h') trivial
  | fetched hk ho hi =>
    by_cases hst : s.state = .active
    · have hst' := hk.state.trans hst
      obtain ⟨F', B', b, Q', rfl, hop', hn⟩ := (hr.running (by simp [hst])).fetch hi
      rw [Receiving.noLostWakeup_iff (.opened hst' hop') hst', hn.nnbusy, ReadsLast,
        (hr.running (by simp [hst])).toTidy.head_eq_tail]
      simp only [hst, true_imp_iff]
      by_cases hQ : Q' = [] <;> simp [hQ]
    · refine iff_of_true (fun h' => absurd (hk.state ▸ h') hst) (fun h' => absurd h' hst)
  | freed hk ho hi =>
    refine iff_of_true ?_ trivial
    rw [NoLostWakeup, hk.state, hi]
    exact hw

/-- Along a run no wake-up is lost exactly as long as every read of an active SOFI finds
NNLATER set or takes the only message. -/
theorem always_noLostWakeup_iff {s : Sofi} {h : List (Sofi × Event)} (r : machine.Run h s) :
    Machine.Always NoLostWakeup h s ↔ Machine.Guarded ReadsLast h := by
  refine r.always_iff_guarded ?_ (fun s e s' hi he h => step_receiving hi he h) ?_
  · intro s hi
    refine ⟨machine_receiving hi, ?_⟩
    obtain ⟨u, _, _, rfl⟩ := machine_init hi
    exact fun h' => by simp [Setup.started] at h'
  · rintro s e s' ⟨hp, F, B, Q, hr⟩ hw he h
    exact (step_moves hp he h).noLostWakeup_iff he hr hw

theorem exchange_noLostWakeup : ∃ (h : List (Sofi × Event)) (s : Sofi), machine.Run h s ∧
    (s.state = .active ∧ s.ingress.bufs.popHead = some 0) ∧ Machine.Always NoLostWakeup h s := by
  obtain ⟨h, s, r, hg, hp⟩ := Machine.exists_guarded (M := machine) (C := ReadsLast)
    (c := fun s e => ReadsLast s e) exchange
    (fun s => s.state = .active ∧ s.ingress.bufs.popHead = some 0)
    (fun _ _ => of_decide_eq_true) fresh_init (by decide)
  exact ⟨h, s, r, of_decide_eq_true hp, (always_noLostWakeup_iff r).2 hg⟩

/-- Three messages arrive before nanomsg reads the first. -/
theorem wakeup_lost : ¬ ∀ s, machine.Reachable s → NoLostWakeup s := by
  intro h
  obtain ⟨s, hr, hc⟩ := Machine.exists_reachable
    [.eq FI_CONNECTED 0 .easy, .rxCompleted 0 [1] 0 0, .rxCompleted 1 [2] 0 0,
      .rxCompleted 2 [3] 0 0, .recv 0, .recv 0]
    (fun s => s.state = .active ∧ s.ingress.bufs.popHead = some 2 ∧ s.ingress.nnbusy = false)
    fresh_init (by decide)
  obtain ⟨hst, hq, hn⟩ := of_decide_eq_true hc
  have hb := (h s hr hst (by simp [hq])).1
  simp [hn] at hb

end Wakeup

end Sofi

end OfiTransport
