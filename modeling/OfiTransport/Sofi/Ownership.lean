import OfiTransport.Lib.Custody
import OfiTransport.Sofi.Backpressure
import OfiTransport.Sofi.Flush
import OfiTransport.Sofi.Order
import OfiTransport.Sofi.Shutdown

/-! Who owns the messages.  What nanomsg sends rests in `outmsg` and in the egress contexts
until `nn_msg_term` is called on it there, and what is received rests in the populated buffers
until nanomsg reads it. -/

namespace OfiTransport

open Lib

/-- Where a SOFI keeps the messages it has accepted. -/
inductive Place
  | staged
  | ctx (c : Nat)
  deriving DecidableEq

namespace Egress

/-- The messages in `nn_sofi_egress_post_buffers`: the staged one is moved to the free context,
which is freed again if the message could not be posted. -/
def postDeeds (p : Post) (e : Egress) (m : Msg) : List (Deed Place Msg) :=
  match e.getContext, e.postBuffers p m with
  | .ok (some c), .ok (ret, _) =>
    .move .staged (.ctx c) :: if ret ≠ 0 then [.drop (.ctx c)] else []
  | _, _ => []

def flushFromDeeds : Nat → Option Nat → Egress → List (Deed Place Msg)
  | fuel + 1, some c, e =>
    if (e.mrHandle c).isSome then
      let e := e.atomicInc.2.freeContext c
      .drop (.ctx c) :: flushFromDeeds fuel (e.ring.links.next c) e
    else []
  | _, _, _ => []

def flushDeeds (e : Egress) : List (Deed Place Msg) := flushFromDeeds e.max e.ring.head e

def after (e : Egress) : M Egress → Egress
  | .ok e' => e'
  | .error _ => e

def rest (staged : Option Msg) (e : Egress) : Place → Option Msg
  | .staged => staged
  | .ctx c => if (e.mrHandle c).isSome then some (e.msg c) else none

structure Booked (c : Custody Place Msg) (staged : Option Msg) (e : Egress) : Prop where
  kept : c.Kept (e.rest staged)
  clear : ∀ d, e.mrHandle d = none → c.slot (.ctx d) = none

structure Elsewhere (c : Nat) (e e' : Egress) : Prop where
  handle : ∀ d, d ≠ c → e'.mrHandle d = e.mrHandle d
  msg : ∀ d, d ≠ c → e'.msg d = e.msg d

section Rest

variable {e e' : Egress} {c : Nat} {m : Msg} {p : Post} {ret : Int} {st : Option Msg}
  {b : Custody Place Msg}

@[simp] theorem rest_staged (e : Egress) (st : Option Msg) : rest st e .staged = st := rfl

theorem rest_busy (h : (e.mrHandle c).isSome = true) : rest st e (.ctx c) = some (e.msg c) := by
  simp [rest, h]

theorem rest_free (h : e.mrHandle c = none) : rest st e (.ctx c) = none := by
  simp [rest, h]

theorem rest_congr (hh : e'.mrHandle = e.mrHandle) (hm : e'.msg = e.msg) (st : Option Msg) :
    rest st e' = rest st e := by
  funext k
  cases k <;> simp [rest, hh, hm]

theorem update_rest_staged (e : Egress) (st st' : Option Msg) :
    Function.update (rest st e) .staged st' = rest st' e := by
  funext k
  cases k <;> simp [rest]

theorem Elsewhere.rest_update (h : Elsewhere c e e') (st : Option Msg) :
    rest st e' = Function.update (rest st e) (.ctx c) (rest st e' (.ctx c)) := by
  funext k
  cases k with
  | staged => simp
  | ctx d =>
    by_cases hd : d = c
    · simp [hd]
    · simp [rest, hd, h.handle d hd, h.msg d hd]

theorem Elsewhere.trans {e₁ : Egress} (h : Elsewhere c e e₁) (h' : Elsewhere c e₁ e') :
    Elsewhere c e e' where
  handle d hd := (h'.handle d hd).trans (h.handle d hd)
  msg d hd := (h'.msg d hd).trans (h.msg d hd)

theorem freeContext_elsewhere (e : Egress) (c : Nat) : Elsewhere c e (e.freeContext c) where
  handle d hd := by simp [hd]
  msg d hd := by simp [freeContext_msg, hd]

theorem described_elsewhere (e : Egress) (p : Post) (m : Msg) (c : Nat) :
    Elsewhere c e (e.described p m c) where
  handle d hd := by simp [described, setMrHandle, setMsg, hd]
  msg d hd := by simp [described, setMrHandle, setMsg, hd]

theorem getContext_free (h : e.getContext = .ok (some c)) : e.mrHandle c = none := by
  simp only [getContext] at h
  cases hd : e.ring.head with
  | none => simp [hd] at h
  | some d =>
    simp only [hd, Except.ok.injEq] at h
    split at h
    · cases h
    · next hn =>
      cases h
      simpa using hn

theorem Booked.congr (h : Booked b st e) (hh : e'.mrHandle = e.mrHandle) (hm : e'.msg = e.msg) :
    Booked b st e' ∧ (b.Whole (rest st e') ↔ b.Whole (rest st e)) := by
  rw [rest_congr hh hm]
  exact ⟨⟨by rw [rest_congr hh hm]; exact h.kept, hh ▸ h.clear⟩, Iff.rfl⟩

theorem Booked.refuse (h : Booked b st e) (m : Msg) :
    Booked (b.act (.accept m none)) st e ∧ ¬ (b.act (.accept m none)).Whole (rest st e) :=
  ⟨⟨h.kept.refuse m, h.clear⟩, h.kept.not_whole_refuse m⟩

theorem Booked.stage (h : Booked b none e) (m : Msg) :
    Booked (b.act (.accept m (some .staged))) (some m) e ∧
      ((b.act (.accept m (some .staged))).Whole (rest (some m) e) ↔ b.Whole (rest none e)) := by
  rw [← update_rest_staged e none (some m)]
  refine ⟨⟨?_, fun d hd => ?_⟩, Custody.whole_accept rfl⟩
  · rw [← update_rest_staged e none (some m)]
    exact h.kept.accept m .staged
  · simpa [Custody.act] using h.clear d hd

theorem Booked.unstage (h : Booked b st e) :
    Booked b none e ∧ (b.Whole (rest none e) ↔ b.Whole (rest st e) ∧ st = none) := by
  cases st with
  | none => exact ⟨h, by simp⟩
  | some m =>
    have hk := h.kept.forget .staged
    have hw := h.kept.not_whole_forget (rest_staged e (some m))
    rw [update_rest_staged] at hk hw
    exact ⟨⟨hk, h.clear⟩, by simp [hw]⟩

theorem Booked.free (h : Booked b st e) (hc : (e.mrHandle c).isSome = true)
    (he : Elsewhere c e e') (hc' : e'.mrHandle c = none) :
    Booked (b.act (.drop (.ctx c))) st e' ∧
      ((b.act (.drop (.ctx c))).Whole (rest st e') ↔ b.Whole (rest st e)) := by
  have hr : rest st e' = Function.update (rest st e) (.ctx c) none := by
    rw [he.rest_update, rest_free hc']
  refine ⟨⟨?_, fun d hd => ?_⟩, ?_⟩
  · rw [hr]
    exact h.kept.drop (rest_busy hc)
  · by_cases hdc : d = c
    · simp [hdc]
    · rw [he.handle d hdc] at hd
      simpa [hdc] using h.clear d hd
  · rw [hr]
    exact h.kept.whole_drop (rest_busy hc)

theorem Booked.post (h : Booked b (some m) e) (hp : e.postBuffers p m = .ok (ret, e')) :
    Booked (b.replay (e.postDeeds p m)) none e' ∧
      ((b.replay (e.postDeeds p m)).Whole (rest none e') ↔
        b.Whole (rest (some m) e) ∧ e.getContext ≠ .ok none) := by
  cases postBuffers_cases hp with
  | noContext hg _ he =>
    subst he
    have hd : e'.postDeeds p m = [] := by simp [postDeeds, hg]
    obtain ⟨hb, hw⟩ := h.unstage
    rw [hd, Custody.replay_nil]
    exact ⟨hb, by simp [hw, hg]⟩
  | @refused c hg hret _ he =>
    have hd : e.postDeeds p m = [.move .staged (.ctx c), .drop (.ctx c)] := by
      simp [postDeeds, hg, hp, hret]
    have hel : Elsewhere c e e' := by
      rw [he]
      exact (described_elsewhere e p m c).trans (freeContext_elsewhere _ c)
    have hfree : rest (some m) e (.ctx c) = none := rest_free (getContext_free hg)
    have hr : rest none e' = Function.update (Function.update
        (Function.update (rest (some m) e) .staged none) (.ctx c) (some m)) (.ctx c) none := by
      rw [hel.rest_update, rest_free (by simp [he]), update_rest_staged, Function.update_idem]
    have hm := h.kept.move (rest_staged e (some m)) hfree
    have hw := h.kept.whole_move (rest_staged e (some m)) hfree
    rw [hd, Custody.replay_cons, Custody.replay_cons, Custody.replay_nil, hr]
    refine ⟨⟨?_, fun d hdn => ?_⟩, ?_⟩
    · rw [hr]
      exact hm.drop (x := m) (by simp)
    · by_cases hdc : d = c
      · simp [hdc]
      · rw [hel.handle d hdc] at hdn
        simpa [hdc, Custody.act_move_slot] using h.clear d hdn
    · rw [hm.whole_drop (x := m) (by simp), hw]
      simp [hg]
  | @posted c hg hret _ hb =>
    have hd : e.postDeeds p m = [.move .staged (.ctx c)] := by
      simp [postDeeds, hg, hp, hret]
    have hset := markBusy_isSome hb
    obtain ⟨r, he⟩ := markBusy_inv hb
    have hel : Elsewhere c e e' := by
      rw [he]
      exact ⟨(described_elsewhere e p m c).handle, (described_elsewhere e p m c).msg⟩
    have hfree : rest (some m) e (.ctx c) = none := rest_free (getContext_free hg)
    have hr : rest none e' = Function.update
        (Function.update (rest (some m) e) .staged none) (.ctx c) (some m) := by
      have hm : e'.msg c = m := by simp [he, described, setMrHandle, setMsg]
      rw [hel.rest_update, rest_busy (by rw [he]; exact hset), hm, update_rest_staged]
    rw [hd, Custody.replay_cons, Custody.replay_nil, hr]
    refine ⟨⟨?_, fun d hdn => ?_⟩, ?_⟩
    · rw [hr]
      exact h.kept.move (rest_staged e (some m)) hfree
    · have hdc : d ≠ c := by
        rintro rfl
        rw [he] at hdn
        exact absurd hdn (Option.isSome_iff_ne_none.1 hset)
      rw [hel.handle d hdc] at hdn
      simpa [hdc, Custody.act_move_slot] using h.clear d hdn
    · rw [h.kept.whole_move (rest_staged e (some m)) hfree]
      simp [hg]

theorem Booked.flushFrom {fuel : Nat} {o : Option Nat} (h : Booked b st e)
    (hf : Egress.flushFrom fuel o e = .ok e') :
    Booked (b.replay (flushFromDeeds fuel o e)) st e' ∧
      ((b.replay (flushFromDeeds fuel o e)).Whole (rest st e') ↔ b.Whole (rest st e)) := by
  induction fuel generalizing o e b with
  | zero =>
    cases o with
    | none => exact Except.ok.inj hf ▸ ⟨h, Iff.rfl⟩
    | some c => cases hf
  | succ fuel ih =>
    cases o with
    | none => exact Except.ok.inj hf ▸ ⟨h, Iff.rfl⟩
    | some c =>
      simp only [Egress.flushFrom] at hf
      split at hf
      · next hc =>
        obtain ⟨hb, hw⟩ := h.free hc
          ⟨(freeContext_elsewhere e.atomicInc.2 c).handle,
            (freeContext_elsewhere e.atomicInc.2 c).msg⟩ (by simp)
        obtain ⟨hb', hw'⟩ := ih hb hf
        rw [flushFromDeeds, if_pos hc]
        exact ⟨hb', hw'.trans hw⟩
      · next hc =>
        rw [flushFromDeeds, if_neg hc]
        exact Except.ok.inj hf ▸ ⟨h, Iff.rfl⟩

theorem Booked.flush (h : Booked b st e) (hf : e.flush = .ok e') :
    Booked (b.replay e.flushDeeds) st e' ∧
      ((b.replay e.flushDeeds).Whole (rest st e') ↔ b.Whole (rest st e)) :=
  h.flushFrom hf

end Rest

end Egress

namespace Sofi

/-- The messages in a step up to the STOP action, and the contexts as that action finds them.
What is sent to a closing SOFI is accepted without being kept. -/
def handling (s : Sofi) : Event → List (Deed Place Msg) × Egress
  | .send m p =>
    if s.state = .closing then ([.accept m none], s.egress)
    else if s.outActive then
      (.accept m (some .staged) :: s.egress.postDeeds p m,
        s.egress.after (Prod.snd <$> s.egress.postBuffers p m))
    else ([.accept m (some .staged)], s.egress)
  | .eq type r p =>
    if s.state = .connecting ∧ type = FI_CONNECTED ∧ (s.ingress.post r).1 = 0 ∧ s.staged = true then
      (s.egress.postDeeds p s.outmsg,
        s.egress.after (Prod.snd <$> s.egress.postBuffers p s.outmsg))
    else ([], s.egress)
  | .txCompleted c => (if s.handlesTx then [.drop (.ctx c)] else [], s.egress)
  | .txError (.ctx c) _ =>
    if s.handlesTx then
      ([.drop (.ctx c)], s.egress.after ((s.removeTx c).egress.handleError c))
    else ([], s.egress)
  | _ => ([], s.egress)

/-- The messages in a whole step.  The flush comes last, if the connection closes with an
error. -/
def deeds (s : Sofi) (e : Event) (s' : Sofi) : List (Deed Place Msg) :=
  (s.handling e).1 ++
    if s.state ≠ .closing ∧ s'.state = .closing ∧ s'.error ≠ 0 then (s.handling e).2.flushDeeds
    else []

def ledger : List (Sofi × Event) → Custody Place Msg
  | [] => .empty
  | (s, e) :: h =>
    match s.step e with
    | .ok s' => (ledger h).replay (deeds s e s')
    | .error _ => ledger h

/-- The staged message.  A SOFI that is closing will not send it any more. -/
def staging (s : Sofi) : Option Msg :=
  if s.staged = true ∧ s.state ≠ .closing then some s.outmsg else none

/-- No message is sent to a SOFI that is closing or has no context for it, and the connection
is made while a message waits for it. -/
def KeepsSent (s : Sofi) : Event → Prop
  | .send .. => s.state ≠ .closing ∧ (s.outActive = true → s.egress.getContext ≠ .ok none)
  | .eq type r _ =>
    s.state = .connecting → s.staged = true → type = FI_CONNECTED ∧ (s.ingress.post r).1 = 0
  | .stop => s.state = .connecting → s.staged = false
  | _ => True

instance (s : Sofi) : (e : Event) → Decidable (KeepsSent s e)
  | .send .. => inferInstanceAs (Decidable (_ ∧ _))
  | .eq .. => inferInstanceAs (Decidable (_ → _ → _))
  | .stop => inferInstanceAs (Decidable (_ → _))
  | .txCompleted _ | .txError .. | .rxCompleted .. | .rxError .. | .keepalive .. | .shutdownTimer _
  | .recv _ | .free _ => .isTrue trivial

def Accounts (b : Custody Place Msg) (s : Sofi) (e : Event) (s' : Sofi) : Prop :=
  Egress.Booked (b.replay (deeds s e s')) (staging s') s'.egress ∧
    ((b.replay (deeds s e s')).Whole (Egress.rest (staging s') s'.egress) ↔
      b.Whole (Egress.rest (staging s) s.egress) ∧ KeepsSent s e)

section Accounts

variable {s s' s₁ t : Sofi} {e : Event} {b : Custody Place Msg} {st : Option Msg} {fl bl : List Nat}

theorem staging_closing (h : s.state = .closing) : staging s = none := by simp [staging, h]

theorem staging_unstaged (h : s.staged = false) : staging s = none := by simp [staging, h]

theorem staging_connecting (h : s.state = .connecting) :
    staging s = none ↔ s.staged = false := by
  simp [staging, h]

theorem deeds_open (h : s.state = .closing ∨ s'.state ≠ .closing) :
    deeds s e s' = (s.handling e).1 := by
  rcases h with h | h <;> simp [deeds, h]

theorem Accounts.of_open {P : Prop}
    (hb : Egress.Booked (b.replay (s.handling e).1) (staging s') t.egress)
    (hw : (b.replay (s.handling e).1).Whole (Egress.rest (staging s') t.egress) ↔ P)
    (hd : s.state = .closing ∨ s'.state ≠ .closing) (hh : s'.egress.mrHandle = t.egress.mrHandle)
    (hm : s'.egress.msg = t.egress.msg)
    (hp : P ↔ b.Whole (Egress.rest (staging s) s.egress) ∧ KeepsSent s e) : Accounts b s e s' := by
  obtain ⟨hb', hw'⟩ := hb.congr hh hm
  rw [Accounts, deeds_open hd]
  exact ⟨hb', (hw'.trans hw).trans hp⟩

theorem Closes.accounts {P : Prop} (h : Closes s₁ s') (hst : s.state ≠ .closing)
    (hd : (s.handling e).2 = s₁.egress)
    (hb : Egress.Booked (b.replay (s.handling e).1) st s₁.egress)
    (hw : (b.replay (s.handling e).1).Whole (Egress.rest st s₁.egress) ↔ P)
    (hp : P ∧ st = none ↔ b.Whole (Egress.rest (staging s) s.egress) ∧ KeepsSent s e) :
    Accounts b s e s' := by
  obtain ⟨hb₁, hw₁⟩ := hb.unstage
  rw [Accounts, deeds, hd, staging_closing h.state, Custody.replay_append, ← hp, ← hw, ← hw₁]
  rcases h.egress with ⟨he, ho⟩ | ⟨he, hf⟩
  · rw [if_neg (by simp [h.error, he]), ho]
    exact ⟨hb₁, Iff.rfl⟩
  · rw [if_pos ⟨hst, h.state, by rw [h.error]; exact he⟩]
    exact hb₁.flush hf

theorem Accounts.of_same (hb : Egress.Booked b (staging s) s.egress) (hd : (s.handling e).1 = [])
    (hst : s'.state = s.state) (hs : staging s' = staging s)
    (hh : s'.egress.mrHandle = s.egress.mrHandle) (hm : s'.egress.msg = s.egress.msg)
    (hk : KeepsSent s e) : Accounts b s e s' := by
  refine .of_open (t := s) (by rw [hd, hs]; exact hb) Iff.rfl ?_ hh hm ?_
  · rw [hst]
    exact em _
  · rw [hd, hs]
    exact (and_iff_left hk).symm

theorem Closes.accounts_same (h : Closes s₁ s') (hst : s.state ≠ .closing)
    (hb : Egress.Booked b (staging s) s.egress) (hd : s.handling e = ([], s.egress))
    (ho : s₁.egress = s.egress) (hk : KeepsSent s e ↔ staging s = none) : Accounts b s e s' := by
  refine h.accounts hst (by rw [hd, ho]) (by rw [hd, ho]; exact hb) Iff.rfl ?_
  rw [hd, ho, hk]
  exact Iff.rfl

theorem egress_posted {p : Post} {m : Msg} {ret : Int} {eg : Egress}
    (h : s.egress.postBuffers p m = .ok (ret, eg)) :
    s.egress.after (Prod.snd <$> s.egress.postBuffers p m) = eg := by
  rw [h]
  rfl

theorem posted_accounts {P : Prop} {ds : List (Deed Place Msg)} {eg : Egress}
    (hst : s.state ≠ .closing) (hd : s.handling e = (ds, eg))
    (hb : Egress.Booked (b.replay ds) none eg)
    (hw : (b.replay ds).Whole (Egress.rest none eg) ↔ P)
    (hp : P ↔ b.Whole (Egress.rest (staging s) s.egress) ∧ KeepsSent s e)
    (h : (∃ s₁, Closes s₁ s' ∧ s₁.egress = eg) ∨ s'.state ≠ .closing ∧ staging s' = none ∧
      s'.egress.mrHandle = eg.mrHandle ∧ s'.egress.msg = eg.msg) : Accounts b s e s' := by
  rcases h with ⟨s₁, hc, rfl⟩ | ⟨hst', hs, hh, hm⟩
  · refine hc.accounts (P := P) hst (by rw [hd]) (by rw [hd]; exact hb) (by rw [hd]; exact hw) ?_
    rw [and_iff_left rfl]
    exact hp
  · refine .of_open (P := P) (t := { s with egress := eg }) ?_ ?_ (.inr hst') hh hm hp
    · rw [hd, hs]
      exact hb
    · rw [hd, hs]
      exact hw

theorem send_accounts {p : Post} {m : Msg} (hp : Phase s)
    (hb : Egress.Booked b (staging s) s.egress) (h : s.send p m = .ok s') :
    Accounts b s (.send m p) s' := by
  simp only [send, egressStage, bind_eq_ok, nnAssert_eq_ok] at h
  obtain ⟨_, hn, h⟩ := h
  have hn : s.staged = false := hn
  by_cases hst : s.state = .closing
  · rw [if_pos hst, pure_eq_ok] at h
    subst h
    have hd : s.handling (.send m p) = ([.accept m none], s.egress) := by simp [handling, hst]
    obtain ⟨hb', hw⟩ := hb.refuse m
    refine .of_open (t := s) (P := False) (by rw [hd]; exact hb') ?_ (.inl hst) rfl rfl ?_
    · rw [hd]
      exact iff_false_intro hw
    · simp [KeepsSent, hst]
  · rw [if_neg hst] at h
    rw [staging_unstaged hn] at hb
    obtain ⟨hb₁, hw₁⟩ := hb.stage m
    split at h
    · next ho =>
      have ho : s.outActive = true := ho
      simp only [bind_eq_ok] at h
      obtain ⟨⟨ret, s₁⟩, hsend, h⟩ := h
      obtain ⟨eg, hpb, hs₁⟩ := egressSend_cases hsend
      have hpb : s.egress.postBuffers p m = .ok (ret, eg) := hpb
      have hd : s.handling (.send m p) =
          (.accept m (some .staged) :: s.egress.postDeeds p m, eg) := by
        simp only [handling, hst, ho, if_true, if_false, egress_posted hpb]
      obtain ⟨hb₂, hw₂⟩ := hb₁.post hpb
      have hw₂ := hw₂.trans (and_congr_left' hw₁)
      have hp₂ : b.Whole (Egress.rest none s.egress) ∧ s.egress.getContext ≠ .ok none ↔
          b.Whole (Egress.rest (staging s) s.egress) ∧ KeepsSent s (.send m p) := by
        rw [staging_unstaged hn]
        simp [KeepsSent, hst, ho]
      refine posted_accounts hst hd hb₂ hw₂ hp₂ ?_
      rcases hs₁ with ⟨hne, rfl⟩ | ⟨rfl, rfl⟩
      · simp only [hne, ne_eq, not_false_eq_true, if_true] at h
        exact .inl ⟨_, criticalError_cases h (hp.fsm_active hst), rfl⟩
      · simp only [ne_eq, not_true, if_false, pure_eq_ok] at h
        subst h
        exact .inr ⟨hst, staging_unstaged rfl, rfl, rfl⟩
    · next ho =>
      simp only [pure_eq_ok] at h
      have hs : staging s' = some m := by
        rw [← h]
        exact if_pos ⟨rfl, hst⟩
      subst h
      have ho : s.outActive = false := by simpa using ho
      have hd : s.handling (.send m p) = ([.accept m (some .staged)], s.egress) := by
        simp [handling, hst, ho]
      refine .of_open (t := s) (P := b.Whole (Egress.rest none s.egress)) ?_ ?_ (.inr hst)
        rfl rfl ?_
      · rw [hd, hs]
        exact hb₁
      · rw [hd, hs]
        exact hw₁
      · rw [staging_unstaged hn]
        simp [KeepsSent, hst, ho]

theorem connected_accounts {r : Int} {p : Post} (hp : Phase s) (hs : Sending s fl bl)
    (hst : s.state = .connecting) (hb : Egress.Booked b (staging s) s.egress)
    (h : s.connected r p = .ok s') : Accounts b s (.eq FI_CONNECTED r p) s' := by
  have hf := hp.fsm_of_connecting hst
  have hne : s.state ≠ .closing := by simp [hst]
  have hg : s.egress.getContext ≠ .ok none := by
    intro hg
    rcases hs.holds.getContext hg with ⟨_, _, hc, _⟩ | ⟨_, _, hbl⟩
    · cases hc
    · exact hbl (hs.connecting hst)
  simp only [connected, bind_eq_ok] at h
  obtain ⟨t, _, h⟩ := h
  split at h
  · next hr =>
    have hc := criticalError_cases h hf
    refine hc.accounts_same hne hb (by simp [handling, hr]) rfl ?_
    simp [KeepsSent, hst, hr, staging_connecting hst]
  · next hr =>
    have hr : (s.ingress.post r).1 = 0 := by simpa using hr
    have hk : KeepsSent s (.eq FI_CONNECTED r p) := fun _ _ => ⟨rfl, hr⟩
    split at h
    · next hstaged =>
      have hstaged : s.staged = true := hstaged
      have hsm : staging s = some s.outmsg := if_pos ⟨hstaged, hne⟩
      simp only [bind_eq_ok] at h
      obtain ⟨⟨ret, s₁⟩, hsend, h⟩ := h
      obtain ⟨eg, hpb, hs₁⟩ := egressSend_cases hsend
      have hpb : s.egress.postBuffers p s.outmsg = .ok (ret, eg) := hpb
      have hd : s.handling (.eq FI_CONNECTED r p) = (s.egress.postDeeds p s.outmsg, eg) := by
        simp only [handling, hst, hr, hstaged, and_self, if_true, egress_posted hpb]
      rw [hsm] at hb
      obtain ⟨hb₂, hw₂⟩ := hb.post hpb
      rw [and_iff_left hg] at hw₂
      have hp₂ : b.Whole (Egress.rest (some s.outmsg) s.egress) ↔
          b.Whole (Egress.rest (staging s) s.egress) ∧ KeepsSent s (.eq FI_CONNECTED r p) := by
        rw [hsm, and_iff_left hk]
      refine posted_accounts hne hd hb₂ hw₂ hp₂ ?_
      rcases hs₁ with ⟨hret, rfl⟩ | ⟨rfl, rfl⟩
      · simp only [hret, ne_eq, not_false_eq_true, if_true] at h
        exact .inl ⟨_, criticalError_cases h hf, rfl⟩
      · simp only [ne_eq, not_true, if_false, pure_eq_ok] at h
        subst h
        exact .inr ⟨by simp, staging_unstaged rfl, rfl, rfl⟩
    · next hstaged =>
      have hstaged : s.staged = false := by simpa using hstaged
      simp only [pure_eq_ok] at h
      have hst' : staging s' = staging s := by
        rw [staging_unstaged hstaged, staging_unstaged]
        rw [← h]
        exact hstaged
      subst h
      refine .of_open (t := s) (P := b.Whole (Egress.rest (staging s) s.egress)) ?_ ?_
        (.inr (by simp)) rfl rfl (and_iff_left hk).symm
      · rw [hst']
        simpa [handling, hstaged] using hb
      · rw [hst']
        simp [handling, hstaged]

theorem staging_active (hi : s.state = .active → s.staged = false) (hst : s.state ≠ .connecting)
    (hp : Phase s) : staging s = none := by
  by_cases hc : s.state = .closing
  · exact staging_closing hc
  · rcases hp.running (hp.fsm_active hc) with h | h
    · exact absurd h hst
    · exact staging_unstaged (hi h)

theorem eq_accounts {type r : Int} {p : Post} (hp : Phase s) (hs : Sending s fl bl)
    (hi : s.state = .active → s.staged = false) (hb : Egress.Booked b (staging s) s.egress)
    (hen : s.enabled (.eq type r p) = true) (h : s.step (.eq type r p) = .ok s') :
    Accounts b s (.eq type r p) s' := by
  by_cases hq : s.state = .connecting ∧ type = FI_CONNECTED
  · obtain ⟨hst, rfl⟩ := hq
    simp only [step, feed, hp.fsm_of_connecting hst, reduceCtorEq, if_false] at h
    rw [handler_connecting hst] at h
    exact connected_accounts hp hs hst hb h
  · have hd : s.handling (.eq type r p) = ([], s.egress) := by
      refine if_neg fun hc => hq ⟨hc.1, hc.2.1⟩
    have hk : KeepsSent s (.eq type r p) ↔ staging s = none := by
      by_cases hst : s.state = .connecting
      · have ht : type ≠ FI_CONNECTED := fun ht => hq ⟨hst, ht⟩
        simp [KeepsSent, hst, ht, staging_connecting hst]
      · simp [KeepsSent, hst, staging_active hi hst hp]
    cases step_moves hp hen h with
    | stay hst hkc _ ho =>
      obtain ⟨w, ho⟩ := ho
      have hst : s.state = .closing := hst
      exact .of_same hb (by rw [hd]) hkc.state
        (by rw [staging_closing hst, staging_closing (hkc.state.trans hst)]) (by rw [ho])
        (by rw [ho]) (hk.2 (staging_closing hst))
    | close hc _ hf _ _ ho =>
      exact hc.accounts_same (fun hst => hp.fsm_of_closing hst hf) hb hd ho hk
    | connected hst | connectFailed _ _ hst => exact absurd ⟨hst, rfl⟩ hq
    | txDiscarded hev => rcases hev with h | ⟨_, h⟩ <;> cases h

theorem Sending.not_connecting {c : Nat} (hs : Sending s fl bl) (hc : c ∈ s.egress.txOut)
    (ht : s.fsm = .active ∨ s.error = 0) : s.state ≠ .connecting := by
  intro hst
  obtain ⟨b₁, b₂, hbl, _⟩ := hs.mem_of_txOut hc ht
  rw [hs.connecting hst] at hbl
  simp at hbl

theorem Sending.handlesTx_iff {c : Nat} (hs : Sending s fl bl) (hp : Phase s)
    (hc : c ∈ s.egress.txOut) (hf : s.fsm ≠ .idle) :
    s.handlesTx = true ↔ s.fsm = .active ∨ s.error = 0 := by
  refine ⟨hp.of_handlesTx, fun h => ?_⟩
  cases hfs : s.fsm with
  | idle => exact absurd hfs hf
  | active =>
    rcases hp.running hfs with hst | hst
    · exact absurd hst (hs.not_connecting hc h)
    · simp [handlesTx, hfs, hst]
  | stopping =>
    simp only [hfs, reduceCtorEq, false_or] at h
    simp [handlesTx, hfs, h]

structure Steady (s : Sofi) : Prop where
  phase : Phase s
  sending : ∃ fl bl, Sending s fl bl
  idle : s.state = .active → s.staged = false

theorem Steady.staging (h : Steady s) (hst : s.state ≠ .connecting) : s.staging = none :=
  staging_active h.idle hst h.phase

theorem Steady.step (h : Steady s) (hen : s.enabled e = true) (hs : s.step e = .ok s') :
    Steady s' := by
  obtain ⟨fl, bl, hsend⟩ := h.sending
  obtain ⟨hp', hsend'⟩ := step_sending ⟨h.phase, fl, bl, hsend⟩ hen hs
  refine ⟨hp', hsend', fun hst => ?_⟩
  cases step_answers h.phase hsend hen hs with
  | keep _ hst' _ hq => exact hq.staged.trans (h.idle (hst' ▸ hst))
  | close _ _ hst' => simp [hst] at hst'
  | fail _ hst' => simp [hst] at hst'
  | stage _ hst' => simp [hst] at hst'
  | sent _ _ hc => exact hc.staged
  | connected _ _ hc =>
    rcases hc with ⟨hn, hq, _⟩ | ⟨_, hc⟩
    · exact hq.staged.trans hn
    · exact hc.staged
  | completed _ hst' _ hstaged => exact hstaged.trans (h.idle (hst' ▸ hst))

theorem Sending.frees {c : Nat} {e : Egress} (hs : Sending s fl bl) (hc : c ∈ s.egress.txOut)
    (ht : s.fsm = .active ∨ s.error = 0) (hb : Egress.Booked b st s.egress)
    (hh : e.mrHandle = ((s.removeTx c).egress.freeContext c).mrHandle)
    (hm : e.msg = ((s.removeTx c).egress.freeContext c).msg) :
    Egress.Booked (b.replay [.drop (.ctx c)]) st e ∧
      ((b.replay [.drop (.ctx c)]).Whole (Egress.rest st e) ↔
        b.Whole (Egress.rest st s.egress)) := by
  obtain ⟨d, hd, _, hbusy, _⟩ := hs.inFlight hc ht
  cases hd
  have hel := Egress.freeContext_elsewhere (s.removeTx c).egress c
  exact hb.free hbusy ⟨fun d hd => by rw [hh]; exact hel.handle d hd,
    fun d hd => by rw [hm]; exact hel.msg d hd⟩ (by simp [hh])

theorem txCompleted_accounts {c : Nat} (h : Steady s) (h' : Steady s')
    (hen : s.enabled (.txCompleted c) = true) (hb : Egress.Booked b (staging s) s.egress)
    (hm : Moves s (.txCompleted c) s') : Accounts b s (.txCompleted c) s' := by
  obtain ⟨fl, bl, hs⟩ := h.sending
  simp only [enabled, decide_eq_true_eq] at hen
  have hiff := hs.handlesTx_iff h.phase hen.2 hen.1
  cases hm with
  | stay he => exact he.elim
  | close _ _ _ he => rcases he with he | ⟨he, _⟩ <;> cases he
  | txCompleted he hk _ hh =>
    have ht := hiff.2 he
    obtain ⟨_, r, k, hout⟩ := Egress.handle_inv hh
    obtain ⟨hb', hw⟩ := hs.frees (e := s'.egress) hen.2 he hb (by rw [hout]) (by rw [hout])
    have hnc := hs.not_connecting hen.2 he
    have hst : staging s' = staging s := by
      rw [h.staging hnc, h'.staging (hk.state ▸ hnc)]
    refine .of_open (t := s') (by simpa [handling, ht, hst] using hb') ?_ ?_ rfl rfl
      (and_iff_left trivial).symm
    · simpa [handling, ht, hst] using hw
    · rw [hk.state]
      exact em _
  | txDiscarded _ hf he hk _ ho =>
    have ht : ¬ s.handlesTx = true := fun ht => by simpa [hf, he] using hiff.1 ht
    have hcl := h.phase.closing hf
    refine .of_same hb (by simp [handling, ht]) hk.state ?_ (by rw [ho]; rfl) (by rw [ho]; rfl)
      trivial
    rw [staging_closing hcl, staging_closing (hk.state.trans hcl)]

theorem txError_accounts {c : Nat} {err : Int} (h : Steady s)
    (hen : s.enabled (.txError (.ctx c) err) = true) (hb : Egress.Booked b (staging s) s.egress)
    (hm : Moves s (.txError (.ctx c) err) s') : Accounts b s (.txError (.ctx c) err) s' := by
  obtain ⟨fl, bl, hs⟩ := h.sending
  simp only [enabled, decide_eq_true_eq] at hen
  have hiff := hs.handlesTx_iff h.phase hen.2 hen.1
  have errored : ∀ {eg}, s.fsm = .active ∨ s.error = 0 →
      (s.removeTx c).egress.handleError c = .ok eg →
      s.handling (.txError (.ctx c) err) = ([.drop (.ctx c)], eg) ∧
        Egress.Booked (b.replay [.drop (.ctx c)]) (staging s) eg ∧
          ((b.replay [.drop (.ctx c)]).Whole (Egress.rest (staging s) eg) ↔
            b.Whole (Egress.rest (staging s) s.egress)) := by
    intro eg ht hh
    obtain ⟨r, hr⟩ := Egress.handleError_inv hh
    refine ⟨by simp [handling, hiff.2 ht, hh, Egress.after], ?_⟩
    exact hs.frees hen.2 ht hb (by rw [hr]) (by rw [hr])
  cases hm with
  | stay he => exact he.elim
  | close _ _ _ he => rcases he with he | ⟨he, _⟩ <;> cases he
  | txFailed hc _ hf _ hh =>
    obtain ⟨hd, hb', hw⟩ := errored (.inl hf) hh
    refine hc.accounts (P := b.Whole _) (fun hst => h.phase.fsm_of_closing hst hf) (by rw [hd])
      (by rw [hd]; exact hb') (by rw [hd]; exact hw) ?_
    rw [h.staging (hs.not_connecting hen.2 (.inl hf))]
    exact and_congr_right' (iff_of_true rfl trivial)
  | txErrored hf he hk _ hh =>
    obtain ⟨hd, hb', hw⟩ := errored (.inr he) hh
    have hcl := h.phase.closing hf
    have hst : staging s' = staging s := by
      rw [staging_closing hcl, staging_closing (hk.state.trans hcl)]
    refine .of_open (t := s') (P := b.Whole _) ?_ ?_ (.inl hcl) rfl rfl (and_iff_left trivial).symm
    · rw [hd, hst]
      exact hb'
    · rw [hd, hst]
      exact hw
  | txDiscarded _ hf he hk _ ho =>
    have ht : ¬ s.handlesTx = true := fun ht => by simpa [hf, he] using hiff.1 ht
    have hcl := h.phase.closing hf
    refine .of_same hb (by simp [handling, ht]) hk.state ?_ (by rw [ho]; rfl) (by rw [ho]; rfl)
      trivial
    rw [staging_closing hcl, staging_closing (hk.state.trans hcl)]

def Event.Apart : Event → Prop
  | .send .. | .eq .. | .txCompleted _ | .txError (.ctx _) _ | .stop => False
  | _ => True

theorem staging_of_apart (he : e.Apart) (h : Steady s) (h' : Steady s')
    (hst : s'.state = s.state) (hs : s.step e = .ok s') : staging s' = staging s := by
  by_cases hc : s.state = .connecting
  · have hf := h.phase.fsm_of_connecting hc
    cases e with
    | recv late =>
      simp only [step, recv, bind_eq_ok, nnAssert_eq_ok, pure_eq_ok] at hs
      obtain ⟨⟨ret, i⟩, _, _, _, rfl⟩ := hs
      rfl
    | free m =>
      cases hs
      rfl
    | send | eq | txCompleted | stop => exact he.elim
    | txError op =>
      cases op with
      | ctx => exact he.elim
      | aux => simp [step, feed, hf, handler, hc, handlerConnecting] at hs
    | _ => simp [step, feed, hf, handler, hc, handlerConnecting] at hs
  · rw [h.staging hc, h'.staging (hst ▸ hc)]

theorem apart_accounts (he : e.Apart) (h : Steady s) (h' : Steady s')
    (hen : s.enabled e = true) (hb : Egress.Booked b (staging s) s.egress)
    (hs : s.step e = .ok s') : Accounts b s e s' := by
  have hd : s.handling e = ([], s.egress) := by
    cases e with
    | txError op => cases op with | ctx => exact he.elim | aux => rfl
    | send | eq | txCompleted | stop => exact he.elim
    | _ => rfl
  have hk : KeepsSent s e := by
    cases e <;> first | exact he.elim | trivial
  have kept : KeepsControl s s' → s'.egress.mrHandle = s.egress.mrHandle →
      s'.egress.msg = s.egress.msg → Accounts b s e s' := fun hkc hh hm =>
    .of_same hb (by rw [hd]) hkc.state (staging_of_apart he h h' hkc.state hs) hh hm hk
  -- only the ACTIVE state is left by such an event
  have closed : ∀ {s₁ : Sofi}, Closes s₁ s' → s₁.egress = s.egress → s.state = .active →
      Accounts b s e s' := by
    intro s₁ hc ho hst
    exact hc.accounts_same (by simp [hst]) hb hd ho (iff_of_true hk (h.staging (by simp [hst])))
  cases step_moves h.phase hen hs with
  | stay _ hkc _ ho =>
    obtain ⟨w, ho⟩ := ho
    exact kept hkc (by rw [ho]) (by rw [ho])
  | close hc _ hf hbr _ ho =>
    refine closed hc ho ?_
    rcases hbr with hbr | ⟨rfl, _⟩
    · cases e with
      | eq => exact he.elim
      | keepalive t aux =>
        refine (h.phase.running hf).resolve_left fun hst => ?_
        simp [step, feed, hf, handler, hst, handlerConnecting] at hs
      | _ => exact hbr.elim
    · exact he.elim
  | sent | sendFailed | connected | connectFailed | txCompleted | txFailed | txErrored =>
    exact he.elim
  | txDiscarded hev => rcases hev with rfl | ⟨_, rfl⟩ <;> exact he.elim
  | rxCompleted _ hkc ho | rxDrained _ hkc ho | rxErrored _ hkc ho | fetched hkc ho
  | freed hkc ho => exact kept hkc (by rw [ho]) (by rw [ho])
  | rxFailed hc _ hst _ ho => exact closed hc ho hst

theorem step_accounts (h : Steady s) (h' : Steady s') (hen : s.enabled e = true)
    (hb : Egress.Booked b (staging s) s.egress) (hs : s.step e = .ok s') : Accounts b s e s' := by
  obtain ⟨fl, bl, hsend⟩ := h.sending
  cases e with
  | send m p => exact send_accounts h.phase hb hs
  | eq type r p => exact eq_accounts h.phase hsend h.idle hb hen hs
  | txCompleted c => exact txCompleted_accounts h h' hen hb (step_moves h.phase hen hs)
  | txError op err =>
    cases op with
    | ctx c => exact txError_accounts h hen hb (step_moves h.phase hen hs)
    | aux => exact apart_accounts trivial h h' hen hb hs
  | stop =>
    rcases fsmStop_cases hs with ⟨hf, rfl⟩ | hc
    · have hcl := h.phase.closing hf
      exact .of_same hb rfl rfl rfl rfl rfl (by simp [KeepsSent, hcl])
    · have hne := fun hst => h.phase.fsm_of_closing hst hc.active
      refine hc.accounts_same hne hb rfl rfl ?_
      by_cases hst : s.state = .connecting
      · simp [KeepsSent, hst, staging_connecting hst]
      · simp [KeepsSent, hst, h.staging hst]
  | rxCompleted | rxError | keepalive | shutdownTimer | recv | free =>
    exact apart_accounts trivial h h' hen hb hs

theorem machine_steady (h : machine.init s) : Steady s := by
  obtain ⟨hp, fl, hs, _⟩ := machine_sending h
  obtain ⟨u, _, _, rfl⟩ := machine_init h
  exact ⟨hp, ⟨fl, [], hs⟩, fun _ => rfl⟩

/-- Along a run every message that was sent is kept or was released just when every step keeps
what was sent. -/
theorem run_booked {h : List (Sofi × Event)} (r : machine.Run h s) :
    Steady s ∧ Egress.Booked (ledger h) (staging s) s.egress ∧
      ((ledger h).Whole (Egress.rest (staging s) s.egress) ↔ Machine.Guarded KeepsSent h) := by
  induction r with
  | @init s hi =>
    obtain ⟨u, _, _, rfl⟩ := machine_init hi
    have hr : Egress.rest (staging u.started) u.started.egress = fun _ => none := by
      funext k
      cases k <;> rfl
    refine ⟨machine_steady hi, ⟨?_, fun _ _ => rfl⟩, ?_⟩
    · rw [hr]
      exact Custody.kept_empty
    · rw [hr]
      exact iff_of_true Custody.whole_empty (Machine.guarded_nil _)
  | @step h s e s' _ hen hs ih =>
    obtain ⟨hst, hb, hw⟩ := ih
    have hst' := hst.step hen hs
    have hl : ledger ((s, e) :: h) = (ledger h).replay (deeds s e s') := by
      have hs : s.step e = .ok s' := hs
      simp only [ledger, hs]
    obtain ⟨hb', hw'⟩ := step_accounts hst hst' hen hb hs
    refine ⟨hst', hl ▸ hb', ?_⟩
    rw [hl, hw', hw, Machine.guarded_cons]
    exact and_comm

end Accounts

end Sofi

end OfiTransport
