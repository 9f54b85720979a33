import OfiTransport.Sofi.Init

/-! The options of a socket, as nanomsg sets and reads them (`nn_ofi_optset`), and what a SOFI is
built with in the end. -/

namespace OfiTransport

def ENOPROTOOPT : Int := 92

namespace Options

def get (o : Options) : Name → Int
  | .rxQueueSize => o.rxQueueSize
  | .txQueueSize => o.txQueueSize
  | .slabSize => o.slabSize

def bytes (n : Int) : List Nat := (List.range 4).map fun i => toUInt32 n / 256 ^ i % 256

def ofBytes (l : List Nat) : Int := toInt32 ((l.take 4).foldr (fun b n => b + 256 * n) 0 : Nat)

/-- `nn_ofi_optset_setopt`, on a value of any length.  All the options that are not of OFI are
`none`. -/
def optsetSetopt (o : Options) (option : Option Name) (optval : List Nat) : Int × Options :=
  if optval.length ≠ 4 then (-EINVAL, o)
  else
    match option with
    | none => (-ENOPROTOOPT, o)
    | some n => o.setopt n (ofBytes optval)

/-- `nn_ofi_optset_getopt`: what it returns, the buffer of the caller, and the length that is
stored for it. -/
def optsetGetopt (o : Options) (option : Option Name) (optval : List Nat) : Int × List Nat × Nat :=
  match option with
  | none => (-ENOPROTOOPT, optval, optval.length)
  | some n => (0, (bytes (o.get n)).take optval.length ++ optval.drop 4, 4)

inductive Call
  | set (option : Option Name) (optval : List Nat)
  | get (option : Option Name) (optval : List Nat)

def call (o : Options) : Call → Options
  | .set option optval => (o.optsetSetopt option optval).2
  | .get .. => o

def replay : List Call → Options
  | [] => default
  | c :: l => (replay l).call c

def Name.least : Name → Int
  | .rxQueueSize => 2
  | .txQueueSize | .slabSize => 0

/-- The value that was last accepted for an option, or else its default. -/
def last (n : Name) : List Call → Int
  | [] => default.get n
  | .set option optval :: l =>
    if optval.length = 4 ∧ option = some n ∧ n.least ≤ ofBytes optval then ofBytes optval
    else last n l
  | .get .. :: l => last n l

section Bytes

theorem ofBytes_bounds (l : List Nat) : -2 ^ 31 ≤ ofBytes l ∧ ofBytes l < 2 ^ 31 := by
  have h₁ := Int.le_bmod (x := ((l.take 4).foldr (fun b n => b + 256 * n) 0 : Nat)) (m := 2 ^ 32)
    (by decide)
  have h₂ := Int.bmod_lt (x := ((l.take 4).foldr (fun b n => b + 256 * n) 0 : Nat)) (m := 2 ^ 32)
    (by decide)
  simp only [ofBytes, toInt32]
  omega

theorem ofBytes_bytes {n : Int} (h₁ : -2 ^ 31 ≤ n) (h₂ : n < 2 ^ 31) (l : List Nat) :
    ofBytes (bytes n ++ l) = n := by
  have hlen : (bytes n).length = 4 := rfl
  have hsum : (bytes n).foldr (fun b n => b + 256 * n) 0 = toUInt32 n := by
    have hlt : toUInt32 n < 2 ^ 32 := by
      simp only [toUInt32]
      omega
    show toUInt32 n / 256 ^ 0 % 256 + 256 * (toUInt32 n / 256 ^ 1 % 256 + 256 *
      (toUInt32 n / 256 ^ 2 % 256 + 256 * (toUInt32 n / 256 ^ 3 % 256 + 256 * 0))) = toUInt32 n
    omega
  rw [ofBytes, List.take_append_of_le_length (by simp [hlen]),
    List.take_of_length_le (by simp [hlen]),
    hsum]
  simp only [toInt32, toUInt32, Int.bmod_def]
  split <;> omega

end Bytes

section Store

variable {o : Options} {n m : Name} {v : Int} {l : List Call}

theorem setopt_get (o : Options) (n m : Name) (v : Int) :
    (o.setopt n v).2.get m = if n = m ∧ n.least ≤ v then v else o.get m := by
  cases n <;> cases m <;> simp only [setopt, Name.least, get] <;> split <;> simp <;> omega

theorem replay_get (l : List Call) (n : Name) : (replay l).get n = last n l := by
  induction l with
  | nil => rfl
  | cons c l ih =>
    cases c with
    | get option optval => exact ih
    | set option optval =>
      simp only [replay, call, optsetSetopt, last]
      by_cases hlen : optval.length = 4
      · cases option with
        | none => simpa [hlen] using ih
        | some m =>
          simp only [hlen, ne_eq, not_true, if_false, setopt_get, Option.some.injEq, true_and, ih]
          by_cases hm : m = n <;> simp [hm]
      · simpa [hlen] using ih

theorem last_bounds (n : Name) (l : List Call) : n.least ≤ last n l ∧ last n l < 2 ^ 31 := by
  induction l with
  | nil => cases n <;> decide
  | cons c l ih =>
    cases c with
    | get option optval => exact ih
    | set option optval =>
      simp only [last]
      split
      · next h => exact ⟨h.2.2, (ofBytes_bounds optval).2⟩
      · exact ih

theorem least_nonneg (n : Name) : 0 ≤ n.least := by cases n <;> decide

theorem getopt_last {optval : List Nat} (hlen : 4 ≤ optval.length) (l : List Call) (n : Name) :
    ofBytes ((replay l).optsetGetopt (some n) optval).2.1 = last n l := by
  obtain ⟨h₁, h₂⟩ := last_bounds n l
  have h₀ := least_nonneg n
  have htake : (bytes (last n l)).take optval.length = bytes (last n l) :=
    List.take_of_length_le hlen
  simp only [optsetGetopt, replay_get, htake]
  exact ofBytes_bytes (by omega) h₂ _

/-- After any calls an option that is read has the value that was last accepted for it, which
is not below its least one.  No byte is written outside the int or the buffer. -/
theorem reads_last_set (l : List Call) (n : Name) (optval : List Nat) :
    let r := (replay l).optsetGetopt (some n) optval
    r.1 = 0 ∧ r.2.2 = 4 ∧ r.2.1.length = optval.length ∧
      (∀ i, 4 ≤ i → r.2.1[i]? = optval[i]?) ∧
      (4 ≤ optval.length → ofBytes r.2.1 = last n l) ∧ n.least ≤ last n l := by
  have hlen : ((bytes ((replay l).get n)).take optval.length).length = min optval.length 4 :=
    List.length_take
  refine ⟨rfl, rfl, ?_, fun i hi => ?_, fun h => getopt_last h l n, (last_bounds n l).1⟩
  · simp only [optsetGetopt, List.length_append, hlen, List.length_drop]
    omega
  · simp only [optsetGetopt]
    by_cases h : 4 ≤ optval.length
    · rw [List.getElem?_append_right (by omega), hlen, List.getElem?_drop]
      congr 1
      omega
    · rw [List.getElem?_eq_none (by simp [hlen]; omega), List.getElem?_eq_none (by omega)]

-- too short a queue and a value of the wrong size are refused
example :
    ((replay [.set (some .rxQueueSize) (bytes 1), .set (some .rxQueueSize) [8, 0]]).optsetGetopt
    (some .rxQueueSize) [7, 7, 7, 7, 7]).2.1 = [16, 0, 0, 0, 7] := by decide

end Store

section Building

theorem queueSize_eq {opt : Int} {limit : Nat} (h₀ : 0 ≤ opt) (h₁ : opt < 2 ^ 31)
    (h₂ : limit < 2 ^ 31) :
    Sofi.queueSize opt limit = if opt = 0 then (limit : Int) else min opt limit := by
  have hint : ∀ n : Int, 0 ≤ n → n < 2 ^ 31 → toInt32 n = n := by
    intro n h h'
    simp only [toInt32, Int.bmod_def]
    split <;> omega
  have hnat : ∀ n : Int, 0 ≤ n → n < 2 ^ 31 → (toUInt64 n : Int) = n := by
    intro n h h'
    simp only [toUInt64]
    omega
  have hlimit := hint limit (by omega) (by omega)
  have hlimit' := hnat limit (by omega) (by omega)
  have hopt' := hnat opt h₀ h₁
  by_cases ho : opt = 0
  · simp only [Sofi.queueSize, ho, if_true, hlimit, ite_self]
  · simp only [Sofi.queueSize, ho, if_false, hlimit, hint opt h₀ h₁]
    split <;> omega

/-- The queues of a SOFI have the lengths that were last accepted, within the limits of the
provider, and `nn_sofi_init` stays in its arrays exactly if the RX queue is not the longer one. -/
theorem built_from_last_set (l : List Call) {u : Sofi.Setup} (optval : Name → List Nat)
    (hlen : ∀ n, (optval n).length = 4)
    (hread : ∀ n, u.options.get n = ofBytes ((replay l).optsetGetopt (some n) (optval n)).2.1)
    (hrx : u.rxSize < 2 ^ 31) (htx : u.txSize < 2 ^ 31) (h₁ : 1 ≤ u.rxSize) :
    u.rxQueue = min (last .rxQueueSize l) u.rxSize ∧
      u.txQueue = (if last .txQueueSize l = 0 then (u.txSize : Int)
        else min (last .txQueueSize l) u.txSize) ∧
      ((∃ r, Sofi.init u = .ok r) ↔ u.rxQueue ≤ u.txQueue) := by
  have hopt : ∀ n, u.options.get n = last n l := fun n =>
    (hread n).trans (getopt_last (Nat.le_of_eq (hlen n).symm) l n)
  have hr : u.options.rxQueueSize = last .rxQueueSize l := hopt .rxQueueSize
  have ht : u.options.txQueueSize = last .txQueueSize l := hopt .txQueueSize
  obtain ⟨hleast, hmax⟩ := last_bounds .rxQueueSize l
  obtain ⟨hleast', hmax'⟩ := last_bounds .txQueueSize l
  simp only [Name.least] at hleast hleast'
  have hrxq : u.rxQueue = min (last .rxQueueSize l) u.rxSize := by
    rw [Sofi.Setup.rxQueue, hr, queueSize_eq (by omega) hmax hrx, if_neg (by omega)]
  have htxq : u.txQueue = (if last .txQueueSize l = 0 then (u.txSize : Int)
      else min (last .txQueueSize l) u.txSize) := by
    rw [Sofi.Setup.txQueue, ht, queueSize_eq hleast' hmax' htx]
  refine ⟨hrxq, htxq, ?_⟩
  have hone : 1 ≤ u.rxQueue := by omega
  constructor
  · rintro ⟨r, hr⟩
    by_contra hlt
    rw [Sofi.init_overflow hone (by omega)] at hr
    cases hr
  · intro hle
    rw [Sofi.init_eq hone hle]
    split <;> exact ⟨_, rfl⟩

theorem short_txQueue_overflows : ¬ ∃ r,
    Sofi.init (.easy (replay [.set (some .txQueueSize) (bytes 1)])) = .ok r := by
  have hbuilt := built_from_last_set [.set (some .txQueueSize) (bytes 1)]
    (u := .easy (replay [.set (some .txQueueSize) (bytes 1)])) (fun _ => [0, 0, 0, 0])
    (fun _ => rfl) (fun n => by cases n <;> decide) (by decide) (by decide) (by decide)
  rw [hbuilt.2.2]
  decide

end Building

end Options

end OfiTransport
