/-
# Broker.HedgeBudget -- the token bucket of a slice, one atomic step at a time

`HedgeBudget` (LatencyTracker.cs) is a lock-free bucket of scaled tokens:
`OnPrimary` deposits with a compare-exchange loop that saturates at the cap,
`TryAcquire` withdraws one whole token with another.  `SliceState` counts the
primaries before the deposit and the hedges after the withdrawal.

A thread is a request running `CountPrimary`, then possibly `TryAcquire` and, if
that returned true, `CountHedge`.  Every volatile read, compare-exchange and
interlocked increment is one step, and the label of a step is the thread that
takes it, so a run is an arbitrary interleaving of arbitrarily many threads.
-/
import HybridSearch.Theory.Transition
import HybridSearch.Theory.Threads
import Mathlib.Data.Rat.Floor
import Mathlib.Algebra.Order.Floor.Ring

namespace HybridSearch.Broker

open HybridSearch.Theory

set_option autoImplicit false

/-- C# `long` arithmetic: 64-bit two's complement. -/
def toLong (x : Int) : Int := Int.bmod x (2 ^ 64)

theorem toLong_of_fits {x : Int} (low : -(2 ^ 63) ≤ x) (high : x < 2 ^ 63) : toLong x = x := by
  unfold toLong
  exact Int.bmod_eq_of_le (by omega) (by omega)

/-- `Math.Round(double)`: to the nearest integer, midpoints to the even one. -/
def mathRound (x : ℚ) : Int :=
  let fraction := x - ⌊x⌋
  if fraction < 1 / 2 then ⌊x⌋
  else if 1 / 2 < fraction then ⌊x⌋ + 1
  else if ⌊x⌋ % 2 = 0 then ⌊x⌋
  else ⌊x⌋ + 1

theorem mathRound_nonneg {x : ℚ} (nonneg : 0 ≤ x) : 0 ≤ mathRound x := by
  have floor : 0 ≤ ⌊x⌋ := Int.floor_nonneg.mpr nonneg
  unfold mathRound
  dsimp only
  split_ifs <;> omega

namespace HedgeBudget

/-- `Scale`: one whole token. -/
def scale : Int := 1000000

end HedgeBudget

/-- The two constants a bucket is built with; `long` both. -/
structure HedgeBudget where
  perPrimary : Int
  cap : Int
  deriving DecidableEq, Repr

namespace HedgeBudget

/-- The constructor `HedgeBudget(double ratio, double burst)`. -/
def ofOptions (ratio burst : ℚ) : HedgeBudget where
  perPrimary := mathRound (ratio * scale)
  cap := mathRound (burst * scale)

/-- Where a thread stands between two atomic steps. -/
inductive Pc
  | idle
  /-- In `OnPrimary`, before the volatile read. -/
  | onPrimary
  /-- In `OnPrimary`, having read `cur`. -/
  | deposit (cur : Int)
  /-- In `TryAcquire`, before the volatile read. -/
  | tryAcquire
  /-- In `TryAcquire`, having read `cur`. -/
  | withdraw (cur : Int)
  /-- `TryAcquire` returned true; `CountHedge` is next. -/
  | acquired
  deriving DecidableEq, Repr

/-- What a thread does in one step. -/
inductive Act
  | countPrimary
  | tryAcquire
  | read
  | compareExchange
  | countHedge
  deriving DecidableEq, Repr

/-- The shared counters of the slice and the program points of its threads.
`granted` is a history variable: the calls of `TryAcquire` that returned true. -/
structure State (Tid : Type) where
  tokens : Int
  primaries : Nat
  hedges : Nat
  granted : Nat
  pc : Tid → Pc

section Steps

variable {Tid : Type} [DecidableEq Tid]

def State.initial : State Tid where
  tokens := 0
  primaries := 0
  hedges := 0
  granted := 0
  pc := fun _ => .idle

def State.goto (s : State Tid) (t : Tid) (p : Pc) : State Tid :=
  { s with pc := Function.update s.pc t p }

/-- `Math.Min(_cap, cur + _perPrimary)`. -/
def next (b : HedgeBudget) (cur : Int) : Int :=
  min b.cap (toLong (cur + b.perPrimary))

def step (b : HedgeBudget) (s : State Tid) (label : Tid × Act) : Option (State Tid) :=
  let t := label.1
  match s.pc t, label.2 with
  | .idle, .countPrimary => some { s.goto t .onPrimary with primaries := s.primaries + 1 }
  | .onPrimary, .read => some (s.goto t (.deposit s.tokens))
  | .deposit cur, .compareExchange =>
      if b.next cur = cur then some (s.goto t .idle)
      else if s.tokens = cur then some { s.goto t .idle with tokens := b.next cur }
      else some (s.goto t .onPrimary)
  | .idle, .tryAcquire => some (s.goto t .tryAcquire)
  | .tryAcquire, .read => some (s.goto t (.withdraw s.tokens))
  | .withdraw cur, .compareExchange =>
      if cur < scale then some (s.goto t .idle)
      else if s.tokens = cur then
        some { s.goto t .acquired with tokens := toLong (cur - scale), granted := s.granted + 1 }
      else some (s.goto t .tryAcquire)
  | .acquired, .countHedge => some { s.goto t .idle with hedges := s.hedges + 1 }
  | _, _ => none

/-- The slice's bucket under every interleaving of its threads. -/
def system (b : HedgeBudget) (Tid : Type) [DecidableEq Tid] : System (State Tid) (Tid × Act) where
  start := .initial
  step := b.step

end Steps

/-! ## What one step can do -/

/-- A thread whose primary is counted but whose deposit is not made. -/
def Owes : Pc → Prop
  | .onPrimary | .deposit _ => True
  | _ => False

def Acquired : Pc → Prop
  | .acquired => True
  | _ => False

section Safety

variable {Tid : Type} [DecidableEq Tid] {b : HedgeBudget}

/-- The bucket's accounting: the tokens left, the tokens spent and the deposits
still owed by counted primaries never exceed what the counted primaries earn. -/
structure Accounted (b : HedgeBudget) (s : State Tid) : Prop where
  nonneg : 0 ≤ s.tokens
  capped : s.tokens ≤ b.cap
  paid : ∃ owed, Counted s.pc Owes owed ∧
    s.tokens + scale * s.granted + b.perPrimary * owed ≤ b.perPrimary * s.primaries
  counted : ∃ due, Counted s.pc Acquired due ∧ s.hedges + due = s.granted

omit [DecidableEq Tid] in
theorem accounted_initial (cap : 0 ≤ b.cap) : Accounted b (State.initial : State Tid) where
  nonneg := le_rfl
  capped := cap
  paid := ⟨0, counted_zero fun _ => not_false, by simp [State.initial]⟩
  counted := ⟨0, counted_zero fun _ => not_false, rfl⟩

theorem next_of_fits {cur : Int} (fits : b.cap + b.perPrimary < 2 ^ 63) (rate : 0 ≤ b.perPrimary)
    (nonneg : 0 ≤ cur) (capped : cur ≤ b.cap) : b.next cur = min b.cap (cur + b.perPrimary) := by
  unfold next
  rw [toLong_of_fits (by omega) (by omega)]

/-- A step that only moves a thread between points that owe the same keeps the
accounting. -/
theorem Accounted.goto {s : State Tid} (ok : Accounted b s) (t : Tid) (p : Pc)
    (owes : Owes (s.pc t) ↔ Owes p) (acquired : Acquired (s.pc t) ↔ Acquired p) :
    Accounted b (s.goto t p) := by
  obtain ⟨owed, owedCount, paid⟩ := ok.paid
  obtain ⟨due, dueCount, counted⟩ := ok.counted
  exact ⟨ok.nonneg, ok.capped, ⟨owed, owedCount.stay owes, paid⟩,
    ⟨due, dueCount.stay acquired, counted⟩⟩

theorem Accounted.step (rate : 0 ≤ b.perPrimary) (fits : b.cap + b.perPrimary < 2 ^ 63)
    {s s' : State Tid} {label : Tid × Act} (ok : Accounted b s)
    (stepped : b.step s label = some s') : Accounted b s' := by
  obtain ⟨t, act⟩ := label
  have ⟨owed, owedCount, paid⟩ := ok.paid
  have ⟨due, dueCount, counted⟩ := ok.counted
  have nonneg := ok.nonneg
  have capped := ok.capped
  unfold HedgeBudget.step at stepped
  dsimp only at stepped
  split at stepped
  case h_1 _ _ pc_eq =>
    -- the primary is counted: its deposit is now owed
    cases stepped
    refine ⟨nonneg, capped, ⟨owed + 1, owedCount.enter (by simp [pc_eq, Owes]) trivial, ?_⟩,
      ⟨due, dueCount.stay (by simp [pc_eq, Acquired]), counted⟩⟩
    simp only [State.goto]
    push_cast
    linarith
  case h_2 _ _ pc_eq =>
    cases stepped
    exact ok.goto t _ (by simp [pc_eq, Owes]) (by simp [pc_eq, Acquired])
  case h_3 _ _ cur pc_eq =>
    have owes : 0 < owed := owedCount.pos (t := t) (by simp [pc_eq, Owes])
    have left := owedCount.leave (t := t) (p := .idle) (by simp [pc_eq, Owes]) (by simp [Owes])
    have same := dueCount.stay (t := t) (p := .idle) (by simp [pc_eq, Acquired])
    have earned : b.perPrimary * (owed - 1 : Nat) = b.perPrimary * owed - b.perPrimary := by
      push_cast [Nat.cast_sub owes]
      ring
    split_ifs at stepped with full won
    · -- the bucket is full: the deposit is dropped
      cases stepped
      exact ⟨nonneg, capped, ⟨owed - 1, left, by simp only [State.goto]; linarith⟩, due, same, counted⟩
    · cases stepped
      subst won
      have bound := next_of_fits fits rate nonneg capped
      refine ⟨?_, ?_, ⟨owed - 1, left, ?_⟩, due, same, counted⟩
      · simp only [bound]
        omega
      · simp only [bound]
        omega
      · have : b.next s.tokens ≤ s.tokens + b.perPrimary := bound ▸ min_le_right _ _
        simp only [State.goto]
        linarith
    · cases stepped
      exact ok.goto t _ (by simp [pc_eq, Owes]) (by simp [pc_eq, Acquired])
  case h_4 _ _ pc_eq =>
    cases stepped
    exact ok.goto t _ (by simp [pc_eq, Owes]) (by simp [pc_eq, Acquired])
  case h_5 _ _ pc_eq =>
    cases stepped
    exact ok.goto t _ (by simp [pc_eq, Owes]) (by simp [pc_eq, Acquired])
  case h_6 _ _ cur pc_eq =>
    split_ifs at stepped with poor won
    · cases stepped
      exact ok.goto t _ (by simp [pc_eq, Owes]) (by simp [pc_eq, Acquired])
    · -- the withdrawal succeeds: one whole token becomes one granted hedge
      cases stepped
      subst won
      have noWrap : toLong (s.tokens - scale) = s.tokens - scale :=
        toLong_of_fits (by omega) (by unfold scale; omega)
      have same := owedCount.stay (t := t) (p := .acquired) (by simp [pc_eq, Owes])
      have more := dueCount.enter (t := t) (p := .acquired) (by simp [pc_eq, Acquired]) (by simp [Acquired])
      have whole : 0 < scale := by decide
      refine ⟨?_, ?_, ⟨owed, same, ?_⟩, due + 1, more, ?_⟩
      · simp only [noWrap]
        omega
      · simp only [noWrap]
        omega
      · simp only [State.goto, noWrap]
        push_cast
        linarith
      · simp only [State.goto]
        omega
    · cases stepped
      exact ok.goto t _ (by simp [pc_eq, Owes]) (by simp [pc_eq, Acquired])
  case h_7 _ _ pc_eq =>
    cases stepped
    have pos : 0 < due := dueCount.pos (t := t) (by simp [pc_eq, Acquired])
    refine ⟨nonneg, capped, ⟨owed, owedCount.stay (by simp [pc_eq, Owes]), paid⟩,
      due - 1, dueCount.leave (by simp [pc_eq, Acquired]) not_false, ?_⟩
    simp only [State.goto]
    omega
  case h_8 => cases stepped

theorem accounted_of_reachable (rate : 0 ≤ b.perPrimary) (cap : 0 ≤ b.cap)
    (fits : b.cap + b.perPrimary < 2 ^ 63) {s : State Tid} (reached : (b.system Tid).Reachable s) :
    Accounted b s :=
  (b.system Tid).reachable_induction (accounted_initial cap)
    (fun _ _ _ ok stepped => ok.step rate fits stepped) reached

/-- **The bucket never overspends.**  At every instant of every interleaving the
tokens lie between zero and the cap, and the tokens left together with the
tokens spent by successful `TryAcquire` calls are at most what the counted
primaries have earned; so the counted hedges stay within the configured fraction
of the counted primaries. -/
theorem hedges_within_budget (ratio burst : ℚ) (ratioNonneg : 0 ≤ ratio) (burstNonneg : 0 ≤ burst)
    (fits : (ofOptions ratio burst).cap + (ofOptions ratio burst).perPrimary < 2 ^ 63)
    (s : State Tid) (reached : ((ofOptions ratio burst).system Tid).Reachable s) :
    0 ≤ s.tokens ∧ s.tokens ≤ (ofOptions ratio burst).cap ∧
      s.tokens + scale * s.granted ≤ (ofOptions ratio burst).perPrimary * s.primaries ∧
      (s.hedges : ℚ) ≤ (ofOptions ratio burst).perPrimary / scale * s.primaries := by
  have whole : (0 : ℚ) ≤ (scale : ℚ) := by norm_num [scale]
  have rate : 0 ≤ (ofOptions ratio burst).perPrimary := mathRound_nonneg (mul_nonneg ratioNonneg whole)
  have cap : 0 ≤ (ofOptions ratio burst).cap := mathRound_nonneg (mul_nonneg burstNonneg whole)
  have ok := accounted_of_reachable rate cap fits reached
  obtain ⟨owed, -, paid⟩ := ok.paid
  obtain ⟨due, -, counted⟩ := ok.counted
  have owing : 0 ≤ (ofOptions ratio burst).perPrimary * owed := mul_nonneg rate (by positivity)
  have spent : s.tokens + scale * s.granted ≤ (ofOptions ratio burst).perPrimary * s.primaries := by
    linarith
  refine ⟨ok.nonneg, ok.capped, spent, ?_⟩
  have hedged : scale * s.hedges ≤ (ofOptions ratio burst).perPrimary * s.primaries := by
    have : scale * s.hedges ≤ scale * s.granted := by unfold scale; omega
    linarith [ok.nonneg]
  have hedged' : (scale : ℚ) * s.hedges ≤ (ofOptions ratio burst).perPrimary * s.primaries := by
    exact_mod_cast hedged
  rw [div_mul_eq_mul_div, le_div_iff₀ (by norm_num [scale])]
  linarith

/-- Two threads race for the one token that two primaries at ratio 1/2 earn: the
loser's compare-exchange fails and its retry is refused. -/
theorem hedges_within_budget_race :
    ∃ s : State Bool, s.hedges = 1 ∧ s.primaries = 2 ∧
      0 ≤ s.tokens ∧ s.tokens ≤ (ofOptions (1 / 2) 2).cap ∧
      s.tokens + scale * s.granted ≤ (ofOptions (1 / 2) 2).perPrimary * s.primaries ∧
      (s.hedges : ℚ) ≤ (ofOptions (1 / 2) 2).perPrimary / scale * s.primaries := by
  have built : ofOptions (1 / 2) 2 = ⟨500000, 2000000⟩ := by
    norm_num [ofOptions, mathRound, scale]
  let deposits : List (Bool × Act) :=
    [(false, .countPrimary), (true, .countPrimary), (false, .read), (true, .read),
      (true, .compareExchange), (false, .compareExchange), (false, .read), (false, .compareExchange)]
  let withdrawals : List (Bool × Act) :=
    [(false, .tryAcquire), (true, .tryAcquire), (false, .read), (true, .read),
      (true, .compareExchange), (false, .compareExchange), (true, .countHedge), (false, .read),
      (false, .compareExchange)]
  have reached : ∃ s, (HedgeBudget.system ⟨500000, 2000000⟩ Bool).Run (deposits ++ withdrawals) s ∧
      s.hedges = 1 ∧ s.primaries = 2 := ⟨_, rfl, rfl, rfl⟩
  obtain ⟨s, run, hedged, counted⟩ := reached
  exact ⟨s, hedged, counted, hedges_within_budget (1 / 2) 2 (by norm_num) (by norm_num)
    (by rw [built]; norm_num) s ⟨_, by rw [built]; exact run⟩⟩

end Safety

end HedgeBudget

end HybridSearch.Broker
