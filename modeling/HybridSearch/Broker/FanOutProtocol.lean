/-
# Broker.FanOutProtocol -- what the hedged request guarantees

* `Inv` is the protocol's invariant: distinct replicas, at most one hedge (the
  timer is its only source) and one failover, and an outcome that is the reply of
  an observed success or the failure of every attempt.  `Inv.step` keeps it.
* `length_le`: a run has at most fifteen steps; `outcome_of_stuck`: one that
  cannot go on has its outcome, unless `PickPrimary` threw.
* `hedged_search` puts these together for the runs in which `PickPrimary` does not
  index below zero; `search_throws` is a run in which it does.
-/
import HybridSearch.Broker.FanOut

namespace HybridSearch.Broker

open HybridSearch.Theory

set_option autoImplicit false

namespace SliceState

/-- `PickPrimary` walks past unhealthy replicas onto an index that the 32-bit sum
has wrapped below zero. -/
def WrapsNegative (slice : SliceState) (rr : Nat) (health : Nat → ReplicaHealth) : Prop :=
  ∃ i < slice.replicas, slice.primaryIndex rr i < 0 ∧
    ∀ j < i, health (slice.primaryIndex rr j).toNat = .unhealthy

theorem pickFrom_range' {slice : SliceState} {rr : Nat} {health : Nat → ReplicaHealth} (first n : Nat)
    (noPick : slice.pickFrom rr health (List.range' first n) = none) :
    ∃ i, first ≤ i ∧ i < first + n ∧ slice.primaryIndex rr i < 0 ∧
      ∀ j, first ≤ j → j < i → health (slice.primaryIndex rr j).toNat = .unhealthy := by
  induction n generalizing first with
  | zero => cases noPick
  | succ n ih =>
      rw [List.range'_succ, pickFrom] at noPick
      split_ifs at noPick with negative sick
      · exact ⟨first, Nat.le_refl _, by omega, negative, fun j low high => by omega⟩
      · obtain ⟨i, low, high, negative, before⟩ := ih (first + 1) noPick
        refine ⟨i, by omega, by omega, negative, fun j low' high' => ?_⟩
        rcases Nat.eq_or_lt_of_le low' with rfl | later
        · simpa using sick
        · exact before j later high'

theorem wrapsNegative_of_throws {slice : SliceState} {rr : Nat} {health : Nat → ReplicaHealth}
    (throws : slice.pickPrimary rr health = none) : slice.WrapsNegative rr health := by
  rw [pickPrimary, List.range_eq_range'] at throws
  obtain ⟨i, -, inside, negative, before⟩ := pickFrom_range' 0 _ throws
  exact ⟨i, by omega, negative, fun j below => before j (Nat.zero_le _) below⟩

/-- A counter that stays clear of `int.MaxValue` never wraps. -/
theorem not_wrapsNegative {slice : SliceState} {rr : Nat} {health : Nat → ReplicaHealth}
    (clear : rr % 2 ^ 31 + slice.replicas ≤ 2 ^ 31) : ¬ slice.WrapsNegative rr health := by
  rintro ⟨i, inside, negative, -⟩
  have sum : Int.bmod (rr % 2 ^ 31 + i : Nat) (2 ^ 32) = (rr % 2 ^ 31 + i : Nat) :=
    Int.bmod_eq_of_le (by omega) (by omega)
  have nonneg : 0 ≤ slice.primaryIndex rr i := by
    unfold primaryIndex
    rw [sum]
    exact Int.tmod_nonneg _ (Int.natCast_nonneg _)
  omega

end SliceState

namespace FanOut

variable {Body : Type} {o : HedgingOptions} {slice : SliceState} {s t : State Body}

/-! ## The attempts that were started -/

/-- Completing or observing attempt `i` changes neither its replica nor its kind. -/
theorem map_set_same {α β : Type} (f : α → β) {xs : List α} {i : Nat} {x y : α}
    (found : xs[i]? = some x) (same : f y = f x) : (xs.set i y).map f = xs.map f := by
  apply List.ext_getElem?
  intro j
  rw [List.getElem?_map, List.getElem?_map, List.getElem?_set]
  split_ifs with here inside
  · subst here
    rw [found]
    simp [same]
  · subst here
    exact absurd (List.getElem?_eq_some_iff.mp found).1 inside
  · rfl

theorem mem_set_of_ne {α : Type} {xs : List α} {i : Nat} {x y z : α} (found : xs[i]? = some x)
    (mem : z ∈ xs) (ne : z ≠ x) : z ∈ xs.set i y := by
  obtain ⟨j, index_eq⟩ := List.mem_iff_getElem?.mp mem
  have apart : i ≠ j := by
    rintro rfl
    exact ne (Option.some.inj (index_eq.symm.trans found))
  exact List.mem_iff_getElem?.mpr ⟨j, by rw [List.getElem?_set_ne apart, index_eq]⟩

theorem mem_inFlight {a : Attempt Body} : a ∈ s.inFlight ↔ a ∈ s.attempts ∧ a.done = false := by
  simp [State.inFlight]

theorem inFlight_eq_nil : s.inFlight = [] ↔ ∀ a ∈ s.attempts, a.done = true := by
  simp [State.inFlight]

/-- Completing or observing an attempt keeps what was started. -/
theorem set_started {i : Nat} {x y : Attempt Body} (found : s.attempts[i]? = some x)
    (replaced : t.attempts = s.attempts.set i y) (replica : y.replica = x.replica)
    (kind : y.kind = x.kind) : t.replicas = s.replicas ∧ t.kinds = s.kinds := by
  unfold State.replicas State.kinds
  rw [replaced]
  exact ⟨map_set_same _ found replica, map_set_same _ found kind⟩

theorem observe_attempts (i : Nat) (finished : Attempt Body) (result : AttemptResult Body) :
    (observe slice s i finished result).attempts =
      s.attempts.set i { finished with done := true } := by
  unfold observe
  dsimp only
  split <;> rfl

/-! ## What the stretches of the loop can do -/

theorem start_cases (seen : Nat → ReplicaHealth) (rr : Nat) (health : Nat → ReplicaHealth)
    (quantile : Option Nat) (remaining : Int) :
    start o slice s seen rr health quantile remaining =
        { s with pc := .returned (failed slice s "slice_down") } ∨
      slice.pickPrimary rr health = none ∧
        start o slice s seen rr health quantile remaining = { s with pc := .threw } ∨
      ∃ primary timer, start o slice s seen rr health quantile remaining =
        { s.begin primary .primary with pc := .loop, hedgeTimer := timer } := by
  unfold start
  split_ifs
  · exact .inl rfl
  · split
    case h_1 throws => exact .inr (.inl ⟨throws, rfl⟩)
    case h_2 => exact .inr (.inr ⟨_, _, rfl⟩)

theorem settle_cases (expired : Bool) (health : Nat → ReplicaHealth) :
    s.inFlight ≠ [] ∧ settle o slice s expired health = { s with pc := .whenAny } ∨
      s.inFlight = [] ∧ (∃ alt, s.failoverUsed = false ∧
        slice.pickAlternate s.replicas health = some alt ∧
        settle o slice s expired health = { s.begin alt .failover with failoverUsed := true }) ∨
      s.inFlight = [] ∧ (o.failoverOnError = true →
          s.lastFailure = some .unavailable ∨ s.lastFailure = some .error → expired = false →
          s.failoverUsed = true ∨ slice.pickAlternate s.replicas health = none) ∧
        ∃ why, why ≠ "slice_down" ∧
          settle o slice s expired health = { s with pc := .returned (failed slice s why) } := by
  have why : (s.lastFailure.map reason).getD "unknown" ≠ "slice_down" := by
    cases s.lastFailure with
    | none => decide
    | some status => cases status <;> decide
  unfold settle
  split_ifs with busy failover
  · exact .inl ⟨busy, rfl⟩
  · obtain ⟨unused, -, -, -⟩ := failover
    have idle := Classical.not_not.mp busy
    split
    case h_1 alt picked =>
      exact .inr (.inl ⟨idle, alt, by simpa using unused, picked, rfl⟩)
    case h_2 noAlternate => exact .inr (.inr ⟨idle, fun _ _ _ => .inr noAlternate, _, why, rfl⟩)
  · refine .inr (.inr ⟨Classical.not_not.mp busy, fun enabled failure alive => ?_, _, why, rfl⟩)
    by_contra unused
    rw [not_or] at unused
    exact failover ⟨by simpa using unused.1, enabled, failure, by simpa using alive⟩

theorem observeTimer_cases (timer : HedgeTimer) (expired : Bool) (health : Nat → ReplicaHealth)
    (acquired : Bool) :
    observeTimer slice s timer expired health acquired =
        { s with hedgeTimer := none, pc := .loop } ∨
      expired = false ∧ acquired = true ∧ s.inFlight ≠ [] ∧ ∃ alt,
        slice.pickAlternate s.replicas health = some alt ∧
        observeTimer slice s timer expired health acquired =
          { s.begin alt .hedge with hedgeTimer := none, pc := .loop } := by
  unfold observeTimer
  dsimp only
  split_ifs with cancelled idle granted
  · exact .inl rfl
  · exact .inl rfl
  · rw [not_or] at idle
    split
    case h_1 => exact .inl rfl
    case h_2 alt picked =>
      exact .inr ⟨by simpa using idle.2, granted, idle.1, alt, picked, rfl⟩
  · split <;> exact .inl rfl

/-! ## The invariant -/

/-- The outcome of an observed success. -/
def reply (slice : SliceState) (s : State Body) (a : Attempt Body) (response : SearchResponse Body) :
    SliceOutcome Body where
  sliceId := slice.id
  status := if response.isPartial then .isPartial else .ok
  response := some response
  hedgeWon := a.kind = .hedge
  failureReason := none
  attempts := s.attempts.length

/-- The loop has observed the success of this attempt, with this response. -/
def Succeeded (a : Attempt Body) (response : SearchResponse Body) : Prop :=
  a.done = true ∧ ∃ result, a.result = some result ∧ result.status = .success ∧
    result.response = some response

structure Inv (slice : SliceState) (s : State Body) : Prop where
  distinct : s.replicas.Nodup
  hedges : s.kinds.count .hedge + (if s.hedgeTimer.isSome then 1 else 0) ≤ 1
  failovers : s.kinds.count .failover ≤ if s.failoverUsed then 1 else 0
  finished : ∀ a ∈ s.attempts, a.done = true → a.result.isSome
  unopened : s.pc = .start → s.attempts = [] ∧ s.hedgeTimer = none
  waiting : s.pc = .whenAny → s.inFlight ≠ []
  answered : ∀ a ∈ s.attempts, ∀ response, Succeeded a response →
    s.outcome = some (reply slice s a response)
  produced : ∀ outcome, s.outcome = some outcome →
    (∃ a ∈ s.attempts, ∃ response, Succeeded a response ∧ outcome = reply slice s a response) ∨
    (∃ why, outcome = failed slice s why) ∧ s.inFlight = []

theorem inv_initial : Inv slice (State.initial : State Body) where
  distinct := List.nodup_nil
  hedges := by simp [State.initial, State.kinds]
  failovers := by simp [State.initial, State.kinds]
  finished := by simp [State.initial]
  unopened _ := ⟨rfl, rfl⟩
  waiting pc_eq := by cases pc_eq
  answered := by simp [State.initial]
  produced := by simp [State.initial, State.outcome]

namespace Inv

/-- Before the outcome no observed attempt has succeeded. -/
theorem running (inv : Inv slice s) (undecided : s.outcome = none) {a : Attempt Body}
    (mem : a ∈ s.attempts) (response : SearchResponse Body) : ¬ Succeeded a response := by
  intro success
  cases undecided.symm.trans (inv.answered a mem response success)

/-- Starting an attempt on a fresh replica. -/
theorem begin (inv : Inv slice s) (undecided : s.outcome = none) {replica : Nat} (kind : AttemptKind)
    (fresh : replica ∉ s.replicas) (timer : Option HedgeTimer) (used : Bool)
    (hedges : (s.kinds ++ [kind]).count .hedge + (if timer.isSome then 1 else 0) ≤ 1)
    (failovers : (s.kinds ++ [kind]).count .failover ≤ if used then 1 else 0) :
    Inv slice { s.begin replica kind with pc := .loop, hedgeTimer := timer, failoverUsed := used } where
  distinct := by
    show ((s.attempts ++ [_]).map Attempt.replica).Nodup
    rw [List.map_append, List.nodup_append]
    refine ⟨inv.distinct, List.nodup_singleton _, ?_⟩
    intro r mem last eq
    simp only [List.map_cons, List.map_nil, List.mem_singleton] at eq
    subst eq
    intro same
    exact fresh (same ▸ mem)
  hedges := by
    show ((s.attempts ++ [_]).map Attempt.kind).count _ + _ ≤ 1
    rw [List.map_append]
    exact hedges
  failovers := by
    show ((s.attempts ++ [_]).map Attempt.kind).count _ ≤ _
    rw [List.map_append]
    exact failovers
  finished a mem done := by
    rcases List.mem_append.mp mem with old | new
    · exact inv.finished a old done
    · rw [List.mem_singleton] at new
      subst new
      cases done
  unopened pc_eq := by cases pc_eq
  waiting pc_eq := by cases pc_eq
  answered a mem response success := by
    rcases List.mem_append.mp mem with old | new
    · exact absurd success (inv.running undecided old response)
    · rw [List.mem_singleton] at new
      subst new
      cases success.1
  produced _ out := by cases out

/-- A move of the loop that starts and observes nothing. -/
theorem goto (inv : Inv slice s) (undecided : s.outcome = none) {pc : Pc Body}
    (timer : Option HedgeTimer) (fewer : timer.isSome → s.hedgeTimer.isSome)
    (target : pc = .loop ∨ pc = .whenAny ∧ s.inFlight ≠ [] ∨ pc = .threw ∨
      (∃ why, pc = .returned (failed slice s why)) ∧ s.inFlight = []) :
    Inv slice { s with pc := pc, hedgeTimer := timer } where
  distinct := inv.distinct
  hedges := by
    refine Nat.le_trans (Nat.add_le_add_left ?_ _) inv.hedges
    cases timer with
    | none => simp
    | some _ => simp [fewer rfl]
  failovers := inv.failovers
  finished := inv.finished
  unopened pc_eq := by
    rcases target with rfl | ⟨rfl, -⟩ | rfl | ⟨⟨why, rfl⟩, -⟩ <;> cases pc_eq
  waiting pc_eq := by
    rcases target with rfl | ⟨rfl, pending⟩ | rfl | ⟨⟨why, rfl⟩, -⟩
    · cases pc_eq
    · exact pending
    · cases pc_eq
    · cases pc_eq
  answered a mem response success := absurd success (inv.running undecided mem response)
  produced out eq := by
    rcases target with rfl | ⟨rfl, -⟩ | rfl | ⟨⟨why, rfl⟩, all⟩
    · cases eq
    · cases eq
    · cases eq
    · cases eq
      exact .inr ⟨⟨why, rfl⟩, all⟩

theorem complete (inv : Inv slice s) {i : Nat} {replica : Nat} {kind : AttemptKind} {done : Bool}
    (found : s.attempts[i]? = some ⟨replica, kind, none, done⟩) (result : AttemptResult Body) :
    Inv slice { s with attempts := s.attempts.set i ⟨replica, kind, some result, done⟩ } := by
  have mem := List.mem_of_getElem? found
  have pending : done = false := by
    by_contra observed
    have := inv.finished _ mem (by simpa using observed)
    simp at this
  subst pending
  obtain ⟨replicas, kinds⟩ := set_started
    (t := { s with attempts := s.attempts.set i ⟨replica, kind, some result, false⟩ }) found rfl rfl rfl
  have busy : s.inFlight ≠ [] := fun nothing => by
    have := inFlight_eq_nil.mp nothing _ mem
    simp at this
  have replies : ∀ a response,
      reply slice { s with attempts := s.attempts.set i ⟨replica, kind, some result, false⟩ } a
        response = reply slice s a response := fun a response => by
    simp [reply]
  exact {
    distinct := by
      rw [replicas]
      exact inv.distinct
    hedges := by
      rw [kinds]
      exact inv.hedges
    failovers := by
      rw [kinds]
      exact inv.failovers
    finished := fun a mem done => by
      rcases List.mem_or_eq_of_mem_set mem with old | rfl
      · exact inv.finished a old done
      · rfl
    unopened := fun pc_eq => by
      rw [(inv.unopened pc_eq).1] at found
      simp at found
    waiting := fun _ nothing => by
      have := inFlight_eq_nil.mp nothing _ (List.mem_set (List.getElem?_eq_some_iff.mp found).1 _)
      simp at this
    answered := fun a mem response success => by
      rw [replies]
      rcases List.mem_or_eq_of_mem_set mem with old | rfl
      · exact inv.answered a old response success
      · cases success.1
    produced := fun outcome out => by
      rcases inv.produced outcome out with ⟨a, old, response, success, eq⟩ | ⟨-, nothing⟩
      · refine .inl ⟨a, mem_set_of_ne found old ?_, response, success, by rw [replies, eq]⟩
        rintro rfl
        cases success.1
      · exact absurd nothing busy }

/-- Observing the end of an attempt: a failure returns to the loop, a success is
the outcome. -/
theorem observed (inv : Inv slice s) (pc_eq : s.pc = .whenAny) {i : Nat} {replica : Nat}
    {kind : AttemptKind} {result : AttemptResult Body}
    (found : s.attempts[i]? = some ⟨replica, kind, some result, false⟩)
    (attempts : t.attempts = s.attempts.set i ⟨replica, kind, some result, true⟩)
    (timer : t.hedgeTimer = s.hedgeTimer) (used : t.failoverUsed = s.failoverUsed)
    (pc : t.pc = .loop ∧ result.status ≠ .success ∨
      ∃ response, result.status = .success ∧ result.response = some response ∧
        t.pc = .returned (reply slice t ⟨replica, kind, some result, true⟩ response)) :
    Inv slice t := by
  have undecided : s.outcome = none := by
    unfold State.outcome
    rw [pc_eq]
  obtain ⟨replicas, kinds⟩ := set_started found attempts rfl rfl
  have here := List.mem_set (List.getElem?_eq_some_iff.mp found).1
    (⟨replica, kind, some result, true⟩ : Attempt Body)
  exact {
    distinct := by
      rw [replicas]
      exact inv.distinct
    hedges := by
      rw [kinds, timer]
      exact inv.hedges
    failovers := by
      rw [kinds, used]
      exact inv.failovers
    finished := fun a mem done => by
      rw [attempts] at mem
      rcases List.mem_or_eq_of_mem_set mem with old | rfl
      · exact inv.finished a old done
      · rfl
    unopened := fun pc_eq => by
      rcases pc with ⟨loop, -⟩ | ⟨response, -, -, returned⟩
      · cases pc_eq.symm.trans loop
      · cases pc_eq.symm.trans returned
    waiting := fun pc_eq => by
      rcases pc with ⟨loop, -⟩ | ⟨response, -, -, returned⟩
      · cases pc_eq.symm.trans loop
      · cases pc_eq.symm.trans returned
    answered := fun a mem response success => by
      rw [attempts] at mem
      rcases List.mem_or_eq_of_mem_set mem with old | rfl
      · exact absurd success (inv.running undecided old response)
      · obtain ⟨-, _, found', ended, replied⟩ := success
        cases found'
        rcases pc with ⟨-, failed⟩ | ⟨response', -, replied', returned⟩
        · exact absurd ended failed
        · cases replied.symm.trans replied'
          unfold State.outcome
          rw [returned]
    produced := fun outcome out => by
      unfold State.outcome at out
      rcases pc with ⟨loop, -⟩ | ⟨response, ended, replied, returned⟩
      · rw [loop] at out
        cases out
      · rw [returned] at out
        cases out
        exact .inl ⟨_, attempts ▸ here, response, ⟨rfl, result, rfl, ended, replied⟩, rfl⟩ }

theorem observe (inv : Inv slice s) (pc_eq : s.pc = .whenAny) {i : Nat} {replica : Nat}
    {kind : AttemptKind} {result : AttemptResult Body}
    (found : s.attempts[i]? = some ⟨replica, kind, some result, false⟩) :
    Inv slice (FanOut.observe slice s i ⟨replica, kind, some result, false⟩ result) := by
  unfold FanOut.observe
  dsimp only
  split
  case h_1 response ended replied =>
    exact inv.observed pc_eq found rfl rfl rfl (.inr ⟨response, ended, replied, by simp [reply]⟩)
  case h_2 ended =>
    exact inv.observed pc_eq found rfl rfl rfl (.inl ⟨rfl, by simp [ended]⟩)
  case h_3 _ notReplied =>
    refine inv.observed pc_eq found rfl rfl rfl (.inl ⟨rfl, fun ended => ?_⟩)
    obtain ⟨response, replied⟩ := Option.isSome_iff_exists.mp (result.replied ended)
    exact notReplied response ended replied

theorem settle (inv : Inv slice s) (pc_eq : s.pc = .loop) (expired : Bool)
    (health : Nat → ReplicaHealth) : Inv slice (FanOut.settle o slice s expired health) := by
  have undecided : s.outcome = none := by
    unfold State.outcome
    rw [pc_eq]
  rcases settle_cases expired health with
    ⟨busy, eq⟩ | ⟨-, alt, unused, picked, eq⟩ | ⟨idle, -, why, -, eq⟩
  · rw [eq]
    exact inv.goto undecided s.hedgeTimer id (.inr (.inl ⟨rfl, busy⟩))
  · have failovers := inv.failovers
    rw [unused] at failovers
    have started := inv.begin undecided .failover (SliceState.pickAlternate_fresh picked).2 s.hedgeTimer
      true (by rw [List.count_append]; exact inv.hedges)
      (by rw [List.count_append]; simpa using failovers)
    rw [← pc_eq] at started
    rw [eq]
    exact started
  · rw [eq]
    exact inv.goto undecided s.hedgeTimer id (.inr (.inr (.inr ⟨⟨_, rfl⟩, idle⟩)))

theorem observeTimer (inv : Inv slice s) (pc_eq : s.pc = .whenAny) {timer : HedgeTimer}
    (timed : s.hedgeTimer = some timer) (expired : Bool) (health : Nat → ReplicaHealth)
    (acquired : Bool) : Inv slice (FanOut.observeTimer slice s timer expired health acquired) := by
  have undecided : s.outcome = none := by
    unfold State.outcome
    rw [pc_eq]
  have hedges := inv.hedges
  rw [timed] at hedges
  rcases observeTimer_cases timer expired health acquired with eq | ⟨-, -, -, alt, picked, eq⟩
  · rw [eq]
    exact inv.goto undecided none (by simp) (.inl rfl)
  · rw [eq]
    exact inv.begin undecided .hedge (SliceState.pickAlternate_fresh picked).2 none s.failoverUsed
      (by rw [List.count_append]; simpa using hedges)
      (by rw [List.count_append]; exact inv.failovers)

theorem start (inv : Inv slice s) (pc_eq : s.pc = .start) (seen : Nat → ReplicaHealth) (rr : Nat)
    (health : Nat → ReplicaHealth) (quantile : Option Nat) (remaining : Int) :
    Inv slice (FanOut.start o slice s seen rr health quantile remaining) := by
  have undecided : s.outcome = none := by
    unfold State.outcome
    rw [pc_eq]
  obtain ⟨noAttempts, -⟩ := inv.unopened pc_eq
  have idle : s.inFlight = [] := inFlight_eq_nil.mpr (by simp [noAttempts])
  have kinds : s.kinds = [] := by simp [State.kinds, noAttempts]
  have replicas : s.replicas = [] := by simp [State.replicas, noAttempts]
  rcases start_cases seen rr health quantile remaining with eq | ⟨-, eq⟩ | ⟨primary, timer, eq⟩
  · rw [eq]
    exact inv.goto undecided s.hedgeTimer id (.inr (.inr (.inr ⟨⟨_, rfl⟩, idle⟩)))
  · rw [eq]
    exact inv.goto undecided s.hedgeTimer id (.inr (.inr (.inl rfl)))
  · rw [eq]
    refine inv.begin undecided .primary (by simp [replicas]) timer s.failoverUsed ?_ ?_
    · rw [kinds]
      split_ifs <;> simp
    · rw [kinds]
      simp

/-- **Every step keeps the invariant.** -/
theorem step (inv : Inv slice s) {label : Label Body}
    (stepped : FanOut.step o slice s label = some t) : Inv slice t := by
  cases label with
  | «begin» seen rr health quantile remaining =>
      simp only [FanOut.step] at stepped
      split at stepped <;> cases stepped
      case h_1 pc_eq => exact inv.start pc_eq ..
  | complete i result =>
      simp only [FanOut.step] at stepped
      split at stepped <;> cases stepped
      case h_1 found => exact inv.complete found result
  | timerFires | timerCancelled =>
      simp only [FanOut.step] at stepped
      split_ifs at stepped with undecided
      cases stepped
      have hedges := inv.hedges
      rw [undecided] at hedges
      exact { inv with
        hedges := hedges
        unopened := fun pc_eq => by cases undecided.symm.trans (inv.unopened pc_eq).2 }
  | settle expired health =>
      simp only [FanOut.step] at stepped
      split at stepped <;> cases stepped
      case h_1 pc_eq => exact inv.settle pc_eq ..
  | observe i =>
      simp only [FanOut.step] at stepped
      split at stepped <;> cases stepped
      case h_1 pc_eq found => exact inv.observe pc_eq found
  | observeTimer expired health acquired =>
      simp only [FanOut.step] at stepped
      split at stepped <;> cases stepped
      case h_1 pc_eq timed => exact inv.observeTimer pc_eq timed ..
      case h_2 pc_eq timed => exact inv.observeTimer pc_eq timed ..

end Inv

theorem inv_of_reachable (reached : (system o slice Body).Reachable s) : Inv slice s :=
  (system o slice Body).reachable_induction inv_initial (fun _ _ _ inv stepped => inv.step stepped)
    reached

/-! ## What one step can do -/

theorem started_begin (s : State Body) (replica : Nat) (kind : AttemptKind) :
    (s.begin replica kind).replicas = s.replicas ++ [replica] ∧
      (s.begin replica kind).kinds = s.kinds ++ [kind] := by
  simp [State.replicas, State.kinds, State.begin]

/-- What a step starts: nothing, or one attempt before the outcome.  A hedge starts
only in the timer's branch, with the deadline not expired, a token granted by the
budget and an attempt still in flight. -/
theorem started_step {label : Label Body} (stepped : step o slice s label = some t) :
    t.replicas = s.replicas ∧ t.kinds = s.kinds ∨
      ∃ replica kind, t.replicas = s.replicas ++ [replica] ∧ t.kinds = s.kinds ++ [kind] ∧
        s.outcome = none ∧
        (kind = .hedge → ∃ health, label = .observeTimer false health true ∧ s.inFlight ≠ []) := by
  cases label with
  | «begin» seen rr health quantile remaining =>
      simp only [step] at stepped
      split at stepped <;> cases stepped
      case h_1 pc_eq =>
        rcases start_cases seen rr health quantile remaining with eq | ⟨-, eq⟩ | ⟨primary, timer, eq⟩
        · exact .inl (by rw [eq]; exact ⟨rfl, rfl⟩)
        · exact .inl (by rw [eq]; exact ⟨rfl, rfl⟩)
        · obtain ⟨replicas, kinds⟩ := started_begin s primary .primary
          rw [eq]
          exact .inr ⟨_, _, replicas, kinds, by simp [State.outcome, pc_eq], by simp⟩
  | complete i result =>
      simp only [step] at stepped
      split at stepped <;> cases stepped
      case h_1 found => exact .inl (set_started found rfl rfl rfl)
  | timerFires | timerCancelled =>
      simp only [step] at stepped
      split_ifs at stepped
      cases stepped
      exact .inl ⟨rfl, rfl⟩
  | settle expired health =>
      simp only [step] at stepped
      split at stepped <;> cases stepped
      case h_1 pc_eq =>
        rcases settle_cases expired health with
          ⟨-, eq⟩ | ⟨-, alt, -, -, eq⟩ | ⟨-, -, why, -, eq⟩
        · exact .inl (by rw [eq]; exact ⟨rfl, rfl⟩)
        · obtain ⟨replicas, kinds⟩ := started_begin s alt .failover
          rw [eq]
          exact .inr ⟨_, _, replicas, kinds, by simp [State.outcome, pc_eq], by simp⟩
        · exact .inl (by rw [eq]; exact ⟨rfl, rfl⟩)
  | observe i =>
      simp only [step] at stepped
      split at stepped <;> cases stepped
      case h_1 found => exact .inl (set_started found (observe_attempts ..) rfl rfl)
  | observeTimer expired health acquired =>
      have branch : ∃ timer, s.pc = .whenAny ∧
          t = observeTimer slice s timer expired health acquired := by
        simp only [step] at stepped
        split at stepped <;> cases stepped
        case h_1 pc_eq _ => exact ⟨_, pc_eq, rfl⟩
        case h_2 pc_eq _ => exact ⟨_, pc_eq, rfl⟩
      obtain ⟨timer, pc_eq, rfl⟩ := branch
      rcases observeTimer_cases timer expired health acquired with
        eq | ⟨alive, granted, busy, alt, -, eq⟩
      · exact .inl (by rw [eq]; exact ⟨rfl, rfl⟩)
      · obtain ⟨replicas, kinds⟩ := started_begin s alt .hedge
        rw [eq]
        subst alive granted
        exact .inr ⟨_, _, replicas, kinds, by simp [State.outcome, pc_eq], fun _ => ⟨health, rfl, busy⟩⟩

/-- The outcome stands, and after it nothing is started. -/
theorem outcome_final {label : Label Body} {outcome : SliceOutcome Body}
    (returned : s.pc = .returned outcome) (stepped : step o slice s label = some t) :
    t.pc = .returned outcome ∧ t.replicas = s.replicas ∧ t.kinds = s.kinds := by
  have ended : s.outcome ≠ none := by simp [State.outcome, returned]
  have started : t.replicas = s.replicas ∧ t.kinds = s.kinds := by
    rcases started_step stepped with same | ⟨_, _, _, _, undecided, _⟩
    · exact same
    · exact absurd undecided ended
  refine ⟨?_, started⟩
  cases label with
  | complete i result =>
      simp only [step] at stepped
      split at stepped <;> cases stepped
      exact returned
  | timerFires | timerCancelled =>
      simp only [step] at stepped
      split_ifs at stepped
      cases stepped
      exact returned
  | «begin» | settle | observe | observeTimer => simp [step, returned] at stepped

/-- `lastFailure` is the last status observed that is neither a success nor a
cancellation. -/
def FailureSeen (s : State Body) : Prop :=
  s.lastFailure = (s.observed.filter fun status => status ≠ .cancelled ∧ status ≠ .success).getLast?

theorem FailureSeen.observe (seen : FailureSeen s) (i : Nat) (finished : Attempt Body)
    (result : AttemptResult Body) : FailureSeen (FanOut.observe slice s i finished result) := by
  unfold FailureSeen at *
  unfold FanOut.observe
  dsimp only
  split
  case h_1 ended _ => simpa [List.filter_append, ended] using seen
  case h_2 ended => simpa [List.filter_append, ended] using seen
  case h_3 notCancelled notReplied =>
    have failed : result.status ≠ .success := fun ended => by
      obtain ⟨response, replied⟩ := Option.isSome_iff_exists.mp (result.replied ended)
      exact notReplied response ended replied
    have notCancelled : result.status ≠ .cancelled := notCancelled
    simp [List.filter_append, notCancelled, failed]

theorem FailureSeen.step {label : Label Body} (seen : FailureSeen s)
    (stepped : FanOut.step o slice s label = some t) : FailureSeen t := by
  cases label with
  | «begin» seen' rr health quantile remaining =>
      simp only [FanOut.step] at stepped
      split at stepped <;> cases stepped
      rcases start_cases seen' rr health quantile remaining with
        eq | ⟨-, eq⟩ | ⟨primary, timer, eq⟩ <;> rw [eq] <;> exact seen
  | complete i result =>
      simp only [FanOut.step] at stepped
      split at stepped <;> cases stepped
      exact seen
  | timerFires | timerCancelled =>
      simp only [FanOut.step] at stepped
      split_ifs at stepped
      cases stepped
      exact seen
  | settle expired health =>
      simp only [FanOut.step] at stepped
      split at stepped <;> cases stepped
      rcases settle_cases expired health with
        ⟨-, eq⟩ | ⟨-, alt, -, -, eq⟩ | ⟨-, -, why, -, eq⟩ <;> rw [eq] <;> exact seen
  | observe i =>
      simp only [FanOut.step] at stepped
      split at stepped <;> cases stepped
      exact seen.observe ..
  | observeTimer expired health acquired =>
      have moved : ∀ timer, FailureSeen (FanOut.observeTimer slice s timer expired health acquired) :=
        fun timer => by
          rcases observeTimer_cases timer expired health acquired with
            eq | ⟨-, -, -, alt, -, eq⟩ <;> rw [eq] <;> exact seen
      simp only [FanOut.step] at stepped
      split at stepped <;> cases stepped
      · exact moved _
      · exact moved _

/-- A failure other than a slice that is down is returned at the head of the loop,
with nothing in flight and no failover left to make. -/
theorem gave_up {label : Label Body} (stepped : step o slice s label = some t)
    (undecided : s.outcome = none) {outcome : SliceOutcome Body} (out : t.outcome = some outcome)
    (isFailed : outcome.status = .failed) (why : outcome.failureReason ≠ some "slice_down") :
    ∃ expired health, label = .settle expired health ∧ s.inFlight = [] ∧
      (o.failoverOnError = true → s.lastFailure = some .unavailable ∨ s.lastFailure = some .error →
        expired = false → s.failoverUsed = true ∨ ∀ r < slice.replicas, r ∈ s.replicas) := by
  cases label with
  | «begin» seen rr health quantile remaining =>
      simp only [step] at stepped
      split at stepped <;> cases stepped
      rcases start_cases seen rr health quantile remaining with eq | ⟨-, eq⟩ | ⟨primary, timer, eq⟩
      · rw [eq] at out
        cases out
        exact absurd rfl why
      · rw [eq] at out
        cases out
      · rw [eq] at out
        cases out
  | complete i result =>
      simp only [step] at stepped
      split at stepped <;> cases stepped
      cases undecided.symm.trans out
  | timerFires | timerCancelled =>
      simp only [step] at stepped
      split_ifs at stepped
      cases stepped
      cases undecided.symm.trans out
  | settle expired health =>
      simp only [step] at stepped
      split at stepped <;> cases stepped
      case h_1 pc_eq =>
        rcases settle_cases expired health with
          ⟨-, eq⟩ | ⟨-, alt, -, -, eq⟩ | ⟨idle, ended, why, -, eq⟩
        · rw [eq] at out
          cases out
        · rw [eq] at out
          unfold State.outcome State.begin at out
          rw [pc_eq] at out
          cases out
        · refine ⟨expired, health, rfl, idle, fun enabled failure alive => ?_⟩
          exact (ended enabled failure alive).imp_right SliceState.pickAlternate_eq_none
  | observe i =>
      simp only [step] at stepped
      split at stepped <;> cases stepped
      unfold observe at out
      dsimp only at out
      split at out <;> cases out
      split_ifs at isFailed
  | observeTimer expired health acquired =>
      have branch : ∃ timer, t = observeTimer slice s timer expired health acquired := by
        simp only [step] at stepped
        split at stepped <;> cases stepped
        · exact ⟨_, rfl⟩
        · exact ⟨_, rfl⟩
      obtain ⟨timer, rfl⟩ := branch
      rcases observeTimer_cases timer expired health acquired with eq | ⟨-, -, -, alt, -, eq⟩
      · rw [eq] at out
        cases out
      · rw [eq] at out
        cases out

/-! ## Every run ends -/

def attemptWork (a : Attempt Body) : Nat :=
  (if a.result.isNone then 1 else 0) + if a.done then 0 else 2

def timerWork : Option HedgeTimer → Nat
  | none => 0
  | some .running => 6
  | some _ => 5

def failoverWork (used : Bool) : Nat := bif used then 0 else 4

def pcWork : Pc Body → Nat
  | .start => 11
  | .loop => 1
  | _ => 0

/-- What is left to do: attempts to complete and observe, the timer, the failover. -/
def remainingWork (s : State Body) : Nat :=
  (s.attempts.map attemptWork).sum + pcWork s.pc + timerWork s.hedgeTimer +
    failoverWork s.failoverUsed

theorem timerWork_le (timer : Option HedgeTimer) : timerWork timer ≤ 6 := by
  unfold timerWork
  split <;> omega

theorem sum_set {f : Attempt Body → Nat} {xs : List (Attempt Body)} {i : Nat} {x y : Attempt Body}
    (found : xs[i]? = some x) : ((xs.set i y).map f).sum + f x = (xs.map f).sum + f y := by
  induction xs generalizing i with
  | nil => simp at found
  | cons a rest ih =>
      cases i with
      | zero =>
          cases found
          simp only [List.set_cons_zero, List.map_cons, List.sum_cons]
          omega
      | succ i =>
          have tail := ih found
          simp only [List.set_cons_succ, List.map_cons, List.sum_cons]
          omega

theorem sum_begin (s : State Body) (replica : Nat) (kind : AttemptKind) :
    ((s.attempts ++ [({ replica := replica, kind := kind } : Attempt Body)]).map attemptWork).sum =
      (s.attempts.map attemptWork).sum + 3 := by
  simp [attemptWork]

theorem timerWork_none : timerWork none = 0 := rfl

theorem observe_pcWork (i : Nat) (finished : Attempt Body) (result : AttemptResult Body) :
    pcWork (observe slice s i finished result).pc ≤ 1 := by
  unfold observe
  dsimp only
  split <;> simp [pcWork]

theorem observe_rest (i : Nat) (finished : Attempt Body) (result : AttemptResult Body) :
    (observe slice s i finished result).hedgeTimer = s.hedgeTimer ∧
      (observe slice s i finished result).failoverUsed = s.failoverUsed := by
  unfold observe
  dsimp only
  split <;> exact ⟨rfl, rfl⟩

/-- **Every step does some of the work that is left.** -/
theorem remainingWork_step (inv : Inv slice s) {label : Label Body}
    (stepped : step o slice s label = some t) : remainingWork t < remainingWork s := by
  unfold remainingWork
  cases label with
  | «begin» seen rr health quantile remaining =>
      simp only [step] at stepped
      split at stepped <;> cases stepped
      case h_1 pc_eq =>
        rw [pc_eq, (inv.unopened pc_eq).2]
        rcases start_cases seen rr health quantile remaining with
          eq | ⟨-, eq⟩ | ⟨primary, timer, eq⟩
        · rw [eq]
          simp [pcWork, (inv.unopened pc_eq).2]
        · rw [eq]
          simp [pcWork, (inv.unopened pc_eq).2]
        · have sum := sum_begin s primary .primary
          have bound := timerWork_le timer
          rw [eq]
          simp only [sum, pcWork, timerWork_none, State.begin]
          omega
  | complete i result =>
      simp only [step] at stepped
      split at stepped <;> cases stepped
      case h_1 replica kind done found =>
        have sum := sum_set (f := attemptWork) (y := ⟨replica, kind, some result, done⟩) found
        have less : attemptWork (⟨replica, kind, some result, done⟩ : Attempt Body) + 1 =
            attemptWork (⟨replica, kind, none, done⟩ : Attempt Body) := by
          cases done <;> rfl
        dsimp only
        omega
  | timerFires | timerCancelled =>
      simp only [step] at stepped
      split_ifs at stepped with undecided
      cases stepped
      rw [undecided]
      simp only [timerWork]
      omega
  | settle expired health =>
      simp only [step] at stepped
      split at stepped <;> cases stepped
      case h_1 pc_eq =>
        rcases settle_cases expired health with
          ⟨-, eq⟩ | ⟨-, alt, unused, -, eq⟩ | ⟨-, -, why, -, eq⟩
        · rw [eq, pc_eq]
          simp only [pcWork]
          omega
        · have sum := sum_begin s alt .failover
          rw [eq, unused]
          simp only [sum, State.begin, failoverWork, cond_true, cond_false]
          omega
        · rw [eq, pc_eq]
          simp only [pcWork]
          omega
  | observe i =>
      simp only [step] at stepped
      split at stepped <;> cases stepped
      case h_1 replica kind result pc_eq found =>
        have sum := sum_set (f := attemptWork) (y := ⟨replica, kind, some result, true⟩) found
        have less : attemptWork (⟨replica, kind, some result, true⟩ : Attempt Body) + 2 =
            attemptWork (⟨replica, kind, some result, false⟩ : Attempt Body) := rfl
        have pc : pcWork (observe slice s i ⟨replica, kind, some result, false⟩ result).pc ≤ 1 :=
          observe_pcWork i _ result
        obtain ⟨timer, used⟩ :
            (observe slice s i ⟨replica, kind, some result, false⟩ result).hedgeTimer = s.hedgeTimer ∧
              (observe slice s i ⟨replica, kind, some result, false⟩ result).failoverUsed =
                s.failoverUsed :=
          observe_rest i _ result
        rw [timer, used, observe_attempts, pc_eq]
        simp only [pcWork] at *
        omega
  | observeTimer expired health acquired =>
      have branch : ∃ timer, s.pc = .whenAny ∧ 5 ≤ timerWork s.hedgeTimer ∧
          t = observeTimer slice s timer expired health acquired := by
        simp only [step] at stepped
        split at stepped <;> cases stepped
        case h_1 pc_eq timed => exact ⟨_, pc_eq, by rw [timed]; decide, rfl⟩
        case h_2 pc_eq timed => exact ⟨_, pc_eq, by rw [timed]; decide, rfl⟩
      obtain ⟨timer, pc_eq, armed, rfl⟩ := branch
      rw [pc_eq]
      rcases observeTimer_cases timer expired health acquired with eq | ⟨-, -, -, alt, -, eq⟩
      · rw [eq]
        simp only [pcWork, timerWork_none]
        omega
      · have sum := sum_begin s alt .hedge
        rw [eq]
        simp only [sum, pcWork, timerWork_none, State.begin]
        omega

/-- A run that cannot go on has its outcome, unless `PickPrimary` threw. -/
theorem outcome_of_stuck (inv : Inv slice s) (stuck : ∀ label, step o slice s label = none) :
    s.pc = .threw ∨ ∃ outcome, s.outcome = some outcome := by
  cases pc_eq : s.pc with
  | start =>
      have := stuck (.begin (fun _ => .unknown) 0 (fun _ => .unknown) none 0)
      simp [step, pc_eq] at this
  | loop =>
      have := stuck (.settle false fun _ => .unknown)
      simp [step, pc_eq] at this
  | threw => exact .inl rfl
  | returned outcome => exact .inr ⟨outcome, by simp [State.outcome, pc_eq]⟩
  | whenAny =>
      obtain ⟨a, mem⟩ := List.exists_mem_of_ne_nil _ (inv.waiting pc_eq)
      obtain ⟨started, pending⟩ := mem_inFlight.mp mem
      obtain ⟨i, found⟩ := List.mem_iff_getElem?.mp started
      obtain ⟨replica, kind, result, done⟩ := a
      cases pending
      cases result with
      | none =>
          have := stuck (.complete i ⟨.cancelled, none, by simp⟩)
          simp [step, found] at this
      | some result =>
          have := stuck (.observe i)
          simp [step, found, pc_eq] at this

theorem length_le {trace : List (Label Body)} (run : (system o slice Body).Run trace s) :
    trace.length ≤ 15 := by
  have bound := (system o slice Body).exec_length_le (I := Inv slice) remainingWork
    (fun _ _ _ inv stepped => ⟨inv.step stepped, remainingWork_step inv stepped⟩) inv_initial run
  have first : remainingWork (State.initial : State Body) = 15 := rfl
  change trace.length + remainingWork s ≤ remainingWork State.initial at bound
  omega

/-! ## The protocol -/

/-- `PickPrimary` does not index below zero. -/
def PrimaryPicked (slice : SliceState) (_ : State Body) : Label Body → Prop
  | .begin _ rr health _ _ => ¬ slice.WrapsNegative rr health
  | _ => True

theorem not_threw_step {label : Label Body} (calm : s.pc ≠ .threw)
    (picked : PrimaryPicked slice s label) (stepped : step o slice s label = some t) :
    t.pc ≠ .threw := by
  cases label with
  | «begin» seen rr health quantile remaining =>
      simp only [step] at stepped
      split at stepped <;> cases stepped
      rcases start_cases seen rr health quantile remaining with
        eq | ⟨throws, -⟩ | ⟨primary, timer, eq⟩
      · rw [eq]
        simp
      · exact absurd (SliceState.wrapsNegative_of_throws throws) picked
      · rw [eq]
        simp
  | complete i result =>
      simp only [step] at stepped
      split at stepped <;> cases stepped
      exact calm
  | timerFires | timerCancelled =>
      simp only [step] at stepped
      split_ifs at stepped
      cases stepped
      exact calm
  | settle expired health =>
      simp only [step] at stepped
      split at stepped <;> cases stepped
      rcases settle_cases expired health with
        ⟨-, eq⟩ | ⟨-, alt, -, -, eq⟩ | ⟨-, -, why, -, eq⟩
      · rw [eq]
        simp
      · rw [eq]
        exact calm
      · rw [eq]
        simp
  | observe i =>
      simp only [step] at stepped
      split at stepped <;> cases stepped
      unfold observe
      dsimp only
      split <;> simp
  | observeTimer expired health acquired =>
      have moved : ∀ timer, (observeTimer slice s timer expired health acquired).pc ≠ .threw := by
        intro timer
        rcases observeTimer_cases timer expired health acquired with eq | ⟨-, -, -, alt, -, eq⟩ <;>
          rw [eq] <;> simp
      simp only [step] at stepped
      split at stepped <;> cases stepped
      · exact moved _
      · exact moved _

/-- What holds in every state of a hedged request. -/
structure Guaranteed (slice : SliceState) (s : State Body) : Prop where
  oneHedge : s.kinds.count .hedge ≤ 1
  oneFailover : s.kinds.count .failover ≤ 1
  distinct : s.replicas.Nodup
  /-- An observed success is the outcome, with its own response. -/
  answered : ∀ a ∈ s.attempts, ∀ response, Succeeded a response →
    s.outcome = some (reply slice s a response)
  /-- An outcome is the reply of an observed success, or a failure with every
  started attempt observed and none successful. -/
  produced : ∀ outcome, s.outcome = some outcome →
    (∃ a ∈ s.attempts, ∃ response, Succeeded a response ∧ outcome = reply slice s a response) ∨
    (∃ why, outcome = failed slice s why) ∧
      ∀ a ∈ s.attempts, a.done = true ∧ ∀ response, ¬ Succeeded a response
  lastFailure : FailureSeen s

/-- What holds of every step of a hedged request. -/
structure Governed (o : HedgingOptions) (slice : SliceState) (s : State Body) (label : Label Body)
    (t : State Body) : Prop where
  /-- A hedge starts after `TryAcquire` returned true, with an earlier attempt not
  yet observed as finished and the deadline just found not expired. -/
  hedge : t.kinds.count .hedge ≠ s.kinds.count .hedge →
    ∃ health, label = .observeTimer false health true ∧ ∃ a ∈ s.attempts, a.done = false
  /-- There is one outcome, and nothing starts after it. -/
  final : ∀ outcome, s.outcome = some outcome →
    t.outcome = some outcome ∧ t.replicas = s.replicas ∧ t.kinds = s.kinds
  /-- A slice fails only when no failover is left to make. -/
  gaveUp : s.outcome = none → ∀ outcome, t.outcome = some outcome → outcome.status = .failed →
    outcome.failureReason ≠ some "slice_down" →
    ∃ expired health, label = .settle expired health ∧ (∀ a ∈ s.attempts, a.done = true) ∧
      (o.failoverOnError = true → s.lastFailure = some .unavailable ∨ s.lastFailure = some .error →
        expired = false → s.failoverUsed = true ∨ ∀ r < slice.replicas, r ∈ s.replicas)

theorem guaranteed_of_reachable (reached : (system o slice Body).Reachable s) :
    Guaranteed slice s := by
  have inv := inv_of_reachable reached
  have seen : FailureSeen s := (system o slice Body).reachable_induction
    (I := FailureSeen) rfl (fun _ _ _ seen stepped => seen.step stepped) reached
  refine ⟨Nat.le_of_add_right_le inv.hedges, ?_, inv.distinct, inv.answered, ?_, seen⟩
  · exact Nat.le_trans inv.failovers (by split_ifs <;> omega)
  · intro outcome out
    rcases inv.produced outcome out with replied | ⟨⟨why, rfl⟩, idle⟩
    · exact .inl replied
    · refine .inr ⟨⟨why, rfl⟩, fun a mem => ⟨inFlight_eq_nil.mp idle a mem, fun response success => ?_⟩⟩
      have other := inv.answered a mem response success
      rw [out] at other
      cases congrArg (Option.map SliceOutcome.failureReason) other

theorem governed_of_step {label : Label Body} (stepped : step o slice s label = some t) :
    Governed o slice s label t where
  hedge more := by
    rcases started_step stepped with ⟨-, same⟩ | ⟨_, kind, -, kinds, -, hedged⟩
    · exact absurd (by rw [same]) more
    · have isHedge : kind = .hedge := by
        by_contra other
        rw [kinds, List.count_append] at more
        simp [other] at more
      obtain ⟨health, eq, busy⟩ := hedged isHedge
      obtain ⟨a, mem⟩ := List.exists_mem_of_ne_nil _ busy
      exact ⟨health, eq, a, mem_inFlight.mp mem⟩
  final outcome out := by
    have returned : s.pc = .returned outcome := by
      unfold State.outcome at out
      split at out
      · rename_i pc_eq
        cases out
        exact pc_eq
      · cases out
    obtain ⟨stands, started⟩ := outcome_final returned stepped
    exact ⟨by simp [State.outcome, stands], started⟩
  gaveUp undecided outcome out isFailed why := by
    obtain ⟨expired, health, eq, idle, ended⟩ := gave_up stepped undecided out isFailed why
    exact ⟨expired, health, eq, inFlight_eq_nil.mp idle, ended⟩

/-- **The hedged request.**  In every run in which `PickPrimary` does not index
below zero: the guarantees hold in every state and the rules at every step, the
run has at most fifteen steps, and when it cannot go on (every attempt completes)
it has its outcome. -/
theorem hedged_search (o : HedgingOptions) (slice : SliceState) (trace : List (Label Body))
    (s : State Body) (run : (system o slice Body).Run trace s)
    (picked : (system o slice Body).StepsMeet (PrimaryPicked slice) State.initial trace) :
    Guaranteed slice s ∧ (∀ label t, step o slice s label = some t → Governed o slice s label t) ∧
      trace.length ≤ 15 ∧
      ((∀ label, step o slice s label = none) → ∃ outcome, s.outcome = some outcome) := by
  have reached : (system o slice Body).Reachable s := ⟨trace, run⟩
  have calm : s.pc ≠ .threw := (system o slice Body).run_induction_of_stepsMeet
    (I := fun s => s.pc ≠ .threw) (by simp [system, State.initial])
    (fun _ _ _ calm picked stepped => not_threw_step calm picked stepped) run picked
  refine ⟨guaranteed_of_reachable reached, fun label t stepped => governed_of_step stepped,
    length_le run, fun stuck => ?_⟩
  exact (outcome_of_stuck (inv_of_reachable reached) stuck).resolve_left calm

/-! ### A hedge that wins, and a counter at its maximum -/

def pair : SliceState := ⟨7, 2, by decide⟩

def triple : SliceState := ⟨7, 3, by decide⟩

def page : AttemptResult Unit := ⟨.success, some ⟨false, ()⟩, fun _ => rfl⟩

/-- The primary is slow, the timer fires, the hedge is granted and answers first. -/
def hedgeWins : List (Label Unit) :=
  [.begin (fun _ => .healthy) 0 (fun _ => .healthy) (some 50000) 1000000,
    .settle false fun _ => .healthy, .timerFires, .observeTimer false (fun _ => .healthy) true,
    .settle false fun _ => .healthy, .complete 1 page, .observe 1]

theorem hedged_search_wins :
    ∃ s : State Unit, s.outcome = some ⟨7, .ok, some ⟨false, ()⟩, true, none, 2⟩ ∧
      Guaranteed pair s ∧
      (∀ label t, step {} pair s label = some t → Governed {} pair s label t) ∧
      hedgeWins.length ≤ 15 ∧
      ((∀ label, step {} pair s label = none) → ∃ outcome, s.outcome = some outcome) := by
  have reached : ∃ s, (system {} pair Unit).Run hedgeWins s ∧
      s.outcome = some ⟨7, .ok, some ⟨false, ()⟩, true, none, 2⟩ := ⟨_, rfl, rfl⟩
  obtain ⟨s, run, out⟩ := reached
  refine ⟨s, out, hedged_search {} pair hedgeWins s run ?_⟩
  refine (system {} pair Unit).stepsMeet_of_forall (fun _ label mem => ?_) _
  simp only [hedgeWins, List.mem_cons, List.not_mem_nil, or_false] at mem
  rcases mem with rfl | rfl | rfl | rfl | rfl | rfl | rfl
  · exact SliceState.not_wrapsNegative (by decide)
  all_goals trivial

/-- With three replicas, the counter at `int.MaxValue` and replica 1 unhealthy, the
second index is `-2147483648 % 3 = -2`: the call throws and has no outcome. -/
theorem search_throws :
    ∃ (trace : List (Label Unit)) (s : State Unit), (system {} triple Unit).Run trace s ∧
      (∀ label, step {} triple s label = none) ∧ s.outcome = none := by
  let sick : Nat → ReplicaHealth := fun r => if r = 1 then .unhealthy else .healthy
  have throws : triple.pickPrimary (2 ^ 31 - 1) sick = none := by decide +kernel
  have up : ¬ ∀ r ∈ List.range triple.replicas, sick r = .unhealthy := by decide
  have begun : start {} triple (State.initial : State Unit) sick (2 ^ 31 - 1) sick none 1000000 =
      { State.initial with pc := .threw } := by
    unfold start
    rw [if_neg (fun down => up down.2), throws]
  refine ⟨[.begin sick (2 ^ 31 - 1) sick none 1000000], { State.initial with pc := .threw },
    congrArg some begun, ?_, rfl⟩
  intro label
  cases label <;> rfl

end FanOut

end HybridSearch.Broker
