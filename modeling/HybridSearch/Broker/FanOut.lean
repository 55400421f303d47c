/-
# Broker.FanOut -- the hedged request to one slice (Shards/ShardFanOut.cs)

`SearchSliceAsync` multiplexes up to three attempts and a hedge timer.  Its loop
body runs without interruption between two `Task.WhenAny`, so a step is one such
stretch, and the labels resolve what it reads from outside: the health of the
replicas, the clock, the budget's answer, and which of the completed tasks
`WhenAny` returns.  Attempts complete, and the timer fires or is cancelled, at
any moment in between.
-/
import HybridSearch.Theory.Transition
import Mathlib

namespace HybridSearch.Broker

open HybridSearch.Theory

set_option autoImplicit false

/-! ## The slice and its replicas -/

inductive ReplicaHealth
  | unknown
  | healthy
  | unhealthy
  deriving DecidableEq, Repr

/-- The options of `HedgingOptions` that `SearchSliceAsync` reads; the delay in
ticks. -/
structure HedgingOptions where
  failFastWhenSliceDown : Bool := true
  enabled : Bool := true
  minDelay : Nat := 10000
  failoverOnError : Bool := true
  deriving DecidableEq, Repr

/-- A slice: its id and its replicas, known by their index; never none. -/
structure SliceState where
  id : Int
  replicas : Nat
  nonempty : 0 < replicas
  deriving DecidableEq, Repr

namespace SliceState

/-- The index `(start + i) % n` of `PickPrimary`: 32-bit addition and the remainder
of truncated division, both as C# computes them. -/
def primaryIndex (slice : SliceState) (rr i : Nat) : Int :=
  (Int.bmod (rr % 2 ^ 31 + i : Nat) (2 ^ 32)).tmod slice.replicas

/-- The loop of `PickPrimary` over `i`; `none` is the exception of a negative index. -/
def pickFrom (slice : SliceState) (rr : Nat) (health : Nat → ReplicaHealth) : List Nat → Option Nat
  | [] => some (rr % 2 ^ 31 % slice.replicas)
  | i :: rest =>
      let r := slice.primaryIndex rr i
      if r < 0 then none
      else if health r.toNat ≠ .unhealthy then some r.toNat
      else pickFrom slice rr health rest

/-- `PickPrimary`, given the round-robin counter `_rr` after its increment, as an
unsigned number, and the health it reads. -/
def pickPrimary (slice : SliceState) (rr : Nat) (health : Nat → ReplicaHealth) : Option Nat :=
  slice.pickFrom rr health (List.range slice.replicas)

/-- `PickAlternate`: a replica outside `exclude`, preferring one not unhealthy. -/
def pickAlternate (slice : SliceState) (exclude : List Nat) (health : Nat → ReplicaHealth) :
    Option Nat :=
  let others := (List.range slice.replicas).filter (· ∉ exclude)
  (others.find? fun r => health r ≠ .unhealthy).or others.head?

theorem pickAlternate_fresh {slice : SliceState} {exclude : List Nat} {health : Nat → ReplicaHealth}
    {r : Nat} (picked : slice.pickAlternate exclude health = some r) :
    r < slice.replicas ∧ r ∉ exclude := by
  have mem : r ∈ (List.range slice.replicas).filter (· ∉ exclude) := by
    rcases Option.or_eq_some_iff.mp picked with found | ⟨-, head⟩
    · exact List.mem_of_find?_eq_some found
    · exact List.mem_of_head? head
  simpa using mem

theorem pickAlternate_eq_none {slice : SliceState} {exclude : List Nat}
    {health : Nat → ReplicaHealth} (noPick : slice.pickAlternate exclude health = none) :
    ∀ r < slice.replicas, r ∈ exclude := by
  intro r inside
  by_contra fresh
  have empty := (Option.or_eq_none_iff.mp noPick).2
  rw [List.head?_eq_none_iff, List.filter_eq_nil_iff] at empty
  exact empty r (List.mem_range.mpr inside) (by simpa using fresh)

end SliceState

/-! ## Attempts -/

inductive AttemptKind
  | primary
  | hedge
  | failover
  deriving DecidableEq, Repr

inductive AttemptStatus
  | success
  | timeout
  | unavailable
  | error
  | cancelled
  deriving DecidableEq, Repr

/-- A shard's reply: whether it is partial, and the rest of it. -/
structure SearchResponse (Body : Type) where
  isPartial : Bool
  body : Body
  deriving DecidableEq, Repr

/-- `AttemptResult`; a success carries its response. -/
structure AttemptResult (Body : Type) where
  status : AttemptStatus
  response : Option (SearchResponse Body)
  replied : status = .success → response.isSome

/-- The task of an attempt, and whether the loop has observed its end. -/
structure Attempt (Body : Type) where
  replica : Nat
  kind : AttemptKind
  result : Option (AttemptResult Body) := none
  done : Bool := false

inductive SliceStatus
  | ok
  | isPartial
  | failed
  deriving DecidableEq, Repr

/-- `SliceOutcome`, without its elapsed time. -/
structure SliceOutcome (Body : Type) where
  sliceId : Int
  status : SliceStatus
  response : Option (SearchResponse Body)
  hedgeWon : Bool
  failureReason : Option String
  attempts : Nat
  deriving DecidableEq, Repr

/-- `Reason`. -/
def reason : AttemptStatus → String
  | .timeout => "timeout"
  | .unavailable => "unavailable"
  | _ => "error"

/-- The task of the hedge timer, while the loop still looks at it. -/
inductive HedgeTimer
  | running
  | fired
  | cancelled
  deriving DecidableEq, Repr

namespace FanOut

/-- Where `SearchSliceAsync` stands. -/
inductive Pc (Body : Type)
  | start
  /-- The head of the loop. -/
  | loop
  /-- In `Task.WhenAny`. -/
  | whenAny
  /-- An exception left the method. -/
  | threw
  | returned (outcome : SliceOutcome Body)

structure State (Body : Type) where
  attempts : List (Attempt Body)
  hedgeTimer : Option HedgeTimer
  failoverUsed : Bool
  lastFailure : Option AttemptStatus
  /-- History: the statuses the loop has observed, in order. -/
  observed : List AttemptStatus
  pc : Pc Body

/-- A step, with what it reads from outside. -/
inductive Label (Body : Type)
  /-- The call, up to the loop: the health read by the fail-fast test and by
  `PickPrimary`, the round-robin counter, the tracker's quantile and the time left. -/
  | begin (seen : Nat → ReplicaHealth) (rr : Nat) (health : Nat → ReplicaHealth)
      (quantile : Option Nat) (remaining : Int)
  | complete (i : Nat) (result : AttemptResult Body)
  | timerFires
  | timerCancelled
  /-- The head of the loop: go on waiting, fail over, or give up. -/
  | settle (expired : Bool) (health : Nat → ReplicaHealth)
  /-- `WhenAny` returned this attempt. -/
  | observe (i : Nat)
  /-- `WhenAny` returned the hedge timer. -/
  | observeTimer (expired : Bool) (health : Nat → ReplicaHealth) (acquired : Bool)

namespace State

variable {Body : Type}

def initial : State Body where
  attempts := []
  hedgeTimer := none
  failoverUsed := false
  lastFailure := none
  observed := []
  pc := .start

def replicas (s : State Body) : List Nat := s.attempts.map (·.replica)

def kinds (s : State Body) : List AttemptKind := s.attempts.map (·.kind)

/-- The attempts whose end the loop has not observed. -/
def inFlight (s : State Body) : List (Attempt Body) := s.attempts.filter (!·.done)

/-- `Start(replica, kind)`. -/
def begin (s : State Body) (replica : Nat) (kind : AttemptKind) : State Body :=
  { s with attempts := s.attempts ++ [{ replica := replica, kind := kind }] }

def outcome (s : State Body) : Option (SliceOutcome Body) :=
  match s.pc with
  | .returned outcome => some outcome
  | _ => none

end State

section Steps

variable {Body : Type}

/-- `HedgeDelay`, from the quantile the tracker answers. -/
def hedgeDelay (o : HedgingOptions) (slice : SliceState) (quantile : Option Nat) : Option Nat :=
  if !o.enabled ∨ slice.replicas < 2 then none else quantile.map (max o.minDelay)

def failed (slice : SliceState) (s : State Body) (why : String) : SliceOutcome Body where
  sliceId := slice.id
  status := .failed
  response := none
  hedgeWon := false
  failureReason := some why
  attempts := s.attempts.length

/-- From the call to the head of the loop. -/
def start (o : HedgingOptions) (slice : SliceState) (s : State Body) (seen : Nat → ReplicaHealth)
    (rr : Nat) (health : Nat → ReplicaHealth) (quantile : Option Nat) (remaining : Int) :
    State Body :=
  if o.failFastWhenSliceDown ∧ ∀ r ∈ List.range slice.replicas, seen r = .unhealthy then
    { s with pc := .returned (failed slice s "slice_down") }
  else
    match slice.pickPrimary rr health with
    | none => { s with pc := .threw }
    | some primary =>
        { s.begin primary .primary with
          pc := .loop
          hedgeTimer := (hedgeDelay o slice quantile).bind fun d =>
            if (d : Int) < remaining then some .running else none }

/-- The head of the loop. -/
def settle (o : HedgingOptions) (slice : SliceState) (s : State Body) (expired : Bool)
    (health : Nat → ReplicaHealth) : State Body :=
  if s.inFlight ≠ [] then { s with pc := .whenAny }
  else
    let giveUp := { s with
      pc := .returned (failed slice s ((s.lastFailure.map reason).getD "unknown")) }
    if !s.failoverUsed ∧ o.failoverOnError ∧
        (s.lastFailure = some .unavailable ∨ s.lastFailure = some .error) ∧ !expired then
      match slice.pickAlternate s.replicas health with
      | some alt => { s.begin alt .failover with failoverUsed := true }
      | none => giveUp
    else giveUp

/-- The branch of a returned attempt. -/
def observe (slice : SliceState) (s : State Body) (i : Nat) (finished : Attempt Body)
    (result : AttemptResult Body) : State Body :=
  let s := { s with
    attempts := s.attempts.set i { finished with done := true }
    observed := s.observed ++ [result.status] }
  match result.status, result.response with
  | .success, some response =>
      { s with
        pc := .returned
          { sliceId := slice.id
            status := if response.isPartial then .isPartial else .ok
            response := some response
            hedgeWon := finished.kind = .hedge
            failureReason := none
            attempts := s.attempts.length } }
  | .cancelled, _ => { s with pc := .loop }
  | status, _ => { s with pc := .loop, lastFailure := some status }

/-- The branch of the hedge timer, which is looked at once. -/
def observeTimer (slice : SliceState) (s : State Body) (timer : HedgeTimer) (expired : Bool)
    (health : Nat → ReplicaHealth) (acquired : Bool) : State Body :=
  let s := { s with hedgeTimer := none, pc := .loop }
  if timer = .cancelled then s
  else if s.inFlight = [] ∨ expired then s
  else
    match slice.pickAlternate s.replicas health with
    | none => s
    | some alt => if acquired then s.begin alt .hedge else s

def step (o : HedgingOptions) (slice : SliceState) (s : State Body) :
    Label Body → Option (State Body)
  | .begin seen rr health quantile remaining =>
      match s.pc with
      | .start => some (start o slice s seen rr health quantile remaining)
      | _ => none
  | .complete i result =>
      match s.attempts[i]? with
      | some ⟨replica, kind, none, done⟩ =>
          some { s with attempts := s.attempts.set i ⟨replica, kind, some result, done⟩ }
      | _ => none
  | .timerFires =>
      if s.hedgeTimer = some .running then some { s with hedgeTimer := some .fired } else none
  | .timerCancelled =>
      if s.hedgeTimer = some .running then some { s with hedgeTimer := some .cancelled } else none
  | .settle expired health =>
      match s.pc with
      | .loop => some (settle o slice s expired health)
      | _ => none
  | .observe i =>
      match s.pc, s.attempts[i]? with
      | .whenAny, some ⟨replica, kind, some result, false⟩ =>
          some (observe slice s i ⟨replica, kind, some result, false⟩ result)
      | _, _ => none
  | .observeTimer expired health acquired =>
      match s.pc, s.hedgeTimer with
      | .whenAny, some .fired => some (observeTimer slice s .fired expired health acquired)
      | .whenAny, some .cancelled => some (observeTimer slice s .cancelled expired health acquired)
      | _, _ => none

/-- One call of `SearchSliceAsync` under every interleaving. -/
def system (o : HedgingOptions) (slice : SliceState) (Body : Type) :
    System (State Body) (Label Body) where
  start := .initial
  step := step o slice

end Steps

end FanOut

end HybridSearch.Broker
