/-
# Engine.Deadline -- a request budget (deadline.hpp)

The clock is the sequence of values its readings return, one per call of
`Clock::now`; nothing is assumed of how much time passes between two readings.
A deadline without a budget never reads the clock.
-/
import HybridSearch.Engine.Machine

namespace HybridSearch.Engine

set_option autoImplicit false

structure Deadline where
  limited : Bool
  expired_ : Bool
  ticks : Nat
  at_ : Nat
  /-- What reading `i` of the clock returns. -/
  now : Nat → Nat
  readings : Nat

namespace Deadline

/-- The default-constructed deadline. -/
def unlimited : Deadline where
  limited := false
  expired_ := false
  ticks := 0
  at_ := 0
  now _ := 0
  readings := 0

def afterUs (budgetUs : Nat) (now : Nat → Nat) : Deadline :=
  if budgetUs > 0 then
    { unlimited with limited := true, at_ := now 0 + budgetUs, now := now, readings := 1 }
  else unlimited

/-- `expired`, and the deadline after the call. -/
def expired (d : Deadline) : Bool × Deadline :=
  if ¬ d.limited then (false, d)
  else if d.expired_ then (true, d)
  else
    let fired := decide (d.at_ ≤ d.now d.readings)
    (fired, { d with expired_ := fired, readings := d.readings + 1 })

/-- `expired_every(n)`: only every `n`-th call reads the clock. -/
def expiredEvery (d : Deadline) (n : Nat) : Bool × Deadline :=
  if ¬ d.limited then (false, d)
  else
    let d := { d with ticks := u32 (d.ticks + 1) }
    if d.ticks % n ≠ 0 then (d.expired_, d) else d.expired

def fired (d : Deadline) : Bool := d.expired_

end Deadline

end HybridSearch.Engine
