/-
# Broker.Interleaving -- team-draft interleaving in the broker (Interleaving.cs)

The team with fewer picks picks next, and a coin decides between equal teams.  A
team without an unused document cedes the position; the coin is not flipped again.
`coin` is the stream of coins, true for A, and the run counts how many it draws.
-/
import Mathlib.Data.List.TakeWhile

namespace HybridSearch.Broker.Interleaving

set_option autoImplicit false

inductive Team
  | A
  | B
  deriving DecidableEq, Repr

structure InterleavedDoc (ι : Type) where
  docId : ι
  team : Team
  deriving DecidableEq, Repr

variable {ι : Type} [DecidableEq ι]

/-- The local variables of `Interleave`, with the number of coins drawn. -/
structure State (ι : Type) where
  result : List (InterleavedDoc ι)
  used : List ι
  ia : Nat
  ib : Nat
  sizeA : Nat
  sizeB : Nat
  drawn : Nat

def initial : State ι := ⟨[], [], 0, 0, 0, 0, 0⟩

def advancePastUsed (ranking : List ι) (i : Nat) (used : List ι) : Nat :=
  i + ((ranking.drop i).takeWhile fun d => decide (d ∈ used)).length

/-- `pick`, and the coins drawn then. -/
def pickTeam (coin : Nat → Bool) (st : State ι) : Team × Nat :=
  if st.sizeA < st.sizeB then (.A, st.drawn)
  else if st.sizeB < st.sizeA then (.B, st.drawn)
  else (if coin st.drawn then .A else .B, st.drawn + 1)

/-- A team with nothing left cedes the position to the other. -/
def cede (pick : Team) (a b : Option ι) : Option (Team × ι) :=
  match pick, a, b with
  | .A, some d, _ => some (.A, d)
  | .A, none, some d => some (.B, d)
  | .B, _, some d => some (.B, d)
  | .B, some d, none => some (.A, d)
  | _, none, none => none

/-- The loop, with so many positions left to fill. -/
def loop (rankingA rankingB : List ι) (coin : Nat → Bool) : Nat → State ι → State ι
  | 0, st => st
  | n + 1, st =>
      let ia := advancePastUsed rankingA st.ia st.used
      let ib := advancePastUsed rankingB st.ib st.used
      let a := rankingA[ia]?
      let b := rankingB[ib]?
      if a.isNone ∧ b.isNone then { st with ia := ia, ib := ib }
      else
        let (pick, drawn) := pickTeam coin st
        match cede pick a b with
        | none => st
        | some (.A, d) =>
            loop rankingA rankingB coin n
              ⟨st.result ++ [⟨d, .A⟩], st.used ++ [d], ia + 1, ib, st.sizeA + 1, st.sizeB, drawn⟩
        | some (.B, d) =>
            loop rankingA rankingB coin n
              ⟨st.result ++ [⟨d, .B⟩], st.used ++ [d], ia, ib + 1, st.sizeA, st.sizeB + 1, drawn⟩

/-- `Interleave`, for `k` not negative. -/
def interleave (rankingA rankingB : List ι) (k : Nat) (coin : Nat → Bool) : State ι :=
  loop rankingA rankingB coin k initial

end HybridSearch.Broker.Interleaving
