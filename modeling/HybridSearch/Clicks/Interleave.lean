/-
# Clicks.Interleave -- team-draft interleaving in the simulator (interleave.py)

The same procedure as the broker's, on an iterator of coins that can run out, and
the enumeration of all its outcomes.  `coins i` is what draw `i` of the iterator
returns, `none` for `StopIteration`.
-/
import Mathlib.Algebra.Order.Ring.Unbundled.Rat
import Mathlib.Data.List.TakeWhile

namespace HybridSearch.Clicks

set_option autoImplicit false

/-- The exceptions of `team_draft`. -/
inductive DraftError
  | coinsExhausted
  deriving DecidableEq, Repr

variable {ι : Type} [DecidableEq ι]

/-- The local variables of `team_draft`; the cursors stay on a document that was just taken. -/
structure Draft (ι : Type) where
  out : List ι
  teams : List String
  seen : List ι
  ta : Nat
  tb : Nat
  ia : Nat
  ib : Nat
  used : Nat
  deriving DecidableEq, Repr

namespace Draft

def initial : Draft ι := ⟨[], [], [], 0, 0, 0, 0, 0⟩

def advance (lst : List ι) (seen : List ι) (i : Nat) : Nat :=
  i + ((lst.drop i).takeWhile fun d => decide (d ∈ seen)).length

/-- Whether A is to pick, and the coins used then. -/
def pickA (coins : Nat → Option Bool) (st : Draft ι) : Except DraftError (Bool × Nat) :=
  if st.ta < st.tb then .ok (true, st.used)
  else if st.tb < st.ta then .ok (false, st.used)
  else
    match coins st.used with
    | none => .error .coinsExhausted
    | some coin => .ok (coin, st.used + 1)

/-- Whether A picks, once a team without a document has passed. -/
def settle (pickA aLeft bLeft : Bool) : Bool :=
  if pickA && !aLeft then false else if !pickA && !bLeft then true else pickA

/-- The loop, with so many positions left to fill; `doc` is `a[ia]` or `b[ib]`. -/
def loop (a b : List ι) (coins : Nat → Option Bool) : Nat → Draft ι → Except DraftError (Draft ι)
  | 0, st => .ok st
  | n + 1, st =>
      let ia := advance a st.seen st.ia
      let ib := advance b st.seen st.ib
      let aLeft := decide (ia < a.length)
      let bLeft := decide (ib < b.length)
      if !aLeft && !bLeft then .ok { st with ia := ia, ib := ib }
      else
        match pickA coins st with
        | .error e => .error e
        | .ok (pick, used) =>
            if settle pick aLeft bLeft then
              match a[ia]? with
              | none => .ok st
              | some doc =>
                  loop a b coins n ⟨st.out ++ [doc], st.teams ++ ["A"], st.seen ++ [doc], st.ta + 1, st.tb,
                    ia, ib, used⟩
            else
              match b[ib]? with
              | none => .ok st
              | some doc =>
                  loop a b coins n ⟨st.out ++ [doc], st.teams ++ ["B"], st.seen ++ [doc], st.ta, st.tb + 1,
                    ia, ib, used⟩

end Draft

/-- `team_draft`: the interleaved documents, their teams and the number of coins consumed. -/
def teamDraft (a b : List ι) (k : Nat) (coins : Nat → Option Bool) :
    Except DraftError (List ι × List String × Nat) :=
  match Draft.loop a b coins k Draft.initial with
  | .error e => .error e
  | .ok st => .ok (st.out, st.teams, st.used)

/-- One entry of `enumerate_team_draft`. -/
structure Outcome (ι : Type) where
  out : List ι
  teams : List String
  prob : ℚ
  deriving DecidableEq, Repr

/-- `rec`, to a depth. -/
def enumerateFrom (a b : List ι) (k : Nat) : Nat → List Bool → Option (List (Outcome ι))
  | 0, _ => none
  | depth + 1, coins =>
      match teamDraft a b k fun i => coins[i]? with
      | .ok (out, teams, used) => some [⟨out, teams, (1 / 2) ^ used⟩]
      | .error _ => do
          let heads ← enumerateFrom a b k depth (coins ++ [true])
          let tails ← enumerateFrom a b k depth (coins ++ [false])
          pure (heads ++ tails)

/-- `enumerate_team_draft`, within a recursion depth. -/
def enumerateTeamDraft (a b : List ι) (k depth : Nat) : Option (List (Outcome ι)) :=
  enumerateFrom a b k depth []

end HybridSearch.Clicks
