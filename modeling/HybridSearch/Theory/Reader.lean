/-
# Theory.Reader -- readers of byte strings, and what they consume

A `Reader` consumes a prefix of a byte string or fails.  `Reads r bytes x` says
that `r`, started at `bytes` followed by anything, yields `x` and stops exactly
at the end of `bytes`; it composes along `bind`, so a serialiser and its reader
are kept in lock step field by field and the round trip of a whole stream is
assembled from the round trips of its fields.  `Fails` is its counterpart for a
field the reader refuses.
-/
import Mathlib.Control.Monad.Basic
import Mathlib.Data.List.Basic

namespace HybridSearch.Theory

set_option autoImplicit false

universe u v

variable {ε : Type u} {α β : Type}

/-- A reader: consumes a prefix of the bytes, or fails. -/
abbrev Reader (ε : Type u) (α : Type) := StateT (List UInt8) (Except ε) α

/-- `r` consumes exactly `bytes`, whatever follows, and yields `x`. -/
def Reads (r : Reader ε α) (bytes : List UInt8) (x : α) : Prop :=
  ∀ rest, r.run (bytes ++ rest) = .ok (x, rest)

namespace Reads

theorem pure (x : α) : Reads (Pure.pure x : Reader ε α) [] x := fun _ => rfl

theorem bind {r : Reader ε α} {f : α → Reader ε β} {front back : List UInt8} {x : α} {y : β}
    (first : Reads r front x) (second : Reads (f x) back y) :
    Reads (r >>= f) (front ++ back) y := by
  intro rest
  rw [List.append_assoc, StateT.run_bind, first]
  exact second rest

/-- A last field: what follows consumes nothing. -/
theorem bind_last {r : Reader ε α} {f : α → Reader ε β} {bytes : List UInt8} {x : α} {y : β}
    (first : Reads r bytes x) (second : Reads (f x) [] y) : Reads (r >>= f) bytes y := by
  have both := first.bind second
  rwa [List.append_nil] at both

/-- A running value updated once per element of a list. -/
theorem foldlM {γ σ : Type} {step : σ → γ → Reader ε σ} {emit : γ → List UInt8} {next : σ → γ → σ}
    {keys : List γ} (each : ∀ s, ∀ key ∈ keys, Reads (step s key) (emit key) (next s key)) (s : σ) :
    Reads (keys.foldlM step s) (keys.flatMap emit) (keys.foldl next s) := by
  induction keys generalizing s with
  | nil => exact pure s
  | cons key keys ih =>
      rw [List.foldlM_cons, List.flatMap_cons, List.foldl_cons]
      exact (each s key List.mem_cons_self).bind
        (ih (fun s k mem => each s k (List.mem_cons_of_mem _ mem)) _)

theorem map {r : Reader ε α} {bytes : List UInt8} {x : α} (f : α → β) (reads : Reads r bytes x) :
    Reads (f <$> r) bytes (f x) := by
  intro rest
  rw [StateT.run_map, reads]
  rfl

/-- A reader of the same shape read once per element of a list. -/
theorem mapM {γ : Type} {r : γ → Reader ε β} {emit : γ → List UInt8} {result : γ → β} {keys : List γ}
    (each : ∀ key ∈ keys, Reads (r key) (emit key) (result key)) :
    Reads (keys.mapM r) (keys.flatMap emit) (keys.map result) := by
  induction keys with
  | nil => exact pure []
  | cons key keys ih =>
      rw [List.mapM_cons, List.flatMap_cons, List.map_cons]
      have tail := ih fun k mem => each k (List.mem_cons_of_mem _ mem)
      refine bind (each key List.mem_cons_self) ?_
      have := tail.bind (f := fun ys => Pure.pure (result key :: ys)) (pure _)
      rwa [List.append_nil] at this

/-- The whole input is consumed when nothing follows. -/
theorem run_eq {r : Reader ε α} {bytes : List UInt8} {x : α} (reads : Reads r bytes x) :
    r.run bytes = .ok (x, []) := by
  simpa using reads []

end Reads

/-- `r` fails with `e` on every input that starts with `bytes`. -/
def Fails (r : Reader ε α) (bytes : List UInt8) (e : ε) : Prop :=
  ∀ rest, r.run (bytes ++ rest) = .error e

namespace Fails

theorem bind {r : Reader ε α} {bytes : List UInt8} {e : ε} (fails : Fails r bytes e)
    (f : α → Reader ε β) : Fails (r >>= f) bytes e := by
  intro rest
  rw [StateT.run_bind, fails]
  rfl

theorem append {r : Reader ε α} {bytes : List UInt8} {e : ε} (fails : Fails r bytes e)
    (more : List UInt8) : Fails r (bytes ++ more) e := by
  intro rest
  rw [List.append_assoc]
  exact fails _

/-- A later field that fails. -/
theorem after {r : Reader ε α} {f : α → Reader ε β} {front back : List UInt8} {x : α} {e : ε}
    (first : Reads r front x) (second : Fails (f x) back e) : Fails (r >>= f) (front ++ back) e := by
  intro rest
  rw [List.append_assoc, StateT.run_bind, first]
  exact second rest

end Fails

end HybridSearch.Theory
