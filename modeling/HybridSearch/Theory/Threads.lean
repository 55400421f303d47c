/-
# Theory.Threads -- counting the threads at a program point

A system of arbitrarily many threads keeps one program point per thread, as a
function.  `Counted pc at' n` says that exactly `n` threads are at a point that
satisfies `at'`; the three update lemmas say how one step of one thread moves
the count.  The thread type need not be finite: only the threads at the counted
points have to be.
-/
import Mathlib.Data.Finset.Card
import Mathlib.Logic.Function.Basic

namespace HybridSearch.Theory

set_option autoImplicit false

universe u v

variable {Tid : Type u} {Pc : Type v} [DecidableEq Tid]

/-- Exactly `n` threads are at a program point satisfying `here`. -/
def Counted (pc : Tid → Pc) (here : Pc → Prop) (n : Nat) : Prop :=
  ∃ threads : Finset Tid, threads.card = n ∧ ∀ t, t ∈ threads ↔ here (pc t)

variable {pc : Tid → Pc} {here : Pc → Prop} {n : Nat} {t : Tid} {p : Pc}

omit [DecidableEq Tid] in
theorem counted_zero (nowhere : ∀ t, ¬ here (pc t)) : Counted pc here 0 :=
  ⟨∅, rfl, fun t => by simp [nowhere t]⟩

omit [DecidableEq Tid] in
theorem Counted.pos (counted : Counted pc here n) (counts : here (pc t)) : 0 < n := by
  obtain ⟨threads, rfl, mem⟩ := counted
  exact Finset.card_pos.mpr ⟨t, (mem t).mpr counts⟩

theorem Counted.enter (counted : Counted pc here n) (before : ¬ here (pc t)) (after : here p) :
    Counted (Function.update pc t p) here (n + 1) := by
  obtain ⟨threads, rfl, mem⟩ := counted
  have fresh : t ∉ threads := fun h => before ((mem t).mp h)
  refine ⟨insert t threads, Finset.card_insert_of_notMem fresh, fun u => ?_⟩
  by_cases same : u = t
  · subst same
    simp [after]
  · simp [same, mem u]

theorem Counted.leave (counted : Counted pc here n) (before : here (pc t)) (after : ¬ here p) :
    Counted (Function.update pc t p) here (n - 1) := by
  obtain ⟨threads, rfl, mem⟩ := counted
  refine ⟨threads.erase t, Finset.card_erase_of_mem ((mem t).mpr before), fun u => ?_⟩
  by_cases same : u = t
  · subst same
    simp [after]
  · simp [same, mem u]

theorem Counted.stay (counted : Counted pc here n) (same : here (pc t) ↔ here p) :
    Counted (Function.update pc t p) here n := by
  obtain ⟨threads, rfl, mem⟩ := counted
  refine ⟨threads, rfl, fun u => ?_⟩
  by_cases eq : u = t
  · subst eq
    simp [mem, same]
  · simp [eq, mem u]

end HybridSearch.Theory
