/-
# Theory.Transition -- systems given by a partial step function, and their runs

A `System` is a start state and a partial step function.  The label of a step
resolves every choice the environment or the scheduler has, so a run is the list
of its labels and is replayed by `exec`; a label that is not enabled gives
`none`.  Nothing here names a particular system.

* `run_induction`: a property of (trace, state) that holds of the empty run and
  is kept by every step holds of every run;
* `StepsMeet`: a run each of whose steps meets a condition on the state before
  it, with its own induction (`run_induction_of_stepsMeet`);
* `exec_length_le`: a measure that every step decreases bounds the length of
  every run.
-/
import Mathlib.Data.List.Induction

namespace HybridSearch.Theory

set_option autoImplicit false

universe u v

/-- A transition system whose labels resolve every choice. -/
structure System (σ : Type u) (α : Type v) where
  start : σ
  step : σ → α → Option σ

namespace System

variable {σ : Type u} {α : Type v} (M : System σ α)

/-- Replay a list of labels from a state. -/
def exec : σ → List α → Option σ
  | s, [] => some s
  | s, a :: rest => (M.step s a).bind fun t => exec t rest

/-- `trace` leads from the start state to `s`. -/
def Run (trace : List α) (s : σ) : Prop :=
  M.exec M.start trace = some s

def Reachable (s : σ) : Prop :=
  ∃ trace, M.Run trace s

@[simp] theorem exec_nil (s : σ) : M.exec s [] = some s := rfl

theorem exec_cons (s : σ) (a : α) (rest : List α) :
    M.exec s (a :: rest) = (M.step s a).bind fun t => M.exec t rest := rfl

theorem exec_cons_eq_some {s t : σ} {a : α} {rest : List α} :
    M.exec s (a :: rest) = some t ↔ ∃ m, M.step s a = some m ∧ M.exec m rest = some t := by
  simp [exec_cons, Option.bind_eq_some_iff]

theorem exec_append (s : σ) (front back : List α) :
    M.exec s (front ++ back) = (M.exec s front).bind fun t => M.exec t back := by
  induction front generalizing s with
  | nil => rfl
  | cons a rest ih =>
      simp only [List.cons_append, exec_cons]
      cases M.step s a with
      | none => rfl
      | some t => exact ih t

theorem exec_append_eq_some {s t : σ} {front back : List α} :
    M.exec s (front ++ back) = some t ↔
      ∃ m, M.exec s front = some m ∧ M.exec m back = some t := by
  simp [exec_append, Option.bind_eq_some_iff]

theorem run_snoc {trace : List α} {a : α} {t : σ} :
    M.Run (trace ++ [a]) t ↔ ∃ s, M.Run trace s ∧ M.step s a = some t := by
  unfold Run
  rw [exec_append_eq_some]
  simp [exec_cons]

/-- **Induction over runs**, with the trace in the property. -/
theorem run_induction {I : List α → σ → Prop} (start : I [] M.start)
    (next : ∀ trace s a t, I trace s → M.step s a = some t → I (trace ++ [a]) t)
    {trace : List α} {s : σ} (run : M.Run trace s) : I trace s := by
  induction trace using List.reverseRecOn generalizing s with
  | nil =>
      cases run
      exact start
  | append_singleton front a ih =>
      obtain ⟨m, before, stepped⟩ := M.run_snoc.mp run
      exact next front m a s (ih before) stepped

/-- A state property kept by every step holds of every reachable state. -/
theorem reachable_induction {I : σ → Prop} (start : I M.start)
    (next : ∀ s a t, I s → M.step s a = some t → I t) {s : σ} (reached : M.Reachable s) : I s := by
  obtain ⟨trace, run⟩ := reached
  exact M.run_induction (I := fun _ => I) start (fun _ s a t => next s a t) run

theorem Reachable.next {M : System σ α} {s t : σ} {a : α} (reached : M.Reachable s)
    (stepped : M.step s a = some t) : M.Reachable t := by
  obtain ⟨trace, run⟩ := reached
  exact ⟨trace ++ [a], M.run_snoc.mpr ⟨s, run, stepped⟩⟩

theorem Reachable.exec {M : System σ α} {s t : σ} {trace : List α} (reached : M.Reachable s)
    (ran : M.exec s trace = some t) : M.Reachable t := by
  obtain ⟨front, run⟩ := reached
  exact ⟨front ++ trace, M.exec_append_eq_some.mpr ⟨s, run, ran⟩⟩

/-! ## Runs whose steps all meet a condition -/

/-- Every step of the replay meets `ok` at the state it is taken from. -/
def StepsMeet (ok : σ → α → Prop) : σ → List α → Prop
  | _, [] => True
  | s, a :: rest => ok s a ∧ ∀ t, M.step s a = some t → StepsMeet ok t rest

theorem stepsMeet_append {ok : σ → α → Prop} {s m : σ} {front back : List α}
    (meets : M.StepsMeet ok s (front ++ back)) (ran : M.exec s front = some m) :
    M.StepsMeet ok s front ∧ M.StepsMeet ok m back := by
  induction front generalizing s with
  | nil =>
      cases ran
      exact ⟨trivial, meets⟩
  | cons a rest ih =>
      obtain ⟨t, stepped, ran⟩ := M.exec_cons_eq_some.mp ran
      obtain ⟨front, back⟩ := ih (meets.2 t stepped) ran
      refine ⟨⟨meets.1, fun u same => ?_⟩, back⟩
      rw [stepped] at same
      cases same
      exact front

theorem stepsMeet_snoc {ok : σ → α → Prop} {s : σ} {front : List α} {a : α}
    (meets : M.StepsMeet ok s front) (last : ∀ m, M.exec s front = some m → ok m a) :
    M.StepsMeet ok s (front ++ [a]) := by
  induction front generalizing s with
  | nil => exact ⟨last s rfl, fun _ _ => trivial⟩
  | cons b rest ih =>
      refine ⟨meets.1, fun t stepped => ih (meets.2 t stepped) fun m ran => last m ?_⟩
      exact M.exec_cons_eq_some.mpr ⟨t, stepped, ran⟩

instance decidableStepsMeet {ok : σ → α → Prop} [∀ s a, Decidable (ok s a)] :
    ∀ (s : σ) (trace : List α), Decidable (M.StepsMeet ok s trace)
  | _, [] => .isTrue trivial
  | s, a :: rest =>
      match stepped : M.step s a with
      | none => decidable_of_iff (ok s a) ⟨fun here => ⟨here, by simp [stepped]⟩, And.left⟩
      | some t =>
          have : Decidable (M.StepsMeet ok t rest) := decidableStepsMeet t rest
          decidable_of_iff (ok s a ∧ M.StepsMeet ok t rest)
            ⟨fun ⟨here, later⟩ => ⟨here, by simpa [stepped] using later⟩,
              fun ⟨here, later⟩ => ⟨here, later t stepped⟩⟩

/-- A condition that holds of the labels of a trace at any state. -/
theorem stepsMeet_of_forall {ok : σ → α → Prop} {trace : List α} (all : ∀ s, ∀ a ∈ trace, ok s a)
    (s : σ) : M.StepsMeet ok s trace := by
  induction trace generalizing s with
  | nil => trivial
  | cons a rest ih =>
      exact ⟨all s a List.mem_cons_self,
        fun t _ => ih (fun s b mem => all s b (List.mem_cons_of_mem _ mem)) t⟩

theorem StepsMeet.and {M : System σ α} {ok ok' : σ → α → Prop} {s : σ} {trace : List α}
    (meets : M.StepsMeet ok s trace) (meets' : M.StepsMeet ok' s trace) :
    M.StepsMeet (fun s a => ok s a ∧ ok' s a) s trace := by
  induction trace generalizing s with
  | nil => trivial
  | cons a rest ih =>
      exact ⟨⟨meets.1, meets'.1⟩, fun t stepped => ih (meets.2 t stepped) (meets'.2 t stepped)⟩

theorem run_induction_of_stepsMeet {ok : σ → α → Prop} {I : σ → Prop} (start : I M.start)
    (next : ∀ s a t, I s → ok s a → M.step s a = some t → I t)
    {trace : List α} {s : σ} (run : M.Run trace s) (meets : M.StepsMeet ok M.start trace) :
    I s := by
  induction trace using List.reverseRecOn generalizing s with
  | nil =>
      cases run
      exact start
  | append_singleton front a ih =>
      obtain ⟨m, before, stepped⟩ := M.run_snoc.mp run
      obtain ⟨early, last⟩ := M.stepsMeet_append meets before
      exact next m a s (ih before early) last.1 stepped

/-! ## Bounded runs -/

/-- A measure every step decreases bounds the length of every replay. -/
theorem exec_length_le {I : σ → Prop} (measure : σ → Nat)
    (next : ∀ s a t, I s → M.step s a = some t → I t ∧ measure t < measure s)
    {s t : σ} {trace : List α} (holds : I s) (ran : M.exec s trace = some t) :
    trace.length + measure t ≤ measure s := by
  induction trace generalizing s with
  | nil =>
      cases ran
      simp
  | cons a rest ih =>
      obtain ⟨m, stepped, ran⟩ := M.exec_cons_eq_some.mp ran
      obtain ⟨kept, smaller⟩ := next s a m holds stepped
      have := ih kept ran
      simp only [List.length_cons]
      omega

end System

end HybridSearch.Theory
