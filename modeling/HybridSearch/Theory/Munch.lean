/-
# Theory.Munch -- longest-match scanning with a weight limit

A `Scanner` reads a word with a partial step function.  At every place it takes
the longest non-empty prefix that it accepts within its limit, and skips one
element where there is none.  `longest` is the one-pass loop that remembers the
last accepting place (`longest_spec`), and `Cuts` says how a word
falls into tokens and skipped elements; the cuts of a word are unique by
construction, and every place of the word is in one of them (`exists_cut`).
-/
import Mathlib.Data.List.Basic
import Mathlib.Tactic

namespace HybridSearch.Theory.Munch

set_option autoImplicit false

variable {α σ : Type}

structure Scanner (α σ : Type) where
  start : σ
  step : σ → α → Option σ
  accept : σ → Bool
  weight : α → Nat
  limit : Nat

namespace Scanner

variable (M : Scanner α σ)

/-- The state after a word, if the scanner gets through it. -/
def run : σ → List α → Option σ
  | s, [] => some s
  | s, a :: rest => (M.step s a).bind fun t => run t rest

def AcceptsFrom (s : σ) (word : List α) : Prop := ∃ t, M.run s word = some t ∧ M.accept t = true

def Accepts (word : List α) : Prop := M.AcceptsFrom M.start word

def weightOf (word : List α) : Nat := (word.map M.weight).sum

/-- The length of the longest non-empty accepted prefix of weight at most `room`. -/
def longest : σ → Nat → List α → Option Nat
  | _, _, [] => none
  | s, room, a :: rest =>
      if room < M.weight a then none
      else
        match M.step s a with
        | none => none
        | some t =>
            match longest t (room - M.weight a) rest with
            | some n => some (n + 1)
            | none => if M.accept t then some 1 else none

theorem run_cons (s : σ) (a : α) (rest : List α) :
    M.run s (a :: rest) = (M.step s a).bind fun t => M.run t rest := rfl

theorem weightOf_cons (a : α) (word : List α) : M.weightOf (a :: word) = M.weight a + M.weightOf word := by
  simp [weightOf]

/-- A candidate: a non-empty accepted prefix within the room. -/
def Candidate (s : σ) (room : Nat) (word front : List α) : Prop :=
  front <+: word ∧ front ≠ [] ∧ M.weightOf front ≤ room ∧ M.AcceptsFrom s front

variable {M}

theorem candidate_cons {s : σ} {room : Nat} {a : α} {rest front : List α} :
    M.Candidate s room (a :: rest) front ↔ M.weight a ≤ room ∧ ∃ t, M.step s a = some t ∧
      ((front = [a] ∧ M.accept t = true) ∨
        ∃ more, front = a :: more ∧ M.Candidate t (room - M.weight a) rest more) := by
  constructor
  · rintro ⟨upTo, full, fits, u, ran, accepted⟩
    cases front with
    | nil => exact absurd rfl full
    | cons b more =>
        obtain ⟨rfl, inside⟩ := List.cons_prefix_cons.mp upTo
        rw [weightOf_cons] at fits
        obtain ⟨t, stepped, ran⟩ := Option.bind_eq_some_iff.mp ran
        refine ⟨by omega, t, stepped, ?_⟩
        cases more with
        | nil =>
            cases ran
            exact .inl ⟨rfl, accepted⟩
        | cons c more =>
            exact .inr ⟨c :: more, rfl, inside, List.cons_ne_nil _ _, by omega, u, ran, accepted⟩
  · rintro ⟨fits, t, stepped, ⟨rfl, accepted⟩ | ⟨more, rfl, inside, -, moreFits, u, ran, accepted⟩⟩
    · refine ⟨⟨rest, rfl⟩, List.cons_ne_nil _ _, ?_, t, ?_, accepted⟩
      · simpa [weightOf] using fits
      · rw [run_cons, stepped]
        rfl
    · refine ⟨List.cons_prefix_cons.mpr ⟨rfl, inside⟩, List.cons_ne_nil _ _, ?_, u, ?_, accepted⟩
      · rw [weightOf_cons]
        omega
      · rw [run_cons, stepped]
        exact ran

/-- **Longest match**: the loop finds the longest candidate, if there is one. -/
theorem longest_spec (s : σ) (room : Nat) (word : List α) :
    match M.longest s room word with
    | some n => M.Candidate s room word (word.take n) ∧ n ≤ word.length ∧
        ∀ front, M.Candidate s room word front → front.length ≤ n
    | none => ∀ front, ¬ M.Candidate s room word front := by
  induction word generalizing s room with
  | nil =>
      rintro front ⟨upTo, full, -⟩
      exact full (List.prefix_nil.mp upTo)
  | cons a rest ih =>
      rw [longest]
      by_cases heavy : room < M.weight a
      · rw [if_pos heavy]
        intro front candidate
        have := (candidate_cons.mp candidate).1
        omega
      · rw [if_neg heavy]
        cases stepped : M.step s a with
        | none =>
            intro front candidate
            obtain ⟨-, t, stepped', -⟩ := candidate_cons.mp candidate
            rw [stepped] at stepped'
            cases stepped'
        | some t =>
            have later := ih t (room - M.weight a)
            dsimp only
            cases longest_eq : M.longest t (room - M.weight a) rest with
            | some n =>
                rw [longest_eq] at later
                obtain ⟨candidate, inside, most⟩ := later
                refine ⟨candidate_cons.mpr ⟨by omega, t, stepped, .inr ⟨_, rfl, candidate⟩⟩,
                  Nat.succ_le_succ inside, fun front other => ?_⟩
                obtain ⟨-, t', stepped', ⟨rfl, -⟩ | ⟨more, rfl, moreCandidate⟩⟩ :=
                  candidate_cons.mp other
                · exact Nat.succ_le_succ (Nat.zero_le n)
                · rw [stepped] at stepped'
                  cases stepped'
                  exact Nat.succ_le_succ (most more moreCandidate)
            | none =>
                rw [longest_eq] at later
                have single : ∀ front, M.Candidate s room (a :: rest) front →
                    front = [a] ∧ M.accept t = true := by
                  intro front other
                  obtain ⟨-, t', stepped', here | ⟨more, rfl, moreCandidate⟩⟩ :=
                    candidate_cons.mp other
                  · rw [stepped] at stepped'
                    cases stepped'
                    exact here
                  · rw [stepped] at stepped'
                    cases stepped'
                    exact absurd moreCandidate (later more)
                by_cases accepted : M.accept t = true
                · simp only [if_pos accepted]
                  refine ⟨candidate_cons.mpr ⟨by omega, t, stepped, .inl ⟨by simp, accepted⟩⟩,
                    Nat.succ_le_succ (Nat.zero_le _), fun front other => ?_⟩
                  rw [(single front other).1]
                  exact le_rfl
                · simp only [if_neg accepted]
                  exact fun front other => accepted (single front other).2

end Scanner

/-! ## Cutting a word -/

/-- A token, or an element no token starts at. -/
inductive Cut (α : Type)
  | token (word : List α)
  | skip (a : α)

namespace Cut

def elements : Cut α → List α
  | .token word => word
  | .skip a => [a]

/-- The word some cuts make up. -/
def word (cuts : List (Cut α)) : List α := cuts.flatMap elements

/-- The spans of the tokens, measured by `size` from `pos`. -/
def spans (size : List α → Nat) : Nat → List (Cut α) → List (Nat × Nat)
  | _, [] => []
  | pos, .token m :: cuts => (pos, pos + size m) :: spans size (pos + size m) cuts
  | pos, .skip a :: cuts => spans size (pos + size [a]) cuts

theorem word_cons (cut : Cut α) (cuts : List (Cut α)) : word (cut :: cuts) = cut.elements ++ word cuts :=
  List.flatMap_cons

theorem word_append (front back : List (Cut α)) : word (front ++ back) = word front ++ word back :=
  List.flatMap_append

section Spans

variable {size : List α → Nat} (size_append : ∀ xs ys, size (xs ++ ys) = size xs + size ys)

include size_append

theorem size_nil : size [] = 0 := by
  have := size_append [] []
  rw [List.append_nil] at this
  omega

/-- **The spans are the tokens' places.** -/
theorem mem_spans {pos i j : Nat} {cuts : List (Cut α)} : (i, j) ∈ spans size pos cuts ↔
    ∃ front m back, cuts = front ++ .token m :: back ∧ i = pos + size (word front) ∧ j = i + size m := by
  induction cuts generalizing pos with
  | nil => simp [spans]
  | cons cut cuts ih =>
      have zero := size_nil size_append
      -- the cuts before a later token begin with `cut`
      have later : (∃ front m back, cuts = front ++ .token m :: back ∧
            i = pos + size cut.elements + size (word front) ∧ j = i + size m) ↔
          ∃ front m back, cut :: cuts = (cut :: front) ++ .token m :: back ∧
            i = pos + size (word (cut :: front)) ∧ j = i + size m := by
        simp only [List.cons_append, List.cons.injEq, true_and, word_cons, size_append, Nat.add_assoc]
      cases cut with
      | token m =>
          rw [spans, List.mem_cons, ih]
          constructor
          · rintro (same | found)
            · cases same
              exact ⟨[], m, cuts, rfl, by rw [word, List.flatMap_nil, zero, Nat.add_zero], rfl⟩
            · obtain ⟨front, m', back, rest⟩ := later.mp found
              exact ⟨_, m', back, rest⟩
          · rintro ⟨front, m', back, same, start, stop⟩
            cases front with
            | nil =>
                cases same
                rw [word, List.flatMap_nil, zero, Nat.add_zero] at start
                subst start stop
                exact .inl rfl
            | cons cut front =>
                rw [List.cons_append, List.cons.injEq] at same
                obtain ⟨rfl, same⟩ := same
                exact .inr (later.mpr ⟨front, m', back, by rw [same]; rfl, start, stop⟩)
      | skip a =>
          rw [spans, ih]
          constructor
          · intro found
            obtain ⟨front, m', back, rest⟩ := later.mp found
            exact ⟨_, m', back, rest⟩
          · rintro ⟨front, m', back, same, start, stop⟩
            cases front with
            | nil => cases same
            | cons cut front =>
                rw [List.cons_append, List.cons.injEq] at same
                obtain ⟨rfl, same⟩ := same
                exact later.mpr ⟨front, m', back, by rw [same]; rfl, start, stop⟩

theorem le_of_mem_spans {pos : Nat} {cuts : List (Cut α)} {span : Nat × Nat}
    (mem : span ∈ spans size pos cuts) : pos ≤ span.1 ∧ span.1 ≤ span.2 := by
  obtain ⟨front, m, back, -, start, stop⟩ := (mem_spans size_append).mp mem
  omega

/-- **The spans are in order and do not overlap.** -/
theorem spans_ordered (pos : Nat) (cuts : List (Cut α)) :
    (spans size pos cuts).Pairwise fun a b => a.2 ≤ b.1 := by
  induction cuts generalizing pos with
  | nil => exact .nil
  | cons cut cuts ih =>
      cases cut with
      | token m => exact .cons (fun b mem => (le_of_mem_spans size_append mem).1) (ih _)
      | skip a => exact ih _

end Spans

end Cut

namespace Scanner

variable {M : Scanner α σ}

/-- **The cuts of a word**: the longest token at every place, one element where
there is none. -/
inductive Cuts (M : Scanner α σ) : List α → List (Cut α) → Prop
  | nil : Cuts M [] []
  | token {word : List α} {n : Nat} {cuts : List (Cut α)}
      (found : M.longest M.start M.limit word = some n) (rest : Cuts M (word.drop n) cuts) :
      Cuts M word (.token (word.take n) :: cuts)
  | skip {a : α} {rest : List α} {cuts : List (Cut α)}
      (stuck : M.longest M.start M.limit (a :: rest) = none) (later : Cuts M rest cuts) :
      Cuts M (a :: rest) (.skip a :: cuts)

theorem Cuts.word_eq {word : List α} {cuts : List (Cut α)} (cut : M.Cuts word cuts) :
    Cut.word cuts = word := by
  induction cut with
  | nil => rfl
  | token found rest ih =>
      rw [Cut.word_cons, ih]
      exact List.take_append_drop _ _
  | skip stuck later ih =>
      rw [Cut.word_cons, ih]
      rfl

theorem Cuts.suffix {word : List α} {front back : List (Cut α)} (cut : M.Cuts word (front ++ back)) :
    M.Cuts (Cut.word back) back := by
  induction front generalizing word with
  | nil => exact cut.word_eq ▸ cut
  | cons first front ih =>
      cases cut with
      | token found rest => exact ih rest
      | skip stuck later => exact ih later

/-- A word is cut in one way. -/
theorem Cuts.unique {word : List α} {cuts cuts' : List (Cut α)} (cut : M.Cuts word cuts)
    (cut' : M.Cuts word cuts') : cuts = cuts' := by
  induction cut generalizing cuts' with
  | nil =>
      cases cut' with
      | nil => rfl
      | token found _ => simp [longest] at found
  | token found rest ih =>
      cases cut' with
      | nil => simp [longest] at found
      | token found' rest' =>
          rw [found] at found'
          cases found'
          rw [ih rest']
      | skip stuck _ =>
          rw [found] at stuck
          cases stuck
  | skip stuck later ih =>
      cases cut' with
      | token found' _ =>
          rw [stuck] at found'
          cases found'
      | skip _ later' => rw [ih later']

/-- A token is the longest candidate at its place. -/
theorem Cuts.token_spec {word m : List α} {front back : List (Cut α)}
    (cut : M.Cuts word (front ++ .token m :: back)) :
    M.Candidate M.start M.limit (m ++ Cut.word back) m ∧
      ∀ other, M.Candidate M.start M.limit (m ++ Cut.word back) other → other.length ≤ m.length := by
  have here := cut.suffix
  have whole : Cut.word (.token m :: back) = m ++ Cut.word back := Cut.word_cons _ _
  rw [whole] at here
  generalize m ++ Cut.word back = suffix at here
  cases here with
  | token found rest =>
      have spec := M.longest_spec M.start M.limit suffix
      rw [found] at spec
      obtain ⟨candidate, inside, most⟩ := spec
      refine ⟨candidate, fun other candidate => ?_⟩
      rw [List.length_take, Nat.min_eq_left inside]
      exact most other candidate

/-- No candidate begins at a skipped element. -/
theorem Cuts.skip_spec {word : List α} {a : α} {front back : List (Cut α)}
    (cut : M.Cuts word (front ++ .skip a :: back)) :
    ∀ other, ¬ M.Candidate M.start M.limit (a :: Cut.word back) other := by
  have here := cut.suffix
  have whole : Cut.word (.skip a :: back) = a :: Cut.word back := Cut.word_cons _ _
  rw [whole] at here
  cases here with
  | skip stuck later =>
      have spec := M.longest_spec M.start M.limit (a :: Cut.word back)
      rwa [stuck] at spec

end Scanner

/-- Every element of a word is in one of its cuts. -/
theorem Cut.exists_cut {cuts : List (Cut α)} {front back : List α} {a : α}
    (here : Cut.word cuts = front ++ a :: back) : ∃ before cut after lead tail,
      cuts = before ++ cut :: after ∧ cut.elements = lead ++ a :: tail ∧
        front = Cut.word before ++ lead ∧ back = tail ++ Cut.word after := by
  induction cuts generalizing front with
  | nil => simp [Cut.word] at here
  | cons cut cuts ih =>
      rw [Cut.word_cons] at here
      rcases List.append_eq_append_iff.mp here with ⟨mid, rfl, rest⟩ | ⟨mid, inside, rest⟩
      · obtain ⟨before, cut', after, lead, tail, rfl, elements, rfl, rfl⟩ := ih rest
        exact ⟨cut :: before, cut', after, lead, tail, rfl, elements,
          by rw [Cut.word_cons, List.append_assoc], rfl⟩
      · cases mid with
        | nil =>
            rw [List.append_nil] at inside
            obtain ⟨before, cut', after, lead, tail, rfl, elements, leadEq, rfl⟩ :=
              @ih [] rest.symm
            refine ⟨cut :: before, cut', after, lead, tail, rfl, elements, ?_, rfl⟩
            rw [Cut.word_cons, inside, List.append_assoc, ← leadEq, List.append_nil]
        | cons b mid =>
            rw [List.cons_append, List.cons.injEq] at rest
            obtain ⟨rfl, rfl⟩ := rest
            exact ⟨[], cut, cuts, front, mid, rfl, inside, rfl, rfl⟩

end HybridSearch.Theory.Munch
