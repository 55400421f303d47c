/-
# Broker.QueryNormalizer -- typed and logged queries (QueryNormalizer.cs)

`Collapse` goes over the text once, with the output so far and whether a space is
pending.  A pending space is written before the next character, or at the end if the
caller keeps it, so what is shown of a prefix only grows (`step_shown`), and the
output runs through the loop unchanged (`run_output`).

Texts are UTF-16 units; `Char.IsWhiteSpace` and `Char.ToLowerInvariant` are parameters.
-/
import Mathlib.Data.List.Induction
import Mathlib.Tactic.SplitIfs

namespace HybridSearch.Broker.QueryNormalizer

set_option autoImplicit false

abbrev space : Nat := 0x20

/-- The output so far, and whether a space is pending. -/
abbrev State := List Nat × Bool

section Collapse

variable (isWhiteSpace : Nat → Bool) (toLowerInvariant : Nat → Nat)

/-- One character of the text. -/
def step (st : State) (ch : Nat) : State :=
  if isWhiteSpace ch then (st.1, !st.1.isEmpty)
  else ((if st.2 then st.1 ++ [space] else st.1) ++ [toLowerInvariant ch], false)

def run (text : List Nat) : State := text.foldl (step isWhiteSpace toLowerInvariant) ([], false)

def collapse (text : List Nat) (keepTrailingSpace : Bool) : List Nat :=
  let st := run isWhiteSpace toLowerInvariant text
  if keepTrailingSpace && st.2 then st.1 ++ [space] else st.1

def normalize (text : List Nat) : List Nat := collapse isWhiteSpace toLowerInvariant text false

def normalizePrefix (text : List Nat) : List Nat := collapse isWhiteSpace toLowerInvariant text true

end Collapse

/-- A text without the space at its end, if there is one. -/
def withoutTrailingSpace (text : List Nat) : List Nat :=
  if text.getLast? = some space then text.dropLast else text

variable {isWhiteSpace : Nat → Bool} {toLowerInvariant : Nat → Nat}

/-! ## One step -/

/-- What a state shows: the output, and the pending space. -/
def shown (st : State) : List Nat := if st.2 then st.1 ++ [space] else st.1

theorem output_shown (st : State) : st.1 <+: shown st := by
  unfold shown
  split_ifs
  · exact List.prefix_append _ _
  · exact List.prefix_rfl

theorem run_append (text : List Nat) (ch : Nat) :
    run isWhiteSpace toLowerInvariant (text ++ [ch]) =
      step isWhiteSpace toLowerInvariant (run isWhiteSpace toLowerInvariant text) ch := by
  rw [run, List.foldl_append]
  rfl

theorem normalizePrefix_eq (text : List Nat) :
    normalizePrefix isWhiteSpace toLowerInvariant text =
      shown (run isWhiteSpace toLowerInvariant text) := by
  rw [normalizePrefix, collapse, shown]
  simp only [Bool.true_and]

theorem normalize_eq (text : List Nat) :
    normalize isWhiteSpace toLowerInvariant text = (run isWhiteSpace toLowerInvariant text).1 := by
  rw [normalize, collapse]
  simp only [Bool.false_and, Bool.false_eq_true, if_false]

/-- What a state may be: a space pends behind some output only, and no output ends in one. -/
structure Sane (isWhiteSpace : Nat → Bool) (st : State) : Prop where
  pending : st.2 = true → st.1 ≠ []
  last : ∀ c ∈ st.1.getLast?, isWhiteSpace c = false

theorem step_sane (lower : ∀ c, isWhiteSpace c = false → isWhiteSpace (toLowerInvariant c) = false)
    {st : State} (sane : Sane isWhiteSpace st) (ch : Nat) :
    Sane isWhiteSpace (step isWhiteSpace toLowerInvariant st ch) := by
  unfold step
  by_cases white : isWhiteSpace ch = true
  · rw [if_pos white]
    refine ⟨?_, sane.last⟩
    intro pending empty
    rw [empty] at pending
    cases pending
  · rw [if_neg white]
    refine ⟨Bool.noConfusion, ?_⟩
    intro c mem
    rw [List.getLast?_append, List.getLast?_singleton] at mem
    obtain rfl : toLowerInvariant ch = c := by simpa using mem
    exact lower ch (Bool.eq_false_iff.mpr white)

theorem run_sane (lower : ∀ c, isWhiteSpace c = false → isWhiteSpace (toLowerInvariant c) = false)
    (text : List Nat) : Sane isWhiteSpace (run isWhiteSpace toLowerInvariant text) := by
  induction text using List.reverseRecOn with
  | nil =>
      refine ⟨Bool.noConfusion, ?_⟩
      intro c mem
      cases mem
  | append_singleton text ch ih =>
      rw [run_append]
      exact step_sane lower ih ch

/-- **What is shown only grows**; a character that is no white space makes it output. -/
theorem step_shown {st : State} (sane : Sane isWhiteSpace st) (ch : Nat) :
    shown st <+: shown (step isWhiteSpace toLowerInvariant st ch) ∧
      st.1 <+: (step isWhiteSpace toLowerInvariant st ch).1 ∧
      (isWhiteSpace ch = false → shown st <+: (step isWhiteSpace toLowerInvariant st ch).1) := by
  unfold step
  by_cases white : isWhiteSpace ch = true
  · rw [if_pos white]
    refine ⟨?_, List.prefix_rfl, fun not_white => absurd white (Bool.eq_false_iff.mp not_white)⟩
    by_cases pending : st.2 = true
    · have some : st.1.isEmpty = false := by
        rw [List.isEmpty_eq_false_iff]
        exact sane.pending pending
      have written : shown (st.1, !st.1.isEmpty) = shown st := by
        unfold shown
        rw [if_pos pending, some]
        rfl
      exact written ▸ List.prefix_rfl
    · unfold shown
      rw [if_neg pending]
      exact output_shown (st.1, !st.1.isEmpty)
  · rw [if_neg white]
    have written : shown st <+: (if st.2 then st.1 ++ [space] else st.1) ++ [toLowerInvariant ch] :=
      List.prefix_append _ _
    exact ⟨written, (output_shown st).trans written, fun _ => written⟩

/-! ## Runs -/

section Runs

variable (lower : ∀ c, isWhiteSpace c = false → isWhiteSpace (toLowerInvariant c) = false)

include lower

theorem run_grows (front back : List Nat) :
    shown (run isWhiteSpace toLowerInvariant front) <+:
        shown (run isWhiteSpace toLowerInvariant (front ++ back)) ∧
      (run isWhiteSpace toLowerInvariant front).1 <+:
        (run isWhiteSpace toLowerInvariant (front ++ back)).1 ∧
      ((∃ c ∈ back, isWhiteSpace c = false) →
        shown (run isWhiteSpace toLowerInvariant front) <+:
          (run isWhiteSpace toLowerInvariant (front ++ back)).1) := by
  induction back using List.reverseRecOn with
  | nil =>
      rw [List.append_nil]
      refine ⟨List.prefix_rfl, List.prefix_rfl, ?_⟩
      rintro ⟨c, mem, -⟩
      exact absurd mem List.not_mem_nil
  | append_singleton back ch ih =>
      obtain ⟨shows, outputs, written⟩ := ih
      rw [← List.append_assoc, run_append]
      obtain ⟨shows', outputs', written'⟩ :=
        @step_shown isWhiteSpace toLowerInvariant _ (run_sane lower (front ++ back)) ch
      refine ⟨shows.trans shows', outputs.trans outputs', ?_⟩
      rintro ⟨c, mem, not_white⟩
      rcases List.mem_append.mp mem with earlier | last
      · exact (written ⟨c, earlier, not_white⟩).trans outputs'
      · obtain rfl := List.mem_singleton.mp last
        exact shows.trans (written' not_white)

/-- **The output runs through the loop unchanged.** -/
theorem run_output (white : isWhiteSpace space = true)
    (twice : ∀ c, toLowerInvariant (toLowerInvariant c) = toLowerInvariant c) (text : List Nat) :
    run isWhiteSpace toLowerInvariant (run isWhiteSpace toLowerInvariant text).1 =
      ((run isWhiteSpace toLowerInvariant text).1, false) := by
  induction text using List.reverseRecOn with
  | nil => rfl
  | append_singleton text ch ih =>
      have sane := run_sane lower text
      rw [run_append]
      generalize run isWhiteSpace toLowerInvariant text = st at *
      by_cases white_ch : isWhiteSpace ch = true
      · rw [step, if_pos white_ch]
        exact ih
      · have not_white := lower ch (Bool.eq_false_iff.mpr white_ch)
        rw [step, if_neg white_ch]
        dsimp only
        rw [run_append]
        by_cases pending : st.2 = true
        · have some : (!st.1.isEmpty) = true := by
            rw [List.isEmpty_eq_false_iff.mpr (sane.pending pending)]
            rfl
          rw [if_pos pending, run_append, ih, step, step, if_pos white, if_neg (by rw [not_white]; decide)]
          dsimp only
          rw [if_pos some, twice]
        · rw [if_neg pending, ih, step, if_neg (by rw [not_white]; decide)]
          dsimp only
          rw [if_neg (by decide), twice]

/-- What is shown runs through the loop unchanged. -/
theorem run_shown (white : isWhiteSpace space = true)
    (twice : ∀ c, toLowerInvariant (toLowerInvariant c) = toLowerInvariant c) (text : List Nat) :
    run isWhiteSpace toLowerInvariant (shown (run isWhiteSpace toLowerInvariant text)) =
      run isWhiteSpace toLowerInvariant text := by
  have output := run_output lower white twice text
  have sane := run_sane lower text
  generalize run isWhiteSpace toLowerInvariant text = st at *
  unfold shown
  split_ifs with pending
  · rw [run_append, output, step, if_pos white]
    dsimp only
    rw [List.isEmpty_eq_false_iff.mpr (sane.pending pending)]
    exact Prod.ext rfl pending.symm
  · rw [output]
    exact Prod.ext rfl (Bool.eq_false_iff.mpr pending).symm

end Runs

/-- **Typing more never loses the query.**  What a prefix of a text is normalised to is a prefix of
what the text is, and of the query's own form once the prefix has no space pending. -/
theorem normalizePrefix_grows {isWhiteSpace : Nat → Bool} {toLowerInvariant : Nat → Nat}
    (white : isWhiteSpace space = true)
    (lower : ∀ c, isWhiteSpace c = false → isWhiteSpace (toLowerInvariant c) = false)
    (twice : ∀ c, toLowerInvariant (toLowerInvariant c) = toLowerInvariant c) (front back : List Nat) :
    let typed := normalizePrefix isWhiteSpace toLowerInvariant
    let query := normalize isWhiteSpace toLowerInvariant
    typed front <+: typed (front ++ back) ∧
      query (front ++ back) = withoutTrailingSpace (typed (front ++ back)) ∧
      ((∃ c ∈ back, isWhiteSpace c = false) ∨ (∀ c ∈ front.getLast?, isWhiteSpace c = false) →
        typed front <+: query (front ++ back)) ∧
      typed (typed (front ++ back)) = typed (front ++ back) ∧
      query (query (front ++ back)) = query (front ++ back) := by
  intro typed query
  have prefix_eq (text : List Nat) : typed text = shown (run isWhiteSpace toLowerInvariant text) :=
    normalizePrefix_eq text
  have query_eq (text : List Nat) : query text = (run isWhiteSpace toLowerInvariant text).1 :=
    normalize_eq text
  obtain ⟨shows, outputs, written⟩ := run_grows lower front back
  refine ⟨?_, ?_, ?_, ?_, ?_⟩
  · rw [prefix_eq, prefix_eq]
    exact shows
  · rw [prefix_eq, query_eq]
    have sane := run_sane lower (front ++ back)
    generalize run isWhiteSpace toLowerInvariant (front ++ back) = st at sane
    unfold withoutTrailingSpace shown
    by_cases pending : st.2 = true
    · rw [if_pos pending, if_pos (by rw [List.getLast?_concat]), List.dropLast_concat]
    · rw [if_neg pending, if_neg]
      intro last
      have not_white := sane.last space last
      rw [white] at not_white
      cases not_white
  · rw [prefix_eq, query_eq]
    rintro (later | ends)
    · exact written later
    · refine List.IsPrefix.trans ?_ outputs
      -- nothing is pending behind a character that is no white space
      rcases List.eq_nil_or_concat front with rfl | ⟨lead, c, rfl⟩
      · exact List.prefix_rfl
      · rw [List.concat_eq_append] at ends ⊢
        have not_white := ends c (by rw [List.getLast?_concat]; rfl)
        rw [run_append, step, if_neg (by rw [not_white]; decide)]
        exact List.prefix_rfl
  · rw [prefix_eq (front ++ back), prefix_eq, run_shown lower white twice]
  · rw [query_eq (front ++ back), query_eq, run_output lower white twice]

/-- ASCII letters and the space. -/
theorem normalizePrefix_grows_ascii :
    let isWhiteSpace := fun c : Nat => c == 0x20
    let toLowerInvariant := fun c : Nat => if 0x41 ≤ c ∧ c ≤ 0x5A then c + 0x20 else c
    normalizePrefix isWhiteSpace toLowerInvariant [0x20, 0x48, 0x20] <+:
      normalizePrefix isWhiteSpace toLowerInvariant ([0x20, 0x48, 0x20] ++ [0x20, 0x49]) := by
  intro isWhiteSpace toLowerInvariant
  have spec := @normalizePrefix_grows isWhiteSpace toLowerInvariant rfl
    (by
      intro c not_white
      simp only [isWhiteSpace, toLowerInvariant, beq_eq_false_iff_ne] at *
      split_ifs <;> omega)
    (by
      intro c
      simp only [toLowerInvariant]
      split_ifs <;> omega)
    [0x20, 0x48, 0x20] [0x20, 0x49]
  exact spec.1

end HybridSearch.Broker.QueryNormalizer
