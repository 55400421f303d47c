/-
# Engine.SnippetNonempty -- when a snippet has a window

A window that is to hold a hit is not empty, also where the sum for its right edge
wraps: the right edge is then before the left one, and their difference wraps back
(`edges_hit`).  Without a hit the place to hold is `s = e = 0`, and the right edge
moves down to the last whitespace within the limit; where there is none it stops at
0, and the test that was to put it back takes whitespace at 0 for the end of a word.
So the window of a text that begins with whitespace is empty, unless a word ends
within the limit (`edges_nil_iff`).

The length is a `uint32_t`: a text of a multiple of `2 ^ 32` bytes has no window either.
-/
import HybridSearch.Engine.AnalyzerTokens

namespace HybridSearch.Engine

open HybridSearch.Theory

set_option autoImplicit false

namespace Snippet

variable {text : Bytes} {maxChars : Nat}

/-- A word ends within the limit: there is whitespace with a byte before it that is none. -/
def WordEnds (text : Bytes) (maxChars : Nat) : Prop :=
  ∃ k ≤ maxChars, spaceAt text k = true ∧ ∃ i < k, spaceAt text i = false

/-! ## Without a hit -/

section NoHit

variable {len : Nat} (wellFormed : Utf8.WellFormed text) (within : len ≤ text.length)
  (longer : maxChars < len) (four : 4 ≤ maxChars)

include wellFormed within longer

omit longer in
theorem not_cont_of_boundary_lt {b : Nat} (boundary : Utf8.Boundary text b) (inside : b < len) :
    contAt text b = false := by
  have := not_cont_of_boundary wellFormed boundary
  rwa [decide_eq_true (by omega), Bool.true_and] at this

include four

/-- **The right edge without a hit** is the last whitespace within the limit; where there is
none it is 0 or inside the first characters, as the text begins with whitespace or not. -/
theorem pullRight_nil :
    Utf8.Boundary text (pullRight text len 0 0 maxChars) ∧ pullRight text len 0 0 maxChars ≤ maxChars ∧
    ((0 < pullRight text len 0 0 maxChars ∧ spaceAt text (pullRight text len 0 0 maxChars) = true ∧
      ∀ k, pullRight text len 0 0 maxChars < k → k ≤ maxChars → spaceAt text k = false) ∨
    ((∀ k, 0 < k → k ≤ maxChars → spaceAt text k = false) ∧
      (0 < pullRight text len 0 0 maxChars ↔ spaceAt text 0 = false))) := by
  obtain ⟨high, stops, after⟩ := @Scan.down_spec
    (fun p => decide (0 < p) && !spaceAt text p) len maxChars 0
    (fun q holds => by simp at holds; omega) (by omega)
  unfold pullRight
  rw [if_pos longer]
  dsimp only
  generalize Scan.down (fun p => decide (0 < p) && !spaceAt text p) len maxChars = p at *
  have plain : ∀ k, p < k → k ≤ maxChars → spaceAt text k = false := by
    intro k above upTo
    have := after k above upTo
    simp only [Bool.and_eq_true, Bool.not_eq_true'] at this
    exact this.2
  rcases Nat.eq_zero_or_pos p with rfl | positive
  · by_cases space : spaceAt text 0 = true
    · rw [if_pos (.inr ⟨rfl, .inr space⟩), space, Scan.down_of_false (by simp)]
      exact ⟨Utf8.boundary_zero wellFormed, Nat.zero_le _, .inr ⟨plain, by simp⟩⟩
    · have word : spaceAt text 0 = false := Bool.eq_false_iff.mpr space
      rw [if_neg (by rintro (less | ⟨-, last | space'⟩) <;> [omega; omega; exact space space']), word]
      -- the first character ends at most three bytes before the limit
      obtain ⟨b, boundary, le, near⟩ := Utf8.exists_boundary_le wellFormed (longer.le.trans within)
      obtain ⟨upTo, ends, above⟩ := @Scan.down_spec
        (fun q => decide (0 < q) && decide (q < len) && contAt text q) len maxChars 0
        (fun q holds => by simp at holds; omega) (by omega)
      have first : 0 < Scan.down (fun q => decide (0 < q) && decide (q < len) && contAt text q) len
          maxChars := by
        by_contra none
        have := above b (by omega) le
        rw [not_cont_of_boundary_lt wellFormed within boundary (by omega), Bool.and_false] at this
        exact absurd this (by decide)
      refine ⟨?_, upTo, .inr ⟨plain, iff_of_true first rfl⟩⟩
      apply boundary_of_not_cont wellFormed (by omega)
      rw [decide_eq_true first, decide_eq_true (show _ < len by omega), Bool.true_and,
        Bool.true_and] at ends
      rw [ends, Bool.and_false]
  · have space : spaceAt text p = true := by simpa [positive] using stops
    have boundary := (boundary_of_space wellFormed (show p < text.length by omega) space).1
    rw [if_pos (.inl positive), Scan.down_of_false (by
      rw [not_cont_of_boundary_lt wellFormed within boundary (by omega), Bool.and_false])]
    exact ⟨boundary, high, .inl ⟨positive, space, plain⟩⟩

/-- **The window without a hit.** -/
theorem edges_nil_iff (short : len < 2 ^ 32) :
    (edges text [] maxChars len).2 < 2 ^ 32 ∧ (edges text [] maxChars len).2 ≤ text.length ∧
    (edges text [] maxChars len).1 ≤ (edges text [] maxChars len).2 ∧
    ((edges text [] maxChars len).1 < (edges text [] maxChars len).2 ↔
      spaceAt text 0 = false ∨ WordEnds text maxChars) := by
  have start := Utf8.boundary_zero wellFormed
  obtain ⟨-, -, -, -, whole⟩ := widen_spec (Nat.le_refl 0) (Nat.zero_le _) (Nat.zero_le _) longer short
    (by unfold widened; omega)
  obtain ⟨boundary, upTo, moved⟩ := pullRight_nil wellFormed within longer four
  unfold edges
  rw [core, if_pos rfl]
  dsimp only
  rw [whole rfl rfl]
  dsimp only
  rw [pullLeft, if_neg (Nat.lt_irrefl 0)]
  generalize pullRight text len 0 0 maxChars = r at *
  obtain ⟨-, apart, upToRight, -, -, trimmed, kept⟩ :=
    trim_spec wellFormed (Nat.zero_le r) (upTo.trans longer.le) within start boundary
  refine ⟨by omega, by omega, apart, ?_⟩
  -- what is left is not empty where some byte before the right edge is no whitespace
  have full : (trim text len 0 r).1 < (trim text len 0 r).2 ↔
      ∃ i < r, spaceAt text i = false := by
    constructor
    · intro less
      exact ⟨_, by omega, (trimmed less).1⟩
    · rintro ⟨i, before, plain⟩
      have := kept i (Nat.zero_le i) before plain
      omega
  rw [full]
  rcases moved with ⟨positive, space, plain⟩ | ⟨unbroken, opens⟩
  · constructor
    · rintro ⟨i, before, word⟩
      exact .inr ⟨r, upTo, space, i, before, word⟩
    · rintro (word | ⟨k, limit, space', i, before, word⟩)
      · exact ⟨0, positive, word⟩
      · have reaches : k ≤ r := by
          by_contra beyond
          rw [plain k (by omega) limit] at space'
          cases space'
        exact ⟨i, by omega, word⟩
  · constructor
    · rintro ⟨i, before, -⟩
      exact .inl (opens.mp (by omega))
    · rintro (word | ⟨k, limit, space, i, before, -⟩)
      · exact ⟨0, opens.mpr word, word⟩
      · rw [unbroken k (by omega) limit] at space
        cases space

end NoHit

/-! ## With a hit -/

section WithHit

variable {hits : List Hit} (wellFormed : Utf8.WellFormed text) (placed : Placed text hits)
  (short : text.length < 2 ^ 32) (longer : maxChars < text.length) (four : 4 ≤ maxChars)

include placed short longer

/-- **The place that holds hits** starts with a hit and reaches to the end of one, or is cut inside. -/
theorem core_hit (full : hits ≠ []) : ∃ i < hits.length, ∃ e,
    core hits maxChars text.length = ((hitAt hits i).start, e) ∧ (hitAt hits i).start ≤ e ∧
      e ≤ text.length ∧ e - (hitAt hits i).start ≤ maxChars ∧
      ((∃ k, i ≤ k ∧ k < hits.length ∧ e = (hitAt hits k).stop) ∨
        e = (hitAt hits i).start + maxChars) := by
  obtain ⟨i, inside, is, -⟩ :=
    bestStep_foldl hits maxChars hits.length (List.length_pos_of_ne_nil full)
  have most := reach_le maxChars inside
  -- the window at a hit ends behind a hit
  obtain ⟨k, later, inside', last⟩ : ∃ k, i ≤ k ∧ k < hits.length ∧
      (windowAt hits maxChars i).2 - 1 = k := by
    rw [windowAt_eq maxChars inside]
    dsimp only
    split_ifs with alone
    · exact ⟨i, le_rfl, inside, Nat.add_sub_cancel _ _⟩
    · exact ⟨i + reach hits maxChars i - 1, by omega, by omega, rfl⟩
  have start := placed.start_lt inside
  have stop := placed.stop_le inside'
  have mono := placed.stop_mono later inside'
  refine ⟨i, inside, if maxChars < (hitAt hits k).stop - (hitAt hits i).start then
    (hitAt hits i).start + maxChars else (hitAt hits k).stop, ?_, ?_⟩
  · rw [core, if_neg full, bestWindow, is]
    dsimp only
    rw [last, Nat.max_eq_left (by omega), Nat.min_eq_right stop, sub32_eq (by omega) (by omega)]
    split_ifs
    · rw [u32, Nat.mod_eq_of_lt (by omega)]
    · rfl
  · split_ifs
    · exact ⟨by omega, by omega, by omega, .inr rfl⟩
    · exact ⟨by omega, stop, by omega, .inl ⟨k, later, inside', rfl⟩⟩

omit placed in
/-- **Where the sum for the right edge wraps**, the edge is a turn of the `uint32_t` too low. -/
theorem widen_wrapped {s e : Nat} (ordered : s ≤ e) (within : e ≤ text.length) (fits : e - s ≤ maxChars)
    (wraps : 2 ^ 32 ≤ widened maxChars s e) : ∃ l ≤ s, s < l + maxChars ∧ 2 ^ 32 ≤ l + maxChars ∧
      widen maxChars text.length s e = (l, l + maxChars - 2 ^ 32) := by
  unfold widened at wraps
  refine ⟨s - min s ((maxChars - (e - s)) / 2), by omega, by omega, by omega, ?_⟩
  unfold widen
  dsimp only
  rw [sub32_eq ordered (by omega), sub32_eq fits (by omega)]
  generalize growth : min s ((maxChars - (e - s)) / 2) = growLeft at wraps ⊢
  rw [sub32_eq (show growLeft ≤ s by omega) (by omega),
    sub32_eq (show growLeft ≤ maxChars - (e - s) by omega) (by omega)]
  have sum : u32 (e + (maxChars - (e - s) - growLeft)) = s - growLeft + maxChars - 2 ^ 32 := by
    rw [u32, show e + (maxChars - (e - s) - growLeft) = s - growLeft + maxChars - 2 ^ 32 + 2 ^ 32 by omega,
      Nat.add_mod_right, Nat.mod_eq_of_lt (by omega)]
  have width : sub32 (s - growLeft + maxChars - 2 ^ 32) (s - growLeft) = maxChars := by
    unfold sub32 u32
    omega
  rw [sum, Nat.min_eq_right (by omega), width, if_neg (Nat.lt_irrefl _)]

omit placed short longer in
/-- A right edge that lies behind the core and the left edge stays where it is. -/
theorem pullRight_crossed {e left right : Nat} (behind : ¬ e < right) (crossed : ¬ left < right) :
    pullRight text text.length e left right = right := by
  have word_stays : Scan.down (fun p => decide (e < p) && !spaceAt text p) text.length right =
      right := Scan.down_of_false (by rw [decide_eq_false behind, Bool.false_and])
  have character_stays : Scan.down (fun q => decide (left < q) && decide (q < text.length) &&
      contAt text q) text.length right = right :=
    Scan.down_of_false (by rw [decide_eq_false crossed, Bool.false_and, Bool.false_and])
  rw [pullRight]
  split_ifs
  · dsimp only
    rw [word_stays, ite_self, character_stays]
  · rfl

omit placed short longer in
theorem trim_crossed {left right : Nat} (crossed : ¬ left < right) :
    trim text text.length left right = (left, right) := by
  rw [trim, Scan.up_of_false (by rw [decide_eq_false crossed, Bool.false_and]),
    Scan.down_of_false (by rw [decide_eq_false crossed, Bool.false_and])]

include wellFormed four

/-- **A window that is to hold a hit** is not empty. -/
theorem edges_hit (full : hits ≠ []) :
    (edges text hits maxChars text.length).1 < text.length ∧
      0 < sub32 (edges text hits maxChars text.length).2 (edges text hits maxChars text.length).1 := by
  obtain ⟨i, inside, e, is, ordered, within, fits, ends⟩ := core_hit placed short longer full
  have start := placed.start_lt inside
  have stop := placed.stop_le inside
  have boundary := (placed.boundary _ (hitAt_mem inside)).1
  by_cases room : widened maxChars (hitAt hits i).start e < 2 ^ 32
  · obtain ⟨edged, kept⟩ := edges_of_core wellFormed short longer is ordered within fits room boundary
    obtain ⟨b, isBoundary, le, after⟩ : ∃ b, Utf8.Boundary text b ∧ b ≤ e ∧ (hitAt hits i).start < b := by
      rcases ends with ⟨k, later, inside', rfl⟩ | rfl
      · have mono := placed.stop_mono later inside'
        exact ⟨_, (placed.boundary _ (hitAt_mem inside')).2, le_rfl, by omega⟩
      · obtain ⟨b, isBoundary, le, near⟩ := Utf8.exists_boundary_le wellFormed within
        exact ⟨b, isBoundary, le, by omega⟩
    have held := kept b isBoundary le (hitAt hits i).start le_rfl after
      (placed.unspaced _ (hitAt_mem inside) _ le_rfl start)
    have reaches := edged.within
    rw [sub32_eq (by omega) (by omega)]
    omega
  · obtain ⟨l, low, across, turn, widens⟩ :=
      widen_wrapped short longer ordered within fits (not_lt.mp room)
    obtain ⟨up, upTo, -⟩ := pullLeft_spec wellFormed low (ordered.trans within) boundary
    unfold edges
    rw [is]
    dsimp only
    rw [widens]
    dsimp only
    generalize pullLeft text text.length (hitAt hits i).start l = left at *
    generalize edge : l + maxChars - 2 ^ 32 = right
    rw [pullRight_crossed (by omega) (by omega), trim_crossed (by omega)]
    dsimp only
    refine ⟨by omega, ?_⟩
    unfold sub32 u32
    omega

end WithHit

end Snippet

section Window

variable {text : Bytes} {toks : List AnalyzedToken} {terms : List Bytes} {maxChars : Nat}

/-- A slice that starts inside the text and has a length is not empty. -/
theorem Snippet.slice_ne_nil {l n : Nat} (inside : l < text.length) (positive : 0 < n) :
    (text.drop l).take n ≠ [] := by
  rw [← List.length_pos_iff_ne_nil, List.length_take, List.length_drop]
  omega

/-- A text whose length, as it is narrowed, is within the limit is the window as far as that
length goes. -/
theorem selectSnippet_uncut_iff (fits : text.length % 2 ^ 32 ≤ maxChars) :
    (selectSnippet toks text terms maxChars).window ≠ [] ↔ text.length % 2 ^ 32 ≠ 0 := by
  have notCut : (decide (maxChars ≠ 0) && decide (maxChars < text.length % 2 ^ 32)) = false := by
    rw [decide_eq_false (not_lt.mpr fits), Bool.and_false]
  have narrowed := Nat.mod_lt text.length (show 0 < 2 ^ 32 by decide)
  have atMost := Nat.mod_le text.length (2 ^ 32)
  unfold selectSnippet u32
  dsimp only
  rw [notCut, if_neg Bool.false_ne_true]
  dsimp only
  rw [Snippet.sub32_eq (Nat.zero_le _) narrowed, Nat.sub_zero, List.drop_zero,
    ← List.length_pos_iff_ne_nil, List.length_take]
  omega

/-- The window of a text that is cut. -/
theorem selectSnippet_cut (four : 4 ≤ maxChars) (longer : maxChars < text.length % 2 ^ 32) :
    (selectSnippet toks text terms maxChars).window =
      (text.drop (Snippet.edges text (Snippet.hitsOf toks terms) maxChars
        (text.length % 2 ^ 32)).1).take
        (sub32 (Snippet.edges text (Snippet.hitsOf toks terms) maxChars (text.length % 2 ^ 32)).2
          (Snippet.edges text (Snippet.hitsOf toks terms) maxChars (text.length % 2 ^ 32)).1) := by
  have isCut : (decide (maxChars ≠ 0) && decide (maxChars < text.length % 2 ^ 32)) = true := by
    rw [decide_eq_true longer, decide_eq_true (show maxChars ≠ 0 by omega), Bool.and_true]
  unfold selectSnippet u32
  dsimp only
  rw [isCut, if_pos rfl]

/-- **Without a hit.** -/
theorem selectSnippet_nil_iff (wellFormed : Utf8.WellFormed text) (four : 4 ≤ maxChars)
    (longer : maxChars < text.length % 2 ^ 32) (none : ∀ t ∈ toks, t.term ∉ terms) :
    (selectSnippet toks text terms maxChars).window ≠ [] ↔
      Snippet.spaceAt text 0 = false ∨ Snippet.WordEnds text maxChars := by
  have narrowed := Nat.mod_lt text.length (show 0 < 2 ^ 32 by decide)
  obtain ⟨small, within, ordered, exactly⟩ := Snippet.edges_nil_iff wellFormed
    (Nat.mod_le text.length (2 ^ 32)) longer four narrowed
  rw [selectSnippet_cut four longer, Snippet.hitsOf_eq_nil_iff.mpr none,
    Snippet.sub32_eq ordered small, ← exactly, ← List.length_pos_iff_ne_nil,
    Snippet.length_slice within]
  omega

/-- **With a hit** there is a window. -/
theorem selectSnippet_hit (wellFormed : Utf8.WellFormed text) (short : text.length < 2 ^ 32)
    (analysed : Analysed text toks) (four : 4 ≤ maxChars) (longer : maxChars < text.length)
    (hit : ∃ t ∈ toks, t.term ∈ terms) : (selectSnippet toks text terms maxChars).window ≠ [] := by
  have full : Snippet.hitsOf toks terms ≠ [] := by
    rw [Ne, Snippet.hitsOf_eq_nil_iff]
    push Not
    exact hit
  obtain ⟨inside, positive⟩ := Snippet.edges_hit wellFormed
    (@Snippet.hitsOf_placed text toks terms analysed) short longer four full
  have len : text.length % 2 ^ 32 = text.length := Nat.mod_eq_of_lt short
  rw [selectSnippet_cut four (by rwa [len]), len]
  exact Snippet.slice_ne_nil inside positive

/-- **When the window is not empty**, for the tokens of a well-formed text. -/
theorem selectSnippet_window_iff (wellFormed : Utf8.WellFormed text) (short : text.length < 2 ^ 32)
    (analysed : Analysed text toks) (four : 4 ≤ maxChars) (full : text ≠ []) :
    (selectSnippet toks text terms maxChars).window ≠ [] ↔ text.length ≤ maxChars ∨
      (∃ t ∈ toks, t.term ∈ terms) ∨ Snippet.spaceAt text 0 = false ∨
        Snippet.WordEnds text maxChars := by
  have len : text.length % 2 ^ 32 = text.length := Nat.mod_eq_of_lt short
  rcases Nat.lt_or_ge maxChars text.length with longer | fits
  · by_cases hit : ∃ t ∈ toks, t.term ∈ terms
    · exact iff_of_true (selectSnippet_hit wellFormed short analysed four longer hit) (.inr (.inl hit))
    · have none : ∀ t ∈ toks, t.term ∉ terms := by
        push Not at hit
        exact hit
      rw [selectSnippet_nil_iff wellFormed four (len.symm ▸ longer) none]
      simp only [not_le.mpr longer, hit, false_or]
  · refine iff_of_true ((selectSnippet_uncut_iff (len.symm ▸ fits)).mpr ?_) (.inl fits)
    rw [len]
    exact List.length_pos_iff_ne_nil.mpr full |>.ne'

end Window

/-- **When a snippet has a window**: below `2 ^ 32` bytes, where the text is no longer than the
limit, some token of it is a query term, it begins with a word, or a word ends within the limit.
From there on the length is narrowed to `uint32_t`, and a text whose narrowed length is 0 has no
window; the rest is as below it, but for a cut text with a hit, whose place is narrowed too. -/
theorem selectSnippet_nonempty_iff (ranges : List PropRange) (tokenizer : StandardTokenizer)
    (constructed : StandardTokenizer.construct ranges = .ok tokenizer)
    (clean : ∀ r ∈ ranges, 0x22 ≤ r.lo) (lowerPairs : List LowerPair) (text : Bytes)
    (terms : List Bytes) (maxChars : Nat) (wellFormed : Utf8.WellFormed text) (four : 4 ≤ maxChars)
    (word : ∃ i < maxChars - 3, i < text.length ∧ Snippet.spaceAt text i = false) :
    (text.length < 2 ^ 32 → ∃ toks sn,
      (Analyzer.mk tokenizer lowerPairs).analyzeWithOffsets text = .ok toks ∧
      (Analyzer.mk tokenizer lowerPairs).selectSnippet text terms maxChars = .ok sn ∧
      (sn.window ≠ [] ↔ text.length ≤ maxChars ∨ (∃ t ∈ toks, t.term ∈ terms) ∨
        Snippet.spaceAt text 0 = false ∨ Snippet.WordEnds text maxChars)) ∧
    ∀ toks, (Analyzer.mk tokenizer lowerPairs).analyzeWithOffsets text = .ok toks →
      (text.length % 2 ^ 32 ≤ maxChars ∨ ∀ t ∈ toks, t.term ∉ terms) → ∃ sn,
      (Analyzer.mk tokenizer lowerPairs).selectSnippet text terms maxChars = .ok sn ∧
      (sn.window ≠ [] ↔ text.length % 2 ^ 32 ≠ 0 ∧ (text.length % 2 ^ 32 ≤ maxChars ∨
        Snippet.spaceAt text 0 = false ∨ Snippet.WordEnds text maxChars)) := by
  constructor
  · intro short
    obtain ⟨toks, run, analysed⟩ := @analysed ranges ⟨tokenizer, lowerPairs⟩
      (StandardTokenizer.built_of_construct constructed) clean text wellFormed short
    have full : text ≠ [] := by
      obtain ⟨i, -, inside, -⟩ := word
      exact List.ne_nil_of_length_pos (by omega)
    refine ⟨toks, selectSnippet toks text terms maxChars, run, ?_,
      selectSnippet_window_iff wellFormed short analysed four full⟩
    rw [Analyzer.selectSnippet, run]
    rfl
  · intro toks run uncut
    refine ⟨selectSnippet toks text terms maxChars, by rw [Analyzer.selectSnippet, run]; rfl, ?_⟩
    rcases Nat.lt_or_ge maxChars (text.length % 2 ^ 32) with longer | fits
    · rw [selectSnippet_nil_iff wellFormed four longer (uncut.resolve_left (not_le.mpr longer))]
      simp only [not_le.mpr longer, false_or]
      exact (and_iff_right (by omega)).symm
    · rw [selectSnippet_uncut_iff fits]
      exact (and_iff_left (.inl fits)).symm

/-- Six hyphens hold no token; the window is the first four. -/
theorem selectSnippet_nonempty_iff_hyphens : ∃ tokenizer,
    StandardTokenizer.construct [] = .ok tokenizer ∧ ∃ sn,
      (Analyzer.mk tokenizer []).selectSnippet (List.replicate 6 0x2D) [] 4 = .ok sn ∧
      sn.window ≠ [] := by
  obtain ⟨tokenizer, constructed⟩ := StandardTokenizer.exists_construct_nil
  have wellFormed : Utf8.WellFormed (List.replicate 6 0x2D) := ⟨List.replicate 6 '-', by decide⟩
  obtain ⟨toks, sn, -, run, exactly⟩ := (selectSnippet_nonempty_iff [] tokenizer constructed
    (List.forall_mem_nil _) [] (List.replicate 6 0x2D) [] 4 wellFormed (by decide)
    ⟨0, by decide, by decide, by decide⟩).1 (by decide)
  exact ⟨tokenizer, constructed, sn, run, exactly.mpr (.inr (.inr (.inl (by decide))))⟩

/-- ` abcdefghij` with no query term and room for five bytes: whatever the analysis, the
window is empty. -/
theorem selectSnippet_empty : ∃ (text : Bytes) (terms : List Bytes) (maxChars : Nat),
    Utf8.WellFormed text ∧ 4 ≤ maxChars ∧
      (∃ i < maxChars - 3, i < text.length ∧ Snippet.spaceAt text i = false) ∧
      ∀ a : Analyzer, ∃ sn, a.selectSnippet text terms maxChars = .ok sn ∧ sn.window = [] := by
  refine ⟨[0x20, 0x61, 0x62, 0x63, 0x64, 0x65, 0x66, 0x67, 0x68, 0x69, 0x6A], [], 5,
    ⟨[' ', 'a', 'b', 'c', 'd', 'e', 'f', 'g', 'h', 'i', 'j'], by decide⟩, by decide,
    ⟨1, by decide, by decide, by decide⟩, fun a => ?_⟩
  obtain ⟨toks, run, -⟩ := @Analyzer.analyzeWithOffsets_spec a
    [0x20, 0x61, 0x62, 0x63, 0x64, 0x65, 0x66, 0x67, 0x68, 0x69, 0x6A] (by decide)
  refine ⟨selectSnippet toks _ [] 5, by rw [Analyzer.selectSnippet, run]; rfl, ?_⟩
  have none : Snippet.hitsOf toks [] = [] :=
    Snippet.hitsOf_eq_nil_iff.mpr fun t _ => List.not_mem_nil
  unfold selectSnippet
  rw [none]
  decide

end HybridSearch.Engine
