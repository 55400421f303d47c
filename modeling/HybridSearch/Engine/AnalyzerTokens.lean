/-
# Engine.AnalyzerTokens -- the tokens of an analysed text

A token has at most 255 code units, so its bytes are few and the stemmer can index
them: the analysis ends for every text that 32-bit offsets can address
(`analyzeWithOffsets_spec`).

With a tokenizer that was built from a property table without whitespace, the
tokens of a well-formed text are on its characters and hold no whitespace
(`analysed`).
-/
import HybridSearch.Engine.TokenizerTables
import HybridSearch.Engine.PorterSafety
import HybridSearch.Engine.SnippetWindow

namespace HybridSearch.Engine

open HybridSearch.Theory

set_option autoImplicit false

/-! ## Lengths -/

theorem utf8Decode_le_four (p : Bytes) : (utf8Decode p).2 ≤ 4 := by
  unfold utf8Decode
  dsimp only
  split_ifs <;> simp

theorem le_four_of_mem_codePoints {p : Bytes} {cp : Nat × Nat} (mem : cp ∈ codePoints p) :
    cp.2 ≤ 4 := by
  induction p using codePoints.induct with
  | case1 => simp [codePoints] at mem
  | case2 b rest ih =>
      rw [codePoints, List.mem_cons] at mem
      rcases mem with rfl | mem
      · exact utf8Decode_le_four _
      · exact ih mem

/-- A code point has at least one byte. -/
theorem length_codePoints_le (p : Bytes) : (codePoints p).length ≤ p.length := by
  have least := List.card_nsmul_le_sum ((codePoints p).map Prod.snd) 1 (by
    intro x mem
    obtain ⟨cp, held, rfl⟩ := List.mem_map.mp mem
    exact one_le_of_mem_codePoints held)
  rw [List.length_map, smul_eq_mul, Nat.mul_one] at least
  exact le_trans least (byteLength_codePoints p).le

theorem length_utf8Append_le (cp : Nat) : (utf8Append cp).length ≤ 4 := by
  unfold utf8Append
  split_ifs <;> simp

theorem length_utf16Units_le (cp : Nat) : (utf16Units cp).length ≤ 2 := by
  unfold utf16Units
  dsimp only
  split_ifs <;> simp

theorem length_flatMap_le {α β : Type} {f : α → List β} {k : Nat} {l : List α}
    (each : ∀ x ∈ l, (f x).length ≤ k) : (l.flatMap f).length ≤ k * l.length := by
  have most := List.sum_le_card_nsmul (l.map fun x => (f x).length) k (by
    intro n mem
    obtain ⟨x, held, rfl⟩ := List.mem_map.mp mem
    exact each x held)
  rw [List.length_map, smul_eq_mul, Nat.mul_comm] at most
  rwa [List.length_flatMap]

theorem length_stripPossessive_le (t : Bytes) : (stripPossessive t).length ≤ t.length := by
  unfold stripPossessive
  split
  · exact le_rfl
  · split_ifs
    · exact le_rfl
    · split
      · rw [List.length_take, List.length_dropLast]
        omega
      · exact le_rfl

theorem length_lowercaseInto_le (pairs : List LowerPair) (s : Bytes) :
    (lowercaseInto pairs s).length ≤ 4 * s.length := by
  have grown := @length_flatMap_le _ _ (fun cp : Nat × Nat => utf8Append (toLower pairs cp.1)) 4
    (codePoints s) fun cp _ => length_utf8Append_le _
  have fewer := length_codePoints_le s
  unfold lowercaseInto
  omega

/-- **Stemming ends** on every bytes that are few enough, well formed or not. -/
theorem stemInPlace_ok (j : Int) {t : Bytes} (short : t.length < 2 ^ 30) :
    ∃ t', stemInPlace j t = .ok t' := by
  unfold stemInPlace
  split
  · obtain ⟨b, n, run, length, fits, -⟩ :=
      @PorterStemmer.stem_spec j (t.map UInt8.toNat) (by rw [List.length_map]; omega)
    refine ⟨(b.take n).map UInt8.ofNat, ?_⟩
    unfold stemAscii
    rw [run]
    simp only [bind, Except.bind, pure, Except.pure]
    rw [if_neg (by omega)]
  · have units := @length_flatMap_le _ _ (fun cp : Nat × Nat => utf16Units cp.1) 2 (codePoints t)
      fun cp _ => length_utf16Units_le _
    have fewer := length_codePoints_le t
    obtain ⟨b, n, run, length, fits, -⟩ :=
      @PorterStemmer.stem_spec j ((codePoints t).flatMap fun cp => utf16Units cp.1) (by omega)
    refine ⟨utf16Bytes (b.take n), ?_⟩
    unfold stemUtf16
    dsimp only
    rw [run]
    simp only [bind, Except.bind, pure, Except.pure]
    rw [if_neg (by omega)]

/-! ## The analysis ends -/

namespace StandardTokenizer

variable {t : StandardTokenizer} {text : Bytes}

theorem length_le_weightOf (m : List (Nat × Nat)) : m.length ≤ t.scanner.weightOf m := by
  induction m with
  | nil => exact Nat.zero_le _
  | cons cp m ih =>
      have one : 1 ≤ t.scanner.weight cp := by
        change 1 ≤ units cp.1
        unfold units
        split <;> omega
      rw [Munch.Scanner.weightOf_cons, List.length_cons]
      omega

/-- A token is within the text, and has at most four bytes for each of 255 units. -/
theorem Tokenized.span {toks : List RawToken} (tokenized : t.Tokenized text toks) {tok : RawToken}
    (mem : tok ∈ toks) : tok.start < tok.stop ∧ tok.stop ≤ text.length ∧
      tok.stop ≤ tok.start + 1020 := by
  obtain ⟨front, m, back, cut, start, stop, ⟨-, -, light, -⟩, -⟩ := tokenized.longest tok mem
  have whole := byteLength_codePoints text
  have few := @length_le_weightOf t m
  have bytes := List.sum_le_card_nsmul (m.map Prod.snd) 4 (by
    intro n size
    obtain ⟨cp, held, rfl⟩ := List.mem_map.mp size
    apply @le_four_of_mem_codePoints text
    rw [cut]
    exact List.mem_append_right _ (List.mem_append_left _ held))
  rw [List.length_map, smul_eq_mul] at bytes
  have size : byteLength m ≤ m.length * 4 := bytes
  rw [cut, ← List.append_assoc, byteLength_append, ← stop] at whole
  rw [byteLength_append, ← start] at stop
  have units : m.length ≤ 255 := le_trans few light
  exact ⟨tokenized.nonempty tok mem, by omega, by omega⟩

end StandardTokenizer

namespace Analyzer

variable (a : Analyzer) {text : Bytes}

/-- **One token**: it is dropped, or kept with its span. -/
theorem chainStep_spec (out : List AnalyzedToken) {rt : RawToken} (inside : rt.stop ≤ text.length)
    (ordered : rt.start ≤ rt.stop) (few : rt.stop ≤ rt.start + 1020) (short : text.length < 2 ^ 32) :
    a.chainStep text out rt = .ok out ∨
      ∃ term, a.chainStep text out rt = .ok (out ++ [⟨term, rt.start, rt.stop⟩]) := by
  have width : sub32 rt.stop rt.start = rt.stop - rt.start := by
    apply Snippet.sub32_eq ordered
    omega
  unfold chainStep
  rw [if_neg (by omega), width]
  dsimp only
  split
  · exact .inl rfl
  · have sliced : ((text.drop rt.start).take (rt.stop - rt.start)).length ≤ 1020 := by
      rw [List.length_take]
      omega
    have stripped := length_stripPossessive_le ((text.drop rt.start).take (rt.stop - rt.start))
    have lowered := length_lowercaseInto_le a.lowerPairs
      (stripPossessive ((text.drop rt.start).take (rt.stop - rt.start)))
    obtain ⟨term, stemmed⟩ := @stemInPlace_ok 0 _ (lt_of_le_of_lt lowered (by omega))
    rw [stemmed]
    exact .inr ⟨term, rfl⟩

/-- The span of an analysed token. -/
def spanOf (tok : AnalyzedToken) : RawToken := ⟨tok.start, tok.stop⟩

theorem foldlM_chainStep (short : text.length < 2 ^ 32) {rts : List RawToken}
    (spans : ∀ rt ∈ rts, rt.start < rt.stop ∧ rt.stop ≤ text.length ∧ rt.stop ≤ rt.start + 1020)
    (out : List AnalyzedToken) : ∃ kept, rts.foldlM (a.chainStep text) out = .ok (out ++ kept) ∧
      (kept.map spanOf).Sublist rts := by
  induction rts generalizing out with
  | nil => exact ⟨[], by rw [List.append_nil]; rfl, .slnil⟩
  | cons rt rts ih =>
      obtain ⟨⟨ordered, inside, few⟩, spans⟩ := List.forall_mem_cons.mp spans
      rw [List.foldlM_cons]
      rcases a.chainStep_spec out inside ordered.le few short with dropped | ⟨term, kept⟩
      · rw [dropped]
        obtain ⟨rest, run, sub⟩ := ih spans out
        exact ⟨rest, run, sub.cons _⟩
      · rw [kept]
        obtain ⟨rest, run, sub⟩ := ih spans (out ++ [⟨term, rt.start, rt.stop⟩])
        refine ⟨⟨term, rt.start, rt.stop⟩ :: rest, ?_, sub.cons_cons _⟩
        rw [List.append_assoc] at run
        exact run

/-- **The analysis ends**, and the spans it keeps are tokens of the tokenizer, in order. -/
theorem analyzeWithOffsets_spec (short : text.length < 2 ^ 32) :
    ∃ toks, a.analyzeWithOffsets text = .ok toks ∧
      (toks.map spanOf).Sublist (a.tokenizer.tokenize text) := by
  have tokenized := a.tokenizer.tokenized_tokenize short
  obtain ⟨kept, run, sub⟩ := a.foldlM_chainStep short (fun rt mem => tokenized.span mem) []
  exact ⟨kept, run, sub⟩

end Analyzer

/-! ## The tokens of a well-formed text -/

theorem propMask_of_lt {ranges : List PropRange} {cp : Nat} (below : ∀ r ∈ ranges, cp < r.lo) :
    propMask ranges cp = 0 := by
  have none : ranges.takeWhile (fun r => decide (r.lo ≤ cp)) = [] := by
    cases ranges with
    | nil => rfl
    | cons r rest =>
        have here := below r List.mem_cons_self
        rw [List.takeWhile_cons_of_neg (by simpa using here)]
  rw [propMask, none]
  rfl

theorem space_lt {b : UInt8} (space : isSpace b = true) : b.toNat < 0x22 := by
  unfold isSpace at space
  simp only [Bool.or_eq_true, decide_eq_true_eq] at space
  rcases space with ((rfl | rfl) | rfl) | rfl <;> decide

/-- No character of a token is whitespace, where the property table has none. -/
theorem plain_of_accepts {ranges : List PropRange} {t : StandardTokenizer}
    (built : StandardTokenizer.Built ranges t) (clean : ∀ r ∈ ranges, 0x22 ≤ r.lo) {word : List Char}
    (accepts : t.scanner.Accepts (word.map fun c => (c.val.toNat, (String.utf8EncodeChar c).length))) :
    ∀ b ∈ Utf8.encode word, isSpace b = false := by
  intro b mem
  obtain ⟨c, held, inside⟩ := List.mem_flatMap.mp mem
  rw [Bool.eq_false_iff]
  intro space
  have value := Utf8.val_of_ascii_mem inside (Snippet.space_ascii space)
  have small := space_lt space
  refine built.property_of_accepts ?_ accepts _ (List.mem_map_of_mem held) ?_
  · intro cp mem
    obtain ⟨c', -, rfl⟩ := List.mem_map.mp mem
    exact Nat.lt_succ_of_le (Utf16.valid_le c')
  · apply propMask_of_lt
    intro r inTable
    have := clean r inTable
    dsimp only
    omega

/-- **The analysed tokens of a well-formed text**, for a tokenizer built from a table without
whitespace. -/
theorem analysed {ranges : List PropRange} {a : Analyzer}
    (built : StandardTokenizer.Built ranges a.tokenizer) (clean : ∀ r ∈ ranges, 0x22 ≤ r.lo)
    {text : Bytes} (wellFormed : Utf8.WellFormed text) (short : text.length < 2 ^ 32) :
    ∃ toks, a.analyzeWithOffsets text = .ok toks ∧ Analysed text toks := by
  have tokenized := a.tokenizer.tokenized_tokenize short
  obtain ⟨toks, run, sub⟩ := a.analyzeWithOffsets_spec short
  have isToken : ∀ tok ∈ toks, Analyzer.spanOf tok ∈ a.tokenizer.tokenize text := fun tok held =>
    sub.subset (List.mem_map_of_mem held)
  refine ⟨toks, run, fun tok held => tokenized.nonempty _ (isToken tok held), ?_, ?_, ?_⟩
  · have ordered := tokenized.ordered.sublist sub
    rw [List.pairwise_map] at ordered
    exact ordered
  · intro tok held
    obtain ⟨front, m, back, cut, start, stop, -⟩ := tokenized.longest _ (isToken tok held)
    have start : tok.start = byteLength front := start
    have stop : tok.stop = byteLength (front ++ m) := stop
    rw [start, stop]
    exact ⟨boundary_of_codePoints wellFormed cut,
      boundary_of_codePoints wellFormed (by rw [cut, List.append_assoc])⟩
  · intro tok held i lower upper
    obtain ⟨front, m, back, cut, start, stop, ⟨-, -, -, accepts⟩, -⟩ :=
      tokenized.longest _ (isToken tok held)
    have start : tok.start = byteLength front := start
    have stop : tok.stop = byteLength (front ++ m) := stop
    obtain ⟨chars, rfl⟩ := wellFormed
    rw [codePoints_encode] at cut
    obtain ⟨lead, tail, rfl, rfl, splitTail⟩ := List.map_eq_append_iff.mp cut
    obtain ⟨word, rest, rfl, rfl, rfl⟩ := List.map_eq_append_iff.mp splitTail
    have plain := plain_of_accepts built clean accepts
    have size : ∀ chars : List Char, byteLength (chars.map fun c =>
        (c.val.toNat, (String.utf8EncodeChar c).length)) = (Utf8.encode chars).length := by
      intro chars
      rw [← codePoints_encode, byteLength_codePoints]
    rw [size] at start
    rw [← List.map_append, size, Utf8.encode_append, List.length_append, ← start] at stop
    -- the byte is one of the token's characters
    have here : Snippet.byteAt (Utf8.encode (lead ++ (word ++ rest))) i ∈ Utf8.encode word := by
      have inside : i - tok.start < (Utf8.encode word).length := by omega
      have byte_eq : (Utf8.encode (lead ++ (word ++ rest)))[i]? = (Utf8.encode word)[i - tok.start]? := by
        rw [Utf8.encode_append, Utf8.encode_append, List.getElem?_append_right (by omega), ← start,
          List.getElem?_append_left inside]
      rw [Snippet.byteAt, List.getD_eq_getElem?_getD, byte_eq, List.getElem?_eq_getElem inside,
        Option.getD_some]
      exact List.getElem_mem inside
    exact plain _ here

end HybridSearch.Engine
