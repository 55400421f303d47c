/-
# Engine.PorterSafety -- the stemmer stays in its buffer and in its alphabet

Every step of the stemmer keeps `0 ≤ k < len` and edits the word at its end: it
cuts off ASCII units, writes ASCII units in their place, or drops the last of two
equal units (`Edits`).  So the stemmer never leaves its buffer, and a word that is
well-formed UTF-16, or all ASCII, stays so.
-/
import HybridSearch.Theory.Utf16
import HybridSearch.Engine.PorterCursor

namespace HybridSearch.Engine

open HybridSearch.Theory

set_option autoImplicit false

/-- The codes of a suffix. -/
def codes (s : List Char) : List Nat := s.map Char.toNat

/-- The characters of the stemmer's rules. -/
def isAscii (s : List Char) : Bool := s.all fun c => c.toNat < 0x80

/-! ## Edits of a word -/

/-- What the stemmer does to a word, at its end. -/
inductive Edits : List Nat → List Nat → Prop
  | refl (w : List Nat) : Edits w w
  | cut {w u v : List Nat} (edits : Edits w (u ++ v)) (ascii : ∀ x ∈ v, x < 0x80) : Edits w u
  | put {w u v : List Nat} (edits : Edits w u) (ascii : ∀ x ∈ v, x < 0x80) : Edits w (u ++ v)
  | undouble {w u : List Nat} {x : Nat} (edits : Edits w (u ++ [x, x])) : Edits w (u ++ [x])

namespace Edits

variable {w w' w'' : List Nat}

theorem trans (first : Edits w w') (second : Edits w' w'') : Edits w w'' := by
  induction second with
  | refl => exact first
  | cut _ ascii ih => exact .cut ih ascii
  | put _ ascii ih => exact .put ih ascii
  | undouble _ ih => exact .undouble ih

theorem wellFormed (edits : Edits w w') (wellFormed : Utf16.WellFormed w) :
    Utf16.WellFormed w' := by
  induction edits with
  | refl => exact wellFormed
  | cut _ ascii ih => exact ih.of_append_ascii ascii
  | put _ ascii ih => exact ih.append (Utf16.wellFormed_ascii ascii)
  | undouble _ ih => exact ih.undouble

theorem ascii (edits : Edits w w') (ascii : ∀ x ∈ w, x < 0x80) : ∀ x ∈ w', x < 0x80 := by
  induction edits with
  | refl => exact ascii
  | cut _ _ ih => exact fun x mem => ih x (List.mem_append_left _ mem)
  | put _ more ih => exact List.forall_mem_append.mpr ⟨ih, more⟩
  | undouble _ ih =>
      intro x mem
      refine ih x ?_
      rcases List.mem_append.mp mem with mem | mem
      · exact List.mem_append_left _ mem
      · exact List.mem_append_right _ (List.mem_cons.mpr (.inl (List.mem_singleton.mp mem)))

/-- One suffix replaced by another. -/
theorem replace {u v v' : List Nat} (edits : Edits w (u ++ v)) (old : ∀ x ∈ v, x < 0x80)
    (new : ∀ x ∈ v', x < 0x80) : Edits w (u ++ v') := .put (.cut edits old) new

end Edits

theorem codes_ascii {s : List Char} (all : isAscii s = true) : ∀ x ∈ codes s, x < 0x80 := by
  intro x mem
  obtain ⟨c, held, rfl⟩ := List.mem_map.mp mem
  exact of_decide_eq_true (List.all_eq_true.mp all c held)

@[simp] theorem length_codes (s : List Char) : (codes s).length = s.length := List.length_map _

namespace PorterStemmer

/-! ## Reading the buffer -/

theorem unitAt_eq {b : List Nat} {i : Int} (low : 0 ≤ i) (high : i < b.length) :
    unitAt b i = .ok (b.getD i.toNat 0) := by
  have inside : i.toNat < b.length := by omega
  rw [unitAt, if_neg (by omega), at?, List.getElem?_eq_getElem inside,
    List.getD_eq_getElem _ _ inside]

theorem cons_eq {b : List Nat} {i : Nat} (inside : i < b.length) : ∃ c, cons b i = .ok c := by
  induction i with
  | zero => exact ⟨_, by rw [cons, at?_eq_ok (List.getElem?_eq_getElem inside)]; rfl⟩
  | succ i ih =>
      obtain ⟨before, is⟩ := ih (by omega)
      rw [cons, at?_eq_ok (List.getElem?_eq_getElem inside), is]
      simp only [bind, Except.bind, pure, Except.pure]
      split
      · exact ⟨_, rfl⟩
      · split
        · exact ⟨_, rfl⟩
        · exact ⟨_, rfl⟩

/-- The measure: at most one run of consonants for two places, but for a first one. -/
theorem mFrom_eq {b : List Nat} {left i n : Nat} {vowels : Bool} (inside : i + left ≤ b.length) :
    ∃ x, mFrom b left i vowels n = .ok (n + x) ∧ 2 * x ≤ left + if vowels then 0 else 1 := by
  induction left generalizing i n vowels with
  | zero => exact ⟨0, rfl, Nat.zero_le _⟩
  | succ left ih =>
      obtain ⟨c, is⟩ := @cons_eq b i (by omega)
      rw [mFrom, is]
      simp only [bind, Except.bind]
      cases vowels with
      | true =>
          obtain ⟨x, run, most⟩ := @ih (i + 1) n c (by omega)
          refine ⟨x, run, ?_⟩
          cases c <;> simp at most ⊢ <;> omega
      | false =>
          cases c with
          | true =>
              obtain ⟨x, run, most⟩ := @ih (i + 1) (n + 1) true (by omega)
              refine ⟨x + 1, ?_, ?_⟩
              · simp only [Bool.false_eq_true, if_false, if_true, run]
                rw [Nat.add_right_comm, Nat.add_assoc]
              · simp at most ⊢
                omega
          | false =>
              obtain ⟨x, run, most⟩ := @ih (i + 1) n false (by omega)
              refine ⟨x, run, ?_⟩
              simp at most ⊢
              omega

theorem vowelFrom_eq {b : List Nat} {left i : Nat} (inside : i + left ≤ b.length) :
    ∃ v, vowelFrom b left i = .ok v ∧ (v = true → 1 ≤ left) := by
  induction left generalizing i with
  | zero => exact ⟨false, rfl, nofun⟩
  | succ left ih =>
      obtain ⟨c, is⟩ := @cons_eq b i (by omega)
      rw [vowelFrom, is]
      simp only [bind, Except.bind]
      cases c with
      | true =>
          obtain ⟨v, run, -⟩ := @ih (i + 1) (by omega)
          exact ⟨v, run, fun _ => by omega⟩
      | false => exact ⟨true, rfl, fun _ => by omega⟩

theorem endsAt_eq {b : List Nat} {s : List Char} {i : Nat} (inside : i + s.length ≤ b.length) :
    ∃ v, endsAt b s i = .ok v ∧ (v = true → (b.drop i).take s.length = codes s) := by
  induction s generalizing i with
  | nil => exact ⟨true, rfl, fun _ => by simp [codes]⟩
  | cons c s ih =>
      simp only [List.length_cons] at inside
      have here : i < b.length := by omega
      rw [endsAt, at?_eq_ok (List.getElem?_eq_getElem here)]
      simp only [bind, Except.bind]
      split
      · rename_i same
        obtain ⟨v, run, means⟩ := @ih (i + 1) (by omega)
        refine ⟨v, run, fun found => ?_⟩
        rw [List.length_cons, List.drop_eq_getElem_cons here, List.take_succ_cons, means found, same]
        rfl
      · exact ⟨false, rfl, nofun⟩

theorem write_eq {s : List Char} {o : Int} {b : List Nat} (low : 0 ≤ o)
    (high : o + s.length ≤ b.length) :
    write s o b = .ok (b.take o.toNat ++ codes s ++ b.drop (o.toNat + s.length)) := by
  induction s generalizing o b with
  | nil => simp [write, codes]
  | cons c s ih =>
      simp only [List.length_cons] at high
      have here : o.toNat < b.length := by omega
      rw [write, if_pos ⟨low, by omega⟩, ih (by omega) (by rw [List.length_set]; omega)]
      have next : (o + 1).toNat = o.toNat + 1 := by omega
      have head : (b.set o.toNat c.toNat).take (o.toNat + 1) = b.take o.toNat ++ [c.toNat] := by
        rw [List.take_add_one, List.getElem?_set_self here, List.take_set_of_le le_rfl]
        rfl
      have tail : (b.set o.toNat c.toNat).drop (o.toNat + 1 + s.length) =
          b.drop (o.toNat + (c :: s).length) := by
        rw [List.drop_set_of_lt (by omega), List.length_cons]
        congr 1
        omega
      rw [next, head, tail, List.append_assoc _ [_]]
      rfl

/-! ## The word and the range -/

/-- The units of the word as it is now. -/
def word (p : PorterStemmer) : List Nat := p.b.take (p.k + 1).toNat

/-- **The stemmer's invariant**: the last unit of the word is in the buffer. -/
structure InRange (n : Nat) (p : PorterStemmer) : Prop where
  length : p.b.length = n
  low : 0 ≤ p.k
  high : p.k < n

/-- A suffix found: `j` is where the rest of the word ends. -/
structure Ended (n : Nat) (p : PorterStemmer) (s : List Char) : Prop where
  inRange : InRange n p
  rest : p.j = p.k - s.length
  fits : -1 ≤ p.j
  word : p.word = p.b.take (p.j + 1).toNat ++ codes s

/-- A part of the stemmer ends in range, and has edited the word. -/
def Ends (n : Nat) (w : List Nat) (result : Except Fault PorterStemmer) : Prop :=
  ∃ p, result = .ok p ∧ InRange n p ∧ Edits w p.word

variable {n : Nat} {w : List Nat} {p : PorterStemmer} {s : List Char}

theorem Ends.bind {result : Except Fault PorterStemmer}
    {rest : PorterStemmer → Except Fault PorterStemmer} (ends : Ends n w result)
    (next : ∀ p, InRange n p → Edits w p.word → Ends n w (rest p)) : Ends n w (result >>= rest) := by
  obtain ⟨p, rfl, inRange, edits⟩ := ends
  exact next p inRange edits

theorem InRange.done (inRange : InRange n p) (edits : Edits w p.word) : Ends n w (.ok p) :=
  ⟨p, rfl, inRange, edits⟩

theorem m_eq (length : p.b.length = n) (inside : p.j < n) :
    ∃ x, p.m = .ok x ∧ (0 < x → 1 ≤ p.j) ∧ (1 < x → 3 ≤ p.j) := by
  obtain ⟨x, run, most⟩ := @mFrom_eq p.b (p.j + 1).toNat 0 0 true (by omega)
  rw [Nat.zero_add] at run
  simp only [if_true] at most
  exact ⟨x, run, fun _ => by omega, fun _ => by omega⟩

theorem vowelinstem_eq (length : p.b.length = n) (inside : p.j < n) :
    ∃ v, p.vowelinstem = .ok v ∧ (v = true → 0 ≤ p.j) := by
  obtain ⟨v, run, some⟩ := @vowelFrom_eq p.b (p.j + 1).toNat 0 (by omega)
  refine ⟨v, run, fun found => ?_⟩
  have := some found
  omega

theorem consAt_eq (length : p.b.length = n) {i : Int} (low : 0 ≤ i) (high : i < n) :
    ∃ c, p.consAt i = .ok c := by
  obtain ⟨c, is⟩ := @cons_eq p.b i.toNat (by omega)
  exact ⟨c, by rw [consAt, if_neg (by omega), is]⟩

theorem doublec_eq (length : p.b.length = n) {jj : Int} (high : jj < n) :
    ∃ v, p.doublec jj = .ok v ∧
      (v = true → 1 ≤ jj ∧ p.b.getD jj.toNat 0 = p.b.getD (jj - 1).toNat 0) := by
  unfold doublec
  split
  · exact ⟨false, rfl, nofun⟩
  · rename_i low
    obtain ⟨c, is⟩ := consAt_eq length (show 0 ≤ jj by omega) high
    rw [unitAt_eq (by omega) (by omega), unitAt_eq (by omega) (by omega), is]
    simp only [bind, Except.bind, pure, Except.pure]
    split
    · exact ⟨false, rfl, nofun⟩
    · rename_i same
      exact ⟨c, rfl, fun _ => ⟨by omega, not_not.mp same⟩⟩

theorem cvc_eq (length : p.b.length = n) {i : Int} (high : i < n) : ∃ v, p.cvc i = .ok v := by
  unfold cvc
  split
  · exact ⟨false, rfl⟩
  · rename_i low
    obtain ⟨last, isLast⟩ := consAt_eq length (show 0 ≤ i by omega) high
    obtain ⟨middle, isMiddle⟩ := consAt_eq length (show 0 ≤ i - 1 by omega) (by omega)
    obtain ⟨first, isFirst⟩ := consAt_eq length (show 0 ≤ i - 2 by omega) (by omega)
    rw [isLast, isMiddle, isFirst, unitAt_eq (by omega) (by omega)]
    simp only [bind, Except.bind, pure, Except.pure]
    split_ifs
    · exact ⟨_, rfl⟩
    · exact ⟨_, rfl⟩
    · exact ⟨_, rfl⟩
    · exact ⟨_, rfl⟩

/-- **`ends`**: no suffix and no change, or the suffix and `j` before it. -/
theorem InRange.ends_cases (inRange : InRange n p) (s : List Char) :
    p.ends s = .ok (false, p) ∨
    ∃ p', p.ends s = .ok (true, p') ∧ p'.word = p.word ∧ p'.k = p.k ∧ Ended n p' s := by
  have ⟨length, low, high⟩ := inRange
  unfold ends
  dsimp only
  split
  · exact .inl rfl
  · rename_i fits
    obtain ⟨v, run, means⟩ := @endsAt_eq p.b s (p.k - s.length + 1).toNat (by omega)
    rw [run]
    cases v with
    | false => exact .inl rfl
    | true =>
        refine .inr ⟨_, rfl, rfl, rfl, ⟨length, low, high⟩, rfl, by simp only [if_true]; omega, ?_⟩
        have lengths : (p.k + 1).toNat = (p.k - s.length + 1).toNat + s.length := by omega
        simp only [word, if_true, lengths, List.take_add, means rfl]

/-- **`setto`**: the rest and the new suffix. -/
theorem setto_eq (length : p.b.length = n) (low : -1 ≤ p.j) (high : p.j + s.length < n) :
    ∃ p', p.setto s = .ok p' ∧ p'.b.length = n ∧ p'.k = p.j + s.length ∧
      p'.word = p.b.take (p.j + 1).toNat ++ codes s := by
  have fits : (p.j + 1).toNat + s.length ≤ p.b.length := by omega
  unfold setto
  rw [write_eq (by omega) (by omega)]
  refine ⟨_, rfl, ?_, rfl, ?_⟩
  · simp only [List.length_append, List.length_take, List.length_drop, length_codes]
    omega
  · have last : (p.j + s.length + 1).toNat =
        (p.b.take (p.j + 1).toNat ++ codes s).length := by
      simp only [List.length_append, List.length_take, length_codes]
      omega
    simp only [word, last, List.take_left]

/-- A suffix replaced by one for which there is room. -/
theorem Ended.setto {s' : List Char} (ended : Ended n p s) (old : isAscii s = true) (new : isAscii s' = true)
    (edits : Edits w p.word) (low : 0 ≤ p.j + s'.length) (room : p.j + s'.length < n) :
    Ends n w (p.setto s') := by
  obtain ⟨p', is, length, k, word⟩ := setto_eq ended.inRange.length ended.fits room
  refine ⟨p', is, ⟨length, by omega, by omega⟩, ?_⟩
  rw [ended.word] at edits
  rw [word]
  exact edits.replace (codes_ascii old) (codes_ascii new)

/-- **`r`** with a suffix that is no longer than the one found. -/
theorem Ended.r {s' : List Char} (ended : Ended n p s) (old : isAscii s = true) (new : isAscii s' = true)
    (shorter : s'.length ≤ s.length) (edits : Edits w p.word) : Ends n w (p.r s') := by
  obtain ⟨length, low, high⟩ := ended.inRange
  have rest := ended.rest
  obtain ⟨x, run, some, -⟩ := m_eq length (show p.j < n by omega)
  rw [PorterStemmer.r, run]
  simp only [bind, Except.bind]
  split
  · rename_i positive
    have := some positive
    exact ended.setto old new edits (by omega) (by omega)
  · exact ended.inRange.done edits

theorem word_take {k : Int} (le : k ≤ p.k) :
    ({ p with k := k } : PorterStemmer).word = p.word.take (k + 1).toNat := by
  simp only [word, List.take_take]
  congr 1
  omega

/-- A part of a found suffix cut off. -/
theorem Ended.cut {k : Int} (ended : Ended n p s) (ascii : isAscii s = true) (edits : Edits w p.word)
    (low : 0 ≤ k) (atLeast : p.j ≤ k) (upTo : k ≤ p.k) : Ends n w (.ok { p with k := k }) := by
  obtain ⟨length, -, high⟩ := ended.inRange
  refine ⟨_, rfl, ⟨length, low, by dsimp only; omega⟩, ?_⟩
  rw [word_take upTo]
  rw [← List.take_append_drop (k + 1).toNat p.word] at edits
  refine edits.cut fun x mem => ?_
  have short : (p.b.take (p.j + 1).toNat).length ≤ (k + 1).toNat := by
    rw [List.length_take]
    omega
  rw [ended.word, List.drop_append, List.drop_of_length_le short, List.nil_append] at mem
  exact codes_ascii ascii x (List.mem_of_mem_drop mem)

/-- The word and its last unit. -/
theorem InRange.word_eq (inRange : InRange n p) :
    p.word = p.b.take p.k.toNat ++ [p.b.getD p.k.toNat 0] := by
  have ⟨length, low, high⟩ := inRange
  have inside : p.k.toNat < p.b.length := by omega
  have last : (p.k + 1).toNat = p.k.toNat + 1 := by omega
  rw [word, last, List.take_add_one, List.getElem?_eq_getElem inside, List.getD_eq_getElem _ _ inside]
  rfl

/-- The last unit cut off. -/
theorem InRange.pop (inRange : InRange n p) (edits : Edits w p.word) (long : 1 ≤ p.k)
    (ascii : p.b.getD p.k.toNat 0 < 0x80) : Ends n w (.ok { p with k := p.k - 1 }) := by
  have ⟨length, low, high⟩ := inRange
  refine ⟨_, rfl, ⟨length, by dsimp only; omega, by dsimp only; omega⟩, ?_⟩
  rw [inRange.word_eq] at edits
  rw [word_take (by omega), inRange.word_eq, List.take_left' (by simp; omega)]
  exact edits.cut fun x mem => List.mem_singleton.mp mem ▸ ascii

/-- One of two equal units dropped. -/
theorem InRange.undouble (inRange : InRange n p) (edits : Edits w p.word) (long : 1 ≤ p.k)
    (same : p.b.getD p.k.toNat 0 = p.b.getD (p.k - 1).toNat 0) :
    Ends n w (.ok { p with k := p.k - 1 }) := by
  have ⟨length, low, high⟩ := inRange
  have shorter : InRange n { p with k := p.k - 1 } :=
    ⟨length, by dsimp only; omega, by dsimp only; omega⟩
  refine ⟨_, rfl, shorter, ?_⟩
  have front : p.b.take p.k.toNat = ({ p with k := p.k - 1 } : PorterStemmer).word := by
    simp only [word]
    congr 1
    omega
  rw [inRange.word_eq, front, shorter.word_eq, same, List.append_assoc] at edits
  rw [shorter.word_eq]
  exact edits.undouble

/-! ## The steps -/

theorem plurals_ends (inRange : InRange n p) (long : 2 ≤ p.k) (edits : Edits w p.word) :
    Ends n w p.plurals := by
  have ⟨length, low, high⟩ := inRange
  unfold plurals
  rw [unitAt_eq low (by omega)]
  simp only [bind, Except.bind, pure, Except.pure]
  split
  · exact inRange.done edits
  · rename_i last
    have isS : p.b.getD p.k.toNat 0 = 's'.toNat := not_not.mp last
    rcases inRange.ends_cases ['s', 's', 'e', 's'] with none | ⟨p', is, word, k, sses⟩
    · rw [none]
      simp only [Bool.false_eq_true, if_false]
      rcases inRange.ends_cases ['i', 'e', 's'] with none | ⟨p', is, word, k, ies⟩
      · rw [none]
        simp only [Bool.false_eq_true, if_false]
        rw [unitAt_eq (by omega) (by omega)]
        dsimp only
        split
        · exact inRange.pop edits (by omega) (by rw [isS]; decide)
        · exact inRange.done edits
      · rw [is]
        simp only [if_true]
        have rest := ies.rest
        simp only [List.length_cons, List.length_nil] at rest
        exact ies.setto (by decide) (by decide) (word ▸ edits) (by simp; omega) (by simp; omega)
    · rw [is]
      simp only [if_true]
      have rest := sses.rest
      have fits := sses.fits
      simp only [List.length_cons, List.length_nil] at rest
      exact sses.cut (by decide) (word ▸ edits) (by omega) (by omega) (by omega)

/-- **`restore`**, in the room that a past tense or a participle left. -/
theorem restore_ends (inRange : InRange n p) (stem : p.j = p.k) (room : p.k + 1 < n)
    (edits : Edits w p.word) : Ends n w p.restore := by
  have ⟨length, low, high⟩ := inRange
  unfold restore
  rcases inRange.ends_cases ['a', 't'] with none | ⟨p', is, word, k, ending⟩
  · rw [none]
    simp only [bind, Except.bind, Bool.false_eq_true, if_false]
    rcases inRange.ends_cases ['b', 'l'] with none | ⟨p', is, word, k, bl⟩
    · rw [none]
      simp only [Bool.false_eq_true, if_false]
      rcases inRange.ends_cases ['i', 'z'] with none | ⟨p', is, word, k, iz⟩
      · rw [none]
        simp only [Bool.false_eq_true, if_false]
        obtain ⟨double, isDouble, means⟩ := doublec_eq length high
        rw [isDouble]
        cases double with
        | true =>
            obtain ⟨long, same⟩ := means rfl
            simp only [if_true]
            rw [unitAt_eq low (by omega)]
            dsimp only
            split
            · exact inRange.done edits
            · exact inRange.undouble edits long same
        | false =>
            obtain ⟨x, run, -⟩ := m_eq length (show p.j < n by omega)
            rw [run]
            simp only [Bool.false_eq_true, if_false]
            split
            · obtain ⟨short, isShort⟩ := cvc_eq length high
              rw [isShort]
              dsimp only
              split
              · obtain ⟨p', is, length', k, word⟩ :=
                  @setto_eq n p ['e'] length (by omega) (by simp; omega)
                simp only [List.length_cons, List.length_nil] at k
                refine ⟨p', is, ⟨length', by omega, by omega⟩, ?_⟩
                rw [word, stem]
                exact edits.put (codes_ascii (by decide))
              · exact inRange.done edits
            · exact inRange.done edits
      · rw [is]
        simp only [if_true]
        have rest := iz.rest
        have fits := iz.fits
        simp only [List.length_cons, List.length_nil] at rest
        exact iz.setto (by decide) (by decide) (word ▸ edits) (by simp; omega) (by simp; omega)
    · rw [is]
      simp only [if_true]
      have rest := bl.rest
      have fits := bl.fits
      simp only [List.length_cons, List.length_nil] at rest
      exact bl.setto (by decide) (by decide) (word ▸ edits) (by simp; omega) (by simp; omega)
  · rw [is]
    simp only [bind, Except.bind, if_true]
    have rest := ending.rest
    have fits := ending.fits
    simp only [List.length_cons, List.length_nil] at rest
    exact ending.setto (by decide) (by decide) (word ▸ edits) (by simp; omega) (by simp; omega)

/-- A past tense or a participle cut off, and the stem restored. -/
theorem Ended.strip (ended : Ended n p s) (ascii : isAscii s = true) (long : 2 ≤ s.length)
    (edits : Edits w p.word) : Ends n w (do
      let vowel ← p.vowelinstem
      if vowel then restore { p with k := p.j } else return p) := by
  obtain ⟨length, low, high⟩ := ended.inRange
  have rest := ended.rest
  obtain ⟨vowel, run, some⟩ := vowelinstem_eq length (show p.j < n by omega)
  rw [run]
  cases vowel with
  | false => exact ended.inRange.done edits
  | true =>
      have stem := some rfl
      obtain ⟨p', is, inRange, edits'⟩ := ended.cut ascii edits stem le_rfl (by omega)
      obtain rfl := Except.ok.inj is
      exact restore_ends inRange rfl (by dsimp only; omega) edits'

theorem step1_ends (inRange : InRange n p) (long : 2 ≤ p.k) (edits : Edits w p.word) :
    Ends n w p.step1 := by
  unfold step1
  refine (plurals_ends inRange long edits).bind fun p inRange edits => ?_
  rcases inRange.ends_cases ['e', 'e', 'd'] with none | ⟨p', is, word, k, eed⟩
  · rw [none]
    simp only [bind, Except.bind, Bool.false_eq_true, if_false]
    rcases inRange.ends_cases ['e', 'd'] with none | ⟨p', is, word, k, ed⟩
    · rw [none]
      simp only [Bool.false_eq_true, if_false]
      rcases inRange.ends_cases ['i', 'n', 'g'] with none | ⟨p', is, word, k, ing⟩
      · rw [none]
        simp only [Bool.false_eq_true, if_false]
        exact inRange.done edits
      · rw [is]
        simp only [if_true]
        exact ing.strip (by decide) (by decide) (word ▸ edits)
    · rw [is]
      simp only [if_true, pure, Except.pure]
      exact ed.strip (by decide) (by decide) (word ▸ edits)
  · rw [is]
    simp only [bind, Except.bind, if_true]
    obtain ⟨length, low, high⟩ := eed.inRange
    have rest := eed.rest
    simp only [List.length_cons, List.length_nil] at rest
    obtain ⟨x, run, some, -⟩ := m_eq length (show p'.j < n by omega)
    rw [run]
    dsimp only
    split
    · rename_i positive
      have := some positive
      exact eed.cut (by decide) (word ▸ edits) (by omega) (by omega) (by omega)
    · exact eed.inRange.done (word ▸ edits)

theorem step2_ends (inRange : InRange n p) (edits : Edits w p.word) : Ends n w p.step2 := by
  unfold step2
  rcases inRange.ends_cases ['y'] with none | ⟨p', is, word, k, y⟩
  · rw [none]
    exact inRange.done edits
  · rw [is]
    simp only [bind, Except.bind, if_true]
    have ⟨length, low, high⟩ := y.inRange
    have rest := y.rest
    simp only [List.length_cons, List.length_nil] at rest
    obtain ⟨vowel, run, -⟩ := vowelinstem_eq length (show p'.j < n by omega)
    rw [run]
    dsimp only
    split
    · rw [write_eq low (by simp; omega)]
      refine ⟨_, rfl, ⟨by simp; omega, low, high⟩, ?_⟩
      have stem : (p'.j + 1).toNat = p'.k.toNat := by omega
      have last : (p'.k + 1).toNat = (p'.b.take p'.k.toNat ++ codes ['i']).length := by
        simp only [List.length_append, List.length_take, length_codes, List.length_cons,
          List.length_nil]
        omega
      rw [← word, y.word, stem] at edits
      simp only [PorterStemmer.word, last, List.take_left]
      exact edits.replace (codes_ascii (by decide)) (codes_ascii (by decide))
    · exact y.inRange.done (word ▸ edits)

/-- A rule of the tables: ASCII, and no longer than what it replaces. -/
def shrinks (rule : Rule) : Bool :=
  isAscii rule.1 && isAscii rule.2 && decide (rule.2.length ≤ rule.1.length)

theorem replace_ends {rules : List Rule} (shrink : ∀ rule ∈ rules, shrinks rule = true)
    (inRange : InRange n p) (edits : Edits w p.word) : Ends n w (p.replace rules) := by
  induction rules with
  | nil => exact inRange.done edits
  | cons rule rest ih =>
      obtain ⟨here, shrink⟩ := List.forall_mem_cons.mp shrink
      obtain ⟨⟨old, new⟩, shorter⟩ : (isAscii rule.1 = true ∧ isAscii rule.2 = true) ∧
          rule.2.length ≤ rule.1.length := by
        simpa [shrinks] using here
      unfold replace
      rcases inRange.ends_cases rule.1 with none | ⟨p', is, word, -, ended⟩
      · rw [none]
        exact ih shrink
      · rw [is]
        exact ended.r old new shorter (word ▸ edits)

theorem mem_caseOf {α : Type} {cases : List (Char × List α)} {P : α → Bool}
    (all : (cases.all fun entry => entry.2.all P) = true) (u : Nat) :
    ∀ x ∈ caseOf cases u, P x = true := by
  unfold caseOf
  split
  · rename_i entry found
    exact List.all_eq_true.mp (List.all_eq_true.mp all entry (List.mem_of_find?_eq_some found))
  · exact List.forall_mem_nil _

theorem step3_ends (inRange : InRange n p) (edits : Edits w p.word) : Ends n w p.step3 := by
  have ⟨length, low, high⟩ := inRange
  unfold step3
  split
  · exact inRange.done edits
  · rw [unitAt_eq (by omega) (by omega)]
    exact replace_ends (mem_caseOf (by decide) _) inRange edits

theorem step4_ends (inRange : InRange n p) (edits : Edits w p.word) : Ends n w p.step4 := by
  have ⟨length, low, high⟩ := inRange
  unfold step4
  rw [unitAt_eq low (by omega)]
  exact replace_ends (mem_caseOf (by decide) _) inRange edits

/-- A run of suffixes finds one, or leaves the word. -/
theorem endsAny_cases {suffixes : List (List Char × Bool)} (inRange : InRange n p)
    (ascii : ∀ suffix ∈ suffixes, isAscii suffix.1 = true) :
    ∃ found p', p.endsAny suffixes = .ok (found, p') ∧ InRange n p' ∧ p'.word = p.word ∧
      (found = true → ∃ s, isAscii s = true ∧ Ended n p' s) := by
  induction suffixes generalizing p with
  | nil => exact ⟨false, p, rfl, inRange, rfl, nofun⟩
  | cons suffix rest ih =>
      obtain ⟨s, afterST⟩ := suffix
      obtain ⟨here, ascii⟩ := List.forall_mem_cons.mp ascii
      unfold endsAny
      rcases inRange.ends_cases s with none | ⟨p', is, word, -, ended⟩
      · rw [none]
        exact ih inRange ascii
      · rw [is]
        have held : ∃ s, isAscii s = true ∧ Ended n p' s := ⟨s, here, ended⟩
        obtain ⟨found, p'', run, inRange', word', means⟩ := @ih p' ended.inRange ascii
        have next := (⟨found, p'', run, inRange', word'.trans word, means⟩ :
          ∃ found p'', p'.endsAny rest = .ok (found, p'') ∧ InRange n p'' ∧ p''.word = p.word ∧
            (found = true → ∃ s, isAscii s = true ∧ Ended n p'' s))
        simp only [bind, Except.bind, Bool.not_true, Bool.false_eq_true, if_false]
        split
        · exact ⟨true, p', rfl, ended.inRange, word, fun _ => held⟩
        · split
          · exact next
          · obtain ⟨length, low, high⟩ := ended.inRange
            have rest := ended.rest
            rw [unitAt_eq (by omega) (by omega)]
            dsimp only
            split
            · exact ⟨true, p', rfl, ended.inRange, word, fun _ => held⟩
            · exact next

theorem step5_ends (inRange : InRange n p) (edits : Edits w p.word) : Ends n w p.step5 := by
  have ⟨length, low, high⟩ := inRange
  unfold step5
  split
  · exact inRange.done edits
  · rw [unitAt_eq (by omega) (by omega)]
    obtain ⟨found, p', run, inRange', word, means⟩ :=
      @endsAny_cases n p (caseOf step5Cases (p.b.getD (p.k - 1).toNat 0)) inRange
        (mem_caseOf (by decide) _)
    simp only [bind, Except.bind]
    rw [run]
    cases found with
    | false => exact inRange'.done (word ▸ edits)
    | true =>
        obtain ⟨s, ascii, ended⟩ := means rfl
        have ⟨length', low', high'⟩ := inRange'
        have rest := ended.rest
        obtain ⟨x, isM, -, some⟩ := m_eq length' (show p'.j < n by omega)
        simp only [Bool.not_true, Bool.false_eq_true, if_false]
        rw [isM]
        dsimp only
        split
        · rename_i two
          have := some two
          exact ended.cut ascii (word ▸ edits) (by omega) le_rfl (by omega)
        · exact inRange'.done (word ▸ edits)

/-- The final `e`; `j` stays where it was, which may be one past the word now. -/
theorem finalE_ends (inRange : InRange n p) (stem : p.j = p.k) (edits : Edits w p.word) :
    ∃ p', p.finalE = .ok p' ∧ InRange n p' ∧ Edits w p'.word ∧ p'.j < n := by
  have ⟨length, low, high⟩ := inRange
  have same : ∃ p', (Except.ok p : Except Fault PorterStemmer) = .ok p' ∧ InRange n p' ∧
      Edits w p'.word ∧ p'.j < n := ⟨p, rfl, inRange, edits, by omega⟩
  unfold finalE
  rw [unitAt_eq low (by omega)]
  simp only [bind, Except.bind, pure, Except.pure]
  split
  · rename_i isE
    obtain ⟨a, run, one, -⟩ := m_eq length (show p.j < n by omega)
    have pop : 1 ≤ a → ∃ p', (Except.ok { p with k := p.k - 1 } : Except Fault _) = .ok p' ∧
        InRange n p' ∧ Edits w p'.word ∧ p'.j < n := by
      intro positive
      have := one positive
      obtain ⟨p', is, inRange', edits'⟩ := inRange.pop edits (by omega) (by rw [isE]; decide)
      obtain rfl := Except.ok.inj is
      exact ⟨_, rfl, inRange', edits', by dsimp only; omega⟩
    rw [run]
    dsimp only
    split
    · exact pop (by omega)
    · split
      · obtain ⟨short, isShort⟩ := @cvc_eq n p length (p.k - 1) (by omega)
        rw [isShort]
        cases short with
        | false => exact pop (by omega)
        | true => exact same
      · exact same
  · exact same

theorem finalL_ends (inRange : InRange n p) (inside : p.j < n) (edits : Edits w p.word) :
    Ends n w p.finalL := by
  have ⟨length, low, high⟩ := inRange
  unfold finalL
  rw [unitAt_eq low (by omega)]
  simp only [bind, Except.bind, pure, Except.pure]
  split
  · obtain ⟨double, isDouble, means⟩ := doublec_eq length high
    rw [isDouble]
    cases double with
    | false => exact inRange.done edits
    | true =>
        obtain ⟨long, same⟩ := means rfl
        obtain ⟨x, run, -⟩ := m_eq length inside
        rw [run]
        simp only [if_true]
        split
        · exact inRange.undouble edits long same
        · exact inRange.done edits
  · exact inRange.done edits

theorem step6_ends (inRange : InRange n p) (edits : Edits w p.word) : Ends n w p.step6 := by
  have ⟨length, low, high⟩ := inRange
  obtain ⟨p', run, inRange', edits', inside⟩ :=
    @finalE_ends n w { p with j := p.k } ⟨length, low, high⟩ rfl edits
  unfold step6
  rw [run]
  exact finalL_ends inRange' inside edits'

/-- **A whole call** edits the word and stays in range. -/
theorem steps_ends (inRange : InRange n p) (long : 2 ≤ p.k) : Ends n p.word p.steps := by
  unfold steps
  refine (step1_ends inRange long (.refl _)).bind fun p inRange edits => ?_
  refine (step2_ends inRange edits).bind fun p inRange edits => ?_
  refine (step3_ends inRange edits).bind fun p inRange edits => ?_
  refine (step4_ends inRange edits).bind fun p inRange edits => ?_
  refine (step5_ends inRange edits).bind fun p inRange edits => ?_
  exact step6_ends inRange edits

/-- **What `stem` does** to a buffer that an `int` can index: every access is in it, and
the word that is left is an edit of it. -/
theorem stem_spec (j : Int) {buf : List Nat} (short : buf.length < 2 ^ 31) :
    ∃ b n, stem j buf = .ok (b, n) ∧ b.length = buf.length ∧ n ≤ buf.length ∧
      (buf ≠ [] → 1 ≤ n) ∧ (buf.length ≤ 2 → b = buf ∧ n = buf.length) ∧
      Edits buf (b.take n) := by
  unfold stem
  dsimp only
  rw [int32_of_lt short, if_neg (by omega)]
  split
  · rename_i long
    have inRange : InRange buf.length ⟨buf, j, (buf.length : Int) - 1⟩ :=
      ⟨rfl, by dsimp only; omega, by dsimp only; omega⟩
    obtain ⟨p, run, ⟨length, low, high⟩, edits⟩ := steps_ends inRange (by dsimp only at long ⊢; omega)
    rw [run]
    have whole : (⟨buf, j, (buf.length : Int) - 1⟩ : PorterStemmer).word = buf := by
      have all : ((buf.length : Int) - 1 + 1).toNat = buf.length := by omega
      simp only [word, all, List.take_length]
    have size : ((p.k + 1) % 2 ^ 64).toNat = (p.k + 1).toNat := by
      rw [Int.emod_eq_of_lt (by omega) (by omega)]
    rw [whole] at edits
    refine ⟨p.b, _, rfl, length, ?_, ?_, ?_, ?_⟩
    · rw [size]
      omega
    · intro
      rw [size]
      omega
    · intro two
      omega
    · rw [size]
      exact edits
  · have size : (((buf.length : Int) - 1 + 1) % 2 ^ 64).toNat = buf.length := by
      rw [Int.emod_eq_of_lt (by omega) (by omega)]
      omega
    refine ⟨buf, _, rfl, rfl, size.le, ?_, fun _ => ⟨rfl, size⟩, ?_⟩
    · intro full
      rw [size]
      exact List.length_pos_of_ne_nil full
    · rw [size, List.take_length]
      exact .refl _

end PorterStemmer

/-! ## Words in UTF-8 -/

theorem utf16Units_val (c : Char) : utf16Units c.val.toNat = Utf16.units c := by
  unfold utf16Units Utf16.units
  dsimp only
  by_cases small : c.val.toNat < 0x10000
  · rw [if_neg (by omega), if_pos small]
  · rw [if_pos (by omega), if_neg small, Nat.shiftRight_eq_div_pow,
      Nat.and_two_pow_sub_one_eq_mod _ 10]

theorem utf16Bytes_cons {cp : Nat} (plain : cp < 0xD800 ∨ 0xDFFF < cp) (rest : List Nat) :
    utf16Bytes (cp :: rest) = utf8Append cp ++ utf16Bytes rest := by
  cases rest with
  | nil => rw [utf16Bytes, utf16Bytes, List.append_nil]
  | cons next rest => rw [utf16Bytes, if_neg (by omega)]

/-- **Units of characters are written as the characters.** -/
theorem utf16Bytes_encode (chars : List Char) :
    utf16Bytes (Utf16.encode chars) = Utf8.encode chars := by
  induction chars with
  | nil => rfl
  | cons c chars ih =>
      rw [Utf16.encode_cons, Utf8.encode_cons]
      rcases Utf16.units_cases c with ⟨one, plain, -⟩ | ⟨high, low, two, h, h', l, l', value⟩
      · rw [one, List.singleton_append, utf16Bytes_cons plain, ih, utf8Append_val]
      · have whole : 0x10000 + ((high - 0xD800) <<< 10) + (low - 0xDC00) = c.val.toNat := by
          rw [Nat.shiftLeft_eq, value]
        rw [two, List.cons_append, List.singleton_append, utf16Bytes, if_pos ⟨h, h', l, l'⟩, whole,
          ih, utf8Append_val]

theorem utf16Bytes_ascii {units : List Nat} (ascii : ∀ x ∈ units, x < 0x80) :
    utf16Bytes units = units.map UInt8.ofNat := by
  induction units with
  | nil => rfl
  | cons x rest ih =>
      obtain ⟨here, ascii⟩ := List.forall_mem_cons.mp ascii
      rw [utf16Bytes_cons (by omega), ih ascii, utf8Append, if_pos here]
      rfl

theorem codePoints_ascii {t : Bytes} (ascii : ∀ x ∈ t, x < 0x80) :
    codePoints t = t.map fun x => (x.toNat, 1) := by
  induction t with
  | nil => rw [codePoints, List.map_nil]
  | cons x rest ih =>
      obtain ⟨here, ascii⟩ := List.forall_mem_cons.mp ascii
      have small : x.toNat < 0x80 := UInt8.lt_iff_toNat_lt.mp here
      have head : utf8Decode (x :: rest) = (x.toNat, 1) := by
        rw [utf8Decode]
        dsimp only
        rw [List.getD_cons_zero, if_pos small]
      rw [codePoints, head, List.drop_succ_cons, List.drop_zero, ih ascii, List.map_cons]

theorem length_units_le (c : Char) : (Utf16.units c).length ≤ (String.utf8EncodeChar c).length := by
  unfold Utf16.units String.utf8EncodeChar
  dsimp only
  split_ifs <;> simp only [List.length_cons, List.length_nil] <;> omega

theorem length_encode_le (chars : List Char) :
    (Utf16.encode chars).length ≤ (Utf8.encode chars).length := by
  induction chars with
  | nil => exact le_rfl
  | cons c chars ih =>
      rw [Utf16.encode_cons, Utf8.encode_cons, List.length_append, List.length_append]
      exact Nat.add_le_add (length_units_le c) ih

theorem units_ascii {t : Bytes} (ascii : ∀ x ∈ t, x < 0x80) :
    ((codePoints t).flatMap fun cp => utf16Units cp.1) = t.map UInt8.toNat := by
  rw [codePoints_ascii ascii, List.flatMap_map, List.map_eq_flatMap]
  apply List.flatMap_congr
  intro x mem
  have small : x.toNat < 0x80 := UInt8.lt_iff_toNat_lt.mp (ascii x mem)
  rw [utf16Units, if_neg (by omega)]

theorem map_toNat_ascii {t : Bytes} (ascii : ∀ x ∈ t, x < 0x80) :
    ∀ x ∈ t.map UInt8.toNat, x < 0x80 := by
  intro x mem
  obtain ⟨byte, held, rfl⟩ := List.mem_map.mp mem
  exact UInt8.lt_iff_toNat_lt.mp (ascii byte held)

/-- Both branches of `stem_in_place` give an ASCII word the same stem, which is ASCII. -/
theorem stemAscii_eq (j : Int) {t : Bytes} (ascii : ∀ x ∈ t, x < 0x80)
    (short : t.length < 2 ^ 31) : stemAscii j t = stemUtf16 j t ∧
      ∃ units : List Nat, stemAscii j t = .ok (units.map UInt8.ofNat) ∧ ∀ x ∈ units, x < 0x80 := by
  obtain ⟨b, n, run, length, fits, -, -, edits⟩ :=
    @PorterStemmer.stem_spec j (t.map UInt8.toNat) (by rwa [List.length_map])
  have kept := edits.ascii (map_toNat_ascii ascii)
  unfold stemAscii stemUtf16
  dsimp only
  rw [units_ascii ascii, run]
  simp only [bind, Except.bind, pure, Except.pure]
  rw [if_neg (by omega), if_neg (by omega), utf16Bytes_ascii kept]
  exact ⟨rfl, _, rfl, kept⟩

theorem stemUtf16_spec (j : Int) {t : Bytes} (wellFormed : Utf8.WellFormed t)
    (short : t.length < 2 ^ 31) : ∃ t', stemUtf16 j t = .ok t' ∧ Utf8.WellFormed t' := by
  obtain ⟨chars, rfl⟩ := wellFormed
  have units : ((codePoints (Utf8.encode chars)).flatMap fun cp => utf16Units cp.1) =
      Utf16.encode chars := by
    rw [codePoints_encode, List.flatMap_map]
    exact List.flatMap_congr fun c _ => utf16Units_val c
  have fewer := length_encode_le chars
  obtain ⟨b, n, run, length, fits, -, -, edits⟩ :=
    @PorterStemmer.stem_spec j (Utf16.encode chars) (by omega)
  obtain ⟨chars', is⟩ := edits.wellFormed ⟨chars, rfl⟩
  unfold stemUtf16
  dsimp only
  rw [units, run]
  simp only [bind, Except.bind, pure, Except.pure]
  rw [if_neg (by omega), is, utf16Bytes_encode]
  exact ⟨_, rfl, chars', rfl⟩

theorem encode_of_ascii {units : List Nat} (ascii : ∀ x ∈ units, x < 0x80) :
    Utf8.WellFormed (units.map UInt8.ofNat) := by
  obtain ⟨chars, is⟩ := Utf16.wellFormed_ascii ascii
  rw [← utf16Bytes_ascii ascii, is, utf16Bytes_encode]
  exact ⟨chars, rfl⟩

/-- **Stemming keeps UTF-8 well formed.** -/
theorem stemInPlace_spec (j : Int) {t : Bytes} (wellFormed : Utf8.WellFormed t)
    (short : t.length < 2 ^ 31) : ∃ t', stemInPlace j t = .ok t' ∧ Utf8.WellFormed t' := by
  unfold stemInPlace
  split
  · rename_i all
    have ascii : ∀ x ∈ t, x < 0x80 := by simpa using all
    obtain ⟨-, units, run, kept⟩ := stemAscii_eq j ascii short
    exact ⟨_, run, encode_of_ascii kept⟩
  · exact stemUtf16_spec j wellFormed short

namespace PorterStemmer

/-- What a call of `stem` should do with a buffer: end without leaving it, with a length
from 1 on, a short word as it was, and well-formed UTF-16 kept. -/
def Safe (j : Int) (buf : List Nat) : Prop :=
  ∃ b n, stem j buf = .ok (b, n) ∧ b.length = buf.length ∧ n ≤ buf.length ∧
    (buf ≠ [] → 1 ≤ n) ∧ (buf.length ≤ 2 → b = buf ∧ n = buf.length) ∧
    (Utf16.WellFormed buf → Utf16.WellFormed (b.take n))

/-- **The stemmer is safe** on every buffer an `int` can index, whatever the last call left,
and `stem_in_place` on every well-formed word; an ASCII word has one stem, whatever either of the
two stemmers was left with. -/
theorem stem_safe (j : Int) :
    (∀ buf : List Nat, buf.length < 2 ^ 31 → Safe j buf) ∧
    (∀ t : Bytes, Utf8.WellFormed t → t.length < 2 ^ 31 →
      ∃ t', stemInPlace j t = .ok t' ∧ Utf8.WellFormed t') ∧
    ∀ t : Bytes, (∀ x ∈ t, x < 0x80) → t.length < 2 ^ 31 → ∀ j' : Int, stemAscii j t = stemUtf16 j' t := by
  refine ⟨fun buf short => ?_, fun t wellFormed short => stemInPlace_spec j wellFormed short,
    fun t ascii short j' => ?_⟩
  swap
  · rw [stemAscii_forgets j j']
    exact (stemAscii_eq j' ascii short).1
  obtain ⟨b, n, run, length, fits, positive, two, edits⟩ := stem_spec j short
  exact ⟨b, n, run, length, fits, positive, two, edits.wellFormed⟩

/-- With `2 ^ 32` units the length is narrowed to zero. -/
theorem stem_narrows : ¬ ∀ buf : List Nat, Safe 0 buf := by
  intro all
  obtain ⟨b, n, run, -, -, positive, -⟩ := all (List.replicate (2 ^ 32) 0x61)
  have narrowed : int32 (List.replicate (2 ^ 32) 0x61).length = 0 := by
    rw [List.length_replicate]
    decide
  have empty : stem 0 (List.replicate (2 ^ 32) 0x61) = .ok (List.replicate (2 ^ 32) 0x61, 0) := by
    unfold stem
    rw [narrowed]
    rfl
  rw [empty] at run
  cases run
  have full : List.replicate (2 ^ 32) 0x61 ≠ [] := by
    rw [Ne, List.replicate_eq_nil_iff]
    decide
  exact absurd (positive full) (by decide)

end PorterStemmer

end HybridSearch.Engine
