/-
# Theory.Utf16 -- UTF-16 texts, cut and extended by ASCII

A list of code units is well formed when it is the encoding of a list of
characters.  It stays so when ASCII units are appended or cut off at its end,
and when the last of two equal units is dropped: neither separates the two
halves of a pair.

Any list of units is a list of code points, of which the unpaired surrogates are
their own (`points`).
-/
import Mathlib.Data.List.Basic
import Mathlib.Tactic

namespace HybridSearch.Theory.Utf16

set_option autoImplicit false

/-- The code units of a character. -/
def units (c : Char) : List Nat :=
  let v := c.val.toNat
  if v < 0x10000 then [v] else [0xD800 + (v - 0x10000) / 0x400, 0xDC00 + (v - 0x10000) % 0x400]

def encode (chars : List Char) : List Nat := chars.flatMap units

def WellFormed (text : List Nat) : Prop := ∃ chars, text = encode chars

theorem encode_append (front back : List Char) :
    encode (front ++ back) = encode front ++ encode back := List.flatMap_append

theorem encode_cons (c : Char) (chars : List Char) :
    encode (c :: chars) = units c ++ encode chars := List.flatMap_cons

theorem encode_singleton (c : Char) : encode [c] = units c := by
  rw [encode_cons, encode, List.flatMap_nil, List.append_nil]

theorem valid_le (c : Char) : c.val.toNat ≤ 0x10FFFF := by
  have valid := c.valid
  simp only [UInt32.isValidChar, Nat.isValidChar] at valid
  omega

/-- A character is one unit that is no surrogate, or a high and a low surrogate. -/
theorem units_cases (c : Char) :
    (units c = [c.val.toNat] ∧ (c.val.toNat < 0xD800 ∨ 0xDFFF < c.val.toNat) ∧
      c.val.toNat < 0x10000) ∨
    ∃ high low, units c = [high, low] ∧ 0xD800 ≤ high ∧ high ≤ 0xDBFF ∧ 0xDC00 ≤ low ∧
      low ≤ 0xDFFF ∧ c.val.toNat = 0x10000 + (high - 0xD800) * 0x400 + (low - 0xDC00) := by
  have valid := c.valid
  have most := valid_le c
  simp only [UInt32.isValidChar, Nat.isValidChar] at valid
  unfold units
  dsimp only
  split_ifs with small
  · exact .inl ⟨rfl, by omega, small⟩
  · exact .inr ⟨_, _, rfl, by omega, by omega, by omega, by omega, by omega⟩

/-- An ASCII unit is a character. -/
theorem exists_ascii {x : Nat} (ascii : x < 0x80) : ∃ c : Char, units c = [x] ∧ c.val.toNat = x := by
  have valid : x.isValidChar := Or.inl (by omega)
  refine ⟨Char.ofNat x, ?_⟩
  have value : (Char.ofNat x).val.toNat = x := by
    rw [Char.ofNat, dif_pos valid]
    rfl
  refine ⟨?_, value⟩
  unfold units
  dsimp only
  rw [value, if_pos (by omega)]

theorem wellFormed_ascii {text : List Nat} (ascii : ∀ x ∈ text, x < 0x80) : WellFormed text := by
  induction text with
  | nil => exact ⟨[], rfl⟩
  | cons x rest ih =>
      obtain ⟨here, ascii⟩ := List.forall_mem_cons.mp ascii
      obtain ⟨chars, rfl⟩ := ih ascii
      obtain ⟨c, is, -⟩ := exists_ascii here
      exact ⟨c :: chars, by rw [encode_cons, is]; rfl⟩

theorem WellFormed.append {front back : List Nat} (wellFormed : WellFormed front)
    (wellFormed' : WellFormed back) : WellFormed (front ++ back) := by
  obtain ⟨chars, rfl⟩ := wellFormed
  obtain ⟨chars', rfl⟩ := wellFormed'
  exact ⟨chars ++ chars', (encode_append chars chars').symm⟩

/-- The end of a text: nothing, a whole character, or the two halves of one. -/
theorem WellFormed.last {text : List Nat} {x : Nat} (wellFormed : WellFormed (text ++ [x])) :
    (WellFormed text ∧ (x < 0xD800 ∨ 0xDFFF < x)) ∨
    ∃ front high, text = front ++ [high] ∧ WellFormed front ∧ high < x ∧ 0xDC00 ≤ x := by
  obtain ⟨chars, is⟩ := wellFormed
  rcases List.eq_nil_or_concat chars with rfl | ⟨lead, c, rfl⟩
  · exact absurd is (by simp [encode])
  · rw [List.concat_eq_append, encode_append, encode_singleton] at is
    rcases units_cases c with ⟨one, plain, -⟩ | ⟨high, low, two, -, upTo, atLeast, -, -⟩
    · rw [one] at is
      obtain ⟨rfl, same⟩ := List.append_inj' is rfl
      obtain rfl : x = c.val.toNat := by simpa using same
      exact .inl ⟨⟨lead, rfl⟩, plain⟩
    · have cut : text ++ [x] = (encode lead ++ [high]) ++ [low] := by
        rw [is, two, List.append_assoc]
        rfl
      obtain ⟨rfl, same⟩ := List.append_inj' cut rfl
      obtain rfl : x = low := by simpa using same
      exact .inr ⟨encode lead, high, rfl, ⟨lead, rfl⟩, by omega, atLeast⟩

/-- **ASCII cut off** at the end. -/
theorem WellFormed.of_append_ascii {front back : List Nat} (ascii : ∀ x ∈ back, x < 0x80)
    (wellFormed : WellFormed (front ++ back)) : WellFormed front := by
  induction back using List.reverseRecOn with
  | nil => rwa [List.append_nil] at wellFormed
  | append_singleton back x ih =>
      obtain ⟨ascii, here⟩ := List.forall_mem_append.mp ascii
      have small := List.forall_mem_singleton.mp here
      rw [← List.append_assoc] at wellFormed
      rcases wellFormed.last with ⟨rest, -⟩ | ⟨_, _, _, _, _, large⟩
      · exact ih ascii rest
      · omega

/-- **The last of two equal units** dropped. -/
theorem WellFormed.undouble {front : List Nat} {x : Nat}
    (wellFormed : WellFormed (front ++ [x, x])) : WellFormed (front ++ [x]) := by
  rw [List.append_cons] at wellFormed
  rcases wellFormed.last with ⟨rest, -⟩ | ⟨lead, high, cut, -, less, -⟩
  · exact rest
  · obtain ⟨-, same⟩ := List.append_inj' cut rfl
    obtain rfl : x = high := by simpa using same
    omega

/-! ## Code points of any text -/

def isHigh (unit : Nat) : Bool := decide (0xD800 ≤ unit ∧ unit ≤ 0xDBFF)

def isLow (unit : Nat) : Bool := decide (0xDC00 ≤ unit ∧ unit ≤ 0xDFFF)

/-- The code point of a pair. -/
def combine (high low : Nat) : Nat := 0x10000 + (high - 0xD800) * 0x400 + (low - 0xDC00)

/-- The code points of a text, unpaired surrogates among them. -/
def points : List Nat → List Nat
  | [] => []
  | [c] => [c]
  | c :: d :: rest =>
      if isHigh c && isLow d then combine c d :: points rest else c :: points (d :: rest)

end HybridSearch.Theory.Utf16
