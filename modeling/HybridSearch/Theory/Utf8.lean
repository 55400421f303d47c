/-
# Theory.Utf8 -- UTF-8 texts and their character boundaries

A text is well formed when it is the encoding of a list of characters.  The first
byte of a character is no continuation byte and all its other bytes are, so the
places between characters are those whose next byte is no continuation byte
(`boundary_iff`), and every byte is within three of one (`exists_boundary_le`).
-/
import Mathlib.Data.List.Basic
import Mathlib.Tactic

namespace HybridSearch.Theory.Utf8

set_option autoImplicit false

/-- A continuation byte. -/
def isCont (b : UInt8) : Bool := b &&& 0xC0 == 0x80

/-- The encoding of a list of characters. -/
def encode (chars : List Char) : List UInt8 := chars.flatMap String.utf8EncodeChar

def WellFormed (text : List UInt8) : Prop := ∃ chars, text = encode chars

/-- A place between two characters of the text. -/
def Boundary (text : List UInt8) (i : Nat) : Prop :=
  ∃ front back, text = encode front ++ encode back ∧ i = (encode front).length

theorem encode_append (front back : List Char) : encode (front ++ back) = encode front ++ encode back :=
  List.flatMap_append

theorem encode_cons (c : Char) (chars : List Char) :
    encode (c :: chars) = String.utf8EncodeChar c ++ encode chars := List.flatMap_cons

/-! ## The bytes of one character -/

theorem isCont_eq (b : UInt8) : isCont b = decide (0x80 ≤ b.toNat ∧ b.toNat < 0xC0) := by
  have all : ∀ n : Fin 256, isCont (UInt8.ofFin n) =
      decide (0x80 ≤ (UInt8.ofFin n).toNat ∧ (UInt8.ofFin n).toNat < 0xC0) := by decide +kernel
  exact all b.toFin

theorem isCont_ofNat (n : Nat) (fits : n < 256) :
    isCont (UInt8.ofNat n) = decide (0x80 ≤ n ∧ n < 0xC0) := by
  rw [isCont_eq, UInt8.toNat_ofNat_of_lt' fits]

/-- **The shape of a character**: one byte that begins it, and up to three that
continue it. -/
theorem utf8EncodeChar_shape (c : Char) : ∃ b rest, String.utf8EncodeChar c = b :: rest ∧
    isCont b = false ∧ (∀ x ∈ rest, isCont x = true) ∧ rest.length ≤ 3 := by
  have small : c.val.toNat ≤ 0x10FFFF := by
    have := c.valid
    simp only [UInt32.isValidChar, Nat.isValidChar] at this
    omega
  have same : c.toNat = c.val.toNat := rfl
  unfold String.utf8EncodeChar
  dsimp only
  split_ifs
  · refine ⟨_, _, rfl, ?_, by simp, by simp⟩
    rw [isCont_ofNat _ (by omega)]
    simp
    omega
  · refine ⟨_, _, rfl, ?_, ?_, by simp⟩
    · rw [isCont_ofNat _ (by omega)]
      simp
    · simp only [List.mem_singleton, forall_eq]
      rw [isCont_ofNat _ (by omega)]
      simp
      omega
  · refine ⟨_, _, rfl, ?_, ?_, by simp⟩
    · rw [isCont_ofNat _ (by omega)]
      simp
    · simp only [List.mem_cons, List.not_mem_nil, or_false, forall_eq_or_imp, forall_eq]
      rw [isCont_ofNat _ (by omega), isCont_ofNat _ (by omega)]
      simp
      omega
  · refine ⟨_, _, rfl, ?_, ?_, by simp⟩
    · rw [isCont_ofNat _ (by omega)]
      simp
    · simp only [List.mem_cons, List.not_mem_nil, or_false, forall_eq_or_imp, forall_eq]
      rw [isCont_ofNat _ (by omega), isCont_ofNat _ (by omega), isCont_ofNat _ (by omega)]
      simp
      omega

/-- An ASCII byte is in the encoding of its own character only. -/
theorem val_of_ascii_mem {c : Char} {b : UInt8} (mem : b ∈ String.utf8EncodeChar c) (ascii : b < 0x80) :
    c.val.toNat = b.toNat := by
  have small : b.toNat < 0x80 := UInt8.lt_iff_toNat_lt.mp ascii
  have bound := c.val.toNat_lt
  obtain ⟨first, rest, bytes, notCont, conts, -⟩ := utf8EncodeChar_shape c
  have head : b = first := by
    rw [bytes, List.mem_cons] at mem
    rcases mem with here | later
    · exact here
    · have high := conts b later
      rw [isCont_eq] at high
      simp at high
      omega
  subst head
  unfold String.utf8EncodeChar at bytes
  dsimp only at bytes
  split_ifs at bytes
  · cases bytes
    rw [UInt8.toNat_ofNat']
    omega
  all_goals
    cases bytes
    rw [UInt8.toNat_ofNat'] at small
    omega

/-! ## Boundaries -/

theorem boundary_zero {text : List UInt8} (wellFormed : WellFormed text) : Boundary text 0 := by
  obtain ⟨chars, rfl⟩ := wellFormed
  exact ⟨[], chars, rfl, rfl⟩

theorem boundary_length {text : List UInt8} (wellFormed : WellFormed text) :
    Boundary text text.length := by
  obtain ⟨chars, rfl⟩ := wellFormed
  exact ⟨chars, [], by simp [encode], rfl⟩

theorem boundary_le {text : List UInt8} {i : Nat} (boundary : Boundary text i) : i ≤ text.length := by
  obtain ⟨front, back, rfl, rfl⟩ := boundary
  simp

theorem getElem?_encode_cons (c : Char) (chars : List Char) {i : Nat}
    (past : (String.utf8EncodeChar c).length ≤ i) :
    (encode (c :: chars))[i]? = (encode chars)[i - (String.utf8EncodeChar c).length]? := by
  rw [encode_cons, List.getElem?_append_right past]

theorem boundary_cons (c : Char) {chars : List Char} {i : Nat}
    (past : (String.utf8EncodeChar c).length ≤ i)
    (later : Boundary (encode chars) (i - (String.utf8EncodeChar c).length)) :
    Boundary (encode (c :: chars)) i := by
  obtain ⟨front, back, cut, whole⟩ := later
  refine ⟨c :: front, back, ?_, ?_⟩
  · rw [encode_cons, encode_cons, cut, List.append_assoc]
  · rw [encode_cons, List.length_append]
    omega

/-- A byte inside a character, past its first, is a continuation byte. -/
theorem isCont_inside {c : Char} {chars : List Char} {i : Nat} {b : UInt8} (inside : 0 < i)
    (lt : i < (String.utf8EncodeChar c).length) (byte_eq : (encode (c :: chars))[i]? = some b) :
    isCont b = true := by
  obtain ⟨first, rest, bytes, -, cont, -⟩ := utf8EncodeChar_shape c
  rw [encode_cons, List.getElem?_append_left lt, bytes] at byte_eq
  obtain ⟨j, rfl⟩ := Nat.exists_eq_succ_of_ne_zero (Nat.ne_of_gt inside)
  exact cont b (List.mem_of_getElem? byte_eq)

/-- **The boundaries of a well-formed text** are its end and the places whose next
byte does not continue a character. -/
theorem boundary_iff {text : List UInt8} (wellFormed : WellFormed text) {i : Nat} :
    Boundary text i ↔ i = text.length ∨ ∃ b, text[i]? = some b ∧ isCont b = false := by
  constructor
  · rintro ⟨front, back, rfl, rfl⟩
    cases back with
    | nil => exact .inl (by simp [encode])
    | cons c back =>
        obtain ⟨b, rest, bytes, first, -, -⟩ := utf8EncodeChar_shape c
        refine .inr ⟨b, ?_, first⟩
        rw [List.getElem?_append_right le_rfl, Nat.sub_self, encode_cons, bytes]
        rfl
  · rintro (rfl | ⟨b, byte_eq, notCont⟩)
    · exact boundary_length wellFormed
    · obtain ⟨chars, rfl⟩ := wellFormed
      induction chars generalizing i with
      | nil => simp [encode] at byte_eq
      | cons c chars ih =>
          rcases Nat.eq_zero_or_pos i with rfl | inside
          · exact boundary_zero ⟨c :: chars, rfl⟩
          · rcases Nat.lt_or_ge i (String.utf8EncodeChar c).length with lt | past
            · exact absurd (isCont_inside inside lt byte_eq) (by simp [notCont])
            · rw [getElem?_encode_cons c chars past] at byte_eq
              exact boundary_cons c past (ih byte_eq)

/-- There is a boundary at most three bytes before every place. -/
theorem exists_boundary_le {text : List UInt8} (wellFormed : WellFormed text) {i : Nat}
    (inside : i ≤ text.length) : ∃ j, Boundary text j ∧ j ≤ i ∧ i ≤ j + 3 := by
  obtain ⟨chars, rfl⟩ := wellFormed
  induction chars generalizing i with
  | nil => exact ⟨0, boundary_zero ⟨[], rfl⟩, Nat.zero_le _, by simp [encode] at inside; omega⟩
  | cons c chars ih =>
      rcases Nat.lt_or_ge i (String.utf8EncodeChar c).length with lt | past
      · obtain ⟨b, rest, bytes, -, -, short⟩ := utf8EncodeChar_shape c
        rw [bytes, List.length_cons] at lt
        exact ⟨0, boundary_zero ⟨c :: chars, rfl⟩, Nat.zero_le _, by omega⟩
      · rw [encode_cons, List.length_append] at inside
        obtain ⟨j, boundary, le, near⟩ := ih (i := i - (String.utf8EncodeChar c).length) (by omega)
        refine ⟨j + (String.utf8EncodeChar c).length, boundary_cons c (Nat.le_add_left _ _) ?_, ?_, ?_⟩
        · rwa [Nat.add_sub_cancel]
        · omega
        · omega

/-- An ASCII byte is a character of its own. -/
theorem boundary_of_ascii {text : List UInt8} (wellFormed : WellFormed text) {i : Nat} {b : UInt8}
    (byte_eq : text[i]? = some b) (ascii : b < 0x80) : Boundary text i ∧ Boundary text (i + 1) := by
  have small : b.toNat < 0x80 := UInt8.lt_iff_toNat_lt.mp ascii
  have notCont : isCont b = false := by
    rw [isCont_eq]
    simp
    omega
  refine ⟨(boundary_iff wellFormed).mpr (.inr ⟨b, byte_eq, notCont⟩), ?_⟩
  obtain ⟨chars, rfl⟩ := wellFormed
  induction chars generalizing i with
  | nil => simp [encode] at byte_eq
  | cons c chars ih =>
      rcases Nat.lt_or_ge i (String.utf8EncodeChar c).length with lt | past
      · rcases Nat.eq_zero_or_pos i with rfl | inside
        · have one : (String.utf8EncodeChar c).length = 1 := by
            rw [encode_cons, List.getElem?_append_left lt] at byte_eq
            have bound := c.val.toNat_lt
            unfold String.utf8EncodeChar at byte_eq ⊢
            dsimp only at byte_eq ⊢
            split_ifs at byte_eq ⊢
            · rfl
            all_goals
              rw [List.getElem?_cons_zero, Option.some.injEq] at byte_eq
              rw [← byte_eq, UInt8.toNat_ofNat'] at small
              omega
          have whole : Boundary (encode chars) 0 := boundary_zero ⟨chars, rfl⟩
          exact boundary_cons c (by omega) (by rwa [one])
        · exact absurd (isCont_inside inside lt byte_eq) (by simp [notCont])
      · have later : (String.utf8EncodeChar c).length ≤ i + 1 := by omega
        rw [getElem?_encode_cons c chars past] at byte_eq
        have next := ih byte_eq
        rw [← Nat.sub_add_comm past] at next
        exact boundary_cons c later next

end HybridSearch.Theory.Utf8
