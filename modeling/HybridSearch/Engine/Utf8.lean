/-
# Engine.Utf8 -- decoding and encoding code points (src/lexical/tokenizer.hpp)

`utf8Decode` reads one code point at the head of some bytes and gives its length;
a byte that begins no well-formed sequence is U+FFFD of length one.  `codePoints`
is the segmentation of a whole byte string that this makes.

On well-formed text the decoder finds the characters (`codePoints_encode`), and
`utf8Append` writes a character as its encoding (`utf8Append_val`).
-/
import HybridSearch.Engine.Machine
import HybridSearch.Theory.Utf8

namespace HybridSearch.Engine

open HybridSearch.Theory

set_option autoImplicit false

/-- Byte `i` continues a sequence. -/
def cont (p : Bytes) (i : Nat) : Bool :=
  match p[i]? with
  | some b => b &&& 0xC0 == 0x80
  | none => false

/-- `p[i] & 0x3F`. -/
def low6 (p : Bytes) (i : Nat) : Nat := (p.getD i 0).toNat &&& 0x3F

/-- `utf8_decode`: the code point at the head of `p` and its length. -/
def utf8Decode (p : Bytes) : Nat × Nat :=
  let c := (p.getD 0 0).toNat
  if c < 0x80 then (c, 1)
  else if 0xC2 ≤ c ∧ c ≤ 0xDF ∧ cont p 1 then (((c &&& 0x1F) <<< 6) ||| low6 p 1, 2)
  else
    let three := ((c &&& 0x0F) <<< 12) ||| (low6 p 1 <<< 6) ||| low6 p 2
    if (0xE0 ≤ c ∧ c ≤ 0xEF ∧ cont p 1 ∧ cont p 2) ∧
        0x800 ≤ three ∧ (three < 0xD800 ∨ 0xDFFF < three) then (three, 3)
    else
      let four := ((c &&& 0x07) <<< 18) ||| (low6 p 1 <<< 12) ||| (low6 p 2 <<< 6) ||| low6 p 3
      if (0xF0 ≤ c ∧ c ≤ 0xF4 ∧ cont p 1 ∧ cont p 2 ∧ cont p 3) ∧
          0x10000 ≤ four ∧ four ≤ 0x10FFFF then (four, 4)
      else (0xFFFD, 1)

/-- `utf8_append`: the bytes appended for a code point. -/
def utf8Append (cp : Nat) : Bytes :=
  if cp < 0x80 then [UInt8.ofNat cp]
  else if cp < 0x800 then
    [UInt8.ofNat (0xC0 ||| (cp >>> 6)), UInt8.ofNat (0x80 ||| (cp &&& 0x3F))]
  else if cp < 0x10000 then
    [UInt8.ofNat (0xE0 ||| (cp >>> 12)), UInt8.ofNat (0x80 ||| ((cp >>> 6) &&& 0x3F)),
      UInt8.ofNat (0x80 ||| (cp &&& 0x3F))]
  else
    [UInt8.ofNat (0xF0 ||| (cp >>> 18)), UInt8.ofNat (0x80 ||| ((cp >>> 12) &&& 0x3F)),
      UInt8.ofNat (0x80 ||| ((cp >>> 6) &&& 0x3F)), UInt8.ofNat (0x80 ||| (cp &&& 0x3F))]

/-! ## Lengths -/

theorem lt_length_of_cont {p : Bytes} {i : Nat} (here : cont p i = true) : i < p.length := by
  unfold cont at here
  split at here
  · rename_i b byte_eq
    exact (List.getElem?_eq_some_iff.mp byte_eq).1
  · cases here

theorem utf8Decode_length {p : Bytes} (full : p ≠ []) :
    1 ≤ (utf8Decode p).2 ∧ (utf8Decode p).2 ≤ p.length := by
  have one : 1 ≤ p.length := List.length_pos_of_ne_nil full
  unfold utf8Decode
  dsimp only
  split_ifs with ascii two three four
  · exact ⟨le_rfl, one⟩
  · have := lt_length_of_cont two.2.2
    constructor <;> dsimp only <;> omega
  · have := lt_length_of_cont three.1.2.2.2
    constructor <;> dsimp only <;> omega
  · have := lt_length_of_cont four.1.2.2.2.2
    constructor <;> dsimp only <;> omega
  · exact ⟨le_rfl, one⟩

/-- The segmentation of a byte string: each code point with its length. -/
def codePoints (p : Bytes) : List (Nat × Nat) :=
  match p with
  | [] => []
  | b :: rest => utf8Decode (b :: rest) :: codePoints ((b :: rest).drop (utf8Decode (b :: rest)).2)
termination_by p.length
decreasing_by
  have := utf8Decode_length (List.cons_ne_nil b rest)
  simp only [List.length_drop, List.length_cons] at this ⊢
  omega

/-- The number of bytes of some code points. -/
def byteLength (cps : List (Nat × Nat)) : Nat := (cps.map Prod.snd).sum

theorem byteLength_append (front back : List (Nat × Nat)) :
    byteLength (front ++ back) = byteLength front + byteLength back := by
  simp [byteLength]

theorem codePoints_of_ne_nil {p : Bytes} (full : p ≠ []) :
    codePoints p = utf8Decode p :: codePoints (p.drop (utf8Decode p).2) := by
  cases p with
  | nil => exact absurd rfl full
  | cons b rest => rw [codePoints]

/-- Dropping the bytes of some code points drops the code points. -/
theorem codePoints_drop (p : Bytes) (n : Nat) :
    codePoints (p.drop (byteLength ((codePoints p).take n))) = (codePoints p).drop n := by
  induction n generalizing p with
  | zero => simp [byteLength]
  | succ n ih =>
      by_cases full : p = []
      · subst full
        simp [codePoints, byteLength]
      · rw [codePoints_of_ne_nil full, List.take_succ_cons, List.drop_succ_cons]
        have sum : byteLength (utf8Decode p :: (codePoints (p.drop (utf8Decode p).2)).take n) =
            (utf8Decode p).2 + byteLength ((codePoints (p.drop (utf8Decode p).2)).take n) := by
          simp [byteLength]
        rw [sum, ← List.drop_drop, ih]

theorem byteLength_codePoints (p : Bytes) : byteLength (codePoints p) = p.length := by
  induction p using codePoints.induct with
  | case1 => simp [codePoints, byteLength]
  | case2 b rest ih =>
      have len := utf8Decode_length (List.cons_ne_nil b rest)
      rw [codePoints, byteLength, List.map_cons, List.sum_cons, ← byteLength, ih, List.length_drop]
      omega

theorem one_le_of_mem_codePoints {p : Bytes} {cp : Nat × Nat} (mem : cp ∈ codePoints p) : 1 ≤ cp.2 := by
  induction p using codePoints.induct with
  | case1 => simp [codePoints] at mem
  | case2 b rest ih =>
      rw [codePoints, List.mem_cons] at mem
      rcases mem with rfl | mem
      · exact (utf8Decode_length (List.cons_ne_nil b rest)).1
      · exact ih mem

/-! ## Well-formed text -/

theorem byte_toNat {n : Nat} (fits : n < 256) : (UInt8.ofNat n).toNat = n :=
  UInt8.toNat_ofNat_of_lt' fits

theorem low6_eq {p : Bytes} {i n : Nat} (byte_eq : p[i]? = some (UInt8.ofNat n)) (fits : n < 256) :
    low6 p i = n % 64 := by
  rw [low6, List.getD_eq_getElem?_getD, byte_eq, Option.getD_some, byte_toNat fits]
  exact Nat.and_two_pow_sub_one_eq_mod n 6

/-- A continuation byte of the encoding, as the decoder reads it. -/
theorem tail_byte {p : Bytes} {i n : Nat} (byte_eq : p[i]? = some (UInt8.ofNat (n % 64 + 128))) :
    cont p i = true ∧ low6 p i = n % 64 := by
  constructor
  · have byte := Utf8.isCont_ofNat (n % 64 + 128) (by omega)
    unfold Utf8.isCont at byte
    unfold cont
    rw [byte_eq]
    dsimp only
    rw [byte, decide_eq_true_eq]
    omega
  · rw [low6_eq byte_eq (by omega)]
    omega

/-- Bits below a shifted value are added to it. -/
theorem or_low (a b k : Nat) (low : b < 2 ^ k) : (a <<< k) ||| b = a * 2 ^ k + b := by
  rw [Nat.shiftLeft_eq, Nat.mul_comm, Nat.two_pow_add_eq_or_of_lt low]

/-- **Decoding undoes encoding**, whatever follows. -/
theorem utf8Decode_encode (c : Char) (rest : Bytes) :
    utf8Decode (String.utf8EncodeChar c ++ rest) = (c.val.toNat, (String.utf8EncodeChar c).length) := by
  have valid := c.valid
  simp only [UInt32.isValidChar, Nat.isValidChar] at valid
  unfold String.utf8EncodeChar
  dsimp only
  generalize c.val.toNat = v at valid ⊢
  split_ifs with one two three
  · simp only [List.cons_append, List.nil_append, utf8Decode, List.getD_cons_zero]
    rw [byte_toNat (by omega), if_pos (by omega)]
    rfl
  · generalize text : _ ++ rest = p
    have first : (p.getD 0 0).toNat = v / 64 % 32 + 192 := by
      rw [← text]
      exact byte_toNat (by omega)
    obtain ⟨c1, l1⟩ : cont p 1 = true ∧ low6 p 1 = v % 64 := by
      rw [← text]
      exact tail_byte rfl
    have and5 : v / 64 % 32 + 192 &&& 0x1F = v / 64 % 32 := by
      rw [Nat.and_two_pow_sub_one_eq_mod _ 5]
      omega
    unfold utf8Decode
    dsimp only
    rw [first, if_neg (by omega), if_pos ⟨by omega, by omega, c1⟩, and5, l1, or_low _ _ 6 (by omega)]
    exact Prod.ext (by dsimp only; omega) rfl
  · generalize text : _ ++ rest = p
    have first : (p.getD 0 0).toNat = v / 4096 % 16 + 224 := by
      rw [← text]
      exact byte_toNat (by omega)
    obtain ⟨c1, l1⟩ : cont p 1 = true ∧ low6 p 1 = v / 64 % 64 := by
      rw [← text]
      exact tail_byte rfl
    obtain ⟨c2, l2⟩ : cont p 2 = true ∧ low6 p 2 = v % 64 := by
      rw [← text]
      exact tail_byte rfl
    have and4 : v / 4096 % 16 + 224 &&& 0x0F = v / 4096 % 16 := by
      rw [Nat.and_two_pow_sub_one_eq_mod _ 4]
      omega
    have whole : ((v / 4096 % 16) <<< 12 ||| (v / 64 % 64) <<< 6) ||| v % 64 = v := by
      rw [Nat.or_assoc, or_low _ _ 6 (by omega), or_low _ _ 12 (by omega)]
      omega
    unfold utf8Decode
    dsimp only
    rw [first, if_neg (by omega), if_neg (by omega), and4, l1, l2, whole,
      if_pos ⟨⟨by omega, by omega, c1, c2⟩, by omega, by omega⟩]
    rfl
  · generalize text : _ ++ rest = p
    have first : (p.getD 0 0).toNat = v / 262144 % 8 + 240 := by
      rw [← text]
      exact byte_toNat (by omega)
    obtain ⟨c1, l1⟩ : cont p 1 = true ∧ low6 p 1 = v / 4096 % 64 := by
      rw [← text]
      exact tail_byte rfl
    obtain ⟨c2, l2⟩ : cont p 2 = true ∧ low6 p 2 = v / 64 % 64 := by
      rw [← text]
      exact tail_byte rfl
    obtain ⟨c3, l3⟩ : cont p 3 = true ∧ low6 p 3 = v % 64 := by
      rw [← text]
      exact tail_byte rfl
    have and3 : v / 262144 % 8 + 240 &&& 0x07 = v / 262144 % 8 := by
      rw [Nat.and_two_pow_sub_one_eq_mod _ 3]
      omega
    have whole : (((v / 262144 % 8) <<< 18 ||| (v / 4096 % 64) <<< 12) ||| (v / 64 % 64) <<< 6) |||
        v % 64 = v := by
      rw [Nat.or_assoc, or_low _ _ 6 (by omega), Nat.or_assoc, or_low _ _ 12 (by omega),
        or_low _ _ 18 (by omega)]
      omega
    unfold utf8Decode
    dsimp only
    rw [first, if_neg (by omega), if_neg (by omega), if_neg (by omega), and3, l1, l2, l3, whole,
      if_pos ⟨⟨by omega, by omega, c1, c2, c3⟩, by omega, by omega⟩]
    rfl

theorem or_high (a b k : Nat) (low : b < 2 ^ k) : a * 2 ^ k ||| b = a * 2 ^ k + b := by
  rw [← or_low a b k low, Nat.shiftLeft_eq]

/-- A character is written as its encoding. -/
theorem utf8Append_val (c : Char) : utf8Append c.val.toNat = String.utf8EncodeChar c := by
  have valid := c.valid
  simp only [UInt32.isValidChar, Nat.isValidChar] at valid
  have low : ∀ n, 0x80 ||| (n &&& 0x3F) = n % 64 + 128 := fun n => by
    rw [Nat.and_two_pow_sub_one_eq_mod n 6, Nat.add_comm]
    exact or_high 2 (n % 64) 6 (by omega)
  unfold utf8Append String.utf8EncodeChar
  dsimp only
  generalize c.val.toNat = v at valid ⊢
  simp only [low, Nat.shiftRight_eq_div_pow, Nat.reducePow]
  by_cases one : v < 0x80
  · rw [if_pos one, if_pos (show v ≤ 0x7F by omega)]
  rw [if_neg one, if_neg (show ¬ v ≤ 0x7F by omega)]
  by_cases two : v < 0x800
  · have first : 0xC0 ||| v / 64 = v / 64 % 32 + 192 := by
      rw [Nat.mod_eq_of_lt (by omega), Nat.add_comm]
      exact or_high 6 (v / 64) 5 (by omega)
    rw [if_pos two, if_pos (show v ≤ 0x7FF by omega), first]
  rw [if_neg two, if_neg (show ¬ v ≤ 0x7FF by omega)]
  by_cases three : v < 0x10000
  · have first : 0xE0 ||| v / 4096 = v / 4096 % 16 + 224 := by
      rw [Nat.mod_eq_of_lt (by omega), Nat.add_comm]
      exact or_high 14 (v / 4096) 4 (by omega)
    rw [if_pos three, if_pos (show v ≤ 0xFFFF by omega), first]
  · have first : 0xF0 ||| v / 262144 = v / 262144 % 8 + 240 := by
      rw [Nat.mod_eq_of_lt (by omega), Nat.add_comm]
      exact or_high 30 (v / 262144) 3 (by omega)
    rw [if_neg three, if_neg (show ¬ v ≤ 0xFFFF by omega), first]

/-- **The segmentation of well-formed text is its characters.** -/
theorem codePoints_encode (chars : List Char) : codePoints (Utf8.encode chars) =
    chars.map fun c => (c.val.toNat, (String.utf8EncodeChar c).length) := by
  induction chars with
  | nil => rw [Utf8.encode, List.flatMap_nil, codePoints, List.map_nil]
  | cons c chars ih =>
      have full : Utf8.encode (c :: chars) ≠ [] := by
        obtain ⟨b, rest, bytes, -⟩ := Utf8.utf8EncodeChar_shape c
        rw [Utf8.encode_cons, bytes]
        exact List.cons_ne_nil _ _
      rw [codePoints_of_ne_nil full, Utf8.encode_cons, utf8Decode_encode, List.drop_left, ih,
        List.map_cons]

/-- The places between code points of well-formed text are its boundaries. -/
theorem boundary_of_codePoints {text : Bytes} (wellFormed : Utf8.WellFormed text)
    {front back : List (Nat × Nat)} (cut : codePoints text = front ++ back) :
    Utf8.Boundary text (byteLength front) := by
  obtain ⟨chars, rfl⟩ := wellFormed
  rw [codePoints_encode] at cut
  obtain ⟨lead, rest, rfl, rfl, rfl⟩ := List.map_eq_append_iff.mp cut
  refine ⟨lead, rest, Utf8.encode_append lead rest, ?_⟩
  have bytes := byteLength_codePoints (Utf8.encode lead)
  rwa [codePoints_encode] at bytes

end HybridSearch.Engine
