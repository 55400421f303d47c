/-
# Theory.Leb128 -- base-128 integers of a bounded width

`encode` writes seven bits a byte, low first, with the high bit set on every
byte but the last.  `readFrom` accumulates them back into a `width`-bit word and
gives up past `maxShift`.  The formats of a program differ only in the width,
the last shift allowed and the two errors, so the round trip is proved once, for
every format whose last shift reaches its last bit.
-/
import HybridSearch.Theory.Reader
import Mathlib.Data.Nat.Bitwise
import Mathlib.Tactic.NormNum
import Mathlib.Tactic.Ring
import Mathlib.Tactic.Linarith

namespace HybridSearch.Theory.Leb128

set_option autoImplicit false

universe u

variable {ε : Type u}

/-- The word size a reader accumulates in, the last shift it uses, and its errors. -/
structure Format (ε : Type u) where
  width : Nat
  maxShift : Nat
  truncated : ε
  overlong : ε

def encode (v : Nat) : List UInt8 :=
  if v < 0x80 then [UInt8.ofNat v]
  else UInt8.ofNat ((v &&& 0x7F) ||| 0x80) :: encode (v >>> 7)
termination_by v
decreasing_by
  rw [Nat.shiftRight_eq_div_pow]
  omega

/-- One accumulation: or the low seven bits of `b` into `x` at `shift`. -/
def accumulate (width x shift : Nat) (b : UInt8) : Nat :=
  (x ||| (b.toNat &&& 0x7F) <<< shift) % 2 ^ width

/-- The reading loop, from an accumulated value and the next shift. -/
def readFrom (f : Format ε) (x shift : Nat) : List UInt8 → Except ε (Nat × List UInt8)
  | [] => .error f.truncated
  | b :: rest =>
      let x := accumulate f.width x shift b
      if b < 0x80 then .ok (x, rest)
      else if f.maxShift < shift + 7 then .error f.overlong
      else readFrom f x (shift + 7) rest

def read (f : Format ε) : Reader ε Nat := fun bytes => readFrom f 0 0 bytes

theorem shift_seven (v : Nat) : v >>> 7 = v / 128 := by
  rw [Nat.shiftRight_eq_div_pow]

theorem low_seven (v : Nat) : v &&& 0x7F = v % 128 :=
  Nat.and_two_pow_sub_one_eq_mod v 7

theorem more_byte (v : Nat) : (UInt8.ofNat ((v &&& 0x7F) ||| 0x80)).toNat = v % 128 + 128 := by
  have low : v % 128 < 2 ^ 7 := Nat.mod_lt _ (by decide)
  have join : 128 ||| v % 128 = 128 + v % 128 := by
    simpa using (Nat.two_pow_add_eq_or_of_lt low 1).symm
  rw [low_seven, Nat.lor_comm, join, UInt8.toNat_ofNat']
  omega

theorem encode_of_lt {v : Nat} (small : v < 0x80) : encode v = [UInt8.ofNat v] := by
  rw [encode, if_pos small]

theorem encode_of_le {v : Nat} (large : 0x80 ≤ v) :
    encode v = UInt8.ofNat ((v &&& 0x7F) ||| 0x80) :: encode (v / 128) := by
  rw [encode, if_neg (by omega), shift_seven]

theorem encode_ne_nil (v : Nat) : encode v ≠ [] := by
  rw [encode]
  split <;> simp

/-- An accumulation above the bits already there adds. -/
theorem accumulate_eq {width x shift : Nat} (b : UInt8) (below : x < 2 ^ shift)
    (fits : x + b.toNat % 128 * 2 ^ shift < 2 ^ width) :
    accumulate width x shift b = x + b.toNat % 128 * 2 ^ shift := by
  have join : x ||| (b.toNat % 128) <<< shift = x + b.toNat % 128 * 2 ^ shift := by
    rw [Nat.lor_comm, ← Nat.shiftLeft_add_eq_or_of_lt below, Nat.shiftLeft_eq, Nat.add_comm]
  rw [accumulate, low_seven, join, Nat.mod_eq_of_lt fits]

/-- **Round trip of the loop**, from any accumulated prefix. -/
theorem readFrom_encode (f : Format ε) (reach : f.width ≤ f.maxShift + 1) (v : Nat) :
    ∀ (x shift : Nat) (rest : List UInt8), x < 2 ^ shift → x + v * 2 ^ shift < 2 ^ f.width →
      readFrom f x shift (encode v ++ rest) = .ok (x + v * 2 ^ shift, rest) := by
  induction v using Nat.strongRecOn with
  | _ v ih =>
    intro x shift rest below fits
    by_cases small : v < 0x80
    · have byte : (UInt8.ofNat v).toNat = v := by
        rw [UInt8.toNat_ofNat']
        omega
      have last : UInt8.ofNat v < 0x80 := by
        rw [UInt8.lt_iff_toNat_lt, byte]
        simpa using small
      have mod : (UInt8.ofNat v).toNat % 128 = v := by
        rw [byte]
        omega
      rw [encode_of_lt small, List.singleton_append, readFrom, if_pos last,
        accumulate_eq _ below (by rw [mod]; exact fits), mod]
    · have large : 0x80 ≤ v := by omega
      have byte := more_byte v
      have more : ¬ UInt8.ofNat ((v &&& 0x7F) ||| 0x80) < 0x80 := by
        rw [UInt8.lt_iff_toNat_lt, byte]
        simp
      have low : (UInt8.ofNat ((v &&& 0x7F) ||| 0x80)).toNat % 128 = v % 128 := by
        rw [byte]
        omega
      -- the low seven bits and the rest of the value make up the value
      have splitValue : v % 128 * 2 ^ shift + v / 128 * 2 ^ (shift + 7) = v * 2 ^ shift := by
        have : v = v % 128 + 128 * (v / 128) := (Nat.mod_add_div v 128).symm
        calc v % 128 * 2 ^ shift + v / 128 * 2 ^ (shift + 7)
            = (v % 128 + 128 * (v / 128)) * 2 ^ shift := by rw [pow_add]; ring
          _ = v * 2 ^ shift := by rw [← this]
      have reached : ¬ f.maxShift < shift + 7 := by
        have big : 2 ^ (shift + 7) ≤ v * 2 ^ shift := by
          rw [pow_add, Nat.mul_comm]
          exact Nat.mul_le_mul_right _ large
        have : shift + 7 < f.width :=
          (Nat.pow_lt_pow_iff_right (by decide)).mp (lt_of_le_of_lt big (by omega))
        omega
      have fitsLow : x + v % 128 * 2 ^ shift < 2 ^ f.width := by omega
      have belowNext : x + v % 128 * 2 ^ shift < 2 ^ (shift + 7) := by
        have : v % 128 * 2 ^ shift ≤ 127 * 2 ^ shift := Nat.mul_le_mul_right _ (by omega)
        rw [pow_add]
        omega
      rw [encode_of_le large, List.cons_append, readFrom, if_neg more, if_neg reached,
        accumulate_eq _ below (by rw [low]; exact fitsLow), low,
        ih (v / 128) (by omega) _ _ _ belowNext (by omega), Nat.add_assoc, splitValue]

theorem reads_encode (f : Format ε) (reach : f.width ≤ f.maxShift + 1) {v : Nat}
    (fits : v < 2 ^ f.width) : Reads (read f) (encode v) v := by
  intro rest
  have := readFrom_encode f reach v 0 0 rest (by simp) (by simpa using fits)
  change readFrom f 0 0 (encode v ++ rest) = _
  simpa using this

/-! ## Any byte string -/

/-- The mathematical value: the sum of the low seven bits of byte `i` times `2 ^ (7 * i)`. -/
def value : List UInt8 → Nat
  | [] => 0
  | b :: rest => b.toNat % 128 + value rest * 2 ^ 7

/-- Every byte but the last has the high bit. -/
def Ended : List UInt8 → Prop
  | [] => False
  | [b] => b < 0x80
  | b :: rest => ¬b < 0x80 ∧ Ended rest

theorem value_lt (bytes : List UInt8) : value bytes < 2 ^ (7 * bytes.length) := by
  induction bytes with
  | nil => exact Nat.one_pos
  | cons b rest ih =>
      rw [value, List.length_cons, Nat.mul_succ, pow_add]
      have low : b.toNat % 128 < 128 := Nat.mod_lt _ (by decide)
      omega

theorem value_append (front back : List UInt8) :
    value (front ++ back) = value front + value back * 2 ^ (7 * front.length) := by
  induction front with
  | nil => rw [List.nil_append, value, List.length_nil, Nat.mul_zero, pow_zero, Nat.mul_one, Nat.zero_add]
  | cons b rest ih =>
      rw [List.cons_append, value, value, ih, List.length_cons, Nat.mul_succ, pow_add]
      ring

theorem ended_cons {b : UInt8} (more : ¬b < 0x80) {rest : List UInt8} : Ended (b :: rest) ↔ Ended rest := by
  cases rest with
  | nil => exact iff_of_false more not_false
  | cons c rest => exact and_iff_right more

theorem ended_stop {b : UInt8} (stop : b < 0x80) {rest : List UInt8} : Ended (b :: rest) ↔ rest = [] := by
  cases rest with
  | nil => exact iff_of_true stop rfl
  | cons c rest => exact iff_of_false (fun ended => ended.1 stop) (List.cons_ne_nil _ _)

theorem ended_concat {more : List UInt8} {last : UInt8} :
    Ended (more ++ [last]) ↔ (∀ b ∈ more, ¬b < 0x80) ∧ last < 0x80 := by
  induction more with
  | nil => exact (and_iff_right (List.forall_mem_nil _)).symm
  | cons b rest ih =>
      rw [List.forall_mem_cons, and_assoc, ← ih]
      by_cases stop : b < 0x80
      · refine iff_of_false (fun ended => ?_) (fun both => both.1 stop)
        exact List.append_ne_nil_of_right_ne_nil rest (List.cons_ne_nil _ _) ((ended_stop stop).mp ended)
      · exact (ended_cons stop).trans (and_iff_right stop).symm

/-- One accumulation, where the word may overflow. -/
theorem accumulate_mod {width x shift : Nat} (b : UInt8) (below : x < 2 ^ shift) :
    accumulate width x shift b = (x + b.toNat % 128 * 2 ^ shift) % 2 ^ width := by
  rw [accumulate, low_seven, Nat.lor_comm, ← Nat.shiftLeft_add_eq_or_of_lt below, Nat.shiftLeft_eq,
    Nat.add_comm]

/-- **What the loop reads**: the bytes up to the first one without the high bit, as long as their
last shift is allowed, and of their value the low bits. -/
theorem readFrom_ok_iff (f : Format ε) {bytes rest : List UInt8} {x shift v : Nat}
    (below : x < 2 ^ shift) (allowed : shift ≤ f.maxShift) :
    readFrom f x shift bytes = .ok (v, rest) ↔
      ∃ used, bytes = used ++ rest ∧ Ended used ∧ shift + 7 * used.length ≤ f.maxShift + 7 ∧
        v = (x + value used * 2 ^ shift) % 2 ^ f.width := by
  induction bytes generalizing x shift with
  | nil =>
      refine iff_of_false (fun run => by cases run) ?_
      rintro ⟨used, whole, ended, -⟩
      rw [(List.append_eq_nil_iff.mp whole.symm).1] at ended
      exact ended
  | cons b tail ih =>
      have same := @accumulate_mod f.width _ _ b below
      have next_below : accumulate f.width x shift b < 2 ^ (shift + 7) := by
        rw [same]
        have low : b.toNat % 128 < 128 := Nat.mod_lt _ (by decide)
        have high : b.toNat % 128 * 2 ^ shift ≤ 127 * 2 ^ shift := Nat.mul_le_mul_right _ (by omega)
        refine (Nat.mod_le _ _).trans_lt ?_
        rw [pow_add]
        omega
      have one : x + value [b] * 2 ^ shift = x + b.toNat % 128 * 2 ^ shift := by
        rw [value, value, Nat.zero_mul, Nat.add_zero]
      -- the first byte and the value of the others
      have sum (used : List UInt8) : (accumulate f.width x shift b + value used * 2 ^ (shift + 7)) %
          2 ^ f.width = (x + value (b :: used) * 2 ^ shift) % 2 ^ f.width := by
        rw [same, Nat.mod_add_mod, value, pow_add]
        congr 1
        ring
      rw [readFrom]
      by_cases stop : b < 0x80
      · rw [if_pos stop]
        constructor
        · intro run
          cases run
          exact ⟨[b], rfl, stop, by simpa using allowed, by rw [one, same]⟩
        · rintro ⟨used, whole, ended, -, rfl⟩
          cases used with
          | nil => exact absurd ended not_false
          | cons c used =>
              rw [List.cons_append] at whole
              obtain ⟨rfl, rfl⟩ := List.cons.inj whole
              rw [(ended_stop stop).mp ended, one, same]
              rfl
      · rw [if_neg stop]
        have longer (used : List UInt8) : shift + 7 * (b :: used).length = shift + 7 + 7 * used.length := by
          rw [List.length_cons]
          omega
        split_ifs with last
        · refine iff_of_false (fun run => by cases run) ?_
          rintro ⟨used, whole, ended, short, -⟩
          cases used with
          | nil => exact ended
          | cons c used =>
              rw [List.cons_append] at whole
              obtain ⟨rfl, rfl⟩ := List.cons.inj whole
              have some : used ≠ [] := by
                rintro rfl
                exact stop ended
              have positive := List.length_pos_iff.mpr some
              rw [longer] at short
              omega
        · rw [ih next_below (Nat.not_lt.mp last)]
          constructor
          · rintro ⟨used, rfl, ended, short, rfl⟩
            exact ⟨b :: used, rfl, (ended_cons stop).mpr ended, by rw [longer]; exact short, sum used⟩
          · rintro ⟨used, whole, ended, short, rfl⟩
            cases used with
            | nil => exact absurd ended not_false
            | cons c used =>
                rw [List.cons_append] at whole
                obtain ⟨rfl, rfl⟩ := List.cons.inj whole
                rw [longer] at short
                exact ⟨used, rfl, (ended_cons stop).mp ended, short, (sum used).symm⟩

/-- A reader that stops by itself fails with one of its two errors. -/
theorem readFrom_error (f : Format ε) {bytes : List UInt8} {x shift : Nat} {e : ε}
    (run : readFrom f x shift bytes = .error e) : e = f.truncated ∨ e = f.overlong := by
  induction bytes generalizing x shift with
  | nil =>
      cases run
      exact Or.inl rfl
  | cons b tail ih =>
      rw [readFrom] at run
      split_ifs at run with stop last
      · cases run
        exact Or.inr rfl
      · exact ih run

end HybridSearch.Theory.Leb128
