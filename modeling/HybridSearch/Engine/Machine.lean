/-
# Engine.Machine -- the machine the engine runs on: words, bytes and faults

Machine integers are naturals with the wrap-around written out: `u32` and `u64`
truncate, `sub32` is the unsigned 32-bit difference.  A computation of the
engine ends in a value or in a `Fault`: an exception with its text, a step that
C++ leaves undefined (a read outside an array, a shift by the width or more), or
a loop that did not end within the fuel the model gives it.
-/
import HybridSearch.Theory.Leb128

namespace HybridSearch.Engine

open HybridSearch.Theory

set_option autoImplicit false

/-- How a computation of the engine can fail. -/
inductive Fault
  /-- An exception, with its text. -/
  | thrown (what : String)
  /-- Undefined behaviour: an index outside its array, an oversized shift. -/
  | undefined
  /-- The loop did not end within its fuel. -/
  | diverged
  deriving DecidableEq, Repr

abbrev Bytes := List UInt8

abbrev u32 (x : Nat) : Nat := x % 2 ^ 32
abbrev u64 (x : Nat) : Nat := x % 2 ^ 64

/-- Unsigned 32-bit subtraction. -/
abbrev sub32 (a b : Nat) : Nat := u32 (a + (2 ^ 32 - b % 2 ^ 32))

/-- Unsigned 64-bit subtraction. -/
abbrev sub64 (a b : Nat) : Nat := u64 (a + (2 ^ 64 - b % 2 ^ 64))

/-- `UINT32_MAX`. -/
abbrev uint32Max : Nat := 2 ^ 32 - 1

/-- Element `i` of an array, or undefined behaviour. -/
def at? {α : Type} (xs : List α) (i : Nat) : Except Fault α :=
  match xs[i]? with
  | some x => .ok x
  | none => .error .undefined

theorem at?_eq_ok {α : Type} {xs : List α} {i : Nat} {x : α} (found : xs[i]? = some x) :
    at? xs i = .ok x := by
  simp [at?, found]

theorem ok_bind {α β : Type} (a : α) (next : α → Except Fault β) :
    ((Except.ok a : Except Fault α) >>= next) = next a := rfl

/-- A sequence that ends in a value, taken apart. -/
theorem bind_eq_ok {α β : Type} {x : Except Fault α} {f : α → Except Fault β} {b : β} :
    (x >>= f) = .ok b ↔ ∃ a, x = .ok a ∧ f a = .ok b := by
  constructor
  · intro done
    cases x with
    | ok a => exact ⟨a, rfl, done⟩
    | error fault => cases done
  · rintro ⟨a, rfl, done⟩
    exact done

/-- Read one byte. -/
def readByte : Reader Fault Nat := fun bytes =>
  match bytes with
  | [] => .error .undefined
  | b :: rest => .ok (b.toNat, rest)

theorem reads_byte {v : Nat} (fits : v < 256) : Reads readByte [UInt8.ofNat v] v := by
  intro rest
  have : (UInt8.ofNat v).toNat = v := by
    rw [UInt8.toNat_ofNat']
    omega
  change readByte ([UInt8.ofNat v] ++ rest) = _
  simp [readByte, this]

/-! ## Little-endian words -/

/-- The bytes of a 32-bit word, as `memcpy` sees them. -/
def le32 (x : Nat) : Bytes :=
  [UInt8.ofNat x, UInt8.ofNat (x / 2 ^ 8), UInt8.ofNat (x / 2 ^ 16), UInt8.ofNat (x / 2 ^ 24)]

def storeWords (w : Nat → Nat) (count : Nat) : Bytes :=
  (List.range count).flatMap fun i => le32 (w i)

/-- Word `i` of a byte string. -/
def wordAt (bytes : Bytes) (i : Nat) : Nat :=
  let b := fun j => (bytes.getD (4 * i + j) 0).toNat
  b 0 + b 1 * 2 ^ 8 + b 2 * 2 ^ 16 + b 3 * 2 ^ 24

/-- `memcpy` of `count` words out of the bytes, advancing past them. -/
def loadWords (count : Nat) : Reader Fault (Nat → Nat) := fun bytes =>
  if bytes.length < 4 * count then .error .undefined
  else .ok (wordAt (bytes.take (4 * count)), bytes.drop (4 * count))

theorem storeWords_succ (w : Nat → Nat) (count : Nat) :
    storeWords w (count + 1) = storeWords w count ++ le32 (w count) := by
  simp [storeWords, List.range_succ]

theorem length_storeWords (w : Nat → Nat) (count : Nat) : (storeWords w count).length = 4 * count := by
  induction count with
  | zero => rfl
  | succ count ih =>
      rw [storeWords_succ, List.length_append, ih]
      simp [le32]
      omega

theorem getD_storeWords (w : Nat → Nat) {count i j : Nat} (inside : i < count) (lane : j < 4) :
    (storeWords w count).getD (4 * i + j) 0 = (le32 (w i)).getD j 0 := by
  induction count with
  | zero => omega
  | succ count ih =>
      have len := length_storeWords w count
      rw [storeWords_succ]
      by_cases last : i = count
      · subst last
        rw [List.getD_append_right _ _ _ _ (by omega), len]
        congr 1
        omega
      · rw [List.getD_append _ _ _ _ (by omega)]
        exact ih (by omega)

theorem wordAt_storeWords {w : Nat → Nat} {count i : Nat} (inside : i < count)
    (fits : w i < 2 ^ 32) : wordAt (storeWords w count) i = w i := by
  simp only [wordAt, getD_storeWords w inside (show (0 : Nat) < 4 by decide),
    getD_storeWords w inside (show (1 : Nat) < 4 by decide),
    getD_storeWords w inside (show (2 : Nat) < 4 by decide),
    getD_storeWords w inside (show (3 : Nat) < 4 by decide), le32, List.getD_cons_zero,
    List.getD_cons_succ, UInt8.toNat_ofNat']
  omega

/-- Loading stored words gives a function that agrees with them. -/
theorem reads_words (w : Nat → Nat) (count : Nat) :
    Reads (loadWords count) (storeWords w count) (wordAt (storeWords w count)) := by
  intro rest
  have len := length_storeWords w count
  change loadWords count (storeWords w count ++ rest) = _
  rw [loadWords, if_neg (by rw [List.length_append]; omega), ← len, List.take_left, List.drop_left]

end HybridSearch.Engine
