/-
# Engine.Varint -- the integers of the index files (varint.hpp)

`putVarint` appends a 64-bit value in base 128; `next` and `next32` are
`VarintReader`'s methods, with their errors.
-/
import HybridSearch.Engine.Machine

namespace HybridSearch.Engine

open HybridSearch.Theory

set_option autoImplicit false

/-- `put_varint`. -/
def putVarint (v : Nat) : Bytes := Leb128.encode v

namespace VarintReader

/-- The loop of `VarintReader::next`. -/
def format : Leb128.Format Fault where
  width := 64
  maxShift := 63
  truncated := .thrown "varint: truncated input"
  overlong := .thrown "varint: overlong"

def next : Reader Fault Nat := Leb128.read format

def next32 : Reader Fault Nat := do
  let v ← next
  if 0xFFFFFFFF < v then throw (.thrown "varint: value exceeds 32 bits")
  else pure v

end VarintReader

open VarintReader

theorem reads_next {v : Nat} (fits : v < 2 ^ 64) : Reads next (putVarint v) v :=
  Leb128.reads_encode format (by decide) fits

theorem reads_next32 {v : Nat} (fits : v < 2 ^ 32) : Reads next32 (putVarint v) v := by
  intro rest
  rw [next32, StateT.run_bind, reads_next (by omega) rest]
  change StateT.run (if 0xFFFFFFFF < v then _ else _) rest = _
  rw [if_neg (by omega)]
  rfl

/-- A larger value is refused. -/
theorem fails_next32 {v : Nat} (large : 2 ^ 32 ≤ v) (fits : v < 2 ^ 64) :
    Fails next32 (putVarint v) (.thrown "varint: value exceeds 32 bits") := by
  intro rest
  rw [next32, StateT.run_bind, reads_next fits rest]
  change StateT.run (if 0xFFFFFFFF < v then _ else _) rest = _
  rw [if_pos (by omega)]
  rfl

theorem putVarint_ne_nil (v : Nat) : putVarint v ≠ [] := Leb128.encode_ne_nil v

/-! ## Any byte string -/

/-- `r` throws, or returns the value of the bytes it consumed, which is below `2 ^ width`. -/
def Returns (width : Nat) (r : Reader Fault Nat) (bytes : Bytes) : Prop :=
  (∃ what, r.run bytes = .error (.thrown what)) ∨
    ∃ used rest, bytes = used ++ rest ∧ Leb128.Ended used ∧ Leb128.value used < 2 ^ width ∧
      r.run bytes = .ok (Leb128.value used, rest)

/-- Nine bytes go on, and the tenth one, whose bits start at 63, stops with more than one bit. -/
def Spills (bytes : Bytes) : Prop :=
  ∃ more last rest, bytes = more ++ last :: rest ∧ more.length = 9 ∧ (∀ b ∈ more, ¬b < 0x80) ∧
    last < 0x80 ∧ 2 ≤ last.toNat

theorem next_ok_iff {bytes rest : Bytes} {v : Nat} : next.run bytes = .ok (v, rest) ↔
    ∃ used, bytes = used ++ rest ∧ Leb128.Ended used ∧ used.length ≤ 10 ∧
      v = Leb128.value used % 2 ^ 64 := by
  have loop : Leb128.readFrom format 0 0 bytes = .ok (v, rest) ↔ _ :=
    Leb128.readFrom_ok_iff format Nat.one_pos (Nat.zero_le _)
  refine loop.trans (exists_congr fun used => ?_)
  rw [pow_zero, Nat.mul_one, Nat.zero_add, Nat.zero_add]
  have ten : 7 * used.length ≤ format.maxShift + 7 ↔ used.length ≤ 10 := by
    change 7 * used.length ≤ 63 + 7 ↔ _
    omega
  rw [ten]
  rfl

theorem next_error {bytes : Bytes} {e : Fault} (run : next.run bytes = .error e) :
    ∃ what, e = .thrown what := by
  rcases Leb128.readFrom_error format run with rfl | rfl
  · exact ⟨_, rfl⟩
  · exact ⟨_, rfl⟩

/-- Ten bytes hold one bit more than a word has room for. -/
theorem value_ten {more : Bytes} {last : UInt8} (nine : more.length = 9) (stop : last < 0x80) :
    Leb128.value (more ++ [last]) < 2 ^ 64 ↔ last.toNat < 2 := by
  have low := Leb128.value_lt more
  have small : last.toNat < 128 := UInt8.lt_iff_toNat_lt.mp stop
  rw [nine] at low
  rw [Leb128.value_append, nine, Leb128.value, Leb128.value, Nat.zero_mul, Nat.add_zero,
    Nat.mod_eq_of_lt small]
  norm_num at low ⊢
  omega

theorem next_returns_iff (bytes : Bytes) : Returns 64 next bytes ↔ ¬Spills bytes := by
  constructor
  · rintro returns ⟨more, last, rest, rfl, nine, go, stop, two⟩
    have ended : Leb128.Ended (more ++ [last]) := Leb128.ended_concat.mpr ⟨go, stop⟩
    have whole : more ++ last :: rest = (more ++ [last]) ++ rest := List.append_cons ..
    have read : next.run (more ++ last :: rest) = .ok (Leb128.value (more ++ [last]) % 2 ^ 64, rest) :=
      next_ok_iff.mpr ⟨_, whole, ended, by simp [nine], rfl⟩
    rw [Returns, read] at returns
    rcases returns with ⟨what, fails⟩ | ⟨used, rest', whole', _, fits, same⟩
    · cases fails
    · obtain ⟨-, rfl⟩ := Prod.mk.inj (Except.ok.inj same)
      rw [← List.append_cancel_right (whole.symm.trans whole'), value_ten nine stop] at fits
      omega
  · intro fits
    cases run : next.run bytes with
    | error e =>
        obtain ⟨what, rfl⟩ := next_error run
        exact Or.inl ⟨what, run⟩
    | ok read =>
        obtain ⟨v, rest⟩ := read
        obtain ⟨used, rfl, ended, short, rfl⟩ := next_ok_iff.mp run
        have below : Leb128.value used < 2 ^ 64 := by
          rcases Nat.lt_or_ge used.length 10 with nine | ten
          · exact (Leb128.value_lt used).trans_le (Nat.pow_le_pow_right (by norm_num) (by omega))
          · obtain ⟨more, last, rfl⟩ : ∃ more last, used = more ++ [last] :=
              ⟨used.dropLast, used.getLast (by rintro rfl; exact ended),
                (List.dropLast_append_getLast _).symm⟩
            rw [List.length_append, List.length_singleton] at short ten
            obtain ⟨go, stop⟩ := Leb128.ended_concat.mp ended
            have nine : more.length = 9 := by omega
            rw [value_ten nine stop]
            by_contra large
            exact fits ⟨more, last, rest, (List.append_cons ..).symm, nine, go, stop, Nat.not_lt.mp large⟩
        exact Or.inr ⟨used, rest, rfl, ended, below, by rw [run, Nat.mod_eq_of_lt below]⟩

/-- `next32` refuses what does not fit. -/
theorem next32_returns {bytes : Bytes} (returns : Returns 64 next bytes) : Returns 32 next32 bytes := by
  have step : next32.run bytes = next.run bytes >>= fun read =>
      (if 0xFFFFFFFF < read.1 then throw (.thrown "varint: value exceeds 32 bits")
        else pure read.1 : Reader Fault Nat).run read.2 := StateT.run_bind ..
  rcases returns with ⟨what, fails⟩ | ⟨used, rest, whole, ended, -, run⟩
  · refine Or.inl ⟨what, ?_⟩
    rw [step, fails]
    rfl
  · rw [run] at step
    change next32.run bytes = (if 0xFFFFFFFF < Leb128.value used then _ else _ : Reader Fault Nat).run rest
      at step
    split_ifs at step with large
    · exact Or.inl ⟨_, step⟩
    · exact Or.inr ⟨used, rest, whole, ended, by omega, step⟩

/-- **The integers of the index**: every 64-bit value is read back, and a byte string is refused or
read as the number it stands for exactly if no bits of its tenth byte are lost. -/
theorem next_exact (bytes : Bytes) :
    (∀ v < 2 ^ 64, ∀ rest, next.run (putVarint v ++ rest) = .ok (v, rest)) ∧
      (Returns 64 next bytes ∧ Returns 32 next32 bytes ↔ ¬Spills bytes) := by
  refine ⟨fun v fits rest => reads_next fits rest, ?_⟩
  rw [← next_returns_iff]
  exact and_iff_left_of_imp next32_returns

/-- `2 ^ 64` in ten bytes is read as zero. -/
theorem not_next_exact : ¬Returns 32 next32 (List.replicate 9 0x80 ++ [2]) := by
  have run : next32.run (List.replicate 9 0x80 ++ [2]) = .ok (0, []) := by
    decide
  rw [Returns, run]
  rintro (⟨what, fails⟩ | ⟨used, rest, whole, -, fits, same⟩)
  · cases fails
  · obtain ⟨-, rfl⟩ := Prod.mk.inj (Except.ok.inj same)
    rw [List.append_nil] at whole
    rw [← whole] at fits
    exact absurd fits (by decide)

end HybridSearch.Engine
