/-
# Engine.Tokenizer -- the scan of the standard tokenizer (src/lexical/tokenizer.cc)

`StandardTokenizer` is a table-driven automaton over classes of code points.
`tokenize` takes the longest match at every place, within 255 UTF-16 units, and
steps over one code point where there is none.  It decodes as it goes, with a
shortcut for ASCII.

Over the segmentation of the text this is the longest-match scanner of
`Theory.Munch` (`scanner`, `matchFrom_eq`, `tokenizeFrom_eq`): its tokens are the
spans of the tokens in the text's cuts.  Offsets are 32-bit, so a text of
`2 ^ 32` bytes is not covered (`tokenize_wraps`).
-/
import HybridSearch.Engine.Utf8
import HybridSearch.Theory.Munch

namespace HybridSearch.Engine

open HybridSearch.Theory

set_option autoImplicit false

/-- `RawToken`: byte offsets into the text. -/
structure RawToken where
  start : Nat
  stop : Nat
  deriving DecidableEq, Repr

structure StandardTokenizer where
  nclasses : Nat
  asciiCls : List Nat
  stage1 : List Nat
  stage2 : List Nat
  /-- The next state, or -1, at `state * nclasses + class`. -/
  trans : List Int
  accept : List Nat

namespace StandardTokenizer

/-- `kMaxTokenUnits`. -/
abbrev kMaxTokenUnits : Nat := 255

variable (t : StandardTokenizer)

/-- `cls`: the class of a code point. -/
def cls (cp : Nat) : Nat :=
  if cp < 128 then t.asciiCls.getD cp 0
  else t.stage2.getD (t.stage1.getD (cp >>> 7) 0 * 128 + (cp &&& 127)) 0

/-- The next state, if the entry is not negative. -/
def next (state cp : Nat) : Option Nat :=
  let ns := t.trans.getD (state * t.nclasses + t.cls cp) (-1)
  if ns < 0 then none else some ns.toNat

def accepting (state : Nat) : Bool := t.accept.getD state 0 ≠ 0

/-- The UTF-16 units of a code point. -/
def units (cp : Nat) : Nat := if 0x10000 ≤ cp then 2 else 1

/-- The code point at the head of the bytes, with the ASCII shortcut. -/
def decode (p : Bytes) : Nat × Nat :=
  if p.getD 0 0 < 0x80 then ((p.getD 0 0).toNat, 1) else utf8Decode p

/-- The inner loop of `tokenize`: the bytes from `p` on, the offset of `p`, and
the last accepting place. -/
def matchFrom : Nat → Bytes → Nat → Nat → Nat → Option Nat → Option Nat
  | 0, _, _, _, _, last => last
  | fuel + 1, rest, state, p, unitsSoFar, last =>
      if rest = [] then last
      else
        let (cp, len) := decode rest
        let u16 := units cp
        if kMaxTokenUnits < unitsSoFar + u16 then last
        else
          match t.next state cp with
          | none => last
          | some ns =>
              matchFrom fuel (rest.drop len) ns (p + len) (unitsSoFar + u16)
                (if t.accepting ns then some (p + len) else last)

/-- The outer loop of `tokenize`, from the offset `pos`. -/
def tokenizeFrom : Nat → Bytes → Nat → List RawToken
  | 0, _, _ => []
  | fuel + 1, rest, pos =>
      if rest = [] then []
      else
        match t.matchFrom rest.length rest 0 pos 0 none with
        | some last => ⟨u32 pos, u32 last⟩ :: tokenizeFrom fuel (rest.drop (last - pos)) last
        | none =>
            let len := if 0x80 ≤ rest.getD 0 0 then (utf8Decode rest).2 else 1
            tokenizeFrom fuel (rest.drop len) (pos + len)

def tokenize (text : Bytes) : List RawToken := t.tokenizeFrom text.length text 0

/-! ## The scanner -/

/-- The automaton over code points. -/
def scanner : Munch.Scanner (Nat × Nat) Nat where
  start := 0
  step state cp := t.next state cp.1
  accept := t.accepting
  weight cp := units cp.1
  limit := kMaxTokenUnits

theorem decode_eq {p : Bytes} : decode p = utf8Decode p := by
  unfold decode
  split_ifs with ascii
  · have small : (p.getD 0 0).toNat < 0x80 := UInt8.lt_iff_toNat_lt.mp ascii
    rw [utf8Decode]
    dsimp only
    rw [if_pos small]
  · rfl

theorem skip_length {p : Bytes} :
    (if 0x80 ≤ p.getD 0 0 then (utf8Decode p).2 else 1) = (utf8Decode p).2 := by
  split_ifs with high
  · rfl
  · have ascii : p.getD 0 0 < 0x80 := UInt8.not_le.mp high
    rw [← decode_eq, decode, if_pos ascii]

/-- **The inner loop is the longest match** over the code points of the bytes. -/
theorem matchFrom_eq (fuel : Nat) (rest : Bytes) (enough : rest.length ≤ fuel) (state p used : Nat)
    (within : used ≤ kMaxTokenUnits) (last : Option Nat) :
    t.matchFrom fuel rest state p used last =
      match t.scanner.longest state (kMaxTokenUnits - used) (codePoints rest) with
      | some n => some (p + byteLength ((codePoints rest).take n))
      | none => last := by
  induction fuel generalizing rest state p used last with
  | zero =>
      have : rest = [] := List.length_eq_zero_iff.mp (by omega)
      subst this
      rw [codePoints]
      rfl
  | succ fuel ih =>
      by_cases full : rest = []
      · subst full
        rw [codePoints]
        rfl
      · have len := utf8Decode_length full
        rw [matchFrom, if_neg full, codePoints_of_ne_nil full, Munch.Scanner.longest, decode_eq]
        dsimp only
        have room : kMaxTokenUnits < used + units (utf8Decode rest).1 ↔
            kMaxTokenUnits - used < t.scanner.weight (utf8Decode rest) := by
          change _ ↔ _ < units (utf8Decode rest).1
          omega
        by_cases heavy : kMaxTokenUnits < used + units (utf8Decode rest).1
        · rw [if_pos heavy, if_pos (room.mp heavy)]
        · have stepEq : t.scanner.step state (utf8Decode rest) = t.next state (utf8Decode rest).1 := rfl
          rw [if_neg heavy, if_neg (room.not.mp heavy), stepEq]
          cases t.next state (utf8Decode rest).1 with
          | none => rfl
          | some ns =>
              have shorter : (rest.drop (utf8Decode rest).2).length ≤ fuel := by
                rw [List.length_drop]
                omega
              have left : kMaxTokenUnits - (used + units (utf8Decode rest).1) =
                  kMaxTokenUnits - used - t.scanner.weight (utf8Decode rest) := Nat.sub_add_eq _ _ _
              have acceptEq : t.scanner.accept ns = t.accepting ns := rfl
              dsimp only
              rw [ih _ shorter ns _ _ (by omega), left, acceptEq]
              cases t.scanner.longest ns (kMaxTokenUnits - used - t.scanner.weight (utf8Decode rest))
                  (codePoints (rest.drop (utf8Decode rest).2)) with
              | some n =>
                  simp only [List.take_succ_cons, byteLength, List.map_cons, List.sum_cons,
                    Nat.add_assoc]
              | none =>
                  by_cases accepted : t.accepting ns = true
                  · simp [accepted, byteLength]
                  · simp [accepted]

/-- Fuel for the longest match at the head of the bytes. -/
theorem matchFrom_start (rest : Bytes) (pos : Nat) : t.matchFrom rest.length rest 0 pos 0 none =
    (t.scanner.longest t.scanner.start t.scanner.limit (codePoints rest)).map fun n =>
      pos + byteLength ((codePoints rest).take n) := by
  rw [t.matchFrom_eq rest.length rest le_rfl 0 pos 0 (Nat.zero_le _) none, Nat.sub_zero]
  change _ = (t.scanner.longest 0 kMaxTokenUnits (codePoints rest)).map _
  cases t.scanner.longest 0 kMaxTokenUnits (codePoints rest) <;> rfl

/-- A span as the code stores it. -/
def stored (span : Nat × Nat) : RawToken := ⟨u32 span.1, u32 span.2⟩

/-- **The outer loop cuts the text**, and its fuel is enough: it reaches the end. -/
theorem tokenizeFrom_eq (fuel : Nat) (rest : Bytes) (enough : rest.length ≤ fuel) (pos : Nat) :
    ∃ cuts, t.scanner.Cuts (codePoints rest) cuts ∧
      t.tokenizeFrom fuel rest pos = (Munch.Cut.spans byteLength pos cuts).map stored := by
  induction fuel generalizing rest pos with
  | zero =>
      have : rest = [] := List.length_eq_zero_iff.mp (by omega)
      subst this
      rw [codePoints]
      exact ⟨[], .nil, rfl⟩
  | succ fuel ih =>
      by_cases full : rest = []
      · subst full
        rw [codePoints]
        exact ⟨[], .nil, rfl⟩
      · rw [tokenizeFrom, if_neg full, matchFrom_start]
        cases found : t.scanner.longest t.scanner.start t.scanner.limit (codePoints rest) with
        | some n =>
            have spec := t.scanner.longest_spec t.scanner.start t.scanner.limit (codePoints rest)
            rw [found] at spec
            obtain ⟨⟨-, nonempty, -, -⟩, -, -⟩ := spec
            -- a token has at least one byte, so the bytes left are fewer
            have bytes : 1 ≤ byteLength ((codePoints rest).take n) := by
              obtain ⟨cp, mem⟩ := List.exists_mem_of_ne_nil _ nonempty
              have one := one_le_of_mem_codePoints (List.mem_of_mem_take mem)
              exact le_trans one (List.single_le_sum (by simp) _ (List.mem_map_of_mem mem))
            have shorter : (rest.drop (byteLength ((codePoints rest).take n))).length ≤ fuel := by
              have : 0 < rest.length := List.length_pos_of_ne_nil full
              rw [List.length_drop]
              omega
            obtain ⟨cuts, cut, tokens⟩ := ih _ shorter (pos + byteLength ((codePoints rest).take n))
            rw [codePoints_drop] at cut
            refine ⟨_, .token found cut, ?_⟩
            rw [Option.map_some]
            dsimp only
            rw [Nat.add_sub_cancel_left, tokens]
            rfl
        | none =>
            have len := utf8Decode_length full
            have shorter : (rest.drop (utf8Decode rest).2).length ≤ fuel := by
              rw [List.length_drop]
              omega
            obtain ⟨cuts, cut, tokens⟩ := ih _ shorter (pos + (utf8Decode rest).2)
            have head := codePoints_of_ne_nil full
            rw [head] at found ⊢
            refine ⟨_, .skip found cut, ?_⟩
            rw [Option.map_none]
            dsimp only
            rw [skip_length, tokens, Munch.Cut.spans]
            simp [byteLength]

/-- A non-empty prefix of `rest`, of at most 255 units, that the automaton accepts. -/
def Match (m rest : List (Nat × Nat)) : Prop :=
  m <+: rest ∧ m ≠ [] ∧ t.scanner.weightOf m ≤ kMaxTokenUnits ∧ t.scanner.Accepts m

/-- **What the tokens of a text are.** -/
structure Tokenized (text : Bytes) (toks : List RawToken) : Prop where
  nonempty : ∀ tok ∈ toks, tok.start < tok.stop
  ordered : toks.Pairwise fun a b => a.stop ≤ b.start
  longest : ∀ tok ∈ toks, ∃ front m back, codePoints text = front ++ (m ++ back) ∧
    tok.start = byteLength front ∧ tok.stop = byteLength (front ++ m) ∧ t.Match m (m ++ back) ∧
    ∀ other, t.Match other (m ++ back) → other.length ≤ m.length
  skipped : ∀ front cp back, codePoints text = front ++ cp :: back →
    (∀ tok ∈ toks, ¬ (tok.start ≤ byteLength front ∧ byteLength front < tok.stop)) →
    ∀ m, ¬ t.Match m (cp :: back)

theorem u32_of_lt {x : Nat} (fits : x < 2 ^ 32) : u32 x = x := Nat.mod_eq_of_lt fits

theorem tokenized_of_cuts {text : Bytes} (short : text.length < 2 ^ 32)
    {cuts : List (Munch.Cut (Nat × Nat))} (cut : t.scanner.Cuts (codePoints text) cuts) :
    t.Tokenized text ((Munch.Cut.spans byteLength 0 cuts).map stored) := by
  have whole := cut.word_eq
  have bytes := byteLength_codePoints text
  have places : ∀ span ∈ Munch.Cut.spans byteLength 0 cuts, ∃ front m back,
      cuts = front ++ .token m :: back ∧ span.1 = byteLength (Munch.Cut.word front) ∧
        span.2 = span.1 + byteLength m ∧ span.2 < 2 ^ 32 := by
    intro span mem
    obtain ⟨front, m, back, parts, start, stop⟩ := (Munch.Cut.mem_spans byteLength_append).mp mem
    refine ⟨front, m, back, parts, by omega, stop, ?_⟩
    rw [← bytes, ← whole, parts, Munch.Cut.word_append, Munch.Cut.word_cons, byteLength_append,
      byteLength_append] at short
    change byteLength _ + (byteLength m + _) < _ at short
    omega
  have unchanged : (Munch.Cut.spans byteLength 0 cuts).map stored =
      (Munch.Cut.spans byteLength 0 cuts).map fun span => ⟨span.1, span.2⟩ := by
    apply List.map_congr_left
    intro span mem
    obtain ⟨front, m, back, -, -, stop, fits⟩ := places span mem
    rw [stored, u32_of_lt fits, u32_of_lt (by omega)]
  rw [unchanged]
  constructor
  · intro tok mem
    obtain ⟨span, spanMem, rfl⟩ := List.mem_map.mp mem
    obtain ⟨front, m, back, parts, -, stop, -⟩ := places span spanMem
    rw [parts] at cut
    obtain ⟨-, full, -, -⟩ := cut.token_spec.1
    obtain ⟨cp, inside⟩ := List.exists_mem_of_ne_nil m full
    have one : 1 ≤ cp.2 := by
      apply @one_le_of_mem_codePoints text
      rw [← whole, parts, Munch.Cut.word_append, Munch.Cut.word_cons]
      exact List.mem_append_right _ (List.mem_append_left _ inside)
    have least : cp.2 ≤ byteLength m := List.single_le_sum (by simp) _ (List.mem_map_of_mem inside)
    dsimp only
    omega
  · rw [List.pairwise_map]
    exact Munch.Cut.spans_ordered byteLength_append 0 cuts
  · intro tok mem
    obtain ⟨span, spanMem, rfl⟩ := List.mem_map.mp mem
    obtain ⟨front, m, back, parts, start, stop, -⟩ := places span spanMem
    rw [parts] at cut whole
    obtain ⟨candidate, most⟩ := cut.token_spec
    rw [Munch.Cut.word_append, Munch.Cut.word_cons] at whole
    refine ⟨Munch.Cut.word front, m, Munch.Cut.word back, whole.symm, start, ?_, candidate, most⟩
    rw [byteLength_append, ← start]
    exact stop
  · intro front cp back here outside m candidate
    rw [← whole] at here
    obtain ⟨before, piece, after, lead, tail, parts, elements, rfl, rfl⟩ := Munch.Cut.exists_cut here
    cases piece with
    | token word =>
        have elements : word = lead ++ cp :: tail := elements
        have mem : (byteLength (Munch.Cut.word before),
            byteLength (Munch.Cut.word before) + byteLength word) ∈ Munch.Cut.spans byteLength 0 cuts :=
          (Munch.Cut.mem_spans byteLength_append).mpr ⟨before, word, after, parts, by omega, rfl⟩
        refine outside _ (List.mem_map_of_mem mem) ?_
        have one : 1 ≤ cp.2 := by
          apply @one_le_of_mem_codePoints text
          rw [← whole, here]
          exact List.mem_append_right _ List.mem_cons_self
        have size : byteLength word = byteLength lead + (cp.2 + byteLength tail) := by
          rw [elements, byteLength_append]
          simp [byteLength]
        rw [byteLength_append]
        dsimp only
        omega
    | skip a =>
        have elements : [a] = lead ++ cp :: tail := elements
        rw [parts] at cut
        obtain ⟨rfl, same⟩ : lead = [] ∧ [a] = cp :: tail := by
          cases lead with
          | nil => exact ⟨rfl, elements⟩
          | cons b lead => simp at elements
        cases same
        exact cut.skip_spec m candidate

theorem tokenized_tokenize {text : Bytes} (short : text.length < 2 ^ 32) :
    t.Tokenized text (t.tokenize text) := by
  obtain ⟨cuts, cut, tokens⟩ := t.tokenizeFrom_eq text.length text le_rfl 0
  rw [tokenize, tokens]
  exact t.tokenized_of_cuts short cut

/-- The loops end: more fuel changes nothing. -/
theorem tokenizeFrom_fuel (text : Bytes) {fuel : Nat} (enough : text.length ≤ fuel) :
    t.tokenizeFrom fuel text 0 = t.tokenize text := by
  obtain ⟨cuts, cut, tokens⟩ := t.tokenizeFrom_eq text.length text le_rfl 0
  obtain ⟨cuts', cut', tokens'⟩ := t.tokenizeFrom_eq fuel text enough 0
  rw [tokens', ← cut.unique cut', tokenize, tokens]

/-- **Longest-match tokens** of every text the offsets can address: the loops end,
and every token is the longest accepted prefix at its place, with nothing accepted
in between. -/
theorem tokenize_longest_match (text : Bytes) (short : text.length < 2 ^ 32) :
    t.Tokenized text (t.tokenize text) ∧
      ∀ fuel, text.length ≤ fuel → t.tokenizeFrom fuel text 0 = t.tokenize text :=
  ⟨t.tokenized_tokenize short, fun _ enough => t.tokenizeFrom_fuel text enough⟩

/-- A token is a single ASCII character. -/
def singles : StandardTokenizer where
  nclasses := 2
  asciiCls := []
  stage1 := []
  stage2 := List.replicate 128 1
  trans := [1, -1, -1, -1]
  accept := [0, 1]

theorem tokenize_longest_match_singles :
    singles.tokenize [0x61, 0xFF, 0x61] = [⟨0, 1⟩, ⟨2, 3⟩] ∧
      singles.Tokenized [0x61, 0xFF, 0x61] (singles.tokenize [0x61, 0xFF, 0x61]) :=
  ⟨by decide, (tokenize_longest_match singles [0x61, 0xFF, 0x61] (by decide)).1⟩

theorem longest_singles (n : Nat) :
    singles.scanner.longest 0 kMaxTokenUnits (List.replicate (n + 1) (0x61, 1)) = some 1 := by
  have first : singles.scanner.step 0 (0x61, 1) = some 1 := by decide
  have second : singles.scanner.step 1 (0x61, 1) = none := by decide
  have light : ¬ kMaxTokenUnits < singles.scanner.weight (0x61, 1) := by decide
  have accepted : singles.scanner.accept 1 = true := by decide
  have stuck : ∀ room, singles.scanner.longest 1 room (List.replicate n (0x61, 1)) = none := by
    intro room
    cases n with
    | zero => rfl
    | succ n =>
        rw [List.replicate_succ, Munch.Scanner.longest, second]
        exact ite_self none
  rw [List.replicate_succ, Munch.Scanner.longest, if_neg light, first]
  dsimp only
  rw [stuck, accepted]
  rfl

theorem codePoints_replicate (n : Nat) :
    codePoints (List.replicate n 0x61) = List.replicate n (0x61, 1) := by
  induction n with
  | zero => rw [List.replicate_zero, codePoints, List.replicate_zero]
  | succ n ih =>
      have ascii : utf8Decode (0x61 :: List.replicate n 0x61) = (0x61, 1) := by
        rw [← decode_eq, decode]
        rfl
      rw [List.replicate_succ, codePoints, ascii, List.drop_succ_cons, List.drop_zero, ih,
        List.replicate_succ]

theorem tokenizeFrom_singles (n pos : Nat) : singles.tokenizeFrom n (List.replicate n 0x61) pos =
    (List.range' pos n).map fun i => stored (i, i + 1) := by
  induction n generalizing pos with
  | zero => rfl
  | succ n ih =>
      have full : List.replicate (n + 1) (0x61 : UInt8) ≠ [] := by simp
      rw [tokenizeFrom, if_neg full, matchFrom_start, codePoints_replicate]
      have start : singles.scanner.longest singles.scanner.start singles.scanner.limit
          (List.replicate (n + 1) (0x61, 1)) = some 1 := longest_singles n
      have bytes : byteLength ((List.replicate (n + 1) (0x61, 1)).take 1) = 1 := by
        simp [List.replicate_succ, byteLength]
      rw [start, Option.map_some, bytes]
      dsimp only
      rw [Nat.add_sub_cancel_left, List.replicate_succ, List.drop_succ_cons, List.drop_zero, ih,
        List.range'_succ, List.map_cons]
      rfl

/-- From `2 ^ 32` bytes on a token ends before it starts. -/
theorem tokenize_wraps : ¬ ∀ (t : StandardTokenizer) (text : Bytes), t.accepting 0 = false →
    t.Tokenized text (t.tokenize text) ∧
      ∀ fuel, text.length ≤ fuel → t.tokenizeFrom fuel text 0 = t.tokenize text := by
  intro all
  have tokens := (all singles (List.replicate (2 ^ 32) 0x61) (by decide)).1
  have last : stored (2 ^ 32 - 1, 2 ^ 32) ∈ singles.tokenize (List.replicate (2 ^ 32) 0x61) := by
    rw [tokenize, List.length_replicate, tokenizeFrom_singles]
    exact List.mem_map.mpr ⟨2 ^ 32 - 1, List.mem_range'_1.mpr ⟨by omega, by omega⟩, rfl⟩
  exact absurd (tokens.nonempty _ last) (by decide)

end StandardTokenizer

end HybridSearch.Engine
