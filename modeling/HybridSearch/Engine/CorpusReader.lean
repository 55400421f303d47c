/-
# Engine.CorpusReader -- reading the corpus in chunks (build_index)

The reader loop of `build_index` reads `kChunk` bytes at a time, hands the whole
lines of what it has to `analyze_chunk`, and carries the partial line over.  It
drops blank lines at the end of a chunk and cuts the chunk in which `max_docs`
lines are reached, before it knows what the next chunk holds.

* `readLoop_eq`: byte chunks are groups of the lines of the file;
* `counted_of_blankSafe`: where blank lines stand only at the end of what is
  used, every grouping counts the same lines;
* `malformed_of_reached`: a malformed line before which blank lines cannot fill
  up `max_docs` is counted by every grouping, or a blank line is;
* `chunk_independent`: such files are read alike at every chunk size, and without
  `max_docs` no others are.
-/
import HybridSearch.Engine.Machine
import HybridSearch.Theory.Lines

namespace HybridSearch.Engine

open HybridSearch.Theory.Lines

set_option autoImplicit false

namespace CorpusReader

def newline : UInt8 := 10
def carriageReturn : UInt8 := 13
def tab : UInt8 := 9

/-! ## Reading -/

/-- What the successive calls of `fread` return: full reads, then a short one. -/
def freads (kChunk : Nat) (file : Bytes) : List Bytes :=
  (List.range (file.length / kChunk + 1)).map fun i => (file.drop (i * kChunk)).take kChunk

/-- `find('\n', p)`. -/
def findFrom (s : Bytes) (p : Nat) : Option Nat := ((s.drop p).idxOf? newline).map (p + ·)

/-- `rfind('\n')`. -/
def lastNewline (s : Bytes) : Option Nat := (s.reverse.idxOf? newline).map (s.length - 1 - ·)

/-- Where the chunk is cut: past `keep` newlines from `p` on. -/
def cutAt (chunk : Bytes) : Nat → Nat → Nat
  | 0, p => p
  | keep + 1, p =>
      match findFrom chunk p with
      | some i => cutAt chunk keep (i + 1)
      | none => cutAt chunk keep 0

/-- The loop that pops newlines, on the chunk read from its end. -/
def popBlank : List UInt8 → Nat → List UInt8 × Nat
  | a :: b :: rest, nLines =>
      if a = newline ∧ b = newline then popBlank (b :: rest) (nLines - 1)
      else (a :: b :: rest, nLines)
  | s, nLines => (s, nLines)

/-- Drop the blank lines at the very end of a chunk of `nLines` lines. -/
def dropBlank (chunk : Bytes) (nLines : Nat) : Bytes × Nat :=
  let popped := popBlank chunk.reverse nLines
  if popped.1 = [newline] then ([], 0) else (popped.1.reverse, popped.2)

/-- A chunk handed to `analyze_chunk`, with the number of lines before it. -/
structure Job where
  chunk : Bytes
  first : Nat
  deriving DecidableEq, Repr

/-- The part of the loop after the chunk is cut off at its last newline: the job, the lines
counted so far, and whether `max_docs` ends the reading. -/
def takeChunk (maxDocs : Nat) (chunk : Bytes) (linesRead : Nat) : List Job × Nat × Bool :=
  let nLines := chunk.count newline
  let stop := decide (maxDocs ≠ 0 ∧ maxDocs ≤ linesRead + nLines)
  let keep := maxDocs - linesRead
  let kept := if stop then dropBlank (chunk.take (cutAt chunk keep 0)) keep else dropBlank chunk nLines
  if kept.1 = [] then ([], linesRead, stop)
  else ([⟨kept.1, linesRead⟩], linesRead + kept.2, stop)

/-- The reader loop over the reads still to come. -/
def readLoop (kChunk maxDocs : Nat) : List Bytes → Bytes → Nat → List Job
  | [], _, _ => []
  | got :: rest, carry, linesRead =>
      let chunk := carry ++ got
      if got.length < kChunk then
        let chunk := if chunk ≠ [] ∧ chunk.getLast? ≠ some newline then chunk ++ [newline] else chunk
        (takeChunk maxDocs chunk linesRead).1
      else
        match lastNewline chunk with
        | none => readLoop kChunk maxDocs rest chunk linesRead
        | some lastNl =>
            let taken := takeChunk maxDocs (chunk.take (lastNl + 1)) linesRead
            if taken.2.2 then taken.1
            else taken.1 ++ readLoop kChunk maxDocs rest (chunk.drop (lastNl + 1)) taken.2.1

def jobs (kChunk maxDocs : Nat) (file : Bytes) : List Job :=
  readLoop kChunk maxDocs (freads kChunk file) [] 0

/-! ## Analysis -/

structure Passage where
  pid : Nat
  text : Bytes
  deriving DecidableEq, Repr

/-- The lines `analyze_chunk` steps through. -/
def records (chunk : Bytes) : List Bytes :=
  let parts := split newline chunk
  if parts.2 = [] then parts.1 else parts.1 ++ [parts.2]

def digits (pid : Nat) : Bytes → Except String Nat
  | [] => .ok pid
  | c :: rest =>
      if c < 0x30 ∨ 0x39 < c then .error "non-numeric passage id"
      else digits (u64 (u64 (pid * 10) + (c.toNat - 0x30))) rest

/-- One line, or what is wrong with it. -/
def parse (line : Bytes) : Except String Passage :=
  let line := if line.getLast? = some carriageReturn then line.dropLast else line
  match line.idxOf? tab with
  | none | some 0 => .error "expected 'pid<TAB>text'"
  | some i => do
      let pid ← digits 0 (line.take i)
      pure ⟨pid, line.drop (i + 1)⟩

/-- Whether the passage belongs to this shard. -/
def inShard (modN modI : Nat) (p : Passage) : Bool := decide (modN = 0 ∨ p.pid % modN = modI)

/-- `analyze_chunk`, up to the analyzer: the passages of the shard. -/
def analyzeChunk (modN modI : Nat) : List Bytes → Nat → Except String (List Passage)
  | [], _ => .ok []
  | line :: rest, lineNo =>
      match parse line with
      | .error what => .error ("line " ++ toString (lineNo + 1) ++ ": " ++ what)
      | .ok p => do
          let more ← analyzeChunk modN modI rest (lineNo + 1)
          pure (if inShard modN modI p then p :: more else more)

/-- What a build consumes: the lines that count towards `max_docs` and the passages. -/
structure Reading where
  lines : List Bytes
  passages : List Passage
  deriving DecidableEq, Repr

/-- The lines handed to `analyze_chunk`. -/
def counted (kChunk maxDocs : Nat) (file : Bytes) : List Bytes :=
  (jobs kChunk maxDocs file).flatMap fun job => records job.chunk

/-- The reader and the analysis: `consume` throws the first chunk's error. -/
def readCorpus (kChunk maxDocs modN modI : Nat) (file : Bytes) : Except String Reading := do
  let passages ← (jobs kChunk maxDocs file).mapM fun job =>
    analyzeChunk modN modI (records job.chunk) job.first
  pure ⟨counted kChunk maxDocs file, passages.flatten⟩

/-! ## The byte operations, line by line -/

abbrev isBlank (line : Bytes) : Bool := line = []

/-- Lines without newlines in them. -/
def Free (ls : List Bytes) : Prop := ∀ l ∈ ls, newline ∉ l

theorem Free.append {front back : List Bytes} (front_free : Free front) (back_free : Free back) :
    Free (front ++ back) := by
  intro l mem
  rcases List.mem_append.mp mem with mem | mem
  · exact front_free l mem
  · exact back_free l mem

theorem Free.sublist {ls ls' : List Bytes} (free : Free ls) (sub : List.Sublist ls' ls) : Free ls' :=
  fun l mem => free l (sub.subset mem)

theorem idxOf?_append {s : Bytes} (free : newline ∉ s) (rest : Bytes) :
    (s ++ newline :: rest).idxOf? newline = some s.length := by
  induction s with
  | nil => simp [List.idxOf?, List.findIdx?_cons]
  | cons b s ih =>
      rw [List.mem_cons, not_or] at free
      rw [List.cons_append, List.idxOf?_cons, ih free.2, if_neg (by simpa using Ne.symm free.1)]
      rfl

theorem reverse_unlines_concat (ls : List Bytes) (l : Bytes) :
    (unlines newline (ls ++ [l])).reverse = newline :: (l.reverse ++ (unlines newline ls).reverse) := by
  rw [unlines_append, unlines_cons, unlines_nil]
  simp

theorem cutAt_unlines {front back : List Bytes} {keep : Nat} (free : Free back)
    (enough : keep ≤ back.length) :
    cutAt (unlines newline (front ++ back)) keep (unlines newline front).length =
      (unlines newline (front ++ back.take keep)).length := by
  induction keep generalizing front back with
  | zero => simp [cutAt]
  | succ keep ih =>
      cases back with
      | nil => simp at enough
      | cons l back =>
          have found : findFrom (unlines newline (front ++ l :: back)) (unlines newline front).length =
              some ((unlines newline front).length + l.length) := by
            rw [findFrom, unlines_append, List.drop_left, unlines_cons,
              idxOf?_append (free l List.mem_cons_self)]
            rfl
          have next := @ih (front ++ [l]) back (fun m mem => free m (List.mem_cons_of_mem _ mem))
            (Nat.le_of_succ_le_succ enough)
          have size : (unlines newline (front ++ [l])).length =
              (unlines newline front).length + l.length + 1 := by
            rw [unlines_append, unlines_cons, unlines_nil]
            simp
            omega
          rw [size, List.append_assoc, List.singleton_append, List.append_assoc,
            List.singleton_append] at next
          rw [cutAt, found, List.take_succ_cons]
          exact next

theorem take_cutAt {ls : List Bytes} {keep : Nat} (free : Free ls) (enough : keep ≤ ls.length) :
    (unlines newline ls).take (cutAt (unlines newline ls) keep 0) = unlines newline (ls.take keep) := by
  have cut := @cutAt_unlines [] ls keep free enough
  rw [List.nil_append, List.nil_append] at cut
  rw [show (0 : Nat) = (unlines newline []).length from rfl, cut]
  conv_lhs => rw [← List.take_append_drop keep ls, unlines_append]
  rw [List.take_append_drop, List.take_left]

theorem popBlank_unlines {ls : List Bytes} (free : Free ls) (nonempty : ls ≠ []) :
    popBlank (unlines newline ls).reverse ls.length =
      if trimEnd isBlank ls = [] then ([newline], 1)
      else ((unlines newline (trimEnd isBlank ls)).reverse, (trimEnd isBlank ls).length) := by
  induction ls using List.reverseRecOn with
  | nil => exact absurd rfl nonempty
  | append_singleton ls l ih =>
      have freeL : newline ∉ l := free l (by simp)
      have freeLs : Free ls := free.sublist (List.sublist_append_left _ _)
      rw [reverse_unlines_concat]
      by_cases blank : l = []
      · subst blank
        have trimmed : trimEnd isBlank (ls ++ [[]]) = trimEnd isBlank ls :=
          trimEnd_append_all (by simp)
        rw [trimmed, List.reverse_nil, List.nil_append]
        cases List.eq_nil_or_concat' ls with
        | inl empty =>
            subst empty
            rfl
        | inr nonempty =>
            obtain ⟨front, x, rfl⟩ := nonempty
            have ih := ih freeLs (by simp)
            rw [reverse_unlines_concat] at ih ⊢
            rw [popBlank, if_pos ⟨rfl, rfl⟩]
            simpa using ih
      · have trimmed : trimEnd isBlank (ls ++ [l]) = ls ++ [l] := by
          rw [trimEnd_append_of_some ⟨l, by simp, by simpa using blank⟩,
            trimEnd_of_none (by simpa using blank)]
        obtain ⟨front, b, rfl⟩ := (List.eq_nil_or_concat' l).resolve_left blank
        have other : b ≠ newline := fun same => freeL (by simp [same])
        rw [trimmed, if_neg (by simp), reverse_unlines_concat]
        simp only [List.reverse_append, List.reverse_singleton, List.cons_append]
        rw [popBlank, if_neg fun both => other both.2]

/-- Dropping the blank end of a chunk drops the trailing blanks of its lines. -/
theorem dropBlank_unlines {ls : List Bytes} (free : Free ls) :
    dropBlank (unlines newline ls) ls.length =
      (unlines newline (trimEnd isBlank ls), (trimEnd isBlank ls).length) := by
  by_cases empty : ls = []
  · subst empty
    rfl
  · rw [dropBlank, popBlank_unlines free empty]
    by_cases all : trimEnd isBlank ls = []
    · rw [if_pos all, all]
      rfl
    · rw [if_neg all]
      have kept : ((unlines newline (trimEnd isBlank ls)).reverse, (trimEnd isBlank ls).length).1 ≠
          [newline] := by
        obtain ⟨front, x, whole⟩ := (List.eq_nil_or_concat' _).resolve_left all
        have last : x ≠ [] := by simpa using trimEnd_last whole
        rw [whole, reverse_unlines_concat]
        simp [last]
      rw [if_neg kept, List.reverse_reverse]

theorem lastNewline_unlines {ls : List Bytes} {rest : Bytes} (free : newline ∉ rest)
    (nonempty : ls ≠ []) : lastNewline (unlines newline ls ++ rest) =
      some ((unlines newline ls).length - 1) := by
  obtain ⟨front, l, rfl⟩ := (List.eq_nil_or_concat' ls).resolve_left nonempty
  have reversed : newline ∉ rest.reverse := by simpa using free
  rw [lastNewline, List.reverse_append, reverse_unlines_concat, idxOf?_append reversed,
    Option.map_some, List.length_append, List.length_reverse]
  congr 1
  omega

theorem lastNewline_none {s : Bytes} (free : newline ∉ s) : lastNewline s = none := by
  rw [lastNewline, List.idxOf?_eq_none_iff.mpr (by simpa using free)]
  rfl

/-! ## Groups of lines -/

/-- The lines of a file, the last one with or without its newline. -/
abbrev fileLines (file : Bytes) : List Bytes := records file

/-- The job of a group of lines. -/
def jobOf (lines : List Bytes) (first : Nat) : List Job :=
  if lines = [] then [] else [⟨unlines newline lines, first⟩]

/-- What `takeChunk` does, on lines. -/
def takeLines (maxDocs : Nat) (g : List Bytes) (linesRead : Nat) : List Bytes × Bool :=
  if maxDocs ≠ 0 ∧ maxDocs ≤ linesRead + g.length then
    (trimEnd isBlank (g.take (maxDocs - linesRead)), true)
  else (trimEnd isBlank g, false)

/-- What the reader makes of groups of lines: the lines handed on, with how many came before. -/
def handed (maxDocs : Nat) : List (List Bytes) → Nat → List (List Bytes × Nat)
  | [], _ => []
  | g :: rest, linesRead =>
      let taken := takeLines maxDocs g linesRead
      (taken.1, linesRead) ::
        if taken.2 then [] else handed maxDocs rest (linesRead + taken.1.length)

theorem unlines_eq_nil {ls : List Bytes} : unlines newline ls = [] ↔ ls = [] := by
  cases ls with
  | nil => simp [unlines]
  | cons l ls => simp [unlines]

theorem takeChunk_unlines {maxDocs linesRead : Nat} {g : List Bytes} (free : Free g) :
    takeChunk maxDocs (unlines newline g) linesRead =
      (jobOf (takeLines maxDocs g linesRead).1 linesRead,
        linesRead + (takeLines maxDocs g linesRead).1.length, (takeLines maxDocs g linesRead).2) := by
  have kept : (if decide (maxDocs ≠ 0 ∧ maxDocs ≤ linesRead + g.length) = true then
      dropBlank ((unlines newline g).take
        (cutAt (unlines newline g) (maxDocs - linesRead) 0)) (maxDocs - linesRead)
      else dropBlank (unlines newline g) g.length) =
        (unlines newline (takeLines maxDocs g linesRead).1, (takeLines maxDocs g linesRead).1.length) := by
    by_cases stop : maxDocs ≠ 0 ∧ maxDocs ≤ linesRead + g.length
    · have enough : maxDocs - linesRead ≤ g.length := by omega
      have size : (g.take (maxDocs - linesRead)).length = maxDocs - linesRead := by
        rw [List.length_take]
        omega
      have dropped := dropBlank_unlines (free.sublist (List.take_sublist (maxDocs - linesRead) g))
      rw [size] at dropped
      rw [if_pos (by simpa using stop), take_cutAt free enough, dropped, takeLines, if_pos stop]
    · rw [if_neg (by simpa using stop), dropBlank_unlines free, takeLines, if_neg stop]
  have stops : (takeLines maxDocs g linesRead).2 =
      decide (maxDocs ≠ 0 ∧ maxDocs ≤ linesRead + g.length) := by
    unfold takeLines
    split
    · rename_i stop
      exact (decide_eq_true stop).symm
    · rename_i goes
      exact (decide_eq_false goes).symm
  simp only [takeChunk, count_unlines free, kept, stops, unlines_eq_nil, jobOf]
  split
  · rename_i empty
    rw [empty]
    rfl
  · rfl

theorem records_unlines {ls : List Bytes} (free : Free ls) (s : Bytes) :
    records (unlines newline ls ++ s) = ls ++ records s := by
  simp only [records, split_unlines free]
  split
  · rfl
  · rw [List.append_assoc]

theorem records_of_free {s : Bytes} (free : newline ∉ s) : records s = if s = [] then [] else [s] := by
  rw [records, split_of_free free]
  rfl

/-- The lines of a string: those that are terminated, and its tail. -/
theorem exists_lines (s : Bytes) : ∃ ls tail, Free ls ∧ newline ∉ tail ∧ s = unlines newline ls ++ tail :=
  ⟨_, _, (split_free s).1, (split_free s).2, (unlines_split s).symm⟩

theorem free_records (s : Bytes) : Free (records s) := by
  obtain ⟨ls, tail, freeLs, freeTail, rfl⟩ := exists_lines s
  rw [records_unlines freeLs, records_of_free freeTail]
  refine freeLs.append ?_
  split
  · intro l mem
    cases mem
  · intro l mem
    rwa [List.mem_singleton.mp mem]

/-- The newline `build_index` appends to a last line without one. -/
theorem terminated_eq (s : Bytes) :
    (if s ≠ [] ∧ s.getLast? ≠ some newline then s ++ [newline] else s) =
      unlines newline (records s) := by
  obtain ⟨ls, tail, freeLs, freeTail, rfl⟩ := exists_lines s
  rw [records_unlines freeLs, records_of_free freeTail]
  by_cases empty : tail = []
  · subst empty
    rw [if_pos rfl, List.append_nil, List.append_nil, if_neg]
    rintro ⟨nonempty, last⟩
    obtain ⟨front, l, rfl⟩ := (List.eq_nil_or_concat' ls).resolve_left
      fun empty => nonempty (by rw [empty]; rfl)
    exact last (by rw [unlines_append, unlines_cons, unlines_nil]; simp)
  · obtain ⟨front, b, rfl⟩ := (List.eq_nil_or_concat' tail).resolve_left empty
    have other : b ≠ newline := fun same => freeTail (by simp [same])
    rw [if_neg empty, if_pos ⟨by simp, by simp [← List.append_assoc, other]⟩, unlines_append,
      unlines_cons, unlines_nil, List.append_assoc]

/-- A chunk of `carry` and `got` has at most as many lines as `got` has bytes. -/
theorem length_lines_le {carry got : Bytes} {ls : List Bytes} {rest : Bytes} (freeLs : Free ls)
    (free : newline ∉ carry) (whole : carry ++ got = unlines newline ls ++ rest) :
    ls.length ≤ got.length := by
  have counts := congrArg (List.count newline) whole
  rw [List.count_append, List.count_append, List.count_eq_zero_of_not_mem free,
    count_unlines freeLs] at counts
  have := List.count_le_length (a := newline) (l := got)
  omega

/-- **Byte chunks are groups of the lines of the file**, none with more lines than bytes read. -/
theorem readLoop_eq {kChunk : Nat} {fulls : List Bytes} {short : Bytes}
    (full : ∀ got ∈ fulls, got.length = kChunk) (small : short.length < kChunk) {carry : Bytes}
    (free : newline ∉ carry) :
    ∃ groups : List (List Bytes),
      groups.flatten = fileLines (carry ++ (fulls ++ [short]).flatten) ∧
      (∀ g ∈ groups, Free g ∧ g.length ≤ kChunk) ∧
      ∀ maxDocs linesRead, readLoop kChunk maxDocs (fulls ++ [short]) carry linesRead =
        (handed maxDocs groups linesRead).flatMap fun part => jobOf part.1 part.2 := by
  induction fulls generalizing carry with
  | nil =>
      refine ⟨[fileLines (carry ++ short)], by simp, fun g mem => ?_, fun maxDocs linesRead => ?_⟩
      · rw [List.mem_singleton.mp mem]
        refine ⟨free_records _, ?_⟩
        obtain ⟨ls, rest, freeLs, freeRest, whole⟩ := exists_lines (carry ++ short)
        have few := length_lines_le freeLs free whole
        rw [whole, fileLines, records_unlines freeLs, records_of_free freeRest, List.length_append]
        split
        · simp
          omega
        · simp
          omega
      · rw [List.nil_append, readLoop]
        simp only [if_pos small, terminated_eq, takeChunk_unlines (free_records _), handed]
        split <;> simp
  | cons got fulls ih =>
      obtain ⟨ls, rest, freeLs, freeRest, whole⟩ := exists_lines (carry ++ got)
      have size := full got List.mem_cons_self
      have few := length_lines_le freeLs free whole
      obtain ⟨groups, lines, smalls, loop⟩ :=
        ih (fun g mem => full g (List.mem_cons_of_mem _ mem)) freeRest
      by_cases empty : ls = []
      · subst empty
        rw [unlines_nil, List.nil_append] at whole
        refine ⟨groups, ?_, smalls, fun maxDocs linesRead => ?_⟩
        · rw [lines, List.cons_append, List.flatten_cons, ← List.append_assoc, whole]
        · rw [List.cons_append, readLoop]
          simp only [whole, size, lt_irrefl, if_false, lastNewline_none freeRest, loop]
      · have cut : (unlines newline ls).length - 1 + 1 = (unlines newline ls).length := by
          have := List.length_pos_of_ne_nil fun e => empty (unlines_eq_nil.mp e)
          omega
        refine ⟨ls :: groups, ?_, fun g mem => ?_, fun maxDocs linesRead => ?_⟩
        · rw [List.flatten_cons, lines, List.cons_append, List.flatten_cons, ← List.append_assoc,
            whole, List.append_assoc, fileLines, fileLines, records_unlines freeLs]
        · rcases List.mem_cons.mp mem with rfl | mem
          · exact ⟨freeLs, size ▸ few⟩
          · exact smalls g mem
        · rw [List.cons_append, readLoop]
          simp only [whole, size, lt_irrefl, if_false, lastNewline_unlines freeRest empty, cut,
            List.take_left, List.drop_left, takeChunk_unlines freeLs, handed, loop,
            List.flatMap_cons]
          split <;> simp

/-! ### The reads of a file -/

theorem flatten_reads (file : Bytes) (kChunk n : Nat) :
    ((List.range n).map fun i => (file.drop (i * kChunk)).take kChunk).flatten =
      file.take (n * kChunk) := by
  induction n with
  | zero => simp
  | succ n ih =>
      rw [List.range_succ, List.map_append, List.flatten_append, ih, Nat.succ_mul, List.take_add]
      simp

/-- **Every chunk size reads the lines of the file in groups.** -/
theorem exists_groups {kChunk : Nat} (pos : 0 < kChunk) (file : Bytes) :
    ∃ groups : List (List Bytes), groups.flatten = fileLines file ∧
      (∀ g ∈ groups, Free g ∧ g.length ≤ kChunk) ∧
      ∀ maxDocs, jobs kChunk maxDocs file =
        (handed maxDocs groups 0).flatMap fun part => jobOf part.1 part.2 := by
  have inside : file.length / kChunk * kChunk ≤ file.length := Nat.div_mul_le_self _ _
  have beyond : file.length < (file.length / kChunk + 1) * kChunk := by
    have := Nat.lt_div_mul_add pos (a := file.length)
    rw [Nat.succ_mul]
    omega
  have whole := flatten_reads file kChunk (file.length / kChunk + 1)
  rw [List.take_of_length_le beyond.le, List.range_succ, List.map_append, List.map_singleton] at whole
  obtain ⟨groups, lines, small, loop⟩ := @readLoop_eq kChunk
    ((List.range (file.length / kChunk)).map fun i => (file.drop (i * kChunk)).take kChunk)
    ((file.drop (file.length / kChunk * kChunk)).take kChunk)
    (fun got mem => by
      obtain ⟨i, less, rfl⟩ := List.mem_map.mp mem
      have := Nat.mul_le_mul_right kChunk (Nat.succ_le_of_lt (List.mem_range.mp less))
      rw [Nat.succ_mul] at this
      rw [List.length_take, List.length_drop]
      omega)
    (by
      rw [Nat.succ_mul] at beyond
      rw [List.length_take, List.length_drop]
      omega) [] List.not_mem_nil
  rw [whole, List.nil_append] at lines
  refine ⟨groups, lines, small, fun maxDocs => ?_⟩
  rw [jobs, freads, List.range_succ, List.map_append, List.map_singleton]
  exact loop maxDocs 0

/-- The lines a build counts, by groups. -/
def countedLines (maxDocs : Nat) (groups : List (List Bytes)) (linesRead : Nat) : List Bytes :=
  (handed maxDocs groups linesRead).flatMap Prod.fst

theorem countedLines_cons (maxDocs : Nat) (g : List Bytes) (rest : List (List Bytes))
    (linesRead : Nat) :
    countedLines maxDocs (g :: rest) linesRead =
      (takeLines maxDocs g linesRead).1 ++
        if (takeLines maxDocs g linesRead).2 then []
        else countedLines maxDocs rest (linesRead + (takeLines maxDocs g linesRead).1.length) := by
  rw [countedLines, handed, List.flatMap_cons]
  split <;> rfl

theorem records_jobOf {lines : List Bytes} (free : Free lines) (first : Nat) :
    ((jobOf lines first).flatMap fun job => records job.chunk) = lines := by
  rw [jobOf]
  split
  · rename_i empty
    rw [empty]
    rfl
  · have back := records_unlines free []
    rw [List.append_nil, records_of_free List.not_mem_nil, if_pos rfl, List.append_nil] at back
    simp [back]

theorem free_takeLines {g : List Bytes} (free : Free g) (maxDocs linesRead : Nat) :
    Free (takeLines maxDocs g linesRead).1 := by
  rw [takeLines]
  split
  · exact (free.sublist (List.take_sublist _ _)).sublist (trimEnd_front _).sublist
  · exact free.sublist (trimEnd_front _).sublist

/-- **What a build counts, at any chunk size.** -/
theorem exists_counted {kChunk : Nat} (pos : 0 < kChunk) (file : Bytes) :
    ∃ groups : List (List Bytes), groups.flatten = fileLines file ∧
      (∀ g ∈ groups, g.length ≤ kChunk) ∧
      ∀ maxDocs, counted kChunk maxDocs file = countedLines maxDocs groups 0 := by
  obtain ⟨groups, lines, small, loop⟩ := exists_groups pos file
  refine ⟨groups, lines, fun g mem => (small g mem).2, fun maxDocs => ?_⟩
  rw [counted, loop, countedLines, List.flatMap_assoc]
  have free : ∀ (groups : List (List Bytes)) linesRead, (∀ g ∈ groups, Free g) →
      ∀ part ∈ handed maxDocs groups linesRead, Free part.1 := by
    intro groups
    induction groups with
    | nil =>
        intro _ _ part mem
        cases mem
    | cons g rest ih =>
        intro linesRead free part mem
        rw [handed] at mem
        rcases List.mem_cons.mp mem with rfl | mem
        · exact free_takeLines (free g List.mem_cons_self) _ _
        · split at mem
          · cases mem
          · exact ih _ (fun g mem => free g (List.mem_cons_of_mem _ mem)) part mem
  exact List.flatMap_congr fun part mem =>
    records_jobOf (free groups 0 (fun g mem => (small g mem).1) part mem) _

/-! ## Where blank lines may stand -/

/-- The lines the build may still use, and those past `max_docs`. -/
def used (maxDocs linesRead : Nat) (lines : List Bytes) : List Bytes :=
  if maxDocs = 0 then lines else lines.take (maxDocs - linesRead)

def beyond (maxDocs linesRead : Nat) (lines : List Bytes) : List Bytes :=
  if maxDocs = 0 then [] else lines.drop (maxDocs - linesRead)

/-- Blank lines stand only at the end of the lines used; and there is at most one of them, or only
blank lines follow. -/
def BlankSafe (maxDocs linesRead : Nat) (lines : List Bytes) : Prop :=
  (∀ l ∈ trimEnd isBlank (used maxDocs linesRead lines), l ≠ []) ∧
    ((used maxDocs linesRead lines).length ≤
        (trimEnd isBlank (used maxDocs linesRead lines)).length + 1 ∨
      ∀ l ∈ beyond maxDocs linesRead lines, l = [])

instance (maxDocs linesRead : Nat) (lines : List Bytes) :
    Decidable (BlankSafe maxDocs linesRead lines) :=
  inferInstanceAs (Decidable (_ ∧ _))

theorem used_append {maxDocs linesRead : Nat} {g rest : List Bytes}
    (fits : maxDocs = 0 ∨ linesRead + g.length ≤ maxDocs) :
    used maxDocs linesRead (g ++ rest) = g ++ used maxDocs (linesRead + g.length) rest := by
  unfold used
  split
  · rfl
  · rename_i limited
    rw [List.take_append, List.take_of_length_le (by omega), Nat.sub_sub]

theorem beyond_append {maxDocs linesRead : Nat} {g rest : List Bytes}
    (fits : maxDocs = 0 ∨ linesRead + g.length ≤ maxDocs) :
    beyond maxDocs linesRead (g ++ rest) = beyond maxDocs (linesRead + g.length) rest := by
  unfold beyond
  split
  · rfl
  · rename_i limited
    rw [List.drop_append, List.drop_eq_nil_of_le (by omega), Nat.sub_sub, List.nil_append]

theorem used_beyond (maxDocs linesRead : Nat) (lines : List Bytes) :
    used maxDocs linesRead lines ++ beyond maxDocs linesRead lines = lines := by
  unfold used beyond
  split
  · rw [List.append_nil]
  · exact List.take_append_drop _ _

/-- Only blank lines left. -/
theorem blankSafe_of_all {maxDocs linesRead : Nat} {lines : List Bytes} (all : ∀ l ∈ lines, l = []) :
    BlankSafe maxDocs linesRead lines ∧ trimEnd isBlank (used maxDocs linesRead lines) = [] := by
  have whole := used_beyond maxDocs linesRead lines
  have nothing : trimEnd isBlank (used maxDocs linesRead lines) = [] :=
    trimEnd_of_all fun l mem => decide_eq_true (all l (whole ▸ List.mem_append_left _ mem))
  refine ⟨⟨?_, .inr fun l mem => all l (whole ▸ List.mem_append_right _ mem)⟩, nothing⟩
  rw [nothing]
  intro l mem
  cases mem

/-- One group taken off the front: what is used is the group's lines and what is used after it. -/
theorem blankSafe_group {maxDocs linesRead : Nat} {g rest : List Bytes}
    (fits : maxDocs = 0 ∨ linesRead + g.length < maxDocs)
    (safe : BlankSafe maxDocs linesRead (g ++ rest)) :
    BlankSafe maxDocs (linesRead + (trimEnd isBlank g).length) rest ∧
      trimEnd isBlank (used maxDocs linesRead (g ++ rest)) =
        trimEnd isBlank g ++
          trimEnd isBlank (used maxDocs (linesRead + (trimEnd isBlank g).length) rest) := by
  have fits' : maxDocs = 0 ∨ linesRead + g.length ≤ maxDocs := fits.imp_right Nat.le_of_lt
  obtain ⟨noBlank, few⟩ := safe
  rw [used_append fits'] at noBlank few
  rw [beyond_append fits'] at few
  rw [used_append fits']
  by_cases more : ∃ l ∈ used maxDocs (linesRead + g.length) rest, ¬ isBlank l
  · -- a line to come is not blank, so no line of the group is
    rw [trimEnd_append_of_some more] at noBlank few ⊢
    have kept : trimEnd isBlank g = g :=
      trimEnd_of_none fun l mem blank => noBlank l (List.mem_append_left _ mem) (of_decide_eq_true blank)
    rw [kept]
    refine ⟨⟨fun l mem => noBlank l (List.mem_append_right _ mem), few.imp_left fun few => ?_⟩, rfl⟩
    rw [List.length_append, List.length_append] at few
    omega
  · have allUsed : ∀ l ∈ used maxDocs (linesRead + g.length) rest, isBlank l := by
      intro l mem
      by_contra not
      exact more ⟨l, mem, not⟩
    rw [trimEnd_append_all allUsed] at noBlank few ⊢
    by_cases all : ∀ l ∈ rest, l = []
    · obtain ⟨safe, nothing⟩ := @blankSafe_of_all maxDocs
        (linesRead + (trimEnd isBlank g).length) rest all
      exact ⟨safe, by rw [nothing, List.append_nil]⟩
    · -- at most one blank line ends what is used, and it is the next line
      have few : (g ++ used maxDocs (linesRead + g.length) rest).length ≤
          (trimEnd isBlank g).length + 1 := by
        refine few.resolve_right fun allBeyond => all fun l mem => ?_
        rw [← used_beyond maxDocs (linesRead + g.length) rest] at mem
        rcases List.mem_append.mp mem with mem | mem
        · exact of_decide_eq_true (allUsed l mem)
        · exact allBeyond l mem
      have nonempty : 0 < (used maxDocs (linesRead + g.length) rest).length := by
        have nonempty : rest ≠ [] := by
          rintro rfl
          exact all (by simp)
        have := List.length_pos_of_ne_nil nonempty
        unfold used
        split
        · exact this
        · rw [List.length_take]
          omega
      rw [List.length_append] at few
      have kept : trimEnd isBlank g = g :=
        (trimEnd_front g).eq_of_length_le (by omega)
      have nothing : trimEnd isBlank (used maxDocs (linesRead + g.length) rest) = [] :=
        trimEnd_of_all allUsed
      rw [kept] at few ⊢
      refine ⟨⟨?_, .inl ?_⟩, by rw [nothing, List.append_nil]⟩
      · rw [nothing]
        intro l mem
        cases mem
      · rw [nothing, List.length_nil]
        omega

/-- **Every grouping counts the same lines**, where blank lines are safe. -/
theorem counted_of_blankSafe {maxDocs : Nat} {groups : List (List Bytes)} {linesRead : Nat}
    (room : maxDocs = 0 ∨ linesRead < maxDocs)
    (safe : BlankSafe maxDocs linesRead groups.flatten) :
    countedLines maxDocs groups linesRead = trimEnd isBlank (used maxDocs linesRead groups.flatten) := by
  induction groups generalizing linesRead with
  | nil =>
      rw [List.flatten_nil, (blankSafe_of_all (by simp)).2]
      rfl
  | cons g rest ih =>
      rw [List.flatten_cons] at safe ⊢
      rw [countedLines_cons]
      by_cases stop : maxDocs ≠ 0 ∧ maxDocs ≤ linesRead + g.length
      · have inside : maxDocs - linesRead ≤ g.length := by omega
        rw [takeLines, if_pos stop, used, if_neg stop.1, List.take_append_of_le_length inside]
        simp
      · have fits : maxDocs = 0 ∨ linesRead + g.length < maxDocs := by omega
        have fewer : (trimEnd isBlank g).length ≤ g.length := (trimEnd_front g).length_le
        obtain ⟨later, whole⟩ := blankSafe_group fits safe
        rw [takeLines, if_neg stop, whole]
        simp only [Bool.false_eq_true, if_false]
        rw [ih (by omega) later]

/-- In groups of one line, blank lines are never counted. -/
theorem counted_beyond {maxDocs linesRead : Nat} {groups : List (List Bytes)}
    {body rest : List Bytes} (single : ∀ g ∈ groups, g.length ≤ 1)
    (lines : groups.flatten = body ++ rest) (noBlank : ∀ l ∈ body, l ≠ [])
    (room : linesRead + body.length + 1 < maxDocs) (more : ∃ l ∈ rest, l ≠ []) :
    body.length < (countedLines maxDocs groups linesRead).length := by
  induction groups generalizing linesRead body rest with
  | nil =>
      obtain ⟨l, mem, -⟩ := more
      have nothing : rest = [] := (List.append_eq_nil_iff.mp lines.symm).2
      rw [nothing] at mem
      cases mem
  | cons g groups ih =>
      have smaller := single g List.mem_cons_self
      have later := fun h mem => single h (List.mem_cons_of_mem g mem)
      have go : ¬ (maxDocs ≠ 0 ∧ maxDocs ≤ linesRead + g.length) := by omega
      rw [countedLines_cons, takeLines, if_neg go]
      simp only [Bool.false_eq_true, if_false, List.length_append]
      rw [List.flatten_cons] at lines
      match g, smaller with
      | [], _ =>
          exact lt_of_lt_of_le (@ih linesRead body rest later lines noBlank room more)
            (by simp [trimEnd])
      | [l], _ =>
          rw [List.singleton_append] at lines
          cases body with
          | nil =>
              rw [List.nil_append] at lines
              subst lines
              by_cases blank : l = []
              · have nothing : trimEnd isBlank [l] = [] := trimEnd_of_all (by simpa using blank)
                rw [nothing]
                refine lt_of_lt_of_le (@ih linesRead [] groups.flatten later rfl (by simp) room ?_)
                  (by simp)
                obtain ⟨m, mem, not⟩ := more
                rcases List.mem_cons.mp mem with rfl | mem
                · exact absurd blank not
                · exact ⟨m, mem, not⟩
              · rw [trimEnd_of_none (by simpa using blank)]
                simp
          | cons b body =>
              rw [List.cons_append, List.cons.injEq] at lines
              obtain ⟨rfl, lines⟩ := lines
              have kept : trimEnd isBlank [l] = [l] :=
                trimEnd_of_none (by simpa using noBlank l List.mem_cons_self)
              rw [List.length_cons] at room
              have := @ih (linesRead + 1) body rest later lines
                (fun m mem => noBlank m (List.mem_cons_of_mem _ mem)) (by omega) more
              rw [kept, List.length_singleton, List.length_cons]
              omega

/-! ## The decision and the sequence -/

/-- `analyze_chunk` refuses the line. -/
def Malformed (line : Bytes) : Prop := (parse line).toOption = none

instance (line : Bytes) : Decidable (Malformed line) := inferInstanceAs (Decidable (_ = none))

theorem malformed_blank : Malformed [] := rfl

/-- The passages of well-formed lines. -/
def passagesOf (modN modI : Nat) (lines : List Bytes) : List Passage :=
  (lines.filterMap fun line => (parse line).toOption).filter (inShard modN modI)

theorem toOption_analyzeChunk (modN modI : Nat) (lines : List Bytes) (lineNo : Nat) :
    (analyzeChunk modN modI lines lineNo).toOption =
      if ∃ line ∈ lines, Malformed line then none else some (passagesOf modN modI lines) := by
  induction lines generalizing lineNo with
  | nil => simp [analyzeChunk, passagesOf, Except.toOption]
  | cons line rest ih =>
      rw [analyzeChunk]
      cases parsed : parse line with
      | error what =>
          rw [if_pos ⟨line, List.mem_cons_self, by rw [Malformed, parsed]; rfl⟩]
          rfl
      | ok p =>
          have fine : ¬ Malformed line := by
            rw [Malformed, parsed]
            exact Option.some_ne_none p
          have same : (∃ l ∈ line :: rest, Malformed l) ↔ ∃ l ∈ rest, Malformed l := by
            simp [fine]
          have passages : passagesOf modN modI (line :: rest) =
              if inShard modN modI p then p :: passagesOf modN modI rest
              else passagesOf modN modI rest := by
            simp only [passagesOf, List.filterMap_cons, parsed, Except.toOption, List.filter_cons]
          have ih := ih (lineNo + 1)
          cases analysed : analyzeChunk modN modI rest (lineNo + 1) with
          | error what =>
              rw [analysed] at ih
              by_cases bad : ∃ l ∈ rest, Malformed l
              · rw [if_pos (same.mpr bad)]
                simp only [bind, Except.bind]
                rfl
              · rw [if_neg bad] at ih
                cases ih
          | ok more =>
              rw [analysed] at ih
              by_cases bad : ∃ l ∈ rest, Malformed l
              · rw [if_pos bad] at ih
                cases ih
              · rw [if_neg bad] at ih
                cases ih
                rw [if_neg fun all => bad (same.mp all), passages]
                simp only [bind, Except.bind]
                rfl

theorem toOption_mapM {α β : Type} (f : α → Except String β) (xs : List α) :
    (xs.mapM f).toOption = xs.mapM fun x => (f x).toOption := by
  induction xs with
  | nil => rfl
  | cons x xs ih =>
      rw [List.mapM_cons, List.mapM_cons, ← ih]
      cases f x with
      | error e => rfl
      | ok y => cases xs.mapM f <;> rfl

/-- **Decision and sequence depend only on the lines counted.** -/
theorem toOption_readCorpus (kChunk maxDocs modN modI : Nat) (file : Bytes) :
    (readCorpus kChunk maxDocs modN modI file).toOption =
      if ∃ line ∈ counted kChunk maxDocs file, Malformed line then none
      else some ⟨counted kChunk maxDocs file, passagesOf modN modI (counted kChunk maxDocs file)⟩ := by
  have general : ∀ js : List Job,
      ((js.mapM fun job => analyzeChunk modN modI (records job.chunk) job.first).toOption).map
          List.flatten =
        if ∃ line ∈ js.flatMap fun (job : Job) => records job.chunk, Malformed line then none
        else some (passagesOf modN modI (js.flatMap fun (job : Job) => records job.chunk)) := by
    intro js
    rw [toOption_mapM]
    induction js with
    | nil => simp [passagesOf]
    | cons job js ih =>
        have passages : passagesOf modN modI ((job :: js).flatMap fun (job : Job) => records job.chunk) =
            passagesOf modN modI (records job.chunk) ++
              passagesOf modN modI (js.flatMap fun (job : Job) => records job.chunk) := by
          simp only [passagesOf, List.flatMap_cons, List.filterMap_append, List.filter_append]
        rw [List.mapM_cons, toOption_analyzeChunk, passages]
        by_cases here : ∃ line ∈ records job.chunk, Malformed line
        · obtain ⟨line, mem, bad⟩ := here
          rw [if_pos ⟨line, mem, bad⟩, if_pos ⟨line, by simp [mem], bad⟩]
          rfl
        · rw [if_neg here]
          by_cases later : ∃ line ∈ js.flatMap fun (job : Job) => records job.chunk, Malformed line
          · rw [if_pos later] at ih
            obtain ⟨line, mem, bad⟩ := later
            rw [if_pos ⟨line, by rw [List.flatMap_cons]; exact List.mem_append_right _ mem, bad⟩]
            rw [Option.map_eq_none_iff] at ih
            simp [ih]
          · rw [if_neg later] at ih
            have both : ¬ ∃ line ∈ (job :: js).flatMap fun (job : Job) => records job.chunk,
                Malformed line := by
              rintro ⟨line, mem, bad⟩
              rw [List.flatMap_cons] at mem
              rcases List.mem_append.mp mem with mem | mem
              · exact here ⟨line, mem, bad⟩
              · exact later ⟨line, mem, bad⟩
            obtain ⟨batches, mapped, flat⟩ := Option.map_eq_some_iff.mp ih
            rw [if_neg both]
            simp [mapped, ← flat]
  have mapped := general (jobs kChunk maxDocs file)
  rw [readCorpus, counted]
  cases analysed : (jobs kChunk maxDocs file).mapM fun job =>
      analyzeChunk modN modI (records job.chunk) job.first with
  | error what =>
      rw [analysed] at mapped
      split at mapped
      · rename_i bad
        rw [if_pos bad]
        rfl
      · cases mapped
  | ok batches =>
      rw [analysed] at mapped
      split at mapped
      · cases mapped
      · rename_i fine
        rw [if_neg fine]
        simp only [Except.toOption, Option.map_some, Option.some.injEq] at mapped
        rw [← mapped]
        rfl

/-- The whole file in one chunk. -/
theorem counted_whole (maxDocs : Nat) (file : Bytes) :
    counted (file.length + 1) maxDocs file = trimEnd isBlank (used maxDocs 0 (fileLines file)) := by
  have one : freads (file.length + 1) file = [file] := by
    rw [freads, Nat.div_eq_of_lt (Nat.lt_succ_self _)]
    simp [List.take_of_length_le]
  have free := free_records file
  have taken : (takeLines maxDocs (records file) 0).1 =
      trimEnd isBlank (used maxDocs 0 (fileLines file)) := by
    rw [takeLines, used]
    by_cases unlimited : maxDocs = 0
    · rw [if_pos unlimited, if_neg fun stop => stop.1 unlimited]
    · rw [if_neg unlimited]
      split
      · rfl
      · rename_i fewer
        rw [List.take_of_length_le (by simp only [fileLines]; omega)]
  rw [counted, jobs, one, readLoop]
  simp only [List.nil_append, if_pos (Nat.lt_succ_self _), terminated_eq, takeChunk_unlines free]
  rw [records_jobOf (free_takeLines free _ _), taken]

/-! ## Where the chunk size does not matter -/

/-- The lines of the file that are not blank. -/
def nonblank (lines : List Bytes) : List Bytes := lines.filter fun l => !isBlank l

/-- How many lines count when the cut is made after `front` and blank lines count only at its end. -/
def filled (front : List Bytes) : Nat :=
  (nonblank front).length + (front.length - (trimEnd isBlank front).length)

/-- A malformed line that every reading comes to: no blank lines before it fill up `max_docs`. -/
def Reached (maxDocs : Nat) (lines : List Bytes) : Prop :=
  ∃ front line back, lines = front ++ line :: back ∧ line ≠ [] ∧ Malformed line ∧
    (maxDocs = 0 ∨ ∀ p, p <+: front → filled p < maxDocs)

theorem nonblank_of_none {lines : List Bytes} (none : ∀ l ∈ lines, l ≠ []) : nonblank lines = lines :=
  List.filter_eq_self.mpr fun l mem => by simpa using none l mem

theorem nonblank_append (front back : List Bytes) :
    nonblank (front ++ back) = nonblank front ++ nonblank back := List.filter_append ..

/-- Without blank lines inside, the lines up to a cut all count or are trimmed. -/
theorem filled_of_trimmed {front : List Bytes} (none : ∀ l ∈ trimEnd isBlank front, l ≠ []) :
    filled front = front.length := by
  obtain ⟨tail, whole, all⟩ := @exists_trimmed _ isBlank front
  have nothing : nonblank tail = [] := List.filter_eq_nil_iff.mpr fun l mem => by simpa using all l mem
  have kept : nonblank front = trimEnd isBlank front := by
    conv_lhs => rw [whole]
    rw [nonblank_append, nothing, List.append_nil, nonblank_of_none none]
  have fewer := (@trimEnd_front _ isBlank front).length_le
  rw [filled, kept]
  omega

/-- After a group that counts whole, the cut comes later by its lines. -/
theorem filled_append {g : List Bytes} (none : ∀ l ∈ trimEnd isBlank g, l ≠ []) (p : List Bytes) :
    (trimEnd isBlank g).length + filled p ≤ filled (g ++ p) := by
  have group := filled_of_trimmed none
  rw [filled] at group
  have fewer := (@trimEnd_front _ isBlank g).length_le
  rw [filled, filled, nonblank_append, List.length_append, List.length_append]
  by_cases more : ∃ l ∈ p, ¬ isBlank l
  · rw [trimEnd_append_of_some more, List.length_append]
    omega
  · have all : ∀ l ∈ p, isBlank l := fun l mem => by
      by_contra not
      exact more ⟨l, mem, not⟩
    rw [trimEnd_append_all all, trimEnd_of_all all, List.length_nil]
    omega

/-- What counts whole before the line does not fill up `max_docs`. -/
theorem room_of_whole {maxDocs linesRead : Nat} {front part : List Bytes} (limited : maxDocs ≠ 0)
    (room : maxDocs = 0 ∨ ∀ p, p <+: front → linesRead + filled p < maxDocs) (cut : part <+: front)
    (whole : ∀ l ∈ trimEnd isBlank part, l ≠ []) : linesRead + part.length < maxDocs := by
  have fits := room.resolve_left limited part cut
  rwa [filled_of_trimmed whole] at fits

/-- A line stands in the first of two groups, or after it. -/
theorem place_of_line {g rest front back : List Bytes} {line : Bytes}
    (lines : g ++ rest = front ++ line :: back) :
    (∃ front', front = g ++ front' ∧ rest = front' ++ line :: back) ∨ ∃ own, g = front ++ line :: own := by
  rcases List.append_eq_append_iff.mp lines with later | ⟨own, whole, own_is⟩
  · exact .inl later
  · cases own with
    | nil => exact .inl ⟨[], by rw [whole, List.append_nil, List.append_nil], own_is.symm⟩
    | cons x own =>
        obtain ⟨rfl, -⟩ := List.cons.inj own_is
        exact .inr ⟨own, whole⟩

/-- The group of the line is read up to it, unless a blank line is. -/
theorem mem_takeLines {maxDocs linesRead : Nat} {front own : List Bytes} {line : Bytes} (nonempty : line ≠ [])
    (room : maxDocs = 0 ∨ ∀ p, p <+: front → linesRead + filled p < maxDocs)
    (none : ∀ l ∈ (takeLines maxDocs (front ++ line :: own) linesRead).1, l ≠ []) :
    line ∈ (takeLines maxDocs (front ++ line :: own) linesRead).1 := by
  have kept {part : List Bytes} (mem : line ∈ part) : line ∈ trimEnd isBlank part :=
    mem_trimEnd mem (by simpa using nonempty)
  rw [takeLines] at none ⊢
  split_ifs at none ⊢ with stop
  · refine kept ?_
    have short : front.length < maxDocs - linesRead := by
      by_contra long
      have front_only : (front ++ line :: own).take (maxDocs - linesRead) =
          front.take (maxDocs - linesRead) := List.take_append_of_le_length (not_lt.mp long)
      rw [front_only] at none
      have cut := room_of_whole stop.1 room (List.take_prefix _ _) none
      rw [List.length_take] at cut
      omega
    rw [List.take_append, List.take_of_length_le short.le]
    obtain ⟨n, more⟩ := Nat.exists_eq_add_of_lt short
    rw [more, show front.length + n + 1 - front.length = n + 1 by omega, List.take_succ_cons]
    exact List.mem_append_right _ List.mem_cons_self
  · exact kept (List.mem_append_right _ List.mem_cons_self)

/-- **What every reading comes to** is counted, or a blank line is. -/
theorem malformed_of_reached {maxDocs linesRead : Nat} {groups : List (List Bytes)}
    {front back : List Bytes} {line : Bytes} (lines : groups.flatten = front ++ line :: back)
    (nonempty : line ≠ []) (bad : Malformed line)
    (room : maxDocs = 0 ∨ ∀ p, p <+: front → linesRead + filled p < maxDocs) :
    ∃ l ∈ countedLines maxDocs groups linesRead, Malformed l := by
  induction groups generalizing linesRead front with
  | nil =>
      have impossible := congrArg List.length lines
      simp at impossible
  | cons g rest ih =>
      rw [countedLines_cons]
      by_cases blank : ∃ l ∈ (takeLines maxDocs g linesRead).1, l = []
      · obtain ⟨l, mem, rfl⟩ := blank
        exact ⟨[], List.mem_append_left _ mem, malformed_blank⟩
      · have none : ∀ l ∈ (takeLines maxDocs g linesRead).1, l ≠ [] := fun l mem empty =>
          blank ⟨l, mem, empty⟩
        rw [List.flatten_cons] at lines
        rcases place_of_line lines with ⟨front', rfl, later⟩ | ⟨own, rfl⟩
        · have goes : ¬ (maxDocs ≠ 0 ∧ maxDocs ≤ linesRead + g.length) := by
            rintro ⟨limited, stop⟩
            rw [takeLines, if_pos ⟨limited, stop⟩] at none
            have cut := room_of_whole limited room
              ((List.take_prefix _ _).trans (List.prefix_append _ _)) none
            rw [List.length_take] at cut
            omega
          rw [takeLines, if_neg goes] at none ⊢
          rw [if_neg Bool.false_ne_true]
          obtain ⟨l, mem, bad⟩ := @ih (linesRead + (trimEnd isBlank g).length) front' later
            (room.imp_right fun room p front_p => by
              have cut := room (g ++ p) ((List.prefix_append_right_inj g).mpr front_p)
              have sum := filled_append none p
              omega)
          exact ⟨l, List.mem_append_right _ mem, bad⟩
        · exact ⟨line, List.mem_append_left _ (mem_takeLines nonempty room none), bad⟩

/-- A group of one line counts it unless it is blank. -/
theorem takeLines_single {maxDocs linesRead : Nat} {g : List Bytes} (small : g.length ≤ 1)
    (room : maxDocs = 0 ∨ linesRead < maxDocs) : (takeLines maxDocs g linesRead).1 = nonblank g := by
  have take : (if maxDocs ≠ 0 ∧ maxDocs ≤ linesRead + g.length then
      g.take (maxDocs - linesRead) else g) = g := by
    split_ifs
    · exact List.take_of_length_le (by omega)
    · rfl
  have taken : (takeLines maxDocs g linesRead).1 = trimEnd isBlank g := by
    conv_rhs => rw [← take]
    rw [takeLines]
    split_ifs <;> rfl
  rw [taken]
  match g, small with
  | [], _ => rfl
  | [x], _ =>
      by_cases blank : x = []
      · subst blank
        rfl
      · rw [trimEnd_of_none (by simpa using blank), nonblank_of_none (by simpa using blank)]

/-- With one line to a group every line counted is one of the first that are not blank. -/
theorem mem_of_singles {maxDocs linesRead : Nat} {groups : List (List Bytes)}
    (single : ∀ g ∈ groups, g.length ≤ 1) (room : maxDocs = 0 ∨ linesRead < maxDocs) {l : Bytes}
    (mem : l ∈ countedLines maxDocs groups linesRead) :
    l ∈ used maxDocs linesRead (nonblank groups.flatten) := by
  induction groups generalizing linesRead with
  | nil => cases mem
  | cons g rest ih =>
      have later := fun h mem => single h (List.mem_cons_of_mem g mem)
      have small := single g List.mem_cons_self
      rw [countedLines_cons] at mem
      rw [List.flatten_cons, nonblank_append]
      have fewer : (nonblank g).length ≤ 1 := (List.length_filter_le _ _).trans small
      rw [used_append (by omega)]
      rw [takeLines_single small room] at mem
      rcases List.mem_append.mp mem with mem | mem
      · exact List.mem_append_left _ mem
      · split_ifs at mem with stop
        · cases mem
        · refine List.mem_append_right _ (ih later ?_ mem)
          rw [takeLines] at stop
          split_ifs at stop with full
          · exact absurd rfl stop
          · have fits := (List.length_filter_le (fun l => !isBlank l) g)
            rw [nonblank]
            omega

/-- The reading is the same at every chunk size. -/
def ChunkIndependent (maxDocs modN modI : Nat) (file : Bytes) : Prop :=
  ∀ kChunk > 0, (readCorpus kChunk maxDocs modN modI file).toOption =
    (readCorpus (file.length + 1) maxDocs modN modI file).toOption

/-- Where some chunk size accepts the file, blank lines must be safe. -/
theorem blankSafe_of_accepted {maxDocs modN modI : Nat} {file : Bytes}
    (same : ChunkIndependent maxDocs modN modI file) {kChunk : Nat} (pos : 0 < kChunk)
    (fine : ¬∃ line ∈ counted kChunk maxDocs file, Malformed line) :
    BlankSafe maxDocs 0 (fileLines file) := by
  by_contra notSafe
  have accepted := same kChunk pos
  rw [toOption_readCorpus, if_neg fine, toOption_readCorpus, counted_whole] at accepted
  split at accepted
  · cases accepted
  · rename_i fineWhole
    have noBlank : ∀ l ∈ trimEnd isBlank (used maxDocs 0 (fileLines file)), l ≠ [] := by
      rintro l mem rfl
      exact fineWhole ⟨[], mem, malformed_blank⟩
    have rest := fun few => notSafe ⟨noBlank, few⟩
    rw [imp_false, not_or, Nat.not_le] at rest
    obtain ⟨many, beyondSome⟩ := rest
    push Not at beyondSome
    -- with chunks of one byte the blank lines are skipped and a later line is counted
    obtain ⟨groups, lines, single, loop⟩ := @exists_counted 1 Nat.one_pos file
    obtain ⟨tail, whole, -⟩ := @exists_trimmed _ isBlank (used maxDocs 0 (fileLines file))
    have limited : maxDocs ≠ 0 := by
      rintro rfl
      obtain ⟨l, mem, -⟩ := beyondSome
      simp [beyond] at mem
    have atMost : (used maxDocs 0 (fileLines file)).length ≤ maxDocs := by
      rw [used, if_neg limited, List.length_take]
      omega
    have parts : groups.flatten = trimEnd isBlank (used maxDocs 0 (fileLines file)) ++
        (tail ++ beyond maxDocs 0 (fileLines file)) := by
      rw [lines, ← List.append_assoc, ← whole, used_beyond]
    obtain ⟨l, mem, not⟩ := beyondSome
    have longer := counted_beyond single parts noBlank
      (by omega : 0 + (trimEnd isBlank (used maxDocs 0 (fileLines file))).length + 1 < maxDocs)
      ⟨l, List.mem_append_right _ mem, not⟩
    have differs := same 1 Nat.one_pos
    rw [toOption_readCorpus, toOption_readCorpus, counted_whole, if_neg fineWhole, loop] at differs
    split at differs
    · cases differs
    · rw [Option.some.injEq, Reading.mk.injEq] at differs
      rw [differs.1] at longer
      exact lt_irrefl _ longer

/-- Safe blank lines, or a malformed line that every reading comes to. -/
theorem independent_of_safe {maxDocs modN modI : Nat} {file : Bytes}
    (safe : BlankSafe maxDocs 0 (fileLines file) ∨ Reached maxDocs (fileLines file)) :
    ChunkIndependent maxDocs modN modI file := by
  intro kChunk pos
  rcases safe with safe | ⟨front, line, back, split, nonempty, bad, room⟩
  · obtain ⟨groups, lines, -, loop⟩ := exists_counted pos file
    have same : counted kChunk maxDocs file = counted (file.length + 1) maxDocs file := by
      rw [loop, counted_whole, counted_of_blankSafe (Nat.eq_zero_or_pos maxDocs) (lines ▸ safe),
        lines]
    rw [toOption_readCorpus, toOption_readCorpus, same]
  · have rejected {k : Nat} (pos : 0 < k) : ∃ l ∈ counted k maxDocs file, Malformed l := by
      obtain ⟨groups, lines, -, loop⟩ := exists_counted pos file
      rw [loop]
      refine malformed_of_reached (lines.trans split) nonempty bad (room.imp_right fun room p le => ?_)
      rw [Nat.zero_add]
      exact room p le
    rw [toOption_readCorpus, toOption_readCorpus, if_pos (rejected pos),
      if_pos (rejected (Nat.succ_pos _))]

/-- Without a bound on the documents every reading comes to every line. -/
theorem reached_zero_iff {lines : List Bytes} :
    Reached 0 lines ↔ ∃ line ∈ used 0 0 (nonblank lines), Malformed line := by
  rw [used, if_pos rfl]
  constructor
  · rintro ⟨front, line, back, rfl, nonempty, bad, -⟩
    refine ⟨line, ?_, bad⟩
    rw [nonblank, List.mem_filter]
    exact ⟨List.mem_append_right _ List.mem_cons_self, by simpa using nonempty⟩
  · rintro ⟨line, mem, bad⟩
    obtain ⟨mem, nonempty⟩ := List.mem_filter.mp mem
    obtain ⟨front, back, split⟩ := List.append_of_mem mem
    exact ⟨front, line, back, split, by simpa using nonempty, bad, .inl rfl⟩

/-- **The reader does not depend on where read chunks end** for the files whose blank lines stand at
the end of what is used, one of them or with nothing but blank lines after them, and for the files
with a malformed line that every reading comes to.  Other files it reads alike have a malformed line
among the first `max_docs` lines that are not blank; with no `max_docs` there are no others. -/
theorem chunk_independent (maxDocs modN modI : Nat) (file : Bytes) :
    (BlankSafe maxDocs 0 (fileLines file) ∨ Reached maxDocs (fileLines file) →
      ChunkIndependent maxDocs modN modI file) ∧
    (ChunkIndependent maxDocs modN modI file → BlankSafe maxDocs 0 (fileLines file) ∨
      ∃ line ∈ used maxDocs 0 (nonblank (fileLines file)), Malformed line) ∧
    (ChunkIndependent 0 modN modI file ↔
      BlankSafe 0 0 (fileLines file) ∨ Reached 0 (fileLines file)) := by
  have needed (maxDocs : Nat) (same : ChunkIndependent maxDocs modN modI file) :
      BlankSafe maxDocs 0 (fileLines file) ∨
        ∃ line ∈ used maxDocs 0 (nonblank (fileLines file)), Malformed line := by
    by_cases bad : ∃ line ∈ used maxDocs 0 (nonblank (fileLines file)), Malformed line
    · exact .inr bad
    · refine .inl (blankSafe_of_accepted same Nat.one_pos ?_)
      rintro ⟨line, mem, malformed⟩
      obtain ⟨groups, lines, single, loop⟩ := @exists_counted 1 Nat.one_pos file
      rw [loop] at mem
      have first := mem_of_singles single (Nat.eq_zero_or_pos maxDocs) mem
      rw [lines] at first
      exact bad ⟨line, first, malformed⟩
  refine ⟨independent_of_safe, needed maxDocs, fun same => ?_, independent_of_safe⟩
  exact (needed 0 same).imp_right reached_zero_iff.mpr

/-- **A blank line in the middle is rejected or skipped, depending on the chunk size.**  The file is
"1<TAB>a", a blank line and "2<TAB>b". -/
theorem blank_line_depends :
    ¬ ∀ (maxDocs modN modI : Nat) (file : Bytes), ChunkIndependent maxDocs modN modI file := by
  intro always
  have same := always 0 0 0 [0x31, tab, 0x61, newline, newline, 0x32, tab, 0x62, newline] 5 (by decide)
  revert same
  decide +kernel

end CorpusReader

end HybridSearch.Engine
