/-
# Web.SseChunks -- what the chunks of an event stream change

The parser sees a text cut into chunks.  `marks` is that text with a mark on
every unit that stands right after an empty chunk, and `markedLines` its lines,
where a line is marked when its CRLF was cut by an empty chunk: there `push`
forgets the CR and takes the LF for another, empty line (`foldl_push`).  Every
other cut changes nothing.

An empty line ends a block and sends its message.  So a marked line is a break
inside its block, and the breaks are harmless exactly when the block's data lies
in one of its pieces and what follows that piece changes neither the event's type
nor its id (`messages_iff`).
-/
import HybridSearch.Web.Sse
import Mathlib.Data.List.Basic
import Mathlib.Data.List.DropRight
import Mathlib.Tactic

namespace HybridSearch.Web

set_option autoImplicit false

namespace Sse

/-! ## Chunks as marks on the text -/

/-- The units of the chunks, each with whether it stands right after an empty
chunk. -/
def marks : Bool → List Text → List (UInt16 × Bool)
  | _, [] => []
  | _, [] :: chunks => marks true chunks
  | afterEmpty, (ch :: rest) :: chunks =>
      (ch, afterEmpty) :: (rest.map (·, false) ++ marks false chunks)

/-- The complete lines, each with whether an empty chunk cut its CRLF. -/
def markedLines (line : Text) : List (UInt16 × Bool) → List (Text × Bool)
  | [] => []
  | (ch, _) :: rest =>
      if ch = lf then (line, false) :: markedLines [] rest
      else if ch = cr then
        match rest with
        | [] => [(line, false)]
        | (next, cut) :: after =>
            if next = lf then (line, cut) :: markedLines [] after
            else (line, false) :: markedLines [] ((next, cut) :: after)
      else markedLines (line ++ [ch]) rest

/-- The lines `push` processes: an empty one more after a cut CRLF. -/
def processed (lines : List (Text × Bool)) : List Text :=
  lines.flatMap fun l => if l.2 then [l.1, []] else [l.1]

/-- The lines of `units` when the text before them ended in the open line `line`
and, with `sawCr`, in a CR. -/
def resumed (sawCr : Bool) (line : Text) : List (UInt16 × Bool) → List (Text × Bool)
  | [] => []
  | (ch, cut) :: rest =>
      if sawCr ∧ ch = lf ∧ cut = false then markedLines line rest
      else markedLines line ((ch, cut) :: rest)

theorem map_fst_marks (afterEmpty : Bool) (chunks : List Text) :
    (marks afterEmpty chunks).map Prod.fst = chunks.flatten := by
  induction chunks generalizing afterEmpty with
  | nil => rfl
  | cons chunk chunks ih =>
      cases chunk with
      | nil => exact ih true
      | cons ch rest => simp [marks, ih, Function.comp_def]

section Equations

variable {line : Text} {ch next : UInt16} {cut cut' : Bool} {rest after : List (UInt16 × Bool)}

theorem cr_ne_lf : cr ≠ lf := by decide

theorem markedLines_lf : markedLines line ((lf, cut) :: rest) = (line, false) :: markedLines [] rest := by
  cases rest <;> simp [markedLines]

theorem markedLines_cr_lf : markedLines line ((cr, cut) :: (lf, cut') :: after) =
    (line, cut') :: markedLines [] after := by
  simp [markedLines, cr_ne_lf]

theorem markedLines_cr (notLf : ∀ l ∈ rest.head?, l.1 ≠ lf) :
    markedLines line ((cr, cut) :: rest) = (line, false) :: markedLines [] rest := by
  cases rest with
  | nil => simp [markedLines, cr_ne_lf]
  | cons next after =>
      have : next.1 ≠ lf := notLf next rfl
      rw [markedLines, if_neg cr_ne_lf, if_pos rfl, if_neg this]

theorem markedLines_other (notLf : ch ≠ lf) (notCr : ch ≠ cr) :
    markedLines line ((ch, cut) :: rest) = markedLines (line ++ [ch]) rest := by
  cases rest <;> simp [markedLines, notLf, notCr]

/-- The mark of the first unit matters only after a CR. -/
theorem markedLines_head : markedLines line ((ch, cut) :: rest) =
    markedLines line ((ch, cut') :: rest) := by
  cases rest <;> simp only [markedLines]

variable {rest after : Text}

theorem completeLines_lf : completeLines line (lf :: rest) = line :: completeLines [] rest := by
  cases rest <;> simp [completeLines]

theorem completeLines_cr_lf : completeLines line (cr :: lf :: after) =
    line :: completeLines [] after := by
  simp [completeLines, cr_ne_lf]

theorem completeLines_cr (notLf : ∀ c ∈ rest.head?, c ≠ lf) :
    completeLines line (cr :: rest) = line :: completeLines [] rest := by
  cases rest with
  | nil => simp [completeLines, cr_ne_lf]
  | cons next after => rw [completeLines, if_neg cr_ne_lf, if_pos rfl, if_neg (notLf next rfl)]

theorem completeLines_other (notLf : ch ≠ lf) (notCr : ch ≠ cr) :
    completeLines line (ch :: rest) = completeLines (line ++ [ch]) rest := by
  cases rest <;> simp [completeLines, notLf, notCr]

variable {s : SseParser}

theorem scan_lf : s.scan line (lf :: rest) = (s.processLine line).scan [] rest := by
  cases rest <;> simp [SseParser.scan]

theorem scan_cr_nil : s.scan line [cr] =
    { s.processLine line with sawCr := true, buffer := [] } := by
  simp [SseParser.scan, cr_ne_lf]

theorem scan_cr_lf : s.scan line (cr :: lf :: after) = (s.processLine line).scan [] after := by
  simp [SseParser.scan, cr_ne_lf]

theorem scan_cr (notLf : next ≠ lf) :
    s.scan line (cr :: next :: after) = (s.processLine line).scan [] (next :: after) := by
  rw [SseParser.scan, if_neg cr_ne_lf, if_pos rfl, if_neg notLf]

theorem scan_other (notLf : ch ≠ lf) (notCr : ch ≠ cr) :
    s.scan line (ch :: rest) = s.scan (line ++ [ch]) rest := by
  cases rest <;> simp [SseParser.scan, notLf, notCr]

end Equations

theorem completeLines_map_fst (line : Text) (units : List (UInt16 × Bool)) :
    completeLines line (units.map Prod.fst) = (markedLines line units).map Prod.fst := by
  induction line, units using markedLines.induct with
  | case1 line => rfl
  | case2 line cut rest ih =>
      rw [markedLines_lf, List.map_cons, completeLines_lf, ih, List.map_cons]
  | case3 line cut =>
      rw [markedLines_cr (by simp), List.map_cons, completeLines_cr (by simp)]
      rfl
  | case4 line cut cut' after _ ih =>
      rw [markedLines_cr_lf, List.map_cons, List.map_cons, completeLines_cr_lf, ih, List.map_cons]
  | case5 line cut next cut' after notLf _ ih =>
      rw [markedLines_cr (by simpa using notLf), List.map_cons, completeLines_cr (by simpa using notLf),
        ih, List.map_cons]
  | case6 line ch cut rest notLf notCr ih =>
      rw [markedLines_other notLf notCr, List.map_cons, completeLines_other notLf notCr, ih]

/-! ## What a chunk does -/

/-- What a parser has read, without its open line. -/
def fields (s : SseParser) : SseParser := { s with buffer := [], sawCr := false }

theorem fields_dispatch (s : SseParser) : fields s.dispatch = (fields s).dispatch := by
  unfold SseParser.dispatch fields
  dsimp only
  split_ifs <;> rfl

theorem fields_processLine (s : SseParser) (line : Text) :
    fields (s.processLine line) = (fields s).processLine line := by
  unfold SseParser.processLine
  dsimp only
  split_ifs
  · exact fields_dispatch s
  all_goals rfl

theorem processLine_open (s : SseParser) (line : Text) :
    (s.processLine line).buffer = s.buffer ∧ (s.processLine line).sawCr = s.sawCr := by
  unfold SseParser.processLine SseParser.dispatch
  dsimp only
  split_ifs <;> exact ⟨rfl, rfl⟩

/-- Text without a line end only extends the open line. -/
theorem scan_free (s : SseParser) {front : Text} (free : lf ∉ front ∧ cr ∉ front) (line text : Text) :
    s.scan line (front ++ text) = s.scan (line ++ front) text := by
  induction front generalizing line with
  | nil => simp
  | cons ch front ih =>
      simp only [List.mem_cons, not_or] at free
      rw [List.cons_append, scan_other (Ne.symm free.1.1) (Ne.symm free.2.1),
        ih ⟨free.1.2, free.2.2⟩]
      simp

theorem scan_buffer_free (s : SseParser) {line : Text} (free : lf ∉ line ∧ cr ∉ line) (text : Text) :
    lf ∉ (s.scan line text).buffer ∧ cr ∉ (s.scan line text).buffer := by
  induction s, line, text using SseParser.scan.induct with
  | case1 s line => exact free
  | case2 s line rest ih =>
      rw [scan_lf]
      exact ih ⟨List.not_mem_nil, List.not_mem_nil⟩
  | case3 s line =>
      rw [scan_cr_nil]
      exact ⟨List.not_mem_nil, List.not_mem_nil⟩
  | case4 s line after _ ih =>
      rw [scan_cr_lf]
      exact ih ⟨List.not_mem_nil, List.not_mem_nil⟩
  | case5 s line next after notLf _ ih =>
      rw [scan_cr notLf]
      exact ih ⟨List.not_mem_nil, List.not_mem_nil⟩
  | case6 s line ch rest notLf notCr ih =>
      rw [scan_other notLf notCr]
      exact ih (by simp [free, Ne.symm notLf, Ne.symm notCr])

theorem foldl_cons_false (s : SseParser) (line : Text) (lines : List (Text × Bool)) :
    (processed ((line, false) :: lines)).foldl SseParser.processLine s =
      (processed lines).foldl SseParser.processLine (s.processLine line) := rfl

/-- **One chunk**: the lines it completes are processed, and the open line and the
CR it ends in are what the rest of the units needs to know. -/
theorem foldl_scan (s : SseParser) (line text : Text) (noCr : s.sawCr = false)
    (units : List (UInt16 × Bool)) :
    (processed (markedLines line (text.map (·, false) ++ units))).foldl SseParser.processLine
        (fields s) =
      (processed (resumed (s.scan line text).sawCr (s.scan line text).buffer units)).foldl
        SseParser.processLine (fields (s.scan line text)) := by
  induction s, line, text using SseParser.scan.induct with
  | case1 s line =>
      cases units with
      | nil => rfl
      | cons unit units => simp [SseParser.scan, resumed, noCr, fields]
  | case2 s line rest ih =>
      rw [List.map_cons, List.cons_append, markedLines_lf, scan_lf, foldl_cons_false,
        ← fields_processLine]
      exact ih ((processLine_open s line).2.trans noCr)
  | case3 s line =>
      rw [scan_cr_nil, List.map_cons, List.map_nil, List.singleton_append]
      have same : fields { s.processLine line with sawCr := true, buffer := [] } =
          (fields s).processLine line := fields_processLine s line
      rw [same]
      rcases units with _ | ⟨⟨ch, cut⟩, units⟩
      · rw [markedLines_cr (by simp)]
        rfl
      · by_cases isLf : ch = lf
        · subst isLf
          rw [markedLines_cr_lf]
          cases cut with
          | false => simp [resumed, processed]
          | true => simp [resumed, processed, markedLines_lf]
        · rw [markedLines_cr (by simpa using isLf)]
          simp [resumed, processed, isLf]
  | case4 s line after _ ih =>
      rw [List.map_cons, List.map_cons, List.cons_append, List.cons_append, markedLines_cr_lf,
        scan_cr_lf, foldl_cons_false, ← fields_processLine]
      exact ih ((processLine_open s line).2.trans noCr)
  | case5 s line next after notLf _ ih =>
      rw [List.map_cons, List.cons_append, markedLines_cr (by simpa using notLf), scan_cr notLf,
        foldl_cons_false, ← fields_processLine]
      exact ih ((processLine_open s line).2.trans noCr)
  | case6 s line ch rest notLf notCr ih =>
      rw [List.map_cons, List.cons_append, markedLines_other notLf notCr, scan_other notLf notCr]
      exact ih noCr

/-- After an empty chunk no CR is pending. -/
theorem resumed_marks_true (sawCr : Bool) (line : Text) (chunks : List Text) :
    resumed sawCr line (marks true chunks) = markedLines line (marks true chunks) := by
  induction chunks with
  | nil => rfl
  | cons chunk chunks ih =>
      cases chunk with
      | nil => exact ih
      | cons ch rest => simp [marks, resumed]

theorem resumed_false (line : Text) (units : List (UInt16 × Bool)) :
    resumed false line units = markedLines line units := by
  cases units <;> simp [resumed, markedLines]

/-- **All chunks**: a run of `push` processes the lines of the marked text. -/
theorem foldl_push (chunks : List Text) (s : SseParser) (afterEmpty : Bool)
    (noCr : afterEmpty = true → s.sawCr = false) (free : lf ∉ s.buffer ∧ cr ∉ s.buffer) :
    fields (chunks.foldl SseParser.push s) =
      (processed (resumed s.sawCr s.buffer (marks afterEmpty chunks))).foldl
        SseParser.processLine (fields s) := by
  induction chunks generalizing s afterEmpty with
  | nil => rfl
  | cons chunk chunks ih =>
      have ready : ({ s with sawCr := false } : SseParser).sawCr = false := rfl
      cases chunk with
      | nil =>
          have pushed : s.push [] = { s with sawCr := false } := by
            have nothing := scan_free { s with sawCr := false } free [] []
            simpa [SseParser.push, SseParser.scan] using nothing
          have rest := ih { s with sawCr := false } true (fun _ => rfl) free
          rw [resumed_marks_true] at rest
          rw [List.foldl_cons, pushed, rest, marks, resumed_marks_true]
          rfl
      | cons ch rest =>
          -- the CR of the chunk before takes this chunk's LF, or is forgotten
          have text : ∀ text, s.push (ch :: rest) =
              ({ s with sawCr := false } : SseParser).scan [] (s.buffer ++ text) →
              resumed s.sawCr s.buffer (marks afterEmpty ((ch :: rest) :: chunks)) =
                markedLines s.buffer (text.map (·, false) ++ marks false chunks) →
              fields (List.foldl SseParser.push s ((ch :: rest) :: chunks)) =
                (processed (resumed s.sawCr s.buffer (marks afterEmpty ((ch :: rest) :: chunks)))).foldl
                  SseParser.processLine (fields s) := by
            intro text pushed lines
            rw [scan_free _ free, List.nil_append] at pushed
            rw [List.foldl_cons, pushed, lines, ih _ false nofun (scan_buffer_free _ free _),
              ← foldl_scan _ _ _ ready]
            rfl
          by_cases taken : s.sawCr = true ∧ ch = lf
          · obtain ⟨pending, rfl⟩ := taken
            have fresh : afterEmpty = false := by
              cases afterEmpty with
              | false => rfl
              | true => exact absurd (noCr rfl) (by simp [pending])
            apply text rest
            · simp [SseParser.push, pending]
            · simp [marks, resumed, pending, fresh]
          · apply text (ch :: rest)
            · have : ¬ (s.sawCr && decide (ch = lf)) = true := by simpa using taken
              simp [SseParser.push, this]
            · rw [marks, resumed, if_neg fun both => taken ⟨both.1, both.2.1⟩, List.map_cons,
                List.cons_append]
              exact markedLines_head

theorem messages_eq (chunks : List Text) : SseParser.messages chunks =
    ((processed (markedLines [] (marks false chunks))).foldl SseParser.processLine
      SseParser.init).emitted := by
  have run := foldl_push chunks SseParser.init false nofun ⟨List.not_mem_nil, List.not_mem_nil⟩
  have emitted := congrArg SseParser.emitted run
  rw [show SseParser.init.sawCr = false from rfl, show SseParser.init.buffer = [] from rfl,
    resumed_false] at emitted
  exact emitted

/-! ## Blocks -/

/-- A line that is not a comment has the field `name`. -/
def isField (name line : Text) : Bool := line.head? ≠ some colon ∧ (SseParser.parseField line).1 = name

def eventOf (eventType line : Text) : Text :=
  if isField (literal ['e', 'v', 'e', 'n', 't']) line then (SseParser.parseField line).2 else eventType

def dataOf (line : Text) : List Text :=
  if isField (literal ['d', 'a', 't', 'a']) line then [(SseParser.parseField line).2] else []

def idOf (id : Option Text) (line : Text) : Option Text :=
  if isField (literal ['i', 'd']) line ∧ 0 ∉ (SseParser.parseField line).2
  then some (SseParser.parseField line).2 else id

/-- The event type, the data and the id that lines leave. -/
def blockEvent (lines : List Text) : Text := lines.foldl eventOf []
def blockData (lines : List Text) : List Text := lines.flatMap dataOf
def blockId (id : Option Text) (lines : List Text) : Option Text := lines.foldl idOf id

/-- The message of a block that follows an id. -/
def message (id : Option Text) (lines : List Text) : Option SseMessage :=
  if blockData lines = [] then none
  else some ⟨SseParser.orMessage (blockEvent lines), [lf].intercalate (blockData lines), blockId id lines⟩

/-- The state at the start of a block. -/
def atStart (id : Option Text) (emitted : List SseMessage) : SseParser :=
  { SseParser.init with lastId := id, emitted := emitted }

theorem processLine_field (s : SseParser) {line : Text} (full : line ≠ []) :
    s.processLine line = { s with
      eventType := eventOf s.eventType line
      dataLines := s.dataLines ++ dataOf line
      lastId := idOf s.lastId line } := by
  have names : literal ['e', 'v', 'e', 'n', 't'] ≠ literal ['d', 'a', 't', 'a'] ∧
      literal ['e', 'v', 'e', 'n', 't'] ≠ literal ['i', 'd'] ∧
      literal ['d', 'a', 't', 'a'] ≠ literal ['i', 'd'] := by decide
  unfold SseParser.processLine eventOf dataOf idOf isField
  rw [if_neg full]
  by_cases comment : line.head? = some colon
  · simp [comment]
  · dsimp only
    simp only [comment, if_false, ne_eq, not_false_eq_true, true_and]
    split_ifs with event data id nul <;> simp_all

theorem foldl_lines (s : SseParser) {lines : List Text} (full : ∀ line ∈ lines, line ≠ []) :
    lines.foldl SseParser.processLine s = { s with
      eventType := lines.foldl eventOf s.eventType
      dataLines := s.dataLines ++ blockData lines
      lastId := blockId s.lastId lines } := by
  induction lines generalizing s with
  | nil => simp [blockData, blockId]
  | cons line lines ih =>
      rw [List.foldl_cons, processLine_field s (full line List.mem_cons_self),
        ih _ fun l mem => full l (List.mem_cons_of_mem _ mem)]
      simp [blockData, blockId]

/-- **A block and the empty line after it** send the block's message. -/
theorem foldl_block (id : Option Text) (emitted : List SseMessage) {lines : List Text}
    (full : ∀ line ∈ lines, line ≠ []) :
    (lines ++ [[]]).foldl SseParser.processLine (atStart id emitted) =
      atStart (blockId id lines) (emitted ++ (message id lines).toList) := by
  rw [List.foldl_append, foldl_lines _ full]
  simp only [List.foldl_cons, List.foldl_nil, SseParser.processLine, if_true, SseParser.dispatch,
    atStart, message, SseParser.init, List.nil_append, blockEvent]
  split_ifs with noData <;> simp [noData]

theorem blockId_append (id : Option Text) (front back : List Text) :
    blockId id (front ++ back) = blockId (blockId id front) back := List.foldl_append

theorem blockData_append (front back : List Text) :
    blockData (front ++ back) = blockData front ++ blockData back := List.flatMap_append

/-! ## A block with breaks -/

/-- The pieces of a block: every marked line ends one. -/
def pieces : List (Text × Bool) → List (List Text)
  | [] => [[]]
  | (line, true) :: rest => [line] :: pieces rest
  | (line, false) :: rest =>
      match pieces rest with
      | [] => [[line]]
      | piece :: more => (line :: piece) :: more

/-- The messages of a block's pieces, one after the other. -/
def sends : Option Text → List (List Text) → List SseMessage
  | _, [] => []
  | id, piece :: more => (message id piece).toList ++ sends (blockId id piece) more

theorem pieces_ne_nil (block : List (Text × Bool)) : pieces block ≠ [] := by
  induction block with
  | nil => simp [pieces]
  | cons l block _ =>
      obtain ⟨line, cut⟩ := l
      cases cut with
      | true => simp [pieces]
      | false => rw [pieces]; split <;> simp

theorem flatten_pieces (block : List (Text × Bool)) :
    (pieces block).flatten = block.map Prod.fst := by
  induction block with
  | nil => rfl
  | cons l block ih =>
      obtain ⟨line, cut⟩ := l
      cases cut with
      | true => simp [pieces, ih]
      | false =>
          rw [pieces]
          cases pieces_eq : pieces block with
          | nil => exact absurd pieces_eq (pieces_ne_nil block)
          | cons piece more =>
              rw [pieces_eq] at ih
              simpa using ih

/-- A block is processed as its pieces with an empty line between them. -/
theorem processed_pieces (block : List (Text × Bool)) :
    processed block ++ [[]] = (pieces block).flatMap (· ++ [[]]) := by
  induction block with
  | nil => rfl
  | cons l block ih =>
      obtain ⟨line, cut⟩ := l
      cases cut with
      | true =>
          rw [pieces, List.flatMap_cons, ← ih]
          rfl
      | false =>
          rw [pieces]
          cases pieces_eq : pieces block with
          | nil => exact absurd pieces_eq (pieces_ne_nil block)
          | cons piece more =>
              rw [pieces_eq] at ih
              have : processed ((line, false) :: block) = line :: processed block := rfl
              rw [this, List.cons_append, ih]
              rfl

theorem foldl_pieces (id : Option Text) (emitted : List SseMessage) {ps : List (List Text)}
    (full : ∀ piece ∈ ps, ∀ line ∈ piece, line ≠ []) :
    (ps.flatMap (· ++ [[]])).foldl SseParser.processLine (atStart id emitted) =
      atStart (blockId id ps.flatten) (emitted ++ sends id ps) := by
  induction ps generalizing id emitted with
  | nil => simp [sends, blockId]
  | cons piece more ih =>
      rw [List.flatMap_cons, List.foldl_append, foldl_block id emitted (full piece List.mem_cons_self),
        ih _ _ fun p mem => full p (List.mem_cons_of_mem _ mem), List.flatten_cons, blockId_append,
        sends, List.append_assoc]

theorem sends_append (id : Option Text) (front back : List (List Text)) :
    sends id (front ++ back) = sends id front ++ sends (blockId id front.flatten) back := by
  induction front generalizing id with
  | nil => rfl
  | cons piece front ih =>
      rw [List.cons_append, sends, ih, sends, List.flatten_cons, blockId_append, List.append_assoc]

theorem message_eq_none {id : Option Text} {lines : List Text} :
    message id lines = none ↔ blockData lines = [] := by
  unfold message
  split_ifs with noData <;> simp [noData]

theorem sends_eq_nil {id : Option Text} {ps : List (List Text)} :
    sends id ps = [] ↔ blockData ps.flatten = [] := by
  induction ps generalizing id with
  | nil => simp [sends, blockData]
  | cons piece more ih =>
      rw [sends, List.append_eq_nil_iff, ih, List.flatten_cons, blockData_append,
        List.append_eq_nil_iff, Option.toList_eq_nil_iff, message_eq_none]

/-- The breaks of a closed block are harmless: a piece with data has all of it,
and the block's event type and id. -/
def Whole (id : Option Text) (ps : List (List Text)) : Prop :=
  ∀ front piece back, ps = front ++ piece :: back → blockData piece ≠ [] →
    blockData front.flatten = [] ∧ blockData back.flatten = [] ∧
      SseParser.orMessage (blockEvent piece) = SseParser.orMessage (blockEvent ps.flatten) ∧
      blockId id (front.flatten ++ piece) = blockId id ps.flatten

/-- **One block**: its pieces send the block's message exactly when they are whole. -/
theorem sends_eq_message {id : Option Text} {ps : List (List Text)} :
    sends id ps = (message id ps.flatten).toList ↔ Whole id ps := by
  constructor
  · intro same front piece back places data
    have whole : blockData ps.flatten ≠ [] := by
      intro noData
      rw [places, List.flatten_append, List.flatten_cons, blockData_append, blockData_append] at noData
      exact data (List.append_eq_nil_iff.mp (List.append_eq_nil_iff.mp noData).2).1
    have sent : sends id ps = sends id front ++ (message (blockId id front.flatten) piece).toList ++
        sends (blockId id (front.flatten ++ piece)) back := by
      rw [places, sends_append, sends, blockId_append, List.append_assoc]
    rw [same, message, if_neg whole, message, if_neg data, ← blockId_append] at sent
    obtain ⟨before, after, one⟩ : sends id front = [] ∧
        sends (blockId id (front.flatten ++ piece)) back = [] ∧ _ := by
      have lengths := congrArg List.length sent
      simp only [Option.toList_some, List.length_append, List.length_singleton] at lengths
      have before : sends id front = [] := List.length_eq_zero_iff.mp (by omega)
      have after : sends (blockId id (front.flatten ++ piece)) back = [] :=
        List.length_eq_zero_iff.mp (by omega)
      rw [before, after, List.nil_append, List.append_nil, Option.toList_some, Option.toList_some,
        List.singleton_inj] at sent
      exact ⟨before, after, sent⟩
    rw [SseMessage.mk.injEq] at one
    exact ⟨sends_eq_nil.mp before, sends_eq_nil.mp after, one.1.symm, one.2.2.symm⟩
  · intro whole
    by_cases noData : blockData ps.flatten = []
    · rw [sends_eq_nil.mpr noData, message_eq_none.mpr noData]
      rfl
    · obtain ⟨piece, mem, data⟩ : ∃ piece ∈ ps, blockData piece ≠ [] := by
        by_contra all
        push Not at all
        apply noData
        rw [blockData, List.flatMap_eq_nil_iff]
        intro line mem
        obtain ⟨piece, inside, mem⟩ := List.mem_flatten.mp mem
        exact List.flatMap_eq_nil_iff.mp (all piece inside) line mem
      obtain ⟨front, back, places⟩ := List.append_of_mem mem
      obtain ⟨before, after, event, sameId⟩ := whole front piece back places data
      have all : blockData ps.flatten = blockData piece := by
        rw [places, List.flatten_append, List.flatten_cons, blockData_append, blockData_append,
          before, after, List.nil_append, List.append_nil]
      rw [message, if_neg noData, all, ← event, ← sameId, places, sends_append, sends,
        sends_eq_nil.mpr before, sends_eq_nil.mpr after, message, if_neg data, ← blockId_append]
      rfl

/-- Breaks never take a message away. -/
theorem length_message_le (id : Option Text) (ps : List (List Text)) :
    (message id ps.flatten).toList.length ≤ (sends id ps).length := by
  by_cases noData : blockData ps.flatten = []
  · rw [message_eq_none.mpr noData]
    exact Nat.zero_le _
  · have sent : sends id ps ≠ [] := fun nothing => noData (sends_eq_nil.mp nothing)
    rw [message, if_neg noData]
    exact List.length_pos_of_ne_nil sent

/-! ## A whole text -/

/-- **The breaks change nothing**: they are harmless in every block that is closed,
and before the last break of an open block there is no data.  `block` is what the
open block has so far. -/
def Harmless (id : Option Text) (block : List (Text × Bool)) : List (Text × Bool) → Prop
  | [] => ∀ piece ∈ (pieces block).dropLast, blockData piece = []
  | (line, cut) :: rest =>
      if line = [] then Whole id (pieces block) ∧ Harmless (blockId id (block.map Prod.fst)) [] rest
      else Harmless id (block ++ [(line, cut)]) rest

theorem full_pieces {block : List (Text × Bool)} (full : ∀ l ∈ block, l.1 ≠ []) :
    ∀ piece ∈ pieces block, ∀ line ∈ piece, line ≠ [] := by
  intro piece mem line inside
  have all : line ∈ block.map Prod.fst := by
    rw [← flatten_pieces]
    exact List.mem_flatten_of_mem mem inside
  obtain ⟨l, mem, rfl⟩ := List.mem_map.mp all
  exact full l mem

/-- An open block sends the messages of all its pieces but the last. -/
theorem emitted_open (id : Option Text) (emitted : List SseMessage) {block : List (Text × Bool)}
    (full : ∀ l ∈ block, l.1 ≠ []) :
    ((processed block).foldl SseParser.processLine (atStart id emitted)).emitted =
      emitted ++ sends id (pieces block).dropLast := by
  have fullPieces := full_pieces full
  have whole := List.dropLast_concat_getLast (pieces_ne_nil block)
  have lines := processed_pieces block
  rw [← whole, List.flatMap_append, List.flatMap_singleton, ← List.append_assoc] at lines
  rw [List.append_cancel_right lines, List.foldl_append,
    foldl_pieces _ _ fun piece mem => fullPieces piece (List.mem_of_mem_dropLast mem),
    foldl_lines _ (fullPieces _ (List.getLast_mem _))]
  rfl

/-- A closed block sends the messages of all its pieces. -/
theorem foldl_closed (id : Option Text) (emitted : List SseMessage) {block : List (Text × Bool)}
    (full : ∀ l ∈ block, l.1 ≠ []) (cut : Bool) :
    (processed (block ++ [([], cut)])).foldl SseParser.processLine (atStart id emitted) =
      atStart (blockId id (block.map Prod.fst)) (emitted ++ sends id (pieces block)) := by
  have closed := foldl_pieces id emitted (full_pieces full)
  rw [← processed_pieces, flatten_pieces] at closed
  have again : ∀ id emitted, (atStart id emitted).processLine [] = atStart id emitted :=
    fun _ _ => rfl
  cases cut with
  | false =>
      rw [← closed]
      simp [processed]
  | true =>
      have twice : processed (block ++ [([], true)]) = (processed block ++ [[]]) ++ [[]] := by
        simp [processed]
      rw [twice, List.foldl_append, closed]
      exact again _ _

theorem forall_of_blockData_flatten {ps : List (List Text)} :
    blockData ps.flatten = [] ↔ ∀ piece ∈ ps, blockData piece = [] := by
  induction ps with
  | nil => simp [blockData]
  | cons piece more ih =>
      rw [List.flatten_cons, blockData_append, List.append_eq_nil_iff, ih, List.forall_mem_cons]

theorem append_eq_of_length_le {α : Type} {xs ys zs ws : List α} (le : xs.length ≤ ys.length)
    (le' : zs.length ≤ ws.length) : ys ++ ws = xs ++ zs ↔ ys = xs ∧ ws = zs := by
  refine ⟨fun same => ?_, fun both => by rw [both.1, both.2]⟩
  have lengths := congrArg List.length same
  rw [List.length_append, List.length_append] at lengths
  exact List.append_inj same (by omega)

/-- **A text with breaks**: what it sends beside what it sends without them. -/
theorem emitted_iff (lines : List (Text × Bool)) (id : Option Text) {block : List (Text × Bool)}
    (full : ∀ l ∈ block, l.1 ≠ []) : ∃ sent plain : List SseMessage,
      (∀ emitted, ((processed (block ++ lines)).foldl SseParser.processLine
        (atStart id emitted)).emitted = emitted ++ sent) ∧
      (∀ emitted, (((block ++ lines).map Prod.fst).foldl SseParser.processLine
        (atStart id emitted)).emitted = emitted ++ plain) ∧
      plain.length ≤ sent.length ∧ (sent = plain ↔ Harmless id block lines) := by
  induction lines generalizing id block with
  | nil =>
      have fullLines : ∀ line ∈ block.map Prod.fst, line ≠ [] := List.forall_mem_map.mpr full
      refine ⟨sends id (pieces block).dropLast, [], fun emitted => ?_, fun emitted => ?_,
        Nat.zero_le _, ?_⟩
      · rw [List.append_nil, emitted_open id emitted full]
      · rw [List.append_nil, foldl_lines _ fullLines, List.append_nil]
        rfl
      · rw [Harmless, sends_eq_nil, forall_of_blockData_flatten]
  | cons l rest ih =>
      obtain ⟨line, cut⟩ := l
      rw [Harmless]
      split_ifs with blank
      · subst blank
        have fullLines : ∀ line ∈ block.map Prod.fst, line ≠ [] := List.forall_mem_map.mpr full
        obtain ⟨sent, plain, code, whole, le, iff⟩ :=
          @ih (blockId id (block.map Prod.fst)) [] fun _ mem => nomatch mem
        refine ⟨sends id (pieces block) ++ sent, (message id (block.map Prod.fst)).toList ++ plain,
          fun emitted => ?_, fun emitted => ?_, ?_, ?_⟩
        · have ahead : processed (block ++ ([], cut) :: rest) =
              processed (block ++ [([], cut)]) ++ processed rest := by simp [processed]
          rw [ahead, List.foldl_append, foldl_closed id emitted full]
          exact (code _).trans (List.append_assoc _ _ _)
        · have ahead : (block ++ ([], cut) :: rest).map Prod.fst =
              (block.map Prod.fst ++ [[]]) ++ rest.map Prod.fst := by simp
          rw [ahead, List.foldl_append, foldl_block id emitted fullLines]
          exact (whole _).trans (List.append_assoc _ _ _)
        · have := length_message_le id (pieces block)
          rw [flatten_pieces] at this
          rw [List.length_append, List.length_append]
          omega
        · have pieceLe := length_message_le id (pieces block)
          have piece := @sends_eq_message id (pieces block)
          rw [flatten_pieces] at pieceLe piece
          rw [append_eq_of_length_le pieceLe le, piece, iff]
      · have fullNext : ∀ l ∈ block ++ [(line, cut)], l.1 ≠ [] := by
          intro l mem
          rcases List.mem_append.mp mem with mem | mem
          · exact full l mem
          · rw [List.mem_singleton.mp mem]
            exact blank
        have next := ih id fullNext
        rwa [List.append_assoc] at next

theorem processed_of_uncut {lines : List (Text × Bool)} (uncut : ∀ l ∈ lines, l.2 = false) :
    processed lines = lines.map Prod.fst := by
  induction lines with
  | nil => rfl
  | cons l lines ih =>
      have here := uncut l List.mem_cons_self
      rw [processed, List.flatMap_cons, here, ← processed,
        ih fun l mem => uncut l (List.mem_cons_of_mem _ mem)]
      rfl

theorem markedLines_uncut (line : Text) {units : List (UInt16 × Bool)}
    (unmarked : ∀ u ∈ units, u.2 = false) : ∀ l ∈ markedLines line units, l.2 = false := by
  induction line, units using markedLines.induct with
  | case1 line => simp [markedLines]
  | case2 line cut rest ih =>
      rw [markedLines_lf, List.forall_mem_cons]
      exact ⟨rfl, ih fun u mem => unmarked u (List.mem_cons_of_mem _ mem)⟩
  | case3 line cut =>
      rw [markedLines_cr (by simp)]
      simp [markedLines]
  | case4 line cut cut' after _ ih =>
      rw [markedLines_cr_lf, List.forall_mem_cons]
      exact ⟨unmarked (lf, cut') (by simp), ih fun u mem => unmarked u (by simp [mem])⟩
  | case5 line cut next cut' after notLf _ ih =>
      rw [markedLines_cr (by simpa using notLf), List.forall_mem_cons]
      exact ⟨rfl, ih fun u mem => unmarked u (List.mem_cons_of_mem _ mem)⟩
  | case6 line ch cut rest notLf notCr ih =>
      rw [markedLines_other notLf notCr]
      exact ih fun u mem => unmarked u (List.mem_cons_of_mem _ mem)

theorem marks_unmarked {chunks : List Text} (full : ∀ chunk ∈ chunks, chunk ≠ []) :
    ∀ u ∈ marks false chunks, u.2 = false := by
  induction chunks with
  | nil => simp [marks]
  | cons chunk chunks ih =>
      cases chunk with
      | nil => exact absurd rfl (full [] List.mem_cons_self)
      | cons ch rest =>
          have later := ih fun chunk mem => full chunk (List.mem_cons_of_mem _ mem)
          intro u mem
          rw [marks, List.mem_cons, List.mem_append, List.mem_map] at mem
          rcases mem with rfl | ⟨c, -, rfl⟩ | mem
          · rfl
          · rfl
          · exact later u mem

/-- **Chunks that are not empty may be cut anywhere**, also inside a CRLF. -/
theorem messages_of_full {chunks : List Text} (full : ∀ chunk ∈ chunks, chunk ≠ []) :
    SseParser.messages chunks = messagesOf chunks.flatten := by
  rw [messages_eq, processed_of_uncut (markedLines_uncut [] (marks_unmarked full)),
    ← completeLines_map_fst, map_fst_marks, messagesOf]

theorem messages_whole (text : Text) : SseParser.messages [text] = messagesOf text := by
  cases text with
  | nil => rfl
  | cons ch rest =>
      have one := @messages_of_full [ch :: rest] (by simp)
      rwa [List.flatten_singleton] at one

/-- **Parsing a stream depends on its chunks exactly where an empty chunk cuts a
CRLF inside a block**, and the break it makes there is not harmless. -/
theorem messages_iff (chunks : List Text) :
    (SseParser.messages chunks = SseParser.messages [chunks.flatten] ∧
      SseParser.messages [chunks.flatten] = messagesOf chunks.flatten) ↔
      Harmless none [] (markedLines [] (marks false chunks)) := by
  obtain ⟨sent, plain, code, whole, -, iff⟩ :=
    @emitted_iff (markedLines [] (marks false chunks)) none [] fun _ mem => nomatch mem
  have coded : SseParser.messages chunks = sent := (messages_eq chunks).trans (code [])
  have specified : messagesOf chunks.flatten = plain := by
    rw [messagesOf, ← map_fst_marks false, completeLines_map_fst]
    exact whole []
  rw [messages_whole, coded, specified, ← iff]
  exact and_iff_left rfl

/-- `data:x`, a CRLF cut by an empty chunk, and a second data line of the block. -/
theorem messages_depend_on_chunks : ¬ ∀ chunks : List Text,
    SseParser.messages chunks = SseParser.messages [chunks.flatten] ∧
      SseParser.messages [chunks.flatten] = messagesOf chunks.flatten := by
  intro all
  have here := (all [literal ['d', 'a', 't', 'a', ':', 'x', '\r'], [],
    literal ['\n', 'd', 'a', 't', 'a', ':', 'y', '\r', '\n', '\n']]).1
  exact absurd here (by decide)

end Sse

end HybridSearch.Web
