/-
# Broker.EventLogDelivery -- what the event log has written, and when

`Sound` is the invariant of the reader over the channel: the queue is what was
accepted after the records already handled, each line holds the record of its
position, positions increase, and every position below `processed` is on disk or
counted as dropped.  One step keeps it (`Sound.step`).

`FlushAsync` is a barrier in every run in which the records it waits for are the
first ones counted (`flush_waits`).  A producer that is overtaken between its
channel write and its counter increment breaks it (`flush_overtaken`).
-/
import HybridSearch.Broker.EventLog

namespace HybridSearch.Broker.EventLog

open HybridSearch.Theory

set_option autoImplicit false

/-! ## Program points -/

/-- The record the reader has taken out of the channel and not yet handled. -/
def holding : ReaderPc → Option LogRecord
  | .got rec | .writeLine rec | .drainWrite rec | .dropCount rec => some rec
  | _ => none

inductive Phase
  | loop
  | dropping
  | leaving
  deriving DecidableEq, Repr

def phase : ReaderPc → Phase
  | .dropWait | .dropWaiting | .dropRead | .dropCount _ | .dropAdd => .dropping
  | .finally_ | .drain | .drainWrite _ | .dispose | .ended => .leaving
  | _ => .loop

/-- A move between program points that touches nothing else. -/
structure Quiet (pc pc' : ReaderPc) : Prop where
  held : holding pc' = holding pc
  forward : phase pc' = .leaving ∨ phase pc' = phase pc ∨ pc = .start
  counted : pc ≠ .dropAdd ∧ pc' ≠ .dropAdd
  target : pc' ≠ .addProcessed ∧ pc' ≠ .start

namespace Reader

/-- The position is on disk, or counted as dropped. -/
def Settled (r : Reader) (pos : Nat) : Prop :=
  (∃ line ∈ r.lines.take r.flushed, line.pos = pos) ∨ pos ∈ r.dropped

/-- Handled positions that `processed` does not count yet. -/
def uncounted (r : Reader) : Nat :=
  match r.pc with
  | .dropAdd => 1
  | _ => r.pendingInBatch

theorem uncounted_of_ne {r : Reader} (ne : r.pc ≠ .dropAdd) : r.uncounted = r.pendingInBatch := by
  unfold uncounted
  split
  · contradiction
  · rfl

theorem Settled.mono {r r' : Reader} {pos : Nat} (settled : r.Settled pos)
    (lines : r.lines <+: r'.lines) (flushed : r.flushed ≤ r'.flushed)
    (dropped : r.dropped ⊆ r'.dropped) : r'.Settled pos := by
  rcases settled with ⟨line, mem, pos_eq⟩ | drop
  · obtain ⟨added, eq⟩ := lines
    refine .inl ⟨line, ?_, pos_eq⟩
    rw [← eq, List.take_append]
    exact List.mem_append_left _ ((List.take_prefix_take_left flushed).subset mem)
  · exact .inr (dropped drop)

end Reader

/-! ## The invariant of the reader -/

structure Sound (accepted queue : List LogRecord) (r : Reader) : Prop where
  fifo : (holding r.pc).toList ++ queue = accepted.drop r.handled
  within : r.handled ≤ accepted.length
  recorded : ∀ line ∈ r.lines, line.pos < r.handled ∧ accepted[line.pos]? = some line.record
  ordered : (r.lines.map Line.pos).Pairwise (· < ·)
  flushedLe : r.flushed ≤ r.lines.length
  accounted : phase r.pc ≠ .leaving → ∀ pos < r.handled, pos ∈ r.lines.map Line.pos ∨ pos ∈ r.dropped
  counted : phase r.pc ≠ .leaving → r.processed + r.uncounted = r.handled
  unopened : phase r.pc ≠ .leaving → r.writer = .null → r.lines = []
  noWriter : r.pc = .start ∨ phase r.pc = .dropping → r.writer = .null ∧ r.pendingInBatch = 0
  batchFlushed : r.pc = .addProcessed → r.flushed = r.lines.length
  settled : ∀ pos < r.processed, r.Settled pos

theorem sound_initial : Sound [] [] Reader.initial where
  fifo := rfl
  within := Nat.le_refl _
  recorded := by simp [Reader.initial]
  ordered := by simp [Reader.initial]
  flushedLe := Nat.le_refl _
  accounted := by simp [Reader.initial]
  counted := by simp [Reader.initial, Reader.uncounted]
  unopened := by simp [Reader.initial]
  noWriter := by simp [Reader.initial]
  batchFlushed := by simp [Reader.initial]
  settled := by simp [Reader.initial]

namespace Sound

variable {accepted queue : List LogRecord} {r : Reader}

theorem held_front (ok : Sound accepted queue r) {rec : LogRecord} (held : holding r.pc = some rec) :
    accepted[r.handled]? = some rec ∧ accepted.drop (r.handled + 1) = queue := by
  have fifo := ok.fifo
  rw [held] at fifo
  have front : accepted.drop r.handled = rec :: queue := fifo.symm
  constructor
  · rw [← List.head?_drop, front]
    rfl
  · rw [← List.drop_drop, front]
    rfl

theorem handled_lt (ok : Sound accepted queue r) {rec : LogRecord} (held : holding r.pc = some rec) :
    r.handled < accepted.length :=
  (List.getElem?_eq_some_iff.mp (ok.held_front held).1).1

theorem move (ok : Sound accepted queue r) {pc : ReaderPc} (quiet : Quiet r.pc pc) :
    Sound accepted queue (r.goto pc) := by
  have stays : phase pc ≠ .leaving → phase r.pc ≠ .leaving := by
    intro stays
    rcases quiet.forward with leaving | same | start
    · exact absurd leaving stays
    · rwa [← same]
    · simp [start, phase]
  have uncounted : (r.goto pc).uncounted = r.uncounted :=
    (Reader.uncounted_of_ne quiet.counted.2).trans (Reader.uncounted_of_ne quiet.counted.1).symm
  exact { ok with
    fifo := (congrArg (·.toList ++ queue) quiet.held).trans ok.fifo
    accounted := fun pc_eq => ok.accounted (stays pc_eq)
    counted := fun pc_eq => by rw [uncounted]; exact ok.counted (stays pc_eq)
    unopened := fun pc_eq => ok.unopened (stays pc_eq)
    noWriter := by
      rintro (start | dropping)
      · exact absurd start quiet.target.2
      · rcases quiet.forward with leaving | same | start
        · rw [Reader.goto, leaving] at dropping
          cases dropping
        · exact ok.noWriter (.inr (same.symm.trans dropping))
        · exact ok.noWriter (.inl start)
    batchFlushed := fun pc_eq => absurd pc_eq quiet.target.1 }

/-- Taking the next record out of the channel. -/
theorem take {rec : LogRecord} (ok : Sound accepted (rec :: queue) r) {pc : ReaderPc}
    (free : holding r.pc = none) (held : holding pc = some rec) (same : phase pc = phase r.pc)
    (point : r.pc ≠ .dropAdd) : Sound accepted queue (r.goto pc) := by
  have target : pc ≠ .dropAdd ∧ pc ≠ .addProcessed ∧ pc ≠ .start := by
    refine ⟨?_, ?_, ?_⟩ <;> rintro rfl <;> cases held
  have uncounted : (r.goto pc).uncounted = r.uncounted :=
    (Reader.uncounted_of_ne target.1).trans (Reader.uncounted_of_ne point).symm
  have fifo := ok.fifo
  rw [free] at fifo
  exact { ok with
    fifo := (congrArg (·.toList ++ queue) held).trans fifo
    accounted := fun pc_eq => ok.accounted (same ▸ pc_eq)
    counted := fun pc_eq => by rw [uncounted]; exact ok.counted (same ▸ pc_eq)
    unopened := fun pc_eq => ok.unopened (same ▸ pc_eq)
    noWriter := by
      rintro (start | dropping)
      · exact absurd start target.2.2
      · exact ok.noWriter (.inr (same.symm.trans dropping))
    batchFlushed := fun pc_eq => absurd pc_eq target.2.1 }

/-- Losing the held record, which only the way out of the loop does. -/
theorem lose (ok : Sound accepted queue r) {rec : LogRecord} (held : holding r.pc = some rec)
    {pc : ReaderPc} (out : phase pc = .leaving) (free : holding pc = none) (writer : Writer)
    (currentFile : Option String) {flushed : Nat} (more : r.flushed ≤ flushed)
    (flushedLe : flushed ≤ r.lines.length) :
    Sound accepted queue { r with
      pc := pc, handled := r.handled + 1, writer := writer, currentFile := currentFile
      flushed := flushed } where
  fifo := by
    show (holding pc).toList ++ queue = accepted.drop (r.handled + 1)
    rw [free, (ok.held_front held).2]
    rfl
  within := ok.handled_lt held
  recorded line mem := ⟨Nat.lt_succ_of_lt (ok.recorded line mem).1, (ok.recorded line mem).2⟩
  ordered := ok.ordered
  flushedLe := flushedLe
  accounted stays := absurd out stays
  counted stays := absurd out stays
  unopened stays := absurd out stays
  noWriter pc_eq := by
    rcases pc_eq with start | dropping
    · cases (congrArg phase start).symm.trans out
    · cases dropping.symm.trans out
  batchFlushed pc_eq := by cases (congrArg phase pc_eq).symm.trans out
  settled pos below :=
    (ok.settled pos below).mono (List.prefix_refl _) more (List.Subset.refl _)

/-- Writing the held record. -/
theorem append (ok : Sound accepted queue r) {rec : LogRecord} (held : holding r.pc = some rec)
    (file : String) (written pending : Nat) {pc : ReaderPc} (same : phase pc = phase r.pc)
    (free : holding pc = none) (point : pc ≠ .start ∧ pc ≠ .addProcessed ∧ phase pc ≠ .dropping)
    (opened : r.writer ≠ .null)
    (counts : phase pc ≠ .leaving →
      r.processed + ({ r with pc := pc, pendingInBatch := pending } : Reader).uncounted =
        r.handled + 1) :
    Sound accepted queue { r with
      pc := pc, lines := r.lines ++ [⟨file, r.handled, rec⟩], handled := r.handled + 1
      written := written, pendingInBatch := pending } where
  fifo := by
    show (holding pc).toList ++ queue = accepted.drop (r.handled + 1)
    rw [free, (ok.held_front held).2]
    rfl
  within := ok.handled_lt held
  recorded line mem := by
    rcases List.mem_append.mp mem with old | new
    · exact ⟨Nat.lt_succ_of_lt (ok.recorded line old).1, (ok.recorded line old).2⟩
    · rw [List.mem_singleton] at new
      subst new
      exact ⟨Nat.lt_succ_self _, (ok.held_front held).1⟩
  ordered := by
    rw [List.map_append, List.pairwise_append]
    refine ⟨ok.ordered, List.pairwise_singleton _ _, ?_⟩
    intro pos mem last eq
    obtain ⟨line, inLines, rfl⟩ := List.mem_map.mp mem
    simp only [List.map_cons, List.map_nil, List.mem_singleton] at eq
    subst eq
    exact (ok.recorded line inLines).1
  flushedLe := by
    simp only [List.length_append]
    exact Nat.le_add_right_of_le ok.flushedLe
  accounted stays pos below := by
    rcases Nat.lt_succ_iff_lt_or_eq.mp below with before | rfl
    · rcases ok.accounted (same ▸ stays) pos before with line | drop
      · exact .inl (by simp [line])
      · exact .inr drop
    · exact .inl (by simp)
  counted := counts
  unopened _ null := absurd null opened
  noWriter := by
    rintro (start | dropping)
    · exact absurd start point.1
    · exact absurd dropping point.2.2
  batchFlushed pc_eq := absurd pc_eq point.2.1
  settled pos below :=
    (ok.settled pos below).mono (List.prefix_append _ _) (Nat.le_refl _) (List.Subset.refl _)

/-- Counting the held record as dropped. -/
theorem drop (ok : Sound accepted queue r) {rec : LogRecord} (held : holding r.pc = some rec)
    {pc : ReaderPc} (pending : Nat) (same : phase pc = phase r.pc) (free : holding pc = none)
    (added : pc ≠ .addProcessed)
    (nothingOpen : pc = .start ∨ phase pc = .dropping → r.writer = .null ∧ pending = 0)
    (counts : phase pc ≠ .leaving →
      r.processed + ({ r with pc := pc, pendingInBatch := pending } : Reader).uncounted =
        r.handled + 1) :
    Sound accepted queue { r with
      pc := pc, dropped := r.dropped ++ [r.handled], handled := r.handled + 1
      pendingInBatch := pending } where
  fifo := by
    show (holding pc).toList ++ queue = accepted.drop (r.handled + 1)
    rw [free, (ok.held_front held).2]
    rfl
  within := ok.handled_lt held
  recorded line mem := ⟨Nat.lt_succ_of_lt (ok.recorded line mem).1, (ok.recorded line mem).2⟩
  ordered := ok.ordered
  flushedLe := ok.flushedLe
  accounted stays pos below := by
    rcases Nat.lt_succ_iff_lt_or_eq.mp below with before | rfl
    · rcases ok.accounted (same ▸ stays) pos before with line | drop
      · exact .inl line
      · exact .inr (by simp [drop])
    · exact .inr (by simp)
  counted := counts
  unopened stays := ok.unopened (same ▸ stays)
  noWriter := nothingOpen
  batchFlushed pc_eq := absurd pc_eq added
  settled pos below :=
    (ok.settled pos below).mono (List.prefix_refl _) (Nat.le_refl _) (List.subset_append_left _ _)

/-- Reaching a point of the same phase with every line on disk. -/
theorem flushAll (ok : Sound accepted queue r) {pc : ReaderPc} (held : holding pc = holding r.pc)
    (forward : phase pc = .leaving ∨ phase pc = .loop ∧ phase r.pc = .loop)
    (point : pc ≠ .start) (writer : Writer) (opened : phase pc = .loop → writer ≠ .null)
    (currentFile : Option String) :
    Sound accepted queue { r with
      pc := pc, writer := writer, currentFile := currentFile, flushed := r.lines.length } where
  fifo := (congrArg (·.toList ++ queue) held).trans ok.fifo
  within := ok.within
  recorded := ok.recorded
  ordered := ok.ordered
  flushedLe := Nat.le_refl _
  accounted stays := by
    rcases forward with leaving | ⟨-, loop⟩
    · exact absurd leaving stays
    · exact ok.accounted (by rw [loop]; decide)
  counted stays := by
    rcases forward with leaving | ⟨loop', loop⟩
    · exact absurd leaving stays
    · have before := ok.counted (by rw [loop]; decide)
      have notAdd : r.pc ≠ .dropAdd := fun pc_eq => by cases (congrArg phase pc_eq).symm.trans loop
      have notAdd' : pc ≠ .dropAdd := fun pc_eq => by cases (congrArg phase pc_eq).symm.trans loop'
      rw [Reader.uncounted_of_ne notAdd] at before
      rw [Reader.uncounted_of_ne notAdd']
      exact before
  unopened stays null := by
    rcases forward with leaving | ⟨loop, -⟩
    · exact absurd leaving stays
    · exact absurd null (opened loop)
  noWriter pc_eq := by
    rcases pc_eq with start | dropping
    · exact absurd start point
    · rcases forward with leaving | ⟨loop, -⟩
      · cases dropping.symm.trans leaving
      · cases dropping.symm.trans loop
  batchFlushed _ := rfl
  settled pos below :=
    (ok.settled pos below).mono (List.prefix_refl _) ok.flushedLe (List.Subset.refl _)

theorem flushed_of_nil (ok : Sound accepted queue r) (noLines : r.lines = []) :
    r.flushed = r.lines.length := by
  have bound := ok.flushedLe
  rw [noLines] at bound ⊢
  exact Nat.eq_zero_of_le_zero bound

/-- With every line on disk the handled positions are settled. -/
theorem settled_of_flushed (ok : Sound accepted queue r) (stays : phase r.pc ≠ .leaving)
    (all : r.flushed = r.lines.length) {pos : Nat} (below : pos < r.handled) : r.Settled pos := by
  rcases ok.accounted stays pos below with line | drop
  · obtain ⟨line, mem, pos_eq⟩ := List.mem_map.mp line
    refine .inl ⟨line, ?_, pos_eq⟩
    rw [all, List.take_length]
    exact mem
  · exact .inr drop

/-- Counting the flushed batch. -/
theorem addProcessed (ok : Sound accepted queue r) (pc_eq : r.pc = .addProcessed) :
    Sound accepted queue { r with
      pc := .waitToRead, processed := r.processed + r.pendingInBatch, pendingInBatch := 0 } := by
  have stays : phase r.pc ≠ .leaving := by
    rw [pc_eq]
    decide
  have counted : r.processed + r.pendingInBatch = r.handled := by
    have := ok.counted stays
    rwa [Reader.uncounted_of_ne (by rw [pc_eq]; decide)] at this
  exact { ok with
    fifo := by
      have fifo := ok.fifo
      rw [pc_eq] at fifo
      exact fifo
    accounted := fun _ => ok.accounted stays
    counted := fun _ => counted
    unopened := fun _ => ok.unopened stays
    noWriter := by
      rintro (start | dropping)
      · cases start
      · cases dropping
    batchFlushed := fun at' => by cases at'
    settled := fun pos below =>
      ok.settled_of_flushed stays (ok.batchFlushed pc_eq) (Nat.lt_of_lt_of_eq below counted) }

/-- Counting one dropped record in the degraded loop. -/
theorem dropAdd (ok : Sound accepted queue r) (pc_eq : r.pc = .dropAdd) :
    Sound accepted queue { r with pc := .dropRead, processed := r.processed + 1 } := by
  have stays : phase r.pc ≠ .leaving := by
    rw [pc_eq]
    decide
  have counted : r.processed + 1 = r.handled := by
    have := ok.counted stays
    unfold Reader.uncounted at this
    rwa [pc_eq] at this
  obtain ⟨null, pending⟩ := ok.noWriter (.inr (by rw [pc_eq]; rfl))
  have noLines := ok.unopened stays null
  exact { ok with
    fifo := by
      have fifo := ok.fifo
      rw [pc_eq] at fifo
      exact fifo
    accounted := fun _ => ok.accounted stays
    counted := fun _ => by
      show r.processed + 1 + r.pendingInBatch = r.handled
      rw [pending, counted]
    unopened := fun _ => ok.unopened stays
    noWriter := fun _ => ⟨null, pending⟩
    batchFlushed := fun at' => by cases at'
    settled := fun pos below => ok.settled_of_flushed stays (ok.flushed_of_nil noLines)
      (Nat.lt_of_lt_of_eq below counted) }

/-- The way from an empty channel to the counting of the batch, no file open. -/
theorem unopenedBatch (ok : Sound accepted queue r) (pc_eq : r.pc = .flush) (null : r.writer = .null) :
    Sound accepted queue (r.goto .addProcessed) := by
  have stays : phase r.pc ≠ .leaving := by
    rw [pc_eq]
    decide
  have noLines := ok.unopened stays null
  have fifo := ok.fifo
  have counted := ok.counted stays
  rw [Reader.uncounted_of_ne (by rw [pc_eq]; decide)] at counted
  rw [pc_eq] at fifo
  exact { ok with
    fifo := fifo
    accounted := fun _ => ok.accounted stays
    counted := fun _ => counted
    unopened := fun _ => ok.unopened stays
    noWriter := by
      rintro (start | dropping)
      · cases start
      · cases dropping
    batchFlushed := fun _ => ok.flushed_of_nil noLines }

/-- **One step of the reader keeps the invariant.** -/
theorem step {queue' : List LogRecord} {cancelled : Bool} {o : Outcome} {r' : Reader}
    (ok : Sound accepted queue r) (stepped : r.step queue cancelled o = some (r', queue')) :
    Sound accepted queue' r' := by
  have quiet : ∀ {pc}, Quiet r.pc pc → Sound accepted queue (r.goto pc) := ok.move
  unfold Reader.step at stepped
  split at stepped
  case h_1 pc_eq =>
    cases stepped
    exact quiet (by rw [pc_eq]; constructor <;> decide)
  case h_2 pc_eq =>
    cases stepped
    exact quiet (by rw [pc_eq]; constructor <;> decide)
  case h_3 pc_eq =>
    split_ifs at stepped <;> cases stepped <;> exact quiet (by rw [pc_eq]; constructor <;> decide)
  case h_4 pc_eq =>
    split at stepped <;> cases stepped
    · exact quiet (by rw [pc_eq]; constructor <;> decide)
    · exact ok.take (by rw [pc_eq]; rfl) rfl (by rw [pc_eq]; rfl) (by rw [pc_eq]; decide)
  case h_5 rec pc_eq =>
    have held : holding r.pc = some rec := by
      rw [pc_eq]
      rfl
    dsimp only at stepped
    split_ifs at stepped with same done
    · cases stepped
      refine quiet ?_
      rw [pc_eq]
      exact ⟨rfl, .inr (.inl rfl), by simp, by simp⟩
    · obtain ⟨r', rotated, eq⟩ := Option.map_eq_some_iff.mp stepped
      cases eq
      unfold Reader.rotate at rotated
      split at rotated
      · cases rotated
        exact ok.flushAll (by rw [held]; rfl) (.inr ⟨rfl, by rw [pc_eq]; rfl⟩) (by simp) _
          (fun _ => by simp) _
      · cases rotated
        exact ok.lose held rfl rfl _ _ ok.flushedLe (Nat.le_refl _)
      · split_ifs at rotated
        cases rotated
        exact ok.lose held rfl rfl _ _ (Nat.le_refl _) ok.flushedLe
      · cases rotated
  case h_6 rec pc_eq =>
    have held : holding r.pc = some rec := by
      rw [pc_eq]
      rfl
    obtain ⟨r', wrote, eq⟩ := Option.map_eq_some_iff.mp stepped
    cases eq
    have counted := ok.counted (by simp [pc_eq, phase])
    rw [Reader.uncounted_of_ne (by simp [pc_eq])] at counted
    unfold Reader.writeLine at wrote
    split at wrote
    · split at wrote
      case h_1 file opened =>
        cases wrote
        refine ok.append held file _ _ (by rw [pc_eq]; rfl) rfl (by decide) (by simp [opened])
          fun _ => ?_
        rw [Reader.uncounted_of_ne (by simp), ← Nat.add_assoc, counted]
      case h_2 =>
        cases wrote
        exact ok.lose held rfl rfl _ _ (Nat.le_refl _) ok.flushedLe
    · cases wrote
      refine ok.drop held _ (by rw [pc_eq]; rfl) rfl (by decide) (by simp [phase]) fun _ => ?_
      rw [Reader.uncounted_of_ne (by simp), ← Nat.add_assoc, counted]
    · cases wrote
  case h_7 pc_eq =>
    obtain ⟨r', flushed, eq⟩ := Option.map_eq_some_iff.mp stepped
    cases eq
    unfold Reader.flush at flushed
    have out : Sound accepted queue (r.goto .finally_) :=
      quiet (by rw [pc_eq]; constructor <;> decide)
    split at flushed
    · split at flushed
      case h_1 null =>
        cases flushed
        exact ok.unopenedBatch pc_eq null
      case h_2 opened =>
        cases flushed
        exact ok.flushAll (by rw [pc_eq]; rfl) (.inr ⟨rfl, by rw [pc_eq]; rfl⟩) (by decide) _
          (fun _ => by simp [opened]) _
      case h_3 =>
        cases flushed
        exact out
    · split_ifs at flushed
      cases flushed
      exact out
    · split_ifs at flushed
      cases flushed
      exact out
    · cases flushed
  case h_8 pc_eq =>
    cases stepped
    exact ok.addProcessed pc_eq
  case h_9 pc_eq =>
    cases stepped
    exact quiet (by rw [pc_eq]; constructor <;> decide)
  case h_10 pc_eq =>
    split at stepped
    · cases stepped
      exact quiet (by rw [pc_eq]; constructor <;> decide)
    · rename_i rec rest
      have taken : Sound accepted rest (r.goto (.drainWrite rec)) :=
        ok.take (by rw [pc_eq]; rfl) rfl (by rw [pc_eq]; rfl) (by rw [pc_eq]; decide)
      split_ifs at stepped
      · cases stepped
        exact taken.lose rfl rfl rfl _ _ (Nat.le_refl _) ok.flushedLe
      · cases stepped
        exact taken
  case h_11 rec pc_eq =>
    have held : holding r.pc = some rec := by
      rw [pc_eq]
      rfl
    obtain ⟨r', wrote, eq⟩ := Option.map_eq_some_iff.mp stepped
    cases eq
    unfold Reader.drainWrite at wrote
    split at wrote
    · split at wrote
      case h_1 file opened =>
        cases wrote
        exact ok.append held file _ _ (by rw [pc_eq]; rfl) rfl (by decide) (by simp [opened])
          fun stays => absurd rfl stays
      case h_2 =>
        cases wrote
        exact ok.lose held rfl rfl _ _ (Nat.le_refl _) ok.flushedLe
    · cases wrote
      exact ok.lose held rfl rfl _ _ (Nat.le_refl _) ok.flushedLe
    · cases wrote
  case h_12 pc_eq =>
    obtain ⟨r', disposed, eq⟩ := Option.map_eq_some_iff.mp stepped
    cases eq
    unfold Reader.disposeAsync at disposed
    have out : Sound accepted queue (r.goto .ended) := quiet (by rw [pc_eq]; constructor <;> decide)
    split at disposed
    · split at disposed <;> cases disposed
      · exact ok.flushAll (by rw [pc_eq]; rfl) (.inl rfl) (by decide) _ (fun loop => by cases loop) _
      · exact out
    · cases disposed
      exact { out with unopened := fun stays => absurd rfl stays, noWriter := by simp [phase] }
    · cases disposed
  case h_13 pc_eq =>
    split_ifs at stepped <;> cases stepped <;> exact quiet (by rw [pc_eq]; constructor <;> decide)
  case h_14 pc_eq =>
    split at stepped <;> cases stepped
    · exact quiet (by rw [pc_eq]; constructor <;> decide)
    · exact ok.take (by rw [pc_eq]; rfl) rfl (by rw [pc_eq]; rfl) (by rw [pc_eq]; decide)
  case h_15 rec pc_eq =>
    have held : holding r.pc = some rec := by
      rw [pc_eq]
      rfl
    have null := ok.noWriter (.inr (by rw [pc_eq]; rfl))
    have counted := ok.counted (by simp [pc_eq, phase])
    rw [Reader.uncounted_of_ne (by simp [pc_eq]), null.2] at counted
    cases stepped
    refine ok.drop held _ (by rw [pc_eq]; rfl) rfl (by decide) (fun _ => null) fun _ => ?_
    show r.processed + 1 = r.handled + 1
    rw [← counted]
  case h_16 pc_eq =>
    cases stepped
    exact ok.dropAdd pc_eq
  case h_17 => cases stepped

theorem wake (ok : Sound accepted queue r) : Sound accepted queue r.wake := by
  unfold Reader.wake
  split
  case h_1 pc_eq => exact ok.move (by rw [pc_eq]; constructor <;> decide)
  case h_2 pc_eq => exact ok.move (by rw [pc_eq]; constructor <;> decide)
  case h_3 => exact ok

theorem cancelWait (ok : Sound accepted queue r) : Sound accepted queue r.cancelWait := by
  unfold Reader.cancelWait
  split
  case h_1 pc_eq => exact ok.move (by rw [pc_eq]; constructor <;> decide)
  case h_2 pc_eq => exact ok.move (by rw [pc_eq]; constructor <;> decide)
  case h_3 => exact ok

/-- The channel takes one more record. -/
theorem accept (ok : Sound accepted queue r) (rec : LogRecord) :
    Sound (accepted ++ [rec]) (queue ++ [rec]) r := by
  exact { ok with
    fifo := by rw [← List.append_assoc, ok.fifo, List.drop_append_of_le_length ok.within]
    within := by
      rw [List.length_append]
      exact Nat.le_add_right_of_le ok.within
    recorded := fun line mem => by
      obtain ⟨below, pos_eq⟩ := ok.recorded line mem
      refine ⟨below, ?_⟩
      rw [List.getElem?_append_left (Nat.lt_of_lt_of_le below ok.within)]
      exact pos_eq }

end Sound

/-! ## The invariant of the log -/

/-- The positions a client holds are those of accepted records. -/
def Client.Within (length : Nat) : Client → Prop
  | .idle => True
  | .wrote pos | .counted pos => pos < length
  | .flushing before | .polling before _ | .flushed before => ∀ pos ∈ before, pos < length

/-- What a `FlushAsync` waits for lies below its target, and is processed at its end. -/
def Client.Awaited (processed : Nat) : Client → Prop
  | .polling before target => ∀ pos ∈ before, pos < target
  | .flushed before => ∀ pos ∈ before, pos < processed
  | _ => True

theorem Client.Within.mono {length length' : Nat} {c : Client} (within : c.Within length)
    (le : length ≤ length') : c.Within length' := by
  cases c with
  | idle => trivial
  | wrote pos | counted pos => exact Nat.lt_of_lt_of_le within le
  | flushing before | flushed before | polling before _ =>
      exact fun pos mem => Nat.lt_of_lt_of_le (within pos mem) le

theorem Client.Awaited.mono {processed processed' : Nat} {c : Client}
    (awaited : c.Awaited processed) (le : processed ≤ processed') : c.Awaited processed' := by
  cases c with
  | flushed before => exact fun pos mem => Nat.lt_of_lt_of_le (awaited pos mem) le
  | polling => exact awaited
  | _ => trivial

section Runs

variable {Tid : Type}

/-- The reader's invariant, and every position spoken of is that of an accepted record. -/
structure Consistent (s : State Tid) : Prop where
  reader : Sound s.accepted s.queue s.reader
  clients : ∀ t, (s.client t).Within s.accepted.length
  returned : ∀ pos ∈ s.returned, pos < s.accepted.length
  owed : ∀ pos ∈ s.owed, pos < s.accepted.length

theorem consistent_initial : Consistent (State.initial : State Tid) where
  reader := sound_initial
  clients _ := trivial
  returned := by simp [State.initial]
  owed := by simp [State.initial]

variable [DecidableEq Tid] {capacity : Nat}

/-- A property of all clients survives the move of one of them to a point that has it. -/
theorem forall_goto {s : State Tid} {P : Client → Prop} (all : ∀ t, P (s.client t)) (t : Tid)
    {c : Client} (here : P c) : ∀ u, P ((s.goto t c).client u) := by
  intro u
  by_cases same : u = t
  · subst same
    simpa only [State.goto, Function.update_self] using here
  · simpa only [State.goto, Function.update_of_ne same] using all u

theorem Consistent.goto {s : State Tid} (ok : Consistent s) (t : Tid) {c : Client}
    (within : c.Within s.accepted.length) : Consistent (s.goto t c) :=
  { ok with clients := forall_goto ok.clients t within }

theorem Consistent.step {s s' : State Tid} {label : Label Tid} (ok : Consistent s)
    (stepped : EventLog.step capacity s label = some s') : Consistent s' := by
  cases label with
  | tryWrite t rec =>
      simp only [EventLog.step] at stepped
      split_ifs at stepped
      · cases stepped
        have longer : s.accepted.length ≤ (s.accepted ++ [rec]).length := by simp
        refine ⟨ok.reader.wake.accept rec, ?_,
          fun pos mem => Nat.lt_of_lt_of_le (ok.returned pos mem) longer,
          fun pos mem => Nat.lt_of_lt_of_le (ok.owed pos mem) longer⟩
        refine forall_goto (P := fun c => c.Within (s.accepted ++ [rec]).length)
          (fun u => (ok.clients u).mono longer) t ?_
        simp [Client.Within]
      · cases stepped
        exact { ok with }
  | increment t =>
      simp only [EventLog.step] at stepped
      split at stepped <;> cases stepped
      rename_i pos pc_eq
      have within := ok.clients t
      rw [pc_eq] at within
      exact { ok.goto t (c := .counted pos) within with }
  | returnTrue t =>
      simp only [EventLog.step] at stepped
      split at stepped <;> cases stepped
      rename_i pos pc_eq
      have within := ok.clients t
      rw [pc_eq] at within
      refine { ok.goto t (c := .idle) trivial with returned := fun pos' mem => ?_ }
      rcases List.mem_cons.mp mem with rfl | old
      · exact within
      · exact ok.returned pos' old
  | cancel =>
      simp only [EventLog.step] at stepped
      split_ifs at stepped
      cases stepped
      exact { ok with reader := ok.reader.cancelWait, owed := ok.returned }
  | reader o =>
      simp only [EventLog.step] at stepped
      obtain ⟨⟨reader, queue⟩, read, eq⟩ := Option.map_eq_some_iff.mp stepped
      cases eq
      exact { ok with reader := ok.reader.step read }
  | flushAsync t =>
      simp only [EventLog.step] at stepped
      split at stepped <;> cases stepped
      exact ok.goto t ok.returned
  | readTarget t =>
      simp only [EventLog.step] at stepped
      split at stepped <;> cases stepped
      rename_i before pc_eq
      have within := ok.clients t
      rw [pc_eq] at within
      exact ok.goto t within
  | poll t =>
      simp only [EventLog.step] at stepped
      split at stepped
      case h_1 before target pc_eq =>
        have within := ok.clients t
        rw [pc_eq] at within
        split_ifs at stepped <;> cases stepped
        · exact ok
        · exact ok.goto t within
      case h_2 => cases stepped
  | giveUp t =>
      simp only [EventLog.step] at stepped
      split at stepped <;> cases stepped
      exact ok.goto t trivial

theorem consistent_of_reachable {s : State Tid} (reached : (system capacity Tid).Reachable s) :
    Consistent s :=
  (system capacity Tid).reachable_induction consistent_initial
    (fun _ _ _ ok stepped => ok.step stepped) reached

/-! ## `FlushAsync` as a barrier -/

/-- When `FlushAsync` has returned true, every record whose `TryEnqueue` returned
before the call is on disk or counted as dropped. -/
def Barrier (s : State Tid) : Prop :=
  ∀ t before, s.client t = .flushed before → ∀ pos ∈ before,
    ∃ rec, s.accepted[pos]? = some rec ∧
      ((∃ line ∈ s.reader.lines.take s.reader.flushed, line.pos = pos ∧ line.record = rec) ∨
        pos ∈ s.reader.dropped)

/-- The positions a `FlushAsync` about to read its target has to wait for. -/
def Client.returnedBefore : Client → List Nat
  | .flushing before => before
  | _ => []

/-- At the read of a flush target, the records returned before the call are among
the first `_enqueued` ones of the channel: no producer they overtook is still
between its channel write and its counter increment. -/
def CountedFirst (s : State Tid) : Label Tid → Prop
  | .readTarget t => ∀ pos ∈ (s.client t).returnedBefore, pos < s.enqueued
  | _ => True

instance (s : State Tid) : ∀ label, Decidable (CountedFirst s label)
  | .readTarget _ => inferInstanceAs (Decidable (∀ _ ∈ _, _))
  | .tryWrite .. | .increment _ | .returnTrue _ | .cancel | .flushAsync _ | .reader _ | .poll _
  | .giveUp _ => .isTrue trivial

theorem processed_wake (r : Reader) : r.wake.processed = r.processed := by
  unfold Reader.wake
  split <;> rfl

theorem processed_cancelWait (r : Reader) : r.cancelWait.processed = r.processed := by
  unfold Reader.cancelWait
  split <;> rfl

theorem processed_step {r r' : Reader} {queue queue' : List LogRecord} {cancelled : Bool}
    {o : Outcome} (stepped : r.step queue cancelled o = some (r', queue')) :
    r.processed ≤ r'.processed := by
  unfold Reader.step at stepped
  cases o <;> split at stepped <;>
    grind [Reader.rotate, Reader.writeLine, Reader.flush, Reader.drainWrite,
      Reader.disposeAsync, Reader.goto, Reader.lose, Reader.append]

/-- What each `FlushAsync` waits for, given that the targets read are good ones. -/
theorem awaited_step {s s' : State Tid} {label : Label Tid}
    (awaited : ∀ t, (s.client t).Awaited s.reader.processed) (counted : CountedFirst s label)
    (stepped : EventLog.step capacity s label = some s') :
    ∀ t, (s'.client t).Awaited s'.reader.processed := by
  cases label with
  | tryWrite t rec =>
      simp only [EventLog.step] at stepped
      split_ifs at stepped <;> cases stepped
      · simp only [processed_wake]
        exact forall_goto (P := (·.Awaited s.reader.processed)) awaited t trivial
      · exact awaited
  | increment t | returnTrue t | giveUp t | flushAsync t =>
      simp only [EventLog.step] at stepped
      split at stepped <;> cases stepped
      exact forall_goto (P := (·.Awaited s.reader.processed)) awaited t trivial
  | cancel =>
      simp only [EventLog.step] at stepped
      split_ifs at stepped
      cases stepped
      simp only [processed_cancelWait]
      exact awaited
  | reader o =>
      simp only [EventLog.step] at stepped
      obtain ⟨⟨reader, queue⟩, read, eq⟩ := Option.map_eq_some_iff.mp stepped
      cases eq
      exact fun t => (awaited t).mono (processed_step read)
  | readTarget t =>
      simp only [EventLog.step] at stepped
      split at stepped <;> cases stepped
      rename_i before pc_eq
      simp only [CountedFirst, pc_eq] at counted
      exact forall_goto (P := (·.Awaited s.reader.processed)) awaited t counted
  | poll t =>
      simp only [EventLog.step] at stepped
      split at stepped
      case h_1 before target pc_eq =>
        have here := awaited t
        rw [pc_eq] at here
        split_ifs at stepped with short <;> cases stepped
        · exact awaited
        · exact forall_goto (P := (·.Awaited s.reader.processed)) awaited t
            fun pos mem => Nat.lt_of_lt_of_le (here pos mem) (Nat.le_of_not_lt short)
      case h_2 => cases stepped

/-- **`FlushAsync` is a barrier** in every run whose flush targets are read when
the records returned so far are the first ones counted. -/
theorem flush_waits (trace : List (Label Tid)) (s : State Tid)
    (run : (system capacity Tid).Run trace s)
    (counted : (system capacity Tid).StepsMeet CountedFirst State.initial trace) : Barrier s := by
  have awaited : ∀ t, (s.client t).Awaited s.reader.processed :=
    (system capacity Tid).run_induction_of_stepsMeet
      (I := fun s => ∀ t, (s.client t).Awaited s.reader.processed) (fun _ => trivial)
      (fun _ _ _ holds ok stepped => awaited_step holds ok stepped) run counted
  have ok : Consistent s := consistent_of_reachable ⟨trace, run⟩
  intro t before pc_eq pos mem
  have within := ok.clients t
  have processed := awaited t
  rw [pc_eq] at within processed
  refine ⟨s.accepted.get ⟨pos, within pos mem⟩, List.getElem?_eq_getElem _, ?_⟩
  rcases ok.reader.settled pos (processed pos mem) with ⟨line, written, rfl⟩ | dropped
  · refine .inl ⟨line, written, rfl, ?_⟩
    have recorded := (ok.reader.recorded line (List.mem_of_mem_take written)).2
    rw [List.getElem?_eq_getElem (within line.pos mem)] at recorded
    exact (Option.some.inj recorded).symm
  · exact .inr dropped

end Runs

/-! ### A run that meets the condition, and one that does not -/

def sample (ticks : Nat) : LogRecord := { kind := .event, serverTs := ⟨ticks, 0⟩ }

/-- The reader starts and handles one batch of one record. -/
def oneBatch : List (Label Bool) :=
  List.replicate 8 (.reader .ok)

/-- One producer, one batch, and a flush that finds it processed. -/
def quietFlush : List (Label Bool) :=
  [.tryWrite false (sample 0), .increment false, .returnTrue false, .flushAsync true,
    .readTarget true] ++ oneBatch ++ [.poll true]

/-- A producer overtaken between its channel write and its increment: the flush of
the other producer counts the wrong record. -/
def overtakenFlush : List (Label Bool) :=
  [.tryWrite false (sample 0)] ++ oneBatch ++
    [.tryWrite true (sample 1), .increment true, .returnTrue true, .flushAsync true,
      .readTarget true, .poll true]

theorem flush_waits_quiet :
    ∃ s : State Bool, s.client true = .flushed [0] ∧ Barrier s := by
  have reached : ∃ s, (system 1000 Bool).Run quietFlush s ∧ s.client true = .flushed [0] :=
    ⟨_, rfl, rfl⟩
  obtain ⟨s, run, done⟩ := reached
  exact ⟨s, done, flush_waits quietFlush s run (by decide +kernel)⟩

theorem flush_overtaken :
    ∃ (trace : List (Label Bool)) (s : State Bool),
      (system 1000 Bool).Run trace s ∧ ¬ Barrier s := by
  have reached : ∃ s, (system 1000 Bool).Run overtakenFlush s ∧ s.client true = .flushed [1] ∧
      s.reader.dropped = [] ∧ s.reader.lines = [⟨fileNameFor ⟨0, 0⟩, 0, sample 0⟩] :=
    ⟨_, rfl, rfl, rfl, rfl⟩
  obtain ⟨s, run, done, dropped, lines⟩ := reached
  refine ⟨overtakenFlush, s, run, fun barrier => ?_⟩
  obtain ⟨rec, -, ⟨line, mem, pos_eq, -⟩ | drop⟩ := barrier true [1] done 1 (by simp)
  · have mem := List.mem_of_mem_take mem
    rw [lines, List.mem_singleton] at mem
    rw [mem] at pos_eq
    cases pos_eq
  · rw [dropped] at drop
    cases drop

end HybridSearch.Broker.EventLog
