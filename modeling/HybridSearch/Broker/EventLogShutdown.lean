/-
# Broker.EventLogShutdown -- what a cancelled event log still writes

After the stop token is cancelled the `finally` block drains the channel through
the writer the main loop left behind.  `Kept` is the invariant of a run whose
file operations succeed and whose drain is ready: it finds the file of each
record it owes open.  In such a run nothing owed is lost (`shutdown_keeps`); a
drain that starts before any file was opened loses the channel
(`shutdown_loses`).
-/
import HybridSearch.Broker.EventLogDelivery

namespace HybridSearch.Broker.EventLog

open HybridSearch.Theory HybridSearch.Theory.System

set_option autoImplicit false

/-! ## The invariant of the reader -/

/-- Inside the `finally` block. -/
def draining : ReaderPc → Bool
  | .drain | .drainWrite _ | .dispose | .ended => true
  | _ => false

/-- What the shutdown keeps, when file operations succeed and the drain is ready. -/
structure Kept (accepted : List LogRecord) (owed : List Nat) (cancelled : Bool) (r : Reader) :
    Prop where
  working : phase r.pc ≠ .dropping
  stopped : phase r.pc = .leaving → cancelled = true
  filed : ∀ line ∈ r.lines, draining r.pc = false ∨ line.pos ∈ owed →
    line.file = fileNameFor line.record.serverTs
  logged : ∀ pos < r.handled, draining r.pc = false ∨ pos ∈ owed → pos ∈ r.lines.map Line.pos
  file : r.pc ≠ .ended → r.writer = .null ∧ r.currentFile = none ∧ r.lines = [] ∨
    ∃ file, r.writer = .opened file ∧ r.currentFile = some file
  writing : ∀ rec, r.pc = .writeLine rec → r.writer = .opened (fileNameFor rec.serverTs)
  ready : draining r.pc = true → ∀ pos ∈ owed, r.handled ≤ pos → ∀ rec, accepted[pos]? = some rec →
    r.writer = .opened (fileNameFor rec.serverTs) ∧ r.pc ≠ .dispose ∧ r.pc ≠ .ended
  onDisk : r.pc = .ended → r.flushed = r.lines.length

theorem kept_initial : Kept [] [] false Reader.initial where
  working := by decide
  stopped := by decide
  filed := by simp [Reader.initial]
  logged := by simp [Reader.initial]
  file _ := .inl ⟨rfl, rfl, rfl⟩
  writing := by simp [Reader.initial]
  ready := by simp
  onDisk := by simp [Reader.initial]

namespace Kept

variable {accepted queue : List LogRecord} {owed : List Nat} {cancelled : Bool} {r : Reader}

/-- A move inside the loop. -/
theorem goto (kept : Kept accepted owed cancelled r) (loop : draining r.pc = false) {pc : ReaderPc}
    (target : draining pc = false ∧ phase pc ≠ .dropping)
    (stopped : phase pc = .leaving → cancelled = true)
    (writing : ∀ rec, pc = .writeLine rec → r.writer = .opened (fileNameFor rec.serverTs)) :
    Kept accepted owed cancelled (r.goto pc) where
  working := target.2
  stopped := stopped
  filed line mem _ := kept.filed line mem (.inl loop)
  logged pos below _ := kept.logged pos below (.inl loop)
  file _ := kept.file fun pc_eq => by cases (congrArg draining pc_eq).symm.trans loop
  writing := writing
  ready pc_eq := by cases pc_eq.symm.trans target.1
  onDisk pc_eq := by cases (congrArg draining pc_eq).symm.trans target.1

/-- Writing the held record to the open file. -/
theorem append (kept : Kept accepted owed cancelled r) {rec : LogRecord} {file : String}
    (opened : r.writer = .opened file) (right : draining r.pc = false ∨ r.handled ∈ owed →
      file = fileNameFor rec.serverTs) {pc : ReaderPc} (written pending : Nat)
    (same : draining pc = draining r.pc) (working : phase pc ≠ .dropping)
    (stopped : phase pc = .leaving → cancelled = true)
    (point : pc ≠ .dispose ∧ pc ≠ .ended ∧ ∀ rec, pc ≠ .writeLine rec) (before : r.pc ≠ .ended) :
    Kept accepted owed cancelled { r with
      pc := pc, lines := r.lines ++ [⟨file, r.handled, rec⟩], handled := r.handled + 1
      written := written, pendingInBatch := pending } where
  working := working
  stopped := stopped
  filed line mem owes := by
    rw [same] at owes
    rcases List.mem_append.mp mem with old | new
    · exact kept.filed line old owes
    · rw [List.mem_singleton] at new
      subst new
      exact right owes
  logged pos below owes := by
    rw [same] at owes
    rw [List.map_append]
    rcases Nat.lt_succ_iff_lt_or_eq.mp below with earlier | rfl
    · exact List.mem_append_left _ (kept.logged pos earlier owes)
    · exact List.mem_append_right _ (by simp)
  file _ := by
    rcases kept.file before with ⟨null, -⟩ | written
    · rw [opened] at null
      cases null
    · exact .inr written
  writing rec pc_eq := absurd pc_eq (point.2.2 rec)
  ready pc_eq pos mem later rec at_pos :=
    ⟨(kept.ready (same ▸ pc_eq) pos mem (Nat.le_of_succ_le later) rec at_pos).1, point.1,
      point.2.1⟩
  onDisk pc_eq := absurd pc_eq point.2.1

/-- Dropping the record in hand with no file open: nothing owed is in the channel. -/
theorem abandon (kept : Kept accepted owed cancelled r) (sound : Sound accepted queue r)
    (within : ∀ pos ∈ owed, pos < accepted.length) (null : r.writer = .null)
    (drain : draining r.pc = true) (before : r.pc ≠ .ended) {pc : ReaderPc}
    (after : pc = .dispose ∨ pc = .ended) (stopped : cancelled = true) :
    Kept accepted owed cancelled (r.lose pc) := by
  have allHandled : ∀ pos ∈ owed, pos < r.handled := by
    intro pos mem
    by_contra past
    have ready := kept.ready drain pos mem (Nat.le_of_not_lt past) _
      (List.getElem?_eq_getElem (within pos mem))
    rw [null] at ready
    cases ready.1
  have file := kept.file before
  simp only [null, true_and, reduceCtorEq, false_and, exists_false, or_false] at file
  have draining' : draining pc = true := by rcases after with rfl | rfl <;> rfl
  exact {
    working := by rcases after with rfl | rfl <;> simp [Reader.lose, phase]
    stopped := fun _ => stopped
    filed := fun line mem _ => by
      rw [Reader.lose, file.2] at mem
      cases mem
    logged := fun pos _ owes => by
      rcases owes with loop | mem
      · cases draining'.symm.trans loop
      · exact kept.logged pos (allHandled pos mem) (.inr mem)
    file := fun _ => .inl ⟨null, file⟩
    writing := fun rec pc_eq => by rcases after with rfl | rfl <;> cases pc_eq
    ready := fun _ pos mem later =>
      absurd (allHandled pos mem) (Nat.not_lt_of_le (Nat.le_of_succ_le later))
    onDisk := fun _ => sound.flushed_of_nil file.2 }

/-- **One step of the reader keeps what the shutdown needs.** -/
theorem step {queue' : List LogRecord} {o : Outcome} {r' : Reader}
    (kept : Kept accepted owed cancelled r) (sound : Sound accepted queue r)
    (within : ∀ pos ∈ owed, pos < accepted.length) (succeeds : o = .ok ∨ o = .canceled)
    (ready : r.pc = .finally_ → ∀ pos ∈ owed, r.handled ≤ pos → ∀ rec, accepted[pos]? = some rec →
      r.writer = .opened (fileNameFor rec.serverTs))
    (stepped : r.step queue cancelled o = some (r', queue')) :
    Kept accepted owed cancelled r' := by
  have working := kept.working
  unfold Reader.step at stepped
  split at stepped
  case h_1 pc_eq =>
    cases stepped
    exact kept.goto (by rw [pc_eq]; rfl) (by simp [draining, phase]) (by simp [phase]) (by simp)
  case h_2 pc_eq => simp at succeeds
  case h_3 pc_eq =>
    split_ifs at stepped with stop <;> cases stepped <;>
      exact kept.goto (by rw [pc_eq]; rfl) (by simp [draining, phase]) (by simp [phase, stop])
        (by simp)
  case h_4 pc_eq =>
    split at stepped <;> cases stepped <;>
      exact kept.goto (by rw [pc_eq]; rfl) (by simp [draining, phase]) (by simp [phase]) (by simp)
  case h_5 rec pc_eq =>
    have loop : draining r.pc = false := by
      rw [pc_eq]
      rfl
    dsimp only at stepped
    split_ifs at stepped with same done
    · cases stepped
      refine kept.goto loop (by simp [draining, phase]) (by simp [phase]) ?_
      intro _ eq
      cases eq
      rcases kept.file (by simp [pc_eq]) with ⟨-, noFile, -⟩ | ⟨file, opened, current⟩
      · rw [noFile] at same
        cases same
      · rw [opened]
        exact congrArg Writer.opened (Option.some.inj (current.symm.trans same))
    · obtain ⟨r', rotated, eq⟩ := Option.map_eq_some_iff.mp stepped
      cases eq
      rcases succeeds with rfl | rfl
      · cases rotated
        have opened : Kept accepted owed cancelled { r with
            writer := .opened (fileNameFor rec.serverTs)
            currentFile := some (fileNameFor rec.serverTs), flushed := r.lines.length } :=
          { kept with
            file := fun _ => .inr ⟨_, rfl, rfl⟩
            writing := fun rec' writing => by cases pc_eq.symm.trans writing
            ready := fun drain => by cases drain.symm.trans loop
            onDisk := fun _ => rfl }
        exact opened.goto loop (by simp [draining, phase]) (by simp [phase]) (by simp)
      · cases rotated
  case h_6 rec pc_eq =>
    obtain ⟨r', wrote, eq⟩ := Option.map_eq_some_iff.mp stepped
    cases eq
    have opened := kept.writing rec pc_eq
    rcases succeeds with rfl | rfl
    · simp only [Reader.writeLine, opened] at wrote
      cases wrote
      exact kept.append opened (fun _ => rfl) _ _ (by rw [pc_eq]; rfl) (by simp [phase])
        (by simp [phase]) (by simp) (by simp [pc_eq])
    · cases wrote
  case h_7 pc_eq =>
    have loop : draining r.pc = false := by
      rw [pc_eq]
      rfl
    have counted : Kept accepted owed cancelled (r.goto .addProcessed) :=
      kept.goto loop (by simp [draining, phase]) (by simp [phase]) (by simp)
    obtain ⟨r', flushed, eq⟩ := Option.map_eq_some_iff.mp stepped
    cases eq
    rcases succeeds with rfl | rfl
    · simp only [Reader.flush] at flushed
      split at flushed
      case h_1 =>
        cases flushed
        exact counted
      case h_2 =>
        cases flushed
        exact { counted with onDisk := fun _ => rfl }
      case h_3 broken =>
        have file := kept.file (by simp [pc_eq])
        simp [broken] at file
    · simp only [Reader.flush] at flushed
      split_ifs at flushed with stop
      cases flushed
      exact kept.goto loop (by simp [draining, phase]) (fun _ => stop.1) (by simp)
  case h_8 pc_eq =>
    cases stepped
    have moved : Kept accepted owed cancelled (r.goto .waitToRead) :=
      kept.goto (by rw [pc_eq]; rfl) (by simp [draining, phase]) (by simp [phase]) (by simp)
    exact { moved with }
  case h_9 pc_eq =>
    cases stepped
    exact {
      working := by simp [Reader.goto, phase]
      stopped := fun _ => kept.stopped (by rw [pc_eq]; rfl)
      filed := fun line mem _ => kept.filed line mem (.inl (by rw [pc_eq]; rfl))
      logged := fun pos below _ => kept.logged pos below (.inl (by rw [pc_eq]; rfl))
      file := fun _ => kept.file (by simp [pc_eq])
      writing := by simp [Reader.goto]
      ready := fun _ pos mem later rec found =>
        ⟨ready pc_eq pos mem later rec found, by simp [Reader.goto], by simp [Reader.goto]⟩
      onDisk := by simp [Reader.goto] }
  case h_10 pc_eq =>
    have drain : draining r.pc = true := by
      rw [pc_eq]
      rfl
    have fifo := sound.fifo
    rw [pc_eq] at fifo
    split at stepped
    · cases stepped
      have all : accepted.length ≤ r.handled := List.drop_eq_nil_iff.mp fifo.symm
      exact { kept with
        working := by simp [Reader.goto, phase]
        stopped := fun _ => kept.stopped (by rw [pc_eq]; rfl)
        filed := fun line mem owes => kept.filed line mem (owes.imp_left fun h => by cases h)
        logged := fun pos below owes => kept.logged pos below (owes.imp_left fun h => by cases h)
        file := fun _ => kept.file (by simp [pc_eq])
        writing := by simp [Reader.goto]
        ready := fun _ pos mem later =>
          absurd (within pos mem) (Nat.not_lt_of_le (Nat.le_trans all later))
        onDisk := by simp [Reader.goto] }
    · split_ifs at stepped with null
      · cases stepped
        exact kept.abandon sound within null drain (by simp [pc_eq]) (.inl rfl)
          (kept.stopped (by rw [pc_eq]; rfl))
      · cases stepped
        exact { kept with
          working := by simp [Reader.goto, phase]
          stopped := fun _ => kept.stopped (by rw [pc_eq]; rfl)
          filed := fun line mem owes => kept.filed line mem (owes.imp_left fun h => by cases h)
          logged := fun pos below owes => kept.logged pos below (owes.imp_left fun h => by cases h)
          file := fun _ => kept.file (by simp [pc_eq])
          writing := by simp [Reader.goto]
          ready := fun _ pos mem later rec found =>
            ⟨(kept.ready drain pos mem later rec found).1, by simp [Reader.goto],
              by simp [Reader.goto]⟩
          onDisk := by simp [Reader.goto] }
  case h_11 rec pc_eq =>
    have drain : draining r.pc = true := by
      rw [pc_eq]
      rfl
    have leaving := kept.stopped (by rw [pc_eq]; rfl)
    have held : holding r.pc = some rec := by
      rw [pc_eq]
      rfl
    have found := (sound.held_front held).1
    obtain ⟨r', wrote, eq⟩ := Option.map_eq_some_iff.mp stepped
    cases eq
    rcases succeeds with rfl | rfl
    · simp only [Reader.drainWrite] at wrote
      rcases kept.file (by simp [pc_eq]) with ⟨null, -⟩ | ⟨file, opened, -⟩
      · rw [null] at wrote
        cases wrote
        exact kept.abandon sound within null drain (by simp [pc_eq]) (.inr rfl) leaving
      · rw [opened] at wrote
        cases wrote
        refine kept.append opened ?_ _ _ (by rw [pc_eq]; rfl) (by simp [phase]) (fun _ => leaving)
          (by simp) (by simp [pc_eq])
        rintro (loop | owes)
        · cases drain.symm.trans loop
        · have here := (kept.ready drain _ owes (Nat.le_refl _) rec found).1
          rw [opened] at here
          exact Writer.opened.inj here
    · cases wrote
  case h_12 pc_eq =>
    have leaving := kept.stopped (by rw [pc_eq]; rfl)
    have noneLeft : ∀ pos ∈ owed, ¬ r.handled ≤ pos := fun pos mem later =>
      (kept.ready (by rw [pc_eq]; rfl) pos mem later _
        (List.getElem?_eq_getElem (within pos mem))).2.1 pc_eq
    obtain ⟨r', disposed, eq⟩ := Option.map_eq_some_iff.mp stepped
    cases eq
    have ended : ∀ writer flushed, flushed = r.lines.length →
        Kept accepted owed cancelled { r with
          pc := .ended, writer := writer, flushed := flushed } := fun writer flushed all =>
      { working := by simp [phase]
        stopped := fun _ => leaving
        filed := fun line mem owes => kept.filed line mem (owes.imp_left fun h => by cases h)
        logged := fun pos below owes => kept.logged pos below (owes.imp_left fun h => by cases h)
        file := fun h => absurd rfl h
        writing := fun rec h => by cases h
        ready := fun _ pos mem later => absurd later (noneLeft pos mem)
        onDisk := fun _ => all }
    rcases succeeds with rfl | rfl
    · simp only [Reader.disposeAsync] at disposed
      rcases kept.file (by simp [pc_eq]) with ⟨null, -, noLines⟩ | ⟨file, opened, -⟩
      · rw [null] at disposed
        cases disposed
        exact ended _ _ (sound.flushed_of_nil noLines)
      · rw [opened] at disposed
        cases disposed
        exact ended _ _ rfl
    · cases disposed
  case h_17 => cases stepped
  all_goals
    rename_i pc_eq
    rw [pc_eq] at working
    exact absurd rfl working

/-- A move from one suspended wait to another point of the loop. -/
theorem wake (kept : Kept accepted owed cancelled r) : Kept accepted owed cancelled r.wake := by
  unfold Reader.wake
  split
  case h_1 pc_eq =>
    exact kept.goto (by rw [pc_eq]; rfl) (by simp [draining, phase]) (by simp [phase]) (by simp)
  case h_2 pc_eq =>
    have working := kept.working
    rw [pc_eq] at working
    exact absurd rfl working
  case h_3 => exact kept

theorem cancelWait (kept : Kept accepted owed true r) : Kept accepted owed true r.cancelWait := by
  unfold Reader.cancelWait
  split
  case h_1 pc_eq =>
    exact kept.goto (by rw [pc_eq]; rfl) (by simp [draining, phase]) (fun _ => rfl) (by simp)
  case h_2 pc_eq =>
    have working := kept.working
    rw [pc_eq] at working
    exact absurd rfl working
  case h_3 => exact kept

/-- The stop token is cancelled: from here on something is owed. -/
theorem cancel (kept : Kept accepted owed false r) (owed' : List Nat) :
    Kept accepted owed' true r := by
  have loop : draining r.pc = false := by
    by_contra drain
    have leaving : phase r.pc = .leaving := by
      revert drain
      cases r.pc <;> simp [draining, phase]
    cases kept.stopped leaving
  exact { kept with
    stopped := fun _ => rfl
    filed := fun line mem _ => kept.filed line mem (.inl loop)
    logged := fun pos below _ => kept.logged pos below (.inl loop)
    ready := fun drain => by cases drain.symm.trans loop }

theorem accept (kept : Kept accepted owed cancelled r) (rec : LogRecord)
    (within : ∀ pos ∈ owed, pos < accepted.length) :
    Kept (accepted ++ [rec]) owed cancelled r :=
  { kept with
    ready := fun drain pos mem later rec' found => by
      rw [List.getElem?_append_left (within pos mem)] at found
      exact kept.ready drain pos mem later rec' found }

end Kept

/-! ## A clean shutdown -/

/-- Every file operation of the step succeeds. -/
def Succeeds {Tid : Type} (label : Label Tid) : Prop :=
  ∀ o, label = .reader o → o = .ok ∨ o = .canceled

/-- The drain starts with the file of each owed record of the channel open; when
nothing owed is in the channel it may start with none. -/
def DrainReady {Tid : Type} (s : State Tid) : Label Tid → Prop
  | .reader _ => s.reader.pc = .finally_ → ∀ pos ∈ s.owed, s.reader.handled ≤ pos →
      ∀ rec ∈ s.accepted[pos]?, s.reader.writer = .opened (fileNameFor rec.serverTs)
  | _ => True

instance {Tid : Type} (s : State Tid) : ∀ label, Decidable (DrainReady s label)
  | .reader _ => inferInstanceAs (Decidable (_ → _))
  | .tryWrite .. | .increment _ | .returnTrue _ | .cancel | .flushAsync _ | .readTarget _ | .poll _
  | .giveUp _ => .isTrue trivial

/-- Every owed record has one line, in the file of its hour; each file is in queue
order; and every line has reached its file. -/
structure Delivered {Tid : Type} (s : State Tid) : Prop where
  once : ∀ pos ∈ s.owed, ∃ rec, s.accepted[pos]? = some rec ∧
    s.reader.lines.filter (·.pos = pos) = [⟨fileNameFor rec.serverTs, pos, rec⟩]
  inOrder : ∀ file, ((s.reader.lines.filter (·.file = file)).map Line.pos).Pairwise (· < ·)
  onDisk : s.reader.flushed = s.reader.lines.length

/-- With increasing positions a line is the only one of its position. -/
theorem filter_pos {lines : List Line} (ordered : (lines.map Line.pos).Pairwise (· < ·))
    {line : Line} (mem : line ∈ lines) : lines.filter (·.pos = line.pos) = [line] := by
  induction lines with
  | nil => cases mem
  | cons first rest ih =>
      rw [List.map_cons, List.pairwise_cons] at ordered
      obtain ⟨above, ordered⟩ := ordered
      have later : ∀ other ∈ rest, first.pos < other.pos := fun other inRest =>
        above _ (List.mem_map_of_mem inRest)
      rcases List.mem_cons.mp mem with rfl | inRest
      · have others : rest.filter (·.pos = line.pos) = [] := by
          rw [List.filter_eq_nil_iff]
          intro other inRest
          simpa using Nat.ne_of_gt (later other inRest)
        rw [List.filter_cons_of_pos (by simp), others]
      · rw [List.filter_cons_of_neg (by simpa using Nat.ne_of_lt (later line inRest))]
        exact ih ordered inRest

section Runs

variable {Tid : Type} [DecidableEq Tid] {capacity : Nat}

theorem kept_step {s s' : State Tid} {label : Label Tid} (ok : Consistent s)
    (kept : Kept s.accepted s.owed s.cancelled s.reader) (succeeds : Succeeds label)
    (ready : DrainReady s label) (stepped : EventLog.step capacity s label = some s') :
    Kept s'.accepted s'.owed s'.cancelled s'.reader := by
  cases label with
  | tryWrite t rec =>
      simp only [EventLog.step] at stepped
      split_ifs at stepped <;> cases stepped
      · exact kept.wake.accept rec ok.owed
      · exact kept
  | cancel =>
      simp only [EventLog.step] at stepped
      split_ifs at stepped with before
      cases stepped
      rw [Bool.not_eq_true] at before
      rw [before] at kept
      exact (kept.cancel s.returned).cancelWait
  | reader o =>
      simp only [EventLog.step] at stepped
      obtain ⟨⟨reader, queue⟩, read, eq⟩ := Option.map_eq_some_iff.mp stepped
      cases eq
      exact kept.step ok.reader ok.owed (succeeds o rfl) ready read
  | increment t | returnTrue t | flushAsync t | readTarget t | giveUp t =>
      simp only [EventLog.step] at stepped
      split at stepped <;> cases stepped
      exact kept
  | poll t =>
      simp only [EventLog.step] at stepped
      split at stepped
      · split_ifs at stepped <;> cases stepped <;> exact kept
      · cases stepped

/-- **A clean shutdown loses nothing**, in every run whose file operations succeed
and whose drain is ready: once `ExecuteAsync` has ended, every record whose
`TryEnqueue` returned true before the cancellation has been written exactly once,
to the file of its own hour, in queue order. -/
theorem shutdown_keeps (trace : List (Label Tid)) (s : State Tid)
    (run : (system capacity Tid).Run trace s) (succeeds : ∀ label ∈ trace, Succeeds label)
    (ready : (system capacity Tid).StepsMeet DrainReady State.initial trace)
    (ended : s.reader.pc = .ended) : Delivered s := by
  have meets := ((system capacity Tid).stepsMeet_of_forall
    (fun _ label mem => succeeds label mem) State.initial).and ready
  have invariant : Consistent s ∧ Kept s.accepted s.owed s.cancelled s.reader :=
    (system capacity Tid).run_induction_of_stepsMeet
      (I := fun s => Consistent s ∧ Kept s.accepted s.owed s.cancelled s.reader)
      ⟨consistent_initial, kept_initial⟩
      (fun _ _ _ ⟨ok, kept⟩ ⟨succeeds, ready⟩ stepped =>
        ⟨ok.step stepped, kept_step ok kept succeeds ready stepped⟩) run meets
  obtain ⟨ok, kept⟩ := invariant
  have draining : draining s.reader.pc = true := by
    rw [ended]
    rfl
  refine ⟨fun pos mem => ?_, fun file => ?_, kept.onDisk ended⟩
  · have within := ok.owed pos mem
    have found : s.accepted[pos]? = some s.accepted[pos] := List.getElem?_eq_getElem within
    have handled : pos < s.reader.handled := by
      by_contra past
      exact (kept.ready draining pos mem (Nat.le_of_not_lt past) _ found).2.2 ended
    obtain ⟨line, written, pos_eq⟩ := List.mem_map.mp (kept.logged pos handled (.inr mem))
    subst pos_eq
    have recorded := (ok.reader.recorded line written).2
    have filed := kept.filed line written (.inr mem)
    refine ⟨line.record, recorded, ?_⟩
    rw [filter_pos ok.reader.ordered written, ← filed]
  · exact ok.reader.ordered.sublist (List.filter_sublist.map _)

end Runs

/-! ### A run that meets the condition, and one that does not -/

/-- Two records of one hour, the second still in the channel when the stop token
is cancelled. -/
def stopAfterBatch : List (Label Bool) :=
  [.tryWrite false (sample 0), .increment false, .returnTrue false] ++ oneBatch ++
    [.tryWrite true (sample 1), .increment true, .returnTrue true, .cancel] ++
    List.replicate 6 (.reader .ok)

/-- The stop token is cancelled before the reader's first wait, a record queued. -/
def stopBeforeBatch : List (Label Bool) :=
  [.tryWrite false (sample 0), .increment false, .returnTrue false, .reader .ok, .cancel] ++
    List.replicate 4 (.reader .ok)

theorem shutdown_keeps_batch :
    ∃ s : State Bool, s.owed = [1, 0] ∧ Delivered s := by
  have reached : ∃ s, (system 1000 Bool).Run stopAfterBatch s ∧ s.reader.pc = .ended ∧
      s.owed = [1, 0] := ⟨_, rfl, rfl, rfl⟩
  obtain ⟨s, run, ended, owed⟩ := reached
  refine ⟨s, owed, shutdown_keeps stopAfterBatch s run ?_ ?_ ended⟩
  · simp [stopAfterBatch, oneBatch, Succeeds]
  · decide +kernel

theorem shutdown_loses :
    ∃ (trace : List (Label Bool)) (s : State Bool), (system 1000 Bool).Run trace s ∧
      (∀ label ∈ trace, Succeeds label) ∧ s.reader.pc = .ended ∧ ¬ Delivered s := by
  have reached : ∃ s, (system 1000 Bool).Run stopBeforeBatch s ∧ s.reader.pc = .ended ∧
      s.owed = [0] ∧ s.reader.lines = [] := ⟨_, rfl, rfl, rfl, rfl⟩
  obtain ⟨s, run, ended, owed, lines⟩ := reached
  refine ⟨stopBeforeBatch, s, run, by simp [stopBeforeBatch, Succeeds], ended, fun delivered => ?_⟩
  obtain ⟨rec, -, line⟩ := delivered.once 0 (by simp [owed])
  rw [lines] at line
  cases line

end HybridSearch.Broker.EventLog
