/-
# Broker.EventLog -- the append-only event log (Experiments/EventLog.cs)

`EventLogWriter` has a bounded FIFO channel, any number of producers calling
`TryEnqueue`, any number of callers of `FlushAsync` and one background reader,
`ExecuteAsync`, which owns the file handle.  Every channel operation, counter
update and awaited file operation is one step, so a run is an arbitrary
interleaving of the producers, the flushers, the cancellation of the stop token
and the reader.  File operations may fail; their outcome is in the label.

Three history variables are not in the source: `accepted` (every record the
channel took, in queue order, so that a record is known by its position),
`returned` (the positions whose `TryEnqueue` call has returned true) and
`handled` (how many records have left the reader's hands).
-/
import HybridSearch.Theory.Transition
import Mathlib.Logic.Function.Basic

namespace HybridSearch.Broker

open HybridSearch.Theory

set_option autoImplicit false

/-! ## Records and file names -/

/-- A `DateTimeOffset`: the UTC instant in ticks since 0001-01-01, and the offset. -/
structure DateTimeOffset where
  utcTicks : Nat
  offsetMinutes : Int
  deriving DecidableEq, Repr

structure ServedResult where
  docId : Nat
  rank : Int
  team : Option String
  deriving DecidableEq, Repr

/-- `Kind` of a record: a validated UI event, or the broker's own served page. -/
inductive RecordKind
  | event
  | served
  deriving DecidableEq, Repr

/-- One line of the event log. -/
structure LogRecord where
  kind : RecordKind
  serverTs : DateTimeOffset
  type : Option String := none
  sessionId : Option String := none
  requestId : Option String := none
  query : Option String := none
  docId : Option Nat := none
  rank : Option Int := none
  dwellMs : Option Int := none
  experimentId : Option String := none
  variant : Option String := none
  team : Option String := none
  clientTs : Option DateTimeOffset := none
  interleaved : Option Bool := none
  simulated : Option Bool := none
  clickModel : Option String := none
  results : Option (List ServedResult) := none
  deriving DecidableEq, Repr

/-- Year, month and day of a day number counted from 0001-01-01. -/
def civil (days : Nat) : Nat × Nat × Nat :=
  let y400 := days / 146097
  let n := days % 146097
  let y100 := min (n / 36524) 3
  let n := n - y100 * 36524
  let y4 := n / 1461
  let n := n % 1461
  let y1 := min (n / 365) 3
  let n := n - y1 * 365
  let leap := y1 = 3 ∧ (y4 ≠ 24 ∨ y100 = 3)
  let starts := [0, 31, 59, 90, 120, 151, 181, 212, 243, 273, 304, 334].mapIdx fun month start =>
    if 2 ≤ month ∧ leap then start + 1 else start
  let month := (starts.filter (· ≤ n)).length
  (y400 * 400 + y100 * 100 + y4 * 4 + y1 + 1, month, n - starts.getD (month - 1) 0 + 1)

/-- Year, month, day and hour of the UTC instant. -/
def DateTimeOffset.utcHour (ts : DateTimeOffset) : (Nat × Nat × Nat) × Nat :=
  (civil (ts.utcTicks / 864000000000), ts.utcTicks / 36000000000 % 24)

/-- 2026-09-23T20:59:59Z belongs to the hour 20 of that day. -/
example : DateTimeOffset.utcHour ⟨639257939990000000, 0⟩ = ((2026, 9, 23), 20) := by decide

/-- A number with at least `width` digits. -/
def padded (width n : Nat) : String :=
  let digits := toString n
  String.ofList (List.replicate (width - digits.length) '0') ++ digits

/-- `FileNameFor`: `events-yyyyMMdd-HH.jsonl`. -/
def fileNameFor (ts : DateTimeOffset) : String :=
  let ((year, month, day), hour) := ts.utcHour
  "events-" ++ padded 4 year ++ padded 2 month ++ padded 2 day ++ "-" ++ padded 2 hour ++ ".jsonl"

namespace EventLog

/-! ## The reader -/

/-- The `writer` variable of `ExecuteAsync`. -/
inductive Writer
  | null
  | opened (file : String)
  /-- Disposed, after a failed rotation, and still referenced. -/
  | disposed
  deriving DecidableEq, Repr

/-- A line written to a file: the record, and its position in the queue order. -/
structure Line where
  file : String
  pos : Nat
  record : LogRecord
  deriving DecidableEq, Repr

inductive ReaderPc
  | start
  /-- About to call `WaitToReadAsync`. -/
  | waitToRead
  /-- Suspended in `WaitToReadAsync`. -/
  | waiting
  | tryRead
  /-- Holding a record, its file name still to be compared. -/
  | got (rec : LogRecord)
  | writeLine (rec : LogRecord)
  | flush
  | addProcessed
  /-- About to enter the `finally` block. -/
  | finally_
  /-- The `TryRead` of the drain loop. -/
  | drain
  | drainWrite (rec : LogRecord)
  | dispose
  | ended
  /-- The degraded loop of an unwritable directory: drop and count. -/
  | dropWait
  | dropWaiting
  | dropRead
  | dropCount (rec : LogRecord)
  | dropAdd
  deriving DecidableEq, Repr

/-- How an awaited operation ended. -/
inductive Outcome
  | ok
  | failed
  /-- The old file closed but the next one could not be opened. -/
  | openFailed
  /-- The operation observed the cancelled stop token. -/
  | canceled
  deriving DecidableEq, Repr

/-- The locals of `ExecuteAsync`, the files, and the counters only it updates. -/
structure Reader where
  pc : ReaderPc
  writer : Writer
  currentFile : Option String
  pendingInBatch : Nat
  processed : Nat
  written : Nat
  /-- `hs_events_dropped_total{reason="write_error"}`, by position. -/
  dropped : List Nat
  /-- Every line written so far, to whichever file. -/
  lines : List Line
  /-- The first `flushed` lines have reached their file. -/
  flushed : Nat
  handled : Nat

namespace Reader

def initial : Reader where
  pc := .start
  writer := .null
  currentFile := none
  pendingInBatch := 0
  processed := 0
  written := 0
  dropped := []
  lines := []
  flushed := 0
  handled := 0

def goto (r : Reader) (pc : ReaderPc) : Reader := { r with pc := pc }

/-- The held record leaves the reader's hands without a line or a count. -/
def lose (r : Reader) (pc : ReaderPc) : Reader := { r with pc := pc, handled := r.handled + 1 }

/-- The file change of the main loop: dispose the old writer, open the next. -/
def rotate (r : Reader) (rec : LogRecord) (name : String) : Outcome → Option Reader
  | .ok =>
      some { r with
        pc := .writeLine rec, writer := .opened name, currentFile := some name
        flushed := r.lines.length }
  | .openFailed =>
      some { r.lose .finally_ with
        currentFile := some name, writer := if r.writer = .null then .null else .disposed
        flushed := r.lines.length }
  | .failed => if r.writer = .null then none else some { r.lose .finally_ with writer := .disposed }
  | .canceled => none

/-- Append the held record to `file`; it has then left the reader's hands. -/
def append (r : Reader) (file : String) (rec : LogRecord) : Reader :=
  { r with lines := r.lines ++ [⟨file, r.handled, rec⟩], handled := r.handled + 1 }

/-- The `WriteLineAsync` of the main loop. -/
def writeLine (r : Reader) (rec : LogRecord) : Outcome → Option Reader
  | .ok =>
      match r.writer with
      | .opened file =>
          some { r.append file rec with
            pc := .tryRead, written := r.written + 1, pendingInBatch := r.pendingInBatch + 1 }
      | _ => some (r.lose .finally_)
  | .failed =>
      some { r with
        pc := .tryRead, dropped := r.dropped ++ [r.handled], handled := r.handled + 1
        pendingInBatch := r.pendingInBatch + 1 }
  | _ => none

/-- The `FlushAsync` after a batch. -/
def flush (r : Reader) (cancelled : Bool) : Outcome → Option Reader
  | .ok =>
      match r.writer with
      | .null => some (r.goto .addProcessed)
      | .opened _ => some { r with pc := .addProcessed, flushed := r.lines.length }
      | .disposed => some (r.goto .finally_)
  | .canceled => if cancelled ∧ r.writer ≠ .null then some (r.goto .finally_) else none
  | .failed => if r.writer ≠ .null then some (r.goto .finally_) else none
  | .openFailed => none

/-- The `WriteLineAsync` of the drain loop: an exception there ends `ExecuteAsync`. -/
def drainWrite (r : Reader) (rec : LogRecord) : Outcome → Option Reader
  | .ok =>
      match r.writer with
      | .opened file => some { r.append file rec with pc := .drain }
      | _ => some (r.lose .ended)
  | .failed => some (r.lose .ended)
  | _ => none

def disposeAsync (r : Reader) : Outcome → Option Reader
  | .ok =>
      match r.writer with
      | .opened _ => some { r with pc := .ended, writer := .disposed, flushed := r.lines.length }
      | _ => some (r.goto .ended)
  | .failed => some { r with pc := .ended, writer := .disposed }
  | _ => none

/-- One step of `ExecuteAsync`: the reader and the channel after it. -/
def step (queue : List LogRecord) (cancelled : Bool) (o : Outcome) (r : Reader) :
    Option (Reader × List LogRecord) :=
  match r.pc, o with
  | .start, .ok => some (r.goto .waitToRead, queue)
  | .start, .failed => some (r.goto .dropWait, queue)
  | .waitToRead, .ok =>
      if cancelled then some (r.goto .finally_, queue)
      else if queue = [] then some (r.goto .waiting, queue)
      else some (r.goto .tryRead, queue)
  | .tryRead, .ok =>
      match queue with
      | [] => some (r.goto .flush, [])
      | rec :: rest => some (r.goto (.got rec), rest)
  | .got rec, o =>
      let name := fileNameFor rec.serverTs
      if r.currentFile = some name then
        if o = .ok then some (r.goto (.writeLine rec), queue) else none
      else (r.rotate rec name o).map (·, queue)
  | .writeLine rec, o => (r.writeLine rec o).map (·, queue)
  | .flush, o => (r.flush cancelled o).map (·, queue)
  | .addProcessed, .ok =>
      some ({ r with
        pc := .waitToRead, processed := r.processed + r.pendingInBatch, pendingInBatch := 0 }, queue)
  | .finally_, .ok => some (r.goto .drain, queue)
  | .drain, .ok =>
      match queue with
      | [] => some (r.goto .dispose, [])
      | rec :: rest =>
          -- the record is out of the channel before `writer is not null` is looked at
          if r.writer = .null then some (r.lose .dispose, rest)
          else some (r.goto (.drainWrite rec), rest)
  | .drainWrite rec, o => (r.drainWrite rec o).map (·, queue)
  | .dispose, o => (r.disposeAsync o).map (·, queue)
  | .dropWait, .ok =>
      if cancelled then some (r.goto .ended, queue)
      else if queue = [] then some (r.goto .dropWaiting, queue)
      else some (r.goto .dropRead, queue)
  | .dropRead, .ok =>
      match queue with
      | [] => some (r.goto .dropWait, [])
      | rec :: rest => some (r.goto (.dropCount rec), rest)
  | .dropCount _, .ok =>
      some ({ r with
        pc := .dropAdd, dropped := r.dropped ++ [r.handled], handled := r.handled + 1 }, queue)
  | .dropAdd, .ok => some ({ r with pc := .dropRead, processed := r.processed + 1 }, queue)
  | _, _ => none

/-- A record entering the channel completes a suspended `WaitToReadAsync`. -/
def wake (r : Reader) : Reader :=
  match r.pc with
  | .waiting => r.goto .tryRead
  | .dropWaiting => r.goto .dropRead
  | _ => r

/-- So does the cancellation of its token, with an exception. -/
def cancelWait (r : Reader) : Reader :=
  match r.pc with
  | .waiting => r.goto .finally_
  | .dropWaiting => r.goto .ended
  | _ => r

end Reader

/-! ## The whole log -/

/-- A caller of `TryEnqueue` or `FlushAsync`. -/
inductive Client
  | idle
  /-- In `TryEnqueue`: the channel took the record at this position. -/
  | wrote (pos : Nat)
  /-- In `TryEnqueue`: `_enqueued` is incremented. -/
  | counted (pos : Nat)
  /-- In `FlushAsync`, with the positions returned before the call. -/
  | flushing (before : List Nat)
  | polling (before : List Nat) (target : Nat)
  /-- `FlushAsync` returned true. -/
  | flushed (before : List Nat)
  deriving DecidableEq, Repr

inductive Label (Tid : Type)
  | tryWrite (t : Tid) (rec : LogRecord)
  | increment (t : Tid)
  | returnTrue (t : Tid)
  | cancel
  | reader (o : Outcome)
  | flushAsync (t : Tid)
  | readTarget (t : Tid)
  | poll (t : Tid)
  /-- The timeout or the caller's token ends the wait. -/
  | giveUp (t : Tid)

structure State (Tid : Type) where
  queue : List LogRecord
  accepted : List LogRecord
  enqueued : Nat
  /-- `hs_events_dropped_total{reason="queue_full"}`. -/
  queueFull : Nat
  returned : List Nat
  cancelled : Bool
  /-- The positions returned before the stop token was cancelled. -/
  owed : List Nat
  client : Tid → Client
  reader : Reader

section Steps

variable {Tid : Type} [DecidableEq Tid]

def State.initial : State Tid where
  queue := []
  accepted := []
  enqueued := 0
  queueFull := 0
  returned := []
  cancelled := false
  owed := []
  client := fun _ => .idle
  reader := .initial

def State.goto (s : State Tid) (t : Tid) (c : Client) : State Tid :=
  { s with client := Function.update s.client t c }

def step (capacity : Nat) (s : State Tid) : Label Tid → Option (State Tid)
  | .tryWrite t rec =>
      if s.client t ≠ .idle then none
      else if s.queue.length < max 1 capacity then
        some { s.goto t (.wrote s.accepted.length) with
          queue := s.queue ++ [rec], accepted := s.accepted ++ [rec], reader := s.reader.wake }
      else some { s with queueFull := s.queueFull + 1 }
  | .increment t =>
      match s.client t with
      | .wrote pos => some { s.goto t (.counted pos) with enqueued := s.enqueued + 1 }
      | _ => none
  | .returnTrue t =>
      match s.client t with
      | .counted pos => some { s.goto t .idle with returned := pos :: s.returned }
      | _ => none
  | .cancel =>
      if s.cancelled then none
      else some { s with cancelled := true, owed := s.returned, reader := s.reader.cancelWait }
  | .reader o =>
      (s.reader.step s.queue s.cancelled o).map fun (reader, queue) =>
        { s with reader := reader, queue := queue }
  | .flushAsync t =>
      match s.client t with
      | .idle => some (s.goto t (.flushing s.returned))
      | _ => none
  | .readTarget t =>
      match s.client t with
      | .flushing before => some (s.goto t (.polling before s.enqueued))
      | _ => none
  | .poll t =>
      match s.client t with
      | .polling before target =>
          if s.reader.processed < target then some s else some (s.goto t (.flushed before))
      | _ => none
  | .giveUp t =>
      match s.client t with
      | .polling _ _ => some (s.goto t .idle)
      | _ => none

/-- The log with a channel of the given `QueueCapacity`. -/
def system (capacity : Nat) (Tid : Type) [DecidableEq Tid] : System (State Tid) (Label Tid) where
  start := .initial
  step := step capacity

end Steps

end EventLog

end HybridSearch.Broker
