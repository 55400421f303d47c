/-
# Web.Sse -- the event-stream parser of the web client (src/api/sse.ts)

`SseParser` is fed the decoded chunks of a response body.  `push` cuts a chunk
into lines at LF, CR and CRLF, keeps the line that has not ended in `buffer`,
and remembers in `sawCr` that the chunk ended in a CR, so that a CRLF pair may be
split over two chunks.  A text is the sequence of its UTF-16 code units, as in
the source; `emitted` collects the calls of `onMessage`.

`completeLines` is the whole-text meaning: the lines of a text that have ended.
-/
import Mathlib.Data.List.Basic

namespace HybridSearch.Web

set_option autoImplicit false

/-- A string of UTF-16 code units. -/
abbrev Text := List UInt16

namespace Sse

def lf : UInt16 := 10
def cr : UInt16 := 13
def colon : UInt16 := 58
def space : UInt16 := 32

/-- The code units of a literal of the source. -/
def literal (s : List Char) : Text := s.map fun c => UInt16.ofNat c.toNat

end Sse

open Sse

structure SseMessage where
  event : Text
  data : Text
  id : Option Text
  deriving DecidableEq, Repr

structure SseParser where
  buffer : Text
  eventType : Text
  dataLines : List Text
  lastId : Option Text
  sawCr : Bool
  emitted : List SseMessage
  deriving DecidableEq, Repr

namespace SseParser

def init : SseParser := ⟨[], [], [], none, false, []⟩

/-- `eventType || 'message'`. -/
def orMessage (eventType : Text) : Text :=
  if eventType = [] then literal ['m', 'e', 's', 's', 'a', 'g', 'e'] else eventType

def dispatch (s : SseParser) : SseParser :=
  if s.dataLines = [] then { s with eventType := [] }
  else
    { s with
      eventType := []
      dataLines := []
      emitted := s.emitted ++
        [⟨orMessage s.eventType, [lf].intercalate s.dataLines, s.lastId⟩] }

/-- The field name and the value of a line, without the one space that may
follow the colon. -/
def parseField (line : Text) : Text × Text :=
  match line.dropWhile (· ≠ colon) with
  | [] => (line, [])
  | _ :: value =>
      (line.takeWhile (· ≠ colon), if value.head? = some space then value.tail else value)

def processLine (s : SseParser) (line : Text) : SseParser :=
  if line = [] then s.dispatch
  else if line.head? = some colon then s -- comment / keep-alive
  else
    let (field, value) := parseField line
    if field = literal ['e', 'v', 'e', 'n', 't'] then { s with eventType := value }
    else if field = literal ['d', 'a', 't', 'a'] then { s with dataLines := s.dataLines ++ [value] }
    else if field = literal ['i', 'd'] then if 0 ∈ value then s else { s with lastId := some value }
    else s -- "retry" and unknown fields are ignored

/-- The loop of `push`: `line` is `buffer.slice(start, i)`, and the argument that
shrinks is what follows `i`. -/
def scan (s : SseParser) (line : Text) : Text → SseParser
  | [] => { s with buffer := line }
  | ch :: rest =>
      if ch = lf then scan (s.processLine line) [] rest
      else if ch = cr then
        match rest with
        | [] => { s.processLine line with sawCr := true, buffer := [] }
        | next :: after =>
            if next = lf then scan (s.processLine line) [] after
            else scan (s.processLine line) [] (next :: after)
      else scan s (line ++ [ch]) rest

def push (s : SseParser) (chunk : Text) : SseParser :=
  let text := if s.sawCr && chunk.head? = some lf then chunk.tail else chunk
  scan { s with sawCr := false } [] (s.buffer ++ text)

/-- `end`: an unterminated final event is discarded. -/
def endOfStream (s : SseParser) : SseParser :=
  { s with buffer := [], eventType := [], dataLines := [] }

/-- The messages of a stream that arrives in chunks. -/
def messages (chunks : List Text) : List SseMessage := (chunks.foldl push init).endOfStream.emitted

end SseParser

namespace Sse

/-- The complete lines of a text whose first line starts with `line`. -/
def completeLines (line : Text) : Text → List Text
  | [] => []
  | ch :: rest =>
      if ch = lf then line :: completeLines [] rest
      else if ch = cr then
        match rest with
        | [] => [line]
        | next :: after =>
            if next = lf then line :: completeLines [] after
            else line :: completeLines [] (next :: after)
      else completeLines (line ++ [ch]) rest

/-- The messages of a whole text: the field rules applied to each complete line. -/
def messagesOf (text : Text) : List SseMessage :=
  ((completeLines [] text).foldl SseParser.processLine SseParser.init).emitted

end Sse

end HybridSearch.Web
