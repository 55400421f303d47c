/-
# Web.UseSearch -- instant search over an event stream (src/hooks/useSearch.ts, src/api/client.ts)

The effect of `useSearch` runs when the key of the parameters changes.  It retires
the last request (`cleanup`), takes the next generation and opens a request of its
own, which waits for the debounce timer, streams, and falls back to one plain
request where the stream fails before the final list.  A `Request` is what the
closures of one effect hold; it stays under its generation, so that late events
of old requests find it.

The labels are what happens around the hook: a render, the effect after it, and the
timer and network events of each request, in any order.  An event carries its data
as `JSON.parse` and `parseSearchResponse` read it, and what the clock shows.
-/
import HybridSearch.Theory.Transition
import HybridSearch.Web.Interactions
import HybridSearch.Web.Sse

namespace HybridSearch.Web

open HybridSearch.Theory

set_option autoImplicit false

inductive SearchMode
  | hybrid
  | lexical
  | dense
  deriving DecidableEq, Repr

structure SearchParams where
  q : Text
  mode : SearchMode
  rerank : Bool
  k : Option Rat
  explain : Option Bool
  deadlineMs : Option Rat
  sessionId : Option String
  deriving DecidableEq, Repr

structure TraceContext where
  traceId : String
  spanId : String
  sampled : Bool
  deriving DecidableEq, Repr

/-! ## Failures (src/api/client.ts) -/

/-- What a promise is rejected with. -/
inductive Failure
  /-- The `AbortError` of a signal. -/
  | abort (message : String)
  | http (status : Nat) (message : String)
  | error (message : String)
  /-- A value that is no `Error`, as `String(e)` writes it. -/
  | other (text : String)
  deriving DecidableEq, Repr

def isAbortError : Failure → Bool
  | .abort _ => true
  | _ => false

/-- `errorFrom`; `message` is the body's, if it is JSON and has one. -/
def errorFrom (status : Nat) (statusText : String) (message : Option String) : Failure :=
  let detail := message.getD statusText
  .http status ("HTTP " ++ toString status ++ if detail = "" then "" else ": " ++ detail)

/-- The answer of `fetch`. -/
inductive Answer
  | ok
  | refused (status : Nat) (statusText : String) (message : Option String)
  | bodyless (status : Nat)
  deriving DecidableEq, Repr

/-- A message of the stream, by its event, with its data as they are read: a response or
the text of the error that reading them throws. -/
inductive StreamEvent
  | lexical (data : Except String SearchResponse)
  | final (data : Except String SearchResponse)
  | error (message : Option String)
  | other

inductive StreamPhase
  | lexical
  | final
  deriving DecidableEq, Repr

/-! ## The hook's state -/

inductive SearchPhase
  | idle
  | loading
  | lexical
  | final
  | error
  deriving DecidableEq, Repr

structure ClientMs where
  lexical : Option Rat
  final : Option Rat
  deriving DecidableEq, Repr

structure SearchState where
  phase : SearchPhase
  /-- The query these results or this error belong to. -/
  params : Option SearchParams
  response : Option SearchResponse
  stale : Bool
  error : Option String
  trace : Option TraceContext
  clientMs : ClientMs
  deriving DecidableEq, Repr

namespace UseSearch

def IDLE : SearchState := ⟨.idle, none, none, false, none, none, ⟨none, none⟩⟩

/-- `paramsKey` of parameters. -/
abbrev Key := Text × SearchMode × Bool × Option Rat × Bool × Option Rat

def paramsKey : Option SearchParams → Option Key
  | none => none
  | some p => some (p.q, p.mode, p.rerank, p.k, p.explain.getD false, p.deadlineMs)

/-- The code units that `trim` takes off. -/
def isTrimmed (c : UInt16) : Bool :=
  (9 ≤ c && c ≤ 13) || c = 0x20 || c = 0xA0 || c = 0x1680 || (0x2000 ≤ c && c ≤ 0x200A) ||
    c = 0x2028 || c = 0x2029 || c = 0x202F || c = 0x205F || c = 0x3000 || c = 0xFEFF

/-- `p.q.trim() === ''`. -/
def blank (p : SearchParams) : Bool := p.q.all isTrimmed

/-- How far a request has come. -/
inductive Stage
  | waiting
  | fetching
  | reading
  | fallback
  | done
  deriving DecidableEq, Repr

/-- The variables of one effect, of its `run` and of `streamSearch`. -/
structure Request where
  params : SearchParams
  /-- `controller.signal.aborted`. -/
  aborted : Bool
  stage : Stage
  trace : Option TraceContext
  t0 : Rat
  lexicalMs : Option Rat
  gotFinal : Bool
  /-- `outcome.error`. -/
  failed : Option Failure
  /-- `outcome.sawFinal`. -/
  sawFinal : Bool

structure State where
  /-- `paramsRef.current`: the parameters of the last render. -/
  params : Option SearchParams
  /-- The key the effect last ran for; none before its first run. -/
  deps : Option (Option Key)
  generation : Nat
  requests : Nat → Option Request
  shown : SearchState

inductive Act
  | render (params : Option SearchParams)
  | effect
  | timer (gen : Nat) (trace : TraceContext) (now : Rat)
  | answered (gen : Nat) (answer : Answer)
  | message (gen : Nat) (event : StreamEvent) (now : Rat)
  | ended (gen : Nat)
  /-- `fetch` or the body's reader is rejected. -/
  | rejected (gen : Nat) (e : Failure)
  | reply (gen : Nat) (result : Except Failure SearchResponse) (now : Rat)

namespace State

def init : State := ⟨none, none, 0, fun _ => none, IDLE⟩

/-- The closure's variables after a step of it. -/
def put (s : State) (gen : Nat) (r : Request) : State :=
  { s with requests := Function.update s.requests gen (some r) }

/-- `live()`. -/
def live (s : State) (gen : Nat) (r : Request) : Bool := gen = s.generation && !r.aborted

/-- What the last effect returned: it clears the timer and aborts. -/
def cleanup (s : State) : State :=
  match s.requests s.generation with
  | none => s
  | some r =>
      s.put s.generation
        { r with aborted := true, stage := if r.stage = .waiting then .done else r.stage }

/-- The effect, after the cleanup of the last one. -/
def effect (s : State) : State :=
  let s := { s.cleanup with generation := s.generation + 1, deps := some (paramsKey s.params) }
  match s.params with
  | none => { s with shown := IDLE }
  | some p =>
      if blank p then { s with shown := IDLE }
      else
        { s.put s.generation ⟨p, false, .waiting, none, 0, none, false, none, false⟩ with
          shown := { s.shown with
            phase := .loading
            stale := s.shown.response.isSome
            error := none } }

/-- `onResults`. -/
def onResults (s : State) (gen : Nat) (r : Request) (phase : StreamPhase) (resp : SearchResponse)
    (now : Rat) : State :=
  if !s.live gen r then s.put gen r
  else
    let elapsed := now - r.t0
    match phase with
    | .lexical =>
        if r.gotFinal then s.put gen r -- a lexical event after final must not regress the list
        else
          { s.put gen { r with lexicalMs := some elapsed } with
            shown := ⟨.lexical, some r.params, some resp, false, none, r.trace, ⟨some elapsed, none⟩⟩ }
    | .final =>
        { s.put gen { r with gotFinal := true } with
          shown := ⟨.final, some r.params, some resp, false, none, r.trace,
            ⟨r.lexicalMs, some elapsed⟩⟩ }

/-- The callback that `streamSearch` gives `readSse`. -/
def onMessage (s : State) (gen : Nat) (r : Request) (event : StreamEvent) (now : Rat) : State :=
  if r.failed.isSome then s
  else
    match event with
    | .lexical (.ok resp) => s.onResults gen r .lexical resp now
    | .final (.ok resp) => s.onResults gen { r with sawFinal := true } .final resp now
    | .lexical (.error e) => s.put gen { r with failed := some (.error e) }
    | .final (.error e) => s.put gen { r with failed := some (.error e) }
    | .error message =>
        s.put gen { r with
          failed := some (.error (message.getD "The search stream reported an error")) }
    | .other => s

/-- The text of an error that is shown. -/
def messageOf : Failure → String
  | .http _ message => "The search service answered " ++ message
  | .abort message => message
  | .error message => message
  | .other text => text

/-- The end of `run` with a failure. -/
def showError (s : State) (gen : Nat) (r : Request) (failure : Failure) : State :=
  { s.put gen { r with stage := .done } with
    shown := { s.shown with
      phase := .error
      params := some r.params
      stale := s.shown.response.isSome
      error := some (messageOf failure)
      trace := r.trace } }

/-- The `catch` around `streamSearch`. -/
def caught (s : State) (gen : Nat) (r : Request) (e : Failure) : State :=
  if isAbortError e || !s.live gen r then s.put gen { r with stage := .done }
  else if !r.gotFinal then s.put gen { r with stage := .fallback }
  else s.showError gen r e

/-- The plain request's end. -/
def replied (s : State) (gen : Nat) (r : Request) (now : Rat) :
    Except Failure SearchResponse → State
  | .ok resp => s.onResults gen { r with stage := .done } .final resp now
  | .error e =>
      if isAbortError e || !s.live gen r then s.put gen { r with stage := .done }
      else s.showError gen r e

/-- What `streamSearch` throws once the answer or the end of its stream is there. -/
def thrownBy (r : Request) : Act → Option Failure
  | .answered _ .ok => none
  | .answered _ (.refused status statusText message) => some (errorFrom status statusText message)
  | .answered _ (.bodyless status) => some (.http status "Streaming response has no body")
  | .rejected _ e => some e
  | .ended _ =>
      if r.aborted then some (.abort "Aborted")
      else
        match r.failed with
        | some e => some e
        | none =>
            if r.sawFinal then none
            else some (.error "The search stream ended before the final results arrived")
  | _ => none

/-- An event of a request, at the stage that waits for it. -/
def next (s : State) (gen : Nat) (r : Request) (a : Act) : Option State :=
  match a, r.stage with
  | .timer _ trace now, .waiting => some (s.put gen { r with stage := .fetching, trace, t0 := now })
  | .answered _ _, .fetching =>
      match thrownBy r a with
      | some e => some (s.caught gen r e)
      | none => some (s.put gen { r with stage := .reading })
  | .rejected _ e, .fetching => some (s.caught gen r e)
  | .rejected _ e, .reading => some (s.caught gen r e)
  | .message _ event now, .reading => some (s.onMessage gen r event now)
  | .ended _, .reading =>
      match thrownBy r a with
      | some e => some (s.caught gen r e)
      | none => some (s.put gen { r with stage := .done })
  | .reply _ result now, .fallback => some (s.replied gen r now result)
  | _, _ => none

end State

/-- The request an event is for. -/
def Act.gen? : Act → Option Nat
  | .render _ => none
  | .effect => none
  | .timer gen _ _ => some gen
  | .answered gen _ => some gen
  | .message gen _ _ => some gen
  | .ended gen => some gen
  | .rejected gen _ => some gen
  | .reply gen _ _ => some gen

def step (s : State) (a : Act) : Option State :=
  match a with
  | .render params => some { s with params }
  | .effect => some s.effect
  | a => do
      let gen ← a.gen?
      let r ← s.requests gen
      s.next gen r a

/-- The hook on a page: renders, its effect and the events of all its requests. -/
def system : System State Act where
  start := .init
  step

end UseSearch

end HybridSearch.Web
