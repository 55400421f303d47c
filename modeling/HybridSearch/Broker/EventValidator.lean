/-
# Broker.EventValidator -- which UI events are logged, and as what (Experiments/EventLog.cs)

`Check` names the first thing that is wrong with an event; `Validate` copies the fields of
an event with nothing wrong into a record of the log.  Which checks apply depends on the
type of the event (`check_ok_iff`).  The document id is looked at only for the events that
are about a document, yet it is copied for all of them, as an unsigned number
(`validate_faithful_iff`).

The parser of time stamps is a parameter.
-/
import HybridSearch.Broker.EventLog
import Mathlib.Algebra.Ring.Nat

namespace HybridSearch.Broker

set_option autoImplicit false

/-- Incoming UI event. -/
structure UiEvent where
  type : Option String := none
  sessionId : Option String := none
  requestId : Option String := none
  query : Option String := none
  docId : Option Int64 := none
  rank : Option Int32 := none
  dwellMs : Option Int64 := none
  experimentId : Option String := none
  variant : Option String := none
  team : Option String := none
  clientTs : Option String := none
  simulated : Option Bool := none
  clickModel : Option String := none

namespace EventValidator

def types : List String := ["impression", "click", "dwell", "query", "abandon"]

def maxIdLength : Nat := 128
def maxQueryLength : Nat := 512
def maxDwellMs : Int := 24 * 3600 * 1000

/-- `string.Length`, in UTF-16 units. -/
def units (s : String) : Nat := (s.toList.map fun c => if c.val.toNat < 0x10000 then 1 else 2).sum

/-- `SearchQueryParser.IsSessionChar`. -/
def isSessionChar (c : Char) : Bool :=
  ('a' ≤ c && c ≤ 'z') || ('A' ≤ c && c ≤ 'Z') || ('0' ≤ c && c ≤ '9') || c == '-' || c == '_'

def isId (s : Option String) : Bool :=
  match s with
  | none => false
  | some s => s != "" && decide (units s ≤ maxIdLength) && s.toList.all isSessionChar

/-- `is < low or > high`, which `null` is not. -/
def outside (low high : Int) (x : Option Int) : Bool :=
  match x with
  | none => false
  | some x => decide (x < low ∨ high < x)

/-- `is { Length: > most }`. -/
def longer (most : Nat) (s : Option String) : Bool :=
  match s with
  | none => false
  | some s => decide (most < units s)

/-- `is "click" or "dwell" or "impression"`. -/
def aboutDoc (type : String) : Bool := type == "click" || type == "dwell" || type == "impression"

/-- One `return` of `Check`. -/
def refuse (wrong : Bool) (text : String) : Except String Unit := if wrong then .error text else .ok ()

variable (tryParse : String → Option DateTimeOffset) (e : UiEvent)

/-- `Check` of the page, the document and the rank. -/
def checkPlace (type : String) : Except String Unit :=
  if aboutDoc type then do
    refuse e.requestId.isNone ("requestId is required for " ++ type)
    refuse (e.docId.isNone || decide ((e.docId.getD 0).toInt < 0))
      ("docId is required for " ++ type ++ " and must be ≥ 0")
    refuse (e.rank.isNone || outside 1 1000 (e.rank.map Int32.toInt))
      ("rank is required for " ++ type ++ " and must be in [1, 1000]")
  else refuse (outside 1 1000 (e.rank.map Int32.toInt)) "rank must be in [1, 1000]"

/-- `Check` of what follows, and the time stamp of the client. -/
def checkRest (type : String) : Except String (Option DateTimeOffset) := do
  refuse (type == "dwell" && (e.dwellMs.isNone || outside 0 maxDwellMs (e.dwellMs.map Int64.toInt)))
    "dwellMs is required for dwell and must be in [0, 86400000]"
  refuse (longer maxQueryLength e.query) "query must be at most 512 characters"
  refuse (longer maxIdLength e.experimentId || longer maxIdLength e.variant)
    "experimentId / variant too long"
  refuse (e.team.isSome && !(e.team == some "A" || e.team == some "B")) "team must be \"A\", \"B\" or null"
  refuse (longer 32 e.clickModel) "clickModel must be at most 32 characters"
  match e.clientTs with
  | none => pure none
  | some text =>
      match tryParse text with
      | none => throw "clientTs must be an ISO-8601 timestamp"
      | some ts => pure (some ts)

/-- `Check`: what is wrong, or the time stamp. -/
def check : Except String (Option DateTimeOffset) := do
  refuse (e.type.isNone || !types.contains (e.type.getD ""))
    "type must be one of impression, click, dwell, query, abandon"
  refuse (!isId e.sessionId) "sessionId is required: 1-128 characters of [A-Za-z0-9_-]"
  refuse (e.requestId.isSome && !isId e.requestId) "requestId must be 1-128 characters of [A-Za-z0-9_-]"
  checkPlace e (e.type.getD "")
  checkRest tryParse e (e.type.getD "")

/-- `Validate`: the record to log, and the error. -/
def validate (now : DateTimeOffset) : Option LogRecord × Option String :=
  match check tryParse e with
  | .error text => (none, some text)
  | .ok clientTs =>
      (some
        { kind := .event
          serverTs := now
          type := e.type
          sessionId := e.sessionId
          requestId := e.requestId
          query := e.query
          -- `(ulong)d`
          docId := e.docId.map fun d => d.toUInt64.toNat
          rank := e.rank.map Int32.toInt
          dwellMs := if e.type = some "dwell" then e.dwellMs.map Int64.toInt else none
          experimentId := e.experimentId
          variant := e.variant
          team := e.team
          clientTs := clientTs
          simulated := e.simulated
          clickModel := e.clickModel }, none)

/-! ## What `Check` accepts -/

theorem refuse_bind {α : Type} {wrong : Bool} {text : String} {next : Unit → Except String α} {a : α} :
    (refuse wrong text >>= next) = .ok a ↔ wrong = false ∧ next () = .ok a := by
  cases wrong with
  | true => exact iff_of_false (fun run => by cases run) (fun both => Bool.noConfusion both.1)
  | false => exact (and_iff_right rfl).symm

theorem refuse_ok {wrong : Bool} {text : String} : refuse wrong text = .ok () ↔ wrong = false := by
  cases wrong with
  | true => exact iff_of_false (fun run => by cases run) Bool.noConfusion
  | false => exact iff_of_true rfl rfl

theorem unit_bind {α : Type} {first : Except String Unit} {next : Unit → Except String α} {a : α} :
    (first >>= next) = .ok a ↔ first = .ok () ∧ next () = .ok a := by
  cases first with
  | error text => exact iff_of_false (fun run => by cases run) (fun both => by cases both.1)
  | ok u => exact (and_iff_right rfl).symm

theorem outside_eq_false {low high : Int} {x : Option Int} :
    outside low high x = false ↔ ∀ v, x = some v → low ≤ v ∧ v ≤ high := by
  cases x with
  | none => exact iff_of_true rfl fun v is => by cases is
  | some v =>
      rw [outside, decide_eq_false_iff_not, not_or, Int.not_lt, Int.not_lt]
      exact ⟨fun both w is => Option.some.inj is ▸ both, fun all => all v rfl⟩

/-- A present value in its range. -/
theorem needed_eq_false {low high : Int} {x : Option Int} :
    (x.isNone || outside low high x) = false ↔ ∃ v, x = some v ∧ low ≤ v ∧ v ≤ high := by
  cases x with
  | none => exact iff_of_false Bool.noConfusion fun ⟨v, is, _⟩ => by cases is
  | some v =>
      rw [Option.isNone_some, Bool.false_or, outside_eq_false]
      exact ⟨fun all => ⟨v, rfl, all v rfl⟩, fun ⟨w, is, both⟩ u is' => by
        rw [← Option.some.inj is', Option.some.inj is]
        exact both⟩

theorem checkPlace_ok_iff {type : String} : checkPlace e type = .ok () ↔
    (aboutDoc type = true → e.requestId ≠ none ∧ e.rank ≠ none ∧ ∃ d, e.docId = some d ∧ 0 ≤ d.toInt) ∧
      ∀ r, e.rank = some r → 1 ≤ r.toInt ∧ r.toInt ≤ 1000 := by
  have ranks : outside 1 1000 (e.rank.map Int32.toInt) = false ↔
      ∀ r, e.rank = some r → 1 ≤ r.toInt ∧ r.toInt ≤ 1000 := by
    rw [outside_eq_false]
    cases e.rank with
    | none => exact iff_of_true (fun v is => by cases is) fun r is => by cases is
    | some r =>
        exact ⟨fun all s is => Option.some.inj is ▸ all r.toInt rfl,
          fun all v is => Option.some.inj is ▸ all r rfl⟩
  have docs : (e.docId.isNone || decide ((e.docId.getD 0).toInt < 0)) = false ↔
      ∃ d, e.docId = some d ∧ 0 ≤ d.toInt := by
    cases e.docId with
    | none => exact iff_of_false Bool.noConfusion fun ⟨d, is, _⟩ => by cases is
    | some d =>
        rw [Option.isNone_some, Bool.false_or, decide_eq_false_iff_not, Int.not_lt]
        exact ⟨fun le => ⟨d, rfl, le⟩, fun ⟨d', is, le⟩ => Option.some.inj is ▸ le⟩
  have asked {α : Type} (x : Option α) : x.isNone = false ↔ x ≠ none := by cases x <;> simp
  rw [checkPlace]
  split_ifs with about
  · rw [refuse_bind, refuse_bind, refuse_ok, docs, Bool.or_eq_false_iff, ranks, asked, asked]
    exact ⟨fun ⟨page, doc, place, range⟩ => ⟨fun _ => ⟨page, place, doc⟩, range⟩,
      fun ⟨all, range⟩ => ⟨(all about).1, (all about).2.2, (all about).2.1, range⟩⟩
  · rw [refuse_ok, ranks]
    exact (and_iff_right fun yes => absurd yes about).symm

theorem checkRest_ok_iff {type : String} {clientTs : Option DateTimeOffset} :
    checkRest tryParse e type = .ok clientTs ↔
      (type = "dwell" → ∃ ms, e.dwellMs = some ms ∧ 0 ≤ ms.toInt ∧ ms.toInt ≤ maxDwellMs) ∧
      longer maxQueryLength e.query = false ∧
      (longer maxIdLength e.experimentId = false ∧ longer maxIdLength e.variant = false) ∧
      (e.team = none ∨ e.team = some "A" ∨ e.team = some "B") ∧
      longer 32 e.clickModel = false ∧
      (e.clientTs = none ∧ clientTs = none ∨
        ∃ text ts, e.clientTs = some text ∧ tryParse text = some ts ∧ clientTs = some ts) := by
  have dwells : (type == "dwell" && (e.dwellMs.isNone || outside 0 maxDwellMs (e.dwellMs.map Int64.toInt))) =
      false ↔ (type = "dwell" → ∃ ms, e.dwellMs = some ms ∧ 0 ≤ ms.toInt ∧ ms.toInt ≤ maxDwellMs) := by
    rw [Bool.and_eq_false_iff, beq_eq_false_iff_ne, ← imp_iff_not_or]
    refine imp_congr_right fun _ => ?_
    have same : e.dwellMs.isNone = (e.dwellMs.map Int64.toInt).isNone := by cases e.dwellMs <;> rfl
    rw [same, needed_eq_false]
    cases e.dwellMs with
    | none => exact iff_of_false (fun ⟨v, is, _⟩ => by cases is) fun ⟨ms, is, _⟩ => by cases is
    | some ms =>
        exact ⟨fun ⟨v, is, both⟩ => ⟨ms, rfl, Option.some.inj is ▸ both⟩,
          fun ⟨ms', is, both⟩ => ⟨ms.toInt, rfl, Option.some.inj is ▸ both⟩⟩
  have teams : (e.team.isSome && !(e.team == some "A" || e.team == some "B")) = false ↔
      e.team = none ∨ e.team = some "A" ∨ e.team = some "B" := by
    cases e.team with
    | none => exact iff_of_true rfl (Or.inl rfl)
    | some team =>
        simp only [Option.isSome_some, Bool.true_and, Bool.not_eq_false', Bool.or_eq_true, beq_iff_eq,
          Option.some.injEq, reduceCtorEq, false_or]
  have stamps : (match e.clientTs with
      | none => pure none
      | some text =>
          match tryParse text with
          | none => throw "clientTs must be an ISO-8601 timestamp"
          | some ts => pure (some ts) : Except String (Option DateTimeOffset)) = .ok clientTs ↔
      (e.clientTs = none ∧ clientTs = none ∨
        ∃ text ts, e.clientTs = some text ∧ tryParse text = some ts ∧ clientTs = some ts) := by
    cases e.clientTs with
    | none =>
        refine ⟨fun run => Or.inl ⟨rfl, (Except.ok.inj run).symm⟩, ?_⟩
        rintro (⟨-, rfl⟩ | ⟨text, ts, is, -⟩)
        · rfl
        · cases is
    | some text =>
        dsimp only
        cases parsed : tryParse text with
        | none =>
            refine iff_of_false (fun run => by cases run) ?_
            rintro (⟨is, -⟩ | ⟨text', ts, is, parsed', -⟩)
            · cases is
            · rw [← Option.some.inj is, parsed] at parsed'
              cases parsed'
        | some ts =>
            refine ⟨fun run => Or.inr ⟨text, ts, rfl, parsed, (Except.ok.inj run).symm⟩, ?_⟩
            rintro (⟨is, -⟩ | ⟨text', ts', is, parsed', rfl⟩)
            · cases is
            · rw [← Option.some.inj is, parsed] at parsed'
              rw [← Option.some.inj parsed']
              rfl
  rw [checkRest, refuse_bind, refuse_bind, refuse_bind, refuse_bind, refuse_bind, dwells, teams, stamps,
    Bool.or_eq_false_iff]

/-- What is asked of an event of `type`, apart from its document. -/
structure Passes (type : String) (clientTs : Option DateTimeOffset) : Prop where
  type_eq : e.type = some type
  known : type ∈ types
  session : isId e.sessionId = true
  request : e.requestId = none ∨ isId e.requestId = true
  /-- An event about a document belongs to a served page. -/
  place : aboutDoc type = true → e.requestId ≠ none ∧ e.rank ≠ none
  rank : ∀ r, e.rank = some r → 1 ≤ r.toInt ∧ r.toInt ≤ 1000
  dwell : type = "dwell" → ∃ ms, e.dwellMs = some ms ∧ 0 ≤ ms.toInt ∧ ms.toInt ≤ maxDwellMs
  query : longer maxQueryLength e.query = false
  labels : longer maxIdLength e.experimentId = false ∧ longer maxIdLength e.variant = false
  team : e.team = none ∨ e.team = some "A" ∨ e.team = some "B"
  clickModel : longer 32 e.clickModel = false
  stamp : e.clientTs = none ∧ clientTs = none ∨
    ∃ text ts, e.clientTs = some text ∧ tryParse text = some ts ∧ clientTs = some ts

/-- **`Check`** accepts the events that pass, and whose document is there if they are about one. -/
theorem check_ok_iff {clientTs : Option DateTimeOffset} : check tryParse e = .ok clientTs ↔
    ∃ type, Passes tryParse e type clientTs ∧
      (aboutDoc type = true → ∃ d, e.docId = some d ∧ 0 ≤ d.toInt) := by
  have typed : (e.type.isNone || !types.contains (e.type.getD "")) = false ↔
      ∃ type, e.type = some type ∧ type ∈ types := by
    cases e.type with
    | none => exact iff_of_false Bool.noConfusion fun ⟨type, is, _⟩ => by cases is
    | some type =>
        rw [Option.isNone_some, Bool.false_or, Bool.not_eq_false', List.contains_iff_mem]
        exact ⟨fun mem => ⟨type, rfl, mem⟩, fun ⟨type', is, mem⟩ => Option.some.inj is ▸ mem⟩
  have requests : (e.requestId.isSome && !isId e.requestId) = false ↔
      e.requestId = none ∨ isId e.requestId = true := by
    cases e.requestId with
    | none => exact iff_of_true rfl (Or.inl rfl)
    | some id => simp
  rw [check, refuse_bind, refuse_bind, refuse_bind, unit_bind, checkPlace_ok_iff, checkRest_ok_iff, typed,
    requests, Bool.not_eq_false']
  constructor
  · rintro ⟨⟨type, is, known⟩, session, request, ⟨place, rank⟩, dwell, query, labels, team, model, stamp⟩
    rw [is] at place dwell
    exact ⟨type, ⟨is, known, session, request, fun about => ⟨(place about).1, (place about).2.1⟩, rank, dwell,
      query, labels, team, model, stamp⟩, fun about => (place about).2.2⟩
  · rintro ⟨type, passes, doc⟩
    rw [passes.type_eq]
    exact ⟨⟨type, rfl, passes.known⟩, passes.session, passes.request,
      ⟨fun about => ⟨(passes.place about).1, (passes.place about).2, doc about⟩, passes.rank⟩, passes.dwell,
      passes.query, passes.labels, passes.team, passes.clickModel, passes.stamp⟩

/-! ## What is logged -/

/-- The record of an event says what the event said, and its numbers are in their ranges. -/
structure Faithful (now : DateTimeOffset) (r : LogRecord) : Prop where
  stamped : r.kind = .event ∧ r.serverTs = now
  type : r.type = e.type ∧ ∃ type ∈ types, e.type = some type
  session : r.sessionId = e.sessionId ∧ isId r.sessionId = true
  docId : r.docId.map Int.ofNat = e.docId.map Int64.toInt
  rank : r.rank = e.rank.map Int32.toInt ∧ ∀ k, r.rank = some k → 1 ≤ k ∧ k ≤ 1000
  dwell : r.dwellMs = (if e.type = some "dwell" then e.dwellMs.map Int64.toInt else none) ∧
    ∀ ms, r.dwellMs = some ms → 0 ≤ ms ∧ ms ≤ 86400000
  copied : r.requestId = e.requestId ∧ r.query = e.query ∧ r.experimentId = e.experimentId ∧
    r.variant = e.variant ∧ r.team = e.team ∧ r.simulated = e.simulated ∧ r.clickModel = e.clickModel
  stamp : r.clientTs = e.clientTs.bind tryParse

/-- An event is refused with a reason and without a record, or logged faithfully. -/
def Logged (now : DateTimeOffset) : Prop :=
  (∃ text, validate tryParse e now = (none, some text)) ∨
    ∃ r, validate tryParse e now = (some r, none) ∧ Faithful tryParse e now r

theorem ulong_eq_iff (d : Int64) : (d.toUInt64.toNat : Int) = d.toInt ↔ 0 ≤ d.toInt := by
  have cond := BitVec.toInt_eq_toNat_cond d.toBitVec
  have same : d.toBitVec.toInt = d.toInt := rfl
  rw [Int64.toNat_toBitVec, same] at cond
  have below := d.toUInt64.toNat_lt
  split_ifs at cond <;> omega

/-- **Accepted events are logged faithfully**, unless the event is not about a document, carries a
negative document id and passes in everything else. -/
theorem validate_faithful_iff (now : DateTimeOffset) : Logged tryParse e now ↔
    ¬((∃ d, e.docId = some d ∧ d.toInt < 0) ∧
      ∃ type clientTs, aboutDoc type = false ∧ Passes tryParse e type clientTs) := by
  constructor
  · rintro logged ⟨⟨d, is, negative⟩, type, clientTs, other, passes⟩
    have accepted : check tryParse e = .ok clientTs :=
      (check_ok_iff tryParse e).mpr ⟨type, passes, fun about => by rw [about] at other; cases other⟩
    rw [Logged, validate, accepted] at logged
    rcases logged with ⟨text, refused⟩ | ⟨r, same, faithful⟩
    · cases refused
    · have doc := faithful.docId
      rw [← Option.some.inj (Prod.mk.inj same).1, is] at doc
      have nonneg := (ulong_eq_iff d).mp (Option.some.inj doc)
      omega
  · intro holds
    cases run : check tryParse e with
    | error text => exact Or.inl ⟨text, by rw [validate, run]⟩
    | ok clientTs =>
        obtain ⟨type, passes, doc⟩ := (check_ok_iff tryParse e).mp run
        have docs : ∀ d, e.docId = some d → 0 ≤ d.toInt := by
          intro d is
          by_contra negative
          cases about : aboutDoc type with
          | true =>
              obtain ⟨d', is', nonneg⟩ := doc about
              rw [is] at is'
              exact negative (Option.some.inj is' ▸ nonneg)
          | false => exact holds ⟨⟨d, is, Int.not_le.mp negative⟩, type, clientTs, about, passes⟩
        refine Or.inr ⟨_, by rw [validate, run], ⟨rfl, rfl⟩, ⟨rfl, type, passes.known, passes.type_eq⟩,
          ⟨rfl, passes.session⟩, ?_, ⟨rfl, ?_⟩, ⟨rfl, ?_⟩, ⟨rfl, rfl, rfl, rfl, rfl, rfl, rfl⟩, ?_⟩
        · dsimp only
          rw [Option.map_map]
          exact Option.map_congr fun d is => (ulong_eq_iff d).mpr (docs d is)
        · intro k is
          obtain ⟨r, present, rfl⟩ := Option.map_eq_some_iff.mp is
          exact passes.rank r present
        · intro ms is
          dsimp only at is
          split_ifs at is with dwell
          obtain ⟨ms', present, low, high⟩ := passes.dwell (Option.some.inj (passes.type_eq.symm.trans dwell))
          rw [present] at is
          rw [← Option.some.inj is]
          exact ⟨low, high⟩
        · rcases passes.stamp with ⟨unstamped, rfl⟩ | ⟨text, ts, stamped, parsed, rfl⟩
          · rw [unstamped]
            rfl
          · rw [stamped]
            exact parsed.symm

def strayQuery : UiEvent := { type := some "query", sessionId := some "s", docId := some (-1) }

/-- A query event whose document id is -1 is logged under document `2 ^ 64 - 1`. -/
theorem not_validate_faithful : ¬Logged (fun _ => none) strayQuery ⟨0, 0⟩ := by
  have run : validate (fun _ => none) strayQuery ⟨0, 0⟩ =
      (some
        { kind := .event
          serverTs := ⟨0, 0⟩
          type := some "query"
          sessionId := some "s"
          docId := some (2 ^ 64 - 1) }, none) := by
    decide
  rw [Logged, run]
  rintro (⟨text, refused⟩ | ⟨r, same, faithful⟩)
  · cases refused
  · have doc := faithful.docId
    rw [← Option.some.inj (Prod.mk.inj same).1] at doc
    exact absurd doc (by decide)

end EventValidator

end HybridSearch.Broker
