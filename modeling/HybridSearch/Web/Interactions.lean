/-
# Web.Interactions -- the click log of the web client (src/lib/interactions.ts)

`InteractionTracker` turns what happens on the results page into the events the
click models are trained on.  It keeps the list that is currently settled, one
open dwell and the keys of the impressions it has logged.  `Tracker` is that
state with the events logged so far, and each method of the class is a function
on it.

`clock` is the sequence of the readings of the tracker's clock: a method that
reads it takes the next one.  The dwell keeps its own copy of its list; the code
shares the object, but only its `clicked` flag ever changes and a dwell event
does not show that.
-/
import HybridSearch.Theory.Transition
import Mathlib.Data.Rat.Floor

namespace HybridSearch.Web

open HybridSearch.Theory

set_option autoImplicit false

inductive Team
  | A
  | B
  deriving DecidableEq, Repr

structure SearchResult where
  docId : Int
  rank : Int
  team : Option Team
  deriving DecidableEq, Repr

structure ExperimentAssignment where
  id : String
  variant : String
  deriving DecidableEq, Repr

structure SearchResponse where
  requestId : String
  query : String
  results : List SearchResult
  experiment : Option ExperimentAssignment
  deriving DecidableEq, Repr

structure ServedList where
  requestId : String
  query : String
  experimentId : Option String
  variant : Option String
  clicked : Bool
  resultCount : Nat
  deriving DecidableEq, Repr

structure OpenDwell where
  list : ServedList
  docId : Int
  rank : Int
  team : Option Team
  startedAt : Rat
  sawHidden : Bool
  deriving DecidableEq, Repr

/-- The fields of the list an event is about. -/
structure Base where
  requestId : String
  query : String
  experimentId : Option String
  variant : Option String
  deriving DecidableEq, Repr

inductive Event
  | query (list : Base)
  | impression (list : Base) (docId rank : Int) (team : Option Team)
  | click (list : Base) (docId rank : Int) (team : Option Team)
  | dwell (list : Base) (docId rank : Int) (dwellMs : Nat) (team : Option Team)
  | abandon (list : Base)
  deriving DecidableEq, Repr

/-- `InteractionTracker`, with the events it has logged and the number of its
clock readings. -/
structure Tracker where
  current : Option ServedList
  dwell : Option OpenDwell
  impressed : List String
  log : List Event
  readings : Nat
  deriving DecidableEq, Repr

namespace Tracker

def init : Tracker := ⟨none, none, [], [], 0⟩

/-- `base`: an empty experiment or variant is left out. -/
def base (list : ServedList) : Base where
  requestId := list.requestId
  query := list.query
  experimentId := list.experimentId.filter (· ≠ "")
  variant := list.variant.filter (· ≠ "")

/-- `logger.log`. -/
def logs (s : Tracker) (e : Event) : Tracker := { s with log := s.log ++ [e] }

/-- `Math.max(0, Math.round(elapsed))`. -/
def wholeMs (elapsed : Rat) : Nat := ⌊elapsed + 1 / 2⌋.toNat

section Methods

variable (clock : Nat → Rat)

/-- `endDwell`. -/
def endDwell (s : Tracker) : Tracker :=
  match s.dwell with
  | none => s
  | some d =>
      { s with dwell := none, readings := s.readings + 1 }.logs
        (.dwell (base d.list) d.docId d.rank (wholeMs (clock s.readings - d.startedAt)) d.team)

/-- `closeCurrent`. -/
def closeCurrent (s : Tracker) : Tracker :=
  match s.current with
  | none => s
  | some list => if list.clicked then s else s.logs (.abandon (base list))

/-- The list `settled` makes of a response. -/
def served (resp : SearchResponse) : ServedList where
  requestId := resp.requestId
  query := resp.query
  experimentId := resp.experiment.map (·.id)
  variant := resp.experiment.map (·.variant)
  clicked := false
  resultCount := resp.results.length

/-- `isSettled`. -/
def isSettled (s : Tracker) (requestId : String) : Bool :=
  s.current.any (·.requestId = requestId)

def settled (s : Tracker) (resp : SearchResponse) : Tracker :=
  if s.isSettled resp.requestId then s
  else
    { s.closeCurrent with current := some (served resp) }.logs (.query (base (served resp)))

/-- The key of `impressed`. -/
def impressionKey (requestId : String) (docId : Int) : String :=
  requestId ++ ":" ++ toString docId

def impression (s : Tracker) (requestId : String) (r : SearchResult) : Tracker :=
  match s.current with
  | none => s
  | some list =>
      if list.requestId ≠ requestId then s
      else
        let key := impressionKey requestId r.docId
        if key ∈ s.impressed then s
        else
          { s with impressed := key :: s.impressed }.logs
            (.impression (base list) r.docId r.rank r.team)

def click (s : Tracker) (requestId : String) (r : SearchResult) : Tracker :=
  match s.current with
  | none => s
  | some list =>
      if list.requestId ≠ requestId then s
      else
        -- a second click ends the first dwell
        let s := s.endDwell clock
        let list := { list with clicked := true }
        let s := { s with current := some list }.logs (.click (base list) r.docId r.rank r.team)
        { s with
          dwell := some ⟨list, r.docId, r.rank, r.team, clock s.readings, false⟩
          readings := s.readings + 1 }

def returnedToResults (s : Tracker) : Tracker := s.endDwell clock

def pageHidden (s : Tracker) (unloading : Bool) : Tracker :=
  if unloading then { (s.endDwell clock).closeCurrent with current := none }
  else { s with dwell := s.dwell.map fun d => { d with sawHidden := true } }

def pageVisible (s : Tracker) (onResultsView : Bool) : Tracker :=
  if s.dwell.any (·.sawHidden) && onResultsView then s.endDwell clock else s

end Methods

end Tracker

/-- A call of one of the tracker's methods. -/
inductive Call
  | settled (resp : SearchResponse)
  | impression (requestId : String) (r : SearchResult)
  | click (requestId : String) (r : SearchResult)
  | returnedToResults
  | pageHidden (unloading : Bool)
  | pageVisible (onResultsView : Bool)
  deriving DecidableEq, Repr

namespace Tracker

variable (clock : Nat → Rat)

def call (s : Tracker) : Call → Tracker
  | .settled resp => s.settled resp
  | .impression requestId r => s.impression requestId r
  | .click requestId r => s.click clock requestId r
  | .returnedToResults => s.returnedToResults clock
  | .pageHidden unloading => s.pageHidden clock unloading
  | .pageVisible onResultsView => s.pageVisible clock onResultsView

/-- The tracker as a system: every call is always possible. -/
def system : System Tracker Call where
  start := init
  step s c := some (s.call clock c)

/-- The state after a sequence of calls. -/
def run (calls : List Call) : Tracker := calls.foldl (call clock) init

end Tracker

end HybridSearch.Web
