/-
# Web.InteractionLog -- the click log is well formed

`WellFormed` says what a click model may rely on: one query per list, a click or
an abandonment but never both, one impression per result, nothing before its
query, and every click answered by its dwell (`Answered`).

`Inv` is what the tracker keeps of it while it runs: the current list is not yet
closed, every other list of the log is, and the click of an open dwell is the one
click not answered.  Every call keeps `Inv` (`call_inv`), except that settling a
list again after another one logs its query a second time.

* `log_wellFormed_iff`: the log of a closed session is well formed exactly when
  no list was settled again.
-/
import HybridSearch.Web.Interactions
import Mathlib

namespace HybridSearch.Web

open HybridSearch.Theory

set_option autoImplicit false

/-! ## Logs -/

inductive Kind
  | query
  | impression
  | click
  | dwell
  | abandon
  deriving DecidableEq, Repr

namespace Event

def kind : Event → Kind
  | .query _ => .query
  | .impression .. => .impression
  | .click .. => .click
  | .dwell .. => .dwell
  | .abandon _ => .abandon

def requestId : Event → String
  | .query list | .impression list .. | .click list .. | .dwell list .. | .abandon list =>
      list.requestId

def docId : Event → Option Int
  | .impression _ docId .. | .click _ docId .. | .dwell _ docId .. => some docId
  | .query _ | .abandon _ => none

end Event

/-- How many events of one kind a list has. -/
def count (kind : Kind) (requestId : String) (log : List Event) : Nat :=
  log.countP fun e => e.kind = kind ∧ e.requestId = requestId

/-- How many impressions a result has. -/
def impressions (requestId : String) (docId : Int) (log : List Event) : Nat :=
  log.countP fun e => e.kind = .impression ∧ e.requestId = requestId ∧ e.docId = some docId

/-- The dwells of a click's result before the next click. -/
def dwellsOf (click : Event) (later : List Event) : Nat :=
  (later.takeWhile (·.kind ≠ .click)).countP fun e =>
    e.kind = .dwell ∧ e.requestId = click.requestId ∧ e.docId = click.docId

/-- Every click has exactly one dwell before the next click. -/
def Answered : List Event → Prop
  | [] => True
  | e :: later => (e.kind = .click → dwellsOf e later = 1) ∧ Answered later

structure WellFormed (log : List Event) : Prop where
  oneQuery : ∀ requestId, count .query requestId log ≤ 1
  clickOrAbandon : ∀ requestId,
    ¬ (0 < count .click requestId log ∧ 0 < count .abandon requestId log)
  abandoned : ∀ requestId, 0 < count .query requestId log → count .click requestId log = 0 →
    count .abandon requestId log = 1
  oneImpression : ∀ requestId docId, impressions requestId docId log ≤ 1
  afterQuery : ∀ front e, front ++ [e] <+: log → e.kind ≠ .query →
    0 < count .query e.requestId front
  answered : Answered log

section Counting

variable {kind : Kind} {requestId : String} {log : List Event} {e : Event}

theorem count_snoc : count kind requestId (log ++ [e]) =
    count kind requestId log + if e.kind = kind ∧ e.requestId = requestId then 1 else 0 := by
  simp [count, List.countP_append, List.countP_singleton]

theorem count_snoc_other (other : e.kind ≠ kind) :
    count kind requestId (log ++ [e]) = count kind requestId log := by
  rw [count_snoc, if_neg fun both => other both.1, Nat.add_zero]

theorem impressions_snoc {docId : Int} : impressions requestId docId (log ++ [e]) =
    impressions requestId docId log +
      if e.kind = .impression ∧ e.requestId = requestId ∧ e.docId = some docId then 1 else 0 := by
  simp [impressions, List.countP_append, List.countP_singleton]

theorem count_mono {log' : List Event} (front : log <+: log') :
    count kind requestId log ≤ count kind requestId log' := by
  obtain ⟨back, rfl⟩ := front
  rw [count, count, List.countP_append]
  exact Nat.le_add_right _ _

theorem count_pos (here : 0 < count kind requestId log) :
    ∃ e ∈ log, e.kind = kind ∧ e.requestId = requestId := by
  obtain ⟨e, mem, same⟩ := List.countP_pos_iff.mp here
  exact ⟨e, mem, by simpa using same⟩

/-- A list without a query has no event. -/
theorem count_eq_zero_of_noQuery
    (afterQuery : ∀ front e, front ++ [e] <+: log → e.kind ≠ .query →
      0 < count .query e.requestId front)
    (noQuery : count .query requestId log = 0) (kind : Kind) : count kind requestId log = 0 := by
  by_contra counted
  obtain ⟨e, mem, -, here⟩ := count_pos (Nat.pos_of_ne_zero counted)
  obtain ⟨front, back, rfl⟩ := List.append_of_mem mem
  have upTo : front ++ [e] <+: front ++ e :: back := ⟨back, by simp⟩
  have least : 0 < count .query requestId (front ++ [e]) := by
    by_cases isQuery : e.kind = .query
    · rw [count_snoc, if_pos ⟨isQuery, here⟩]
      exact Nat.succ_pos _
    · have before := afterQuery front e upTo isQuery
      rw [here] at before
      exact lt_of_lt_of_le before (count_mono (List.prefix_append front [e]))
  have most : count .query requestId (front ++ [e]) ≤ _ := count_mono upTo
  omega

end Counting

/-! ## Clicks and their dwells -/

section Answers

variable {log rest : List Event} {e click : Event}

theorem takeWhile_append_stop {α : Type} {p : α → Bool} {front : List α} {stop : α}
    (stops : p stop = false) (back : List α) :
    (front ++ stop :: back).takeWhile p = front.takeWhile p := by
  induction front with
  | nil => simp [stops]
  | cons a front ih =>
      rw [List.cons_append, List.takeWhile_cons, List.takeWhile_cons, ih]

/-- What follows the next click does not matter. -/
theorem answered_append_click (answered : Answered log) (isClick : click.kind = .click)
    (last : Answered (click :: rest)) : Answered (log ++ click :: rest) := by
  induction log with
  | nil => exact last
  | cons e log ih =>
      have upToClick : dwellsOf e (log ++ click :: rest) = dwellsOf e log := by
        rw [dwellsOf, takeWhile_append_stop (by simp [isClick]), dwellsOf]
      exact ⟨fun here => upToClick.trans (answered.1 here), ih answered.2⟩

theorem dwellsOf_snoc_other (noDwell : e.kind ≠ .dwell) :
    dwellsOf click (log ++ [e]) = dwellsOf click log := by
  unfold dwellsOf
  by_cases isClick : e.kind = .click
  · rw [takeWhile_append_stop (by simp [isClick])]
  · induction log with
    | nil => simp [isClick, noDwell]
    | cons a log ih =>
        rw [List.cons_append, List.takeWhile_cons, List.takeWhile_cons]
        split_ifs with going
        · rw [List.countP_cons, List.countP_cons, ih]
        · rfl

theorem answered_snoc_other (answered : Answered log) (noClick : e.kind ≠ .click)
    (noDwell : e.kind ≠ .dwell) : Answered (log ++ [e]) := by
  induction log with
  | nil => exact ⟨fun here => absurd here noClick, trivial⟩
  | cons a log ih =>
      exact ⟨fun here => (dwellsOf_snoc_other noDwell).trans (answered.1 here), ih answered.2⟩

/-- Events other than clicks answer nothing amiss. -/
theorem answered_of_noClick (noClick : ∀ e ∈ log, e.kind ≠ .click) : Answered log := by
  induction log with
  | nil => trivial
  | cons e log ih =>
      exact ⟨fun here => absurd here (noClick e List.mem_cons_self),
        ih fun a mem => noClick a (List.mem_cons_of_mem _ mem)⟩

/-- The last click of the log is the only one without its dwell. -/
def Waiting (requestId : String) (docId : Int) (log : List Event) : Prop :=
  ∃ front click mid, log = front ++ click :: mid ∧ Answered front ∧ click.kind = .click ∧
    click.requestId = requestId ∧ click.docId = some docId ∧
    ∀ e ∈ mid, e.kind ≠ .click ∧ e.kind ≠ .dwell

variable {requestId : String} {docId : Int}

theorem waiting_snoc_click (answered : Answered log) (isClick : click.kind = .click)
    (list : click.requestId = requestId) (doc : click.docId = some docId) :
    Waiting requestId docId (log ++ [click]) :=
  ⟨log, click, [], rfl, answered, isClick, list, doc, fun _ mem => nomatch mem⟩

theorem waiting_snoc_other (waiting : Waiting requestId docId log) (noClick : e.kind ≠ .click)
    (noDwell : e.kind ≠ .dwell) : Waiting requestId docId (log ++ [e]) := by
  obtain ⟨front, click, mid, rfl, answered, isClick, list, doc, quiet⟩ := waiting
  refine ⟨front, click, mid ++ [e], by simp, answered, isClick, list, doc, fun a mem => ?_⟩
  rcases List.mem_append.mp mem with mem | mem
  · exact quiet a mem
  · rw [List.mem_singleton.mp mem]
    exact ⟨noClick, noDwell⟩

/-- The dwell of the click the log waits for answers it. -/
theorem answered_snoc_dwell (waiting : Waiting requestId docId log) (isDwell : e.kind = .dwell)
    (list : e.requestId = requestId) (doc : e.docId = some docId) : Answered (log ++ [e]) := by
  obtain ⟨front, click, mid, rfl, answered, isClick, clicked, clickedDoc, quiet⟩ := waiting
  have noClick : ∀ a ∈ mid ++ [e], a.kind ≠ .click := by
    intro a mem
    rcases List.mem_append.mp mem with mem | mem
    · exact (quiet a mem).1
    · rw [List.mem_singleton.mp mem, isDwell]
      decide
  rw [List.append_assoc, List.cons_append]
  refine answered_append_click answered isClick ⟨fun _ => ?_, answered_of_noClick noClick⟩
  have whole : (mid ++ [e]).takeWhile (·.kind ≠ .click) = mid ++ [e] :=
    List.takeWhile_eq_self_iff.mpr fun a mem => by simpa using noClick a mem
  have noDwell : mid.countP (fun a => a.kind = .dwell ∧ a.requestId = click.requestId ∧
      a.docId = click.docId) = 0 :=
    List.countP_eq_zero.mpr fun a mem => by simp [(quiet a mem).2]
  rw [dwellsOf, whole, List.countP_append, noDwell, List.countP_singleton]
  simp [isDwell, list, doc, clicked, clickedDoc]

theorem mem_click_of_waiting (waiting : Waiting requestId docId log) :
    ∃ front click, front ++ [click] <+: log ∧ click.kind = .click ∧ click.requestId = requestId := by
  obtain ⟨front, click, mid, rfl, -, isClick, list, -, -⟩ := waiting
  exact ⟨front, click, ⟨mid, by simp⟩, isClick, list⟩

end Answers

/-! ## What the log keeps of its lists -/

/-- A list that is no longer current has been clicked or abandoned, not both. -/
def Closed (requestId : String) (log : List Event) : Prop :=
  (0 < count .click requestId log ∧ count .abandon requestId log = 0) ∨
    (count .click requestId log = 0 ∧ count .abandon requestId log = 1)

structure Kept (current : Option ServedList) (log : List Event) : Prop where
  oneQuery : ∀ requestId, count .query requestId log ≤ 1
  served : ∀ list, current = some list → 0 < count .query list.requestId log ∧
    count .abandon list.requestId log = 0 ∧
    (list.clicked ↔ 0 < count .click list.requestId log)
  closed : ∀ requestId, (∀ list, current = some list → list.requestId ≠ requestId) →
    0 < count .query requestId log → Closed requestId log
  afterQuery : ∀ front e, front ++ [e] <+: log → e.kind ≠ .query →
    0 < count .query e.requestId front

namespace Kept

variable {current : Option ServedList} {list : ServedList} {log : List Event} {e : Event}

/-- An event of a list that has its query. -/
theorem afterQuery_snoc (kept : Kept current log)
    (queried : e.kind ≠ .query → 0 < count .query e.requestId log) :
    ∀ front a, front ++ [a] <+: log ++ [e] → a.kind ≠ .query →
      0 < count .query a.requestId front := by
  intro front a upTo notQuery
  rcases List.prefix_concat_iff.mp upTo with whole | inside
  · obtain ⟨rfl, last⟩ := List.append_inj' whole rfl
    cases last
    exact queried notQuery
  · exact kept.afterQuery front a inside notQuery

/-- Impressions and dwells leave the lists as they are. -/
theorem other (kept : Kept current log) (isOther : e.kind = .impression ∨ e.kind = .dwell)
    (queried : 0 < count .query e.requestId log) : Kept current (log ++ [e]) := by
  have same : ∀ kind requestId, kind ≠ .impression → kind ≠ .dwell →
      count kind requestId (log ++ [e]) = count kind requestId log := by
    intro kind requestId notImpression notDwell
    apply count_snoc_other
    rcases isOther with isOther | isOther <;> rw [isOther]
    · exact Ne.symm notImpression
    · exact Ne.symm notDwell
  constructor
  · intro requestId
    rw [same _ _ (by decide) (by decide)]
    exact kept.oneQuery requestId
  · intro list served
    rw [same _ _ (by decide) (by decide), same _ _ (by decide) (by decide),
      same _ _ (by decide) (by decide)]
    exact kept.served list served
  · intro requestId old known
    rw [same _ _ (by decide) (by decide)] at known
    rw [Closed, same _ _ (by decide) (by decide), same _ _ (by decide) (by decide)]
    exact kept.closed requestId old known
  · exact kept.afterQuery_snoc fun _ => queried

/-- A clicked list is closed as it is. -/
theorem leave (kept : Kept (some list) log) (clicked : list.clicked = true) : Kept none log where
  oneQuery := kept.oneQuery
  served _ gone := nomatch gone
  closed requestId _ known := by
    obtain ⟨-, noAbandon, iff⟩ := kept.served list rfl
    by_cases this : list.requestId = requestId
    · rw [← this]
      exact .inl ⟨iff.mp clicked, noAbandon⟩
    · refine kept.closed requestId (fun list' same => ?_) known
      cases same
      exact this
  afterQuery := kept.afterQuery

/-- A list without a click is closed by its abandonment. -/
theorem abandon (kept : Kept (some list) log) (unclicked : list.clicked = false)
    (isAbandon : e.kind = .abandon) (here : e.requestId = list.requestId) :
    Kept none (log ++ [e]) := by
  obtain ⟨queried, noAbandon, iff⟩ := kept.served list rfl
  have noClick : count .click list.requestId log = 0 := by
    rw [unclicked] at iff
    simpa using iff
  constructor
  · intro requestId
    rw [count_snoc_other (by rw [isAbandon]; decide)]
    exact kept.oneQuery requestId
  · intro list' gone
    cases gone
  · intro requestId _ known
    rw [count_snoc_other (by rw [isAbandon]; decide)] at known
    rw [Closed, count_snoc_other (by rw [isAbandon]; decide), count_snoc, here]
    by_cases this : list.requestId = requestId
    · rw [← this, if_pos ⟨isAbandon, rfl⟩, noAbandon]
      exact .inr ⟨noClick, rfl⟩
    · rw [if_neg fun both => this both.2]
      refine kept.closed requestId (fun list' same => ?_) known
      cases same
      exact this
  · exact kept.afterQuery_snoc fun _ => by rwa [here]

/-- A new list opens with its query. -/
theorem settle (kept : Kept none log) (isNew : count .query list.requestId log = 0)
    (unclicked : list.clicked = false) (isQuery : e.kind = .query)
    (here : e.requestId = list.requestId) : Kept (some list) (log ++ [e]) := by
  have nothing := fun kind => count_eq_zero_of_noQuery kept.afterQuery isNew kind
  constructor
  · intro requestId
    rw [count_snoc, here]
    split_ifs with this
    · rw [← this.2, isNew]
    · exact kept.oneQuery requestId
  · intro list' same
    cases same
    rw [count_snoc, if_pos ⟨isQuery, here⟩, count_snoc_other (by rw [isQuery]; decide),
      count_snoc_other (by rw [isQuery]; decide), nothing .abandon, nothing .click, unclicked]
    exact ⟨Nat.succ_pos _, rfl, by simp⟩
  · intro requestId old known
    have apart : ¬ (e.kind = .query ∧ e.requestId = requestId) := fun both =>
      old list rfl (here ▸ both.2)
    rw [count_snoc, if_neg apart] at known
    rw [Closed, count_snoc_other (by rw [isQuery]; decide),
      count_snoc_other (by rw [isQuery]; decide)]
    exact kept.closed requestId (fun _ gone => nomatch gone) known
  · exact kept.afterQuery_snoc fun notQuery => absurd isQuery notQuery

/-- A click marks the current list. -/
theorem click (kept : Kept (some list) log) (isClick : e.kind = .click)
    (here : e.requestId = list.requestId) :
    Kept (some { list with clicked := true }) (log ++ [e]) := by
  obtain ⟨queried, noAbandon, -⟩ := kept.served list rfl
  constructor
  · intro requestId
    rw [count_snoc_other (by rw [isClick]; decide)]
    exact kept.oneQuery requestId
  · intro list' same
    cases same
    rw [count_snoc_other (by rw [isClick]; decide), count_snoc_other (by rw [isClick]; decide),
      count_snoc, if_pos ⟨isClick, here⟩]
    exact ⟨queried, noAbandon, iff_of_true rfl (Nat.succ_pos _)⟩
  · intro requestId old known
    have apart : ¬ (e.kind = .click ∧ e.requestId = requestId) := fun both =>
      old _ rfl (here ▸ both.2)
    rw [count_snoc_other (by rw [isClick]; decide)] at known
    rw [Closed, count_snoc, if_neg apart, count_snoc_other (by rw [isClick]; decide)]
    refine kept.closed requestId (fun list' same => ?_) known
    cases same
    exact old { list with clicked := true } rfl
  · exact kept.afterQuery_snoc fun _ => by rwa [here]

/-- The click of a waiting log had its query. -/
theorem queried_of_waiting {requestId : String} {docId : Int} (kept : Kept current log)
    (waiting : Waiting requestId docId log) : 0 < count .query requestId log := by
  obtain ⟨front, click, upTo, isClick, list⟩ := mem_click_of_waiting waiting
  have before := kept.afterQuery front click upTo (by rw [isClick]; decide)
  rw [list] at before
  exact lt_of_lt_of_le before
    (count_mono ((List.prefix_append front [click]).trans upTo))

end Kept

/-- The clicks of the log up to the open dwell. -/
def Dwelling : Option OpenDwell → List Event → Prop
  | none, log => Answered log
  | some d, log => Waiting d.list.requestId d.docId log

theorem dwelling_snoc_other {d : Option OpenDwell} {log : List Event} {e : Event}
    (dwelling : Dwelling d log) (noClick : e.kind ≠ .click) (noDwell : e.kind ≠ .dwell) :
    Dwelling d (log ++ [e]) := by
  cases d with
  | none => exact answered_snoc_other dwelling noClick noDwell
  | some d => exact waiting_snoc_other dwelling noClick noDwell

/-! ## What the tracker keeps -/

namespace Tracker

structure Inv (s : Tracker) : Prop where
  lists : Kept s.current s.log
  impressed : ∀ requestId docId, impressions requestId docId s.log ≤
    if impressionKey requestId docId ∈ s.impressed then 1 else 0
  dwell : Dwelling s.dwell s.log

theorem init_inv : Inv init where
  lists :=
    { oneQuery := fun _ => Nat.zero_le 1
      served := fun _ gone => nomatch gone
      closed := fun _ _ known => absurd known (lt_irrefl 0)
      afterQuery := fun front e upTo _ => by simp [init] at upTo }
  impressed _ _ := Nat.zero_le _
  dwell := trivial

section Steps

variable {s : Tracker} (clock : Nat → Rat)

theorem impressions_other {log : List Event} {e : Event} {impressed : List String}
    (bounded : ∀ requestId docId, impressions requestId docId log ≤
      if impressionKey requestId docId ∈ impressed then 1 else 0) (isOther : e.kind ≠ .impression)
    (requestId : String) (docId : Int) : impressions requestId docId (log ++ [e]) ≤
      if impressionKey requestId docId ∈ impressed then 1 else 0 := by
  rw [impressions_snoc, if_neg fun same => isOther same.1]
  exact bounded requestId docId

theorem endDwell_none (closed : s.dwell = none) : s.endDwell clock = s := by
  rw [endDwell, closed]

theorem endDwell_some {d : OpenDwell} (opened : s.dwell = some d) :
    s.endDwell clock = { s with dwell := none, readings := s.readings + 1 }.logs
      (.dwell (base d.list) d.docId d.rank (wholeMs (clock s.readings - d.startedAt)) d.team) := by
  rw [endDwell, opened]

theorem endDwell_current : (s.endDwell clock).current = s.current := by
  cases held : s.dwell with
  | none => rw [endDwell_none clock held]
  | some d => rw [endDwell_some clock held]; rfl

theorem endDwell_dwell : (s.endDwell clock).dwell = none := by
  cases held : s.dwell with
  | none => rw [endDwell_none clock held, held]
  | some d => rw [endDwell_some clock held]; rfl

theorem endDwell_inv (inv : Inv s) : Inv (s.endDwell clock) := by
  cases opened : s.dwell with
  | none => rwa [endDwell_none clock opened]
  | some d =>
      have waiting : Waiting d.list.requestId d.docId s.log := by
        have := inv.dwell
        rwa [opened] at this
      rw [endDwell_some clock opened]
      exact ⟨inv.lists.other (.inr rfl) (inv.lists.queried_of_waiting waiting),
        impressions_other inv.impressed nofun, answered_snoc_dwell waiting rfl rfl rfl⟩

/-- Closing the current list, which is then replaced. -/
theorem closeCurrent_inv (inv : Inv s) : Inv { s.closeCurrent with current := none } := by
  cases held : s.current with
  | none =>
      have kept := inv.lists
      rw [held] at kept
      rw [closeCurrent, held]
      exact ⟨kept, inv.impressed, inv.dwell⟩
  | some list =>
      have kept := inv.lists
      rw [held] at kept
      rw [closeCurrent, held]
      dsimp only
      split_ifs with clicked
      · exact ⟨kept.leave clicked, inv.impressed, inv.dwell⟩
      · exact ⟨kept.abandon (Bool.eq_false_iff.mpr clicked) rfl rfl,
          impressions_other inv.impressed nofun, dwelling_snoc_other inv.dwell nofun nofun⟩

theorem count_query_closeCurrent (requestId : String) :
    count .query requestId s.closeCurrent.log = count .query requestId s.log := by
  rw [closeCurrent]
  split
  · rfl
  · split_ifs
    · rfl
    · exact count_snoc_other nofun

/-- Settling a list whose query is not in the log yet, or the current one. -/
theorem settled_inv (inv : Inv s) {resp : SearchResponse}
    (fresh : s.isSettled resp.requestId = true ∨ count .query resp.requestId s.log = 0) :
    Inv (s.settled resp) := by
  rw [settled]
  split_ifs with current
  · exact inv
  · have closed := closeCurrent_inv inv
    have isNew : count .query resp.requestId s.closeCurrent.log = 0 := by
      rw [count_query_closeCurrent]
      exact fresh.resolve_left current
    have kept : Kept none s.closeCurrent.log := closed.lists
    have opened : Kept (some (served resp)) (s.closeCurrent.log ++ [.query (base (served resp))]) :=
      kept.settle isNew rfl rfl rfl
    exact ⟨opened,
      impressions_other closed.impressed nofun, dwelling_snoc_other closed.dwell nofun nofun⟩

theorem impression_inv (inv : Inv s) (requestId : String) (r : SearchResult) :
    Inv (s.impression requestId r) := by
  rw [impression]
  split
  · exact inv
  · rename_i list current
    dsimp only
    split_ifs with here seen
    · exact inv
    · exact inv
    · have queried := (inv.lists.served list current).1
      refine ⟨inv.lists.other (.inl rfl) queried, fun requestId' docId' => ?_,
        dwelling_snoc_other inv.dwell nofun nofun⟩
      have before := inv.impressed requestId' docId'
      rw [logs, impressions_snoc]
      dsimp only
      by_cases this : requestId' = requestId ∧ docId' = r.docId
      · obtain ⟨rfl, rfl⟩ := this
        rw [if_neg seen] at before
        rw [if_pos List.mem_cons_self]
        split_ifs <;> omega
      · have other : ¬ (list.requestId = requestId' ∧ some r.docId = some docId') := by
          rw [not_not.mp here]
          exact fun same => this ⟨same.1.symm, (Option.some.inj same.2).symm⟩
        rw [if_neg fun same => other same.2]
        refine le_trans before ?_
        split_ifs with old new
        · exact le_rfl
        · exact absurd (List.mem_cons_of_mem _ old) new
        · exact Nat.zero_le _
        · exact le_rfl

theorem click_inv (inv : Inv s) (requestId : String) (r : SearchResult) :
    Inv (s.click clock requestId r) := by
  rw [click]
  split
  · exact inv
  · rename_i list current
    split_ifs with here
    · exact inv
    · have ended := endDwell_inv clock inv
      have kept := ended.lists
      have answered := ended.dwell
      rw [endDwell_current, current] at kept
      rw [endDwell_dwell] at answered
      exact ⟨kept.click rfl rfl, impressions_other ended.impressed nofun,
        waiting_snoc_click answered rfl rfl rfl⟩

theorem pageHidden_inv (inv : Inv s) (unloading : Bool) : Inv (s.pageHidden clock unloading) := by
  rw [pageHidden]
  split_ifs
  · exact closeCurrent_inv (endDwell_inv clock inv)
  · refine ⟨inv.lists, inv.impressed, ?_⟩
    have dwelling := inv.dwell
    cases held : s.dwell with
    | none => rwa [held] at dwelling
    | some d => rwa [held] at dwelling

theorem pageVisible_inv (inv : Inv s) (onResultsView : Bool) :
    Inv (s.pageVisible clock onResultsView) := by
  rw [pageVisible]
  split_ifs
  · exact endDwell_inv clock inv
  · exact inv

end Steps

/-- The call settles no list whose query is already in the log, the current one
apart. -/
def Fresh (s : Tracker) : Call → Prop
  | .settled resp => s.isSettled resp.requestId = true ∨ count .query resp.requestId s.log = 0
  | _ => True

section Runs

variable {s : Tracker} (clock : Nat → Rat)

theorem call_inv (inv : Inv s) {c : Call} (fresh : s.Fresh c) : Inv (s.call clock c) := by
  cases c with
  | settled resp => exact settled_inv inv fresh
  | impression requestId r => exact impression_inv inv requestId r
  | click requestId r => exact click_inv clock inv requestId r
  | returnedToResults => exact endDwell_inv clock inv
  | pageHidden unloading => exact pageHidden_inv clock inv unloading
  | pageVisible onResultsView => exact pageVisible_inv clock inv onResultsView

/-- **A session that is closed properly**: nothing is current and no dwell is open. -/
theorem wellFormed_of_inv (inv : Inv s) (closed : s.current = none) (ended : s.dwell = none) :
    WellFormed s.log := by
  have kept := inv.lists
  have answered := inv.dwell
  rw [closed] at kept
  rw [ended] at answered
  have old : ∀ requestId list, (none : Option ServedList) = some list →
      list.requestId ≠ requestId := fun _ _ gone => nomatch gone
  constructor
  · exact kept.oneQuery
  · intro requestId both
    have known : 0 < count .query requestId s.log := by
      by_contra noQuery
      have := count_eq_zero_of_noQuery kept.afterQuery (Nat.eq_zero_of_not_pos noQuery) .click
      omega
    rcases kept.closed requestId (old requestId) known with ⟨-, zero⟩ | ⟨zero, -⟩ <;> omega
  · intro requestId known noClick
    rcases kept.closed requestId (old requestId) known with ⟨clicks, -⟩ | ⟨-, one⟩
    · omega
    · exact one
  · intro requestId docId
    have := inv.impressed requestId docId
    split_ifs at this <;> omega
  · exact kept.afterQuery
  · exact answered

theorem exec_system (calls : List Call) (s : Tracker) :
    (system clock).exec s calls = some (calls.foldl (call clock) s) := by
  induction calls generalizing s with
  | nil => rfl
  | cons c calls ih =>
      rw [System.exec_cons]
      exact ih (s.call clock c)

theorem run_inv {calls : List Call} (fresh : (system clock).StepsMeet Fresh init calls) :
    Inv (run clock calls) := by
  refine (system clock).run_induction_of_stepsMeet init_inv ?_ (exec_system clock calls init) fresh
  intro s c t inv freshCall stepped
  cases stepped
  exact call_inv clock inv freshCall

/-! ## The log only grows -/

theorem log_endDwell : s.log <+: (s.endDwell clock).log := by
  cases held : s.dwell with
  | none => rw [endDwell_none clock held]
  | some d => rw [endDwell_some clock held]; exact List.prefix_append _ _

theorem log_closeCurrent : s.log <+: s.closeCurrent.log := by
  rw [closeCurrent]
  split
  · exact List.prefix_rfl
  · split_ifs
    · exact List.prefix_rfl
    · exact List.prefix_append _ _

theorem log_call (s : Tracker) (c : Call) : s.log <+: (s.call clock c).log := by
  cases c with
  | settled resp =>
      rw [call, settled]
      split_ifs
      · exact List.prefix_rfl
      · exact log_closeCurrent.trans (List.prefix_append _ _)
  | impression requestId r =>
      rw [call, impression]
      split
      · exact List.prefix_rfl
      · dsimp only
        split_ifs
        · exact List.prefix_rfl
        · exact List.prefix_rfl
        · exact List.prefix_append _ _
  | click requestId r =>
      rw [call, click]
      split
      · exact List.prefix_rfl
      · split_ifs
        · exact List.prefix_rfl
        · exact (log_endDwell clock).trans (List.prefix_append _ _)
  | returnedToResults => exact log_endDwell clock
  | pageHidden unloading =>
      rw [call, pageHidden]
      split_ifs
      · exact (log_endDwell clock).trans log_closeCurrent
      · exact List.prefix_rfl
  | pageVisible onResultsView =>
      rw [call, pageVisible]
      split_ifs
      · exact log_endDwell clock
      · exact List.prefix_rfl

theorem log_calls (calls : List Call) (s : Tracker) :
    s.log <+: (calls.foldl (call clock) s).log := by
  induction calls generalizing s with
  | nil => exact List.prefix_rfl
  | cons c calls ih => exact (log_call clock s c).trans (ih (s.call clock c))

/-- Settling a list again logs its query again. -/
theorem fresh_of_oneQuery {c : Call}
    (oneQuery : ∀ requestId, count .query requestId (s.call clock c).log ≤ 1) : s.Fresh c := by
  cases c with
  | settled resp =>
      by_contra stale
      obtain ⟨notCurrent, known⟩ := not_or.mp stale
      have one := oneQuery resp.requestId
      rw [call, settled, if_neg notCurrent, logs, count_snoc, if_pos ⟨rfl, rfl⟩,
        count_query_closeCurrent] at one
      omega
  | _ => trivial

theorem stepsMeet_of_oneQuery {calls : List Call}
    (oneQuery : ∀ requestId, count .query requestId (calls.foldl (call clock) s).log ≤ 1) :
    (system clock).StepsMeet Fresh s calls := by
  induction calls generalizing s with
  | nil => trivial
  | cons c calls ih =>
      refine ⟨fresh_of_oneQuery clock fun requestId => ?_, fun t stepped => ?_⟩
      · exact le_trans (count_mono (log_calls clock calls (s.call clock c)))
          (oneQuery requestId)
      · cases stepped
        exact ih oneQuery

/-- **The click log of a session that ends is well formed exactly when no list is
settled again** after another one, or after the page was left. -/
theorem log_wellFormed_iff (calls : List Call) :
    WellFormed (run clock (calls ++ [.pageHidden true])).log ↔
      (system clock).StepsMeet Fresh init calls := by
  have last : run clock (calls ++ [.pageHidden true]) =
      (run clock calls).pageHidden clock true := by
    rw [run, List.foldl_append]
    rfl
  rw [last]
  constructor
  · intro wellFormed
    apply stepsMeet_of_oneQuery
    intro requestId
    exact le_trans (count_mono (log_call clock (run clock calls) (.pageHidden true)))
      (wellFormed.oneQuery requestId)
  · intro fresh
    have inv := pageHidden_inv clock (run_inv clock fresh) true
    refine wellFormed_of_inv inv rfl ?_
    have closed : ∀ s : Tracker, s.closeCurrent.dwell = s.dwell := by
      intro s
      rw [closeCurrent]
      split
      · rfl
      · split_ifs <;> rfl
    exact (closed _).trans (endDwell_dwell clock)

/-- Two lists, and back to the first one. -/
theorem log_not_wellFormed : ¬ ∀ (clock : Nat → Rat) (calls : List Call),
    WellFormed (run clock (calls ++ [.pageHidden true])).log := by
  intro all
  have one := (all (fun _ => 0) [.settled ⟨"a", "first", [], none⟩,
    .settled ⟨"b", "second", [], none⟩, .settled ⟨"a", "first", [], none⟩]).oneQuery "a"
  exact absurd one (by decide)

end Runs

end Tracker

end HybridSearch.Web
