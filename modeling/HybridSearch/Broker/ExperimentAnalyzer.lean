/-
# Broker.ExperimentAnalyzer -- experiment counts from the event log

`analyze` joins the clicks of a log to the result pages the broker served, by
request id, and counts per variant and, for an interleaving, per outcome.  The
bootstrap metrics, the sample-ratio test with its two counts of sessions and the
provenance of the clicks are left out.

`Edit` is what may happen to a log without a new fact in it: another order, a
click twice, a forged field of a click, a click that fits nothing served.

* `all_facts`: the impressions after the join are the served records, each with
  the set of its documents that were clicked in its session;
* `counts_depend_on_facts`: no edit changes a count.
-/
import Mathlib

namespace HybridSearch.Broker.Experiments

set_option autoImplicit false

/-! ## The log -/

structure ServedResult where
  docId : Nat
  rank : Int
  team : Option String
  deriving DecidableEq, Repr

/-- The fields of a log record that a count could depend on. -/
structure LogRecord where
  kind : String
  type : Option String
  sessionId : Option String
  requestId : Option String
  docId : Option Nat
  rank : Option Int
  experimentId : Option String
  variant : Option String
  team : Option String
  results : Option (List ServedResult)
  deriving DecidableEq, Repr

inductive ExperimentKind
  | ab
  | interleave
  | aa
  deriving DecidableEq, Repr

structure ExperimentDefinition where
  id : String
  kind : ExperimentKind
  method : Option String

def ExperimentDefinition.interleaves (exp : ExperimentDefinition) : Bool :=
  decide (exp.kind = .interleave) ||
    decide (exp.kind = .aa) && (exp.method.map String.toLower == some "interleave")

/-! ## Interleaving credit -/

inductive Team
  | A
  | B
  deriving DecidableEq, Repr

structure InterleavedDoc where
  docId : Nat
  team : Team
  deriving DecidableEq, Repr

inductive InterleavingOutcome
  | winA
  | winB
  | tie
  | noClicks
  deriving DecidableEq, Repr

structure InterleavingCredit where
  clicksA : Nat
  clicksB : Nat

def InterleavingCredit.outcome (c : InterleavingCredit) : InterleavingOutcome :=
  if c.clicksA = 0 ∧ c.clicksB = 0 then .noClicks
  else if c.clicksA > c.clicksB then .winA
  else if c.clicksB > c.clicksA then .winB
  else .tie

/-- `TryAdd`: an insertion-ordered dictionary keeps the first value of a key. -/
def tryAdd {κ α : Type} [DecidableEq κ] (dict : List (κ × α)) (key : κ) (value : α) : List (κ × α) :=
  if (dict.lookup key).isSome then dict else dict ++ [(key, value)]

def teamOf (shown : List InterleavedDoc) : List (Nat × Team) :=
  shown.foldl (fun dict d => tryAdd dict d.docId d.team) []

/-- `InterleavingAttribution.Credit`. -/
def credit (shown : List InterleavedDoc) (clickedDocIds : List Nat) : InterleavingCredit :=
  clickedDocIds.dedup.foldl (fun c id =>
    match (teamOf shown).lookup id with
    | none => c
    | some .A => ⟨c.clicksA + 1, c.clicksB⟩
    | some .B => ⟨c.clicksA, c.clicksB + 1⟩) ⟨0, 0⟩

/-! ## The join -/

structure Impression where
  served : LogRecord
  clickedDocs : List Nat
  bestClickRank : Option Int
  clickAt1 : Bool
  deriving DecidableEq, Repr

abbrev Impressions := List (String × Impression)

/-- The first loop: impressions by request id, and the clicks in log order. -/
def collect (exp : ExperimentDefinition) (s : Impressions × List LogRecord) (r : LogRecord) :
    Impressions × List LogRecord :=
  match r.requestId with
  | none => s
  | some requestId =>
      if r.kind = "served" ∧ r.experimentId = some exp.id ∧ r.sessionId.isSome then
        (tryAdd s.1 requestId ⟨r, [], none, false⟩, s.2)
      else if r.kind = "event" ∧ r.type = some "click" ∧ r.docId.isSome then (s.1, s.2 ++ [r])
      else s

/-- A click on a shown document. -/
def Impression.click (imp : Impression) (docId : Nat) (shown : ServedResult) : Impression :=
  if docId ∈ imp.clickedDocs then imp
  else
    { imp with
      clickedDocs := imp.clickedDocs ++ [docId]
      bestClickRank := some ((imp.bestClickRank.map (min · shown.rank)).getD shown.rank)
      clickAt1 := imp.clickAt1 || decide (shown.rank = 1) }

def setKey (imps : Impressions) (key : String) (imp : Impression) : Impressions :=
  imps.map fun entry => if entry.1 = key then (key, imp) else entry

/-- The second loop: one click joined to its impression, and the number attributed. -/
def joinClick (s : Impressions × Nat) (c : LogRecord) : Impressions × Nat :=
  match c.requestId, c.docId with
  | some requestId, some docId =>
      match s.1.lookup requestId with
      | none => s
      | some imp =>
          if imp.served.sessionId ≠ c.sessionId then s
          else
            match (imp.served.results.getD []).find? fun x => x.docId = docId with
            | none => s
            | some shown => (setKey s.1 requestId (imp.click docId shown), s.2 + 1)
  | _, _ => s

/-! ## The counts -/

structure VariantResult where
  name : String
  sessions : Nat
  queries : Nat
  clicks : Nat
  deriving DecidableEq, Repr

def variantMetrics (name : String) (imps : List Impression) : VariantResult where
  name := name
  sessions := (imps.map fun i => i.served.sessionId).dedup.length
  queries := imps.length
  clicks := (imps.map fun i => i.clickedDocs.length).sum

structure InterleavingResult where
  wins : Nat
  losses : Nat
  ties : Nat
  noClicks : Nat
  deriving DecidableEq, Repr

/-- The documents of a page that a team contributed. -/
def shownOf (served : LogRecord) : List InterleavedDoc :=
  (served.results.getD []).filterMap fun r =>
    if r.team = some "A" then some ⟨r.docId, .A⟩
    else if r.team = some "B" then some ⟨r.docId, .B⟩
    else none

def InterleavingResult.tally (res : InterleavingResult) : InterleavingOutcome → InterleavingResult
  | .winB => { res with wins := res.wins + 1 }
  | .winA => { res with losses := res.losses + 1 }
  | .tie => { res with ties := res.ties + 1 }
  | .noClicks => { res with noClicks := res.noClicks + 1 }

def Impression.outcome (imp : Impression) : InterleavingOutcome :=
  (credit (shownOf imp.served) imp.clickedDocs).outcome

def analyzeInterleaving (all : List Impression) : InterleavingResult :=
  all.foldl (fun res imp => res.tally imp.outcome) ⟨0, 0, 0, 0⟩

structure ExperimentResults where
  queries : Nat
  clickEvents : Nat
  variants : List VariantResult
  interleaving : Option InterleavingResult
  deriving DecidableEq, Repr

/-- The impressions of a log, with their clicks, and the number of clicks attributed. -/
def impressions (exp : ExperimentDefinition) (records : List LogRecord) : Impressions × Nat :=
  let collected := records.foldl (collect exp) ([], [])
  collected.2.foldl joinClick (collected.1, 0)

def analyze (exp : ExperimentDefinition) (records : List LogRecord) : ExperimentResults :=
  let joined := impressions exp records
  let all := joined.1.map Prod.snd
  if exp.interleaves then
    { queries := all.length
      clickEvents := joined.2
      variants := [variantMetrics "interleaved" all]
      interleaving := some (analyzeInterleaving all) }
  else
    { queries := all.length
      clickEvents := joined.2
      variants :=
        [variantMetrics "control" (all.filter fun i => i.served.variant = some "control"),
          variantMetrics "treatment" (all.filter fun i => i.served.variant = some "treatment")]
      interleaving := none }

/-! ## What a log says -/

/-- A result page of the experiment. -/
def IsServed (exp : ExperimentDefinition) (r : LogRecord) : Prop :=
  r.kind = "served" ∧ r.experimentId = some exp.id ∧ r.requestId.isSome ∧ r.sessionId.isSome

def IsClick (r : LogRecord) : Prop := r.kind = "event" ∧ r.type = some "click"

instance (exp : ExperimentDefinition) : DecidablePred (IsServed exp) := fun _ =>
  inferInstanceAs (Decidable (_ ∧ _))

instance : DecidablePred IsClick := fun _ => inferInstanceAs (Decidable (_ ∧ _))

def servedOf (exp : ExperimentDefinition) (records : List LogRecord) : List LogRecord :=
  records.filter fun r => IsServed exp r

/-- The served records of the experiment have pairwise distinct request ids. -/
def DistinctRequests (exp : ExperimentDefinition) (records : List LogRecord) : Prop :=
  ((servedOf exp records).map LogRecord.requestId).Nodup

instance (exp : ExperimentDefinition) (records : List LogRecord) :
    Decidable (DistinctRequests exp records) :=
  inferInstanceAs (Decidable (List.Nodup _))

/-- `c` is a click on document `d` of the page `served`, in its session. -/
def Hits (served c : LogRecord) (d : Nat) : Prop :=
  IsClick c ∧ c.requestId = served.requestId ∧ c.sessionId = served.sessionId ∧ c.docId = some d ∧
    ∃ r ∈ served.results.getD [], r.docId = d

/-- The click fits a page of the log. -/
def Attributable (exp : ExperimentDefinition) (records : List LogRecord) (c : LogRecord) : Prop :=
  ∃ served ∈ servedOf exp records, ∃ d, Hits served c d

/-- What may happen to a log without a new fact in it. -/
inductive Edit (exp : ExperimentDefinition) : List LogRecord → List LogRecord → Prop
  | reorder {log log' : List LogRecord} (perm : log.Perm log') : Edit exp log log'
  | duplicate {log : List LogRecord} {c : LogRecord} (mem : c ∈ log) (click : IsClick c) :
      Edit exp log (c :: log)
  | forge (front back : List LogRecord) (c : LogRecord) (rank : Option Int)
      (team variant experimentId : Option String) (click : IsClick c) :
      Edit exp (front ++ c :: back)
        (front ++ { c with rank := rank, team := team, variant := variant,
                           experimentId := experimentId } :: back)
  /-- A click from another session, for an unknown request or for a document not served. -/
  | stray {log : List LogRecord} {c : LogRecord} (click : IsClick c)
      (fits : ¬ Attributable exp log c) : Edit exp log (c :: log)

/-! ## Collecting -/

/-- The dictionary entry of a page nobody has clicked on. -/
def entryOf (served : LogRecord) : String × Impression :=
  (served.requestId.getD "", ⟨served, [], none, false⟩)

/-- The clicks the first loop keeps. -/
def Joinable (r : LogRecord) : Prop := IsClick r ∧ r.requestId.isSome ∧ r.docId.isSome

instance : DecidablePred Joinable := fun _ => inferInstanceAs (Decidable (_ ∧ _))

theorem lookup_isSome_iff {κ α : Type} [DecidableEq κ] {dict : List (κ × α)} {key : κ} :
    (dict.lookup key).isSome ↔ key ∈ dict.map Prod.fst := by
  induction dict with
  | nil => simp
  | cons entry dict ih =>
      rw [List.lookup_cons, List.map_cons, List.mem_cons]
      by_cases same : key = entry.1
      · simp [same]
      · rw [beq_false_of_ne same]
        simp only [ih, same, false_or]

theorem not_click_of_served {exp : ExperimentDefinition} {r : LogRecord} (served : IsServed exp r) :
    ¬ IsClick r := by
  intro click
  have := served.1.symm.trans click.1
  revert this
  decide

theorem collect_foldl {exp : ExperimentDefinition} (records : List LogRecord) (dict : Impressions)
    (clicks : List LogRecord)
    (nodup : (dict.map Prod.fst ++ (servedOf exp records).map fun r => (entryOf r).1).Nodup) :
    records.foldl (collect exp) (dict, clicks) =
      (dict ++ (servedOf exp records).map entryOf,
        clicks ++ records.filter fun r => Joinable r) := by
  induction records generalizing dict clicks with
  | nil => simp [servedOf]
  | cons r records ih =>
      rw [List.foldl_cons]
      by_cases served : IsServed exp r
      · obtain ⟨requestId, known⟩ := Option.isSome_iff_exists.mp served.2.2.1
        have kept : servedOf exp (r :: records) = r :: servedOf exp records := by
          rw [servedOf, List.filter_cons_of_pos (by simpa using served)]
          rfl
        have skipped : (r :: records).filter (fun r => Joinable r) =
            records.filter fun r => Joinable r :=
          List.filter_cons_of_neg (by
            simpa using fun joins : Joinable r => not_click_of_served served joins.1)
        rw [kept, List.map_cons] at nodup
        have fresh : ¬ (dict.lookup requestId).isSome := by
          rw [lookup_isSome_iff]
          intro mem
          have apart := (List.nodup_append.mp nodup).2.2 _ mem _ List.mem_cons_self
          exact apart (by rw [entryOf, known]; rfl)
        have first : collect exp (dict, clicks) r = (dict ++ [entryOf r], clicks) := by
          have cond : r.kind = "served" ∧ r.experimentId = some exp.id ∧ r.sessionId.isSome :=
            ⟨served.1, served.2.1, served.2.2.2⟩
          simp only [collect, known, if_pos cond, tryAdd, if_neg fresh, entryOf, Option.getD_some]
        rw [first, ih _ _ (by simpa using nodup), kept, skipped, List.map_cons, List.append_assoc,
          List.singleton_append]
      · have kept : servedOf exp (r :: records) = servedOf exp records := by
          rw [servedOf, List.filter_cons_of_neg (by simpa using served)]
          rfl
        rw [kept] at nodup ⊢
        by_cases joins : Joinable r
        · obtain ⟨requestId, known⟩ := Option.isSome_iff_exists.mp joins.2.1
          have first : collect exp (dict, clicks) r = (dict, clicks ++ [r]) := by
            have notServed : ¬ (r.kind = "served" ∧ r.experimentId = some exp.id ∧
                r.sessionId.isSome) := fun cond =>
              served ⟨cond.1, cond.2.1, joins.2.1, cond.2.2⟩
            have cond : r.kind = "event" ∧ r.type = some "click" ∧ r.docId.isSome :=
              ⟨joins.1.1, joins.1.2, joins.2.2⟩
            simp only [collect, known, if_neg notServed, if_pos cond]
          rw [first, ih _ _ nodup, List.filter_cons_of_pos (by simpa using joins), List.append_assoc,
            List.singleton_append]
        · have first : collect exp (dict, clicks) r = (dict, clicks) := by
            cases known : r.requestId with
            | none => simp only [collect, known]
            | some requestId =>
                have notServed : ¬ (r.kind = "served" ∧ r.experimentId = some exp.id ∧
                    r.sessionId.isSome) := fun cond =>
                  served ⟨cond.1, cond.2.1, by rw [known]; rfl, cond.2.2⟩
                have cond : ¬ (r.kind = "event" ∧ r.type = some "click" ∧ r.docId.isSome) :=
                  fun cond => joins ⟨⟨cond.1, cond.2.1⟩, by rw [known]; rfl, cond.2.2⟩
                simp only [collect, known, if_neg notServed, if_neg cond]
          rw [first, ih _ _ nodup, List.filter_cons_of_neg (by simpa using joins)]

/-! ## Joining -/

/-- The dictionary after the clicks `cs`: the pages served, and on each the documents `cs` hit. -/
structure Joined (pages : List LogRecord) (cs : List LogRecord) (imps : Impressions) : Prop where
  served : imps.map (fun entry => (entry.1, entry.2.served)) =
    pages.map fun page => ((entryOf page).1, page)
  once : ∀ entry ∈ imps, entry.2.clickedDocs.Nodup
  clicked : ∀ entry ∈ imps, ∀ d,
    d ∈ entry.2.clickedDocs ↔ ∃ c ∈ cs, Hits entry.2.served c d

theorem joined_start (pages : List LogRecord) : Joined pages [] (pages.map entryOf) where
  served := by
    rw [List.map_map]
    rfl
  once := by
    intro entry mem
    obtain ⟨page, -, rfl⟩ := List.mem_map.mp mem
    exact List.nodup_nil
  clicked := by
    intro entry mem d
    obtain ⟨page, -, rfl⟩ := List.mem_map.mp mem
    simp [entryOf]

section Join

variable {pages cs : List LogRecord} {imps : Impressions}

/-- Each entry stands under the request id of its page. -/
theorem Joined.key (joined : Joined pages cs imps)
    (known : ∀ page ∈ pages, page.requestId.isSome) {entry : String × Impression}
    (mem : entry ∈ imps) : entry.2.served.requestId = some entry.1 := by
  have mem' : (entry.1, entry.2.served) ∈ imps.map fun entry => (entry.1, entry.2.served) :=
    List.mem_map_of_mem mem
  rw [joined.served] at mem'
  obtain ⟨page, inPages, same⟩ := List.mem_map.mp mem'
  obtain ⟨requestId, page_eq⟩ := Option.isSome_iff_exists.mp (known page inPages)
  simp only [Prod.mk.injEq] at same
  rw [← same.2, ← same.1, entryOf, page_eq]
  rfl

theorem Joined.keys (joined : Joined pages cs imps) :
    imps.map Prod.fst = pages.map fun page => (entryOf page).1 := by
  have keys := congrArg (List.map Prod.fst) joined.served
  simpa [List.map_map, Function.comp_def] using keys

/-- A click that hits no page changes nothing. -/
theorem Joined.miss {c : LogRecord} (joined : Joined pages cs imps)
    (misses : ∀ entry ∈ imps, ∀ d, ¬ Hits entry.2.served c d) : Joined pages (cs ++ [c]) imps where
  served := joined.served
  once := joined.once
  clicked := by
    intro entry mem d
    rw [joined.clicked entry mem d]
    constructor
    · rintro ⟨c', inCs, hits⟩
      exact ⟨c', List.mem_append_left _ inCs, hits⟩
    · rintro ⟨c', inCs, hits⟩
      rcases List.mem_append.mp inCs with inCs | last
      · exact ⟨c', inCs, hits⟩
      · rw [List.mem_singleton.mp last] at hits
        exact absurd hits (misses entry mem d)

theorem mem_of_lookup {dict : Impressions} {key : String} {imp : Impression}
    (found : dict.lookup key = some imp) : (key, imp) ∈ dict := by
  induction dict with
  | nil => cases found
  | cons entry dict ih =>
      rw [List.lookup_cons] at found
      split at found
      · rename_i same
        cases found
        rw [beq_iff_eq.mp same]
        exact List.mem_cons_self
      · exact List.mem_cons_of_mem _ (ih found)

/-- **One click**: its document is added to the page it hits, if it hits one. -/
theorem Joined.step {c : LogRecord} {n : Nat} (joined : Joined pages cs imps)
    (known : ∀ page ∈ pages, page.requestId.isSome)
    (distinct : (pages.map fun page => (entryOf page).1).Nodup) (click : IsClick c) :
    Joined pages (cs ++ [c]) (joinClick (imps, n) c).1 := by
  rw [← joined.keys] at distinct
  unfold joinClick
  split
  · rename_i requestId docId request doc
    simp only
    split
    · -- no such request
      rename_i unknown
      refine joined.miss fun entry mem d hits => ?_
      have same := hits.2.1.symm.trans request
      rw [joined.key known mem, Option.some.injEq] at same
      have : (imps.lookup requestId).isSome := lookup_isSome_iff.mpr (same ▸ List.mem_map_of_mem mem)
      rw [unknown] at this
      cases this
    · rename_i imp found
      have here := mem_of_lookup found
      -- the only entry the click could hit
      have only : ∀ entry ∈ imps, ∀ d, Hits entry.2.served c d → entry = (requestId, imp) := by
        intro entry mem d hits
        have same := hits.2.1.symm.trans request
        rw [joined.key known mem, Option.some.injEq] at same
        exact List.inj_on_of_nodup_map distinct mem here same
      split
      · rename_i session
        refine joined.miss fun entry mem d hits => ?_
        rw [only entry mem d hits] at hits
        exact session hits.2.2.1.symm
      · rename_i session
        push Not at session
        split
        · -- not on the page
          rename_i notShown
          refine joined.miss fun entry mem d hits => ?_
          rw [only entry mem d hits] at hits
          obtain ⟨-, -, -, clicked, r, onPage, rank_eq⟩ := hits
          rw [doc, Option.some.injEq] at clicked
          have := List.find?_eq_none.mp notShown r onPage
          simp [rank_eq, clicked] at this
        · rename_i shown isShown
          have hit : Hits imp.served c docId := by
            refine ⟨click, request.trans (joined.key known here).symm, session.symm, doc, shown,
              List.mem_of_find?_eq_some isShown, ?_⟩
            simpa using List.find?_some isShown
          have docs : ∀ d, d ∈ (imp.click docId shown).clickedDocs ↔
              d ∈ imp.clickedDocs ∨ d = docId := by
            intro d
            unfold Impression.click
            split
            · rename_i old
              constructor
              · exact .inl
              · rintro (mem | rfl)
                · exact mem
                · exact old
            · simp
          have page : (imp.click docId shown).served = imp.served := by
            unfold Impression.click
            split <;> rfl
          have once : (imp.click docId shown).clickedDocs.Nodup := by
            have old := joined.once _ here
            unfold Impression.click
            split
            · exact old
            · rename_i fresh
              exact List.nodup_append.mpr ⟨old, List.nodup_singleton _, by
                intro a mem b last same
                rw [List.mem_singleton.mp last] at same
                exact fresh (same ▸ mem)⟩
          constructor
          · rw [← joined.served, setKey, List.map_map]
            refine List.map_congr_left fun entry mem => ?_
            simp only [Function.comp_apply]
            split
            · rename_i same
              have whole := List.inj_on_of_nodup_map distinct mem here same
              rw [page, whole]
            · rfl
          · intro entry mem
            obtain ⟨old, inImps, rfl⟩ := List.mem_map.mp mem
            split
            · exact once
            · exact joined.once old inImps
          · intro entry mem d
            obtain ⟨old, inImps, rfl⟩ := List.mem_map.mp mem
            simp only [List.mem_append, List.mem_singleton]
            split
            · simp only
              rw [docs, page, joined.clicked _ here d]
              constructor
              · rintro (⟨c', inCs, hits⟩ | rfl)
                · exact ⟨c', .inl inCs, hits⟩
                · exact ⟨c, .inr rfl, hit⟩
              · rintro ⟨c', inCs | rfl, hits⟩
                · exact .inl ⟨c', inCs, hits⟩
                · have same := hits.2.2.2.1
                  rw [doc, Option.some.injEq] at same
                  exact .inr same.symm
            · rename_i other
              rw [joined.clicked old inImps d]
              constructor
              · rintro ⟨c', inCs, hits⟩
                exact ⟨c', .inl inCs, hits⟩
              · rintro ⟨c', inCs | rfl, hits⟩
                · exact ⟨c', inCs, hits⟩
                · exact absurd (congrArg Prod.fst (only old inImps d hits)) other
  · rename_i missing
    refine joined.miss fun entry mem d hits => ?_
    exact missing _ _ (hits.2.1.trans (joined.key known mem)) hits.2.2.2.1

end Join

/-! ## The facts of a log -/

instance (served c : LogRecord) (d : Nat) : Decidable (Hits served c d) :=
  inferInstanceAs (Decidable (_ ∧ _))

/-- The documents of a page that were clicked in its session. -/
def clickedSet (records : List LogRecord) (served : LogRecord) : Finset Nat :=
  (records.filterMap fun c => c.docId.filter fun d => Hits served c d).toFinset

theorem mem_clickedSet {records : List LogRecord} {served : LogRecord} {d : Nat} :
    d ∈ clickedSet records served ↔ ∃ c ∈ records, Hits served c d := by
  rw [clickedSet, List.mem_toFinset, List.mem_filterMap]
  constructor
  · rintro ⟨c, mem, filtered⟩
    obtain ⟨-, hits⟩ := Option.filter_eq_some_iff.mp filtered
    exact ⟨c, mem, by simpa using hits⟩
  · rintro ⟨c, mem, hits⟩
    exact ⟨c, mem, Option.filter_eq_some_iff.mpr ⟨hits.2.2.2.1, by simpa using hits⟩⟩

/-- What the counts depend on: a page and the set of its clicked documents. -/
def Impression.facts (imp : Impression) : LogRecord × Finset Nat :=
  (imp.served, imp.clickedDocs.toFinset)

theorem isSome_of_mem_servedOf {exp : ExperimentDefinition} {records : List LogRecord}
    {page : LogRecord} (mem : page ∈ servedOf exp records) : page.requestId.isSome := by
  have served := (List.mem_filter.mp mem).2
  simp only [decide_eq_true_eq] at served
  exact served.2.2.1

theorem distinct_keys {exp : ExperimentDefinition} {records : List LogRecord}
    (distinct : DistinctRequests exp records) :
    ((servedOf exp records).map fun page => (entryOf page).1).Nodup := by
  have nodup : (servedOf exp records).Nodup := List.Nodup.of_map _ distinct
  refine nodup.map_on fun page mem page' mem' same => ?_
  obtain ⟨a, atA⟩ := Option.isSome_iff_exists.mp (isSome_of_mem_servedOf mem)
  obtain ⟨b, atB⟩ := Option.isSome_iff_exists.mp (isSome_of_mem_servedOf mem')
  refine List.inj_on_of_nodup_map distinct mem mem' ?_
  rw [entryOf, entryOf, atA, atB] at same
  rw [atA, atB, show a = b from same]

/-- **The impressions after the join**: the served records, each with its clicked documents. -/
theorem all_facts {exp : ExperimentDefinition} {records : List LogRecord}
    (distinct : DistinctRequests exp records) :
    ((impressions exp records).1.map Prod.snd).map Impression.facts =
        (servedOf exp records).map (fun page => (page, clickedSet records page)) ∧
      ∀ imp ∈ (impressions exp records).1.map Prod.snd, imp.clickedDocs.Nodup := by
  have keys := distinct_keys distinct
  have known : ∀ page ∈ servedOf exp records, page.requestId.isSome :=
    fun page mem => isSome_of_mem_servedOf mem
  have collected := @collect_foldl exp records [] [] (by simpa using keys)
  -- run the second loop click by click
  have run : ∀ (rest done : List LogRecord) (imps : Impressions) (n : Nat),
      Joined (servedOf exp records) done imps → (∀ c ∈ rest, IsClick c) →
      Joined (servedOf exp records) (done ++ rest) (rest.foldl joinClick (imps, n)).1 := by
    intro rest
    induction rest with
    | nil =>
        intro done imps n joined _
        rwa [List.append_nil]
    | cons c rest ih =>
        intro done imps n joined clicks
        have next := @Joined.step _ _ _ c n joined known keys (clicks c List.mem_cons_self)
        have later := ih (done ++ [c]) _ (joinClick (imps, n) c).2 next
          fun c mem => clicks c (List.mem_cons_of_mem _ mem)
        rwa [List.append_assoc, List.singleton_append] at later
  have joined := run (records.filter fun r => Joinable r) [] _ 0 (joined_start _) fun c mem =>
    (of_decide_eq_true (List.mem_filter.mp mem).2 : Joinable c).1
  have same : impressions exp records =
      (records.filter fun r => Joinable r).foldl joinClick
        ((servedOf exp records).map entryOf, 0) := by
    rw [impressions, collected]
    rfl
  rw [same]
  rw [List.nil_append] at joined
  refine ⟨?_, fun imp mem => ?_⟩
  · have pages := congrArg (List.map Prod.snd) joined.served
    rw [List.map_map, List.map_map] at pages
    have docs : ∀ entry ∈ ((records.filter fun r => Joinable r).foldl joinClick
        ((servedOf exp records).map entryOf, 0)).1,
        entry.2.facts = (entry.2.served, clickedSet records entry.2.served) := by
      intro entry mem
      refine Prod.ext rfl (Finset.ext fun d => ?_)
      rw [Impression.facts, List.mem_toFinset, joined.clicked entry mem d, mem_clickedSet]
      constructor
      · rintro ⟨c, inClicks, hits⟩
        exact ⟨c, List.mem_of_mem_filter inClicks, hits⟩
      · rintro ⟨c, inLog, hits⟩
        have joins : Joinable c :=
          ⟨hits.1, by rw [hits.2.1, joined.key known mem]; rfl, by rw [hits.2.2.2.1]; rfl⟩
        exact ⟨c, List.mem_filter.mpr ⟨inLog, decide_eq_true joins⟩, hits⟩
    rw [List.map_map, List.map_congr_left (g := fun entry => 
      (entry.2.served, clickedSet records entry.2.served)) docs]
    have lifted := congrArg (List.map fun page => (page, clickedSet records page)) pages
    simpa [List.map_map, Function.comp_def] using lifted
  · obtain ⟨entry, inImps, rfl⟩ := List.mem_map.mp mem
    exact joined.once entry inImps

/-! ## Counts out of facts -/

theorem credit_congr (shown : List InterleavedDoc) {xs ys : List Nat}
    (same : xs.toFinset = ys.toFinset) : credit shown xs = credit shown ys := by
  have perm : xs.dedup.Perm ys.dedup := by
    refine (List.perm_ext_iff_of_nodup (List.nodup_dedup _) (List.nodup_dedup _)).mpr fun d => ?_
    rw [List.mem_dedup, List.mem_dedup, ← List.mem_toFinset, ← List.mem_toFinset, same]
  have comm : RightCommutative fun (c : InterleavingCredit) (id : Nat) =>
      match (teamOf shown).lookup id with
      | none => c
      | some .A => ⟨c.clicksA + 1, c.clicksB⟩
      | some .B => ⟨c.clicksA, c.clicksB + 1⟩ := by
    refine ⟨fun c id id' => ?_⟩
    cases (teamOf shown).lookup id with
    | none => rfl
    | some team =>
        cases (teamOf shown).lookup id' with
        | none => rfl
        | some team' => cases team <;> cases team' <;> rfl
  exact perm.foldl_eq _

theorem outcome_of_facts {imp imp' : Impression} (same : imp.facts = imp'.facts) :
    imp.outcome = imp'.outcome := by
  rw [Impression.outcome, Impression.outcome, show imp.served = imp'.served from congrArg Prod.fst same,
    credit_congr _ (congrArg Prod.snd same)]

/-- Impressions with the same facts, in some order. -/
def SameFacts (all all' : List Impression) : Prop :=
  (all.map Impression.facts).Perm (all'.map Impression.facts)

section Counts

variable {all all' : List Impression}

/-- A quantity that impressions with the same facts share is a function of the facts. -/
theorem exists_factor {β : Type} [Inhabited β] {f : Impression → β}
    (factual : ∀ imp imp', imp.facts = imp'.facts → f imp = f imp') :
    ∃ g : LogRecord × Finset Nat → β, ∀ imp : Impression, g imp.facts = f imp := by
  classical
  refine ⟨fun p => if here : ∃ imp : Impression, imp.facts = p then f here.choose else default,
    fun imp => ?_⟩
  have here : ∃ imp' : Impression, imp'.facts = imp.facts := ⟨imp, rfl⟩
  simp only [dif_pos here]
  exact factual _ _ here.choose_spec

theorem SameFacts.map {β : Type} [Inhabited β] (same : SameFacts all all') {f : Impression → β}
    (factual : ∀ imp imp', imp.facts = imp'.facts → f imp = f imp') : (all.map f).Perm (all'.map f) := by
  obtain ⟨g, factors⟩ := exists_factor factual
  have lifted := List.Perm.map g same
  simpa only [List.map_map, Function.comp_def, factors] using lifted

theorem SameFacts.filter (same : SameFacts all all') {p : Impression → Bool}
    (factual : ∀ imp imp', imp.facts = imp'.facts → p imp = p imp') :
    SameFacts (all.filter p) (all'.filter p) := by
  obtain ⟨g, factors⟩ := exists_factor factual
  have lifted := List.Perm.filter g same
  rw [List.filter_map, List.filter_map] at lifted
  simpa only [SameFacts, Function.comp_def, factors] using lifted

theorem SameFacts.length_eq (same : SameFacts all all') : all.length = all'.length := by
  have lengths := List.Perm.length_eq same
  rwa [List.length_map, List.length_map] at lengths

theorem length_eq_card {all : List Impression} (once : ∀ imp ∈ all, imp.clickedDocs.Nodup) :
    (all.map fun i => i.clickedDocs.length).sum =
      (all.map fun i => i.clickedDocs.toFinset.card).sum := by
  refine congrArg List.sum (List.map_congr_left fun imp mem => ?_)
  exact (List.toFinset_card_of_nodup (once imp mem)).symm

theorem SameFacts.variantMetrics (same : SameFacts all all')
    (once : ∀ imp ∈ all, imp.clickedDocs.Nodup) (once' : ∀ imp ∈ all', imp.clickedDocs.Nodup)
    (name : String) : variantMetrics name all = variantMetrics name all' := by
  have sessions : (all.map fun i => i.served.sessionId).Perm (all'.map fun i => i.served.sessionId) :=
    same.map fun imp imp' eq => congrArg (fun p => p.1.sessionId) eq
  have clicks : (all.map fun i => i.clickedDocs.toFinset.card).Perm
      (all'.map fun i => i.clickedDocs.toFinset.card) :=
    same.map fun imp imp' eq => congrArg (fun p => p.2.card) eq
  have queries : all.length = all'.length := same.length_eq
  simp only [Experiments.variantMetrics, sessions.dedup.length_eq, queries, length_eq_card once,
    length_eq_card once', clicks.sum_nat]

theorem SameFacts.interleaving (same : SameFacts all all') :
    analyzeInterleaving all = analyzeInterleaving all' := by
  have : Inhabited InterleavingOutcome := ⟨.tie⟩
  have outcomes : (all.map Impression.outcome).Perm (all'.map Impression.outcome) :=
    same.map fun imp imp' eq => outcome_of_facts eq
  have comm : RightCommutative InterleavingResult.tally :=
    ⟨fun res o o' => by cases o <;> cases o' <;> rfl⟩
  have folded := outcomes.foldl_eq (f := InterleavingResult.tally) ⟨0, 0, 0, 0⟩
  rwa [List.foldl_map, List.foldl_map] at folded

/-- **Every impression has one outcome.** -/
theorem outcomes_total (all : List Impression) :
    (analyzeInterleaving all).wins + (analyzeInterleaving all).losses +
      (analyzeInterleaving all).ties + (analyzeInterleaving all).noClicks = all.length := by
  have total : ∀ res : InterleavingResult,
      (all.foldl (fun res imp => res.tally imp.outcome) res).wins +
        (all.foldl (fun res imp => res.tally imp.outcome) res).losses +
        (all.foldl (fun res imp => res.tally imp.outcome) res).ties +
        (all.foldl (fun res imp => res.tally imp.outcome) res).noClicks =
      res.wins + res.losses + res.ties + res.noClicks + all.length := by
    induction all with
    | nil => exact fun _ => rfl
    | cons imp all ih =>
        intro res
        rw [List.foldl_cons, ih, List.length_cons]
        cases imp.outcome <;> simp only [InterleavingResult.tally] <;> omega
  have sum := total ⟨0, 0, 0, 0⟩
  simp only [Nat.zero_add] at sum
  exact sum

end Counts

/-! ## The counts of a log -/

/-- What the results report, without the number of click events. -/
def ExperimentResults.counts (r : ExperimentResults) :
    Nat × List VariantResult × Option InterleavingResult :=
  (r.queries, r.variants, r.interleaving)

theorem counts_of_facts {exp : ExperimentDefinition} {log log' : List LogRecord}
    (distinct : DistinctRequests exp log) (distinct' : DistinctRequests exp log')
    (pages : (servedOf exp log).Perm (servedOf exp log'))
    (clicks : ∀ page ∈ servedOf exp log, clickedSet log page = clickedSet log' page) :
    (analyze exp log).counts = (analyze exp log').counts := by
  obtain ⟨facts, once⟩ := all_facts distinct
  obtain ⟨facts', once'⟩ := all_facts distinct'
  have same : SameFacts ((impressions exp log).1.map Prod.snd)
      ((impressions exp log').1.map Prod.snd) := by
    rw [SameFacts, facts, facts', List.map_congr_left fun page mem => by rw [clicks page mem]]
    exact pages.map _
  have queries : ((impressions exp log).1.map Prod.snd).length =
      ((impressions exp log').1.map Prod.snd).length := same.length_eq
  unfold analyze
  simp only
  split
  · simp only [ExperimentResults.counts, queries, same.variantMetrics once once',
      same.interleaving]
  · have arm : ∀ name variant : String,
        variantMetrics name (((impressions exp log).1.map Prod.snd).filter fun i =>
          i.served.variant = some variant) =
        variantMetrics name (((impressions exp log').1.map Prod.snd).filter fun i =>
          i.served.variant = some variant) := by
      intro name variant
      refine SameFacts.variantMetrics (same.filter fun imp imp' eq => ?_)
        (fun imp mem => once imp (List.mem_of_mem_filter mem))
        (fun imp mem => once' imp (List.mem_of_mem_filter mem)) name
      rw [show imp.served = imp'.served from congrArg Prod.fst eq]
    simp only [ExperimentResults.counts, queries, arm]

theorem DistinctRequests.perm {exp : ExperimentDefinition} {log log' : List LogRecord}
    (distinct : DistinctRequests exp log) (pages : (servedOf exp log).Perm (servedOf exp log')) :
    DistinctRequests exp log' :=
  (pages.map _).nodup_iff.mp distinct

theorem servedOf_cons_click {exp : ExperimentDefinition} {log : List LogRecord} {c : LogRecord}
    (click : IsClick c) : servedOf exp (c :: log) = servedOf exp log :=
  List.filter_cons_of_neg (by
    simpa using fun served : IsServed exp c => not_click_of_served served click)

/-- **One edit**: the same pages, each with the same documents clicked. -/
theorem Edit.facts {exp : ExperimentDefinition} {log log' : List LogRecord}
    (edit : Edit exp log log') :
    (servedOf exp log).Perm (servedOf exp log') ∧
      ∀ page ∈ servedOf exp log, clickedSet log page = clickedSet log' page := by
  cases edit with
  | reorder perm =>
      refine ⟨perm.filter _, fun page _ => Finset.ext fun d => ?_⟩
      rw [mem_clickedSet, mem_clickedSet]
      constructor
      · rintro ⟨c, mem, hits⟩
        exact ⟨c, perm.mem_iff.mp mem, hits⟩
      · rintro ⟨c, mem, hits⟩
        exact ⟨c, perm.mem_iff.mpr mem, hits⟩
  | @duplicate _ c mem click =>
      rw [servedOf_cons_click click]
      refine ⟨.refl _, fun page _ => Finset.ext fun d => ?_⟩
      rw [mem_clickedSet, mem_clickedSet]
      constructor
      · rintro ⟨c', inLog, hits⟩
        exact ⟨c', List.mem_cons_of_mem _ inLog, hits⟩
      · rintro ⟨c', inLog, hits⟩
        rcases List.mem_cons.mp inLog with rfl | inLog
        · exact ⟨c', mem, hits⟩
        · exact ⟨c', inLog, hits⟩
  | forge front back c rank team variant experimentId click =>
      have skip : ∀ c' : LogRecord, IsClick c' →
          servedOf exp (front ++ c' :: back) = servedOf exp front ++ servedOf exp back := by
        intro c' click'
        rw [servedOf, List.filter_append]
        exact congrArg (servedOf exp front ++ ·) (servedOf_cons_click click')
      rw [skip c click, skip { c with rank := rank, team := team, variant := variant,
                                      experimentId := experimentId } click]
      refine ⟨.refl _, fun page _ => Finset.ext fun d => ?_⟩
      rw [mem_clickedSet, mem_clickedSet]
      simp only [List.mem_append, List.mem_cons, or_and_right, exists_or, exists_eq_left]
      exact Iff.rfl
  | @stray _ c click fits =>
      rw [servedOf_cons_click click]
      refine ⟨.refl _, fun page inPages => Finset.ext fun d => ?_⟩
      rw [mem_clickedSet, mem_clickedSet]
      constructor
      · rintro ⟨c', inLog, hits⟩
        exact ⟨c', List.mem_cons_of_mem _ inLog, hits⟩
      · rintro ⟨c', inLog, hits⟩
        rcases List.mem_cons.mp inLog with rfl | inLog
        · exact absurd ⟨page, inPages, d, hits⟩ fits
        · exact ⟨c', inLog, hits⟩

/-- **Counts depend only on the facts in the log.**  Reordering a log, repeating its clicks, forging
their rank, team, variant or experiment, and adding clicks that fit nothing served change no count;
and the outcomes of an interleaving add up to the queries, which are the pages that were served. -/
theorem counts_depend_on_facts (exp : ExperimentDefinition) {log log' : List LogRecord}
    (distinct : DistinctRequests exp log) (edits : Relation.ReflTransGen (Edit exp) log log') :
    (analyze exp log').counts = (analyze exp log).counts ∧
      (analyze exp log).queries = (servedOf exp log).length ∧
      ∀ il, (analyze exp log).interleaving = some il →
        il.wins + il.losses + il.ties + il.noClicks = (analyze exp log).queries := by
  refine ⟨?_, ?_, ?_⟩
  · have both : DistinctRequests exp log' ∧ (analyze exp log').counts = (analyze exp log).counts := by
      induction edits with
      | refl => exact ⟨distinct, rfl⟩
      | tail _ edit ih =>
          obtain ⟨pages, clicks⟩ := edit.facts
          have next := ih.1.perm pages
          exact ⟨next, (counts_of_facts ih.1 next pages clicks).symm.trans ih.2⟩
    exact both.2
  · have pages := congrArg List.length (all_facts distinct).1
    simp only [List.length_map] at pages
    rw [← pages]
    unfold analyze
    dsimp only
    split_ifs <;> exact List.length_map _
  · intro il isIl
    unfold analyze at isIl ⊢
    simp only at isIl ⊢
    split at isIl
    · rename_i interleaves
      cases isIl
      rw [if_pos interleaves]
      exact outcomes_total _
    · cases isIl

/-- A page with one document of each team, and a click on the second one before the page is
logged. -/
def exampleLog : List LogRecord :=
  [⟨"event", some "click", some "s", some "r", some 7, some 1, none, none, some "A", none⟩,
    ⟨"served", none, some "s", some "r", none, none, some "x", none, none,
      some [⟨5, 1, some "A"⟩, ⟨7, 2, some "B"⟩]⟩]

/-- Its counts after the log is put in order. -/
theorem counts_depend_on_facts_reversed :
    (analyze ⟨"x", .interleave, none⟩ exampleLog.reverse).counts =
        (analyze ⟨"x", .interleave, none⟩ exampleLog).counts ∧
      (analyze ⟨"x", .interleave, none⟩ exampleLog).queries =
        (servedOf ⟨"x", .interleave, none⟩ exampleLog).length ∧
      ∀ il, (analyze ⟨"x", .interleave, none⟩ exampleLog).interleaving = some il →
        il.wins + il.losses + il.ties + il.noClicks =
          (analyze ⟨"x", .interleave, none⟩ exampleLog).queries :=
  counts_depend_on_facts _ (by decide +kernel)
    (.single (.reorder exampleLog.reverse_perm.symm))

end HybridSearch.Broker.Experiments
