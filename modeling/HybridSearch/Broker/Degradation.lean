/-
# Broker.Degradation -- what a request gives up for its budget (Degradation.cs)

Stages go in a fixed order: the reranker, the full beam, dense retrieval.  First the
missing capabilities take theirs, then the least level that fits the budget and the
load takes the rest (`chosenLevel`).  A run is described by two facts: what the
capabilities leave, and the level; every stage that is kept, and every step that is
recorded, is read off these (`plan_spec`), and a smaller level keeps more.

Costs are doubles: a sum and a comparison, of which only transitivity is used.
-/
import Mathlib.Data.List.Sort
import Mathlib.Data.Rat.Defs
import Mathlib.Tactic.Linarith

namespace HybridSearch.Broker.Degradation

set_option autoImplicit false

inductive DegradationKind
  | rerankerSkipped
  | denseBeamShrunk
  | lexicalOnly
  deriving DecidableEq, Repr

def DegradationKind.value : DegradationKind → Nat
  | .rerankerSkipped => 1
  | .denseBeamShrunk => 2
  | .lexicalOnly => 3

structure DegradationStep where
  kind : DegradationKind
  reason : String
  deriving DecidableEq, Repr

/-- What the caller asked for. -/
structure RequestedPlan where
  lexical : Bool
  dense : Bool
  rerank : Bool

/-- What is available. -/
structure Capabilities where
  encoderAvailable : Bool
  vectorIndexReady : Bool
  rerankerAvailable : Bool

structure CostEstimates (K : Type) where
  encodeMs : K
  shardFullMs : K
  shardShrunkMs : K
  shardLexicalMs : K
  rerankMs : K
  fetchMs : K

structure ExecutionPlan where
  lexical : Bool
  dense : Bool
  shrinkBeam : Bool
  rerank : Bool
  steps : List DegradationStep
  deriving DecidableEq, Repr

/-- The largest step, 0 of none. -/
def ExecutionPlan.level (plan : ExecutionPlan) : Nat :=
  (plan.steps.map fun s => s.kind.value).foldl max 0

/-- Load-shedding floor: one level per threshold crossed. -/
def pressureLevel (inFlight : Int) (thresholds : List Int) : Nat :=
  (List.range (min thresholds.length 3)).foldl
    (fun level i => if inFlight > thresholds.getD i 0 then i + 1 else level) 0

variable {K : Type} [Zero K] [Add K]

/-- Estimated time of a plan at a level. -/
def cost (level : Nat) (dense rerank : Bool) (e : CostEstimates K) : K :=
  let useDense := dense && decide (level < 3)
  let shard := if !useDense then e.shardLexicalMs
    else if level ≥ 2 then e.shardShrunkMs else e.shardFullMs
  (if useDense then e.encodeMs else 0) + shard
    + (if rerank && decide (level < 1) then e.rerankMs else 0) + e.fetchMs

/-- The loop over the levels: the first that fits, at most 3. -/
def firstLevel (fits : Nat → Bool) : Nat → Nat → Nat
  | 0, _ => 3
  | n + 1, level => if level == 3 || fits level then level else firstLevel fits n (level + 1)

/-- `Math.Clamp(pressureLevel, 0, 3)`. -/
def floorOf (pressure : Int) : Nat := (max 0 (min pressure 3)).toNat

/-- The stages that the capabilities leave, dense and rerank, and the steps for the others. -/
def reduce (req : RequestedPlan) (caps : Capabilities) : Bool × Bool × List DegradationStep :=
  let (dense, steps) :=
    if req.dense && !caps.encoderAvailable then
      (false, [(⟨.lexicalOnly, "encoder_unavailable"⟩ : DegradationStep)])
    else if req.dense && !caps.vectorIndexReady then
      (false, [⟨.lexicalOnly, "vector_index_unavailable"⟩])
    else (req.dense, [])
  if req.rerank && !caps.rerankerAvailable then
    (dense, false, steps ++ [⟨.rerankerSkipped, "model_unavailable"⟩])
  else (dense, req.rerank, steps)

/-- `Plan`, once the level is chosen. -/
def degrade (lexical dense rerank : Bool) (steps : List DegradationStep) (floor chosen : Nat) :
    ExecutionPlan :=
  let reasonFor (level : Nat) := if level ≤ floor then "load" else "deadline"
  let (rerank, steps) :=
    if decide (chosen ≥ 1) && rerank then (false, steps ++ [⟨.rerankerSkipped, reasonFor 1⟩])
    else (rerank, steps)
  let (shrink, steps) :=
    if decide (chosen ≥ 2) && dense && decide (chosen < 3) then
      (true, steps ++ [⟨.denseBeamShrunk, reasonFor 2⟩])
    else (false, steps)
  let (dense, steps) :=
    if decide (chosen ≥ 3) && dense then (false, steps ++ [⟨.lexicalOnly, reasonFor 3⟩])
    else (dense, steps)
  ⟨lexical || !dense, dense, shrink, rerank, steps.mergeSort fun a b => decide (a.kind.value ≤ b.kind.value)⟩

/-- The chosen level, for the stages that are left.  A probe fits every budget. -/
def chosenLevel (le : K → K → Bool) (dense rerank : Bool) (remaining : K) (est : CostEstimates K)
    (floor : Nat) (probe : Bool) : Nat :=
  firstLevel (fun level => probe || le (cost level dense rerank est) remaining) (4 - floor) floor

/-- `Plan`; `le` is the comparison of doubles. -/
def plan (le : K → K → Bool) (req : RequestedPlan) (caps : Capabilities) (remaining : K)
    (est : CostEstimates K) (pressure : Int) (probe : Bool) : ExecutionPlan :=
  let (dense, rerank, steps) := reduce req caps
  let floor := floorOf pressure
  degrade req.lexical dense rerank steps floor
    (chosenLevel le dense rerank remaining est floor probe)

/-! ## The level -/

theorem floorOf_le (pressure : Int) : floorOf pressure ≤ 3 := by
  unfold floorOf
  omega

theorem floorOf_mono {pressure pressure' : Int} (less : pressure' ≤ pressure) :
    floorOf pressure' ≤ floorOf pressure := by
  unfold floorOf
  omega

/-- What is asked of the level: in reach, fitting unless it is 3, and the first to fit. -/
structure Least (fits : Nat → Prop) (floor level : Nat) : Prop where
  reach : floor ≤ level ∧ level ≤ 3
  enough : level = 3 ∨ fits level
  first : ∀ l, floor ≤ l → l < level → ¬fits l

theorem firstLevel_least (fits : Nat → Bool) {n level : Nat} (reach : level + n = 4) (some : 0 < n) :
    Least (fun l => fits l = true) level (firstLevel fits n level) := by
  induction n generalizing level with
  | zero => exact absurd some (Nat.lt_irrefl 0)
  | succ n ih =>
      rw [firstLevel]
      split_ifs with stop
      · rw [Bool.or_eq_true, beq_iff_eq] at stop
        exact ⟨⟨Nat.le_refl _, by omega⟩, stop, fun l low high => absurd high (Nat.not_lt.mpr low)⟩
      · rw [Bool.or_eq_true, beq_iff_eq, not_or] at stop
        obtain ⟨reach', fits', first⟩ := @ih (level + 1) (by omega) (by omega)
        refine ⟨⟨by omega, reach'.2⟩, fits', ?_⟩
        intro l low high
        rcases Nat.eq_or_lt_of_le low with rfl | later
        · exact stop.2
        · exact first l later high

/-- **A lower floor and more that fits** choose no higher level. -/
theorem Least.mono {fits fits' : Nat → Prop} {floor floor' level level' : Nat}
    (least : Least fits floor level) (least' : Least fits' floor' level') (lower : floor' ≤ floor)
    (more : ∀ l, fits l → fits' l) : level' ≤ level := by
  by_contra higher
  rw [not_le] at higher
  rcases least.enough with three | fit
  · have := least'.reach.2
    omega
  · exact least'.first level (lower.trans least.reach.1) higher (more level fit)

/-! ## The steps -/

/-- How many steps of a kind. -/
def recorded (kind : DegradationKind) (steps : List DegradationStep) : Nat :=
  steps.countP fun s => decide (s.kind = kind)

theorem recorded_append (kind : DegradationKind) (steps steps' : List DegradationStep) :
    recorded kind (steps ++ steps') = recorded kind steps + recorded kind steps' := List.countP_append

theorem recorded_cons (kind : DegradationKind) (s : DegradationStep) (steps : List DegradationStep) :
    recorded kind (s :: steps) = recorded kind steps + if s.kind = kind then 1 else 0 := by
  rw [recorded, List.countP_cons, recorded]
  simp only [decide_eq_true_eq]

theorem recorded_nil (kind : DegradationKind) : recorded kind [] = 0 := rfl

/-- **What the capabilities leave.** -/
theorem reduce_spec (req : RequestedPlan) (caps : Capabilities) :
    (reduce req caps).1 = (req.dense && caps.encoderAvailable && caps.vectorIndexReady) ∧
      (reduce req caps).2.1 = (req.rerank && caps.rerankerAvailable) ∧
      recorded .lexicalOnly (reduce req caps).2.2 =
        (if req.dense = true ∧ (reduce req caps).1 = false then 1 else 0) ∧
      recorded .rerankerSkipped (reduce req caps).2.2 =
        (if req.rerank = true ∧ (reduce req caps).2.1 = false then 1 else 0) ∧
      recorded .denseBeamShrunk (reduce req caps).2.2 = 0 := by
  obtain ⟨lexical, dense, rerank⟩ := req
  obtain ⟨encoder, index, reranker⟩ := caps
  cases dense <;> cases rerank <;> cases encoder <;> cases index <;> cases reranker <;>
    exact ⟨rfl, rfl, rfl, rfl, rfl⟩

/-- **What a level leaves.** -/
theorem degrade_spec (lexical dense rerank : Bool) (steps : List DegradationStep) (floor chosen : Nat) :
    let plan := degrade lexical dense rerank steps floor chosen
    plan.dense = (dense && decide (chosen < 3)) ∧
      (plan.dense && !plan.shrinkBeam) = (dense && decide (chosen < 2)) ∧
      (plan.shrinkBeam = true → plan.dense = true) ∧
      plan.rerank = (rerank && decide (chosen < 1)) ∧
      plan.lexical = (lexical || !plan.dense) ∧
      recorded .rerankerSkipped plan.steps =
        recorded .rerankerSkipped steps + (if rerank = true ∧ plan.rerank = false then 1 else 0) ∧
      recorded .denseBeamShrunk plan.steps =
        recorded .denseBeamShrunk steps + (if plan.shrinkBeam = true then 1 else 0) ∧
      recorded .lexicalOnly plan.steps =
        recorded .lexicalOnly steps + (if dense = true ∧ plan.dense = false then 1 else 0) := by
  have sorted (kind : DegradationKind) (xs : List DegradationStep) :
      recorded kind (xs.mergeSort fun a b => decide (a.kind.value ≤ b.kind.value)) = recorded kind xs :=
    (List.mergeSort_perm _ _).countP_eq _
  intro plan
  by_cases one : 1 ≤ chosen
  · by_cases two : 2 ≤ chosen
    · by_cases three : 3 ≤ chosen
      · have low : ¬chosen < 3 ∧ ¬chosen < 2 ∧ chosen ≠ 0 := by omega
        cases dense <;> cases rerank <;>
          simp [plan, degrade, sorted, recorded_append, recorded_cons, recorded_nil, one, two, three, low]
      · have low : chosen < 3 ∧ ¬chosen < 2 ∧ chosen ≠ 0 := by omega
        cases dense <;> cases rerank <;>
          simp [plan, degrade, sorted, recorded_append, recorded_cons, recorded_nil, one, two, three, low]
    · have low : chosen < 3 ∧ chosen < 2 ∧ ¬3 ≤ chosen ∧ chosen ≠ 0 := by omega
      cases dense <;> cases rerank <;>
        simp [plan, degrade, sorted, recorded_append, recorded_cons, recorded_nil, one, two, low]
  · have low : chosen = 0 := by omega
    cases dense <;> cases rerank <;> simp [plan, degrade, sorted, low]

/-! ## The policy -/

/-- Steps in policy order, one of a kind. -/
theorem strict_of_recorded {steps : List DegradationStep}
    (sorted : steps.Pairwise fun a b => a.kind.value ≤ b.kind.value)
    (once : ∀ kind, recorded kind steps ≤ 1) :
    steps.Pairwise fun a b => a.kind.value < b.kind.value := by
  induction steps with
  | nil => exact List.Pairwise.nil
  | cons s rest ih =>
      obtain ⟨before, sorted'⟩ := List.pairwise_cons.mp sorted
      refine List.pairwise_cons.mpr ⟨?_, ih sorted' ?_⟩
      · intro s' mem
        refine Nat.lt_of_le_of_ne (before s' mem) ?_
        intro same
        have kinds : s'.kind = s.kind := by
          rcases kind : s.kind <;> rcases kind' : s'.kind <;> rw [kind, kind'] at same <;>
            first | rfl | cases same
        have twice := once s.kind
        have again : 0 < recorded s.kind rest :=
          List.countP_pos_iff.mpr ⟨s', mem, decide_eq_true kinds⟩
        rw [recorded, List.countP_cons, if_pos (decide_eq_true rfl)] at twice
        rw [recorded] at again
        omega
      · intro kind
        have all := once kind
        rw [recorded, List.countP_cons] at all
        rw [recorded]
        omega

/-- The level is the largest step. -/
theorem level_spec (plan : ExecutionPlan) :
    (∀ s ∈ plan.steps, s.kind.value ≤ plan.level) ∧
      (plan.steps = [] ∧ plan.level = 0 ∨ ∃ s ∈ plan.steps, s.kind.value = plan.level) := by
  have fold : ∀ (xs : List Nat) (start : Nat),
      start ≤ xs.foldl max start ∧ (∀ x ∈ xs, x ≤ xs.foldl max start) ∧
        (xs.foldl max start = start ∨ xs.foldl max start ∈ xs) := by
    intro xs
    induction xs with
    | nil => exact fun start => ⟨Nat.le_refl _, fun x mem => absurd mem List.not_mem_nil, .inl rfl⟩
    | cons x xs ih =>
        intro start
        obtain ⟨above, all, is⟩ := ih (max start x)
        refine ⟨(Nat.le_max_left _ _).trans above, ?_, ?_⟩
        · intro y mem
          rcases List.mem_cons.mp mem with rfl | later
          · exact (Nat.le_max_right _ _).trans above
          · exact all y later
        · rw [List.foldl_cons]
          rcases is with same | there
          · rw [same]
            rcases Nat.le_total start x with le | ge
            · rw [Nat.max_eq_right le]
              exact .inr (List.mem_cons_self ..)
            · exact .inl (Nat.max_eq_left ge)
          · exact .inr (List.mem_cons_of_mem _ there)
  obtain ⟨-, all, is⟩ := fold (plan.steps.map fun s => s.kind.value) 0
  refine ⟨fun s mem => all _ (List.mem_map_of_mem mem), ?_⟩
  rcases is with none | there
  · rcases steps : plan.steps with _ | ⟨s, rest⟩
    · exact .inl ⟨rfl, none⟩
    · refine .inr ⟨s, List.mem_cons_self .., ?_⟩
      have bound := all _ (List.mem_map_of_mem (show s ∈ plan.steps by rw [steps]; exact List.mem_cons_self ..))
      have positive : 0 < s.kind.value := by cases s.kind <;> decide
      rw [none] at bound
      omega
  · obtain ⟨s, mem, is⟩ := List.mem_map.mp there
    exact .inr ⟨s, mem, is⟩

/-- A stage is taken by the capabilities or by the level, not by both. -/
theorem taken_once {asked can kept : Bool} (ask : can = true → asked = true)
    (keep : kept = true → can = true) :
    ((if asked = true ∧ can = false then 1 else 0) + if can = true ∧ kept = false then 1 else 0) =
      if asked = true ∧ kept = false then 1 else 0 := by
  cases asked <;> cases can <;> cases kept <;> simp_all

/-- Dense retrieval and the reranker, as far as they were asked for and are there. -/
def RequestedPlan.canDense (req : RequestedPlan) (caps : Capabilities) : Bool :=
  req.dense && caps.encoderAvailable && caps.vectorIndexReady

def RequestedPlan.canRerank (req : RequestedPlan) (caps : Capabilities) : Bool :=
  req.rerank && caps.rerankerAvailable

/-- What is asked of a plan, and of the level behind it. -/
structure Follows (le : K → K → Bool) (req : RequestedPlan) (caps : Capabilities) (remaining : K)
    (est : CostEstimates K) (pressure : Int) (level : Nat) (plan : ExecutionPlan) : Prop where
  least : Least (fun l => le (cost l (req.canDense caps) (req.canRerank caps) est) remaining = true)
    (floorOf pressure) level
  dense : plan.dense = (req.canDense caps && decide (level < 3))
  fullBeam : (plan.dense && !plan.shrinkBeam) = (req.canDense caps && decide (level < 2))
  shrunk : plan.shrinkBeam = true → plan.dense = true
  rerank : plan.rerank = (req.canRerank caps && decide (level < 1))
  /-- One step for a stage that was removed or shrunk, none for one that was kept. -/
  steps : recorded .rerankerSkipped plan.steps = (if req.rerank = true ∧ plan.rerank = false then 1 else 0) ∧
    recorded .denseBeamShrunk plan.steps = (if plan.shrinkBeam = true then 1 else 0) ∧
    recorded .lexicalOnly plan.steps = (if req.dense = true ∧ plan.dense = false then 1 else 0)
  sorted : plan.steps.Pairwise fun a b => a.kind.value < b.kind.value
  highest : (∀ s ∈ plan.steps, s.kind.value ≤ plan.level) ∧
    (plan.steps = [] ∧ plan.level = 0 ∨ ∃ s ∈ plan.steps, s.kind.value = plan.level)
  lexical : plan.lexical = (req.lexical || !plan.dense)
  retriever : (plan.lexical || plan.dense) = true

/-- A plan is what its level leaves of what the capabilities leave. -/
theorem plan_follows (le : K → K → Bool) (req : RequestedPlan) (caps : Capabilities) (remaining : K)
    (est : CostEstimates K) (pressure : Int) :
    Follows le req caps remaining est pressure
      (chosenLevel le (req.canDense caps) (req.canRerank caps) remaining est (floorOf pressure) false)
      (plan le req caps remaining est pressure false) := by
  obtain ⟨canDense, canRerank, lexicalOnly, rerankerSkipped, denseBeamShrunk⟩ := reduce_spec req caps
  have low := floorOf_le pressure
  have least := @firstLevel_least
    (fun l => false || le (cost l (req.canDense caps) (req.canRerank caps) est) remaining)
    (4 - floorOf pressure) (floorOf pressure) (by omega) (by omega)
  simp only [Bool.false_or] at least
  have unfolded : plan le req caps remaining est pressure false =
      degrade req.lexical (reduce req caps).1 (reduce req caps).2.1 (reduce req caps).2.2
        (floorOf pressure) (chosenLevel le (reduce req caps).1 (reduce req caps).2.1 remaining est
          (floorOf pressure) false) := rfl
  have level : chosenLevel le (req.canDense caps) (req.canRerank caps) remaining est (floorOf pressure)
      false = firstLevel (fun l => le (cost l (req.canDense caps) (req.canRerank caps) est) remaining)
        (4 - floorOf pressure) (floorOf pressure) := by
    simp only [chosenLevel, Bool.false_or]
  change (reduce req caps).1 = req.canDense caps at canDense
  change (reduce req caps).2.1 = req.canRerank caps at canRerank
  rw [canDense] at lexicalOnly
  rw [canRerank] at rerankerSkipped
  rw [canDense, canRerank] at unfolded
  rw [← level] at least
  generalize chosenLevel le (req.canDense caps) (req.canRerank caps) remaining est (floorOf pressure)
    false = chosen at *
  obtain ⟨dense, fullBeam, shrunk, rerank, lexical, steps₁, steps₂, steps₃⟩ :=
    degrade_spec req.lexical (req.canDense caps) (req.canRerank caps) (reduce req caps).2.2
      (floorOf pressure) chosen
  rw [← unfolded] at dense fullBeam shrunk rerank lexical steps₁ steps₂ steps₃
  have steps : recorded .rerankerSkipped (plan le req caps remaining est pressure false).steps =
        (if req.rerank = true ∧ (plan le req caps remaining est pressure false).rerank = false then 1 else 0) ∧
      recorded .denseBeamShrunk (plan le req caps remaining est pressure false).steps =
        (if (plan le req caps remaining est pressure false).shrinkBeam = true then 1 else 0) ∧
      recorded .lexicalOnly (plan le req caps remaining est pressure false).steps =
        (if req.dense = true ∧ (plan le req caps remaining est pressure false).dense = false then 1 else 0) := by
    refine ⟨?_, ?_, ?_⟩
    · rw [steps₁, rerankerSkipped]
      refine taken_once ?_ ?_
      · intro can
        exact (Bool.and_eq_true_iff.mp can).1
      · intro kept
        rw [rerank] at kept
        exact (Bool.and_eq_true_iff.mp kept).1
    · rw [steps₂, denseBeamShrunk, Nat.zero_add]
    · rw [steps₃, lexicalOnly]
      refine taken_once ?_ ?_
      · intro can
        exact (Bool.and_eq_true_iff.mp (Bool.and_eq_true_iff.mp can).1).1
      · intro kept
        rw [dense] at kept
        exact (Bool.and_eq_true_iff.mp kept).1
  refine ⟨least, dense, fullBeam, shrunk, rerank, steps, ?_, level_spec _, lexical, ?_⟩
  · refine strict_of_recorded ?_ ?_
    · rw [unfolded]
      refine List.pairwise_mergeSort ?_ ?_ _ |>.imp ?_
      · intro a b c ab bc
        rw [decide_eq_true_eq] at *
        exact ab.trans bc
      · intro a b
        rw [Bool.or_eq_true, decide_eq_true_eq, decide_eq_true_eq]
        exact Nat.le_total _ _
      · intro a b le
        exact of_decide_eq_true le
    · intro kind
      obtain ⟨first, second, third⟩ := steps
      cases kind with
      | rerankerSkipped => rw [first]; split_ifs <;> decide
      | denseBeamShrunk => rw [second]; split_ifs <;> decide
      | lexicalOnly => rw [third]; split_ifs <;> decide
  · rw [lexical]
    cases (plan le req caps remaining est pressure false).dense <;> simp

/-- **The degradation policy.**  The level is the least that fits; the plan keeps what was asked
for, is there and is not taken by the level, with one step for every stage that goes.  With more
budget or less load no stage goes that was kept. -/
theorem plan_spec (le : K → K → Bool) (trans : ∀ a b c, le a b = true → le b c = true → le a c = true)
    (req : RequestedPlan) (caps : Capabilities) (remaining : K) (est : CostEstimates K) (pressure : Int) :
    (∃ level, Follows le req caps remaining est pressure level
      (plan le req caps remaining est pressure false)) ∧
    ∀ remaining' pressure', (remaining' = remaining ∨ le remaining remaining' = true) →
      pressure' ≤ pressure →
      let before := plan le req caps remaining est pressure false
      let after := plan le req caps remaining' est pressure' false
      (before.dense = true → after.dense = true) ∧
        ((before.dense && !before.shrinkBeam) = true → (after.dense && !after.shrinkBeam) = true) ∧
        (before.rerank = true → after.rerank = true) := by
  have follows := plan_follows le req caps remaining est pressure
  refine ⟨⟨_, follows⟩, ?_⟩
  intro remaining' pressure' more less before after
  have follows' := plan_follows le req caps remaining' est pressure'
  have lower := follows.least.mono follows'.least (floorOf_mono less) (by
    intro l fits
    rcases more with rfl | more
    · exact fits
    · exact trans _ _ _ fits more)
  refine ⟨?_, ?_, ?_⟩
  · intro kept
    rw [follows.dense, Bool.and_eq_true, decide_eq_true_eq] at kept
    rw [follows'.dense, Bool.and_eq_true, decide_eq_true_eq]
    exact ⟨kept.1, lower.trans_lt kept.2⟩
  · intro kept
    rw [follows.fullBeam, Bool.and_eq_true, decide_eq_true_eq] at kept
    rw [follows'.fullBeam, Bool.and_eq_true, decide_eq_true_eq]
    exact ⟨kept.1, lower.trans_lt kept.2⟩
  · intro kept
    rw [follows.rerank, Bool.and_eq_true, decide_eq_true_eq] at kept
    rw [follows'.rerank, Bool.and_eq_true, decide_eq_true_eq]
    exact ⟨kept.1, lower.trans_lt kept.2⟩

/-- A hybrid request with 66 ms left and some load, which keeps the full beam, and with 170 ms and
none. -/
theorem plan_spec_hybrid :
    let le := fun a b : ℚ => decide (a ≤ b)
    let est : CostEstimates ℚ := ⟨10, 50, 30, 15, 100, 5⟩
    let before := plan le ⟨true, true, true⟩ ⟨true, true, true⟩ 66 est 1 false
    let after := plan le ⟨true, true, true⟩ ⟨true, true, true⟩ 170 est 0 false
    (∃ level, Follows le ⟨true, true, true⟩ ⟨true, true, true⟩ 66 est 1 level before) ∧
      (before.dense = true ∧ before.shrinkBeam = false ∧ before.rerank = false) ∧
      after.dense = true ∧ (after.dense && !after.shrinkBeam) = true := by
  intro le est before after
  have spec := plan_spec le
    (by
      intro a b c ab bc
      exact decide_eq_true ((of_decide_eq_true ab).trans (of_decide_eq_true bc)))
    ⟨true, true, true⟩ ⟨true, true, true⟩ 66 est 1
  obtain ⟨dense, fullBeam, -⟩ := spec.2 170 0 (.inr (by decide)) (by decide)
  have kept : before.dense = true ∧ before.shrinkBeam = false ∧ before.rerank = false := by
    decide +kernel
  exact ⟨spec.1, kept, dense kept.1, fullBeam (by rw [kept.1, kept.2.1]; rfl)⟩

end HybridSearch.Broker.Degradation
