/-
# Rerank.Sampler -- training groups of the cross-encoder (py/hybridsearch/rerank/sampler.py)

A group has one positive and `n_neg` negatives, drawn without repetition from the pools of
its query, the random pool last.  A draw goes through a random order of its pool until it
has enough, so it ends full or with everything acceptable (`draw_spec`).  What a whole
group can hold is therefore the number of acceptable passages (`Drawn`), and whether it is
always `n_neg` depends on nothing else (`group_sound_iff`).

Every random stream is allowed: the permutations are any permutations.  `norm_text` is any
function.  The product `n_neg * mix_bm25` is rounded as its format rounds it.
-/
import HybridSearch.Theory.Dict
import HybridSearch.Theory.Rounding
import Mathlib.Data.Finset.Card
import Mathlib.Data.List.GetD

namespace HybridSearch.Rerank

open HybridSearch.Theory

set_option autoImplicit false

structure MinedQuery where
  qid : String
  pos : List String
  bm25 : List String
  dense : List String
  random : List String

inductive Strategy
  | random
  | bm25Hard
  | denseHard
  | mixed
  deriving DecidableEq

/-- `round` of Python. -/
def round (x : ℚ) : Int := Rounding.halfEven x

/-- What a random generator answers: an integer, and the permutation of each draw. -/
structure Rng where
  integers : Nat → Nat
  permutation : Nat → Nat → List Nat

structure Rng.Lawful (rng : Rng) : Prop where
  integers_lt : ∀ n, 0 < n → rng.integers n < n
  permutation_perm : ∀ c n, (rng.permutation c n).Perm (List.range n)

/-- `GroupSampler`, with the normalised texts of type `ν`. -/
structure GroupSampler (ν : Type) where
  passages : String → Option String
  strategy : Strategy
  nNeg : Nat
  mixBm25 : ℚ
  judged : String → List String
  mined : List MinedQuery
  posText : List (String × List ν)

namespace GroupSampler

variable {ν : Type} [DecidableEq ν] (normText : String → ν)

/-- `__init__`: the queries whose text and at least one positive text are available. -/
def init (mined : List MinedQuery) (queries : String → Option String) (passages : String → Option String)
    (strategy : Strategy) (nNeg : Nat) (mixBm25 : ℚ) (judged : String → List String) : GroupSampler ν :=
  let kept := mined.filter fun m =>
    (queries m.qid).isSome && m.pos.any fun p => (passages p).isSome
  { passages, strategy, nNeg, mixBm25, judged
    mined := kept
    posText := Dict.fill [] (kept.map fun m => (m.qid, (m.pos.filterMap passages).map normText)) }

variable (s : GroupSampler ν)

/-- `_ok`; every query of `mined` has its entry of `_pos_text`. -/
def ok (m : MinedQuery) (pid : String) (taken : Finset String) : Bool :=
  if pid ∈ taken ∨ pid ∈ m.pos ∨ pid ∈ s.judged m.qid then false
  else
    match s.passages pid with
    | none => false
    | some t => decide (normText t ∉ (s.posText.lookup m.qid).getD [])

/-- The loop of `_draw`: what is out, and what is taken. -/
def drawLoop (m : MinedQuery) (n : Int) :
    List String → List String → Finset String → List String × Finset String
  | [], out, taken => (out, taken)
  | pid :: rest, out, taken =>
      if (out.length : Int) = n then (out, taken)
      else if ok normText s m pid taken then drawLoop m n rest (out ++ [pid]) (insert pid taken)
      else drawLoop m n rest out taken

/-- `_draw`, the `c`-th of its group. -/
def draw (rng : Rng) (c : Nat) (m : MinedQuery) (pool : List String) (n : Int) (taken : Finset String) :
    List String × Finset String :=
  drawLoop normText s m n ((rng.permutation c pool.length).filterMap fun j => pool[j]?) [] taken

/-- How many negatives `mixed` wants from BM25; `fl` is the rounding of the product. -/
def share (fl : Rounding ℚ) : Int := round (fl (s.nNeg * s.mixBm25))

variable (fl : Rounding ℚ)

/-- The draws of a strategy, before any top-up. -/
def primary (m : MinedQuery) (rng : Rng) : List String × Finset String :=
  match s.strategy with
  | .random => draw normText s rng 0 m m.random s.nNeg ∅
  | .bm25Hard => draw normText s rng 0 m m.bm25 s.nNeg ∅
  | .denseHard => draw normText s rng 0 m m.dense s.nNeg ∅
  | .mixed =>
      let first := draw normText s rng 0 m m.bm25 (share s fl) ∅
      let second := draw normText s rng 1 m m.dense (s.nNeg - first.1.length) first.2
      (first.1 ++ second.1, second.2)

/-- `group`: the query, a positive, the negatives. -/
def group (m : MinedQuery) (rng : Rng) : String × String × List String :=
  let cands := m.pos.filter fun p => (s.passages p).isSome
  let pos := cands.getD (rng.integers cands.length) ""
  let (negs, taken) := primary normText s fl m rng
  if negs.length < s.nNeg then
    (m.qid, pos, negs ++ (draw normText s rng 2 m m.random (s.nNeg - negs.length) taken).1)
  else (m.qid, pos, negs)

/-! ## Acceptable passages -/

/-- What may be drawn from a pool. -/
def acceptable (m : MinedQuery) (pool : List String) : Finset String :=
  pool.toFinset.filter fun pid => ok normText s m pid ∅ = true

variable {normText s fl}

theorem ok_taken {m : MinedQuery} {pid : String} {taken : Finset String} :
    ok normText s m pid taken = true ↔ pid ∉ taken ∧ ok normText s m pid ∅ = true := by
  rw [ok, ok]
  by_cases known : pid ∈ taken
  · rw [if_pos (Or.inl known)]
    exact iff_of_false Bool.false_ne_true fun both => both.1 known
  · simp only [known, false_or, Finset.notMem_empty, not_false_eq_true, true_and]

/-- `negs` are distinct elements of `V`: `n` of them, or all. -/
structure Drawn (n : Int) (negs : List String) (V : Finset String) : Prop where
  nodup : negs.Nodup
  inside : negs.toFinset ⊆ V
  short : (negs.length : Int) ≤ n
  full : (negs.length : Int) = n ∨ V ⊆ negs.toFinset

theorem Drawn.card_eq {n : Int} {negs : List String} {V : Finset String} (drawn : Drawn n negs V) :
    negs.toFinset.card = negs.length := List.toFinset_card_of_nodup drawn.nodup

/-- There are `n` exactly if there is enough to draw from. -/
theorem Drawn.full_iff {n : Nat} {negs : List String} {V : Finset String} (drawn : Drawn n negs V) :
    negs.length = n ↔ n ≤ V.card := by
  have card := drawn.card_eq
  constructor
  · intro full
    rw [← full, ← card]
    exact Finset.card_le_card drawn.inside
  · intro enough
    rcases drawn.full with full | all
    · exact_mod_cast full
    · have more := Finset.card_le_card all
      have short : negs.length ≤ n := by exact_mod_cast drawn.short
      omega

/-- Drawing on, from what is not there yet. -/
theorem Drawn.append {n : Int} {negs more : List String} {A : Finset String} (nodup : negs.Nodup)
    (drawn : Drawn (n - negs.length) more (A \ negs.toFinset)) :
    Drawn n (negs ++ more) (negs.toFinset ∪ A) where
  nodup := by
    refine List.nodup_append.mpr ⟨nodup, drawn.nodup, fun x old y new same => ?_⟩
    have apart := (Finset.mem_sdiff.mp (drawn.inside (List.mem_toFinset.mpr new))).2
    exact apart (List.mem_toFinset.mpr (same ▸ old))
  inside := by
    rw [List.toFinset_append]
    exact Finset.union_subset_union_right (drawn.inside.trans Finset.sdiff_subset)
  short := by
    have short := drawn.short
    rw [List.length_append, Nat.cast_add]
    omega
  full := by
    rw [List.length_append, Nat.cast_add, List.toFinset_append]
    rcases drawn.full with full | all
    · exact Or.inl (by omega)
    · right
      rw [← Finset.union_sdiff_self_eq_union]
      exact Finset.union_subset_union_right all

/-- **One draw** from any candidates. -/
theorem drawLoop_spec (normText : String → ν) (s : GroupSampler ν) (m : MinedQuery) {n : Int}
    (pids out : List String) (taken : Finset String) (room : (out.length : Int) ≤ n) :
    ∃ chosen, drawLoop normText s m n pids out taken = (out ++ chosen, taken ∪ chosen.toFinset) ∧
      Drawn (n - out.length) chosen (acceptable normText s m pids \ taken) := by
  induction pids generalizing out taken with
  | nil =>
      refine ⟨[], by simp [drawLoop], List.nodup_nil, Finset.empty_subset _, by simpa using room,
        Or.inr ?_⟩
      rw [acceptable, List.toFinset_nil, Finset.filter_empty]
      exact Finset.sdiff_subset
  | cons pid rest ih =>
      rw [drawLoop]
      split_ifs with enough good
      · refine ⟨[], by simp, List.nodup_nil, Finset.empty_subset _, by simpa using room, Or.inl ?_⟩
        rw [List.length_nil]
        omega
      · obtain ⟨new, fine⟩ := ok_taken.mp good
        have length : (out ++ [pid]).length = out.length + 1 := by simp
        obtain ⟨chosen, run, drawn⟩ := ih (out ++ [pid]) (insert pid taken) (by rw [length]; omega)
        have here : acceptable normText s m (pid :: rest) =
            insert pid (acceptable normText s m rest) := by
          rw [acceptable, List.toFinset_cons, Finset.filter_insert, if_pos fine]
          rfl
        have single : Drawn (n - out.length - [pid].length) chosen
            ((acceptable normText s m (pid :: rest) \ taken) \ [pid].toFinset) := by
          have same : (acceptable normText s m (pid :: rest) \ taken) \ [pid].toFinset =
              acceptable normText s m rest \ insert pid taken := by
            rw [here]
            ext x
            simp only [Finset.mem_sdiff, Finset.mem_insert, List.mem_toFinset, List.mem_singleton, not_or]
            tauto
          rw [same]
          have less : n - (out.length : Int) - [pid].length = n - ((out ++ [pid]).length : Nat) := by
            rw [length, List.length_singleton]
            omega
          rw [less]
          exact drawn
        have whole := Drawn.append (List.nodup_singleton pid) single
        refine ⟨pid :: chosen, ?_, ?_⟩
        · rw [run, List.append_assoc, List.toFinset_cons, Finset.insert_union, Finset.union_insert]
          rfl
        · have grown : [pid].toFinset ∪ (acceptable normText s m (pid :: rest) \ taken) =
              acceptable normText s m (pid :: rest) \ taken := by
            refine Finset.union_eq_right.mpr fun x mem => ?_
            rw [List.mem_toFinset, List.mem_singleton] at mem
            subst mem
            exact Finset.mem_sdiff.mpr ⟨here ▸ Finset.mem_insert_self _ _, new⟩
          rw [grown] at whole
          exact whole
      · obtain ⟨chosen, run, drawn⟩ := ih out taken room
        refine ⟨chosen, run, ?_⟩
        have same : acceptable normText s m (pid :: rest) \ taken =
            acceptable normText s m rest \ taken := by
          ext x
          simp only [acceptable, Finset.mem_sdiff, Finset.mem_filter, List.mem_toFinset, List.mem_cons]
          constructor
          · rintro ⟨⟨rfl | mem, fine⟩, new⟩
            · exact absurd (ok_taken.mpr ⟨new, fine⟩) good
            · exact ⟨⟨mem, fine⟩, new⟩
          · rintro ⟨⟨mem, fine⟩, new⟩
            exact ⟨⟨Or.inr mem, fine⟩, new⟩
        rw [same]
        exact drawn

/-! ## A group -/

variable {m : MinedQuery} {rng : Rng}

theorem shuffled_perm {pool : List String} {order : List Nat} (perm : order.Perm (List.range pool.length)) :
    (order.filterMap fun j => pool[j]?).Perm pool := by
  refine (perm.filterMap _).trans (List.Perm.of_eq ?_)
  have all : (List.range pool.length).filterMap (fun j => pool[j]?) =
      (List.range pool.length).map fun j => pool.getD j "" := by
    refine List.filterMap_eq_map_iff_forall_eq_some.mpr fun j mem => ?_
    have inside := List.mem_range.mp mem
    rw [List.getElem?_eq_getElem inside, List.getD_eq_getElem _ _ inside]
  rw [all]
  refine List.ext_getElem (by rw [List.length_map, List.length_range]) fun i below below' => ?_
  rw [List.getElem_map, List.getElem_range]
  exact List.getD_eq_getElem _ _ below'

/-- **One draw** of a lawful generator. -/
theorem draw_spec (normText : String → ν) (s : GroupSampler ν) (m : MinedQuery) (lawful : rng.Lawful)
    (c : Nat) (pool : List String) {n : Int} (taken : Finset String) (room : 0 ≤ n) :
    ∃ chosen, draw normText s rng c m pool n taken = (chosen, taken ∪ chosen.toFinset) ∧
      Drawn n chosen (acceptable normText s m pool \ taken) := by
  have perm := shuffled_perm (lawful.permutation_perm c pool.length)
  obtain ⟨chosen, run, drawn⟩ := drawLoop_spec normText s m
    ((rng.permutation c pool.length).filterMap fun j => pool[j]?) [] taken (n := n) room
  have same : acceptable normText s m ((rng.permutation c pool.length).filterMap fun j => pool[j]?) =
      acceptable normText s m pool := by
    rw [acceptable, acceptable, List.toFinset_eq_of_perm _ _ perm]
  rw [same, List.length_nil, Nat.cast_zero, sub_zero] at drawn
  exact ⟨chosen, run, drawn⟩

/-- Drawing on after a draw. -/
theorem draw_more (normText : String → ν) (s : GroupSampler ν) (m : MinedQuery) (lawful : rng.Lawful)
    (c : Nat) (pool : List String) {n : Int} {negs : List String}
    (nodup : negs.Nodup) (room : (negs.length : Int) ≤ n) :
    ∃ chosen, draw normText s rng c m pool (n - negs.length) negs.toFinset =
        (chosen, (negs ++ chosen).toFinset) ∧
      Drawn n (negs ++ chosen) (negs.toFinset ∪ acceptable normText s m pool) := by
  obtain ⟨chosen, run, drawn⟩ := draw_spec normText s m lawful c pool
    negs.toFinset (n := n - negs.length) (by omega)
  exact ⟨chosen, by rw [run, List.toFinset_append], Drawn.append nodup drawn⟩

omit [DecidableEq ν] in
/-- A share of `n` is between nothing and `n`. -/
theorem share_bounds (represented : fl s.nNeg = s.nNeg) (mix : 0 ≤ s.mixBm25 ∧ s.mixBm25 ≤ 1) :
    0 ≤ share s fl ∧ share s fl ≤ s.nNeg := by
  have nonneg : ((0 : Int) : ℚ) ≤ fl (s.nNeg * s.mixBm25) := by
    rw [Int.cast_zero]
    exact fl.nonneg (mul_nonneg (Nat.cast_nonneg _) mix.1)
  have most : fl (s.nNeg * s.mixBm25) ≤ ((s.nNeg : Int) : ℚ) := by
    rw [Int.cast_natCast]
    exact fl.le_of_le represented (mul_le_of_le_one_right (Nat.cast_nonneg _) mix.2)
  have low := Rounding.halfEven_mono nonneg
  have high := Rounding.halfEven_mono most
  rw [Rounding.halfEven_intCast] at low high
  exact ⟨low, high⟩

/-- What the draws of a strategy can choose from; `first` is what `mixed` drew from BM25. -/
def sources (normText : String → ν) (s : GroupSampler ν) (m : MinedQuery) (first : Finset String) :
    Finset String :=
  match s.strategy with
  | .random => acceptable normText s m m.random
  | .bm25Hard => acceptable normText s m m.bm25
  | .denseHard => acceptable normText s m m.dense
  | .mixed => first ∪ acceptable normText s m m.dense

/-- The first draw of `mixed`. -/
def firstDraw (normText : String → ν) (s : GroupSampler ν) (fl : Rounding ℚ) (m : MinedQuery) (rng : Rng) :
    List String :=
  (draw normText s rng 0 m m.bm25 (share s fl) ∅).1

variable (bounds : 0 ≤ share s fl ∧ share s fl ≤ s.nNeg) (lawful : rng.Lawful)

include bounds lawful

theorem firstDraw_spec (normText : String → ν) (m : MinedQuery) :
    Drawn (share s fl) (firstDraw normText s fl m rng) (acceptable normText s m m.bm25) := by
  obtain ⟨chosen, run, drawn⟩ := draw_spec normText s m lawful 0 m.bm25 ∅ bounds.1
  rw [firstDraw, run]
  rwa [Finset.sdiff_empty] at drawn

theorem primary_spec (normText : String → ν) (m : MinedQuery) :
    ∃ negs, primary normText s fl m rng = (negs, negs.toFinset) ∧
      Drawn s.nNeg negs (sources normText s m (firstDraw normText s fl m rng).toFinset) := by
  have one (pool : List String) : ∃ negs, draw normText s rng 0 m pool s.nNeg ∅ = (negs, negs.toFinset) ∧
      Drawn s.nNeg negs (acceptable normText s m pool) := by
    obtain ⟨chosen, run, drawn⟩ := draw_spec normText s m lawful 0 pool ∅
      (n := s.nNeg) (Nat.cast_nonneg _)
    refine ⟨chosen, by rw [run, Finset.empty_union], ?_⟩
    rwa [Finset.sdiff_empty] at drawn
  rw [primary, sources]
  cases s.strategy with
  | random => exact one m.random
  | bm25Hard => exact one m.bm25
  | denseHard => exact one m.dense
  | mixed =>
      obtain ⟨first, run, drawn⟩ := draw_spec normText s m lawful 0 m.bm25 ∅ bounds.1
      have is_first : firstDraw normText s fl m rng = first := by rw [firstDraw, run]
      obtain ⟨second, run', drawn'⟩ := draw_more normText s m lawful 1 m.dense
        drawn.nodup (drawn.short.trans bounds.2)
      refine ⟨first ++ second, ?_, is_first ▸ drawn'⟩
      dsimp only
      rw [run, Finset.empty_union, run']

/-- **The negatives of a group** are drawn from the pools of its strategy and the random pool. -/
theorem group_drawn (normText : String → ν) (m : MinedQuery) :
    Drawn s.nNeg (group normText s fl m rng).2.2
      (sources normText s m (firstDraw normText s fl m rng).toFinset ∪
        acceptable normText s m m.random) := by
  obtain ⟨negs, run, drawn⟩ := primary_spec bounds lawful normText m
  rw [group, run]
  dsimp only
  split_ifs with few
  · obtain ⟨more, run', drawn'⟩ := draw_more normText s m lawful 2 m.random
      drawn.nodup drawn.short
    rw [run']
    -- a primary draw that is short has taken everything
    have all : negs.toFinset = sources normText s m (firstDraw normText s fl m rng).toFinset := by
      refine drawn.inside.antisymm (drawn.full.resolve_left fun full => ?_)
      omega
    rw [all] at drawn'
    exact drawn'
  · have full : (negs.length : Int) = s.nNeg := by
      have short := drawn.short
      omega
    exact ⟨drawn.nodup, drawn.inside.trans Finset.subset_union_left, drawn.short, Or.inl full⟩

omit bounds lawful

/-! ## Groups are sound when there is enough to draw from -/

theorem Drawn.card_min {n : Int} {negs : List String} {V : Finset String} (drawn : Drawn n negs V) :
    negs.toFinset.card = min n.toNat V.card := by
  have card := drawn.card_eq
  have short := drawn.short
  have most := Finset.card_le_card drawn.inside
  rcases drawn.full with full | all
  · omega
  · have least := Finset.card_le_card all
    omega

/-- What is asked of a group. -/
structure Sound (normText : String → ν) (s : GroupSampler ν) (m : MinedQuery)
    (g : String × String × List String) : Prop where
  query : g.1 = m.qid
  positive : g.2.1 ∈ m.pos ∧ (s.passages g.2.1).isSome
  count : g.2.2.length = s.nNeg
  distinct : g.2.2.Nodup
  negative : ∀ pid ∈ g.2.2, pid ∉ s.judged m.qid ∧ pid ∉ m.pos ∧
    ∃ t, s.passages pid = some t ∧ ∀ p ∈ m.pos, ∀ t', s.passages p = some t' → normText t ≠ normText t'

/-- There are enough acceptable passages for every random stream.  `mixed` may draw from BM25 what
the other pools have too. -/
def Enough (normText : String → ν) (s : GroupSampler ν) (fl : Rounding ℚ) (m : MinedQuery) : Prop :=
  match s.strategy with
  | .random => s.nNeg ≤ (acceptable normText s m m.random).card
  | .bm25Hard =>
      s.nNeg ≤ (acceptable normText s m m.bm25 ∪ acceptable normText s m m.random).card
  | .denseHard =>
      s.nNeg ≤ (acceptable normText s m m.dense ∪ acceptable normText s m m.random).card
  | .mixed =>
      let others := acceptable normText s m m.dense ∪ acceptable normText s m m.random
      s.nNeg ≤ others.card + (min (share s fl).toNat
        (acceptable normText s m m.bm25).card - (acceptable normText s m m.bm25 ∩ others).card)

/-- The least a union with `U` can have. -/
theorem card_union_ge {B A U : Finset String} (inside : B ⊆ A) :
    U.card + (B.card - (A ∩ U).card) ≤ (B ∪ U).card := by
  have both : (B ∩ U).card ≤ (A ∩ U).card := Finset.card_le_card (Finset.inter_subset_inter_right inside)
  have sum := Finset.card_union_add_card_inter B U
  have part : (B ∩ U).card ≤ B.card := Finset.card_le_card Finset.inter_subset_left
  omega

/-- It is reached by a `B` that prefers `U`. -/
theorem card_union_le {B A U : Finset String} (prefers : B ⊆ U ∨ A ∩ U ⊆ B) :
    (B ∪ U).card ≤ U.card + (B.card - (A ∩ U).card) := by
  rcases prefers with inside | all
  · rw [Finset.union_eq_right.mpr inside]
    exact Nat.le_add_right _ _
  · have sum := Finset.card_union_add_card_inter B U
    have both : A ∩ U ⊆ B ∩ U := Finset.subset_inter all Finset.inter_subset_right
    have more := Finset.card_le_card both
    omega

/-! ### A stream that prefers a set -/

theorem drawLoop_append {n : Int} (front back out : List String) (taken : Finset String) :
    drawLoop normText s m n (front ++ back) out taken =
      drawLoop normText s m n back (drawLoop normText s m n front out taken).1
        (drawLoop normText s m n front out taken).2 := by
  induction front generalizing out taken with
  | nil => rfl
  | cons pid rest ih =>
      rw [List.cons_append, drawLoop, drawLoop]
      split_ifs with enough good
      · cases back with
        | nil => rfl
        | cons pid' back => rw [drawLoop, if_pos enough]
      · exact ih _ _
      · exact ih _ _

/-- The places of a pool, those of `U` first. -/
def preferring (U : Finset String) (pool : List String) (n : Nat) : List Nat :=
  (List.range n).filter (fun j => decide (pool.getD j "" ∈ U)) ++
    (List.range n).filter fun j => !decide (pool.getD j "" ∈ U)

def preferringRng (U : Finset String) (pool : List String) : Rng where
  integers _ := 0
  permutation _ n := preferring U pool n

theorem preferringRng_lawful (U : Finset String) (pool : List String) : (preferringRng U pool).Lawful where
  integers_lt _ positive := positive
  permutation_perm _ n := List.filter_append_perm _ (List.range n)

/-- The first draw of `mixed` prefers `U`. -/
theorem firstDraw_prefers (bounds : 0 ≤ share s fl ∧ share s fl ≤ s.nNeg) (U : Finset String) :
    (firstDraw normText s fl m (preferringRng U m.bm25)).toFinset ⊆ U ∨
      acceptable normText s m m.bm25 ∩ U ⊆
        (firstDraw normText s fl m (preferringRng U m.bm25)).toFinset := by
  generalize amount : share s fl = nb at *
  let front := ((List.range m.bm25.length).filter fun j => decide (m.bm25.getD j "" ∈ U)).filterMap
    fun j => m.bm25[j]?
  let back := ((List.range m.bm25.length).filter fun j => !decide (m.bm25.getD j "" ∈ U)).filterMap
    fun j => m.bm25[j]?
  have members (pid : String) : pid ∈ front ↔ pid ∈ m.bm25 ∧ pid ∈ U := by
    rw [List.mem_filterMap]
    constructor
    · rintro ⟨j, mem, found⟩
      obtain ⟨inside, preferred⟩ := List.mem_filter.mp mem
      obtain ⟨less, rfl⟩ := List.getElem?_eq_some_iff.mp found
      rw [decide_eq_true_eq, List.getD_eq_getElem _ _ less] at preferred
      exact ⟨List.getElem_mem less, preferred⟩
    · rintro ⟨mem, preferred⟩
      obtain ⟨j, less, rfl⟩ := List.getElem_of_mem mem
      refine ⟨j, List.mem_filter.mpr ⟨List.mem_range.mpr less, ?_⟩, List.getElem?_eq_getElem less⟩
      rw [decide_eq_true_eq, List.getD_eq_getElem _ _ less]
      exact preferred
  have acceptable_front : acceptable normText s m front = acceptable normText s m m.bm25 ∩ U := by
    ext pid
    rw [acceptable, acceptable, Finset.mem_inter, Finset.mem_filter, Finset.mem_filter, List.mem_toFinset,
      List.mem_toFinset, members]
    tauto
  obtain ⟨chosen, run, drawn⟩ := drawLoop_spec normText s m front [] ∅ (n := nb) (by simpa using bounds.1)
  rw [List.length_nil, Nat.cast_zero, sub_zero, Finset.sdiff_empty, acceptable_front] at drawn
  have drawn_is : firstDraw normText s fl m (preferringRng U m.bm25) =
      (drawLoop normText s m nb back chosen chosen.toFinset).1 := by
    rw [firstDraw, draw, amount]
    change (drawLoop normText s m nb ((preferring U m.bm25 m.bm25.length).filterMap _) [] ∅).1 = _
    rw [preferring, List.filterMap_append, drawLoop_append]
    change (drawLoop normText s m nb back (drawLoop normText s m nb front [] ∅).1
      (drawLoop normText s m nb front [] ∅).2).1 = _
    rw [run, List.nil_append, Finset.empty_union]
  rw [drawn_is]
  rcases drawn.full with full | all
  · -- the first part was enough
    left
    have stops : (drawLoop normText s m nb back chosen chosen.toFinset).1 = chosen := by
      cases back with
      | nil => rfl
      | cons pid rest => rw [drawLoop, if_pos full]
    rw [stops]
    exact drawn.inside.trans Finset.inter_subset_right
  · right
    obtain ⟨more, run', -⟩ := drawLoop_spec normText s m back chosen chosen.toFinset drawn.short
    rw [run', List.toFinset_append]
    exact all.trans Finset.subset_union_left

/-! ### The condition -/

/-- The number of negatives, for every stream. -/
theorem count_iff (bounds : 0 ≤ share s fl ∧ share s fl ≤ s.nNeg) :
    (∀ rng : Rng, rng.Lawful → (group normText s fl m rng).2.2.length = s.nNeg) ↔
      Enough normText s fl m := by
  have each (rng : Rng) (lawful : rng.Lawful) :=
    (group_drawn bounds lawful normText m).full_iff
  -- the pools that are drawn from in any case
  have fixed {V : Finset String} (same : ∀ first, sources normText s m first ∪
      acceptable normText s m m.random = V) :
      (∀ rng : Rng, rng.Lawful → (group normText s fl m rng).2.2.length = s.nNeg) ↔ s.nNeg ≤ V.card := by
    constructor
    · intro all
      have lawful := preferringRng_lawful ∅ []
      rw [← same, ← each _ lawful]
      exact all _ lawful
    · intro enough rng lawful
      rw [each rng lawful, same]
      exact enough
  rw [Enough]
  cases kind : s.strategy with
  | random =>
      refine fixed fun first => ?_
      rw [sources, kind]
      exact Finset.union_self _
  | bm25Hard => exact fixed fun first => by rw [sources, kind]
  | denseHard => exact fixed fun first => by rw [sources, kind]
  | mixed =>
      dsimp only
      have whole (first : Finset String) : sources normText s m first ∪ acceptable normText s m m.random =
          first ∪ (acceptable normText s m m.dense ∪ acceptable normText s m m.random) := by
        rw [sources, kind]
        exact Finset.union_assoc _ _ _
      generalize others : acceptable normText s m m.dense ∪ acceptable normText s m m.random = U at *
      constructor
      · intro all
        have lawful := preferringRng_lawful U m.bm25
        have enough := (each _ lawful).mp (all _ lawful)
        rw [whole] at enough
        have size := (firstDraw_spec bounds lawful normText m).card_min
        rw [← size]
        exact enough.trans (card_union_le (firstDraw_prefers bounds U))
      · intro enough rng lawful
        have drawn := firstDraw_spec bounds lawful normText m
        rw [each rng lawful, whole]
        rw [← drawn.card_min] at enough
        exact enough.trans (card_union_ge drawn.inside)

variable {mined : List MinedQuery} {queries passages : String → Option String} {strategy : Strategy}
  {nNeg : Nat} {mixBm25 : ℚ} {judged : String → List String}

omit [DecidableEq ν] in
/-- The texts of the positives of a query. -/
theorem lookup_posText (distinct : (mined.map MinedQuery.qid).Nodup)
    (mem : m ∈ (init normText mined queries passages strategy nNeg mixBm25 judged).mined) :
    (init normText mined queries passages strategy nNeg mixBm25 judged).posText.lookup m.qid =
      some ((m.pos.filterMap passages).map normText) := by
  have keys : (Dict.keys ((init normText mined queries passages strategy nNeg mixBm25 judged).mined.map
      fun m => (m.qid, (m.pos.filterMap passages).map normText))).Nodup := by
    rw [Dict.keys, List.map_map]
    exact (List.filter_sublist.map MinedQuery.qid).nodup distinct
  have filled : (init normText mined queries passages strategy nNeg mixBm25 judged).posText =
      (init normText mined queries passages strategy nNeg mixBm25 judged).mined.map
        fun m => (m.qid, (m.pos.filterMap passages).map normText) := Dict.fill_nil keys
  rw [filled]
  exact Dict.lookup_of_mem keys (List.mem_map.mpr ⟨m, mem, rfl⟩)

/-- **Training groups**: every group of a query is sound, for every random stream, exactly if the
query has enough acceptable passages. -/
theorem group_sound_iff (made : s = init normText mined queries passages strategy nNeg mixBm25 judged)
    (distinct : (mined.map MinedQuery.qid).Nodup) (represented : fl nNeg = nNeg)
    (mix : 0 ≤ mixBm25 ∧ mixBm25 ≤ 1) (mem : m ∈ s.mined) :
    (∀ rng : Rng, rng.Lawful → Sound normText s m (group normText s fl m rng)) ↔
      Enough normText s fl m := by
  subst made
  have texts := lookup_posText distinct mem
  have some_available : (m.pos.any fun p => (passages p).isSome) = true :=
    (Bool.and_eq_true_iff.mp (List.mem_filter.mp mem).2).2
  have bounds := share_bounds (s := init normText mined queries passages strategy nNeg mixBm25 judged)
    represented mix
  have available : (init normText mined queries passages strategy nNeg mixBm25 judged).passages =
      passages := rfl
  rw [← count_iff bounds]
  generalize init normText mined queries passages strategy nNeg mixBm25 judged = s at *
  subst available
  refine forall_congr' fun rng => imp_congr_right fun lawful => ⟨fun sound => sound.count, fun count => ?_⟩
  have drawn := group_drawn bounds lawful normText m
  have head : (group normText s fl m rng).1 = m.qid ∧ (group normText s fl m rng).2.1 =
      (m.pos.filter fun p => (s.passages p).isSome).getD
        (rng.integers (m.pos.filter fun p => (s.passages p).isSome).length) "" := by
    rw [group]
    dsimp only
    split_ifs
    · exact ⟨rfl, rfl⟩
    · exact ⟨rfl, rfl⟩
  refine ⟨head.1, ?_, count, drawn.nodup, fun pid negative => ?_⟩
  · -- the index is inside the candidates
    obtain ⟨p, is_pos, present⟩ := List.any_eq_true.mp some_available
    have listed : p ∈ m.pos.filter fun p => (s.passages p).isSome :=
      List.mem_filter.mpr ⟨is_pos, present⟩
    have inside := lawful.integers_lt _ (List.length_pos_of_mem listed)
    rw [head.2, List.getD_eq_getElem _ _ inside]
    exact List.mem_filter.mp (List.getElem_mem inside)
  · have fine : ok normText s m pid ∅ = true := by
      have source := drawn.inside (List.mem_toFinset.mpr negative)
      have passes {pool : List String} (mem : pid ∈ acceptable normText s m pool) :=
        (Finset.mem_filter.mp mem).2
      rcases Finset.mem_union.mp source with chosen | random
      · rw [sources] at chosen
        cases kind : s.strategy with
        | random => rw [kind] at chosen; exact passes chosen
        | bm25Hard => rw [kind] at chosen; exact passes chosen
        | denseHard => rw [kind] at chosen; exact passes chosen
        | mixed =>
            rw [kind] at chosen
            rcases Finset.mem_union.mp chosen with first | second
            · exact passes ((firstDraw_spec bounds lawful normText m).inside first)
            · exact passes second
      · exact passes random
    rw [ok] at fine
    split_ifs at fine with bad
    obtain ⟨-, not_pos, not_judged⟩ := not_or.mp bad |>.imp id not_or.mp
    refine ⟨not_judged, not_pos, ?_⟩
    cases text : s.passages pid with
    | none =>
        rw [text] at fine
        cases fine
    | some t =>
        rw [text, texts] at fine
        refine ⟨t, rfl, fun p is_pos t' text' same => of_decide_eq_true fine ?_⟩
        rw [Option.getD_some, same]
        exact List.mem_map_of_mem (List.mem_filterMap.mpr ⟨p, is_pos, text'⟩)

/-! ### A query with one passage from each retriever -/

def corpus : String → Option String := fun pid =>
  [("p", "a"), ("b1", "b"), ("d1", "d"), ("r1", "r"), ("r2", "a")].lookup pid

def poor : MinedQuery := ⟨"q", ["p"], ["b1"], ["d1"], ["r1", "r2"]⟩

/-- A sampler for `n` negatives. -/
def sampler (strategy : Strategy) (n : Nat) : GroupSampler String :=
  init id [poor] (fun _ => some "") corpus strategy n (1 / 2) fun _ => []

theorem poor_mem (strategy : Strategy) (n : Nat) : poor ∈ (sampler strategy n).mined :=
  List.mem_filter.mpr ⟨List.mem_singleton_self _, rfl⟩

/-- Two of three negatives are wanted from BM25, one is there, and the random pool has the third. -/
theorem group_sound_iff_topped : Sound id (sampler .mixed 3) poor
    (group id (sampler .mixed 3) Rounding.double poor (preferringRng ∅ [])) := by
  have represented : Rounding.double ((3 : ℕ) : ℚ) = (3 : ℕ) := Rounding.whole_binary _ 3 (by norm_num)
  have enough : Enough id (sampler .mixed 3) Rounding.double poor := by
    have wanted : share (sampler .mixed 3) Rounding.double = 2 := by decide +kernel
    change 3 ≤ _ + (min (share (sampler .mixed 3) Rounding.double).toNat _ - _)
    rw [wanted]
    decide
  have distinct : ([poor].map MinedQuery.qid).Nodup := by decide
  exact (group_sound_iff rfl distinct represented ⟨by norm_num, by norm_num⟩ (poor_mem .mixed 3)).mpr enough
    _ (preferringRng_lawful ∅ [])

/-- `r2` has the text of the positive, so two negatives are all there are. -/
theorem not_group_sound : ¬∀ rng : Rng, rng.Lawful → Sound id (sampler .bm25Hard 3) poor
    (group id (sampler .bm25Hard 3) Rounding.double poor rng) := by
  intro all
  have count := (all _ (preferringRng_lawful ∅ [])).count
  exact absurd count (by decide)

end GroupSampler

end HybridSearch.Rerank
