/-
# Engine.ScoreBounds -- the score bounds the builder writes are bounds

`bound_of` folds the postings of a block into a `BoundInfo`, and the bound of a term is
merged from those of its blocks.  `Bounded.Covers` is what a bound knows of the postings
it stands for, and what one step of either loop keeps.

* `Covers.bound_sound`: no contribution exceeds the bound, whatever the parameters of the query;
* `Covers.bound_attained`: under the parameters of the build one contribution is the bound.
-/
import HybridSearch.Engine.CodecRoundTrip
import HybridSearch.Engine.IndexBuilder

namespace HybridSearch.Engine

set_option autoImplicit false

namespace Bounded

/-- What a bound knows of the postings `ps`. -/
structure Covers (ds : DocStats) (ps : List (Nat × Nat)) (acc : Bounded) : Prop where
  tf : ∀ p ∈ ps, p.2 ≤ acc.bi.maxTf
  dl : ∀ p ∈ ps, acc.bi.minDl ≤ ds.dls.getD p.1 0
  pos : (∀ p ∈ ps, 0 < ds.dls.getD p.1 0) → 0 < acc.bi.minDl
  best : ∀ m, ∀ p ∈ ps, (ds.ofPosting p).x m ≤ acc.x m
  attained : ∀ m, ps ≠ [] → ∃ p ∈ ps, acc.bi.bestTf m = p.2 ∧ acc.bi.bestDl m = ds.dls.getD p.1 0 ∧
    acc.x m = (ds.ofPosting p).x m
  vacant : ps = [] → ∀ m, acc.x m = -1
  nonneg : ∀ m, ∀ p ∈ ps, 0 ≤ (ds.ofPosting p).x m

namespace Covers

variable {ds : DocStats} {ps qs : List (Nat × Nat)} {acc next : Bounded}

theorem start : start.Covers ds [] where
  tf p mem := absurd mem List.not_mem_nil
  dl p mem := absurd mem List.not_mem_nil
  pos _ := by decide
  best m p mem := absurd mem List.not_mem_nil
  attained m nonempty := absurd rfl nonempty
  vacant _ m := rfl
  nonneg m p mem := absurd mem List.not_mem_nil

theorem single {p : Nat × Nat} (nonneg : ∀ m, 0 ≤ (ds.ofPosting p).x m) : (ds.ofPosting p).Covers ds [p] where
  tf q mem := by rw [List.mem_singleton.mp mem]; exact le_rfl
  dl q mem := by rw [List.mem_singleton.mp mem]; exact le_rfl
  pos all := all p (List.mem_singleton_self p)
  best m q mem := by rw [List.mem_singleton.mp mem]
  attained m _ := ⟨p, List.mem_singleton_self p, rfl, rfl, rfl⟩
  vacant empty := absurd empty (List.cons_ne_nil p [])
  nonneg m q mem := by rw [List.mem_singleton.mp mem]; exact nonneg m

theorem low (covers : acc.Covers ds ps) (m : Model) : -1 ≤ acc.x m := by
  rcases eq_or_ne ps [] with empty | nonempty
  · exact (covers.vacant empty m).ge
  · obtain ⟨p, mem, -, -, same⟩ := covers.attained m nonempty
    have := covers.nonneg m p mem
    linarith

/-- **One step of either loop.** -/
theorem absorb (covers : acc.Covers ds ps) (covers' : next.Covers ds qs) :
    (acc.absorb next).Covers ds (ps ++ qs) where
  tf p mem := by
    rcases List.mem_append.mp mem with old | new
    · exact (covers.tf p old).trans (le_max_left _ _)
    · exact (covers'.tf p new).trans (le_max_right _ _)
  dl p mem := by
    rcases List.mem_append.mp mem with old | new
    · exact (min_le_left _ _).trans (covers.dl p old)
    · exact (min_le_right _ _).trans (covers'.dl p new)
  pos all := lt_min (covers.pos fun p mem => all p (List.mem_append_left qs mem))
    (covers'.pos fun p mem => all p (List.mem_append_right ps mem))
  best m p mem := by
    simp only [Bounded.absorb]
    rcases List.mem_append.mp mem with old | new
    · split_ifs with better
      · exact (covers.best m p old).trans better.le
      · exact covers.best m p old
    · split_ifs with better
      · exact covers'.best m p new
      · exact (covers'.best m p new).trans (not_lt.mp better)
  attained m nonempty := by
    simp only [Bounded.absorb]
    split_ifs with better
    · have new : qs ≠ [] := by
        rintro rfl
        have low := covers.low m
        rw [covers'.vacant rfl m] at better
        exact absurd better (not_lt.mpr low)
      obtain ⟨q, mem, found⟩ := covers'.attained m new
      exact ⟨q, List.mem_append_right ps mem, found⟩
    · have old : ps ≠ [] := by
        rintro rfl
        obtain ⟨q, mem, -, -, same⟩ := covers'.attained m nonempty
        have := covers'.nonneg m q mem
        rw [covers.vacant rfl m, same] at better
        linarith
      obtain ⟨p, mem, found⟩ := covers.attained m old
      exact ⟨p, List.mem_append_left qs mem, found⟩
  vacant empty m := by
    obtain ⟨rfl, rfl⟩ := List.append_eq_nil_iff.mp empty
    simp only [Bounded.absorb, covers.vacant rfl m, covers'.vacant rfl m, lt_irrefl, if_false]
  nonneg m p mem := by
    rcases List.mem_append.mp mem with old | new
    · exact covers.nonneg m p old
    · exact covers'.nonneg m p new

end Covers

/-- A loop of such steps. -/
theorem covers_foldl {α : Type} {ds : DocStats} {f : α → Bounded} {part : α → List (Nat × Nat)} {xs : List α}
    (each : ∀ x ∈ xs, (f x).Covers ds (part x)) {ps : List (Nat × Nat)} {acc : Bounded} (covers : acc.Covers ds ps) :
    (xs.foldl (fun acc x => acc.absorb (f x)) acc).Covers ds (ps ++ xs.flatMap part) := by
  induction xs generalizing ps acc with
  | nil =>
      rw [List.flatMap_nil, List.append_nil]
      exact covers
  | cons x rest ih =>
      obtain ⟨first, each⟩ := List.forall_mem_cons.mp each
      rw [List.flatMap_cons, ← List.append_assoc]
      exact ih each (covers.absorb first)

end Bounded

namespace DocStats

variable {ds : DocStats} {ps : List (Nat × Nat)} (nonneg : ∀ p ∈ ps, ∀ m, 0 ≤ (ds.ofPosting p).x m)

theorem flatMap_slice {α : Type} (xs : List α) : (List.range (blockCount xs.length)).flatMap (slice xs) = xs := by
  have run (m j : Nat) (covers : xs.length ≤ (j + m) * kBlockSize) :
      (List.range' j m).flatMap (slice xs) = xs.drop (j * kBlockSize) := by
    induction m generalizing j with
    | zero =>
        rw [List.drop_of_length_le (by simpa using covers)]
        rfl
    | succ m ih =>
        rw [List.range'_succ, List.flatMap_cons, ih (j + 1) (by rw [show j + 1 + m = j + (m + 1) by omega]; exact covers),
          Codec.slice_append_drop]
  rw [List.range_eq_range', run _ 0 (by rw [Nat.zero_add]; exact Codec.le_blockCount_mul _), Nat.zero_mul,
    List.drop_zero]

include nonneg

theorem boundOf_covers : (ds.boundOf ps).Covers ds ps := by
  have covers := Bounded.covers_foldl (fun p mem => Bounded.Covers.single (nonneg p mem)) Bounded.Covers.start
  rw [List.nil_append, List.flatMap_singleton'] at covers
  exact covers

theorem blockBound_covers (j : Nat) : (ds.boundOf (slice ps j)).Covers ds (slice ps j) :=
  boundOf_covers fun p mem => nonneg p (Codec.mem_of_mem_slice mem)

theorem termBound_covers : (ds.termBound ps).Covers ds ps := by
  have covers := @Bounded.covers_foldl _ ds _ _ (List.range (blockCount ps.length))
    (fun j _ => blockBound_covers nonneg j) _ _ Bounded.Covers.start
  rw [List.nil_append, flatMap_slice] at covers
  rw [termBound, blockBounds, List.foldl_map]
  exact covers

end DocStats

/-! ## What a query makes of them -/

/-- The scorer scores the documents of these statistics. -/
structure Scorer.Reads (ds : DocStats) (sc : Scorer) : Prop where
  range : sc.bn.InRange
  dl : ∀ d, sc.dl d = ds.dls.getD d 0
  norm : ∀ d, sc.norm d = SmallFloat.intToByte4 (ds.dls.getD d 0)
  coded : ∀ d, ds.norms.getD d 0 = SmallFloat.intToByte4 (ds.dls.getD d 0)
  tight : sc.exactBounds = true → ds.bn sc.bn.model = sc.bn

section Query

variable {ds : DocStats} {sc : Scorer} {ps : List (Nat × Nat)} {acc : Bounded} {w : ℚ}

theorem Scorer.Reads.contrib_eq (reads : sc.Reads ds) (w : ℚ) (d tf : Nat) :
    sc.contrib w d tf = bm25ScoreScaled w (bm25ScaledTf tf (sc.bn.invForLen (ds.dls.getD d 0))) := by
  rw [Scorer.contrib, Scorer.inv, reads.dl, reads.norm]
  rfl

theorem Scorer.Reads.x_eq (reads : sc.Reads ds) (tight : sc.exactBounds = true) (p : Nat × Nat) :
    (ds.ofPosting p).x sc.bn.model = bm25ScaledTf p.2 (sc.bn.invForLen (ds.dls.getD p.1 0)) := by
  simp only [DocStats.ofPosting]
  rw [reads.tight tight, reads.coded]
  rfl

theorem scaledTf_nonneg {bn : Bm25Norms} (range : bn.InRange) {dl : Nat} (pos : 0 < dl) (tf : Nat) :
    0 ≤ bm25ScaledTf tf (bn.invForLen dl) :=
  mul_nonneg (Nat.cast_nonneg tf) (bn.invForLen_pos range (.inr pos)).le

namespace Bounded.Covers

/-- **No contribution exceeds the bound.** -/
theorem bound_sound (covers : acc.Covers ds ps) (reads : sc.Reads ds) (pos : ∀ p ∈ ps, 0 < ds.dls.getD p.1 0)
    (weight : 0 ≤ w) {p : Nat × Nat} (mem : p ∈ ps) : sc.contrib w p.1 p.2 ≤ sc.bound w acc.bi := by
  have scaled := scaledTf_nonneg reads.range (pos p mem) p.2
  rw [reads.contrib_eq, Scorer.bound]
  split_ifs with tight
  · obtain ⟨best, best_mem, tf_eq, dl_eq, same⟩ := covers.attained sc.bn.model (List.ne_nil_of_mem mem)
    have le := covers.best sc.bn.model p mem
    rw [same, reads.x_eq tight, reads.x_eq tight] at le
    dsimp only
    rw [tf_eq, dl_eq]
    exact scoreScaled_mono weight scaled le
  · refine scoreScaled_mono weight scaled (mul_le_mul ?_ ?_ ?_ (Nat.cast_nonneg _))
    · exact_mod_cast covers.tf p mem
    · exact Bm25Norms.invForLen_antitone reads.range (.inr (covers.pos pos)) (covers.dl p mem)
    · exact (Bm25Norms.invForLen_pos reads.range (.inr (pos p mem))).le

/-- **Under the parameters of the build some contribution is the bound.** -/
theorem bound_attained (covers : acc.Covers ds ps) (reads : sc.Reads ds) (tight : sc.exactBounds = true)
    (nonempty : ps ≠ []) (w : ℚ) : ∃ p ∈ ps, sc.bound w acc.bi = sc.contrib w p.1 p.2 := by
  obtain ⟨best, mem, tf_eq, dl_eq, -⟩ := covers.attained sc.bn.model nonempty
  refine ⟨best, mem, ?_⟩
  rw [reads.contrib_eq, Scorer.bound, if_pos tight]
  dsimp only
  rw [tf_eq, dl_eq]

end Bounded.Covers

end Query

end HybridSearch.Engine
