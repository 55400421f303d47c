/-
# Engine.ExhaustiveSafety -- term-at-a-time search scores what the others score

`run_exhaustive` reads the blocks of a posting list one behind the other
(`Clause.Sequential`), adds up each document's contributions and pushes what it touched.
On the scratch of a fresh thread the accumulator holds the sums of what has been read
(`Scratch.Added`), so a search that its deadline does not cut off pushes every matching
document with its full score.
-/
import HybridSearch.Engine.Clauses
import HybridSearch.Engine.CodecRoundTrip
import HybridSearch.Engine.Exhaustive
import HybridSearch.Engine.PrunedSafety

namespace HybridSearch.Engine

open HybridSearch.Theory

set_option autoImplicit false

/-! ## Adding up -/

/-- What the postings add to `d`. -/
def sumAt (ps : List (Nat × ℚ)) (d : Nat) : ℚ := (ps.map fun p => if p.1 = d then p.2 else 0).sum

theorem sumAt_append (ps qs : List (Nat × ℚ)) (d : Nat) : sumAt (ps ++ qs) d = sumAt ps d + sumAt qs d := by
  rw [sumAt, List.map_append, List.sum_append]
  rfl

theorem sumAt_singleton (p : Nat × ℚ) (d : Nat) : sumAt [p] d = if p.1 = d then p.2 else 0 := by
  rw [sumAt, List.map_cons, List.map_nil, List.sum_cons, List.sum_nil, add_zero]

namespace Scratch

/-- The scratch of `n` documents, after the postings `ps`. -/
structure Added (n : Nat) (ps : List (Nat × ℚ)) (s : Scratch) : Prop where
  sizes : s.acc.length = n
  seens : s.seen.length = n
  sum : ∀ d, s.acc.getD d 0 = sumAt ps d
  seen : ∀ d, s.seen.getD d false = true ↔ d ∈ s.touched
  nodup : s.touched.Nodup
  mem : ∀ d, d ∈ s.touched ↔ ∃ p ∈ ps, p.1 = d

theorem added_fresh (n : Nat) : (fresh.prepare n).Added n [] := by
  have zero (d : Nat) : (List.replicate n (0 : ℚ)).getD d 0 = 0 := by
    rw [List.getD_eq_getElem?_getD, List.getElem?_replicate]
    split <;> rfl
  have unseen (d : Nat) : (List.replicate n false).getD d false = false := by
    rw [List.getD_eq_getElem?_getD, List.getElem?_replicate]
    split <;> rfl
  rw [prepare]
  split_ifs with grows
  · refine ⟨List.length_replicate, List.length_replicate, zero, fun d => ?_, List.nodup_nil, fun d => ?_⟩
    · rw [unseen]
      exact ⟨fun same => absurd same Bool.false_ne_true, fun mem => absurd mem List.not_mem_nil⟩
    · exact ⟨fun mem => absurd mem List.not_mem_nil, fun ⟨p, mem, _⟩ => absurd mem List.not_mem_nil⟩
  · obtain rfl : n = 0 := Nat.eq_zero_of_not_pos grows
    refine ⟨rfl, rfl, fun d => rfl, fun d => ?_, List.nodup_nil, fun d => ?_⟩
    · exact ⟨fun same => absurd same Bool.false_ne_true, fun mem => absurd mem List.not_mem_nil⟩
    · exact ⟨fun mem => absurd mem List.not_mem_nil, fun ⟨p, mem, _⟩ => absurd mem List.not_mem_nil⟩

/-- One posting. -/
theorem Added.add {n : Nat} {ps : List (Nat × ℚ)} {s : Scratch} (added : s.Added n ps) {p : Nat × ℚ}
    (inside : p.1 < n) : ∃ s', s.add p.1 p.2 = some s' ∧ s'.Added n (ps ++ [p]) := by
  have sums (d : Nat) : (s.acc.set p.1 (s.acc.getD p.1 0 + p.2)).getD d 0 = sumAt (ps ++ [p]) d := by
    rw [getD_set, sumAt_append, sumAt_singleton, added.sum, added.sum]
    by_cases same : p.1 = d
    · subst same
      rw [if_pos ⟨rfl, added.sizes ▸ inside⟩, if_pos rfl]
    · rw [if_neg fun both => same both.1, if_neg same, add_zero]
  have more (d : Nat) : (∃ q ∈ ps ++ [p], q.1 = d) ↔ d ∈ s.touched ∨ p.1 = d := by
    rw [added.mem]
    simp only [List.mem_append, List.mem_singleton, or_and_right, exists_or, exists_eq_left]
  rw [add_eq (added.seens.trans added.sizes.symm), if_pos (added.sizes ▸ inside)]
  refine ⟨_, rfl, ?_⟩
  split_ifs with old
  · refine ⟨(List.length_set ..).trans added.sizes, added.seens, sums, added.seen, added.nodup, fun d => ?_⟩
    rw [more]
    refine ⟨.inl, ?_⟩
    rintro (touched | rfl)
    · exact touched
    · exact (added.seen p.1).mp old
  · have fresh : p.1 ∉ s.touched := fun touched => old ((added.seen p.1).mpr touched)
    refine ⟨(List.length_set ..).trans added.sizes, (List.length_set ..).trans added.seens, sums, fun d => ?_,
      ?_, fun d => ?_⟩
    · rw [getD_set, List.mem_append, List.mem_singleton]
      by_cases same : p.1 = d
      · subst same
        rw [if_pos ⟨rfl, added.seens ▸ inside⟩]
        exact ⟨fun _ => .inr rfl, fun _ => rfl⟩
      · rw [if_neg fun both => same both.1, added.seen]
        exact ⟨.inl, fun either => either.resolve_right fun eq => same eq.symm⟩
    · exact List.nodup_append.mpr ⟨added.nodup, List.nodup_singleton _, fun a mem b last =>
        fun same => fresh (List.mem_singleton.mp last ▸ same ▸ mem)⟩
    · rw [more, List.mem_append, List.mem_singleton, eq_comm (a := d)]

theorem Added.addAll {n : Nat} {ps : List (Nat × ℚ)} {s : Scratch} (added : s.Added n ps) {qs : List (Nat × ℚ)}
    (inside : ∀ q ∈ qs, q.1 < n) : ∃ s', s.addAll qs = some s' ∧ s'.Added n (ps ++ qs) := by
  induction qs generalizing ps s with
  | nil => exact ⟨s, rfl, by rw [List.append_nil]; exact added⟩
  | cons q rest ih =>
      obtain ⟨first, inside⟩ := List.forall_mem_cons.mp inside
      obtain ⟨m, step, added'⟩ := added.add first
      obtain ⟨s', run, final⟩ := ih added' inside
      rw [List.append_assoc] at final
      refine ⟨s', ?_, final⟩
      rw [Scratch.addAll, List.foldlM_cons]
      exact Option.bind_eq_some_iff.mpr ⟨m, step, run⟩

/-- The final loop pushes every touched document with its sum. -/
theorem Added.drain {n : Nat} {ps : List (Nat × ℚ)} {s : Scratch} (added : s.Added n ps) (k : Nat) :
    (s.drain (TopK.empty k)).1.takeSorted =
      BestK.best ranksLe k (s.touched.map fun d => ⟨d, sumAt ps d⟩) := by
  have run (ts : List Nat) (nodup : ts.Nodup) (top : TopK) (s : Scratch)
      (sums : ∀ d ∈ ts, s.acc.getD d 0 = sumAt ps d) :
      (ts.foldl drainStep (top, s)).1 =
        (ts.map fun d => Scored.mk d (sumAt ps d)).foldl (fun t c => (t.push c.doc c.score).2) top := by
    induction ts generalizing top s with
    | nil => rfl
    | cons t rest ih =>
        obtain ⟨fresh, nodup⟩ := List.nodup_cons.mp nodup
        obtain ⟨first, sums⟩ := List.forall_mem_cons.mp sums
        rw [List.foldl_cons, List.map_cons, List.foldl_cons, ih nodup _ _ fun d mem => ?_]
        · simp only [drainStep, first]
        · simp only [drainStep]
          rw [getD_set_default, if_neg fun same : t = d => fresh (same ▸ mem)]
          exact sums d mem
  rw [drain_eq, run s.touched added.nodup _ _ fun d _ => added.sum d, TopK.pushAll_best]

end Scratch

/-! ## Reading -/

/-- The blocks of the list follow each other in the postings. -/
def Clause.Follow (P : Platform) (codec : Codec) (c : Clause) (place : Nat → Bytes) : Prop :=
  ∀ j < blockCount c.docs.length,
    (decodeBlock P.haveNeon codec (min kBlockSize (c.info.df - j * kBlockSize))
      (Codec.docBefore uint32Max c.docs j)).run (place j) = .ok ((slice c.docs j, slice c.tfs j), place (j + 1))

/-- The list can be read from its first block on. -/
def Clause.Sequential (P : Platform) (ix : LexicalIndex) (codec : Codec) (c : Clause) : Prop :=
  ∃ data, ix.postingsOf codec = some data ∧
    ∃ place, c.Follow P codec place ∧ place 0 = data.drop (c.info.postOff codec)

/-- What a clause adds, posting by posting. -/
def Clause.gains (sc : Scorer) (c : Clause) : List (Nat × ℚ) := contributions (sc.contrib c.term.weight) (c.docs, c.tfs)

section Scan

variable {P : Platform} {ix : LexicalIndex} {codec : Codec} {sc : Scorer} {c : Clause} {clauses : List Clause}
  {terms : List QTerm}

/-- How reading ends: with a part of the postings, the whole of them unless the deadline fired. -/
structure Scanned (full : List (Nat × ℚ)) (dl : Deadline) (result : List (Nat × ℚ) × Exit × Deadline) : Prop where
  part : result.1 <+: full
  ends : result.2.1 = .done ∧ result.1 = full ∨ result.2.1 = .cut
  uncut : dl.limited = false → result.2.1 = .done
  limited : result.2.2.limited = dl.limited

theorem Scanned.after {front back : List (Nat × ℚ)} {dl dl' : Deadline} {result : List (Nat × ℚ) × Exit × Deadline}
    (scanned : Scanned back dl' result) (same : dl'.limited = dl.limited) :
    Scanned (front ++ back) dl (front ++ result.1, result.2) where
  part := (List.prefix_append_right_inj front).mpr scanned.part
  ends := scanned.ends.imp (fun both => ⟨both.1, congrArg (front ++ ·) both.2⟩) id
  uncut unlimited := scanned.uncut (same.trans unlimited)
  limited := scanned.limited.trans same

theorem contributions_split (contrib : Nat → Nat → ℚ) {docs tfs : List Nat} (lengths : docs.length = tfs.length)
    (j : Nat) : contributions contrib (docs.drop (j * kBlockSize), tfs.drop (j * kBlockSize)) =
      contributions contrib (slice docs j, slice tfs j) ++
        contributions contrib (docs.drop ((j + 1) * kBlockSize), tfs.drop ((j + 1) * kBlockSize)) := by
  have slices : (slice docs j).length = (slice tfs j).length := by
    rw [Codec.length_slice, Codec.length_slice, lengths]
  rw [contributions, contributions, contributions, ← List.map_append, ← List.zip_append slices,
    Codec.slice_append_drop, Codec.slice_append_drop]

theorem blockScan_spec (good : c.Good sc P ix codec) {place : Nat → Bytes}
    (follow : c.Follow P codec place)
    (left j : Nat) (whole : j + left = blockCount c.docs.length) (dl : Deadline) :
    ∃ result, blockScan P.haveNeon codec (sc.contrib c.term.weight) c.info.df left j (place j)
        (Codec.docBefore uint32Max c.docs j) dl = some result ∧
      Scanned (contributions (sc.contrib c.term.weight) (c.docs.drop (j * kBlockSize), c.tfs.drop (j * kBlockSize)))
        dl result := by
  induction left generalizing j dl with
  | zero =>
      have past : c.docs.length ≤ j * kBlockSize := by
        have := Codec.le_blockCount_mul c.docs.length
        rwa [← whole] at this
      rw [List.drop_of_length_le past, List.drop_of_length_le (good.list.lengths ▸ past)]
      exact ⟨_, rfl, List.prefix_rfl, .inl ⟨rfl, rfl⟩, fun _ => rfl, rfl⟩
  | succ left ih =>
      rw [blockScan]
      rcases ticked : dl.expiredEvery 8 with ⟨fired, dl'⟩
      have same := limited_expiredEvery dl 8
      rw [ticked] at same
      cases fired with
      | true =>
          refine ⟨_, rfl, List.nil_prefix, .inr rfl, fun unlimited => ?_, same⟩
          have never := expiredEvery_unlimited unlimited 8
          rw [ticked] at never
          cases never
      | false =>
          obtain ⟨result, run, scanned⟩ := ih (j + 1) (by omega) dl'
          simp only [Bool.false_eq_true, if_false]
          rw [follow j (by omega)]
          dsimp only
          rw [← Codec.docBefore_succ, run, contributions_split _ good.list.lengths]
          exact ⟨_, rfl, scanned.after same⟩

theorem termScan_spec (of : List.Forall₂ (ClauseOf P ix codec sc) terms clauses)
    (sequential : ∀ c ∈ clauses, c.Sequential P ix codec) (dl : Deadline) :
    ∃ result, termScan P.haveNeon ix codec sc terms dl = some result ∧
      Scanned (clauses.flatMap (Clause.gains sc)) dl result := by
  induction of generalizing dl with
  | nil => exact ⟨_, rfl, List.prefix_rfl, .inl ⟨rfl, rfl⟩, fun _ => rfl, rfl⟩
  | @cons t c terms rest here _ ih =>
      obtain ⟨first, sequential⟩ := List.forall_mem_cons.mp sequential
      obtain ⟨data, mapped, place, follow, start⟩ := first
      have count : blockCount32 c.info.df = blockCount c.docs.length := by
        rw [here.good.list.df]
        exact blockCount32_eq here.good.few
      obtain ⟨⟨ps, exit, dl'⟩, run, scanned⟩ :=
        blockScan_spec here.good follow (blockCount c.docs.length) 0 (Nat.zero_add _) dl
      rw [Codec.docBefore_zero, start, ← count, here.term] at run
      rw [Nat.zero_mul, List.drop_zero, List.drop_zero] at scanned
      rw [termScan, here.found, mapped]
      dsimp only
      rw [run, List.flatMap_cons]
      rcases scanned.ends with ⟨rfl, rfl⟩ | rfl
      · obtain ⟨result, more, scanned'⟩ := ih sequential dl'
        dsimp only
        rw [more]
        exact ⟨_, rfl, scanned'.after scanned.limited⟩
      · refine ⟨_, rfl, scanned.part.trans (List.prefix_append _ _), .inr rfl, fun unlimited => ?_, scanned.limited⟩
        exact scanned.uncut unlimited

/-! ## The scores -/

theorem sumAt_gains (good : c.Good sc P ix codec) (d : Nat) : sumAt (c.gains sc) d = c.gain sc d := by
  have run (docs tfs : List Nat) (lengths : docs.length = tfs.length) (nodup : docs.Nodup) (f : Nat → Nat → ℚ) :
      sumAt (contributions f (docs, tfs)) d = if d ∈ docs then f d (tfs.getD (docs.idxOf d) 0) else 0 := by
    induction docs generalizing tfs with
    | nil => rfl
    | cons e docs ih =>
        cases tfs with
        | nil => cases lengths
        | cons tf tfs =>
            obtain ⟨fresh, nodup⟩ := List.nodup_cons.mp nodup
            have rest := ih tfs (Nat.succ.inj lengths) nodup
            have split : contributions f (e :: docs, tf :: tfs) = (e, f e tf) :: contributions f (docs, tfs) := rfl
            rw [split, sumAt, List.map_cons, List.sum_cons]
            change _ + sumAt (contributions f (docs, tfs)) d = _
            rw [rest]
            by_cases same : e = d
            · subst same
              rw [if_pos rfl, if_neg fresh, if_pos (List.mem_cons_self ..), add_zero, List.idxOf_cons_self]
              rfl
            · have other : d ≠ e := fun eq => same eq.symm
              simp only [same, if_false, zero_add, List.mem_cons, other, false_or]
              rw [List.idxOf_cons_ne _ same, List.getD_cons_succ]
  exact run c.docs c.tfs good.list.lengths (good.list.ascending.imp fun less => Nat.ne_of_lt less) _

theorem mem_gains (good : c.Good sc P ix codec) {d : Nat} : (∃ p ∈ c.gains sc, p.1 = d) ↔ d ∈ c.docs := by
  have docs : (c.gains sc).map Prod.fst = c.docs := by
    rw [Clause.gains, contributions, List.map_map]
    exact List.map_fst_zip good.list.lengths.le
  rw [← docs, List.mem_map]

theorem score_eq_map (d : Nat) : score sc clauses d = (clauses.map fun c => c.gain sc d).sum := by
  rw [score]
  congr 1
  apply List.ext_getElem
  · rw [List.length_map, List.length_map, List.length_range]
  · intro t _ inside
    rw [List.length_map] at inside
    rw [List.getElem_map, List.getElem_map, List.getElem_range, gainAt, List.getElem?_eq_getElem inside]
    rfl

theorem sumAt_all (good : ∀ c ∈ clauses, c.Good sc P ix codec) (d : Nat) :
    sumAt (clauses.flatMap (Clause.gains sc)) d = score sc clauses d := by
  rw [score_eq_map]
  induction clauses with
  | nil => rfl
  | cons c rest ih =>
      obtain ⟨here, good⟩ := List.forall_mem_cons.mp good
      rw [List.flatMap_cons, sumAt_append, ih good, sumAt_gains here, List.map_cons, List.sum_cons]

theorem mem_all (good : ∀ c ∈ clauses, c.Good sc P ix codec) {d : Nat} :
    (∃ p ∈ clauses.flatMap (Clause.gains sc), p.1 = d) ↔ matched clauses d := by
  constructor
  · rintro ⟨p, mem, rfl⟩
    obtain ⟨c, c_mem, mem⟩ := List.mem_flatMap.mp mem
    exact ⟨c, c_mem, (mem_gains (good c c_mem)).mp ⟨p, mem, rfl⟩⟩
  · rintro ⟨c, c_mem, mem⟩
    obtain ⟨p, mem, same⟩ := (mem_gains (good c c_mem)).mpr mem
    exact ⟨p, List.mem_flatMap.mpr ⟨c, c_mem, mem⟩, same⟩

end Scan

/-! ## run_exhaustive -/

/-- **How `run_exhaustive` ends** on a fresh thread. -/
theorem runExhaustive_ends {P : Platform} {ix : LexicalIndex} {codec : Codec} {q : Query} {clauses : List Clause}
    (of : List.Forall₂ (ClauseOf P ix codec q.sc) q.terms clauses)
    (sequential : ∀ c ∈ clauses, c.Sequential P ix codec)
    (inside : ∀ c ∈ clauses, ∀ d ∈ c.docs, d < ix.stats.numDocs) (k : Nat) (dl : Deadline) :
    ∃ result s, runExhaustive P.haveNeon ix q codec k .fresh dl = some (.ok result, s) ∧
      (result.isPartial = false →
        result.hits = BestK.best ranksLe k (below (matched clauses) (score q.sc clauses) kEnd)) ∧
      (dl.limited = false → result.isPartial = false) := by
  have good := ClauseOf.good_all of
  obtain ⟨⟨ps, exit, dl'⟩, run, scanned⟩ := termScan_spec of sequential dl
  have small : ∀ p ∈ ps, p.1 < ix.stats.numDocs := fun p mem => by
    obtain ⟨c, c_mem, mem'⟩ := (mem_all good).mp ⟨p, scanned.part.subset mem, rfl⟩
    exact inside c c_mem p.1 mem'
  obtain ⟨s, added_eq, added⟩ := (Scratch.added_fresh ix.stats.numDocs).addAll small
  rw [List.nil_append] at added
  rw [runExhaustive_eq, run, Option.bind_some]
  simp only [added_eq, Option.map_some]
  rcases scanned.ends with ⟨rfl, rfl⟩ | rfl
  · refine ⟨_, _, rfl, fun _ => ?_, fun _ => rfl⟩
    dsimp only
    rw [added.drain k]
    refine BestK.best_perm ranksLe_linear k ((List.perm_ext_iff_of_nodup ?_ (nodup_below kEnd)).mpr fun c => ?_)
    · exact added.nodup.map fun d e same => congrArg Scored.doc same
    · rw [List.mem_map, mem_below]
      constructor
      · rintro ⟨d, touched, rfl⟩
        have hit := (mem_all good).mp ((added.mem d).mp touched)
        obtain ⟨c, c_mem, mem⟩ := id hit
        exact ⟨(good c c_mem).list.below_end d mem, hit, sumAt_all good d⟩
      · rintro ⟨-, hit, same⟩
        refine ⟨c.doc, (added.mem c.doc).mpr ((mem_all good).mpr hit), ?_⟩
        rw [sumAt_all good, ← same]
  · refine ⟨_, _, rfl, fun not_cut => ?_, fun unlimited => ?_⟩
    · cases not_cut
    · cases scanned.uncut unlimited

end HybridSearch.Engine
