/-
# Engine.RunRoundTrip -- spilled runs give the postings back (index_builder.cc)

A run is the postings of its records, term by term: a counting sort, gaps and frequencies
as varints, and one offset more than there are terms.  Reading the slice of a term gives
its records back in the order they came in (`runPostings_eq`, `slice_writeRun`), so merging
the runs of a build term by term gives all records of the term (`mergeTerm_spec`), wherever
the spills fell.
-/
import HybridSearch.Engine.IndexBuilder
import HybridSearch.Theory.Arena

namespace HybridSearch.Engine

open HybridSearch.Theory

set_option autoImplicit false

/-! ## One term of a run -/

/-- The entries of a record are 32-bit words. -/
structure Record.Fits (r : Record) : Prop where
  doc : r.doc < 2 ^ 32
  tf : r.tf < 2 ^ 32

theorem nextDoc_gapM1 {prev doc : Nat} (fits : doc < 2 ^ 32) : nextDoc prev (Codec.gapM1 prev doc) = doc := by
  have restores : u32 (prev + u32 (Codec.gapM1 prev doc + 1)) = doc := Codec.gap_restores fits
  rw [u32, u32, Nat.add_mod_mod, ← Nat.add_assoc] at restores
  rw [nextDoc, u32, u32, Nat.mod_add_mod]
  exact restores

theorem gapM1_lt (prev doc : Nat) : Codec.gapM1 prev doc < 2 ^ 32 := Nat.mod_lt _ (by decide)

/-- **The postings of a term are read as they were put.** -/
theorem runPostings_eq {recs : List Record} (fits : ∀ r ∈ recs, r.Fits) {prev fuel : Nat}
    (enough : (putPostings prev recs).length ≤ fuel) :
    runPostings fuel prev (putPostings prev recs) = .ok (recs.map Record.doc, recs.map Record.tf) := by
  induction recs generalizing prev fuel with
  | nil => cases fuel <;> rfl
  | cons r rest ih =>
      obtain ⟨here, fits⟩ := List.forall_mem_cons.mp fits
      have gap := reads_next32 (gapM1_lt prev r.doc)
      have tf := reads_next32 here.tf
      have putLength_pos : 0 < (putVarint (Codec.gapM1 prev r.doc)).length :=
        List.length_pos_of_ne_nil (putVarint_ne_nil _)
      rw [putPostings, List.append_assoc] at enough ⊢
      rw [List.length_append, List.length_append] at enough
      obtain ⟨fuel, rfl⟩ : ∃ n, fuel = n + 1 := ⟨fuel - 1, by omega⟩
      have nonempty : putVarint (Codec.gapM1 prev r.doc) ++ (putVarint r.tf ++ putPostings r.doc rest) ≠ [] :=
        List.append_ne_nil_of_left_ne_nil (putVarint_ne_nil _) _
      rw [runPostings, if_neg nonempty, gap, ok_bind]
      dsimp only
      rw [tf, ok_bind]
      dsimp only
      rw [nextDoc_gapM1 here.doc, ih fits (by omega), ok_bind]
      rfl

/-! ## The write buffer -/

namespace RunWriter

/-- What the writer has of the pieces it was given. -/
structure Wrote (pieces : List Bytes) (w : RunWriter) : Prop where
  data : w.written ++ w.buf = pieces.flatten
  off : w.off = w.written.length
  offsets : w.offsets ++ [w.off + w.buf.length] = Arena.offsets pieces

theorem wrote_empty : empty.Wrote [] := ⟨rfl, rfl, rfl⟩

theorem Wrote.put {pieces : List Bytes} {w : RunWriter} (wrote : w.Wrote pieces) (piece : Bytes) :
    (w.put piece).Wrote (pieces ++ [piece]) := by
  have whole : w.written ++ (w.buf ++ piece) = (pieces ++ [piece]).flatten := by
    rw [List.flatten_append, ← wrote.data, List.flatten_singleton, List.append_assoc]
  have newOff : w.off + (w.buf ++ piece).length = (pieces ++ [piece]).flatten.length := by
    rw [← whole, wrote.off, List.length_append, List.length_append, List.length_append]
  rw [RunWriter.put]
  split_ifs with full
  · refine ⟨?_, ?_, ?_⟩
    · rw [List.append_nil]
      exact whole
    · dsimp only
      rw [wrote.off, ← List.length_append]
    · dsimp only
      rw [List.length_nil, Nat.add_zero, Arena.offsets_append, ← wrote.offsets, newOff]
  · refine ⟨whole, wrote.off, ?_⟩
    dsimp only
    rw [Arena.offsets_append, ← wrote.offsets, newOff]

theorem wrote_foldl (pieces : List Bytes) : (pieces.foldl put empty).Wrote pieces := by
  induction pieces using List.reverseRecOn with
  | nil => exact wrote_empty
  | append_singleton front piece ih =>
      rw [List.foldl_append]
      exact ih.put piece

end RunWriter

/-- The bytes a run has for a term. -/
theorem slice_writeRun {vocab : Nat} {recs : List Record} (known : ∀ r ∈ recs, r.term < vocab) {t : Nat}
    (inside : t < vocab) :
    (writeRun vocab recs).slice t = putPostings uint32Max (CountingSort.bucket Record.term recs t) := by
  have wrote := RunWriter.wrote_foldl ((List.range vocab).map fun t =>
    putPostings uint32Max (CountingSort.bucket Record.term recs t))
  have pieces : (List.range vocab).foldl (fun w t => w.put (putPostings uint32Max
      ((List.range' (CountingSort.starts Record.term recs vocab t)
        (CountingSort.starts Record.term recs vocab (t + 1) - CountingSort.starts Record.term recs vocab t)).map
          (CountingSort.scatter Record.term recs (CountingSort.starts Record.term recs vocab))))) RunWriter.empty =
      ((List.range vocab).map fun t =>
        putPostings uint32Max (CountingSort.bucket Record.term recs t)).foldl RunWriter.put RunWriter.empty := by
    rw [List.foldl_map]
    refine List.foldl_ext _ _ _ fun w t mem => ?_
    rw [CountingSort.bucket_scatter known (List.mem_range.mp mem)]
  rw [writeRun, pieces, Run.slice, RunWriter.finish]
  dsimp only
  rw [wrote.data, wrote.offsets, Arena.slice_offsets (by rw [List.length_map, List.length_range]; exact inside),
    List.getD_eq_getElem _ _ (by rw [List.length_map, List.length_range]; exact inside), List.getElem_map,
    List.getElem_range]

/-! ## All runs -/

/-- The run was spilled from these records. -/
structure Spilled (run : Run) (recs : List Record) : Prop where
  written : run = writeRun run.vocab recs
  known : ∀ r ∈ recs, r.term < run.vocab
  fits : ∀ r ∈ recs, r.Fits

/-- **Merging a term gives all its records**, in the order they came in. -/
theorem mergeTerm_spec {runs : List Run} {parts : List (List Record)} (spilled : List.Forall₂ Spilled runs parts)
    (t : Nat) : mergeTerm t runs = .ok ((CountingSort.bucket Record.term parts.flatten t).map Record.doc,
      (CountingSort.bucket Record.term parts.flatten t).map Record.tf) := by
  induction spilled with
  | nil => rfl
  | @cons run recs runs parts here _ ih =>
      have split : CountingSort.bucket Record.term (recs :: parts).flatten t =
          CountingSort.bucket Record.term recs t ++ CountingSort.bucket Record.term parts.flatten t := by
        rw [List.flatten_cons, CountingSort.bucket, List.filter_append]
        rfl
      rw [mergeTerm, split]
      split_ifs with unknown
      · have absent : CountingSort.bucket Record.term recs t = [] := by
          refine List.filter_eq_nil_iff.mpr fun r mem => ?_
          rw [decide_eq_true_eq]
          have := here.known r mem
          omega
        rw [absent, ih]
        rfl
      · have bytes : run.slice t = putPostings uint32Max (CountingSort.bucket Record.term recs t) := by
          rw [here.written]
          exact slice_writeRun here.known (Nat.not_le.mp unknown)
        have own : ∀ r ∈ CountingSort.bucket Record.term recs t, r.Fits := fun r mem =>
          here.fits r (List.mem_of_mem_filter mem)
        dsimp only
        rw [bytes, runPostings_eq own le_rfl, ok_bind, ih, ok_bind, List.map_append, List.map_append]
        rfl

end HybridSearch.Engine
