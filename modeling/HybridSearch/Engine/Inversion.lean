/-
# Engine.Inversion -- the builder inverts the corpus (index_builder.cc)

Whatever the hash function, the posting cap and the chunks, the reader pipeline leaves the
records of all documents in order (`Builder.Holds`), some of them spilled to runs and the
rest in memory.  `inverted` says what an index of documents is: for every token that occurs,
in bytewise order, the documents it occurs in and how often.

* `invert_holds`: the pipeline ends with the records of the documents that were kept;
* `mergeRuns_inverts`: merging them gives exactly `inverted`.
-/
import HybridSearch.Engine.OpenedIndex
import HybridSearch.Engine.RunRoundTrip

namespace HybridSearch.Engine

open HybridSearch.Theory

set_option autoImplicit false

/-! ## The terms of a document -/

def BytesLe (a b : Bytes) : Prop := ¬bytesLt b a

theorem bytesLe_total (a b : Bytes) : BytesLe a b ∨ BytesLe b a := by
  rcases bytesLt_or a b with less | rfl | more
  · exact .inl fun back => bytesLt_irrefl _ (bytesLt_trans less back)
  · exact .inl (bytesLt_irrefl a)
  · exact .inr fun back => bytesLt_irrefl _ (bytesLt_trans more back)

theorem bytesLe_trans {a b c : Bytes} (first : BytesLe a b) (second : BytesLe b c) : BytesLe a c := by
  intro less
  rcases bytesLt_or b c with less' | rfl | more
  · exact first (bytesLt_trans less' less)
  · exact first less
  · exact second more

theorem bytesLe_antisymm {a b : Bytes} (first : BytesLe a b) (second : BytesLe b a) : a = b := by
  rcases bytesLt_or a b with less | same | more
  · exact absurd less second
  · exact same
  · exact absurd more first

theorem runLengths_cons (t : Bytes) (rest : List Bytes) :
    ∃ n more, runLengths (t :: rest) = (t, n) :: more := by
  rw [runLengths]
  cases runLengths rest with
  | nil => exact ⟨1, [], rfl⟩
  | cons u more =>
      dsimp only
      split_ifs
      · exact ⟨_, _, rfl⟩
      · exact ⟨_, _, rfl⟩

theorem length_runLengths_le (toks : List Bytes) : (runLengths toks).length ≤ toks.length := by
  induction toks with
  | nil => exact le_rfl
  | cons t rest ih =>
      rw [runLengths]
      cases run : runLengths rest with
      | nil => exact Nat.succ_le_succ (Nat.zero_le _)
      | cons u more =>
          rw [run, List.length_cons] at ih
          dsimp only
          split_ifs
          · rw [List.length_cons, List.length_cons]
            omega
          · rw [List.length_cons, List.length_cons, List.length_cons]
            omega

/-- **The runs of a sorted list** are its elements with their counts. -/
theorem filter_runLengths {toks : List Bytes} (sorted : toks.Pairwise BytesLe) (s : Bytes) :
    (runLengths toks).filter (fun e => decide (e.1 = s)) = if s ∈ toks then [(s, toks.count s)] else [] := by
  induction toks with
  | nil => rfl
  | cons t rest ih =>
      obtain ⟨first, sorted⟩ := List.pairwise_cons.mp sorted
      have ih := ih sorted
      rw [runLengths]
      cases rest with
      | nil =>
          by_cases same : t = s
          · subst same
            simp [runLengths]
          · have other : s ≠ t := fun eq => same eq.symm
            simp [runLengths, same, other]
      | cons u rest =>
          obtain ⟨n, more, run⟩ := runLengths_cons u rest
          rw [run] at ih ⊢
          dsimp only
          by_cases same : u = t
          · subst same
            rw [if_pos rfl]
            rw [List.filter_cons] at ih ⊢
            by_cases eq : u = s
            · subst eq
              simp only [decide_true, if_true, List.mem_cons, true_or, List.count_cons_self, List.cons.injEq,
                Prod.mk.injEq, true_and] at ih ⊢
              exact ⟨by omega, ih.2⟩
            · have other : s ≠ u := fun back => eq back.symm
              simp only [eq, decide_false, Bool.false_eq_true, if_false, List.mem_cons, other, false_or,
                List.count_cons_of_ne eq] at ih ⊢
              exact ih
          · rw [if_neg same, List.filter_cons]
            by_cases eq : t = s
            · subst eq
              have absent : t ∉ u :: rest := by
                intro mem
                refine same (bytesLe_antisymm ?_ (first u (List.mem_cons_self ..)))
                rcases List.mem_cons.mp mem with rfl | later
                · exact absurd rfl same
                · exact (List.pairwise_cons.mp sorted).1 t later
              rw [if_neg absent] at ih
              rw [if_pos (decide_eq_true rfl), ih, if_pos (List.mem_cons_self ..), List.count_cons_self,
                List.count_eq_zero.mpr absent]
            · have other : s ≠ t := fun back => eq back.symm
              rw [if_neg (by simpa using eq), ih]
              simp only [List.mem_cons, other, false_or, List.count_cons_of_ne eq]

/-- The distinct terms of a document, in order, with their counts. -/
def Doc.entries (doc : Doc) : List (Bytes × Nat) := runLengths (sortTerms doc.toks)

theorem filter_entries (doc : Doc) (s : Bytes) :
    doc.entries.filter (fun e => decide (e.1 = s)) = if s ∈ doc.toks then [(s, doc.toks.count s)] else [] := by
  have perm : (sortTerms doc.toks).Perm doc.toks := List.perm_insertionSort _ _
  have sorted : (sortTerms doc.toks).Pairwise BytesLe := by
    have total : Std.Total (fun a b : Bytes => ¬bytesLt b a) := ⟨bytesLe_total⟩
    have trans : IsTrans Bytes fun a b => ¬bytesLt b a := ⟨fun _ _ _ => bytesLe_trans⟩
    exact List.pairwise_insertionSort (fun a b : Bytes => ¬bytesLt b a) doc.toks
  rw [Doc.entries, filter_runLengths sorted s, perm.count_eq]
  simp only [perm.mem_iff]

theorem mem_entries {doc : Doc} {e : Bytes × Nat} (mem : e ∈ doc.entries) :
    e.1 ∈ doc.toks ∧ e.2 = doc.toks.count e.1 := by
  have filtered : e ∈ doc.entries.filter fun other => decide (other.1 = e.1) :=
    List.mem_filter.mpr ⟨mem, decide_eq_true rfl⟩
  rw [filter_entries] at filtered
  split_ifs at filtered with inside
  · exact ⟨inside, congrArg Prod.snd (List.mem_singleton.mp filtered)⟩
  · cases filtered

theorem entry_of_mem {doc : Doc} {s : Bytes} (mem : s ∈ doc.toks) : s ∈ doc.entries.map Prod.fst := by
  have found := filter_entries doc s
  rw [if_pos mem] at found
  have entry : (s, doc.toks.count s) ∈ doc.entries :=
    List.mem_of_mem_filter (found ▸ List.mem_singleton_self _ : (s, doc.toks.count s) ∈ doc.entries.filter _)
  exact List.mem_map_of_mem entry

/-! ## The pipeline -/

/-- The records of one document, under the ids of `names`. -/
def recordsOf (names : List Bytes) (ord : Nat) (entries : List (Bytes × Nat)) : List Record :=
  entries.map fun e => ⟨names.idxOf e.1, ord, e.2⟩

/-- The builder has seen the terms `names`, and its records, spilled or not, are `log`. -/
structure Builder.Holds (hash : Bytes → Nat) (names : List Bytes) (log : List Record) (b : Builder) : Prop where
  vocab : b.vocab.Holds hash names
  known : ∀ r ∈ log, r.term < names.length
  fits : ∀ r ∈ log, r.Fits
  runs : ∃ parts, List.Forall₂ Spilled b.runs parts ∧ log = parts.flatten ++ b.recs

namespace Builder.Holds

variable {hash : Bytes → Nat} {names : List Bytes} {log : List Record} {b : Builder} {cap : Nat}

/-- **A spill changes nothing**: the records are still there, and in the same order. -/
theorem flushRun (holds : b.Holds hash names log) :
    ∃ b', b.flushRun = .ok b' ∧ b'.Holds hash names log ∧ b'.recs = [] ∧ b'.pids = b.pids ∧ b'.dls = b.dls := by
  obtain ⟨parts, spilled, whole⟩ := holds.runs
  have size : b.vocab.size = names.length := holds.vocab.size_eq
  rw [Builder.flushRun]
  split_ifs with empty known
  · exact ⟨b, rfl, holds, empty, rfl, rfl⟩
  · refine ⟨_, rfl, ⟨holds.vocab, holds.known, holds.fits, parts ++ [b.recs], ?_, ?_⟩, rfl, rfl, rfl⟩
    · refine List.rel_append spilled (.cons ⟨rfl, known, fun r mem => holds.fits r ?_⟩ .nil)
      rw [whole]
      exact List.mem_append_right _ mem
    · rw [List.flatten_append, List.flatten_singleton, List.append_nil]
      exact whole
  · refine absurd (fun r mem => ?_) known
    rw [size]
    exact holds.known r (whole ▸ List.mem_append_right _ mem)

theorem consumeTerm (holds : b.Holds hash names log) {ord n : Nat} {s arena : Bytes} {termLen tfs : List Nat}
    (few : (Vocab.addName names s).length < 2 ^ 32) (small : ord < 2 ^ 32) (count : n < 2 ^ 32) :
    ∃ b', consumeTerm hash cap ord b ⟨s ++ arena, s.length :: termLen, n :: tfs⟩ = .ok (b', ⟨arena, termLen, tfs⟩) ∧
      b'.Holds hash (Vocab.addName names s) (log ++ [⟨(Vocab.addName names s).idxOf s, ord, n⟩]) ∧
      b'.pids = b.pids ∧ b'.dls = b.dls := by
  obtain ⟨v, added, vocab⟩ := Vocab.getOrAdd_holds holds.vocab s few
  obtain ⟨parts, spilled, whole⟩ := holds.runs
  have new : ({ b with vocab := v, recs := b.recs ++ [⟨(Vocab.addName names s).idxOf s, ord, n⟩] } : Builder).Holds
      hash (Vocab.addName names s) (log ++ [⟨(Vocab.addName names s).idxOf s, ord, n⟩]) := by
    refine ⟨vocab, fun r mem => ?_, fun r mem => ?_, parts, spilled, by rw [whole, List.append_assoc]⟩
    · rcases List.mem_append.mp mem with old | last
      · exact (holds.known r old).trans_le (Vocab.prefix_addName names s).length_le
      · rw [List.mem_singleton.mp last]
        exact List.idxOf_lt_length_of_mem (Vocab.mem_addName.mpr (.inr rfl))
    · rcases List.mem_append.mp mem with old | last
      · exact holds.fits r old
      · rw [List.mem_singleton.mp last]
        exact ⟨small, count⟩
  rw [HybridSearch.Engine.consumeTerm]
  dsimp only
  rw [if_neg (by rw [List.length_append]; omega), List.take_left' rfl, List.drop_left' rfl, added, ok_bind]
  dsimp only
  split_ifs with full
  · obtain ⟨b', flushed, holds', -, pids, dls⟩ := new.flushRun
    rw [flushed, ok_bind]
    exact ⟨b', rfl, holds', pids, dls⟩
  · exact ⟨_, rfl, new, rfl, rfl⟩

theorem consumeTerms (holds : b.Holds hash names log) {ord : Nat} {entries : List (Bytes × Nat)} {arena : Bytes}
    {termLen tfs : List Nat} (few : (Vocab.addNames names (entries.map Prod.fst)).length < 2 ^ 32)
    (small : ord < 2 ^ 32) (counts : ∀ e ∈ entries, e.2 < 2 ^ 32) :
    ∃ b', consumeTerms hash cap ord entries.length b ⟨entries.flatMap Prod.fst ++ arena,
        entries.map (fun e => e.1.length) ++ termLen, entries.map Prod.snd ++ tfs⟩ = .ok (b', ⟨arena, termLen, tfs⟩) ∧
      b'.Holds hash (Vocab.addNames names (entries.map Prod.fst))
        (log ++ recordsOf (Vocab.addNames names (entries.map Prod.fst)) ord entries) ∧
      b'.pids = b.pids ∧ b'.dls = b.dls := by
  induction entries generalizing b names log with
  | nil =>
      refine ⟨b, rfl, ?_, rfl, rfl⟩
      show b.Holds hash names (log ++ [])
      rw [List.append_nil]
      exact holds
  | cons e rest ih =>
      obtain ⟨count, counts⟩ := List.forall_mem_cons.mp counts
      have grows : Vocab.addName names e.1 <+: Vocab.addNames names ((e :: rest).map Prod.fst) :=
        Vocab.prefix_addNames (Vocab.addName names e.1) (rest.map Prod.fst)
      obtain ⟨b₁, run, holds₁, pids₁, dls₁⟩ := @consumeTerm hash names log b cap holds ord e.2 e.1
        (rest.flatMap Prod.fst ++ arena) (rest.map (fun e => e.1.length) ++ termLen) (rest.map Prod.snd ++ tfs)
        (grows.length_le.trans_lt few) small count
      obtain ⟨b', more, holds', pids, dls⟩ := ih holds₁ few counts
      refine ⟨b', ?_, ?_, pids.trans pids₁, dls.trans dls₁⟩
      · rw [List.length_cons, HybridSearch.Engine.consumeTerms, List.flatMap_cons, List.append_assoc, List.map_cons,
          List.cons_append, List.map_cons, List.cons_append, run, ok_bind]
        exact more
      · rw [List.append_assoc] at holds'
        have own : (Vocab.addName names e.1).idxOf e.1 =
            (Vocab.addNames names ((e :: rest).map Prod.fst)).idxOf e.1 :=
          grows.idxOf_eq_of_mem (Vocab.mem_addName.mpr (.inr rfl))
        rw [own] at holds'
        exact holds'

end Builder.Holds

/-! ## Batches -/

/-- The lengths that the analysis job keeps in 32 bits. -/
structure Doc.Small (doc : Doc) : Prop where
  few : doc.toks.length < 2 ^ 32
  tokens : ∀ s ∈ doc.toks, s.length < 2 ^ 32

theorem Doc.Small.entries_length {doc : Doc} (small : doc.Small) : doc.entries.length < 2 ^ 32 := by
  have sorted : (sortTerms doc.toks).length = doc.toks.length := List.length_insertionSort _ _
  have runs := length_runLengths_le (sortTerms doc.toks)
  rw [sorted] at runs
  exact runs.trans_lt small.few

theorem Doc.Small.count {doc : Doc} (small : doc.Small) : ∀ e ∈ doc.entries, e.2 < 2 ^ 32 := by
  intro e mem
  rw [(mem_entries mem).2]
  exact List.count_le_length.trans_lt small.few

/-- The documents of a chunk that belong to this build's partition. -/
def kept (opt : BuildOptions) (docs : List Doc) : List Doc :=
  docs.filter fun doc => opt.modN = 0 ∨ doc.pid % opt.modN = opt.modI

theorem kept_append (opt : BuildOptions) (front back : List Doc) :
    kept opt (front ++ back) = kept opt front ++ kept opt back :=
  List.filter_append ..

/-- The batch of these documents. -/
def batchOf (docs : List Doc) : Batch where
  pids := docs.map Doc.pid
  dls := docs.map fun doc => doc.toks.length
  nterms := docs.map fun doc => doc.entries.length
  arena := docs.flatMap fun doc => doc.entries.flatMap Prod.fst
  termLen := docs.flatMap fun doc => doc.entries.map fun e => e.1.length
  tfs := docs.flatMap fun doc => doc.entries.map Prod.snd

theorem add_batchOf (front : List Doc) {doc : Doc} (small : doc.Small) :
    (batchOf front).add doc = batchOf (front ++ [doc]) := by
  have lengths : doc.entries.map (fun e => u32 e.1.length) = doc.entries.map fun e => e.1.length :=
    List.map_congr_left fun e mem => Nat.mod_eq_of_lt (small.tokens e.1 (mem_entries mem).1)
  have counts : doc.entries.map (fun e => u32 e.2) = doc.entries.map Prod.snd :=
    List.map_congr_left fun e mem => Nat.mod_eq_of_lt (small.count e mem)
  have dl : u32 doc.toks.length = doc.toks.length := Nat.mod_eq_of_lt small.few
  have nterms : u32 doc.entries.length = doc.entries.length := Nat.mod_eq_of_lt small.entries_length
  have refold : runLengths (sortTerms doc.toks) = doc.entries := rfl
  simp only [Batch.add, batchOf, refold, dl, nterms, lengths, counts, List.map_append, List.flatMap_append,
    List.map_cons, List.map_nil, List.flatMap_cons, List.flatMap_nil, List.append_nil]

theorem analyzeChunk_eq (opt : BuildOptions) {docs : List Doc} (small : ∀ doc ∈ kept opt docs, doc.Small) :
    analyzeChunk opt.modN opt.modI docs = batchOf (kept opt docs) := by
  have run (front back : List Doc) (small : ∀ doc ∈ back, doc.Small) :
      back.foldl Batch.add (batchOf front) = batchOf (front ++ back) := by
    induction back generalizing front with
    | nil => rw [List.append_nil, List.foldl_nil]
    | cons doc rest ih =>
        obtain ⟨here, small⟩ := List.forall_mem_cons.mp small
        rw [List.foldl_cons, add_batchOf front here, ih _ small, List.append_assoc]
        rfl
  exact run [] _ small

/-! ## Documents -/

/-- The terms of the documents, in the order in which the builder meets them. -/
def metTerms (docs : List Doc) : List Bytes := docs.flatMap fun doc => doc.entries.map Prod.fst

/-- The records of the documents, which are numbered from `ord`. -/
def recordsFrom (names : List Bytes) (ord : Nat) (docs : List Doc) : List Record :=
  (docs.zipIdx ord).flatMap fun x => recordsOf names x.2 x.1.entries

theorem recordsOf_grows {names more : List Bytes} (grows : names <+: more) (ord : Nat) {entries : List (Bytes × Nat)}
    (known : ∀ e ∈ entries, e.1 ∈ names) : recordsOf more ord entries = recordsOf names ord entries := by
  refine List.map_congr_left fun e mem => ?_
  rw [grows.idxOf_eq_of_mem (known e mem)]

theorem mem_addNames {names strings : List Bytes} {s : Bytes} :
    s ∈ Vocab.addNames names strings ↔ s ∈ names ∨ s ∈ strings := by
  induction strings generalizing names with
  | nil => simp only [Vocab.addNames, List.foldl_nil, List.not_mem_nil, or_false]
  | cons t rest ih =>
      show s ∈ Vocab.addNames (Vocab.addName names t) rest ↔ _
      rw [ih, Vocab.mem_addName, List.mem_cons, or_assoc]

theorem addNames_append (names front back : List Bytes) :
    Vocab.addNames names (front ++ back) = Vocab.addNames (Vocab.addNames names front) back :=
  List.foldl_append ..

namespace Builder.Holds

variable {hash : Bytes → Nat} {names : List Bytes} {log : List Record} {b : Builder} {cap : Nat}

theorem consumeDocs (holds : b.Holds hash names log) {docs : List Doc} (small : ∀ doc ∈ docs, doc.Small)
    (room : b.pids.length + docs.length ≤ 0xFFFFFFF0)
    (few : (Vocab.addNames names (metTerms docs)).length < 2 ^ 32) :
    ∃ b', consumeDocs hash cap (docs.map fun doc => (doc.pid, doc.toks.length, doc.entries.length)) b
        ⟨(batchOf docs).arena, (batchOf docs).termLen, (batchOf docs).tfs⟩ = .ok b' ∧
      b'.Holds hash (Vocab.addNames names (metTerms docs))
        (log ++ recordsFrom (Vocab.addNames names (metTerms docs)) b.pids.length docs) ∧
      b'.pids = b.pids ++ docs.map Doc.pid ∧ b'.dls = b.dls ++ docs.map fun doc => doc.toks.length := by
  induction docs generalizing b names log with
  | nil =>
      refine ⟨b, rfl, ?_, (List.append_nil _).symm, (List.append_nil _).symm⟩
      show b.Holds hash names (log ++ [])
      rw [List.append_nil]
      exact holds
  | cons doc rest ih =>
      obtain ⟨here, small⟩ := List.forall_mem_cons.mp small
      have met : metTerms (doc :: rest) = doc.entries.map Prod.fst ++ metTerms rest := List.flatMap_cons
      rw [List.length_cons] at room
      rw [met, addNames_append] at few ⊢
      have grows := Vocab.prefix_addNames (Vocab.addNames names (doc.entries.map Prod.fst)) (metTerms rest)
      have ord : u32 b.pids.length = b.pids.length := Nat.mod_eq_of_lt (by omega)
      have opened : ({ b with pids := b.pids ++ [doc.pid], dls := b.dls ++ [doc.toks.length] } : Builder).Holds
          hash names log := ⟨holds.vocab, holds.known, holds.fits, holds.runs⟩
      obtain ⟨b₁, run, holds₁, pids₁, dls₁⟩ := @consumeTerms hash names log _ cap opened b.pids.length doc.entries
        (batchOf rest).arena (batchOf rest).termLen (batchOf rest).tfs
        (grows.length_le.trans_lt few) (by omega) here.count
      have count₁ : b₁.pids.length = b.pids.length + 1 := by rw [pids₁, List.length_append, List.length_singleton]
      obtain ⟨b', more, holds', pids, dls⟩ := ih holds₁ small (by omega) few
      refine ⟨b', ?_, ?_, ?_, ?_⟩
      · rw [List.map_cons, HybridSearch.Engine.consumeDocs, if_neg (by omega), ord]
        show (HybridSearch.Engine.consumeTerms hash cap b.pids.length doc.entries.length _
          ⟨doc.entries.flatMap Prod.fst ++ (batchOf rest).arena,
            doc.entries.map (fun e => e.1.length) ++ (batchOf rest).termLen,
            doc.entries.map Prod.snd ++ (batchOf rest).tfs⟩ >>= _) = _
        rw [run, ok_bind]
        exact more
      · have known : ∀ e ∈ doc.entries, e.1 ∈ Vocab.addNames names (doc.entries.map Prod.fst) := fun e mem =>
          mem_addNames.mpr (.inr (List.mem_map_of_mem mem))
        rw [count₁, List.append_assoc, ← recordsOf_grows grows _ known] at holds'
        exact holds'
      · rw [pids, pids₁, List.append_assoc]
        rfl
      · rw [dls, dls₁, List.append_assoc]
        rfl

theorem consume (holds : b.Holds hash names log) {docs : List Doc} (small : ∀ doc ∈ docs, doc.Small)
    (room : b.pids.length + docs.length ≤ 0xFFFFFFF0)
    (few : (Vocab.addNames names (metTerms docs)).length < 2 ^ 32) :
    ∃ b', b.consume hash cap (batchOf docs) = .ok b' ∧
      b'.Holds hash (Vocab.addNames names (metTerms docs))
        (log ++ recordsFrom (Vocab.addNames names (metTerms docs)) b.pids.length docs) ∧
      b'.pids = b.pids ++ docs.map Doc.pid ∧ b'.dls = b.dls ++ docs.map fun doc => doc.toks.length := by
  have zipped : (batchOf docs).pids.zip ((batchOf docs).dls.zip (batchOf docs).nterms) =
      docs.map fun doc => (doc.pid, doc.toks.length, doc.entries.length) := by
    simp only [batchOf, List.zip_map']
  rw [Builder.consume, zipped]
  exact holds.consumeDocs small room few

end Builder.Holds

theorem recordsFrom_append (names : List Bytes) (ord : Nat) (front back : List Doc) :
    recordsFrom names ord (front ++ back) =
      recordsFrom names ord front ++ recordsFrom names (ord + front.length) back := by
  rw [recordsFrom, List.zipIdx_append, List.flatMap_append]
  rfl

theorem recordsFrom_grows {names more : List Bytes} (grows : names <+: more) (ord : Nat) {docs : List Doc}
    (known : ∀ s ∈ metTerms docs, s ∈ names) : recordsFrom more ord docs = recordsFrom names ord docs := by
  induction docs generalizing ord with
  | nil => rfl
  | cons doc rest ih =>
      have here : ∀ e ∈ doc.entries, e.1 ∈ names := fun e mem =>
        known e.1 (List.mem_flatMap.mpr ⟨doc, List.mem_cons_self, List.mem_map_of_mem mem⟩)
      have later : ∀ s ∈ metTerms rest, s ∈ names := fun s mem => known s (List.mem_append_right _ mem)
      show recordsOf more ord doc.entries ++ recordsFrom more (ord + 1) rest = _
      rw [recordsOf_grows grows ord here, ih (ord + 1) later]
      rfl

/-- **The reader pipeline** leaves the records of the documents of this partition, in order, whatever
the hash, the cap and the chunks. -/
theorem invert_holds (hash : Bytes → Nat) (opt : BuildOptions) {chunks : List (List Doc)}
    (small : ∀ doc ∈ kept opt chunks.flatten, doc.Small) (room : (kept opt chunks.flatten).length ≤ 0xFFFFFFF0)
    (few : (Vocab.addNames [] (metTerms (kept opt chunks.flatten))).length < 2 ^ 32) :
    ∃ b, invert hash opt chunks = .ok b ∧ b.recs = [] ∧
      b.Holds hash (Vocab.addNames [] (metTerms (kept opt chunks.flatten)))
        (recordsFrom (Vocab.addNames [] (metTerms (kept opt chunks.flatten))) 0 (kept opt chunks.flatten)) ∧
      b.pids = (kept opt chunks.flatten).map Doc.pid ∧
      b.dls = (kept opt chunks.flatten).map fun doc => doc.toks.length := by
  have run : ∃ b, chunks.foldlM (fun b docs => b.consume hash opt.cap (analyzeChunk opt.modN opt.modI docs))
        Builder.start = .ok b ∧
      b.Holds hash (Vocab.addNames [] (metTerms (kept opt chunks.flatten)))
        (recordsFrom (Vocab.addNames [] (metTerms (kept opt chunks.flatten))) 0 (kept opt chunks.flatten)) ∧
      b.pids = (kept opt chunks.flatten).map Doc.pid ∧
      b.dls = (kept opt chunks.flatten).map fun doc => doc.toks.length := by
    induction chunks using List.reverseRecOn with
    | nil =>
        exact ⟨Builder.start, rfl, ⟨Vocab.holds_init, List.forall_mem_nil _, List.forall_mem_nil _, [], .nil, rfl⟩,
          rfl, rfl⟩
    | append_singleton front docs ih =>
        have all : kept opt (front ++ [docs]).flatten = kept opt front.flatten ++ kept opt docs := by
          rw [List.flatten_append, List.flatten_singleton, kept_append]
        have met : metTerms (kept opt front.flatten ++ kept opt docs) =
            metTerms (kept opt front.flatten) ++ metTerms (kept opt docs) := List.flatMap_append ..
        rw [all] at small room few ⊢
        rw [List.length_append] at room
        rw [met, addNames_append] at few ⊢
        have grows := Vocab.prefix_addNames (Vocab.addNames [] (metTerms (kept opt front.flatten)))
          (metTerms (kept opt docs))
        obtain ⟨b, ran, holds, pids, dls⟩ := ih (fun doc mem => small doc (List.mem_append_left _ mem)) (by omega)
          (grows.length_le.trans_lt few)
        have own : ∀ doc ∈ kept opt docs, doc.Small := fun doc mem => small doc (List.mem_append_right _ mem)
        have count : b.pids.length = (kept opt front.flatten).length := by rw [pids, List.length_map]
        obtain ⟨b', more, holds', pids', dls'⟩ := @Builder.Holds.consume _ _ _ b opt.cap holds (kept opt docs) own
          (by omega) few
        refine ⟨b', ?_, ?_, ?_, ?_⟩
        · rw [List.foldlM_append, ran, ok_bind, List.foldlM_cons, analyzeChunk_eq opt own, more]
          rfl
        · have known : ∀ s ∈ metTerms (kept opt front.flatten),
              s ∈ Vocab.addNames [] (metTerms (kept opt front.flatten)) := fun s mem => mem_addNames.mpr (.inr mem)
          rw [count, ← recordsFrom_grows grows 0 known] at holds'
          rw [recordsFrom_append, Nat.zero_add]
          exact holds'
        · rw [pids', pids, List.map_append]
        · rw [dls', dls, List.map_append]
  obtain ⟨b, ran, holds, pids, dls⟩ := run
  obtain ⟨b', flushed, holds', empty, pids', dls'⟩ := holds.flushRun
  exact ⟨b', by rw [invert, ran, ok_bind, flushed], empty, holds', pids'.trans pids, dls'.trans dls⟩

/-! ## The inverted corpus -/

instance : DecidableRel BytesLe := fun a b => inferInstanceAs (Decidable ¬bytesLt b a)

/-- The distinct terms of the documents, in bytewise order. -/
def vocabulary (docs : List Doc) : List Bytes := (docs.flatMap Doc.toks).dedup.insertionSort BytesLe

/-- The documents that have the term, with their ordinals. -/
def holders (docs : List Doc) (s : Bytes) : List (Doc × Nat) := docs.zipIdx.filter fun x => x.1.toks.contains s

/-- The term with its documents and how often each has it. -/
def invertedTerm (docs : List Doc) (s : Bytes) : Merged where
  str := s
  docs := (holders docs s).map Prod.snd
  tfs := (holders docs s).map fun x => x.1.toks.count s

def inverted (docs : List Doc) : List Merged := (vocabulary docs).map (invertedTerm docs)

theorem mem_vocabulary {docs : List Doc} {s : Bytes} : s ∈ vocabulary docs ↔ ∃ doc ∈ docs, s ∈ doc.toks := by
  rw [vocabulary, List.mem_insertionSort, List.mem_dedup, List.mem_flatMap]

theorem nodup_vocabulary (docs : List Doc) : (vocabulary docs).Nodup :=
  (List.perm_insertionSort _ _).nodup_iff.mpr (List.nodup_dedup _)

theorem sorted_vocabulary (docs : List Doc) : (vocabulary docs).Pairwise BytesLe := by
  have total : Std.Total BytesLe := ⟨bytesLe_total⟩
  have trans : IsTrans Bytes BytesLe := ⟨fun _ _ _ => bytesLe_trans⟩
  exact List.pairwise_insertionSort BytesLe _

theorem ordered_vocabulary (docs : List Doc) : (vocabulary docs).Pairwise bytesLt := by
  refine ((sorted_vocabulary docs).and (nodup_vocabulary docs)).imp fun {a b} both => ?_
  rcases bytesLt_or a b with less | same | more
  · exact less
  · exact absurd same both.2
  · exact absurd more both.1

theorem mem_metTerms {docs : List Doc} {s : Bytes} : s ∈ metTerms docs ↔ s ∈ vocabulary docs := by
  rw [metTerms, List.mem_flatMap, mem_vocabulary]
  refine exists_congr fun doc => and_congr_right fun _ => ⟨fun mem => ?_, entry_of_mem⟩
  obtain ⟨e, entry, rfl⟩ := List.mem_map.mp mem
  exact (mem_entries entry).1

/-- The builder's vocabulary is that of the documents. -/
theorem perm_vocabulary (docs : List Doc) : (Vocab.addNames [] (metTerms docs)).Perm (vocabulary docs) := by
  obtain ⟨nodup, same⟩ := Vocab.addNames_strings (metTerms docs)
  exact (List.perm_ext_iff_of_nodup nodup (nodup_vocabulary docs)).mpr fun s => (same s).trans mem_metTerms

/-! ## Merging -/

theorem mapM_eq_map {α β : Type} {f : α → Except Fault β} {g : α → β} {xs : List α} (each : ∀ x ∈ xs, f x = .ok (g x)) :
    xs.mapM f = .ok (xs.map g) := by
  induction xs with
  | nil => rfl
  | cons x rest ih =>
      obtain ⟨here, each⟩ := List.forall_mem_cons.mp each
      rw [List.mapM_cons, here, ok_bind, ih each]
      rfl

/-- **The records of a term** come from the documents that have it. -/
theorem bucket_records {names : List Bytes} (s : Bytes) {xs : List (Doc × Nat)}
    (known : ∀ x ∈ xs, ∀ e ∈ x.1.entries, e.1 ∈ names) :
    CountingSort.bucket Record.term (xs.flatMap fun x => recordsOf names x.2 x.1.entries) (names.idxOf s) =
      (xs.filter fun x => x.1.toks.contains s).map fun x => ⟨names.idxOf s, x.2, x.1.toks.count s⟩ := by
  induction xs with
  | nil => rfl
  | cons x rest ih =>
      obtain ⟨here, known⟩ := List.forall_mem_cons.mp known
      have of_doc : CountingSort.bucket Record.term (recordsOf names x.2 x.1.entries) (names.idxOf s) =
          if s ∈ x.1.toks then [⟨names.idxOf s, x.2, x.1.toks.count s⟩] else [] := by
        have selected : x.1.entries.filter ((fun r : Record => decide (r.term = names.idxOf s)) ∘
            fun e => ⟨names.idxOf e.1, x.2, e.2⟩) = x.1.entries.filter fun e => decide (e.1 = s) := by
          refine List.filter_congr fun e mem => ?_
          simp only [Function.comp, List.idxOf_inj (here e mem)]
        rw [CountingSort.bucket, recordsOf, List.filter_map, selected, filter_entries]
        split_ifs
        · rfl
        · rfl
      rw [List.flatMap_cons, CountingSort.bucket, List.filter_append, ← CountingSort.bucket, ← CountingSort.bucket,
        of_doc, ih known, List.filter_cons]
      by_cases mem : s ∈ x.1.toks
      · rw [if_pos mem, if_pos (List.contains_iff_mem.mpr mem)]
        rfl
      · rw [if_neg mem, if_neg (by simpa using mem)]
        rfl

theorem increasing_holders (docs : List Doc) (s : Bytes) : ((holders docs s).map Prod.snd).Pairwise (· < ·) := by
  have sub : ((holders docs s).map Prod.snd).Sublist (docs.zipIdx.map Prod.snd) := List.filter_sublist.map _
  rw [List.zipIdx_map_snd] at sub
  exact List.Pairwise.sublist sub (List.pairwise_lt_range' 1)

theorem holders_ne_nil {docs : List Doc} {s : Bytes} (mem : s ∈ vocabulary docs) : holders docs s ≠ [] := by
  obtain ⟨doc, mem, has⟩ := mem_vocabulary.mp mem
  obtain ⟨i, at_i⟩ := List.mem_iff_getElem?.mp mem
  have pair : (doc, i) ∈ docs.zipIdx := List.mk_mem_zipIdx_iff_getElem?.mpr at_i
  exact List.ne_nil_of_mem (List.mem_filter.mpr ⟨pair, List.contains_iff_mem.mpr has⟩)

section Merge

variable {hash : Bytes → Nat} {docs : List Doc} {b : Builder}
  (holds : b.Holds hash (Vocab.addNames [] (metTerms docs)) (recordsFrom (Vocab.addNames [] (metTerms docs)) 0 docs))
  (spilled : b.recs = [])
include holds

theorem map_termOrder : (termOrder b.vocab).map b.vocab.str = vocabulary docs := by
  have size : b.vocab.size = (Vocab.addNames [] (metTerms docs)).length := holds.vocab.size_eq
  have names : (List.range b.vocab.size).map b.vocab.str = Vocab.addNames [] (metTerms docs) := by
    rw [size]
    refine List.ext_getElem (by rw [List.length_map, List.length_range]) fun i _ inside => ?_
    rw [List.getElem_map, List.getElem_range, holds.vocab.str_eq inside, List.getD_eq_getElem _ _ inside]
  have total : Std.Total fun i j => ¬bytesLt (b.vocab.str j) (b.vocab.str i) :=
    ⟨fun i j => bytesLe_total (b.vocab.str i) (b.vocab.str j)⟩
  have trans : IsTrans Nat fun i j => ¬bytesLt (b.vocab.str j) (b.vocab.str i) := ⟨fun _ _ _ => bytesLe_trans⟩
  have sorted := List.pairwise_insertionSort (fun i j => ¬bytesLt (b.vocab.str j) (b.vocab.str i))
    (List.range b.vocab.size)
  have perm : ((termOrder b.vocab).map b.vocab.str).Perm (vocabulary docs) := by
    refine ((List.perm_insertionSort _ _).map _).trans ?_
    rw [names]
    exact perm_vocabulary docs
  exact perm.eq_of_pairwise (fun _ _ _ _ => bytesLe_antisymm) (List.pairwise_map.mpr sorted) (sorted_vocabulary docs)

include spilled

theorem mergeTerm_eq {t : Nat} (inside : t < (Vocab.addNames [] (metTerms docs)).length) :
    (do
      let lists ← mergeTerm t b.runs
      checkTerm (b.vocab.str t) lists.1 lists.2) = .ok (invertedTerm docs (b.vocab.str t)) := by
  obtain ⟨parts, written, whole⟩ := holds.runs
  obtain ⟨nodup, same⟩ := Vocab.addNames_strings (metTerms docs)
  have str : b.vocab.str t = (Vocab.addNames [] (metTerms docs))[t] := by
    rw [holds.vocab.str_eq inside, List.getD_eq_getElem _ _ inside]
  have own : b.vocab.str t ∈ Vocab.addNames [] (metTerms docs) := str ▸ List.getElem_mem inside
  have index : (Vocab.addNames [] (metTerms docs)).idxOf (b.vocab.str t) = t := by
    rw [str]
    exact nodup.idxOf_getElem t inside
  have known : ∀ x ∈ docs.zipIdx, ∀ e ∈ x.1.entries, e.1 ∈ Vocab.addNames [] (metTerms docs) := fun x mem e entry =>
    (same e.1).mpr (List.mem_flatMap.mpr ⟨x.1, List.fst_mem_of_mem_zipIdx mem, List.mem_map_of_mem entry⟩)
  have bucket := bucket_records (b.vocab.str t) known
  rw [index] at bucket
  rw [spilled, List.append_nil] at whole
  rw [mergeTerm_spec written t, ok_bind, ← whole, recordsFrom, bucket, List.map_map, List.map_map]
  have present : (holders docs (b.vocab.str t)).map Prod.snd ≠ [] :=
    mt List.map_eq_nil_iff.mp (holders_ne_nil (mem_metTerms.mp ((same _).mp own)))
  have increasing := List.isChain_iff_pairwise.mpr (increasing_holders docs (b.vocab.str t))
  show checkTerm (b.vocab.str t) ((holders docs (b.vocab.str t)).map Prod.snd) _ = _
  rw [checkTerm, if_neg present, if_pos increasing]
  rfl

end Merge

/-- **Building inverts the corpus.** Whatever the hash function, the posting cap and the chunks, the
merge ends with the terms of this partition's documents in bytewise order, and each has the documents
it occurs in, in order, and its count in each. -/
theorem mergeRuns_inverts (hash : Bytes → Nat) (opt : BuildOptions) {chunks : List (List Doc)}
    (small : ∀ doc ∈ kept opt chunks.flatten, doc.Small) (room : (kept opt chunks.flatten).length ≤ 0xFFFFFFF0)
    (few : (vocabulary (kept opt chunks.flatten)).length < 2 ^ 32) :
    ∃ b, mergeRuns hash opt chunks = .ok (b, inverted (kept opt chunks.flatten)) ∧
      b.pids = (kept opt chunks.flatten).map Doc.pid ∧
      b.dls = (kept opt chunks.flatten).map fun doc => doc.toks.length := by
  rw [← (perm_vocabulary _).length_eq] at few
  obtain ⟨b, ran, spilled, holds, pids, dls⟩ := invert_holds hash opt small room few
  have terms : mergeTerms b.vocab b.runs (termOrder b.vocab) = .ok (inverted (kept opt chunks.flatten)) := by
    rw [inverted, ← map_termOrder holds, List.map_map]
    refine mapM_eq_map fun t mem => mergeTerm_eq holds spilled ?_
    have inside := (List.perm_insertionSort _ _).mem_iff.mp mem
    rw [List.mem_range, holds.vocab.size_eq] at inside
    exact inside
  exact ⟨b, by rw [mergeRuns, ran, ok_bind, terms, ok_bind]; rfl, pids, dls⟩

/-- Two terms that are in two documents each, and one that is in one. -/
def threeDocs : List Doc := [⟨10, [[97], [98], [97]]⟩, ⟨11, [[98]]⟩, ⟨12, [[99], [97]]⟩]

/-- Three documents in two chunks, spilled after every second posting. -/
theorem mergeRuns_inverts_three : ∃ b,
    mergeRuns hashBytes ⟨[.bp128], 2, 0, 0⟩ [threeDocs.take 2, threeDocs.drop 2] = .ok (b, inverted threeDocs) ∧
      b.pids = [10, 11, 12] ∧ b.dls = [3, 1, 2] := by
  have sizes : ∀ doc ∈ threeDocs, doc.toks.length < 2 ^ 32 ∧ ∀ s ∈ doc.toks, s.length < 2 ^ 32 := by decide
  exact mergeRuns_inverts hashBytes ⟨[.bp128], 2, 0, 0⟩ (fun doc mem => ⟨(sizes doc mem).1, (sizes doc mem).2⟩)
    (by decide) (by decide +kernel)

end HybridSearch.Engine
