/-
# Engine.DiskMerge -- the streaming merge of the partition graphs (disk_build.cc)

A spilled graph has the record of its `i`-th point at the `i`-th place, and the points of
a partition ascend.  So a cursor that stands at the first point from `s` on stands at that
point's record too (`Reading`), whatever the chunks were, and what a chunk takes from the
file are the lists of its own points (`drain_spec`).  The rows of a chunk then depend on
the partitions only (`mergeRows_spec`), and writing them chunk by chunk is writing one
file of all lists (`writeRows_eq`).
-/
import HybridSearch.Engine.DiskBuild
import HybridSearch.Engine.DiskRoundTrip
import HybridSearch.Engine.VamanaInvariant

namespace HybridSearch.Engine

open HybridSearch.Theory

set_option autoImplicit false

/-! ## Files of words -/

theorem map_getD_range (words : List Nat) : ((List.range words.length).map fun i => words.getD i 0) = words := by
  refine List.ext_getElem (by simp) fun i _ below => ?_
  rw [List.getElem_map, List.getElem_range, List.getD_eq_getElem _ _ below]

theorem fwriteWords_eq (words : List Nat) : fwriteWords words = words.flatMap le32 := by
  rw [fwriteWords, storeWords]
  conv_rhs => rw [← map_getD_range words]
  rw [List.flatMap_map]

theorem fwriteWords_append (xs ys : List Nat) : fwriteWords (xs ++ ys) = fwriteWords xs ++ fwriteWords ys := by
  rw [fwriteWords_eq, fwriteWords_eq, fwriteWords_eq, List.flatMap_append]

/-- **Words are read back**, and what follows them is left. -/
theorem freadWords_fwriteWords {words : List Nat} (fit : ∀ x ∈ words, x < 2 ^ 32) {count : Nat}
    (counted : words.length = count) (rest : Bytes) :
    freadWords count (fwriteWords words ++ rest) = some (words, rest) := by
  subst counted
  have length : (fwriteWords words).length = 4 * words.length := length_storeWords _ _
  have enough : ¬ (fwriteWords words ++ rest).length < 4 * words.length := by
    rw [List.length_append]
    omega
  rw [freadWords, if_neg enough, List.drop_left' length]
  congr 2
  refine List.ext_getElem (by simp) fun i below inside => ?_
  rw [List.length_map, List.length_range] at below
  rw [List.getElem_map, List.getElem_range, wordAt_append (by omega)]
  have entry : words.getD i 0 = words[i] := List.getD_eq_getElem _ _ below
  have stored := wordAt_storeWords (w := fun i => words.getD i 0) below
    (by rw [entry]; exact fit _ (List.getElem_mem below))
  exact stored.trans entry

namespace DiskBuild

/-! ## First-seen order -/

section FirstSeen

variable {g : Nat}

theorem firstSeen_append (xs : List Nat) (v : Nat) : firstSeen g (xs ++ [v]) =
    if v ≠ g ∧ v ∉ firstSeen g xs then firstSeen g xs ++ [v] else firstSeen g xs := by
  rw [firstSeen, List.foldl_append]
  rfl

theorem mem_firstSeen {xs : List Nat} {v : Nat} : v ∈ firstSeen g xs ↔ v ∈ xs ∧ v ≠ g := by
  induction xs using List.reverseRecOn with
  | nil => simp [firstSeen]
  | append_singleton xs x ih =>
      rw [firstSeen_append]
      split_ifs with fresh
      · simp only [List.mem_append, List.mem_singleton, ih]
        constructor
        · rintro (⟨old, other⟩ | rfl)
          · exact ⟨Or.inl old, other⟩
          · exact ⟨Or.inr rfl, fresh.1⟩
        · rintro ⟨old | new, other⟩
          · exact Or.inl ⟨old, other⟩
          · exact Or.inr new
      · simp only [List.mem_append, List.mem_singleton]
        rw [ih]
        refine ⟨fun held => ⟨Or.inl held.1, held.2⟩, ?_⟩
        rintro ⟨old | rfl, other⟩
        · exact ⟨old, other⟩
        · by_contra missing
          exact fresh ⟨other, fun seen => missing (ih.mp seen)⟩

theorem nodup_firstSeen (xs : List Nat) : (firstSeen g xs).Nodup := by
  induction xs using List.reverseRecOn with
  | nil => exact List.nodup_nil
  | append_singleton xs x ih =>
      rw [firstSeen_append]
      split_ifs with fresh
      · refine List.nodup_append.mpr ⟨ih, List.nodup_singleton x, ?_⟩
        rintro a a_mem b b_mem rfl
        exact fresh.2 (List.mem_singleton.mp b_mem ▸ a_mem)
      · exact ih

end FirstSeen

/-! ## One spilled graph -/

/-- The spilled records of the points from the `k`-th on; `lists i` is that of the `i`-th point. -/
def recordsFrom (ids : List Nat) (lists : Nat → List Nat) (k : Nat) : Bytes :=
  (List.range' k (ids.length - k)).flatMap fun i => fwriteWords ((lists i).length :: lists i)

/-- What a partition says of a point. -/
def edges (ids : List Nat) (lists : Nat → List Nat) (g : Nat) : List Nat :=
  if g ∈ ids then lists (ids.idxOf g) else []

/-- A partition as it is spilled. -/
structure Spilled (n : Nat) (ids : List Nat) (lists : Nat → List Nat) : Prop where
  ascending : ids.Pairwise (· < ·)
  points : ∀ g ∈ ids, g < n
  words : ∀ i < ids.length, (lists i).length < 2 ^ 32 ∧ ∀ v ∈ lists i, v < 2 ^ 32

/-- A spilled graph that was read up to its `k`-th record. -/
def readTo (ids : List Nat) (lists : Nat → List Nat) (k : Nat) : Spill := ⟨ids, k, recordsFrom ids lists k⟩

/-- **The cursor and the file are at the same place**: behind the points below `s`. -/
structure Reading (ids : List Nat) (lists : Nat → List Nat) (s : Nat) (f : Spill) : Prop where
  same : f = readTo ids lists f.cursor
  past : ∀ i < f.cursor, ids.getD i 0 < s
  ahead : ∀ i, f.cursor ≤ i → i < ids.length → s ≤ ids.getD i 0

theorem recordsFrom_eq {ids : List Nat} {lists : Nat → List Nat} {k : Nat} (inside : k < ids.length) :
    recordsFrom ids lists k = fwriteWords [(lists k).length] ++
      (fwriteWords (lists k) ++ recordsFrom ids lists (k + 1)) := by
  have split : ids.length - k = ids.length - (k + 1) + 1 := by omega
  rw [recordsFrom, split, List.range'_succ, List.flatMap_cons, ← List.append_assoc, ← fwriteWords_append]
  rfl

section Drain

variable {n : Nat} {ids : List Nat} {lists : Nat → List Nat} (spilled : Spilled n ids lists) (small : n < 2 ^ 32)
  {s e : Nat}

include spilled small

/-- **One record** goes to the slot of its point. -/
theorem readRecord_spec {k : Nat} (inside : k < ids.length) (atLeast : s ≤ ids.getD k 0)
    {merged : List (List Nat)} (room : ids.getD k 0 - s < merged.length) :
    readRecord s (ids.getD k 0) (readTo ids lists k) merged =
      .ok (readTo ids lists (k + 1),
        merged.set (ids.getD k 0 - s) (merged.getD (ids.getD k 0 - s) [] ++ lists k)) := by
  have point : ids.getD k 0 < n := by
    rw [List.getD_eq_getElem _ _ inside]
    exact spilled.points _ (List.getElem_mem inside)
  obtain ⟨count, words⟩ := spilled.words k inside
  have slot : sub32 (ids.getD k 0) s = ids.getD k 0 - s := by
    unfold sub32 u32
    omega
  have degree : spillRead 1 (readTo ids lists k).file =
      .ok ([(lists k).length], fwriteWords (lists k) ++ recordsFrom ids lists (k + 1)) := by
    have file : (readTo ids lists k).file = recordsFrom ids lists k := rfl
    rw [spillRead, file, recordsFrom_eq inside,
      freadWords_fwriteWords (by simpa using count) (List.length_singleton (a := (lists k).length))]
  have list : spillRead (lists k).length (fwriteWords (lists k) ++ recordsFrom ids lists (k + 1)) =
      .ok (lists k, recordsFrom ids lists (k + 1)) := by
    rw [spillRead, freadWords_fwriteWords words rfl]
  have old : at? merged (ids.getD k 0 - s) = .ok (merged.getD (ids.getD k 0 - s) []) := by
    apply at?_eq_ok
    rw [List.getElem?_eq_getElem room, List.getD_eq_getElem _ _ room]
  rw [readRecord, degree, ok_bind]
  dsimp only
  rw [slot, old, ok_bind, List.getD_cons_zero]
  have next : readTo ids lists (k + 1) = ⟨ids, k + 1, recordsFrom ids lists (k + 1)⟩ := rfl
  rw [next]
  generalize recordsFrom ids lists (k + 1) = rest at *
  split_ifs with noNeighbors
  · have empty := List.length_eq_zero_iff.mp noNeighbors
    rw [empty, List.append_nil, List.getD_eq_getElem _ _ room, List.set_getElem_self]
    rfl
  · rw [list]
    rfl

/-- **A chunk takes the lists of its points**, and the cursor goes to its end. -/
theorem drain_spec {fuel k : Nat} (past : ∀ i < k, ids.getD i 0 < e)
    (ahead : ∀ i, k ≤ i → i < ids.length → s ≤ ids.getD i 0) (enough : ids.length - k < fuel)
    {merged : List (List Nat)} (room : e ≤ s + merged.length) :
    ∃ f' merged', drain s e fuel (readTo ids lists k) merged = .ok (f', merged') ∧ Reading ids lists e f' ∧
      merged'.length = merged.length ∧ ∀ g, s ≤ g → g < e →
        merged'.getD (g - s) [] = merged.getD (g - s) [] ++
          if g ∈ ids.drop k then lists (ids.idxOf g) else [] := by
  induction fuel generalizing k merged with
  | zero => exact absurd enough (Nat.not_lt_zero _)
  | succ fuel ih =>
      rw [drain]
      have cursor : (readTo ids lists k).ids[(readTo ids lists k).cursor]? = ids[k]? := rfl
      rw [cursor]
      rcases Nat.lt_or_ge k ids.length with inside | done
      · rw [List.getElem?_eq_getElem inside]
        have here : ids.getD k 0 = ids[k] := List.getD_eq_getElem _ _ inside
        have dropped : ids.drop k = ids[k] :: ids.drop (k + 1) :=
          List.drop_eq_getElem_cons inside
        have later : ∀ g ∈ ids.drop (k + 1), ids[k] < g := by
          have tail := (spilled.ascending.sublist (List.drop_sublist k ids))
          rw [dropped] at tail
          exact (List.pairwise_cons.mp tail).1
        have atLeast := ahead k le_rfl inside
        dsimp only
        split_ifs with below
        · -- the record at the cursor is read
          rw [← here] at below ⊢
          have slot : ids.getD k 0 - s < merged.length := by omega
          rw [readRecord_spec spilled small inside atLeast slot, ok_bind]
          obtain ⟨f', merged', run, reading, length, held⟩ := @ih (k + 1)
            (fun i upTo => by
              rcases Nat.lt_succ_iff_lt_or_eq.mp upTo with before | rfl
              · exact past i before
              · exact below)
            (fun i behind => ahead i (Nat.le_of_succ_le behind)) (by omega)
            (merged.set (ids.getD k 0 - s) (merged.getD (ids.getD k 0 - s) [] ++ lists k))
            (by rw [List.length_set]; exact room)
          refine ⟨f', merged', run, reading, length.trans (List.length_set ..), fun g low high => ?_⟩
          rw [held g low high, dropped]
          by_cases its : g = ids[k]
          · have slot' : g - s < (merged.set (g - s) (merged.getD (g - s) [] ++ lists k)).length := by
              rw [List.length_set]
              omega
            have position : ids.idxOf g = k := by
              rw [its]
              exact spilled.ascending.nodup.idxOf_getElem k inside
            have absent : g ∉ ids.drop (k + 1) := fun mem => (later g mem).ne its.symm
            rw [if_neg absent, List.append_nil, here, ← its, if_pos (List.mem_cons_self ..), position,
              List.getD_eq_getElem _ _ slot', List.getElem_set_self]
          · have other : ids.getD k 0 - s ≠ g - s := by
              rw [here] at atLeast ⊢
              omega
            have same : g ∈ ids[k] :: ids.drop (k + 1) ↔ g ∈ ids.drop (k + 1) := by
              rw [List.mem_cons]
              exact or_iff_right its
            simp only [same]
            congr 1
            generalize ids.getD k 0 - s = slot at other
            rw [List.getD_eq_getElem?_getD, List.getElem?_set_ne other, ← List.getD_eq_getElem?_getD]
        · -- the point at the cursor is behind the chunk
          have behind (g : Nat) (mem : g ∈ ids.drop k) : e ≤ g := by
            rw [dropped] at mem
            rcases List.mem_cons.mp mem with rfl | mem
            · exact Nat.le_of_not_lt below
            · exact (Nat.le_of_not_lt below).trans (later g mem).le
          refine ⟨_, merged, rfl, ⟨rfl, past, fun i atLeast inside => ?_⟩, rfl, fun g low high => ?_⟩
          · rw [List.getD_eq_getElem _ _ inside]
            exact behind _ (List.mem_drop_iff_getElem.mpr ⟨i - k, by omega, by
              congr 1
              exact Nat.add_sub_cancel' atLeast⟩)
          · rw [if_neg fun mem => absurd high (Nat.not_lt.mpr (behind g mem)), List.append_nil]
      · rw [List.getElem?_eq_none done]
        refine ⟨_, merged, rfl, ⟨rfl, past, fun i behind below => absurd (done.trans behind) (by omega)⟩, rfl,
          fun g _ _ => ?_⟩
        rw [List.drop_eq_nil_of_le done, if_neg List.not_mem_nil, List.append_nil]

end Drain

/-! ## All spilled graphs -/

/-- A partition: its points and their lists. -/
abbrev Part := List Nat × (Nat → List Nat)

/-- What all partitions say of a point, in their order. -/
def joined (parts : List Part) (g : Nat) : List Nat := parts.flatMap fun part => edges part.1 part.2 g

section Chunks

variable {n : Nat} {parts : List Part} (spilled : ∀ part ∈ parts, Spilled n part.1 part.2) (small : n < 2 ^ 32)

include spilled small

theorem drainAll_spec {s e : Nat} {files : List Spill}
    (reading : List.Forall₂ (fun part f => Reading part.1 part.2 s f) parts files) (le : s ≤ e)
    {merged : List (List Nat)} (room : e ≤ s + merged.length) :
    ∃ files' merged', drainAll s e files merged = .ok (files', merged') ∧
      List.Forall₂ (fun part f => Reading part.1 part.2 e f) parts files' ∧
      merged'.length = merged.length ∧ ∀ g, s ≤ g → g < e →
        merged'.getD (g - s) [] = merged.getD (g - s) [] ++ joined parts g := by
  induction reading generalizing merged with
  | nil =>
      refine ⟨[], merged, rfl, List.Forall₂.nil, rfl, fun g _ _ => ?_⟩
      rw [joined, List.flatMap_nil, List.append_nil]
  | @cons part f parts files here rest ih =>
      obtain ⟨own, spilled⟩ := List.forall_mem_cons.mp spilled
      obtain ⟨f', merged₁, run, reading', length, held⟩ := @drain_spec n part.1 part.2 own small s e
        (f.ids.length + 1) f.cursor (fun i upTo => (here.past i upTo).trans_le le) here.ahead
        (by
          have ids : f.ids = part.1 := by rw [here.same]; rfl
          rw [ids]
          omega)
        _ room
      obtain ⟨files', merged', runs, readings, lengths, helds⟩ := ih spilled (room.trans_eq (by rw [length]))
      rw [← here.same] at run
      refine ⟨f' :: files', merged', ?_, List.Forall₂.cons reading' readings, lengths.trans length,
        fun g low high => ?_⟩
      · rw [drainAll, run, ok_bind]
        dsimp only
        rw [runs]
        rfl
      · have listed : (if g ∈ part.1.drop f.cursor then part.2 (part.1.idxOf g) else []) =
            edges part.1 part.2 g := by
          have same : g ∈ part.1.drop f.cursor ↔ g ∈ part.1 := by
            refine ⟨List.mem_of_mem_drop, fun mem => ?_⟩
            obtain ⟨i, inside, rfl⟩ := List.getElem_of_mem mem
            have behind : f.cursor ≤ i := by
              by_contra before
              have past := here.past i (Nat.lt_of_not_le before)
              rw [List.getD_eq_getElem _ _ inside] at past
              exact absurd past (Nat.not_lt.mpr low)
            exact List.mem_drop_iff_getElem.mpr ⟨i - f.cursor, by omega, by
              congr 1
              exact Nat.add_sub_cancel' behind⟩
          simp only [edges, same]
        rw [helds g low high, held g low high, listed, List.append_assoc, joined, joined, List.flatMap_cons]

variable {P : Points} {p : DiskBuildParams}

/-- **The rows of a chunk** are the pooled lists, cut to `R`. -/
theorem mergeRows_spec {s e : Nat} {m : Merging}
    (reading : List.Forall₂ (fun part f => Reading part.1 part.2 s f) parts m.files) (le : s ≤ e) (fits : e < 2 ^ 32)
    (room : e - s ≤ m.merged.length) :
    ∃ m', mergeRows P p m s e = .ok ((List.range' s (e - s)).map fun g => out P p g (joined parts g), m') ∧
      List.Forall₂ (fun part f => Reading part.1 part.2 e f) parts m'.files ∧
      m'.merged.length = m.merged.length := by
  have count : sub32 e s = e - s := by
    unfold sub32 u32
    omega
  have length : (List.replicate (e - s) ([] : List Nat) ++ m.merged.drop (e - s)).length = m.merged.length := by
    rw [List.length_append, List.length_replicate, List.length_drop]
    omega
  obtain ⟨files', merged', run, readings, lengths, held⟩ := @drainAll_spec n parts spilled small s e m.files reading
    le (List.replicate (e - s) [] ++ m.merged.drop (e - s)) (by rw [length]; omega)
  refine ⟨⟨files', merged'⟩, ?_, readings, lengths.trans length⟩
  have rows : (List.range' s (e - s)).map (fun g => out P p g (merged'.getD (g - s) [])) =
      (List.range' s (e - s)).map fun g => out P p g (joined parts g) := by
    refine List.map_congr_left fun g mem => ?_
    obtain ⟨low, high⟩ := List.mem_range'_1.mp mem
    have cleared : (List.replicate (e - s) ([] : List Nat) ++ m.merged.drop (e - s)).getD (g - s) [] = [] := by
      rw [List.getD_append _ _ _ _ (by rw [List.length_replicate]; omega), List.getD_replicate]
      omega
    rw [held g low (by omega), cleared, List.nil_append]
  rw [mergeRows, count, run, ok_bind]
  dsimp only
  rw [rows]
  rfl

end Chunks

/-! ## Writing chunk by chunk -/

theorem write_header {w w' : NodeWriter} {data : Nat → Bytes} {nbrs : Nat → List Nat} {s e : Nat}
    (written : w.write data nbrs s e = .ok w') : w'.h = w.h := by
  rw [NodeWriter.write] at written
  split_ifs at written
  obtain ⟨buf, -, put⟩ := bind_eq_ok.mp written
  cases put
  rfl

/-- A chunk depends on the lists of its own nodes. -/
theorem write_congr {w : NodeWriter} {data : Nat → Bytes} {nbrs nbrs' : Nat → List Nat} {s e : Nat}
    (same : ∀ i, s ≤ i → i < e → nbrs i = nbrs' i) : w.write data nbrs s e = w.write data nbrs' s e := by
  have records : ∀ (is : List Nat) (buf : Bytes), (∀ i ∈ is, s ≤ i ∧ i < e) →
      is.foldlM (w.putRecord data nbrs (w.recordOffset s)) buf =
        is.foldlM (w.putRecord data nbrs' (w.recordOffset s)) buf := by
    intro is
    induction is with
    | nil => exact fun buf _ => rfl
    | cons i rest ih =>
        intro buf inside
        obtain ⟨here, inside⟩ := List.forall_mem_cons.mp inside
        rw [List.foldlM_cons, List.foldlM_cons]
        simp only [NodeWriter.putRecord, same i here.1 here.2]
        exact bind_congr fun buf => ih buf inside
  rw [NodeWriter.write, NodeWriter.write]
  split_ifs
  · rfl
  · rw [records _ _ fun i mem => ?_]
    obtain ⟨low, high⟩ := List.mem_range'_1.mp mem
    omega

/-- A chunk takes the lists that were read for it. -/
theorem write_rows {w : NodeWriter} {data : Nat → Bytes} {nbrs : Nat → List Nat} {s e : Nat} :
    w.write data (fun i => ((List.range' s (e - s)).map nbrs).getD (i - s) []) s e = w.write data nbrs s e := by
  refine write_congr fun i low high => ?_
  rw [List.getD_eq_getElem _ _ (by rw [List.length_map, List.length_range']; omega), List.getElem_map,
    List.getElem_range']
  congr 1
  omega

/-- **Rows by chunks are the chunks of all rows.** -/
theorem writeRows_eq {σ : Type} {P : Points} {rows : σ → Nat → Nat → Except Fault (List (List Nat) × σ)}
    {nbrs : Nat → List Nat} {At : Nat → σ → Prop} {n chunk : Nat} (room : n + chunk < 2 ^ 32)
    (each : ∀ s state, s < n → At s state → ∃ state', rows state s (min n (s + chunk)) =
      .ok ((List.range' s (min n (s + chunk) - s)).map nbrs, state') ∧ At (min n (s + chunk)) state')
    {fuel s : Nat} {state : σ} (start : s < n → At s state) {w : NodeWriter} (count : w.h.n = n)
    (chunks : w.chunkNodes = chunk) :
    writeRows P rows fuel s state w = NodeWriter.writeChunks P.bytes nbrs fuel s w := by
  induction fuel generalizing s state w with
  | zero => rfl
  | succ fuel ih =>
      rw [writeRows, NodeWriter.writeChunks, count, chunks]
      split_ifs with more
      · have next : u32 (s + chunk) = s + chunk := Nat.mod_eq_of_lt (by omega)
        obtain ⟨state', run, after⟩ := each s state more (start more)
        rw [next]
        dsimp only
        rw [run, ok_bind]
        dsimp only
        rw [write_rows]
        cases written : w.write P.bytes nbrs s (min n (s + chunk)) with
        | error fault => rfl
        | ok w' =>
            have header := write_header written
            refine ih (fun again => ?_) (by rw [header]; exact count) ?_
            · rwa [Nat.min_eq_right (Nat.le_of_lt again)] at after
            · rw [NodeWriter.chunkNodes, header]
              exact chunks
      · rfl

end DiskBuild

end HybridSearch.Engine
