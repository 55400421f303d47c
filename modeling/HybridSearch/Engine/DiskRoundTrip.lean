/-
# Engine.DiskRoundTrip -- what is read from the disk index is what was written

In both regimes of the layout the records are slots of groups: `npb` slots to a group of
`bpn` blocks (`Layout`, `recordOffset_eq`).  A chunk starts where the file ends, so the
writer only appends (`write_spec`), and the file holds every record that was written
(`Held`).  A reader opens a group, which holds the whole record.

A record within 4095 bytes of 2^32 is given no blocks at all: its number of blocks is
rounded up in 32 bits (`readNode_written`).
-/
import HybridSearch.Engine.NodeWriter
import Mathlib.Tactic.NormNum

namespace HybridSearch.Engine

open HybridSearch.Theory

set_option autoImplicit false

/-! ## The layout -/

theorem kBlock_eq : kBlock = 4096 := rfl

/-- `npb` records of `rb` bytes to a group of `bpn` blocks. -/
structure Layout (rb npb bpn : Nat) : Prop where
  record : 0 < rb
  nodes : 0 < npb
  many : npb ≤ 1024
  room : npb * rb ≤ bpn * kBlock
  /-- Several nodes share one block. -/
  single : 1 < npb → bpn = 1
  /-- No block is spare. -/
  tight : bpn * kBlock < rb + kBlock
  words : bpn * kBlock + kBlock ≤ 2 ^ 32

/-- **The layout of records that are counted in 32 bits.** -/
theorem diskLayout_ok {dim R : Nat} (sized : dim * 4 + 4 + R * 4 + 4095 < 2 ^ 32) :
    (diskLayout dim R).1 = dim * 4 + 4 + R * 4 ∧
      Layout (diskLayout dim R).1 (diskLayout dim R).2.1 (diskLayout dim R).2.2 := by
  have small : u32 (dim * 4 + 4 + R * 4) = dim * 4 + 4 + R * 4 := Nat.mod_eq_of_lt (by omega)
  unfold diskLayout
  rw [small]
  generalize bytes : dim * 4 + 4 + R * 4 = rb at sized
  dsimp only
  split_ifs with packed
  · have least : 4 ≤ rb := by omega
    have room := Nat.div_mul_le_self kBlock rb
    have next := Nat.lt_div_mul_add (show 0 < rb by omega) (a := kBlock)
    refine ⟨rfl, by omega, Nat.div_pos packed (by omega), ?_, ?_, fun _ => rfl, ?_, by norm_num⟩
    · exact (Nat.div_le_div_left least (by decide)).trans (by decide)
    · rw [Nat.one_mul]
      exact room
    · rw [Nat.one_mul]
      omega
  · have up : u32 (rb + kBlock - 1) = rb + 4095 := Nat.mod_eq_of_lt sized
    rw [up]
    refine ⟨rfl, by omega, Nat.one_pos, by norm_num, ?_, fun more => absurd more (Nat.lt_irrefl 1), ?_, ?_⟩
    · change 1 * rb ≤ (rb + 4095) / 4096 * 4096
      omega
    · change (rb + 4095) / 4096 * 4096 < rb + 4096
      omega
    · change (rb + 4095) / 4096 * 4096 + 4096 ≤ 2 ^ 32
      omega

namespace Layout

variable {rb npb bpn : Nat} (layout : Layout rb npb bpn)

include layout

/-- **Offsets are slots behind the header.** -/
theorem recordOffset_eq {id : Nat} (small : id < 2 ^ 32) :
    diskRecordOffset id rb npb bpn = kBlock + Regions.slot (bpn * kBlock) rb npb id := by
  obtain ⟨record, nodes, many, room, single, tight, words⟩ := layout
  have inside := (Regions.slot_inside nodes room id).2
  have group : (id / npb + 1) * (bpn * kBlock) ≤ 2 ^ 32 * (bpn * kBlock) :=
    Nat.mul_le_mul_right _ ((Nat.succ_le_succ (Nat.div_le_self id npb)).trans small)
  have fits : kBlock + Regions.slot (bpn * kBlock) rb npb id < 2 ^ 64 := by
    have top : 2 ^ 32 * (bpn * kBlock) + 2 ^ 32 * kBlock ≤ 2 ^ 64 := by
      rw [← Nat.mul_add]
      exact (Nat.mul_le_mul_left _ words).trans (by norm_num)
    omega
  rw [diskRecordOffset]
  split_ifs with several
  · have one := single several
    subst one
    rw [Nat.one_mul] at fits ⊢
    rw [Regions.slot, ← Nat.add_assoc] at fits ⊢
    exact Nat.mod_eq_of_lt fits
  · have alone : npb = 1 := by omega
    subst alone
    rw [Regions.slot, Nat.div_one, Nat.mod_one, Nat.zero_mul, Nat.add_zero] at fits ⊢
    rw [Nat.mul_assoc]
    exact Nat.mod_eq_of_lt fits

/-- The group of a record is what is read for it. -/
theorem readOffset_eq {id : Nat} (small : id < 2 ^ 32) :
    diskRecordOffset id rb npb bpn / kBlock * kBlock = kBlock + id / npb * (bpn * kBlock) := by
  rw [layout.recordOffset_eq small, Regions.slot]
  have whole : id / npb * (bpn * kBlock) = id / npb * bpn * kBlock := (Nat.mul_assoc _ _ _).symm
  have rest : id % npb * rb < kBlock := by
    rcases Nat.lt_or_ge 1 npb with several | alone
    · have inside := Nat.mul_le_mul_right rb (Nat.succ_le_of_lt (Nat.mod_lt id layout.nodes))
      have room := layout.room
      have record := layout.record
      rw [layout.single several, Nat.one_mul] at room
      rw [Nat.succ_mul] at inside
      omega
    · have one : npb = 1 := by
        have nodes := layout.nodes
        omega
      rw [one, Nat.mod_one, Nat.zero_mul]
      decide
  rw [whole]
  generalize id / npb * bpn = blocks at *
  generalize id % npb * rb = offset at *
  rw [kBlock_eq] at *
  omega

theorem readLen_eq : u32 (bpn * kBlock) = bpn * kBlock := by
  have words : bpn * 4096 + 4096 ≤ 2 ^ 32 := layout.words
  have less : bpn * 4096 < 2 ^ 32 := by omega
  exact Nat.mod_eq_of_lt less

/-- **The end of a group**, rounded up from its last record. -/
theorem stop_eq {id : Nat} (small : id < 2 ^ 32) :
    u64 (diskRecordOffset id rb npb bpn + rb + kBlock - 1) / kBlock * kBlock =
      kBlock + (id / npb + 1) * (bpn * kBlock) := by
  have inside := (Regions.slot_inside layout.nodes layout.room id).2
  have group : (id / npb + 1) * (bpn * kBlock) ≤ 2 ^ 32 * (bpn * kBlock) :=
    Nat.mul_le_mul_right _ ((Nat.succ_le_succ (Nat.div_le_self id npb)).trans small)
  have top : 2 ^ 32 * (bpn * kBlock) + 2 ^ 32 * kBlock ≤ 2 ^ 64 := by
    rw [← Nat.mul_add]
    exact (Nat.mul_le_mul_left _ layout.words).trans (by norm_num)
  have read := layout.readOffset_eq small
  have record := layout.record
  have tight := layout.tight
  rw [layout.recordOffset_eq small] at read ⊢
  have whole : (id / npb + 1) * (bpn * kBlock) = id / npb * (bpn * kBlock) + bpn * kBlock :=
    Nat.succ_mul ..
  have fits : u64 (kBlock + Regions.slot (bpn * kBlock) rb npb id + rb + kBlock - 1) =
      kBlock + Regions.slot (bpn * kBlock) rb npb id + rb + kBlock - 1 := Nat.mod_eq_of_lt (by omega)
  rw [fits]
  have multiple : id / npb * (bpn * kBlock) = id / npb * bpn * kBlock := (Nat.mul_assoc _ _ _).symm
  rw [whole, multiple] at inside ⊢
  rw [multiple] at read
  clear fits top group whole multiple
  generalize id / npb * bpn = blocks at *
  generalize Regions.slot (bpn * kBlock) rb npb id = offset at *
  rw [kBlock_eq] at *
  have low : blocks * 4096 ≤ offset := by omega
  have quotient : (4096 + offset + rb + 4096 - 1) / 4096 = 1 + blocks + bpn := by omega
  rw [quotient, Nat.add_mul, Nat.add_mul, Nat.one_mul, Nat.add_assoc]

/-- Where the groups of `s` nodes end. -/
theorem groups_succ (e : Nat) : (e + 1 + npb - 1) / npb = e / npb + 1 := by
  have same : e + 1 + npb - 1 = e + npb := by omega
  rw [same, Nat.add_div_right e layout.nodes]

theorem groups_whole {s : Nat} (whole : npb ∣ s) : (s + npb - 1) / npb = s / npb := by
  obtain ⟨q, rfl⟩ := whole
  have nodes := layout.nodes
  rw [Nat.mul_div_cancel_left q nodes, Nat.div_eq_iff nodes, Nat.mul_comm npb q]
  omega

/-- A chunk starts with a group. -/
theorem recordOffset_whole {s : Nat} (small : s < 2 ^ 32) (whole : npb ∣ s) :
    diskRecordOffset s rb npb bpn = kBlock + (s + npb - 1) / npb * (bpn * kBlock) := by
  rw [layout.recordOffset_eq small, layout.groups_whole whole, Regions.slot,
    Nat.mod_eq_zero_of_dvd whole, Nat.zero_mul, Nat.add_zero]

end Layout

/-! ## Records -/

/-- The bytes of a record, without its padding. -/
def diskRecord (data : Nat → Bytes) (nbrs : Nat → List Nat) (i : Nat) : Bytes :=
  data i ++ (le32 (nbrs i).length ++ storeWords (fun j => (nbrs i).getD j 0) (nbrs i).length)

/-- Vectors of `dim` floats and lists of at most `R` ids. -/
structure Shapes (n dim R : Nat) (data : Nat → Bytes) (nbrs : Nat → List Nat) : Prop where
  vectors : ∀ i < n, (data i).length = dim * 4
  short : ∀ i < n, (nbrs i).length ≤ R
  ids : ∀ i < n, ∀ v ∈ nbrs i, v < 2 ^ 32

theorem length_le32 (x : Nat) : (le32 x).length = 4 := rfl

theorem wordAt_le32 {x : Nat} (fits : x < 2 ^ 32) : wordAt (le32 x) 0 = x := by
  have word : wordAt (storeWords (fun _ => x) 1) 0 = x := wordAt_storeWords Nat.one_pos fits
  exact word

section Records

variable {n dim R : Nat} {data : Nat → Bytes} {nbrs : Nat → List Nat}
  (shapes : Shapes n dim R data nbrs)

include shapes

theorem length_diskRecord {i : Nat} (inside : i < n) :
    (diskRecord data nbrs i).length = dim * 4 + 4 + (nbrs i).length * 4 := by
  rw [diskRecord, List.length_append, List.length_append, shapes.vectors i inside, length_le32,
    length_storeWords]
  omega

/-- **One node of a chunk** is written where its slot is. -/
theorem putRecord_spec {w : NodeWriter} (width : w.h.dim = dim) {first i : Nat} (inside : i < n)
    {buf : Bytes} (room : w.recordOffset i - first + (dim * 4 + 4 + R * 4) ≤ buf.length) :
    w.putRecord data nbrs first buf i =
      .ok (Regions.write buf (w.recordOffset i - first) (diskRecord data nbrs i)) := by
  have length := length_diskRecord shapes inside
  have vector := shapes.vectors i inside
  have short := shapes.short i inside
  have words := length_storeWords (fun j => (nbrs i).getD j 0) (nbrs i).length
  unfold NodeWriter.putRecord
  rw [width]
  generalize w.recordOffset i - first = place at *
  have fits : place + (data i).length ≤ buf.length := by omega
  have begins : copyTo buf place (data i) = .ok (Regions.write buf place (data i)) := if_pos fits
  have kept := Regions.length_write fits
  have second : copyTo (Regions.write buf place (data i)) (place + dim * 4) (le32 (nbrs i).length) =
      .ok (Regions.write buf place (data i ++ le32 (nbrs i).length)) := by
    rw [copyTo, if_pos (by rw [kept, length_le32]; omega), ← vector]
    rw [Regions.write_write (by rw [List.length_append, length_le32]; omega)]
  have fits' : place + (data i ++ le32 (nbrs i).length).length ≤ buf.length := by
    rw [List.length_append, length_le32]
    omega
  have kept' := Regions.length_write fits'
  have third : copyTo (Regions.write buf place (data i ++ le32 (nbrs i).length)) (place + dim * 4 + 4)
      (storeWords (fun j => (nbrs i).getD j 0) (nbrs i).length) =
      .ok (Regions.write buf place (diskRecord data nbrs i)) := by
    have behind : place + dim * 4 + 4 = place + (data i ++ le32 (nbrs i).length).length := by
      rw [List.length_append, length_le32, vector, Nat.add_assoc]
    rw [copyTo, if_pos (by rw [kept', words]; omega), behind, Regions.write_write]
    · rw [diskRecord, List.append_assoc]
    · rw [List.append_assoc]
      change place + (diskRecord data nbrs i).length ≤ buf.length
      omega
  dsimp only
  rw [begins]
  change (copyTo (Regions.write buf place (data i)) _ _ >>= _) = _
  rw [second]
  exact third

end Records

/-! ## Writing -/

/-- The file holds the header and the records below `s`, and ends with their group. -/
structure Held (h : DiskHeader) (data : Nat → Bytes) (nbrs : Nat → List Nat) (s : Nat)
    (w : NodeWriter) : Prop where
  header : w.h = h
  length : w.file.length =
    kBlock + (s + h.nodesPerBlock - 1) / h.nodesPerBlock * (h.blocksPerNode * kBlock)
  block : Regions.slice w.file 0 kBlock = h.block
  records : ∀ i < s, Regions.slice w.file (w.recordOffset i) (diskRecord data nbrs i).length =
    diskRecord data nbrs i
  passed : ∀ f ∈ w.passed, f <+: w.file

theorem length_block (h : DiskHeader) : h.block.length = kBlock := by
  rw [DiskHeader.block, List.length_append, length_storeWords, List.length_replicate]
  rfl

/-- Writing at the end of a file. -/
theorem pwriteFull_end (file buf : Bytes) : pwriteFull file buf file.length = file ++ buf := by
  rw [pwriteFull, Nat.add_sub_cancel_left]
  exact Regions.write_end file buf _ (by rw [List.length_replicate])

theorem held_create (n dim R medoid : Nat) (data : Nat → Bytes) (nbrs : Nat → List Nat) :
    Held (DiskHeader.of n dim R medoid) data nbrs 0 (NodeWriter.create n dim R medoid) := by
  have file : (NodeWriter.create n dim R medoid).file = (DiskHeader.of n dim R medoid).block := by
    have appended := pwriteFull_end [] (DiskHeader.of n dim R medoid).block
    rw [List.nil_append, List.length_nil] at appended
    exact appended
  have none (npb : Nat) : (0 + npb - 1) / npb = 0 := by
    rcases Nat.eq_zero_or_pos npb with rfl | some
    · rfl
    · exact Nat.div_eq_of_lt (by omega)
  have whole := Regions.slice_self (DiskHeader.of n dim R medoid).block
  rw [length_block] at whole
  refine ⟨rfl, ?_, ?_, fun i below => absurd below (Nat.not_lt_zero i), ?_⟩
  · rw [file, none, Nat.zero_mul, Nat.add_zero, length_block]
  · rw [file, whole]
  · intro f mem
    rw [List.mem_singleton.mp mem]
    exact List.prefix_rfl

section Write

variable {n dim R medoid : Nat} {data : Nat → Bytes} {nbrs : Nat → List Nat}
  (count : n < 2 ^ 32) (sized : dim * 4 + 4 + R * 4 + 4095 < 2 ^ 32)
  (shapes : Shapes n dim R data nbrs)

include count sized shapes

/-- **A chunk in memory.** -/
theorem fill_spec {w : NodeWriter} (header : w.h = DiskHeader.of n dim R medoid) {first s k : Nat}
    (within : s + k ≤ n) (start : first ≤ w.recordOffset s) {buf : Bytes}
    (room : ∀ i < s + k, w.recordOffset i + (dim * 4 + 4 + R * 4) ≤ first + buf.length) :
    ∃ buf', (List.range' s k).foldlM (w.putRecord data nbrs first) buf = .ok buf' ∧
      buf'.length = buf.length ∧
      ∀ i, s ≤ i → i < s + k →
        Regions.slice buf' (w.recordOffset i - first) (diskRecord data nbrs i).length =
          diskRecord data nbrs i := by
  obtain ⟨bytes, layout⟩ := diskLayout_ok sized
  have offset (i : Nat) : w.recordOffset i =
      diskRecordOffset i (diskLayout dim R).1 (diskLayout dim R).2.1 (diskLayout dim R).2.2 := by
    rw [NodeWriter.recordOffset, header]
    rfl
  have apart {i j : Nat} (less : i < j) (small : j < 2 ^ 32) :
      w.recordOffset i + (dim * 4 + 4 + R * 4) ≤ w.recordOffset j := by
    rw [offset, offset, ← bytes, layout.recordOffset_eq small,
      layout.recordOffset_eq (less.trans small), Nat.add_assoc]
    exact Nat.add_le_add_left (Regions.slot_apart layout.nodes layout.room less) _
  have behind {i : Nat} (atLeast : s ≤ i) (small : i < 2 ^ 32) : first ≤ w.recordOffset i := by
    rcases Nat.eq_or_lt_of_le atLeast with rfl | less
    · exact start
    · exact start.trans ((Nat.le_add_right ..).trans (apart less small))
  induction k with
  | zero => exact ⟨buf, rfl, rfl, fun i low high => absurd high (Nat.not_lt.mpr low)⟩
  | succ k ih =>
      obtain ⟨buf₁, run, same, held⟩ := ih (by omega) (fun i below => room i (by omega))
      have last := room (s + k) (by omega)
      have low := behind (Nat.le_add_right s k) (by omega)
      have length := length_diskRecord shapes (show s + k < n by omega)
      have short := shapes.short (s + k) (by omega)
      have fits : w.recordOffset (s + k) - first + (diskRecord data nbrs (s + k)).length ≤ buf₁.length := by
        omega
      have put : w.putRecord data nbrs first buf₁ (s + k) = .ok (Regions.write buf₁
          (w.recordOffset (s + k) - first) (diskRecord data nbrs (s + k))) :=
        putRecord_spec shapes (by rw [header]; rfl) (by omega) (by omega)
      refine ⟨_, ?_, (Regions.length_write fits).trans same, ?_⟩
      · rw [List.range'_1_concat, List.foldlM_append, run]
        change List.foldlM (w.putRecord data nbrs first) buf₁ [s + k] = _
        rw [List.foldlM_cons, put]
        rfl
      · intro i atLeast below
        rcases Nat.lt_succ_iff_lt_or_eq.mp (show i < (s + k) + 1 by omega) with before | rfl
        · have earlier := apart before (by omega)
          have inside := length_diskRecord shapes (show i < n by omega)
          have short' := shapes.short i (by omega)
          have low' := behind atLeast (by omega)
          rw [Regions.slice_write_apart fits (Or.inl (by omega))]
          exact held i atLeast before
        · exact Regions.slice_write fits

/-- **Writing a chunk** appends its records to the file. -/
theorem write_spec {w : NodeWriter} {s e : Nat}
    (held : Held (DiskHeader.of n dim R medoid) data nbrs s w) (less : s < e) (within : e ≤ n)
    (whole : (diskLayout dim R).2.1 ∣ s) :
    ∃ w', w.write data nbrs s e = .ok w' ∧
      Held (DiskHeader.of n dim R medoid) data nbrs e w' := by
  obtain ⟨bytes, layout⟩ := diskLayout_ok sized
  obtain ⟨header, length, block, records, passed⟩ := held
  have offset (i : Nat) : w.recordOffset i =
      diskRecordOffset i (diskLayout dim R).1 (diskLayout dim R).2.1 (diskLayout dim R).2.2 := by
    rw [NodeWriter.recordOffset, header]
    rfl
  obtain ⟨m, rfl⟩ : ∃ m, e = m + 1 := ⟨e - 1, by omega⟩
  have last : sub32 (m + 1) 1 = m := by
    change (m + 1 + (2 ^ 32 - 1 % 2 ^ 32)) % 2 ^ 32 = m
    omega
  have first : w.recordOffset s = w.file.length := by
    rw [offset, layout.recordOffset_whole (by omega) whole, length]
    rfl
  have stop : u64 (w.recordOffset m + w.h.recordBytes + kBlock - 1) / kBlock * kBlock =
      kBlock + (m + 1 + (diskLayout dim R).2.1 - 1) / (diskLayout dim R).2.1 *
        ((diskLayout dim R).2.2 * kBlock) := by
    rw [offset, header, layout.groups_succ]
    exact layout.stop_eq (by omega)
  have inside {i : Nat} (below : i < m + 1) : w.recordOffset i + (dim * 4 + 4 + R * 4) ≤
      kBlock + (m + 1 + (diskLayout dim R).2.1 - 1) / (diskLayout dim R).2.1 *
        ((diskLayout dim R).2.2 * kBlock) := by
    rw [offset, layout.recordOffset_eq (by omega), ← bytes, layout.groups_succ, Nat.add_assoc]
    refine Nat.add_le_add_left ((Regions.slot_inside layout.nodes layout.room i).2.trans ?_) _
    exact Nat.mul_le_mul_right _ (Nat.succ_le_succ (Nat.div_le_div_right (Nat.le_of_lt_succ below)))
  generalize ends : kBlock + (m + 1 + (diskLayout dim R).2.1 - 1) / (diskLayout dim R).2.1 *
    ((diskLayout dim R).2.2 * kBlock) = finish at stop inside
  have forward : w.file.length + (finish - w.file.length) = finish := by
    have := inside less
    omega
  obtain ⟨buf, filled, size, stored⟩ := @fill_spec n dim R medoid data nbrs count sized shapes w header
    w.file.length s (m + 1 - s) (by omega) (Nat.le_of_eq first.symm)
    (List.replicate (finish - w.file.length) 0) (by
      intro i below
      rw [List.length_replicate, forward]
      exact inside (by omega))
  rw [List.length_replicate] at size
  have file : (w.put buf w.file.length).file = w.file ++ buf := pwriteFull_end _ _
  refine ⟨w.put buf w.file.length, ?_, header, ?_, ?_, ?_, ?_⟩
  · rw [NodeWriter.write, last, stop, first, if_neg (by omega), filled]
    rfl
  · rw [file, List.length_append, size, forward]
    exact ends.symm
  · rw [file, Regions.slice_append_left (by omega)]
    exact block
  · intro i below
    change Regions.slice _ (w.recordOffset i) _ = _
    have short := length_diskRecord shapes (show i < n by omega)
    have few := shapes.short i (by omega)
    rw [file]
    rcases Nat.lt_or_ge i s with old | new
    · have before : w.recordOffset i + (dim * 4 + 4 + R * 4) ≤ w.file.length := by
        have slots := Regions.slot_apart layout.nodes layout.room old
        rw [← first, offset, offset, layout.recordOffset_eq (by omega),
          layout.recordOffset_eq (by omega), ← bytes, Nat.add_assoc]
        exact Nat.add_le_add_left slots _
      rw [Regions.slice_append_left (by omega)]
      exact records i old
    · have later : w.file.length ≤ w.recordOffset i := by
        rw [← first, offset, offset, layout.recordOffset_eq (by omega), layout.recordOffset_eq (by omega)]
        refine Nat.add_le_add_left ?_ _
        rcases Nat.eq_or_lt_of_le new with rfl | after
        · exact Nat.le_refl _
        · exact (Nat.le_add_right ..).trans (Regions.slot_apart layout.nodes layout.room after)
      obtain ⟨d, place⟩ := Nat.exists_eq_add_of_le later
      have there := stored i new (by omega)
      rw [place, Nat.add_sub_cancel_left] at there
      rw [place, Regions.slice_append_right]
      exact there
  · intro f mem
    rw [file]
    rcases List.mem_append.mp mem with old | new
    · exact (passed f old).trans (List.prefix_append _ _)
    · rw [List.mem_singleton.mp new]
      rw [pwriteFull_end]

/-- **All chunks** of a file whose last one does not wrap around. -/
theorem writeChunks_spec (roomy : n + (diskLayout dim R).2.1 * 8192 < 2 ^ 32) {fuel s : Nat}
    (enough : n - s < fuel) (more : s < n) {w : NodeWriter}
    (held : Held (DiskHeader.of n dim R medoid) data nbrs s w)
    (whole : (diskLayout dim R).2.1 ∣ s) :
    ∃ w', NodeWriter.writeChunks data nbrs fuel s w = .ok w' ∧
      Held (DiskHeader.of n dim R medoid) data nbrs n w' := by
  induction fuel generalizing s w with
  | zero => exact absurd enough (Nat.not_lt_zero _)
  | succ fuel ih =>
      have nodes := (diskLayout_ok sized).2.nodes
      have chunk : w.chunkNodes = (diskLayout dim R).2.1 * 8192 := by
        rw [NodeWriter.chunkNodes, held.header]
        exact Nat.mod_eq_of_lt (by change (diskLayout dim R).2.1 * 8192 < _; omega)
      have next : u32 (s + w.chunkNodes) = s + (diskLayout dim R).2.1 * 8192 := by
        rw [chunk]
        exact Nat.mod_eq_of_lt (by omega)
      have size : w.h.n = n := by rw [held.header]; rfl
      obtain ⟨w₁, written, held₁⟩ := write_spec count sized shapes held
        (show s < min n (s + (diskLayout dim R).2.1 * 8192) by omega) (Nat.min_le_left _ _) whole
      rw [NodeWriter.writeChunks, size, if_pos more, next, written]
      change ∃ w', NodeWriter.writeChunks data nbrs fuel (s + (diskLayout dim R).2.1 * 8192) w₁ = .ok w' ∧ _
      rcases Nat.lt_or_ge (s + (diskLayout dim R).2.1 * 8192) n with again | last
      · rw [Nat.min_eq_right (Nat.le_of_lt again)] at held₁
        exact ih (by omega) again held₁ (Nat.dvd_add whole (Nat.dvd_mul_right _ _))
      · rw [Nat.min_eq_left last] at held₁
        obtain ⟨rest, rfl⟩ : ∃ rest, fuel = rest + 1 := ⟨fuel - 1, by omega⟩
        have size₁ : w₁.h.n = n := by rw [held₁.header]; rfl
        refine ⟨w₁, ?_, held₁⟩
        rw [NodeWriter.writeChunks, size₁, if_neg (by omega)]
        rfl

end Write

/-! ## Reading -/

/-- The index that a header describes. -/
def DiskHeader.index (h : DiskHeader) (file : Bytes) (pqM : Nat) (codes : Bytes) : DiskIndex :=
  ⟨h.n, h.dim, h.R, h.medoid, h.recordBytes, h.nodesPerBlock, h.blocksPerNode, file, pqM, codes⟩

theorem wordAt_append {xs ys : Bytes} {i : Nat} (inside : 4 * i + 4 ≤ xs.length) :
    wordAt (xs ++ ys) i = wordAt xs i := by
  unfold wordAt
  dsimp only
  rw [List.getD_append _ _ _ _ (by omega), List.getD_append _ _ _ _ (by omega),
    List.getD_append _ _ _ _ (by omega), List.getD_append _ _ _ _ (by omega)]

theorem wordAt_block (h : DiskHeader) {i : Nat} (inside : i < 10) (fits : h.words.getD i 0 < 2 ^ 32) :
    wordAt h.block i = h.words.getD i 0 := by
  rw [DiskHeader.block, wordAt_append (by rw [length_storeWords]; omega)]
  exact wordAt_storeWords inside fits

/-- **Opening** takes the layout from block 0. -/
theorem open_spec {n dim R medoid : Nat} (count : n < 2 ^ 32) (record_fits : dim * 4 + 4 + R * 4 < 2 ^ 32)
    (medoid_fits : medoid < 2 ^ 32) {file : Bytes} (long : kBlock ≤ file.length)
    (block : Regions.slice file 0 kBlock = (DiskHeader.of n dim R medoid).block) (path : String)
    (pqM : Nat) (codes : Bytes) : DiskIndex.open_ path file pqM codes =
      .ok ((DiskHeader.of n dim R medoid).index file pqM codes) := by
  have rb : (diskLayout dim R).1 < 2 ^ 32 := by
    unfold diskLayout
    dsimp only
    split_ifs
    · exact Nat.mod_lt _ (by norm_num)
    · exact Nat.mod_lt _ (by norm_num)
  have npb : (diskLayout dim R).2.1 < 2 ^ 32 := by
    unfold diskLayout
    dsimp only
    split_ifs
    · exact (Nat.div_le_self _ _).trans_lt (by norm_num)
    · norm_num
  have bpn : (diskLayout dim R).2.2 < 2 ^ 32 := by
    unfold diskLayout
    dsimp only
    split_ifs
    · norm_num
    · exact (Nat.div_le_self _ _).trans_lt (Nat.mod_lt _ (by norm_num))
  have word {i x : Nat} (inside : i < 10) (is : (DiskHeader.of n dim R medoid).words.getD i 0 = x)
      (fits : x < 2 ^ 32) : wordAt (DiskHeader.of n dim R medoid).block i = x := by
    rw [wordAt_block _ inside (is ▸ fits)]
    exact is
  have read : preadFull file kBlock 0 = .ok (DiskHeader.of n dim R medoid).block := by
    rw [preadFull, if_neg (by norm_num), if_pos (by omega), block]
  have low : wordAt (DiskHeader.of n dim R medoid).block 0 = kDiskMagic % 2 ^ 32 :=
    word (by norm_num) List.getD_cons_zero (Nat.mod_lt _ (by norm_num))
  have high : wordAt (DiskHeader.of n dim R medoid).block 1 = kDiskMagic / 2 ^ 32 :=
    word (by norm_num) (List.getD_cons_succ.trans List.getD_cons_zero) (by norm_num [kDiskMagic])
  have nodes : wordAt (DiskHeader.of n dim R medoid).block 3 = n := word (by norm_num) rfl count
  have width : wordAt (DiskHeader.of n dim R medoid).block 4 = dim := word (by norm_num) rfl (by omega)
  have degree : wordAt (DiskHeader.of n dim R medoid).block 5 = R := word (by norm_num) rfl (by omega)
  have entry : wordAt (DiskHeader.of n dim R medoid).block 6 = medoid :=
    word (by norm_num) rfl medoid_fits
  have bytes : wordAt (DiskHeader.of n dim R medoid).block 7 = (diskLayout dim R).1 :=
    word (by norm_num) rfl rb
  have per_block : wordAt (DiskHeader.of n dim R medoid).block 8 = (diskLayout dim R).2.1 :=
    word (by norm_num) rfl npb
  have blocks : wordAt (DiskHeader.of n dim R medoid).block 9 = (diskLayout dim R).2.2 :=
    word (by norm_num) rfl bpn
  have magic : kDiskMagic % 2 ^ 32 + kDiskMagic / 2 ^ 32 * 2 ^ 32 = kDiskMagic :=
    Nat.mod_add_div' kDiskMagic (2 ^ 32)
  rw [DiskIndex.open_, read]
  generalize (DiskHeader.of n dim R medoid).block = first at *
  change (if wordAt first 0 + wordAt first 1 * 2 ^ 32 ≠ kDiskMagic then _ else _) = _
  rw [low, high, if_neg (not_not.mpr magic), nodes, width, degree, entry, bytes, per_block, blocks]
  rfl

/-- The steps of `read_node`. -/
theorem readNode_of {ix : DiskIndex} {id : Nat} {window vec deg nb : Bytes}
    (read : preadFull ix.file ix.readLen (ix.readOffset id) = .ok window)
    (vector : copyFrom window (ix.recordOffset id - ix.readOffset id) (ix.dim * 4) = .ok vec)
    (degree : copyFrom window (ix.recordOffset id - ix.readOffset id + ix.dim * 4) 4 = .ok deg)
    (list : copyFrom window (ix.recordOffset id - ix.readOffset id + ix.dim * 4 + 4)
      (wordAt deg 0 * 4) = .ok nb) :
    ix.readNode id = .ok (vec, (List.range (wordAt deg 0)).map (wordAt nb)) := by
  rw [DiskIndex.readNode, read, ok_bind]
  dsimp only
  rw [vector, ok_bind, degree, ok_bind, list, ok_bind]
  rfl

section Read

variable {n dim R medoid : Nat} {data : Nat → Bytes} {nbrs : Nat → List Nat}
  (count : n < 2 ^ 32) (sized : dim * 4 + 4 + R * 4 + 4095 < 2 ^ 32)
  {w : NodeWriter} (held : Held (DiskHeader.of n dim R medoid) data nbrs n w)
  {pqM : Nat} {codes : Bytes}

include count sized held

/-- **The group that is read** holds the record and lies inside the file. -/
theorem window_spec {id : Nat} (inside : id < n) :
    let ix := (DiskHeader.of n dim R medoid).index w.file pqM codes
    ix.readOffset id ≤ ix.recordOffset id ∧
      ix.recordOffset id + ix.recordBytes ≤ ix.readOffset id + ix.readLen ∧
      ix.readOffset id + ix.readLen ≤ w.file.length ∧ 0 < ix.readLen := by
  intro ix
  obtain ⟨bytes, layout⟩ := diskLayout_ok sized
  have small : id < 2 ^ 32 := inside.trans count
  have group := Regions.slot_inside layout.nodes layout.room id
  have record : ix.recordOffset id =
      kBlock + Regions.slot ((diskLayout dim R).2.2 * kBlock) (diskLayout dim R).1
        (diskLayout dim R).2.1 id := layout.recordOffset_eq small
  have read : ix.readOffset id = kBlock + id / (diskLayout dim R).2.1 *
      ((diskLayout dim R).2.2 * kBlock) := layout.readOffset_eq small
  have len : ix.readLen = (diskLayout dim R).2.2 * kBlock := layout.readLen_eq
  have length : w.file.length = kBlock + (n + (diskLayout dim R).2.1 - 1) / (diskLayout dim R).2.1 *
      ((diskLayout dim R).2.2 * kBlock) := held.length
  have groups : id / (diskLayout dim R).2.1 + 1 ≤
      (n + (diskLayout dim R).2.1 - 1) / (diskLayout dim R).2.1 := by
    rw [← layout.groups_succ id]
    exact Nat.div_le_div_right (by omega)
  have last := Nat.mul_le_mul_right ((diskLayout dim R).2.2 * kBlock) groups
  have positive := layout.record
  have recordBytes_eq : ix.recordBytes = (diskLayout dim R).1 := rfl
  rw [Nat.succ_mul] at last group
  rw [record, read, len, length, recordBytes_eq]
  exact ⟨by omega, by omega, by omega, by omega⟩

variable (shapes : Shapes n dim R data nbrs)

include shapes

/-- **Reading a node back.** -/
theorem readNode_spec {id : Nat} (inside : id < n) :
    ((DiskHeader.of n dim R medoid).index w.file pqM codes).readNode id = .ok (data id, nbrs id) := by
  obtain ⟨bytes, layout⟩ := diskLayout_ok sized
  obtain ⟨low, high, present, some⟩ := @window_spec n dim R medoid data nbrs count sized w held pqM codes
    id inside
  have record : Regions.slice w.file
      (((DiskHeader.of n dim R medoid).index w.file pqM codes).recordOffset id)
      (diskRecord data nbrs id).length = diskRecord data nbrs id := by
    have onDisk := held.records id inside
    rw [NodeWriter.recordOffset, held.header] at onDisk
    exact onDisk
  have length := length_diskRecord shapes inside
  have short := shapes.short id inside
  have vector := shapes.vectors id inside
  have recordBytes_eq : ((DiskHeader.of n dim R medoid).index w.file pqM codes).recordBytes =
      dim * 4 + 4 + R * 4 := bytes
  have width : ((DiskHeader.of n dim R medoid).index w.file pqM codes).dim = dim := rfl
  have file : ((DiskHeader.of n dim R medoid).index w.file pqM codes).file = w.file := rfl
  have run := @readNode_of ((DiskHeader.of n dim R medoid).index w.file pqM codes) id
  rw [width, file] at run
  generalize ((DiskHeader.of n dim R medoid).index w.file pqM codes).readOffset id = off at *
  generalize ((DiskHeader.of n dim R medoid).index w.file pqM codes).readLen = len at *
  generalize ((DiskHeader.of n dim R medoid).index w.file pqM codes).recordOffset id = place at *
  generalize ((DiskHeader.of n dim R medoid).index w.file pqM codes).recordBytes = rb at *
  obtain ⟨d, rfl⟩ := Nat.exists_eq_add_of_le low
  rw [Nat.add_sub_cancel_left] at run
  have window : preadFull w.file len off = .ok (Regions.slice w.file off len) := by
    rw [preadFull, if_neg (by omega), if_pos present]
  -- a part of the record is that part of the window
  have part {q k : Nat} (within : q + k ≤ (diskRecord data nbrs id).length) :
      copyFrom (Regions.slice w.file off len) (d + q) k =
        .ok (Regions.slice (diskRecord data nbrs id) q k) := by
    rw [copyFrom, if_pos (by rw [Regions.length_slice present]; omega),
      Regions.slice_slice (by omega), ← Nat.add_assoc, ← Regions.slice_slice within, record]
  have degree : wordAt (le32 (nbrs id).length) 0 = (nbrs id).length := wordAt_le32 (by omega)
  have first : Regions.slice (diskRecord data nbrs id) 0 (dim * 4) = data id := by
    rw [diskRecord, Regions.slice_append_left (by omega), ← vector]
    exact Regions.slice_self _
  have second : Regions.slice (diskRecord data nbrs id) (dim * 4) 4 = le32 (nbrs id).length := by
    rw [diskRecord, ← vector]
    have behind := Regions.slice_append_right (data id) (le32 (nbrs id).length ++
      storeWords (fun j => (nbrs id).getD j 0) (nbrs id).length) 0 4
    rw [Nat.add_zero] at behind
    rw [behind, Regions.slice_append_left (by rw [length_le32])]
    exact Regions.slice_self _
  have third : Regions.slice (diskRecord data nbrs id) (dim * 4 + 4) ((nbrs id).length * 4) =
      storeWords (fun j => (nbrs id).getD j 0) (nbrs id).length := by
    have behind := Regions.slice_append_right (le32 (nbrs id).length)
      (storeWords (fun j => (nbrs id).getD j 0) (nbrs id).length) 0 ((nbrs id).length * 4)
    rw [length_le32, Nat.add_zero] at behind
    rw [diskRecord, ← vector, Regions.slice_append_right, behind, Nat.mul_comm,
      ← length_storeWords (fun j => (nbrs id).getD j 0) (nbrs id).length]
    exact Regions.slice_self _
  have words : (List.range (nbrs id).length).map
      (wordAt (storeWords (fun j => (nbrs id).getD j 0) (nbrs id).length)) = nbrs id := by
    refine List.ext_getElem (by rw [List.length_map, List.length_range]) ?_
    intro j below below'
    rw [List.getElem_map, List.getElem_range]
    have entry : (nbrs id).getD j 0 = (nbrs id)[j] := List.getD_eq_getElem _ _ below'
    rw [wordAt_storeWords below' (by rw [entry]; exact shapes.ids id inside _ (List.getElem_mem below')),
      entry]
  have vec := part (q := 0) (k := dim * 4) (by omega)
  have deg := part (q := dim * 4) (k := 4) (by omega)
  have nb := part (q := dim * 4 + 4) (k := (nbrs id).length * 4) (by omega)
  rw [first, Nat.add_zero] at vec
  rw [second] at deg
  rw [third, ← Nat.add_assoc] at nb
  have read := run window vec deg (by rw [degree]; exact nb)
  rw [degree, words] at read
  exact read

end Read

/-! ## The round trip -/

/-- What is asked of a finished file. -/
structure Stored (n dim R medoid : Nat) (data : Nat → Bytes) (nbrs : Nat → List Nat) (ix : DiskIndex)
    (w : NodeWriter) : Prop where
  opens : ∀ path, DiskIndex.open_ path w.file ix.pqM ix.codes = .ok ix
  reads : ∀ id < n, ix.readNode id = .ok (data id, nbrs id)
  /-- The header block is as it was written, and no record is in it. -/
  header : Regions.slice w.file 0 kBlock = (DiskHeader.of n dim R medoid).block ∧
    ∀ id < n, kBlock ≤ ix.recordOffset id
  bytes : ix.recordBytes = dim * 4 + 4 + R * 4
  apart : ∀ i j, i < j → j < n → ix.recordOffset i + ix.recordBytes ≤ ix.recordOffset j
  /-- Small records do not straddle a block. -/
  straddle : ix.recordBytes ≤ kBlock → ∀ id < n,
    ix.recordOffset id / kBlock = (ix.recordOffset id + ix.recordBytes - 1) / kBlock
  window : ∀ id < n, ix.readOffset id ≤ ix.recordOffset id ∧
    ix.recordOffset id + ix.recordBytes ≤ ix.readOffset id + ix.readLen ∧
    ix.readOffset id + ix.readLen ≤ w.file.length
  /-- No write changes what the file held before it. -/
  kept : ∀ f ∈ w.passed, f <+: w.file

section Stored

variable {n dim R medoid : Nat} {data : Nat → Bytes} {nbrs : Nat → List Nat}

/-- A file of all records is what is asked. -/
theorem stored_of_held (count : n < 2 ^ 32) (sized : dim * 4 + 4 + R * 4 + 4095 < 2 ^ 32)
    (medoid_fits : medoid < 2 ^ 32) (shapes : Shapes n dim R data nbrs) {w : NodeWriter}
    (held : Held (DiskHeader.of n dim R medoid) data nbrs n w) (pqM : Nat) (codes : Bytes) :
    Stored n dim R medoid data nbrs ((DiskHeader.of n dim R medoid).index w.file pqM codes) w := by
  obtain ⟨bytes, layout⟩ := diskLayout_ok sized
  have offset {id : Nat} (inside : id < n) :
      ((DiskHeader.of n dim R medoid).index w.file pqM codes).recordOffset id =
        kBlock + Regions.slot ((diskLayout dim R).2.2 * kBlock) (diskLayout dim R).1
          (diskLayout dim R).2.1 id := layout.recordOffset_eq (inside.trans count)
  have window {id : Nat} (inside : id < n) :=
    @window_spec n dim R medoid data nbrs count sized w held pqM codes id inside
  refine ⟨?_, ?_, ⟨held.block, ?_⟩, bytes, ?_, ?_, ?_, held.passed⟩
  · intro path
    refine open_spec count (by omega) medoid_fits ?_ held.block path pqM codes
    rw [held.length]
    exact Nat.le_add_right _ _
  · intro id inside
    exact readNode_spec count sized held shapes inside
  · intro id inside
    rw [offset inside]
    exact Nat.le_add_right _ _
  · intro i j less inside
    rw [offset inside, offset (less.trans inside), Nat.add_assoc]
    exact Nat.add_le_add_left (Regions.slot_apart layout.nodes layout.room less) _
  · intro small id inside
    obtain ⟨low, high, -, -⟩ := window inside
    have len : ((DiskHeader.of n dim R medoid).index w.file pqM codes).readLen =
        (diskLayout dim R).2.2 * kBlock := layout.readLen_eq
    have tight : (diskLayout dim R).2.2 * 4096 < (diskLayout dim R).1 + 4096 := layout.tight
    have record : 0 < (diskLayout dim R).1 := layout.record
    have small' : (diskLayout dim R).1 ≤ 4096 := small
    have one : (diskLayout dim R).2.2 * 4096 ≤ 4096 := by omega
    have recordBytes_eq : ((DiskHeader.of n dim R medoid).index w.file pqM codes).recordBytes =
        (diskLayout dim R).1 := rfl
    rw [DiskIndex.readOffset, len, recordBytes_eq] at high
    rw [recordBytes_eq]
    generalize ((DiskHeader.of n dim R medoid).index w.file pqM codes).recordOffset id = place at *
    rw [kBlock_eq] at *
    symm
    rw [Nat.div_eq_iff (by norm_num)]
    omega
  · intro id inside
    obtain ⟨low, high, present, -⟩ := window inside
    exact ⟨low, high, present⟩

/-- A file without records. -/
theorem stored_empty (record_fits : dim * 4 + 4 + R * 4 < 2 ^ 32) (medoid_fits : medoid < 2 ^ 32)
    {w : NodeWriter} (held : Held (DiskHeader.of 0 dim R medoid) data nbrs 0 w) (pqM : Nat)
    (codes : Bytes) :
    Stored 0 dim R medoid data nbrs ((DiskHeader.of 0 dim R medoid).index w.file pqM codes) w := by
  have none {P : Nat → Prop} : ∀ id < 0, P id := fun id below => absurd below (Nat.not_lt_zero id)
  refine ⟨?_, none, ⟨held.block, none⟩, ?_, fun i j _ below => absurd below (Nat.not_lt_zero j),
    fun _ => none, none, held.passed⟩
  · intro path
    refine open_spec (by norm_num) record_fits medoid_fits ?_ held.block path pqM codes
    rw [held.length]
    exact Nat.le_add_right _ _
  · change (diskLayout dim R).1 = _
    unfold diskLayout
    dsimp only
    split_ifs
    · exact Nat.mod_eq_of_lt record_fits
    · exact Nat.mod_eq_of_lt record_fits

/-- A record that is given no blocks is not inside what is read. -/
theorem Stored.sized (some : 0 < n) (record_fits : dim * 4 + 4 + R * 4 < 2 ^ 32) {w : NodeWriter}
    {pqM : Nat} {codes : Bytes}
    (stored : Stored n dim R medoid data nbrs ((DiskHeader.of n dim R medoid).index w.file pqM codes) w) :
    dim * 4 + 4 + R * 4 + 4095 < 2 ^ 32 := by
  by_contra large
  have small : u32 (dim * 4 + 4 + R * 4) = dim * 4 + 4 + R * 4 := Nat.mod_eq_of_lt record_fits
  have layout : diskLayout dim R = (dim * 4 + 4 + R * 4, 1, 0) := by
    have up : u32 (dim * 4 + 4 + R * 4 + kBlock - 1) / kBlock = 0 := by
      change (dim * 4 + 4 + R * 4 + 4095) % 2 ^ 32 / 4096 = 0
      omega
    rw [diskLayout, small, if_neg (by rw [kBlock_eq]; omega), up]
  obtain ⟨-, high, -⟩ := stored.window 0 some
  rw [stored.bytes] at high
  have len : ((DiskHeader.of n dim R medoid).index w.file pqM codes).readLen = 0 := by
    change u32 ((diskLayout dim R).2.2 * kBlock) = 0
    rw [layout, Nat.zero_mul]
    rfl
  have off : ((DiskHeader.of n dim R medoid).index w.file pqM codes).recordOffset 0 = kBlock := by
    change diskRecordOffset 0 (diskLayout dim R).1 (diskLayout dim R).2.1 (diskLayout dim R).2.2 = _
    rw [layout, diskRecordOffset, if_neg (Nat.lt_irrefl 1), Nat.zero_mul, Nat.zero_mul, Nat.add_zero]
    norm_num [u64]
  rw [DiskIndex.readOffset, len, off, Nat.div_self (by decide), Nat.one_mul] at high
  omega

end Stored

/-- **The round trip of the disk index**, for exactly the records whose blocks are counted in 32
bits: the index opens with its layout, every node is read back, records are apart, and no write
changes what the file held. -/
theorem readNode_written {n dim R medoid : Nat} (record_fits : dim * 4 + 4 + R * 4 < 2 ^ 32)
    (count : n + (NodeWriter.create n dim R medoid).chunkNodes < 2 ^ 32)
    (medoid_fits : medoid < 2 ^ 32) {data : Nat → Bytes} {nbrs : Nat → List Nat}
    (shapes : Shapes n dim R data nbrs) (pqM : Nat) (codes : Bytes) :
    (∃ w, NodeWriter.writeChunks data nbrs (n + 1) 0 (NodeWriter.create n dim R medoid) = .ok w ∧
      Stored n dim R medoid data nbrs ((DiskHeader.of n dim R medoid).index w.file pqM codes) w) ↔
    n = 0 ∨ dim * 4 + 4 + R * 4 + 4095 < 2 ^ 32 := by
  have small : n < 2 ^ 32 := by omega
  constructor
  · rintro ⟨w, -, stored⟩
    rcases Nat.eq_zero_or_pos n with none | some
    · exact Or.inl none
    · exact Or.inr (stored.sized some record_fits)
  · intro holds
    have start := held_create n dim R medoid data nbrs
    rcases Nat.eq_zero_or_pos n with rfl | some
    · exact ⟨NodeWriter.create 0 dim R medoid, rfl,
        stored_empty record_fits medoid_fits start pqM codes⟩
    · have sized := holds.resolve_left (by omega)
      have chunk : (NodeWriter.create n dim R medoid).chunkNodes = (diskLayout dim R).2.1 * 8192 := by
        have many := (diskLayout_ok sized).2.many
        exact Nat.mod_eq_of_lt (by change (diskLayout dim R).2.1 * 8192 < _; omega)
      rw [chunk] at count
      obtain ⟨w, written, held⟩ := writeChunks_spec small sized shapes count (Nat.lt_succ_self _)
        some start (Nat.dvd_zero _)
      exact ⟨w, written, stored_of_held small sized medoid_fits shapes held pqM codes⟩

/-- Three records of twelve bytes. -/
theorem readNode_written_three :
    (∃ w, NodeWriter.writeChunks (fun _ => [1, 2, 3, 4]) (fun i => [(i + 1) % 3]) 4 0
        (NodeWriter.create 3 1 1 0) = .ok w ∧
      Stored 3 1 1 0 (fun _ => [1, 2, 3, 4]) (fun i => [(i + 1) % 3])
        ((DiskHeader.of 3 1 1 0).index w.file 1 []) w) ↔ 3 = 0 ∨ 1 * 4 + 4 + 1 * 4 + 4095 < 2 ^ 32 :=
  readNode_written (by norm_num) (by decide) (by norm_num)
    ⟨fun _ _ => rfl, fun _ _ => Nat.le_refl 1, by
      intro i _ v mem
      rw [List.mem_singleton.mp mem]
      exact (Nat.mod_lt _ (by norm_num)).trans (by norm_num)⟩ 1 []

/-- One node of one float, in a layout for lists of up to `2^30 - 3` ids. -/
theorem not_readNode_written :
    ¬∃ w, NodeWriter.writeChunks (fun _ => [1, 2, 3, 4]) (fun _ => []) 2 0
        (NodeWriter.create 1 1 (2 ^ 30 - 3) 0) = .ok w ∧
      Stored 1 1 (2 ^ 30 - 3) 0 (fun _ => [1, 2, 3, 4]) (fun _ => [])
        ((DiskHeader.of 1 1 (2 ^ 30 - 3) 0).index w.file 1 []) w := by
  rintro ⟨w, -, stored⟩
  have sized := stored.sized Nat.one_pos (by norm_num)
  norm_num at sized

end HybridSearch.Engine
