/-
# Broker.CompletionTrieLookup -- the trie answers like a scan of the log

The strings of the trie are sorted, so a node stands for a range of them
(`Group`): the strings that start with what leads to the node.  The groups of a
node split its range by the next byte (`Splits`).  `NodeOk` is what the builder
leaves at every node: its children stand for its groups, under their labels, and
its list is the best of its range.  The builder calls itself on nodes it has
already allocated, so `NodeOk` is proved for all nodes at once, with the range of
each node as a ghost.

* `build_ok`: every node the builder made is `NodeOk`;
* `findNode_range`: a lookup ends at the node whose range has the prefix;
* `lookup_is_brute_force`: a lookup is the scan of the log, exactly where `k` is
  not negative.
-/
import Mathlib
import HybridSearch.Broker.CompletionTrie
import HybridSearch.Theory.Dict

namespace HybridSearch.Broker.CompletionTrie

open HybridSearch.Theory

set_option autoImplicit false

/-! ## The blob -/

/-- The strings hold `n` texts. -/
structure Holds (s : Strings) (n : Nat) (text : Nat → List Byte) : Prop where
  size : s.size = n
  len : ∀ i, i < n → s.len i = (text i).length
  slice : ∀ i, i < n → ∀ d m, d + m ≤ (text i).length →
    s.slice (s.offset i + d) m = ((text i).drop d).take m

theorem Holds.bytes {s : Strings} {n : Nat} {text : Nat → List Byte} (holds : Holds s n text) {i : Nat}
    (inside : i < n) : s.bytes i = text i := by
  have whole := holds.slice i inside 0 (text i).length (by omega)
  rw [Nat.add_zero, List.drop_zero, List.take_length] at whole
  rw [Strings.bytes, holds.len i inside, whole]

theorem Holds.letter {s : Strings} {n : Nat} {text : Nat → List Byte} (holds : Holds s n text)
    {i j : Nat} (inside : i < n) (short : j < (text i).length) :
    s.letter i j = (text i).getD j 0 := by
  have one := holds.slice i inside j 1 (by omega)
  rw [Strings.slice, List.take_one, List.take_one, List.head?_drop, List.head?_drop,
    List.getElem?_eq_getElem short] at one
  rw [Strings.letter, List.getD_eq_getElem _ _ short, List.getD_eq_getElem?_getD]
  cases found : s.blob[s.offset i + j]? with
  | none =>
      rw [found] at one
      cases one
  | some b =>
      rw [found] at one
      exact List.singleton_inj.mp one

theorem length_offsets (off : Nat) (merged : List Entry) : (offsets off merged).length = merged.length := by
  induction merged generalizing off with
  | nil => rfl
  | cons e rest ih => rw [offsets, List.length_cons, ih, List.length_cons]

theorem getD_offsets (off : Nat) {merged : List Entry} {i : Nat} (inside : i < merged.length) :
    (offsets off merged).getD i 0 = off + ((merged.take i).flatMap Prod.fst).length := by
  induction merged generalizing off i with
  | nil => simp at inside
  | cons e rest ih =>
      cases i with
      | zero => simp [offsets]
      | succ i =>
          rw [offsets, List.getD_cons_succ, ih _ (by simpa using inside), List.take_succ_cons,
            List.flatMap_cons, List.length_append, Nat.add_assoc]

/-- The text of an entry. -/
def textOf (merged : List Entry) (i : Nat) : List Byte := (merged.getD i ([], 0)).1

theorem holds_layout (merged : List Entry) : Holds (layout merged) merged.length (textOf merged) where
  size := List.length_map _
  len i inside := by
    simp [Strings.len, layout, textOf, inside]
  slice i inside d m short := by
    have split : merged.flatMap Prod.fst = (merged.take i).flatMap Prod.fst ++
        (merged[i].1 ++ (merged.drop (i + 1)).flatMap Prod.fst) := by
      conv_lhs => rw [← List.take_append_drop i merged, List.drop_eq_getElem_cons inside]
      rw [List.flatMap_append, List.flatMap_cons]
    have text_is : textOf merged i = merged[i].1 := by
      rw [textOf, List.getD_eq_getElem _ _ inside]
    rw [text_is] at short ⊢
    rw [Strings.slice, Strings.offset, layout, getD_offsets 0 inside, Nat.zero_add, split,
      List.drop_append, List.drop_eq_nil_of_le (Nat.le_add_right ..), List.nil_append,
      Nat.add_sub_cancel_left, List.drop_append_of_le_length (by omega),
      List.take_append_of_le_length (by rw [List.length_drop]; omega)]

/-! ## Groups -/

section Groups

variable {s : Strings} {n : Nat} {text : Nat → List Byte} (holds : Holds s n text)
  (sorted : ∀ i j, i < j → j < n → text i < text j)

/-- Byte `d` of a text. -/
def byteAt (text : Nat → List Byte) (d i : Nat) : Byte := (text i).getD d ⟨0, Nat.zero_lt_succ 255⟩

/-- The strings of a group start with `p`, whose length is the group's depth. -/
structure Shares (n : Nat) (text : Nat → List Byte) (g : Group) (p : List Byte) : Prop where
  depth : p.length = g.lcp
  ordered : g.lo ≤ g.hi
  bound : g.hi ≤ n
  starts : ∀ i, g.lo ≤ i → i < g.hi → p <+: text i

/-- `gs` splits `[i, hi)` by the byte after the shared `p`, and each group shares more. -/
def Splits (text : Nat → List Byte) (p : List Byte) (hi : Nat) : Nat → List Group → Prop
  | i, [] => hi ≤ i
  | i, g :: rest =>
      g.lo = i ∧ i < g.hi ∧ g.hi ≤ hi ∧ p.length < g.lcp ∧ g.lcp ≤ (text g.lo).length ∧
        (∀ j, g.lo ≤ j → j < g.hi → (text g.lo).take g.lcp <+: text j) ∧
        (∀ j, g.hi ≤ j → j < hi → byteAt text p.length g.lo < byteAt text p.length j) ∧
        Splits text p hi g.hi rest

theorem runEnd_spec (depth : Nat) (b : Byte) (m j : Nat) :
    j ≤ runEnd s depth b m j ∧ runEnd s depth b m j ≤ j + m ∧
      (∀ i, j ≤ i → i < runEnd s depth b m j → s.letter i depth = b) ∧
      (runEnd s depth b m j < j + m → s.letter (runEnd s depth b m j) depth ≠ b) := by
  induction m generalizing j with
  | zero => exact ⟨le_rfl, le_rfl, fun i low high => absurd (low.trans_lt high) (lt_irrefl _),
      fun short => absurd short (lt_irrefl _)⟩
  | succ m ih =>
      rw [runEnd]
      split_ifs with same
      · obtain ⟨low, high, inside, after⟩ := ih (j + 1)
        refine ⟨by omega, by omega, ?_, fun short => after (by omega)⟩
        intro i i_low i_high
        rcases i_low.lt_or_eq with later | rfl
        · exact inside i later i_high
        · exact same
      · exact ⟨le_rfl, by omega, fun i low high => absurd (low.trans_lt high) (lt_irrefl _),
          fun _ => same⟩

theorem lcpFrom_spec (a b m i : Nat) :
    i ≤ lcpFrom s a b m i ∧ lcpFrom s a b m i ≤ i + m ∧
      ∀ j, i ≤ j → j < lcpFrom s a b m i → s.letter a j = s.letter b j := by
  induction m generalizing i with
  | zero => exact ⟨le_rfl, le_rfl, fun j low high => absurd (low.trans_lt high) (lt_irrefl _)⟩
  | succ m ih =>
      rw [lcpFrom]
      split_ifs with same
      · obtain ⟨low, high, inside⟩ := ih (i + 1)
        refine ⟨by omega, by omega, ?_⟩
        intro j j_low j_high
        rcases j_low.lt_or_eq with later | rfl
        · exact inside j later j_high
        · exact same
      · exact ⟨le_rfl, by omega, fun j low high => absurd (low.trans_lt high) (lt_irrefl _)⟩

theorem take_eq_of_bytes {x y : List Byte} {m : Nat} (x_long : m ≤ x.length) (y_long : m ≤ y.length)
    (same : ∀ j, j < m → x.getD j 0 = y.getD j 0) : x.take m = y.take m := by
  apply List.ext_getElem
  · rw [List.length_take_of_le x_long, List.length_take_of_le y_long]
  · intro j x_in y_in
    rw [List.length_take_of_le x_long] at x_in
    have := same j x_in
    rw [List.getD_eq_getElem _ _ (by omega), List.getD_eq_getElem _ _ (by omega)] at this
    rw [List.getElem_take, List.getElem_take, this]

theorem getD_prefix_eq {p x : List Byte} (pre : p <+: x) {j : Nat} {c : Byte} (short : j < p.length) :
    x.getD j c = p.getD j c := by
  obtain ⟨rest, rfl⟩ := pre
  exact List.getD_append _ _ _ _ short

include holds in
/-- The common prefix of two strings that already share `p` and a byte. -/
theorem lcp_spec {p : List Byte} {a b : Nat} (a_in : a < n) (b_in : b < n) (pa : p <+: text a)
    (pb : p <+: text b) (a_more : p.length < (text a).length) (b_more : p.length < (text b).length)
    (same : byteAt text p.length a = byteAt text p.length b) :
    p.length < lcp s a b (p.length + 1) ∧ lcp s a b (p.length + 1) ≤ (text a).length ∧
      (text a).take (lcp s a b (p.length + 1)) = (text b).take (lcp s a b (p.length + 1)) := by
  obtain ⟨low, high, inside⟩ := @lcpFrom_spec s a b (min (s.len a) (s.len b) - (p.length + 1))
    (p.length + 1)
  rw [← lcp, holds.len a a_in, holds.len b b_in] at high
  rw [← lcp] at low inside
  refine ⟨by omega, by omega, take_eq_of_bytes (by omega) (by omega) ?_⟩
  intro j short
  rcases Nat.lt_trichotomy j p.length with before | at_p | after
  · rw [getD_prefix_eq pa before, getD_prefix_eq pb before]
  · rw [at_p]
    exact same
  · have := inside j after short
    rwa [holds.letter a_in (by omega), holds.letter b_in (by omega)] at this

include holds sorted in
/-- **The scan splits its range.** -/
theorem groupsFrom_splits {p : List Byte} {hi : Nat} (bound : hi ≤ n) {fuel i : Nat}
    (enough : hi - i ≤ fuel)
    (starts : ∀ j, i ≤ j → j < hi → p <+: text j ∧ p.length < (text j).length) :
    Splits text p hi i (groupsFrom s p.length hi fuel i) := by
  induction fuel generalizing i with
  | zero => exact Nat.le_of_sub_eq_zero (Nat.le_zero.mp enough)
  | succ fuel ih =>
      rw [groupsFrom]
      split_ifs with inside
      · obtain ⟨low, high, run, after⟩ :=
          @runEnd_spec s p.length (s.letter i p.length) (hi - (i + 1)) (i + 1)
        generalize runEnd s p.length (s.letter i p.length) (hi - (i + 1)) (i + 1) = j at *
        have letter_is (t : Nat) (t_low : i ≤ t) (t_high : t < hi) :
            s.letter t p.length = byteAt text p.length t :=
          holds.letter (by omega) (starts t t_low t_high).2
        have same (t : Nat) (t_low : i ≤ t) (t_high : t < j) :
            byteAt text p.length t = byteAt text p.length i := by
          rw [← letter_is t t_low (by omega), ← letter_is i le_rfl inside]
          rcases t_low.lt_or_eq with later | rfl
          · exact run t later t_high
          · rfl
        have ascends (t t' : Nat) (t_low : i ≤ t) (le : t ≤ t') (t'_high : t' < hi) :
            byteAt text p.length t ≤ byteAt text p.length t' := by
          rcases le.lt_or_eq with lt | rfl
          · have t_starts := starts t t_low (by omega)
            have t'_starts := starts t' (by omega) t'_high
            exact LexOrder.letter_le (sorted t t' lt (by omega)).le t_starts.1 t'_starts.1 0
              t_starts.2 t'_starts.2
          · exact le_rfl
        have i_starts := starts i le_rfl inside
        have last_starts := starts (j - 1) (by omega) (by omega)
        obtain ⟨deeper, short, shared⟩ := lcp_spec holds (by omega : i < n) (by omega : j - 1 < n)
          i_starts.1 last_starts.1 i_starts.2 last_starts.2 (same (j - 1) (by omega) (by omega)).symm
        refine ⟨rfl, low, by show j ≤ hi; omega, deeper, short, ?_, ?_, ih (i := j) (by omega) ?_⟩
        · intro t t_low t_high
          have low_le : text i ≤ text t := by
            rcases (show i ≤ t from t_low).lt_or_eq with lt | rfl
            · exact (sorted i t lt (by have : t < j := t_high; omega)).le
            · exact le_rfl
          have high_le : text t ≤ text (j - 1) := by
            rcases (show t ≤ j - 1 by have : t < j := t_high; omega).lt_or_eq with lt | same_t
            · exact (sorted t (j - 1) lt (by omega)).le
            · rw [same_t]
          have taken := LexOrder.take_eq_of_between low_le high_le shared
          show (text i).take (lcp s i (j - 1) (p.length + 1)) <+: text t
          rw [← taken]
          exact List.take_prefix _ _
        · intro t t_low t_high
          have j_low : j ≤ t := t_low
          have at_j : byteAt text p.length i ≠ byteAt text p.length j := by
            have := after (by omega)
            rw [letter_is j (by omega) (by omega), letter_is i le_rfl inside] at this
            exact fun h => this h.symm
          calc byteAt text p.length i < byteAt text p.length j :=
                lt_of_le_of_ne (ascends i j le_rfl (by omega) (by omega)) at_j
            _ ≤ byteAt text p.length t := ascends j t (by omega) j_low t_high
        · intro t t_low t_high
          exact starts t (by have : j ≤ t := t_low; omega) t_high
      · exact not_lt.mp inside

/-- The indices of a group. -/
def Group.range (g : Group) : List Nat := List.range' g.lo (g.hi - g.lo)

theorem Group.mem_range {g : Group} (ordered : g.lo ≤ g.hi) {i : Nat} :
    i ∈ g.range ↔ g.lo ≤ i ∧ i < g.hi := by
  rw [Group.range, List.mem_range'_1]
  omega

/-- A group of a split, and what it shares. -/
theorem Splits.group {p : List Byte} {hi i : Nat} {gs : List Group} (splits : Splits text p hi i gs)
    {g : Group} (mem : g ∈ gs) :
    i ≤ g.lo ∧ g.lo < g.hi ∧ g.hi ≤ hi ∧ p.length < g.lcp ∧ g.lcp ≤ (text g.lo).length ∧
      ∀ j, g.lo ≤ j → j < g.hi → (text g.lo).take g.lcp <+: text j := by
  induction gs generalizing i with
  | nil => cases mem
  | cons first rest ih =>
      obtain ⟨at_i, nonempty, inside, deeper, short, shares, _, rest_splits⟩ := splits
      rcases List.mem_cons.mp mem with rfl | later
      · exact ⟨at_i.ge, by omega, inside, deeper, short, shares⟩
      · obtain ⟨low, others⟩ := ih rest_splits later
        exact ⟨by omega, others⟩

theorem Splits.lo_le {p : List Byte} {g' : Group} {gs : List Group}
    (splits : Splits text p g'.hi (g'.lo + (terminal s g').length) gs) {g : Group} (mem : g ∈ gs) :
    g'.lo ≤ g.lo := (Nat.le_add_right ..).trans (splits.group mem).1

theorem Splits.shares {p : List Byte} {hi i : Nat} {gs : List Group} (splits : Splits text p hi i gs)
    (bound : hi ≤ n) {g : Group} (mem : g ∈ gs) : Shares n text g ((text g.lo).take g.lcp) := by
  obtain ⟨_, nonempty, inside, _, short, starts⟩ := splits.group mem
  exact ⟨List.length_take_of_le short, nonempty.le, by omega, starts⟩

/-- The strings of a group share the byte after `p`. -/
theorem Splits.byte {p : List Byte} {hi i : Nat} {gs : List Group} (splits : Splits text p hi i gs)
    {g : Group} (mem : g ∈ gs) {j : Nat} (low : g.lo ≤ j) (high : j < g.hi) :
    byteAt text p.length j = byteAt text p.length g.lo := by
  obtain ⟨_, nonempty, _, deeper, short, starts⟩ := splits.group mem
  have long : p.length < ((text g.lo).take g.lcp).length := by
    rw [List.length_take_of_le short]
    exact deeper
  rw [byteAt, byteAt, getD_prefix_eq (starts j low high) long,
    getD_prefix_eq (starts g.lo le_rfl nonempty) long]

theorem Splits.flatten {p : List Byte} {hi i : Nat} {gs : List Group} (splits : Splits text p hi i gs)
    (le : i ≤ hi) : gs.flatMap Group.range = List.range' i (hi - i) := by
  induction gs generalizing i with
  | nil =>
      rw [List.flatMap_nil, Nat.sub_eq_zero_of_le splits, List.range'_zero]
  | cons g rest ih =>
      obtain ⟨at_i, nonempty, inside, _, _, _, _, rest_splits⟩ := splits
      have lengths : hi - i = (g.hi - i) + (hi - g.hi) := by omega
      rw [List.flatMap_cons, ih rest_splits inside, Group.range, at_i, lengths, ← List.range'_append_1]
      congr 2
      omega

theorem Splits.ascending {p : List Byte} {hi i : Nat} {gs : List Group} (splits : Splits text p hi i gs) :
    gs.Pairwise fun g g' => byteAt text p.length g.lo < byteAt text p.length g'.lo := by
  induction gs generalizing i with
  | nil => exact List.Pairwise.nil
  | cons g rest ih =>
      obtain ⟨_, _, _, _, _, _, lower, rest_splits⟩ := splits
      refine List.pairwise_cons.mpr ⟨?_, ih rest_splits⟩
      intro g' mem
      obtain ⟨low, nonempty, inside, _⟩ := rest_splits.group mem
      exact lower g'.lo low (by omega)

theorem Splits.covers {p : List Byte} {hi i : Nat} {gs : List Group} (splits : Splits text p hi i gs)
    {j : Nat} (low : i ≤ j) (high : j < hi) : ∃ g ∈ gs, g.lo ≤ j ∧ j < g.hi := by
  have mem : j ∈ gs.flatMap Group.range := by
    rw [splits.flatten (by omega), List.mem_range'_1]
    omega
  obtain ⟨g, g_mem, j_mem⟩ := List.mem_flatMap.mp mem
  obtain ⟨_, nonempty, _⟩ := splits.group g_mem
  exact ⟨g, g_mem, (Group.mem_range nonempty.le).mp j_mem⟩

include holds sorted in
/-- After the terminal string every string goes on. -/
theorem terminal_spec {g : Group} {p : List Byte} (shares : Shares n text g p) :
    g.lo + (terminal s g).length ≤ g.hi ∧
      terminal s g ++ List.range' (g.lo + (terminal s g).length)
        (g.hi - (g.lo + (terminal s g).length)) = g.range ∧
      ∀ j, g.lo + (terminal s g).length ≤ j → j < g.hi → p <+: text j ∧ p.length < (text j).length := by
  have ordered := shares.ordered
  have bound := shares.bound
  have depth := shares.depth
  -- a string that ends at the shared bytes is the least of the group
  have goes_on : ∀ j, g.lo < j → j < g.hi → p.length < (text j).length := by
    intro j after high
    have j_starts := shares.starts j after.le high
    by_contra stops
    have ends : p = text j := j_starts.eq_of_length_le (not_lt.mp stops)
    have least : p ≤ text g.lo := LexOrder.prefix_le (shares.starts g.lo le_rfl (by omega))
    exact absurd (sorted g.lo j after (by omega)) (not_lt.mpr (ends ▸ least))
  rw [terminal, Group.range]
  split_ifs with ends
  · obtain ⟨nonempty, len_lo⟩ := ends
    refine ⟨by simpa using nonempty, ?_, ?_⟩
    · have lengths : g.hi - g.lo = 1 + (g.hi - (g.lo + 1)) := by omega
      rw [List.length_singleton, lengths, ← List.range'_append_1]
      rfl
    · intro j low high
      rw [List.length_singleton] at low
      exact ⟨shares.starts j (by omega) high, goes_on j (by omega) high⟩
  · refine ⟨by simpa using ordered, by simp, ?_⟩
    intro j low high
    rw [List.length_nil, Nat.add_zero] at low
    refine ⟨shares.starts j low high, ?_⟩
    rcases low.lt_or_eq with after | rfl
    · exact goes_on j after high
    · have long := (shares.starts g.lo le_rfl high).length_le
      have other : s.len g.lo ≠ g.lcp := fun same => ends ⟨high, same⟩
      rw [holds.len g.lo (by omega)] at other
      omega

include holds sorted in
/-- **The groups of a node split its range after the terminal string.** -/
theorem groups_splits {g : Group} {p : List Byte} (shares : Shares n text g p) :
    Splits text p g.hi (g.lo + (terminal s g).length) (groups s g) := by
  obtain ⟨_, _, go_on⟩ := terminal_spec holds sorted shares
  rw [groups, ← shares.depth]
  exact groupsFrom_splits holds sorted shares.bound (by omega) go_on

include holds sorted in
theorem groups_flatten {g : Group} {p : List Byte} (shares : Shares n text g p) :
    terminal s g ++ (groups s g).flatMap Group.range = g.range := by
  obtain ⟨le, whole, _⟩ := terminal_spec holds sorted shares
  rw [(groups_splits holds sorted shares).flatten le, whole]

end Groups

/-! ## Builder operations -/

namespace Builder

variable {b : Builder}

theorem node_modify (b : Builder) (f : Node → Node) {m : Nat} (inside : m < b.nodes.length) (i : Nat) :
    (b.nodes.modify m f).getD i default = if m = i then f (b.node m) else b.node i := by
  rw [List.getD_eq_getElem?_getD, List.getElem?_modify]
  split_ifs with same
  · subst same
    rw [node, List.getD_eq_getElem _ _ inside, List.getElem?_eq_getElem inside]
    rfl
  · rw [node, List.getD_eq_getElem?_getD]
    cases b.nodes[i]? <;> rfl

theorem node_setChildren {m : Nat} (inside : m < b.nodes.length) (first count i : Nat) :
    (b.setChildren m first count).node i =
      if m = i then { b.node m with firstChild := first, childCount := count } else b.node i :=
  node_modify b _ inside i

theorem node_setTop {m : Nat} (inside : m < b.nodes.length) (best : List Nat) (i : Nat) :
    (b.setTop m best).node i =
      if m = i then { b.node m with topStart := b.top.length, topCount := best.length }
      else b.node i :=
  node_modify b _ inside i

@[simp] theorem length_setChildren (m first count : Nat) :
    (b.setChildren m first count).nodes.length = b.nodes.length := List.length_modify ..

@[simp] theorem length_setTop (m : Nat) (best : List Nat) :
    (b.setTop m best).nodes.length = b.nodes.length := List.length_modify ..

theorem topOf_setTop {m : Nat} (inside : m < b.nodes.length) (best : List Nat) :
    (b.setTop m best).topOf m = best := by
  rw [topOf, node_setTop inside, if_pos rfl]
  simp [setTop]

/-- Allocating nodes appends them. -/
theorem foldl_newNode {α : Type} (start len : α → Nat) (todo : List α) (b : Builder) :
    todo.foldl (fun b c => b.newNode (start c) (len c)) b =
      ⟨b.nodes ++ todo.map fun c => { labelStart := start c, labelLen := len c }, b.top⟩ := by
  induction todo generalizing b with
  | nil => rw [List.foldl_nil, List.map_nil, List.append_nil]
  | cons c rest ih => rw [List.foldl_cons, ih, newNode, List.map_cons, List.append_assoc,
      List.singleton_append]

end Builder

/-! ## What the builder leaves at a node -/

section Build

variable (s : Strings) (n : Nat) (text : Nat → List Byte) (maxK : Nat)

/-- Node `m` stands for the strings of `span m`. -/
structure NodeOk (b : Builder) (span : Nat → Group) (m : Nat) : Prop where
  childCount : (b.node m).childCount = (groups s (span m)).length
  child : ∀ c, ∀ inside : c < (groups s (span m)).length,
    (b.node m).firstChild + c < b.nodes.length ∧
      span ((b.node m).firstChild + c) = (groups s (span m))[c] ∧
      (b.node ((b.node m).firstChild + c)).labelStart =
        s.offset (groups s (span m))[c].lo + (span m).lcp ∧
      (b.node ((b.node m).firstChild + c)).labelLen = (groups s (span m))[c].lcp - (span m).lcp
  fits : (b.node m).topStart + (b.node m).topCount ≤ b.top.length
  top : b.topOf m = BestK.best (before s) maxK (span m).range

/-- The builder went on from `b` to `b'`: only the touched nodes of `b` changed, and not their
labels. -/
structure Extends (touched : Nat → Prop) (b b' : Builder) (span span' : Nat → Group) : Prop where
  longer : b.nodes.length ≤ b'.nodes.length
  same : ∀ m, m < b.nodes.length → ¬ touched m → b'.node m = b.node m
  label : ∀ m, m < b.nodes.length →
    (b'.node m).labelStart = (b.node m).labelStart ∧ (b'.node m).labelLen = (b.node m).labelLen
  top : b.top <+: b'.top
  span : ∀ m, m < b.nodes.length → span' m = span m

variable {s n text maxK}

theorem Extends.trans {touched touched' : Nat → Prop} {b b' b'' : Builder}
    {span span' span'' : Nat → Group} (first : Extends touched b b' span span')
    (second : Extends touched' b' b'' span' span'') :
    Extends (fun m => touched m ∨ touched' m) b b'' span span'' where
  longer := first.longer.trans second.longer
  same m inside untouched := by
    rw [not_or] at untouched
    rw [second.same m (inside.trans_le first.longer) untouched.2, first.same m inside untouched.1]
  label m inside := by
    obtain ⟨start, len⟩ := first.label m inside
    obtain ⟨start', len'⟩ := second.label m (inside.trans_le first.longer)
    exact ⟨start'.trans start, len'.trans len⟩
  top := first.top.trans second.top
  span m inside := (second.span m (inside.trans_le first.longer)).trans (first.span m inside)

/-- A finished node stays finished. -/
theorem NodeOk.extends {touched : Nat → Prop} {b b' : Builder} {span span' : Nat → Group} {m : Nat}
    (ok : NodeOk s maxK b span m) (ext : Extends touched b b' span span') (inside : m < b.nodes.length)
    (untouched : ¬ touched m) : NodeOk s maxK b' span' m := by
  have node_same := ext.same m inside untouched
  have span_same := ext.span m inside
  constructor
  · rw [node_same, span_same]
    exact ok.childCount
  · intro c c_inside
    simp only [span_same, node_same] at c_inside ⊢
    obtain ⟨child_inside, child_span, start, len⟩ := ok.child c c_inside
    obtain ⟨start', len'⟩ := ext.label _ child_inside
    exact ⟨child_inside.trans_le ext.longer, (ext.span _ child_inside).trans child_span,
      start'.trans start, len'.trans len⟩
  · rw [node_same]
    exact ok.fits.trans ext.top.length_le
  · rw [span_same, ← ok.top, Builder.topOf, Builder.topOf, node_same]
    obtain ⟨more, appended⟩ := ext.top
    have fits := ok.fits
    rw [← appended, List.drop_append_of_le_length (by omega),
      List.take_append_of_le_length (by rw [List.length_drop]; omega)]

/-- What a call of `Build` on `node` leaves. -/
structure Built (s : Strings) (n : Nat) (text : Nat → List Byte) (maxK : Nat) (touched : Nat → Prop)
    (b b' : Builder) (span span' : Nat → Group) : Prop where
  ext : Extends touched b b' span span'
  touched_ok : ∀ m, touched m → NodeOk s maxK b' span' m
  new_ok : ∀ m, b.nodes.length ≤ m → m < b'.nodes.length →
    NodeOk s maxK b' span' m ∧ ∃ p, Shares n text (span' m) p

/-- One call after the other. -/
theorem Built.trans {touched touched' : Nat → Prop} {b b' b'' : Builder}
    {span span' span'' : Nat → Group} (first : Built s n text maxK touched b b' span span')
    (second : Built s n text maxK touched' b' b'' span' span'')
    (inside : ∀ m, touched m → m < b.nodes.length) (inside' : ∀ m, touched' m → m < b.nodes.length)
    (apart : ∀ m, touched m → ¬ touched' m) :
    Built s n text maxK (fun m => touched m ∨ touched' m) b b'' span span'' where
  ext := first.ext.trans second.ext
  touched_ok := by
    rintro m (here | later)
    · exact (first.touched_ok m here).extends second.ext
        ((inside m here).trans_le first.ext.longer) (apart m here)
    · exact second.touched_ok m later
  new_ok m low high := by
    rcases Nat.lt_or_ge m b'.nodes.length with old | new
    · obtain ⟨ok, p, shares⟩ := first.new_ok m low old
      have untouched : ¬ touched' m := fun here => absurd (inside' m here) (not_lt.mpr low)
      refine ⟨ok.extends second.ext old untouched, p, ?_⟩
      rw [second.ext.span m old]
      exact shares
    · exact second.new_ok m new high

/-- A node that may be built: allocated, with a range that fits its fuel. -/
structure Ready (n : Nat) (text : Nat → List Byte) (fuel : Nat) (b : Builder) (span : Nat → Group)
    (node : Nat) (g : Group) : Prop where
  inside : node < b.nodes.length
  span : span node = g
  shares : ∃ p, Shares n text g p
  nonempty : g.lo < g.hi ∨ 0 < fuel
  enough : ∀ i, i < n → (text i).length < g.lcp + fuel

theorem Ready.extends {fuel : Nat} {touched : Nat → Prop} {b b' : Builder} {span span' : Nat → Group}
    {node : Nat} {g : Group} (ready : Ready n text fuel b span node g)
    (ext : Extends touched b b' span span') : Ready n text fuel b' span' node g :=
  ⟨ready.inside.trans_le ext.longer, (ext.span node ready.inside).trans ready.span, ready.shares,
    ready.nonempty, ready.enough⟩

/-- Building children one after the other, given what building one does. -/
theorem build_children {fuel : Nat}
    (build_one : ∀ node g b span, Ready n text fuel b span node g →
      ∃ span', Built s n text maxK (· = node) b (build s maxK fuel node g b) span span')
    (todo : List (Group × Nat)) (b : Builder) (span : Nat → Group)
    (ready : ∀ c ∈ todo, Ready n text fuel b span c.2 c.1) (distinct : (todo.map Prod.snd).Nodup) :
    ∃ span', Built s n text maxK (· ∈ todo.map Prod.snd) b
      (todo.foldl (fun b c => build s maxK fuel c.2 c.1 b) b) span span' := by
  induction todo generalizing b span with
  | nil =>
      refine ⟨span, ⟨⟨le_rfl, fun _ _ _ => rfl, fun _ _ => ⟨rfl, rfl⟩, List.prefix_refl _,
        fun _ _ => rfl⟩, fun m mem => absurd mem List.not_mem_nil, ?_⟩⟩
      intro m low high
      exact absurd (low.trans_lt high) (lt_irrefl _)
  | cons c rest ih =>
      rw [List.map_cons, List.nodup_cons] at distinct
      obtain ⟨span₁, built⟩ := build_one c.2 c.1 b span (ready c (List.mem_cons_self ..))
      obtain ⟨span₂, rest_built⟩ := ih (build s maxK fuel c.2 c.1 b) span₁
        (fun c' mem => (ready c' (List.mem_cons_of_mem _ mem)).extends built.ext) distinct.2
      have both := built.trans rest_built
        (fun m same => same ▸ (ready c (List.mem_cons_self ..)).inside)
        (fun m mem => by
          obtain ⟨c', c'_mem, rfl⟩ := List.mem_map.mp mem
          exact (ready c' (List.mem_cons_of_mem _ c'_mem)).inside)
        (fun m same mem => distinct.1 (same ▸ mem))
      refine ⟨span₂, ?_⟩
      rw [List.foldl_cons]
      simpa only [List.map_cons, List.mem_cons] using both

theorem Extends.mono {touched touched' : Nat → Prop} {b b' : Builder} {span span' : Nat → Group}
    (ext : Extends touched b b' span span')
    (fewer : ∀ m, m < b.nodes.length → touched m → touched' m) : Extends touched' b b' span span' :=
  ⟨ext.longer, fun m inside untouched => ext.same m inside fun here => untouched (fewer m inside here),
    ext.label, ext.top, ext.span⟩

theorem setTop_extends {b : Builder} {node : Nat} (inside : node < b.nodes.length) (best : List Nat)
    (span : Nat → Group) : Extends (· = node) b (b.setTop node best) span span where
  longer := (Builder.length_setTop node best).ge
  same m _ untouched := by rw [Builder.node_setTop inside, if_neg (Ne.symm untouched)]
  label m _ := by
    rw [Builder.node_setTop inside]
    split_ifs with same
    · exact ⟨by rw [same], by rw [same]⟩
    · exact ⟨rfl, rfl⟩
  top := List.prefix_append _ _
  span _ _ := rfl

/-- The builder with the children of `node` allocated. -/
def allocated (s : Strings) (b : Builder) (node : Nat) (g : Group) : Builder :=
  ((groups s g).zipIdx b.nodes.length).foldl
    (fun b c => b.newNode (s.offset c.1.lo + g.lcp) (c.1.lcp - g.lcp))
    (b.setChildren node b.nodes.length ((groups s g).zipIdx b.nodes.length).length)

/-- The ranges once the children of `g` are allocated from `base` on. -/
def spanWith (s : Strings) (base : Nat) (g : Group) (span : Nat → Group) (m : Nat) : Group :=
  if base ≤ m then (groups s g).getD (m - base) ⟨0, 0, 0⟩ else span m

theorem allocated_eq (b : Builder) (node : Nat) (g : Group) :
    allocated s b node g = ⟨(b.setChildren node b.nodes.length (groups s g).length).nodes ++
      (groups s g).map fun c =>
        { labelStart := s.offset c.lo + g.lcp, labelLen := c.lcp - g.lcp }, b.top⟩ := by
  have labels : ((groups s g).zipIdx b.nodes.length).map (fun c =>
      ({ labelStart := s.offset c.1.lo + g.lcp, labelLen := c.1.lcp - g.lcp } : Node)) =
      (groups s g).map fun c => { labelStart := s.offset c.lo + g.lcp, labelLen := c.lcp - g.lcp } := by
    conv_rhs => rw [← List.zipIdx_map_fst b.nodes.length (groups s g), List.map_map]
    rfl
  rw [allocated, Builder.foldl_newNode, List.length_zipIdx, labels]
  rfl

theorem length_allocated (b : Builder) (node : Nat) (g : Group) :
    (allocated s b node g).nodes.length = b.nodes.length + (groups s g).length := by
  rw [allocated_eq, List.length_append, Builder.length_setChildren, List.length_map]

theorem node_allocated_old {b : Builder} {node : Nat} (inside : node < b.nodes.length) (g : Group)
    {m : Nat} (old : m < b.nodes.length) :
    (allocated s b node g).node m =
      if node = m then { b.node node with
        firstChild := b.nodes.length, childCount := (groups s g).length } else b.node m := by
  rw [← Builder.node_setChildren inside, allocated_eq, Builder.node, Builder.node]
  exact List.getD_append _ _ _ _ (by rw [Builder.length_setChildren]; exact old)

theorem node_allocated_new (b : Builder) (node : Nat) (g : Group) {c : Nat}
    (inside : c < (groups s g).length) :
    (allocated s b node g).node (b.nodes.length + c) =
      { labelStart := s.offset (groups s g)[c].lo + g.lcp,
        labelLen := (groups s g)[c].lcp - g.lcp } := by
  rw [allocated_eq, Builder.node, List.getD_append_right _ _ _ _ (by simp), Builder.length_setChildren,
    Nat.add_sub_cancel_left, List.getD_eq_getElem _ _ (by simpa using inside), List.getElem_map]

theorem allocated_extends {b : Builder} {node : Nat} (inside : node < b.nodes.length) (g : Group)
    (span : Nat → Group) :
    Extends (· = node) b (allocated s b node g) span (spanWith s b.nodes.length g span) where
  longer := by
    rw [length_allocated]
    exact Nat.le_add_right ..
  same m old untouched := by rw [node_allocated_old inside g old, if_neg (Ne.symm untouched)]
  label m old := by
    rw [node_allocated_old inside g old]
    split_ifs with same
    · exact ⟨by rw [same], by rw [same]⟩
    · exact ⟨rfl, rfl⟩
  top := by
    rw [allocated_eq]
  span m old := if_neg (not_le.mpr old)

theorem before_linear (s : Strings) : BestK.Linear (before s) where
  trans a b c first second := by
    unfold before at *
    split_ifs at * <;> simp only [decide_eq_true_eq] at * <;> omega
  total a b := by
    unfold before
    split_ifs <;> simp only [Bool.or_eq_true, decide_eq_true_eq] <;> omega
  antisymm a b first second := by
    unfold before at *
    split_ifs at * <;> simp only [decide_eq_true_eq] at * <;> omega

variable (holds : Holds s n text) (sorted : ∀ i j, i < j → j < n → text i < text j)
include holds sorted

/-- The children of a node are ready to be built. -/
theorem children_ready {fuel : Nat} {b : Builder} {span : Nat → Group} {node : Nat} {g : Group}
    (ready : Ready n text (fuel + 1) b span node g) :
    ∀ c ∈ (groups s g).zipIdx b.nodes.length,
      Ready n text fuel (allocated s b node g) (spanWith s b.nodes.length g span) c.2 c.1 := by
  rintro ⟨child, m⟩ mem
  obtain ⟨low, found⟩ := List.mem_zipIdx_iff_le_and_getElem?_sub.mp mem
  obtain ⟨inside, child_is⟩ := List.getElem?_eq_some_iff.mp found
  simp only at low inside child_is
  obtain ⟨p, shares⟩ := ready.shares
  have splits := groups_splits holds sorted shares
  have child_mem := List.getElem_mem inside
  rw [child_is] at child_mem
  obtain ⟨_, nonempty, _, deeper, _, _⟩ := splits.group child_mem
  refine ⟨?_, ?_, ⟨_, splits.shares shares.bound child_mem⟩, .inl nonempty, ?_⟩
  · rw [length_allocated]
    show m < _
    omega
  · show spanWith s b.nodes.length g span m = child
    rw [spanWith, if_pos low, List.getD_eq_getElem _ _ inside, child_is]
  · intro i i_in
    have := ready.enough i i_in
    have := shares.depth
    show (text i).length < child.lcp + fuel
    omega

/-- The list of a node: the best of its terminal string and of its children's lists. -/
theorem scratch_best {b : Builder} {g : Group} {p : List Byte}
    (shares : Shares n text g p) {children : List (Group × Nat)}
    (are : children.map Prod.fst = groups s g)
    (lists : ∀ c ∈ children, b.topOf c.2 = BestK.best (before s) maxK c.1.range) :
    BestK.best (before s) maxK (terminal s g ++ children.flatMap fun c => b.topOf c.2) =
      BestK.best (before s) maxK g.range := by
  have parts : (children.flatMap fun c => b.topOf c.2) =
      ((groups s g).map Group.range).flatMap (BestK.best (before s) maxK) := by
    rw [← are, List.map_map, List.flatMap_map]
    exact List.flatMap_congr fun c mem => lists c mem
  have whole : terminal s g ++ ((groups s g).map Group.range).flatten = g.range := by
    rw [← List.flatMap_def]
    exact groups_flatten holds sorted shares
  rw [parts, BestK.best_flatMap (before_linear s), whole]
  rw [whole]
  exact List.nodup_range'

/-- **Every node the builder makes stands for its range.** -/
theorem build_ok (fuel : Nat) : ∀ node g b span, Ready n text fuel b span node g →
    ∃ span', Built s n text maxK (· = node) b (build s maxK fuel node g b) span span' := by
  induction fuel with
  | zero =>
      intro node g b span ready
      obtain ⟨p, shares⟩ := ready.shares
      have nonempty := ready.nonempty.resolve_right (lt_irrefl 0)
      have starts := shares.starts g.lo le_rfl nonempty
      have := ready.enough g.lo (nonempty.trans_le shares.bound)
      have := starts.length_le
      have := shares.depth
      omega
  | succ fuel ih =>
      intro node g b span ready
      obtain ⟨p, shares⟩ := ready.shares
      have inside := ready.inside
      have names : ((groups s g).zipIdx b.nodes.length).map Prod.snd =
          List.range' b.nodes.length (groups s g).length := List.zipIdx_map_snd ..
      obtain ⟨span', built⟩ := build_children ih ((groups s g).zipIdx b.nodes.length)
        (allocated s b node g) (spanWith s b.nodes.length g span) (children_ready holds sorted ready)
        (names ▸ List.nodup_range')
      generalize b₃_is : ((groups s g).zipIdx b.nodes.length).foldl
        (fun b c => build s maxK fuel c.2 c.1 b) (allocated s b node g) = b₃ at built
      rw [names] at built
      have child_iff (m : Nat) : m ∈ List.range' b.nodes.length (groups s g).length ↔
          b.nodes.length ≤ m ∧ m < b.nodes.length + (groups s g).length := List.mem_range'_1
      have allocated_length := length_allocated (s := s) b node g
      have inside₃ : node < b₃.nodes.length :=
        inside.trans_le ((allocated_extends (s := s) inside g span).longer.trans built.ext.longer)
      have node₃ : b₃.node node = { b.node node with
          firstChild := b.nodes.length, childCount := (groups s g).length } := by
        rw [built.ext.same node (by omega) (by rw [child_iff]; omega), node_allocated_old inside g inside,
          if_pos rfl]
      have span₃ (m : Nat) (low : m < b.nodes.length + (groups s g).length) :
          span' m = spanWith s b.nodes.length g span m := built.ext.span m (by omega)
      have child_span (c : Nat) (c_in : c < (groups s g).length) :
          span' (b.nodes.length + c) = (groups s g)[c] := by
        rw [span₃ _ (by omega), spanWith, if_pos (Nat.le_add_right ..), Nat.add_sub_cancel_left,
          List.getD_eq_getElem _ _ c_in]
      have node_span : span' node = g := by
        rw [span₃ node (by omega), spanWith, if_neg (by omega), ready.span]
      have lists : ∀ c ∈ (groups s g).zipIdx b.nodes.length,
          b₃.topOf c.2 = BestK.best (before s) maxK c.1.range := by
        rintro ⟨child, m⟩ mem
        obtain ⟨low, found⟩ := List.mem_zipIdx_iff_le_and_getElem?_sub.mp mem
        obtain ⟨m_in, child_is⟩ := List.getElem?_eq_some_iff.mp found
        simp only at low m_in child_is
        have ok := built.touched_ok m ((child_iff m).mpr (by omega))
        have := child_span (m - b.nodes.length) m_in
        rw [Nat.add_sub_cancel' low] at this
        rw [ok.top, this, child_is]
      have scratch := scratch_best holds sorted shares
        (List.zipIdx_map_fst b.nodes.length (groups s g)) lists
      have built_is : build s maxK (fuel + 1) node g b =
          b₃.setTop node (BestK.best (before s) maxK g.range) := by
        rw [← scratch, ← b₃_is]
        rfl
      have last := setTop_extends inside₃ (BestK.best (before s) maxK g.range) span'
      refine ⟨span', ?_, ?_, ?_⟩
      · rw [built_is]
        refine (((allocated_extends inside g span).trans built.ext).trans last).mono ?_
        rintro m m_in ((here | child) | here)
        · exact here
        · exact absurd ((child_iff m).mp child).1 (not_le.mpr m_in)
        · exact here
      · rintro m rfl
        rw [built_is]
        constructor
        · rw [Builder.node_setTop inside₃, if_pos rfl, node₃, node_span]
        · intro c c_in
          simp only [node_span] at c_in ⊢
          have c_old : b.nodes.length + c < (allocated s b m g).nodes.length := by omega
          have c_old₃ := c_old.trans_le built.ext.longer
          obtain ⟨start, len⟩ := built.ext.label _ c_old
          obtain ⟨start', len'⟩ := last.label _ c_old₃
          rw [Builder.node_setTop inside₃ _ m, if_pos rfl, node₃, Builder.length_setTop, start', len',
            start, len, node_allocated_new b m g c_in]
          exact ⟨c_old₃, child_span c c_in, rfl, rfl⟩
        · rw [Builder.node_setTop inside₃, if_pos rfl]
          exact (List.length_append ..).ge
        · rw [Builder.topOf_setTop inside₃, node_span]
      · intro m low high
        rw [built_is] at high ⊢
        rw [Builder.length_setTop] at high
        have not_node : ¬ m = node := by omega
        rcases Nat.lt_or_ge m (b.nodes.length + (groups s g).length) with child | new
        · have ok := built.touched_ok m ((child_iff m).mpr ⟨low, child⟩)
          refine ⟨ok.extends last high not_node, ?_⟩
          have c_in : m - b.nodes.length < (groups s g).length := by omega
          have m_span := child_span (m - b.nodes.length) c_in
          rw [Nat.add_sub_cancel' low] at m_span
          rw [m_span]
          exact ⟨_, (groups_splits holds sorted shares).shares shares.bound (List.getElem_mem c_in)⟩
        · obtain ⟨ok, m_shares⟩ := built.new_ok m (by omega) high
          exact ⟨ok.extends last high not_node, m_shares⟩

/-- Every node of the trie stands for its range, the root for all strings. -/
structure TrieOk (s : Strings) (n : Nat) (text : Nat → List Byte) (maxK : Nat) (b : Builder)
    (span : Nat → Group) : Prop where
  root : 0 < b.nodes.length
  whole : span 0 = ⟨0, n, 0⟩
  node_ok : ∀ m, m < b.nodes.length → NodeOk s maxK b span m ∧ ∃ p, Shares n text (span m) p

omit holds sorted in
theorem le_foldl_max {l : List Nat} {x : Nat} (start : Nat) (mem : x ∈ l ∨ x ≤ start) :
    x ≤ l.foldl max start := by
  induction l generalizing start with
  | nil => exact mem.resolve_left List.not_mem_nil
  | cons y rest ih =>
      apply ih
      rcases mem with mem | le
      · rcases List.mem_cons.mp mem with rfl | later
        · exact .inr (le_max_right ..)
        · exact .inl later
      · exact .inr (le.trans (le_max_left ..))

theorem buildRoot_ok : ∃ span, TrieOk s n text maxK (buildRoot s maxK) span := by
  have ready : Ready n text (buildFuel s) (Builder.newNode ⟨[], []⟩ 0 0) (fun _ => ⟨0, n, 0⟩) 0
      ⟨0, n, 0⟩ := by
    refine ⟨Nat.one_pos, rfl, ⟨[], rfl, Nat.zero_le n, le_rfl, fun i _ _ => List.nil_prefix⟩,
      .inr (Nat.succ_pos _), ?_⟩
    intro i inside
    have listed : i < s.strLen.length := inside.trans_eq holds.size.symm
    have len := holds.len i inside
    rw [Strings.len, List.getD_eq_getElem _ _ listed] at len
    have : s.strLen[i] ≤ s.strLen.foldl max 0 := le_foldl_max 0 (.inl (List.getElem_mem listed))
    show (text i).length < 0 + (s.strLen.foldl max 0 + 1)
    omega
  obtain ⟨span, built⟩ := @build_ok s n text maxK holds sorted (buildFuel s) 0 ⟨0, n, 0⟩ _ _ ready
  rw [buildRoot, holds.size]
  refine ⟨span, built.ext.longer.trans_lt' Nat.one_pos, (built.ext.span 0 Nat.one_pos), ?_⟩
  intro m inside
  rcases Nat.eq_zero_or_pos m with rfl | new
  · refine ⟨built.touched_ok 0 rfl, ready.shares.imp fun p shares => ?_⟩
    rw [built.ext.span 0 Nat.one_pos]
    exact shares
  · exact built.new_ok m new inside

end Build

/-! ## Finding a node -/

theorem compareByte_eq {b first : Byte} : Trie.compareByte b first = .eq ↔ b = first := by
  rw [Trie.compareByte]
  split_ifs <;> simp_all

theorem compareByte_ascends {a b first : Byte} (lt : a < b) (le : Trie.compareByte b first ≠ .gt) :
    Trie.compareByte a first = .lt := by
  rw [Trie.compareByte] at le ⊢
  split_ifs at le with same below
  · subst same
    rw [if_neg lt.ne, if_pos lt]
  · rw [if_neg (lt.trans below).ne, if_pos (lt.trans below)]
  · exact absurd rfl le

section Find

variable {s : Strings} {n : Nat} {text : Nat → List Byte} {maxK : Nat} {t : Trie} {span : Nat → Group}
  (holds : Holds s n text) (sorted : ∀ i j, i < j → j < n → text i < text j)
  (strings : t.strings = s) (trie : TrieOk s n text maxK t.builder span)

/-- The first byte of a child's label. -/
def labelByte (t : Trie) (m : Nat) : Byte :=
  t.strings.blob.getD (t.builder.node m).labelStart ⟨0, Nat.zero_lt_succ 255⟩

include holds sorted strings trie in
theorem labelByte_child {m : Nat} (inside : m < t.builder.nodes.length) {p : List Byte}
    (shares : Shares n text (span m) p) {c : Nat} (c_in : c < (groups s (span m)).length) :
    labelByte t ((t.builder.node m).firstChild + c) =
      byteAt text p.length (groups s (span m))[c].lo := by
  obtain ⟨_, _, start, _⟩ := (trie.node_ok m inside).1.child c c_in
  obtain ⟨_, nonempty, in_hi, deeper, short, _⟩ :=
    (groups_splits holds sorted shares).group (List.getElem_mem c_in)
  rw [labelByte, start, strings, ← shares.depth]
  exact holds.letter (nonempty.trans_le (in_hi.trans shares.bound)) (deeper.trans_le short)

include holds sorted strings trie in
/-- **The children are searched by their first byte.** -/
theorem findChild_eq_some_iff {m : Nat} (inside : m < t.builder.nodes.length) {p : List Byte}
    (shares : Shares n text (span m) p) (first : Byte) (child : Nat) :
    t.findChild m first = some child ↔
      ∃ c, ∃ c_in : c < (groups s (span m)).length, child = (t.builder.node m).firstChild + c ∧
        byteAt text p.length (groups s (span m))[c].lo = first := by
  have ok := (trie.node_ok m inside).1
  have label {c : Nat} (c_in : c < (groups s (span m)).length) :=
    labelByte_child holds sorted strings trie inside shares c_in
  constructor
  · intro found
    obtain ⟨low, high, equal⟩ := BinarySearch.find_sound found
    rw [ok.childCount] at high
    have c_in : child - (t.builder.node m).firstChild < (groups s (span m)).length := by omega
    have here := label c_in
    rw [Nat.add_sub_cancel' low] at here
    exact ⟨_, c_in, (Nat.add_sub_cancel' low).symm, here ▸ compareByte_eq.mp equal⟩
  · rintro ⟨c, c_in, rfl, byte⟩
    apply BinarySearch.find_complete
    · intro i j low lt high le
      rw [ok.childCount] at high
      have i_in : i - (t.builder.node m).firstChild < (groups s (span m)).length := by omega
      have j_in : j - (t.builder.node m).firstChild < (groups s (span m)).length := by omega
      have i_label := label i_in
      have j_label := label j_in
      rw [Nat.add_sub_cancel' (by omega)] at i_label j_label
      apply compareByte_ascends ?_ le
      show labelByte t i < labelByte t j
      rw [i_label, j_label]
      exact List.pairwise_iff_getElem.mp (groups_splits holds sorted shares).ascending _ _ i_in j_in
        (by omega)
    · omega
    · omega
    · rw [ok.childCount]
      omega
    · exact compareByte_eq.mpr ((label c_in).trans byte)

include holds sorted in
/-- A string that goes on with a byte is in the group of that byte. -/
theorem group_of_byte {g : Group} {p : List Byte} (shares : Shares n text g p)
    (range : ∀ i, i < n → (g.lo ≤ i ∧ i < g.hi ↔ p <+: text i)) {first : Byte} {i : Nat} (inside : i < n)
    (starts : p ++ [first] <+: text i) :
    ∃ c, ∃ c_in : c < (groups s g).length, ((groups s g)[c].lo ≤ i ∧ i < (groups s g)[c].hi) ∧
      byteAt text p.length (groups s g)[c].lo = first := by
  obtain ⟨low, high⟩ := (range i inside).mpr ((List.prefix_append p [first]).trans starts)
  have long : p.length < (text i).length := by
    have := starts.length_le
    rw [List.length_append, List.length_singleton] at this
    omega
  have after : g.lo + (terminal s g).length ≤ i := by
    rw [terminal]
    split_ifs with ends
    · have : i ≠ g.lo := by
        rintro rfl
        have := holds.len g.lo inside
        have := shares.depth
        omega
      rw [List.length_singleton]
      omega
    · simpa using low
  have splits := groups_splits holds sorted shares
  obtain ⟨child, mem, child_low, child_high⟩ := splits.covers after high
  obtain ⟨c, c_in, rfl⟩ := List.mem_iff_getElem.mp mem
  refine ⟨c, c_in, ⟨child_low, child_high⟩, ?_⟩
  rw [← splits.byte mem child_low child_high, byteAt, getD_prefix_eq starts (by simp)]
  simp

include holds sorted in
/-- The strings of a group start with its label, and only they with the label's first byte: what
comparing the label with the rest of a prefix decides. -/
theorem label_range {g : Group} {pre : List Byte} (shares : Shares n text g pre)
    (range : ∀ i, i < n → (g.lo ≤ i ∧ i < g.hi ↔ pre <+: text i)) {c : Nat}
    (c_in : c < (groups s g).length) {rest : List Byte} {first : Byte} (head : rest.take 1 = [first])
    (byte : byteAt text pre.length (groups s g)[c].lo = first) {m : Nat}
    (m_is : m = min ((groups s g)[c].lcp - g.lcp) rest.length) :
    0 < m ∧ s.slice (s.offset (groups s g)[c].lo + g.lcp) m =
      ((text (groups s g)[c].lo).drop pre.length).take m ∧
    (((text (groups s g)[c].lo).drop pre.length).take m = rest.take m → ∀ i, i < n →
      ((groups s g)[c].lo ≤ i ∧ i < (groups s g)[c].hi ↔ pre ++ rest.take m <+: text i)) ∧
    (((text (groups s g)[c].lo).drop pre.length).take m ≠ rest.take m → ∀ i, i < n →
      ¬ pre ++ rest <+: text i) := by
  have splits := groups_splits holds sorted shares
  have depth := shares.depth
  have mem := List.getElem_mem c_in
  obtain ⟨low, nonempty, in_hi, deeper, short, starts⟩ := splits.group mem
  have lo_le := splits.lo_le mem
  have ascending := List.pairwise_iff_getElem.mp splits.ascending
  have unique : ∀ c', ∀ c'_in : c' < (groups s g).length,
      byteAt text pre.length (groups s g)[c'].lo = first → c' = c := by
    intro c' c'_in byte'
    rcases Nat.lt_trichotomy c' c with before | same | after
    · exact absurd (byte'.trans byte.symm) (ascending c' c c'_in c_in before).ne
    · exact same
    · exact absurd (byte.trans byte'.symm) (ascending c c' c_in c'_in after).ne
  have in_group : ∀ i, i < n → pre ++ rest.take m <+: text i → 0 < m →
      (groups s g)[c].lo ≤ i ∧ i < (groups s g)[c].hi := by
    intro i i_in i_starts m_pos
    have first_byte : pre ++ [first] <+: text i := by
      refine List.IsPrefix.trans ?_ i_starts
      rw [List.prefix_append_right_inj, ← head]
      exact List.take_prefix_take_left (by omega)
    obtain ⟨c', c'_in, i_range, byte'⟩ := group_of_byte holds sorted shares range i_in first_byte
    cases unique c' c'_in byte'
    exact i_range
  generalize (groups s g)[c] = child at *
  obtain ⟨w, text_is⟩ := shares.starts child.lo lo_le (nonempty.trans_le in_hi)
  have text_len : (text child.lo).length = pre.length + w.length := by
    rw [← text_is, List.length_append]
  have rest_pos : 0 < rest.length := by
    cases rest with
    | nil => cases head
    | cons b rest => exact Nat.succ_pos _
  have w_is : (text child.lo).drop pre.length = w := by rw [← text_is, List.drop_left]
  have labelled : ∀ i, child.lo ≤ i → i < child.hi → pre ++ w.take m <+: text i := by
    intro i i_low i_high
    refine List.IsPrefix.trans ?_ (starts i i_low i_high)
    rw [← text_is, List.take_append, List.take_of_length_le (by omega : pre.length ≤ child.lcp),
      List.prefix_append_right_inj]
    exact List.take_prefix_take_left (by omega)
  rw [w_is]
  refine ⟨by omega, ?_, ?_, ?_⟩
  · rw [holds.slice child.lo (nonempty.trans_le (in_hi.trans shares.bound)) _ _ (by omega), ← depth, w_is]
  · intro same i i_in
    constructor
    · rintro ⟨i_low, i_high⟩
      rw [← same]
      exact labelled i i_low i_high
    · intro i_starts
      exact in_group i i_in i_starts (by omega)
  · intro differs i i_in i_starts
    have taken : pre ++ rest.take m <+: text i := by
      refine List.IsPrefix.trans ?_ i_starts
      rw [List.prefix_append_right_inj]
      exact List.take_prefix _ _
    obtain ⟨i_low, i_high⟩ := in_group i i_in taken (by omega)
    have lengths : (w.take m).length = (rest.take m).length := by
      rw [List.length_take_of_le (by omega : m ≤ w.length),
        List.length_take_of_le (by omega : m ≤ rest.length)]
    have both := List.prefix_of_prefix_length_le (labelled i i_low i_high) taken (by
      rw [List.length_append, List.length_append, lengths])
    rw [List.prefix_append_right_inj] at both
    exact differs (both.eq_of_length lengths)

include holds sorted strings trie in
/-- **A lookup ends at the node of the strings with the prefix.** -/
theorem findNode_range {fuel m : Nat} {pre rest : List Byte} (enough : rest.length ≤ fuel)
    (inside : m < t.builder.nodes.length)
    (range : ∀ i, i < n → ((span m).lo ≤ i ∧ i < (span m).hi ↔ pre <+: text i))
    (at_depth : rest ≠ [] → pre.length = (span m).lcp) :
    match t.findNode fuel m rest with
    | none => ∀ i, i < n → ¬ pre ++ rest <+: text i
    | some m' => m' < t.builder.nodes.length ∧
        ∀ i, i < n → ((span m').lo ≤ i ∧ i < (span m').hi ↔ pre ++ rest <+: text i) := by
  induction fuel generalizing m pre rest with
  | zero =>
      cases rest with
      | nil =>
          rw [Trie.findNode, List.append_nil]
          exact ⟨inside, range⟩
      | cons first rest => simp at enough
  | succ fuel ih =>
      cases rest with
      | nil =>
          rw [Trie.findNode, List.append_nil]
          exact ⟨inside, range⟩
      | cons first tail =>
          obtain ⟨ok, p, p_shares⟩ := trie.node_ok m inside
          have depth := at_depth (List.cons_ne_nil _ _)
          have shares : Shares n text (span m) pre :=
            ⟨depth, p_shares.ordered, p_shares.bound, fun i low high =>
              (range i (high.trans_le p_shares.bound)).mp ⟨low, high⟩⟩
          rw [Trie.findNode]
          cases found : t.findChild m first with
          | none =>
              intro i i_in starts
              have one_more : pre ++ [first] <+: text i := by
                refine List.IsPrefix.trans ?_ starts
                rw [List.prefix_append_right_inj]
                exact ⟨tail, rfl⟩
              obtain ⟨c, c_in, _, byte⟩ := group_of_byte holds sorted shares range i_in one_more
              rw [(findChild_eq_some_iff holds sorted strings trie inside shares first _).mpr
                ⟨c, c_in, rfl, byte⟩] at found
              cases found
          | some child =>
              obtain ⟨c, c_in, child_is, byte⟩ :=
                (findChild_eq_some_iff holds sorted strings trie inside shares first child).mp found
              obtain ⟨child_inside, child_span, start, len⟩ := ok.child c c_in
              rw [← child_is] at child_inside child_span start len
              obtain ⟨m_pos, slice_is, same_range, no_range⟩ :=
                label_range holds sorted shares range c_in (rfl : (first :: tail).take 1 = [first])
                  byte rfl
              subst strings
              rw [← start, ← len] at slice_is
              rw [← len] at m_pos same_range no_range
              generalize len_m : min (t.builder.node child).labelLen (first :: tail).length = taken at *
              have split_rest : pre ++ (first :: tail).take taken ++ (first :: tail).drop taken =
                  pre ++ first :: tail := by
                rw [List.append_assoc, List.take_append_drop]
              simp only [len_m]
              split_ifs with same_bytes
              · rw [slice_is] at same_bytes
                have next := @ih child (pre ++ (first :: tail).take taken) ((first :: tail).drop taken)
                  (by rw [List.length_drop]; omega) child_inside
                  (by
                    rw [child_span]
                    exact same_range same_bytes)
                  (by
                    intro more
                    have : taken < (first :: tail).length := by
                      by_contra all
                      exact more (List.drop_eq_nil_of_le (not_lt.mp all))
                    rw [child_span, List.length_append, List.length_take_of_le this.le]
                    omega)
                rwa [split_rest] at next
              · rw [slice_is] at same_bytes
                exact no_range same_bytes

end Find

/-! ## The sorted queries of a log -/

/-- The count of a text among entries. -/
def totalAt (l : List Entry) (x : List Byte) : Int := ((l.filter (·.1 = x)).map Prod.snd).sum

theorem totalAt_append (l l' : List Entry) (x : List Byte) :
    totalAt (l ++ l') x = totalAt l x + totalAt l' x := by
  rw [totalAt, List.filter_append, List.map_append, List.sum_append]
  rfl

theorem totalAt_perm {l l' : List Entry} (perm : l.Perm l') (x : List Byte) :
    totalAt l x = totalAt l' x :=
  ((perm.filter _).map _).sum_eq

theorem totalAt_singleton (e : Entry) (x : List Byte) :
    totalAt [e] x = if e.1 = x then e.2 else 0 := by
  rw [totalAt]
  by_cases same : e.1 = x <;> simp [same]

/-- What one entry does to the merged list, when it is not below it. -/
theorem mergeEntry_spec {merged : List Entry} {e : Entry}
    (ascending : (merged.map Prod.fst).Pairwise (· < ·)) (le : ∀ a ∈ merged, a.1 ≤ e.1) :
    ((mergeEntry merged e).map Prod.fst).Pairwise (· < ·) ∧
      (∀ x, totalAt (mergeEntry merged e) x = totalAt merged x + totalAt [e] x) ∧
      (∀ x, x ∈ (mergeEntry merged e).map Prod.fst ↔ x ∈ merged.map Prod.fst ∨ x = e.1) := by
  rw [mergeEntry]
  cases last_is : merged.getLast? with
  | none =>
      rw [List.getLast?_eq_none_iff] at last_is
      subst last_is
      refine ⟨List.pairwise_singleton _ _, fun x => ?_, fun x => by simp⟩
      have nothing : totalAt [] x = 0 := rfl
      rw [nothing, zero_add]
  | some last =>
      obtain ⟨front, rfl⟩ := List.getLast?_eq_some_iff.mp last_is
      simp only [List.dropLast_concat]
      split_ifs with same
      · have keys_same : ((front ++ [(last.1, last.2 + e.2)]).map Prod.fst) =
            (front ++ [last]).map Prod.fst := by
          rw [List.map_append, List.map_append]
          rfl
        refine ⟨keys_same ▸ ascending, fun x => ?_, fun x => ?_⟩
        · rw [totalAt_append, totalAt_append, totalAt_singleton, totalAt_singleton, totalAt_singleton,
            same]
          split_ifs <;> omega
        · rw [keys_same, List.map_append, List.mem_append, ← same]
          simp only [List.map_cons, List.map_nil, List.mem_singleton]
          tauto
      · refine ⟨?_, fun x => totalAt_append _ _ x, fun x => by simp [or_assoc]⟩
        rw [List.map_append, List.pairwise_append]
        refine ⟨ascending, List.pairwise_singleton _ _, ?_⟩
        intro x x_mem y y_mem
        rw [List.map_cons, List.map_nil, List.mem_singleton] at y_mem
        subst y_mem
        have last_lt : last.1 < e.1 := lt_of_le_of_ne (le last (by simp)) same
        rw [List.map_append, List.mem_append] at x_mem
        rcases x_mem with earlier | here
        · rw [List.map_append, List.pairwise_append] at ascending
          exact (ascending.2.2 x earlier last.1 (by simp)).trans last_lt
        · rw [List.map_cons, List.map_nil, List.mem_singleton] at here
          rw [here]
          exact last_lt

/-- **Merging sorted entries keeps one entry a text, with the sum of its counts.** -/
theorem mergeEntries_spec {l merged : List Entry} (sorted : l.Pairwise fun a b => a.1 ≤ b.1)
    (ascending : (merged.map Prod.fst).Pairwise (· < ·)) (le : ∀ a ∈ merged, ∀ e ∈ l, a.1 ≤ e.1) :
    ((l.foldl mergeEntry merged).map Prod.fst).Pairwise (· < ·) ∧
      (∀ x, totalAt (l.foldl mergeEntry merged) x = totalAt merged x + totalAt l x) ∧
      (∀ x, x ∈ (l.foldl mergeEntry merged).map Prod.fst ↔
        x ∈ merged.map Prod.fst ∨ x ∈ l.map Prod.fst) := by
  induction l generalizing merged with
  | nil => exact ⟨ascending, fun x => by simp [totalAt], fun x => by simp⟩
  | cons e rest ih =>
      rw [List.pairwise_cons] at sorted
      obtain ⟨step_ascending, step_total, step_mem⟩ :=
        mergeEntry_spec ascending fun a mem => le a mem e (List.mem_cons_self ..)
      have step_le : ∀ a ∈ mergeEntry merged e, ∀ e' ∈ rest, a.1 ≤ e'.1 := by
        intro a mem e' e'_mem
        rcases (step_mem a.1).mp (List.mem_map_of_mem mem) with old | same
        · obtain ⟨a', a'_mem, a'_is⟩ := List.mem_map.mp old
          rw [← a'_is]
          exact le a' a'_mem e' (List.mem_cons_of_mem _ e'_mem)
        · rw [same]
          exact sorted.1 e' e'_mem
      obtain ⟨all_ascending, all_total, all_mem⟩ := ih sorted.2 step_ascending step_le
      rw [List.foldl_cons]
      refine ⟨all_ascending, fun x => ?_, fun x => ?_⟩
      · have split : totalAt (e :: rest) x = totalAt [e] x + totalAt rest x :=
          totalAt_append [e] rest x
        rw [all_total, step_total, split, add_assoc]
      · rw [all_mem, step_mem, List.map_cons, List.mem_cons]
        tauto

/-! ## The scan of the log -/

/-- The distinct queries of a log; the empty one is ignored. -/
def queries (counts : List (String × Int)) : List String :=
  ((counts.map Prod.fst).filter (· ≠ "")).dedup

/-- The summed count of a query. -/
def totalOf (counts : List (String × Int)) (q : String) : Int :=
  if q = "" then 0 else ((counts.filter (·.1 = q)).map Prod.snd).sum

/-- **What the trie is for**: the queries whose bytes start with the prefix's bytes, by count
descending and then by bytes ascending. -/
def bruteForce (counts : List (String × Int)) (start : String) : List (String × Int) :=
  (((queries counts).filter fun q => decide (getBytes start <+: getBytes q)).map
    fun q => (q, totalOf counts q)).mergeSort
      fun a b => decide (b.2 < a.2 ∨ a.2 = b.2 ∧ getBytes a.1 ≤ getBytes b.1)

theorem getString_getBytes (q : String) : getString (getBytes q) = q := by
  have back : ((getBytes q).map UInt8.ofFin).toArray = q.toUTF8.data := by
    rw [getBytes, List.map_map]
    have each : UInt8.ofFin ∘ UInt8.toFin = id := rfl
    rw [each, List.map_id, Array.toArray_toList]
  rw [getString, back]
  have valid : String.fromUTF8? ⟨q.toUTF8.data⟩ = some q := dif_pos q.isValidUTF8
  rw [valid, Option.getD_some]

theorem getBytes_injective : Function.Injective getBytes :=
  Function.LeftInverse.injective getString_getBytes

section Log

variable {counts : List (String × Int)} (positive : ∀ e ∈ counts, 0 < e.2)
include positive

theorem totalAt_entriesOf (q : String) : totalAt (counts.filterMap entryOf) (getBytes q) = totalOf counts q := by
  rw [totalOf]
  induction counts with
  | nil => simp [totalAt]
  | cons e rest ih =>
      have rest_is := ih fun e' mem => positive e' (List.mem_cons_of_mem _ mem)
      have e_pos := positive e (List.mem_cons_self ..)
      obtain ⟨text, c⟩ := e
      by_cases empty : text = ""
      · have skipped : entryOf (text, c) = none := if_pos (Or.inl empty)
        rw [List.filterMap_cons_none skipped, rest_is]
        by_cases q_empty : q = ""
        · rw [if_pos q_empty, if_pos q_empty]
        · rw [if_neg q_empty, if_neg q_empty, List.filter_cons_of_neg]
          simpa [empty] using Ne.symm q_empty
      · have kept : entryOf (text, c) = some (getBytes text, c) :=
          if_neg (not_or.mpr ⟨empty, not_le.mpr e_pos⟩)
        have split : totalAt ((getBytes text, c) :: rest.filterMap entryOf) (getBytes q) =
            totalAt [(getBytes text, c)] (getBytes q) + totalAt (rest.filterMap entryOf) (getBytes q) :=
          totalAt_append [_] _ _
        rw [List.filterMap_cons_some kept, split, rest_is, totalAt_singleton]
        simp only [getBytes_injective.eq_iff]
        by_cases q_empty : q = ""
        · have other : text ≠ q := fun same => empty (same.trans q_empty)
          rw [if_neg other, if_pos q_empty, if_pos q_empty, zero_add]
        · rw [if_neg q_empty, if_neg q_empty]
          by_cases same : text = q
          · rw [if_pos same, List.filter_cons_of_pos (by simpa using same), List.map_cons, List.sum_cons]
          · rw [if_neg same, List.filter_cons_of_neg (by simpa using same), zero_add]

theorem mem_entriesOf (x : List Byte) :
    x ∈ (counts.filterMap entryOf).map Prod.fst ↔ ∃ q ∈ queries counts, getBytes q = x := by
  constructor
  · intro mem
    obtain ⟨e, e_mem, rfl⟩ := List.mem_map.mp mem
    obtain ⟨⟨text, c⟩, listed, made⟩ := List.mem_filterMap.mp e_mem
    rw [entryOf] at made
    split_ifs at made with skipped
    cases made
    rw [not_or] at skipped
    refine ⟨text, ?_, rfl⟩
    rw [queries, List.mem_dedup, List.mem_filter, decide_eq_true_eq]
    exact ⟨List.mem_map_of_mem (f := Prod.fst) listed, skipped.1⟩
  · rintro ⟨q, mem, rfl⟩
    rw [queries, List.mem_dedup, List.mem_filter, decide_eq_true_eq] at mem
    obtain ⟨⟨⟨text, c⟩, listed, rfl⟩, nonempty⟩ := And.imp_left List.mem_map.mp mem
    refine List.mem_map.mpr ⟨(getBytes text, c), List.mem_filterMap.mpr ⟨(text, c), listed, ?_⟩, rfl⟩
    exact if_neg (not_or.mpr ⟨nonempty, not_le.mpr (positive _ listed)⟩)

end Log

/-- The strings of the trie are the queries of the log, with their counts. -/
structure Logged (counts : List (String × Int)) (s : Strings) (n : Nat) (text : Nat → List Byte) : Prop
    where
  holds : Holds s n text
  sorted : ∀ i j, i < j → j < n → text i < text j
  listed : ∀ x, (∃ i, i < n ∧ text i = x) ↔ ∃ q ∈ queries counts, getBytes q = x
  count : ∀ i, i < n → ∀ q, getBytes q = text i → s.countAt i = totalOf counts q

theorem logged_layout {counts : List (String × Int)} (positive : ∀ e ∈ counts, 0 < e.2)
    {l : List Entry} (perm : l.Perm (counts.filterMap entryOf)) (sorted : l.Pairwise fun a b => a.1 ≤ b.1) :
    Logged counts (layout (l.foldl mergeEntry [])) (l.foldl mergeEntry []).length
      (textOf (l.foldl mergeEntry [])) := by
  obtain ⟨ascending, total, members⟩ :=
    @mergeEntries_spec l [] sorted List.Pairwise.nil (fun _ absent => absurd absent List.not_mem_nil)
  generalize merged_is : l.foldl mergeEntry [] = merged at *
  have text_is {i : Nat} (inside : i < merged.length) : textOf merged i = merged[i].1 := by
    rw [textOf, List.getD_eq_getElem _ _ inside]
  have mem_keys (x : List Byte) : x ∈ merged.map Prod.fst ↔ ∃ q ∈ queries counts, getBytes q = x := by
    rw [members, List.map_nil, ← mem_entriesOf positive, (perm.map Prod.fst).mem_iff]
    exact or_iff_right List.not_mem_nil
  refine ⟨holds_layout merged, ?_, ?_, ?_⟩
  · intro i j lt j_in
    rw [text_is (lt.trans j_in), text_is j_in]
    have := List.pairwise_iff_getElem.mp ascending i j (by rw [List.length_map]; omega)
      (by rw [List.length_map]; exact j_in) lt
    rwa [List.getElem_map, List.getElem_map] at this
  · intro x
    rw [← mem_keys, List.mem_map]
    constructor
    · rintro ⟨i, inside, same⟩
      exact ⟨merged[i], List.getElem_mem inside, (text_is inside).symm.trans same⟩
    · rintro ⟨e, mem, same⟩
      obtain ⟨i, inside, rfl⟩ := List.mem_iff_getElem.mp mem
      exact ⟨i, inside, (text_is inside).trans same⟩
  · intro i inside q same
    have distinct : (Dict.keys merged).Nodup := ascending.imp ne_of_lt
    have entry : (getBytes q, merged[i].2) ∈ merged := by
      rw [same, text_is inside]
      exact List.getElem_mem inside
    calc (layout merged).countAt i = merged[i].2 := by
          rw [Strings.countAt, layout, List.getD_eq_getElem _ _ (by simpa using inside), List.getElem_map]
      _ = totalAt merged (getBytes q) := (Dict.sum_of_mem distinct entry).symm
      _ = totalAt l (getBytes q) := by rw [total, totalAt, List.filter_nil]; exact zero_add _
      _ = totalAt (counts.filterMap entryOf) (getBytes q) := totalAt_perm perm _
      _ = totalOf counts q := totalAt_entriesOf positive q

section Lookup

variable {counts : List (String × Int)} {s : Strings} {n : Nat} {text : Nat → List Byte}
  (logged : Logged counts s n text)
include logged

theorem Logged.name {i : Nat} (inside : i < n) :
    getString (text i) ∈ queries counts ∧ getBytes (getString (text i)) = text i := by
  obtain ⟨q, mem, same⟩ := (logged.listed (text i)).mp ⟨i, inside, rfl⟩
  rw [← same, getString_getBytes]
  exact ⟨mem, rfl⟩

theorem Logged.text_injective {i j : Nat} (i_in : i < n) (j_in : j < n) (same : text i = text j) :
    i = j := by
  rcases Nat.lt_trichotomy i j with before | eq | after
  · exact absurd same (logged.sorted i j before j_in).ne
  · exact eq
  · exact absurd same.symm (logged.sorted j i after i_in).ne

/-- **The range of a prefix, sorted by the trie, is the scan of the log.** -/
theorem Logged.range_is_bruteForce {g : Group} {start : String} (ordered : g.lo ≤ g.hi) (bound : g.hi ≤ n)
    (range : ∀ i, i < n → (g.lo ≤ i ∧ i < g.hi ↔ getBytes start <+: text i)) :
    (g.range.mergeSort (before s)).map (fun i => (getString (s.bytes i), s.countAt i)) =
      bruteForce counts start := by
  have inside {i : Nat} (mem : i ∈ g.range) : i < n :=
    ((Group.mem_range ordered).mp mem).2.trans_le bound
  have scan : Ranking.Ranks getBytes
      ((queries counts).filter fun q => decide (getBytes start <+: getBytes q)) (totalOf counts)
      (bruteForce counts start) := by
    apply Ranking.Ranks.of_mergeSort (List.Perm.refl _)
    intro a b
    rw [decide_eq_true_eq, Ranking.Before]
  have trie : Ranking.Ranks getBytes (g.range.map fun i => getString (text i)) (totalOf counts)
      ((g.range.mergeSort (before s)).map fun i => (getString (s.bytes i), s.countAt i)) := by
    constructor
    · refine ((List.mergeSort_perm _ _).map _).trans (List.Perm.of_eq ?_)
      rw [List.map_map]
      apply List.map_congr_left
      intro i mem
      have count := logged.count i (inside mem) _ (logged.name (inside mem)).2
      rw [logged.holds.bytes (inside mem), count, Function.comp_apply]
    · rw [List.pairwise_map]
      refine (List.Pairwise.and_mem.mp (BestK.sorted (before_linear s) g.range)).imp ?_
      rintro i j ⟨i_mem, j_mem, le⟩
      have i_in := inside ((List.mergeSort_perm _ _).mem_iff.mp i_mem)
      have j_in := inside ((List.mergeSort_perm _ _).mem_iff.mp j_mem)
      rw [before] at le
      split_ifs at le with counts_differ
      · exact .inl (of_decide_eq_true le)
      · refine .inr ⟨not_not.mp counts_differ, ?_⟩
        rw [logged.holds.bytes i_in, logged.holds.bytes j_in, (logged.name i_in).2,
          (logged.name j_in).2]
        rcases (of_decide_eq_true le).lt_or_eq with lt | same
        · exact (logged.sorted i j lt j_in).le
        · rw [same]
  apply trie.unique scan ?_ (fun _ _ => rfl) fun q _ q' _ same => getBytes_injective same
  rw [List.perm_ext_iff_of_nodup]
  · intro q
    rw [List.mem_map, List.mem_filter, decide_eq_true_eq]
    constructor
    · rintro ⟨i, mem, rfl⟩
      obtain ⟨listed, bytes⟩ := logged.name (inside mem)
      refine ⟨listed, ?_⟩
      rw [bytes]
      exact (range i (inside mem)).mp ((Group.mem_range ordered).mp mem)
    · rintro ⟨mem, starts⟩
      obtain ⟨i, i_in, same⟩ := (logged.listed (getBytes q)).mpr ⟨q, mem, rfl⟩
      refine ⟨i, (Group.mem_range ordered).mpr ((range i i_in).mpr (same ▸ starts)), ?_⟩
      rw [same, getString_getBytes]
  · refine List.Nodup.map_on ?_ List.nodup_range'
    intro i i_mem j j_mem same
    apply logged.text_injective (inside i_mem) (inside j_mem)
    rw [← (logged.name (inside i_mem)).2, ← (logged.name (inside j_mem)).2, same]
  · exact (List.nodup_dedup _).filter _

/-- No query has the prefix. -/
theorem Logged.bruteForce_eq_nil {start : String} (absent : ∀ i, i < n → ¬ getBytes start <+: text i) :
    bruteForce counts start = [] := by
  have empty := @Logged.range_is_bruteForce counts s n text logged ⟨0, 0, 0⟩ start le_rfl (Nat.zero_le n)
    (fun i inside => ⟨fun impossible => absurd impossible.2 (Nat.not_lt_zero i),
      fun starts => absurd starts (absent i inside)⟩)
  rw [← empty, Group.range, Nat.sub_self, List.range'_zero, List.mergeSort_nil, List.map_nil]

theorem lookup_eq {t : Trie} {maxK : Nat} (strings : t.strings = s) (builder : t.builder = buildRoot s maxK)
    (max : t.maxK = maxK) (start : String) {k : Int} (nonneg : 0 ≤ k) :
    t.lookup start k = .ok ((bruteForce counts start).take (min k maxK).toNat) := by
  obtain ⟨span, trie⟩ := @buildRoot_ok s n text maxK logged.holds logged.sorted
  rw [← builder] at trie
  rw [Trie.lookup, max, if_neg (by omega)]
  split_ifs with nothing
  · congr 1
    rcases nothing with le | empty
    · have zero : (min k maxK).toNat = 0 := by omega
      rw [zero, List.take_zero]
    · rw [strings, logged.holds.size] at empty
      rw [logged.bruteForce_eq_nil fun i inside => by omega, List.take_nil]
  · have found := @findNode_range s n text maxK t span logged.holds logged.sorted strings trie
      (getBytes start).length 0 [] (getBytes start) le_rfl trie.root
      (fun i inside => by
        rw [trie.whole]
        exact ⟨fun _ => List.nil_prefix, fun _ => ⟨Nat.zero_le i, inside⟩⟩)
      (fun _ => by rw [trie.whole]; rfl)
    simp only
    cases node_is : t.findNode (getBytes start).length 0 (getBytes start) with
    | none =>
        rw [node_is] at found
        rw [logged.bruteForce_eq_nil found, List.take_nil]
    | some m =>
        rw [node_is] at found
        obtain ⟨m_in, range⟩ := found
        obtain ⟨ok, p, shares⟩ := trie.node_ok m m_in
        have scan := logged.range_is_bruteForce shares.ordered shares.bound range
        have counted : min k.toNat maxK = (min k (maxK : Int)).toNat := by omega
        simp only [strings]
        rw [ok.top, BestK.best, List.take_take, List.map_take, scan, counted]

theorem countOf_eq {t : Trie} (strings : t.strings = s) (q : String) :
    t.countOf q = totalOf counts q := by
  have size := logged.holds.size
  have ascending : BinarySearch.Ascending
      (fun mid => LexOrder.sequenceCompare (s.bytes mid) (getBytes q)) 0 s.size := by
    intro i j _ lt high le
    rw [size] at high
    simp only [logged.holds.bytes high] at le
    simp only [logged.holds.bytes (lt.trans high), LexOrder.sequenceCompare_eq_lt]
    exact (logged.sorted i j lt high).trans_le (LexOrder.sequenceCompare_ne_gt.mp le)
  rw [Trie.countOf, strings]
  by_cases listed : q ∈ queries counts
  · obtain ⟨i, inside, same⟩ := (logged.listed (getBytes q)).mpr ⟨q, listed, rfl⟩
    have found := BinarySearch.find_complete ascending (le_refl _) (Nat.zero_le i)
      (inside.trans_eq size.symm) (LexOrder.sequenceCompare_eq_eq.mpr
        ((logged.holds.bytes inside).trans same))
    rw [Nat.sub_zero] at found
    simp only [found]
    exact logged.count i inside q same.symm
  · have missing := @BinarySearch.find_eq_none
      (fun mid => LexOrder.sequenceCompare (s.bytes mid) (getBytes q)) s.size 0 s.size (by
        intro i _ high equal
        rw [size] at high
        rw [logged.holds.bytes high, LexOrder.sequenceCompare_eq_eq] at equal
        obtain ⟨q', mem, same⟩ := (logged.listed (getBytes q)).mp ⟨i, high, equal⟩
        exact listed (getBytes_injective same ▸ mem))
    simp only [missing]
    rw [totalOf]
    split_ifs with empty
    · rfl
    · have none_logged : counts.filter (·.1 = q) = [] := by
        rw [List.filter_eq_nil_iff]
        intro e mem same
        apply listed
        rw [queries, List.mem_dedup, List.mem_filter, decide_eq_true_eq]
        exact ⟨of_decide_eq_true same ▸ List.mem_map_of_mem (f := Prod.fst) mem, empty⟩
      rw [none_logged]
      rfl

end Lookup

/-! ## The trie and the scan -/

/-- The trie of a log exists, and answers as the scan of the log does. -/
def AnswersAsScan (sortEntries : List Entry → List Entry) (counts : List (String × Int)) (maxK k : Int) :
    Prop :=
  ∃ t, build? sortEntries counts maxK = .ok t ∧
    (∀ start, t.lookup start k = .ok ((bruteForce counts start).take (min k maxK).toNat)) ∧
    ∀ q, t.countOf q = totalOf counts q

/-- **The trie answers as the scan of the log exactly where `k` is not negative.** -/
theorem lookup_is_brute_force {sortEntries : List Entry → List Entry}
    (sorts : ∀ l, (sortEntries l).Perm l ∧ (sortEntries l).Pairwise fun a b => a.1 ≤ b.1)
    {counts : List (String × Int)} (positive : ∀ e ∈ counts, 0 < e.2) {maxK : Int} (max_pos : 1 ≤ maxK)
    (k : Int) : AnswersAsScan sortEntries counts maxK k ↔ 0 ≤ k := by
  have built : build? sortEntries counts maxK = .ok
      ⟨layout ((sortEntries (counts.filterMap entryOf)).foldl mergeEntry []),
        buildRoot (layout ((sortEntries (counts.filterMap entryOf)).foldl mergeEntry [])) maxK.toNat, maxK⟩ :=
    if_neg (by omega)
  constructor
  · rintro ⟨t, t_is, looked_up, _⟩
    cases t_is.symm.trans built
    by_contra negative
    have := looked_up ""
    rw [Trie.lookup, if_pos (show min k maxK < 0 by omega)] at this
    cases this
  · intro nonneg
    obtain ⟨perm, sorted⟩ := sorts (counts.filterMap entryOf)
    have logged := logged_layout positive perm sorted
    have max_nat : ((maxK.toNat : Nat) : Int) = maxK := Int.toNat_of_nonneg (by omega)
    refine ⟨_, built, ?_, fun q => countOf_eq logged rfl q⟩
    intro start
    rw [lookup_eq logged rfl rfl max_nat.symm start nonneg, max_nat]

/-- A sort of the entries by bytes. -/
def sortByBytes (l : List Entry) : List Entry := l.mergeSort fun a b => decide (a.1 ≤ b.1)

theorem sortByBytes_sorts (l : List Entry) :
    (sortByBytes l).Perm l ∧ (sortByBytes l).Pairwise fun a b => a.1 ≤ b.1 := by
  refine ⟨List.mergeSort_perm l _, ?_⟩
  have sorted := @List.pairwise_mergeSort Entry (fun a b => decide (a.1 ≤ b.1))
    (fun a b c first second => by
      rw [decide_eq_true_eq] at first second ⊢
      exact first.trans second)
    (fun a b => by
      rw [Bool.or_eq_true, decide_eq_true_eq, decide_eq_true_eq]
      exact le_total _ _) l
  exact sorted.imp of_decide_eq_true

theorem lookup_is_brute_force_three :
    AnswersAsScan sortByBytes [("how", 2), ("hello", 1), ("how", 3)] 10 5 ↔ (0 : Int) ≤ 5 :=
  lookup_is_brute_force sortByBytes_sorts (by decide) (by decide) 5

/-- With a negative `k` the capacity of the result is negative, before `k ≤ 0` is looked at. -/
theorem lookup_throws : ¬ AnswersAsScan sortByBytes [("how", 2)] 10 (-1) := by
  rintro ⟨t, built, looked_up, _⟩
  have max : t.maxK = 10 := by
    cases built
    rfl
  have thrown : t.lookup "" (-1) = .error "capacity" := by
    rw [Trie.lookup, max, if_pos (by decide)]
  cases thrown.symm.trans (looked_up "")

end HybridSearch.Broker.CompletionTrie
