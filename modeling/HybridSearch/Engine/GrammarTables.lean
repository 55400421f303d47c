/-
# Engine.GrammarTables -- the table the tokenizer runs accepts the grammar

The worklist of `closure` finds what silent edges lead to, and a set of the
construction stands for the states its words lead to.  So the finished table
(`Subset.run`, `Subset.accepts`) accepts a word of classes exactly when the word
is in the language of the tree, and an entry is missing exactly when no state
goes on.
-/
import HybridSearch.Engine.GrammarAutomaton

namespace HybridSearch.Engine

open HybridSearch.Theory HybridSearch.Theory.Thompson

set_option autoImplicit false

variable {masks : List Nat}

namespace Nfa

/-! ## The worklist of `closure` -/

/-- **The worklist's invariant**: what is in the set is led to from the start, and its
silent edges stay in it, but for what is on the stack and what is still to `visit`. -/
structure Closing (nfa : Nfa) (masks : List Nat) (start : List Nat) (todo : Nat → Nat → Prop)
    (work : Worklist) : Prop where
  seen : ∀ x, work.seen x = true ↔ x ∈ work.set
  stacked : ∀ x ∈ work.stack, x ∈ work.set
  started : ∀ x ∈ start, x ∈ work.set
  sound : ∀ x ∈ work.set, x ∈ (nfa.graph masks).hull {y | y ∈ start}
  followed : ∀ x ∈ work.set, ∀ y ∈ (nfa.state x).eps, x ∈ work.stack ∨ y ∈ work.set ∨ todo x y
  nodup : work.set.Nodup
  inside : ∀ x ∈ work.set, x < nfa.st.length

/-- What is left of the loop: the stack, and the states it has not put there. -/
def left (nfa : Nfa) (work : Worklist) : Nat :=
  work.stack.length + (nfa.st.length - work.set.length)

variable {nfa : Nfa} {start : List Nat} {work : Worklist}

theorem Closing.length_le {todo : Nat → Nat → Prop} (closing : Closing nfa masks start todo work) :
    work.set.length ≤ nfa.st.length := by
  have sub : work.set ⊆ List.range nfa.st.length := fun x mem =>
    List.mem_range.mpr (closing.inside x mem)
  simpa using (closing.nodup.subperm sub).length_le

theorem hull_eps {S : Set Nat} {x y : Nat} (held : x ∈ (nfa.graph masks).hull S)
    (silent : y ∈ (nfa.state x).eps) : y ∈ (nfa.graph masks).hull S := by
  obtain ⟨z, inside, path⟩ := held
  have edge : (nfa.graph masks).Path x [] y := .eps silent (.nil y)
  exact ⟨z, inside, by simpa using path.append edge⟩

/-- **One target of a state**: `visit` follows the edge. -/
theorem Closing.visit {s t : Nat} {ts : List Nat} (target : t ∈ (nfa.state s).eps)
    (valid : t < nfa.st.length) (held : s ∈ work.set)
    (closing : Closing nfa masks start (fun x y => x = s ∧ y ∈ t :: ts) work) :
    Closing nfa masks start (fun x y => x = s ∧ y ∈ ts) (visit work t) ∧
      s ∈ (visit work t).set ∧ nfa.left (Nfa.visit work t) = nfa.left work := by
  unfold Nfa.visit
  split
  · rename_i old
    refine ⟨⟨closing.seen, closing.stacked, closing.started, closing.sound, ?_, closing.nodup,
      closing.inside⟩, held, rfl⟩
    intro x mem y silent
    rcases closing.followed x mem y silent with onStack | found | ⟨rfl, here | later⟩
    · exact .inl onStack
    · exact .inr (.inl found)
    · exact .inr (.inl ((closing.seen t).mp old))
    · exact .inr (.inr ⟨rfl, by assumption⟩)
  · rename_i fresh
    have notMem : t ∉ work.set := fun mem => fresh ((closing.seen t).mpr mem)
    have closing' : Closing nfa masks start (fun x y => x = s ∧ y ∈ ts)
        ⟨Function.update work.seen t true, t :: work.stack, work.set ++ [t]⟩ := by
      refine ⟨?_, ?_, ?_, ?_, ?_, ?_, ?_⟩
      · intro x
        by_cases same : x = t
        · simp [same]
        · simp [same, closing.seen]
      · intro x mem
        rcases List.mem_cons.mp mem with rfl | mem
        · simp
        · exact List.mem_append_left _ (closing.stacked x mem)
      · exact fun x mem => List.mem_append_left _ (closing.started x mem)
      · intro x mem
        rcases List.mem_append.mp mem with mem | mem
        · exact closing.sound x mem
        · obtain rfl := List.mem_singleton.mp mem
          exact hull_eps (closing.sound s held) target
      · intro x mem y silent
        rcases List.mem_append.mp mem with mem | mem
        · rcases closing.followed x mem y silent with onStack | found | ⟨rfl, here | later⟩
          · exact .inl (List.mem_cons_of_mem _ onStack)
          · exact .inr (.inl (List.mem_append_left _ found))
          · exact .inr (.inl (by simp))
          · exact .inr (.inr ⟨rfl, by assumption⟩)
        · exact .inl (List.mem_cons.mpr (.inl (List.mem_singleton.mp mem)))
      · refine List.nodup_append.mpr ⟨closing.nodup, List.nodup_singleton t, ?_⟩
        rintro x mem y here rfl
        exact notMem (List.mem_singleton.mp here ▸ mem)
      · intro x mem
        rcases List.mem_append.mp mem with mem | mem
        · exact closing.inside x mem
        · exact (List.mem_singleton.mp mem) ▸ valid
    refine ⟨closing', List.mem_append_left _ held, ?_⟩
    have room := closing'.length_le
    simp only [List.length_append, List.length_cons, List.length_nil] at room
    simp only [left, List.length_cons, List.length_append, List.length_nil]
    omega

/-- **The inner loop**: all silent edges of a state. -/
theorem Closing.visits {s : Nat} {ts : List Nat} (targets : ∀ t ∈ ts, t ∈ (nfa.state s).eps)
    (valid : ∀ t ∈ ts, t < nfa.st.length) (held : s ∈ work.set)
    (closing : Closing nfa masks start (fun x y => x = s ∧ y ∈ ts) work) :
    Closing nfa masks start (fun _ _ => False) (ts.foldl Nfa.visit work) ∧
      nfa.left (ts.foldl Nfa.visit work) = nfa.left work := by
  induction ts generalizing work with
  | nil => exact ⟨{ closing with followed := by simpa using closing.followed }, rfl⟩
  | cons t ts ih =>
      obtain ⟨target, targets⟩ := List.forall_mem_cons.mp targets
      obtain ⟨here, valid⟩ := List.forall_mem_cons.mp valid
      obtain ⟨closing, held, same⟩ := closing.visit target here held
      obtain ⟨closing, rest⟩ := ih targets valid held closing
      exact ⟨closing, rest.trans same⟩

/-- Every edge of the automaton stays in it. -/
def Inside (nfa : Nfa) : Prop := ∀ x, ∀ y ∈ (nfa.state x).eps, y < nfa.st.length

/-- **The outer loop** ends with an empty stack. -/
theorem Closing.loop (valid : nfa.Inside) {fuel : Nat}
    (closing : Closing nfa masks start (fun _ _ => False) work) (enough : nfa.left work ≤ fuel) :
    Closing nfa masks start (fun _ _ => False) (nfa.closureLoop fuel work) ∧
      (nfa.closureLoop fuel work).stack = [] := by
  induction fuel generalizing work with
  | zero =>
      refine ⟨closing, List.length_eq_zero_iff.mp ?_⟩
      simp only [left] at enough
      simp only [closureLoop]
      omega
  | succ fuel ih =>
      unfold closureLoop
      split
      · rename_i empty
        exact ⟨closing, empty⟩
      · rename_i s stack top
        have held : s ∈ work.set := closing.stacked s (top ▸ List.mem_cons_self)
        have popped : Closing nfa masks start (fun x y => x = s ∧ y ∈ (nfa.state s).eps)
            { work with stack } := by
          refine { closing with stacked := fun x mem => ?_, followed := fun x mem y silent => ?_ }
          · exact closing.stacked x (top ▸ List.mem_cons_of_mem _ mem)
          · rcases closing.followed x mem y silent with onStack | found | no
            · rw [top] at onStack
              rcases List.mem_cons.mp onStack with rfl | onStack
              · exact .inr (.inr ⟨rfl, silent⟩)
              · exact .inl onStack
            · exact .inr (.inl found)
            · exact no.elim
        obtain ⟨done, same⟩ := popped.visits (fun _ mem => mem) (valid s) (by exact held)
        refine ih done ?_
        rw [same]
        simp only [left, top, List.length_cons] at enough
        simp only [left]
        omega

/-- **The worklist** runs until its set is closed. -/
theorem closing_closure (masks : List Nat) (valid : nfa.Inside) (nodup : start.Nodup)
    (inside : ∀ x ∈ start, x < nfa.st.length) : ∃ work, work.stack = [] ∧
      Closing nfa masks start (fun _ _ => False) work ∧ nfa.closure start = work.set.mergeSort := by
  have begun : Closing nfa masks start (fun _ _ => False)
      ⟨fun i => decide (i ∈ start), start.reverse, start⟩ := by
    refine ⟨by simp, by simp, fun _ mem => mem, fun x mem => ⟨x, mem, .nil x⟩, ?_, nodup, inside⟩
    exact fun x mem _ _ => .inl (List.mem_reverse.mpr mem)
  have enough : nfa.left ⟨fun i => decide (i ∈ start), start.reverse, start⟩ ≤
      nfa.st.length + start.length := by
    simp only [left, List.length_reverse]
    omega
  obtain ⟨done, empty⟩ := begun.loop valid enough
  exact ⟨_, empty, done, rfl⟩

/-- **`closure`** finds what silent edges lead to. -/
theorem mem_closure (valid : nfa.Inside) (nodup : start.Nodup)
    (inside : ∀ x ∈ start, x < nfa.st.length) {x : Nat} :
    x ∈ nfa.closure start ↔ x ∈ (nfa.graph masks).hull {y | y ∈ start} := by
  obtain ⟨work, empty, done, is⟩ := closing_closure masks valid nodup inside
  rw [is, List.mem_mergeSort]
  constructor
  · exact done.sound x
  · rintro ⟨y, mem, path⟩
    refine path.silent (fun x y silent held => ?_) (done.started y mem)
    rcases done.followed x held y silent with onStack | found | no
    · rw [empty] at onStack
      exact absurd onStack List.not_mem_nil
    · exact found
    · exact no.elim

theorem nodup_closure (valid : nfa.Inside) (nodup : start.Nodup)
    (inside : ∀ x ∈ start, x < nfa.st.length) : (nfa.closure start).Nodup := by
  obtain ⟨work, -, done, is⟩ := closing_closure [] valid nodup inside
  rw [is, (List.mergeSort_perm _ _).nodup_iff]
  exact done.nodup

theorem closure_lt (valid : nfa.Inside) (nodup : start.Nodup)
    (inside : ∀ x ∈ start, x < nfa.st.length) : ∀ x ∈ nfa.closure start, x < nfa.st.length := by
  obtain ⟨work, -, done, is⟩ := closing_closure [] valid nodup inside
  intro x mem
  rw [is, List.mem_mergeSort] at mem
  exact done.inside x mem

/-- An automaton all of whose edges stay inside. -/
structure Sound (nfa : Nfa) (masks : List Nat) : Prop where
  valid : nfa.Valid
  inside : nfa.Inside
  target : ∀ x c y, (nfa.graph masks).edge x c y → y < nfa.st.length

/-- A set of the construction: states of the automaton, with all that silent edges add. -/
structure Full (nfa : Nfa) (masks : List Nat) (set : List Nat) : Prop where
  inside : ∀ x ∈ set, x < nfa.st.length
  hull : (nfa.graph masks).hull {x | x ∈ set} = {x | x ∈ set}
  nodup : set.Nodup
  sorted : set.SortedLE

/-- Two sets with the same states are one. -/
theorem Full.ext {set set' : List Nat} (full : nfa.Full masks set) (full' : nfa.Full masks set')
    (same : {x | x ∈ set} = {x | x ∈ set'}) : set = set' :=
  ((List.perm_ext_iff_of_nodup full.nodup full'.nodup).mpr fun x =>
    Set.ext_iff.mp same x).eq_of_sortedLE full.sorted full'.sorted

theorem full_closure (sound : nfa.Sound masks) (nodup : start.Nodup)
    (inside : ∀ x ∈ start, x < nfa.st.length) :
    nfa.Full masks (nfa.closure start) ∧
      {x | x ∈ nfa.closure start} = (nfa.graph masks).hull {x | x ∈ start} := by
  have same : {x | x ∈ nfa.closure start} = (nfa.graph masks).hull {x | x ∈ start} :=
    Set.ext fun x => mem_closure sound.inside nodup inside
  refine ⟨⟨closure_lt sound.inside nodup inside, ?_, nodup_closure sound.inside nodup inside, ?_⟩,
    same⟩
  · rw [same, Thompson.Graph.hull_hull]
  · exact List.sortedLE_mergeSort

/-- **The moves of a class** are the edges. -/
theorem mem_moves (sound : nfa.Sound masks) {set : List Nat} {c : Nat} (known : c < masks.length)
    {y : Nat} : y ∈ nfa.moves masks set c ↔ y ∈ (nfa.graph masks).after {x | x ∈ set} c := by
  rw [moves, List.mem_dedup, List.mem_mergeSort, List.mem_flatMap]
  refine exists_congr fun x => and_congr_right fun _ => ?_
  constructor
  · intro found
    split at found
    · exact absurd found List.not_mem_nil
    · rename_i p named
      split at found
      · rename_i holds
        have pred := List.getElem?_eq_getElem (sound.valid x p named)
        have mask := List.getElem?_eq_getElem known
        rw [List.getD_eq_getElem?_getD, List.getD_eq_getElem?_getD, pred, mask] at holds
        exact ⟨p, _, _, named, pred, mask, holds, Option.mem_toList.mp found⟩
      · exact absurd found List.not_mem_nil
  · rintro ⟨p, pred, m, named, found, mask, holds, next⟩
    simp only [named, List.getD_eq_getElem?_getD, found, mask, Option.getD_some, holds, if_true,
      Option.mem_toList]
    exact next

theorem moves_lt (sound : nfa.Sound masks) {set : List Nat} {c : Nat} (known : c < masks.length) :
    ∀ y ∈ nfa.moves masks set c, y < nfa.st.length := by
  intro y mem
  obtain ⟨x, _, edge⟩ := (mem_moves sound known).mp mem
  exact sound.target x c y edge

theorem nodup_moves (nfa : Nfa) (set : List Nat) (c : Nat) : (nfa.moves masks set c).Nodup :=
  List.nodup_dedup _

end Nfa

/-! ## The table -/

theorem getD_resize {α : Type} {v : List α} {n : Nat} (fill : α) (grows : v.length ≤ n) (i : Nat) :
    (resize v n fill).getD i fill = v.getD i fill := by
  rw [resize, List.take_of_length_le grows]
  rw [List.getD_eq_getElem?_getD, List.getD_eq_getElem?_getD]
  rcases lt_or_ge i v.length with inside | outside
  · rw [List.getElem?_append_left inside]
  · rw [List.getElem?_append_right outside, List.getElem?_replicate, List.getElem?_eq_none outside]
    split <;> rfl

theorem length_resize {α : Type} (v : List α) (n : Nat) (fill : α) :
    (resize v n fill).length = n := by
  simp only [resize, List.length_append, List.length_take, List.length_replicate]
  omega

namespace Subset

variable {nfa : Nfa} {start accept : Nat}

/-- The next state, if the entry is not negative. -/
def next (sub : Subset) (nclasses state c : Nat) : Option Nat :=
  let ns := sub.trans.getD (state * nclasses + c) (-1)
  if ns < 0 then none else some ns.toNat

/-- The states one after the other, from a state. -/
def run (sub : Subset) (nclasses : Nat) : List Nat → Nat → Option Nat
  | [], state => some state
  | c :: rest, state => (sub.next nclasses state c).bind (sub.run nclasses rest)

def accepts (sub : Subset) (nclasses : Nat) (word : List Nat) : Bool :=
  match sub.run nclasses word 0 with
  | none => false
  | some state => sub.accept.getD state 0 ≠ 0

/-- A finished entry: missing where no state goes on, or the number of the set led to. -/
def Entry (nfa : Nfa) (masks : List Nat) (sub : Subset) (i c : Nat) : Prop :=
  ∃ set, sub.sets[i]? = some set ∧
    ((nfa.moves masks set c = [] ∧ sub.trans.getD (i * masks.length + c) (-1) = -1) ∨
      (nfa.moves masks set c ≠ [] ∧ ∃ id : Nat,
        sub.trans.getD (i * masks.length + c) (-1) = id ∧
          sub.sets[id]? = some (nfa.closure (nfa.moves masks set c))))

/-- A set of the construction holds the states a word of classes leads to. -/
def Reached (nfa : Nfa) (masks : List Nat) (start : Nat) (set : List Nat) : Prop :=
  ∃ word : List Nat, (∀ c ∈ word, c < masks.length) ∧
    {x | x ∈ set} = (nfa.graph masks).reached {start} word

/-- **The construction's invariant**: the entries before place `n` are finished, and the
others are missing. -/
structure Filled (nfa : Nfa) (masks : List Nat) (start n : Nat) (sub : Subset) : Prop where
  first : sub.sets[0]? = some (nfa.closure [start])
  full : ∀ set ∈ sub.sets, nfa.Full masks set
  reached : ∀ set ∈ sub.sets, Reached nfa masks start set
  distinct : sub.sets.Nodup
  entries : ∀ i c, c < masks.length → i * masks.length + c < n → Entry nfa masks sub i c
  later : ∀ j, n ≤ j → sub.trans.getD j (-1) = -1
  bounded : sub.sets.length ≤ 32001

/-- What the construction throws. -/
abbrev tooLarge : Fault := .thrown "tokenizer: DFA too large"

/-- The words of an automaton lead to more sets of states than a table may have. -/
def TooMany (nfa : Nfa) (masks : List Nat) (start : Nat) : Prop :=
  ∃ words : List (List Nat), 32001 < words.length ∧
    (∀ word ∈ words, ∀ c ∈ word, c < masks.length) ∧
    (words.map ((nfa.graph masks).reached {start})).Nodup

/-- Sets of the construction that differ hold different states. -/
theorem tooMany_of_reached {sets : List (List Nat)} (full : ∀ set ∈ sets, nfa.Full masks set)
    (reached : ∀ set ∈ sets, Reached nfa masks start set) (distinct : sets.Nodup)
    (many : 32001 < sets.length) : TooMany nfa masks start := by
  choose! word known leads using reached
  refine ⟨sets.map word, by simpa using many, ?_, ?_⟩
  · intro w mem
    obtain ⟨set, held, rfl⟩ := List.mem_map.mp mem
    exact known set held
  · rw [List.map_map]
    refine distinct.map_on fun set held set' held' same => ?_
    apply (full set held).ext (full set' held')
    rw [leads set held, leads set' held']
    exact same

/-- A part of the construction gives what holds, or there are too many sets. -/
def Ends (nfa : Nfa) (masks : List Nat) (start : Nat) (holds : Subset → Prop)
    (result : Except Fault Subset) : Prop :=
  (∃ sub, result = .ok sub ∧ holds sub) ∨ (result = .error tooLarge ∧ TooMany nfa masks start)

theorem Ends.bind {P Q : Subset → Prop} {result : Except Fault Subset}
    {rest : Subset → Except Fault Subset} (ends : Ends nfa masks start P result)
    (next : ∀ sub, P sub → Ends nfa masks start Q (rest sub)) :
    Ends nfa masks start Q (result >>= rest) := by
  rcases ends with ⟨sub, rfl, holds⟩ | ⟨rfl, many⟩
  · exact next sub holds
  · exact .inr ⟨rfl, many⟩

/-- What an entry says stays, as sets are added and other entries written. -/
theorem Entry.mono {sub sub' : Subset} {i c : Nat} (entry : Entry nfa masks sub i c)
    (sets : sub.sets <+: sub'.sets)
    (same : sub'.trans.getD (i * masks.length + c) (-1) =
      sub.trans.getD (i * masks.length + c) (-1)) : Entry nfa masks sub' i c := by
  obtain ⟨more, sets⟩ := sets
  have kept : ∀ {k : Nat} {set : List Nat}, sub.sets[k]? = some set →
      sub'.sets[k]? = some set := by
    intro k set found
    have inside := (List.getElem?_eq_some_iff.mp found).1
    rw [← sets, List.getElem?_append_left inside, found]
  obtain ⟨set, found, cases⟩ := entry
  refine ⟨set, kept found, ?_⟩
  rw [same]
  rcases cases with missing | ⟨some, id, value, target⟩
  · exact .inl missing
  · exact .inr ⟨some, id, value, kept target⟩

/-- A place of the table is of one state and one class. -/
theorem place_inj {i c i' c' n : Nat} (small : c < n) (small' : c' < n)
    (same : i * n + c = i' * n + c') : i = i' ∧ c = c' := by
  have left : (i * n + c) / n = i := by
    rw [Nat.mul_comm, Nat.mul_add_div (by omega), Nat.div_eq_of_lt small, Nat.add_zero]
  have right : (i' * n + c') / n = i' := by
    rw [Nat.mul_comm, Nat.mul_add_div (by omega), Nat.div_eq_of_lt small', Nat.add_zero]
  have rows : i = i' := by rw [← left, same, right]
  subst rows
  exact ⟨rfl, by omega⟩

/-- Writing the next entry. -/
theorem Filled.write {sub : Subset} {d c id : Nat} {cur : List Nat} {sets : List (List Nat)}
    (filled : Filled nfa masks start (d * masks.length + c) sub) (known : c < masks.length)
    (found : sub.sets[d]? = some cur) (room : d * masks.length + c < sub.trans.length)
    (moves : nfa.moves masks cur c ≠ []) (grows : sub.sets <+: sets)
    (full : ∀ set ∈ sets, nfa.Full masks set)
    (reached : ∀ set ∈ sets, Reached nfa masks start set) (distinct : sets.Nodup)
    (bounded : sets.length ≤ 32001)
    (target : sets[id]? = some (nfa.closure (nfa.moves masks cur c))) :
    Filled nfa masks start (d * masks.length + c + 1)
      { sub with sets, trans := sub.trans.set (d * masks.length + c) id } := by
  have kept : ∀ {k : Nat} {set : List Nat}, sub.sets[k]? = some set → sets[k]? = some set := by
    intro k set found
    obtain ⟨more, rfl⟩ := grows
    rw [List.getElem?_append_left (List.getElem?_eq_some_iff.mp found).1, found]
  have other : ∀ j, j ≠ d * masks.length + c →
      (sub.trans.set (d * masks.length + c) id).getD j (-1) = sub.trans.getD j (-1) := by
    intro j different
    rw [List.getD_eq_getElem?_getD, List.getElem?_set_ne (Ne.symm different),
      List.getD_eq_getElem?_getD]
  refine ⟨kept filled.first, full, reached, distinct, fun i c' known' before => ?_, fun j large => ?_, bounded⟩
  · rcases Nat.lt_succ_iff_lt_or_eq.mp before with earlier | here
    · exact (filled.entries i c' known' earlier).mono grows (other _ (by omega))
    · obtain ⟨rfl, rfl⟩ := place_inj known' known here
      refine ⟨cur, kept found, .inr ⟨moves, id, ?_, target⟩⟩
      rw [List.getD_eq_getElem?_getD, List.getElem?_set_self room]
      rfl
  · rw [other j (by omega)]
    exact filled.later j (by omega)

/-- A set the construction adds is reached by one class more. -/
theorem Filled.closure {sub : Subset} {n d c : Nat} {cur : List Nat}
    (filled : Filled nfa masks start n sub) (sound : nfa.Sound masks) (known : c < masks.length)
    (found : sub.sets[d]? = some cur) :
    Reached nfa masks start (nfa.closure (nfa.moves masks cur c)) := by
  obtain ⟨word, classes, leads⟩ := filled.reached cur (List.mem_of_getElem? found)
  refine ⟨word ++ [c], ?_, ?_⟩
  · exact List.forall_mem_append.mpr ⟨classes, List.forall_mem_singleton.mpr known⟩
  · have states : {x | x ∈ nfa.moves masks cur c} = (nfa.graph masks).after {x | x ∈ cur} c :=
      Set.ext fun y => Nfa.mem_moves sound known
    rw [(Nfa.full_closure sound (nfa.nodup_moves cur c) (Nfa.moves_lt sound known)).2, states,
      Thompson.Graph.reached_append, leads]

/-- **One entry** of the table. -/
theorem stepClass_ends (sound : nfa.Sound masks) {sub : Subset} {d c : Nat} {cur : List Nat}
    (filled : Filled nfa masks start (d * masks.length + c) sub) (known : c < masks.length)
    (found : sub.sets[d]? = some cur) (room : d * masks.length + c < sub.trans.length) :
    Ends nfa masks start (fun sub' => Filled nfa masks start (d * masks.length + c + 1) sub' ∧
      sub.sets <+: sub'.sets ∧ sub'.trans.length = sub.trans.length ∧ sub'.accept = sub.accept)
      (stepClass nfa masks d cur sub c) := by
  unfold stepClass
  dsimp only
  split
  · rename_i none
    refine .inl ⟨sub, rfl, { filled with
      entries := fun i c' known' before => ?_
      later := fun j large => filled.later j (by omega) }, List.prefix_rfl, rfl, rfl⟩
    rcases Nat.lt_succ_iff_lt_or_eq.mp before with earlier | here
    · exact filled.entries i c' known' earlier
    · obtain ⟨rfl, rfl⟩ := place_inj known' known here
      exact ⟨cur, found, .inl ⟨none, filled.later _ le_rfl⟩⟩
  · rename_i moves
    split
    · rename_i id old
      have target : sub.sets[id]? = some (nfa.closure (nfa.moves masks cur c)) := by
        obtain ⟨inside, is, -⟩ := List.idxOf?_eq_some_iff.mp old
        rw [List.getElem?_eq_getElem inside, is]
      exact .inl ⟨_, rfl, filled.write known found room moves List.prefix_rfl filled.full
        filled.reached filled.distinct filled.bounded target, List.prefix_rfl, by simp, rfl⟩
    · rename_i fresh
      have added := filled.closure sound known found
      have closed := (Nfa.full_closure sound (nfa.nodup_moves cur c) (Nfa.moves_lt sound known)).1
      have full : ∀ set ∈ sub.sets ++ [nfa.closure (nfa.moves masks cur c)],
          nfa.Full masks set :=
        List.forall_mem_append.mpr ⟨filled.full, List.forall_mem_singleton.mpr closed⟩
      have reached : ∀ set ∈ sub.sets ++ [nfa.closure (nfa.moves masks cur c)],
          Reached nfa masks start set :=
        List.forall_mem_append.mpr ⟨filled.reached, List.forall_mem_singleton.mpr added⟩
      have distinct : (sub.sets ++ [nfa.closure (nfa.moves masks cur c)]).Nodup := by
        refine List.nodup_append.mpr ⟨filled.distinct, List.nodup_singleton _, ?_⟩
        rintro set mem set' here rfl
        exact List.idxOf?_eq_none_iff.mp fresh (List.mem_singleton.mp here ▸ mem)
      split
      · rename_i large
        exact .inr ⟨rfl, tooMany_of_reached full reached distinct (by simp; omega)⟩
      · exact .inl ⟨_, rfl, filled.write known found room moves (List.prefix_append _ _) full
          reached distinct (by simp; omega) (by simp), List.prefix_append _ _, by simp, rfl⟩

/-- **A row** of the table, class by class. -/
theorem row_ends (sound : nfa.Sound masks) {sub : Subset} {d k : Nat} {cur : List Nat}
    (filled : Filled nfa masks start (d * masks.length) sub) (classes : k ≤ masks.length)
    (found : sub.sets[d]? = some cur)
    (room : d * masks.length + masks.length ≤ sub.trans.length) :
    Ends nfa masks start (fun sub' => Filled nfa masks start (d * masks.length + k) sub' ∧
      sub.sets <+: sub'.sets ∧ sub'.trans.length = sub.trans.length ∧ sub'.accept = sub.accept)
      ((List.range k).foldlM (stepClass nfa masks d cur) sub) := by
  induction k with
  | zero => exact .inl ⟨sub, rfl, filled, List.prefix_rfl, rfl, rfl⟩
  | succ k ih =>
      rw [List.range_succ, List.foldlM_append]
      refine (ih (by omega)).bind ?_
      rintro sub' ⟨filled', grows, size, same⟩
      have found' : sub'.sets[d]? = some cur := by
        obtain ⟨more, sets⟩ := grows
        rw [← sets, List.getElem?_append_left (List.getElem?_eq_some_iff.mp found).1, found]
      have step := stepClass_ends sound filled' (by omega) found' (by omega)
      rw [List.foldlM_cons]
      refine step.bind ?_
      rintro sub'' ⟨filled'', grows', size', same'⟩
      exact .inl ⟨sub'', rfl, filled'', grows.trans grows', size'.trans size, same'.trans same⟩

/-- What is accepted, set by set. -/
def marks (accept : Nat) (sets : List (List Nat)) : List Nat :=
  sets.map fun set => if accept ∈ set then 1 else 0

/-- The finished tables. -/
structure Finished (nfa : Nfa) (masks : List Nat) (start accept : Nat) (sub : Subset) : Prop where
  filled : Filled nfa masks start (sub.sets.length * masks.length) sub
  size : sub.trans.length = sub.sets.length * masks.length
  marked : sub.accept = marks accept sub.sets

theorem getD_resize_of_lt {α : Type} (v : List α) {n i : Nat} (fill : α) (inside : i < n) :
    (resize v n fill).getD i fill = v.getD i fill := by
  rcases le_total v.length n with grows | shrinks
  · exact getD_resize fill grows i
  · rw [resize, Nat.sub_eq_zero_of_le shrinks, List.replicate_zero, List.append_nil,
      List.getD_eq_getElem?_getD, List.getElem?_take_of_lt inside, List.getD_eq_getElem?_getD]

/-- **The construction**, set by set: it finishes the tables, or they are too large. -/
theorem construct_ends (sound : nfa.Sound masks) {fuel d : Nat} {sub : Subset}
    (filled : Filled nfa masks start (d * masks.length) sub) (reached : d ≤ sub.sets.length)
    (room : sub.trans.length ≤ sub.sets.length * masks.length + masks.length)
    (marked : sub.accept = marks accept (sub.sets.take d)) (enough : 32002 ≤ fuel + d) :
    Ends nfa masks start (Finished nfa masks start accept) (construct nfa masks accept fuel d sub) := by
  induction fuel generalizing d sub with
  | zero =>
      have := filled.bounded
      omega
  | succ fuel ih =>
      unfold construct
      split
      · rename_i last
        obtain rfl : d = sub.sets.length := le_antisymm reached (List.getElem?_eq_none_iff.mp last)
        refine .inl ⟨_, rfl, { filled with
          entries := fun i c known before => ?_
          later := fun j large => ?_ }, length_resize _ _ _, ?_⟩
        · exact (filled.entries i c known before).mono List.prefix_rfl
            (getD_resize_of_lt _ _ before)
        · rw [List.getD_eq_default _ _ (by rw [length_resize]; exact large)]
        · rw [marked, List.take_length]
      · rename_i cur found
        have inside := (List.getElem?_eq_some_iff.mp found).1
        have wide : Filled nfa masks start (d * masks.length)
            { sub with
              accept := sub.accept ++ [if accept ∈ cur then 1 else 0]
              trans := resize sub.trans (sub.sets.length * masks.length + masks.length) (-1) } := by
          refine { filled with entries := fun i c known before => ?_, later := fun j large => ?_ }
          · exact (filled.entries i c known before).mono List.prefix_rfl (getD_resize _ room _)
          · exact (getD_resize _ room _).trans (filled.later j large)
        have rows : d * masks.length + masks.length ≤
            sub.sets.length * masks.length + masks.length :=
          Nat.add_le_add_right (Nat.mul_le_mul_right _ reached) _
        have row := row_ends sound wide le_rfl found (by rw [length_resize]; exact rows)
        refine row.bind ?_
        rintro sub' ⟨filled', grows, size, same⟩
        have more : sub.sets.length ≤ sub'.sets.length := grows.length_le
        have before : sub'.sets.take d = sub.sets.take d := by
          obtain ⟨further, sets⟩ := grows
          rw [← sets, List.take_append_of_le_length reached]
        have found' : sub'.sets[d]? = some cur := by
          obtain ⟨further, sets⟩ := grows
          rw [← sets, List.getElem?_append_left inside, found]
        refine ih ?_ (by omega) ?_ ?_ (by omega)
        · rw [Nat.succ_mul]
          exact filled'
        · rw [size, length_resize]
          exact Nat.add_le_add_right (Nat.mul_le_mul_right _ more) _
        · rw [same, marked, List.take_add_one, found', before]
          simp [marks]

/-! ## What the tables accept -/

section Finished

variable {sub : Subset} (sound : nfa.Sound masks) (finished : Finished nfa masks start accept sub)

include sound finished

/-- **A missing entry** is one where no state goes on. -/
theorem missing_iff {d c : Nat} {set : List Nat} (found : sub.sets[d]? = some set)
    (known : c < masks.length) : sub.trans[d * masks.length + c]? = some (-1) ↔
      (nfa.graph masks).after {x | x ∈ set} c = ∅ := by
  have inside := (List.getElem?_eq_some_iff.mp found).1
  have place : d * masks.length + c < sub.sets.length * masks.length := by
    have : (d + 1) * masks.length ≤ sub.sets.length * masks.length := Nat.mul_le_mul_right _ inside
    rw [Nat.succ_mul] at this
    omega
  have entry := finished.filled.entries d c known place
  have moved : nfa.moves masks set c = [] ↔ (nfa.graph masks).after {x | x ∈ set} c = ∅ := by
    rw [List.eq_nil_iff_forall_not_mem, Set.eq_empty_iff_forall_notMem]
    exact forall_congr' fun y => not_congr (Nfa.mem_moves sound known)
  obtain ⟨set', found', cases⟩ := entry
  obtain rfl : set = set' := Option.some.inj (found.symm.trans found')
  have held : sub.trans[d * masks.length + c]? =
      some (sub.trans.getD (d * masks.length + c) (-1)) := by
    rw [List.getD_eq_getElem?_getD, List.getElem?_eq_getElem (finished.size ▸ place),
      Option.getD_some]
  rw [held, ← moved, Option.some.injEq]
  rcases cases with ⟨none, missing⟩ | ⟨some, id, value, -⟩
  · simp only [none, missing]
  · simp only [some, value, iff_false]
    omega

/-- **One transition** goes to the set that the edges of a class lead to. -/
theorem next_cases {d c : Nat} {set : List Nat} (found : sub.sets[d]? = some set)
    (known : c < masks.length) :
    (sub.next masks.length d c = none ∧ (nfa.graph masks).after {x | x ∈ set} c = ∅) ∨
    ∃ id set', sub.next masks.length d c = some id ∧ sub.sets[id]? = some set' ∧
      {x | x ∈ set'} = (nfa.graph masks).hull ((nfa.graph masks).after {x | x ∈ set} c) := by
  have inside := (List.getElem?_eq_some_iff.mp found).1
  have place : d * masks.length + c < sub.sets.length * masks.length := by
    have : (d + 1) * masks.length ≤ sub.sets.length * masks.length := Nat.mul_le_mul_right _ inside
    rw [Nat.succ_mul] at this
    omega
  have states : {x | x ∈ nfa.moves masks set c} = (nfa.graph masks).after {x | x ∈ set} c :=
    Set.ext fun y => Nfa.mem_moves sound known
  obtain ⟨set', found', cases⟩ := finished.filled.entries d c known place
  obtain rfl : set = set' := Option.some.inj (found.symm.trans found')
  rcases cases with ⟨none, missing⟩ | ⟨-, id, value, target⟩
  · refine .inl ⟨?_, ?_⟩
    · rw [next, missing]
      rfl
    · rw [← states, none]
      exact Set.eq_empty_of_forall_notMem fun x => List.not_mem_nil
  · refine .inr ⟨id, _, ?_, target, ?_⟩
    · rw [next, value]
      simp
    · rw [(Nfa.full_closure sound (nfa.nodup_moves set c) (Nfa.moves_lt sound known)).2, states]

/-- **A run** leads to the set of the states its word leads to. -/
theorem run_cases {word : List Nat} (known : ∀ c ∈ word, c < masks.length) {d : Nat}
    {set : List Nat} (found : sub.sets[d]? = some set) :
    (sub.run masks.length word d = none ∧ (nfa.graph masks).reached {x | x ∈ set} word = ∅) ∨
    ∃ d' set', sub.run masks.length word d = some d' ∧ sub.sets[d']? = some set' ∧
      {x | x ∈ set'} = (nfa.graph masks).reached {x | x ∈ set} word := by
  have full := finished.filled.full set (List.mem_of_getElem? found)
  induction word generalizing d set with
  | nil => exact .inr ⟨d, set, rfl, found, full.hull.symm⟩
  | cons c rest ih =>
      obtain ⟨here, known⟩ := List.forall_mem_cons.mp known
      have word : (nfa.graph masks).reached {x | x ∈ set} (c :: rest) =
          (nfa.graph masks).reached ((nfa.graph masks).after {x | x ∈ set} c) rest := by
        rw [Thompson.Graph.reached_cons, full.hull]
      rw [word, run]
      rcases next_cases sound finished found here with ⟨none, empty⟩ | ⟨id, set', some, target, states⟩
      · refine .inl ⟨by rw [none]; rfl, ?_⟩
        rw [empty, Thompson.Graph.reached_empty]
      · have held := ih known target (finished.filled.full set' (List.mem_of_getElem? target))
        rw [states, Thompson.Graph.reached_hull] at held
        rw [some]
        exact held

/-- **A run from the start** ends in the states its word leads to. -/
theorem Finished.run_cases {word : List Nat} (inside : start < nfa.st.length)
    (known : ∀ c ∈ word, c < masks.length) :
    (sub.run masks.length word 0 = none ∧ ∀ x, ¬ (nfa.graph masks).Path start word x) ∨
    ∃ d set, sub.run masks.length word 0 = some d ∧ sub.sets[d]? = some set ∧
      ∀ x, x ∈ set ↔ (nfa.graph masks).Path start word x := by
  have first := Nfa.full_closure sound (List.nodup_singleton start)
    (List.forall_mem_singleton.mpr inside)
  have states : (nfa.graph masks).reached {x | x ∈ nfa.closure [start]} word =
      (nfa.graph masks).reached {start} word := by
    rw [first.2, Thompson.Graph.reached_hull]
    simp only [List.mem_singleton]
    rfl
  have path : ∀ x, x ∈ (nfa.graph masks).reached {start} word ↔
      (nfa.graph masks).Path start word x := by
    intro x
    simp [Thompson.Graph.mem_reached]
  rcases Subset.run_cases sound finished known finished.filled.first with
    ⟨none, empty⟩ | ⟨d, set, some, found, held⟩
  · refine .inl ⟨none, fun x reads => ?_⟩
    rw [← path, ← states, empty] at reads
    exact reads
  · refine .inr ⟨d, set, some, found, fun x => ?_⟩
    rw [← path, ← states, ← held]
    rfl

theorem Finished.mem_run {word : List Nat} (inside : start < nfa.st.length)
    (known : ∀ c ∈ word, c < masks.length) {d : Nat}
    (ran : sub.run masks.length word 0 = some d) :
    ∃ set, sub.sets[d]? = some set ∧ ∀ x, x ∈ set ↔ (nfa.graph masks).Path start word x := by
  rcases finished.run_cases sound inside known with ⟨none, -⟩ | ⟨d', set, some, held⟩
  · rw [none] at ran
    exact nomatch ran
  · rw [some, Option.some.injEq] at ran
    exact ⟨set, ran ▸ held⟩

theorem Finished.accepts_iff {word : List Nat} (inside : start < nfa.st.length)
    (known : ∀ c ∈ word, c < masks.length) :
    sub.accepts masks.length word = true ↔ (nfa.graph masks).Path start word accept := by
  rcases finished.run_cases sound inside known with ⟨none, stuck⟩ | ⟨d, set, some, found, held⟩
  · simp [accepts, none, stuck]
  · have marked : sub.accept.getD d 0 = if accept ∈ set then 1 else 0 := by
      rw [finished.marked, marks, List.getD_eq_getElem?_getD, List.getElem?_map, found]
      rfl
    simp only [accepts, some, marked]
    rw [← held accept]
    by_cases mem : accept ∈ set
    · simp [mem]
    · simp [mem]

end Finished

end Subset

/-! ## The automaton is the grammar -/

/-- The compiled automaton of a tree reads its language. -/
theorem compile_init (grammar : Node) : Nfa.Compiled masks Nfa.init (Nfa.init.compile grammar).1
    (Nfa.init.compile grammar).2.1 (Nfa.init.compile grammar).2.2 (grammar.lang masks) := by
  refine Nfa.compile_compiled grammar Nfa.init fun x p named => ?_
  rw [Nfa.state_of_length_le (Nat.zero_le _)] at named
  exact absurd named (by simp [Nfa.State.init])

theorem compile_sound (grammar : Node) : (Nfa.init.compile grammar).1.Sound masks := by
  have compiled := @compile_init masks grammar
  have closed : ∀ x y, ((Nfa.init.compile grammar).1.graph masks).Succ x y →
      y < (Nfa.init.compile grammar).1.st.length := by
    intro x y next
    by_cases inside : x < (Nfa.init.compile grammar).1.st.length
    · exact (compiled.frag.closed x ⟨Nat.zero_le x, inside⟩ y next).2
    · exact absurd next (Nfa.bare (not_lt.mp inside) y)
  exact ⟨compiled.valid, fun x y silent => closed x y (.inl silent),
    fun x c y reads => closed x y (.inr ⟨c, reads⟩)⟩

/-- The construction finishes its tables, or there are too many sets. -/
theorem subsetConstruction_ends (grammar : Node) (masks : List Nat) :
    Subset.Ends (Nfa.init.compile grammar).1 masks (Nfa.init.compile grammar).2.1
      (Subset.Finished (Nfa.init.compile grammar).1 masks
        (Nfa.init.compile grammar).2.1 (Nfa.init.compile grammar).2.2)
      (subsetConstruction grammar masks) := by
  have sound := @compile_sound masks grammar
  have compiled := @compile_init masks grammar
  have first := Nfa.full_closure sound (List.nodup_singleton (Nfa.init.compile grammar).2.1)
    (List.forall_mem_singleton.mpr compiled.frag.entry.2)
  have leads : Subset.Reached (Nfa.init.compile grammar).1 masks (Nfa.init.compile grammar).2.1
      ((Nfa.init.compile grammar).1.closure [(Nfa.init.compile grammar).2.1]) := by
    refine ⟨[], List.forall_mem_nil _, first.2.trans ?_⟩
    simp only [List.mem_singleton]
    rfl
  refine Subset.construct_ends sound ⟨rfl, List.forall_mem_singleton.mpr first.1,
    List.forall_mem_singleton.mpr leads, List.nodup_singleton _, ?_, fun _ _ => rfl, by simp⟩
    (Nat.zero_le _) (Nat.zero_le _) rfl le_rfl
  intro i c _ before
  rw [Nat.zero_mul] at before
  exact absurd before (Nat.not_lt_zero _)

/-- **The tokenizer's automaton is the grammar.**  The tables of a tree accept the words of
classes in its language; the states of a run are those the automaton can be in, and an entry
is missing exactly where none of them goes on.  Only where words lead to more than 32001 sets
of states are there no tables. -/
theorem tables_accept_grammar (grammar : Node) (masks : List Nat) :
    (∃ tables, subsetConstruction grammar masks = .ok tables ∧
      (∀ word, (∀ c ∈ word, c < masks.length) →
        (tables.accepts masks.length word = true ↔ word ∈ grammar.lang masks)) ∧
      (∀ word, (∀ c ∈ word, c < masks.length) → ∀ d,
        tables.run masks.length word 0 = some d → ∃ set, tables.sets[d]? = some set ∧
          ∀ x, x ∈ set ↔ ((Nfa.init.compile grammar).1.graph masks).Path
            (Nfa.init.compile grammar).2.1 word x) ∧
      ∀ d set, tables.sets[d]? = some set → ∀ c < masks.length,
        (tables.trans[d * masks.length + c]? = some (-1) ↔
          ¬ ∃ x ∈ set, ∃ y, ((Nfa.init.compile grammar).1.graph masks).edge x c y)) ∨
    (subsetConstruction grammar masks = .error (.thrown "tokenizer: DFA too large") ∧
      Subset.TooMany (Nfa.init.compile grammar).1 masks (Nfa.init.compile grammar).2.1) := by
  have sound := @compile_sound masks grammar
  have compiled := @compile_init masks grammar
  rcases subsetConstruction_ends grammar masks with ⟨tables, is, finished⟩ | tooLarge
  · refine .inl ⟨tables, is, fun word known => ?_, fun word known d ran => ?_,
      fun d set found c known => ?_⟩
    · exact finished.accepts_iff sound compiled.frag.entry.2 known |>.trans (compiled.frag.lang word)
    · exact finished.mem_run sound compiled.frag.entry.2 known ran
    · rw [Subset.missing_iff sound finished found known, Set.eq_empty_iff_forall_notMem]
      simp only [Thompson.Graph.after, Set.mem_ofPred_eq, not_exists, not_and]
      exact ⟨fun none x held y reads => none y x held reads,
        fun none y x held reads => none x held y reads⟩
  · exact .inr tooLarge

/-! ## The tokenizer over the tables -/

namespace StandardTokenizer

variable {t : StandardTokenizer} {grammar : Node} {tables : Subset}

theorem run_eq (trans : t.trans = tables.trans) (classes : t.nclasses = masks.length)
    (word : List (Nat × Nat)) (state : Nat) :
    t.scanner.run state word = tables.run masks.length (word.map fun cp => t.cls cp.1) state := by
  induction word generalizing state with
  | nil => rfl
  | cons cp rest ih =>
      have step : t.scanner.step state cp = tables.next masks.length state (t.cls cp.1) := by
        simp only [scanner, next, Subset.next, trans, classes]
      rw [Theory.Munch.Scanner.run_cons, List.map_cons, Subset.run, step]
      exact congrArg _ (funext ih)

/-- **The scanner of a tokenizer with these tables** accepts the code points whose classes
are a word of the grammar. -/
theorem scanner_accepts_iff (is : subsetConstruction grammar masks = .ok tables)
    (trans : t.trans = tables.trans) (accept : t.accept = tables.accept)
    (classes : t.nclasses = masks.length) {word : List (Nat × Nat)}
    (known : ∀ cp ∈ word, t.cls cp.1 < masks.length) :
    t.scanner.Accepts word ↔ (word.map fun cp => t.cls cp.1) ∈ grammar.lang masks := by
  have compiled := @compile_init masks grammar
  rcases subsetConstruction_ends grammar masks with ⟨tables', is', finished⟩ | ⟨tooLarge, -⟩
  · obtain rfl : tables = tables' := Except.ok.inj (is.symm.trans is')
    have known' : ∀ c ∈ word.map fun cp => t.cls cp.1, c < masks.length := by
      intro c mem
      obtain ⟨cp, held, rfl⟩ := List.mem_map.mp mem
      exact known cp held
    have accepts := finished.accepts_iff (compile_sound grammar) compiled.frag.entry.2 known'
    rw [← compiled.frag.lang, ← accepts, Theory.Munch.Scanner.Accepts,
      Theory.Munch.Scanner.AcceptsFrom, run_eq trans classes, Subset.accepts]
    have start : t.scanner.start = 0 := rfl
    have accepting : ∀ s, t.scanner.accept s = decide (tables.accept.getD s 0 ≠ 0) := by
      intro s
      simp only [scanner, StandardTokenizer.accepting, accept]
    rw [start]
    cases ran : tables.run masks.length (word.map fun cp => t.cls cp.1) 0 with
    | none => simp
    | some s => simp [accepting]
  · rw [is] at tooLarge
    exact nomatch tooLarge

end StandardTokenizer

end HybridSearch.Engine
