/-
# Engine.GrammarAutomaton -- the compiled automaton reads the grammar

`Nfa.graph` is the automaton as a graph over the classes of an alphabet, and
`Node.lang` the language of a tree.  Every case of `Nfa.compile` is one of the
fragment rules of `Theory.Thompson`: the states a call makes are a fragment for
the language of its node, and the states before them stay as they were.
-/
import HybridSearch.Theory.Thompson
import HybridSearch.Engine.Grammar

namespace HybridSearch.Engine

open HybridSearch.Theory HybridSearch.Theory.Thompson

set_option autoImplicit false

open scoped Computability

variable {masks : List Nat}

/-! ## The language of a tree -/

namespace Node

mutual

/-- The words of classes a tree stands for. -/
def lang (masks : List Nat) : Node → Language Nat
  | .sym pred => {w | ∃ c m, w = [c] ∧ masks[c]? = some m ∧ pred.matches m = true}
  | .cat first rest => first.lang masks * langCat masks rest
  | .alt kids => langAlt masks kids
  | .star kid => (kid.lang masks)∗
  | .plus kid => kid.lang masks * (kid.lang masks)∗
  | .opt kid => 1 + kid.lang masks

def langCat (masks : List Nat) : List Node → Language Nat
  | [] => 1
  | kid :: rest => kid.lang masks * langCat masks rest

def langAlt (masks : List Nat) : List Node → Language Nat
  | [] => 0
  | kid :: rest => kid.lang masks + langAlt masks rest

end

end Node

namespace Nfa

/-! ## The automaton as a graph -/

def graph (nfa : Nfa) (masks : List Nat) : Thompson.Graph Nat Nat where
  eps x y := y ∈ (nfa.state x).eps
  edge x c y := ∃ p pred m, (nfa.state x).pred = some p ∧ nfa.preds[p]? = some pred ∧
    masks[c]? = some m ∧ pred.matches m = true ∧ (nfa.state x).next = some y

/-- The predicates its states name exist. -/
def Valid (nfa : Nfa) : Prop := ∀ x p, (nfa.state x).pred = some p → p < nfa.preds.length

/-- What a call leaves of an automaton: the states below `lo` and the predicates. -/
structure Keeps (lo : Nat) (before after : Nfa) : Prop where
  grows : before.st.length ≤ after.st.length
  below : ∀ x < lo, after.state x = before.state x
  preds : before.preds <+: after.preds

/-- The states from number `lo` on. -/
def since (nfa : Nfa) (lo : Nat) : Set Nat := {x | lo ≤ x ∧ x < nfa.st.length}

theorem Keeps.refl (lo : Nat) (nfa : Nfa) : Keeps lo nfa nfa :=
  ⟨le_rfl, fun _ _ => rfl, List.prefix_rfl⟩

theorem Keeps.weaken {lo lo' : Nat} {a b : Nfa} (keeps : Keeps lo' a b) (le : lo ≤ lo') :
    Keeps lo a b :=
  ⟨keeps.grows, fun x small => keeps.below x (by omega), keeps.preds⟩

theorem Keeps.trans {lo lo' : Nat} {a b c : Nfa} (first : Keeps lo a b) (second : Keeps lo' b c)
    (le : lo ≤ lo') : Keeps lo a c :=
  ⟨first.grows.trans second.grows,
    fun x small => (second.below x (by omega)).trans (first.below x small),
    first.preds.trans second.preds⟩

/-- The predicates of before keep their numbers. -/
theorem Keeps.getElem?_preds {lo : Nat} {nfa after : Nfa} (keeps : Keeps lo nfa after) {p : Nat}
    (named : p < nfa.preds.length) : after.preds[p]? = nfa.preds[p]? := by
  obtain ⟨more, same⟩ := keeps.preds
  rw [← same, List.getElem?_append_left named]

/-- What is kept keeps its edges. -/
theorem Keeps.agreeOn {lo : Nat} {nfa after : Nfa} (keeps : Keeps lo nfa after)
    (valid : nfa.Valid) {S : Set Nat} (small : ∀ x ∈ S, x < lo) :
    Thompson.Graph.AgreeOn S (nfa.graph masks) (after.graph masks) := by
  intro x inside
  have same := keeps.below x (small x inside)
  refine ⟨fun y => ?_, fun c y => ?_⟩
  · simp only [graph, same]
  · simp only [graph, same]
    constructor
    · rintro ⟨p, pred, m, named, found, rest⟩
      exact ⟨p, pred, m, named, (keeps.getElem?_preds (valid x p named)).trans found, rest⟩
    · rintro ⟨p, pred, m, named, found, rest⟩
      exact ⟨p, pred, m, named, (keeps.getElem?_preds (valid x p named)).symm.trans found, rest⟩

/-! ## The steps of `compile` -/

@[simp] theorem length_add (nfa : Nfa) : nfa.add.st.length = nfa.st.length + 1 := by
  simp [add]

@[simp] theorem length_addEps (nfa : Nfa) (i j : Nat) :
    (nfa.addEps i j).st.length = nfa.st.length := by
  simp [addEps]

@[simp] theorem length_addSym (nfa : Nfa) (s e : Nat) (pred : Pred) :
    (nfa.addSym s e pred).st.length = nfa.st.length := by
  simp [addSym]

@[simp] theorem since_addEps (nfa : Nfa) (i j lo : Nat) :
    (nfa.addEps i j).since lo = nfa.since lo := by
  simp only [since, length_addEps]

@[simp] theorem preds_add (nfa : Nfa) : nfa.add.preds = nfa.preds := rfl

@[simp] theorem preds_addEps (nfa : Nfa) (i j : Nat) : (nfa.addEps i j).preds = nfa.preds := rfl

/-- A state that does not exist has no edges. -/
theorem state_of_length_le {nfa : Nfa} {x : Nat} (large : nfa.st.length ≤ x) :
    nfa.state x = State.init := by
  rw [state, List.getD_eq_getElem?_getD, List.getElem?_eq_none large, Option.getD_none]

@[simp] theorem state_add (nfa : Nfa) (x : Nat) : nfa.add.state x = nfa.state x := by
  rcases lt_trichotomy x nfa.st.length with small | same | large
  · simp [state, add, List.getElem?_append_left small]
  · simp [state, add, same]
  · rw [state_of_length_le large.le, state_of_length_le (by simp; omega)]

theorem state_modify {nfa : Nfa} {i x : Nat} (f : State → State) (inside : i < nfa.st.length) :
    (nfa.st.modify i f).getD x State.init = if x = i then f (nfa.state i) else nfa.state x := by
  rw [List.getD_eq_getElem?_getD, List.getElem?_modify]
  by_cases same : x = i
  · subst same
    simp [state, List.getElem?_eq_getElem inside]
  · rw [if_neg same]
    simp [state, Ne.symm same]

theorem state_addEps {nfa : Nfa} {i : Nat} (j : Nat) (inside : i < nfa.st.length) (x : Nat) :
    (nfa.addEps i j).state x =
      if x = i then { nfa.state i with eps := (nfa.state i).eps ++ [j] } else nfa.state x :=
  state_modify _ inside

theorem state_addSym {nfa : Nfa} {s : Nat} (e : Nat) (pred : Pred) (inside : s < nfa.st.length)
    (x : Nat) : (nfa.addSym s e pred).state x =
      if x = s then { nfa.state s with pred := some nfa.preds.length, next := some e }
      else nfa.state x :=
  state_modify _ inside

theorem graph_eps {nfa : Nfa} {x y : Nat} :
    (nfa.graph masks).eps x y ↔ y ∈ (nfa.state x).eps := Iff.rfl

theorem graph_add (nfa : Nfa) : nfa.add.graph masks = nfa.graph masks := by
  simp only [graph, state_add, preds_add]

/-- A further entry of `eps` is a further silent edge. -/
theorem graph_addEps {nfa : Nfa} {i : Nat} (j : Nat) (inside : i < nfa.st.length) :
    (nfa.addEps i j).graph masks = (nfa.graph masks).addEps i j := by
  ext x y z
  · simp only [graph, Thompson.Graph.addEps, state_addEps j inside]
    by_cases same : x = i
    · simp [same]
    · simp [same]
  · simp only [graph, Thompson.Graph.addEps, state_addEps j inside, preds_addEps]
    by_cases same : x = i
    · simp [same]
    · simp [same]

theorem Keeps.add (lo : Nat) (nfa : Nfa) : Keeps lo nfa nfa.add :=
  ⟨by simp, fun x _ => state_add nfa x, List.prefix_rfl⟩

theorem Keeps.addEps {lo i : Nat} {nfa : Nfa} (j : Nat) (inside : i < nfa.st.length)
    (late : lo ≤ i) : Keeps lo nfa (nfa.addEps i j) :=
  ⟨by simp, fun x small => by rw [state_addEps j inside, if_neg (by omega)], List.prefix_rfl⟩

theorem Valid.add {nfa : Nfa} (valid : nfa.Valid) : nfa.add.Valid := by
  intro x p named
  rw [state_add] at named
  exact valid x p named

theorem Valid.addEps {nfa : Nfa} {i : Nat} (j : Nat) (inside : i < nfa.st.length)
    (valid : nfa.Valid) : (nfa.addEps i j).Valid := by
  intro x p named
  rw [state_addEps j inside] at named
  split at named
  · exact valid i p named
  · exact valid x p named

/-- A state just added has no edges. -/
theorem bare {nfa : Nfa} {x : Nat} (fresh : nfa.st.length ≤ x) (y : Nat) :
    ¬ (nfa.graph masks).Succ x y := by
  rintro (silent | ⟨c, reads⟩)
  · rw [graph_eps, state_of_length_le fresh] at silent
    exact absurd silent List.not_mem_nil
  · obtain ⟨p, pred, m, named, -⟩ := reads
    rw [state_of_length_le fresh] at named
    exact absurd named (by simp [State.init])

/-! ## What a call makes -/

/-- **A call** of `compile` keeps what is there and makes a fragment of what it adds. -/
structure Compiled (masks : List Nat) (nfa after : Nfa) (s e : Nat) (L : Language Nat) : Prop where
  keeps : Keeps nfa.st.length nfa after
  valid : after.Valid
  frag : Frag (after.graph masks) (after.since nfa.st.length) s e L

theorem since_add_add {nfa after : Nfa} (grows : nfa.st.length + 2 ≤ after.st.length) :
    after.since nfa.st.length =
      {nfa.st.length, nfa.st.length + 1} ∪ after.since (nfa.st.length + 2) := by
  ext x
  simp only [since, Set.mem_ofPred_eq, Set.mem_union, Set.mem_insert_iff, Set.mem_singleton_iff]
  omega

theorem since_split {nfa after : Nfa} {lo : Nat} (late : lo ≤ nfa.st.length)
    (grows : nfa.st.length ≤ after.st.length) :
    after.since lo = nfa.since lo ∪ after.since nfa.st.length := by
  ext x
  simp only [since, Set.mem_ofPred_eq, Set.mem_union]
  omega

theorem since_apart (nfa after : Nfa) (lo : Nat) :
    ∀ x ∈ after.since nfa.st.length, x ∉ nfa.since lo := by
  rintro x ⟨large, -⟩ ⟨-, small⟩
  omega

/-- `case Node::Sym`. -/
theorem compiled_sym {nfa : Nfa} (pred : Pred) (valid : nfa.Valid) :
    Compiled masks nfa (nfa.add.add.addSym nfa.st.length (nfa.st.length + 1) pred)
      nfa.st.length (nfa.st.length + 1) ((Node.sym pred).lang masks) := by
  have inside : nfa.st.length < nfa.add.add.st.length := by simp
  have state := fun x => state_addSym (nfa.st.length + 1) pred inside x
  have entry : ∀ x, x = nfa.st.length →
      (nfa.add.add.addSym nfa.st.length (nfa.st.length + 1) pred).state x =
        ⟨some nfa.preds.length, some (nfa.st.length + 1), []⟩ := by
    intro x same
    rw [state, if_pos same, state_add, state_add, state_of_length_le le_rfl]
    rfl
  have other : ∀ x, x ≠ nfa.st.length →
      (nfa.add.add.addSym nfa.st.length (nfa.st.length + 1) pred).state x = nfa.state x := by
    intro x different
    rw [state, if_neg different, state_add, state_add]
  refine ⟨⟨by simp; omega, fun x small => other x (by omega), ⟨[pred], rfl⟩⟩, ?_, ?_⟩
  · intro x p named
    simp only [addSym, preds_add, List.length_append, List.length_singleton]
    by_cases same : x = nfa.st.length
    · rw [entry x same] at named
      simp only [Option.some.injEq] at named
      omega
    · rw [other x same] at named
      exact Nat.lt_succ_of_lt (valid x p named)
  · have states : (nfa.add.add.addSym nfa.st.length (nfa.st.length + 1) pred).since nfa.st.length =
        {nfa.st.length, nfa.st.length + 1} := by
      ext x
      simp only [since, length_addSym, length_add, Set.mem_ofPred_eq, Set.mem_insert_iff,
        Set.mem_singleton_iff]
      omega
    have found : (nfa.preds ++ [pred])[nfa.preds.length]? = some pred := by simp
    have letters : (Node.sym pred).lang masks =
        {w | ∃ c ∈ {c | ∃ m, masks[c]? = some m ∧ pred.matches m = true}, w = [c]} := by
      ext w
      rw [Node.lang]
      constructor
      · rintro ⟨c, m, rfl, mask, holds⟩
        exact ⟨c, ⟨m, mask, holds⟩, rfl⟩
      · rintro ⟨c, ⟨m, mask, holds⟩, rfl⟩
        exact ⟨c, m, rfl, mask, holds⟩
    rw [states, letters]
    apply Frag.letter (by omega)
    · intro y silent
      rw [graph_eps, entry _ rfl] at silent
      exact absurd silent List.not_mem_nil
    · intro c y
      simp only [graph, entry _ rfl, Option.some.injEq]
      constructor
      · rintro ⟨p, pred', m, rfl, is, mask, holds, rfl⟩
        obtain rfl : pred = pred' := by simpa [addSym] using is
        exact ⟨⟨m, mask, holds⟩, rfl⟩
      · rintro ⟨⟨m, mask, holds⟩, rfl⟩
        exact ⟨_, pred, m, rfl, by simp [addSym], mask, holds, rfl⟩
    · rintro y (silent | ⟨c, p, _, m, named, -⟩)
      · rw [graph_eps, other _ (by omega), state_of_length_le (by omega)] at silent
        exact absurd silent List.not_mem_nil
      · rw [other _ (by omega), state_of_length_le (by omega)] at named
        exact absurd named (by simp [State.init])

/-- Silent edges added one after the other. -/
def addAll (nfa : Nfa) (edges : List (Nat × Nat)) : Nfa :=
  edges.foldl (fun nfa edge => nfa.addEps edge.1 edge.2) nfa

@[simp] theorem length_addAll (nfa : Nfa) (edges : List (Nat × Nat)) :
    (nfa.addAll edges).st.length = nfa.st.length := by
  induction edges generalizing nfa with
  | nil => rfl
  | cons edge rest ih => exact (ih _).trans (length_addEps nfa edge.1 edge.2)

theorem Keeps.addAll {lo : Nat} {nfa : Nfa} {edges : List (Nat × Nat)}
    (inside : ∀ edge ∈ edges, lo ≤ edge.1 ∧ edge.1 < nfa.st.length) :
    Keeps lo nfa (nfa.addAll edges) := by
  induction edges generalizing nfa with
  | nil => exact Keeps.refl lo nfa
  | cons edge rest ih =>
      obtain ⟨here, later⟩ := List.forall_mem_cons.mp inside
      have tail := @ih (nfa.addEps edge.1 edge.2) fun edge' mem => by simpa using later edge' mem
      exact (Keeps.addEps edge.2 here.2 here.1).trans tail le_rfl

theorem Valid.addAll {nfa : Nfa} {edges : List (Nat × Nat)} (valid : nfa.Valid)
    (inside : ∀ edge ∈ edges, edge.1 < nfa.st.length) : (nfa.addAll edges).Valid := by
  induction edges generalizing nfa with
  | nil => exact valid
  | cons edge rest ih =>
      obtain ⟨here, later⟩ := List.forall_mem_cons.mp inside
      exact ih (valid.addEps edge.2 here) fun edge' mem => by simpa using later edge' mem

theorem graph_addAll {nfa : Nfa} {edges : List (Nat × Nat)}
    (inside : ∀ edge ∈ edges, edge.1 < nfa.st.length) :
    (∀ x y, ((nfa.addAll edges).graph masks).eps x y ↔
      (nfa.graph masks).eps x y ∨ (x, y) ∈ edges) ∧
    ∀ x c y, ((nfa.addAll edges).graph masks).edge x c y ↔ (nfa.graph masks).edge x c y := by
  induction edges generalizing nfa with
  | nil => exact ⟨fun x y => by simp [Nfa.addAll], fun x c y => Iff.rfl⟩
  | cons edge rest ih =>
      obtain ⟨here, later⟩ := List.forall_mem_cons.mp inside
      obtain ⟨eps, loud⟩ := @ih (nfa.addEps edge.1 edge.2)
        fun edge' mem => by simpa using later edge' mem
      rw [graph_addEps edge.2 here] at eps loud
      refine ⟨fun x y => (eps x y).trans ?_, loud⟩
      rw [List.mem_cons, Prod.ext_iff]
      exact or_assoc

/-- The cases with one child: new states around the child's, and silent edges. -/
theorem compiled_loop {nfa inner : Nfa} {ks ke : Nat} {K : Language Nat} (skip again : Prop)
    (edges : List (Nat × Nat)) (kid : Compiled masks nfa.add.add inner ks ke K)
    (mem_edges : ∀ x y, (x, y) ∈ edges ↔
      (x = nfa.st.length ∧ y = ks) ∨ (x = nfa.st.length ∧ y = nfa.st.length + 1 ∧ skip) ∨
      (x = ke ∧ y = nfa.st.length + 1) ∨ (x = ke ∧ y = ks ∧ again)) :
    Compiled masks nfa (inner.addAll edges) nfa.st.length (nfa.st.length + 1)
      {w | (w = [] ∧ skip) ∨ w ∈ K * Frag.passes again K} := by
  have two : nfa.add.add.st.length = nfa.st.length + 2 := by simp
  have grows : nfa.st.length + 2 ≤ inner.st.length := two ▸ kid.keeps.grows
  have exit : nfa.st.length + 2 ≤ ke ∧ ke < inner.st.length := two ▸ kid.frag.leave
  have inside : ∀ edge ∈ edges, nfa.st.length ≤ edge.1 ∧ edge.1 < inner.st.length := by
    rintro ⟨x, y⟩ mem
    rcases (mem_edges x y).mp mem with ⟨rfl, -⟩ | ⟨rfl, -, -⟩ | ⟨rfl, -⟩ | ⟨rfl, -, -⟩
    all_goals simp only; omega
  have untouched : ∀ x, nfa.st.length ≤ x → x < nfa.st.length + 2 → ∀ y,
      ¬ (inner.graph masks).Succ x y := by
    intro x late small y next
    have same : inner.state x = State.init := by
      rw [kid.keeps.below x (by omega), state_add, state_add, state_of_length_le late]
    rcases next with silent | ⟨c, p, _, m, named, -⟩
    · rw [graph_eps, same] at silent
      exact absurd silent List.not_mem_nil
    · rw [same] at named
      exact absurd named (by simp [State.init])
  have first : Keeps nfa.st.length nfa nfa.add.add :=
    (Keeps.add _ nfa).trans (Keeps.add nfa.st.length nfa.add) le_rfl
  have keeps := (first.trans kid.keeps (by omega)).trans (Keeps.addAll inside) le_rfl
  refine ⟨keeps, kid.valid.addAll fun edge mem => (inside edge mem).2, ?_⟩
  have states : (inner.addAll edges).since nfa.st.length =
      {nfa.st.length, nfa.st.length + 1} ∪ inner.since nfa.add.add.st.length := by
    rw [since_add_add (by simpa using grows), two]
    simp only [since, length_addAll]
  obtain ⟨eps, edge⟩ := @graph_addAll masks inner edges fun edge mem => (inside edge mem).2
  rw [states]
  apply Frag.loop kid.frag _ _ (by omega) (fun x y => (eps x y).trans (or_congr_right (mem_edges x y)))
    edge (untouched _ le_rfl (by omega)) (untouched _ (by omega) (by omega))
  · rintro ⟨large, -⟩
    omega
  · rintro ⟨large, -⟩
    omega

/-- What the loops of `compile` make of a fragment they started with. -/
structure Extended (masks : List Nat) (lo : Nat) (nfa after : Nfa) (s e : Nat) (L : Language Nat) :
    Prop where
  keeps : Keeps lo nfa after
  valid : after.Valid
  frag : Frag (after.graph masks) (after.since lo) s e L

mutual

/-- **Thompson's construction**, tree by tree. -/
theorem compile_compiled : ∀ (node : Node) (nfa : Nfa), nfa.Valid →
    Compiled masks nfa (nfa.compile node).1 (nfa.compile node).2.1 (nfa.compile node).2.2
      (node.lang masks)
  | .sym pred, nfa, valid => compiled_sym pred valid
  | .cat first rest, nfa, valid => by
      have head := compile_compiled first nfa valid
      have tail := compileCat_extended rest (nfa.compile first).1 nfa.st.length _ _ _ head.valid
        head.keeps.grows head.frag
      exact ⟨head.keeps.trans tail.keeps le_rfl, tail.valid, tail.frag⟩
  | .alt kids, nfa, valid => by
      have first : Keeps nfa.st.length nfa nfa.add.add :=
        (Keeps.add _ nfa).trans (Keeps.add nfa.st.length nfa.add) le_rfl
      have start : Frag (nfa.add.add.graph masks) (nfa.add.add.since nfa.st.length)
          nfa.st.length (nfa.st.length + 1) 0 := by
        have states : nfa.add.add.since nfa.st.length = {nfa.st.length, nfa.st.length + 1} := by
          ext x
          simp only [since, length_add, Set.mem_ofPred_eq, Set.mem_insert_iff,
            Set.mem_singleton_iff]
          omega
        rw [states, graph_add, graph_add]
        exact Frag.bare (by omega) (bare le_rfl) (bare (by omega))
      have branches := compileAlt_extended kids nfa.add.add nfa.st.length _ _ _ valid.add.add
        (by simp; omega) (by omega) start
      rw [zero_add] at branches
      exact ⟨first.trans branches.keeps le_rfl, branches.valid, branches.frag⟩
  | .star kid, nfa, valid => by
      have whole := compiled_loop True True
        [(nfa.st.length, (nfa.add.add.compile kid).2.1), (nfa.st.length, nfa.st.length + 1),
          ((nfa.add.add.compile kid).2.2, nfa.st.length + 1),
          ((nfa.add.add.compile kid).2.2, (nfa.add.add.compile kid).2.1)]
        (compile_compiled kid nfa.add.add valid.add.add) (by simp)
      rw [Frag.around_star] at whole
      exact whole
  | .plus kid, nfa, valid => by
      have whole := compiled_loop False True
        [(nfa.st.length, (nfa.add.add.compile kid).2.1),
          ((nfa.add.add.compile kid).2.2, nfa.st.length + 1),
          ((nfa.add.add.compile kid).2.2, (nfa.add.add.compile kid).2.1)]
        (compile_compiled kid nfa.add.add valid.add.add) (by simp)
      rw [Frag.around_plus] at whole
      exact whole
  | .opt kid, nfa, valid => by
      have whole := compiled_loop True False
        [(nfa.st.length, (nfa.add.add.compile kid).2.1), (nfa.st.length, nfa.st.length + 1),
          ((nfa.add.add.compile kid).2.2, nfa.st.length + 1)]
        (compile_compiled kid nfa.add.add valid.add.add) (by simp)
      rw [Frag.around_opt] at whole
      exact whole

theorem compileCat_extended : ∀ (rest : List Node) (nfa : Nfa) (lo s e : Nat) (L : Language Nat),
    nfa.Valid → lo ≤ nfa.st.length → Frag (nfa.graph masks) (nfa.since lo) s e L →
    Extended masks lo nfa (nfa.compileCat rest e).1 s (nfa.compileCat rest e).2
      (L * Node.langCat masks rest)
  | [], nfa, lo, s, e, L, valid, _, frag => by
      rw [Node.langCat, mul_one]
      exact ⟨Keeps.refl lo nfa, valid, frag⟩
  | kid :: rest, nfa, lo, s, e, L, valid, late, frag => by
      have inner := compile_compiled kid nfa valid
      have grows := inner.keeps.grows
      have exit := frag.leave
      have inside : e < (nfa.compile kid).1.st.length := lt_of_lt_of_le exit.2 grows
      have kept := frag.transfer (inner.keeps.agreeOn valid fun x mem => mem.2)
      have joined := kept.cat inner.frag (since_apart _ _ _)
      rw [← graph_addEps _ inside, ← since_split late grows] at joined
      rw [← since_addEps _ e (nfa.compile kid).2.1] at joined
      have further := compileCat_extended rest _ lo s _ _
        (inner.valid.addEps (nfa.compile kid).2.1 inside) (by simp; omega) joined
      rw [mul_assoc] at further
      have before : Keeps lo nfa (nfa.compile kid).1 := inner.keeps.weaken late
      exact ⟨(before.trans (Keeps.addEps _ inside exit.1) le_rfl).trans further.keeps le_rfl,
        further.valid, further.frag⟩

theorem compileAlt_extended : ∀ (kids : List Node) (nfa : Nfa) (lo s e : Nat) (L : Language Nat),
    nfa.Valid → lo ≤ nfa.st.length → s ≠ e → Frag (nfa.graph masks) (nfa.since lo) s e L →
    Extended masks lo nfa (nfa.compileAlt kids s e) s e (L + Node.langAlt masks kids)
  | [], nfa, lo, s, e, L, valid, _, _, frag => by
      rw [Node.langAlt, add_zero]
      exact ⟨Keeps.refl lo nfa, valid, frag⟩
  | kid :: rest, nfa, lo, s, e, L, valid, late, differ, frag => by
      have inner := compile_compiled kid nfa valid
      have grows := inner.keeps.grows
      have entry := frag.entry
      have exit := inner.frag.leave
      have inside : s < (nfa.compile kid).1.st.length := lt_of_lt_of_le entry.2 grows
      have inside' : (nfa.compile kid).2.2 <
          ((nfa.compile kid).1.addEps s (nfa.compile kid).2.1).st.length := by
        rw [length_addEps]
        exact exit.2
      have kept := frag.transfer (inner.keeps.agreeOn valid fun x mem => mem.2)
      have joined := kept.alt inner.frag (since_apart _ _ _) differ
      rw [← graph_addEps _ inside, ← graph_addEps _ inside', ← since_split late grows,
        ← since_addEps _ s (nfa.compile kid).2.1, ← since_addEps _ (nfa.compile kid).2.2 e] at joined
      have further := compileAlt_extended rest _ lo s e _
        ((inner.valid.addEps _ inside).addEps e inside') (by simp; omega) differ joined
      rw [add_assoc] at further
      have before : Keeps lo nfa (nfa.compile kid).1 := inner.keeps.weaken late
      have edges := (Keeps.addEps (nfa.compile kid).2.1 inside entry.1).trans
        (Keeps.addEps e inside' (late.trans exit.1)) le_rfl
      exact ⟨(before.trans edges le_rfl).trans further.keeps le_rfl, further.valid, further.frag⟩

end

end Nfa

end HybridSearch.Engine
