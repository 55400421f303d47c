/-
# Theory.Thompson -- automata assembled from fragments

A `Graph` has silent edges and labelled ones, and `Path` reads a word along them.
A fragment is a part of a graph with one entry, which no edge enters, and one
exit, which no edge leaves; its language is what is read from entry to exit
(`Frag`).  Joining fragments with silent edges makes fragments for the product,
the sum and the iteration of their languages (`Frag.cat`, `Frag.alt`,
`Frag.loop`).

A path of a joined graph is taken apart by naming, for every state, a language
that holds what is read from it to the exit.
-/
import Mathlib.Computability.Language
import Mathlib.Tactic

namespace HybridSearch.Theory.Thompson

set_option autoImplicit false

open scoped Computability

variable {σ α : Type}

@[ext]
structure Graph (σ α : Type) where
  eps : σ → σ → Prop
  edge : σ → α → σ → Prop

namespace Graph

/-- A word read from one state to another. -/
inductive Path (G : Graph σ α) : σ → List α → σ → Prop
  | nil (x : σ) : Path G x [] x
  | eps {x y z : σ} {w : List α} (silent : G.eps x y) (rest : Path G y w z) : Path G x w z
  | edge {x y z : σ} {a : α} {w : List α} (reads : G.edge x a y) (rest : Path G y w z) :
      Path G x (a :: w) z

def Succ (G : Graph σ α) (x y : σ) : Prop := G.eps x y ∨ ∃ a, G.edge x a y

/-- The graph with one silent edge more. -/
def addEps (G : Graph σ α) (x y : σ) : Graph σ α where
  eps i j := G.eps i j ∨ (i = x ∧ j = y)
  edge := G.edge

/-- Two graphs with the same edges out of a set of states. -/
def AgreeOn (S : Set σ) (G H : Graph σ α) : Prop :=
  ∀ x ∈ S, (∀ y, G.eps x y ↔ H.eps x y) ∧ ∀ a y, G.edge x a y ↔ H.edge x a y

variable {G H : Graph σ α} {S : Set σ}

theorem Path.append {x y z : σ} {v w : List α} (first : G.Path x v y) (second : G.Path y w z) :
    G.Path x (v ++ w) z := by
  induction first with
  | nil => exact second
  | eps silent _ ih => exact .eps silent (ih second)
  | edge reads _ ih => exact .edge reads (ih second)

theorem Path.mono (eps : ∀ x y, G.eps x y → H.eps x y) (edge : ∀ x a y, G.edge x a y → H.edge x a y)
    {x y : σ} {w : List α} (path : G.Path x w y) : H.Path x w y := by
  induction path with
  | nil x => exact .nil x
  | eps silent _ ih => exact .eps (eps _ _ silent) ih
  | edge reads _ ih => exact .edge (edge _ _ _ reads) ih

theorem Path.addEps {x y : σ} {w : List α} (path : G.Path x w y) (i j : σ) :
    (G.addEps i j).Path x w y := path.mono (H := G.addEps i j) (fun _ _ silent => Or.inl silent) fun _ _ _ reads => reads

/-- **Naming what is read** from every state to `z`: a property of words that the
empty word has at `z` and that edges carry backwards. -/
theorem Path.backward {z : σ} {P : σ → List α → Prop} (start : P z [])
    (eps : ∀ x y w, G.eps x y → P y w → P x w)
    (edge : ∀ x a y w, G.edge x a y → P y w → P x (a :: w))
    {x : σ} {w : List α} (path : G.Path x w z) : P x w := by
  induction path with
  | nil => exact start
  | eps silent _ ih => exact eps _ _ _ silent (ih start)
  | edge reads _ ih => exact edge _ _ _ _ reads (ih start)

/-- A closed part of the graph keeps its paths where its edges stay. -/
theorem Path.transfer (agree : AgreeOn S G H) (closed : ∀ x ∈ S, ∀ y, G.Succ x y → y ∈ S)
    {x y : σ} {w : List α} (inside : x ∈ S) (path : G.Path x w y) : H.Path x w y := by
  induction path with
  | nil x => exact .nil x
  | eps silent _ ih =>
      exact .eps (((agree _ inside).1 _).mp silent) (ih (closed _ inside _ (.inl silent)))
  | edge reads _ ih =>
      exact .edge (((agree _ inside).2 _ _).mp reads) (ih (closed _ inside _ (.inr ⟨_, reads⟩)))

/-- Nothing but the empty word is read from a state no edge leaves. -/
theorem Path.of_free {x y : σ} {w : List α} (free : ∀ z, ¬ G.Succ x z) (path : G.Path x w y) :
    w = [] ∧ y = x := by
  cases path with
  | nil => exact ⟨rfl, rfl⟩
  | eps silent _ => exact absurd (.inl silent) (free _)
  | edge reads _ => exact absurd (.inr ⟨_, reads⟩) (free _)

/-- The first letter of a word read, between what is silent and the rest. -/
theorem Path.uncons {x z : σ} {a : α} {w : List α} (path : G.Path x (a :: w) z) :
    ∃ y y', G.Path x [] y ∧ G.edge y a y' ∧ G.Path y' w z := by
  generalize word : a :: w = v at path
  induction path with
  | nil => nomatch word
  | eps silent _ ih =>
      obtain ⟨y, y', before, reads, after⟩ := ih word
      exact ⟨y, y', .eps silent before, reads, after⟩
  | edge reads rest =>
      obtain ⟨rfl, rfl⟩ := List.cons.inj word
      exact ⟨_, _, .nil _, reads, rest⟩

/-- Silent edges keep what each of them keeps. -/
theorem Path.silent {P : σ → Prop} (eps : ∀ x y, G.eps x y → P x → P y) {x y : σ}
    (path : G.Path x [] y) (start : P x) : P y := by
  generalize word : ([] : List α) = w at path
  induction path with
  | nil => exact start
  | eps silent _ ih => exact ih (eps _ _ silent start) word
  | edge => nomatch word

/-! ## Sets of states -/

/-- What silent edges lead to from a set. -/
def hull (G : Graph σ α) (S : Set σ) : Set σ := {y | ∃ x ∈ S, G.Path x [] y}

/-- What an edge leads to from a set. -/
def after (G : Graph σ α) (S : Set σ) (a : α) : Set σ := {y | ∃ x ∈ S, G.edge x a y}

/-- The states a word leads to, letter by letter. -/
def reached (G : Graph σ α) (S : Set σ) (w : List α) : Set σ :=
  w.foldl (fun T a => G.hull (G.after T a)) (G.hull S)

theorem hull_hull (S : Set σ) : G.hull (G.hull S) = G.hull S := by
  apply Set.Subset.antisymm
  · rintro z ⟨y, ⟨x, inside, first⟩, second⟩
    exact ⟨x, inside, by simpa using first.append second⟩
  · intro y inside
    exact ⟨y, inside, .nil y⟩

theorem reached_cons (S : Set σ) (a : α) (w : List α) :
    G.reached S (a :: w) = G.reached (G.after (G.hull S) a) w := rfl

theorem reached_hull (S : Set σ) (w : List α) : G.reached (G.hull S) w = G.reached S w := by
  rw [reached, hull_hull, reached]

theorem reached_append (S : Set σ) (w : List α) (a : α) :
    G.reached S (w ++ [a]) = G.hull (G.after (G.reached S w) a) := by
  simp only [reached, List.foldl_append, List.foldl_cons, List.foldl_nil]

/-- **Letter by letter** is along whole paths. -/
theorem mem_reached {S : Set σ} {w : List α} {z : σ} :
    z ∈ G.reached S w ↔ ∃ x ∈ S, G.Path x w z := by
  have whole : ∀ T : Set σ, G.hull T = T →
      (z ∈ w.foldl (fun T a => G.hull (G.after T a)) T ↔ ∃ x ∈ T, G.Path x w z) := by
    induction w with
    | nil =>
        intro T full
        exact Set.ext_iff.mp full.symm z
    | cons a w ih =>
        intro T full
        rw [List.foldl_cons, ih _ (hull_hull _)]
        constructor
        · rintro ⟨y', ⟨y, ⟨x, inside, reads⟩, silent⟩, rest⟩
          exact ⟨x, inside, .edge reads (silent.append rest)⟩
        · rintro ⟨x, inside, path⟩
          obtain ⟨y, y', silent, reads, rest⟩ := path.uncons
          have held : y ∈ T := by
            rw [← full]
            exact ⟨x, inside, silent⟩
          exact ⟨y', ⟨y', ⟨y, held, reads⟩, .nil y'⟩, rest⟩
  rw [reached, whole _ (hull_hull S)]
  constructor
  · rintro ⟨y, ⟨x, inside, silent⟩, path⟩
    exact ⟨x, inside, by simpa using silent.append path⟩
  · rintro ⟨x, inside, path⟩
    exact ⟨x, ⟨x, inside, .nil x⟩, path⟩

/-- Without an edge every word but the empty one leads to no state. -/
theorem reached_of_no_edge (stuck : ∀ x a y, ¬ G.edge x a y) (S : Set σ) (a : α) (w : List α) :
    G.reached S (a :: w) = ∅ := by
  rw [Set.eq_empty_iff_forall_notMem]
  intro z mem
  obtain ⟨x, -, path⟩ := mem_reached.mp mem
  obtain ⟨y, y', -, reads, -⟩ := path.uncons
  exact stuck y a y' reads

theorem reached_empty (w : List α) : G.reached ∅ w = ∅ := by
  apply Set.eq_empty_of_forall_notMem
  intro z mem
  obtain ⟨x, none, -⟩ := mem_reached.mp mem
  exact none

theorem succ_addEps {i j x y : σ} : (G.addEps i j).Succ x y ↔ G.Succ x y ∨ (x = i ∧ y = j) := by
  simp only [Succ, addEps]
  tauto

end Graph

open HybridSearch.Theory.Thompson.Graph

/-- **A fragment** of a graph. -/
structure Frag (G : Graph σ α) (S : Set σ) (s e : σ) (L : Language α) : Prop where
  entry : s ∈ S
  leave : e ∈ S
  closed : ∀ x ∈ S, ∀ y, G.Succ x y → y ∈ S
  free : ∀ y, ¬ G.Succ e y
  source : ∀ x ∈ S, ¬ G.Succ x s
  lang : ∀ w, G.Path s w e ↔ w ∈ L

namespace Frag

variable {G H : Graph σ α} {S T : Set σ} {s e s' e' : σ} {L K : Language α}

/-- A fragment survives in a graph with the same edges out of its states. -/
theorem transfer (frag : Frag G S s e L) (agree : AgreeOn S G H) : Frag H S s e L := by
  have succ : ∀ x ∈ S, ∀ y, H.Succ x y → G.Succ x y := by
    rintro x inside y (silent | ⟨a, reads⟩)
    · exact .inl (((agree x inside).1 y).mpr silent)
    · exact .inr ⟨a, ((agree x inside).2 a y).mpr reads⟩
  have back : AgreeOn S H G := fun x inside =>
    ⟨fun y => ((agree x inside).1 y).symm, fun a y => ((agree x inside).2 a y).symm⟩
  have closed : ∀ x ∈ S, ∀ y, H.Succ x y → y ∈ S :=
    fun x inside y next => frag.closed x inside y (succ x inside y next)
  exact ⟨frag.entry, frag.leave, closed, fun y next => frag.free y (succ e frag.leave y next),
    fun x inside next => frag.source x inside (succ x inside s next), fun w =>
      ⟨fun path => (frag.lang w).mp (path.transfer back closed frag.entry),
        fun mem => ((frag.lang w).mpr mem).transfer agree frag.closed frag.entry⟩⟩

/-- Two states without edges read nothing. -/
theorem bare (differ : s ≠ e) (bare : ∀ y, ¬ G.Succ s y) (bare' : ∀ y, ¬ G.Succ e y) :
    Frag G {s, e} s e 0 := by
  refine ⟨.inl rfl, .inr rfl, ?_, bare', ?_, fun w => ⟨fun path => ?_, fun mem => ?_⟩⟩
  · rintro x (rfl | rfl) y next
    · exact absurd next (bare y)
    · exact absurd next (bare' y)
  · rintro x (rfl | rfl)
    · exact bare _
    · exact bare' _
  · exact absurd (path.of_free bare).2.symm differ
  · exact absurd mem (Language.notMem_zero w)

/-- **A letter**: an edge from the entry to the exit. -/
theorem letter {A : Set α} (differ : s ≠ e) (loud : ∀ y, ¬ G.eps s y)
    (edge : ∀ a y, G.edge s a y ↔ a ∈ A ∧ y = e) (bare : ∀ y, ¬ G.Succ e y) :
    Frag G {s, e} s e {w | ∃ a ∈ A, w = [a]} := by
  have succ : ∀ y, G.Succ s y → y = e := by
    rintro y (silent | ⟨a, reads⟩)
    · exact absurd silent (loud y)
    · exact ((edge a y).mp reads).2
  refine ⟨.inl rfl, .inr rfl, ?_, bare, ?_, fun w => ⟨fun path => ?_, ?_⟩⟩
  · rintro x (rfl | rfl) y next
    · exact .inr (succ y next)
    · exact absurd next (bare y)
  · rintro x (rfl | rfl) next
    · exact differ (succ _ next)
    · exact bare _ next
  · cases path with
    | nil => exact absurd rfl differ
    | eps silent _ => exact absurd silent (loud _)
    | edge reads rest =>
        obtain ⟨mem, rfl⟩ := (edge _ _).mp reads
        obtain ⟨rfl, -⟩ := rest.of_free bare
        exact ⟨_, mem, rfl⟩
  · rintro ⟨a, mem, rfl⟩
    exact .edge ((edge a e).mpr ⟨mem, rfl⟩) (.nil e)

/-- **Sequence**: a silent edge from one exit to the next entry. -/
theorem cat (first : Frag G S s e L) (second : Frag G T s' e' K) (outside : ∀ x ∈ T, x ∉ S) :
    Frag (G.addEps e s') (S ∪ T) s e' (L * K) := by
  refine ⟨.inl first.entry, .inr second.leave, ?_, ?_, ?_, fun w => ⟨fun path => ?_, ?_⟩⟩
  · rintro x inside y next
    rcases succ_addEps.mp next with next | ⟨rfl, rfl⟩
    · rcases inside with inS | inT
      · exact .inl (first.closed x inS y next)
      · exact .inr (second.closed x inT y next)
    · exact .inr second.entry
  · intro y next
    rcases succ_addEps.mp next with next | ⟨rfl, -⟩
    · exact second.free y next
    · exact outside _ second.leave first.leave
  · rintro x inside next
    rcases succ_addEps.mp next with next | ⟨-, rfl⟩
    · rcases inside with inS | inT
      · exact first.source x inS next
      · exact outside _ (second.closed x inT s next) first.entry
    · exact outside _ second.entry first.entry
  · -- from a state of the first part: the rest of its word, then a word of the second
    have reads : (s ∈ S → ∃ v u, w = v ++ u ∧ G.Path s v e ∧ u ∈ K) ∧ (s ∈ T → G.Path s w e') := by
      refine path.backward (P := fun x w =>
        (x ∈ S → ∃ v u, w = v ++ u ∧ G.Path x v e ∧ u ∈ K) ∧ (x ∈ T → G.Path x w e')) ?_ ?_ ?_
      · exact ⟨fun inS => absurd inS (outside _ second.leave), fun _ => .nil _⟩
      · rintro x y w silent ⟨ihS, ihT⟩
        refine ⟨fun inS => ?_, fun inT => ?_⟩
        · rcases silent with silent | ⟨rfl, rfl⟩
          · obtain ⟨v, u, rfl, path, mem⟩ := ihS (first.closed x inS y (.inl silent))
            exact ⟨v, u, rfl, .eps silent path, mem⟩
          · exact ⟨[], w, rfl, .nil _, (second.lang w).mp (ihT second.entry)⟩
        · rcases silent with silent | ⟨rfl, rfl⟩
          · exact .eps silent (ihT (second.closed x inT y (.inl silent)))
          · exact absurd first.leave (outside _ inT)
      · rintro x a y w reads ⟨ihS, ihT⟩
        refine ⟨fun inS => ?_, fun inT => ?_⟩
        · obtain ⟨v, u, rfl, path, mem⟩ := ihS (first.closed x inS y (.inr ⟨a, reads⟩))
          exact ⟨a :: v, u, rfl, .edge reads path, mem⟩
        · exact .edge reads (ihT (second.closed x inT y (.inr ⟨a, reads⟩)))
    obtain ⟨v, u, rfl, path, mem⟩ := reads.1 first.entry
    exact Language.append_mem_mul ((first.lang v).mp path) mem
  · rintro ⟨v, memL, u, memK, rfl⟩
    exact (((first.lang v).mpr memL).addEps e s').append
      (.eps (.inr ⟨rfl, rfl⟩) (((second.lang u).mpr memK).addEps e s'))

/-- **Choice**: a further branch between the entry and the exit. -/
theorem alt (frag : Frag G S s e L) (branch : Frag G T s' e' K) (outside : ∀ x ∈ T, x ∉ S)
    (differ : s ≠ e) : Frag ((G.addEps s s').addEps e' e) (S ∪ T) s e (L + K) := by
  have succ : ∀ x y, ((G.addEps s s').addEps e' e).Succ x y →
      G.Succ x y ∨ (x = s ∧ y = s') ∨ (x = e' ∧ y = e) := by
    intro x y next
    rw [succ_addEps, succ_addEps] at next
    tauto
  refine ⟨.inl frag.entry, .inl frag.leave, ?_, ?_, ?_, fun w => ⟨fun path => ?_, ?_⟩⟩
  · rintro x inside y next
    rcases succ x y next with next | ⟨-, rfl⟩ | ⟨-, rfl⟩
    · rcases inside with inS | inT
      · exact .inl (frag.closed x inS y next)
      · exact .inr (branch.closed x inT y next)
    · exact .inr branch.entry
    · exact .inl frag.leave
  · intro y next
    rcases succ e y next with next | ⟨same, -⟩ | ⟨same, -⟩
    · exact frag.free y next
    · exact differ same.symm
    · exact outside e' branch.leave (same ▸ frag.leave)
  · rintro x inside next
    rcases succ x s next with next | ⟨-, same⟩ | ⟨-, same⟩
    · rcases inside with inS | inT
      · exact frag.source x inS next
      · exact outside s (branch.closed x inT s next) frag.entry
    · exact outside s' branch.entry (same ▸ frag.entry)
    · exact differ same
  · have inner : ∀ x ∈ S, ∀ y w, G.Succ x y → (y ∈ S → y ≠ s → G.Path y w e) → G.Path y w e :=
      fun x inS y w next reads => reads (frag.closed x inS y next)
        fun same => frag.source x inS (same ▸ next)
    have reads : (s = s → w ∈ L + K) ∧ (s ∈ S → s ≠ s → G.Path s w e) ∧ (s ∈ T → G.Path s w e') := by
      refine path.backward (P := fun x w => (x = s → w ∈ L + K) ∧ (x ∈ S → x ≠ s → G.Path x w e) ∧
        (x ∈ T → G.Path x w e')) ?_ ?_ ?_
      · exact ⟨fun same => absurd same.symm differ, fun _ _ => .nil _,
          fun inT => absurd frag.leave (outside _ inT)⟩
      · rintro x y w silent ⟨-, ihS, ihT⟩
        refine ⟨?_, fun inS notEntry => ?_, fun inT => ?_⟩
        · rintro rfl
          rcases silent with (silent | ⟨-, rfl⟩) | ⟨same, -⟩
          · exact .inl ((frag.lang w).mp (.eps silent (inner x frag.entry y w (.inl silent) ihS)))
          · exact .inr ((branch.lang w).mp (ihT branch.entry))
          · exact absurd frag.entry (outside _ (same ▸ branch.leave))
        · rcases silent with (silent | ⟨same, -⟩) | ⟨rfl, -⟩
          · exact .eps silent (inner x inS y w (.inl silent) ihS)
          · exact absurd same notEntry
          · exact absurd inS (outside _ branch.leave)
        · rcases silent with (silent | ⟨rfl, -⟩) | ⟨rfl, rfl⟩
          · exact .eps silent (ihT (branch.closed x inT y (.inl silent)))
          · exact absurd frag.entry (outside _ inT)
          · obtain ⟨rfl, -⟩ := (ihS frag.leave (Ne.symm differ)).of_free frag.free
            exact .nil _
      · rintro x a y w reads ⟨-, ihS, ihT⟩
        refine ⟨?_, fun inS _ => ?_, fun inT => ?_⟩
        · rintro rfl
          exact .inl ((frag.lang _).mp (.edge reads (inner x frag.entry y w (.inr ⟨a, reads⟩) ihS)))
        · exact .edge reads (inner x inS y w (.inr ⟨a, reads⟩) ihS)
        · exact .edge reads (ihT (branch.closed x inT y (.inr ⟨a, reads⟩)))
    exact reads.1 rfl
  · rintro (memL | memK)
    · exact (((frag.lang w).mpr memL).addEps s s').addEps e' e
    · have through := (((branch.lang w).mpr memK).addEps s s').addEps e' e
      have enter : ((G.addEps s s').addEps e' e).eps s s' := Or.inl (Or.inr ⟨rfl, rfl⟩)
      have whole := (Path.eps enter through).append (.eps (.inr ⟨rfl, rfl⟩) (.nil e))
      rwa [List.append_nil] at whole

/-- What may follow one pass through a loop. -/
def passes (again : Prop) (K : Language α) : Language α := {w | w = [] ∨ (again ∧ w ∈ K∗)}

theorem append_mem_passes {again : Prop} (agains : again) {v u : List α} (first : v ∈ K)
    (rest : u ∈ passes again K) : v ++ u ∈ passes again K := by
  have iterated : u ∈ K∗ := by
    rcases rest with rfl | ⟨-, mem⟩
    · exact Language.nil_mem_kstar K
    · exact mem
  obtain ⟨words, rfl, all⟩ := Language.mem_kstar.mp iterated
  exact .inr ⟨agains, Language.mem_kstar.mpr ⟨v :: words, rfl, List.forall_mem_cons.mpr ⟨first, all⟩⟩⟩

theorem passes_true (K : Language α) : passes True K = K∗ := by
  ext w
  constructor
  · rintro (rfl | ⟨-, mem⟩)
    · exact Language.nil_mem_kstar K
    · exact mem
  · exact fun mem => .inr ⟨trivial, mem⟩

theorem passes_false (K : Language α) : passes False K = 1 := by
  ext w
  constructor
  · rintro (rfl | ⟨no, -⟩)
    · exact Language.nil_mem_one
    · exact no.elim
  · exact fun mem => .inl (Language.mem_one w |>.mp mem)

theorem around_star (K : Language α) :
    ({w | (w = [] ∧ True) ∨ w ∈ K * passes True K} : Language α) = K∗ := by
  rw [passes_true]
  conv_rhs => rw [← Language.one_add_self_mul_kstar_eq_kstar]
  simp only [and_true]
  rfl

theorem around_plus (K : Language α) :
    ({w | (w = [] ∧ False) ∨ w ∈ K * passes True K} : Language α) = K * K∗ := by
  rw [passes_true]
  simp only [and_false, false_or]
  rfl

theorem around_opt (K : Language α) :
    ({w | (w = [] ∧ True) ∨ w ∈ K * passes False K} : Language α) = 1 + K := by
  rw [passes_false, mul_one]
  simp only [and_true]
  rfl

/-- **Iteration**: an inner fragment between a new entry and a new exit, with a
silent edge past it (`skip`) and one back to its start (`again`). -/
theorem loop {skip again : Prop} (inner : Frag G T s' e' K) (apart : s ∉ T) (apart' : e ∉ T)
    (differ : s ≠ e) (eps : ∀ x y, H.eps x y ↔ G.eps x y ∨ (x = s ∧ y = s') ∨ (x = s ∧ y = e ∧ skip) ∨
      (x = e' ∧ y = e) ∨ (x = e' ∧ y = s' ∧ again))
    (edge : ∀ x a y, H.edge x a y ↔ G.edge x a y) (bare : ∀ y, ¬ G.Succ s y)
    (bare' : ∀ y, ¬ G.Succ e y) :
    Frag H ({s, e} ∪ T) s e {w | (w = [] ∧ skip) ∨ w ∈ K * passes again K} := by
  have succ : ∀ x y, H.Succ x y → G.Succ x y ∨ (x = s ∧ (y = s' ∨ y = e)) ∨
      (x = e' ∧ (y = e ∨ y = s')) := by
    rintro x y (silent | ⟨a, reads⟩)
    · rcases (eps x y).mp silent with h | ⟨h, h'⟩ | ⟨h, h', -⟩ | ⟨h, h'⟩ | ⟨h, h', -⟩
      · exact .inl (.inl h)
      · exact .inr (.inl ⟨h, .inl h'⟩)
      · exact .inr (.inl ⟨h, .inr h'⟩)
      · exact .inr (.inr ⟨h, .inl h'⟩)
      · exact .inr (.inr ⟨h, .inr h'⟩)
    · exact .inl (.inr ⟨a, (edge x a y).mp reads⟩)
  have memT : ∀ x ∈ T, x ≠ s ∧ x ≠ e := fun x inT =>
    ⟨fun same => apart (same ▸ inT), fun same => apart' (same ▸ inT)⟩
  refine ⟨.inl (.inl rfl), .inl (.inr rfl), ?_, ?_, ?_, fun w => ⟨fun path => ?_, ?_⟩⟩
  · rintro x inside y next
    rcases succ x y next with next | ⟨-, rfl | rfl⟩ | ⟨-, rfl | rfl⟩
    · rcases inside with (rfl | rfl) | inT
      · exact absurd next (bare y)
      · exact absurd next (bare' y)
      · exact .inr (inner.closed x inT y next)
    · exact .inr inner.entry
    · exact .inl (.inr rfl)
    · exact .inl (.inr rfl)
    · exact .inr inner.entry
  · intro y next
    rcases succ e y next with next | ⟨same, -⟩ | ⟨same, -⟩
    · exact bare' y next
    · exact differ same.symm
    · exact (memT e' inner.leave).2 same.symm
  · rintro x inside next
    rcases succ x s next with next | ⟨-, same | same⟩ | ⟨-, same | same⟩
    · rcases inside with (rfl | rfl) | inT
      · exact bare _ next
      · exact bare' _ next
      · exact apart (inner.closed x inT s next)
    · exact apart (same ▸ inner.entry)
    · exact differ same
    · exact differ same
    · exact apart (same ▸ inner.entry)
  · have reads : (s = s → (w = [] ∧ skip) ∨ w ∈ K * passes again K) ∧ (s = e → w = []) ∧
        (s ∈ T → ∃ v u, w = v ++ u ∧ G.Path s v e' ∧ u ∈ passes again K) := by
      refine path.backward (P := fun x w => (x = s → (w = [] ∧ skip) ∨ w ∈ K * passes again K) ∧ (x = e → w = []) ∧
        (x ∈ T → ∃ v u, w = v ++ u ∧ G.Path x v e' ∧ u ∈ passes again K)) ?_ ?_ ?_
      · exact ⟨fun same => absurd same.symm differ, fun _ => rfl, fun inT => absurd inT apart'⟩
      · rintro x y w silent ⟨-, ihE, ihT⟩
        refine ⟨?_, ?_, fun inT => ?_⟩
        · rintro rfl
          rcases (eps x y).mp silent with h | ⟨-, rfl⟩ | ⟨-, rfl, skips⟩ | ⟨h, -⟩ | ⟨h, -, -⟩
          · exact absurd (.inl h) (bare y)
          · obtain ⟨v, u, rfl, path, mem⟩ := ihT inner.entry
            exact .inr (Language.append_mem_mul ((inner.lang v).mp path) mem)
          · exact .inl ⟨ihE rfl, skips⟩
          · exact absurd (h ▸ inner.leave) apart
          · exact absurd (h ▸ inner.leave) apart
        · rintro rfl
          rcases (eps x y).mp silent with h | ⟨h, -⟩ | ⟨h, -, -⟩ | ⟨h, -⟩ | ⟨h, -, -⟩
          · exact absurd (.inl h) (bare' y)
          · exact absurd h.symm differ
          · exact absurd h.symm differ
          · exact absurd (h ▸ inner.leave) apart'
          · exact absurd (h ▸ inner.leave) apart'
        · rcases (eps x y).mp silent with h | ⟨h, -⟩ | ⟨h, -, -⟩ | ⟨rfl, rfl⟩ | ⟨rfl, rfl, agains⟩
          · obtain ⟨v, u, rfl, path, mem⟩ := ihT (inner.closed x inT y (.inl h))
            exact ⟨v, u, rfl, .eps h path, mem⟩
          · exact absurd h (memT x inT).1
          · exact absurd h (memT x inT).1
          · exact ⟨[], w, rfl, .nil _, (.inl (ihE rfl))⟩
          · obtain ⟨v, u, rfl, path, mem⟩ := ihT inner.entry
            exact ⟨[], v ++ u, rfl, .nil _,
              append_mem_passes agains ((inner.lang v).mp path) mem⟩
      · rintro x a y w reads ⟨-, -, ihT⟩
        have reads := (edge x a y).mp reads
        refine ⟨?_, ?_, fun inT => ?_⟩
        · rintro rfl
          exact absurd (.inr ⟨a, reads⟩) (bare y)
        · rintro rfl
          exact absurd (.inr ⟨a, reads⟩) (bare' y)
        · obtain ⟨v, u, rfl, path, mem⟩ := ihT (inner.closed x inT y (.inr ⟨a, reads⟩))
          exact ⟨a :: v, u, rfl, .edge reads path, mem⟩
    exact reads.1 rfl
  · have lift : ∀ x v y, G.Path x v y → H.Path x v y := fun x v y path =>
      path.mono (fun x y silent => (eps x y).mpr (.inl silent)) fun x a y reads => (edge x a y).mpr reads
    have exits : H.eps e' e := (eps e' e).mpr (.inr (.inr (.inr (.inl ⟨rfl, rfl⟩))))
    have enters : ∀ v ∈ K, H.Path s' v e' := fun v memK => lift _ _ _ ((inner.lang v).mpr memK)
    have tail : ∀ u ∈ passes again K, H.Path e' u e := by
      rintro u (rfl | ⟨agains, mem⟩)
      · exact .eps exits (.nil e)
      · obtain ⟨words, rfl, all⟩ := Language.mem_kstar.mp mem
        have back : H.eps e' s' := (eps e' s').mpr (.inr (.inr (.inr (.inr ⟨rfl, rfl, agains⟩))))
        induction words with
        | nil => exact .eps exits (.nil e)
        | cons v words ih =>
            obtain ⟨memK, rest⟩ := List.forall_mem_cons.mp all
            exact .eps back ((enters v memK).append
              (ih rest (Language.join_mem_kstar rest)))
    rintro (⟨rfl, skips⟩ | ⟨v, memK, u, memR, rfl⟩)
    · exact .eps ((eps s e).mpr (.inr (.inr (.inl ⟨rfl, rfl, skips⟩)))) (.nil e)
    · exact .eps ((eps s s').mpr (.inr (.inl ⟨rfl, rfl⟩))) ((enters v memK).append (tail u memR))

end Frag

end HybridSearch.Theory.Thompson
