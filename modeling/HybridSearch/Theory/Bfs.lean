/-
# Theory.Bfs -- breadth-first search that stops meeting nodes once there are enough

A search keeps the nodes it has met, in order, and takes them one after another to meet
their neighbours (`visit`).  While there are fewer than `want`, what was met is nowhere
farther than what was not (`Inv.nearer`), so the nodes are met in the order of their
distances.

* `ball_met`: the nodes that were met contain every ball that has no more nodes;
* `all_met`: a search that took all nodes it met, with fewer than it wants, has met every
  node that can be reached.
-/
import Mathlib.Data.List.Nodup
import Mathlib.Data.List.Perm.Subperm
import Mathlib.Logic.Relation
import Mathlib.Order.Nat

namespace HybridSearch.Theory

set_option autoImplicit false

namespace Bfs

universe u

variable {α : Type u} {adj : α → List α} {start : α}

/-! ## Distances -/

/-- The nodes of at most `d` steps from the start. -/
def Within (adj : α → List α) (start : α) : Nat → α → Prop
  | 0, v => v = start
  | d + 1, v => Within adj start d v ∨ ∃ u, Within adj start d u ∧ v ∈ adj u

theorem within_start (d : Nat) : Within adj start d start := by
  induction d with
  | zero => rfl
  | succ d ih => exact .inl ih

theorem reaches_iff {v : α} :
    Relation.ReflTransGen (fun a b => b ∈ adj a) start v ↔ ∃ d, Within adj start d v := by
  constructor
  · intro reached
    induction reached with
    | refl => exact ⟨0, rfl⟩
    | tail _ step before =>
        obtain ⟨d, within⟩ := before
        exact ⟨d + 1, .inr ⟨_, within, step⟩⟩
  · rintro ⟨d, within⟩
    induction d generalizing v with
    | zero => exact within ▸ .refl
    | succ d ih =>
        obtain before | ⟨u, within, step⟩ := within
        · exact ih before
        · exact (ih within).tail step

/-! ## The search -/

section Search

variable [DecidableEq α] {want : Nat}

/-- A node is met once, and only while there are not enough. -/
def meet (want : Nat) (order : List α) (v : α) : List α :=
  if order.length < want ∧ v ∉ order then order ++ [v] else order

/-- All neighbours of a node are met. -/
def visit (adj : α → List α) (want : Nat) (order : List α) (u : α) : List α :=
  (adj u).foldl (meet want) order

theorem prefix_meet (order : List α) (v : α) : order <+: meet want order v := by
  rw [meet]
  split_ifs
  · exact List.prefix_append _ _
  · exact List.prefix_refl _

theorem length_meet_le {order : List α} (few : order.length ≤ want) (v : α) : (meet want order v).length ≤ want := by
  rw [meet]
  split_ifs with fresh
  · rw [List.length_append, List.length_singleton]
    omega
  · exact few

theorem mem_meet {order : List α} {v : α} (room : (meet want order v).length < want) : v ∈ meet want order v := by
  rw [meet] at room ⊢
  split_ifs at room ⊢ with fresh
  · exact List.mem_append_right _ (List.mem_singleton_self v)
  · exact not_not.mp fun absent => fresh ⟨room, absent⟩

theorem foldl_meet (order vs : List α) :
    order <+: vs.foldl (meet want) order ∧
      (order.length ≤ want → (vs.foldl (meet want) order).length ≤ want) ∧
      ((vs.foldl (meet want) order).length < want → ∀ v ∈ vs, v ∈ vs.foldl (meet want) order) := by
  induction vs generalizing order with
  | nil => exact ⟨List.prefix_refl _, id, fun _ v mem => absurd mem List.not_mem_nil⟩
  | cons v rest ih =>
      obtain ⟨kept, few, all⟩ := ih (meet want order v)
      rw [List.foldl_cons]
      refine ⟨(prefix_meet order v).trans kept, fun small => few (length_meet_le small v), fun room x mem => ?_⟩
      rcases List.mem_cons.mp mem with rfl | mem
      · exact kept.subset (mem_meet (kept.length_le.trans_lt room))
      · exact all room x mem

/-! ## What a search has met -/

/-- The search after it took `head` nodes. -/
structure Inv (adj : α → List α) (start : α) (want head : Nat) (order : List α) : Prop where
  starts : start ∈ order
  once : order.Nodup
  reached : ∀ u ∈ order, ∃ d, Within adj start d u
  sorted : order.Pairwise fun u v => ∀ d, Within adj start d v → Within adj start d u
  /-- What is nearer than a node that was met was met. -/
  nearer : ∀ u ∈ order, ∀ d, ¬ Within adj start d u → ∀ v, Within adj start d v → v ∈ order
  met : order.length < want → ∀ i < head, ∀ u, order[i]? = some u → ∀ v ∈ adj u, v ∈ order

omit [DecidableEq α] in
theorem inv_start : Inv adj start want 0 [start] where
  starts := List.mem_singleton_self start
  once := List.nodup_singleton start
  reached _ mem := ⟨0, List.mem_singleton.mp mem⟩
  sorted := List.pairwise_singleton _ start
  nearer _ mem d far := absurd (List.mem_singleton.mp mem ▸ within_start d) far
  met _ i below := absurd below (Nat.not_lt_zero i)

variable {head : Nat} {order : List α} {u : α}

/-- **A neighbour of the node that is taken is met.** -/
theorem meet_inv (inv : Inv adj start want head order) (next : order[head]? = some u) {v : α} (edge : v ∈ adj u) :
    Inv adj start want head (meet want order v) := by
  rw [meet]
  split_ifs with fresh
  swap
  · exact inv
  obtain ⟨room, absent⟩ := fresh
  have mem_u : u ∈ order := List.mem_of_getElem? next
  obtain ⟨inside, at_head⟩ := List.getElem?_eq_some_iff.mp next
  -- nodes as near as the one that is taken have been met: they are neighbours of nearer ones
  have nearer (d : Nat) (far : ¬ Within adj start d v) (x : α) (within : Within adj start d x) : x ∈ order := by
    cases d with
    | zero => exact within ▸ inv.starts
    | succ d =>
        have far_u : ¬ Within adj start d u := fun near => far (.inr ⟨u, near, edge⟩)
        obtain before | ⟨p, near, step⟩ := within
        · exact inv.nearer u mem_u d far_u x before
        · obtain ⟨i, at_i⟩ := List.mem_iff_getElem?.mp (inv.nearer u mem_u d far_u p near)
          refine inv.met room i (Nat.lt_of_not_le fun later => ?_) p at_i x step
          obtain ⟨inside_i, same⟩ := List.getElem?_eq_some_iff.mp at_i
          rcases later.eq_or_lt with rfl | later
          · exact far_u (at_head ▸ same.symm ▸ near)
          · have no_nearer := List.pairwise_iff_getElem.mp inv.sorted head i inside inside_i later d
            rw [at_head, same] at no_nearer
            exact far_u (no_nearer near)
  have farther (x : α) (mem : x ∈ order) (d : Nat) (within : Within adj start d v) : Within adj start d x :=
    not_not.mp fun far => absent (inv.nearer x mem d far v within)
  obtain ⟨d, within⟩ := inv.reached u mem_u
  refine ⟨List.mem_append_left _ inv.starts, ?_, ?_, ?_, ?_, ?_⟩
  · rw [List.nodup_append]
    refine ⟨inv.once, List.nodup_singleton v, fun x mem y last => ?_⟩
    rw [List.mem_singleton.mp last]
    exact fun same => absent (same ▸ mem)
  · intro x mem
    rcases List.mem_append.mp mem with mem | last
    · exact inv.reached x mem
    · exact ⟨d + 1, .inr ⟨u, within, List.mem_singleton.mp last ▸ edge⟩⟩
  · refine List.pairwise_append.mpr ⟨inv.sorted, List.pairwise_singleton _ v, fun x mem y last => ?_⟩
    rw [List.mem_singleton.mp last]
    exact farther x mem
  · intro x mem e far y near
    refine List.mem_append_left _ ?_
    rcases List.mem_append.mp mem with mem | last
    · exact inv.nearer x mem e far y near
    · exact nearer e (List.mem_singleton.mp last ▸ far) y near
  · intro _ i below w at_i y step
    rw [List.getElem?_append_left (below.trans inside)] at at_i
    exact List.mem_append_left _ (inv.met room i below w at_i y step)

omit [DecidableEq α] in
theorem getElem?_of_kept {longer : List α} (kept : order <+: longer) {i : Nat} {v : α} (at_i : order[i]? = some v) :
    longer[i]? = some v := by
  obtain ⟨rest, rfl⟩ := kept
  rwa [List.getElem?_append_left (List.getElem?_eq_some_iff.mp at_i).1]

/-- **A node is taken**, and its neighbours are met. -/
theorem visit_inv (inv : Inv adj start want head order) (next : order[head]? = some u) :
    Inv adj start want (head + 1) (visit adj want order u) := by
  have meets (vs : List α) (edges : ∀ v ∈ vs, v ∈ adj u) {order : List α} (inv : Inv adj start want head order)
      (next : order[head]? = some u) : Inv adj start want head (vs.foldl (meet want) order) := by
    induction vs generalizing order with
    | nil => exact inv
    | cons v rest ih =>
        obtain ⟨edge, edges⟩ := List.forall_mem_cons.mp edges
        exact ih edges (meet_inv inv next edge) (getElem?_of_kept (prefix_meet order v) next)
  obtain ⟨kept, -, all⟩ := @foldl_meet α _ want order (adj u)
  have after := meets (adj u) (fun _ mem => mem) inv next
  refine ⟨after.starts, after.once, after.reached, after.sorted, after.nearer, fun room i below w at_i v step => ?_⟩
  rcases Nat.lt_succ_iff_lt_or_eq.mp below with below | rfl
  · exact after.met room i below w at_i v step
  · have own := getElem?_of_kept kept next
    rw [visit, own] at at_i
    cases at_i
    exact all room v step

/-- **Balls are met** when they have no more nodes than were met. -/
theorem ball_met (inv : Inv adj start want head order) {d : Nat} {ball : List α}
    (all : ∀ v, Within adj start d v → v ∈ ball) (few : ball.length ≤ order.length) {v : α}
    (within : Within adj start d v) : v ∈ order := by
  by_contra absent
  have inside : order ⊆ ball := fun x mem =>
    all x (not_not.mp fun far => absent (inv.nearer x mem d far v within))
  exact absent ((((inv.once.subperm inside).perm_of_length_le few).mem_iff).mpr (all v within))

omit [DecidableEq α] in
/-- **Everything is met** when the search ran out of nodes first. -/
theorem all_met (inv : Inv adj start want head order) (taken : order.length ≤ head) (room : order.length < want)
    {d : Nat} {v : α} (within : Within adj start d v) : v ∈ order := by
  induction d generalizing v with
  | zero => exact within ▸ inv.starts
  | succ d ih =>
      obtain before | ⟨u, near, step⟩ := within
      · exact ih before
      · obtain ⟨i, at_i⟩ := List.mem_iff_getElem?.mp (ih near)
        have inside := (List.getElem?_eq_some_iff.mp at_i).1
        exact inv.met room i (inside.trans_le taken) u at_i v step

end Search

end Bfs

end HybridSearch.Theory
