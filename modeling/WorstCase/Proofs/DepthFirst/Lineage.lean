import Mathlib.Order.Bounds.Defs
import WorstCase.Proofs.DepthFirst.Recursive
import WorstCase.Proofs.Loop.Climb

/-!
# Lineages in a depth-first tree

The *lineage* of a vertex is the chain of the vertex, its parent, the parent of that and so on up to
the root (`Lineage`). The stack of a search is at all times the lineage of the current vertex, so
the height of the stack when a vertex is left is the length of its lineage, and the height of the
tree is the length of the longest one (`Search.Measured`, `isGreatest_height`).

The tree tells ancestors from the places of vertices in its two orders. What it tells is the
lineage: the ancestors of a vertex are the vertices on it (`Lawful.mem_lineage_iff`). With the
places themselves and the vertices that are not reached, this is all that the numbering says about a
graph (`Numbered`, `search_numbers`).
-/

namespace WorstCase

/-- The chain of a vertex, its parent, the parent of that and so on up to the root. -/
inductive Lineage (parent? : Nat → Option Nat) (root : Nat) : Nat → List Nat → Prop
  | root : Lineage parent? root root [root]
  | child {v p : Nat} {chain : List Nat} (hv : parent? v = some p)
      (hp : Lineage parent? root p chain) : Lineage parent? root v (v :: chain)

namespace Lineage

variable {parent? parent?' : Nat → Option Nat} {root v : Nat} {chain chain' : List Nat}

theorem exists_cons (h : Lineage parent? root v chain) : ∃ around, chain = v :: around := by
  cases h with
  | root => exact ⟨[], rfl⟩
  | child _ _ => exact ⟨_, rfl⟩

theorem length_pos (h : Lineage parent? root v chain) : 0 < chain.length := by
  obtain ⟨around, rfl⟩ := h.exists_cons
  exact Nat.succ_pos _

/-- A lineage stays one when further vertices get parents. -/
theorem mono (hmono : ∀ w p, parent? w = some p → parent?' w = some p)
    (h : Lineage parent? root v chain) : Lineage parent?' root v chain := by
  induction h with
  | root => exact .root
  | child hv _ ih => exact .child (hmono _ _ hv) ih

theorem tail {w : Nat} {around : List Nat} (h : Lineage parent? root v (v :: w :: around)) :
    Lineage parent? root w (w :: around) := by
  cases h with
  | child hv hp =>
    obtain ⟨_, he⟩ := hp.exists_cons
    cases he
    exact hp

/-- A vertex has one lineage, if the root has no parent. -/
theorem unique (hroot : parent? root = none) (h : Lineage parent? root v chain)
    (h' : Lineage parent? root v chain') : chain = chain' := by
  induction h generalizing chain' with
  | root =>
    cases h' with
    | root => rfl
    | child hv _ =>
      rw [hroot] at hv
      cases hv
  | child hv _ ih =>
    cases h' with
    | root =>
      rw [hroot] at hv
      cases hv
    | child hv' hp' =>
      cases hv.symm.trans hv'
      rw [ih hp']

end Lineage

/-! ## The stack of a search -/

namespace Search

/-- What the stack and the height say in every state of a search from `root`. -/
structure Measured (root : Nat) (s : Search) : Prop where
  stack : ∀ v rest, s.onStack = v :: rest → Lineage (s.parents.lookup ·) root v (v :: rest)
  left : ∀ v ∈ s.postOrder, ∃ chain, Lineage (s.parents.lookup ·) root v chain ∧
    chain.length ≤ s.height
  height : s.height = 0 ∨ ∃ v chain, Lineage (s.parents.lookup ·) root v chain ∧
    chain.length = s.height

/-- At the start the root, which is its own lineage, is alone on the stack. -/
theorem measured_start (g : FlowGraph) (root : Nat) : Measured root (start g root) where
  stack v rest he := by
    cases he
    exact .root
  left v hv := absurd hv List.not_mem_nil
  height := Or.inl rfl

namespace Measured

variable {g : FlowGraph} {root : Nat} {s : Search}

/-- A vertex that is left has its lineage on the stack, and the height takes its length in. -/
theorem leave (h : Measured root s) {v : Nat} {rest : List Frame} (hs : s.stack = ⟨v, []⟩ :: rest) :
    Measured root (s.leave v rest) := by
  have hon := Inv.onStack_eq hs
  have hline := h.stack v _ hon
  have hlen : (v :: rest.map (·.vertex)).length = rest.length + 1 := by simp
  refine ⟨?_, ?_, ?_⟩
  · intro w around he
    have hrest : rest.map (·.vertex) = w :: around := he
    rw [hrest] at hline
    exact hline.tail
  · intro w hw
    rcases List.mem_append.1 hw with hw | hw
    · obtain ⟨chain, hchain, hle⟩ := h.left w hw
      exact ⟨chain, hchain, Nat.le_trans hle (Nat.le_max_left _ _)⟩
    · rw [List.mem_singleton.1 hw]
      exact ⟨_, hline, hlen ▸ Nat.le_max_right _ _⟩
  · -- the greater of two lengths is one of them
    rcases Nat.le_total s.height (rest.length + 1) with hle | hle
    · refine Or.inr ⟨v, _, hline, ?_⟩
      rw [hlen]
      exact (Nat.max_eq_right hle).symm
    · have hmax : (s.leave v rest).height = s.height := Nat.max_eq_left hle
      rw [hmax]
      exact h.height

/-- A vertex that is come to continues the lineage of the vertex it was found from. -/
theorem enter (h : Measured root s) (hinv : Inv g root s) {v w : Nat} {pending : List Nat}
    {rest : List Frame} (hs : s.stack = ⟨v, w :: pending⟩ :: rest) (hw : w ∉ s.preOrder) :
    Measured root (s.enter g v w (⟨v, pending⟩ :: rest)) := by
  have hon := Inv.onStack_eq hs
  have hnone := lookup_parents_eq_none hinv hw
  have hmono : ∀ x p, s.parents.lookup x = some p →
      (s.parents ++ [(w, v)]).lookup x = some p := by
    intro x p hx
    rw [List.lookup_append, hx, Option.some_or]
  have hnew : (s.parents ++ [(w, v)]).lookup w = some v := by
    rw [List.lookup_append, hnone, Option.none_or, List.lookup_cons_self]
  refine ⟨?_, ?_, ?_⟩
  · intro x around he
    cases he
    exact .child hnew ((h.stack v _ hon).mono hmono)
  · intro x hx
    obtain ⟨chain, hchain, hle⟩ := h.left x hx
    exact ⟨chain, hchain.mono hmono, hle⟩
  · refine h.height.imp_right ?_
    rintro ⟨x, chain, hchain, hlen⟩
    exact ⟨x, chain, hchain.mono hmono, hlen⟩

theorem look (h : Measured root s) {v w : Nat} {pending : List Nat} {rest : List Frame}
    (hs : s.stack = ⟨v, w :: pending⟩ :: rest) :
    Measured root { s.lookBack v w with stack := ⟨v, pending⟩ :: rest } := by
  have hon := Inv.onStack_eq hs
  refine ⟨?_, ?_, ?_⟩
  · intro x around he
    simp only [lookBack_parents]
    exact h.stack x around (hon.trans he)
  · simpa only [lookBack_parents, lookBack_postOrder, lookBack_height] using h.left
  · simpa only [lookBack_parents, lookBack_height] using h.height

/-- A step keeps the stack a lineage and the height the greatest length so far. -/
theorem step (h : Measured root s) (hinv : Inv g root s) : Measured root (s.step g) := by
  rcases hinv.step_cases with ⟨-, he⟩ | ⟨v, rest, hs, he⟩ | ⟨v, w, pending, rest, hs, hw, he⟩ |
    ⟨v, w, pending, rest, hs, -, he⟩ <;> rw [he]
  · exact h
  · exact h.leave hs
  · exact h.enter hinv hs hw
  · exact h.look hs

/-- The lineages stay measured along the whole search. -/
theorem run (hg : g.WellFormed) (steps : Nat) (h : Measured root s) (hinv : Inv g root s) :
    Measured root (s.run g steps) := by
  induction steps generalizing s with
  | zero => exact h
  | succ steps ih =>
    unfold Search.run
    split
    · exact h
    · exact ih (h.step hinv) (hinv.step hg)

end Measured

end Search

namespace DepthFirstTree

/-! ## Lineages are ancestors -/

/-- `a` is on the lineage of `v`. -/
def Above (t : DepthFirstTree) (a v : Nat) : Prop :=
  ∃ chain, Lineage t.parent? t.root v chain ∧ a ∈ chain

namespace Lawful

variable {g : FlowGraph} {t : DepthFirstTree} (ht : t.Lawful g)

include ht

/-- The root has no parent, and no vertex has two. -/
theorem notMem_root_parents : t.root ∉ t.parents.map (·.1) ∧ (t.parents.map (·.1)).Nodup := by
  have hnd := ht.pre_nodup
  rw [ht.pre_eq] at hnd
  exact List.nodup_cons.1 hnd

theorem parent?_root : t.parent? t.root = none := by
  cases hp : t.parent? t.root with
  | none => rfl
  | some p =>
    exact absurd (List.mem_map_of_mem (mem_parents_of_parent? hp)) ht.notMem_root_parents.1

theorem parent?_eq_some_iff {v p : Nat} : t.parent? v = some p ↔ (v, p) ∈ t.parents :=
  ⟨mem_parents_of_parent?, fun h => up_of_mem ht.notMem_root_parents.2 h⟩

/-- Every vertex that is reached has a lineage up to the root. -/
theorem exists_lineage {v : Nat} (hv : v ∈ t.preOrder) :
    ∃ chain, Lineage t.parent? t.root v chain := by
  induction v, hv using ht.parent_induction with
  | root => exact ⟨_, .root⟩
  | child v p hp ih =>
    obtain ⟨chain, hchain⟩ := ih
    exact ⟨_, .child (ht.parent?_eq_some_iff.2 hp) hchain⟩

theorem reached_of_lineage {v : Nat} {chain : List Nat} (h : Lineage t.parent? t.root v chain) :
    v ∈ t.preOrder := by
  cases h with
  | root => exact ht.root_mem
  | child hv _ => exact ht.child_mem (ht.parent?_eq_some_iff.1 hv)

/-- The ancestors of a vertex are the vertices on its lineage. -/
theorem mem_lineage_iff {a v : Nat} {chain : List Nat} (h : Lineage t.parent? t.root v chain) :
    a ∈ chain ↔ t.isAncestor a v := by
  induction h with
  | root =>
    rw [List.mem_singleton]
    constructor
    · rintro rfl
      exact ht.isAncestor_refl ht.root_mem
    · intro ha
      exact ht.isAncestor_antisymm ha (ht.root_isAncestor (ht.ancestor_mem ha))
  | child hv _ ih =>
    next v p chain hp =>
    obtain ⟨-, -, hanc, hmin⟩ := ht.parent _ (ht.parent?_eq_some_iff.1 hv)
    rw [List.mem_cons, ih]
    constructor
    · rintro (rfl | ha)
      · exact ht.isAncestor_refl (ht.descendant_mem hanc)
      · exact ht.isAncestor_trans ha hanc
    · exact hmin a

/-- The numbers of the search decide who is above whom in the tree. -/
theorem isAncestor_iff_above {a v : Nat} : t.isAncestor a v ↔ t.Above a v := by
  constructor
  · intro ha
    obtain ⟨chain, hchain⟩ := ht.exists_lineage (ht.descendant_mem ha)
    exact ⟨chain, hchain, (ht.mem_lineage_iff hchain).2 ha⟩
  · rintro ⟨chain, hchain, ha⟩
    exact (ht.mem_lineage_iff hchain).1 ha

end Lawful

theorem measured_of_search {g : FlowGraph} {root : Nat} {t : DepthFirstTree} (hg : g.WellFormed)
    (h : search g root = .ok t) : ∃ s : Search, s.Measured root ∧ s.postOrder = t.postOrder ∧
      s.parents = t.parents ∧ s.height = t.height := by
  unfold search at h
  split at h
  · next hroot =>
    rw [FlowGraph.hasVertex_iff] at hroot
    cases h
    exact ⟨_, (Search.measured_start g root).run hg (stepBound g) (Search.inv_start hroot), rfl,
      rfl, rfl⟩
  · cases h

/-- The height is the length of the longest lineage. -/
theorem isGreatest_height {g : FlowGraph} {root : Nat} {t : DepthFirstTree} (hg : g.WellFormed)
    (h : search g root = .ok t) :
    IsGreatest {k | ∃ v chain, Lineage t.parent? t.root v chain ∧ chain.length = k} t.height := by
  obtain ⟨ht, rfl⟩ := lawful_of_search hg h
  obtain ⟨s, hs, hpost, hparents, hheight⟩ := measured_of_search hg h
  have hparent : (s.parents.lookup ·) = t.parent? := by
    funext v
    rw [hparents, parent?]
  have hleft := hs.left
  rw [hpost, hparent, hheight] at hleft
  constructor
  · have htallest := hs.height
    rw [hparent, hheight] at htallest
    refine htallest.resolve_left fun hzero => ?_
    obtain ⟨chain, hchain, hle⟩ := hleft t.root ((ht.mem_post _).2 ht.root_mem)
    have := hchain.length_pos
    omega
  · rintro k ⟨v, chain, hchain, rfl⟩
    obtain ⟨chain', hchain', hle⟩ := hleft v ((ht.mem_post v).2 (ht.reached_of_lineage hchain))
    rwa [hchain.unique ht.parent?_root hchain']

/-! ## Places and vertices -/

open Search

/-- A place in an order without repetitions, counted from 1, belongs to the vertex that stands
there. -/
theorem position_eq_succ_iff {order : List Nat} (hnd : order.Nodup) {v i : Nat} :
    position order v = i + 1 ↔ order[i]? = some v := by
  unfold position
  split
  · next hv =>
    rw [List.contains_iff_mem] at hv
    rw [Nat.add_right_cancel_iff]
    constructor
    · rintro rfl
      exact List.getElem?_idxOf hv
    · intro hi
      obtain ⟨hlt, rfl⟩ := List.getElem?_eq_some_iff.1 hi
      exact hnd.idxOf_getElem i hlt
  · next hv =>
    rw [List.contains_iff_mem] at hv
    constructor
    · intro hi
      omega
    · intro hi
      exact absurd (List.mem_of_getElem? hi) hv

/-- What the outcome of a search of `g` says about the vertices of `g`. -/
structure Numbered (g : FlowGraph) (t : DepthFirstTree) : Prop where
  mem_preOrder : ∀ v, v ∈ t.preOrder ↔ ∃ es, g.Walk t.root es v
  mem_postOrder : ∀ v, v ∈ t.postOrder ↔ ∃ es, g.Walk t.root es v
  orders_nodup : t.preOrder.Nodup ∧ t.postOrder.Nodup
  preIndex : ∀ v i, t.preIndex? v = .ok (i + 1) ↔ t.preOrder[i]? = some v
  postIndex : ∀ v i, t.postIndex? v = .ok (i + 1) ↔ t.postOrder[i]? = some v
  /-- The vertices that are not reached keep the order of the graph and have the number 0. -/
  unreached : t.unreached.Sublist g.vertexIds ∧ t.unreached.Nodup
  mem_unreached : ∀ v, v ∈ t.unreached ↔ v ∈ g.vertexIds ∧ ¬ ∃ es, g.Walk t.root es v
  unreached_index : ∀ v ∈ t.unreached, t.preIndex? v = .ok 0 ∧ t.postIndex? v = .ok 0
  lineage : ∀ v ∈ t.preOrder, ∃! chain, Lineage t.parent? t.root v chain
  height : IsGreatest {k | ∃ v chain, Lineage t.parent? t.root v chain ∧ chain.length = k} t.height
  isAncestor : ∀ a v, t.isAncestor a v ↔ v ∈ t.preOrder ∧ t.Above a v

/-- A search of a well-formed graph gives a tree with all the laws of its numbers. -/
theorem numbered_of_search {g : FlowGraph} {root : Nat} {t : DepthFirstTree} (hg : g.WellFormed)
    (h : search g root = .ok t) : Numbered g t := by
  obtain ⟨ht, -⟩ := lawful_of_search hg h
  exact
    { mem_preOrder := fun v => ht.mem_preOrder_iff_exists_walk
      mem_postOrder := fun v => (ht.mem_post v).trans ht.mem_preOrder_iff_exists_walk
      orders_nodup := ⟨ht.pre_nodup, ht.post_nodup⟩
      preIndex := by
        intro v i
        rw [ht.preIndex?_eq_ok_iff, position_eq_succ_iff ht.pre_nodup]
        refine and_iff_right_of_imp fun hi => ?_
        exact ht.pre_mem v (List.mem_of_getElem? hi)
      postIndex := by
        intro v i
        rw [ht.postIndex?_eq_ok_iff, position_eq_succ_iff ht.post_nodup]
        refine and_iff_right_of_imp fun hi => ?_
        exact ht.pre_mem v ((ht.mem_post v).1 (List.mem_of_getElem? hi))
      unreached := by
        have hsub : t.unreached.Sublist g.vertexIds := ht.vertices_eq ▸ List.filter_sublist
        exact ⟨hsub, hsub.nodup hg.vertexIds_nodup⟩
      mem_unreached := by
        intro v
        rw [ht.mem_unreached_iff, ht.mem_preOrder_iff_exists_walk]
      unreached_index := by
        intro v hv
        obtain ⟨hmem, hpre⟩ := ht.mem_unreached_iff.1 hv
        have hpost : v ∉ t.postOrder := mt (ht.mem_post v).1 hpre
        rw [ht.preIndex?_eq_ok_iff, ht.postIndex?_eq_ok_iff]
        exact ⟨⟨hmem, position_eq_zero_iff.2 hpre⟩, hmem,
          position_eq_zero_iff.2 hpost⟩
      lineage := by
        intro v hv
        obtain ⟨chain, hchain⟩ := ht.exists_lineage hv
        exact ⟨chain, hchain, fun chain' h' => h'.unique ht.parent?_root hchain⟩
      height := isGreatest_height hg h
      isAncestor := by
        intro a v
        rw [ht.isAncestor_iff_above]
        refine (and_iff_right_of_imp ?_).symm
        rintro ⟨chain, hchain, -⟩
        exact ht.reached_of_lineage hchain }

/-- **The numbering of a graph.** From every vertex of a graph the search reaches what can be
reached; its two orders list this without repetitions and the numbers are the places in the orders;
the height is the length of the longest lineage; and the ancestors told from the numbers are the
vertices on the lineage. -/
theorem search_numbers {g : FlowGraph} (hg : g.Built) {root : Nat} (hroot : root ∈ g.vertexIds) :
    ∃ t, search g root = .ok t ∧ t.root = root ∧ Numbered g t := by
  obtain ⟨t, ht⟩ := exists_search hroot
  obtain ⟨-, hr⟩ := lawful_of_search hg.wellFormed ht
  exact ⟨t, ht, hr, numbered_of_search hg.wellFormed ht⟩

end DepthFirstTree

namespace Sample

/-- A loop through 1, 2 and 3 with a detour over 4, parallel edges from 1 to 2, an edge from 4 to
itself, and a vertex 5 that leads into the loop and cannot be reached from it. -/
def detached : GraphSpec where
  name := "detached"
  vertices := [5, 1, 2, 3, 4]
  edges := numbered
    [(1, 2, .trace), (2, 3, .trace), (3, 1, .trace), (1, 4, .trace), (4, 3, .trace), (1, 2, .trace),
      (4, 4, .trace), (5, 1, .trace)]
  entry? := some 1

def detachedGraph : FlowGraph :=
  detached.build.toOption.getD (.empty "detached")

theorem build_detached : detached.build = .ok detachedGraph := by
  decide

theorem built_detachedGraph : detachedGraph.Built :=
  GraphSpec.built_of_build (by simp [detached, numbered, EdgeKind.Ascending]) build_detached

end Sample

open Sample in
/-- The search of the sample from 1 does not reach 5. -/
theorem DepthFirstTree.search_numbers_detachedGraph :
    detachedGraph.Built ∧ 1 ∈ detachedGraph.vertexIds ∧ ∃ t, search detachedGraph 1 = .ok t ∧
      t.preOrder = [1, 2, 3, 4] ∧ t.postOrder = [3, 2, 4, 1] ∧ t.unreached = [5] ∧ t.height = 3 ∧
      Numbered detachedGraph t := by
  have hroot : 1 ∈ detachedGraph.vertexIds := by decide
  obtain ⟨t, ht, -, hnumbered⟩ := search_numbers built_detachedGraph hroot
  refine ⟨built_detachedGraph, hroot, t, ht, ?_⟩
  cases ht
  exact ⟨by decide, by decide, by decide, by decide, hnumbered⟩

end WorstCase
