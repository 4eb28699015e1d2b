import WorstCase.Proofs.DepthFirst.Lineage

/-!
# Edges and cycles in a depth-first tree

An edge is classified by what the search has noted when it looked at it. In terms of the finished
tree this says where the edge leads (`Classified`): a back edge leads to a vertex on the lineage of
its source, and every other edge leads to a vertex that is left earlier. Along a walk without back
edges the place in post-order falls with each edge (`Lawful.postIdx_add_length_le`), so every cycle
has a back edge.
-/

namespace WorstCase.DepthFirstTree

/-- How the edges of `g` lie in the outcome of a search of `g`. -/
structure Classified (g : FlowGraph) (t : DepthFirstTree) : Prop where
  back : ∀ e ∈ g.edges, e.source ∈ t.preOrder →
    (t.classify e.source e.destination = .back ↔ t.Above e.destination e.source)
  tree : ∀ e ∈ g.edges, e.source ∈ t.preOrder → (t.classify e.source e.destination = .tree ↔
    e.destination ≠ t.root ∧ t.parent? e.destination = some e.source)
  left_earlier : ∀ e ∈ g.edges, e.source ∈ t.preOrder →
    t.classify e.source e.destination ≠ .back → ∃ i j, t.postIndex? e.destination = .ok i ∧
      t.postIndex? e.source = .ok j ∧ 0 < i ∧ i < j
  cycle : ∀ v es, v ∈ t.preOrder → es ≠ [] → g.Walk v es v →
    ∃ e ∈ es, t.classify e.source e.destination = .back
  targets : ∀ u, (t.backTargets u).Nodup ∧
    ∀ v, v ∈ t.backTargets u ↔ g.Adj u v ∧ t.Above v u
  /-- The sources of the back edges to a vertex, in pre-order. -/
  sources : ∀ h, (t.backSources h).Sublist t.preOrder ∧ (t.backSources h).Nodup ∧
    ∀ u, u ∈ t.backSources h ↔ t.Above h u ∧ g.Adj u h

/-- No back edge is noted twice, however many parallel edges there are. -/
theorem nodup_backEdges_of_search {g : FlowGraph} {root : Nat} {t : DepthFirstTree}
    (h : search g root = .ok t) : t.backEdges.Nodup := by
  unfold search at h
  split at h
  · cases h
    exact Search.nodup_backEdges_run (stepBound g) List.nodup_nil
  · cases h

namespace Lawful

variable {g : FlowGraph} {t : DepthFirstTree} (ht : t.Lawful g)

include ht

/-- The back edges are the edges that lead to a vertex above their source. -/
theorem back_iff_above {u v : Nat} : (u, v) ∈ t.backEdges ↔ g.Adj u v ∧ t.Above v u := by
  rw [ht.back_iff, ht.isAncestor_iff_above]

/-- What the tree says of an edge agrees with what the search noted. -/
theorem classify_eq_back_iff_above {u v : Nat} (hadj : g.Adj u v) :
    t.classify u v = .back ↔ t.Above v u := by
  rw [ht.classify_eq_back_iff, ht.back_iff_above, and_iff_right hadj]

/-- Each edge of a walk without back edges leads to a vertex that is left earlier. -/
theorem postIdx_add_length_le {u v : Nat} {es : List Edge} (hu : u ∈ t.preOrder)
    (hw : g.Walk u es v) (hb : ∀ e ∈ es, (e.source, e.destination) ∉ t.backEdges) :
    t.postIdx v + es.length ≤ t.postIdx u := by
  induction es generalizing u with
  | nil =>
    cases hw
    exact Nat.le_refl _
  | cons e es ih =>
    obtain ⟨he, rfl, hw⟩ := hw
    have hadj : g.Adj e.source e.destination := ⟨e, he, rfl, rfl⟩
    have hlt := ht.postIdx_lt_of_adj hu hadj (hb e List.mem_cons_self)
    have hle := ih (ht.closed _ hu _ hadj) hw fun d hd => hb d (List.mem_cons_of_mem _ hd)
    rw [List.length_cons]
    omega

/-- Back edges cut every cycle: going round, some edge has to lead up the tree. -/
theorem exists_back_of_cycle {v : Nat} {es : List Edge} (hv : v ∈ t.preOrder) (hne : es ≠ [])
    (hw : g.Walk v es v) : ∃ e ∈ es, t.classify e.source e.destination = .back := by
  by_contra hnone
  have hle := ht.postIdx_add_length_le hv hw fun e he hb =>
    hnone ⟨e, he, ht.classify_eq_back_iff.2 hb⟩
  have hpos := List.length_pos_iff.2 hne
  omega

/-- The index in post-order is the place counted from 1. -/
theorem postIndex?_of_reached {v : Nat} (hv : v ∈ t.preOrder) :
    t.postIndex? v = .ok (t.postIdx v + 1) := by
  rw [ht.postIndex?_eq_ok_iff, Search.position_of_mem ((ht.mem_post v).2 hv)]
  exact ⟨ht.pre_mem v hv, rfl⟩

omit ht in
/-- A tree edge is one that leads from a vertex to a child, also if it has parallel edges. -/
theorem classify_eq_tree_iff {u v : Nat} :
    t.classify u v = .tree ↔ v ≠ t.root ∧ t.parent? v = some u := by
  unfold classify
  split
  · next hc => exact iff_of_true rfl hc
  · next hc =>
    refine iff_of_false ?_ hc
    split <;> simp

theorem classified (hb : t.backEdges.Nodup) : Classified g t where
  back e he _ := ht.classify_eq_back_iff_above ⟨e, he, rfl, rfl⟩
  tree _ _ _ := classify_eq_tree_iff
  left_earlier e he hu hne := by
    have hadj : g.Adj e.source e.destination := ⟨e, he, rfl, rfl⟩
    have hlt := ht.postIdx_lt_of_adj hu hadj (mt ht.classify_eq_back_iff.2 hne)
    refine ⟨_, _, ht.postIndex?_of_reached (ht.closed _ hu _ hadj), ht.postIndex?_of_reached hu, ?_⟩
    omega
  cycle _ _ hv hne hw := ht.exists_back_of_cycle hv hne hw
  targets u := ⟨nodup_backTargets hb u, fun v => mem_targets_iff.trans ht.back_iff_above⟩
  sources h := by
    refine ⟨List.filter_sublist, ht.pre_nodup.filter _, fun u => ?_⟩
    rw [ht.mem_backSources, ht.back_iff_above, and_comm]

end Lawful

/-- **Back edges close cycles.** For every vertex of a graph the search from it classifies the edges
by where they lead in its tree: back edges lead to the lineage of their source, the others to
vertices that are left earlier, and every cycle that can be reached has a back edge. -/
theorem search_classifies {g : FlowGraph} (hg : g.Built) {root : Nat} (hroot : root ∈ g.vertexIds) :
    ∃ t, search g root = .ok t ∧ t.root = root ∧ Classified g t := by
  obtain ⟨t, ht⟩ := exists_search hroot
  obtain ⟨hlaw, hr⟩ := lawful_of_search hg.wellFormed ht
  exact ⟨t, ht, hr, hlaw.classified (nodup_backEdges_of_search ht)⟩

open Sample in
/-- The sample has back edges from 3 to 1 and from 4 to itself, and a cross edge from 4 to 3. -/
theorem search_classifies_detachedGraph :
    detachedGraph.Built ∧ 1 ∈ detachedGraph.vertexIds ∧ ∃ t, search detachedGraph 1 = .ok t ∧
      t.backTargets 4 = [4] ∧ t.backSources 1 = [3] ∧ t.classify 4 3 = .crossOrForward ∧
      t.classify 1 2 = .tree ∧ Classified detachedGraph t := by
  have hroot : 1 ∈ detachedGraph.vertexIds := by decide
  obtain ⟨t, ht, -, hclass⟩ := search_classifies built_detachedGraph hroot
  refine ⟨built_detachedGraph, hroot, t, ht, ?_⟩
  cases ht
  exact ⟨by decide, by decide, by decide, by decide, hclass⟩

end WorstCase.DepthFirstTree
