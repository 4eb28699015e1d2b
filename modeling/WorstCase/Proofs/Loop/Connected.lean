import WorstCase.Proofs.DepthFirst.Lineage
import WorstCase.Proofs.Loop.Nest

/-!
# Loops are strongly connected

The loop of a header is connected in both directions by walks that stay in it, also when it is
entered at several vertices (`loops_strongly_connected`).

From the header a vertex is reached along the tree: the tree edge into a vertex of the loop starts
in the loop (`Collapsed.within_of_climbs`). Back to the header the argument follows the way in which
the body was gathered (`Returns`). A vertex is gathered because an edge leads from the loop that it
stands for to a vertex gathered before, so it leads along the tree to the start of that edge and on
to a source of a back edge. Walks among the vertices below the header would not do here, since an
edge into the middle of an inner loop may start outside the outer one.
-/

namespace WorstCase.LoopNest

open Relation

variable {g : FlowGraph} {t : DepthFirstTree} {n : LoopNest}

namespace Collapsed

variable {done : List Nat} {c : Collapse}

/-- A header leads to each vertex of its loop inside the loop. -/
theorem within_of_climbs (hc : Collapsed g t done c) (ht : t.Spanning g) {v h : Nat}
    (hv : v ∈ t.preOrder) (hvh : Climbs c v h) : g.Within (Climbs c · h) h v := by
  induction hi : t.preIdx v using Nat.strongRecOn generalizing v with
  | _ i ih =>
    rcases ReflTransGen.cases_head hvh with rfl | ⟨p, hup, hph⟩
    · exact .refl (.refl v)
    · obtain ⟨hpv, hpne⟩ := hc.below _ hup.mem
      have hvr : v ≠ t.root := by
        rintro rfl
        exact hpne (ht.isAncestor_antisymm hpv (ht.root_isAncestor (ht.ancestor_mem hpv)))
      -- the parent `u` of `v` in the tree is in the loop that `v` was collapsed into
      obtain ⟨u, hu⟩ := ht.exists_parent hv hvr
      obtain ⟨hadj, hune, huv, hmin⟩ := ht.parent _ hu
      have hpu : t.isAncestor p u := (hmin p hpv).resolve_left hpne
      have hb : (u, v) ∉ t.backEdges := fun hb =>
        hune (ht.isAncestor_antisymm huv ((ht.back_iff u v).1 hb).2)
      have huh : Climbs c u h := (hc.closed _ hup.mem u hadj hb hpu).trans hph
      have hwithin := ih _ (hi ▸ ht.preIdx_lt huv hune) (ht.parent_mem hu) huh rfl
      exact hwithin.tail hadj hvh

end Collapsed

/-! ## The way back to the header -/

/-- Each vertex that was collapsed into a header leads to a source of a back edge to it inside the
loop. -/
def Returns (g : FlowGraph) (t : DepthFirstTree) (c : Collapse) : Prop :=
  ∀ q ∈ c, ∃ s, (s, q.2) ∈ t.backEdges ∧ g.Within (Climbs c · q.2) q.1 s

section turn

variable {done : List Nat} {c : Collapse} {h : Nat} (hc : Collapsed g t done c)
  (ht : t.Spanning g) (hlt : ∀ d ∈ done, t.postIdx d < t.postIdx h)

include hc ht hlt

theorem exists_source_of_mem_bodyOf {v : Nat} (hv : v ∈ bodyOf g t c h) :
    ∃ s, (s, h) ∈ t.backEdges ∧
      g.Within (Climbs (c ++ (bodyOf g t c h).map fun v => (v, h)) · h) v s := by
  have hiff : ∀ {v}, v ∈ bodyOf g t c h ↔ _ :=
    mem_bodyOf_iff ht.wellFormed ht.toLawful fun _ hs => hc.find_source_mem ht hlt hs
  -- what stands for a vertex leads down to it
  have hdown : ∀ u ∈ t.preOrder, c.find u ∈ bodyOf g t c h →
      g.Within (Climbs (c ++ (bodyOf g t c h).map fun v => (v, h)) · h) (c.find u) u := by
    intro u hu hmem
    have hwithin := hc.within_of_climbs ht hu (climbs_find (hc.ranked ht.toLawful) u)
    exact hwithin.mono fun x hx => hc.climbs_of_climbs_find ht hmem hx
  obtain ⟨s, hs, hne, hreach⟩ := hiff.1 hv
  refine ⟨s, hs, ?_⟩
  clear hv
  induction hreach with
  | refl =>
    have hmem := hc.find_mem_bodyOf ht hlt hs hne
    exact hdown s (ht.descendant_mem ((ht.back_iff s h).1 hs).2) hmem
  | tail hreach hp ih =>
    have hmem := hiff.2 ⟨s, hs, hne, hreach.tail hp⟩
    obtain ⟨u, hadj, -, rfl, -, -⟩ := hp
    have hwithin := hdown u (ht.source_reached hadj) hmem
    exact (hwithin.tail hadj ih.left).trans ih

theorem returns_collapseLoop (hr : Returns g t c) : Returns g t (collapseLoop g t c h) := by
  unfold collapseLoop
  split
  · exact hr
  · intro q hq
    rcases List.mem_append.1 hq with hq | hq
    · obtain ⟨s, hs, hwithin⟩ := hr q hq
      exact ⟨s, hs, hwithin.mono fun x hx => hx.append⟩
    · obtain ⟨v, hv, rfl⟩ := List.mem_map.1 hq
      exact exists_source_of_mem_bodyOf hc ht hlt hv

end turn

theorem returns_collapseAll (ht : t.Spanning g) : Returns g t (collapseAll g t) :=
  collapseAll_induction ht (fun _ hq => absurd hq List.not_mem_nil)
    fun _ _ _ hc hlt hr => returns_collapseLoop hc ht hlt hr

namespace FoundFrom

variable (hn : FoundFrom g t n)

include hn

theorem mem_of_contains {h v : Nat} (hh : h ∈ g.vertexIds) (hc : n.contains h v) :
    v ∈ g.vertexIds := by
  rcases ReflTransGen.cases_head (hn.contains_iff.1 hc) with rfl | ⟨p, hup, -⟩
  · exact hh
  · exact hn.pre_mem v (hn.descendant_mem (isAncestor_of_up hn.toSpanning hup).1)

theorem within_from_header {h v : Nat} (hh : h ∈ g.vertexIds) (hne : h ≠ t.root)
    (hc : n.contains h v) : g.Within (n.contains h · = true) h v := by
  have hv := (hn.reached v).2 (hn.mem_of_contains hh hc)
  have hwithin := (collapsed_collapseAll hn.toSpanning).within_of_climbs hn.toSpanning hv
    ((hn.contains_iff_collapse hne).1 hc)
  exact hwithin.mono fun x hx => (hn.contains_iff_collapse hne).2 hx

/-- Each vertex of a loop leads back to the header inside the loop: from a vertex to its parent over
a source of a back edge to the parent, and so on up. -/
theorem within_to_header {h v : Nat} (hne : h ≠ t.root) (hc : n.contains h v) :
    g.Within (n.contains h · = true) v h := by
  have hreturns := returns_collapseAll hn.toSpanning
  have hup := (hn.contains_iff_collapse hne).1 hc
  refine FlowGraph.Within.mono (fun x hx => (hn.contains_iff_collapse hne).2 hx) ?_
  clear hc
  induction hup using ReflTransGen.head_induction_on with
  | refl => exact .refl (.refl h)
  | head hup hrest ih =>
    next v p =>
    obtain ⟨s, hs, hwithin⟩ := hreturns _ hup.mem
    have hinside := hwithin.mono fun x (hx : Climbs (collapseAll g t) x p) => hx.trans hrest
    exact (hinside.tail ((hn.back_iff s p).1 hs).1 hrest).trans ih

/-- Two loops have no vertex in common, or one is inside the other. -/
theorem disjoint_or_included (h k : Nat) : (∀ v, n.contains h v → ¬ n.contains k v) ∨
    (∀ v, n.contains h v → n.contains k v) ∨ ∀ v, n.contains k v → n.contains h v := by
  by_cases hcommon : ∃ v, n.contains h v ∧ n.contains k v
  · obtain ⟨v, hh, hk⟩ := hcommon
    rcases hn.contains_total hh hk with hkh | hkh
    · exact Or.inr (Or.inr fun w hw => hn.contains_trans hkh hw)
    · exact Or.inr (Or.inl fun w hw => hn.contains_trans hkh hw)
  · exact Or.inl fun v hh hk => hcommon ⟨v, hh, hk⟩

end FoundFrom

open FlowGraph in
/-- **Loops are strongly connected.** In a graph whose entry reaches every vertex, also one with
loops that are entered at several vertices, the loop of a header other than the root lies below the
header, and walks inside the loop lead from the header to each of its vertices and back. The loop
holds the sources of the back edges to the header, and two loops are disjoint or nested. -/
theorem loops_strongly_connected {g : FlowGraph} (hg : g.Built) {entry : Nat}
    (he : g.entry? = some entry) (hc : g.Connected entry) :
    ∃ t n, DepthFirstTree.spanning g entry = .ok t ∧ ofGraph g = .ok n ∧
      (∀ h, n.isHeader h → h ≠ n.root → ∀ v, n.contains h v → t.Above h v ∧
        (∃ es, g.Walk h es v ∧ ∀ x ∈ visited h es, n.contains h x) ∧
        ∃ es, g.Walk v es h ∧ ∀ x ∈ visited v es, n.contains h x) ∧
      (∀ h, ∀ s ∈ t.backSources h, n.contains h s) ∧
      ∀ h k, (∀ v, n.contains h v → ¬ n.contains k v) ∨
        (∀ v, n.contains h v → n.contains k v) ∨ ∀ v, n.contains k v → n.contains h v := by
  obtain ⟨t, n, hn, rfl⟩ := exists_found_of_connected hg.wellFormed he hc
  refine ⟨t, n, hn.tree_eq, ofGraph_eq_of_found hn, fun h hh hne v hv => ?_, fun h s hs => ?_,
    hn.disjoint_or_included⟩
  · rw [hn.root_eq] at hne
    have hmem := hn.mem_of_isHeader hh
    refine ⟨?_, ?_, ?_⟩
    · rw [← hn.isAncestor_iff_above]
      exact hn.isAncestor_of_contains (hn.mem_of_contains hmem hv) hv
    · exact within_iff_exists_walk.1 (hn.within_from_header hmem hne hv)
    · exact within_iff_exists_walk.1 (hn.within_to_header hne hv)
  · exact hn.contains_source (hn.mem_backSources.1 hs)

open FlowGraph Sample in
/-- The loop of the sample around 2 and 3 is entered at both. -/
theorem loops_strongly_connected_tangledGraph :
    tangledGraph.Built ∧ tangledGraph.entry? = some 1 ∧ tangledGraph.Connected 1 ∧
      ∃ t n, DepthFirstTree.spanning tangledGraph 1 = .ok t ∧ ofGraph tangledGraph = .ok n ∧
        n.isHeader 2 ∧ 2 ≠ n.root ∧ n.contains 2 3 ∧ t.Above 2 3 ∧
        (∃ es, tangledGraph.Walk 2 es 3 ∧ ∀ x ∈ visited 2 es, n.contains 2 x) ∧
        ∃ es, tangledGraph.Walk 3 es 2 ∧ ∀ x ∈ visited 3 es, n.contains 2 x := by
  have hc : tangledGraph.Connected 1 :=
    DepthFirstTree.connected_of_spanning built_tangledGraph.wellFormed rfl
  obtain ⟨t, n, ht, hn, hloops, -⟩ := loops_strongly_connected built_tangledGraph rfl hc
  cases hn
  exact ⟨built_tangledGraph, rfl, hc, t, _, ht, rfl, by decide, by decide, by decide,
    hloops 2 (by decide) (by decide) 3 (by decide)⟩

end WorstCase.LoopNest
