import WorstCase.Proofs.Analysis.Described
import WorstCase.Proofs.Loop.Nest

/-!
# Natural loops

A graph is *reducible* when the target of every back edge lies on every walk from the entry to its
source. In such a graph the loops found are the natural loops: the loop of a header holds the header
and the vertices that lead to a source of one of its back edges without passing the header
(`contains_iff_walk_to_source`).

One direction needs no reducibility (`LoopNest.Found.exists_source`). For the other, a walk towards
a source is followed from its end (`climbs_of_within`). Its vertices lie below the header, since
otherwise the root would lead to the source around the header; and where it runs into the middle of
an inner loop it starts in that loop, which is the natural loop of its own header because inner
headers are left earlier.
-/

namespace WorstCase

open Relation

namespace FlowGraph

variable {g : FlowGraph}

/-- The target of every back edge lies on every walk from the entry to its source. -/
def Reducible (g : FlowGraph) (entry : Nat) : Prop :=
  ∀ t, DepthFirstTree.spanning g entry = .ok t → ∀ h, ∀ s ∈ t.backSources h,
    ∀ es, g.Walk entry es s → h ∈ visited entry es

theorem mem_visited_append {u x : Nat} {es fs : List Edge} :
    x ∈ visited u (es ++ fs) ↔ x ∈ visited u es ∨ x ∈ fs.map (·.destination) := by
  simp only [visited, List.map_append, List.mem_cons, List.mem_append, or_assoc]

/-- A walk that leaves a set of vertices passes `h`, if all edges out of the set lead to `h`. -/
theorem mem_visited_of_closed {A : List Nat} {h : Nat}
    (hA : ∀ e ∈ g.edges, e.source ∈ A → e.destination ∈ A ∨ e.destination = h) {u s : Nat}
    {es : List Edge} (hw : g.Walk u es s) (hu : u ∈ A) (hs : s ∉ A) : h ∈ visited u es := by
  induction es generalizing u with
  | nil =>
    cases hw
    exact absurd hu hs
  | cons e es ih =>
    obtain ⟨he, rfl, hw⟩ := hw
    rcases hA e he hu with hd | hd
    · exact List.mem_cons_of_mem _ (ih hw hd)
    · refine List.mem_cons_of_mem _ ?_
      rw [← hd]
      exact List.mem_cons_self

end FlowGraph

namespace LoopNest.Found

variable {g : FlowGraph} {t : DepthFirstTree} {n : LoopNest} (hn : Found g t n)

include hn

/-- In a reducible graph, what leads to the source of a back edge around its target is below the
target. -/
theorem isAncestor_of_within (hr : g.Reducible t.root) {s h u : Nat} (hs : (s, h) ∈ t.backEdges)
    (hw : g.Within (· ≠ h) u s) : t.isAncestor h u := by
  have hu : u ∈ t.preOrder := by
    cases hw with
    | refl _ => exact hn.descendant_mem ((hn.back_iff _ h).1 hs).2
    | step _ hadj _ => exact hn.source_reached hadj
  obtain ⟨es, hes, hanc⟩ := FlowGraph.within_iff_exists_walk.1 (hn.ascend hu)
  obtain ⟨fs, hfs, hne⟩ := FlowGraph.within_iff_exists_walk.1 hw
  have hmem := hr t hn.tree_eq h s (hn.mem_backSources.2 hs) _ (hes.append hfs)
  rcases FlowGraph.mem_visited_append.1 hmem with hv | hv
  · exact hanc h hv
  · exact absurd rfl (hne h (List.mem_cons_of_mem _ hv))

theorem climbs_of_within (hr : g.Reducible t.root) {h u s : Nat} (hs : (s, h) ∈ t.backEdges)
    (hw : g.Within (· ≠ h) u s) : Climbs (collapseAll g t) u h := by
  have hcol := collapsed_collapseAll hn.toSpanning
  induction hi : t.postIdx h using Nat.strongRecOn generalizing h u s with
  | _ i ih =>
    induction hw with
    | refl _ =>
      exact hcol.sources h ((hn.mem_post h).2 (hn.ancestor_mem ((hn.back_iff _ h).1 hs).2)) _ hs
    | step hu hadj hws ihw =>
      next u w s =>
      have hanc : t.isAncestor h u := hn.isAncestor_of_within hr hs (.step hu hadj hws)
      obtain ⟨y, hwy, hup⟩ := (ihw hs).last hws.left
      obtain ⟨hhy, hyne⟩ := hcol.below _ hup.mem
      have huy : Climbs (collapseAll g t) u y ∨ Climbs (collapseAll g t) u h := by
        by_cases hwy' : w = y
        · subst hwy'
          by_cases hb : (u, w) ∈ t.backEdges
          · exact Or.inl (hcol.sources w
              ((hn.mem_post w).2 (hn.ancestor_mem ((hn.back_iff u w).1 hb).2)) u hb)
          · exact Or.inr (hcol.closed _ hup.mem u hadj hb hanc)
        · -- the edge runs into the middle of the loop of `y`
          have hyr : y ≠ t.root := by
            rintro rfl
            rw [Up, lookup_root hn.toSpanning] at hup
            cases hup
          by_cases huy : u = y
          · exact Or.inl (huy ▸ .refl u)
          · obtain ⟨s', hs', hws'⟩ :=
              hn.exists_source hyr ((hn.contains_iff_collapse hyr).2 hwy) hwy'
            have hus' : g.Within (· ≠ y) u s' := .step huy hadj (hws'.mono fun x hx => hx.2)
            exact Or.inl (ih _ (hi ▸ hn.postIdx_lt hhy hyne) hs' hus' rfl)
      rcases huy with huy | huh
      · exact huy.trans (.of_up hup)
      · exact huh

end LoopNest.Found

open FlowGraph in
/-- **Loops are the natural loops.** In a reducible graph whose entry reaches every vertex, the loop
of a header other than the root holds the header and what leads, without passing the header, to the
source of a back edge to it. -/
theorem LoopNest.contains_iff_walk_to_source {g : FlowGraph} (hg : g.Built) {entry : Nat}
    (he : g.entry? = some entry) (hc : g.Connected entry) (hr : g.Reducible entry) :
    ∃ t n, DepthFirstTree.spanning g entry = .ok t ∧ LoopNest.ofGraph g = .ok n ∧
      ∀ h, n.isHeader h → h ≠ n.root → ∀ v, n.contains h v ↔
        v = h ∨ ∃ s ∈ t.backSources h, ∃ es, g.Walk v es s ∧ h ∉ visited v es := by
  obtain ⟨t, n, hn, rfl⟩ := LoopNest.exists_found_of_connected hg.wellFormed he hc
  refine ⟨t, n, hn.tree_eq, LoopNest.ofGraph_eq_of_found hn, fun h _ hne v => ?_⟩
  rw [hn.root_eq] at hne
  have havoid : ∀ s, (∃ es, g.Walk v es s ∧ h ∉ visited v es) ↔ g.Within (· ≠ h) v s := by
    intro s
    rw [within_iff_exists_walk]
    refine exists_congr fun es => and_congr_right fun _ => ?_
    exact ⟨fun hv x hx e => hv (e ▸ hx), fun hv hh => hv h hh rfl⟩
  simp only [hn.mem_backSources, havoid]
  constructor
  · intro hcv
    by_cases hvh : v = h
    · exact Or.inl hvh
    · obtain ⟨s, hs, hw⟩ := hn.exists_source hne hcv hvh
      exact Or.inr ⟨s, hs, hw.mono fun x hx => hx.2⟩
  · rintro (rfl | ⟨s, hs, hw⟩)
    · exact hn.contains_refl v
    · rw [hn.contains_iff_collapse hne]
      exact hn.climbs_of_within hr hs hw

open FlowGraph Sample in
/-- The sample with nested loops is reducible, and its loops around 2 and 3 are natural. -/
theorem LoopNest.contains_iff_walk_to_source_nestedGraph :
    nestedGraph.Built ∧ nestedGraph.entry? = some 1 ∧ nestedGraph.Connected 1 ∧
      nestedGraph.Reducible 1 ∧ ∃ t n, DepthFirstTree.spanning nestedGraph 1 = .ok t ∧
      LoopNest.ofGraph nestedGraph = .ok n ∧ n.isHeader 2 ∧ n.isHeader 3 ∧ n.root = 1 ∧
      ∀ h, n.isHeader h → h ≠ n.root → ∀ v, n.contains h v ↔
        v = h ∨ ∃ s ∈ t.backSources h, ∃ es, nestedGraph.Walk v es s ∧ h ∉ visited v es := by
  have hr : nestedGraph.Reducible 1 := by
    intro t ht h s hs es hw
    cases ht
    have hs' : (s, h) ∈ [(5, 3), (6, 2), (4, 1)] :=
      List.contains_iff_mem.1 (List.mem_filter.1 hs).2
    simp only [List.mem_cons, Prod.mk.injEq, List.not_mem_nil, or_false] at hs'
    rcases hs' with ⟨rfl, rfl⟩ | ⟨rfl, rfl⟩ | ⟨rfl, rfl⟩
    · exact mem_visited_of_closed (A := [1, 2, 4]) (by decide) hw (by decide) (by decide)
    · exact mem_visited_of_closed (A := [1]) (by decide) hw (by decide) (by decide)
    · exact List.mem_cons_self
  obtain ⟨t, n, ht, hn, h⟩ := contains_iff_walk_to_source built_nestedGraph rfl
    connected_nestedGraph hr
  cases hn
  exact ⟨built_nestedGraph, rfl, connected_nestedGraph, hr, t, _, ht, rfl, by decide, by decide,
    rfl, h⟩

end WorstCase
