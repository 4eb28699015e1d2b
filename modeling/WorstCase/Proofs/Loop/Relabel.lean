import WorstCase.Loop.Nest
import WorstCase.Proofs.Graph.Built

/-!
# Kinds of edges and loops

Neither the depth-first search nor the loop nest looks at the kinds of edges. A graph whose edges
are given other kinds has the same depth-first trees (`spanning_mapEdges`) and the same loop nest
(`ofGraph_mapEdges`).
-/

namespace WorstCase

/-- The edge that `f` makes of an edge has its identifier and its ends. -/
structure KeepsEnds (f : Edge → Edge) : Prop where
  id : ∀ e, (f e).id = e.id
  source : ∀ e, (f e).source = e.source
  destination : ∀ e, (f e).destination = e.destination

namespace FlowGraph

/-- Replaces every edge by what `f` makes of it. -/
def mapEdges (g : FlowGraph) (f : Edge → Edge) : FlowGraph :=
  { g with edges := g.edges.map f }

variable {g : FlowGraph} {f : Edge → Edge} (hf : KeepsEnds f)

include hf

/-- New kinds keep the graph well-formed. -/
theorem WellFormed.mapEdges (hg : g.WellFormed) (hk : ∀ e ∈ g.edges, (f e).kind.Ascending) :
    (g.mapEdges f).WellFormed :=
  hg.of_map_edges hf.id hf.source hf.destination hk

theorem edge?_mapEdges (id : Nat) : (g.mapEdges f).edge? id = (g.edge? id).map f := by
  have hid : (fun e : Edge => e.id == id) ∘ f = fun e => e.id == id :=
    funext fun e => by simp only [Function.comp_apply, hf.id]
  simp only [edge?, FlowGraph.mapEdges, List.find?_map, hid]

theorem edgesOf_mapEdges (ids : List Nat) :
    ids.filterMap (g.mapEdges f).edge? = (ids.filterMap g.edge?).map f := by
  rw [List.map_filterMap]
  exact List.filterMap_congr fun id _ => edge?_mapEdges hf id

theorem successorEdges_mapEdges (v : Nat) :
    (g.mapEdges f).successorEdges v = (g.successorEdges v).map f := by
  have hv : (g.mapEdges f).vertex? v = g.vertex? v := rfl
  unfold successorEdges
  rw [hv]
  cases g.vertex? v with
  | none => rfl
  | some w => exact edgesOf_mapEdges hf _

theorem predecessorEdges_mapEdges (v : Nat) :
    (g.mapEdges f).predecessorEdges v = (g.predecessorEdges v).map f := by
  have hv : (g.mapEdges f).vertex? v = g.vertex? v := rfl
  unfold predecessorEdges
  rw [hv]
  cases g.vertex? v with
  | none => rfl
  | some w => exact edgesOf_mapEdges hf _

end FlowGraph

/-! ## The search -/

variable {g : FlowGraph} {f : Edge → Edge} (hf : KeepsEnds f)

include hf

namespace Search

/-- The search looks only at where edges lead. -/
theorem destinations_mapEdges (v : Nat) : destinations (g.mapEdges f) v = destinations g v := by
  rw [destinations, FlowGraph.successorEdges_mapEdges hf, List.map_map]
  exact List.map_congr_left fun e _ => hf.destination e

/-- So each step of the search is the same. -/
theorem step_mapEdges (s : Search) : s.step (g.mapEdges f) = s.step g := by
  unfold step
  split
  · rfl
  · rfl
  · simp only [enter, destinations_mapEdges hf]

/-- So the whole search is the same. -/
theorem run_mapEdges (steps : Nat) (s : Search) : run (g.mapEdges f) steps s = run g steps s := by
  induction steps generalizing s with
  | zero => rfl
  | succ steps ih => simp only [run, step_mapEdges hf, ih]

end Search

/-- So the spanning tree is the same. -/
theorem DepthFirstTree.spanning_mapEdges (root : Nat) :
    spanning (g.mapEdges f) root = spanning g root := by
  have hunnumbered : Search.unnumbered (g.mapEdges f) = Search.unnumbered g := rfl
  have hstart : Search.start (g.mapEdges f) root = Search.start g root := by
    simp only [Search.start, Search.destinations_mapEdges hf, hunnumbered]
  have hbound : stepBound (g.mapEdges f) = stepBound g := by
    simp only [stepBound, FlowGraph.mapEdges, List.length_map]
  have hsearch : search (g.mapEdges f) root = search g root := by
    unfold search
    rw [hstart, hbound, Search.run_mapEdges hf]
    rfl
  rw [spanning, spanning, hsearch]

/-! ## The loops -/

namespace LoopNest

variable {t : DepthFirstTree}

/-- Loops are gathered along the ends of edges. -/
theorem backwards_mapEdges (c : Collapse) (header : Nat) (body : List Nat) (v : Nat) :
    backwards (g.mapEdges f) t c header body v = backwards g t c header body v := by
  simp only [backwards, FlowGraph.predecessorEdges_mapEdges hf, List.filterMap_map,
    Function.comp_def, hf.source]

/-- So the body of each loop is the same. -/
theorem gather_mapEdges (c : Collapse) (header rounds : Nat) (work body : List Nat) :
    gather (g.mapEdges f) t c header rounds work body = gather g t c header rounds work body := by
  induction rounds generalizing work body with
  | zero => rfl
  | succ rounds ih =>
    cases work with
    | nil => rfl
    | cons v work => simp only [gather, backwards_mapEdges hf, ih]

/-- So each loop collapses in the same way. -/
theorem collapseLoop_mapEdges (c : Collapse) (header : Nat) :
    collapseLoop (g.mapEdges f) t c header = collapseLoop g t c header := by
  have hlen : (g.mapEdges f).edges.length = g.edges.length := List.length_map f
  simp only [collapseLoop, bodyOf, gather_mapEdges hf, hlen]

theorem parentsIn_mapEdges : parentsIn (g.mapEdges f) t = parentsIn g t := by
  have hall : collapseAll (g.mapEdges f) t = collapseAll g t := by
    have hloop : collapseLoop (g.mapEdges f) t = collapseLoop g t :=
      funext fun c => funext fun h => collapseLoop_mapEdges hf c h
    rw [collapseAll, collapseAll, hloop]
  simp only [parentsIn, hall]
  rfl

/-- The loop nest does not depend on the kinds of the edges. -/
theorem ofGraph_mapEdges : ofGraph (g.mapEdges f) = ofGraph g := by
  have hentry : (g.mapEdges f).entry = g.entry := rfl
  simp only [ofGraph, ofDepthFirst, hentry, DepthFirstTree.spanning_mapEdges hf,
    parentsIn_mapEdges hf]

end LoopNest

end WorstCase
