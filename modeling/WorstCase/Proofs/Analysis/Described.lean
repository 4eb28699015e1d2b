import WorstCase.Analysis.Sample
import WorstCase.Proofs.DepthFirst.Tree
import WorstCase.Proofs.Fold

/-!
# Described graphs

A graph that is built from its description is built by changes, so all that is known of built graphs
holds of it.
-/

namespace WorstCase

/-- A described graph is built. -/
theorem GraphSpec.built_of_build {spec : GraphSpec} {g : FlowGraph}
    (hk : ∀ e ∈ spec.edges, e.kind.Ascending) (h : spec.build = .ok g) : g.Built := by
  obtain ⟨g₁, hv, h⟩ := bind_ok h
  obtain ⟨g₂, he, h⟩ := bind_ok h
  have h₁ : g₁.Built := foldlM_ok_induction (P := fun _ g => g.Built) (.empty spec.name)
    (fun _ _ _ _ _ hg h => hg.addVertex h) hv
  have h₂ : g₂.Built := foldlM_ok_induction (P := fun _ g => g.Built) h₁
    (fun _ e _ _ he hg h => hg.addEdge (hk e he) h) he
  split at h
  · cases h
    exact h₂
  · exact h₂.setEntry h

namespace Sample

/-- The graph of the sample with nested loops: a loop around 3 inside a loop around 2. -/
def nestedGraph : FlowGraph :=
  (nestedLoops "main" false).build.toOption.getD (.empty "main")

theorem build_nestedLoops : (nestedLoops "main" false).build = .ok nestedGraph := by
  decide

theorem built_nestedGraph : nestedGraph.Built :=
  GraphSpec.built_of_build (by simp [nestedLoops, numbered, EdgeKind.Ascending]) build_nestedLoops

theorem connected_nestedGraph : nestedGraph.Connected 1 :=
  DepthFirstTree.connected_of_spanning built_nestedGraph.wellFormed rfl

/-- A loop around 2 and 3 that is entered at both, with parallel edges from 2 to 3, an edge from 3
to itself, and a way back to the entry through 4. -/
def tangled : GraphSpec where
  name := "tangled"
  vertices := [1, 2, 3, 4]
  edges := numbered
    [(1, 4, .trace), (1, 2, .trace), (2, 3, .trace), (3, 2, .trace), (3, 3, .trace), (3, 4, .trace),
      (2, 3, .trace), (1, 3, .trace), (4, 1, .trace)]
  entry? := some 1

def tangledGraph : FlowGraph :=
  tangled.build.toOption.getD (.empty "tangled")

theorem build_tangled : tangled.build = .ok tangledGraph := by
  decide

theorem built_tangledGraph : tangledGraph.Built :=
  GraphSpec.built_of_build (by simp [tangled, numbered, EdgeKind.Ascending]) build_tangled

/-- A database with the data for the sample with nested loops only. -/
def mainDatabase : Database :=
  ⟨NatMap.empty.insert mainId mainData⟩

end Sample

end WorstCase
