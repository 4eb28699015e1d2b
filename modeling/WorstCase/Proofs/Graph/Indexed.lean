import WorstCase.Graph.Indexed
import WorstCase.Proofs.Action
import WorstCase.Proofs.Fold
import WorstCase.Proofs.Graph.Built
import WorstCase.Proofs.Ordered.NatMap

/-!
# The index of a graph is right

An indexed graph keeps five things that have to fit together: two lists, an index for each, and the
edges that the vertices list. They fit together (`IndexedGraph.Consistent`) in the empty graph, and
every change keeps them so. On a consistent graph a change does what it does to the flow graph that
the lists stand for, and one that stops leaves the graph as it was (`Consistent.apply_ok`,
`Consistent.apply_error`). So the graph is consistent after any calls, and no look-up finds a place
empty (`IndexedGraph.consistent_after`).
-/

namespace WorstCase.IndexedGraph

open WorstCase.Action

/-! ## What has to fit together -/

/-- The indexes are right, and the lists stand for a well-formed graph. -/
structure Consistent (g : IndexedGraph) : Prop where
  vertexIndex : g.vertexIndex.Indexes (g.vertices.map (·.id))
  edgeIndex : g.edgeIndex.Indexes (g.edges.map (·.id))
  wellFormed : g.flow.WellFormed

theorem consistent_empty (name : String) : (empty name).Consistent :=
  ⟨NatMap.indexes_empty, NatMap.indexes_empty, .of_empty name⟩

namespace Consistent

variable {g : IndexedGraph} (hg : g.Consistent)

include hg

theorem hasVertex_eq (id : Nat) : g.hasVertex id = g.flow.hasVertex id := by
  rw [Bool.eq_iff_iff, FlowGraph.hasVertex_iff]
  exact hg.vertexIndex.contains_iff

theorem edgeIndex_contains_eq (id : Nat) :
    g.edgeIndex.contains id = (g.flow.edge? id).isSome := by
  rw [Bool.eq_iff_iff, FlowGraph.edge?_isSome_iff]
  exact hg.edgeIndex.contains_iff

theorem isNone_edge?_iff {id : Nat} : (g.flow.edge? id).isNone ↔ id ∉ g.edges.map (·.id) := by
  rw [← Option.isSome_eq_false_iff, ← hg.edgeIndex_contains_eq, ← Bool.not_eq_true,
    hg.edgeIndex.contains_iff]

theorem exists_vertexPlace {id : Nat} (h : id ∈ g.flow.vertexIds) :
    ∃ place, g.vertexIndex.get? id = some place ∧ g.vertexPlace id = .ok place := by
  obtain ⟨v, hv, rfl⟩ := List.mem_map.1 h
  obtain ⟨place, hplace, -⟩ := hg.vertexIndex.exists_place hv
  exact ⟨place, hplace, by rw [vertexPlace, hplace]⟩

theorem vertexPlace_of_notMem {id : Nat} (h : id ∉ g.flow.vertexIds) :
    g.vertexPlace id = .error (.because (.notFound .vertex id)) := by
  rw [vertexPlace, hg.vertexIndex.get?_eq_none_iff.2 h]

theorem edgePlace_of_notMem {id : Nat} (h : id ∉ g.edges.map (·.id)) :
    g.edgePlace id = .error (.because (.notFound .edge id)) := by
  rw [edgePlace, hg.edgeIndex.get?_eq_none_iff.2 h]

end Consistent

/-! ## Look-ups -/

/-- What look-ups give, told from the lists: what is there is found, and what is not there is
reported as such. No place that is looked at is empty. -/
structure Answers (g : IndexedGraph) : Prop where
  vertex : ∀ v ∈ g.vertices, g.vertex v.id = .ok v ∧
    g.successorEdges v.id = .ok (g.edges.filter (·.source == v.id)) ∧
    g.predecessorEdges v.id = .ok (g.edges.filter (·.destination == v.id))
  noVertex : ∀ id, id ∉ g.vertices.map (·.id) →
    g.vertex id = .error (.because (.notFound .vertex id)) ∧
    g.successorEdges id = .error (.because (.notFound .vertex id)) ∧
    g.predecessorEdges id = .error (.because (.notFound .vertex id))
  edge : ∀ e ∈ g.edges, g.edge e.id = .ok e
  noEdge : ∀ id, id ∉ g.edges.map (·.id) → g.edge id = .error (.because (.notFound .edge id))

namespace Consistent

variable {g : IndexedGraph} (hg : g.Consistent)

include hg

theorem vertex_of_mem {v : Vertex} (hv : v ∈ g.vertices) : g.vertex v.id = .ok v := by
  obtain ⟨place, hplace, hv⟩ := hg.vertexIndex.exists_place hv
  rw [vertex, vertexPlace, hplace]
  exact atPlace_eq_ok hv

/-- The edges that a vertex lists can all be found. -/
theorem mapM_listedEdge {es : List Edge} (hes : ∀ e ∈ es, e ∈ g.edges) :
    (es.map (·.id)).mapM g.listedEdge = .ok es := by
  induction es with
  | nil => rfl
  | cons e es ih =>
    obtain ⟨place, hplace, he⟩ := hg.edgeIndex.exists_place (hes e List.mem_cons_self)
    have hlisted : g.listedEdge e.id = .ok e := by
      rw [listedEdge, hplace]
      exact atPlace_eq_ok he
    rw [List.map_cons, List.mapM_cons, hlisted, ih fun d hd => hes d (List.mem_cons_of_mem _ hd)]
    rfl

/-- In a consistent graph every question is answered as in the flow graph. -/
theorem answers : g.Answers := by
  refine ⟨fun v hv => ⟨hg.vertex_of_mem hv, ?_, ?_⟩, fun id hid => ?_, fun e he => ?_,
    fun id hid => ?_⟩
  · have hlist : g.successorEdges v.id = v.successors.mapM g.listedEdge := by
      rw [successorEdges, hg.vertex_of_mem hv]
      rfl
    rw [hlist, hg.wellFormed.successors_eq v hv]
    exact hg.mapM_listedEdge fun e he => (List.mem_filter.1 he).1
  · have hlist : g.predecessorEdges v.id = v.predecessors.mapM g.listedEdge := by
      rw [predecessorEdges, hg.vertex_of_mem hv]
      rfl
    rw [hlist, hg.wellFormed.predecessors_eq v hv]
    exact hg.mapM_listedEdge fun e he => (List.mem_filter.1 he).1
  · have hnone : g.vertex id = .error (.because (.notFound .vertex id)) := by
      rw [vertex, hg.vertexPlace_of_notMem hid]
      rfl
    refine ⟨hnone, ?_, ?_⟩
    · rw [successorEdges, hnone]
      rfl
    · rw [predecessorEdges, hnone]
      rfl
  · obtain ⟨place, hplace, he⟩ := hg.edgeIndex.exists_place he
    rw [edge, edgePlace, hplace]
    exact atPlace_eq_ok he
  · rw [edge, hg.edgePlace_of_notMem hid]
    rfl

end Consistent

/-! ## Changes -/

section changes

variable {g : IndexedGraph} {id : Nat}

/-- Changing the vertex at the place of an identifier changes the vertex with this identifier. -/
theorem apply_updateVertex (h : g.vertexIndex.Indexes (g.vertices.map (·.id))) {place : Nat}
    (hplace : g.vertexIndex.get? id = some place) (f : Vertex → Vertex) :
    (updateVertex place f).apply g =
      (.ok (), { g with vertices := g.vertices.map fun v => if v.id = id then f v else v }) := by
  obtain ⟨v, hv, -⟩ := h.exists_entry hplace
  simp only [updateVertex, apply_get, atPlace_eq_ok hv, apply_liftM_ok, apply_set,
    h.set_eq_map hplace hv]

/-- Entering an edge at its source and then at its destination enters it at both. -/
theorem map_attach (e : Edge) (vs : List Vertex) :
    (vs.map fun v =>
        if v.id = e.source then { v with successors := v.successors ++ [e.id] } else v).map
      (fun v =>
        if v.id = e.destination then { v with predecessors := v.predecessors ++ [e.id] } else v) =
    vs.map (FlowGraph.attach e) := by
  rw [List.map_map]
  refine List.map_congr_left fun v _ => ?_
  by_cases hs : v.id = e.source
  · by_cases hd : v.id = e.destination
    · simp only [Function.comp_apply, FlowGraph.attach, if_pos hs, if_pos hd]
    · simp only [Function.comp_apply, FlowGraph.attach, if_pos hs, if_neg hd]
  · by_cases hd : v.id = e.destination
    · simp only [Function.comp_apply, FlowGraph.attach, if_neg hs, if_pos hd]
    · simp only [Function.comp_apply, FlowGraph.attach, if_neg hs, if_neg hd]

variable (hg : g.Consistent)

include hg

theorem apply_addVertex (hid : id ∉ g.flow.vertexIds) : (addVertex id).apply g =
    (.ok (), { g with
      vertexIndex := g.vertexIndex.insert id g.vertices.length
      vertices := g.vertices ++ [⟨id, [], []⟩] }) := by
  have hcontains : g.hasVertex id = false := by
    rw [hg.hasVertex_eq, FlowGraph.hasVertex_eq_false_iff]
    exact hid
  simp only [addVertex, apply_get, hcontains, Bool.false_eq_true, ↓reduceIte]
  rfl

/-- The index and the list of edges come first, then the two vertices, which can be the same. -/
theorem apply_addEdge {e : Edge} (hid : e.id ∉ g.edges.map (·.id))
    (hs : e.source ∈ g.flow.vertexIds) (hd : e.destination ∈ g.flow.vertexIds) :
    (addEdge e).apply g = (.ok (), { g with
      edgeIndex := g.edgeIndex.insert e.id g.edges.length
      edges := g.edges ++ [e]
      vertices := g.vertices.map (FlowGraph.attach e) }) := by
  have hcontains : g.edgeIndex.contains e.id = false := by
    rw [← Bool.not_eq_true, hg.edgeIndex.contains_iff]
    exact hid
  obtain ⟨i, hi, hsource⟩ := hg.exists_vertexPlace hs
  obtain ⟨j, hj, hdestination⟩ := hg.exists_vertexPlace hd
  let g₁ : IndexedGraph := { g with
    edgeIndex := g.edgeIndex.insert e.id g.edges.length
    edges := g.edges ++ [e] }
  let leave (v : Vertex) : Vertex := { v with successors := v.successors ++ [e.id] }
  let reach (v : Vertex) : Vertex := { v with predecessors := v.predecessors ++ [e.id] }
  let g₂ : IndexedGraph := { g₁ with
    vertices := g.vertices.map fun v => if v.id = e.source then leave v else v }
  have hstart : (addEdge e).apply g =
      Action.apply (updateVertex i leave >>= fun _ => updateVertex j reach) g₁ := by
    simp only [addEdge, apply_get, hcontains, Bool.false_eq_true, ↓reduceIte, hsource, hdestination,
      apply_liftM_ok]
    rfl
  have hfirst : (updateVertex i leave).apply g₁ = (.ok (), g₂) :=
    apply_updateVertex (g := g₁) hg.vertexIndex hi leave
  have hindex : g₂.vertexIndex.Indexes (g₂.vertices.map (·.id)) := by
    have hids : g₂.vertices.map (·.id) = g.vertices.map (·.id) := by
      rw [List.map_map]
      refine List.map_congr_left fun v _ => ?_
      simp only [Function.comp_apply]
      split <;> rfl
    rw [hids]
    exact hg.vertexIndex
  rw [hstart, apply_bind_ok hfirst, apply_updateVertex hindex hj, map_attach]

theorem apply_setKind {kind : EdgeKind} (hid : id ∈ g.edges.map (·.id)) :
    (setKind id kind).apply g = (.ok (), { g with
      edges := g.edges.map fun e => if e.id = id then { e with kind } else e }) := by
  obtain ⟨e, he, rfl⟩ := List.mem_map.1 hid
  obtain ⟨place, hplace, he⟩ := hg.edgeIndex.exists_place he
  have hfound : g.edgePlace e.id = .ok place := by
    rw [edgePlace, hplace]
  simp only [setKind, apply_get, hfound, apply_liftM_ok, atPlace_eq_ok he, apply_set,
    hg.edgeIndex.set_eq_map hplace he fun e => { e with kind }]

theorem apply_setEntry (hid : id ∈ g.flow.vertexIds) :
    (setEntry id).apply g = (.ok (), { g with entry? := some id }) := by
  obtain ⟨place, -, hplace⟩ := hg.exists_vertexPlace hid
  simp only [setEntry, apply_get, hplace, apply_liftM_ok, apply_set]

end changes

/-! ## Calls -/

/-- A change that is asked for. The headers of an iteration are a set. -/
inductive Call
  | addVertex (id : Nat)
  | addEdge (e : Edge) (he : e.kind.Ascending)
  | setKind (id : Nat) (kind : EdgeKind) (hk : kind.Ascending)
  | setEntry (id : Nat)

/-- What the call does to an indexed graph. -/
def Call.action : Call → Action Unit
  | .addVertex id => IndexedGraph.addVertex id
  | .addEdge e _ => IndexedGraph.addEdge e
  | .setKind id kind _ => IndexedGraph.setKind id kind
  | .setEntry id => IndexedGraph.setEntry id

/-- What the call does to a flow graph. -/
def Call.change (g : FlowGraph) : Call → Except GraphError FlowGraph
  | .addVertex id => g.addVertex id
  | .addEdge e _ => g.addEdge e
  | .setKind id kind _ => g.setKind id kind
  | .setEntry id => g.setEntry id

/-- The graph after calls, whatever each of them comes to. -/
def after (g : IndexedGraph) (calls : List Call) : IndexedGraph :=
  calls.foldl (fun g c => (c.action.apply g).2) g

namespace Consistent

variable {g : IndexedGraph} (hg : g.Consistent) {c : Call}

include hg

/-- A call that the flow graph accepts does the same to it, and the indexes follow. -/
theorem apply_ok {f : FlowGraph} (h : c.change g.flow = .ok f) :
    ∃ g', c.action.apply g = (.ok (), g') ∧ g'.Consistent ∧ g'.flow = f := by
  cases c with
  | addVertex id =>
    have hwell := hg.wellFormed.of_addVertex h
    obtain ⟨hid, rfl⟩ := FlowGraph.addVertex_eq_ok h
    refine ⟨_, apply_addVertex hg hid, ⟨?_, hg.edgeIndex, hwell⟩, rfl⟩
    have hpush := hg.vertexIndex.push hid
    rw [List.length_map] at hpush
    rw [List.map_append]
    exact hpush
  | addEdge e he =>
    have hwell := hg.wellFormed.of_addEdge he h
    obtain ⟨hid, hs, hd, rfl⟩ := FlowGraph.addEdge_eq_ok h
    refine ⟨_, apply_addEdge hg hid hs hd, ⟨?_, ?_, hwell⟩, rfl⟩
    · rw [FlowGraph.vertexIds_map_attach]
      exact hg.vertexIndex
    · have hpush := hg.edgeIndex.push hid
      rw [List.length_map] at hpush
      rw [List.map_append]
      exact hpush
  | setKind id kind hk =>
    have hwell := hg.wellFormed.of_setKind hk h
    have hid : id ∈ g.edges.map (·.id) := by
      by_contra hid
      rw [Call.change, FlowGraph.setKind, if_pos (hg.isNone_edge?_iff.2 hid)] at h
      cases h
    obtain rfl := FlowGraph.setKind_eq_ok h
    refine ⟨_, apply_setKind hg hid, ⟨hg.vertexIndex, ?_, hwell⟩, rfl⟩
    have hids : (g.edges.map fun e => if e.id = id then { e with kind } else e).map (·.id) =
        g.edges.map (·.id) := by
      rw [List.map_map]
      refine List.map_congr_left fun e _ => ?_
      simp only [Function.comp_apply]
      split <;> rfl
    rw [hids]
    exact hg.edgeIndex
  | setEntry id =>
    have hwell := hg.wellFormed.of_setEntry h
    obtain ⟨hid, rfl⟩ := FlowGraph.setEntry_eq_ok h
    exact ⟨_, apply_setEntry hg hid, ⟨hg.vertexIndex, hg.edgeIndex, hwell⟩, rfl⟩

/-- A call that the flow graph refuses is refused with the same error, and nothing is changed. -/
theorem apply_error {error : GraphError} (h : c.change g.flow = .error error) :
    c.action.apply g = (.error (.because error), g) := by
  cases c with
  | addVertex id =>
    rw [Call.change, FlowGraph.addVertex, ← hg.hasVertex_eq] at h
    split at h
    · next hid =>
      cases h
      simp only [Call.action, addVertex, apply_get, hid, ↓reduceIte]
      rfl
    · cases h
  | addEdge e he =>
    rw [Call.change, FlowGraph.addEdge, ← hg.edgeIndex_contains_eq] at h
    split at h
    · next hid =>
      cases h
      simp only [Call.action, addEdge, apply_get, hid, ↓reduceIte]
      rfl
    · next hid =>
      rw [Bool.not_eq_true] at hid
      split at h
      · next hs =>
        cases h
        rw [Bool.not_eq_true', FlowGraph.hasVertex_eq_false_iff] at hs
        simp only [Call.action, addEdge, apply_get, hid, Bool.false_eq_true, ↓reduceIte,
          hg.vertexPlace_of_notMem hs]
        rfl
      · next hs =>
        rw [Bool.not_eq_true', Bool.not_eq_false, FlowGraph.hasVertex_iff] at hs
        obtain ⟨i, -, hi⟩ := hg.exists_vertexPlace hs
        split at h
        · next hd =>
          cases h
          rw [Bool.not_eq_true', FlowGraph.hasVertex_eq_false_iff] at hd
          simp only [Call.action, addEdge, apply_get, hid, Bool.false_eq_true, ↓reduceIte, hi,
            hg.vertexPlace_of_notMem hd]
          rfl
        · cases h
  | setKind id kind hk =>
    rw [Call.change, FlowGraph.setKind] at h
    split at h
    · next hid =>
      cases h
      simp only [Call.action, setKind, apply_get,
        hg.edgePlace_of_notMem (hg.isNone_edge?_iff.1 hid), apply_liftM_error]
    · cases h
  | setEntry id =>
    rw [Call.change, FlowGraph.setEntry] at h
    split at h
    · cases h
    · next hid =>
      cases h
      rw [Bool.not_eq_true, FlowGraph.hasVertex_eq_false_iff] at hid
      simp only [Call.action, setEntry, apply_get, hg.vertexPlace_of_notMem hid, apply_liftM_error]

/-- The maps and the lists stay in step, whether a change succeeds or stops. -/
theorem of_apply (c : Call) : (c.action.apply g).2.Consistent := by
  cases h : c.change g.flow with
  | ok f =>
    obtain ⟨g', happly, hg', -⟩ := hg.apply_ok h
    rw [happly]
    exact hg'
  | error error =>
    rw [hg.apply_error h]
    exact hg

end Consistent

/-- Calls keep a graph consistent, whether they succeed or not. -/
theorem Consistent.after {g : IndexedGraph} (hg : g.Consistent) (calls : List Call) :
    (g.after calls).Consistent := by
  induction calls generalizing g with
  | nil => exact hg
  | cons c calls ih => exact ih (hg.of_apply c)

/-- What a call comes to, told from the flow graph: it succeeds where the flow graph accepts it, the
lists then stand for the flow graph that it makes, and otherwise it is refused with the error of the
flow graph. -/
structure Follows (g : IndexedGraph) (c : Call) : Prop where
  ok : ∀ f, c.change g.flow = .ok f → (c.action.apply g).1 = .ok () ∧ (c.action.apply g).2.flow = f
  error : ∀ e, c.change g.flow = .error e → (c.action.apply g).1 = .error (.because e)
  /-- What stops leaves the graph as it was. -/
  stopped : ∀ s, (c.action.apply g).1 = .error s → (c.action.apply g).2 = g

/-- A change has the outcome that it has on the flow graph, and leads to the same graph. -/
theorem Consistent.follows {g : IndexedGraph} (hg : g.Consistent) (c : Call) : g.Follows c := by
  cases h : c.change g.flow with
  | ok f =>
    obtain ⟨g', happly, -, hf⟩ := hg.apply_ok h
    constructor
    · intro f' hf'
      rw [happly]
      exact ⟨rfl, hf.trans (Except.ok.inj (h.symm.trans hf'))⟩
    · intro e he
      rw [he] at h
      cases h
    · intro s hs
      rw [happly] at hs
      cases hs
  | error error =>
    have happly := hg.apply_error h
    constructor
    · intro f hf
      rw [hf] at h
      cases h
    · intro e he
      rw [happly, ← Except.error.inj (h.symm.trans he)]
    · intro s hs
      rw [happly]

/-- After any calls, refused ones among them, the indexes are the inverse of the lists and the lists
stand for a well-formed graph, so no look-up finds a place empty. The next call, too, does what it
does to the flow graph, or stops and changes nothing, and giving an edge another kind changes this
kind alone. -/
theorem consistent_after (name : String) (calls : List Call) :
    ((empty name).after calls).Consistent ∧ ((empty name).after calls).Answers ∧
      (∀ c, ((empty name).after calls).Follows c) ∧
      ∀ id kind g', (setKind id kind).apply ((empty name).after calls) = (.ok (), g') →
        g' = { (empty name).after calls with
          edges := ((empty name).after calls).edges.map fun e =>
            if e.id = id then { e with kind } else e } := by
  have hg := (consistent_empty name).after calls
  refine ⟨hg, hg.answers, hg.follows, fun id kind g' h => ?_⟩
  by_cases hid : id ∈ ((empty name).after calls).edges.map (·.id)
  · rw [apply_setKind hg hid] at h
    exact (Prod.mk.inj h).2.symm
  · simp only [setKind, apply_get, hg.edgePlace_of_notMem hid, apply_liftM_error] at h
    cases h

end WorstCase.IndexedGraph
