import Mathlib.Data.List.Nodup
import Mathlib.Data.List.Perm.Basic
import WorstCase.Graph.Basic
import WorstCase.Proofs.Ordered.NatMap

/-!
# Graphs made by their changes

A graph is *built* (`FlowGraph.Built`) when it comes from the empty graph by adding vertices and
edges, changing kinds and naming an entry. Every built graph is well formed
(`FlowGraph.Built.wellFormed`): identifiers are unique, edges join vertices, and the edges listed at
a vertex are those that start or end there, in the order of the graph. What a graph answers is then
told from its list of edges alone (`successorEdges_eq`, `predecessorEdges_eq`,
`edgesByVertex_perm`).
-/

namespace WorstCase

/-- The headers of an iteration are in ascending order, as in every set of numbers. -/
def EdgeKind.Ascending : EdgeKind → Prop
  | .iteration headers => headers.Pairwise (· < ·)
  | .trace | .ghost | .inlined _ | .entry _ | .exit _ => True

theorem map_id_filter_ne_nil {es : List Edge} {q : Edge → Bool} :
    (es.filter q).map (·.id) ≠ [] ↔ ∃ e ∈ es, q e := by
  simp only [ne_eq, List.map_eq_nil_iff, List.filter_eq_nil_iff, not_forall, not_not, exists_prop]

/-- Sorting a list without repetitions over keys that cover it keeps its members. -/
theorem perm_flatMap_filter {ι : Type} {xs : List ι} {keys : List Nat} {f : ι → Nat} (hx : xs.Nodup)
    (hk : keys.Nodup) (hf : ∀ x ∈ xs, f x ∈ keys) :
    (keys.flatMap fun k => xs.filter (f · == k)).Perm xs := by
  have hnd : (keys.flatMap fun k => xs.filter (f · == k)).Nodup := by
    refine List.nodup_flatMap.2 ⟨fun k _ => hx.filter _, hk.imp fun {j k} hjk x hxj hxk => ?_⟩
    exact hjk ((eq_of_beq (List.mem_filter.1 hxj).2).symm.trans
      (eq_of_beq (List.mem_filter.1 hxk).2))
  refine (List.perm_ext_iff_of_nodup hnd hx).2 fun x => ?_
  rw [List.mem_flatMap]
  constructor
  · rintro ⟨k, -, h⟩
    exact (List.mem_filter.1 h).1
  · intro h
    exact ⟨f x, hf x h, List.mem_filter.2 ⟨h, beq_self_eq_true _⟩⟩

namespace FlowGraph

/-- The graph comes from an empty one by changes that were accepted. -/
inductive Built : FlowGraph → Prop
  | empty (name : String) : Built (.empty name)
  | addVertex {g g' : FlowGraph} {id : Nat} (hg : Built g) (h : g.addVertex id = .ok g') : Built g'
  | addEdge {g g' : FlowGraph} {e : Edge} (hg : Built g) (he : e.kind.Ascending)
      (h : g.addEdge e = .ok g') : Built g'
  | setKind {g g' : FlowGraph} {id : Nat} {kind : EdgeKind} (hg : Built g) (hk : kind.Ascending)
      (h : g.setKind id kind = .ok g') : Built g'
  | setEntry {g g' : FlowGraph} {id : Nat} (hg : Built g) (h : g.setEntry id = .ok g') : Built g'

/-- Identifiers are unique, edges join vertices, and the edges listed at a vertex are the ones that
start or end there, in the order of the graph. -/
structure WellFormed (g : FlowGraph) : Prop where
  vertexIds_nodup : g.vertexIds.Nodup
  edgeIds_nodup : (g.edges.map (·.id)).Nodup
  source_mem : ∀ e ∈ g.edges, e.source ∈ g.vertexIds
  destination_mem : ∀ e ∈ g.edges, e.destination ∈ g.vertexIds
  successors_eq : ∀ v ∈ g.vertices, v.successors = (g.edges.filter (·.source == v.id)).map (·.id)
  predecessors_eq : ∀ v ∈ g.vertices,
    v.predecessors = (g.edges.filter (·.destination == v.id)).map (·.id)
  entry_mem : ∀ v, g.entry? = some v → v ∈ g.vertexIds
  ascending : ∀ e ∈ g.edges, e.kind.Ascending

/-! ## Looking up identifiers -/

theorem hasVertex_iff {g : FlowGraph} {id : Nat} : g.hasVertex id = true ↔ id ∈ g.vertexIds := by
  simp only [hasVertex, vertex?, vertexIds, List.find?_isSome, List.mem_map, beq_iff_eq]

theorem hasVertex_eq_false_iff {g : FlowGraph} {id : Nat} :
    g.hasVertex id = false ↔ id ∉ g.vertexIds := by
  rw [← Bool.not_eq_true, hasVertex_iff]

theorem edge?_isSome_iff {g : FlowGraph} {id : Nat} :
    (g.edge? id).isSome = true ↔ id ∈ g.edges.map (·.id) := by
  simp only [edge?, List.find?_isSome, List.mem_map, beq_iff_eq]

theorem mem_of_vertex? {g : FlowGraph} {id : Nat} {v : Vertex} (h : g.vertex? id = some v) :
    v ∈ g.vertices ∧ v.id = id := by
  refine ⟨List.mem_of_find?_eq_some h, ?_⟩
  have hb := List.find?_some h
  exact eq_of_beq hb

theorem vertex_eq_ok {g : FlowGraph} {id : Nat} {v : Vertex} (h : g.vertex id = .ok v) :
    v ∈ g.vertices ∧ v.id = id := by
  unfold vertex at h
  split at h
  · next hv =>
    cases h
    exact mem_of_vertex? hv
  · cases h

theorem entry_eq_ok {g : FlowGraph} {id : Nat} (h : g.entry = .ok id) : g.entry? = some id := by
  unfold entry at h
  split at h
  · next hid =>
    cases h
    exact hid
  · cases h

theorem mem_of_edge? {g : FlowGraph} {id : Nat} {e : Edge} (h : g.edge? id = some e) :
    e ∈ g.edges ∧ e.id = id := by
  refine ⟨List.mem_of_find?_eq_some h, ?_⟩
  have hb := List.find?_some h
  exact eq_of_beq hb

/-! ## What the changes do -/

/-- A vertex can be added if its identifier is new. It comes last. -/
theorem addVertex_eq_ok {g g' : FlowGraph} {id : Nat} (h : g.addVertex id = .ok g') :
    id ∉ g.vertexIds ∧ g' = { g with vertices := g.vertices ++ [⟨id, [], []⟩] } := by
  unfold addVertex at h
  split at h
  · cases h
  · rename_i hv
    rw [hasVertex_iff] at hv
    exact ⟨hv, (Except.ok.inj h).symm⟩

/-- An edge can be added if its identifier is new and both ends are there. It is then listed at both
ends. -/
theorem addEdge_eq_ok {g g' : FlowGraph} {e : Edge} (h : g.addEdge e = .ok g') :
    e.id ∉ g.edges.map (·.id) ∧ e.source ∈ g.vertexIds ∧ e.destination ∈ g.vertexIds ∧
      g' = { g with edges := g.edges ++ [e], vertices := g.vertices.map (attach e) } := by
  unfold addEdge at h
  split at h
  · cases h
  · rename_i hid
    rw [edge?_isSome_iff] at hid
    split at h
    · cases h
    · rename_i hs
      split at h
      · cases h
      · rename_i hd
        simp only [Bool.not_eq_true', Bool.not_eq_false, hasVertex_iff] at hs hd
        exact ⟨hid, hs, hd, (Except.ok.inj h).symm⟩

theorem setKind_eq_ok {g g' : FlowGraph} {id : Nat} {kind : EdgeKind}
    (h : g.setKind id kind = .ok g') :
    g' = { g with edges := g.edges.map fun e => if e.id = id then { e with kind } else e } := by
  unfold setKind at h
  split at h
  · cases h
  · exact (Except.ok.inj h).symm

theorem setEntry_eq_ok {g g' : FlowGraph} {id : Nat} (h : g.setEntry id = .ok g') :
    id ∈ g.vertexIds ∧ g' = { g with entry? := some id } := by
  unfold setEntry at h
  split at h
  · rename_i hv
    exact ⟨hasVertex_iff.1 hv, (Except.ok.inj h).symm⟩
  · cases h

theorem vertexIds_map_attach (e : Edge) (vs : List Vertex) :
    (vs.map (attach e)).map (·.id) = vs.map (·.id) := by
  rw [List.map_map]
  rfl

namespace WellFormed

theorem of_empty (name : String) : (FlowGraph.empty name).WellFormed := by
  refine ⟨?_, ?_, ?_, ?_, ?_, ?_, ?_, ?_⟩ <;> simp [FlowGraph.empty, vertexIds]

/-- A new vertex, without edges, keeps the graph well-formed. -/
theorem of_addVertex {g g' : FlowGraph} {id : Nat} (hg : g.WellFormed)
    (h : g.addVertex id = .ok g') : g'.WellFormed := by
  obtain ⟨hid, rfl⟩ := addVertex_eq_ok h
  have hids : ∀ v, v ∈ g.vertexIds → v ≠ id := fun v hv e => hid (e ▸ hv)
  refine ⟨?_, hg.edgeIds_nodup, ?_, ?_, ?_, ?_, ?_, hg.ascending⟩
  · simp only [vertexIds, List.map_append, List.map_cons, List.map_nil]
    exact List.nodup_append.2 ⟨hg.vertexIds_nodup, List.nodup_singleton _, by
      intro a ha b hb
      rw [List.mem_singleton.1 hb]
      exact hids a ha⟩
  · intro e he
    simpa [vertexIds] using Or.inl (List.mem_map.1 (hg.source_mem e he))
  · intro e he
    simpa [vertexIds] using Or.inl (List.mem_map.1 (hg.destination_mem e he))
  · intro v hv
    rcases List.mem_append.1 hv with hv | hv
    · exact hg.successors_eq v hv
    · rw [List.mem_singleton.1 hv, eq_comm, List.map_eq_nil_iff, List.filter_eq_nil_iff]
      intro e he hs
      exact hids _ (hg.source_mem e he) (eq_of_beq hs)
  · intro v hv
    rcases List.mem_append.1 hv with hv | hv
    · exact hg.predecessors_eq v hv
    · rw [List.mem_singleton.1 hv, eq_comm, List.map_eq_nil_iff, List.filter_eq_nil_iff]
      intro e he hs
      exact hids _ (hg.destination_mem e he) (eq_of_beq hs)
  · intro v hv
    simpa [vertexIds] using Or.inl (List.mem_map.1 (hg.entry_mem v hv))

/-- A new edge, which is listed at both ends, keeps the graph well-formed. -/
theorem of_addEdge {g g' : FlowGraph} {e : Edge} (hg : g.WellFormed) (hk : e.kind.Ascending)
    (h : g.addEdge e = .ok g') : g'.WellFormed := by
  obtain ⟨hid, hs, hd, rfl⟩ := addEdge_eq_ok h
  have hids : (g.vertices.map (attach e)).map (·.id) = g.vertexIds := vertexIds_map_attach e _
  refine ⟨?_, ?_, ?_, ?_, ?_, ?_, ?_, ?_⟩
  · simpa only [vertexIds, hids] using hg.vertexIds_nodup
  · simp only [List.map_append, List.map_cons, List.map_nil]
    exact List.nodup_append.2 ⟨hg.edgeIds_nodup, List.nodup_singleton _, by
      intro a ha b hb
      rw [List.mem_singleton.1 hb]
      exact fun hab => hid (hab ▸ ha)⟩
  · intro f hf
    simp only [vertexIds, hids]
    rcases List.mem_append.1 hf with hf | hf
    · exact hg.source_mem f hf
    · rw [List.mem_singleton.1 hf]
      exact hs
  · intro f hf
    simp only [vertexIds, hids]
    rcases List.mem_append.1 hf with hf | hf
    · exact hg.destination_mem f hf
    · rw [List.mem_singleton.1 hf]
      exact hd
  · intro w hw
    obtain ⟨v, hv, rfl⟩ := List.mem_map.1 hw
    simp only [attach, List.filter_append, List.map_append, hg.successors_eq v hv]
    by_cases hc : v.id = e.source
    · simp [hc]
    · simp [hc, Ne.symm hc]
  · intro w hw
    obtain ⟨v, hv, rfl⟩ := List.mem_map.1 hw
    simp only [attach, List.filter_append, List.map_append, hg.predecessors_eq v hv]
    by_cases hc : v.id = e.destination
    · simp [hc]
    · simp [hc, Ne.symm hc]
  · intro v hv
    simpa only [vertexIds, hids] using hg.entry_mem v hv
  · intro f hf
    rcases List.mem_append.1 hf with hf | hf
    · exact hg.ascending f hf
    · rw [List.mem_singleton.1 hf]
      exact hk

/-- A graph whose edges keep their identifiers and ends is as well formed as before. -/
theorem of_map_edges {g : FlowGraph} (hg : g.WellFormed) {f : Edge → Edge}
    (hid : ∀ e, (f e).id = e.id) (hs : ∀ e, (f e).source = e.source)
    (hd : ∀ e, (f e).destination = e.destination) (hk : ∀ e ∈ g.edges, (f e).kind.Ascending) :
    WellFormed { g with edges := g.edges.map f } := by
  have hids : (fun e : Edge => e.id) ∘ f = fun e => e.id := funext hid
  refine ⟨hg.vertexIds_nodup, ?_, ?_, ?_, ?_, ?_, hg.entry_mem, ?_⟩
  · simpa only [List.map_map, hids] using hg.edgeIds_nodup
  · intro e he
    obtain ⟨d, hde, rfl⟩ := List.mem_map.1 he
    rw [hs]
    exact hg.source_mem d hde
  · intro e he
    obtain ⟨d, hde, rfl⟩ := List.mem_map.1 he
    rw [hd]
    exact hg.destination_mem d hde
  · intro v hv
    have hc : (fun e : Edge => e.source == v.id) ∘ f = fun e => e.source == v.id :=
      funext fun e => by simp only [Function.comp_apply, hs]
    simp only [List.filter_map, List.map_map, hc, hids, hg.successors_eq v hv]
  · intro v hv
    have hc : (fun e : Edge => e.destination == v.id) ∘ f = fun e => e.destination == v.id :=
      funext fun e => by simp only [Function.comp_apply, hd]
    simp only [List.filter_map, List.map_map, hc, hids, hg.predecessors_eq v hv]
  · intro e he
    obtain ⟨d, hde, rfl⟩ := List.mem_map.1 he
    exact hk d hde

/-- The lists at the vertices do not depend on the kinds of the edges. -/
theorem of_setKind {g g' : FlowGraph} {id : Nat} {kind : EdgeKind} (hg : g.WellFormed)
    (hk : kind.Ascending) (h : g.setKind id kind = .ok g') : g'.WellFormed := by
  rw [setKind_eq_ok h]
  refine hg.of_map_edges ?_ ?_ ?_ ?_
  · intro e; split <;> rfl
  · intro e; split <;> rfl
  · intro e; split <;> rfl
  · intro e he
    split
    · exact hk
    · exact hg.ascending e he

theorem of_setEntry {g g' : FlowGraph} {id : Nat} (hg : g.WellFormed)
    (h : g.setEntry id = .ok g') : g'.WellFormed := by
  obtain ⟨hid, rfl⟩ := setEntry_eq_ok h
  refine { hg with entry_mem := ?_ }
  intro v hv
  cases hv
  exact hid

end WellFormed

/-- Every built graph is well formed. -/
theorem Built.wellFormed {g : FlowGraph} (h : g.Built) : g.WellFormed := by
  induction h with
  | empty name => exact .of_empty name
  | addVertex _ h ih => exact ih.of_addVertex h
  | addEdge _ he h ih => exact ih.of_addEdge he h
  | setKind _ hk h ih => exact ih.of_setKind hk h
  | setEntry _ h ih => exact ih.of_setEntry h

/-! ## Answers told from the list of edges -/

namespace WellFormed

variable {g : FlowGraph} (hg : g.WellFormed)

include hg

theorem edges_nodup : g.edges.Nodup :=
  hg.edgeIds_nodup.of_map _

theorem eq_of_id_eq {d e : Edge} (hd : d ∈ g.edges) (he : e ∈ g.edges) (h : d.id = e.id) : d = e :=
  List.inj_on_of_nodup_map hg.edgeIds_nodup hd he h

theorem successors_ne_nil_iff {v : Vertex} (hv : v ∈ g.vertices) :
    v.successors ≠ [] ↔ ∃ e ∈ g.edges, e.source = v.id := by
  simp only [hg.successors_eq v hv, map_id_filter_ne_nil, beq_iff_eq]

theorem predecessors_ne_nil_iff {v : Vertex} (hv : v ∈ g.vertices) :
    v.predecessors ≠ [] ↔ ∃ e ∈ g.edges, e.destination = v.id := by
  simp only [hg.predecessors_eq v hv, map_id_filter_ne_nil, beq_iff_eq]

theorem edge?_eq_some_iff {id : Nat} {e : Edge} :
    g.edge? id = some e ↔ e ∈ g.edges ∧ e.id = id := by
  refine ⟨mem_of_edge?, ?_⟩
  rintro ⟨he, rfl⟩
  have hs : (g.edge? e.id).isSome = true :=
    edge?_isSome_iff.2 (List.mem_map_of_mem he)
  obtain ⟨d, hd⟩ := Option.isSome_iff_exists.1 hs
  rw [hd, hg.eq_of_id_eq (mem_of_edge? hd).1 he (mem_of_edge? hd).2]

/-- Edges of the graph are found again by their identifiers. -/
theorem filterMap_edge?_map {es : List Edge} (h : ∀ e ∈ es, e ∈ g.edges) :
    (es.map (·.id)).filterMap g.edge? = es := by
  induction es with
  | nil => rfl
  | cons e es ih =>
    have he : g.edge? e.id = some e := hg.edge?_eq_some_iff.2 ⟨h e List.mem_cons_self, rfl⟩
    rw [List.map_cons, List.filterMap_cons_some he,
      ih fun d hd => h d (List.mem_cons_of_mem _ hd)]

/-- The edges that a vertex lists are those that leave it, in the order of the graph. -/
theorem outEdges_eq {v : Vertex} (hv : v ∈ g.vertices) :
    g.outEdges v = g.edges.filter (·.source == v.id) := by
  rw [outEdges, hg.successors_eq v hv]
  exact hg.filterMap_edge?_map fun e he => (List.mem_filter.1 he).1

theorem inEdges_eq {v : Vertex} (hv : v ∈ g.vertices) :
    g.inEdges v = g.edges.filter (·.destination == v.id) := by
  rw [inEdges, hg.predecessors_eq v hv]
  exact hg.filterMap_edge?_map fun e he => (List.mem_filter.1 he).1

theorem successorEdges_eq (id : Nat) : g.successorEdges id = g.edges.filter (·.source == id) := by
  unfold successorEdges
  cases hv : g.vertex? id with
  | some v =>
    obtain ⟨hm, rfl⟩ := mem_of_vertex? hv
    exact hg.outEdges_eq hm
  | none =>
    rw [eq_comm, List.filter_eq_nil_iff]
    intro e he hs
    have hm := hasVertex_iff.2 (hg.source_mem e he)
    rw [eq_of_beq hs, hasVertex, hv] at hm
    cases hm

theorem predecessorEdges_eq (id : Nat) :
    g.predecessorEdges id = g.edges.filter (·.destination == id) := by
  unfold predecessorEdges
  cases hv : g.vertex? id with
  | some v =>
    obtain ⟨hm, rfl⟩ := mem_of_vertex? hv
    exact hg.inEdges_eq hm
  | none =>
    rw [eq_comm, List.filter_eq_nil_iff]
    intro e he hs
    have hm := hasVertex_iff.2 (hg.destination_mem e he)
    rw [eq_of_beq hs, hasVertex, hv] at hm
    cases hm

/-- Vertex by vertex, the edges that leave it. -/
theorem edgesByVertex_eq :
    g.edgesByVertex = g.vertexIds.flatMap fun v => g.edges.filter (·.source == v) := by
  rw [edgesByVertex, vertexIds, List.flatMap_map]
  exact List.flatMap_congr fun v hv => hg.outEdges_eq hv

/-- The edges sorted by one of their ends are all the edges, each once. -/
theorem flatMap_filter_perm {f : Edge → Nat} (hf : ∀ e ∈ g.edges, f e ∈ g.vertexIds) :
    (g.vertexIds.flatMap fun v => g.edges.filter (f · == v)).Perm g.edges :=
  perm_flatMap_filter hg.edges_nodup hg.vertexIds_nodup hf

/-- Every edge is listed once when the edges are listed by vertex. -/
theorem edgesByVertex_perm : g.edgesByVertex.Perm g.edges := by
  rw [hg.edgesByVertex_eq]
  exact hg.flatMap_filter_perm hg.source_mem

end WellFormed

end FlowGraph

end WorstCase
