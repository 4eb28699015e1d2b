import WorstCase.Model.Capacity
import WorstCase.Proofs.DepthFirst.Tree
import WorstCase.Proofs.Model.Flow

/-!
# The model of a trace

`FlowModel.Consists` says what a model is made of, row by row and column by column. The model of a
trace consists of the rows of the vertices that flow passes through, the row that lets the entry be
left once, and a column for each edge that is limited by its cap (`Trace.consists_model`).
-/

namespace WorstCase

variable {α : Type} [Scalar α]

/-- The rows of the vertices that flow passes through, in the order of the vertices. -/
def FlowGraph.flowRows (g : FlowGraph) : List EdgeRow :=
  (g.vertices.filter fun v => !(v.predecessors.isEmpty || v.successors.isEmpty)).map
    Scenario.flowRow

theorem FlowGraph.flowRow_mem {g : FlowGraph} {v : Vertex} (hv : v ∈ g.vertices)
    (hp : v.predecessors ≠ []) (hs : v.successors ≠ []) : Scenario.flowRow v ∈ g.flowRows := by
  refine List.mem_map.2 ⟨v, List.mem_filter.2 ⟨hv, ?_⟩, rfl⟩
  simp [List.isEmpty_eq_false_iff.2 hp, List.isEmpty_eq_false_iff.2 hs]

namespace FlowModel

/-- The model has the rows `rows` in this order, and a column for each edge of the graph, which
`column` gives. -/
structure Consists (g : FlowGraph) (rows : List EdgeRow) (column : Nat → Column α)
    (m : FlowModel α) : Prop where
  edges_eq : m.edges = g.edgesByVertex.map (·.id)
  rows_mem : ∀ r ∈ rows, ∀ e ∈ r.left ++ r.right, e ∈ m.edges
  rows_eq : m.problem.rows = rows.map (·.toRow m.edges)
  columns_eq : m.problem.columns = m.edges.map column

variable {g : FlowGraph} {rows : List EdgeRow} {column : Nat → Column α} {m m' : FlowModel α}

/-- The model starts with a column for each edge, without limits, and no rows. -/
theorem consists_ofGraph (g : FlowGraph) : (ofGraph (α := α) g).Consists g []
    (columnOf (fun _ => none) fun _ => Scalar.ofNat 0) := by
  rw [ofGraph_eq]
  exact ⟨rfl, fun r hr => absurd hr List.not_mem_nil, rfl, rfl⟩

namespace Consists

theorem mem_edges_iff (hm : m.Consists g rows column) (hg : g.WellFormed) {id : Nat} :
    id ∈ m.edges ↔ ∃ e ∈ g.edges, e.id = id := by
  rw [hm.edges_eq, List.mem_map]
  simp only [hg.edgesByVertex_perm.mem_iff]

theorem edges_nodup (hm : m.Consists g rows column) (hg : g.WellFormed) : m.edges.Nodup := by
  rw [hm.edges_eq]
  exact (hg.edgesByVertex_perm.map _).nodup_iff.2 hg.edgeIds_nodup

/-! ## Changes -/

theorem congr {column' : Nat → Column α} (hm : m.Consists g rows column)
    (h : ∀ e ∈ m.edges, column e = column' e) : m.Consists g rows column' :=
  ⟨hm.edges_eq, hm.rows_mem, hm.rows_eq, hm.columns_eq.trans (List.map_congr_left h)⟩

theorem addRow (hm : m.Consists g rows column) {r : EdgeRow}
    (h : m.addRow (r.left, 1) (r.right, -Scalar.ofNat r.factor) r.comparison
      (Scalar.ofNat r.offset) r.group r.comment = .ok m') :
    m'.Consists g (rows ++ [r]) column := by
  obtain ⟨hmem, rfl⟩ := addRow_eq_ok h
  refine ⟨hm.edges_eq, fun r' hr' => ?_, ?_, hm.columns_eq⟩
  · rcases List.mem_append.1 hr' with hr' | hr'
    · exact hm.rows_mem r' hr'
    · rw [List.mem_singleton.1 hr']
      exact hmem
  · rw [List.map_append, ← hm.rows_eq]
    rfl

theorem addFlowRows (hm : m.Consists g rows column) (h : m.addFlowRows g = .ok m') :
    m'.Consists g (rows ++ g.flowRows) column := by
  refine foldlM_ok_induction (P := fun done (m : FlowModel α) => m.Consists g
    (rows ++ (done.filter fun v => !(v.predecessors.isEmpty || v.successors.isEmpty)).map
      Scenario.flowRow) column) ?_ ?_ h
  · rwa [List.filter_nil, List.map_nil, List.append_nil]
  · intro done v c c' _ hc hstep
    unfold FlowModel.addFlowRow at hstep
    rw [List.filter_append, List.map_append, ← List.append_assoc, List.filter_singleton]
    split at hstep
    · next hempty =>
      cases hstep
      rw [hempty, Bool.not_true, Bool.cond_false, List.map_nil, List.append_nil]
      exact hc
    · next hempty =>
      rw [Bool.not_eq_true] at hempty
      rw [hempty, Bool.not_false, Bool.cond_true]
      exact hc.addRow (r := Scenario.flowRow v) hstep

/-- An upper bound is set on the column of its edge, unless it lies below the lower one. -/
theorem setUpper (hm : m.Consists g rows column) (hg : g.WellFormed) {edge count : Nat}
    (h : m.setUpper edge count = .ok m') : edge ∈ m.edges ∧
      ¬ Scalar.ofNat count < (column edge).lower ∧ m'.Consists g rows (Function.update column edge
        { column edge with upper := some (Scalar.ofNat count) }) := by
  obtain ⟨he, hlt, rfl⟩ := setUpper_eq_ok (hm.edges_nodup hg) hm.columns_eq h
  exact ⟨he, hlt, hm.edges_eq, hm.rows_mem, hm.rows_eq, rfl⟩

/-- A lower bound is set on the column of its edge, unless it lies above the upper one. -/
theorem setLower (hm : m.Consists g rows column) (hg : g.WellFormed) {edge count : Nat}
    (h : m.setLower edge count = .ok m') : edge ∈ m.edges ∧
      (∀ u, (column edge).upper = some u → ¬ u < Scalar.ofNat count) ∧
      m'.Consists g rows (Function.update column edge
        { column edge with lower := Scalar.ofNat count }) := by
  obtain ⟨he, hlt, rfl⟩ := setLower_eq_ok (hm.edges_nodup hg) hm.columns_eq h
  exact ⟨he, hlt, hm.edges_eq, hm.rows_mem, hm.rows_eq, rfl⟩

/-- Each edge gets its time, if all of them are known. -/
theorem addObjective (hm : m.Consists g rows column) (hg : g.WellFormed)
    {wcetOf : Edge → Except (ModelError α) Nat} (h : m.addObjective g wcetOf = .ok m') :
    ∃ time : Nat → α, m'.Consists g rows (fun e => { column e with objective := time e }) ∧
      ∀ e ∈ g.edges, ∃ wcet, wcetOf e = .ok wcet ∧ time e.id = Scalar.ofNat wcet := by
  obtain ⟨time, rfl, htime⟩ := addObjective_eq_ok hg hm.edges_eq hm.columns_eq h
  exact ⟨time, ⟨hm.edges_eq, hm.rows_mem, hm.rows_eq, rfl⟩, htime⟩

/-! ## Counts -/

variable {value : α → ℚ}

/-- Counts are feasible if they keep the bounds of the columns and satisfy the rows. -/
theorem feasible_iff (hm : m.Consists g rows column) (hv : Reads value) (count : Nat → ℚ) :
    (m.problem.read value).Feasible (m.edges.map count) ↔
      (∀ e ∈ m.edges, value (column e).lower ≤ count e ∧
        ∀ u, (column e).upper = some u → count e ≤ value u) ∧
      ∀ r ∈ rows, r.Holds (value (-Scalar.ofNat r.factor)) count := by
  refine feasible_map_iff hv hm.columns_eq (fun row => ?_) hm.rows_mem count
  simp only [hm.rows_eq, List.mem_map, eq_comm]

theorem exists_count (hm : m.Consists g rows column) (hg : g.WellFormed) {values : List ℚ}
    (h : (m.problem.read value).Feasible values) : ∃ count, values = m.edges.map count :=
  exists_count_of_columns hm.columns_eq (hm.edges_nodup hg) h

end Consists

end FlowModel

/-! ## Rows and caps of a trace -/

namespace Trace

/-- The times and counts are numbers of 64 bits. -/
structure Words (t : Trace) : Prop where
  edgeWcet : ∀ edge wcet, t.edgeWcet edge = .ok wcet → wcet < 2 ^ 64
  edgeCount : ∀ edge count, t.edgeCount edge = .ok count → count < 2 ^ 64

/-- The numbers of a trace are those of its entries. -/
theorem Words.of_entries {t : Trace} (hwcets : ∀ q ∈ t.edgeWcets.entries, q.2 < 2 ^ 64)
    (hcounts : ∀ q ∈ t.edgeCounts.entries, q.2 < 2 ^ 64) : t.Words := by
  constructor
  · intro edge wcet h
    unfold Trace.edgeWcet at h
    split at h
    · next hw =>
      cases h
      exact hwcets _ (mem_of_lookup hw)
    · cases h
  · intro edge count h
    unfold Trace.edgeCount at h
    split at h
    · next hc =>
      cases h
      exact hcounts _ (mem_of_lookup hc)
    · cases h

/-- The entry is left at most once. -/
def entryRow (entry : Vertex) : EdgeRow where
  left := entry.successors
  factor := 1
  right := []
  comparison := .atMost
  offset := 1
  group := .capacity
  comment := s!"Entry vertex {entry.id}"
  offset_le := Nat.one_pos

/-- The row of the entry, which an entry that cannot be left does not have. -/
def entryRows (entry : Vertex) : List EdgeRow :=
  if entry.successors.isEmpty then [] else [entryRow entry]

/-- The limits are the caps of the edges that do not leave the entry. -/
def Caps (t : Trace) (g : FlowGraph) (entry : Nat) (tree? : Option DepthFirstTree)
    (upper : Nat → Option α) : Prop :=
  ∀ e ∈ g.edges, (e.source = entry → upper e.id = none) ∧ (e.source ≠ entry →
    ∃ cap, t.cap? tree? e = .ok cap ∧ upper e.id = cap.map Scalar.ofNat)

/-- The tree that the caps are told from: none if all edges are to be capped. -/
def TreeFor (g : FlowGraph) (entry : Nat) : Bool → Option DepthFirstTree → Prop
  | true, tree? => tree? = none
  | false, tree? => ∃ tree, DepthFirstTree.spanning g entry = .ok tree ∧ tree? = some tree

variable {t : Trace} {g : FlowGraph} {rows : List EdgeRow} {m m' : FlowModel α}

theorem consists_addEntryRow {column : Nat → Column α} (hm : m.Consists g rows column)
    {entry : Vertex} (h : addEntryRow m entry = .ok m') :
    m'.Consists g (rows ++ entryRows entry) column := by
  unfold addEntryRow at h
  unfold entryRows
  split at h
  · next hempty =>
    cases h
    rwa [if_pos hempty, List.append_nil]
  · next hempty =>
    rw [if_neg hempty]
    exact hm.addRow (r := entryRow entry) h

/-- Caps are asked for on all edges but those that leave the entry. -/
theorem mem_cappedEdges_iff (hg : g.WellFormed) {entry : Nat} {e : Edge} :
    e ∈ cappedEdges g entry ↔ e ∈ g.edges ∧ e.source ≠ entry := by
  simp only [cappedEdges, List.mem_flatMap, List.mem_filter, bne_iff_ne]
  constructor
  · rintro ⟨v, ⟨hv, hne⟩, he⟩
    rw [hg.outEdges_eq hv, List.mem_filter, beq_iff_eq] at he
    exact ⟨he.1, he.2 ▸ hne⟩
  · rintro ⟨he, hne⟩
    obtain ⟨v, hv, hid⟩ := List.mem_map.1 (hg.source_mem e he)
    refine ⟨v, ⟨hv, hid ▸ hne⟩, ?_⟩
    rw [hg.outEdges_eq hv, List.mem_filter, beq_iff_eq]
    exact ⟨he, hid.symm⟩

/-- Capping edges one after the other gives each its cap: a cap depends on its edge alone. -/
theorem consists_foldlM_addCap (hg : g.WellFormed) {time : Nat → α} {tree? : Option DepthFirstTree}
    {es : List Edge} (hes : ∀ e ∈ es, e ∈ g.edges)
    (hm : m.Consists g rows (FlowModel.columnOf (fun _ => none) time))
    (h : es.foldlM (t.addCap tree?) m = .ok m') : ∃ upper : Nat → Option α,
      m'.Consists g rows (FlowModel.columnOf upper time) ∧ ∀ e ∈ g.edges,
        (e ∉ es → upper e.id = none) ∧
        (e ∈ es → ∃ cap, t.cap? tree? e = .ok cap ∧ upper e.id = cap.map Scalar.ofNat) := by
  refine foldlM_ok_induction (P := fun done (m : FlowModel α) => ∃ upper : Nat → Option α,
    m.Consists g rows (FlowModel.columnOf upper time) ∧ ∀ e ∈ g.edges,
      (e ∉ done → upper e.id = none) ∧
      (e ∈ done → ∃ cap, t.cap? tree? e = .ok cap ∧ upper e.id = cap.map Scalar.ofNat))
    ⟨fun _ => none, hm, fun e _ => ⟨fun _ => rfl, fun he => absurd he List.not_mem_nil⟩⟩ ?_ h
  rintro done e c c' he ⟨upper, hc, hup⟩ hstep
  -- what is known of the other edges stays
  have hother : ∀ upper' : Nat → Option α, (∀ id, id ≠ e.id → upper' id = upper id) →
      (∃ cap, t.cap? tree? e = .ok cap ∧ upper' e.id = cap.map Scalar.ofNat) → ∀ d ∈ g.edges,
        (d ∉ done ++ [e] → upper' d.id = none) ∧ (d ∈ done ++ [e] →
          ∃ cap, t.cap? tree? d = .ok cap ∧ upper' d.id = cap.map Scalar.ofNat) := by
    intro upper' hsame hcap d hd
    by_cases hde : d.id = e.id
    · rw [hg.eq_of_id_eq hd (hes e he) hde]
      exact ⟨fun hn => absurd (List.mem_append_right _ (List.mem_singleton_self e)) hn,
        fun _ => hcap⟩
    · have hne : d ≠ e := fun hc => hde (hc ▸ rfl)
      rw [hsame _ hde, List.mem_append, List.mem_singleton]
      simp only [hne, or_false]
      exact hup d hd
  unfold addCap at hstep
  split at hstep
  · cases hstep
  · next hcap =>
    cases hstep
    refine ⟨upper, hc, hother upper (fun _ _ => rfl) ⟨none, hcap, ?_⟩⟩
    by_cases hed : e ∈ done
    · obtain ⟨cap, hcap', hu⟩ := (hup e (hes e he)).2 hed
      rw [hcap] at hcap'
      cases hcap'
      exact hu
    · exact (hup e (hes e he)).1 hed
  · next n hcap =>
    obtain ⟨-, -, hc'⟩ := hc.setUpper hg hstep
    refine ⟨Function.update upper e.id (some (Scalar.ofNat n)), hc'.congr fun id _ => ?_,
      hother _ (fun id hid => Function.update_of_ne hid _ _)
        ⟨some n, hcap, Function.update_self ..⟩⟩
    by_cases hid : id = e.id
    · subst hid
      simp only [FlowModel.columnOf, Function.update_self]
    · simp only [FlowModel.columnOf, Function.update_of_ne hid]

/-- The row of the entry comes first, then the caps. -/
theorem addCaps_eq_ok {all : Bool} (h : t.addCaps g all m = .ok m') :
    ∃ entry ∈ g.vertices, g.entry? = some entry.id ∧ ∃ m₁, addEntryRow m entry = .ok m₁ ∧
      ∃ tree?, TreeFor g entry.id all tree? ∧
        (cappedEdges g entry.id).foldlM (t.addCap tree?) m₁ = .ok m' := by
  unfold addCaps at h
  split at h
  · cases h
  · next id hid =>
    split at h
    · cases h
    · next entry hentry =>
      obtain ⟨m₁, hrow, h⟩ := bind_ok h
      obtain ⟨hv, rfl⟩ := FlowGraph.vertex_eq_ok hentry
      refine ⟨entry, hv, FlowGraph.entry_eq_ok hid, m₁, hrow, ?_⟩
      cases all with
      | true => exact ⟨none, rfl, h⟩
      | false =>
        simp only [Bool.false_eq_true, ↓reduceIte] at h
        split at h
        · cases h
        · next tree ht => exact ⟨some tree, ⟨tree, ht, rfl⟩, h⟩

/-- What a model consists of that can be built. -/
theorem consists_model {all : Bool} (hg : g.WellFormed) (h : t.model g all = .ok m) :
    ∃ entry ∈ g.vertices, g.entry? = some entry.id ∧ ∃ tree?, TreeFor g entry.id all tree? ∧
      ∃ (upper : Nat → Option α) (time : Nat → α),
        m.Consists g (g.flowRows ++ entryRows entry) (FlowModel.columnOf upper time) ∧
        t.Caps g entry.id tree? upper ∧
        ∀ e ∈ g.edges, ∃ wcet, t.wcetOf (α := α) e = .ok wcet ∧ time e.id = Scalar.ofNat wcet := by
  obtain ⟨m₁, h₁, h⟩ := bind_ok h
  obtain ⟨m₂, h₂, h⟩ := bind_ok h
  have hm₁ := (FlowModel.consists_ofGraph g).addFlowRows h₁
  rw [List.nil_append] at hm₁
  obtain ⟨entry, hv, he, m₃, h₃, tree?, hfor, h₂⟩ := addCaps_eq_ok h₂
  obtain ⟨upper, hm₂, hup⟩ := consists_foldlM_addCap hg
    (fun e he => ((mem_cappedEdges_iff hg).1 he).1) (consists_addEntryRow hm₁ h₃) h₂
  obtain ⟨time, hm, htime⟩ := hm₂.addObjective hg h
  refine ⟨entry, hv, he, tree?, hfor, upper, time, hm, fun e hem => ?_, htime⟩
  obtain ⟨hfree, hcapped⟩ := hup e hem
  exact ⟨fun hs => hfree fun hc => ((mem_cappedEdges_iff hg).1 hc).2 hs,
    fun hs => hcapped ((mem_cappedEdges_iff hg).2 ⟨hem, hs⟩)⟩

end Trace

end WorstCase
