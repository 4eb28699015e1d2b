import WorstCase.Proofs.Model.Loops
import WorstCase.Proofs.Number.Double

/-!
# What rows say of counts

The number of times that edges of a kind are taken (`FlowGraph.total`) does not depend on the order
in which a model lists them. The row of a vertex says that as much leaves it as reaches it
(`holds_flowRow_iff`), and the rows of a loop compare the edges that are tagged with its header
(`sum_backOf`, `sum_entryOf`, `sum_exitOf`).
-/

namespace WorstCase

namespace FlowGraph

variable {g : FlowGraph} {count : Nat → ℚ}

/-- How often the edges with the property `q` are taken. -/
def total (g : FlowGraph) (count : Nat → ℚ) (q : Edge → Bool) : ℚ :=
  ((g.edges.filter q).map fun e => count e.id).sum

theorem total_congr {q r : Edge → Bool} (h : ∀ e ∈ g.edges, q e = r e) :
    g.total count q = g.total count r := by
  rw [total, total, List.filter_congr h]

theorem total_split (q r : Edge → Bool) : g.total count q =
    g.total count (fun e => q e && r e) + g.total count (fun e => q e && !r e) := by
  have hsum : ∀ es : List Edge, ((es.filter q).map fun e => count e.id).sum =
      ((es.filter fun e => q e && r e).map fun e => count e.id).sum +
        ((es.filter fun e => q e && !r e).map fun e => count e.id).sum := by
    intro es
    induction es with
    | nil => simp only [List.filter_nil, List.map_nil, List.sum_nil, add_zero]
    | cons e es ih =>
      cases hq : q e <;> cases hr : r e <;>
        simp only [List.filter_cons, hq, hr, Bool.and_self, Bool.and_true, Bool.and_false,
          Bool.not_true, Bool.not_false, Bool.false_eq_true, ↓reduceIte,
          List.map_cons, List.sum_cons, ih]
      · ring
      · ring
  exact hsum g.edges

theorem total_nonneg (h : ∀ e ∈ g.edges, 0 ≤ count e.id) (q : Edge → Bool) :
    0 ≤ g.total count q := by
  refine List.sum_nonneg fun x hx => ?_
  obtain ⟨e, he, rfl⟩ := List.mem_map.1 hx
  exact h e (List.mem_filter.1 he).1

theorem count_le_total (h : ∀ e ∈ g.edges, 0 ≤ count e.id) {q : Edge → Bool} {e : Edge}
    (he : e ∈ g.edges) (hq : q e) : count e.id ≤ g.total count q := by
  refine List.single_le_sum (fun x hx => ?_) _
    (List.mem_map.2 ⟨e, List.mem_filter.2 ⟨he, hq⟩, rfl⟩)
  obtain ⟨d, hd, rfl⟩ := List.mem_map.1 hx
  exact h d (List.mem_filter.1 hd).1

theorem total_mono (h : ∀ e ∈ g.edges, 0 ≤ count e.id) {q r : Edge → Bool}
    (hqr : ∀ e ∈ g.edges, q e → r e) : g.total count q ≤ g.total count r := by
  have hboth : g.total count (fun e => r e && q e) = g.total count q := by
    refine total_congr fun e he => ?_
    cases hq : q e with
    | false => rw [Bool.and_false]
    | true => rw [Bool.and_true, hqr e he hq]
  rw [total_split r q, hboth]
  exact le_add_of_nonneg_right (total_nonneg h _)

/-- Where as much leaves each of some vertices as reaches it, as much leaves them all for others as
comes to them from others. -/
theorem total_leaving_eq {ids : List Nat} (hd : ids.Nodup) (hrow : ∀ v ∈ ids,
      g.total count (·.source == v) = g.total count (·.destination == v)) :
    g.total count (fun e => ids.contains e.source && !ids.contains e.destination) =
      g.total count (fun e => ids.contains e.destination && !ids.contains e.source) := by
  -- one vertex more
  have hcons : ∀ (f : Edge → Nat) (v : Nat) (ids : List Nat), v ∉ ids →
      g.total count (fun e => (v :: ids).contains (f e)) =
        g.total count (f · == v) + g.total count (fun e => ids.contains (f e)) := by
    intro f v ids hv
    rw [total_split _ (f · == v)]
    congr 1
    · refine total_congr fun e _ => ?_
      by_cases hf : f e = v <;> simp [hf]
    · refine total_congr fun e _ => ?_
      by_cases hf : f e = v <;> simp [hf, hv]
  have hall : g.total count (fun e => ids.contains e.source) =
      g.total count (fun e => ids.contains e.destination) := by
    induction ids with
    | nil => simp only [List.contains_nil]
    | cons v ids ih =>
      obtain ⟨hv, hd⟩ := List.nodup_cons.1 hd
      rw [hcons _ v ids hv, hcons _ v ids hv, hrow v List.mem_cons_self,
        ih hd fun w hw => hrow w (List.mem_cons_of_mem _ hw)]
  rw [total_split _ fun e => ids.contains e.destination,
    total_split (fun e => ids.contains e.destination) fun e => ids.contains e.source] at hall
  simp only [Bool.and_comm] at hall ⊢
  linarith

end FlowGraph

variable {g : FlowGraph} {count : Nat → ℚ}

/-- The row of a vertex says that it is left as often as it is come to. -/
theorem Scenario.holds_flowRow_iff (hg : g.WellFormed) {v : Vertex} (hv : v ∈ g.vertices) :
    (flowRow v).Holds (-1) count ↔
      g.total count (·.source == v.id) = g.total count (·.destination == v.id) := by
  have hsum : ∀ es : List Edge, (es.map (·.id)).map count = es.map fun e => count e.id := by
    intro es
    rw [List.map_map]
    rfl
  simp only [flowRow, EdgeRow.Holds, Comparison.Rel, hg.successors_eq v hv,
    hg.predecessors_eq v hv, hsum, FlowGraph.total, Nat.cast_zero, neg_one_mul]
  rw [← sub_eq_add_neg, sub_eq_zero]

/-- The counts keep the bounds and rows of the model of a scenario. Minus the factor of a row is
read as `coefficient` says. -/
structure Scenario.Accepts (s : Scenario) (p : LoopPartition) (entry : Nat)
    (coefficient : Nat → ℚ) (count : Nat → ℚ) : Prop where
  nonneg : ∀ e ∈ s.graph.edges, 0 ≤ count e.id
  once : ∀ e ∈ s.graph.edges, s.OnlyClosing p entry e.id → count e.id ≤ 1
  rows : ∀ r, s.ModelRow p entry r → r.Holds (coefficient r.factor) count

section accepts

variable {α : Type} [Scalar α] {s : Scenario} {p : LoopPartition} {entry : Nat} {time : Nat → α}
  {m : FlowModel α} {value : α → ℚ} (hg : s.graph.WellFormed)
  (hm : m.Described s.graph (s.ModelRow p entry) (s.OnlyClosing p entry) time)
  (hv : FlowModel.Reads value)

include hg hm hv

/-- Counts are feasible if they are not negative and keep every limit of the scenario. -/
theorem Scenario.feasible_iff_accepts (count : Nat → ℚ) :
    (m.problem.read value).Feasible (m.edges.map count) ↔
      s.Accepts p entry (fun k => value (-Scalar.ofNat k)) count := by
  have hmem : ∀ id, id ∈ m.edges ↔ ∃ e ∈ s.graph.edges, e.id = id := fun id =>
    hm.mem_edges_iff hg
  rw [hm.feasible_iff hv]
  constructor
  · rintro ⟨hb, hr⟩
    exact ⟨fun e he => (hb e.id ((hmem _).2 ⟨e, he, rfl⟩)).1,
      fun e he => (hb e.id ((hmem _).2 ⟨e, he, rfl⟩)).2, hr⟩
  · rintro ⟨h0, h1, hr⟩
    refine ⟨fun id hid => ?_, hr⟩
    obtain ⟨e, he, rfl⟩ := (hmem id).1 hid
    exact ⟨h0 e he, h1 e he⟩

/-- Whole counts that are accepted satisfy the model. -/
theorem Scenario.isSatisfiedBy_of_accepts {count : Nat → ℚ}
    (hc : s.Accepts p entry (fun k => value (-Scalar.ofNat k)) count)
    (hwhole : ∀ id, ∃ k : ℕ, count id = k) :
    (m.problem.read value).isSatisfiedBy 0 (m.edges.map count) := by
  have hf := (feasible_iff_accepts hg hm hv count).2 hc
  refine Problem.isSatisfiedBy_of_counts hf fun v hmem => ?_
  obtain ⟨id, -, rfl⟩ := List.mem_map.1 hmem
  exact hwhole id

end accepts

/-- Doubles can be read as the rationals that they stand for. -/
theorem FlowModel.reads_value : FlowModel.Reads Double.value :=
  ⟨Double.value_ofNat (by omega), Double.value_ofNat (by omega)⟩

/-! ## Edges by header -/

namespace LoopPartition

variable {p : LoopPartition} (hg : g.WellFormed) (hp : p.Sorts g.edgesByVertex)

include hg

theorem sum_filter_edgesByVertex (q : Edge → Bool) :
    (((g.edgesByVertex.filter q).map (·.id)).map count).sum = g.total count q := by
  rw [List.map_map]
  exact ((hg.edgesByVertex_perm.filter q).map _).sum_eq

theorem map_filter_edgesByVertex_ne_nil {q : Edge → Bool} :
    (g.edgesByVertex.filter q).map (·.id) ≠ [] ↔ ∃ e ∈ g.edges, q e := by
  simp only [map_id_filter_ne_nil, hg.edgesByVertex_perm.mem_iff]

include hp

/-- The back edges of a loop, together, are the edges that iterate it. -/
theorem sum_backOf (h : Nat) : ((p.backOf h).map count).sum = g.total count (·.iterates h) := by
  rw [hp.back, sum_filter_edgesByVertex hg]

theorem sum_entryOf (h : Nat) : ((p.entryOf h).map count).sum = g.total count (·.enters h) := by
  rw [hp.entry, sum_filter_edgesByVertex hg]

theorem sum_exitOf (h : Nat) : ((p.exitOf h).map count).sum = g.total count (·.leaves h) := by
  rw [hp.exit, sum_filter_edgesByVertex hg]

theorem backOf_ne_nil_iff {h : Nat} : p.backOf h ≠ [] ↔ ∃ e ∈ g.edges, e.iterates h := by
  rw [hp.back, map_filter_edgesByVertex_ne_nil hg]

theorem entryOf_ne_nil_iff {h : Nat} : p.entryOf h ≠ [] ↔ ∃ e ∈ g.edges, e.enters h := by
  rw [hp.entry, map_filter_edgesByVertex_ne_nil hg]

end LoopPartition

end WorstCase
