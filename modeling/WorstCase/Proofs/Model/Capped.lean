import WorstCase.Proofs.Analysis.Described
import WorstCase.Proofs.Model.Capacity
import WorstCase.Proofs.Number.Order

/-!
# Caps on back edges bound all counts

The model of a trace caps only the back edges of a depth-first tree, and lets the entry be left
once. This is enough: every other edge is on a way down in post-order, so the vertices that are left
no earlier than its source make a cut that it crosses, and what comes into such a cut comes from the
entry or over a back edge (`DepthFirstTree.Spanning.count_le`). So no count is larger than one plus
the caps on the back edges (`Trace.limited_by_roundedCaps`).

A cap is the double next to the count that was seen. It is the count itself up to `2 ^ 53`, and
above it may be larger, so that a back edge can be taken more often than it was seen.
-/

namespace WorstCase

/-! ## The cut of an edge -/

namespace DepthFirstTree

/-- The edge is a back edge and does not leave the root. -/
def closes (t : DepthFirstTree) (e : Edge) : Bool :=
  e.source != t.root && t.classify e.source e.destination == .back

/-- The vertices other than the root that can be left, and are left no earlier than `i` in
post-order. -/
def cut (t : DepthFirstTree) (g : FlowGraph) (i : Nat) : List Nat :=
  g.vertexIds.filter fun v => v != t.root && g.edges.any (·.source == v) && decide (i ≤ t.postIdx v)

theorem postIdx_of_mem_cut {t : DepthFirstTree} {g : FlowGraph} {i v : Nat} (h : v ∈ t.cut g i) :
    i ≤ t.postIdx v := by
  have hv := (List.mem_filter.1 h).2
  rw [Bool.and_eq_true, decide_eq_true_eq] at hv
  exact hv.2

namespace Spanning

variable {g : FlowGraph} {t : DepthFirstTree} (ht : t.Spanning g) {count : Nat → ℚ}

include ht

theorem predecessors_ne_nil {v : Vertex} (hv : v ∈ g.vertices) (hne : v.id ≠ t.root) :
    v.predecessors ≠ [] := by
  obtain ⟨u, hu⟩ := ht.exists_parent ((ht.reached v.id).2 (List.mem_map_of_mem hv)) hne
  obtain ⟨e, he, -, hd⟩ := (ht.parent _ hu).1
  exact (ht.wellFormed.predecessors_ne_nil_iff hv).2 ⟨e, he, hd⟩

/-- An edge from another vertex than the root that is no back edge leads down in post-order. -/
theorem postIdx_lt_of_not_closes {e : Edge} (he : e ∈ g.edges) (hs : e.source ≠ t.root)
    (hc : t.closes e = false) : t.postIdx e.destination < t.postIdx e.source := by
  have hadj : g.Adj e.source e.destination := ⟨e, he, rfl, rfl⟩
  refine ht.postIdx_lt_of_adj (ht.source_reached hadj) hadj fun hb => ?_
  rw [← ht.classify_eq_back_iff] at hb
  simp [closes, hs, hb] at hc

theorem source_mem_cut_iff {e : Edge} (he : e ∈ g.edges) {i : Nat} :
    e.source ∈ t.cut g i ↔ e.source ≠ t.root ∧ i ≤ t.postIdx e.source := by
  have hany : g.edges.any (·.source == e.source) := List.any_eq_true.2 ⟨e, he, by simp⟩
  simp [cut, hany, ht.wellFormed.source_mem e he]

/-- What comes into a cut from an earlier vertex goes up, so it comes over a back edge. -/
theorem closes_of_enters {e : Edge} (he : e ∈ g.edges) {i : Nat} (hd : e.destination ∈ t.cut g i)
    (hs : e.source ∉ t.cut g i) (hne : e.source ≠ t.root) : t.closes e := by
  by_contra hc
  have hdown := ht.postIdx_lt_of_not_closes he hne (Bool.not_eq_true _ ▸ hc)
  have hle := postIdx_of_mem_cut hd
  exact hs ((ht.source_mem_cut_iff he).2 ⟨hne, by omega⟩)

section flow

variable (hflow : ∀ v ∈ g.vertices, v.predecessors ≠ [] → v.successors ≠ [] →
  g.total count (·.source == v.id) = g.total count (·.destination == v.id))

include hflow

/-- Every vertex of a cut has a row. -/
theorem total_eq_of_mem_cut {i v : Nat} (hv : v ∈ t.cut g i) :
    g.total count (·.source == v) = g.total count (·.destination == v) := by
  simp only [cut, List.mem_filter, Bool.and_eq_true, bne_iff_ne, List.any_eq_true,
    beq_iff_eq] at hv
  obtain ⟨hv, ⟨hne, d, hd, hds⟩, -⟩ := hv
  obtain ⟨w, hw, rfl⟩ := List.mem_map.1 hv
  exact hflow w hw (ht.predecessors_ne_nil hw hne)
    ((ht.wellFormed.successors_ne_nil_iff hw).2 ⟨d, hd, hds⟩)

/-- As much leaves a cut as comes in, which comes from the root or over back edges. -/
theorem total_leaving_cut_le (hnonneg : ∀ e ∈ g.edges, 0 ≤ count e.id) (i : Nat) :
    g.total count (fun d => (t.cut g i).contains d.source && !(t.cut g i).contains d.destination) ≤
      g.total count (·.source == t.root) + g.total count t.closes := by
  have hin : ∀ d ∈ g.edges, ((t.cut g i).contains d.destination && !(t.cut g i).contains d.source) →
      d.source == t.root || t.closes d := by
    intro d hd hq
    simp only [Bool.and_eq_true, List.contains_iff_mem, Bool.not_eq_true', ← Bool.not_eq_true] at hq
    by_cases hroot : d.source = t.root
    · simp [hroot]
    · simp [ht.closes_of_enters hd hq.1 hq.2 hroot]
  calc g.total count (fun d => (t.cut g i).contains d.source && !(t.cut g i).contains d.destination)
      = g.total count
          (fun d => (t.cut g i).contains d.destination && !(t.cut g i).contains d.source) :=
        FlowGraph.total_leaving_eq (ht.wellFormed.vertexIds_nodup.filter _)
          fun v hv => ht.total_eq_of_mem_cut hflow hv
    _ ≤ g.total count (fun d => d.source == t.root || t.closes d) :=
        FlowGraph.total_mono hnonneg hin
    _ = g.total count (·.source == t.root) + g.total count t.closes := by
        rw [FlowGraph.total_split _ (·.source == t.root)]
        congr 1 <;> refine FlowGraph.total_congr fun d _ => ?_
        · cases d.source == t.root <;> simp
        · cases hroot : d.source == t.root <;> simp [closes, bne, hroot]

/-- Where as much leaves a vertex as reaches it, an edge is taken at most as often as the root is
left and the back edges are taken. -/
theorem count_le (hnonneg : ∀ e ∈ g.edges, 0 ≤ count e.id) {e : Edge} (he : e ∈ g.edges) :
    count e.id ≤ g.total count (·.source == t.root) + g.total count t.closes := by
  by_cases hs : e.source = t.root
  · refine (FlowGraph.count_le_total hnonneg he ?_).trans
      (le_add_of_nonneg_right (FlowGraph.total_nonneg hnonneg _))
    rw [hs, beq_self_eq_true]
  cases hc : t.closes e with
  | true =>
    exact (FlowGraph.count_le_total hnonneg he hc).trans
      (le_add_of_nonneg_left (FlowGraph.total_nonneg hnonneg _))
  | false =>
    -- the edge leaves the cut that starts at its source
    refine (FlowGraph.count_le_total hnonneg he ?_).trans
      (ht.total_leaving_cut_le hflow hnonneg (t.postIdx e.source))
    have hin := (ht.source_mem_cut_iff he).2 ⟨hs, le_refl _⟩
    have hout : e.destination ∉ t.cut g (t.postIdx e.source) := fun hd =>
      (ht.postIdx_lt_of_not_closes he hs hc).not_ge (postIdx_of_mem_cut hd)
    simp [hin, hout]

end flow

end Spanning

end DepthFirstTree

/-! ## What was seen and the caps -/

namespace Trace

/-- How often an edge was seen. -/
def seen (t : Trace) (e : Edge) : Nat :=
  (t.edgeCounts.get? e.id).getD 0

/-- The back edges that are capped. -/
def backEdges (g : FlowGraph) (tree : DepthFirstTree) : List Edge :=
  g.edges.filter fun e => tree.closes e && e.kind != .ghost

/-- How often the capped back edges were seen, all together. -/
def observed (t : Trace) (g : FlowGraph) (tree : DepthFirstTree) : Nat :=
  ((backEdges g tree).map t.seen).sum

/-- The caps on back edges, all together. -/
def rounded (t : Trace) (g : FlowGraph) (tree : DepthFirstTree) : ℚ :=
  ((backEdges g tree).map fun e => Double.value (Float.ofNat (t.seen e))).sum

/-- The back edges that have to be capped have been seen, taking no edge satisfies the problem, and
no count can be larger than one plus the caps on back edges. -/
structure Limited (t : Trace) (g : FlowGraph) (tree : DepthFirstTree) (p : Problem ℚ) : Prop where
  known : ∀ e ∈ g.edges, tree.closes e → (t.edgeCounts.get? e.id).isSome
  satisfied : p.isSatisfiedBy 0 (List.replicate p.columns.length 0)
  count_le : ∀ values, p.Feasible values → ∀ v ∈ values, v ≤ 1 + t.rounded g tree

/-! ## Rounding -/

/-- Where no number is off by more than its part, the sum is not off by more than its part. -/
theorem abs_sum_sub_le {ι : Type} {xs : List ι} {f : ι → ℚ} {n : ι → Nat} {c : ℚ} (hc : 0 ≤ c)
    (h : ∀ x ∈ xs, |f x - n x| * c ≤ n x) :
    |(xs.map f).sum - (xs.map n).sum| * c ≤ (xs.map n).sum := by
  induction xs with
  | nil => simp
  | cons x xs ih =>
    have hx := h x List.mem_cons_self
    have hxs := ih fun y hy => h y (List.mem_cons_of_mem _ hy)
    have hsplit : f x + (xs.map f).sum - (n x + (xs.map n).sum : ℚ) =
        (f x - n x) + ((xs.map f).sum - (xs.map n).sum) := by ring
    simp only [List.map_cons, List.sum_cons, Nat.cast_add]
    calc |f x + (xs.map f).sum - (n x + (xs.map n).sum : ℚ)| * c
        ≤ (|f x - n x| + |(xs.map f).sum - (xs.map n).sum|) * c := by
          rw [hsplit]
          exact mul_le_mul_of_nonneg_right (abs_add_le _ _) hc
      _ ≤ n x + (xs.map n).sum := by
          rw [add_mul]
          exact add_le_add hx hxs

theorem Words.seen_lt {t : Trace} (hwords : t.Words) (e : Edge) : t.seen e < 2 ^ 64 := by
  unfold seen
  cases hn : t.edgeCounts.get? e.id with
  | none => exact Nat.two_pow_pos 64
  | some n => exact hwords.edgeCount e.id n (by rw [Trace.edgeCount, hn])

/-- The caps are off by at most a part in `2 ^ 53`. -/
theorem Words.abs_rounded_sub_le {t : Trace} (hwords : t.Words) (g : FlowGraph)
    (tree : DepthFirstTree) : |t.rounded g tree - t.observed g tree| * 2 ^ 53 ≤ t.observed g tree :=
  abs_sum_sub_le (by norm_num) fun e _ => Double.abs_value_ofNat_sub_le (hwords.seen_lt e)

/-- The caps are what was seen if a double holds each count. -/
theorem rounded_eq_observed {t : Trace} {g : FlowGraph} {tree : DepthFirstTree}
    (h : ∀ e ∈ g.edges, tree.closes e → t.seen e ≤ 2 ^ 53) :
    t.rounded g tree = t.observed g tree := by
  rw [rounded, observed, Nat.cast_list_sum, List.map_map]
  congr 1
  refine List.map_congr_left fun e he => Double.value_ofNat ?_
  obtain ⟨he, hq⟩ := List.mem_filter.1 he
  exact h e he (Bool.and_eq_true_iff.1 hq).1

/-! ## The model of a trace -/

section model

variable {t : Trace} {g : FlowGraph} {m : FlowModel Float} {tree : DepthFirstTree}
  {upper : Nat → Option Float}

/-- With a tree, the limits are the counts of the back edges that are no ghosts. -/
theorem Caps.upper_eq (hcaps : t.Caps g tree.root (some tree) upper) {e : Edge} (he : e ∈ g.edges) :
    (tree.closes e && e.kind != .ghost) = false ∧ upper e.id = none ∨
      (tree.closes e && e.kind != .ghost) = true ∧ (t.edgeCounts.get? e.id).isSome ∧
        upper e.id = some (Float.ofNat (t.seen e)) := by
  by_cases hs : e.source = tree.root
  · exact Or.inl ⟨by simp [DepthFirstTree.closes, hs], (hcaps e he).1 hs⟩
  obtain ⟨cap, hcap, hup⟩ := (hcaps e he).2 hs
  rw [hup]
  unfold cap? at hcap
  split at hcap
  · next hghost =>
    cases hcap
    exact Or.inl ⟨by simp [hghost], rfl⟩
  · next hghost =>
    by_cases hback : tree.classify e.source e.destination = .back
    · simp only [hback, ↓reduceIte, edgeCount] at hcap
      refine Or.inr ⟨by simp [DepthFirstTree.closes, hs, hback, hghost], ?_⟩
      cases hn : t.edgeCounts.get? e.id with
      | none =>
        rw [hn] at hcap
        cases hcap
      | some n =>
        rw [hn] at hcap
        cases hcap
        exact ⟨rfl, by rw [seen, hn]; rfl⟩
    · simp only [hback, ↓reduceIte] at hcap
      cases hcap
      exact Or.inl ⟨by simp [DepthFirstTree.closes, hback], rfl⟩

theorem holds_entryRows (hg : g.WellFormed) {entry : Vertex} (hv : entry ∈ g.vertices) {c : ℚ}
    {count : Nat → ℚ} (h : ∀ r ∈ entryRows entry, r.Holds c count) :
    g.total count (·.source == entry.id) ≤ 1 := by
  have hsum : g.total count (·.source == entry.id) = (entry.successors.map count).sum := by
    rw [hg.successors_eq entry hv, List.map_map]
    rfl
  rw [hsum]
  unfold entryRows at h
  split at h
  · next hempty =>
    rw [List.isEmpty_iff.1 hempty]
    simp
  · have hrow := h _ (List.mem_singleton_self _)
    simpa [entryRow, EdgeRow.Holds, Comparison.Rel] using hrow

theorem factor_eq {entry : Vertex} {r : EdgeRow} (hr : r ∈ g.flowRows ++ entryRows entry) :
    r.factor = 1 := by
  rcases List.mem_append.1 hr with hr | hr
  · obtain ⟨v, -, rfl⟩ := List.mem_map.1 hr
    rfl
  · unfold entryRows at hr
    split at hr
    · exact absurd hr List.not_mem_nil
    · rw [List.mem_singleton.1 hr]
      rfl

theorem holds_zero {entry : Vertex} {r : EdgeRow} (hr : r ∈ g.flowRows ++ entryRows entry) (c : ℚ) :
    r.Holds c fun _ => 0 := by
  have hsum : ∀ es : List Nat, (es.map fun _ => (0 : ℚ)).sum = 0 := fun es => by
    rw [List.map_const', List.sum_replicate, nsmul_zero]
  simp only [EdgeRow.Holds, hsum, mul_zero, add_zero]
  rcases List.mem_append.1 hr with hr | hr
  · obtain ⟨v, -, rfl⟩ := List.mem_map.1 hr
    simp only [Scenario.flowRow, Comparison.Rel, Nat.cast_zero]
  · unfold entryRows at hr
    split at hr
    · exact absurd hr List.not_mem_nil
    · rw [List.mem_singleton.1 hr]
      simp only [entryRow, Comparison.Rel, Nat.cast_one, zero_le_one]

section consists

variable {entry : Vertex} {time : Nat → Float} (hg : g.WellFormed)
  (hm : m.Consists g (g.flowRows ++ entryRows entry) (FlowModel.columnOf upper time))
  (hcaps : t.Caps g tree.root (some tree) upper)

include hg hm hcaps

theorem isSatisfiedBy_zero (hwords : t.Words) : (m.problem.read Double.value).isSatisfiedBy 0
    (List.replicate (m.problem.read Double.value).columns.length 0) := by
  have hlen : (m.problem.read Double.value).columns.length = m.edges.length := by
    rw [Problem.read, hm.columns_eq, List.length_map, List.length_map]
  rw [hlen, ← List.map_const']
  refine Problem.isSatisfiedBy_of_counts ((hm.feasible_iff FlowModel.reads_value fun _ => 0).2
    ⟨fun id hid => ⟨le_of_eq FlowModel.reads_value.zero, fun u hu => ?_⟩,
      fun r hr => holds_zero hr _⟩) fun v hmem => ?_
  · obtain ⟨e, he, rfl⟩ := (hm.mem_edges_iff hg).1 hid
    rcases hcaps.upper_eq he with ⟨-, hnone⟩ | ⟨-, -, hsome⟩
    · cases hnone.symm.trans hu
    · cases hsome.symm.trans hu
      exact Double.value_ofNat_nonneg (hwords.seen_lt e)
  · obtain ⟨-, -, rfl⟩ := List.mem_map.1 hmem
    exact ⟨0, Nat.cast_zero.symm⟩

theorem count_le_rounded (ht : tree.Spanning g) (hroot : tree.root = entry.id)
    (hentry : entry ∈ g.vertices) (hghost : ∀ e ∈ g.edges, tree.closes e → e.kind ≠ .ghost)
    {count : Nat → ℚ} (hf : (m.problem.read Double.value).Feasible (m.edges.map count)) {e : Edge}
    (he : e ∈ g.edges) : count e.id ≤ 1 + t.rounded g tree := by
  obtain ⟨hbounds, hrows⟩ := (hm.feasible_iff FlowModel.reads_value count).1 hf
  have hone : Double.value (-Scalar.ofNat 1) = -1 := Double.value_neg_ofNat (by omega)
  have hedge : ∀ d ∈ g.edges, d.id ∈ m.edges := fun d hd => (hm.mem_edges_iff hg).2 ⟨d, hd, rfl⟩
  have hnonneg : ∀ d ∈ g.edges, 0 ≤ count d.id := by
    intro d hd
    refine le_trans (le_of_eq ?_) (hbounds d.id (hedge d hd)).1
    exact FlowModel.reads_value.zero.symm
  have hholds : ∀ r ∈ g.flowRows ++ entryRows entry, r.Holds (-1) count := by
    intro r hr
    rw [← hone, ← factor_eq hr]
    exact hrows r hr
  have hflow : ∀ v ∈ g.vertices, v.predecessors ≠ [] → v.successors ≠ [] →
      g.total count (·.source == v.id) = g.total count (·.destination == v.id) :=
    fun v hv hp hs => (Scenario.holds_flowRow_iff hg hv).1
      (hholds _ (List.mem_append_left _ (FlowGraph.flowRow_mem hv hp hs)))
  have hleft : g.total count (·.source == tree.root) ≤ 1 := by
    rw [hroot]
    exact holds_entryRows hg hentry fun r hr => hholds r (List.mem_append_right _ hr)
  have hback : g.total count tree.closes ≤ t.rounded g tree := by
    have hsame : g.edges.filter tree.closes = backEdges g tree := by
      refine List.filter_congr fun d hd => ?_
      cases hc : tree.closes d with
      | false => rfl
      | true => simp [hghost d hd hc]
    rw [FlowGraph.total, hsame, rounded]
    refine List.sum_le_sum fun d hd => ?_
    obtain ⟨hd, hq⟩ := List.mem_filter.1 hd
    rcases hcaps.upper_eq hd with ⟨hfree, -⟩ | ⟨-, -, hsome⟩
    · cases hfree.symm.trans hq
    · exact (hbounds d.id (hedge d hd)).2 _ hsome
  exact (ht.count_le hflow hnonneg he).trans (add_le_add hleft hback)

end consists

end model

/-- **Caps on back edges bound the model.** If no back edge is a ghost, the model of a trace has a
solution, and no count in one is larger than one plus the caps on the back edges. These are the
counts of the trace, rounded to doubles: they are off by at most a part in `2 ^ 53`, and not at all
if no count is above `2 ^ 53`. -/
theorem limited_by_roundedCaps {t : Trace} {g : FlowGraph} (hg : g.Built) (hwords : t.Words)
    {m : FlowModel Float} (hm : t.model g false = .ok m) :
    ∃ tree, g.entry? = some tree.root ∧ DepthFirstTree.spanning g tree.root = .ok tree ∧
      ((∀ e ∈ g.edges, tree.closes e → e.kind ≠ .ghost) →
        t.Limited g tree (m.problem.read Double.value)) ∧
      |t.rounded g tree - t.observed g tree| * 2 ^ 53 ≤ t.observed g tree ∧
      ((∀ e ∈ g.edges, tree.closes e → t.seen e ≤ 2 ^ 53) →
        t.rounded g tree = t.observed g tree) := by
  have hwf := hg.wellFormed
  obtain ⟨entry, hentry, he, tree?, ⟨tree, htree, rfl⟩, upper, time, hm, hcaps, -⟩ :=
    consists_model hwf hm
  obtain ⟨ht, hroot⟩ := DepthFirstTree.spanning_eq_ok hwf htree
  rw [← hroot] at he htree hcaps
  refine ⟨tree, he, htree, fun hghost => ⟨fun e hem hc => ?_,
    isSatisfiedBy_zero hwf hm hcaps hwords, fun values hf v hmem => ?_⟩,
    hwords.abs_rounded_sub_le g tree, rounded_eq_observed⟩
  · rcases hcaps.upper_eq hem with ⟨hfree, -⟩ | ⟨-, hsome, -⟩
    · simp [hc, hghost e hem hc] at hfree
    · exact hsome
  · obtain ⟨count, rfl⟩ := hm.exists_count hwf hf
    obtain ⟨id, hid, rfl⟩ := List.mem_map.1 hmem
    obtain ⟨e, hem, rfl⟩ := (hm.mem_edges_iff hwf).1 hid
    exact count_le_rounded hwf hm hcaps ht hroot hentry hghost hf hem

end Trace

namespace Sample

/-- Each edge of the tangled graph took one unit and was seen as often as its number says. -/
def tangledTrace : Trace :=
  (List.range' 1 9).foldl (fun t e => t.addEdge e 1 e) .empty

theorem words_tangledTrace : tangledTrace.Words :=
  .of_entries (by decide) (by decide)

/-- An edge into a vertex with an edge to itself. -/
def spin : GraphSpec where
  name := "spin"
  vertices := [1, 2]
  edges := numbered [(1, 2, .trace), (2, 2, .trace)]
  entry? := some 1

def spinGraph : FlowGraph :=
  spin.build.toOption.getD (.empty "spin")

theorem build_spin : spin.build = .ok spinGraph := by
  decide

theorem built_spinGraph : spinGraph.Built :=
  GraphSpec.built_of_build (by simp [spin, numbered, EdgeKind.Ascending]) build_spin

/-- The edge to itself was seen more often than a double can tell. -/
def spinTrace : Trace :=
  (Trace.empty.addEdge 1 1 1).addEdge 2 1 (2 ^ 54 + 6)

theorem words_spinTrace : spinTrace.Words :=
  .of_entries (by decide) (by decide)

end Sample

open Sample in
/-- The back edges of the tangled graph, whose loop is entered at both ends, are 4, 5 and 9, and
their caps are what was seen. On the spinning graph the cap is rounded up by two, so that the edge
to itself can be taken more often than once and what was seen. -/
theorem Trace.limited_by_roundedCaps_spinGraph :
    (tangledGraph.Built ∧ tangledTrace.Words ∧ ∃ (m : FlowModel Float) (tree : DepthFirstTree),
      tangledTrace.model tangledGraph false = .ok m ∧
      DepthFirstTree.spanning tangledGraph 1 = .ok tree ∧
      (∀ e ∈ tangledGraph.edges, tree.closes e → e.kind ≠ .ghost ∧ tangledTrace.seen e ≤ 2 ^ 53) ∧
      (m.problem.read Double.value).isSatisfiedBy 0 (List.replicate m.problem.columns.length 0) ∧
      ∀ values, (m.problem.read Double.value).Feasible values →
        ∀ v ∈ values, v ≤ 1 + (4 + 5 + 9)) ∧
    spinGraph.Built ∧ spinTrace.Words ∧ ∃ (m : FlowModel Float) (tree : DepthFirstTree),
      spinTrace.model spinGraph false = .ok m ∧ DepthFirstTree.spanning spinGraph 1 = .ok tree ∧
      (∀ e ∈ spinGraph.edges, tree.closes e → e.kind ≠ .ghost) ∧
      spinTrace.observed spinGraph tree = 2 ^ 54 + 6 ∧
      spinTrace.rounded spinGraph tree = 2 ^ 54 + 8 ∧
      (∀ values, (m.problem.read Double.value).Feasible values →
        ∀ v ∈ values, v ≤ 1 + (2 ^ 54 + 8)) ∧
      (m.problem.read Double.value).Feasible [0, 2 ^ 54 + 8] := by
  constructor
  · obtain ⟨m, hm⟩ : ∃ m : FlowModel Float, tangledTrace.model tangledGraph false = .ok m :=
      ⟨_, rfl⟩
    obtain ⟨tree, htree, hback, hobs⟩ : ∃ tree, DepthFirstTree.spanning tangledGraph 1 = .ok tree ∧
        (∀ e ∈ tangledGraph.edges, tree.closes e →
          e.kind ≠ .ghost ∧ tangledTrace.seen e ≤ 2 ^ 53) ∧
        tangledTrace.observed tangledGraph tree = 4 + 5 + 9 := ⟨_, rfl, by decide, by decide⟩
    obtain ⟨tree', he, htree', hlimited, -, hexact⟩ :=
      limited_by_roundedCaps built_tangledGraph words_tangledTrace hm
    have hroot : 1 = tree'.root := Option.some.inj he
    rw [← hroot, htree] at htree'
    cases htree'
    obtain ⟨-, hzero, hle⟩ := hlimited fun e hem hc => (hback e hem hc).1
    rw [hexact fun e hem hc => (hback e hem hc).2, hobs] at hle
    refine ⟨built_tangledGraph, words_tangledTrace, m, tree, hm, htree, hback, ?_, ?_⟩
    · simpa [Problem.read] using hzero
    · exact_mod_cast hle
  · obtain ⟨m, hm, hsat⟩ : ∃ m : FlowModel Float, spinTrace.model spinGraph false = .ok m ∧
        (m.problem.read Double.value).isSatisfiedBy 0 [0, 2 ^ 54 + 8] :=
      ⟨_, rfl, by decide +kernel⟩
    obtain ⟨tree, htree, hghost, hobs, hround⟩ : ∃ tree,
        DepthFirstTree.spanning spinGraph 1 = .ok tree ∧
        (∀ e ∈ spinGraph.edges, tree.closes e → e.kind ≠ .ghost) ∧
        spinTrace.observed spinGraph tree = 2 ^ 54 + 6 ∧
        spinTrace.rounded spinGraph tree = 2 ^ 54 + 8 :=
      ⟨_, rfl, by decide, by decide, by decide +kernel⟩
    obtain ⟨tree', he, htree', hlimited, -⟩ :=
      limited_by_roundedCaps built_spinGraph words_spinTrace hm
    have hroot : 1 = tree'.root := Option.some.inj he
    rw [← hroot, htree] at htree'
    cases htree'
    have hle := (hlimited hghost).count_le
    rw [hround] at hle
    exact ⟨built_spinGraph, words_spinTrace, m, tree, hm, htree, hghost, hobs, hround, hle,
      (Problem.isSatisfiedBy_iff.1 hsat).1⟩

end WorstCase
