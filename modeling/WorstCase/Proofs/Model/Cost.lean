import WorstCase.Proofs.Linear.Rounding
import WorstCase.Proofs.Model.Listing
import WorstCase.Proofs.Number.Sum

/-!
# What counts cost

A solution of the model of a scenario has a time, and a count for each edge. The counts have a cost
of their own: the sum of the times of the edges, each as often as it is counted (`Scenario.cost`).
The times enter the model as doubles and are added up as doubles, so the time of the solution is the
cost up to rounding (`Scenario.wcet_of_solve`): once for each time, for each product and for each
sum.
-/

namespace WorstCase

/-! ## Values of solutions -/

theorem Tableau.length_valuesFrom {α : Type} [Scalar α] (t : Tableau α) (lower : List α)
    (columns : ℕ) : (t.valuesFrom lower columns).length = lower.length := by
  unfold valuesFrom
  generalize t.rows = rows
  induction rows generalizing lower with
  | nil => rfl
  | cons row rows ih =>
    rw [List.foldl_cons, ih]
    split
    · rw [List.length_modify]
    · rfl

namespace BranchAndBound

theorem Reached.length_lower {α : Type} [Scalar α] {slack : α}
    {relax : Box α → Except Status (Solution α)} {p : Problem α} {box : Box α}
    (h : Reached slack relax p box) : box.lower.length = p.columns.length := by
  induction h with
  | start => exact List.length_map _
  | splitUp _ _ _ ih => exact (List.length_set ..).trans ih
  | splitDown _ _ _ ih => exact ih

/-- A solution on doubles has a value for each column, rounded if it has to be whole, and its
objective is that of its values. -/
theorem exists_of_solveDoubles {maxIterations : ℕ} {limits : SearchLimits} {p : Problem Float}
    {s : Solution Float} (h : solveDoubles maxIterations limits p = .ok s) :
    ∃ relaxed : List Float, relaxed.length = p.columns.length ∧ s = settle p relaxed := by
  obtain ⟨box, relaxed, hbox, hrelax, -, rfl⟩ := settled_of_solveWith h
  refine ⟨relaxed.values, ?_, rfl⟩
  unfold Simplex.solveDoubles Simplex.solveIn at hrelax
  split at hrelax
  · cases hrelax
  · split at hrelax
    · cases hrelax
    · split at hrelax
      · cases hrelax
      · cases hrelax
        exact (Tableau.length_valuesFrom ..).trans hbox.length_lower

end BranchAndBound

/-! ## Counts of solutions -/

namespace FlowModel

variable {α : Type} [Scalar α]

theorem countOf_eq_ok {v : α} {n : ℕ} (h : countOf v = .ok n) :
    ∃ z, Scalar.nearest? v = some z ∧ n = z.toNat := by
  unfold countOf at h
  split at h
  · cases h
  · next z hz =>
    split at h
    · cases h
      exact ⟨z, hz, rfl⟩
    · cases h

/-- A value that gives a count is finite, and rounding has made it whole. -/
theorem whole_of_countOf {x : Float} {n : ℕ} (h : countOf (Double.round x) = .ok n)
    (hpos : 0 ≤ Double.value (Double.round x)) : Double.Whole (Double.round x) n := by
  obtain ⟨z, hz, rfl⟩ := countOf_eq_ok h
  obtain ⟨k, hk⟩ := Double.exists_whole_of_round (Double.isFinite_of_nearest? hz)
  obtain rfl : z = k := Option.some.inj (hz.symm.trans hk.nearest?_eq)
  rw [hk.value_eq, Int.cast_nonneg_iff] at hpos
  rwa [Int.toNat_of_nonneg hpos]

/-- What comes out of solving a model is the objective and the values as counts. -/
theorem counts_of_solve {m : FlowModel α} {solver : Solver α} {solution : Solution α}
    {w : WcetSolution} {value : ℕ → α} (h : m.solve solver = .ok w)
    (hsolution : solver m.problem = .ok solution) (hvalues : solution.values = m.edges.map value) :
    countOf solution.objective = .ok w.wcet ∧
      ∀ e ∈ m.edges, ∃ n, countOf (value e) = .ok n ∧ w.counts.get? e = some n := by
  unfold solve at h
  rw [hsolution] at h
  obtain ⟨counts, hcounts, h⟩ := bind_ok h
  obtain ⟨wcet, hwcet, h⟩ := bind_ok h
  cases h
  refine ⟨hwcet, ?_⟩
  have hzip : m.edges.zip (m.edges.map value) = m.edges.map fun e => (e, value e) := by
    have hboth := List.zip_map' (f := id) (g := value) (l := m.edges)
    rwa [List.map_id] at hboth
  have hmap := mapM_ok hcounts
  rw [hvalues, hzip, List.map_map] at hmap
  have hcount : ∀ e ∈ m.edges, ∃ n, countOf (value e) = .ok n := by
    intro e he
    obtain ⟨q, -, hq⟩ := List.mem_map.1 (hmap ▸ List.mem_map_of_mem he)
    obtain ⟨n, hn, -⟩ := bind_ok hq.symm
    exact ⟨n, hn⟩
  choose! count hcount using hcount
  have hlist : counts = m.edges.map fun e => (e, count e) := by
    refine List.map_injective_iff.2 (fun a b h => Except.ok.inj h) (hmap.symm.trans ?_)
    rw [List.map_map]
    refine List.map_congr_left fun e he => ?_
    simp only [Function.comp_apply, hcount e he]
    rfl
  intro e he
  refine ⟨count e, hcount e he, ?_⟩
  rw [hlist, NatMap.get?_ofList_map, if_pos he]

/-- The columns of a model are all rounded. -/
theorem Described.settle_eq {g : FlowGraph} {R : EdgeRow → Prop} {U : ℕ → Prop} {time : ℕ → α}
    {m : FlowModel α} (hm : Described g R U time m) (x : ℕ → α) :
    BranchAndBound.settle m.problem (m.edges.map x) =
      ⟨Scalar.sum (m.edges.map fun e => time e * Scalar.round (x e)),
        m.edges.map fun e => Scalar.round (x e)⟩ := by
  obtain ⟨upper, hcol, -⟩ := hm.columns
  simp only [BranchAndBound.settle, Problem.objectiveAt, hcol, List.zipWith_map,
    List.zipWith_self, columnOf, ↓reduceIte]

/-- The values of a solution are rounded, and its objective is the sum of times as often. -/
theorem Described.exists_values {g : FlowGraph} (hg : g.WellFormed) {R : EdgeRow → Prop}
    {U : ℕ → Prop} {time : ℕ → Float} {m : FlowModel Float} (hm : Described g R U time m)
    {maxIterations : ℕ} {limits : SearchLimits} {solution : Solution Float}
    (h : BranchAndBound.solveDoubles maxIterations limits m.problem = .ok solution) :
    ∃ x : ℕ → Float, solution = ⟨Scalar.sum (m.edges.map fun e => time e * Double.round (x e)),
      m.edges.map fun e => Double.round (x e)⟩ := by
  obtain ⟨relaxed, hlen, rfl⟩ := BranchAndBound.exists_of_solveDoubles h
  have hcolumns : m.problem.columns.length = m.edges.length := by
    obtain ⟨upper, hcol, -⟩ := hm.columns
    rw [hcol, List.length_map]
  obtain ⟨x, rfl⟩ := exists_eq_map (hm.edges_nodup hg) (hlen.trans hcolumns)
  exact ⟨x, hm.settle_eq x⟩

end FlowModel

/-! ## The cost of counts -/

namespace Scenario

/-- The time of the edge as often as the solution counts it. -/
def costOf (s : Scenario) (w : WcetSolution) (e : Edge) : ℕ :=
  (s.wcetOf (α := Float) e).toOption.getD 0 * (w.counts.get? e.id).getD 0

/-- The sum of the times of the edges, each as often as the solution counts it. -/
def cost (s : Scenario) (w : WcetSolution) : ℕ :=
  (s.graph.edges.map (s.costOf w)).sum

theorem exists_entry_of_model {α : Type} [Scalar α] {s : Scenario} {m : FlowModel α}
    (h : s.model = .ok m) : ∃ entry, s.graph.entry? = some entry := by
  unfold model at h
  split at h
  · cases h
  · obtain ⟨m₁, -, h⟩ := bind_ok h
    obtain ⟨m₂, hloops, -⟩ := bind_ok h
    unfold addLoops at hloops
    split at hloops
    · cases hloops
    · next entry hentry => exact ⟨entry, FlowGraph.entry_eq_ok hentry⟩

theorem sum_costOf {s : Scenario} (hg : s.graph.WellFormed) (w : WcetSolution) :
    (s.graph.edgesByVertex.map fun e => (s.costOf w e : ℤ)).sum = s.cost w := by
  rw [cost, Nat.cast_list_sum, List.map_map]
  exact (hg.edgesByVertex_perm.map _).sum_eq

/-- The time of an edge and its product with the count are rounded. -/
theorem exists_whole_mul {s : Scenario} (hwords : s.Words) {w : WcetSolution} {e : Edge}
    {wcet count : ℕ} (hwcet : s.wcetOf (α := Float) e = .ok wcet)
    (hcount : w.counts.get? e.id = some count) {time v : Float} (ht : time = Float.ofNat wcet)
    (hv : Double.Whole v count) (hfin : (time * v).isFinite) :
    ∃ c, Double.Whole (time * v) c ∧ Double.Off 2 (s.costOf w e) (s.costOf w e) c := by
  rw [ht] at hfin ⊢
  rw [costOf, hwcet, hcount]
  exact Double.exists_whole_ofNat_mul
    (Double.unsigned_ofNat (hwords.wcetOf_lt hwcet)).finite hv hfin

/-- **The time of a solution is the cost of its counts, up to rounding.** Every edge has a time and
a count. The times are rounded to doubles, and so are their products with the counts and the sums of
these, so the time is off by a part in `2 ^ 53` for each rounding in a row. It is the cost itself if
the cost is at most `2 ^ 53`. -/
theorem wcet_of_solve {sub : Subprogram} (hsub : sub.Made) {s : Scenario}
    (hgraph : s.graph = sub.graph) (hwords : s.Words) {m : FlowModel Float} (hm : s.model = .ok m)
    {maxIterations : ℕ} {limits : SearchLimits} {solution : Solution Float}
    (hsolution : BranchAndBound.solveDoubles maxIterations limits m.problem = .ok solution)
    (hpos : ∀ v ∈ solution.values, 0 ≤ Double.value v) {w : WcetSolution}
    (hw : m.solve (BranchAndBound.solveDoubles maxIterations limits) = .ok w) :
    (∀ e ∈ s.graph.edges, (∃ wcet, s.wcetOf (α := Float) e = .ok wcet) ∧
      ∃ count, w.counts.get? e.id = some count) ∧
    |(w.wcet : ℚ) - s.cost w| ≤ Double.drift (2 + s.graph.edges.length) * s.cost w ∧
    (s.cost w ≤ 2 ^ 53 → w.wcet = s.cost w) := by
  obtain ⟨t, hn⟩ := hsub.found
  have hg : s.graph.WellFormed := hgraph ▸ hn.wellFormed
  obtain ⟨entry, he⟩ := exists_entry_of_model hm
  obtain ⟨p, time, -, hdesc, htime⟩ := described_model hg he hm
  obtain ⟨x, rfl⟩ := hdesc.exists_values hg hsolution
  obtain ⟨hobjective, hcounts⟩ := FlowModel.counts_of_solve hw hsolution rfl
  have hcount : ∀ e ∈ s.graph.edges, ∃ count, w.counts.get? e.id = some count ∧
      Double.Whole (Double.round (x e.id)) count := by
    intro e he
    have hmem : e.id ∈ m.edges := (hdesc.mem_edges_iff hg).2 ⟨e, he, rfl⟩
    obtain ⟨count, hcount, hget⟩ := hcounts e.id hmem
    exact ⟨count, hget, FlowModel.whole_of_countOf hcount (hpos _ (List.mem_map_of_mem hmem))⟩
  have hterm : ∀ e ∈ s.graph.edgesByVertex, (time e.id * Double.round (x e.id)).isFinite →
      ∃ c, Double.Whole (time e.id * Double.round (x e.id)) c ∧
        Double.Off 2 (s.costOf w e) (s.costOf w e) c := by
    intro e he hfin
    rw [hg.edgesByVertex_perm.mem_iff] at he
    obtain ⟨wcet, hwcet, ht⟩ := htime e he
    obtain ⟨count, hcount, hround⟩ := hcount e he
    exact exists_whole_mul hwords hwcet hcount ht hround hfin
  obtain ⟨z, hz, hwcet⟩ := FlowModel.countOf_eq_ok hobjective
  have hfin := Double.isFinite_of_nearest? hz
  simp only [hdesc.edges_eq, List.map_map, Function.comp_def] at hz hfin
  obtain ⟨c, hc, hoff⟩ := Double.exists_whole_sum hterm hfin
  obtain rfl : z = c := Option.some.inj (hz.symm.trans hc.nearest?_eq)
  rw [sum_costOf hg, hg.edgesByVertex_perm.length_eq] at hoff
  refine ⟨fun e he => ⟨?_, ?_⟩, ?_, fun hle => ?_⟩
  · obtain ⟨wcet, hwcet, -⟩ := htime e he
    exact ⟨wcet, hwcet⟩
  · obtain ⟨count, hcount, -⟩ := hcount e he
    exact ⟨count, hcount⟩
  · rw [hwcet]
    exact (Double.abs_toNat_sub_le ..).trans hoff.close
  · rw [hwcet, hoff.exact (by exact_mod_cast hle), Int.toNat_natCast]

end Scenario

namespace Sample

/-- There and back. -/
def circle : GraphSpec where
  name := "circle"
  vertices := [1, 2]
  edges := numbered [(1, 2, .trace), (2, 1, .trace)]
  entry? := some 1

def circleGraph : FlowGraph :=
  circle.build.toOption.getD (.empty "circle")

theorem built_circleGraph : circleGraph.Built :=
  GraphSpec.built_of_build (by simp [circle, numbered, EdgeKind.Ascending])
    (show circle.build = .ok circleGraph by decide)

def circleNest : LoopNest :=
  (LoopNest.ofGraph circleGraph).toOption.getD ⟨1, []⟩

def circleMain : Subprogram :=
  ⟨mainId, "circle", circleNest.tagEdges circleGraph, circleNest⟩

theorem made_circleMain : circleMain.Made :=
  .ofGraphTagged built_circleGraph (show Subprogram.ofGraphTagged mainId "circle" _ = _ from rfl)

/-- The way there takes `2 ^ 53 + 1`. -/
def circleData : SubprogramData :=
  (SubprogramData.empty.setUnitWcet 1 (2 ^ 53 + 1)).setUnitWcet 2 0

def circleDatabase : Database :=
  ⟨NatMap.empty.insert mainId circleData⟩

def circleModel : FlowModel Float :=
  (Scenario.ofSubprogram circleMain circleDatabase).model.toOption.getD
    ⟨.empty "circle" .maximise, []⟩

theorem words_circleMain : (Scenario.ofSubprogram circleMain circleDatabase).Words := by
  have hd : circleDatabase.data mainId = .ok circleData := by decide
  have hunit : ∀ q ∈ circleData.unitWcets.entries, q.2 < 2 ^ 64 := by decide
  refine ⟨fun unit wcet h => ?_, fun callee wcet h => (nomatch h),
    fun header ancestor bound h => ?_⟩
  · exact hunit _ (mem_of_lookup (Database.find_of_item hd h))
  · obtain ⟨bounds, hbounds, -⟩ := Database.mem_of_loopBound hd h
    exact absurd hbounds List.not_mem_nil

end Sample

open Sample in
/-- One lap is counted. It costs `2 ^ 53 + 1`, and the time is one less. -/
theorem Scenario.wcet_of_solve_circle : ∃ solution : Solution Float,
    let s := ofSubprogram circleMain circleDatabase
    let solver := BranchAndBound.solveDoubles 50 ⟨20, none⟩
    let w : WcetSolution := ⟨2 ^ 53, ⟨[(1, 1), (2, 1)]⟩⟩
    circleMain.Made ∧ s.Words ∧ s.model = .ok circleModel ∧
      solver circleModel.problem = .ok solution ∧ (∀ v ∈ solution.values, 0 ≤ Double.value v) ∧
      circleModel.solve solver = .ok w ∧ s.cost w = 2 ^ 53 + 1 ∧
      |(w.wcet : ℚ) - s.cost w| ≤ Double.drift 4 * s.cost w := by
  have hm : (ofSubprogram circleMain circleDatabase).model = .ok circleModel := rfl
  have hsolution : BranchAndBound.solveDoubles 50 ⟨20, none⟩ circleModel.problem =
      .ok ⟨Float.ofNat (2 ^ 53), [1, 1]⟩ := by
    decide +kernel
  have hpos : ∀ v ∈ ([1, 1] : List Float), 0 ≤ Double.value v := by
    decide +kernel
  have hw : circleModel.solve (BranchAndBound.solveDoubles 50 ⟨20, none⟩) =
      .ok ⟨2 ^ 53, ⟨[(1, 1), (2, 1)]⟩⟩ := by
    rw [FlowModel.solve, hsolution]
    rfl
  have hclose := wcet_of_solve (s := ofSubprogram circleMain circleDatabase) made_circleMain rfl
    words_circleMain hm hsolution hpos hw
  exact ⟨_, made_circleMain, words_circleMain, hm, hsolution, hpos, hw, by decide, hclose.2.1⟩

end WorstCase
