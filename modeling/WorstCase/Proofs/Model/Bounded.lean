import WorstCase.Program.Subprogram
import WorstCase.Proofs.Loop.Tag
import WorstCase.Proofs.Model.Flow

/-!
# Models that bound all counts

The model of a fully tagged graph has an optimum (`Scenario.bounded_of_tagged`): taking no edge at
all satisfies it, and no count can grow without bound. The latter is seen by following the flow from
the entry in the order in which the search leaves the vertices, last ones first. What reaches a
vertex over edges that close no loop comes from vertices that are left later. What reaches it over
edges that close its loop is limited by how often the loop is entered, and the edges that enter it
are just the others that reach its header.
-/

namespace WorstCase

/-! ## Bounds that are the same for all counts -/

/-- One number is at least `f count` for all counts with the property `P`. -/
def BoundedOn (P : (Nat → ℚ) → Prop) (f : (Nat → ℚ) → ℚ) : Prop :=
  ∃ M, ∀ count, P count → f count ≤ M

namespace BoundedOn

variable {P : (Nat → ℚ) → Prop} {f h : (Nat → ℚ) → ℚ}

theorem mono (hf : BoundedOn P f) (hle : ∀ count, P count → h count ≤ f count) :
    BoundedOn P h := by
  obtain ⟨M, hM⟩ := hf
  exact ⟨M, fun count hc => (hle count hc).trans (hM count hc)⟩

theorem add (hf : BoundedOn P f) (hh : BoundedOn P h) :
    BoundedOn P fun count => f count + h count := by
  obtain ⟨M, hM⟩ := hf
  obtain ⟨N, hN⟩ := hh
  exact ⟨M + N, fun count hc => add_le_add (hM count hc) (hN count hc)⟩

theorem mul_left (hf : BoundedOn P f) (h0 : ∀ count, P count → 0 ≤ f count) (x : ℚ) :
    BoundedOn P fun count => x * f count := by
  obtain ⟨M, hM⟩ := hf
  refine ⟨|x| * M, fun count hc => ?_⟩
  calc x * f count ≤ |x| * f count := mul_le_mul_of_nonneg_right (le_abs_self x) (h0 count hc)
    _ ≤ |x| * M := mul_le_mul_of_nonneg_left (hM count hc) (abs_nonneg x)

theorem sum {ι : Type} {xs : List ι} {k : ι → (Nat → ℚ) → ℚ} (hk : ∀ x ∈ xs, BoundedOn P (k x)) :
    BoundedOn P fun count => (xs.map fun x => k x count).sum := by
  induction xs with
  | nil => exact ⟨0, fun count _ => by simp⟩
  | cons x xs ih =>
    simp only [List.map_cons, List.sum_cons]
    exact (hk x List.mem_cons_self).add (ih fun y hy => hk y (List.mem_cons_of_mem _ hy))

/-- Finitely many bounds can be made one. -/
theorem forall_mem {ι : Type} {xs : List ι} {k : ι → (Nat → ℚ) → ℚ}
    (hk : ∀ x ∈ xs, BoundedOn P (k x)) : ∃ M, ∀ count, P count → ∀ x ∈ xs, k x count ≤ M := by
  induction xs with
  | nil => exact ⟨0, fun count _ x hx => absurd hx List.not_mem_nil⟩
  | cons x xs ih =>
    obtain ⟨M, hM⟩ := hk x List.mem_cons_self
    obtain ⟨N, hN⟩ := ih fun y hy => hk y (List.mem_cons_of_mem _ hy)
    refine ⟨max M N, fun count hc y hy => ?_⟩
    rcases List.mem_cons.1 hy with rfl | hy
    · exact (hM count hc).trans (le_max_left M N)
    · exact (hN count hc y hy).trans (le_max_right M N)

end BoundedOn

/-! ## Edges of a fully tagged graph -/

namespace Scenario

variable {s : Scenario} {t : DepthFirstTree} {p : LoopPartition}

/-- Every edge has the kind that the depth-first classification gives to it. -/
def FullyTagged (s : Scenario) (t : DepthFirstTree) : Prop :=
  ∀ e ∈ s.graph.edges, LoopNest.Role t s.nest e.source e.destination e.kind

/-- The edge closes a loop. -/
def closes (t : DepthFirstTree) (e : Edge) : Bool :=
  t.classify e.source e.destination == .back

/-- The edges that iterate a loop are the back edges to its header. -/
theorem FullyTagged.iterates_eq (ht : FullyTagged s t) (h : Nat) {e : Edge}
    (he : e ∈ s.graph.edges) : e.iterates h = (e.destination == h && closes t e) := by
  have hr := ht e he
  rw [Bool.eq_iff_iff, Edge.iterates_iff, Bool.and_eq_true, beq_iff_eq, closes, beq_iff_eq]
  generalize e.kind = kind at hr
  cases hr with
  | iteration hb => simp [hb, eq_comm]
  | entry hb hv => simp [hb]
  | exit hb hv hu hx => simp [hb]
  | trace hb hv hx => simp [hb]

/-- The edges that enter a loop are the other edges to its header. -/
theorem FullyTagged.enters_eq (ht : FullyTagged s t) {h : Nat} (hh : s.nest.isHeader h)
    (hne : h ≠ s.nest.root) {e : Edge} (he : e ∈ s.graph.edges) :
    e.enters h = (e.destination == h && !closes t e) := by
  have hr := ht e he
  have hother : ∀ w, ¬ (s.nest.isHeader w ∧ w ≠ s.nest.root) → w ≠ h := by
    rintro w hw rfl
    exact hw ⟨hh, hne⟩
  rw [Bool.eq_iff_iff, Edge.enters_iff, Bool.and_eq_true, beq_iff_eq, Bool.not_eq_true', closes,
    beq_eq_false_iff_ne]
  generalize e.kind = kind at hr
  cases hr with
  | iteration hb => simp [hb]
  | entry hb hv => simp [hb]
  | exit hb hv hu hx => simp [hother _ hv]
  | trace hb hv hx => simp [hother _ hv]

/-! ## Following the flow -/

section flow

variable {coefficient : Nat → ℚ} (hn : LoopNest.Found s.graph t s.nest) (ht : FullyTagged s t)
  (hone : coefficient 1 = -1) (hin : ∃ e ∈ s.graph.edges, e.destination = t.root)

include hn hone hin in
/-- An edge is taken at most as often as its source is reached. -/
theorem count_le_inflow {count : Nat → ℚ} (hc : s.Accepts p t.root coefficient count) {e : Edge}
    (he : e ∈ s.graph.edges) : count e.id ≤ s.graph.total count (·.destination == e.source) := by
  have hg := hn.wellFormed
  obtain ⟨v, hv, hid⟩ := List.mem_map.1 (hg.source_mem e he)
  -- the source is left over the edge, and reached from its parent or as the entry
  have hsucc : v.successors ≠ [] := (hg.successors_ne_nil_iff hv).2 ⟨e, he, hid.symm⟩
  have hpred : v.predecessors ≠ [] := by
    rw [hg.predecessors_ne_nil_iff hv]
    by_cases hroot : v.id = t.root
    · rw [hroot]
      exact hin
    · obtain ⟨q, hq⟩ := hn.exists_parent ((hn.reached v.id).2 (List.mem_map_of_mem hv)) hroot
      obtain ⟨d, hd, -, hdv⟩ := (hn.parent _ hq).1
      exact ⟨d, hd, hdv⟩
  have hrow := hc.rows (flowRow v) (Or.inl ⟨v, hv, hpred, hsucc, rfl⟩)
  have hflow := (holds_flowRow_iff hg hv).1 (hone ▸ hrow)
  rw [hid] at hflow
  rw [← hflow]
  exact FlowGraph.count_le_total hc.nonneg he (beq_self_eq_true _)

variable (hp : p.Sorts s.graph.edgesByVertex)

include hn hp in
/-- The loop of the entry iterates at most once. -/
theorem iterations_entry_le {count : Nat → ℚ} (hc : s.Accepts p t.root coefficient count) :
    s.graph.total count (·.iterates t.root) ≤ 1 := by
  obtain ⟨h, hh⟩ := Option.isSome_iff_exists.1 (hn.isHeader_iff.2 (Or.inl rfl))
  have hid : h.id = t.root := LoopNest.id_of_header? hh
  have hmem : h ∈ s.nest.headersInward := hn.mem_headersInward.2 (hid ▸ hh)
  rw [← LoopPartition.sum_backOf hn.wellFormed hp]
  match hb : p.backOf t.root with
  | [] => simp
  | [edge] =>
    have hedge : ∃ e ∈ s.graph.edges, e.id = edge := by
      have : edge ∈ p.backOf t.root := by rw [hb]; exact List.mem_singleton_self edge
      rw [hp.back] at this
      obtain ⟨e, he, hid⟩ := List.mem_map.1 this
      exact ⟨e, hn.wellFormed.edgesByVertex_perm.mem_iff.1 (List.mem_filter.1 he).1, hid⟩
    obtain ⟨e, he, rfl⟩ := hedge
    rw [List.map_singleton, List.sum_singleton]
    exact hc.once e he ⟨h, hmem, hid, hid.symm ▸ hb⟩
  | e₁ :: e₂ :: rest =>
    have hlen : 2 ≤ (p.backOf h.id).length := by
      rw [hid, hb, List.length_cons, List.length_cons]
      omega
    have hrow := hc.rows _ (Or.inr ⟨h, hmem, .whole hid hlen⟩)
    simp only [entryRow, EdgeRow.Holds, Comparison.Rel, List.map_nil, List.sum_nil, mul_zero,
      add_zero, Nat.cast_one, hid] at hrow
    rwa [← hb]

variable (coefficient) in
include hn ht hp in
/-- A loop is limited by the edges that enter it, which are the others that reach its header. -/
theorem exists_iterations_le {α : Type} [Scalar α] {m : FlowModel α} (hmodel : s.model = .ok m)
    (hpart : LoopPartition.ofGraph s.graph s.nest = .ok p) (hlevel : 1 ≤ s.level) {v : Nat}
    (hv : s.nest.isHeader v) (hne : v ≠ t.root) :
    ∃ x, ∀ count, s.Accepts p t.root coefficient count →
      s.graph.total count (·.iterates v) ≤ x * s.graph.total count (·.enters v) := by
  have hg := hn.wellFormed
  obtain ⟨h, hh⟩ := Option.isSome_iff_exists.1 hv
  obtain rfl : h.id = v := LoopNest.id_of_header? hh
  have hmem : h ∈ s.nest.headersInward := hn.mem_headersInward.2 hh
  -- the loop is entered and closed
  obtain ⟨u, ⟨e, he, rfl, hed⟩, hclosed⟩ := hn.exists_tree_edge hv hne
  obtain ⟨w, ⟨d, hd, rfl, hdd⟩, hclosing⟩ := hn.exists_back_edge hv hne
  have hentry : p.entryOf h.id ≠ [] := (LoopPartition.entryOf_ne_nil_iff hg hp).2 ⟨e, he, by
    rw [ht.enters_eq hv (hn.root_eq ▸ hne) he, closes, hed]
    simp [hclosed]⟩
  have hback : p.backOf h.id ≠ [] := (LoopPartition.backOf_ne_nil_iff hg hp).2 ⟨d, hd, by
    rw [ht.iterates_eq h.id hd, closes, hdd]
    simp [hclosing]⟩
  have hcross : crossings? p h.id = some (p.entryOf h.id) := by
    simp only [crossings?, List.isEmpty_eq_false_iff.2 hentry, Bool.not_false, ↓reduceIte]
  -- its row, with whatever factor
  obtain ⟨factor, comment, hrow⟩ : ∃ factor comment,
      s.LoopRow p t.root h (limitRow p h.id factor (p.entryOf h.id) comment) := by
    cases hs : h.selfLoop with
    | true => exact ⟨1, _, .selfLoop hne hback hs hcross⟩
    | false =>
      obtain ⟨q, hq⟩ := hn.exists_parent? hv hne
      obtain ⟨j, hj, hlev⟩ := hn.level_eq_succ hq (LoopNest.level_of_header? hh)
      have hself := LoopPartition.self_mem_ancestorsOf hn
        (LoopPartition.sorts_of_ofGraph hg hpart).2 hv
      obtain ⟨r, hr⟩ := exists_boundRow hn.entry_eq hmodel hpart hmem hne hback hs hself hne hq hj
        (show h.level - j ≤ s.level by omega)
      have hr' := hr
      obtain ⟨-, -, -, -, -, hc⟩ := hr
      rw [hcross] at hc
      cases hc
      exact ⟨_, _, .bound hne hback hs hself hr'⟩
  refine ⟨-coefficient factor, fun count hc => ?_⟩
  have hholds := hc.rows _ (Or.inr ⟨h, hmem, hrow⟩)
  simp only [limitRow, EdgeRow.Holds, Comparison.Rel, Nat.cast_zero,
    LoopPartition.sum_backOf hg hp, LoopPartition.sum_entryOf hg hp] at hholds
  linarith

include hn ht hone hin hp in
/-- Each vertex is reached a bounded number of times. -/
theorem boundedOn_inflow {α : Type} [Scalar α] {m : FlowModel α} (hmodel : s.model = .ok m)
    (hpart : LoopPartition.ofGraph s.graph s.nest = .ok p) (hlevel : 1 ≤ s.level) (v : Nat) :
    BoundedOn (s.Accepts p t.root coefficient)
      fun count => s.graph.total count (·.destination == v) := by
  -- the vertices in the order opposite to that in which the search leaves them
  induction hi : t.postOrder.length - t.postIdx v using Nat.strongRecOn generalizing v with
  | _ i ih =>
    subst hi
    have hforward : BoundedOn (s.Accepts p t.root coefficient) fun count =>
        s.graph.total count fun e => e.destination == v && !closes t e := by
      refine BoundedOn.sum (k := fun (e : Edge) count => count e.id) fun e hfilter => ?_
      obtain ⟨he, hq⟩ := List.mem_filter.1 hfilter
      simp only [Bool.and_eq_true, beq_iff_eq, Bool.not_eq_true', closes,
        beq_eq_false_iff_ne] at hq
      obtain ⟨rfl, hnb⟩ := hq
      have hu := (hn.reached e.source).2 (hn.wellFormed.source_mem e he)
      have hlt := hn.postIdx_lt_of_adj hu ⟨e, he, rfl, rfl⟩
        fun hb => hnb (hn.classify_eq_back_iff.2 hb)
      have hle : t.postIdx e.source < t.postOrder.length :=
        List.idxOf_lt_length_iff.2 ((hn.mem_post _).2 hu)
      refine (ih _ ?_ e.source rfl).mono fun count hc => count_le_inflow hn hone hin hc he
      omega
    have hclosing : BoundedOn (s.Accepts p t.root coefficient) fun count =>
        s.graph.total count fun e => e.destination == v && closes t e := by
      have hiter : ∀ count, (s.graph.total count fun e => e.destination == v && closes t e) =
          s.graph.total count (·.iterates v) := fun count =>
        (FlowGraph.total_congr fun e he => ht.iterates_eq v he).symm
      simp only [hiter]
      by_cases hroot : v = t.root
      · subst hroot
        exact ⟨1, fun count hc => iterations_entry_le hn hp hc⟩
      · by_cases hv : s.nest.isHeader v
        · obtain ⟨x, hx⟩ := exists_iterations_le coefficient hn ht hp hmodel hpart hlevel hv hroot
          have henter : ∀ count, s.graph.total count (·.enters v) =
              s.graph.total count fun e => e.destination == v && !closes t e := fun count =>
            FlowGraph.total_congr fun e he => ht.enters_eq hv (hn.root_eq ▸ hroot) he
          simp only [henter] at hx
          exact (hforward.mul_left (fun count hc => FlowGraph.total_nonneg hc.nonneg _) x).mono hx
        · -- nothing closes a loop of a vertex that is no header
          refine ⟨0, fun count _ => le_of_eq ?_⟩
          show s.graph.total count (·.iterates v) = 0
          rw [← hiter, FlowGraph.total, List.filter_eq_nil_iff.2, List.map_nil, List.sum_nil]
          intro e he hq
          simp only [Bool.and_eq_true, beq_iff_eq, closes] at hq
          refine hv (hn.isHeader_iff.2 (Or.inr ⟨e.source, ?_⟩))
          rw [← hq.1]
          exact hn.classify_eq_back_iff.1 hq.2
    simp only [FlowGraph.total_split (fun e => e.destination == v) (closes t)]
    exact hclosing.add hforward

end flow

/-! ## Taking no edge -/

theorem accepts_zero (s : Scenario) (p : LoopPartition) (entry : Nat) (coefficient : Nat → ℚ) :
    s.Accepts p entry coefficient fun _ => 0 := by
  have hsum : ∀ es : List Nat, (es.map fun _ => (0 : ℚ)).sum = 0 := fun es => by
    rw [List.map_const', List.sum_replicate, nsmul_zero]
  refine ⟨fun e _ => le_refl 0, fun e _ _ => zero_le_one, fun r hr => ?_⟩
  simp only [EdgeRow.Holds, hsum, mul_zero, add_zero]
  rcases hr with ⟨v, -, -, -, rfl⟩ | ⟨h, -, hr⟩
  · simp only [flowRow, Comparison.Rel, Nat.cast_zero]
  · cases hr with
    | whole he hb => simp only [entryRow, Comparison.Rel, Nat.cast_one, zero_le_one]
    | selfLoop he hb hs hc => simp only [limitRow, Comparison.Rel, Nat.cast_zero, le_refl]
    | bound he hb hs ha hr =>
      obtain ⟨-, -, -, -, -, -⟩ := hr
      simp only [limitRow, Comparison.Rel, Nat.cast_zero, le_refl]

section model

variable {α : Type} [Scalar α] {m : FlowModel α} {value : α → ℚ} {entry : Nat}
  (hmodel : s.model = .ok m) (hv : FlowModel.Reads value)

include hmodel hv

/-- Taking no edge satisfies every model. -/
theorem isSatisfiedBy_zero (hg : s.graph.WellFormed) (he : s.graph.entry? = some entry) :
    (m.problem.read value).isSatisfiedBy 0
      (List.replicate (m.problem.read value).columns.length 0) := by
  obtain ⟨p, time, -, hm, -⟩ := described_model hg he hmodel
  have hzero : List.replicate (m.problem.read value).columns.length (0 : ℚ) =
      m.edges.map fun _ => 0 := by
    rw [hm.length_columns, List.map_const']
  rw [hzero]
  exact isSatisfiedBy_of_accepts hg hm hv (accepts_zero s p entry _) fun _ =>
    ⟨0, Nat.cast_zero.symm⟩

/-- One number bounds all counts and the total time. -/
theorem exists_counts_le (hn : LoopNest.Found s.graph t s.nest) (ht : FullyTagged s t)
    (hin : ∃ e ∈ s.graph.edges, e.destination = t.root) (hlevel : 1 ≤ s.level)
    (hone : value (-Scalar.ofNat 1) = -1) :
    ∃ M, ∀ values, (m.problem.read value).Feasible values →
      (∀ v ∈ values, v ≤ M) ∧ (m.problem.read value).objectiveAt values ≤ M := by
  have hg := hn.wellFormed
  obtain ⟨p, time, hpart, hm, -⟩ := described_model hg hn.entry_eq hmodel
  obtain ⟨hp, -⟩ := LoopPartition.sorts_of_ofGraph hg hpart
  let P := s.Accepts p t.root fun k => value (-Scalar.ofNat k)
  have hcount : ∀ id ∈ m.edges, BoundedOn P fun count => count id := by
    intro id hid
    obtain ⟨e, he, rfl⟩ := hm.mem_edges_iff hg |>.1 hid
    exact (boundedOn_inflow hn ht hone hin hp hmodel hpart hlevel e.source).mono
      fun count hc => count_le_inflow hn hone hin hc he
  have hnonneg : ∀ id ∈ m.edges, ∀ count, P count → 0 ≤ count id := by
    intro id hid count hc
    obtain ⟨e, he, rfl⟩ := hm.mem_edges_iff hg |>.1 hid
    exact hc.nonneg e he
  obtain ⟨M, hM⟩ := BoundedOn.forall_mem hcount
  obtain ⟨N, hN⟩ := BoundedOn.sum (k := fun id (count : Nat → ℚ) => value (time id) * count id)
    fun id hid => (hcount id hid).mul_left (hnonneg id hid) _
  refine ⟨max M N, fun values hf => ?_⟩
  obtain ⟨count, rfl⟩ := hm.exists_count hg hf
  have hc : P count := (feasible_iff_accepts hg hm hv count).1 hf
  constructor
  · intro v hmem
    obtain ⟨id, hid, rfl⟩ := List.mem_map.1 hmem
    exact (hM count hc id hid).trans (le_max_left M N)
  · rw [hm.objectiveAt_eq]
    exact (hN count hc).trans (le_max_right M N)

end model

/-! ## Subprograms -/

/-- Tagging a graph of trace edges gives every edge the role that the search tells. -/
theorem fullyTagged_of_trace {g : FlowGraph} {t : DepthFirstTree} {n : LoopNest}
    (hn : LoopNest.Found g t n) (htrace : ∀ e ∈ g.edges, e.kind = .trace) {s : Scenario}
    (hgraph : s.graph = n.tagEdges g) (hnest : s.nest = n) : FullyTagged s t := by
  intro e he
  rw [hgraph] at he
  obtain ⟨d, hd, rfl⟩ := List.mem_map.1 he
  have hrole := (hn.retag_eq_iff hd (htrace d hd)).1 (LoopNest.retag_of_trace (htrace d hd))
  rw [hnest]
  show LoopNest.Role t n (n.retag d).source (n.retag d).destination (n.retag d).kind
  rw [LoopNest.retag_of_trace (htrace d hd)]
  exact hrole

/-- **Models of tagged graphs are bounded.** If all edges of a connected graph are trace edges and
one leads to the entry, tagging gives a subprogram each of whose models has a solution and a bound
on all counts and on the objective, whatever the data are, already with loop bounds that reach one
level. -/
theorem bounded_of_tagged {g : FlowGraph} {entry : Nat} (hg : g.Built)
    (htrace : ∀ e ∈ g.edges, e.kind = .trace) (he : g.entry? = some entry)
    (hc : g.Connected entry) (hin : ∃ e ∈ g.edges, e.destination = entry) (id : Nat)
    (name : String) : ∃ sub, Subprogram.ofGraphTagged id name g = .ok sub ∧
      ∀ (database : Database) (inlinedWcets : NatMap Nat) (level : Nat) (m : FlowModel Float),
        1 ≤ level → model { ofSubprogram sub database with inlinedWcets, level } = .ok m →
        let problem := m.problem.read Double.value
        problem.isSatisfiedBy 0 (List.replicate problem.columns.length 0) ∧
          ∃ M, ∀ values, problem.Feasible values →
            (∀ v ∈ values, v ≤ M) ∧ problem.objectiveAt values ≤ M := by
  obtain ⟨t, n, hn, rfl⟩ := LoopNest.exists_found_of_connected hg.wellFormed he hc
  refine ⟨⟨id, name, n.tagEdges g, n⟩, ?_, fun database inlinedWcets level m hlevel hm => ?_⟩
  · simp only [Subprogram.ofGraphTagged, Subprogram.ofGraph, LoopNest.ofGraph_eq_of_found hn]
  · let s : Scenario := { ofSubprogram ⟨id, name, n.tagEdges g, n⟩ database with
      inlinedWcets, level }
    have hn' : LoopNest.Found s.graph t s.nest := hn.tagEdges
    have htag : FullyTagged s t := fullyTagged_of_trace hn htrace rfl rfl
    have hin' : ∃ e ∈ s.graph.edges, e.destination = t.root := by
      obtain ⟨e, he, hd⟩ := hin
      exact ⟨n.retag e, List.mem_map.2 ⟨e, he, rfl⟩,
        ((LoopNest.keepsEnds_retag n).destination e).trans hd⟩
    have hone : Double.value (-Scalar.ofNat 1) = -1 := Double.value_neg_ofNat (by omega)
    exact ⟨isSatisfiedBy_zero hm FlowModel.reads_value hn'.wellFormed hn.entry_eq,
      exists_counts_le hm FlowModel.reads_value hn' htag hin' hlevel hone⟩

open Sample in
/-- The sample with nested loops has such a model, already with bounds that reach one level. -/
theorem bounded_of_tagged_nestedGraph :
    nestedGraph.Built ∧ (∀ e ∈ nestedGraph.edges, e.kind = .trace) ∧
      nestedGraph.entry? = some 1 ∧ nestedGraph.Connected 1 ∧
      (∃ e ∈ nestedGraph.edges, e.destination = 1) ∧
      ∃ sub, ∃ m : FlowModel Float, Subprogram.ofGraphTagged mainId "main" nestedGraph = .ok sub ∧
        model { ofSubprogram sub mainDatabase with inlinedWcets := .empty, level := 1 } = .ok m ∧
        let problem := m.problem.read Double.value
        problem.isSatisfiedBy 0 (List.replicate problem.columns.length 0) ∧
          ∃ M, ∀ values, problem.Feasible values →
            (∀ v ∈ values, v ≤ M) ∧ problem.objectiveAt values ≤ M := by
  have htrace : ∀ e ∈ nestedGraph.edges, e.kind = .trace := by decide
  have hin : ∃ e ∈ nestedGraph.edges, e.destination = 1 := by decide
  obtain ⟨sub, m, hsub, hm⟩ : ∃ sub, ∃ m : FlowModel Float,
      Subprogram.ofGraphTagged mainId "main" nestedGraph = .ok sub ∧
        model { ofSubprogram sub mainDatabase with inlinedWcets := .empty, level := 1 } = .ok m :=
    ⟨_, _, rfl, rfl⟩
  obtain ⟨sub', hsub', h⟩ :=
    bounded_of_tagged built_nestedGraph htrace rfl connected_nestedGraph hin mainId "main"
  cases hsub.symm.trans hsub'
  exact ⟨built_nestedGraph, htrace, rfl, connected_nestedGraph, hin, sub, m, hsub, hm,
    h mainDatabase .empty 1 m (Nat.le_refl 1) hm⟩

end Scenario

end WorstCase
