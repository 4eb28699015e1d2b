import WorstCase.Model.Loops
import WorstCase.Proofs.Loop.Partition
import WorstCase.Proofs.Model.Rows

/-!
# The model of a scenario

`Scenario.ModelRow` says which rows the model of a scenario has: one for each vertex that flow
passes through, and for each loop the rows that limit its iterations. A model that can be built has
exactly these rows (`Scenario.described_model`), limits the one edge that closes the loop of the
entry if there is only one, and gives each edge its time.
-/

namespace WorstCase

namespace Scenario

/-- What leaves a vertex equals what reaches it. -/
def flowRow (v : Vertex) : EdgeRow where
  left := v.successors
  factor := 1
  right := v.predecessors
  comparison := .equal
  offset := 0
  group := .flow
  comment := s!"Vertex {v.id}"

/-- The loop of the entry iterates at most once. -/
def entryRow (p : LoopPartition) (h : Nat) : EdgeRow where
  left := p.backOf h
  factor := 1
  right := []
  comparison := .atMost
  offset := 1
  group := .loop
  comment := s!"Header {h}"

/-- A loop iterates at most `factor` times for each time that one of the edges is taken. -/
def limitRow (p : LoopPartition) (h factor : Nat) (edges : List Nat) (comment : String) :
    EdgeRow where
  left := p.backOf h
  factor := factor
  right := edges
  comparison := .atMost
  offset := 0
  group := .loop
  comment := comment

/-- The row that limits the iterations of the loop of `h` for each time that the loop of `a`, which
is the same loop or one around it, is entered. -/
inductive BoundRow (s : Scenario) (p : LoopPartition) (entry : Nat) (h : LoopHeader) (a : Nat) :
    EdgeRow → Prop
  | relative {parent level bound : Nat} {edges : List Nat} (ha : a ≠ entry)
      (hp : s.nest.parent? a = some parent) (hl : s.nest.level parent = .ok level)
      (hlevel : h.level - level ≤ s.level)
      (hb : s.database.loopBound s.subprogram h.id parent = .ok bound)
      (hc : crossings? p a = some edges) :
      BoundRow s p entry h a
        (limitRow p h.id bound edges s!"Header {h.id} with respect to {parent}")

/-- The rows that limit the iterations of the loop of a header. -/
inductive LoopRow (s : Scenario) (p : LoopPartition) (entry : Nat) (h : LoopHeader) :
    EdgeRow → Prop
  | whole (he : h.id = entry) (hb : 2 ≤ (p.backOf h.id).length) :
      LoopRow s p entry h (entryRow p h.id)
  | selfLoop {edges : List Nat} (he : h.id ≠ entry) (hb : p.backOf h.id ≠ [])
      (hs : h.selfLoop = true) (hc : crossings? p h.id = some edges) :
      LoopRow s p entry h (limitRow p h.id 1 edges s!"Self loop {h.id}")
  | bound {a : Nat} {r : EdgeRow} (he : h.id ≠ entry) (hb : p.backOf h.id ≠ [])
      (hs : h.selfLoop = false) (ha : a ∈ p.ancestorsOf h.id) (hr : BoundRow s p entry h a r) :
      LoopRow s p entry h r

/-- The rows of the model. -/
def ModelRow (s : Scenario) (p : LoopPartition) (entry : Nat) (r : EdgeRow) : Prop :=
  (∃ v ∈ s.graph.vertices, v.predecessors ≠ [] ∧ v.successors ≠ [] ∧ r = flowRow v) ∨
    ∃ h ∈ s.nest.headersInward, LoopRow s p entry h r

/-- The edge is the only one that closes the loop of the entry. -/
def OnlyClosing (s : Scenario) (p : LoopPartition) (entry : Nat) (edge : Nat) : Prop :=
  ∃ h ∈ s.nest.headersInward, h.id = entry ∧ p.backOf h.id = [edge]

end Scenario

variable {α : Type} [Scalar α] {g : FlowGraph} {R : EdgeRow → Prop} {U : Nat → Prop}
  {time : Nat → α} {m m' : FlowModel α}

/-! ## Flow rows -/

namespace FlowModel

theorem Described.addFlowRow (hm : m.Described g R U time) {v : Vertex}
    (h : m.addFlowRow v = .ok m') : m'.Described g (fun r => R r ∨
      v.predecessors ≠ [] ∧ v.successors ≠ [] ∧ r = Scenario.flowRow v) U time := by
  unfold FlowModel.addFlowRow at h
  split at h
  · next hempty =>
    cases h
    simp only [Bool.or_eq_true, List.isEmpty_iff] at hempty
    refine hm.of_iff (fun r => ⟨Or.inl, fun hr => hr.resolve_right ?_⟩) fun _ => Iff.rfl
    rintro ⟨hp, hs, -⟩
    exact hempty.elim hp hs
  · next hempty =>
    simp only [Bool.or_eq_true, List.isEmpty_iff, not_or] at hempty
    refine (hm.addRow (r := Scenario.flowRow v) h).of_iff (fun r => or_congr_right ?_)
      fun _ => Iff.rfl
    exact ⟨fun hr => ⟨hempty.1, hempty.2, hr⟩, fun hr => hr.2.2⟩

theorem Described.addFlowRows (hm : m.Described g R U time) {graph : FlowGraph}
    (h : m.addFlowRows graph = .ok m') : m'.Described g (fun r => R r ∨ ∃ v ∈ graph.vertices,
      v.predecessors ≠ [] ∧ v.successors ≠ [] ∧ r = Scenario.flowRow v) U time := by
  refine foldlM_ok_induction (P := fun done (m : FlowModel α) => m.Described g (fun r => R r ∨
    ∃ v ∈ done, v.predecessors ≠ [] ∧ v.successors ≠ [] ∧ r = Scenario.flowRow v) U time) ?_ ?_ h
  · exact hm.of_iff (fun r => by simp only [List.not_mem_nil, false_and, exists_false, or_false])
      fun _ => Iff.rfl
  · intro done v c c' _ hc hstep
    refine (hc.addFlowRow hstep).of_iff (fun r => ?_) fun _ => Iff.rfl
    simp only [List.mem_append, List.mem_singleton, or_and_right, exists_or, exists_eq_left,
      or_assoc]

end FlowModel

/-! ## Loop rows -/

namespace Scenario

variable {s : Scenario} {p : LoopPartition} {entry : Nat} {h : LoopHeader}

theorem described_addBound {a : Nat} (hm : m.Described g R U time)
    (hstep : s.addBound p entry h (p.backOf h.id) m a = .ok m') :
    m'.Described g (fun r => R r ∨ BoundRow s p entry h a r) U time := by
  -- where no row is added, a premise of the only row there could be fails
  have hnone : (∀ r, ¬ BoundRow s p entry h a r) →
      m.Described g (fun r => R r ∨ BoundRow s p entry h a r) U time := fun hno =>
    hm.of_iff (fun r => ⟨Or.inl, fun hr => hr.resolve_right (hno r)⟩) fun _ => Iff.rfl
  unfold addBound at hstep
  split at hstep
  · next ha =>
    cases hstep
    exact hnone fun r ⟨ha', _, _, _, _, _⟩ => ha' ha
  · next ha =>
    split at hstep
    · cases hstep
    · next parent hp =>
      split at hstep
      · cases hstep
      · next level hl =>
        split at hstep
        · next hlevel =>
          cases hstep
          refine hnone ?_
          rintro r ⟨-, hp', hl', hlevel', -, -⟩
          rw [hp] at hp'
          cases hp'
          rw [hl] at hl'
          cases hl'
          omega
        · next hlevel =>
          split at hstep
          · cases hstep
          · next bound hb =>
            split at hstep
            · cases hstep
            · next edges hc =>
              refine (hm.addRow (r := limitRow p h.id bound edges _) hstep).of_iff
                (fun r => or_congr_right ⟨?_, ?_⟩) fun _ => Iff.rfl
              · rintro rfl
                exact .relative ha hp hl (Nat.le_of_not_lt hlevel) hb hc
              · rintro ⟨-, hp', -, -, hb', hc'⟩
                rw [hp] at hp'
                cases hp'
                rw [hb] at hb'
                cases hb'
                rw [hc] at hc'
                cases hc'
                rfl

theorem described_addBounds {as : List Nat} (hm : m.Described g R U time)
    (hstep : as.foldlM (s.addBound p entry h (p.backOf h.id)) m = .ok m') :
    m'.Described g (fun r => R r ∨ ∃ a ∈ as, BoundRow s p entry h a r) U time := by
  refine foldlM_ok_induction (P := fun done (m : FlowModel α) =>
    m.Described g (fun r => R r ∨ ∃ a ∈ done, BoundRow s p entry h a r) U time) ?_ ?_ hstep
  · exact hm.of_iff (fun r => by simp only [List.not_mem_nil, false_and, exists_false, or_false])
      fun _ => Iff.rfl
  · intro done a c c' _ hc hstep
    refine (described_addBound hc hstep).of_iff (fun r => ?_) fun _ => Iff.rfl
    simp only [List.mem_append, List.mem_singleton, or_and_right, exists_or, exists_eq_left,
      or_assoc]

/-- Adding a loop adds its rows, and a bound if it is that of the entry and a single edge closes
it. -/
theorem described_addHeader (hd : m.edges.Nodup) (hm : m.Described g R U time)
    (hstep : s.addHeader p entry m h = .ok m') :
    m'.Described g (fun r => R r ∨ LoopRow s p entry h r)
      (fun e => U e ∨ h.id = entry ∧ p.backOf h.id = [e]) time := by
  simp only [addHeader] at hstep
  split at hstep
  · next hempty =>
    cases hstep
    have hnil := List.isEmpty_iff.1 hempty
    refine hm.of_iff (fun r => ⟨Or.inl, fun hr => hr.resolve_right ?_⟩)
      fun e => ⟨Or.inl, fun he => he.resolve_right ?_⟩
    · rintro (⟨-, hb⟩ | ⟨-, hb, -, -⟩ | ⟨-, hb, -, -, -⟩)
      · rw [hnil, List.length_nil] at hb
        omega
      · exact hb hnil
      · exact hb hnil
    · rintro ⟨-, hb⟩
      rw [hnil] at hb
      cases hb
  · next hempty =>
    have hne : p.backOf h.id ≠ [] := fun hnil => hempty (List.isEmpty_iff.2 hnil)
    split at hstep
    · next he =>
      unfold addEntryLoop at hstep
      split at hstep
      · next edge hback =>
        refine (hm.setUpper hd hstep).of_iff (fun r => ⟨Or.inl, fun hr => hr.resolve_right ?_⟩)
          fun e => or_congr_right ?_
        · rintro (⟨-, hb⟩ | ⟨hne', -, -, -⟩ | ⟨hne', -, -, -, -⟩)
          · rw [hback, List.length_singleton] at hb
            omega
          · exact hne' he
          · exact hne' he
        · rw [hback]
          exact ⟨fun h => ⟨he, by rw [h]⟩, fun h => (List.singleton_inj.1 h.2).symm⟩
      · next hmany =>
        have hlen : 2 ≤ (p.backOf h.id).length := by
          match hb : p.backOf h.id, hne, hmany with
          | [], hne, _ => exact absurd rfl hne
          | [e], _, hmany => exact absurd rfl (hmany e)
          | _ :: _ :: _, _, _ => simp only [List.length_cons]; omega
        refine (hm.addRow (r := entryRow p h.id) hstep).of_iff
          (fun r => or_congr_right ⟨?_, ?_⟩) fun e => ⟨Or.inl, fun h => h.resolve_right ?_⟩
        · rintro rfl
          exact .whole he hlen
        · rintro (⟨-, -⟩ | ⟨hne', -, -, -⟩ | ⟨hne', -, -, -, -⟩)
          · rfl
          · exact absurd he hne'
          · exact absurd he hne'
        · exact fun h => hmany e h.2
    · next he =>
      have hU : ∀ e, U e ↔ U e ∨ h.id = entry ∧ p.backOf h.id = [e] := fun e =>
        ⟨Or.inl, fun h => h.resolve_right fun h => he h.1⟩
      split at hstep
      · next hs =>
        unfold addSelfLoop at hstep
        split at hstep
        · cases hstep
        · next edges hc =>
          refine (hm.addRow (r := limitRow p h.id 1 edges _) hstep).of_iff
            (fun r => or_congr_right ⟨?_, ?_⟩) hU
          · rintro rfl
            exact .selfLoop he hne hs hc
          · rintro (⟨he', -⟩ | ⟨-, -, -, hc'⟩ | ⟨-, -, hs', -, -⟩)
            · exact absurd he' he
            · rw [hc] at hc'
              cases hc'
              rfl
            · rw [hs] at hs'
              cases hs'
      · next hs =>
        refine (described_addBounds hm hstep).of_iff (fun r => or_congr_right ⟨?_, ?_⟩) hU
        · rintro ⟨a, ha, hr⟩
          exact .bound he hne (Bool.eq_false_iff.2 hs) ha hr
        · rintro (⟨he', -⟩ | ⟨-, -, hs', -⟩ | ⟨-, -, -, ha, hr⟩)
          · exact absurd he' he
          · exact absurd hs' hs
          · exact ⟨_, ha, hr⟩

/-- Adding all loops adds the rows of each. -/
theorem described_addLoops (hd : m.edges.Nodup) (hm : m.Described g R U time)
    (he : s.graph.entry? = some entry) (hstep : s.addLoops p m = .ok m') :
    m'.Described g (fun r => R r ∨ ∃ h ∈ s.nest.headersInward, LoopRow s p entry h r)
      (fun e => U e ∨ OnlyClosing s p entry e) time := by
  simp only [addLoops, FlowGraph.entry, he] at hstep
  have hP := foldlM_ok_induction (P := fun done (m₁ : FlowModel α) => m₁.edges = m.edges ∧
    m₁.Described g (fun r => R r ∨ ∃ h ∈ done, LoopRow s p entry h r)
      (fun e => U e ∨ ∃ h ∈ done, h.id = entry ∧ p.backOf h.id = [e]) time) ?_ ?_ hstep
  · exact hP.2
  · exact ⟨rfl, hm.of_iff
      (fun r => by simp only [List.not_mem_nil, false_and, exists_false, or_false])
      fun e => by simp only [List.not_mem_nil, false_and, exists_false, or_false]⟩
  · rintro done h c c' - ⟨hedges, hc⟩ hstep
    have hc' := described_addHeader (hedges ▸ hd) hc hstep
    refine ⟨hc'.edges_eq.trans hm.edges_eq.symm, hc'.of_iff (fun r => ?_) fun e => ?_⟩
    · simp only [List.mem_append, List.mem_singleton, or_and_right, exists_or, exists_eq_left,
        or_assoc]
    · simp only [List.mem_append, List.mem_singleton, or_and_right, exists_or, exists_eq_left,
        or_assoc]

/-- The rows, limits and times of a model that can be built. -/
theorem described_model (hg : s.graph.WellFormed) (he : s.graph.entry? = some entry)
    (h : s.model = .ok m) : ∃ p time, LoopPartition.ofGraph s.graph s.nest = .ok p ∧
      m.Described s.graph (ModelRow s p entry) (OnlyClosing s p entry) time ∧
      ∀ e ∈ s.graph.edges, ∃ wcet, s.wcetOf (α := α) e = .ok wcet ∧
        time e.id = Scalar.ofNat wcet := by
  unfold model at h
  split at h
  · cases h
  · next p hp =>
    obtain ⟨m₁, h₁, h⟩ := bind_ok h
    obtain ⟨m₂, h₂, h⟩ := bind_ok h
    have hm₁ := (FlowModel.described_ofGraph s.graph).addFlowRows h₁
    obtain ⟨time, hm, htime⟩ :=
      (described_addLoops (hm₁.edges_nodup hg) hm₁ he h₂).addObjective hg h
    refine ⟨p, time, hp, hm.of_iff (fun r => ?_) fun e => ?_, htime⟩
    · simp only [false_or, ModelRow]
    · simp only [false_or]

/-- A model that can be built has the rows that the levels ask for: all bounds were found. -/
theorem exists_boundRow (he : s.graph.entry? = some entry) (hmodel : s.model = .ok m)
    (hp : LoopPartition.ofGraph s.graph s.nest = .ok p) (hh : h ∈ s.nest.headersInward)
    (hid : h.id ≠ entry) (hb : p.backOf h.id ≠ []) (hs : h.selfLoop = false) {a parent level : Nat}
    (ha : a ∈ p.ancestorsOf h.id) (hae : a ≠ entry) (hpar : s.nest.parent? a = some parent)
    (hl : s.nest.level parent = .ok level) (hlevel : h.level - level ≤ s.level) :
    ∃ r, BoundRow s p entry h a r := by
  simp only [model, hp] at hmodel
  obtain ⟨m₁, -, hmodel⟩ := bind_ok hmodel
  obtain ⟨m₂, hloops, -⟩ := bind_ok hmodel
  simp only [addLoops, FlowGraph.entry, he] at hloops
  obtain ⟨c, c', hheader⟩ := exists_step_of_foldlM hloops h hh
  have hempty : (p.backOf h.id).isEmpty = false := List.isEmpty_eq_false_iff.2 hb
  simp only [addHeader, hempty, hid, hs, Bool.false_eq_true, ↓reduceIte] at hheader
  obtain ⟨d, d', hbound⟩ := exists_step_of_foldlM hheader a ha
  have hlevel' : ¬ s.level < h.level - level := Nat.not_lt.2 hlevel
  simp only [addBound, hae, hpar, hl, hlevel', ↓reduceIte] at hbound
  split at hbound
  · cases hbound
  · next bound hbd =>
    split at hbound
    · cases hbound
    · next edges hc => exact ⟨_, .relative hae hpar hl hlevel hbd hc⟩

end Scenario

end WorstCase
