import WorstCase.Proofs.Linear.Looser
import WorstCase.Proofs.Model.Capped
import WorstCase.Proofs.Model.Layout
import WorstCase.Proofs.Number.Order

/-!
# Caps on all edges

The model of a trace caps the back edges only, or all edges that were seen. With all caps it is the
same model but for its upper bounds: none that was there changes, and more edges have one
(`Problem.Tighter`). So it allows less (`Problem.Tighter.isSatisfiedBy`).

The two ways to cap an edge do not ask for the same data. With a tree, a back edge has to have been
seen. Without one, an edge that was not seen is skipped, so capping cannot fail
(`Trace.exists_foldlM_addCap`), and the caps told from the tree are among those told without it
(`Trace.cap?_none_of_some`).
-/

namespace WorstCase

variable {α : Type}

/-! ## Problems with more upper bounds -/

/-- The second column is the first, with the upper bound of the first if it has one. -/
structure Column.Tighter (c c' : Column α) : Prop where
  eq : c' = { c with upper := c'.upper }
  upper : ∀ u, c.upper = some u → c'.upper = some u

/-- The second problem is the first up to upper bounds that the first does not have. -/
structure Problem.Tighter (p p' : Problem α) : Prop where
  name_eq : p'.name = p.name
  direction_eq : p'.direction = p.direction
  rows_eq : p'.rows = p.rows
  columns : List.Forall₂ Column.Tighter p.columns p'.columns

section satisfied

variable [Scalar α] {slack : α}

theorem Column.Tighter.admits {c c' : Column α} (h : c.Tighter c') {value : α}
    (ha : c'.admits slack value) : c.admits slack value := by
  rw [h.eq] at ha
  simp only [Column.admits, Bool.and_eq_true] at ha ⊢
  obtain ⟨⟨hlower, hupper⟩, hwhole⟩ := ha
  refine ⟨⟨hlower, ?_⟩, hwhole⟩
  cases hc : c.upper with
  | none => rfl
  | some u =>
    rw [h.upper u hc] at hupper
    exact hupper

theorem Problem.Tighter.isSatisfiedBy {p p' : Problem α} (h : p.Tighter p') {values : List α}
    (hs : p'.isSatisfiedBy slack values) : p.isSatisfiedBy slack values := by
  simp only [Problem.isSatisfiedBy, Bool.and_eq_true, beq_iff_eq, List.all_eq_true] at hs ⊢
  obtain ⟨⟨hlen, hcolumns⟩, hrows⟩ := hs
  refine ⟨⟨hlen.trans h.columns.length_eq.symm, ?_⟩, h.rows_eq ▸ hrows⟩
  refine forall_mem_of_forall₂ (forall₂_zip_zip h.columns values).flip
    (fun q' q hq ha => ?_) hcolumns
  rw [hq.2.1] at ha
  exact hq.1.admits ha

end satisfied

/-! ## Changes of columns -/

namespace FlowModel

/-- The models are the same up to what their columns hold. -/
structure SameFrame (m m' : FlowModel α) : Prop where
  edges_eq : m'.edges = m.edges
  name_eq : m'.problem.name = m.problem.name
  direction_eq : m'.problem.direction = m.problem.direction
  rows_eq : m'.problem.rows = m.problem.rows

section frame

variable {m m' m'' : FlowModel α}

theorem SameFrame.refl (m : FlowModel α) : m.SameFrame m :=
  ⟨rfl, rfl, rfl, rfl⟩

theorem SameFrame.symm (h : m.SameFrame m') : m'.SameFrame m :=
  ⟨h.edges_eq.symm, h.name_eq.symm, h.direction_eq.symm, h.rows_eq.symm⟩

theorem SameFrame.trans (h : m.SameFrame m') (h' : m'.SameFrame m'') : m.SameFrame m'' :=
  ⟨h'.edges_eq.trans h.edges_eq, h'.name_eq.trans h.name_eq,
    h'.direction_eq.trans h.direction_eq, h'.rows_eq.trans h.rows_eq⟩

theorem sameFrame_edit {c : Nat} {f : Column α → Except (ProblemError α) (Column α)}
    (h : m.withProblem (m.problem.edit c f) = .ok m') : m.SameFrame m' := by
  obtain ⟨problem, hp, rfl⟩ := withProblem_eq_ok h
  obtain ⟨column, column', -, -, rfl⟩ := Problem.edit_eq_ok hp
  exact ⟨rfl, rfl, rfl, rfl⟩

variable [Scalar α]

theorem sameFrame_setUpper {edge count : Nat} (h : m.setUpper edge count = .ok m') :
    m.SameFrame m' := by
  unfold setUpper at h
  split at h
  · cases h
  · exact sameFrame_edit h

theorem sameFrame_addObjective {g : FlowGraph} {wcetOf : Edge → Except (ModelError α) Nat}
    (h : m.addObjective g wcetOf = .ok m') : m.SameFrame m' := by
  refine foldlM_ok_induction (P := fun _ c => m.SameFrame c) (.refl m) ?_ h
  rintro done ⟨id, i⟩ c c' - hc hstep
  simp only at hstep
  split at hstep
  · cases hstep
  · split at hstep
    · cases hstep
    · exact hc.trans (sameFrame_edit hstep)

end frame

section success

variable [Scalar α] {m : FlowModel α} {column : Nat → Column α}

theorem exists_setUpper (hd : m.edges.Nodup) (hcol : m.problem.columns = m.edges.map column)
    {edge count : Nat} (he : edge ∈ m.edges) (hlt : ¬ Scalar.ofNat count < (column edge).lower) :
    ∃ m', m.setUpper edge count = .ok m' := by
  have hedit := edit_of_columns hcol he hd
    (f := fun column => if Scalar.ofNat count < column.lower then
      .error (.crossedBounds (m.edges.idxOf edge + 1) column.lower (Scalar.ofNat count))
      else .ok { column with upper := some (Scalar.ofNat count) }) (if_neg hlt)
  rw [setUpper, column_of_mem he]
  exact ⟨_, congrArg (withProblem m) hedit⟩

/-- Times can be set if every edge has one. -/
theorem exists_addObjective {g : FlowGraph} (hg : g.WellFormed)
    (hedges : m.edges = g.edgesByVertex.map (·.id)) (hcol : m.problem.columns = m.edges.map column)
    {wcetOf : Edge → Except (ModelError α) Nat} (hw : ∀ e ∈ g.edges, ∃ wcet, wcetOf e = .ok wcet) :
    ∃ m', m.addObjective g wcetOf = .ok m' := by
  -- the columns keep being given by the edges
  refine (exists_foldlM_ok_of_invariant (P := fun c : FlowModel α => c.edges = m.edges ∧
    ∃ column, c.problem.columns = m.edges.map column) ⟨rfl, column, hcol⟩ ?_).imp fun _ h => h.1
  rintro ⟨id, i⟩ hq c ⟨hc, column, hcol⟩
  have hi : m.edges[i]? = some id := List.mem_zipIdx_iff_getElem?.1 hq
  have hd : m.edges.Nodup := by
    rw [hedges]
    exact hg.edgesByVertex_nodup
  obtain ⟨hlt, hid⟩ := List.getElem?_eq_some_iff.1 hi
  have hidx : i = m.edges.idxOf id := by rw [← hid, hd.idxOf_getElem i hlt]
  have hmem := List.mem_of_getElem? hi
  obtain ⟨e, he, heid⟩ := List.mem_map.1 (hedges ▸ hmem)
  have he := hg.edgesByVertex_perm.mem_iff.1 he
  obtain ⟨wcet, hwcet⟩ := hw e he
  have hedge : g.edge id = .ok e := by rw [FlowGraph.edge, hg.edge?_eq_some_iff.2 ⟨he, heid⟩]
  have hedit := edit_of_columns hcol hmem hd
    (f := fun column => .ok { column with objective := Scalar.ofNat wcet }) rfl
  rw [← hidx] at hedit
  simp only [hedge, hwcet]
  exact ⟨_, congrArg (withProblem c) hedit, hc, _, rfl⟩

end success

end FlowModel

/-! ## Caps without a tree -/

namespace Trace

theorem cap?_none (t : Trace) (e : Edge) :
    t.cap? none e = .ok (if e.kind = .ghost then none else t.edgeCounts.get? e.id) := by
  unfold cap? edgeCount
  split
  · rfl
  · cases t.edgeCounts.get? e.id <;> rfl

/-- A cap that is told from a tree is the count of the edge. -/
theorem cap?_none_of_some {t : Trace} {tree : DepthFirstTree} {e : Edge} {n : Nat}
    (h : t.cap? (some tree) e = .ok (some n)) : t.cap? none e = .ok (some n) := by
  by_cases hghost : e.kind = .ghost
  · simp only [cap?, hghost, ↓reduceIte] at h
    cases h
  · simp only [cap?, hghost, ↓reduceIte] at h ⊢
    split at h
    · split at h
      · next hcount =>
        cases h
        rw [hcount]
      · cases h
    · cases h

section model

variable [Scalar α] (hpos : ∀ n, ¬ (Scalar.ofNat n : α) < Scalar.ofNat 0) {t : Trace}
  {g : FlowGraph} (hg : g.WellFormed) {rows : List EdgeRow} {m m' : FlowModel α}

theorem sameFrame_foldlM_addCap {tree? : Option DepthFirstTree} {es : List Edge}
    (h : es.foldlM (t.addCap tree?) m = .ok m') : m.SameFrame m' := by
  refine foldlM_ok_induction (P := fun _ c => m.SameFrame c) (.refl m) ?_ h
  intro done e c c' _ hc hstep
  unfold addCap at hstep
  split at hstep
  · cases hstep
  · cases hstep
    exact hc
  · exact hc.trans (FlowModel.sameFrame_setUpper hstep)

include hpos hg

/-- Without a tree, capping does not fail: a cap is not negative, and none is asked for in vain. -/
theorem exists_foldlM_addCap {upper : Nat → Option α} {time : Nat → α} {es : List Edge}
    (hes : ∀ e ∈ es, e ∈ g.edges) (hm : m.Consists g rows (FlowModel.columnOf upper time)) :
    ∃ m', es.foldlM (t.addCap none) m = .ok m' := by
  refine (exists_foldlM_ok_of_invariant (P := fun c : FlowModel α => ∃ upper : Nat → Option α,
    c.Consists g rows (FlowModel.columnOf upper time)) ⟨upper, hm⟩ ?_).imp fun _ h => h.1
  rintro e he c ⟨upper, hc⟩
  simp only [addCap, cap?_none]
  split
  · next h => cases h
  · exact ⟨c, rfl, upper, hc⟩
  · next n _ =>
    have hmem := (hc.mem_edges_iff hg).2 ⟨e, hes e he, rfl⟩
    obtain ⟨c', hc'⟩ := FlowModel.exists_setUpper (hc.edges_nodup hg) hc.columns_eq hmem (hpos n)
    obtain ⟨-, -, hcons⟩ := hc.setUpper hg hc'
    refine ⟨c', hc', Function.update upper e.id (some (Scalar.ofNat n)), hcons.congr fun id _ => ?_⟩
    by_cases hid : id = e.id
    · subst hid
      simp only [FlowModel.columnOf, Function.update_self]
    · simp only [FlowModel.columnOf, Function.update_of_ne hid]

omit hpos hg in
/-- Caps on all edges are set on the model that caps on back edges are set on. -/
theorem exists_addCaps_true (h : t.addCaps g false m = .ok m') :
    ∃ (entry : Nat) (m₁ : FlowModel α), (∃ v, addEntryRow m v = .ok m₁) ∧
      (∃ tree?, (cappedEdges g entry).foldlM (t.addCap tree?) m₁ = .ok m') ∧
      t.addCaps g true m = (cappedEdges g entry).foldlM (t.addCap none) m₁ := by
  unfold addCaps at h ⊢
  cases hentry : g.entry with
  | error e =>
    rw [hentry] at h
    cases h
  | ok entry =>
    simp only [hentry] at h ⊢
    cases hv : g.vertex entry with
    | error e =>
      rw [hv] at h
      cases h
    | ok v =>
      simp only [hv] at h ⊢
      obtain ⟨m₁, hrow, h⟩ := bind_ok h
      simp only [Bool.false_eq_true, ↓reduceIte] at h
      split at h
      · cases h
      · next tree _ =>
        refine ⟨entry, m₁, ⟨v, hrow⟩, ⟨some tree, h⟩, ?_⟩
        rw [hrow]
        rfl

/-- A model that can be built with caps on back edges can be built with caps on all edges. -/
theorem exists_model_true (h : t.model g false = .ok m) :
    ∃ m', t.model g true = .ok m' ∧ m.SameFrame m' := by
  obtain ⟨m₁, h₁, h⟩ := bind_ok h
  obtain ⟨m₂, h₂, h⟩ := bind_ok h
  obtain ⟨entry, m₃, ⟨v, h₃⟩, ⟨tree?, hfold⟩, heq⟩ := exists_addCaps_true h₂
  have hm₃ := consists_addEntryRow ((FlowModel.consists_ofGraph g).addFlowRows h₁) h₃
  have hes : ∀ e ∈ cappedEdges g entry, e ∈ g.edges :=
    fun e he => ((mem_cappedEdges_iff hg).1 he).1
  obtain ⟨m₂', hfold'⟩ := exists_foldlM_addCap hpos hg (t := t) hes hm₃
  obtain ⟨upper, hm₂, -⟩ := consists_foldlM_addCap hg hes hm₃ hfold
  obtain ⟨upper', hm₂', -⟩ := consists_foldlM_addCap hg hes hm₃ hfold'
  -- the times do not depend on the caps
  obtain ⟨time, -, htime⟩ := hm₂.addObjective hg h
  obtain ⟨m', h'⟩ := FlowModel.exists_addObjective hg hm₂'.edges_eq hm₂'.columns_eq
    fun e he => (htime e he).imp fun _ hw => hw.1
  refine ⟨m', ?_, ?_⟩
  · rw [model, h₁]
    change t.addCaps g true m₁ >>= _ = _
    rw [heq, hfold']
    exact h'
  · have hframe := (sameFrame_foldlM_addCap hfold).trans (FlowModel.sameFrame_addObjective h)
    exact hframe.symm.trans
      ((sameFrame_foldlM_addCap hfold').trans (FlowModel.sameFrame_addObjective h'))

omit hpos hg in
/-- Without a tree, the limits are the counts of all edges that have one. -/
theorem Caps.upper_eq_some_iff {entry : Nat} {upper : Nat → Option α}
    (hcaps : t.Caps g entry none upper) {e : Edge} (he : e ∈ g.edges) (u : α) :
    upper e.id = some u ↔ e.kind ≠ .ghost ∧ e.source ≠ entry ∧
      ∃ n, t.edgeCounts.get? e.id = some n ∧ u = Scalar.ofNat n := by
  by_cases hs : e.source = entry
  · simp [(hcaps e he).1 hs, hs]
  obtain ⟨cap, hcap, hup⟩ := (hcaps e he).2 hs
  rw [cap?_none] at hcap
  cases hcap
  by_cases hghost : e.kind = .ghost
  · simp [hup, hghost]
  · simp [hup, hghost, hs, eq_comm]

omit hpos hg in
/-- A limit told from a tree is there without it. -/
theorem Caps.upper_of_tree {entry : Nat} {tree : DepthFirstTree} {upper upper' : Nat → Option α}
    (hcaps : t.Caps g entry (some tree) upper) (hcaps' : t.Caps g entry none upper') {e : Edge}
    (he : e ∈ g.edges) {u : α} (hu : upper e.id = some u) : upper' e.id = some u := by
  by_cases hs : e.source = entry
  · rw [(hcaps e he).1 hs] at hu
    cases hu
  obtain ⟨cap, hcap, hup⟩ := (hcaps e he).2 hs
  obtain ⟨cap', hcap', hup'⟩ := (hcaps' e he).2 hs
  rw [hup] at hu
  obtain ⟨n, rfl, rfl⟩ := Option.map_eq_some_iff.1 hu
  rw [cap?_none_of_some hcap] at hcap'
  cases hcap'
  rw [hup', Option.map_some]

/-- The model with caps on all edges has the limits of the other, and one for each edge that was
seen and does not leave the entry. -/
theorem exists_tighter_model (h : t.model g false = .ok m) :
    ∃ m', t.model g true = .ok m' ∧ m'.edges = m.edges ∧ m.problem.Tighter m'.problem ∧
      ∃ entry, g.entry? = some entry ∧ ∀ e ∈ g.edges, ∃ k c, m'.column e.id = .ok k ∧
        m'.problem.column? k = some c ∧ ∀ u, c.upper = some u ↔ e.kind ≠ .ghost ∧
          e.source ≠ entry ∧ ∃ n, t.edgeCounts.get? e.id = some n ∧ u = Scalar.ofNat n := by
  obtain ⟨m', h', hframe⟩ := exists_model_true hpos hg h
  obtain ⟨entry, -, he, tree?, ⟨tree, -, rfl⟩, upper, time, hm, hcaps, htime⟩ := consists_model hg h
  obtain ⟨entry', -, he', tree?, rfl, upper', time', hm', hcaps', htime'⟩ := consists_model hg h'
  rw [← Option.some.inj (he.symm.trans he')] at hcaps'
  refine ⟨m', h', hframe.edges_eq, ⟨hframe.name_eq, hframe.direction_eq, hframe.rows_eq, ?_⟩,
    entry.id, he, fun e hem => ?_⟩
  · rw [hm.columns_eq, hm'.columns_eq, hframe.edges_eq, List.forall₂_map_left_iff,
      List.forall₂_map_right_iff, List.forall₂_same]
    intro id hid
    obtain ⟨e, hem, rfl⟩ := (hm.mem_edges_iff hg).1 hid
    have ht : time' e.id = time e.id := by
      obtain ⟨wcet, hw, ht⟩ := htime e hem
      obtain ⟨wcet', hw', ht'⟩ := htime' e hem
      rw [hw] at hw'
      cases hw'
      rw [ht, ht']
    refine ⟨?_, fun u hu => hcaps.upper_of_tree hcaps' hem hu⟩
    rw [FlowModel.columnOf, FlowModel.columnOf, ht]
  · have hid := (hm'.mem_edges_iff hg).2 ⟨e, hem, rfl⟩
    exact ⟨_, _, FlowModel.column_of_mem hid, FlowModel.column?_of_columns hm'.columns_eq hid,
      hcaps'.upper_eq_some_iff hem⟩

end model

/-- **Caps on all edges only tighten a model.** If the model can be built with caps on back edges,
it can be built with caps on all edges. Rows, objective, the order of columns and every upper bound
that was there stay. An edge has an upper bound exactly if it is no ghost, does not leave the entry
and was seen, so whatever satisfies the model with all caps satisfies the other one. -/
theorem tightened_by_allCaps {t : Trace} {g : FlowGraph} (hg : g.Built) {m : FlowModel Float}
    (h : t.model g false = .ok m) :
    ∃ m' : FlowModel Float, t.model g true = .ok m' ∧ m'.edges = m.edges ∧
      m.problem.Tighter m'.problem ∧
      (∃ entry, g.entry? = some entry ∧ ∀ e ∈ g.edges, ∃ k c, m'.column e.id = .ok k ∧
        m'.problem.column? k = some c ∧ ∀ u, c.upper = some u ↔ e.kind ≠ .ghost ∧
          e.source ≠ entry ∧ ∃ n, t.edgeCounts.get? e.id = some n ∧ u = Scalar.ofNat n) ∧
      ∀ slack values, m'.problem.isSatisfiedBy slack values →
        m.problem.isSatisfiedBy slack values := by
  obtain ⟨m', h', hedges, htighter, hcaps⟩ :=
    exists_tighter_model Double.not_ofNat_lt_zero hg.wellFormed h
  exact ⟨m', h', hedges, htighter, hcaps, fun slack values => htighter.isSatisfiedBy⟩

/-- The edges that have an upper bound, in the order of the columns. -/
def limitedEdges (m : FlowModel α) : List Nat :=
  (m.edges.zip m.problem.columns).filterMap fun (edge, column) => column.upper.map fun _ => edge

/-- The trace of the tangled graph, where the counts of some edges have not been kept. -/
def sparseTrace : Trace :=
  { Sample.tangledTrace with edgeCounts := .ofList [(1, 7), (4, 4), (5, 5), (6, 6), (9, 9)] }

open Sample in
/-- Of the edges with a count, 1 leaves the entry and 4, 5 and 9 are back edges, so the cap on 6 is
the one that is added. -/
theorem tightened_by_allCaps_tangledGraph : tangledGraph.Built ∧ ∃ m m' : FlowModel Float,
    sparseTrace.model tangledGraph false = .ok m ∧ limitedEdges m = [4, 5, 9] ∧
      sparseTrace.model tangledGraph true = .ok m' ∧ limitedEdges m' = [4, 5, 6, 9] ∧
      ∀ slack values, m'.problem.isSatisfiedBy slack values →
        m.problem.isSatisfiedBy slack values := by
  obtain ⟨m, hm, hlimited⟩ : ∃ m : FlowModel Float,
    sparseTrace.model tangledGraph false = .ok m ∧ limitedEdges m = [4, 5, 9] := ⟨_, rfl, rfl⟩
  obtain ⟨m', hm', -, -, -, hvalues⟩ := tightened_by_allCaps built_tangledGraph hm
  obtain ⟨m'', hm'', hlimited'⟩ : ∃ m : FlowModel Float,
    sparseTrace.model tangledGraph true = .ok m ∧ limitedEdges m = [4, 5, 6, 9] := ⟨_, rfl, rfl⟩
  cases hm'.symm.trans hm''
  exact ⟨built_tangledGraph, m, m', hm, hlimited, hm', hlimited', hvalues⟩

end Trace

end WorstCase
