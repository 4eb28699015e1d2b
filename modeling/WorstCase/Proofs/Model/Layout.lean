import WorstCase.Proofs.Model.Capacity
import WorstCase.Proofs.Model.Sound

/-!
# The layout of a model

What a model is, written down at once: a column for each edge of the graph, a list of rows, the
edges that are limited to one, and a time for each edge (`FlowModel.layout`). Each change of a model
is a change of its layout (`addRow_layout`, `setUpper_layout`, `addObjective_layout`), and none of
them fails as long as rows and limits are about edges of the graph.

So what a loop adds to a model does not depend on what has been added before
(`Scenario.loopLimits`), and the model of a scenario is told from what its loops add, one by one,
and from the times of its edges (`Scenario.model_eq_ok_iff`). Where it cannot be built, it is for
one of them (`Scenario.model_eq_error`).
-/

namespace WorstCase

/-- Rows over counts of edges, and edges that are taken at most once. -/
structure Limits where
  rows : List EdgeRow
  once : List Nat

/-- All limits of a graph: the rows of its vertices, and then what is given. -/
def FlowGraph.limits (g : FlowGraph) (loops : List Limits) : Limits where
  rows := g.flowRows ++ loops.flatMap (·.rows)
  once := loops.flatMap (·.once)

/-- What relates the rows of each loop relates all rows, if it can be appended. -/
theorem FlowGraph.limits_of_forall₂ {g : FlowGraph} {R : List EdgeRow → List EdgeRow → Prop}
    (hrefl : ∀ rows, R rows rows)
    (happend : ∀ {a a' b b'}, R a a' → R b b' → R (a ++ b) (a' ++ b')) {loops loops' : List Limits}
    (h : List.Forall₂ (fun l l' => R l.rows l'.rows ∧ l'.once = l.once) loops loops') :
    R (g.limits loops).rows (g.limits loops').rows ∧
      (g.limits loops').once = (g.limits loops).once := by
  suffices hflat : R (loops.flatMap (·.rows)) (loops'.flatMap (·.rows)) ∧
      loops'.flatMap (·.once) = loops.flatMap (·.once) from ⟨happend (hrefl _) hflat.1, hflat.2⟩
  induction h with
  | nil => exact ⟨hrefl _, rfl⟩
  | cons hl _ ih =>
    simp only [List.flatMap_cons]
    exact ⟨happend hl.1 ih.1, by rw [hl.2, ih.2]⟩

/-- The row is about edges of the graph. -/
def EdgeRow.Over (g : FlowGraph) (r : EdgeRow) : Prop :=
  ∀ e ∈ r.left ++ r.right, e ∈ g.edgesByVertex.map (·.id)

namespace FlowGraph

variable {g : FlowGraph} (hg : g.WellFormed)

include hg

theorem WellFormed.edgesByVertex_nodup : (g.edgesByVertex.map (·.id)).Nodup :=
  (hg.edgesByVertex_perm.map _).nodup_iff.2 hg.edgeIds_nodup

theorem WellFormed.mem_map_edgesByVertex {e : Edge} (he : e ∈ g.edges) :
    e.id ∈ g.edgesByVertex.map (·.id) :=
  List.mem_map_of_mem (hg.edgesByVertex_perm.mem_iff.2 he)

theorem over_flowRow {v : Vertex} (hv : v ∈ g.vertices) : (Scenario.flowRow v).Over g := by
  intro id hid
  rcases List.mem_append.1 hid with hid | hid
  · rw [Scenario.flowRow, hg.successors_eq v hv] at hid
    obtain ⟨e, he, rfl⟩ := List.mem_map.1 hid
    exact hg.mem_map_edgesByVertex (List.mem_filter.1 he).1
  · rw [Scenario.flowRow, hg.predecessors_eq v hv] at hid
    obtain ⟨e, he, rfl⟩ := List.mem_map.1 hid
    exact hg.mem_map_edgesByVertex (List.mem_filter.1 he).1

end FlowGraph

variable {α : Type}

namespace FlowModel

/-! ## Changes that succeed -/

theorem column_of_mem {m : FlowModel α} {edge : Nat} (h : edge ∈ m.edges) :
    m.column edge = .ok (m.edges.idxOf edge + 1) := by
  cases hc : m.column edge with
  | ok c => rw [(column_eq_ok hc).2]
  | error e =>
    unfold column at hc
    split at hc
    · cases hc
    · next hnone =>
      have := List.findIdx?_eq_none_iff.1 hnone edge h
      rw [beq_self_eq_true] at this
      cases this

theorem terms_of_mem {m : FlowModel α} {edges : List Nat} (h : ∀ e ∈ edges, e ∈ m.edges)
    (coefficient : α) :
    m.terms edges coefficient = .ok (edges.map fun e => (m.edges.idxOf e + 1, coefficient)) := by
  induction edges with
  | nil => rfl
  | cons edge edges ih =>
    have hrest := ih fun e he => h e (List.mem_cons_of_mem _ he)
    rw [terms] at hrest ⊢
    rw [List.mapM_cons, hrest, column_of_mem (h edge List.mem_cons_self)]
    rfl

/-- A change that the column of an edge allows. -/
theorem edit_of_columns {p : Problem α} {edges : List Nat} {column : Nat → Column α} {edge : Nat}
    (hcol : p.columns = edges.map column) (he : edge ∈ edges) (hd : edges.Nodup)
    {f : Column α → Except (ProblemError α) (Column α)} {c : Column α}
    (hf : f (column edge) = .ok c) : p.edit (edges.idxOf edge + 1) f =
      .ok { p with columns := edges.map (Function.update column edge c) } := by
  obtain ⟨p', hp'⟩ : ∃ p', p.edit (edges.idxOf edge + 1) f = .ok p' := by
    rw [Problem.edit, column?_of_columns hcol he]
    simp only [hf]
    exact ⟨_, rfl⟩
  obtain ⟨c', hc', rfl⟩ := edit_eq_ok hcol he hd hp'
  rw [hf] at hc'
  cases hc'
  exact hp'

variable [Scalar α]

/-- The model of a graph with these limits and times. -/
def layout (g : FlowGraph) (l : Limits) (time : Nat → α) : FlowModel α where
  problem :=
    { name := g.name
      direction := .maximise
      columns := (g.edgesByVertex.map (·.id)).map
        (columnOf (fun id => if id ∈ l.once then some (Scalar.ofNat 1) else none) time)
      rows := l.rows.map (·.toRow (g.edgesByVertex.map (·.id))) }
  edges := g.edgesByVertex.map (·.id)

variable {g : FlowGraph} {l : Limits} {time : Nat → α}

variable (l time) in
theorem addRow_layout {r : EdgeRow} (hr : r.Over g) :
    (layout g l time).addRow (r.left, 1) (r.right, -Scalar.ofNat r.factor) r.comparison
      (Scalar.ofNat r.offset) r.group r.comment = .ok (layout g ⟨l.rows ++ [r], l.once⟩ time) := by
  have hleft := terms_of_mem (m := layout g l time)
    (fun e he => hr e (List.mem_append_left _ he)) (1 : α)
  have hright := terms_of_mem (m := layout g l time)
    (fun e he => hr e (List.mem_append_right _ he)) (-Scalar.ofNat r.factor : α)
  -- an edge of the graph has a column
  have hcolumn : ∀ e ∈ r.left ++ r.right, ((layout g l time).problem.column?
      ((layout g l time).edges.idxOf e + 1)).isNone = false := by
    intro e he
    exact congrArg Option.isNone
      (column?_of_columns (p := (layout g l time).problem) rfl (hr e he))
  have hfind : (r.toRow (layout g l time).edges : Row α).terms.find?
      (fun term => ((layout g l time).problem.column? term.1).isNone) = none := by
    rw [List.find?_eq_none]
    intro term hterm
    rw [Bool.not_eq_true]
    rcases List.mem_append.1 hterm with hterm | hterm
    · obtain ⟨e, he, rfl⟩ := List.mem_map.1 hterm
      exact hcolumn e (List.mem_append_left _ he)
    · obtain ⟨e, he, rfl⟩ := List.mem_map.1 hterm
      exact hcolumn e (List.mem_append_right _ he)
  have hrow : (layout g l time).problem.addRow (r.toRow (layout g l time).edges) =
      .ok (layout g ⟨l.rows ++ [r], l.once⟩ time).problem := by
    rw [Problem.addRow, hfind]
    simp only [layout, List.map_append, List.map_cons, List.map_nil]
  rw [addRow, hleft, hright]
  exact congrArg (withProblem _) hrow

/-- Limiting an edge to one adds it to those that are taken once. -/
theorem setUpper_layout (hg : g.WellFormed) (hone : ¬ (Scalar.ofNat 1 : α) < Scalar.ofNat 0)
    {edge : Nat} (he : edge ∈ g.edgesByVertex.map (·.id)) :
    (layout g l time).setUpper edge 1 = .ok (layout g ⟨l.rows, l.once ++ [edge]⟩ time) := by
  have hedit := edit_of_columns (p := (layout g l time).problem) rfl he hg.edgesByVertex_nodup
    (f := fun column => if (Scalar.ofNat 1 : α) < column.lower then
      .error (.crossedBounds ((g.edgesByVertex.map (·.id)).idxOf edge + 1) column.lower
        (Scalar.ofNat 1))
      else .ok { column with upper := some (Scalar.ofNat 1) }) (if_neg hone)
  have hcolumns : (g.edgesByVertex.map (·.id)).map (Function.update
      (columnOf (fun id => if id ∈ l.once then some (Scalar.ofNat 1) else none) time) edge
        { columnOf (fun id => if id ∈ l.once then some (Scalar.ofNat 1) else none) time edge with
          upper := some (Scalar.ofNat 1) }) = (g.edgesByVertex.map (·.id)).map
      (columnOf
        (fun id => if id ∈ l.once ++ [edge] then some (Scalar.ofNat 1) else none) time) := by
    refine List.map_congr_left fun id _ => ?_
    by_cases hid : id = edge
    · subst hid
      simp only [Function.update_self, columnOf, List.mem_append, List.mem_singleton, or_true,
        ↓reduceIte]
    · simp only [Function.update_of_ne hid, columnOf, List.mem_append, List.mem_singleton, hid,
        or_false]
  rw [setUpper, column_of_mem he]
  refine (congrArg (withProblem _) hedit).trans ?_
  rw [withProblem, hcolumns]
  rfl

theorem setObjective_layout (hg : g.WellFormed) {i edge : Nat}
    (hi : (g.edgesByVertex.map (·.id))[i]? = some edge) (x : α) :
    (layout g l time).withProblem ((layout g l time).problem.setObjective (i + 1) x) =
      .ok (layout g l (Function.update time edge x)) := by
  have hd := hg.edgesByVertex_nodup
  obtain ⟨hlt, hedge⟩ := List.getElem?_eq_some_iff.1 hi
  have hidx : i = (g.edgesByVertex.map (·.id)).idxOf edge := by rw [← hedge, hd.idxOf_getElem i hlt]
  have hedit := edit_of_columns (p := (layout g l time).problem) rfl (List.mem_of_getElem? hi) hd
    (f := fun column => .ok { column with objective := x }) rfl
  have hcolumns := map_update_objective (g.edgesByVertex.map (·.id))
    (columnOf (fun id => if id ∈ l.once then some (Scalar.ofNat 1) else none) time) time edge x
  rw [hidx, Problem.setObjective]
  refine (congrArg (withProblem _) hedit).trans ?_
  exact congrArg (fun columns => Except.ok { layout g l time with
    problem := { (layout g l time).problem with columns } }) hcolumns

theorem addFlowRows_layout (hg : g.WellFormed) : (layout g l time).addFlowRows g =
    .ok (layout g ⟨l.rows ++ g.flowRows, l.once⟩ time) := by
  have hfold : ∀ (vs : List Vertex) (l : Limits), (∀ v ∈ vs, v ∈ g.vertices) →
      vs.foldlM addFlowRow (layout g l time) = .ok (layout g ⟨l.rows ++
        (vs.filter fun v => !(v.predecessors.isEmpty || v.successors.isEmpty)).map Scenario.flowRow,
        l.once⟩ time) := by
    intro vs
    induction vs with
    | nil =>
      intro l _
      rw [List.filter_nil, List.map_nil, List.append_nil]
      rfl
    | cons v vs ih =>
      intro l hvs
      have hrest := fun l => ih l fun w hw => hvs w (List.mem_cons_of_mem _ hw)
      rw [List.foldlM_cons, addFlowRow, List.filter_cons]
      split
      · next hempty =>
        rw [hempty]
        exact hrest l
      · next hempty =>
        have hrow := addRow_layout l time
          (FlowGraph.over_flowRow hg (hvs v List.mem_cons_self))
        rw [Bool.not_eq_true] at hempty
        refine (congrArg (· >>= vs.foldlM addFlowRow) hrow).trans ?_
        refine (hrest ⟨l.rows ++ [Scenario.flowRow v], l.once⟩).trans ?_
        simp only [hempty, Bool.not_false, ↓reduceIte, List.map_cons, List.append_assoc,
          List.singleton_append]
  exact hfold g.vertices l fun v hv => hv

section objective

variable (hg : g.WellFormed) {wcetOf : Edge → Except (ModelError α) Nat}

include hg

/-- Times cannot be set only if an edge has no time. -/
theorem exists_error_of_addObjective {error : ModelError α}
    (h : (layout g l time).addObjective g wcetOf = .error error) :
    ∃ e ∈ g.edges, wcetOf e = .error error := by
  -- the step of an edge, in terms of the time of this edge
  have hstep : ∀ q ∈ (g.edgesByVertex.map (·.id)).zipIdx, ∃ e ∈ g.edges, g.edge q.1 = .ok e ∧
      ∀ time : Nat → α, ∀ x, ∃ m, (layout g l time).withProblem
        ((layout g l time).problem.setObjective (q.2 + 1) x) = .ok m ∧
          ∃ time', m = layout g l time' := by
    intro q hq
    have hi := List.mem_zipIdx_iff_getElem?.1 hq
    obtain ⟨e, he, hid⟩ := List.mem_map.1 (List.mem_of_getElem? hi)
    have hmem := hg.edgesByVertex_perm.mem_iff.1 he
    refine ⟨e, hmem, ?_, fun time x => ⟨_, setObjective_layout hg hi x, _, rfl⟩⟩
    rw [FlowGraph.edge, hg.edge?_eq_some_iff.2 ⟨hmem, hid⟩]
  have hfold := exists_error_step_of_foldlM
    (P := fun m => ∃ time, m = layout g l time) ⟨time, rfl⟩ ?_ h
  · obtain ⟨q, hq, c, ⟨time', rfl⟩, hc⟩ := hfold
    obtain ⟨e, he, hedge, hset⟩ := hstep q hq
    simp only [hedge] at hc
    split at hc
    · next hw =>
      cases hc
      exact ⟨e, he, hw⟩
    · next wcet hw =>
      obtain ⟨m, hm, -⟩ := hset time' (Scalar.ofNat wcet)
      rw [hm] at hc
      cases hc
  · rintro q hq c c' ⟨time', rfl⟩ hc
    obtain ⟨e, he, hedge, hset⟩ := hstep q hq
    simp only [hedge] at hc
    split at hc
    · cases hc
    · next wcet hw =>
      obtain ⟨m, hm, hlayout⟩ := hset time' (Scalar.ofNat wcet)
      rw [hm] at hc
      cases hc
      exact hlayout

theorem addObjective_layout {time' : Nat → α}
    (htime : ∀ e ∈ g.edges, ∃ wcet, wcetOf e = .ok wcet ∧ time' e.id = Scalar.ofNat wcet) :
    (layout g l time).addObjective g wcetOf = .ok (layout g l time') := by
  cases h : (layout g l time).addObjective g wcetOf with
  | error error =>
    obtain ⟨e, he, hw⟩ := exists_error_of_addObjective hg h
    obtain ⟨wcet, hok, -⟩ := htime e he
    rw [hw] at hok
    cases hok
  | ok m =>
    obtain ⟨time'', rfl, htime''⟩ := addObjective_eq_ok hg rfl rfl h
    congr 2
    refine congrArg (fun columns => { (layout g l time).problem with columns }) ?_
    refine List.map_congr_left fun id hid => ?_
    have hid : time'' id = time' id := by
      obtain ⟨e, he, rfl⟩ := List.mem_map.1 hid
      have hmem := hg.edgesByVertex_perm.mem_iff.1 he
      obtain ⟨wcet, hw, ht⟩ := htime e hmem
      obtain ⟨wcet', hw', ht'⟩ := htime'' e hmem
      rw [hw] at hw'
      cases hw'
      rw [ht, ht']
    rw [columnOf, columnOf, hid]

end objective

end FlowModel

/-! ## What loops add -/

namespace Scenario

variable [Scalar α]

/-- The row of a loop relative to the parent of `ancestor`; none if no bound is asked for. -/
def boundRow? (s : Scenario) (p : LoopPartition) (entry : Nat) (h : LoopHeader) (ancestor : Nat) :
    Except (ModelError α) (Option EdgeRow) :=
  if ancestor = entry then .ok none
  else
    match s.nest.parent? ancestor with
    | none => .error (.malformedLoop h.id ancestor)
    | some parent =>
      match s.nest.level parent with
      | .error e => .error (.tree e)
      | .ok level =>
        if s.level < h.level - level then .ok none
        else
          match s.database.loopBound s.subprogram h.id parent with
          | .error e => .error (.data e)
          | .ok bound =>
            match crossings? p ancestor with
            | none => .error (.malformedLoop h.id ancestor)
            | some edges =>
              .ok (some (limitRow p h.id bound edges s!"Header {h.id} with respect to {parent}"))

/-- What the loop of the entry adds. -/
def entryLimits (p : LoopPartition) (entry : Nat) : Limits :=
  match p.backOf entry with
  | [edge] => ⟨[], [edge]⟩
  | _ => ⟨[entryRow p entry], []⟩

/-- What the loop of a header adds. -/
def loopLimits (s : Scenario) (p : LoopPartition) (entry : Nat) (h : LoopHeader) :
    Except (ModelError α) Limits :=
  if (p.backOf h.id).isEmpty then .ok ⟨[], []⟩
  else if h.id = entry then .ok (entryLimits p entry)
  else if h.selfLoop then
    match crossings? p h.id with
    | none => .error (.malformedLoop h.id h.id)
    | some edges => .ok ⟨[limitRow p h.id 1 edges s!"Self loop {h.id}"], []⟩
  else ((p.ancestorsOf h.id).mapM (s.boundRow? p entry h)).map fun rows => ⟨rows.reduceOption, []⟩

omit [Scalar α] in
/-- There is no row relative to the entry or to a loop too many levels up. Any other needs a bound
and an edge that crosses the loop. -/
theorem boundRow?_eq_ok_iff {s : Scenario} {p : LoopPartition} {entry : Nat} {h : LoopHeader}
    {a : Nat} {row? : Option EdgeRow} : s.boundRow? (α := α) p entry h a = .ok row? ↔
      (a = entry ∧ row? = none) ∨ ∃ parent level, a ≠ entry ∧ s.nest.parent? a = some parent ∧
        s.nest.level parent = .ok level ∧ ((s.level < h.level - level ∧ row? = none) ∨
          ∃ bound edges, h.level - level ≤ s.level ∧
            s.database.loopBound s.subprogram h.id parent = .ok bound ∧
            crossings? p a = some edges ∧ row? = some (limitRow p h.id bound edges
              s!"Header {h.id} with respect to {parent}")) := by
  constructor
  · intro hrow
    unfold boundRow? at hrow
    split at hrow
    · next ha =>
      cases hrow
      exact .inl ⟨ha, rfl⟩
    · next hne =>
      split at hrow
      · cases hrow
      · next parent hparent =>
        split at hrow
        · cases hrow
        · next level hlevel =>
          refine .inr ⟨parent, level, hne, hparent, hlevel, ?_⟩
          split at hrow
          · next hfar =>
            cases hrow
            exact .inl ⟨hfar, rfl⟩
          · next hnear =>
            split at hrow
            · cases hrow
            · next bound hbound =>
              split at hrow
              · cases hrow
              · next edges hc =>
                cases hrow
                exact .inr ⟨bound, edges, Nat.not_lt.1 hnear, hbound, hc, rfl⟩
  · unfold boundRow?
    rintro (⟨ha, rfl⟩ | ⟨parent, level, hne, hparent, hlevel, ⟨hfar, rfl⟩ |
      ⟨bound, edges, hnear, hbound, hc, rfl⟩⟩)
    · rw [if_pos ha]
    · simp only [if_neg hne, hparent, hlevel, if_pos hfar]
    · simp only [if_neg hne, hparent, hlevel, if_neg (Nat.not_lt.2 hnear), hbound, hc]

omit [Scalar α] in
theorem boundRow_of_boundRow? {s : Scenario} {p : LoopPartition} {entry : Nat} {h : LoopHeader}
    {a : Nat} {r : EdgeRow} (hrow : s.boundRow? (α := α) p entry h a = .ok (some r)) :
    s.BoundRow p entry h a r := by
  rcases boundRow?_eq_ok_iff.1 hrow with
    ⟨-, hr⟩ | ⟨parent, level, hne, hparent, hlevel, ⟨-, hr⟩ | ⟨bound, edges, hnear, hb, hc, hr⟩⟩
  · cases hr
  · cases hr
  · cases hr
    exact .relative hne hparent hlevel hnear hb hc

omit [Scalar α] in
/-- Two scenarios of one subprogram that differ in what bounds give differ in the rows of bounds. -/
theorem exists_loopLimits {s s' : Scenario} {p : LoopPartition} {entry : Nat} {h : LoopHeader}
    {R : Option EdgeRow → Option EdgeRow → Prop}
    (hrow : ∀ a row?, s.boundRow? (α := α) p entry h a = .ok row? →
      ∃ row?', s'.boundRow? (α := α) p entry h a = .ok row?' ∧ R row? row?')
    {l : Limits} (hl : s.loopLimits (α := α) p entry h = .ok l) :
    ∃ l', s'.loopLimits (α := α) p entry h = .ok l' ∧ (l' = l ∨ ∃ rows rows',
      List.Forall₂ R rows rows' ∧ l = ⟨rows.reduceOption, []⟩ ∧ l' = ⟨rows'.reduceOption, []⟩) := by
  unfold loopLimits at hl ⊢
  split at hl
  · next hempty =>
    rw [if_pos hempty]
    exact ⟨l, hl, .inl rfl⟩
  · next hempty =>
    rw [if_neg hempty]
    split at hl
    · next he =>
      rw [if_pos he]
      exact ⟨l, hl, .inl rfl⟩
    · next he =>
      rw [if_neg he]
      split at hl
      · next hs =>
        rw [if_pos hs]
        exact ⟨l, hl, .inl rfl⟩
      · next hs =>
        rw [if_neg hs]
        cases hrows : (p.ancestorsOf h.id).mapM (s.boundRow? (α := α) p entry h) with
        | error e =>
          rw [hrows] at hl
          cases hl
        | ok rows =>
          rw [hrows] at hl
          cases hl
          obtain ⟨rows', hrows', hR⟩ := exists_mapM_forall₂ (fun a _ => hrow a) hrows
          rw [hrows']
          exact ⟨_, rfl, .inr ⟨rows, rows', hR, rfl, rfl⟩⟩

section loops

variable {s : Scenario} {p : LoopPartition} {entry : Nat} {h : LoopHeader} {l : Limits}
  {time : Nat → α} (hg : s.graph.WellFormed) (hp : p.Sorts s.graph.edgesByVertex)

open FlowModel

include hp

theorem over_limitRow {a k : Nat} {edges : List Nat} (hc : crossings? p a = some edges)
    (comment : String) : (limitRow p h.id k edges comment).Over s.graph := by
  intro id hid
  rcases List.mem_append.1 hid with hid | hid
  · rw [limitRow, hp.back] at hid
    exact (List.filter_sublist.map _).subset hid
  · rcases crossings?_cases hc with ⟨-, rfl⟩ | ⟨-, rfl⟩
    · rw [limitRow, hp.entry] at hid
      exact (List.filter_sublist.map _).subset hid
    · rw [limitRow, hp.exit] at hid
      exact (List.filter_sublist.map _).subset hid

variable (entry) in
theorem over_entryRow : (entryRow p entry).Over s.graph := by
  intro id hid
  rw [entryRow, List.append_nil, hp.back] at hid
  exact (List.filter_sublist.map _).subset hid

theorem addBound_layout (a : Nat) :
    s.addBound p entry h (p.backOf h.id) (layout s.graph l time) a =
      (s.boundRow? p entry h a).map fun row? =>
        layout s.graph ⟨l.rows ++ row?.toList, l.once⟩ time := by
  have hnone : layout s.graph ⟨l.rows ++ (none : Option EdgeRow).toList, l.once⟩ time =
      layout s.graph l time := by
    rw [Option.toList_none, List.append_nil]
  rw [addBound, boundRow?]
  by_cases ha : a = entry
  · rw [if_pos ha, if_pos ha]
    exact congrArg Except.ok hnone.symm
  · rw [if_neg ha, if_neg ha]
    cases hparent : s.nest.parent? a with
    | none => rfl
    | some parent =>
      cases hl : s.nest.level parent with
      | error e => simp only [hl, Except.map]
      | ok level =>
        by_cases hlevel : s.level < h.level - level
        · simp only [hl, hlevel, ↓reduceIte]
          exact congrArg Except.ok hnone.symm
        · cases hbound : s.database.loopBound s.subprogram h.id parent with
          | error e => simp only [hl, hlevel, hbound, ↓reduceIte, Except.map]
          | ok bound =>
            cases hc : crossings? p a with
            | none => simp only [hl, hlevel, hbound, ↓reduceIte, Except.map]
            | some edges =>
              simp only [hl, hlevel, hbound, ↓reduceIte]
              exact addRow_layout _ _ (over_limitRow hp hc _)

theorem addBounds_layout (as : List Nat) :
    as.foldlM (s.addBound p entry h (p.backOf h.id)) (layout s.graph l time) =
      (as.mapM (s.boundRow? p entry h)).map fun rows =>
        layout s.graph ⟨l.rows ++ rows.reduceOption, l.once⟩ time := by
  have hfold := foldlM_eq_map_mapM (f := s.addBound p entry h (p.backOf h.id))
    (s.boundRow? p entry h)
    (fun rows => layout s.graph ⟨l.rows ++ rows.reduceOption, l.once⟩ time) as ?_ []
  · simpa only [List.reduceOption_nil, List.append_nil, List.nil_append] using hfold
  · intro a _ done
    refine (addBound_layout hp a).trans ?_
    congr 1
    funext row?
    rw [List.reduceOption_append, ← List.append_assoc]
    cases row? <;> rfl

variable (hone : ¬ (Scalar.ofNat 1 : α) < Scalar.ofNat 0)

include hg hone

/-- The loop of the entry is limited by a row, or by a bound if a single edge closes it. -/
theorem addEntryLoop_layout (hback : p.backOf entry ≠ []) :
    addEntryLoop (layout s.graph l time) entry (p.backOf entry) = .ok (layout s.graph
      ⟨l.rows ++ (entryLimits p entry).rows, l.once ++ (entryLimits p entry).once⟩ time) := by
  have hrow := addRow_layout l time (over_entryRow entry hp)
  have hback' := hp.back entry
  unfold addEntryLoop entryLimits
  cases hb : p.backOf entry with
  | nil => exact absurd hb hback
  | cons edge rest =>
    cases rest with
    | nil =>
      simp only [List.append_nil]
      refine setUpper_layout hg hone ?_
      have hmem : edge ∈ p.backOf entry := hb ▸ List.mem_singleton_self edge
      rw [hback'] at hmem
      exact (List.filter_sublist.map _).subset hmem
    | cons d rest =>
      simp only [List.append_nil]
      rw [← hb]
      exact hrow

/-- Adding a loop adds its limits. -/
theorem addHeader_layout (h : LoopHeader) :
    s.addHeader p entry (layout s.graph l time) h = (s.loopLimits p entry h).map fun l' =>
      layout s.graph ⟨l.rows ++ l'.rows, l.once ++ l'.once⟩ time := by
  rw [addHeader, loopLimits]
  by_cases hempty : (p.backOf h.id).isEmpty
  · simp only [hempty, ↓reduceIte, Except.map, List.append_nil]
  · rw [if_neg hempty, if_neg hempty]
    by_cases he : h.id = entry
    · rw [if_pos he, if_pos he, he]
      refine addEntryLoop_layout hg hp hone fun hnil => hempty ?_
      rw [he, hnil, List.isEmpty_nil]
    · rw [if_neg he, if_neg he]
      by_cases hs : h.selfLoop
      · rw [if_pos hs, if_pos hs, addSelfLoop]
        cases hc : crossings? p h.id with
        | none => rfl
        | some edges =>
          simp only [Except.map, List.append_nil]
          exact addRow_layout _ _ (over_limitRow hp hc _)
      · rw [if_neg hs, if_neg hs, addBounds_layout hp]
        cases (p.ancestorsOf h.id).mapM (s.boundRow? (α := α) p entry h) with
        | error e => rfl
        | ok rows => simp only [Except.map, List.append_nil]

/-- Adding the loops adds the limits of each, from the inside out. -/
theorem addLoops_layout (he : s.graph.entry? = some entry) :
    s.addLoops p (layout s.graph ⟨s.graph.flowRows, []⟩ time) =
      (s.nest.headersInward.mapM (s.loopLimits p entry)).map fun loops =>
        layout s.graph (s.graph.limits loops) time := by
  have hfold := foldlM_eq_map_mapM (f := s.addHeader p entry) (s.loopLimits p entry)
    (fun loops => layout s.graph (s.graph.limits loops) time) s.nest.headersInward ?_ []
  · simpa only [addLoops, FlowGraph.entry, he, FlowGraph.limits, List.flatMap_nil, List.append_nil,
      List.nil_append] using hfold
  · intro h _ done
    refine (addHeader_layout hg hp hone h).trans ?_
    congr 1
    funext l
    simp only [FlowGraph.limits, List.flatMap_append, List.flatMap_singleton, List.append_assoc]

end loops

/-- The times of the edges. -/
def Times (s : Scenario) (time : Nat → α) : Prop :=
  ∀ e ∈ s.graph.edges, ∃ wcet, s.wcetOf (α := α) e = .ok wcet ∧ time e.id = Scalar.ofNat wcet

section model

variable {s : Scenario} {entry : Nat} (hg : s.graph.WellFormed) (he : s.graph.entry? = some entry)
  (hone : ¬ (Scalar.ofNat 1 : α) < Scalar.ofNat 0)

open FlowModel

include hg he hone

/-- The model is laid out by the limits of its loops, and then gets its objective. -/
theorem model_eq {p : LoopPartition} (hp : LoopPartition.ofGraph s.graph s.nest = .ok p) :
    s.model (α := α) = s.nest.headersInward.mapM (s.loopLimits p entry) >>= fun loops =>
      (layout s.graph (s.graph.limits loops) fun _ => Scalar.ofNat 0).addObjective s.graph
        s.wcetOf := by
  have hstart : ofGraph s.graph = layout (α := α) s.graph ⟨[], []⟩ fun _ => Scalar.ofNat 0 := by
    rw [ofGraph_eq]
    simp only [layout, List.not_mem_nil, ↓reduceIte, List.map_nil]
  have hsorts := (LoopPartition.sorts_of_ofGraph hg hp).1
  simp only [model, hp, hstart, addFlowRows_layout hg, List.nil_append]
  change (s.addLoops p (layout s.graph ⟨s.graph.flowRows, []⟩ fun _ => Scalar.ofNat 0) >>=
    fun m => m.addObjective s.graph s.wcetOf) = _
  rw [addLoops_layout hg hsorts hone he]
  cases s.nest.headersInward.mapM (s.loopLimits (α := α) p entry) with
  | error e => rfl
  | ok loops => rfl

/-- A model can be built if what its loops add and the times of its edges are known, and is laid out
by them. -/
theorem model_eq_ok_iff {m : FlowModel α} : s.model = .ok m ↔ ∃ p loops time,
    LoopPartition.ofGraph s.graph s.nest = .ok p ∧
    s.nest.headersInward.mapM (s.loopLimits (α := α) p entry) = .ok loops ∧ s.Times time ∧
    m = layout s.graph (s.graph.limits loops) time := by
  constructor
  · intro h
    cases hp : LoopPartition.ofGraph s.graph s.nest with
    | error tag =>
      rw [model, hp] at h
      cases h
    | ok p =>
      rw [model_eq hg he hone hp] at h
      obtain ⟨loops, hloops, h⟩ := bind_ok h
      obtain ⟨time, -, htime⟩ := addObjective_eq_ok hg rfl rfl h
      rw [addObjective_layout hg htime] at h
      exact ⟨p, loops, time, rfl, hloops, htime, (Except.ok.inj h).symm⟩
  · rintro ⟨p, loops, time, hp, hloops, htime, rfl⟩
    rw [model_eq hg he hone hp, hloops]
    exact addObjective_layout hg htime

/-- Where a model cannot be built, there is a tag that names no header, something that the loop of a
header should add is not known, or the time of an edge. -/
theorem model_eq_error {error : ModelError α} (h : s.model = .error error) :
    (∃ tag, LoopPartition.ofGraph s.graph s.nest = .error tag ∧ error = .strayTag tag) ∨
    ∃ p, LoopPartition.ofGraph s.graph s.nest = .ok p ∧
      ((∃ h ∈ s.nest.headersInward, s.loopLimits p entry h = .error error) ∨
        ∃ e ∈ s.graph.edges, s.wcetOf e = .error error) := by
  cases hp : LoopPartition.ofGraph s.graph s.nest with
  | error tag =>
    rw [model, hp] at h
    exact .inl ⟨tag, rfl, (Except.error.inj h).symm⟩
  | ok p =>
    refine .inr ⟨p, rfl, ?_⟩
    rw [model_eq hg he hone hp] at h
    cases hloops : s.nest.headersInward.mapM (s.loopLimits (α := α) p entry) with
    | error e =>
      rw [hloops] at h
      cases h
      exact .inl (exists_error_of_mapM hloops)
    | ok loops =>
      rw [hloops] at h
      exact .inr (exists_error_of_addObjective hg h)

end model

end Scenario

end WorstCase
