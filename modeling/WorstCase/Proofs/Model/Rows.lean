import Mathlib.Algebra.BigOperators.Ring.List
import WorstCase.Model.Basic
import WorstCase.Proofs.Fold
import WorstCase.Proofs.Graph.Built
import WorstCase.Proofs.Linear.Built
import WorstCase.Proofs.Linear.Exact

/-!
# The rows and columns of a model

A row of a model compares the number of times that some edges are taken with a multiple of the
number of times that others are taken (`EdgeRow`). `FlowModel.Described` says which rows a model
has, which edges it limits to one, and what times its edges have; each way of changing a model
changes this description in an obvious way (`Described.addRow`, `Described.setUpper`,
`Described.addObjective`). Whether counts of edges satisfy a model is told from its description
alone (`Described.feasible_iff`), and so is the objective (`Described.objectiveAt_eq`).
-/

namespace WorstCase

/-- A row over counts of edges: what is taken of `left` compared with `factor` times what is taken
of `right`, plus `offset`. -/
structure EdgeRow where
  left : List Nat
  factor : Nat
  right : List Nat
  comparison : Comparison
  offset : Nat
  group : RowGroup
  comment : String
  offset_le : offset ≤ 1 := by decide

/-- The counts satisfy the row, minus `factor` being read as the rational `c`. -/
def EdgeRow.Holds (r : EdgeRow) (c : ℚ) (count : Nat → ℚ) : Prop :=
  r.comparison.Rel ((r.left.map count).sum + c * (r.right.map count).sum) r.offset

variable {α : Type}

/-! ## Columns of edges -/

namespace FlowModel

theorem column_eq_ok {m : FlowModel α} {edge c : Nat} (h : m.column edge = .ok c) :
    edge ∈ m.edges ∧ c = m.edges.idxOf edge + 1 := by
  unfold column at h
  split at h
  · next i hi =>
    cases h
    obtain ⟨hlt, hidx⟩ := List.findIdx?_eq_some_iff_findIdx_eq.1 hi
    rw [List.idxOf, hidx]
    refine ⟨List.idxOf_lt_length_iff.1 ?_, rfl⟩
    rw [List.idxOf, hidx]
    exact hlt
  · cases h

theorem terms_eq_ok {m : FlowModel α} {edges : List Nat} {coefficient : α}
    {ts : List (Nat × α)} (h : m.terms edges coefficient = .ok ts) :
    (∀ e ∈ edges, e ∈ m.edges) ∧
      ts = edges.map fun e => (m.edges.idxOf e + 1, coefficient) := by
  induction edges generalizing ts with
  | nil =>
    cases h
    exact ⟨fun e he => absurd he List.not_mem_nil, rfl⟩
  | cons edge edges ih =>
    rw [terms, List.mapM_cons] at h
    obtain ⟨term, hterm, h⟩ := bind_ok h
    obtain ⟨rest, hrest, h⟩ := bind_ok h
    cases h
    obtain ⟨hmem, rfl⟩ := ih hrest
    split at hterm
    · next c hc =>
      cases hterm
      obtain ⟨he, rfl⟩ := column_eq_ok hc
      refine ⟨fun e hm => ?_, rfl⟩
      rcases List.mem_cons.1 hm with rfl | hm
      · exact he
      · exact hmem e hm
    · cases hterm

/-- A list of as many entries as there are edges gives an entry to each edge. -/
theorem exists_eq_map {β : Type} [Inhabited β] {edges : List Nat} (hd : edges.Nodup) {xs : List β}
    (hlen : xs.length = edges.length) : ∃ f : Nat → β, xs = edges.map f := by
  refine ⟨fun id => xs.getD (edges.idxOf id) default, ?_⟩
  refine List.ext_getElem (by rw [List.length_map, hlen]) fun i h₁ h₂ => ?_
  rw [List.getElem_map, hd.idxOf_getElem, List.getD_eq_getElem?_getD,
    List.getElem?_eq_getElem h₁, Option.getD_some]

theorem withProblem_eq_ok {m m' : FlowModel α} {x : Except (ProblemError α) (Problem α)}
    (h : m.withProblem x = .ok m') : ∃ problem, x = .ok problem ∧ m' = { m with problem } := by
  cases x with
  | error e => cases h
  | ok problem => exact ⟨problem, rfl, (Except.ok.inj h).symm⟩

section columns

variable {p p' : Problem α} {edges : List Nat} {column : Nat → Column α} {edge : Nat}
  (hcol : p.columns = edges.map column) (he : edge ∈ edges)

include hcol he

theorem column?_of_columns : p.column? (edges.idxOf edge + 1) = some (column edge) := by
  have hlt := List.idxOf_lt_length_iff.2 he
  simp only [Problem.column?, Nat.add_eq_zero_iff, Nat.one_ne_zero, and_false, ↓reduceIte,
    Nat.add_sub_cancel, hcol, List.getElem?_map, List.getElem?_eq_getElem hlt, Option.map_some,
    List.getElem_idxOf]

/-- A change of the column of an edge, in terms of what gives the columns. -/
theorem edit_eq_ok (hd : edges.Nodup) {f : Column α → Except (ProblemError α) (Column α)}
    (h : p.edit (edges.idxOf edge + 1) f = .ok p') : ∃ c, f (column edge) = .ok c ∧
      p' = { p with columns := edges.map (Function.update column edge c) } := by
  obtain ⟨c₀, c, hc₀, hf, rfl⟩ := Problem.edit_eq_ok h
  rw [column?_of_columns hcol he] at hc₀
  cases hc₀
  refine ⟨c, hf, ?_⟩
  congr 1
  rw [hcol, Nat.add_sub_cancel]
  refine List.ext_getElem (by simp only [List.length_set, List.length_map]) fun i h₁ h₂ => ?_
  simp only [List.length_map] at h₂
  simp only [List.getElem_set, List.getElem_map]
  split
  · next hi =>
    subst hi
    rw [List.getElem_idxOf, Function.update_self]
  · next hi =>
    rw [Function.update_of_ne]
    intro hc
    rw [← hc, hd.idxOf_getElem i h₂] at hi
    exact hi rfl

end columns

end FlowModel

variable [Scalar α]

/-- The row in the numbering of columns that the edges give. -/
def EdgeRow.toRow (r : EdgeRow) (edges : List Nat) : Row α where
  terms := (r.left.map fun e => (edges.idxOf e + 1, Scalar.ofNat 1)) ++
    r.right.map fun e => (edges.idxOf e + 1, -Scalar.ofNat r.factor)
  comparison := r.comparison
  rhs := Scalar.ofNat r.offset
  group := r.group
  comment := some r.comment

namespace FlowModel

variable {m m' : FlowModel α} {column : Nat → Column α}

/-! ## What changes do -/

theorem addRow_eq_ok {r : EdgeRow} (h : m.addRow (r.left, 1) (r.right, -Scalar.ofNat r.factor)
      r.comparison (Scalar.ofNat r.offset) r.group r.comment = .ok m') :
    (∀ e ∈ r.left ++ r.right, e ∈ m.edges) ∧ m' = { m with
      problem := { m.problem with rows := m.problem.rows ++ [r.toRow m.edges] } } := by
  obtain ⟨left, hleft, h⟩ := bind_ok h
  obtain ⟨right, hright, h⟩ := bind_ok h
  obtain ⟨hl, rfl⟩ := terms_eq_ok hleft
  obtain ⟨hr, rfl⟩ := terms_eq_ok hright
  obtain ⟨problem, hp, rfl⟩ := withProblem_eq_ok h
  rw [(Problem.addRow_eq_ok hp).2]
  refine ⟨fun e he => ?_, rfl⟩
  rcases List.mem_append.1 he with he | he
  · exact hl e he
  · exact hr e he

section edit

variable (hd : m.edges.Nodup) (hcol : m.problem.columns = m.edges.map column)

include hd hcol

theorem setUpper_eq_ok {edge count : Nat} (h : m.setUpper edge count = .ok m') :
    edge ∈ m.edges ∧ ¬ Scalar.ofNat count < (column edge).lower ∧ m' = { m with
      problem := { m.problem with columns := m.edges.map (Function.update column edge
        { column edge with upper := some (Scalar.ofNat count) }) } } := by
  unfold FlowModel.setUpper at h
  split at h
  · cases h
  · next c hc =>
    obtain ⟨he, rfl⟩ := column_eq_ok hc
    obtain ⟨problem, hp, rfl⟩ := withProblem_eq_ok h
    obtain ⟨c, hf, rfl⟩ := edit_eq_ok hcol he hd hp
    split at hf
    · cases hf
    · next hlt =>
      cases hf
      exact ⟨he, hlt, rfl⟩

theorem setLower_eq_ok {edge count : Nat} (h : m.setLower edge count = .ok m') :
    edge ∈ m.edges ∧ (∀ u, (column edge).upper = some u → ¬ u < Scalar.ofNat count) ∧ m' = { m with
      problem := { m.problem with columns := m.edges.map (Function.update column edge
        { column edge with lower := Scalar.ofNat count }) } } := by
  unfold FlowModel.setLower at h
  split at h
  · cases h
  · next c hc =>
    obtain ⟨he, rfl⟩ := column_eq_ok hc
    obtain ⟨problem, hp, rfl⟩ := withProblem_eq_ok h
    obtain ⟨c, hf, rfl⟩ := edit_eq_ok hcol he hd hp
    split at hf
    · next u hu =>
      split at hf
      · cases hf
      · next hlt =>
        cases hf
        refine ⟨he, fun u' hu' => ?_, rfl⟩
        rw [hu] at hu'
        cases hu'
        exact hlt
    · next hu =>
      cases hf
      exact ⟨he, fun u hu' => absurd (hu.symm.trans hu') nofun, rfl⟩

omit [Scalar α] in
theorem setObjective_eq_ok {edge i : Nat} (hi : m.edges[i]? = some edge) {x : α}
    (h : m.withProblem (m.problem.setObjective (i + 1) x) = .ok m') : m' = { m with
      problem := { m.problem with columns := m.edges.map (Function.update column edge
        { column edge with objective := x }) } } := by
  obtain ⟨hlt, hedge⟩ := List.getElem?_eq_some_iff.1 hi
  have hidx : i = m.edges.idxOf edge := by rw [← hedge, hd.idxOf_getElem i hlt]
  obtain ⟨problem, hp, rfl⟩ := withProblem_eq_ok h
  rw [hidx] at hp
  obtain ⟨c, hc, rfl⟩ := edit_eq_ok hcol (List.mem_of_getElem? hi) hd hp
  cases hc
  rfl

end edit

/-- Where a function is changed at one argument after the other, what holds of those done so far
holds of the changed function too. -/
theorem forall_mem_concat_update {ι β : Type} [DecidableEq ι] {P : ι → β → Prop} {f : ι → β}
    {done : List ι} {i : ι} {b : β} (h : ∀ j ∈ done, P j (f j)) (hb : P i b) :
    ∀ j ∈ done ++ [i], P j (Function.update f i b j) := by
  intro j hj
  by_cases hji : j = i
  · rw [hji, Function.update_self]
    exact hb
  · rw [Function.update_of_ne hji]
    exact h j ((List.mem_append.1 hj).resolve_right fun hlast => hji (List.mem_singleton.1 hlast))

/-- The number is the time of the edge with the number `id`. -/
def IsTime (g : FlowGraph) (wcetOf : Edge → Except (ModelError α) Nat) (id : Nat) (x : α) : Prop :=
  ∃ e wcet, g.edge id = .ok e ∧ wcetOf e = .ok wcet ∧ x = Scalar.ofNat wcet

omit [Scalar α] in
theorem map_update_objective (edges : List Nat) (column : Nat → Column α) (time : Nat → α)
    (id : Nat) (x : α) :
    edges.map (Function.update (fun e => { column e with objective := time e }) id
      { column id with objective := x }) =
    edges.map fun e => { column e with objective := Function.update time id x e } := by
  refine List.map_congr_left fun e _ => ?_
  by_cases he : e = id
  · rw [he, Function.update_self, Function.update_self]
  · rw [Function.update_of_ne he, Function.update_of_ne he]

/-- Every edge gets the time that `wcetOf` has for it. -/
theorem addObjective_eq_ok {g : FlowGraph} (hg : g.WellFormed)
    (hedges : m.edges = g.edgesByVertex.map (·.id))
    (hcol : m.problem.columns = m.edges.map column)
    {wcetOf : Edge → Except (ModelError α) Nat} (h : m.addObjective g wcetOf = .ok m') :
    ∃ time : Nat → α, m' = { m with problem := { m.problem with
      columns := m.edges.map fun e => { column e with objective := time e } } } ∧
        ∀ e ∈ g.edges, ∃ wcet, wcetOf e = .ok wcet ∧ time e.id = Scalar.ofNat wcet := by
  have hd : m.edges.Nodup := by
    rw [hedges]
    exact (hg.edgesByVertex_perm.map _).nodup_iff.2 hg.edgeIds_nodup
  -- the edges of the columns done have got their times
  have hfold := foldlM_ok_induction (P := fun done m₁ => ∃ time : Nat → α,
    m₁ = { m with problem := { m.problem with
      columns := m.edges.map fun e => { column e with objective := time e } } } ∧
    ∀ id ∈ done.map Prod.fst, IsTime g wcetOf id (time id))
    ⟨fun e => (column e).objective, by rw [← hcol], fun id hid => absurd hid List.not_mem_nil⟩ ?_ h
  · obtain ⟨time, rfl, htime⟩ := hfold
    refine ⟨time, rfl, fun e he => ?_⟩
    have hmem : e.id ∈ m.edges.zipIdx.map Prod.fst := by
      rw [List.zipIdx_map_fst, hedges]
      exact List.mem_map_of_mem (hg.edgesByVertex_perm.mem_iff.2 he)
    obtain ⟨e', wcet, he', hw, ht⟩ := htime e.id hmem
    rw [FlowGraph.edge, hg.edge?_eq_some_iff.2 ⟨he, rfl⟩] at he'
    cases he'
    exact ⟨wcet, hw, ht⟩
  · rintro done ⟨id, i⟩ m₁ m₂ hq ⟨time, rfl, htime⟩ hstep
    simp only at hstep
    split at hstep
    · cases hstep
    · next e he =>
      split at hstep
      · cases hstep
      · next wcet hw =>
        refine ⟨Function.update time id (Scalar.ofNat wcet), ?_, ?_⟩
        · rw [← map_update_objective]
          exact setObjective_eq_ok
            (m := ⟨⟨_, _, m.edges.map fun e => { column e with objective := time e }, _⟩, m.edges⟩)
            hd rfl (List.mem_zipIdx_iff_getElem?.1 hq) hstep
        · rw [List.map_append]
          exact forall_mem_concat_update htime ⟨e, wcet, he, hw, rfl⟩

/-! ## Models by description -/

/-- The column of an edge that is limited to `upper` and takes the time `time`. -/
def columnOf (upper : Nat → Option α) (time : Nat → α) (edge : Nat) : Column α :=
  ⟨s!"edge_{edge}", Scalar.ofNat 0, upper edge, true, time edge⟩

/-- The model has a column for each edge of the graph, the rows `R`, a limit of one for the edges
`U`, and the given times. -/
structure Described (g : FlowGraph) (R : EdgeRow → Prop) (U : Nat → Prop) (time : Nat → α)
    (m : FlowModel α) : Prop where
  edges_eq : m.edges = g.edgesByVertex.map (·.id)
  rows_mem : ∀ r, R r → ∀ e ∈ r.left ++ r.right, e ∈ m.edges
  rows_iff : ∀ row, row ∈ m.problem.rows ↔ ∃ r, R r ∧ row = r.toRow m.edges
  columns : ∃ upper, m.problem.columns = m.edges.map (columnOf upper time) ∧
    ∀ e ∈ m.edges, ∀ u, upper e = some u ↔ U e ∧ u = Scalar.ofNat 1

variable {g : FlowGraph} {R : EdgeRow → Prop} {U : Nat → Prop} {time : Nat → α}

theorem Described.mem_edges_iff (hm : Described g R U time m) (hg : g.WellFormed) {id : Nat} :
    id ∈ m.edges ↔ ∃ e ∈ g.edges, e.id = id := by
  rw [hm.edges_eq, List.mem_map]
  simp only [hg.edgesByVertex_perm.mem_iff]

theorem Described.edges_nodup (hm : Described g R U time m) (hg : g.WellFormed) :
    m.edges.Nodup := by
  rw [hm.edges_eq]
  exact (hg.edgesByVertex_perm.map _).nodup_iff.2 hg.edgeIds_nodup

theorem ofGraph_eq (g : FlowGraph) : ofGraph (α := α) g =
    { problem := ⟨g.name, .maximise, (g.edgesByVertex.map (·.id)).map
        (columnOf (fun _ => none) fun _ => Scalar.ofNat 0), []⟩
      edges := g.edgesByVertex.map (·.id) } := by
  have hfold : ∀ (es : List Nat) (p : Problem α),
      es.foldl (fun p edge => p.addColumn s!"edge_{edge}" true) p = { p with
        columns := p.columns ++ es.map (columnOf (fun _ => none) fun _ => Scalar.ofNat 0) } := by
    intro es
    induction es with
    | nil => intro p; simp only [List.foldl_nil, List.map_nil, List.append_nil]
    | cons e es ih =>
      intro p
      rw [List.foldl_cons, ih]
      simp only [Problem.addColumn, List.map_cons, List.append_assoc, List.singleton_append]
      rfl
  simp only [ofGraph, hfold, Problem.empty, List.nil_append]

/-- The model starts without rows, limits and times. -/
theorem described_ofGraph (g : FlowGraph) : Described g (fun _ => False) (fun _ => False)
    (fun _ => Scalar.ofNat 0) (ofGraph (α := α) g) := by
  rw [ofGraph_eq]
  refine ⟨rfl, fun r h => h.elim, fun row => ?_, fun _ => none, rfl, fun e _ u => ?_⟩
  · simp only [List.not_mem_nil, false_and, exists_false]
  · simp only [reduceCtorEq, false_and]

/-! ## Changes -/

theorem Described.of_iff {R' : EdgeRow → Prop} {U' : Nat → Prop} (hm : Described g R U time m)
    (hR : ∀ r, R r ↔ R' r) (hU : ∀ e, U e ↔ U' e) : Described g R' U' time m := by
  have hR' : R = R' := funext fun r => propext (hR r)
  have hU' : U = U' := funext fun e => propext (hU e)
  rwa [← hR', ← hU']

theorem Described.addRow (hm : Described g R U time m) {r : EdgeRow}
    (h : m.addRow (r.left, 1) (r.right, -Scalar.ofNat r.factor) r.comparison
      (Scalar.ofNat r.offset) r.group r.comment = .ok m') :
    Described g (fun r' => R r' ∨ r' = r) U time m' := by
  obtain ⟨hmem, rfl⟩ := addRow_eq_ok h
  refine ⟨hm.edges_eq, fun r' hr' e he => ?_, fun row => ?_, hm.columns⟩
  · rcases hr' with hr' | rfl
    · exact hm.rows_mem r' hr' e he
    · exact hmem e he
  · simp only [List.mem_append, List.mem_singleton, hm.rows_iff, or_and_right, exists_or,
      exists_eq_left]

theorem Described.setUpper (hm : Described g R U time m) (hd : m.edges.Nodup) {edge : Nat}
    (h : m.setUpper edge 1 = .ok m') : Described g R (fun e => U e ∨ e = edge) time m' := by
  obtain ⟨upper, hcol, hup⟩ := hm.columns
  obtain ⟨he, -, rfl⟩ := setUpper_eq_ok hd hcol h
  refine ⟨hm.edges_eq, hm.rows_mem, hm.rows_iff,
    Function.update upper edge (some (Scalar.ofNat 1)), ?_, fun e hem u => ?_⟩
  · refine List.map_congr_left fun e _ => ?_
    by_cases hee : e = edge
    · subst hee
      simp only [columnOf, Function.update_self]
    · simp only [columnOf, Function.update_of_ne hee]
  · by_cases hee : e = edge
    · subst hee
      simp only [Function.update_self, Option.some_inj, or_true, true_and]
      exact eq_comm
    · simp only [Function.update_of_ne hee, hee, or_false]
      exact hup e hem u

/-- Gives every edge the time that `wcetOf` has for it. -/
theorem Described.addObjective (hg : g.WellFormed) (hm : Described g R U time m)
    {wcetOf : Edge → Except (ModelError α) Nat} (h : m.addObjective g wcetOf = .ok m') :
    ∃ time', Described g R U time' m' ∧
      ∀ e ∈ g.edges, ∃ wcet, wcetOf e = .ok wcet ∧ time' e.id = Scalar.ofNat wcet := by
  obtain ⟨upper, hcol, hup⟩ := hm.columns
  obtain ⟨time', rfl, htime⟩ := addObjective_eq_ok hg hm.edges_eq hcol h
  exact ⟨time', ⟨hm.edges_eq, hm.rows_mem, hm.rows_iff, upper, rfl, hup⟩, htime⟩

/-! ## What a model asks of counts -/

/-- The numbers that every model has are read exactly. -/
structure Reads (value : α → ℚ) : Prop where
  zero : value (Scalar.ofNat 0) = 0
  one : value (Scalar.ofNat 1) = 1

variable {value : α → ℚ}

theorem Reads.offset (hv : Reads value) (r : EdgeRow) :
    value (Scalar.ofNat r.offset) = r.offset := by
  obtain h | h : r.offset = 0 ∨ r.offset = 1 := by
    have := r.offset_le
    omega
  · rw [h, hv.zero, Nat.cast_zero]
  · rw [h, hv.one, Nat.cast_one]

theorem valueAt?_map {edges : List Nat} (count : Nat → ℚ) {e : Nat} (he : e ∈ edges) :
    valueAt? (edges.map count) (edges.idxOf e + 1) = some (count e) := by
  have hlt := List.idxOf_lt_length_iff.2 he
  simp only [valueAt?, Nat.add_eq_zero_iff, Nat.one_ne_zero, and_false, ↓reduceIte,
    Nat.add_sub_cancel, List.getElem?_map, List.getElem?_eq_getElem hlt, Option.map_some,
    List.getElem_idxOf]

/-- The activity of a row is the sum of its two sides, the right one times its factor. -/
theorem activity_toRow (hv : Reads value) {r : EdgeRow} {edges : List Nat}
    (hr : ∀ e ∈ r.left ++ r.right, e ∈ edges) (count : Nat → ℚ) :
    ((r.toRow edges : Row α).read value).activity (edges.map count) =
      (r.left.map count).sum + value (-Scalar.ofNat r.factor) * (r.right.map count).sum := by
  rw [Row.activity_eq_sum]
  simp only [Row.read, EdgeRow.toRow, List.map_append, List.map_map, Function.comp_def,
    List.sum_append, hv.one, one_mul]
  have hcount : ∀ es : List Nat, (∀ e ∈ es, e ∈ edges) → ∀ c : ℚ,
      (es.map fun e => c * (valueAt? (edges.map count) (edges.idxOf e + 1)).getD 0).sum =
        c * (es.map count).sum := by
    intro es hes c
    rw [← List.sum_map_mul_left]
    congr 1
    refine List.map_congr_left fun e he => ?_
    rw [valueAt?_map count (hes e he), Option.getD_some]
  have hleft := hcount r.left (fun e he => hr e (List.mem_append_left _ he)) 1
  simp only [one_mul] at hleft
  rw [hleft, hcount r.right fun e he => hr e (List.mem_append_right _ he)]

/-- A row of a model holds of counts if the row over edges does. -/
theorem holds_toRow_iff (hv : Reads value) {r : EdgeRow} {edges : List Nat}
    (hr : ∀ e ∈ r.left ++ r.right, e ∈ edges) (count : Nat → ℚ) :
    ((r.toRow edges : Row α).read value).comparison.holds 0
      (((r.toRow edges : Row α).read value).activity (edges.map count))
      ((r.toRow edges : Row α).read value).rhs ↔
        r.Holds (value (-Scalar.ofNat r.factor)) count := by
  rw [activity_toRow hv hr, Comparison.holds_zero_iff]
  simp only [Row.read, EdgeRow.toRow, hv.offset]
  rfl

/-- Whether counts keep the bounds and rows of a model is told from what gives its columns and
rows. -/
theorem feasible_map_iff (hv : Reads value) (hcol : m.problem.columns = m.edges.map column)
    (hrows : ∀ row, row ∈ m.problem.rows ↔ ∃ r, R r ∧ row = r.toRow m.edges)
    (hmem : ∀ r, R r → ∀ e ∈ r.left ++ r.right, e ∈ m.edges) (count : Nat → ℚ) :
    (m.problem.read value).Feasible (m.edges.map count) ↔
      (∀ e ∈ m.edges, value (column e).lower ≤ count e ∧
        ∀ u, (column e).upper = some u → count e ≤ value u) ∧
      ∀ r, R r → r.Holds (value (-Scalar.ofNat r.factor)) count := by
  have hzip : (m.problem.read value).columns.zip (m.edges.map count) =
      m.edges.map fun e => ((column e).read value, count e) := by
    rw [Problem.read, hcol, List.map_map, List.zip_map', Function.comp_def]
  have hbound : ∀ e, ((∀ u, (column e).upper.map value = some u → count e ≤ u) ↔
      ∀ u, (column e).upper = some u → count e ≤ value u) := by
    intro e
    simp only [Option.map_eq_some_iff, forall_exists_index, and_imp, forall_apply_eq_imp_iff₂]
  have hrow := fun r hR => holds_toRow_iff hv (hmem r hR) count
  constructor
  · rintro ⟨-, hb, hr⟩
    refine ⟨fun e he => ?_, fun r hR => (hrow r hR).1 ?_⟩
    · obtain ⟨hl, hu⟩ := hb _ (hzip ▸ List.mem_map.2 ⟨e, he, rfl⟩)
      exact ⟨hl, (hbound e).1 hu⟩
    · exact hr _ (List.mem_map.2 ⟨_, (hrows _).2 ⟨r, hR, rfl⟩, rfl⟩)
  · rintro ⟨hb, hr⟩
    refine ⟨?_, fun q hq => ?_, fun row hrow' => ?_⟩
    · simp only [Problem.read, hcol, List.length_map]
    · rw [hzip] at hq
      obtain ⟨e, he, rfl⟩ := List.mem_map.1 hq
      exact ⟨(hb e he).1, (hbound e).2 (hb e he).2⟩
    · obtain ⟨row', hmem', rfl⟩ := List.mem_map.1 hrow'
      obtain ⟨r, hR, rfl⟩ := (hrows row').1 hmem'
      exact (hrow r hR).2 (hr r hR)

omit [Scalar α] in
/-- Values for the columns are counts of edges. -/
theorem exists_count_of_columns (hcol : m.problem.columns = m.edges.map column)
    (hd : m.edges.Nodup) {values : List ℚ} (h : (m.problem.read value).Feasible values) :
    ∃ count, values = m.edges.map count := by
  refine exists_eq_map hd ?_
  rw [h.length_eq, Problem.read, hcol, List.length_map, List.length_map]

/-- The counts keep the bounds and rows of a model when no count is negative, the limited edges are
taken at most once, and each row holds. -/
theorem Described.feasible_iff (hm : Described g R U time m) (hv : Reads value)
    (count : Nat → ℚ) : (m.problem.read value).Feasible (m.edges.map count) ↔
      (∀ e ∈ m.edges, 0 ≤ count e ∧ (U e → count e ≤ 1)) ∧
        ∀ r, R r → r.Holds (value (-Scalar.ofNat r.factor)) count := by
  obtain ⟨upper, hcol, hup⟩ := hm.columns
  rw [feasible_map_iff hv hcol hm.rows_iff hm.rows_mem]
  refine and_congr_left fun _ => forall_congr' fun e => forall_congr' fun he => ?_
  have hlow : value (columnOf upper time e).lower = 0 := hv.zero
  rw [hlow, and_congr_right_iff]
  intro _
  constructor
  · intro h hU
    rw [← hv.one]
    exact h _ ((hup e he _).2 ⟨hU, rfl⟩)
  · intro h u hu
    obtain ⟨hU, rfl⟩ := (hup e he u).1 hu
    rw [hv.one]
    exact h hU

theorem Described.length_columns (hm : Described g R U time m) :
    (m.problem.read value).columns.length = m.edges.length := by
  obtain ⟨upper, hcol, -⟩ := hm.columns
  simp only [Problem.read, hcol, List.length_map]

theorem Described.exists_count (hm : Described g R U time m) (hg : g.WellFormed) {values : List ℚ}
    (h : (m.problem.read value).Feasible values) : ∃ count, values = m.edges.map count := by
  obtain ⟨upper, hcol, -⟩ := hm.columns
  exact exists_count_of_columns hcol (hm.edges_nodup hg) h

/-- The objective of counts is their time. -/
theorem Described.objectiveAt_eq (hm : Described g R U time m) (value : α → ℚ)
    (count : Nat → ℚ) : (m.problem.read value).objectiveAt (m.edges.map count) =
      (m.edges.map fun e => value (time e) * count e).sum := by
  obtain ⟨upper, hcol, -⟩ := hm.columns
  rw [Problem.objectiveAt_eq_sum, Problem.read, hcol, List.map_map, List.zipWith_map,
    List.zipWith_self]
  rfl

end FlowModel

end WorstCase
