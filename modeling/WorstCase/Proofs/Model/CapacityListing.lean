import WorstCase.Proofs.Listing.Limit
import WorstCase.Proofs.Model.Capacity
import WorstCase.Proofs.Model.Listing
import WorstCase.Proofs.Number.WholeText

/-!
# The listing of the model of a trace

The bounds of edges in a model can be changed one after the other (`FlowModel.Adjusted`). The model
of a trace is read back from its listing as it is, after such changes too, unless the entry is left
by a single edge. Then the row that lets the entry be left once is read as the upper bound of this
edge, which the bounds of the edge replace or contradict (`Trace.parse_listing_of_adjusted`).
-/

namespace WorstCase

open Text Listing Double

/-- The problems have the same direction and objective, and are satisfied by the same values. -/
structure Problem.Agrees (p q : Problem ℚ) : Prop where
  direction_eq : p.direction = q.direction
  objective_eq : (p.columns.map fun c => (c.name, c.objective)) =
    q.columns.map fun c => (c.name, c.objective)
  satisfied_iff : ∀ values, p.isSatisfiedBy 0 values ↔ q.isSatisfiedBy 0 values

/-- Whether values are satisfied is told from whether they are feasible and from which columns have
to be whole. -/
theorem Problem.isSatisfiedBy_congr {p q : Problem ℚ}
    (hinteger : p.columns.map Column.integer = q.columns.map Column.integer) {values : List ℚ}
    (h : p.Feasible values ↔ q.Feasible values) :
    p.isSatisfiedBy 0 values ↔ q.isSatisfiedBy 0 values := by
  have hwhole : ∀ r : Problem ℚ,
      (∀ x ∈ r.columns.zip values, x.1.integer → x.2 = Scalar.round x.2) ↔
        ∀ x ∈ (r.columns.map Column.integer).zip values, x.1 → x.2 = Scalar.round x.2 := by
    intro r
    simp only [List.zip_map_left, List.forall_mem_map, Prod.map_fst, Prod.map_snd, id_eq]
  rw [isSatisfiedBy_iff, isSatisfiedBy_iff, h, hwhole, hwhole, hinteger]

namespace FlowModel

/-! ## Changing bounds -/

/-- Bounds of edges are changed, one after the other. -/
inductive Adjusted (m : FlowModel Float) : FlowModel Float → Prop
  | refl : Adjusted m m
  | upper {m' m'' : FlowModel Float} {edge count : Nat} (h : Adjusted m m')
      (hcount : count < 2 ^ 64) (hset : m'.setUpper edge count = .ok m'') : Adjusted m m''
  | lower {m' m'' : FlowModel Float} {edge count : Nat} (h : Adjusted m m')
      (hcount : count < 2 ^ 64) (hset : m'.setLower edge count = .ok m'') : Adjusted m m''

section adjust

variable {edge count : Nat} {column : Column Float} (h : EdgeColumn edge column)
  (hcount : count < 2 ^ 64)

include h hcount

theorem EdgeColumn.setUpper (hlt : ¬ Scalar.ofNat count < column.lower) :
    EdgeColumn edge { column with upper := some (Scalar.ofNat count) } := by
  have hlower : column.lower ∈ column.numbers := List.mem_cons_of_mem _ List.mem_cons_self
  refine ⟨h.name_eq, fun x hx => ?_, fun u hu => ?_⟩
  · rcases List.mem_cons.1 hx with rfl | hx
    · exact h.word _ List.mem_cons_self
    · rcases List.mem_cons.1 hx with rfl | hx
      · exact h.word _ hlower
      · rw [List.mem_singleton.1 hx]
        exact ⟨count, hcount, rfl⟩
  · obtain rfl := Option.some.inj hu
    exact le_of_not_lt (h.unsigned hlower).finite (unsigned_ofNat hcount).finite hlt

theorem EdgeColumn.setLower (hlt : ∀ u, column.upper = some u → ¬ u < Scalar.ofNat count) :
    EdgeColumn edge { column with lower := Scalar.ofNat count } := by
  refine ⟨h.name_eq, fun x hx => ?_, fun u hu => ?_⟩
  · rcases List.mem_cons.1 hx with rfl | hx
    · exact h.word _ List.mem_cons_self
    · rcases List.mem_cons.1 hx with rfl | hx
      · exact ⟨count, hcount, rfl⟩
      · exact h.word x (List.mem_cons_of_mem _ (List.mem_cons_of_mem _ hx))
  · have hupper : u ∈ column.numbers := by
      refine List.mem_cons_of_mem _ (List.mem_cons_of_mem _ ?_)
      exact Option.mem_toList.2 hu
    exact le_of_not_lt (unsigned_ofNat hcount).finite (h.unsigned hupper).finite (hlt u hu)

end adjust

theorem EdgeColumn.limited {edge : Nat} {column : Column Float} (h : EdgeColumn edge column)
    (hle : ¬ 1 < column.lower) : EdgeColumn edge (column.limited 1) := by
  cases hu : column.upper with
  | none =>
    have hone : (1 : Nat) < 2 ^ 64 := by decide
    rw [Column.limited, hu]
    exact h.setUpper hone hle
  | some u =>
    rw [Column.limited_of_upper hu]
    exact h

theorem EdgeColumn.value_le_one {edge : Nat} {column : Column Float} (h : EdgeColumn edge column)
    {u : Float} (hu : column.upper = some u) (hle : ¬ 1 < u) : Double.value u ≤ 1 := by
  obtain ⟨n, hn, rfl⟩ := h.word u
    (List.mem_cons_of_mem _ (List.mem_cons_of_mem _ (Option.mem_toList.2 hu)))
  have hone : n ≤ 1 := by
    by_contra hlt
    exact hle (one_lt_ofNat (by omega) hn)
  rw [show Scalar.ofNat n = Float.ofNat n from rfl, value_ofNat (by omega)]
  exact_mod_cast hone

theorem edgeColumn_update {edges : List Nat} {column : Nat → Column Float} {edge : Nat}
    {c : Column Float} (h : ∀ e ∈ edges, EdgeColumn e (column e)) (hc : EdgeColumn edge c) :
    ∀ e ∈ edges, EdgeColumn e (Function.update column edge c e) := by
  intro e he
  by_cases hee : e = edge
  · subst hee
    rwa [Function.update_self]
  · rw [Function.update_of_ne hee]
    exact h e he

/-- Changing bounds changes the columns only, which stay columns of edges. -/
theorem Adjusted.consists {g : FlowGraph} (hg : g.WellFormed) {rows : List EdgeRow}
    {m m' : FlowModel Float} (h : m.Adjusted m') {column : Nat → Column Float}
    (hm : m.Consists g rows column) (hcol : ∀ e ∈ m.edges, EdgeColumn e (column e)) :
    ∃ column', m'.Consists g rows column' ∧ ∀ e ∈ m'.edges, EdgeColumn e (column' e) := by
  induction h with
  | refl => exact ⟨column, hm, hcol⟩
  | upper _ hcount hset ih =>
    obtain ⟨column', hm', hcol'⟩ := ih
    obtain ⟨he, hlt, hm''⟩ := hm'.setUpper hg hset
    rw [hm'.edges_eq, ← hm''.edges_eq] at he hcol'
    exact ⟨_, hm'', edgeColumn_update hcol' ((hcol' _ he).setUpper hcount hlt)⟩
  | lower _ hcount hset ih =>
    obtain ⟨column', hm', hcol'⟩ := ih
    obtain ⟨he, hlt, hm''⟩ := hm'.setLower hg hset
    rw [hm'.edges_eq, ← hm''.edges_eq] at he hcol'
    exact ⟨_, hm'', edgeColumn_update hcol' ((hcol' _ he).setLower hcount hlt)⟩

/-! ## Reading back -/

/-- Names, bounds and coefficients of such a model are all that its listing has to write. -/
theorem Consists.written {g : FlowGraph} {rows : List EdgeRow} {column : Nat → Column Float}
    {m : FlowModel Float} (hm : m.Consists g rows column) (hg : g.WellFormed)
    (hcol : ∀ e ∈ m.edges, EdgeColumn e (column e)) : m.Written (· ∈ rows) column where
  edges_nodup := hm.edges_nodup hg
  rows_mem := hm.rows_mem
  rows_iff row := by simp only [hm.rows_eq, List.mem_map, eq_comm]
  columns_eq := hm.columns_eq
  column := hcol

/-- The numbers of a model whose factors are one are read back. -/
theorem Written.readsBack {R : EdgeRow → Prop} {column : Nat → Column Float} {m : FlowModel Float}
    (hm : m.Written R column) (hR : ∀ r, R r → r.factor = 1) : m.problem.ReadsBack := by
  constructor
  · intro c hc x hx
    obtain ⟨e, -, -, hcolumn⟩ := hm.exists_edge hc
    obtain ⟨n, hn, rfl⟩ := hcolumn.word x hx
    exact readsBack_ofNat hn
  · intro row hrow x hx
    obtain ⟨r, hr, rfl⟩ := (hm.rows_iff row).1 hrow
    rcases List.mem_cons.1 hx with rfl | hx
    · exact readsBack_ofNat (r.offset_le.trans_lt (by decide))
    · obtain ⟨t, ht, rfl⟩ := List.mem_map.1 hx
      rcases EdgeRow.mem_terms_toRow m.edges ht with ⟨e, -, rfl⟩ | ⟨e, -, rfl⟩
      · exact readsBack_ofNat (n := 1) (by decide)
      · rw [hR r hr]
        have hneg : ReadsBack (-Float.ofNat 1) := by decide +kernel
        exact hneg

/-- Models that consist of the same but for rows and bounds agree if counts that keep the one keep
the other. -/
theorem Consists.agrees {g : FlowGraph} (hg : g.WellFormed) {rows rows' : List EdgeRow}
    {column column' : Nat → Column Float} {m m' : FlowModel Float} (hm : m.Consists g rows column)
    (hm' : m'.Consists g rows' column') (hdir : m.problem.direction = m'.problem.direction)
    (hcol : ∀ e ∈ m.edges, (column e).name = (column' e).name ∧
      (column e).integer = (column' e).integer ∧ (column e).objective = (column' e).objective)
    (h : ∀ count, (m.problem.read Double.value).Feasible (m.edges.map count) ↔
      (m'.problem.read Double.value).Feasible (m.edges.map count)) :
    (m.problem.read Double.value).Agrees (m'.problem.read Double.value) := by
  have hedges : m'.edges = m.edges := hm'.edges_eq.trans hm.edges_eq.symm
  refine ⟨hdir, ?_, fun values => Problem.isSatisfiedBy_congr ?_ ⟨fun hf => ?_, fun hf => ?_⟩⟩
  · simp only [Problem.read, hm.columns_eq, hm'.columns_eq, hedges, List.map_map]
    refine List.map_congr_left fun e he => ?_
    obtain ⟨hname, -, hobjective⟩ := hcol e he
    simp only [Function.comp_apply, Column.read, hname, hobjective]
  · simp only [Problem.read, hm.columns_eq, hm'.columns_eq, hedges, List.map_map]
    exact List.map_congr_left fun e he => (hcol e he).2.1
  · obtain ⟨count, rfl⟩ := hm.exists_count hg hf
    exact (h count).1 hf
  · obtain ⟨count, rfl⟩ := hm'.exists_count hg hf
    rw [hedges] at hf ⊢
    exact (h count).2 hf

end FlowModel

namespace Trace

/-! ## The row of the entry -/

theorem plain_entryRow (entry : Vertex) : (entryRow entry).Plain :=
  ⟨show 1 < 2 ^ 64 by decide,
    remark_of_toString "Entry vertex " rfl ⟨'E', rfl, by decide⟩ (by decide)⟩

theorem shaped_of_flowRows {g : FlowGraph} {r : EdgeRow} (hr : r ∈ g.flowRows) :
    r.Shaped ∧ r.factor = 1 := by
  obtain ⟨v, hv, rfl⟩ := List.mem_map.1 hr
  obtain ⟨-, hv⟩ := List.mem_filter.1 hv
  simp only [Bool.not_eq_true', Bool.or_eq_false_iff, List.isEmpty_eq_false_iff] at hv
  exact ⟨Scenario.shaped_flowRow hv.1 hv.2, rfl⟩

theorem mem_entryRows {entry : Vertex} {r : EdgeRow} (hr : r ∈ entryRows entry) :
    entry.successors ≠ [] ∧ r = entryRow entry := by
  unfold entryRows at hr
  split at hr
  · cases hr
  · next hempty =>
    rw [List.isEmpty_iff] at hempty
    exact ⟨hempty, List.mem_singleton.1 hr⟩

/-- If the entry is not left by a single edge, its row has several terms and is read as a row. -/
theorem shaped_of_entryRows {entry : Vertex} (hlen : entry.successors.length ≠ 1) {r : EdgeRow}
    (hr : r ∈ entryRows entry) : r.Shaped := by
  obtain ⟨hne, rfl⟩ := mem_entryRows hr
  refine ⟨plain_entryRow entry, hne, ?_, fun hf => absurd hf Nat.one_ne_zero⟩
  rwa [show (entryRow entry).left ++ (entryRow entry).right = entry.successors from
    List.append_nil _]

section single

variable {entry : Vertex} {edge : Nat} (hsingle : entry.successors = [edge])

include hsingle

theorem entryRows_single : entryRows entry = [entryRow entry] := by
  rw [entryRows, hsingle]
  rfl

/-- If the entry is left by a single edge, its row is a limit on this edge. -/
theorem limits_entryRow (edges : List Nat) :
    ((entryRow entry).toRow edges : Row Float).Limits (edges.idxOf edge + 1) 1 := by
  refine ⟨?_, rfl, rfl⟩
  rw [EdgeRow.terms_toRow, show (entryRow entry).left = [edge] from hsingle]
  rfl

/-- This limit says that the edge is taken at most once. -/
theorem holds_entryRow_iff (c : ℚ) (count : Nat → ℚ) :
    (entryRow entry).Holds c count ↔ count edge ≤ 1 := by
  have hsum : ((entryRow entry).left.map count).sum + c * ((entryRow entry).right.map count).sum =
      count edge := by
    rw [show (entryRow entry).left = [edge] from hsingle,
      show (entryRow entry).right = [] from rfl]
    simp
  rw [EdgeRow.Holds, hsum]
  simp [entryRow, Comparison.Rel]

end single

/-! ## The model -/

section model

variable {g : FlowGraph} (hg : g.WellFormed) {entry : Vertex} {m : FlowModel Float}
  {column : Nat → Column Float} (hm : m.Consists g (g.flowRows ++ entryRows entry) column)
  (hcol : ∀ e ∈ m.edges, FlowModel.EdgeColumn e (column e))

include hg hm hcol

theorem readsBack_of_consists : m.problem.ReadsBack := by
  refine (hm.written hg hcol).readsBack fun r hr => ?_
  rcases List.mem_append.1 hr with hr | hr
  · exact (shaped_of_flowRows hr).2
  · obtain ⟨-, rfl⟩ := mem_entryRows hr
    rfl

theorem separable_of_consists : m.problem.Separable := by
  refine (hm.written hg hcol).separable fun r hr => ?_
  rcases List.mem_append.1 hr with hr | hr
  · exact (shaped_of_flowRows hr).1.toPlain
  · obtain ⟨-, rfl⟩ := mem_entryRows hr
    exact plain_entryRow entry

/-- Unless the entry is left by a single edge, all rows are read back as rows. -/
theorem parse_listing_of_length_ne_one (hlen : entry.successors.length ≠ 1) :
    parse m.listing = .ok { m.problem with name := "parsed" } := by
  refine (hm.written hg hcol).parse_listing_eq (fun r hr => ?_) (readsBack_of_consists hg hm hcol)
  rcases List.mem_append.1 hr with hr | hr
  · obtain ⟨hshaped, hfactor⟩ := shaped_of_flowRows hr
    exact ⟨hshaped, hfactor ▸ Nat.one_ne_zero⟩
  · refine ⟨shaped_of_entryRows hlen hr, ?_⟩
    obtain ⟨-, rfl⟩ := mem_entryRows hr
    exact Nat.one_ne_zero

section single

variable {edge : Nat} (hsingle : entry.successors = [edge])

include hsingle

omit hg hcol in
theorem rows_single : m.problem.rows =
    (g.flowRows.map fun r => r.toRow m.edges) ++ [(entryRow entry).toRow m.edges] := by
  rw [hm.rows_eq, entryRows_single hsingle, List.map_append]
  rfl

theorem wellSigned_single : m.problem.WellSigned := by
  refine ⟨fun c hc => ?_, fun row hrow => ?_⟩
  · obtain ⟨e, -, -, hcolumn⟩ := (hm.written hg hcol).exists_edge (List.mem_of_mem_tail hc)
    exact hcolumn.listable.objective_nonneg
  · rw [rows_single hm hsingle] at hrow
    rcases List.mem_append.1 hrow with hrow | hrow
    · obtain ⟨r, hr, rfl⟩ := List.mem_map.1 hrow
      obtain ⟨hshaped, hfactor⟩ := shaped_of_flowRows hr
      exact (hshaped.listable m.edges (hfactor ▸ Nat.one_ne_zero)).wellSigned
    · rw [List.mem_singleton.1 hrow]
      exact (limits_entryRow hsingle m.edges).wellSigned

omit hg hcol in
theorem mem_edges_single : edge ∈ m.edges := by
  refine hm.rows_mem (entryRow entry) ?_ edge ?_
  · rw [entryRows_single hsingle]
    exact List.mem_append_right _ (List.mem_singleton_self _)
  · rw [show (entryRow entry).left = [edge] from hsingle]
    exact List.mem_cons_self

omit hcol in
/-- The column of the edge among those before and behind it. -/
theorem exists_columns_single : ∃ before behind : List (Column Float),
    m.problem.columns = before ++ column edge :: behind ∧ m.edges.idxOf edge = before.length ∧
      ∀ c, m.edges.map (Function.update column edge c) = before ++ c :: behind := by
  have hd := hm.edges_nodup hg
  obtain ⟨before, behind, hsplit⟩ := List.append_of_mem (mem_edges_single hm hsingle)
  rw [hsplit] at hd
  have hbefore : edge ∉ before := fun he =>
    (List.nodup_append.1 hd).2.2 edge he edge List.mem_cons_self rfl
  have hbehind : edge ∉ behind := (List.nodup_cons.1 (List.nodup_append.1 hd).2.1).1
  have hsame : ∀ es : List Nat, edge ∉ es → ∀ c, es.map (Function.update column edge c) =
      es.map column := by
    intro es he c
    refine List.map_congr_left fun e hmem => Function.update_of_ne ?_ _ _
    rintro rfl
    exact he hmem
  refine ⟨before.map column, behind.map column, ?_, ?_, fun c => ?_⟩
  · rw [hm.columns_eq, hsplit, List.map_append, List.map_cons]
  · rw [hsplit, List.idxOf_append_of_notMem hbefore, List.idxOf_cons_self, List.length_map,
      Nat.add_zero]
  · rw [hsplit, List.map_append, List.map_cons, hsame before hbefore, hsame behind hbehind,
      Function.update_self]

omit hg in
theorem lower_single : plain (column edge).lower = (column edge).lower :=
  ((hcol edge (mem_edges_single hm hsingle)).unsigned
    (List.mem_cons_of_mem _ List.mem_cons_self)).plain_eq

/-- The model without the row of the entry, which is read as the upper bound of its edge unless the
edge has one. -/
theorem parse_listing_single (hle : ¬ 1 < (column edge).lower) :
    parse m.listing = .ok ⟨"parsed", m.problem.direction,
      m.edges.map (Function.update column edge ((column edge).limited 1)),
      g.flowRows.map fun r => r.toRow m.edges⟩ := by
  obtain ⟨before, behind, hcolumns, hidx, hupdate⟩ := exists_columns_single hg hm hsingle
  have hlimits := limits_entryRow hsingle m.edges
  rw [hidx] at hlimits
  have hparse := Problem.parse_listing_limited (separable_of_consists hg hm hcol)
    (readsBack_of_consists hg hm hcol) hcolumns (rows_single hm hsingle) (fun row hrow => ?_)
    (wellSigned_single hg hm hcol hsingle) unsigned_one hlimits
    ((lower_single hm hcol hsingle).symm ▸ hle)
  · have hlimited := (hcol edge (mem_edges_single hm hsingle)).limited hle
    have hreread : (before ++ (column edge).limited 1 :: behind).map Column.reread =
        m.edges.map (Function.update column edge ((column edge).limited 1)) := by
      rw [← hupdate, List.map_map]
      exact List.map_congr_left fun e he =>
        (FlowModel.edgeColumn_update hcol hlimited e he).reread_eq
    have hsorted : ((g.flowRows.map fun r => (r.toRow m.edges : Row Float)).map fun row =>
        row.sorted.reread) = g.flowRows.map fun r => r.toRow m.edges := by
      rw [List.map_map]
      refine List.map_congr_left fun r hr => ?_
      obtain ⟨hshaped, hfactor⟩ := shaped_of_flowRows hr
      have hlistable := hshaped.listable m.edges (hfactor ▸ Nat.one_ne_zero)
      rw [Function.comp_apply, hlistable.sorted_eq, r.reread_toRow]
    rw [FlowModel.listing, hparse, hreread, hsorted]
  · obtain ⟨r, hr, rfl⟩ := List.mem_map.1 hrow
    exact (shaped_of_flowRows hr).1.length_terms_ne_one m.edges

omit hg in
/-- The row of the entry and the upper bound say the same as long as the edge has no bound above
one. -/
theorem bounds_single_iff (hupper : ∀ u, (column edge).upper = some u → ¬ 1 < u) (v : ℚ) :
    (∀ u, ((column edge).limited 1).upper = some u → v ≤ Double.value u) ↔
      (∀ u, (column edge).upper = some u → v ≤ Double.value u) ∧ v ≤ 1 := by
  have hone : Double.value 1 = 1 := FlowModel.reads_value.one
  cases hu : (column edge).upper with
  | none => simp [Column.limited, hu, hone]
  | some upper =>
    have hle := (hcol edge (mem_edges_single hm hsingle)).value_le_one hu (hupper upper hu)
    rw [Column.limited_of_upper hu, hu]
    simp only [Option.some.injEq, forall_eq']
    exact ⟨fun h => ⟨h, h.trans hle⟩, fun h => h.1⟩

/-- The limit as an upper bound does what the row did, if no bound of the edge is above one. -/
theorem agrees_single (hupper : ∀ u, (column edge).upper = some u → ¬ 1 < u) :
    Problem.Agrees (Problem.read Double.value ⟨"parsed", m.problem.direction,
      m.edges.map (Function.update column edge ((column edge).limited 1)),
      g.flowRows.map fun r => r.toRow m.edges⟩) (m.problem.read Double.value) := by
  have hq : FlowModel.Consists g g.flowRows
      (Function.update column edge ((column edge).limited 1)) ⟨⟨"parsed", m.problem.direction,
        m.edges.map (Function.update column edge ((column edge).limited 1)),
        g.flowRows.map fun r => r.toRow m.edges⟩, m.edges⟩ :=
    ⟨hm.edges_eq, fun r hr => hm.rows_mem r (List.mem_append_left _ hr), rfl, rfl⟩
  have hreads := FlowModel.reads_value
  refine hq.agrees hg hm rfl (fun e _ => ?_) fun count => ?_
  · by_cases hee : e = edge
    · subst hee
      rw [Function.update_self]
      exact ⟨rfl, rfl, rfl⟩
    · rw [Function.update_of_ne hee]
      exact ⟨rfl, rfl, rfl⟩
  · have hbound := bounds_single_iff hm hcol hsingle hupper (count edge)
    rw [hq.feasible_iff hreads, hm.feasible_iff hreads, entryRows_single hsingle]
    simp only [List.forall_mem_append, List.forall_mem_singleton, holds_entryRow_iff hsingle]
    constructor
    · rintro ⟨hcolumns, hrows⟩
      have hedge := hcolumns edge (mem_edges_single hm hsingle)
      rw [Function.update_self, hbound] at hedge
      refine ⟨fun e he => ?_, hrows, hedge.2.2⟩
      by_cases hee : e = edge
      · subst hee
        exact ⟨hedge.1, hedge.2.1⟩
      · have hother := hcolumns e he
        rwa [Function.update_of_ne hee] at hother
    · rintro ⟨hcolumns, hrows, hentry⟩
      refine ⟨fun e he => ?_, hrows⟩
      by_cases hee : e = edge
      · subst hee
        rw [Function.update_self, hbound]
        exact ⟨(hcolumns e he).1, (hcolumns e he).2, hentry⟩
      · rw [Function.update_of_ne hee]
        exact hcolumns e he

/-- With a lower bound above one, the limit of the row crosses it. -/
theorem parse_listing_single_crossed (hlt : 1 < (column edge).lower) :
    parse m.listing = .error (.problem
      (.crossedBounds (m.edges.idxOf edge + 1) (column edge).lower 1)) := by
  obtain ⟨before, behind, hcolumns, hidx, -⟩ := exists_columns_single hg hm hsingle
  have hlower := lower_single hm hcol hsingle
  have hlimits := limits_entryRow hsingle m.edges
  rw [hidx] at hlimits ⊢
  have hparse := Problem.parse_listing_crossed (separable_of_consists hg hm hcol)
    (readsBack_of_consists hg hm hcol) hcolumns (rows_single hm hsingle) (fun row hrow => ?_)
    (wellSigned_single hg hm hcol hsingle) unsigned_one hlimits (hlower.symm ▸ hlt)
  · rwa [hlower] at hparse
  · obtain ⟨r, hr, rfl⟩ := List.mem_map.1 hrow
    exact (shaped_of_flowRows hr).1.length_terms_ne_one m.edges

end single

end model

/-! ## Traces -/

section words

variable {t : Trace} (hwords : t.Words) {e : Edge}

include hwords

theorem Words.wcetOf_lt {wcet : Nat} (h : t.wcetOf (α := Float) e = .ok wcet) : wcet < 2 ^ 64 := by
  have hzero : 0 < 2 ^ 64 := by decide
  unfold wcetOf at h
  split at h
  · cases h
    exact hzero
  · split at h
    · next hw =>
      cases h
      exact hwords.edgeWcet _ _ hw
    · cases h
  · split at h
    · next hw =>
      cases h
      exact hwords.edgeWcet _ _ hw
    · cases h
      exact hzero
    · cases h

/-- The caps of such a trace are numbers of 64 bits. -/
theorem Words.cap?_lt {tree? : Option DepthFirstTree} {count : Nat}
    (h : t.cap? tree? e = .ok (some count)) : count < 2 ^ 64 := by
  unfold cap? at h
  split at h
  · cases h
  · split at h
    · split at h
      · split at h
        · next hc =>
          cases h
          exact hwords.edgeCount _ _ hc
        · cases h
      · cases h
    · split at h
      · next hc =>
        cases h
        exact hwords.edgeCount _ _ hc
      · cases h
      · cases h

/-- The columns of the model of a trace. -/
theorem Words.edgeColumn {g : FlowGraph} {entry : Nat} {tree? : Option DepthFirstTree}
    {upper : Nat → Option Float} {time : Nat → Float} (hcaps : t.Caps g entry tree? upper)
    (htime : ∀ e ∈ g.edges, ∃ wcet, t.wcetOf (α := Float) e = .ok wcet ∧
      time e.id = Scalar.ofNat wcet) (he : e ∈ g.edges) :
    FlowModel.EdgeColumn e.id (FlowModel.columnOf upper time e.id) := by
  have hupper : ∀ u, upper e.id = some u → ∃ n < 2 ^ 64, u = Scalar.ofNat n := by
    intro u hu
    by_cases hs : e.source = entry
    · exact absurd ((hcaps e he).1 hs ▸ hu) nofun
    · obtain ⟨cap, hcap, hup⟩ := (hcaps e he).2 hs
      rw [hup] at hu
      obtain ⟨n, rfl, rfl⟩ := Option.map_eq_some_iff.1 hu
      exact ⟨n, hwords.cap?_lt hcap, rfl⟩
  refine ⟨rfl, fun x hx => ?_, fun u hu => ?_⟩
  · rcases List.mem_cons.1 hx with rfl | hx
    · obtain ⟨wcet, hwcet, ht⟩ := htime e he
      exact ⟨wcet, hwords.wcetOf_lt hwcet, ht⟩
    · rcases List.mem_cons.1 hx with rfl | hx
      · exact ⟨0, by decide, rfl⟩
      · exact hupper x (Option.mem_toList.1 hx)
  · obtain ⟨n, hn, rfl⟩ := hupper u hu
    exact (unsigned_ofNat hn).nonneg

end words

/-- **What the listing of the model of a trace is read as.** After any changes of bounds, the model
is read back as it is if the entry is not left by a single edge. If it is, the row of the entry is
not read as a row. Reading fails if the edge has a lower bound above one; the row is lost if the
edge has an upper bound; and what is read means the same as the model if no bound of the edge is
above one. -/
theorem parse_listing_of_adjusted {t : Trace} {g : FlowGraph} {all : Bool} (hg : g.Built)
    (hwords : t.Words) {m m' : FlowModel Float} (hm : t.model g all = .ok m)
    (hadj : m.Adjusted m') : ∃ entry ∈ g.vertices, g.entry? = some entry.id ∧
      (entry.successors.length ≠ 1 → parse m'.listing = .ok { m'.problem with name := "parsed" }) ∧
      ∀ edge, entry.successors = [edge] →
        ∃ column ∈ m'.problem.columns, column.name = s!"edge_{edge}" ∧
          (1 < column.lower → parse m'.listing = .error (.problem
            (.crossedBounds (m'.edges.idxOf edge + 1) column.lower 1))) ∧
          (¬ 1 < column.lower → (∃ upper, column.upper = some upper) → parse m'.listing =
            .ok { m'.problem with name := "parsed", rows := m'.problem.rows.dropLast }) ∧
          (¬ 1 < column.lower → (∀ upper, column.upper = some upper → ¬ 1 < upper) →
            ∃ q, parse m'.listing = .ok q ∧
              (q.read Double.value).Agrees (m'.problem.read Double.value)) := by
  obtain ⟨entry, hentry, he, tree?, -, upper, time, hmodel, hcaps, htime⟩ :=
    consists_model hg.wellFormed hm
  have hcol : ∀ id ∈ m.edges, FlowModel.EdgeColumn id (FlowModel.columnOf upper time id) := by
    intro id hid
    obtain ⟨e, hem, rfl⟩ := (hmodel.mem_edges_iff hg.wellFormed).1 hid
    exact hwords.edgeColumn hcaps htime hem
  obtain ⟨column, hm', hcol'⟩ := hadj.consists hg.wellFormed hmodel hcol
  refine ⟨entry, hentry, he, parse_listing_of_length_ne_one hg.wellFormed hm' hcol',
    fun edge hsingle => ?_⟩
  have hedge := mem_edges_single hm' hsingle
  refine ⟨column edge, ?_, (hcol' edge hedge).name_eq,
    parse_listing_single_crossed hg.wellFormed hm' hcol' hsingle, fun hle hupper => ?_,
    fun hle hupper => ?_⟩
  · rw [hm'.columns_eq]
    exact List.mem_map_of_mem hedge
  · obtain ⟨u, hu⟩ := hupper
    rw [parse_listing_single hg.wellFormed hm' hcol' hsingle hle, Column.limited_of_upper hu,
      Function.update_eq_self, ← hm'.columns_eq, rows_single hm' hsingle, List.dropLast_concat]
  · exact ⟨_, parse_listing_single hg.wellFormed hm' hcol' hsingle hle,
      agrees_single hg.wellFormed hm' hcol' hsingle hupper⟩

end Trace

namespace Sample

/-- One edge, which leaves the entry. -/
def arrow : GraphSpec where
  name := "arrow"
  vertices := [1, 2]
  edges := numbered [(1, 2, .trace)]
  entry? := some 1

def arrowGraph : FlowGraph :=
  arrow.build.toOption.getD (.empty "arrow")

theorem built_arrowGraph : arrowGraph.Built :=
  GraphSpec.built_of_build (by simp [arrow, numbered, EdgeKind.Ascending])
    (show arrow.build = .ok arrowGraph by decide)

/-- The edge took three units and was seen once. -/
def arrowTrace : Trace :=
  Trace.empty.addEdge 1 3 1

theorem words_arrowTrace : arrowTrace.Words :=
  .of_entries (by decide) (by decide)

/-- The model of the arrow. -/
def arrowModel : FlowModel Float :=
  (arrowTrace.model arrowGraph false).toOption.getD ⟨.empty "arrow" .maximise, []⟩

/-- The edge may be taken five times. -/
def wideModel : FlowModel Float :=
  (arrowModel.setUpper 1 5).toOption.getD arrowModel

/-- The edge has to be taken three times. -/
def tightModel : FlowModel Float :=
  (arrowModel.setLower 1 3).toOption.getD arrowModel

end Sample

open Sample in
/-- The arrow can be read back. With an upper bound of five on its edge, five is read as possible,
which the model rules out; with a lower bound of three, nothing is read. -/
theorem Trace.parse_listing_of_adjusted_arrow : arrowGraph.Built ∧ arrowTrace.Words ∧
    arrowTrace.model arrowGraph false = .ok arrowModel ∧ arrowModel.Adjusted arrowModel ∧
    arrowModel.Adjusted wideModel ∧ arrowModel.Adjusted tightModel ∧
    (∃ q, parse arrowModel.listing = .ok q ∧
      (q.read Double.value).Agrees (arrowModel.problem.read Double.value)) ∧
    (∃ q, parse wideModel.listing = .ok q ∧ (q.read Double.value).isSatisfiedBy 0 [5] ∧
      ¬ (wideModel.problem.read Double.value).isSatisfiedBy 0 [5]) ∧
    parse tightModel.listing = .error (.problem (.crossedBounds 1 (3 : Float) 1)) := by
  have hm : arrowTrace.model arrowGraph false = .ok arrowModel := rfl
  have hwide : arrowModel.Adjusted wideModel :=
    .upper .refl (by decide) (show arrowModel.setUpper 1 5 = .ok wideModel from rfl)
  have htight : arrowModel.Adjusted tightModel :=
    .lower .refl (by decide) (show arrowModel.setLower 1 3 = .ok tightModel from rfl)
  have hsingle : ∀ v ∈ arrowGraph.vertices, arrowGraph.entry? = some v.id → v.successors = [1] := by
    decide
  refine ⟨built_arrowGraph, words_arrowTrace, hm, .refl, hwide, htight, ?_, ?_, ?_⟩
  · obtain ⟨v, hv, he, -, h⟩ := parse_listing_of_adjusted built_arrowGraph words_arrowTrace hm .refl
    obtain ⟨column, hcolumn, -, -, -, hread⟩ := h 1 (hsingle v hv he)
    have hbounds : ∀ c ∈ arrowModel.problem.columns, ¬ 1 < c.lower ∧ c.upper = none := by
      decide +kernel
    obtain ⟨hlower, hupper⟩ := hbounds column hcolumn
    exact hread hlower fun u hu => absurd (hupper.symm.trans hu) nofun
  · obtain ⟨v, hv, he, -, h⟩ := parse_listing_of_adjusted built_arrowGraph words_arrowTrace hm hwide
    obtain ⟨column, hcolumn, -, -, hread, -⟩ := h 1 (hsingle v hv he)
    have hbounds : ∀ c ∈ wideModel.problem.columns, ¬ 1 < c.lower ∧ c.upper = some 5 := by
      decide +kernel
    obtain ⟨hlower, hupper⟩ := hbounds column hcolumn
    exact ⟨_, hread hlower ⟨5, hupper⟩, by decide +kernel, by decide +kernel⟩
  · obtain ⟨v, hv, he, -, h⟩ :=
      parse_listing_of_adjusted built_arrowGraph words_arrowTrace hm htight
    obtain ⟨column, hcolumn, -, hread, -, -⟩ := h 1 (hsingle v hv he)
    have hbounds : ∀ c ∈ tightModel.problem.columns, 1 < c.lower ∧ c.lower = 3 := by
      decide +kernel
    obtain ⟨hlt, hlower⟩ := hbounds column hcolumn
    rw [hread hlt, hlower]
    rfl

end WorstCase
