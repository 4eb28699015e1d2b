import WorstCase.Proofs.Linear.Looser
import WorstCase.Proofs.Model.Complete
import WorstCase.Proofs.Model.Listing
import WorstCase.Proofs.Number.Order

/-!
# Models of larger data

Times and bounds that are larger make a model that allows more and counts it for more. The model has
the same columns and rows up to their coefficients, every assignment that satisfies the model of the
smaller data satisfies it, and the objective is at least as large
(`Scenario.exists_model_of_grows`). This holds of the doubles in the models, since rounding keeps
the order of the data.
-/

namespace WorstCase

/-! ## Alike problems -/

/-- The second row is the first up to its coefficients. -/
structure Row.Alike {α : Type} (r r' : Row α) : Prop where
  eq : r' = { r with terms := r'.terms }
  columns_eq : r'.terms.map Prod.fst = r.terms.map Prod.fst

/-- The second problem is the first up to the coefficients of its objective and its rows. -/
structure Problem.Alike {α : Type} (p p' : Problem α) : Prop where
  name_eq : p'.name = p.name
  direction_eq : p'.direction = p.direction
  columns :
    List.Forall₂ (fun c c' => c' = { c with objective := c'.objective }) p.columns p'.columns
  rows : List.Forall₂ Row.Alike p.rows p'.rows

/-- The second row is the first, or has a larger factor in a limit. -/
def EdgeRow.Grown (r r' : EdgeRow) : Prop :=
  r' = r ∨ r.comparison = .atMost ∧ ∃ k, r.factor ≤ k ∧ k < 2 ^ 64 ∧ r' = { r with factor := k }

namespace EdgeRow.Grown

variable {r r' : EdgeRow}

theorem alike {α : Type} [Scalar α] (h : r.Grown r') (edges : List Nat) :
    (r.toRow edges : Row α).Alike (r'.toRow edges) := by
  rcases h with rfl | ⟨-, k, -, -, rfl⟩
  · exact ⟨rfl, rfl⟩
  · refine ⟨rfl, ?_⟩
    simp only [EdgeRow.toRow, List.map_append, List.map_map]
    rfl

/-- A row with a larger bound is a looser one. -/
theorem looser {α : Type} [Scalar α] {value : α → ℚ}
    (hvalue : ∀ a b, a ≤ b → b < 2 ^ 64 → value (-Scalar.ofNat b) ≤ value (-Scalar.ofNat a))
    (h : r.Grown r') (edges : List Nat) :
    ((r.toRow edges : Row α).read value).Looser ((r'.toRow edges : Row α).read value) := by
  rcases h with rfl | ⟨hle, k, hk, hlt, rfl⟩
  · exact .inl rfl
  · refine .inr ⟨hle, hle, rfl, ?_⟩
    simp only [Row.read, EdgeRow.toRow, List.map_append, List.map_map]
    refine List.rel_append ?_ ?_
    · exact List.forall₂_same.2 fun x _ => ⟨rfl, le_refl _⟩
    · rw [List.forall₂_map_left_iff, List.forall₂_map_right_iff, List.forall₂_same]
      exact fun e _ => ⟨rfl, hvalue _ _ hk hlt⟩

end EdgeRow.Grown

/-! ## Layouts -/

section layouts

variable {α : Type} [Scalar α] {g : FlowGraph} {l l' : Limits} {time time' : Nat → α}
  (hrows : List.Forall₂ EdgeRow.Grown l.rows l'.rows) (honce : l'.once = l.once)

include hrows honce

/-- Larger data change the model only in its numbers. -/
theorem FlowModel.alike_layout :
    (layout g l time).problem.Alike (layout g l' time').problem where
  name_eq := rfl
  direction_eq := rfl
  columns := by
    simp only [layout, honce]
    rw [List.forall₂_map_left_iff, List.forall₂_map_right_iff, List.forall₂_same]
    exact fun id _ => rfl
  rows := by
    simp only [layout]
    rw [List.forall₂_map_left_iff, List.forall₂_map_right_iff]
    exact hrows.imp fun r r' hr => hr.alike _

/-- Larger data make the model looser. -/
theorem FlowModel.looser_layout {value : α → ℚ}
    (hvalue : ∀ a b, a ≤ b → b < 2 ^ 64 → value (-Scalar.ofNat b) ≤ value (-Scalar.ofNat a))
    (hg : g.WellFormed) (htime : ∀ e ∈ g.edges, value (time e.id) ≤ value (time' e.id)) :
    ((layout g l time).problem.read value).Looser ((layout g l' time').problem.read value) where
  columns := by
    simp only [Problem.read, layout, honce, List.map_map]
    rw [List.forall₂_map_left_iff, List.forall₂_map_right_iff, List.forall₂_same]
    exact fun e he => ⟨rfl, htime e (hg.edgesByVertex_perm.mem_iff.1 he)⟩
  rows := by
    simp only [Problem.read, layout, List.map_map]
    rw [List.forall₂_map_left_iff, List.forall₂_map_right_iff]
    exact hrows.imp fun r r' hr => hr.looser hvalue _

end layouts

/-! ## Scenarios with larger data -/

theorem Database.exists_item_of_any {β : Type} {db : Database} {n : Nat} {item : DataItem}
    {d : SubprogramData} (hd : db.data n = .ok d) (find : SubprogramData → Option β)
    {q : β → Bool} (h : (find d).any q) : ∃ x, db.item n item find = .ok x ∧ q x := by
  cases hx : find d with
  | none =>
    rw [hx] at h
    cases h
  | some x =>
    rw [hx] at h
    refine ⟨x, ?_, h⟩
    simp only [Database.item, hd, hx]

namespace Scenario

/-- The scenarios are of one subprogram, and all data of the first is in the second, where it may be
larger. -/
structure Grows (s s' : Scenario) : Prop where
  graph_eq : s'.graph = s.graph
  nest_eq : s'.nest = s.nest
  subprogram_eq : s'.subprogram = s.subprogram
  level_eq : s'.level = s.level
  unitWcet : ∀ unit wcet, s.database.unitWcet s.subprogram unit = .ok wcet →
    ∃ wcet', s'.database.unitWcet s'.subprogram unit = .ok wcet' ∧ wcet ≤ wcet'
  loopBound : ∀ header ancestor bound,
    s.database.loopBound s.subprogram header ancestor = .ok bound →
    ∃ bound', s'.database.loopBound s'.subprogram header ancestor = .ok bound' ∧ bound ≤ bound'
  inlinedWcet : ∀ callee wcet, s.inlinedWcets.get? callee = some wcet →
    ∃ wcet', s'.inlinedWcets.get? callee = some wcet' ∧ wcet ≤ wcet'

section grows

variable {α : Type} {s s' : Scenario} (hgrows : s.Grows s')

include hgrows

/-- A time that is known stays known and becomes no smaller. -/
theorem Grows.wcetOf {e : Edge} {wcet : Nat} (hw : s.wcetOf (α := α) e = .ok wcet) :
    ∃ wcet', s'.wcetOf (α := α) e = .ok wcet' ∧ wcet ≤ wcet' := by
  unfold Scenario.wcetOf at hw ⊢
  split at hw
  · cases hw
    exact ⟨0, rfl, le_refl _⟩
  · split at hw
    · next hunit =>
      cases hw
      obtain ⟨wcet', hunit', hle⟩ := hgrows.unitWcet _ _ hunit
      exact ⟨wcet', by rw [hunit'], hle⟩
    · cases hw
  · split at hw
    · next hinlined =>
      cases hw
      obtain ⟨wcet', hinlined', hle⟩ := hgrows.inlinedWcet _ _ hinlined
      exact ⟨wcet', by rw [hinlined'], hle⟩
    · cases hw
  all_goals
    split at hw
    · next hunit =>
      cases hw
      obtain ⟨wcet', hunit', hle⟩ := hgrows.unitWcet _ _ hunit
      exact ⟨wcet', by rw [hunit'], hle⟩
    · -- an edge that the first data does not time may be timed by the second
      cases hw
      cases hunit' : s'.database.unitWcet s'.subprogram e.id with
      | ok wcet' => exact ⟨wcet', rfl, Nat.zero_le _⟩
      | error error =>
        obtain rfl := Database.item_eq_error hunit'
        exact ⟨0, rfl, le_refl _⟩
    · cases hw

variable (hwords : s'.Words) {p : LoopPartition} {entry : Nat} {h : LoopHeader}

include hwords

/-- A bound that is known stays known and becomes no smaller. -/
theorem Grows.boundRow? (a : Nat) (row? : Option EdgeRow)
    (hrow : s.boundRow? (α := α) p entry h a = .ok row?) :
    ∃ row?', s'.boundRow? (α := α) p entry h a = .ok row?' ∧
      Option.Rel EdgeRow.Grown row? row?' := by
  rcases boundRow?_eq_ok_iff.1 hrow with
    ⟨ha, rfl⟩ | ⟨parent, level, hne, hparent, hlevel,
      ⟨hfar, rfl⟩ | ⟨bound, edges, hnear, hb, hc, rfl⟩⟩
  · exact ⟨none, boundRow?_eq_ok_iff.2 (.inl ⟨ha, rfl⟩), .none⟩
  all_goals rw [← hgrows.nest_eq] at hparent hlevel
  · rw [← hgrows.level_eq] at hfar
    exact ⟨none, boundRow?_eq_ok_iff.2 (.inr ⟨parent, level, hne, hparent, hlevel,
      .inl ⟨hfar, rfl⟩⟩), .none⟩
  · rw [← hgrows.level_eq] at hnear
    obtain ⟨bound', hb', hle⟩ := hgrows.loopBound _ _ _ hb
    refine ⟨_, boundRow?_eq_ok_iff.2 (.inr ⟨parent, level, hne, hparent, hlevel,
      .inr ⟨bound', edges, hnear, hb', hc, rfl⟩⟩), .some (.inr ⟨rfl, bound', hle, ?_, rfl⟩)⟩
    exact hwords.loopBound _ _ _ hb'

theorem Grows.loopLimits {hs : List LoopHeader} {loops : List Limits}
    (hloops : hs.mapM (s.loopLimits (α := α) p entry) = .ok loops) :
    ∃ loops', hs.mapM (s'.loopLimits (α := α) p entry) = .ok loops' ∧
      List.Forall₂ (fun l l' => List.Forall₂ EdgeRow.Grown l.rows l'.rows ∧ l'.once = l.once)
        loops loops' := by
  refine exists_mapM_forall₂ (fun h _ l hl => ?_) hloops
  obtain ⟨l', hl', hcases⟩ := exists_loopLimits (hgrows.boundRow? hwords) hl
  refine ⟨l', hl', ?_⟩
  rcases hcases with rfl | ⟨rows, rows', hrows, rfl, rfl⟩
  · exact ⟨List.forall₂_same.2 fun r _ => .inl rfl, rfl⟩
  · exact ⟨List.rel_filterMap (fun _ _ hr => hr) hrows, rfl⟩

/-- Larger data is enough where the data was, and gives larger limits and times. -/
theorem Grows.exists_model [Scalar α] (hg : s.graph.WellFormed)
    (he : s.graph.entry? = some entry) (hone : ¬ (Scalar.ofNat 1 : α) < Scalar.ofNat 0)
    {m : FlowModel α} (hm : s.model = .ok m) :
    ∃ (l l' : Limits) (time time' : Nat → α), m = FlowModel.layout s.graph l time ∧
      s'.model = .ok (FlowModel.layout s.graph l' time') ∧ s.Times time ∧ s'.Times time' ∧
      List.Forall₂ EdgeRow.Grown l.rows l'.rows ∧ l'.once = l.once := by
  have hg' : s'.graph.WellFormed := hgrows.graph_eq ▸ hg
  have he' : s'.graph.entry? = some entry := hgrows.graph_eq ▸ he
  obtain ⟨p, loops, time, hp, hloops, htime, rfl⟩ := (model_eq_ok_iff hg he hone).1 hm
  obtain ⟨loops', hloops', hgrown⟩ := hgrows.loopLimits hwords hloops
  obtain ⟨hrows, honce⟩ := FlowGraph.limits_of_forall₂ (g := s.graph)
    (R := List.Forall₂ EdgeRow.Grown) (fun rows => List.forall₂_same.2 fun r _ => .inl rfl)
    (fun ha hb => List.rel_append ha hb) hgrown
  have hp' : LoopPartition.ofGraph s'.graph s'.nest = .ok p := by
    rw [hgrows.graph_eq, hgrows.nest_eq, hp]
  rw [← hgrows.nest_eq] at hloops'
  cases hm' : s'.model (α := α) with
  | error error =>
    -- each step that could fail succeeds
    rcases model_eq_error hg' he' hone hm' with ⟨tag, htag, -⟩ | ⟨p', hp'', hfail⟩
    · rw [hp'] at htag
      cases htag
    · rw [hp'] at hp''
      cases hp''
      rcases hfail with ⟨h, hh, hlimits⟩ | ⟨e, hmem, hwcet⟩
      · obtain ⟨l, -, hl⟩ := exists_mem_of_mapM hloops' hh
        rw [hl] at hlimits
        cases hlimits
      · rw [hgrows.graph_eq] at hmem
        obtain ⟨wcet, hw, -⟩ := htime e hmem
        obtain ⟨wcet', hw', -⟩ := hgrows.wcetOf hw
        rw [hw'] at hwcet
        cases hwcet
  | ok m' =>
    obtain ⟨p', ls, time', hp'', hls, htime', rfl⟩ := (model_eq_ok_iff hg' he' hone).1 hm'
    rw [hp'] at hp''
    cases hp''
    rw [hloops'] at hls
    cases hls
    rw [hgrows.graph_eq]
    exact ⟨_, _, time, time', rfl, rfl, htime, htime', hrows, honce⟩

/-- Rounding keeps the order of the times. -/
theorem Grows.value_time_le {time time' : Nat → Float} (htime : s.Times time)
    (htime' : s'.Times time') (e : Edge) (he : e ∈ s.graph.edges) :
    Double.value (time e.id) ≤ Double.value (time' e.id) := by
  obtain ⟨wcet, hw, heq⟩ := htime e he
  obtain ⟨wcet', hw', heq'⟩ := htime' e (hgrows.graph_eq ▸ he)
  obtain ⟨larger, hlarger, hle⟩ := hgrows.wcetOf hw
  obtain rfl : larger = wcet' := Except.ok.inj (hlarger.symm.trans hw')
  rw [heq, heq']
  exact Double.value_ofNat_mono hle (hwords.wcetOf_lt hw')

end grows

/-- Growth is decided by comparing entries. -/
theorem grows_of_data {s : Scenario} {database : Database} {d d' : SubprogramData}
    (hd : s.database.data s.subprogram = .ok d) (hd' : database.data s.subprogram = .ok d')
    (hunit : ∀ q ∈ d.unitWcets.entries, (d'.unitWcets.get? q.1).any (q.2 ≤ ·))
    (hbound : ∀ q ∈ d.loopBounds.entries, ∀ b ∈ q.2.entries,
      (d'.loopBound? q.1 b.1).any (b.2 ≤ ·)) :
    s.Grows { s with database } where
  graph_eq := rfl
  nest_eq := rfl
  subprogram_eq := rfl
  level_eq := rfl
  unitWcet unit wcet h := by
    obtain ⟨wcet', hw, hle⟩ := Database.exists_item_of_any hd' (·.unitWcets.get? unit)
      (hunit _ (mem_of_lookup (Database.find_of_item hd h)))
    exact ⟨wcet', hw, of_decide_eq_true hle⟩
  loopBound header ancestor bound h := by
    obtain ⟨bounds, hbounds, hmem⟩ := Database.mem_of_loopBound hd h
    obtain ⟨bound', hb, hle⟩ := Database.exists_item_of_any hd'
      (·.loopBound? header ancestor) (hbound _ hbounds _ hmem)
    exact ⟨bound', hb, of_decide_eq_true hle⟩
  inlinedWcet callee wcet h := ⟨wcet, h, le_refl _⟩

/-- Where the data of a scenario has a model, so does larger data. The models have the same columns
up to what they count for and the same rows up to coefficients, and values that are not negative and
satisfy the first model satisfy the second, where they count for as much or more. -/
theorem exists_model_of_grows {sub : Subprogram} (hsub : sub.Made) {s s' : Scenario}
    (hgraph : s.graph = sub.graph) (hnest : s.nest = sub.nest) (hgrows : s.Grows s')
    (hwords : s'.Words) {m : FlowModel Float} (hm : s.model = .ok m) :
    ∃ m' : FlowModel Float, s'.model = .ok m' ∧ m'.edges = m.edges ∧
      m.problem.Alike m'.problem ∧
      ∀ values : List ℚ, (∀ v ∈ values, 0 ≤ v) →
        (∀ slack, (m.problem.read Double.value).isSatisfiedBy slack values →
          (m'.problem.read Double.value).isSatisfiedBy slack values) ∧
        ((m.problem.read Double.value).Feasible values →
          (m'.problem.read Double.value).Feasible values) ∧
        (m.problem.read Double.value).objectiveAt values ≤
          (m'.problem.read Double.value).objectiveAt values := by
  obtain ⟨t, hn⟩ := hsub.found
  rw [← hgraph, ← hnest] at hn
  obtain ⟨l, l', time, time', rfl, hm', htime, htime', hrows, honce⟩ :=
    hgrows.exists_model hwords hn.wellFormed hn.entry_eq (by decide) hm
  have hlooser := FlowModel.looser_layout hrows honce
    (fun _ _ hab hb => Double.value_neg_ofNat_anti hab hb) hn.wellFormed
    (hgrows.value_time_le hwords htime htime')
  refine ⟨_, hm', rfl, FlowModel.alike_layout hrows honce, fun values hv => ?_⟩
  exact ⟨fun slack => hlooser.isSatisfiedBy hv, hlooser.feasible hv, hlooser.objectiveAt_le hv⟩

open Sample in
/-- In the sample with nested loops, let the inner loop iterate nine times for each iteration of the
outer loop instead of five, and let the first edge take seven units of time instead of two. -/
theorem exists_model_of_grows_nestedMain : ∃ m m' : FlowModel Float,
    let s := ofSubprogram nestedMain mainDatabase
    let s' := { s with
      database := ⟨NatMap.empty.insert mainId ((mainData.setLoopBound 3 2 9).setUnitWcet 1 7)⟩ }
    nestedMain.Made ∧ s.Grows s' ∧ s'.Words ∧ s.model = .ok m ∧ s'.model = .ok m' ∧
      m.problem.Alike m'.problem ∧
      ∀ values : List ℚ, (∀ v ∈ values, 0 ≤ v) →
        (m.problem.read Double.value).Feasible values →
          (m'.problem.read Double.value).Feasible values ∧
          (m.problem.read Double.value).objectiveAt values ≤
            (m'.problem.read Double.value).objectiveAt values := by
  have hd : mainDatabase.data mainId = .ok mainData := rfl
  let database : Database :=
    ⟨NatMap.empty.insert mainId ((mainData.setLoopBound 3 2 9).setUnitWcet 1 7)⟩
  have hd' : database.data mainId = .ok ((mainData.setLoopBound 3 2 9).setUnitWcet 1 7) := rfl
  have hgrows : (ofSubprogram nestedMain mainDatabase).Grows
      { ofSubprogram nestedMain mainDatabase with database } :=
    grows_of_data hd hd' (by decide) (by decide)
  have hwords := words_nestedMain hd' (by decide) (by decide)
  obtain ⟨m, hm⟩ : ∃ m : FlowModel Float,
    (ofSubprogram nestedMain mainDatabase).model = .ok m := ⟨_, rfl⟩
  obtain ⟨m', hm', -, halike, hvalues⟩ :=
    exists_model_of_grows made_nestedMain rfl rfl hgrows hwords hm
  exact ⟨m, m', made_nestedMain, hgrows, hwords, hm, hm', halike,
    fun values hv hf => ⟨(hvalues values hv).2.1 hf, (hvalues values hv).2.2⟩⟩

end Scenario

end WorstCase
