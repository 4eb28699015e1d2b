import WorstCase.Proofs.Model.Complete

/-!
# Bounds that reach less far

Where bounds may reach fewer levels outwards, some rows of bounds are left out of a model and
nothing else changes (`Scenario.exists_model_of_level_le`). A bound relative to the parent reaches
one level and is left out only if none may reach that far.
-/

namespace WorstCase

theorem reduceOption_sublist {β : Type} {xs ys : List (Option β)}
    (h : List.Forall₂ (fun x y => y = none ∨ y = x) xs ys) :
    ys.reduceOption.Sublist xs.reduceOption := by
  induction h with
  | nil => exact .refl _
  | @cons x y xs ys hxy _ ih =>
    cases x with
    | none =>
      obtain rfl : y = none := hxy.elim id id
      rwa [List.reduceOption_cons_of_none, List.reduceOption_cons_of_none]
    | some r =>
      rw [List.reduceOption_cons_of_some]
      rcases hxy with rfl | rfl
      · rw [List.reduceOption_cons_of_none]
        exact ih.cons r
      · rw [List.reduceOption_cons_of_some]
        exact ih.cons_cons r

namespace Scenario

variable {α : Type} {s : Scenario} {p : LoopPartition} {entry k : Nat} {h : LoopHeader}

/-- With less reach a bound gives the same row or none. -/
theorem boundRow?_of_level_le (hk : k ≤ s.level) (a : Nat) (row? : Option EdgeRow)
    (hrow : s.boundRow? (α := α) p entry h a = .ok row?) :
    ∃ row?', { s with level := k }.boundRow? (α := α) p entry h a = .ok row?' ∧
      (row?' = none ∨ row?' = row?) := by
  rcases boundRow?_eq_ok_iff.1 hrow with ⟨ha, -⟩ | ⟨parent, level, hne, hparent, hlevel, hreach⟩
  · exact ⟨none, boundRow?_eq_ok_iff.2 (.inl ⟨ha, rfl⟩), .inl rfl⟩
  · by_cases hfar : k < h.level - level
    · exact ⟨none, boundRow?_eq_ok_iff.2 (.inr ⟨parent, level, hne, hparent, hlevel,
        .inl ⟨hfar, rfl⟩⟩), .inl rfl⟩
    · rcases hreach with ⟨hfar', -⟩ | ⟨bound, edges, -, hb, hc, rfl⟩
      · exact absurd (hk.trans_lt hfar') hfar
      · exact ⟨_, boundRow?_eq_ok_iff.2 (.inr ⟨parent, level, hne, hparent, hlevel,
          .inr ⟨bound, edges, Nat.not_lt.1 hfar, hb, hc, rfl⟩⟩), .inr rfl⟩

/-- All rows that loops add are rows of loops. -/
theorem group_of_loopLimits {l : Limits} (hl : s.loopLimits (α := α) p entry h = .ok l) :
    ∀ r ∈ l.rows, r.group = .loop := by
  intro r hr
  unfold loopLimits at hl
  split at hl
  · cases hl
    cases hr
  · split at hl
    · cases hl
      unfold entryLimits at hr
      split at hr
      · cases hr
      · rw [List.mem_singleton.1 hr]
        rfl
    · split at hl
      · split at hl
        · cases hl
        · cases hl
          rw [List.mem_singleton.1 hr]
          rfl
      · cases hrows : (p.ancestorsOf h.id).mapM (s.boundRow? (α := α) p entry h) with
        | error e =>
          rw [hrows] at hl
          cases hl
        | ok rows =>
          rw [hrows] at hl
          cases hl
          obtain ⟨a, -, hrow⟩ := exists_step_of_mapM hrows (List.reduceOption_mem_iff.1 hr)
          obtain ⟨⟩ := boundRow_of_boundRow? hrow
          rfl

/-- What loops add with less reach: some of the rows, and the same edges that are taken at most
once. -/
theorem exists_loopLimits_of_level_le (hk : k ≤ s.level) {hs : List LoopHeader}
    {loops : List Limits} (hloops : hs.mapM (s.loopLimits (α := α) p entry) = .ok loops) :
    ∃ loops', hs.mapM ({ s with level := k }.loopLimits (α := α) p entry) = .ok loops' ∧
      List.Forall₂ (fun l l' => l'.rows.Sublist l.rows ∧ l'.once = l.once) loops loops' := by
  refine exists_mapM_forall₂ (fun h _ l hl => ?_) hloops
  obtain ⟨l', hl', hcases⟩ := exists_loopLimits (boundRow?_of_level_le hk) hl
  refine ⟨l', hl', ?_⟩
  rcases hcases with rfl | ⟨rows, rows', hrows, rfl, rfl⟩
  · exact ⟨.refl _, rfl⟩
  · exact ⟨reduceOption_sublist hrows, rfl⟩

/-- Apart from the rows of loops there are those of the vertices. -/
theorem filter_rows_limits {α : Type} [Scalar α] {g : FlowGraph} {loops : List Limits}
    (h : ∀ l ∈ loops, ∀ r ∈ l.rows, r.group = .loop) (edges : List Nat) :
    ((g.limits loops).rows.map (·.toRow edges : EdgeRow → Row α)).filter (·.group != .loop) =
      g.flowRows.map (·.toRow edges) := by
  have hflow : ∀ row ∈ g.flowRows.map (·.toRow edges : EdgeRow → Row α), row.group != .loop := by
    intro row hrow
    obtain ⟨r, hr, rfl⟩ := List.mem_map.1 hrow
    obtain ⟨v, -, rfl⟩ := List.mem_map.1 hr
    rfl
  have hloop : ∀ row ∈ (loops.flatMap (·.rows)).map (·.toRow edges : EdgeRow → Row α),
      ¬ (row.group != .loop) := by
    intro row hrow
    obtain ⟨r, hr, rfl⟩ := List.mem_map.1 hrow
    obtain ⟨l, hl, hr⟩ := List.mem_flatMap.1 hr
    simp only [EdgeRow.toRow, h l hl r hr, bne_self_eq_false, Bool.false_eq_true, not_false_eq_true]
  rw [FlowGraph.limits, List.map_append, List.filter_append, List.filter_eq_self.2 hflow,
    List.filter_eq_nil_iff.2 hloop, List.append_nil]

/-- A bound relative to the parent reaches one level. -/
theorem exists_boundRow_parent {α : Type} [Scalar α] {s : Scenario} {t : DepthFirstTree}
    {p : LoopPartition} (hn : LoopNest.Found s.graph t s.nest)
    (hp : LoopPartition.ofGraph s.graph s.nest = .ok p) (hlevel : 1 ≤ s.level) {m : FlowModel α}
    (hm : s.model = .ok m) {h : LoopHeader} (hl : s.Limited t.root h) (hs : h.selfLoop = false) :
    ∃ r, s.BoundRow p t.root h h.id r ∧ r.toRow m.edges ∈ m.problem.rows := by
  have hh := hn.mem_headersInward.2 hl.header
  obtain ⟨hback, hne⟩ := (limited_iff hn hp hh).1 hl
  obtain ⟨parent, hparent⟩ := hn.exists_parent? (Option.isSome_of_eq_some hl.header) hne
  obtain ⟨level, hlevel', heq⟩ := hn.level_eq_succ hparent (LoopNest.level_of_header? hl.header)
  have ha : h.id ∈ p.ancestorsOf h.id := by
    rw [LoopPartition.ancestorsOf_eq hn.toFoundFrom hp hl.header]
    exact List.mem_cons_self
  obtain ⟨r, hr⟩ := exists_boundRow hn.entry_eq hm hp hh hne hback hs ha hne hparent hlevel'
    (by omega)
  obtain ⟨p', time, hp', hdesc, -⟩ := described_model hn.wellFormed hn.entry_eq hm
  rw [hp] at hp'
  cases hp'
  exact ⟨r, hr, (hdesc.rows_iff _).2 ⟨r, .inr ⟨h, hh, .bound hne hback hs ha hr⟩, rfl⟩⟩

/-- With less reach a model has some of the rows, and is the same otherwise. Rows of vertices are
not left out, nor is the row of a loop relative to its parent if a bound may reach one level. -/
theorem exists_model_of_level_le {sub : Subprogram} (hsub : sub.Made) {s : Scenario}
    (hgraph : s.graph = sub.graph) (hnest : s.nest = sub.nest) {k : Nat} (hk : k ≤ s.level)
    {m : FlowModel Float} (hm : s.model = .ok m) :
    ∃ rows, { s with level := k }.model = .ok { m with problem := { m.problem with rows } } ∧
      rows.Sublist m.problem.rows ∧
      rows.filter (·.group != .loop) = m.problem.rows.filter (·.group != .loop) ∧
      (1 ≤ k → ∀ entry p h, s.graph.entry? = some entry →
        LoopPartition.ofGraph s.graph s.nest = .ok p → s.Limited entry h → h.selfLoop = false →
        ∃ r, s.BoundRow p entry h h.id r ∧ r.toRow m.edges ∈ rows) := by
  obtain ⟨t, hn⟩ := hsub.found
  rw [← hgraph, ← hnest] at hn
  have hone : ¬ (Scalar.ofNat 1 : Float) < Scalar.ofNat 0 := by decide
  obtain ⟨p, loops, time, hp, hloops, htime, rfl⟩ :=
    (model_eq_ok_iff hn.wellFormed hn.entry_eq hone).1 hm
  obtain ⟨loops', hloops', hfewer⟩ := exists_loopLimits_of_level_le hk hloops
  obtain ⟨hrows, honce⟩ := FlowGraph.limits_of_forall₂ (g := s.graph)
    (R := fun rows rows' => rows'.Sublist rows) List.Sublist.refl List.Sublist.append hfewer
  let rows : List (Row Float) :=
    (s.graph.limits loops').rows.map (·.toRow (s.graph.edgesByVertex.map (·.id)))
  have hmodel : { s with level := k }.model = .ok
      { FlowModel.layout s.graph (s.graph.limits loops) time with
        problem :=
          { (FlowModel.layout s.graph (s.graph.limits loops) time).problem with rows } } := by
    refine (model_eq_ok_iff (s := { s with level := k }) hn.wellFormed hn.entry_eq hone).2
      ⟨p, loops', time, hp, hloops', htime, ?_⟩
    simp only [FlowModel.layout, honce, rows]
  have hgroup : ∀ {s' : Scenario} {ls : List Limits},
      s.nest.headersInward.mapM (s'.loopLimits (α := Float) p t.root) = .ok ls →
      ∀ l ∈ ls, ∀ r ∈ l.rows, r.group = .loop := by
    intro s' ls hls l hl
    obtain ⟨h, -, hlimits⟩ := exists_step_of_mapM hls hl
    exact group_of_loopLimits hlimits
  refine ⟨rows, hmodel, hrows.map _, ?_, fun hone' entry p' h he hp' hl hs => ?_⟩
  · exact (filter_rows_limits (hgroup hloops') _).trans (filter_rows_limits (hgroup hloops) _).symm
  · obtain rfl : t.root = entry := Option.some.inj (hn.entry_eq.symm.trans he)
    rw [hp] at hp'
    cases hp'
    obtain ⟨r, ⟨hne, hpar, hlevel, hnear, hb, hc⟩, hrow⟩ := exists_boundRow_parent
      (s := { s with level := k }) hn hp hone' hmodel ⟨hl.header, hl.ne_entry, hl.iterated⟩ hs
    exact ⟨_, .relative hne hpar hlevel (Nat.le_trans hnear hk) hb hc, hrow⟩

open Sample in
/-- In the sample with nested loops, the bound of the inner loop relative to the entry reaches two
levels. It is left out where bounds reach one level, and all other rows stay. -/
theorem exists_model_of_level_le_nestedMain : ∃ (m : FlowModel Float) (rows : List (Row Float)),
    let s := ofSubprogram nestedMain mainDatabase
    nestedMain.Made ∧ 1 ≤ s.level ∧ s.model = .ok m ∧
      { s with level := 1 }.model = .ok { m with problem := { m.problem with rows } } ∧
      rows.Sublist m.problem.rows ∧ m.problem.rows.length = 9 ∧ rows.length = 8 := by
  obtain ⟨m, hm⟩ : ∃ m : FlowModel Float,
    (ofSubprogram nestedMain mainDatabase).model = .ok m := ⟨_, rfl⟩
  obtain ⟨rows, hrows, hsub, -⟩ := exists_model_of_level_le made_nestedMain
    (s := ofSubprogram nestedMain mainDatabase) rfl rfl (k := 1) (by decide) hm
  have hall : (Scenario.model (α := Float) (ofSubprogram nestedMain mainDatabase)).map
    (fun m => m.problem.rows.length) = .ok 9 := rfl
  have hnear : (Scenario.model (α := Float)
      { ofSubprogram nestedMain mainDatabase with level := 1 }).map
        (fun m => m.problem.rows.length) = .ok 8 := rfl
  rw [hm] at hall
  rw [hrows] at hnear
  exact ⟨m, rows, made_nestedMain, by decide, hm, hrows, hsub, Except.ok.inj hall,
    Except.ok.inj hnear⟩

end Scenario

end WorstCase
