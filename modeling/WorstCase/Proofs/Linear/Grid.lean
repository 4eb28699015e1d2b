import WorstCase.Linear.Grid
import WorstCase.Proofs.Action
import WorstCase.Proofs.Fold
import WorstCase.Proofs.Linear.Phases

/-!
# Tableaux and their grids

A tableau is a grid once its equations are written as lists (`Tableau.grid`). If all of its rows
have the length that they should have, each step of the simplex method on the grid finds every place
that it looks at and does what the step on the tableau does: the pivot (`Tableau.grid_pivot`), its
column and its row (`Tableau.grid_entering?`, `Tableau.grid_leaving?`), pivoting to the end
(`Tableau.grid_iterate`), and both phases (`Simplex.grid_phaseOne`, `Simplex.grid_phaseTwo`). What
is needed for the next step, that the shape is still there, goes with them (`Tableau.Keeps`).
-/

namespace WorstCase

namespace Grid

section Places

variable {β : Type}

theorem atPlace_eq_getD {xs : List β} {place : Nat} (h : place < xs.length) (d : β) :
    (atPlace xs place : Except Stop β) = .ok (xs.getD place d) :=
  atPlace_eq_ok (by rw [List.getElem?_eq_getElem h, List.getD_eq_getElem _ _ h])

theorem changeAt_eq_ok {xs : List β} {place : Nat} (h : place < xs.length) (f : β → β) :
    changeAt xs place f = .ok (xs.modify place f) :=
  if_pos h

theorem putAt_eq_ok {xs : List β} {place : Nat} (h : place < xs.length) (x : β) :
    putAt xs place x = .ok (xs.set place x) := by
  rw [putAt, changeAt_eq_ok h, List.set_eq_modify]

theorem merge_eq_zipWith (f : β → β → β) {xs ys : List β} (h : xs.length = ys.length) :
    merge f xs ys = List.zipWith f xs ys := by
  induction xs generalizing ys with
  | nil => rfl
  | cons x xs ih =>
    cases ys with
    | nil => cases h
    | cons y ys => exact congrArg (f x y :: ·) (ih (Nat.succ.inj h))

end Places

end Grid

/-! ## Grids of tableaux -/

variable {α : Type}

/-- The coefficients of the equation and then its constant. -/
def Equation.entries (e : Equation α) : List α :=
  e.coefficients ++ [e.constant]

/-- The tableau as a grid. -/
def Tableau.grid (t : Tableau α) : Grid α where
  rows := t.rows.map (·.equation.entries)
  objective := t.objective.entries
  basic := t.rows.map (·.basic)
  width := t.width
  artificialStart := t.artificialStart

namespace Equation

open Grid

variable {e source : Equation α} {width : Nat}

theorem length_entries (h : e.coefficients.length = width) : e.entries.length = width + 1 := by
  rw [entries, List.length_append, h]
  rfl

/-- The constant stands right behind the coefficients. -/
theorem atPlace_constant (h : e.coefficients.length = width) :
    (atPlace e.entries width : Except Grid.Stop α) = .ok e.constant :=
  atPlace_eq_ok (by rw [entries, ← h, List.getElem?_concat_length])

variable [Scalar α]

theorem atPlace_coefficient (h : e.coefficients.length = width) {j : Nat} (hj : j < width) :
    (atPlace e.entries j : Except Grid.Stop α) = .ok (e.coefficient j) := by
  have hlt : j < e.coefficients.length := h ▸ hj
  refine atPlace_eq_ok ?_
  rw [entries, List.getElem?_append_left hlt, coefficient, List.getD_eq_getElem?_getD,
    List.getElem?_eq_getElem hlt, Option.getD_some]

theorem entries_normalise (e : Equation α) (c : Nat) :
    (e.normalise c).entries = e.entries.map (· / e.coefficient c) := by
  rw [entries, entries, List.map_append]
  rfl

omit [Scalar α] in
theorem zipWith_entries (f : α → α → α) (h : e.coefficients.length = source.coefficients.length) :
    List.zipWith f e.entries source.entries =
      entries ⟨List.zipWith f e.coefficients source.coefficients, f e.constant source.constant⟩ :=
  List.zipWith_append h

theorem entries_addMultiple (h : e.coefficients.length = source.coefficients.length) (factor : α) :
    (e.addMultiple factor source).entries =
      merge (fun reduced value => reduced + factor * value) e.entries source.entries := by
  rw [merge_eq_zipWith _ (by rw [length_entries h, length_entries rfl]), zipWith_entries _ h]
  rfl

/-- Eliminating in a row of the grid finds all its places, and does what it does to an equation. -/
theorem eliminate_entries (h : e.coefficients.length = width)
    (hsource : source.coefficients.length = width) (tiny : α) {c : Nat} (hc : c < width) :
    Grid.eliminate tiny source.entries c e.entries = .ok (e.eliminate tiny source c).entries := by
  have hlen : e.entries.length = source.entries.length := by
    rw [length_entries h, length_entries hsource]
  rw [Grid.eliminate, atPlace_coefficient h hc, ok_bind, Equation.eliminate]
  split
  · rfl
  · simp only [merge_eq_zipWith _ hlen, zipWith_entries _ (h.trans hsource.symm)]
    rfl

end Equation

namespace Tableau

open Grid Equation

variable {t : Tableau α}

theorem atPlace_grid_rows {r : Nat} {row : TableauRow α} (h : t.rows[r]? = some row) :
    (atPlace t.grid.rows r : Except Grid.Stop (List α)) = .ok row.equation.entries :=
  atPlace_eq_ok (by rw [grid, List.getElem?_map, h, Option.map_some])

theorem getElem?_grid_basic {r : Nat} {row : TableauRow α} (h : t.rows[r]? = some row) :
    t.grid.basic[r]? = some row.basic := by
  rw [grid, List.getElem?_map, h, Option.map_some]

/-- Another tableau with rows, variables and artificial variables as many as this one has. -/
structure Keeps (t t' : Tableau α) : Prop where
  shaped : t'.Shaped
  width_eq : t'.width = t.width
  start_eq : t'.artificialStart = t.artificialStart
  length_eq : t'.rows.length = t.rows.length

theorem Keeps.trans {t' t'' : Tableau α} (h : t.Keeps t') (h' : t'.Keeps t'') : t.Keeps t'' :=
  ⟨h'.shaped, h'.width_eq.trans h.width_eq, h'.start_eq.trans h.start_eq,
    h'.length_eq.trans h.length_eq⟩

theorem Shaped.keeps (ht : t.Shaped) : t.Keeps t :=
  ⟨ht, rfl, rfl, rfl⟩

variable [Scalar α]

/-! ## Pivots -/

theorem basic_grid_pivot (t : Tableau α) (tiny : α) (r c : Nat) :
    (t.pivot tiny r c).grid.basic = t.grid.basic.set r c := by
  refine List.ext_getElem? fun i => ?_
  cases hrow : t.rows[r]? with
  | none =>
    have hle := List.getElem?_eq_none_iff.1 hrow
    simp [pivot, grid, List.set_eq_of_length_le, hle]
  | some row =>
    obtain ⟨hr, -⟩ := List.getElem?_eq_some_iff.1 hrow
    simp only [pivot, hrow, grid, List.getElem?_map, List.getElem?_mapIdx, List.getElem?_set,
      List.length_map]
    by_cases hi : r = i
    · subst hi
      simp [hr]
    · cases t.rows[i]? <;> simp [hi, Ne.symm hi]

/-- A pivot on the grid is a pivot of the tableau. -/
theorem grid_pivot (ht : t.Shaped) (tiny : α) {r c : Nat} (hr : r < t.rows.length)
    (hc : c < t.width) : t.grid.pivot tiny r c = .ok (t.pivot tiny r c).grid := by
  obtain ⟨row, hrow⟩ : ∃ row, t.rows[r]? = some row := ⟨t.rows[r], List.getElem?_eq_getElem hr⟩
  have hlen := ht.row_length row (List.mem_of_getElem? hrow)
  have hsource : (row.equation.normalise c).coefficients.length = t.width := by
    rw [length_normalise, hlen]
  have hrows : t.grid.rows.zipIdx.mapM (clear tiny (row.equation.normalise c).entries r c) =
      .ok (t.pivot tiny r c).grid.rows := by
    simp only [pivot, hrow, grid, List.zipIdx_map, List.mapIdx_eq_zipIdx_map, List.map_map]
    refine mapM_map_eq_ok fun other hother => ?_
    have hmem := List.mem_of_getElem? (List.mem_zipIdx_iff_getElem?.1 hother)
    dsimp only [clear, Prod.map, id, Function.comp]
    split
    · rfl
    · exact eliminate_entries (ht.row_length other.1 hmem) hsource tiny hc
  have hobjective : Grid.eliminate tiny (row.equation.normalise c).entries c t.grid.objective =
      .ok (t.pivot tiny r c).grid.objective := by
    rw [grid, eliminate_entries ht.objective_length hsource tiny hc]
    simp only [grid, pivot, hrow]
  have hput : putAt t.grid.basic r c = .ok (t.pivot tiny r c).grid.basic := by
    rw [basic_grid_pivot]
    exact putAt_eq_ok (by rwa [grid, List.length_map]) c
  rw [Grid.pivot, atPlace_grid_rows hrow, ok_bind, atPlace_coefficient hlen hc, ok_bind,
    ← entries_normalise]
  simp only [hrows, hobjective, hput, ok_bind]
  simp only [pivot, hrow]
  rfl

/-- A search through the first entries of a list, by their places. -/
theorem findIdx?_take_eq_find? {β : Type} {xs : List β} {n : Nat} (h : n ≤ xs.length)
    (test : β → Bool) (d : β) :
    (xs.take n).findIdx? test = (List.range n).find? fun j => test (xs.getD j d) := by
  induction n with
  | zero => rfl
  | succ n ih =>
    have hlen : (xs.take n).length = n := List.length_take_of_le (Nat.le_of_succ_le h)
    have hget : xs.getD n d = xs[n] := List.getD_eq_getElem _ _ h
    rw [List.take_add_one, List.findIdx?_append, List.range_succ, List.find?_append,
      ih (Nat.le_of_succ_le h), List.getElem?_eq_getElem h, hlen]
    congr 1
    rw [Option.toList_some, List.findIdx?_cons, List.find?_cons, hget]
    cases test xs[n] <;> simp

theorem lt_of_findIdx?_take {β : Type} {xs : List β} {n c : Nat} {test : β → Bool}
    (h : (xs.take n).findIdx? test = some c) : c < n := by
  obtain ⟨hlt, -⟩ := List.findIdx?_eq_some_iff_getElem.1 h
  rw [List.length_take] at hlt
  exact Nat.lt_of_lt_of_le hlt (Nat.min_le_left _ _)

/-- The grid finds the entering column of the tableau. -/
theorem grid_entering? (ht : t.Shaped) (tiny : α) {allowed : Nat} (h : allowed ≤ t.width) :
    t.grid.entering? tiny allowed = .ok (t.entering? tiny allowed) := by
  rw [entering?, findIdx?_take_eq_find? (ht.objective_length ▸ h) _ 0]
  refine findM?_eq_ok_find? fun column hcolumn => ?_
  have hlt : column < t.width := Nat.lt_of_lt_of_le (List.mem_range.1 hcolumn) h
  rw [grid, atPlace_coefficient ht.objective_length hlt]
  rfl

/-- The row and the ratio of a limit. -/
def Limit.place (l : Limit α) : Nat × α :=
  (l.row, l.ratio)

theorem tighten_cases (tiny : α) (best : Option (Limit α)) (new : Limit α) :
    Limit.tighten tiny best new = new ∨ some (Limit.tighten tiny best new) = best := by
  unfold Limit.tighten
  split
  · exact .inl rfl
  · split
    · exact .inl rfl
    · exact .inr rfl

/-- The basic variable of the best limit so far is that of its row. -/
def BestOf (t : Tableau α) (best : Option (Limit α)) : Prop :=
  ∀ l ∈ best, t.grid.basic[l.row]? = some l.basic

/-- The best limit so far belongs to a row of the tableau. -/
theorem BestOf.after {best : Option (Limit α)} (h : t.BestOf best) (tiny : α) (c : Nat)
    {row : TableauRow α × Nat} (hrow : row ∈ t.rows.zipIdx) :
    t.BestOf (Limit.after tiny c best row) := by
  unfold Limit.after
  split
  · exact h
  · rintro l hl
    obtain rfl := Option.some.inj hl
    rcases tighten_cases tiny best _ with hnew | hold
    · rw [hnew]
      exact getElem?_grid_basic (List.mem_zipIdx_iff_getElem?.1 hrow)
    · exact h _ hold.symm

/-- One row of the ratio test goes on the grid as in the tableau. -/
theorem grid_limit (ht : t.Shaped) (tiny : α) {c : Nat} (hc : c < t.width)
    {row : TableauRow α × Nat} (hrow : row ∈ t.rows.zipIdx) {best : Option (Limit α)}
    (hbest : t.BestOf best) :
    limit tiny t.grid c (best.map Limit.place) (row.1.equation.entries, row.2) =
      .ok ((Limit.after tiny c best row).map Limit.place) := by
  have hat := List.mem_zipIdx_iff_getElem?.1 hrow
  have hlen := ht.row_length row.1 (List.mem_of_getElem? hat)
  rw [limit, atPlace_coefficient hlen hc, ok_bind, Limit.after]
  split
  · rfl
  · have hconstant : (atPlace row.1.equation.entries t.grid.width : Except Grid.Stop α) =
        .ok row.1.equation.constant := atPlace_constant hlen
    simp only [hconstant, ok_bind]
    generalize row.1.equation.constant / row.1.equation.coefficient c = ratio
    cases best with
    | none => rfl
    | some l =>
      -- the grid looks up the basic variables that the limits of the tableau carry with them
      simp only [Option.map_some, Limit.place, Limit.tighten,
        atPlace_eq_ok (getElem?_grid_basic hat), atPlace_eq_ok (hbest l rfl), ok_bind]
      by_cases hlt : ratio < l.ratio - tiny
      · simp [hlt, pure, Except.pure]
      · by_cases hle : ratio ≤ l.ratio + tiny
        · by_cases hb : row.1.basic < l.basic <;> simp [hlt, hle, hb, pure, Except.pure]
        · simp [hlt, hle, pure, Except.pure]

/-- The grid finds the leaving row of the tableau. -/
theorem grid_leaving? (ht : t.Shaped) (tiny : α) {c : Nat} (hc : c < t.width) :
    t.grid.leaving? tiny c = .ok (t.leaving? tiny c) := by
  have hrows : t.grid.rows.zipIdx = t.rows.zipIdx.map (Prod.map (·.equation.entries) id) :=
    List.zipIdx_map
  have hnone : t.BestOf none := fun l hl => absurd hl (Option.not_mem_none l)
  have hfold : t.rows.zipIdx.foldlM (fun best row => limit tiny t.grid c best
      (Prod.map (fun row : TableauRow α => row.equation.entries) id row)) none =
        .ok ((t.rows.zipIdx.foldl (Limit.after tiny c) none).map Limit.place) :=
    (foldlM_eq_ok_foldl (Option.map Limit.place) t.BestOf hnone fun row hrow best hbest =>
      ⟨grid_limit ht tiny hc hrow hbest, hbest.after tiny c hrow⟩).1
  rw [Grid.leaving?, hrows, List.foldlM_map, leaving?_eq_foldl, hfold, ok_bind, Option.map_map]
  rfl

theorem lt_of_leaving? {tiny : α} {c r : Nat} (h : t.leaving? tiny c = some r) :
    r < t.rows.length := by
  have hbest : t.BestOf (t.rows.zipIdx.foldl (Limit.after tiny c) none) :=
    List.foldlRecOn _ _ (fun l hl => absurd hl (Option.not_mem_none l)) fun best hbest row hrow =>
      hbest.after tiny c hrow
  rw [leaving?_eq_foldl] at h
  obtain ⟨l, hl, rfl⟩ := Option.map_eq_some_iff.1 h
  have hlt := (List.getElem?_eq_some_iff.1 (hbest l hl)).1
  rwa [grid, List.length_map] at hlt

theorem lt_of_entering? {tiny : α} {allowed c : Nat} (h : t.entering? tiny allowed = some c) :
    c < allowed :=
  lt_of_findIdx?_take h

theorem Shaped.pivot_at (ht : t.Shaped) (tiny : α) {r c : Nat} (hr : r < t.rows.length)
    (hc : c < t.width) : (t.pivot tiny r c).Shaped := by
  have hrows : t.rows = t.rows.take r ++ t.rows[r] :: t.rows.drop (r + 1) := by
    rw [List.getElem_cons_drop, List.take_append_drop]
  have hlen : (t.rows.take r).length = r := List.length_take_of_le (Nat.le_of_lt hr)
  have hshaped := ht.pivot hrows tiny hc
  rwa [hlen] at hshaped

theorem length_rows_pivot (tiny : α) (r c : Nat) :
    (t.pivot tiny r c).rows.length = t.rows.length := by
  unfold pivot
  split
  · rfl
  · exact List.length_mapIdx

/-! ## Phases -/

/-- Pivoting on the grid, to the end or out of budget, is pivoting of the tableau. -/
theorem grid_iterate (ht : t.Shaped) (tiny : α) {allowed : Nat} (h : allowed ≤ t.width) (n : Nat) :
    t.grid.iterate tiny allowed n =
      ((t.iterate tiny allowed n).map grid).mapError Stop.because := by
  induction n generalizing t with
  | zero => rfl
  | succ n ih =>
    rw [Grid.iterate, grid_entering? ht tiny h, ok_bind, Tableau.iterate]
    cases hc : t.entering? tiny allowed with
    | none => rfl
    | some c =>
      have hlt := Nat.lt_of_lt_of_le (lt_of_entering? hc) h
      simp only [grid_leaving? ht tiny hlt, ok_bind]
      cases hr : t.leaving? tiny c with
      | none => rfl
      | some r =>
        -- the rules ask only for pivots at places of the grid, and these keep the shape
        have hr := lt_of_leaving? hr
        simp only [grid_pivot ht tiny hr hlt, ok_bind]
        exact ih (ht.pivot_at tiny hr hlt) (by rwa [width_pivot])

theorem foldl_addCost (costs : List α) {width : Nat} {rows : List (TableauRow α)}
    (hrows : ∀ row ∈ rows, row.equation.coefficients.length = width) {e : Equation α}
    (he : e.coefficients.length = width) :
    (rows.map fun row => (row.equation.entries, row.basic)).foldl (addCost costs) e.entries =
      (rows.foldl (loaded costs) e).entries := by
  induction rows generalizing e with
  | nil => rfl
  | cons row rows ih =>
    rw [List.forall_mem_cons] at hrows
    have hone : addCost costs e.entries (row.equation.entries, row.basic) =
        (loaded costs e row).entries := by
      simp only [addCost, loaded]
      split
      · rfl
      · exact (entries_addMultiple (he.trans hrows.1.symm) _).symm
    rw [List.map_cons, List.foldl_cons, List.foldl_cons, hone]
    exact ih hrows.2 (length_loaded costs hrows.1 he)

/-- Loading an objective into the grid is loading it into the tableau. -/
theorem grid_loadObjective (ht : t.Shaped) (costs : List α) :
    t.grid.loadObjective costs = (t.loadObjective costs).grid := by
  have hstart : ((List.range (t.width + 1)).map fun j =>
      if j < t.width then -costs.getD j 0 else 0) = (rawObjective t.width costs).entries := by
    rw [List.range_succ, List.map_append, List.map_singleton, if_neg (Nat.lt_irrefl _), entries,
      rawObjective]
    refine congrArg (· ++ [0]) (List.map_congr_left fun j hj => ?_)
    rw [if_pos (List.mem_range.1 hj)]
  have hobjective :
      (t.grid.loadObjective costs).objective = (t.loadObjective costs).objective.entries := by
    rw [objective_loadObjective, ← foldl_addCost costs ht.row_length (length_rawObjective _ _),
      ← hstart]
    exact congrArg (List.foldl _ _) List.zip_map'
  exact congrArg (fun objective => { t.grid with objective }) hobjective

theorem grid_loadPhaseOne (ht : t.Shaped) (hstart : t.artificialStart ≤ t.width) :
    t.grid.loadPhaseOne = .ok t.loadPhaseOne.grid := by
  rw [Grid.loadPhaseOne, grid_loadObjective ht]
  exact if_pos hstart

theorem Shaped.keeps_loadObjective (ht : t.Shaped) (costs : List α) :
    t.Keeps (t.loadObjective costs) :=
  ⟨ht.loadObjective costs, rfl, rfl, rfl⟩

theorem Shaped.keeps_pivot (ht : t.Shaped) (tiny : α) {r c : Nat} (hr : r < t.rows.length)
    (hc : c < t.width) : t.Keeps (t.pivot tiny r c) where
  shaped := ht.pivot_at tiny hr hc
  width_eq := width_pivot ..
  start_eq := artificialStart_pivot ..
  length_eq := length_rows_pivot ..

theorem grid_driveOutRow (ht : t.Shaped) (hstart : t.artificialStart ≤ t.width) (tiny : α) {r : Nat}
    (hr : r < t.rows.length) :
    t.grid.driveOutRow tiny r = .ok (t.driveOutRow tiny r).grid ∧
      t.Keeps (t.driveOutRow tiny r) := by
  obtain ⟨row, hrow⟩ : ∃ row, t.rows[r]? = some row := ⟨t.rows[r], List.getElem?_eq_getElem hr⟩
  have hlen := ht.row_length row (List.mem_of_getElem? hrow)
  have hbasic : (atPlace t.grid.basic r : Except Grid.Stop Nat) = .ok row.basic :=
    atPlace_eq_ok (getElem?_grid_basic hrow)
  have hfind : ((List.range t.grid.artificialStart).findM? fun column => do
      let row ← (atPlace t.grid.rows r : Except Grid.Stop (List α))
      let entry ← atPlace row column
      return decide (tiny < Scalar.abs entry)) =
        .ok ((row.equation.coefficients.take t.artificialStart).findIdx? fun x =>
          tiny < Scalar.abs x) := by
    rw [findIdx?_take_eq_find? (hlen ▸ hstart) _ 0]
    refine findM?_eq_ok_find? fun column hcolumn => ?_
    have hlt : column < t.width := Nat.lt_of_lt_of_le (List.mem_range.1 hcolumn) hstart
    rw [atPlace_grid_rows hrow, ok_bind, atPlace_coefficient hlen hlt]
    rfl
  simp only [Grid.driveOutRow, hbasic, hfind, ok_bind, driveOutRow, hrow]
  by_cases hreal : row.basic < t.artificialStart
  · rw [if_pos hreal]
    exact ⟨if_pos hreal, ht.keeps⟩
  · have hreal' : ¬ row.basic < t.grid.artificialStart := hreal
    rw [if_neg hreal, if_neg hreal']
    cases hcolumn : (row.equation.coefficients.take t.artificialStart).findIdx? _ with
    | none => exact ⟨rfl, ht.keeps⟩
    | some c =>
      have hc := Nat.lt_of_lt_of_le (lt_of_findIdx?_take hcolumn) hstart
      exact ⟨grid_pivot ht tiny hr hc, ht.keeps_pivot tiny hr hc⟩

/-- Row by row, the grid drives out the artificial variables as the tableau does. -/
theorem grid_driveOutArtificials (ht : t.Shaped) (hstart : t.artificialStart ≤ t.width) (tiny : α) :
    t.grid.driveOutArtificials tiny = .ok (t.driveOutArtificials tiny).grid ∧
      t.Keeps (t.driveOutArtificials tiny) := by
  have hlength : t.grid.rows.length = t.rows.length := List.length_map ..
  rw [Grid.driveOutArtificials, hlength]
  refine foldlM_eq_ok_foldl grid t.Keeps ht.keeps fun r hr t' h => ?_
  have hr' : r < t'.rows.length := h.length_eq ▸ List.mem_range.1 hr
  have hstart' : t'.artificialStart ≤ t'.width := by rwa [h.start_eq, h.width_eq]
  obtain ⟨hgrid, hkeeps⟩ := grid_driveOutRow h.shaped hstart' tiny hr'
  exact ⟨hgrid, h.trans hkeeps⟩

/-! ## Runs -/

theorem Next.keeps {tiny : α} {allowed : Nat} {t' : Tableau α} (h : Next tiny allowed t t')
    (ht : t.Shaped) (hallowed : allowed ≤ t.width) : t.Keeps t' := by
  obtain ⟨c, r, hc, hr, rfl⟩ := h
  exact ht.keeps_pivot tiny (lt_of_leaving? hr) (Nat.lt_of_lt_of_le (lt_of_entering? hc) hallowed)

theorem keeps_of_run {tiny : α} {allowed : Nat} {t' : Tableau α} (ht : t.Shaped)
    (hallowed : allowed ≤ t.width) (h : Relation.ReflTransGen (Next tiny allowed) t t') :
    t.Keeps t' := by
  induction h with
  | refl => exact ht.keeps
  | tail _ hnext ih => exact ih.trans (hnext.keeps ih.shaped (ih.width_eq ▸ hallowed))

theorem keeps_of_iterate {tiny : α} {allowed n : Nat} {t' : Tableau α} (ht : t.Shaped)
    (hallowed : allowed ≤ t.width) (h : t.iterate tiny allowed n = .ok t') : t.Keeps t' := by
  rcases iterate_cases tiny allowed n t with ⟨t'', hok, hrun, -⟩ | ⟨herror, -⟩ | herror
  · obtain rfl := Except.ok.inj (hok.symm.trans h)
    exact keeps_of_run ht hallowed hrun
  · cases herror.symm.trans h
  · cases herror.symm.trans h

theorem keeps_of_iterate_loadObjective {tiny : α} {allowed n : Nat} {costs : List α}
    {t' : Tableau α} (ht : t.Shaped) (hallowed : allowed ≤ t.width)
    (h : (t.loadObjective costs).iterate tiny allowed n = .ok t') : t.Keeps t' :=
  (ht.keeps_loadObjective costs).trans (keeps_of_iterate (ht.loadObjective costs) hallowed h)

end Tableau

/-! ## The method -/

namespace Simplex

variable [Scalar α] {t : Tableau α} (s : Simplex α)

open Grid Tableau Equation

/-- A tableau that the first phase ends with comes from pivoting, unless nothing is artificial. -/
theorem phaseOne_eq_ok {t' : Tableau α} (h : s.phaseOne t = .ok t') : t' = t ∨ ∃ t'' : Tableau α,
    t.loadPhaseOne.iterate s.precision.pivot t.width s.maxIterations = .ok t'' ∧
      t' = t''.driveOutArtificials s.precision.pivot := by
  unfold phaseOne at h
  split at h
  · split at h
    · cases h
    · cases h
    · next t'' hiterate =>
      split at h
      · cases h
      · exact .inr ⟨t'', hiterate, (Except.ok.inj h).symm⟩
  · exact .inl (Except.ok.inj h).symm

theorem keeps_of_phaseOne (ht : t.Shaped) (hstart : t.artificialStart ≤ t.width) {t' : Tableau α}
    (h : s.phaseOne t = .ok t') : t.Keeps t' := by
  rcases s.phaseOne_eq_ok h with rfl | ⟨t'', hiterate, rfl⟩
  · exact ht.keeps
  · have hkeeps := keeps_of_iterate_loadObjective ht (Nat.le_refl _) hiterate
    have hstart' : t''.artificialStart ≤ t''.width := by rwa [hkeeps.start_eq, hkeeps.width_eq]
    exact hkeeps.trans (grid_driveOutArtificials hkeeps.shaped hstart' _).2

/-- The first phase on the grid is the first phase of the tableau. -/
theorem grid_phaseOne (ht : t.Shaped) (hstart : t.artificialStart ≤ t.width) :
    t.grid.phaseOne s = ((s.phaseOne t).map grid).mapError Stop.because := by
  by_cases hartificial : t.artificialStart < t.width
  · have hartificial' : t.grid.artificialStart < t.grid.width := hartificial
    have hloaded : t.loadPhaseOne.Shaped := ht.loadObjective _
    have hiterate : t.loadPhaseOne.grid.iterate s.precision.pivot t.loadPhaseOne.grid.width
        s.maxIterations = _ := grid_iterate hloaded _ (Nat.le_refl t.width) _
    rw [Grid.phaseOne, if_pos hartificial', grid_loadPhaseOne ht hstart, ok_bind, hiterate,
      Simplex.phaseOne, if_pos hartificial]
    cases hrun : t.loadPhaseOne.iterate s.precision.pivot t.width s.maxIterations with
    | error status => cases status <;> rfl
    | ok t' =>
      have hkeeps := keeps_of_iterate_loadObjective ht (Nat.le_refl _) hrun
      have hstart' : t'.artificialStart ≤ t'.width := by rwa [hkeeps.start_eq, hkeeps.width_eq]
      have hvalue : t'.grid.objectiveValue = .ok t'.objective.constant :=
        atPlace_constant hkeeps.shaped.objective_length
      simp only [Except.map, Except.mapError, hvalue, ok_bind]
      split
      · rfl
      · exact (grid_driveOutArtificials hkeeps.shaped hstart' _).1
  · exact (if_neg hartificial).trans (by rw [Simplex.phaseOne, if_neg hartificial]; rfl)

/-- The second phase on the grid is the second phase of the tableau. -/
theorem grid_phaseTwo (ht : t.Shaped) (hstart : t.artificialStart ≤ t.width) (p : Problem α) :
    t.grid.phaseTwo s p = ((s.phaseTwo p t).map grid).mapError Stop.because := by
  rw [Grid.phaseTwo, Simplex.phaseTwo]
  simp only [grid_loadObjective ht]
  exact grid_iterate (ht.loadObjective _) _ hstart _

theorem keeps_of_phaseTwo (ht : t.Shaped) (hstart : t.artificialStart ≤ t.width) {p : Problem α}
    {t' : Tableau α} (h : s.phaseTwo p t = .ok t') : t.Keeps t' :=
  keeps_of_iterate_loadObjective ht hstart h

/-- The values are read off the grid as off the tableau. -/
theorem grid_valuesFrom (ht : t.Shaped) {lower : List α} {columns : Nat}
    (hlower : lower.length = columns) :
    t.grid.valuesFrom lower columns = .ok (t.valuesFrom lower columns) := by
  have hbasic : t.grid.basic.zipIdx = t.rows.zipIdx.map (Prod.map (·.basic) id) := List.zipIdx_map
  have hrows : t.rows.zipIdx.map Prod.fst = t.rows := List.zipIdx_map_fst ..
  rw [Grid.valuesFrom, hbasic, List.foldlM_map, Tableau.valuesFrom]
  nth_rewrite 2 [← hrows]
  rw [List.foldl_map]
  refine (foldlM_eq_ok_foldl id (fun values => values.length = columns) hlower
    fun row hrow values hvalues => ?_).1
  have hat := List.mem_zipIdx_iff_getElem?.1 hrow
  have hlen := ht.row_length row.1 (List.mem_of_getElem? hat)
  by_cases hreal : row.1.basic < columns
  · have hconstant : (atPlace row.1.equation.entries t.grid.width : Except Grid.Stop α) =
        .ok row.1.equation.constant := atPlace_constant hlen
    simp only [addValue, Prod.map, id, hreal, ↓reduceIte, atPlace_grid_rows hat, hconstant, ok_bind]
    exact ⟨changeAt_eq_ok (hvalues ▸ hreal) _, (List.length_modify ..).trans hvalues⟩
  · simp only [addValue, Prod.map, id, hreal, ↓reduceIte]
    exact ⟨trivial, hvalues⟩

end Simplex

end WorstCase
