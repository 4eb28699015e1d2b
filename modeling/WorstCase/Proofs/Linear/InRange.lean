import WorstCase.Proofs.Linear.Grid
import WorstCase.Proofs.Linear.Simplex

/-!
# No place is out of range

The simplex method looks up entries of a tableau by place. Whatever the operations of the scalars
return, it finds all of them (`Grid.places_in_range`), for every built problem and a box with a
bound for each of its columns.

The starting grid gives each row the columns that it needs for itself (`Grid.LaidOut`). Between them
the slots of the rows use up the columns behind those of the problem, without a gap. So the starting
grid has the right shape (`Grid.Shaped`), and every step of the method keeps it (`Grid.Steady`): a
grid of that shape is the grid of a tableau (`Grid.Shaped.exists_tableau`), on which each step is
known to agree with the step on the tableau.
-/

namespace WorstCase

variable {α : Type}

namespace Grid

open Tableau Equation

/-! ## Grids of the right shape -/

/-- The rows and the objective have an entry for each variable and one more, and each row has a
basic variable. -/
structure Shaped (g : Grid α) : Prop where
  row_length : ∀ row ∈ g.rows, row.length = g.width + 1
  objective_length : g.objective.length = g.width + 1
  basic_length : g.basic.length = g.rows.length
  basic_lt : ∀ b ∈ g.basic, b < g.width
  start_le : g.artificialStart ≤ g.width

/-- Another grid of the right shape with as many rows, variables and artificial variables. -/
structure Keeps (g g' : Grid α) : Prop where
  shaped : g'.Shaped
  width_eq : g'.width = g.width
  start_eq : g'.artificialStart = g.artificialStart
  length_eq : g'.rows.length = g.rows.length

variable {g : Grid α}

theorem Keeps.trans {g' g'' : Grid α} (h : g.Keeps g') (h' : g'.Keeps g'') : g.Keeps g'' :=
  ⟨h'.shaped, h'.width_eq.trans h.width_eq, h'.start_eq.trans h.start_eq,
    h'.length_eq.trans h.length_eq⟩

/-- The grid of a tableau has the sizes of the tableau. -/
theorem shaped_grid {t : Tableau α} (ht : t.Shaped) (hstart : t.artificialStart ≤ t.width) :
    t.grid.Shaped where
  row_length := List.forall_mem_map.2 fun row hrow => length_entries (ht.row_length row hrow)
  objective_length := length_entries ht.objective_length
  basic_length := (List.length_map ..).trans (List.length_map ..).symm
  basic_lt := List.forall_mem_map.2 ht.basic_lt
  start_le := hstart

theorem keeps_grid {t t' : Tableau α} (h : t.Keeps t') (hstart : t.artificialStart ≤ t.width) :
    t.grid.Keeps t'.grid where
  shaped := shaped_grid h.shaped (by rwa [h.start_eq, h.width_eq])
  width_eq := h.width_eq
  start_eq := h.start_eq
  length_eq := (List.length_map ..).trans (h.length_eq.trans (List.length_map ..).symm)

theorem exists_equation {entries : List α} {width : Nat} (h : entries.length = width + 1) :
    ∃ e : Equation α, e.coefficients.length = width ∧ e.entries = entries := by
  have hne : entries ≠ [] := List.ne_nil_of_length_eq_add_one h
  refine ⟨⟨entries.dropLast, entries.getLast hne⟩, ?_, List.dropLast_append_getLast hne⟩
  rw [List.length_dropLast, h, Nat.add_sub_cancel]

/-- Rows of the right length, with basic variables inside the grid, are the rows of a tableau. -/
theorem exists_rows {width : Nat} {rows : List (List α)} {basic : List Nat}
    (hlength : basic.length = rows.length) (hrows : ∀ row ∈ rows, row.length = width + 1)
    (hbasic : ∀ b ∈ basic, b < width) : ∃ rows' : List (TableauRow α),
      (∀ row ∈ rows', row.equation.coefficients.length = width ∧ row.basic < width) ∧
        rows'.map (·.equation.entries) = rows ∧ rows'.map (·.basic) = basic := by
  induction rows generalizing basic with
  | nil =>
    obtain rfl := List.eq_nil_of_length_eq_zero hlength
    exact ⟨[], fun row hrow => absurd hrow List.not_mem_nil, rfl, rfl⟩
  | cons row rows ih =>
    cases basic with
    | nil => cases hlength
    | cons b basic =>
      rw [List.forall_mem_cons] at hrows hbasic
      obtain ⟨e, he, rfl⟩ := exists_equation hrows.1
      obtain ⟨rows', hshape, rfl, rfl⟩ := ih (Nat.succ.inj hlength) hrows.2 hbasic.2
      exact ⟨⟨e, b⟩ :: rows', List.forall_mem_cons.2 ⟨⟨he, hbasic.1⟩, hshape⟩, rfl, rfl⟩

/-- Every grid of the right shape is that of a tableau. -/
theorem Shaped.exists_tableau (hg : g.Shaped) :
    ∃ t : Tableau α, t.Shaped ∧ t.artificialStart ≤ t.width ∧ t.grid = g := by
  obtain ⟨rows, objective, basic, width, artificialStart⟩ := g
  obtain ⟨hrows, hobjective, hlength, hbasic, hstart⟩ := hg
  obtain ⟨e, he, rfl⟩ := exists_equation hobjective
  obtain ⟨rows', hshape, rfl, rfl⟩ := exists_rows hlength hrows hbasic
  exact ⟨⟨rows', e, width, artificialStart⟩,
    ⟨fun row hrow => (hshape row hrow).1, fun row hrow => (hshape row hrow).2, he⟩, hstart, rfl⟩

variable [Scalar α]

/-! ## The starting grid -/

section start

variable {p : Problem α} {box : Box α}

theorem addTerm_eq_ok {lower : List α} {d : DenseRow α} (hd : d.coefficients.length = lower.length)
    {term : Nat × α} (hpos : 0 < term.1) (hle : term.1 ≤ lower.length) :
    addTerm lower d term = .ok (DenseRow.addTerm lower d term) := by
  have hlt : term.1 - 1 < lower.length := by omega
  rw [addTerm, placeOf, if_neg (by omega), ok_bind, changeAt_eq_ok (hd ▸ hlt), ok_bind,
    atPlace_eq_getD hlt 0]
  rfl

theorem rowConstraint_eq_ok {lower : List α} {row : Row α}
    (h : ∀ term ∈ row.terms, 0 < term.1 ∧ term.1 ≤ lower.length) :
    rowConstraint lower.length lower row = .ok (DenseRow.ofRow lower.length lower row) :=
  (foldlM_eq_ok_foldl id (·.coefficients.length = lower.length)
    (List.length_replicate ..) fun term hterm _ hd =>
      ⟨addTerm_eq_ok hd (h term hterm).1 (h term hterm).2, (List.length_modify ..).trans hd⟩).1

/-- The dense row of an upper bound, given with the place of its column. -/
def upperRow (lower : List α) (bound : α × Nat) : DenseRow α :=
  ⟨(List.replicate lower.length 0).set bound.2 1, .atMost, bound.1 - lower.getD bound.2 0⟩

theorem upperConstraint_eq_ok {lower : List α} {bound : α × Nat} (h : bound.2 < lower.length) :
    upperConstraint lower.length lower bound = .ok (upperRow lower bound) := by
  rw [upperConstraint, putAt_eq_ok (by rwa [List.length_replicate]), ok_bind, atPlace_eq_getD h 0]
  rfl

/-- All constraints of a built problem are made dense without a place missing. -/
theorem constraints_eq_ok (hp : p.Known) (hlower : box.lower.length = p.columns.length)
    (hupper : box.upper.length = p.columns.length) : constraints p box = .ok (oriented p box) := by
  simp only [constraints, oriented, Problem.dense, ← hlower]
  rw [mapM_eq_ok_map fun row hrow => rowConstraint_eq_ok (hlower ▸ hp row hrow), ok_bind,
    mapM_eq_ok_map (k := upperRow box.lower) fun bound hbound => ?_, ok_bind, List.map_filterMap]
  · simp only [Option.map_map]
    rfl
  · obtain ⟨x, hx, hbound⟩ := List.mem_filterMap.1 hbound
    obtain ⟨u, -, rfl⟩ := Option.map_eq_some_iff.1 hbound
    have hlt := (List.getElem?_eq_some_iff.1 (List.mem_zipIdx_iff_getElem?.1 hx)).1
    exact upperConstraint_eq_ok (by rwa [hlower, ← hupper])

variable {columns start width slack artificial : Nat} {d : DenseRow α}
  {rest dense : List (DenseRow α)}

omit [Scalar α] in
theorem putAt_concat {xs : List α} {j : Nat} (hj : j < xs.length) (x last : α) :
    putAt (xs ++ [last]) j x = .ok (xs.set j x ++ [last]) := by
  rw [putAt_eq_ok (by rw [List.length_append]; omega), List.set_append_left _ _ hj]

theorem putAt_resize (hroom : Room columns start width (d :: rest) slack artificial) :
    putAt (resize d.coefficients (width + 1) 0) width d.rhs = .ok (padded width d ++ [d.rhs]) := by
  have hle := hroom.length_le
  have hpadded : resize d.coefficients (width + 1) 0 = padded width d ++ [0] := by
    rw [resize, List.take_of_length_le (by omega), Nat.succ_sub hle, List.replicate_succ',
      ← List.append_assoc]
    rfl
  have hlen := hroom.length_padded
  rw [hpadded, putAt_eq_ok (by rw [List.length_append, hlen]; simp),
    List.set_append_right _ _ hlen.le, hlen, Nat.sub_self]
  rfl

theorem layOutRow_eq_ok (hroom : Room columns start width (d :: rest) slack artificial) :
    layOutRow width slack artificial d = .ok ((laid width slack artificial d).equation.entries,
      (laid width slack artificial d).basic) := by
  have hlen := hroom.length_padded
  have hs := hroom.slackAfter_le
  have ha := hroom.artificialAfter_le
  have hstart := hroom.start_le
  rw [layOutRow, putAt_resize hroom, ok_bind]
  rcases laid_cases width slack artificial d with ⟨hc, heq⟩ | ⟨hc, heq⟩ | ⟨hc, heq⟩ <;>
    simp only [hc, slackAfter, artificialAfter, reduceCtorEq, if_false, if_true] at hs ha <;>
    simp only [heq, hc]
  · rw [putAt_concat (by omega), ok_bind]
    rfl
  · rw [putAt_concat (by omega), ok_bind, putAt_concat (by rw [List.length_set]; omega), ok_bind]
    rfl
  · rw [putAt_concat (by omega), ok_bind]
    rfl

/-- With room for all of them, the rows are laid out without a place missing. -/
theorem layOut_eq_ok (hroom : Room columns start width dense slack artificial) :
    layOut width dense slack artificial = .ok ((Tableau.layOut width dense slack artificial).map
      fun row => (row.equation.entries, row.basic)) := by
  induction dense generalizing slack artificial with
  | nil => rfl
  | cons d rest ih =>
    have hrest := ih hroom.tail
    rw [slackAfter, artificialAfter] at hrest
    rw [layOut, layOutRow_eq_ok hroom, ok_bind, hrest, ok_bind, layOut_cons]
    rfl

/-- The starting grid is found, and is that of the starting tableau. -/
theorem ofProblem_eq_ok (hp : p.Known) (hlower : box.lower.length = p.columns.length)
    (hupper : box.upper.length = p.columns.length) :
    ofProblem p box = .ok (Tableau.ofProblem p box.lower box.upper).grid := by
  have hobjective : (Tableau.ofProblem p box.lower box.upper).grid.objective =
      List.replicate ((Tableau.ofProblem p box.lower box.upper).width + 1) 0 :=
    List.replicate_succ'.symm
  rw [ofProblem, constraints_eq_ok hp hlower hupper, ok_bind]
  refine (congrArg (· >>= _) (layOut_eq_ok (room_ofProblem p box))).trans ?_
  simp only [ok_bind, List.map_map]
  exact congrArg (fun objective => Except.ok
    { (Tableau.ofProblem p box.lower box.upper).grid with objective }) hobjective.symm

/-! ## Columns of their own -/

/-- The columns that a row of the starting grid has for itself. -/
structure Slot where
  slack : Option Nat
  artificial : Option Nat

/-- The slot of a row with this comparison, given the next slack and the next artificial
variable. -/
def Slot.next (c : Comparison) (slack artificial : Nat) : Slot where
  slack := if c = .equal then none else some slack
  artificial := if c = .atMost then none else some artificial

/-- What a dense row with this slot has in a column: 1 for its artificial variable, 1 or -1 for its
slack. -/
def Slot.entry (slot : Slot) (d : DenseRow α) (j : Nat) : α :=
  if slot.artificial = some j then 1
  else if slot.slack = some j then (if d.comparison = .atMost then 1 else -1)
  else d.coefficients.getD j 0

/-- The slots of dense rows that are laid out one after the other. -/
def slots : List (DenseRow α) → (slack artificial : Nat) → List Slot
  | [], _, _ => []
  | d :: rest, slack, artificial =>
    .next d.comparison slack artificial ::
      slots rest (slackAfter d.comparison slack) (artificialAfter d.comparison artificial)

/-- The dense rows are laid out in the grid with these slots. -/
structure LaidOut (columns : Nat) (dense : List (DenseRow α)) (slots : List Slot) (g : Grid α) :
    Prop where
  slack_iff : List.Forall₂ (fun d slot => slot.slack.isSome ↔ d.comparison ≠ .equal) dense slots
  artificial_iff :
    List.Forall₂ (fun d slot => slot.artificial.isSome ↔ d.comparison ≠ .atMost) dense slots
  /-- The slacks fill the columns behind those of the problem. -/
  slacks : ∃ n, slots.filterMap Slot.slack = List.range' columns n ∧ columns + n = g.artificialStart
  /-- The artificial variables fill the rest. -/
  artificials : ∃ n,
    slots.filterMap Slot.artificial = List.range' g.artificialStart n ∧
      g.artificialStart + n = g.width
  rows : g.rows = List.zipWith
    (fun d slot => (List.range g.width).map (slot.entry d) ++ [d.rhs]) dense slots
  basic : g.basic.map some = slots.map fun slot => slot.artificial.or slot.slack

omit [Scalar α] in
/-- One after the other, the slacks and the artificial variables are handed out without a gap. -/
theorem filterMap_slots (dense : List (DenseRow α)) (slack artificial : Nat) :
    (slots dense slack artificial).filterMap Slot.slack =
        List.range' slack (dense.countP (·.comparison != .equal)) ∧
      (slots dense slack artificial).filterMap Slot.artificial =
        List.range' artificial (dense.countP (·.comparison != .atMost)) := by
  induction dense generalizing slack artificial with
  | nil => exact ⟨rfl, rfl⟩
  | cons d rest ih =>
    obtain ⟨hslack, hartificial⟩ := ih (slackAfter d.comparison slack)
      (artificialAfter d.comparison artificial)
    simp only [slots, List.filterMap_cons, hslack, hartificial, List.countP_cons]
    cases d.comparison <;> simp [Slot.next, slackAfter, artificialAfter, List.range'_succ]

omit [Scalar α] in
theorem forall₂_slots {R : DenseRow α → Slot → Prop}
    (hR : ∀ d slack artificial, R d (.next d.comparison slack artificial))
    (dense : List (DenseRow α)) (slack artificial : Nat) :
    List.Forall₂ R dense (slots dense slack artificial) := by
  induction dense generalizing slack artificial with
  | nil => exact .nil
  | cons d rest ih => exact .cons (hR d slack artificial) (ih _ _)

theorem getElem?_padded (h : d.coefficients.length ≤ width) {j : Nat} (hj : j < width) :
    (padded width d)[j]? = some (d.coefficients.getD j 0) := by
  rw [padded, List.getElem?_append]
  split
  · next hlt => rw [List.getElem?_eq_getElem hlt, List.getD_eq_getElem _ _ hlt]
  · next hge =>
    have hle := Nat.le_of_not_lt hge
    rw [List.getElem?_replicate, if_pos (by omega), List.getD_eq_default _ _ hle]

/-- A laid out row holds the coefficients, then the entries of its slots, then the right-hand
side. -/
theorem entries_laid (hroom : Room columns start width (d :: rest) slack artificial) :
    (laid width slack artificial d).equation.entries =
      (List.range width).map ((Slot.next d.comparison slack artificial).entry d) ++ [d.rhs] := by
  rw [entries, constant_laid]
  refine congrArg (· ++ [d.rhs]) (List.ext_getElem? fun j => ?_)
  have hle := hroom.length_le
  have hlen := hroom.length_padded
  have hs := hroom.slackAfter_le
  have ha := hroom.artificialAfter_le
  have hstart := hroom.start_le
  rcases Nat.lt_or_ge j width with hj | hj
  · rw [List.getElem?_map, List.getElem?_range hj, Option.map_some]
    have hpadded := getElem?_padded hle hj
    rcases laid_cases width slack artificial d with ⟨hc, heq⟩ | ⟨hc, heq⟩ | ⟨hc, heq⟩ <;>
      simp only [hc, slackAfter, artificialAfter, reduceCtorEq, if_false, if_true] at hs ha <;>
      simp only [heq, hc, Slot.next, Slot.entry, List.getElem?_set, hpadded, List.length_set, hlen]
    · rw [if_pos (show slack < width by omega)]
      by_cases hslack : slack = j <;> simp [hslack]
    · rw [if_pos (show slack < width by omega), if_pos (show artificial < width by omega)]
      by_cases hslack : slack = j <;> by_cases hartificial : artificial = j <;>
        simp [hslack, hartificial]
    · rw [if_pos (show artificial < width by omega)]
      by_cases hartificial : artificial = j <;> simp [hartificial]
  · have hnone : (laid width slack artificial d).equation.coefficients[j]? = none :=
      List.getElem?_eq_none ((length_laid hroom).trans_le hj)
    rw [hnone, List.getElem?_eq_none (by rw [List.length_map, List.length_range]; exact hj)]

/-- The basic variable of a row is its artificial variable, or the slack if it has none. -/
theorem basic_laid_eq (width slack artificial : Nat) (d : DenseRow α) :
    some (laid width slack artificial d).basic =
      (Slot.next d.comparison slack artificial).artificial.or
        (Slot.next d.comparison slack artificial).slack := by
  rcases laid_cases width slack artificial d with ⟨hc, heq⟩ | ⟨hc, heq⟩ | ⟨hc, heq⟩ <;>
    simp [heq, hc, Slot.next]

theorem entries_layOut (hroom : Room columns start width dense slack artificial) :
    ((Tableau.layOut width dense slack artificial).map (·.equation.entries) = List.zipWith
        (fun d slot => (List.range width).map (slot.entry d) ++ [d.rhs]) dense
          (slots dense slack artificial)) ∧
      ((Tableau.layOut width dense slack artificial).map (·.basic)).map some =
        (slots dense slack artificial).map fun slot => slot.artificial.or slot.slack := by
  induction dense generalizing slack artificial with
  | nil => exact ⟨rfl, rfl⟩
  | cons d rest ih =>
    obtain ⟨hrows, hbasic⟩ := ih hroom.tail
    rw [layOut_cons, slots, List.map_cons, List.zipWith_cons_cons, entries_laid hroom, hrows,
      List.map_cons, List.map_cons, basic_laid_eq, hbasic]
    exact ⟨rfl, rfl⟩

/-- The starting grid is laid out: its slots use up the columns behind those of the problem. -/
theorem laidOut_ofProblem (p : Problem α) (box : Box α) :
    LaidOut p.columns.length (oriented p box)
      (slots (oriented p box) p.columns.length
        (Tableau.ofProblem p box.lower box.upper).artificialStart)
      (Tableau.ofProblem p box.lower box.upper).grid where
  slack_iff := forall₂_slots (fun d slack artificial => by simp [Slot.next]) ..
  artificial_iff := forall₂_slots (fun d slack artificial => by simp [Slot.next]) ..
  slacks := ⟨_, (filterMap_slots ..).1, rfl⟩
  artificials := ⟨_, (filterMap_slots ..).2, rfl⟩
  rows := (entries_layOut (room_ofProblem p box)).1
  basic := (entries_layOut (room_ofProblem p box)).2

end start

/-! ## Steps -/

section steps

open Relation

variable {t : Tableau α} {g' : Grid α} {tiny : α} {allowed : Nat}

/-- One pivot by the rules. -/
def Next (tiny : α) (allowed : Nat) (g g' : Grid α) : Prop :=
  ∃ c r, g.entering? tiny allowed = .ok (some c) ∧ g.leaving? tiny c = .ok (some r) ∧
    g.pivot tiny r c = .ok g'

/-- A step on the grid is a step of the tableau. -/
theorem next_grid_iff (ht : t.Shaped) (h : allowed ≤ t.width) :
    Next tiny allowed t.grid g' ↔ ∃ t', Tableau.Next tiny allowed t t' ∧ t'.grid = g' := by
  constructor
  · rintro ⟨c, r, hc, hr, hpivot⟩
    rw [grid_entering? ht tiny h, Except.ok.injEq] at hc
    have hlt := Nat.lt_of_lt_of_le (lt_of_entering? hc) h
    rw [grid_leaving? ht tiny hlt, Except.ok.injEq] at hr
    rw [grid_pivot ht tiny (lt_of_leaving? hr) hlt, Except.ok.injEq] at hpivot
    exact ⟨_, ⟨c, r, hc, hr, rfl⟩, hpivot⟩
  · rintro ⟨_, ⟨c, r, hc, hr, rfl⟩, rfl⟩
    have hlt := Nat.lt_of_lt_of_le (lt_of_entering? hc) h
    refine ⟨c, r, ?_, ?_, grid_pivot ht tiny (lt_of_leaving? hr) hlt⟩
    · rw [grid_entering? ht tiny h, hc]
    · rw [grid_leaving? ht tiny hlt, hr]

theorem run_grid_iff (ht : t.Shaped) (h : allowed ≤ t.width) :
    ReflTransGen (Next tiny allowed) t.grid g' ↔
      ∃ t', ReflTransGen (Tableau.Next tiny allowed) t t' ∧ t'.grid = g' := by
  -- in both directions a run has kept the shape so far, so the next step is the same on both sides
  constructor
  · intro hrun
    induction hrun with
    | refl => exact ⟨t, .refl, rfl⟩
    | tail _ hnext ih =>
      obtain ⟨t', hrun, rfl⟩ := ih
      have hkeeps := keeps_of_run ht h hrun
      obtain ⟨t'', hnext', rfl⟩ := (next_grid_iff hkeeps.shaped (hkeeps.width_eq ▸ h)).1 hnext
      exact ⟨t'', hrun.tail hnext', rfl⟩
  · rintro ⟨t', hrun, rfl⟩
    induction hrun with
    | refl => exact .refl
    | tail hrun hnext ih =>
      have hkeeps := keeps_of_run ht h hrun
      exact ih.tail ((next_grid_iff hkeeps.shaped (hkeeps.width_eq ▸ h)).2 ⟨_, hnext, rfl⟩)

/-- In no row has a variable from `allowed` on become basic. -/
def Bars (allowed : Nat) (g g' : Grid α) : Prop :=
  ∀ r b : Nat, allowed ≤ b → g'.basic[r]? = some b → g.basic[r]? = some b

theorem bars_of_next {t' : Tableau α} (h : Tableau.Next tiny allowed t t') :
    Bars allowed t.grid t'.grid := by
  obtain ⟨c, r, hc, -, rfl⟩ := h
  intro i b hb hi
  rw [basic_grid_pivot, List.getElem?_set] at hi
  split at hi
  · have hlt := lt_of_entering? hc
    split at hi
    · cases hi
      omega
    · cases hi
  · exact hi

/-- A run takes no barred variable into the basis. -/
theorem bars_of_run {t' : Tableau α} (h : ReflTransGen (Tableau.Next tiny allowed) t t') :
    Bars allowed t.grid t'.grid := by
  induction h with
  | refl => exact fun _ _ _ h => h
  | tail _ hnext ih => exact fun r b hb hr => ih r b hb (bars_of_next hnext r b hb hr)

/-- All that the method does with the grid finds its places and leaves the shape as it is. -/
structure Steady (tiny : α) (g : Grid α) : Prop where
  loadObjective : ∀ costs, g.Keeps (g.loadObjective costs)
  loadPhaseOne : ∃ g', g.loadPhaseOne = .ok g' ∧ g.Keeps g'
  pivot : ∀ r < g.rows.length, ∀ c < g.width, ∃ g', g.pivot tiny r c = .ok g' ∧ g.Keeps g'
  /-- With the variables from `allowed` on barred, pivoting goes through grids of the same shape, in
  which none of them has become basic in a row where it was not. -/
  run : ∀ allowed ≤ g.width, ∀ g', ReflTransGen (Next tiny allowed) g g' →
    g.Keeps g' ∧ Bars allowed g g'
  iterate : ∀ allowed ≤ g.width, ∀ n,
    (∃ g', g.iterate tiny allowed n = .ok g' ∧ ReflTransGen (Next tiny allowed) g g') ∨
      ∃ status, g.iterate tiny allowed n = .error (.because status)
  driveOutArtificials : ∃ g', g.driveOutArtificials tiny = .ok g' ∧ g.Keeps g'

/-- Whatever the numbers are, a grid with the right sizes keeps them. -/
theorem Shaped.steady (hg : g.Shaped) (tiny : α) : g.Steady tiny := by
  -- the tableau whose grid it is goes through the same steps, and keeps its shape
  obtain ⟨t, ht, hstart, rfl⟩ := hg.exists_tableau
  have hloads : ∀ costs, t.grid.Keeps (t.grid.loadObjective costs) := fun costs => by
    rw [grid_loadObjective ht]
    exact keeps_grid (ht.keeps_loadObjective costs) hstart
  refine ⟨hloads, ⟨_, if_pos hstart, hloads _⟩, fun r hr c hc => ?_, fun allowed h g' hrun => ?_,
    fun allowed h n => ?_, ?_⟩
  · rw [grid, List.length_map] at hr
    exact ⟨_, grid_pivot ht tiny hr hc, keeps_grid (ht.keeps_pivot tiny hr hc) hstart⟩
  · obtain ⟨t', hrun', rfl⟩ := (run_grid_iff ht h).1 hrun
    exact ⟨keeps_grid (keeps_of_run ht h hrun') hstart, bars_of_run hrun'⟩
  · rw [grid_iterate ht tiny h]
    rcases iterate_cases tiny allowed n t with ⟨t', hok, hrun, -⟩ | ⟨herror, -⟩ | herror
    · rw [hok]
      exact .inl ⟨_, rfl, (run_grid_iff ht h).2 ⟨t', hrun, rfl⟩⟩
    · rw [herror]
      exact .inr ⟨_, rfl⟩
    · rw [herror]
      exact .inr ⟨_, rfl⟩
  · obtain ⟨hgrid, hkeeps⟩ := grid_driveOutArtificials ht hstart tiny
    exact ⟨_, hgrid, keeps_grid hkeeps hstart⟩

end steps

/-! ## The method -/

/-- In the second phase the artificial variables are barred. -/
theorem Shaped.phaseTwo (hg : g.Shaped) (s : Simplex α) (p : Problem α) :
    (∃ g', g.phaseTwo s p = .ok g' ∧ g.Keeps g' ∧ Bars g.artificialStart g g') ∨
      ∃ status, g.phaseTwo s p = .error (.because status) := by
  have hloads := (hg.steady s.precision.pivot).loadObjective
    (p.columns.map fun column => p.direction.sense * column.objective)
  have hsteady := hloads.shaped.steady s.precision.pivot
  rcases hsteady.iterate g.artificialStart hg.start_le s.maxIterations with ⟨g', hok, hrun⟩ | herror
  · obtain ⟨hkeeps, hbars⟩ := hsteady.run g.artificialStart hg.start_le g' hrun
    exact .inl ⟨g', hok, hloads.trans hkeeps, hbars⟩
  · exact .inr herror

/-- On a built problem the grid solves as the tableau does, and no place is missing. -/
theorem solveIn_eq {p : Problem α} {box : Box α} (hp : p.Known)
    (hlower : box.lower.length = p.columns.length) (hupper : box.upper.length = p.columns.length)
    (s : Simplex α) : solveIn s p box = (s.solveIn p box).mapError Stop.because := by
  have hshaped := shaped_ofProblem p box
  have hstart := start_le_ofProblem p box
  unfold solveIn Simplex.solveIn
  split
  · rfl
  · rw [ofProblem_eq_ok hp hlower hupper, ok_bind, s.grid_phaseOne hshaped hstart]
    cases hone : s.phaseOne (.ofProblem p box.lower box.upper) with
    | error status => rfl
    | ok t =>
      have hkeeps := s.keeps_of_phaseOne hshaped hstart hone
      have hstart' : t.artificialStart ≤ t.width := by rwa [hkeeps.start_eq, hkeeps.width_eq]
      simp only [Except.map, Except.mapError, ok_bind, s.grid_phaseTwo hkeeps.shaped hstart']
      cases htwo : s.phaseTwo p t with
      | error status => rfl
      | ok t' =>
        have hkeeps' := s.keeps_of_phaseTwo hkeeps.shaped hstart' htwo
        simp only [ok_bind, Simplex.grid_valuesFrom hkeeps'.shaped hlower]
        rfl

/-- The starting grid has the right shape, with a slack of its own for each row that is no equation
and an artificial variable of its own for each row that is no upper limit. Nothing that is done with
a grid of the right shape changes the shape, and the second phase makes no artificial variable basic
in a row where it was not. So the method stops only with a status, and has the answer that it has on
the tableau. -/
theorem places_in_range {p : Problem α} (hp : p.Built) {box : Box α}
    (hlower : box.lower.length = p.columns.length) (hupper : box.upper.length = p.columns.length)
    (s : Simplex α) :
    (∃ dense slots g, constraints p box = .ok dense ∧ ofProblem p box = .ok g ∧
      LaidOut p.columns.length dense slots g ∧ g.Shaped) ∧
    (∀ g : Grid α, g.Shaped → g.Steady s.precision.pivot ∧
      ((∃ g', g.phaseTwo s p = .ok g' ∧ g.Keeps g' ∧ Bars g.artificialStart g g') ∨
        ∃ status, g.phaseTwo s p = .error (.because status))) ∧
    solveIn s p box ≠ .error .outOfRange ∧
    solveIn s p box = (s.solveIn p box).mapError Stop.because := by
  have hsolve := solveIn_eq hp.known hlower hupper s
  refine ⟨⟨_, _, _, constraints_eq_ok hp.known hlower hupper,
    ofProblem_eq_ok hp.known hlower hupper, laidOut_ofProblem p box,
    shaped_grid (shaped_ofProblem p box) (start_le_ofProblem p box)⟩,
    fun g hg => ⟨hg.steady _, hg.phaseTwo s p⟩, ?_, hsolve⟩
  rw [hsolve]
  cases s.solveIn p box <;> simp [Except.mapError]

open Sample in
/-- Behind the three columns of the wedge, its rows and the bound of `x` take three slacks and two
artificial variables. -/
theorem places_in_range_wedge :
    (∃ g, ofProblem wedge (lid 0) = .ok g ∧ g.Shaped ∧ g.Steady 0 ∧ g.basic = [3, 6, 7, 5] ∧
      g.artificialStart = 6 ∧ g.width = 8) ∧
    solveIn ⟨.exact, 20⟩ wedge (lid 0) = .ok ⟨8, [3, 5, 3]⟩ ∧
    solveIn ⟨.exact, 20⟩ wedge (lid 5) = .error (.because .infeasible) := by
  have hwedge := fun least => places_in_range built_wedge (lid_fits least).lower_length
    (lid_fits least).upper_length ⟨.exact, 20⟩
  obtain ⟨⟨-, -, g, -, hg, -, hshaped⟩, hsteady, -, hsolve⟩ := hwedge 0
  have hbasic : (ofProblem wedge (lid 0)).map (fun g => (g.basic, g.artificialStart, g.width)) =
      .ok ([3, 6, 7, 5], 6, 8) := by
    decide +kernel
  rw [hg] at hbasic
  obtain ⟨hbasic, hstart, hwidth⟩ :
      g.basic = [3, 6, 7, 5] ∧ g.artificialStart = 6 ∧ g.width = 8 := by
    simpa [Except.map] using hbasic
  refine ⟨⟨g, hg, hshaped, (hsteady g hshaped).1, hbasic, hstart, hwidth⟩, ?_, ?_⟩
  · rw [hsolve]
    decide +kernel
  · rw [(hwedge 5).2.2.2]
    decide +kernel

end Grid

end WorstCase
