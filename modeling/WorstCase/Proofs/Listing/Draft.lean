import WorstCase.Listing.Parser
import WorstCase.Proofs.Linear.Built
import WorstCase.Proofs.Number.Arithmetic

/-!
# Drafts

What the statements of a listing do to a draft whose columns have different names. An objective with
new names makes columns of them in order (`Draft.addObjective_eq`). From then on a name stands for
the number of its column (`Problem.intern_of_column?`), so comparisons become rows over the same
numbers (`Draft.addConstraint_row`) or bounds (`Draft.addConstraint_bound`).
-/

namespace WorstCase

/-! ## Columns by name -/

namespace Problem

variable {α : Type}

/-- The names of the columns. -/
def names (p : Problem α) : List String :=
  p.columns.map (·.name)

/-- The column with the number after those of `done`. -/
theorem column?_at {p : Problem α} {done rest : List (Column α)} {column : Column α}
    (h : p.columns = done ++ column :: rest) : p.column? (done.length + 1) = some column := by
  simp [column?, h]

theorem edit_at {p : Problem α} {done rest : List (Column α)} {column column' : Column α}
    (h : p.columns = done ++ column :: rest) {f : Column α → Except (ProblemError α) (Column α)}
    (hf : f column = .ok column') :
    p.edit (done.length + 1) f = .ok { p with columns := done ++ column' :: rest } := by
  have hset : (done ++ column :: rest).set done.length column' = done ++ column' :: rest := by simp
  simp only [edit, column?_at h, hf, Nat.add_sub_cancel, h, hset]

/-- In a problem whose columns have different names, a name tells the number. -/
theorem columnNamed?_of_column? {p : Problem α} (hn : p.names.Nodup) {c : Nat} {column : Column α}
    (h : p.column? c = some column) : p.columnNamed? column.name = some c := by
  unfold column? at h
  split at h
  · cases h
  · next hc =>
    obtain ⟨hlt, rfl⟩ := List.getElem?_eq_some_iff.1 h
    have hfind : p.columns.findIdx? (·.name == p.columns[c - 1].name) = some (c - 1) := by
      refine List.findIdx?_eq_some_iff_getElem.2 ⟨hlt, beq_self_eq_true _, fun j hj heq => ?_⟩
      have hpair := List.pairwise_iff_getElem.1 hn j (c - 1) (by simp [names]; omega)
        (by simpa [names] using hlt) hj
      simp only [names, List.getElem_map] at hpair
      exact hpair (beq_iff_eq.1 heq)
    rw [columnNamed?, hfind, Option.map_some, Nat.sub_add_cancel (Nat.one_le_iff_ne_zero.2 hc)]

/-- A row over columns of the problem is accepted. -/
theorem addRow_of_known {p : Problem α} {row : Row α}
    (h : ∀ t ∈ row.terms, (p.column? t.1).isSome) :
    p.addRow row = .ok { p with rows := p.rows ++ [row] } := by
  have hnone : (row.terms.find? fun t => (p.column? t.1).isNone) = none := by
    refine List.find?_eq_none.2 fun t ht hnone => ?_
    rw [Option.isNone_iff_eq_none] at hnone
    exact absurd (h t ht) (by simp [hnone])
  rw [addRow, hnone]

variable [Scalar α]

theorem intern_of_column? {p : Problem α} (hn : p.names.Nodup) {c : Nat} {column : Column α}
    (h : p.column? c = some column) : p.intern column.name = (p, c) := by
  rw [intern, columnNamed?_of_column? hn h]

theorem intern_of_not_mem {p : Problem α} {name : String} (h : name ∉ p.names) :
    p.intern name = (p.addColumn name false, p.columns.length + 1) := by
  have hnone : p.columns.findIdx? (·.name == name) = none := by
    refine List.findIdx?_eq_none_iff.2 fun column hcolumn => beq_eq_false_iff_ne.2 ?_
    rintro rfl
    exact h (List.mem_map_of_mem hcolumn)
  rw [intern, columnNamed?, hnone]
  rfl

theorem setLower_at {p : Problem α} {done rest : List (Column α)} {column : Column α}
    (h : p.columns = done ++ column :: rest) {lower : α}
    (hle : ∀ upper ∈ column.upper, ¬ upper < lower) : p.setLower (done.length + 1) lower =
      .ok { p with columns := done ++ { column with lower } :: rest } := by
  refine edit_at h ?_
  cases hupper : column.upper with
  | none => rfl
  | some upper => exact if_neg (hle upper hupper)

theorem setLower_at_error {p : Problem α} {done rest : List (Column α)} {column : Column α}
    (h : p.columns = done ++ column :: rest) {lower upper : α} (hupper : column.upper = some upper)
    (hlt : upper < lower) : p.setLower (done.length + 1) lower =
      .error (.crossedBounds (done.length + 1) lower upper) := by
  simp only [setLower, edit, column?_at h, hupper, if_pos hlt]

theorem setUpper_at {p : Problem α} {done rest : List (Column α)} {column : Column α}
    (h : p.columns = done ++ column :: rest) {upper : α} (hle : ¬ upper < column.lower) :
    p.setUpper (done.length + 1) upper =
      .ok { p with columns := done ++ { column with upper := some upper } :: rest } :=
  edit_at h (if_neg hle)

/-- Terms over names of columns make no columns. -/
theorem internTerms_of_column? {p : Problem α} (hn : p.names.Nodup) {name : Nat → String}
    {ts : List (Nat × α)}
    (h : ∀ t ∈ ts, ∃ column, p.column? t.1 = some column ∧ name t.1 = column.name) :
    p.internTerms (ts.map fun t => (name t.1, t.2)) = (p, ts) := by
  induction ts with
  | nil => rfl
  | cons t ts ih =>
    rw [List.forall_mem_cons] at h
    obtain ⟨⟨column, hcolumn, hname⟩, hts⟩ := h
    simp only [List.map_cons, internTerms, hname, intern_of_column? hn hcolumn, ih hts]

end Problem

/-- The column as its term of the objective makes it. -/
def Column.opened (column : Column Float) : Column Float :=
  ⟨column.name, 0, none, false, column.objective⟩

namespace Listing.Draft

open Problem Double

/-! ## Statements -/

theorem addAll_append (d : Draft Float) (items items' : List Item) :
    d.addAll (items ++ items') = (d.addAll items >>= fun d => d.addAll items') := by
  induction items generalizing d with
  | nil => rfl
  | cons item items ih =>
    simp only [List.cons_append, addAll]
    cases d.add item with
    | error e => rfl
    | ok d => exact ih d

/-- An objective with new names makes a column of each. -/
theorem addObjective_eq {p : Problem Float} {columns : List (Column Float)}
    (hn : (p.names ++ columns.map (·.name)).Nodup)
    (hzero : ∀ column ∈ columns, 0 + column.objective = column.objective) :
    addObjective p (columns.map fun column => (column.name, column.objective)) =
      .ok { p with columns := p.columns ++ columns.map Column.opened } := by
  induction columns generalizing p with
  | nil => simp [addObjective]
  | cons column columns ih =>
    rw [List.forall_mem_cons] at hzero
    have hnew : column.name ∉ p.names := fun hmem =>
      (List.nodup_append.1 hn).2.2 _ hmem _ List.mem_cons_self rfl
    have hedit : (p.addColumn column.name false).edit (p.columns.length + 1)
        (fun old => .ok { old with objective := old.objective + column.objective }) =
          .ok { p with columns := p.columns ++ [column.opened] } := by
      have hcolumns : (p.addColumn column.name false).columns =
          p.columns ++ ⟨column.name, 0, none, false, 0⟩ :: [] := rfl
      exact edit_at hcolumns
        (congrArg (fun k => Except.ok { column.opened with objective := k }) hzero.1)
    simp only [List.map_cons, addObjective, intern_of_not_mem hnew, hedit]
    rw [ih ?_ hzero.2]
    · simp
    · simpa [names, Column.opened] using hn

/-- What a declaration leaves of columns that are not declared yet. -/
theorem addIntegers_eq {p : Problem Float} {done columns : List (Column Float)}
    (hp : p.columns = done ++ columns.map ({ · with integer := false }))
    (hn : p.names.Nodup) :
    addIntegers p ((columns.filter (·.integer)).map (·.name)) =
      .ok { p with columns := done ++ columns } := by
  induction columns generalizing p done with
  | nil =>
    rw [List.map_nil, List.append_nil] at hp
    simp [addIntegers, ← hp]
  | cons column columns ih =>
    have hnext : done ++ column :: columns = (done ++ [column]) ++ columns := by simp
    cases hi : column.integer with
    | false =>
      have hsame : { column with integer := false } = column := by rw [← hi]
      rw [List.filter_cons, hi, if_neg Bool.false_ne_true, hnext]
      refine ih ?_ hn
      rw [hp, List.map_cons, hsame, List.append_assoc, List.singleton_append]
    | true =>
      have hsame : { column with integer := true } = column := by rw [← hi]
      have hedit : p.setInteger (done.length + 1) true =
          .ok { p with columns := done ++ column :: columns.map ({ · with integer := false }) } :=
        edit_at hp (congrArg Except.ok hsame)
      have hintern := intern_of_column? hn (column?_at hp)
      rw [List.filter_cons, hi, if_pos rfl, List.map_cons, addIntegers, hintern]
      simp only [hedit]
      rw [hnext, List.append_cons]
      refine ih rfl ?_
      simpa [names, hp] using hn

section constraint

variable {α : Type} [Scalar α] {d : Draft α} {left right : Side α} {p p' : Problem α}
  {leftTerms rightTerms : List (Nat × α)}
  (hleft : d.problem.internTerms left.terms = (p, leftTerms))
  (hright : p.internTerms (right.terms.map fun t => (t.1, -t.2)) = (p', rightTerms))

include hleft hright

/-- A comparison with any number of terms but one is a row. -/
theorem addConstraint_of_length_ne_one (hlen : (leftTerms ++ rightTerms).length ≠ 1)
    (text : List Char) (comparison : Comparison) :
    d.addConstraint text left comparison right =
      { d with comment := none }.withProblem (p'.addRow ⟨leftTerms ++ rightTerms, comparison,
        right.constant - left.constant, d.group, d.comment⟩) := by
  simp only [addConstraint, hleft, hright]
  split
  · next heq => exact absurd (congrArg List.length heq) hlen
  · rfl

/-- A comparison with one term, whose coefficient is positive, is a bound. -/
theorem addConstraint_of_eq_singleton {c : Nat} {k : α}
    (hterms : leftTerms ++ rightTerms = [(c, k)]) (hzero : (k == 0) = false) (hneg : ¬ k < 0)
    (text : List Char) (comparison : Comparison) :
    d.addConstraint text left comparison right =
      { d with comment := none }.withProblem
        (setBound p' c comparison ((right.constant - left.constant) / k)) := by
  simp only [addConstraint, hleft, hright, hterms, hzero, hneg, Bool.false_eq_true, if_false]

end constraint

/-- A comparison over names of columns is a row over their numbers. -/
theorem addConstraint_row {d : Draft Float} (hn : d.problem.names.Nodup) (name : Nat → String)
    {left right : List (Nat × Float)} (hlen : (left ++ right).length ≠ 1)
    (hknown : ∀ t ∈ left ++ right,
      ∃ column, d.problem.column? t.1 = some column ∧ name t.1 = column.name)
    {rhs : Float} (hrhs : rhs.isFinite) (text : List Char) (comparison : Comparison) :
    d.addConstraint text ⟨left.map fun t => (name t.1, t.2), 0⟩ comparison
        ⟨right.map fun t => (name t.1, -t.2), rhs⟩ =
      .ok { d with
        problem := { d.problem with
          rows := d.problem.rows ++ [⟨left ++ right, comparison, rhs, d.group, d.comment⟩] }
        comment := none } := by
  have hleft := internTerms_of_column? hn fun t ht => hknown t (List.mem_append_left _ ht)
  have hright := internTerms_of_column? hn fun t ht => hknown t (List.mem_append_right _ ht)
  have hturn : (right.map fun t => (name t.1, -t.2)).map (fun t : String × Float => (t.1, -t.2)) =
      right.map fun t => (name t.1, t.2) := by
    simp [neg_neg]
  rw [← hturn] at hright
  refine (addConstraint_of_length_ne_one hleft hright hlen text comparison).trans ?_
  have hrow : d.problem.addRow ⟨left ++ right, comparison, rhs - 0, d.group, d.comment⟩ =
      .ok { d.problem with
        rows := d.problem.rows ++ [⟨left ++ right, comparison, rhs, d.group, d.comment⟩] } := by
    rw [sub_zero hrhs]
    refine addRow_of_known fun t ht => ?_
    obtain ⟨column, hcolumn, -⟩ := hknown t ht
    rw [hcolumn]
    rfl
  exact congrArg (withProblem { d with comment := none }) hrow

/-- A comparison of the name of a column with a number is a bound. -/
theorem addConstraint_bound {d : Draft Float} (hn : d.problem.names.Nodup) {c : Nat}
    {column : Column Float} (hc : d.problem.column? c = some column) {x : Float}
    (hx : x.isFinite) (text : List Char) (comparison : Comparison) :
    d.addConstraint text ⟨[(column.name, 1)], 0⟩ comparison ⟨[], x⟩ =
      { d with comment := none }.withProblem (setBound d.problem c comparison x) := by
  have hleft : d.problem.internTerms [(column.name, (1 : Float))] = (d.problem, [(c, 1)]) := by
    simp only [internTerms, intern_of_column? hn hc]
  have hbound : (x - 0) / 1 = x := by rw [sub_zero hx, div_one hx]
  refine (addConstraint_of_eq_singleton hleft rfl rfl (by decide) (by decide) text
    comparison).trans ?_
  exact congrArg
    (fun y => withProblem { d with comment := none } (setBound d.problem c comparison y)) hbound

end Listing.Draft

end WorstCase
