import WorstCase.Proofs.Listing.Listable

/-!
# Listings read back

A problem without one-term rows is read back from its listing exactly if no minus stands behind a
plus in it (`Problem.parse_listing_sorted`, `Problem.parse_listing_eq_error`), provided that its
numbers can be read back from their texts. The objective makes the columns in their order, so that a
name stands for the same number as in the problem; rows are added one by one, and bounds and
declarations complete the columns. Terms come back in the order in which they are written
(`Problem.sorted`), and the signs of zeros among right sides and bounds are lost (`Problem.reread`).
A listable problem is read back with its rows as they are (`Problem.parse_listing`).
-/

namespace WorstCase

open Text Listing Double

/-! ## Drafts -/

/-- The row as it is read back. -/
def Row.reread (row : Row Float) : Row Float :=
  { row with rhs := plain row.rhs }

/-- The row with its terms in the order in which they are written. -/
def Row.sorted (row : Row Float) : Row Float :=
  { row with terms := Problem.leftTerms row ++ Problem.rightTerms row }

theorem Row.Listable.sorted_eq {row : Row Float} (h : row.Listable) : row.sorted = row := by
  rw [Row.sorted, Problem.leftTerms_append_rightTerms h]

/-- The column as it is read back. -/
def Column.reread (column : Column Float) : Column Float :=
  { column with lower := plain column.lower, upper := column.upper.map plain }

/-- The column once its bounds have been read. -/
def Column.bounded (column : Column Float) : Column Float :=
  { column.reread with integer := false }

namespace Problem

/-- The problem as it is read back. -/
def reread (p : Problem Float) : Problem Float where
  name := "parsed"
  direction := p.direction
  columns := p.columns.map Column.reread
  rows := p.rows.map Row.reread

/-- The problem with the terms of its rows in the order in which they are written. -/
def sorted (p : Problem Float) : Problem Float :=
  { p with rows := p.rows.map Row.sorted }

theorem Listable.sorted_eq {p : Problem Float} (h : p.Listable) : p.sorted = p := by
  rw [sorted, List.map_congr_left fun row hrow => (h.rows row hrow).sorted_eq, List.map_id']

theorem exists_column?_of_names {p q : Problem Float} (hnames : q.names = p.names) {c : Nat}
    {column : Column Float} (h : p.column? c = some column) :
    ∃ column', q.column? c = some column' ∧ column'.name = column.name := by
  unfold column? at *
  split at h
  · cases h
  · next hc =>
    have hname : q.names[c - 1]? = some column.name := by
      rw [hnames, names, List.getElem?_map, h]
      rfl
    rw [names, List.getElem?_map, Option.map_eq_some_iff] at hname
    rwa [if_neg hc]

/-- A section that does the same in each group leaves the group open. -/
theorem exists_addAll_titledItems {texts : List (List Char)} {p p' : Problem Float}
    (h : ∀ group, Draft.addAll ⟨p, true, group, none⟩ (texts.map .statement) =
      .ok ⟨p', true, group, none⟩) (group : RowGroup) :
    ∃ g, Draft.addAll ⟨p, true, group, none⟩ (titledItems texts) = .ok ⟨p', true, g, none⟩ := by
  cases texts with
  | nil => exact ⟨group, h group⟩
  | cons text texts => exact ⟨.other, h .other⟩

/-- Sorting keeps the terms. -/
theorem perm_terms (row : Row Float) : (leftTerms row ++ rightTerms row).Perm row.terms := by
  have hright : rightTerms row = row.terms.filter fun t => !decide (0 ≤ t.2) := by
    simp only [rightTerms, decide_not]
  rw [hright]
  exact List.filter_append_perm _ row.terms

/-- Before the statement of a row its group and its comment are set. -/
theorem addAll_rowItems_cons {p : Problem Float} {d : Draft Float} (hcomment : d.comment = none)
    {group : Option RowGroup} {row : Row Float} (hgroup : ∀ g ∈ group, d.group = g)
    {rows : List (Row Float)} : d.addAll (p.rowItems group (row :: rows)) =
      (Draft.add { d with group := row.group, comment := row.comment } (.statement (p.rowText row))
        >>= fun d => d.addAll (p.rowItems (some row.group) rows)) := by
  have htitle : d.addAll (if group = some row.group then [] else [.heading row.group]) =
      .ok { d with group := row.group } := by
    split
    · next hg =>
      rw [← hgroup row.group hg]
      rfl
    · rfl
  have hremark : Draft.addAll { d with group := row.group }
      (row.comment.toList.map fun text => .remark text.toList) =
        .ok { d with group := row.group, comment := row.comment } := by
    cases row.comment with
    | none =>
      exact congrArg (fun c => Except.ok { d with group := row.group, comment := c }) hcomment
    | some text => simp [Draft.addAll, Draft.add]
  rw [rowItems, Draft.addAll_append, Draft.addAll_append, htitle]
  simp only [bind, Except.bind, hremark, Draft.addAll]
  cases Draft.add { d with group := row.group, comment := row.comment }
    (.statement (p.rowText row)) <;> rfl

/-- The declaration makes columns integer. -/
theorem addAll_integerTexts {p : Problem Float} (h : p.Spelled) {d : Draft Float}
    {columns : List (Column Float)}
    (hd : d.problem.columns = columns.map ({ · with integer := false }))
    (hn : (columns.map (·.name)).Nodup)
    (hdeclared : (columns.filter (·.integer)).map (·.name) =
      (p.columns.filter (·.integer)).map (·.name)) :
    d.addAll (p.integerTexts.map .statement) =
      .ok { d with problem := { d.problem with columns } } := by
  have hnames : d.problem.names.Nodup := by
    rw [names, hd, List.map_map]
    exact hn
  have hintegers := Draft.addIntegers_eq (hd.trans (List.nil_append _).symm) hnames
  have hspelled : ∀ name ∈ (p.columns.filter (·.integer)).map (·.name.toList), IsName name := by
    intro name hname
    obtain ⟨column, hcolumn, rfl⟩ := List.mem_map.1 hname
    exact (h.columns column (List.mem_of_mem_filter hcolumn)).name
  have htexts : (p.columns.filter (·.integer)).map (·.name) =
      ((p.columns.filter (·.integer)).map (·.name.toList)).map String.ofList := by
    simp
  rw [hdeclared, htexts, List.nil_append] at hintegers
  unfold integerTexts
  dsimp only
  split
  · next hnil =>
    rw [List.isEmpty_iff.1 hnil] at hintegers
    exact congrArg d.withProblem hintegers
  · simp only [List.map_cons, List.map_nil, Draft.addAll, Draft.add,
      Statement.read_integers hspelled, hintegers, Draft.withProblem]

section parts

variable {p : Problem Float} (h : p.Spelled) {opened : List (Column Float)}
  {rows : List (Row Float)} {group : RowGroup}
  (hrows : Draft.start.addAll (.heading .other :: .statement (trim p.objectiveText) ::
    p.rowItems none p.rows) = .ok ⟨⟨"parsed", p.direction, opened, rows⟩, true, group, none⟩)

include h hrows

/-- What is read if the objective, the rows and the bounds are. -/
theorem parse_listing_of_addAll {columns : List (Column Float)}
    (hbounds : ∀ group, Draft.addAll ⟨⟨"parsed", p.direction, opened, rows⟩, true, group, none⟩
      ((p.columns.flatMap boundTexts).map .statement) = .ok ⟨⟨"parsed", p.direction,
        columns.map ({ · with integer := false }), rows⟩, true, group, none⟩)
    (hn : (columns.map (·.name)).Nodup)
    (hdeclared : (columns.filter (·.integer)).map (·.name) =
      (p.columns.filter (·.integer)).map (·.name)) :
    parse p.listing = .ok ⟨"parsed", p.direction, columns, rows⟩ := by
  have hintegers : ∀ group, Draft.addAll ⟨⟨"parsed", p.direction,
      columns.map ({ · with integer := false }), rows⟩, true, group, none⟩
        (p.integerTexts.map .statement) =
      .ok ⟨⟨"parsed", p.direction, columns, rows⟩, true, group, none⟩ := fun group =>
    addAll_integerTexts h (d := ⟨⟨_, _, _, _⟩, true, group, none⟩) rfl hn hdeclared
  obtain ⟨g₁, h₁⟩ := exists_addAll_titledItems hbounds group
  obtain ⟨g₂, h₂⟩ := exists_addAll_titledItems hintegers g₁
  rw [parse, listing, String.toList_ofList, h.reads.read_eq, items, Draft.addAll_append,
    Draft.addAll_append, hrows]
  simp only [bind, Except.bind, h₁, h₂]
  rfl

/-- A bound that is not accepted. -/
theorem parse_listing_error_of_addAll {e : ListingError Float}
    (hbounds : ∀ group, Draft.addAll ⟨⟨"parsed", p.direction, opened, rows⟩, true, group, none⟩
      ((p.columns.flatMap boundTexts).map .statement) = .error e) :
    parse p.listing = .error e := by
  have htitled : Draft.addAll ⟨⟨"parsed", p.direction, opened, rows⟩, true, group, none⟩
      (titledItems (p.columns.flatMap boundTexts)) = .error e := by
    unfold titledItems
    cases htexts : p.columns.flatMap boundTexts with
    | nil =>
      have hnone := hbounds group
      rw [htexts] at hnone
      cases hnone
    | cons text texts =>
      have hsome := hbounds .other
      rw [htexts] at hsome
      exact hsome
  rw [parse, listing, String.toList_ofList, h.reads.read_eq, items, Draft.addAll_append,
    Draft.addAll_append, hrows]
  simp only [bind, Except.bind, htitled]

end parts

section draft

variable {p : Problem Float} (h : p.Separable) (hread : p.ReadsBack)

include h hread

/-- The rows of the listing are added to the draft. -/
theorem addAll_rowItems {rows : List (Row Float)} (hrows : ∀ row ∈ rows, row ∈ p.rows)
    (hlen : ∀ row ∈ rows, row.terms.length ≠ 1) (hs : ∀ row ∈ rows, row.WellSigned)
    {d : Draft Float} (hnames : d.problem.names = p.names) (hcomment : d.comment = none)
    {group : Option RowGroup} (hgroup : ∀ g ∈ group, d.group = g) :
    ∃ g, d.addAll (p.rowItems group rows) =
      .ok { d with
        problem := { d.problem with
          rows := d.problem.rows ++ rows.map fun row => row.sorted.reread }
        group := g
        comment := none } := by
  induction rows generalizing d group with
  | nil => exact ⟨d.group, by simp [rowItems, Draft.addAll, ← hcomment]⟩
  | cons row rows ih =>
    rw [List.forall_mem_cons] at hrows hlen hs
    have hstatement : Draft.add { d with group := row.group, comment := row.comment }
        (.statement (p.rowText row)) =
          .ok { d with
            problem := { d.problem with rows := d.problem.rows ++ [row.sorted.reread] }
            group := row.group
            comment := none } := by
      have hlength : (leftTerms row ++ rightTerms row).length ≠ 1 := by
        rw [(perm_terms row).length_eq]
        exact hlen.1
      have hknown : ∀ t ∈ leftTerms row ++ rightTerms row, ∃ column,
          d.problem.column? t.1 = some column ∧ String.ofList (p.nameOf t.1) = column.name := by
        intro t ht
        obtain ⟨column, hcolumn, -⟩ := h.exists_column hrows.1 ((perm_terms row).mem_iff.1 ht)
        obtain ⟨column', hcolumn', hname⟩ := exists_column?_of_names hnames hcolumn
        exact ⟨column', hcolumn', by rw [nameOf_eq hcolumn, String.ofList_toList, hname]⟩
      have hrhs := isFinite_plain ((h.rows row hrows.1).finite row.rhs List.mem_cons_self)
      simp only [Draft.add, read_rowText h hrows.1 hs.1 (hread.rows row hrows.1)]
      exact Draft.addConstraint_row
        (d := { d with group := row.group, comment := row.comment }) (hnames ▸ h.names_nodup)
        (fun c => String.ofList (p.nameOf c)) hlength hknown hrhs (p.rowText row) row.comparison
    have hgroup' : ∀ g ∈ some row.group, row.group = g := fun g hg => Option.some.inj hg
    obtain ⟨g, hrest⟩ := ih hrows.2 hlen.2 hs.2
      (d := ⟨{ d.problem with rows := d.problem.rows ++ [row.sorted.reread] }, d.hasObjective,
        row.group, none⟩) hnames rfl hgroup'
    refine ⟨g, ?_⟩
    rw [addAll_rowItems_cons hcomment hgroup, hstatement]
    simp only [bind, Except.bind, hrest]
    simp

/-- One statement of a bound changes its column. -/
theorem add_boundText {column : Column Float} (hcolumn : column ∈ p.columns)
    (hbound : boundTexts column ≠ []) (comparison : Comparison) {x : Float}
    (hx : x ∈ column.numbers) {d : Draft Float}
    (hn : d.problem.names.Nodup) (hcomment : d.comment = none) {done rest : List (Column Float)}
    {old : Column Float} (hd : d.problem.columns = done ++ old :: rest)
    (hname : old.name = column.name) :
    d.add (.statement (comparisonText column.name.toList comparison (Shortest.text x))) =
      d.withProblem (Draft.setBound d.problem (done.length + 1) comparison (plain x)) := by
  have hfin := isFinite_plain ((h.columns column hcolumn).finite x hx)
  have hadd := Draft.addConstraint_bound hn (column?_at hd) hfin
    (comparisonText column.name.toList comparison (Shortest.text x)) comparison
  rw [hname, ← hcomment] at hadd
  simp only [Draft.add, read_boundText h hread hcolumn hbound comparison hx]
  exact hadd

theorem addAll_lowerTexts {column : Column Float} (hcolumn : column ∈ p.columns) {d : Draft Float}
    (hn : d.problem.names.Nodup) (hcomment : d.comment = none) {done rest : List (Column Float)}
    {old : Column Float} (hd : d.problem.columns = done ++ old :: rest)
    (hname : old.name = column.name) (hold : old.lower = 0)
    (hle : ∀ upper ∈ old.upper, ¬ upper < plain column.lower) :
    d.addAll ((lowerTexts column).map .statement) = .ok { d with
      problem := { d.problem with
        columns := done ++ { old with lower := plain column.lower } :: rest } } := by
  by_cases hzero : column.lower == 0
  · have hplain : plain column.lower = 0 := if_pos hzero
    have hsame : { old with lower := plain column.lower } = old := by rw [hplain, ← hold]
    simp [lowerTexts, bne, hzero, Draft.addAll, hsame, ← hd]
  · have hlow : column.lower ∈ column.numbers := List.mem_cons_of_mem _ List.mem_cons_self
    have hbound : boundTexts column ≠ [] := by simp [boundTexts, lowerTexts, bne, hzero]
    have hadd := add_boundText h hread hcolumn hbound .atLeast hlow hn hcomment hd hname
    rw [Draft.setBound, setLower_at hd hle] at hadd
    simp only [lowerTexts, bne, hzero, Bool.not_false, if_true, List.map_cons, List.map_nil,
      Draft.addAll, hadd]
    rfl

theorem addAll_upperTexts {column : Column Float} (hcolumn : column ∈ p.columns) {d : Draft Float}
    (hn : d.problem.names.Nodup) (hcomment : d.comment = none) {done rest : List (Column Float)}
    {old : Column Float} (hd : d.problem.columns = done ++ old :: rest)
    (hname : old.name = column.name) (hold : old.lower = plain column.lower) :
    d.addAll ((upperTexts column).map .statement) = .ok { d with
      problem := { d.problem with
        columns :=
          done ++ { old with upper := (column.upper.map plain).or old.upper } :: rest } } := by
  have hl := h.readable column hcolumn
  cases hupper : column.upper with
  | none => simp [upperTexts, hupper, Draft.addAll, ← hd]
  | some upper =>
    have hlow : column.lower ∈ column.numbers := List.mem_cons_of_mem _ List.mem_cons_self
    have hup : upper ∈ column.numbers := by simp [Column.numbers, hupper]
    have hle : ¬ plain upper < old.lower := by
      rw [hold, plain_lt_plain_iff (hl.finite _ hup) (hl.finite _ hlow)]
      exact not_lt_of_le (hl.finite _ hlow) (hl.finite _ hup) (hl.lower_le upper hupper)
    have hbound : boundTexts column ≠ [] := by simp [boundTexts, upperTexts, hupper]
    have hadd := add_boundText h hread hcolumn hbound .atMost hup hn hcomment hd hname
    rw [Draft.setBound, setUpper_at hd hle] at hadd
    simp only [upperTexts, hupper, Option.toList, List.map_cons, List.map_nil, Draft.addAll, hadd]
    rfl

/-- The bounds of a column are set. What is above its lower bound already stays unless an upper
bound is stated. -/
theorem addAll_boundTexts_column {column : Column Float} (hcolumn : column ∈ p.columns)
    {d : Draft Float} (hn : d.problem.names.Nodup) (hcomment : d.comment = none)
    {done rest : List (Column Float)} {old : Column Float}
    (hd : d.problem.columns = done ++ old :: rest) (hname : old.name = column.name)
    (hold : old.lower = 0) (hle : ∀ upper ∈ old.upper, ¬ upper < plain column.lower) :
    d.addAll ((boundTexts column).map .statement) = .ok { d with
      problem := { d.problem with
        columns := done ++ { old with
          lower := plain column.lower
          upper := (column.upper.map plain).or old.upper } :: rest } } := by
  have hlower := addAll_lowerTexts h hread hcolumn hn hcomment hd hname hold hle
  have hn' : ((done ++ { old with lower := plain column.lower } :: rest).map (·.name)).Nodup := by
    simpa [names, hd] using hn
  have hupper := addAll_upperTexts h hread hcolumn
    (d := { d with problem := { d.problem with columns := _ } }) hn' hcomment rfl hname rfl
  rw [boundTexts, List.map_append, Draft.addAll_append]
  exact (congrArg (· >>= _) hlower).trans hupper

/-- The bounds of columns are set. -/
theorem addAll_boundTexts {columns : List (Column Float)} (hcolumns : ∀ c ∈ columns, c ∈ p.columns)
    {d : Draft Float} (hn : d.problem.names.Nodup) (hcomment : d.comment = none)
    {done rest : List (Column Float)}
    (hd : d.problem.columns = done ++ (columns.map Column.opened ++ rest)) :
    d.addAll ((columns.flatMap boundTexts).map .statement) = .ok { d with
      problem := { d.problem with columns := done ++ (columns.map Column.bounded ++ rest) } } := by
  induction columns generalizing d done with
  | nil =>
    rw [List.map_nil, List.nil_append] at hd
    simp [Draft.addAll, ← hd]
  | cons column columns ih =>
    rw [List.forall_mem_cons] at hcolumns
    rw [List.map_cons, List.cons_append] at hd
    have hcolumn := addAll_boundTexts_column h hread hcolumns.1 hn hcomment hd rfl rfl
      fun upper hupper => absurd hupper (Option.not_mem_none upper)
    have hbounded : { column.opened with
        lower := plain column.lower
        upper := (column.upper.map plain).or column.opened.upper } = column.bounded := by
      rw [Column.opened, Option.or_none]
      rfl
    have hn' : ((done ++ column.bounded :: (columns.map Column.opened ++ rest)).map
        (·.name)).Nodup := by
      simpa [names, hd, Column.opened, Column.bounded, Column.reread] using hn
    have hrest := ih hcolumns.2
      (d := { d with problem := { d.problem with columns := _ } }) hn' hcomment
      (List.append_cons _ _ _)
    rw [hbounded] at hcolumn
    rw [List.flatMap_cons, List.map_append, Draft.addAll_append]
    refine (congrArg (· >>= _) hcolumn).trans ?_
    simp only [bind, Except.bind, hrest]
    simp

/-- The objective makes the columns. -/
theorem add_objectiveText (hs : ∀ column ∈ p.columns.tail, 0 ≤ column.objective) :
    Draft.start.add (.statement (trim p.objectiveText)) =
      .ok ⟨⟨"parsed", p.direction, p.columns.map Column.opened, []⟩, true, .other, none⟩ := by
  have hsum : SumOf (writeSum (p.columns.map fun column =>
      Shortest.text column.objective ++ ' ' :: column.name.toList))
      (p.columns.map fun column =>
        .column (String.ofList column.name.toList) column.objective) := by
    cases hcolumns : p.columns with
    | nil => exact .nil
    | cons first rest =>
      have hfirst : first ∈ p.columns := hcolumns ▸ List.mem_cons_self
      refine .cons (writesSigned_column ((h.columns first hfirst).finite _ List.mem_cons_self)
        (hread.columns first hfirst _ List.mem_cons_self) (h.columns first hfirst).name)
        (writes_map fun column hmem => ?_)
      have hcolumn : column ∈ p.columns := hcolumns ▸ List.mem_cons_of_mem _ hmem
      have hu : Unsigned column.objective :=
        ⟨(h.columns column hcolumn).finite _ List.mem_cons_self,
          hs column (hcolumns ▸ hmem), (h.readable column hcolumn).objective_ne_neg_zero⟩
      exact .column (hu.textOf (hread.columns column hcolumn _ List.mem_cons_self))
        (h.columns column hcolumn).name
  have hinline := inline_objective h.toSpelled
  have hterms : (Side.ofTerms (p.columns.map fun column =>
      .column (String.ofList column.name.toList) column.objective)).terms =
        p.columns.map fun column => (column.name, column.objective) := by
    have hside := ofTerms_columns (p.columns.map fun column => (column.name, column.objective)) []
    rw [List.map_map, List.append_nil] at hside
    simp only [String.ofList_toList]
    exact (congrArg Side.terms hside).trans (List.append_nil _)
  have hzero : ∀ column ∈ p.columns, 0 + column.objective = column.objective := by
    intro column hcolumn
    rw [zero_add ((h.columns column hcolumn).finite _ List.mem_cons_self),
      Double.plain_eq (h.readable column hcolumn).objective_ne_neg_zero]
  have hobjective := Draft.addObjective_eq
    (p := setDirection (.empty "parsed" .maximise) p.direction) h.names_nodup hzero
  simp only [Draft.add, objectiveText, Statement.read_objective hsum hinline p.direction, hterms]
  exact congrArg (Draft.withProblem ⟨_, true, .other, none⟩) hobjective

/-- The objective and the first rows of the listing. -/
theorem exists_addAll_rows (hobjective : ∀ column ∈ p.columns.tail, 0 ≤ column.objective)
    {rows : List (Row Float)} (hrows : ∀ row ∈ rows, row ∈ p.rows)
    (hlen : ∀ row ∈ rows, row.terms.length ≠ 1) (hs : ∀ row ∈ rows, row.WellSigned) : ∃ g,
    Draft.start.addAll (.heading .other :: .statement (trim p.objectiveText) ::
      p.rowItems none rows) = .ok ⟨⟨"parsed", p.direction, p.columns.map Column.opened,
        rows.map fun row => row.sorted.reread⟩, true, g, none⟩ := by
  have hopened : (p.columns.map Column.opened).map (·.name) = p.names := by
    rw [List.map_map]
    rfl
  have hgroup : ∀ g ∈ (none : Option RowGroup), RowGroup.other = g := fun g hg => by cases hg
  obtain ⟨g, hadd⟩ := addAll_rowItems h hread hrows hlen hs
    (d := ⟨⟨"parsed", p.direction, p.columns.map Column.opened, []⟩, true, .other, none⟩)
    hopened rfl hgroup
  have hheading : Draft.start.add (.heading .other) = .ok (Draft.start : Draft Float) := rfl
  refine ⟨g, ?_⟩
  simp only [Draft.addAll, hheading, add_objectiveText h hread hobjective, hadd, List.nil_append]

/-- A problem in which no minus stands behind a plus is read back, with its terms as they are
written. -/
theorem parse_listing_sorted (hlen : ∀ row ∈ p.rows, row.terms.length ≠ 1) (hs : p.WellSigned) :
    parse p.listing = .ok p.sorted.reread := by
  have hnames : ∀ f : Column Float → Column Float, (∀ column, (f column).name = column.name) →
      ((p.columns.map f).map (·.name)).Nodup := fun f hf => by
    simpa only [List.map_map, Function.comp_def, hf, names] using h.names_nodup
  obtain ⟨g, hrows⟩ := exists_addAll_rows h hread hs.objective (fun _ => id) hlen hs.rows
  have hcolumns : p.columns.map Column.opened = [] ++ (p.columns.map Column.opened ++ []) :=
    (List.append_nil _).symm
  have hbounded : p.columns.map Column.bounded =
      (p.columns.map Column.reread).map ({ · with integer := false }) := by
    rw [List.map_map]
    rfl
  have hdeclared : ((p.columns.map Column.reread).filter (·.integer)).map (·.name) =
      (p.columns.filter (·.integer)).map (·.name) := by
    simp [List.filter_map, Function.comp_def, Column.reread]
  have hreread : p.sorted.reread = ⟨"parsed", p.direction, p.columns.map Column.reread,
      p.rows.map fun row => row.sorted.reread⟩ := by
    simp only [reread, sorted, List.map_map]
    rfl
  rw [hreread]
  refine parse_listing_of_addAll h.toSpelled hrows (fun group => ?_)
    (hnames Column.reread fun _ => rfl) hdeclared
  have hbounds := addAll_boundTexts h hread (fun _ => id)
    (d := ⟨⟨"parsed", p.direction, p.columns.map Column.opened,
      p.rows.map fun row => row.sorted.reread⟩, true, group, none⟩)
    (hnames Column.opened fun _ => rfl) rfl hcolumns
  rwa [List.append_nil, List.nil_append, hbounded] at hbounds

end draft

theorem parse_listing_eq {p : Problem Float} (h : p.Listable) (hread : p.ReadsBack)
    (hknown : p.Known) : parse p.listing = .ok p.reread := by
  have hparse := parse_listing_sorted (h.separable hknown) hread
    (fun row hrow => (h.rows row hrow).length_ne_one) h.wellSigned
  rwa [h.sorted_eq] at hparse

/-! ## Rows that are not read -/

theorem exists_rowItems_append (p : Problem Float) (group : Option RowGroup)
    (rows rest : List (Row Float)) :
    ∃ g, p.rowItems group (rows ++ rest) = p.rowItems group rows ++ p.rowItems g rest := by
  induction rows generalizing group with
  | nil => exact ⟨group, rfl⟩
  | cons row rows ih =>
    obtain ⟨g, hg⟩ := ih (some row.group)
    refine ⟨g, ?_⟩
    rw [List.cons_append, rowItems, rowItems, hg]
    simp

theorem addAll_rowItems_error {p : Problem Float} {row : Row Float} {e : ListingError Float}
    (h : Statement.read (p.rowText row) = .error e) (d : Draft Float) (group : Option RowGroup)
    (rest : List (Row Float)) : d.addAll (p.rowItems group (row :: rest)) = .error e := by
  rw [rowItems]
  split <;> cases row.comment <;> simp [Draft.addAll, Draft.add, h]

/-- The first minus behind a plus makes reading fail. -/
theorem parse_listing_eq_error {p : Problem Float} (h : p.Separable) (hread : p.ReadsBack)
    (hlen : ∀ row ∈ p.rows, row.terms.length ≠ 1) (hs : ¬ p.WellSigned) :
    (parse p.listing : Except (ListingError Float) (Problem Float)) = .error (.badTerm "") := by
  have hadd : (Draft.start : Draft Float).addAll p.items = .error (.badTerm "") := by
    by_cases hobjective : ∀ column ∈ p.columns.tail, 0 ≤ column.objective
    · have hrow : ∃ row ∈ p.rows, ¬ row.WellSigned := by
        by_contra hall
        simp only [not_exists, not_and, not_not] at hall
        exact hs ⟨hobjective, hall⟩
      obtain ⟨rows, row, rest, hrows, hbad, hgood⟩ := exists_first hrow
      have hmem : ∀ r ∈ rows, r ∈ p.rows := fun r hr => hrows ▸ List.mem_append_left _ hr
      obtain ⟨g, hadd⟩ := exists_addAll_rows h hread hobjective hmem
        (fun r hr => hlen r (hmem r hr)) fun r hr => not_not.1 (hgood r hr)
      obtain ⟨g', happend⟩ := exists_rowItems_append p none rows (row :: rest)
      have hitems : p.items = (.heading .other :: .statement (trim p.objectiveText) ::
          p.rowItems none rows) ++ (p.rowItems g' (row :: rest) ++
            (titledItems (p.columns.flatMap boundTexts) ++ titledItems p.integerTexts)) := by
        rw [items, hrows, happend]
        simp
      have herror := read_rowText_eq_error h (hrows ▸ List.mem_append_right _ List.mem_cons_self)
        hbad (hread.rows row (hrows ▸ List.mem_append_right _ List.mem_cons_self))
      rw [hitems, Draft.addAll_append]
      refine (congrArg (· >>= _) hadd).trans ((Draft.addAll_append _ _ _).trans ?_)
      exact congrArg (· >>= _) (addAll_rowItems_error herror _ g' rest)
    · simp only [not_forall] at hobjective
      obtain ⟨column, hcolumn, hneg⟩ := hobjective
      have herror := read_objectiveText_eq_error h hread ⟨column, hcolumn, hneg⟩
      simp only [items, List.cons_append, Draft.addAll, Draft.add, herror]
  rw [parse, listing, String.toList_ofList, h.toSpelled.reads.read_eq, hadd]

end Problem

/-! ## Equality -/

theorem beq_map {β : Type} [BEq β] {f : β → β} {xs : List β} (h : ∀ x ∈ xs, f x == x) :
    xs.map f == xs := by
  induction xs with
  | nil => rfl
  | cons x xs ih =>
    rw [List.forall_mem_cons] at h
    exact Bool.and_eq_true_iff.2 ⟨h.1, ih h.2⟩

theorem Column.Spelled.reread_beq {column : Column Float} (h : column.Spelled) :
    column.reread == column := by
  have hlower : plain column.lower == column.lower :=
    plain_beq (h.finite _ (List.mem_cons_of_mem _ List.mem_cons_self))
  have hupper : column.upper.map plain == column.upper := by
    cases hu : column.upper with
    | none => rfl
    | some upper => exact plain_beq (h.finite upper (by simp [Column.numbers, hu]))
  have hobjective : column.objective == column.objective :=
    Float.beq_self_iff.2 (ne_nan_of_isFinite (h.finite _ List.mem_cons_self))
  change (column.name == column.name && (plain column.lower == column.lower &&
    (column.upper.map plain == column.upper && (column.integer == column.integer &&
      column.objective == column.objective)))) = true
  rw [hlower, hupper, hobjective]
  simp

theorem Row.Spelled.reread_beq {row : Row Float} (h : row.Spelled) : row.reread == row := by
  have hterms : row.terms == row.terms := by
    have hself : ∀ t ∈ row.terms, id t == t := fun t ht => Bool.and_eq_true_iff.2
      ⟨beq_self_eq_true _, Float.beq_self_iff.2 (ne_nan_of_isFinite (h.finite_of_mem ht))⟩
    simpa using beq_map hself
  have hrhs : plain row.rhs == row.rhs := plain_beq (h.finite _ List.mem_cons_self)
  change (row.terms == row.terms && (row.comparison == row.comparison &&
    (plain row.rhs == row.rhs && (row.group == row.group && row.comment == row.comment)))) = true
  rw [hterms, hrhs]
  simp

namespace Problem

/-- A problem is read back from its listing with the same direction, columns and rows. Numbers are
compared as numbers, so zeros of both signs are the same. -/
theorem parse_listing {p : Problem Float} (hp : p.Built) (h : p.Listable) (hread : p.ReadsBack) :
    ∃ q, parse p.listing = .ok q ∧ q.direction = p.direction ∧ q.columns == p.columns ∧
      q.rows == p.rows := by
  refine ⟨p.reread, parse_listing_eq h hread hp.known, rfl, ?_, ?_⟩
  · exact beq_map fun column hcolumn => (h.columns column hcolumn).reread_beq
  · exact beq_map fun row hrow => (h.rows row hrow).reread_beq

end Problem

namespace Sample

/-- A problem with a name that has a hyphen, with bounds below zero, with rows of two groups, and
with right sides below zero and of minus zero. -/
def blend : Problem Float where
  name := "blend"
  direction := .minimise
  columns := [⟨"a-1", -1.5, some 4, true, 2.5⟩, ⟨"b[2].c", 0, none, false, 0⟩,
    ⟨"Int_", 0, some 0, true, 1⟩]
  rows := [⟨[(1, 1), (3, 0.25), (2, -3)], .atMost, 7, .flow, some "Vertex 1"⟩,
    ⟨[(2, -1), (1, -1)], .equal, -0, .flow, none⟩,
    ⟨[(1, 2), (3, 1)], .atLeast, -4, .other, none⟩]

theorem built_blend : blend.Built := by
  have hcolumns : Problem.Built _ :=
    (((Problem.Built.empty (α := Float) "blend" .minimise).addColumn
      "a-1" true).addColumn "b[2].c" false).addColumn "Int_" true
  have hobjective : Problem.Built _ := (hcolumns.setObjective 1 2.5 rfl).setObjective 3 1 rfl
  have hbounds : Problem.Built _ :=
    ((hobjective.setLower 1 (-1.5) rfl).setUpper 1 4 rfl).setUpper 3 0 rfl
  have hflow := (hbounds.addRow
    ⟨[(1, 1), (3, 0.25), (2, -3)], .atMost, 7, .flow, some "Vertex 1"⟩ rfl).addRow
      ⟨[(2, -1), (1, -1)], .equal, -0, .flow, none⟩ rfl
  exact hflow.addRow ⟨[(1, 2), (3, 1)], .atLeast, -4, .other, none⟩ rfl

theorem spelled_blend : ∀ column ∈ blend.columns, IsName column.name.toList := by
  refine List.forall_mem_cons.2 ⟨?_, List.forall_mem_cons.2 ⟨?_, List.forall_mem_singleton.2 ?_⟩⟩
  · exact .mk rfl (.hyphen rfl .nil)
  · exact .mk rfl (.char rfl (.char rfl (.char rfl (.char rfl (.char rfl .nil)))))
  · exact .mk rfl (.char rfl (.char rfl (.char rfl .nil)))

theorem listable_blend : blend.Listable where
  names_nodup := by decide
  columns := by
    have hall : ∀ column ∈ blend.columns, (∀ x ∈ column.numbers, x.isFinite) ∧
        column.name.toList.map Char.toLower ≠ "int".toList ∧ 0 ≤ column.objective ∧
        column.objective ≠ -0 ∧ ∀ upper ∈ column.upper, column.lower ≤ upper := by decide +kernel
    intro column hcolumn
    obtain ⟨hfinite, hint, hnonneg, hzero, hle⟩ := hall column hcolumn
    exact ⟨⟨spelled_blend column hcolumn, hfinite⟩, hint, hnonneg, hzero, hle⟩
  rows := by
    have hall : ∀ row ∈ blend.rows, (∀ x ∈ row.numbers, x.isFinite) ∧ row.terms.length ≠ 1 ∧
        (∀ t ∈ row.terms, t.2 ≠ -0) ∧ (row.terms.Pairwise fun s t => 0 ≤ t.2 → 0 ≤ s.2) ∧
        (0 ≤ row.rhs ∨ ∀ t ∈ row.terms, 0 ≤ t.2) := by decide +kernel
    have hcomment : ∀ row ∈ blend.rows, row.comment = none ∨ row.comment = some "Vertex 1" := by
      decide
    intro row hrow
    obtain ⟨hfinite, hlength, hzero, hsorted, hrhs⟩ := hall row hrow
    refine ⟨⟨hfinite, fun text ht => ?_⟩, hlength, hzero, hsorted, hrhs⟩
    rcases hcomment row hrow with hnone | hsome
    · rw [hnone] at ht
      cases ht
    · rw [hsome] at ht
      obtain rfl := Option.some.inj ht
      refine ⟨⟨fun c hc => ?_, fun c hc => ?_⟩, by decide, by decide⟩
      · exact Option.some.inj hc ▸ by decide
      · exact Option.some.inj hc ▸ by decide

theorem readsBack_blend : blend.ReadsBack := by
  constructor <;> decide +kernel

end Sample

open Sample in
theorem Problem.parse_listing_blend : blend.Built ∧ blend.Listable ∧ blend.ReadsBack ∧
    ∃ q, parse blend.listing = .ok q ∧ q.direction = blend.direction ∧ q.columns == blend.columns ∧
      q.rows == blend.rows :=
  ⟨built_blend, listable_blend, readsBack_blend,
    parse_listing built_blend listable_blend readsBack_blend⟩

end WorstCase
