import WorstCase.Proofs.Linear.Built
import WorstCase.Proofs.Listing.Lines

/-!
# What the listing of a problem states

The lines of a listing state headings, remarks and statements in an order that can be told from the
problem (`Problem.items`). They do so for every problem whose numbers are finite, whose column names
follow the grammar and whose comments stand on one line (`Problem.Spelled.reads`): how the numbers
are signed does not matter.
-/

namespace WorstCase

open Text Listing

namespace Listing

/-! ## Lines -/

/-- A comparison is a statement as it stands. -/
theorem statementText_comparisonText {left right : List Char} (hl : Inline left) (hr : Inline right)
    (comparison : Comparison) : StatementText (comparisonText left comparison right) ∧
      trim (comparisonText left comparison right) = comparisonText left comparison right := by
  have hmem : ∀ c ∈ comparisonText left comparison right, c ≠ ';' ∧ c ≠ '\n' := by
    intro c hc
    rcases mem_comparisonText hl hr hc with hc | rfl | rfl | rfl
    · obtain ⟨-, hsemicolon, -, -, -, -, -, hnewline⟩ := ne_of_isTermChar hc
      exact ⟨hsemicolon, hnewline⟩
    all_goals decide
  obtain ⟨c, rest, rfl⟩ := List.exists_cons_of_ne_nil hl.ne_nil
  have hblank : ¬ isBlank c := hl.solid.head c rfl
  obtain ⟨-, -, -, -, -, hslash, -⟩ := ne_of_isTermChar (hl.chars c List.mem_cons_self)
  refine ⟨⟨⟨c, _, rfl, hblank, hslash⟩, fun h => (hmem _ h).1 rfl, fun h => (hmem _ h).2 rfl⟩,
    Solid.trim_self ⟨fun d hd => Option.some.inj hd ▸ hblank, fun d hd => ?_⟩⟩
  have hright : ' ' :: right ≠ [] := List.cons_ne_nil _ _
  rw [comparisonText, List.getLast?_append_of_ne_nil _ hright,
    List.getLast?_cons_of_ne_nil hr.ne_nil] at hd
  exact hr.solid.last d hd

theorem reads_statements {texts : List (List Char)}
    (h : ∀ text ∈ texts, StatementText text ∧ trim text = text) :
    Reads (texts.map (· ++ [';'])) (texts.map .statement) := by
  induction texts with
  | nil => exact .nil
  | cons text texts ih =>
    rw [List.forall_mem_cons] at h
    have := Reads.statement h.1.1 (ih h.2)
    rwa [h.1.2] at this

/-- The titles of sections are headings. -/
theorem reads_heading {title : String} {group : RowGroup} (h : (title, group) ∈ headings)
    {lines : List (List Char)} {items : List Item} (hlines : Reads lines items) :
    Reads (Problem.remarkLine title.toList :: lines) (.heading group :: items) := by
  have hall : ∀ q ∈ headings, q.1.toList.head?.all (!isBlank ·) ∧
      q.1.toList.getLast?.all (!isBlank ·) ∧ '\n' ∉ q.1.toList ∧
      headings.lookup q.1 = some q.2 := by decide
  obtain ⟨hhead, hlast, hline, hlookup⟩ := hall _ h
  have hsolid : Solid title.toList := by
    refine ⟨fun c hc => ?_, fun c hc => ?_⟩
    · simpa using (Option.all_eq_true _ _).1 hhead c hc
    · simpa using (Option.all_eq_true _ _).1 hlast c hc
  have hremark : Item.ofRemark title.toList = .heading group := by
    rw [Item.ofRemark, String.ofList_toList, hlookup]
  exact hremark ▸ .remark hsolid hline hlines

/-- The title of a group is a heading that the reader knows. -/
theorem title_mem_headings (group : RowGroup) : (group.title, group) ∈ headings := by
  cases group <;> simp [headings, RowGroup.title]

/-- What a section after the rows states. -/
def titledItems (texts : List (List Char)) : List Item :=
  if texts.isEmpty then [] else .heading .other :: texts.map .statement

/-- A section is read as its heading and the statements in it. -/
theorem reads_titled {title : String} (h : (title, .other) ∈ headings) {texts : List (List Char)}
    (htexts : ∀ text ∈ texts, StatementText text ∧ trim text = text) :
    Reads (Problem.titled title (texts.map (· ++ [';']))) (titledItems texts) := by
  cases texts with
  | nil => exact .nil
  | cons text texts => exact .blank (reads_heading h (reads_statements htexts))

/-- What texts are joined to ends as the last one does. -/
theorem last_of_join {sep : List Char} {css : List (List Char)} (hne : css ≠ [])
    (h : ∀ cs ∈ css, Inline cs) :
    join sep css ≠ [] ∧ ∀ c ∈ (join sep css).getLast?, ¬ isBlank c := by
  induction css with
  | nil => exact absurd rfl hne
  | cons cs css ih =>
    rw [List.forall_mem_cons] at h
    cases css with
    | nil => exact ⟨h.1.ne_nil, h.1.solid.last⟩
    | cons cs' css =>
      obtain ⟨hjoin, hlast⟩ := ih (List.cons_ne_nil _ _) h.2
      refine ⟨List.append_ne_nil_of_right_ne_nil _ hjoin, fun c hc => hlast c ?_⟩
      have hcons : join sep (cs :: cs' :: css) = cs ++ sep ++ join sep (cs' :: css) := rfl
      rwa [hcons, List.getLast?_append_of_ne_nil _ hjoin] at hc

/-- A declaration of names is one statement. -/
theorem statementText_declarationText {names : List (List Char)} (hne : names ≠ [])
    (h : ∀ name ∈ names, IsName name) :
    StatementText (declarationText names) ∧
      trim (declarationText names) = declarationText names := by
  have hmem : ∀ c ∈ declarationText names, c ≠ ';' ∧ c ≠ '\n' := by
    intro c hc
    rcases mem_declarationText h hc with hc | rfl
    · obtain ⟨-, hsemicolon, -, -, -, -, -, hnewline⟩ := ne_of_isTermChar hc
      exact ⟨hsemicolon, hnewline⟩
    · decide
  refine ⟨⟨⟨'i', _, rfl, by decide, by decide⟩, fun hc => (hmem _ hc).1 rfl,
    fun hc => (hmem _ hc).2 rfl⟩,
    Solid.trim_self ⟨fun d hd => Option.some.inj hd ▸ by decide, fun d hd => ?_⟩⟩
  obtain ⟨hjoin, hlast⟩ := last_of_join hne fun name hname => (h name hname).inline
  rw [declarationText, List.getLast?_append_of_ne_nil _ hjoin] at hd
  exact hlast d hd

end Listing

/-! ## Numbers -/

namespace Double

/-- The text of a finite double has the magnitude without a sign, after a minus if it has one. -/
theorem text_cases {x : Float} (h : x.isFinite) :
    Unsigned x ∨ Unsigned (-x) ∧ Shortest.text x = '-' :: Shortest.text (-x) := by
  by_cases hx : 0 ≤ x
  · by_cases hzero : x = -0
    · subst hzero
      exact .inr ⟨unsigned_zero, by decide⟩
    · exact .inl ⟨h, hx, hzero⟩
  · exact .inr ⟨unsigned_neg h hx, text_of_neg h hx⟩

theorem inline_text {x : Float} (h : x.isFinite) : Inline (Shortest.text x) := by
  rcases text_cases h with hx | ⟨hx, htext⟩
  · exact inline_of_positional hx.positional
  · rw [htext]
    exact inline_neg_of_positional hx.positional

end Double

/-- The numbers of a column. -/
def Column.numbers (column : Column Float) : List Float :=
  column.objective :: column.lower :: column.upper.toList

/-- The numbers of a row. -/
def Row.numbers (row : Row Float) : List Float :=
  row.rhs :: row.terms.map (·.2)

/-- The column can stand in a listing. -/
structure Column.Spelled (column : Column Float) : Prop where
  name : IsName column.name.toList
  finite : ∀ x ∈ column.numbers, x.isFinite

/-- The row can stand in a listing, and its comment is not taken for a heading. -/
structure Row.Spelled (row : Row Float) : Prop where
  finite : ∀ x ∈ row.numbers, x.isFinite
  comment : ∀ text ∈ row.comment,
    Solid text.toList ∧ '\n' ∉ text.toList ∧ headings.lookup text = none

theorem Row.Spelled.finite_of_mem {row : Row Float} (h : row.Spelled) {t : Nat × Float}
    (ht : t ∈ row.terms) : t.2.isFinite :=
  h.finite t.2 (List.mem_cons_of_mem _ (List.mem_map_of_mem ht))

namespace Problem

variable (p : Problem Float)

/-- The problem can be listed. -/
structure Spelled : Prop where
  known : p.Known
  columns : ∀ column ∈ p.columns, column.Spelled
  rows : ∀ row ∈ p.rows, row.Spelled

/-! ## Statements -/

/-- The statement of the objective. -/
def objectiveText : List Char :=
  keywordOf p.direction ++ writeSum (p.columns.map fun column =>
    Shortest.text column.objective ++ ' ' :: column.name.toList)

/-- The terms on the left side of a row. -/
def leftTexts (row : Row Float) : List (List Char) :=
  let left := row.terms.filterMap fun (c, k) =>
    if 0 ≤ k then some (writeTerm k (p.nameOf c)) else none
  if left.isEmpty then [['0']] else left

/-- The terms on the right side of a row. -/
def rightTexts (row : Row Float) : List (List Char) :=
  let right := row.terms.filterMap fun (c, k) =>
    if 0 ≤ k then none else some (writeTerm (-k) (p.nameOf c))
  if row.rhs != 0 || right.isEmpty then right ++ [Shortest.text row.rhs] else right

/-- The statement of a row. -/
def rowText (row : Row Float) : List Char :=
  comparisonText (writeSum (p.leftTexts row)) row.comparison (writeSum (p.rightTexts row))

/-- The statement of the lower bound of a column. -/
def lowerTexts (column : Column Float) : List (List Char) :=
  if column.lower != 0 then
    [comparisonText column.name.toList .atLeast (Shortest.text column.lower)]
  else []

/-- The statement of the upper bound of a column. -/
def upperTexts (column : Column Float) : List (List Char) :=
  column.upper.toList.map fun upper =>
    comparisonText column.name.toList .atMost (Shortest.text upper)

/-- The statements of the bounds of a column. -/
def boundTexts (column : Column Float) : List (List Char) :=
  lowerTexts column ++ upperTexts column

/-- The statement of the integer columns. -/
def integerTexts : List (List Char) :=
  let names := (p.columns.filter (·.integer)).map (·.name.toList)
  if names.isEmpty then [] else [declarationText names]

theorem objectiveLine_eq : p.objectiveLine = p.objectiveText ++ [';'] := by
  unfold objectiveLine objectiveText keywordOf
  cases p.direction <;> rfl

theorem boundLines_eq (column : Column Float) :
    boundLines column = (boundTexts column).map (· ++ [';']) := by
  have hlower : ∀ text, column.name.toList ++ " >= ".toList ++ text =
      comparisonText column.name.toList .atLeast text := fun text => by
    simp [comparisonText, Comparison.symbol]
  have hupper : ∀ text, column.name.toList ++ " <= ".toList ++ text =
      comparisonText column.name.toList .atMost text := fun text => by
    simp [comparisonText, Comparison.symbol]
  simp only [boundLines, boundTexts, lowerTexts, upperTexts, hlower, hupper, List.map_append]
  congr 1
  · split <;> rfl
  · cases column.upper <;> rfl

/-- A row starts a new section if its group is another one than that of the row before. -/
theorem rowLines_cons (group : Option RowGroup) (row : Row Float) (rows : List (Row Float)) :
    p.rowLines group (row :: rows) =
      (if group = some row.group then [] else [[], remarkLine row.group.title.toList]) ++
        (row.comment.toList.map fun text => remarkLine text.toList) ++
        (p.rowText row ++ [';']) :: p.rowLines (some row.group) rows := by
  rw [rowLines]
  cases row.comment <;> rfl

theorem integerLines_eq : p.integerLines = p.integerTexts.map (· ++ [';']) := by
  simp only [integerLines, integerTexts]
  split <;> rfl

/-! ## Items -/

/-- What the lines of rows state after a row of the group. -/
def rowItems : Option RowGroup → List (Row Float) → List Item
  | _, [] => []
  | group, row :: rest =>
    (if group = some row.group then [] else [.heading row.group]) ++
      row.comment.toList.map (fun text => .remark text.toList) ++
      .statement (p.rowText row) :: rowItems (some row.group) rest

/-- What the listing states. -/
def items : List Item :=
  .heading .other :: .statement (trim p.objectiveText) :: p.rowItems none p.rows ++
    titledItems (p.columns.flatMap boundTexts) ++ titledItems p.integerTexts

variable {p}

theorem nameOf_eq {c : Nat} {column : Column Float} (h : p.column? c = some column) :
    p.nameOf c = column.name.toList := by
  rw [nameOf, h]

theorem inline_writeTerm {k : Float} (hk : k.isFinite) {name : List Char} (hn : IsName name) :
    Inline (writeTerm k name) := by
  unfold writeTerm
  split
  · exact hn.inline
  · rw [List.append_cons]
    exact (Double.inline_text hk).append hn.inline (by simp [isTermChar])

namespace Spelled

variable (h : p.Spelled)

include h

theorem exists_column {row : Row Float} (hrow : row ∈ p.rows) {t : Nat × Float}
    (ht : t ∈ row.terms) : ∃ column, p.column? t.1 = some column ∧ column ∈ p.columns := by
  obtain ⟨column, hcolumn⟩ := Option.isSome_iff_exists.1
    (column?_isSome_iff.2 (h.known row hrow t ht))
  refine ⟨column, hcolumn, ?_⟩
  unfold column? at hcolumn
  split at hcolumn
  · cases hcolumn
  · exact List.mem_of_getElem? hcolumn

theorem isName_nameOf {row : Row Float} (hrow : row ∈ p.rows) {t : Nat × Float}
    (ht : t ∈ row.terms) : IsName (p.nameOf t.1) := by
  obtain ⟨column, hcolumn, hmem⟩ := h.exists_column hrow ht
  rw [nameOf_eq hcolumn]
  exact (h.columns column hmem).name

theorem inline_leftTexts {row : Row Float} (hrow : row ∈ p.rows) :
    Inline (writeSum (p.leftTexts row)) := by
  unfold leftTexts
  dsimp only
  split
  · have hzero : ∀ cs ∈ [['0']], Inline cs := fun cs hcs =>
      List.mem_singleton.1 hcs ▸ Double.inline_text Double.unsigned_zero.finite
    exact inline_writeSum (List.cons_ne_nil _ _) hzero
  · next hne =>
    refine inline_writeSum (fun hnil => hne (List.isEmpty_iff.2 hnil)) fun cs hcs => ?_
    obtain ⟨t, ht, hcs⟩ := List.mem_filterMap.1 hcs
    split at hcs
    · obtain rfl := Option.some.inj hcs
      exact inline_writeTerm ((h.rows row hrow).finite_of_mem ht) (h.isName_nameOf hrow ht)
    · cases hcs

theorem inline_rightTexts {row : Row Float} (hrow : row ∈ p.rows) :
    Inline (writeSum (p.rightTexts row)) := by
  have hterms : ∀ cs ∈ row.terms.filterMap (fun t : Nat × Float =>
      if 0 ≤ t.2 then none else some (writeTerm (-t.2) (p.nameOf t.1))), Inline cs := by
    intro cs hcs
    obtain ⟨t, ht, hcs⟩ := List.mem_filterMap.1 hcs
    split at hcs
    · cases hcs
    · obtain rfl := Option.some.inj hcs
      exact inline_writeTerm (Double.isFinite_neg ((h.rows row hrow).finite_of_mem ht))
        (h.isName_nameOf hrow ht)
  have hrhs := Double.inline_text ((h.rows row hrow).finite row.rhs List.mem_cons_self)
  unfold rightTexts
  dsimp only
  split
  · refine inline_writeSum (List.append_ne_nil_of_right_ne_nil _ (List.cons_ne_nil _ _)) ?_
    exact fun cs hcs => (List.mem_append.1 hcs).elim (hterms cs) fun hcs =>
      List.mem_singleton.1 hcs ▸ hrhs
  · next hne =>
    rw [Bool.or_eq_true, not_or] at hne
    exact inline_writeSum (fun hnil => hne.2 (List.isEmpty_iff.2 hnil)) hterms

/-- The rows of a listing are told apart from its headings and remarks. -/
theorem reads_rowLines {rows : List (Row Float)} (hrows : ∀ row ∈ rows, row ∈ p.rows)
    (group : Option RowGroup) : Reads (p.rowLines group rows) (p.rowItems group rows) := by
  induction rows generalizing group with
  | nil => exact .nil
  | cons row rows ih =>
    rw [List.forall_mem_cons] at hrows
    have htitle : Reads
        (if group = some row.group then [] else [[], remarkLine row.group.title.toList])
        (if group = some row.group then [] else [.heading row.group]) := by
      split
      · exact .nil
      · exact .blank (reads_heading (title_mem_headings row.group) .nil)
    have hcomment : Reads (row.comment.toList.map fun text => remarkLine text.toList)
        (row.comment.toList.map fun text => .remark text.toList) := by
      cases hc : row.comment with
      | none => exact .nil
      | some text =>
        obtain ⟨hsolid, hline, hlookup⟩ := (h.rows row hrows.1).comment text hc
        have hremark : Item.ofRemark text.toList = .remark text.toList := by
          rw [Item.ofRemark, String.ofList_toList, hlookup]
        have hread := Reads.remark hsolid hline .nil
        rw [hremark] at hread
        exact hread
    obtain ⟨htext, htrim⟩ := statementText_comparisonText (h.inline_leftTexts hrows.1)
      (h.inline_rightTexts hrows.1) row.comparison
    have hrow := Reads.statement htext (ih hrows.2 (some row.group))
    rw [htrim] at hrow
    rw [rowLines_cons]
    exact (htitle.append hcomment).append hrow

theorem statementText_objectiveText : StatementText p.objectiveText := by
  have hterms : ∀ cs ∈ p.columns.map (fun column =>
      Shortest.text column.objective ++ ' ' :: column.name.toList), Inline cs := by
    intro cs hcs
    obtain ⟨column, hcolumn, rfl⟩ := List.mem_map.1 hcs
    have hspelled := h.columns column hcolumn
    rw [List.append_cons]
    exact (Double.inline_text (hspelled.finite _ List.mem_cons_self)).append hspelled.name.inline
      (by simp [isTermChar])
  have hmax : ∀ c ∈ ['m', 'a', 'x', ':', ' '], c ≠ ';' ∧ c ≠ '\n' := by simp
  have hmin : ∀ c ∈ ['m', 'i', 'n', ':', ' '], c ≠ ';' ∧ c ≠ '\n' := by simp
  have hkeyword : ∀ c ∈ keywordOf p.direction, c ≠ ';' ∧ c ≠ '\n' := by
    cases p.direction with
    | maximise => exact hmax
    | minimise => exact hmin
  have hplus : ∀ c ∈ [' ', '+', ' '], c ≠ ';' ∧ c ≠ '\n' := by simp
  have hmem : ∀ c ∈ p.objectiveText, c ≠ ';' ∧ c ≠ '\n' := by
    intro c hc
    rcases List.mem_append.1 hc with hc | hc
    · exact hkeyword c hc
    · rcases mem_of_mem_join hc with hc | ⟨cs, hcs, hc⟩
      · exact hplus c hc
      · obtain ⟨-, hsemicolon, -, -, -, -, -, hnewline⟩ :=
          ne_of_isTermChar ((hterms cs hcs).chars c hc)
        exact ⟨hsemicolon, hnewline⟩
  refine ⟨?_, fun hc => (hmem _ hc).1 rfl, fun hc => (hmem _ hc).2 rfl⟩
  unfold objectiveText keywordOf
  cases p.direction with
  | maximise => exact ⟨'m', _, rfl, by decide, by decide⟩
  | minimise => exact ⟨'m', _, rfl, by decide, by decide⟩

theorem statementText_boundTexts {column : Column Float} (hcolumn : column ∈ p.columns) :
    ∀ text ∈ boundTexts column, StatementText text ∧ trim text = text := by
  have hspelled := h.columns column hcolumn
  have hbound : ∀ comparison, ∀ x ∈ column.numbers,
      StatementText (comparisonText column.name.toList comparison (Shortest.text x)) ∧
        trim (comparisonText column.name.toList comparison (Shortest.text x)) =
          comparisonText column.name.toList comparison (Shortest.text x) := fun comparison x hx =>
    statementText_comparisonText hspelled.name.inline
      (Double.inline_text (hspelled.finite x hx)) comparison
  intro text htext
  rcases List.mem_append.1 htext with htext | htext
  · unfold lowerTexts at htext
    split at htext
    · rw [List.mem_singleton.1 htext]
      exact hbound .atLeast _ (by simp [Column.numbers])
    · cases htext
  · obtain ⟨upper, hupper, rfl⟩ := List.mem_map.1 htext
    exact hbound .atMost _ (List.mem_cons_of_mem _ (List.mem_cons_of_mem _ hupper))

theorem statementText_integerTexts :
    ∀ text ∈ p.integerTexts, StatementText text ∧ trim text = text := by
  have hnames : ∀ name ∈ (p.columns.filter (·.integer)).map (·.name.toList), IsName name := by
    intro name hname
    obtain ⟨column, hcolumn, rfl⟩ := List.mem_map.1 hname
    exact (h.columns column (List.mem_of_mem_filter hcolumn)).name
  intro text htext
  unfold integerTexts at htext
  dsimp only at htext
  split at htext
  · cases htext
  · next hne =>
    rw [List.mem_singleton.1 htext]
    exact statementText_declarationText (fun hnil => hne (List.isEmpty_iff.2 hnil)) hnames

/-- The listing states the items of the problem. -/
theorem reads : Reads p.listingLines p.items := by
  have hobjective := Reads.statement h.statementText_objectiveText
    (h.reads_rowLines (fun _ => id) none)
  have hbounds : Reads (titled "Bounds" (p.columns.flatMap boundLines))
      (titledItems (p.columns.flatMap boundTexts)) := by
    have hlines : p.columns.flatMap boundLines =
        (p.columns.flatMap boundTexts).map (· ++ [';']) := by
      rw [List.map_flatMap]
      exact congrArg (p.columns.flatMap ·) (funext boundLines_eq)
    rw [hlines]
    refine reads_titled (by simp [headings]) fun text htext => ?_
    obtain ⟨column, hcolumn, htext⟩ := List.mem_flatMap.1 htext
    exact h.statementText_boundTexts hcolumn text htext
  have hintegers : Reads (titled "Integer constraints" p.integerLines)
      (titledItems p.integerTexts) := by
    rw [integerLines_eq]
    exact reads_titled (by simp [headings]) h.statementText_integerTexts
  rw [listingLines, objectiveLine_eq]
  exact ((reads_heading (by simp [headings]) hobjective).append hbounds).append hintegers

end Spelled

end Problem

end WorstCase
