import Mathlib.Data.List.Forall2
import WorstCase.Proofs.Listing.Draft
import WorstCase.Proofs.Listing.Items

/-!
# Problems whose statements are read back

Terms stand on the side of a row that the sign of their coefficient says. In a problem whose
statements can be told apart (`Problem.Separable`) and whose numbers can be read back from their
texts, the statement of a bound is read as a name and a number (`Problem.read_boundText`). That of a
row is read as its two sides (`Problem.read_rowText`) if no minus stands behind a plus in it
(`Row.WellSigned`), and not read otherwise (`Problem.read_rowText_eq_error`). Listable problems
(`Problem.Listable`) are such problems whose rows have their terms in the order in which they are
written.
-/

namespace WorstCase

open Text Listing Double

/-! ## Sides -/

theorem Double.plain_eq {x : Float} (h : x ≠ -0) : plain x = x := by
  unfold plain
  split
  · next hzero =>
    rcases beq_zero_iff.1 hzero with rfl | rfl
    · rfl
    · exact absurd rfl h
  · rfl

theorem Double.Unsigned.plain_eq {x : Float} (h : Unsigned x) : plain x = x :=
  Double.plain_eq h.ne_neg_zero

/-- A finite double is written as a number that reads back, after a minus if it has one. -/
theorem Double.textOf_cases {x : Float} (hfin : x.isFinite) (hread : ReadsBack x) :
    TextOf (Shortest.text x) x ∨
      TextOf (Shortest.text (-x)) (-x) ∧ Shortest.text x = '-' :: Shortest.text (-x) := by
  by_cases hx : 0 ≤ x
  · by_cases hzero : x = -0
    · subst hzero
      exact .inr ⟨unsigned_zero.textOf (by decide), by decide⟩
    · exact .inl (Unsigned.textOf ⟨hfin, hx, hzero⟩ hread)
  · exact .inr ⟨textOf_neg hfin hx hread, text_of_neg hfin hx⟩

namespace Listing

/-- A term is written so that it can be read, its coefficient left out if it is one. -/
theorem writes_writeTerm {k : Float} {name : List Char} (hk : TextOf (Shortest.text k) k)
    (hn : IsName name) : Writes (Problem.writeTerm k name) (.column (String.ofList name) k) := by
  unfold Problem.writeTerm
  split
  · next hone =>
    rw [eq_one_of_beq hone]
    exact .unit hn
  · exact .column hk hn

theorem writes_map {β : Type} {ts : List β} {text : β → List Char} {term : β → Term Float}
    (h : ∀ t ∈ ts, Writes (text t) (term t)) :
    List.Forall₂ Writes (ts.map text) (ts.map term) := by
  rw [List.forall₂_map_left_iff, List.forall₂_map_right_iff, List.forall₂_same]
  exact h

theorem writesSigned_column {k : Float} {name : List Char} (hk : k.isFinite) (hread : ReadsBack k)
    (hn : IsName name) :
    WritesSigned (Shortest.text k ++ ' ' :: name) (.column (String.ofList name) k) := by
  rcases textOf_cases hk hread with htext | ⟨htext, hminus⟩
  · exact .plus (.column htext hn)
  · have hneg := WritesSigned.minus (Writes.column htext hn)
    rwa [Term.neg, neg_neg, ← List.cons_append, ← hminus] at hneg

/-- The first term of a sum may have a sign. -/
theorem writesSigned_writeTerm {k : Float} {name : List Char} (hk : k.isFinite)
    (hread : ReadsBack k) (hn : IsName name) :
    WritesSigned (Problem.writeTerm k name) (.column (String.ofList name) k) := by
  unfold Problem.writeTerm
  split
  · next hone =>
    rw [eq_one_of_beq hone]
    exact .plus (.unit hn)
  · exact writesSigned_column hk hread hn

/-- A text that no declaration starts with: one with a digit or a minus first, or a name other than
`int`. -/
def NoDeclaration (cs : List Char) : Prop :=
  (∃ c rest, cs = c :: rest ∧ (c.isDigit ∨ c = '-')) ∨
    IsName cs ∧ cs.map Char.toLower ≠ "int".toList

/-- A term is not taken for a declaration unless it is the name `int` alone. -/
theorem noDeclaration_writeTerm {k : Float} {name : List Char} (hk : k.isFinite) (hn : IsName name)
    (hint : k == 1 → name.map Char.toLower ≠ "int".toList) :
    NoDeclaration (Problem.writeTerm k name) := by
  unfold Problem.writeTerm
  split
  · next hone => exact .inr ⟨hn, hint hone⟩
  · rcases text_cases hk with hu | ⟨-, htext⟩
    · obtain ⟨c, rest, htext, hc⟩ := hu.positional.head_isDigit
      exact .inl ⟨c, rest ++ ' ' :: name, congrArg (· ++ _) htext, .inl hc⟩
    · exact .inl ⟨'-', _, congrArg (· ++ _) htext, .inr rfl⟩

/-- A number alone is a sum, with a minus too. -/
theorem sumOf_text {x : Float} (hfin : x.isFinite) (hread : ReadsBack x) :
    SumOf (Shortest.text x) [.constant x] := by
  rcases textOf_cases hfin hread with htext | ⟨htext, hminus⟩
  · exact .sum (.cons (.constant htext) .nil)
  · have hneg := SumOf.negative htext
    rwa [← hminus, neg_neg] at hneg

/-- A comparison is not taken for a declaration if its first term is not. -/
theorem integers?_comparisonText {cs : List Char} (h : NoDeclaration cs)
    (css : List (List Char)) (comparison : Comparison) (right : List Char) :
    integers? (comparisonText (Problem.writeSum (cs :: css)) comparison right) = none := by
  obtain ⟨rest, hrest⟩ : ∃ rest, comparisonText (Problem.writeSum (cs :: css)) comparison right =
      cs ++ ' ' :: rest := by
    rw [comparisonText, writeSum_cons]
    cases css with
    | nil => exact ⟨comparison.symbol.toList ++ ' ' :: right, by simp [sumTail]⟩
    | cons cs' css =>
      exact
        ⟨'+' :: ' ' :: (cs' ++ (sumTail css ++ ' ' :: (comparison.symbol.toList ++ ' ' :: right))),
          by simp [sumTail]⟩
  rw [hrest]
  obtain ⟨c, cs, rfl, hc | rfl⟩ | ⟨hname, hint⟩ := h
  · exact integers?_of_digit hc _
  · rfl
  · exact integers?_of_name hname hint rest

end Listing

/-- The column can be read back if the sign of its coefficient can. -/
structure Column.Readable (column : Column Float) : Prop extends column.Spelled where
  objective_ne_neg_zero : column.objective ≠ -0
  lower_le : ∀ upper ∈ column.upper, column.lower ≤ upper

/-- The column can be read back. -/
structure Column.Listable (column : Column Float) : Prop extends column.Spelled where
  ne_int : column.name.toList.map Char.toLower ≠ "int".toList
  objective_nonneg : 0 ≤ column.objective
  objective_ne_neg_zero : column.objective ≠ -0
  lower_le : ∀ upper ∈ column.upper, column.lower ≤ upper

theorem Column.Listable.readable {column : Column Float} (h : column.Listable) : column.Readable :=
  ⟨h.toSpelled, h.objective_ne_neg_zero, h.lower_le⟩

/-- The row can be read back. -/
structure Row.Listable (row : Row Float) : Prop extends row.Spelled where
  length_ne_one : row.terms.length ≠ 1
  ne_neg_zero : ∀ t ∈ row.terms, t.2 ≠ -0
  sorted : row.terms.Pairwise fun s t => 0 ≤ t.2 → 0 ≤ s.2
  rhs_nonneg : 0 ≤ row.rhs ∨ ∀ t ∈ row.terms, 0 ≤ t.2

namespace Problem

/-- The problem can be read back from its listing. -/
structure Listable (p : Problem Float) : Prop where
  names_nodup : p.names.Nodup
  columns : ∀ column ∈ p.columns, column.Listable
  rows : ∀ row ∈ p.rows, row.Listable

/-- The numbers of the problem can be read back from their texts. -/
structure ReadsBack (p : Problem Float) : Prop where
  columns : ∀ column ∈ p.columns, ∀ x ∈ column.numbers, Double.ReadsBack x
  rows : ∀ row ∈ p.rows, ∀ x ∈ row.numbers, Double.ReadsBack x

variable {p : Problem Float}

theorem Listable.spelled (h : p.Listable) (hknown : p.Known) : p.Spelled :=
  ⟨hknown, fun column hc => (h.columns column hc).toSpelled,
    fun row hr => (h.rows row hr).toSpelled⟩

/-! ## Rows -/

/-- The terms on the left side of a row, which have no negative coefficients. -/
def leftTerms (row : Row Float) : List (Nat × Float) :=
  row.terms.filter fun t => 0 ≤ t.2

/-- The terms on the right side of a row, with the coefficients of the row. -/
def rightTerms (row : Row Float) : List (Nat × Float) :=
  row.terms.filter fun t => ¬ 0 ≤ t.2

/-- The names that bounds and rows start with. A row does so if its first term has the coefficient
one. -/
def leads (p : Problem Float) : List (List Char) :=
  (p.columns.filter fun column => !(boundTexts column).isEmpty).map (·.name.toList) ++
    p.rows.filterMap fun row =>
      ((leftTerms row).head?.filter (·.2 == 1)).map fun t => p.nameOf t.1

/-- A bound starts with the name of its column. -/
theorem mem_leads_of_boundTexts {column : Column Float} (hcolumn : column ∈ p.columns)
    (hbound : boundTexts column ≠ []) : column.name.toList ∈ p.leads := by
  refine List.mem_append_left _ (List.mem_map_of_mem (List.mem_filter.2 ⟨hcolumn, ?_⟩))
  simpa using hbound

/-- A row whose first coefficient is one starts with the name of its column. -/
theorem mem_leads_of_leftTerms {row : Row Float} (hrow : row ∈ p.rows) {t : Nat × Float}
    {ts : List (Nat × Float)} (hterms : leftTerms row = t :: ts) (hone : t.2 == 1) :
    p.nameOf t.1 ∈ p.leads := by
  refine List.mem_append_right _ (List.mem_filterMap.2 ⟨row, hrow, ?_⟩)
  rw [hterms, List.head?_cons, Option.filter_some, if_pos hone]
  rfl

/-- Only names of columns stand at the start. -/
theorem Spelled.exists_column_of_mem_leads (h : p.Spelled) {name : List Char}
    (hname : name ∈ p.leads) : ∃ column ∈ p.columns, column.name.toList = name := by
  rcases List.mem_append.1 hname with hname | hname
  · obtain ⟨column, hcolumn, rfl⟩ := List.mem_map.1 hname
    exact ⟨column, List.mem_of_mem_filter hcolumn, rfl⟩
  · obtain ⟨row, hrow, heq⟩ := List.mem_filterMap.1 hname
    obtain ⟨t, ht, rfl⟩ := Option.map_eq_some_iff.1 heq
    have hmem : t ∈ leftTerms row := List.mem_of_head? (Option.filter_eq_some_iff.1 ht).1
    obtain ⟨column, hcolumn, hc⟩ := h.exists_column hrow (List.mem_of_mem_filter hmem)
    exact ⟨column, hc, (nameOf_eq hcolumn).symm⟩

/-- The statements of the problem can be told apart: names stand for columns, and no row or bound is
taken for a declaration. -/
structure Separable (p : Problem Float) : Prop extends p.Spelled where
  names_nodup : p.names.Nodup
  readable : ∀ column ∈ p.columns, column.Readable
  ne_int : ∀ name ∈ p.leads, name.map Char.toLower ≠ "int".toList

theorem Listable.separable (h : p.Listable) (hknown : p.Known) : p.Separable where
  toSpelled := h.spelled hknown
  names_nodup := h.names_nodup
  readable column hcolumn := (h.columns column hcolumn).readable
  ne_int name hname := by
    obtain ⟨column, hcolumn, rfl⟩ := (h.spelled hknown).exists_column_of_mem_leads hname
    exact (h.columns column hcolumn).ne_int

/-- On the left stand the terms that are not negative, or 0 if there are none. -/
theorem leftTexts_eq (p : Problem Float) (row : Row Float) : p.leftTexts row =
    if (leftTerms row).isEmpty then [['0']]
    else (leftTerms row).map fun t => writeTerm t.2 (p.nameOf t.1) := by
  have hmap : (row.terms.filterMap fun t =>
      if 0 ≤ t.2 then some (writeTerm t.2 (p.nameOf t.1)) else none) =
        (leftTerms row).map fun t => writeTerm t.2 (p.nameOf t.1) := by
    rw [leftTerms, ← List.filterMap_eq_map, List.filterMap_filter]
    simp
  simp only [leftTexts, hmap, List.isEmpty_map]

/-- On the right stand the other terms with their signs changed, and the constant unless it is 0 and
there are terms. -/
theorem rightTexts_eq (p : Problem Float) (row : Row Float) : p.rightTexts row =
    ((rightTerms row).map fun t => writeTerm (-t.2) (p.nameOf t.1)) ++
      if row.rhs != 0 || (rightTerms row).isEmpty then [Shortest.text row.rhs] else [] := by
  have hmap : (row.terms.filterMap fun t =>
      if 0 ≤ t.2 then none else some (writeTerm (-t.2) (p.nameOf t.1))) =
        (rightTerms row).map fun t => writeTerm (-t.2) (p.nameOf t.1) := by
    rw [rightTerms, ← List.filterMap_eq_map, List.filterMap_filter]
    simp
  simp only [rightTexts, hmap, List.isEmpty_map]
  split <;> simp

/-- In a listable row the terms are in the order in which they are written. -/
theorem leftTerms_append_rightTerms {row : Row Float} (h : row.Listable) :
    leftTerms row ++ rightTerms row = row.terms := by
  have hsplit : ∀ ts : List (Nat × Float), (ts.Pairwise fun s t => 0 ≤ t.2 → 0 ≤ s.2) →
      (ts.filter fun t => 0 ≤ t.2) ++ (ts.filter fun t => ¬ 0 ≤ t.2) = ts := by
    intro ts hts
    induction hts with
    | nil => rfl
    | @cons t ts ht _ ih =>
      by_cases hpos : 0 ≤ t.2
      · simpa [hpos] using ih
      · have hall : ∀ s ∈ ts, ¬ 0 ≤ s.2 := fun s hs hs' => hpos (ht s hs hs')
        have hnil : (ts.filter fun t => 0 ≤ t.2) = [] := by simpa using hall
        have hself : (ts.filter fun t => ¬ 0 ≤ t.2) = ts := by simpa using hall
        simp only [List.filter_cons, hpos, hnil, hself]
        simp
  exact hsplit row.terms h.sorted

end Problem

open Problem

/-- No minus stands behind a plus in the statement of the row: on the left side only the first
coefficient may be minus zero, and on the right side only a number alone may be negative. -/
structure Row.WellSigned (row : Row Float) : Prop where
  left : ∀ t ∈ (leftTerms row).tail, t.2 ≠ -0
  right : 0 ≤ row.rhs ∨ rightTerms row = []

theorem Row.Listable.wellSigned {row : Row Float} (h : row.Listable) : row.WellSigned where
  left t ht := h.ne_neg_zero t (List.mem_of_mem_filter (List.mem_of_mem_tail ht))
  right := by
    refine h.rhs_nonneg.imp_right fun hall => List.filter_eq_nil_iff.2 fun t ht hneg => ?_
    exact of_decide_eq_true hneg (hall t ht)

namespace Problem

/-- No minus stands behind a plus in a statement of the problem. -/
structure WellSigned (p : Problem Float) : Prop where
  objective : ∀ column ∈ p.columns.tail, 0 ≤ column.objective
  rows : ∀ row ∈ p.rows, row.WellSigned

variable {p : Problem Float}

theorem Listable.wellSigned (h : p.Listable) : p.WellSigned where
  objective column hcolumn := (h.columns column (List.mem_of_mem_tail hcolumn)).objective_nonneg
  rows row hrow := (h.rows row hrow).wellSigned

section row

variable (h : p.Spelled) {row : Row Float} (hrow : row ∈ p.rows)
  (hread : ∀ x ∈ row.numbers, Double.ReadsBack x)

include h hrow hread

/-- A term on the left side, as the first one. -/
theorem writesSigned_leftTerm {t : Nat × Float} (ht : t ∈ leftTerms row) :
    WritesSigned (writeTerm t.2 (p.nameOf t.1)) (.column (String.ofList (p.nameOf t.1)) t.2) := by
  have hmem := List.mem_of_mem_filter ht
  exact writesSigned_writeTerm ((h.rows row hrow).finite_of_mem hmem)
    (hread t.2 (List.mem_cons_of_mem _ (List.mem_map_of_mem hmem))) (h.isName_nameOf hrow hmem)

/-- A term on the left side whose coefficient has no sign. -/
theorem writes_leftTerm {t : Nat × Float} (ht : t ∈ leftTerms row) (hzero : t.2 ≠ -0) :
    Writes (writeTerm t.2 (p.nameOf t.1)) (.column (String.ofList (p.nameOf t.1)) t.2) := by
  obtain ⟨hmem, hpos⟩ := List.mem_filter.1 ht
  have hu : Unsigned t.2 := ⟨(h.rows row hrow).finite_of_mem hmem, of_decide_eq_true hpos, hzero⟩
  have hback := hread t.2 (List.mem_cons_of_mem _ (List.mem_map_of_mem hmem))
  exact writes_writeTerm (hu.textOf hback) (h.isName_nameOf hrow hmem)

theorem writes_rightTerms : List.Forall₂ Writes
    ((rightTerms row).map fun t => writeTerm (-t.2) (p.nameOf t.1))
    ((rightTerms row).map fun t => .column (String.ofList (p.nameOf t.1)) (-t.2)) := by
  refine writes_map fun t ht => ?_
  obtain ⟨ht, hneg⟩ := List.mem_filter.1 ht
  have hback := hread t.2 (List.mem_cons_of_mem _ (List.mem_map_of_mem ht))
  exact writes_writeTerm (textOf_neg ((h.rows row hrow).finite_of_mem ht) (of_decide_eq_true hneg)
    hback) (h.isName_nameOf hrow ht)

/-- The left side is read as its terms, unless a minus stands behind a plus. -/
theorem exists_sumOf_leftTexts (hs : ∀ t ∈ (leftTerms row).tail, t.2 ≠ -0) : ∃ ts,
    SumOf (writeSum (p.leftTexts row)) ts ∧ Side.ofTerms ts =
      ⟨(leftTerms row).map fun t => (String.ofList (p.nameOf t.1), t.2), 0⟩ := by
  have hside := ofTerms_columns
    ((leftTerms row).map fun t => (String.ofList (p.nameOf t.1), t.2)) []
  rw [List.map_map, List.append_nil] at hside
  rw [leftTexts_eq]
  cases hleft : leftTerms row with
  | nil => exact ⟨_, sumOf_text unsigned_zero.finite (by decide), rfl⟩
  | cons t ts =>
    have hfirst := writesSigned_leftTerm h hrow hread (hleft ▸ List.mem_cons_self)
    have hrest : ∀ s ∈ ts, Writes (writeTerm s.2 (p.nameOf s.1))
        (.column (String.ofList (p.nameOf s.1)) s.2) := fun s hmem => by
      have htail : s ∈ (leftTerms row).tail := hleft ▸ hmem
      exact writes_leftTerm h hrow hread (List.mem_of_mem_tail htail) (hs s htail)
    refine ⟨_, .cons hfirst (writes_map hrest), ?_⟩
    rw [hleft] at hside
    exact hside.trans (congrArg (Side.mk · 0) (List.append_nil _))

/-- The right side is read as its terms and the constant, unless a minus stands behind a plus. -/
theorem exists_sumOf_rightTexts (hs : 0 ≤ row.rhs ∨ rightTerms row = []) : ∃ ts,
    SumOf (writeSum (p.rightTexts row)) ts ∧ Side.ofTerms ts =
      ⟨(rightTerms row).map fun t => (String.ofList (p.nameOf t.1), -t.2), plain row.rhs⟩ := by
  have hfin := (h.rows row hrow).finite row.rhs List.mem_cons_self
  have hback := hread row.rhs List.mem_cons_self
  have hside : ∀ tail, Side.ofTerms tail = ⟨[], plain row.rhs⟩ →
      Side.ofTerms ((rightTerms row).map (fun t =>
        .column (String.ofList (p.nameOf t.1)) (-t.2)) ++ tail) =
          ⟨(rightTerms row).map fun t => (String.ofList (p.nameOf t.1), -t.2), plain row.rhs⟩ := by
    intro tail htail
    have hcolumns := ofTerms_columns
      ((rightTerms row).map fun t => (String.ofList (p.nameOf t.1), -t.2)) tail
    rwa [List.map_map, htail, List.append_nil] at hcolumns
  have hconstant : Side.ofTerms [.constant row.rhs] = ⟨[], plain row.rhs⟩ :=
    congrArg (Side.mk []) (zero_add hfin)
  have hwrites := writes_rightTerms h hrow hread
  rw [rightTexts_eq]
  by_cases hnil : rightTerms row = []
  · -- a number stands alone on the right side, and may have a minus
    rw [hnil] at hside ⊢
    refine ⟨_, ?_, hside _ hconstant⟩
    simpa [writeSum, join] using sumOf_text hfin hback
  · -- with terms before it, the number is not negative, and left out if it is a zero
    have hnonneg : 0 ≤ row.rhs := hs.resolve_right hnil
    have hempty : (rightTerms row).isEmpty = false := List.isEmpty_eq_false_iff.2 hnil
    rw [hempty, Bool.or_false]
    by_cases hzero : row.rhs == 0
    · have hplain : plain row.rhs = 0 := if_pos hzero
      have htail : Side.ofTerms [] = ⟨[], plain row.rhs⟩ := hplain ▸ rfl
      refine ⟨_, ?_, hside _ htail⟩
      rw [List.append_nil]
      simpa [bne, hzero] using SumOf.sum hwrites
    · have hu : Unsigned row.rhs :=
        ⟨hfin, hnonneg, fun heq => hzero (beq_zero_iff.2 (.inr heq))⟩
      refine ⟨_, ?_, hside _ hconstant⟩
      simpa [bne, hzero] using
        SumOf.sum (List.rel_append hwrites (.cons (.constant (hu.textOf hback)) .nil))

end row

theorem inline_objective (h : p.Spelled) :
    writeSum (p.columns.map fun column =>
      Shortest.text column.objective ++ ' ' :: column.name.toList) = [] ∨
    Inline (writeSum (p.columns.map fun column =>
      Shortest.text column.objective ++ ' ' :: column.name.toList)) := by
  by_cases hnil : p.columns = []
  · exact .inl (by rw [hnil]; rfl)
  · refine .inr (inline_writeSum (by simpa using hnil) fun cs hcs => ?_)
    obtain ⟨c, hc, rfl⟩ := List.mem_map.1 hcs
    rw [List.append_cons]
    exact (inline_text ((h.columns c hc).finite _ List.mem_cons_self)).append
      (h.columns c hc).name.inline (by simp [isTermChar])

section read

variable (h : p.Separable)

include h

/-- The statement of a row is no declaration. -/
theorem integers?_rowText {row : Row Float} (hrow : row ∈ p.rows) :
    integers? (p.rowText row) = none := by
  rw [rowText, leftTexts_eq]
  split
  · exact integers?_comparisonText (.inl ⟨'0', [], rfl, .inl rfl⟩) [] _ _
  · next hne =>
    cases hterms : leftTerms row with
    | nil => simp [hterms] at hne
    | cons t ts =>
      have ht : t ∈ row.terms := List.mem_of_mem_filter (hterms ▸ List.mem_cons_self)
      rw [List.map_cons]
      exact integers?_comparisonText (noDeclaration_writeTerm ((h.rows row hrow).finite_of_mem ht)
        (h.isName_nameOf hrow ht) fun hone =>
          h.ne_int _ (mem_leads_of_leftTerms hrow hterms hone)) _ _ _

/-- The statement of a row is read as its sides. -/
theorem read_rowText {row : Row Float} (hrow : row ∈ p.rows) (hs : row.WellSigned)
    (hread : ∀ x ∈ row.numbers, Double.ReadsBack x) :
    Statement.read (p.rowText row) = .ok (.constraint
      ⟨(leftTerms row).map fun t => (String.ofList (p.nameOf t.1), t.2), 0⟩ row.comparison
      ⟨(rightTerms row).map fun t => (String.ofList (p.nameOf t.1), -t.2), plain row.rhs⟩) := by
  obtain ⟨ls, hleft, hls⟩ := exists_sumOf_leftTexts h.toSpelled hrow hread hs.left
  obtain ⟨rs, hright, hrs⟩ := exists_sumOf_rightTexts h.toSpelled hrow hread hs.right
  have hint := integers?_rowText h hrow
  rw [rowText] at hint ⊢
  rw [Statement.read_constraint hleft hright (h.inline_leftTexts hrow) (h.inline_rightTexts hrow)
    hint, hls, hrs]

/-- The statement of a bound is read as a name and a number. -/
theorem read_boundText (hread : p.ReadsBack) {column : Column Float} (hcolumn : column ∈ p.columns)
    (hbound : boundTexts column ≠ []) (comparison : Comparison) {x : Float}
    (hx : x ∈ column.numbers) :
    Statement.read (comparisonText column.name.toList comparison (Shortest.text x)) =
      .ok (.constraint ⟨[(column.name, 1)], 0⟩ comparison ⟨[], plain x⟩) := by
  have hl := h.readable column hcolumn
  have hfin := hl.finite x hx
  have hint : integers? (comparisonText column.name.toList comparison (Shortest.text x)) = none :=
    integers?_comparisonText
      (.inr ⟨hl.name, h.ne_int _ (mem_leads_of_boundTexts hcolumn hbound)⟩) [] comparison _
  have hname : SumOf column.name.toList [.column (String.ofList column.name.toList) 1] :=
    .sum (.cons (.unit hl.name) .nil)
  have hconstant : Side.ofTerms [.constant x] = ⟨[], plain x⟩ :=
    congrArg (Side.mk []) (zero_add hfin)
  rw [Statement.read_constraint hname (sumOf_text hfin (hread.columns column hcolumn x hx))
    hl.name.inline (inline_text hfin) hint, hconstant, String.ofList_toList]
  rfl

end read

/-! ## Minus behind plus -/

/-- The first member of a list with a property, and what stands before it. -/
theorem exists_first {β : Type} {P : β → Prop} {xs : List β} (h : ∃ x ∈ xs, P x) :
    ∃ pre x post, xs = pre ++ x :: post ∧ P x ∧ ∀ y ∈ pre, ¬ P y := by
  classical
  obtain ⟨x, hx, hP⟩ := h
  obtain ⟨y, hy⟩ := Option.isSome_iff_exists.1
    (List.find?_isSome.2 ⟨x, hx, decide_eq_true hP⟩ : (xs.find? (decide <| P ·)).isSome)
  obtain ⟨hPy, pre, post, hxs, hpre⟩ := List.find?_eq_some_iff_append.1 hy
  exact ⟨pre, y, post, hxs, of_decide_eq_true hPy, fun z hz => by simpa using hpre z hz⟩

/-- A left side with a minus zero behind its first term is not read. -/
theorem read_leftTexts_eq_error (hspelled : p.Spelled) {row : Row Float} (hrow : row ∈ p.rows)
    (hread : ∀ x ∈ row.numbers, Double.ReadsBack x) (hleft : ∃ t ∈ (leftTerms row).tail, t.2 = -0) :
    (Side.read (writeSum (p.leftTexts row) ++ [' ']) : Except (ListingError Float) (Side Float)) =
      .error (.badTerm "") := by
  have hinline := hspelled.inline_leftTexts hrow
  obtain ⟨pre, t, post, htail, hzero, hpre⟩ := exists_first hleft
  obtain ⟨t₀, hleft⟩ : ∃ t₀, leftTerms row = t₀ :: (pre ++ t :: post) := by
    cases hl : leftTerms row with
    | nil => simp [hl] at htail
    | cons t₀ ts => exact ⟨t₀, by rw [← htail, hl, List.tail_cons]⟩
  have htexts : p.leftTexts row = writeTerm t₀.2 (p.nameOf t₀.1) ::
      ((pre.map fun s => writeTerm s.2 (p.nameOf s.1)) ++ ('-' :: '0' :: ' ' :: p.nameOf t.1) ::
        post.map fun s => writeTerm s.2 (p.nameOf s.1)) := by
    have hminus : writeTerm t.2 (p.nameOf t.1) = '-' :: '0' :: ' ' :: p.nameOf t.1 := by
      rw [hzero]
      rfl
    rw [leftTexts_eq, hleft]
    simp [hminus]
  have hfirst := writesSigned_leftTerm hspelled hrow hread (hleft ▸ List.mem_cons_self)
  have hwrites := writes_map fun s hmem => writes_leftTerm hspelled hrow hread
    (hleft ▸ List.mem_cons_of_mem _ (List.mem_append_left _ hmem)) (hpre s hmem)
  rw [htexts] at hinline ⊢
  exact Side.read_minus hfirst hwrites hinline blank_of_mem_nil blank_of_mem_space

/-- A right side with a negative number behind its terms is not read. -/
theorem read_rightTexts_eq_error (hspelled : p.Spelled) {row : Row Float} (hrow : row ∈ p.rows)
    (hread : ∀ x ∈ row.numbers, Double.ReadsBack x) (hneg : ¬ 0 ≤ row.rhs)
    (hne : rightTerms row ≠ []) :
    (Side.read (' ' :: writeSum (p.rightTexts row)) : Except (ListingError Float) (Side Float)) =
      .error (.badTerm "") := by
  have hinline := hspelled.inline_rightTexts hrow
  have hfin := (hspelled.rows row hrow).finite row.rhs List.mem_cons_self
  have hzero : (row.rhs != 0) = true := by
    cases hbeq : row.rhs == 0 with
    | false => rw [bne, hbeq, Bool.not_false]
    | true =>
      rcases beq_zero_iff.1 hbeq with heq | heq <;> rw [heq] at hneg <;>
        exact absurd (by decide) hneg
  obtain ⟨t, ts, hright⟩ := List.exists_cons_of_ne_nil hne
  have htexts : p.rightTexts row = writeTerm (-t.2) (p.nameOf t.1) ::
      ((ts.map fun s => writeTerm (-s.2) (p.nameOf s.1)) ++
        ('-' :: Shortest.text (-row.rhs)) :: []) := by
    rw [rightTexts_eq, hright, hzero, text_of_neg hfin hneg]
    rfl
  have hwrites := writes_rightTerms hspelled hrow hread
  rw [hright] at hwrites
  obtain ⟨hfirst, hrest⟩ := List.forall₂_cons.1 hwrites
  rw [htexts] at hinline ⊢
  have hbad := Side.read_minus (.plus hfirst) hrest hinline blank_of_mem_space blank_of_mem_nil
  rwa [List.append_nil, List.singleton_append] at hbad

section minus

variable (h : p.Separable)

include h

/-- A row with a minus behind a plus is not read. -/
theorem read_rowText_eq_error {row : Row Float} (hrow : row ∈ p.rows) (hs : ¬ row.WellSigned)
    (hread : ∀ x ∈ row.numbers, Double.ReadsBack x) :
    (Statement.read (p.rowText row) : Except (ListingError Float) (Statement Float)) =
      .error (.badTerm "") := by
  have hint := integers?_rowText h hrow
  rw [rowText] at hint ⊢
  rw [Statement.read_comparisonText (h.inline_leftTexts hrow) (h.inline_rightTexts hrow) hint]
  by_cases hleft : ∃ t ∈ (leftTerms row).tail, t.2 = -0
  · rw [read_leftTexts_eq_error h.toSpelled hrow hread hleft]
    rfl
  · -- the left side is read, so the right side is to blame
    simp only [not_exists, not_and] at hleft
    obtain ⟨hneg, hne⟩ : ¬ 0 ≤ row.rhs ∧ rightTerms row ≠ [] :=
      not_or.1 fun hright => hs ⟨hleft, hright⟩
    obtain ⟨ls, hsum, -⟩ := exists_sumOf_leftTexts h.toSpelled hrow hread hleft
    have hgood := hsum.read_eq blank_of_mem_nil blank_of_mem_space
    rw [List.nil_append] at hgood
    rw [hgood, read_rightTexts_eq_error h.toSpelled hrow hread hneg hne]
    rfl

/-- An objective with a minus behind a plus is not read. -/
theorem read_objectiveText_eq_error (hread : p.ReadsBack)
    (hs : ∃ column ∈ p.columns.tail, ¬ 0 ≤ column.objective) :
    (Statement.read (trim p.objectiveText) : Except (ListingError Float) (Statement Float)) =
      .error (.badTerm "") := by
  obtain ⟨pre, column, post, htail, hneg, hpre⟩ := exists_first hs
  obtain ⟨first, hcolumns⟩ : ∃ first, p.columns = first :: (pre ++ column :: post) := by
    cases hc : p.columns with
    | nil => simp [hc] at htail
    | cons first rest => exact ⟨first, by rw [← htail, hc, List.tail_cons]⟩
  have hinline : Inline (writeSum (p.columns.map fun column =>
      Shortest.text column.objective ++ ' ' :: column.name.toList)) := by
    refine (inline_objective h.toSpelled).resolve_left fun hnil => ?_
    rw [hcolumns, List.map_cons, writeSum_cons] at hnil
    simp at hnil
  have hfirst := writesSigned_column ((h.columns first (hcolumns ▸ List.mem_cons_self)).finite _
    List.mem_cons_self) (hread.columns first (hcolumns ▸ List.mem_cons_self) _ List.mem_cons_self)
    (h.columns first (hcolumns ▸ List.mem_cons_self)).name
  have hwrites : List.Forall₂ Writes
      (pre.map fun c => Shortest.text c.objective ++ ' ' :: c.name.toList)
      (pre.map fun c => .column (String.ofList c.name.toList) c.objective) := by
    refine writes_map fun c hc => ?_
    have hmem : c ∈ p.columns := hcolumns ▸ List.mem_cons_of_mem _ (List.mem_append_left _ hc)
    have hu : Unsigned c.objective := ⟨(h.columns c hmem).finite _ List.mem_cons_self,
      not_not.1 (hpre c hc), (h.readable c hmem).objective_ne_neg_zero⟩
    exact .column (hu.textOf (hread.columns c hmem _ List.mem_cons_self)) (h.columns c hmem).name
  have hmem : column ∈ p.columns :=
    hcolumns ▸ List.mem_cons_of_mem _ (List.mem_append_right _ List.mem_cons_self)
  have htexts : (p.columns.map fun column =>
      Shortest.text column.objective ++ ' ' :: column.name.toList) =
        (Shortest.text first.objective ++ ' ' :: first.name.toList) :: (pre.map (fun column =>
          Shortest.text column.objective ++ ' ' :: column.name.toList) ++
            ('-' :: (Shortest.text (-column.objective) ++ ' ' :: column.name.toList)) ::
              post.map fun column =>
                Shortest.text column.objective ++ ' ' :: column.name.toList) := by
    rw [hcolumns, List.map_cons, List.map_append, List.map_cons,
      text_of_neg ((h.columns column hmem).finite _ List.mem_cons_self) hneg]
    rfl
  rw [objectiveText]
  rw [htexts] at hinline ⊢
  have hbad := Side.read_minus hfirst hwrites hinline blank_of_mem_space blank_of_mem_nil
  rw [List.append_nil, List.singleton_append] at hbad
  exact Statement.read_objective_eq_error hinline hbad p.direction

end minus

end Problem

end WorstCase
