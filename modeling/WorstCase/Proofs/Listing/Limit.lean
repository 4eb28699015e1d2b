import WorstCase.Proofs.Listing.RoundTrip

/-!
# Limits in a listing

A comparison with one term is a bound of its column. So a row that limits a single column is not
read back as a row: it is the upper bound of the column until the section of bounds, which comes
last, states another one. If that section states a lower bound above the limit, it is refused.
`Problem.parse_listing_limited` and `Problem.parse_listing_crossed` say so for a problem whose last
row is such a limit.
-/

namespace WorstCase

open Text Listing Double

/-- The row lets column `c` be at most `limit`, and says no more. -/
structure Row.Limits (row : Row Float) (c : Nat) (limit : Float) : Prop where
  terms_eq : row.terms = [(c, 1)]
  comparison_eq : row.comparison = .atMost
  rhs_eq : row.rhs = limit

/-- The column with a limit, which its own upper bound replaces. -/
def Column.limited (limit : Float) (column : Column Float) : Column Float :=
  { column with upper := some (column.upper.getD limit) }

theorem Column.limited_of_upper {limit upper : Float} {column : Column Float}
    (h : column.upper = some upper) : column.limited limit = column := by
  rw [limited, h, Option.getD_some, ← h]

namespace Row.Limits

variable {row : Row Float} {c : Nat} {limit : Float} (h : row.Limits c limit)

include h

theorem leftTerms_eq : Problem.leftTerms row = [(c, 1)] := by
  have hone : (0 : Float) ≤ 1 := unsigned_one.nonneg
  simp [Problem.leftTerms, h.terms_eq, hone]

theorem rightTerms_eq : Problem.rightTerms row = [] := by
  have hone : (0 : Float) ≤ 1 := unsigned_one.nonneg
  simp [Problem.rightTerms, h.terms_eq, hone]

theorem wellSigned : row.WellSigned := by
  refine ⟨fun t ht => ?_, .inr h.rightTerms_eq⟩
  rw [h.leftTerms_eq] at ht
  exact absurd ht List.not_mem_nil

end Row.Limits

namespace Problem

/-- What a last row does, in whichever group it is read. -/
theorem exists_addAll_rowItems_singleton (p : Problem Float) (row : Row Float)
    (group : Option RowGroup) {d : Draft Float} (hcomment : d.comment = none) : ∃ g,
    d.addAll (p.rowItems group [row]) =
      Draft.add { d with group := g, comment := row.comment } (.statement (p.rowText row)) := by
  have hlast : ∀ d' : Draft Float, d'.addAll [.statement (p.rowText row)] =
      d'.add (.statement (p.rowText row)) := fun d' => by
    rw [Draft.addAll]
    cases d'.add (.statement (p.rowText row)) <;> rfl
  have hremark : ∀ g, Draft.addAll { d with group := g }
      ((row.comment.toList.map fun text => .remark text.toList) ++ [.statement (p.rowText row)]) =
        Draft.add { d with group := g, comment := row.comment } (.statement (p.rowText row)) := by
    intro g
    rw [← hlast]
    cases row.comment with
    | none => exact congrArg (fun c => Draft.addAll { d with group := g, comment := c } _) hcomment
    | some text => simp [Draft.addAll, Draft.add]
  rw [rowItems, rowItems, List.append_assoc]
  split
  · exact ⟨d.group, hremark d.group⟩
  · exact ⟨row.group, hremark row.group⟩

section limit

variable {p : Problem Float} (h : p.Separable) (hread : p.ReadsBack) {column : Column Float}
  {done rest : List (Column Float)} (hcolumns : p.columns = done ++ column :: rest) {limit : Float}

include h hread hcolumns

/-- The statement of a limit sets the upper bound of its column. -/
theorem add_limitText {row : Row Float} (hrow : row ∈ p.rows) (hlimit : Unsigned limit)
    (hlimits : row.Limits (done.length + 1) limit) {d : Draft Float}
    (hd : d.problem.columns = p.columns.map Column.opened) :
    d.add (.statement (p.rowText row)) = .ok { d with
      problem := { d.problem with columns := done.map Column.opened ++
        { column.opened with upper := some limit } :: rest.map Column.opened }
      comment := none } := by
  have hsplit : d.problem.columns =
      done.map Column.opened ++ column.opened :: rest.map Column.opened := by
    rw [hd, hcolumns, List.map_append, List.map_cons]
  have hn : d.problem.names.Nodup := by
    rw [names, hd, List.map_map]
    exact h.names_nodup
  have hname : String.ofList (p.nameOf (done.length + 1)) = column.opened.name := by
    rw [nameOf_eq (column?_at hcolumns), String.ofList_toList]
    rfl
  have hset := setUpper_at hsplit (not_lt_of_le unsigned_zero.finite hlimit.finite hlimit.nonneg)
  have hbound := Draft.addConstraint_bound hn (column?_at hsplit) hlimit.finite (p.rowText row)
    .atMost
  rw [List.length_map] at hset hbound
  rw [Draft.setBound, hset] at hbound
  simp only [Draft.add, read_rowText h hrow hlimits.wellSigned (hread.rows row hrow),
    hlimits.leftTerms_eq, hlimits.rightTerms_eq, hlimits.comparison_eq, hlimits.rhs_eq,
    List.map_cons, List.map_nil, hname, hlimit.plain_eq]
  exact hbound

/-- The bounds of the columns before the one with the limit are set. -/
theorem addAll_boundTexts_before (rows : List (Row Float)) (group : RowGroup) :
    Draft.addAll ⟨⟨"parsed", p.direction, done.map Column.opened ++
        { column.opened with upper := some limit } :: rest.map Column.opened, rows⟩,
        true, group, none⟩
      ((p.columns.flatMap boundTexts).map .statement) =
    Draft.addAll ⟨⟨"parsed", p.direction, done.map Column.bounded ++
        { column.opened with upper := some limit } :: rest.map Column.opened, rows⟩,
        true, group, none⟩
      ((boundTexts column).map .statement ++ (rest.flatMap boundTexts).map .statement) := by
  have hn : ((done.map Column.opened ++ { column.opened with upper := some limit } ::
      rest.map Column.opened).map (·.name)).Nodup := by
    have hnames := h.names_nodup
    simpa [names, hcolumns, Column.opened, Function.comp_def] using hnames
  have hbefore := addAll_boundTexts h hread (fun c hc => hcolumns ▸ List.mem_append_left _ hc)
    (d := ⟨⟨"parsed", p.direction, _, rows⟩, true, group, none⟩) hn rfl (List.nil_append _).symm
  rw [hcolumns, List.flatMap_append, List.flatMap_cons, List.map_append, List.map_append,
    Draft.addAll_append]
  exact congrArg (· >>= _) hbefore

omit hread in
theorem nodup_before (limit : Float) : ((done.map Column.bounded ++
    { column.opened with upper := some limit } :: rest.map Column.opened).map (·.name)).Nodup := by
  have hnames := h.names_nodup
  simpa [names, hcolumns, Column.opened, Column.bounded, Column.reread, Function.comp_def]
    using hnames

/-- The bounds of the columns are set if none is below the limit. -/
theorem addAll_boundTexts_limited (hlimit : Unsigned limit) (hle : ¬ limit < plain column.lower)
    (rows : List (Row Float)) (group : RowGroup) :
    Draft.addAll ⟨⟨"parsed", p.direction, done.map Column.opened ++
        { column.opened with upper := some limit } :: rest.map Column.opened, rows⟩,
        true, group, none⟩
      ((p.columns.flatMap boundTexts).map .statement) =
    .ok ⟨⟨"parsed", p.direction, (done ++ column.limited limit :: rest).map Column.bounded, rows⟩,
      true, group, none⟩ := by
  have hn := nodup_before h hcolumns limit
  have hcolumn : column ∈ p.columns := hcolumns ▸ List.mem_append_right _ List.mem_cons_self
  have hbounded : { column.opened with
      lower := plain column.lower
      upper := (column.upper.map plain).or (some limit) } = (column.limited limit).bounded := by
    cases hupper : column.upper <;>
      simp [Column.opened, Column.limited, Column.bounded, Column.reread, hupper, hlimit.plain_eq]
  have hset := addAll_boundTexts_column h hread hcolumn
    (d := ⟨⟨"parsed", p.direction, _, rows⟩, true, group, none⟩) hn rfl rfl rfl rfl
    fun upper hupper => by
      obtain rfl := Option.some.inj hupper
      exact hle
  rw [hbounded] at hset
  have hn' : ((done.map Column.bounded ++ (column.limited limit).bounded ::
      rest.map Column.opened).map (·.name)).Nodup := by
    simpa [Column.opened, Column.bounded, Column.reread, Column.limited] using hn
  have hcons : done.map Column.bounded ++ (column.limited limit).bounded :: rest.map Column.opened =
      (done.map Column.bounded ++ [(column.limited limit).bounded]) ++
        (rest.map Column.opened ++ []) := by
    rw [List.append_nil, List.append_assoc, List.singleton_append]
  have hrest := addAll_boundTexts h hread
    (fun c hc => hcolumns ▸ List.mem_append_right _ (List.mem_cons_of_mem _ hc))
    (d := ⟨⟨"parsed", p.direction, _, rows⟩, true, group, none⟩) hn' rfl hcons
  rw [addAll_boundTexts_before h hread hcolumns, Draft.addAll_append]
  refine (congrArg (· >>= _) hset).trans (hrest.trans ?_)
  simp

/-- A lower bound above the limit is refused. -/
theorem addAll_boundTexts_crossed (hlimit : Unsigned limit) (hlt : limit < plain column.lower)
    (rows : List (Row Float)) (group : RowGroup) :
    Draft.addAll ⟨⟨"parsed", p.direction, done.map Column.opened ++
        { column.opened with upper := some limit } :: rest.map Column.opened, rows⟩,
        true, group, none⟩
      ((p.columns.flatMap boundTexts).map .statement) =
    .error (.problem (.crossedBounds (done.length + 1) (plain column.lower) limit)) := by
  have hn := nodup_before h hcolumns limit
  have hcolumn : column ∈ p.columns := hcolumns ▸ List.mem_append_right _ List.mem_cons_self
  have hlow : column.lower ∈ column.numbers := List.mem_cons_of_mem _ List.mem_cons_self
  have hzero : ¬ column.lower == 0 := fun hzero => by
    rw [plain, if_pos hzero] at hlt
    exact not_lt_of_le unsigned_zero.finite hlimit.finite hlimit.nonneg hlt
  have hbound : boundTexts column ≠ [] := by simp [boundTexts, lowerTexts, bne, hzero]
  have hadd := add_boundText h hread hcolumn hbound .atLeast hlow
    (d := ⟨⟨"parsed", p.direction, _, rows⟩, true, group, none⟩) hn rfl rfl rfl
  rw [Draft.setBound, setLower_at_error rfl rfl hlt, List.length_map] at hadd
  rw [addAll_boundTexts_before h hread hcolumns]
  simp only [boundTexts, lowerTexts, bne, hzero, Bool.not_false, if_true, List.map_cons,
    List.cons_append, Draft.addAll, hadd, Draft.withProblem]

section last

variable {rows : List (Row Float)} {row : Row Float} (hrows : p.rows = rows ++ [row])
  (hlen : ∀ row ∈ rows, row.terms.length ≠ 1) (hs : p.WellSigned) (hlimit : Unsigned limit)
  (hlimits : row.Limits (done.length + 1) limit)

include hrows hlen hs hlimit hlimits

theorem exists_addAll_limit : ∃ g,
    Draft.start.addAll (.heading .other :: .statement (trim p.objectiveText) ::
      p.rowItems none p.rows) = .ok ⟨⟨"parsed", p.direction, done.map Column.opened ++
        { column.opened with upper := some limit } :: rest.map Column.opened,
        rows.map fun row => row.sorted.reread⟩, true, g, none⟩ := by
  have hmem : ∀ r ∈ rows, r ∈ p.rows := fun r hr => hrows ▸ List.mem_append_left _ hr
  have hrow : row ∈ p.rows := hrows ▸ List.mem_append_right _ (List.mem_singleton_self row)
  obtain ⟨g, hadd⟩ := exists_addAll_rows h hread hs.objective hmem hlen
    fun r hr => hs.rows r (hmem r hr)
  obtain ⟨g', happend⟩ := exists_rowItems_append p none rows [row]
  obtain ⟨g'', hlast⟩ := exists_addAll_rowItems_singleton p row g'
    (d := ⟨⟨"parsed", p.direction, p.columns.map Column.opened,
      rows.map fun row => row.sorted.reread⟩, true, g, none⟩) rfl
  rw [add_limitText h hread hcolumns hrow hlimit hlimits rfl] at hlast
  refine ⟨g'', ?_⟩
  rw [hrows, happend, ← List.cons_append, ← List.cons_append, Draft.addAll_append, hadd]
  exact hlast

/-- A limit is read as the upper bound of its column unless the column has one. -/
theorem parse_listing_limited (hle : ¬ limit < plain column.lower) :
    parse p.listing = .ok ⟨"parsed", p.direction,
      (done ++ column.limited limit :: rest).map Column.reread,
      rows.map fun row => row.sorted.reread⟩ := by
  obtain ⟨g, hadd⟩ := exists_addAll_limit h hread hcolumns hrows hlen hs hlimit hlimits
  have hnames := h.names_nodup
  refine parse_listing_of_addAll h.toSpelled hadd (fun group => ?_) ?_ ?_
  · have hbounds := addAll_boundTexts_limited h hread hcolumns hlimit hle
      (rows.map fun row => row.sorted.reread) group
    rw [List.map_map]
    exact hbounds
  · simpa [names, hcolumns, Column.reread, Column.limited, Function.comp_def] using hnames
  · cases hint : column.integer <;>
      simp [hcolumns, List.filter_map, Function.comp_def, Column.reread, Column.limited, hint]

/-- A limit below the lower bound of its column makes reading fail. -/
theorem parse_listing_crossed (hlt : limit < plain column.lower) :
    parse p.listing =
      .error (.problem (.crossedBounds (done.length + 1) (plain column.lower) limit)) := by
  obtain ⟨g, hadd⟩ := exists_addAll_limit h hread hcolumns hrows hlen hs hlimit hlimits
  exact parse_listing_error_of_addAll h.toSpelled hadd fun group =>
    addAll_boundTexts_crossed h hread hcolumns hlimit hlt _ group

end last

end limit

end Problem

end WorstCase
