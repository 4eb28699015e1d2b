import WorstCase.Proofs.Listing.RoundTrip
import WorstCase.Proofs.Model.Sound

/-!
# The listing of a model

The model of a scenario can be read back from its listing (`Scenario.parse_listing_of_model`) unless
a loop bound that it reads is zero. Such a bound becomes the coefficient minus zero. Minus zero is
not below zero, so the term stays on the left side of its row, and there its minus follows a plus.
All other coefficients are one, or below zero and written without their sign on the right side.
-/

namespace WorstCase

open Text Listing Double

/-! ## Texts with numbers -/

theorem toList_toString (n : Nat) : (toString n).toList = Decimal.digits n := by
  rw [Nat.toString_eq_repr, Nat.toList_repr]
  rfl

theorem Decimal.digits_injective : Function.Injective digits := by
  intro a b h
  have hback : ∀ n, Nat.ofDigitChars 10 (digits n) 0 = n := fun n =>
    Nat.ofDigitChars_toDigits (by decide) (by decide)
  rw [← hback a, h, hback]

/-- A text that ends in a number can stand in a remark, and is no heading. -/
theorem Listing.remark_of_toString (pre : String) {text : String} {n : Nat}
    (htext : text = pre ++ toString n) (hhead : ∃ c ∈ pre.toList.head?, ¬ isBlank c)
    (hline : '\n' ∉ pre.toList) :
    Solid text.toList ∧ '\n' ∉ text.toList ∧ headings.lookup text = none := by
  have hlist : text.toList = pre.toList ++ Decimal.digits n := by
    rw [htext, String.toList_append, toList_toString]
  have hdigits : Decimal.digits n ≠ [] := Nat.toDigits_ne_nil
  have hlast : ∀ d ∈ text.toList.getLast?, d.isDigit := by
    intro d hd
    rw [hlist, List.getLast?_append_of_ne_nil _ hdigits] at hd
    exact Decimal.isDigit_of_mem_digits (List.mem_of_mem_getLast? hd)
  refine ⟨⟨fun d hd => ?_, fun d hd => (not_other_of_isDigit (hlast d hd)).1⟩, fun hmem => ?_, ?_⟩
  · obtain ⟨c, hc, hblank⟩ := hhead
    rw [hlist, List.head?_append, hc] at hd
    exact Option.some.inj hd ▸ hblank
  · rw [hlist] at hmem
    rcases List.mem_append.1 hmem with hmem | hmem
    · exact hline hmem
    · exact absurd (Decimal.isDigit_of_mem_digits hmem) (by decide)
  · have hnone : ∀ q ∈ headings, q.1.toList.getLast?.any (!·.isDigit) := by decide
    refine List.lookup_eq_none_iff.2 fun q hq => bne_iff_ne.2 ?_
    rintro rfl
    obtain ⟨d, hd, hno⟩ := (Option.any_eq_true _ _).1 (hnone q hq)
    rw [hlast d hd] at hno
    cases hno

namespace FlowModel

theorem toList_edgeName (edge : Nat) :
    s!"edge_{edge}".toList = "edge_".toList ++ Decimal.digits edge := by
  rw [← toList_toString, ← String.toList_append]
  rfl

theorem isName_edgeName (edge : Nat) : IsName s!"edge_{edge}".toList := by
  have hword : ∀ c ∈ ['d', 'g', 'e', '_'], isNameChar c := by simp [isNameChar]
  have hchars : ∀ c ∈ ['d', 'g', 'e', '_'] ++ Decimal.digits edge, isNameChar c := by
    intro c hc
    rcases List.mem_append.1 hc with hc | hc
    · exact hword c hc
    · simp [isNameChar, Char.isAlphanum, Decimal.isDigit_of_mem_digits hc]
  rw [toList_edgeName]
  exact .mk (c := 'e') rfl (nameTail_of_chars hchars)

/-- No edge is called like a declaration. -/
theorem edgeName_ne_int (edge : Nat) :
    s!"edge_{edge}".toList.map Char.toLower ≠ "int".toList := by
  rw [toList_edgeName]
  intro h
  exact absurd (List.cons.inj h).1 (by decide)

/-- Edges have names of their own. -/
theorem edgeName_injective : Function.Injective fun edge : Nat => s!"edge_{edge}" := by
  intro a b h
  have hlists := congrArg String.toList h
  simp only [toList_edgeName] at hlists
  exact Decimal.digits_injective (List.append_cancel_left hlists)

end FlowModel

/-! ## Rows -/

namespace EdgeRow

/-- What can stand in a listing. -/
structure Plain (r : EdgeRow) : Prop where
  factor_lt : r.factor < 2 ^ 64
  comment : Solid r.comment.toList ∧ '\n' ∉ r.comment.toList ∧ headings.lookup r.comment = none

/-- What the rows of models have in common that are read back as rows. -/
structure Shaped (r : EdgeRow) : Prop extends r.Plain where
  left_ne_nil : r.left ≠ []
  length_ne_one : (r.left ++ r.right).length ≠ 1
  right_ne_nil : r.factor = 0 → r.right ≠ []

theorem terms_toRow (r : EdgeRow) (edges : List Nat) : (r.toRow edges : Row Float).terms =
    (r.left.map fun e => (edges.idxOf e + 1, 1)) ++
      r.right.map fun e => (edges.idxOf e + 1, -Float.ofNat r.factor) :=
  rfl

theorem unsigned_rhs (r : EdgeRow) (edges : List Nat) : Unsigned (r.toRow edges : Row Float).rhs :=
  unsigned_ofNat (r.offset_le.trans_lt (by decide))

variable {r : EdgeRow} (edges : List Nat)

theorem mem_terms_toRow {t : Nat × Float} (ht : t ∈ (r.toRow edges : Row Float).terms) :
    (∃ e ∈ r.left, t = (edges.idxOf e + 1, 1)) ∨
      ∃ e ∈ r.right, t = (edges.idxOf e + 1, -Float.ofNat r.factor) := by
  rw [terms_toRow] at ht
  rcases List.mem_append.1 ht with ht | ht <;> obtain ⟨e, he, rfl⟩ := List.mem_map.1 ht
  · exact .inl ⟨e, he, rfl⟩
  · exact .inr ⟨e, he, rfl⟩

theorem Plain.spelled (h : r.Plain) : (r.toRow edges : Row Float).Spelled := by
  refine ⟨fun x hx => ?_, fun text ht => Option.some.inj ht ▸ h.comment⟩
  rcases List.mem_cons.1 hx with rfl | hx
  · exact (r.unsigned_rhs edges).finite
  · obtain ⟨t, ht, rfl⟩ := List.mem_map.1 hx
    rcases mem_terms_toRow edges ht with ⟨e, -, rfl⟩ | ⟨e, -, rfl⟩
    · exact unsigned_one.finite
    · exact isFinite_neg (unsigned_ofNat h.factor_lt).finite

/-- A shaped row is not taken for a bound. -/
theorem Shaped.length_terms_ne_one (h : r.Shaped) :
    (r.toRow edges : Row Float).terms.length ≠ 1 := by
  simpa [terms_toRow] using h.length_ne_one

/-- The terms on the left have the coefficient one, those on the right one below zero. -/
theorem Shaped.listable (h : r.Shaped) (hf : r.factor ≠ 0) :
    (r.toRow edges : Row Float).Listable := by
  have hneg := not_nonneg_neg_ofNat hf h.factor_lt
  have hzero : (0 : Float) ≤ -0 := by decide
  refine ⟨h.toPlain.spelled edges, h.length_terms_ne_one edges, ?_, ?_,
    .inl (r.unsigned_rhs edges).nonneg⟩
  · intro t ht
    rcases mem_terms_toRow edges ht with ⟨e, -, rfl⟩ | ⟨e, -, rfl⟩
    · exact unsigned_one.ne_neg_zero
    · intro heq
      have heq' : -Float.ofNat r.factor = -0 := heq
      rw [heq'] at hneg
      exact hneg hzero
  · rw [terms_toRow, List.pairwise_append]
    refine ⟨?_, ?_, ?_⟩
    · rw [List.pairwise_map]
      exact List.pairwise_of_forall fun _ _ _ => unsigned_one.nonneg
    · rw [List.pairwise_map]
      exact List.pairwise_of_forall fun _ _ => id
    · intro s hs t _ _
      obtain ⟨e, -, rfl⟩ := List.mem_map.1 hs
      exact unsigned_one.nonneg

/-- A row of a model is written in the order in which it is read. -/
theorem reread_toRow (r : EdgeRow) : (r.toRow edges : Row Float).reread = r.toRow edges := by
  rw [Row.reread, (r.unsigned_rhs edges).plain_eq]

/-- With a factor of zero, all terms stand on the left. -/
theorem leftTerms_toRow (hf : r.factor = 0) :
    Problem.leftTerms (r.toRow edges) = (r.toRow edges : Row Float).terms := by
  have hzero : (0 : Float) ≤ -Float.ofNat 0 := by decide
  refine List.filter_eq_self.2 fun t ht => decide_eq_true ?_
  rcases mem_terms_toRow edges ht with ⟨e, -, rfl⟩ | ⟨e, -, rfl⟩
  · exact unsigned_one.nonneg
  · rw [hf]
    exact hzero

/-- A factor of zero is written as minus zero, behind the first term. -/
theorem Shaped.not_wellSigned (h : r.Shaped) (hf : r.factor = 0) :
    ¬ (r.toRow edges : Row Float).WellSigned := by
  obtain ⟨l, ls, hl⟩ := List.exists_cons_of_ne_nil h.left_ne_nil
  obtain ⟨e, es, he⟩ := List.exists_cons_of_ne_nil (h.right_ne_nil hf)
  intro hs
  refine hs.left (edges.idxOf e + 1, -Float.ofNat r.factor) ?_ (hf ▸ rfl)
  rw [leftTerms_toRow edges hf, terms_toRow, hl, he]
  exact List.mem_append_right _ List.mem_cons_self

end EdgeRow

/-- A column whose numbers have no sign is read back as it is. -/
theorem Column.reread_eq {column : Column Float} (h : ∀ x ∈ column.numbers, Unsigned x) :
    column.reread = column := by
  have hlower := (h column.lower (List.mem_cons_of_mem _ List.mem_cons_self)).plain_eq
  have hupper : column.upper.map plain = column.upper := by
    cases hu : column.upper with
    | none => rfl
    | some upper => exact congrArg some (h upper (by simp [Column.numbers, hu])).plain_eq
  rw [Column.reread, hlower, hupper]

/-! ## Models -/

namespace FlowModel

/-- The column counts the edge, and its numbers are numbers of 64 bits. -/
structure EdgeColumn (edge : Nat) (column : Column Float) : Prop where
  name_eq : column.name = s!"edge_{edge}"
  word : ∀ x ∈ column.numbers, ∃ n < 2 ^ 64, x = Scalar.ofNat n
  lower_le : ∀ upper ∈ column.upper, column.lower ≤ upper

namespace EdgeColumn

variable {edge : Nat} {column : Column Float} (h : EdgeColumn edge column)

include h

theorem unsigned {x : Float} (hx : x ∈ column.numbers) : Unsigned x := by
  obtain ⟨n, hn, rfl⟩ := h.word x hx
  exact unsigned_ofNat hn

theorem listable : column.Listable := by
  have hobjective : Unsigned column.objective := h.unsigned List.mem_cons_self
  refine ⟨⟨?_, fun x hx => (h.unsigned hx).finite⟩, ?_, hobjective.nonneg,
    hobjective.ne_neg_zero, h.lower_le⟩
  · rw [h.name_eq]
    exact isName_edgeName edge
  · rw [h.name_eq]
    exact edgeName_ne_int edge

theorem reread_eq : column.reread = column :=
  Column.reread_eq fun _ hx => h.unsigned hx

end EdgeColumn

/-- The model has the rows `R`, and a column for each of its edges, which `column` gives. -/
structure Written (R : EdgeRow → Prop) (column : Nat → Column Float) (m : FlowModel Float) :
    Prop where
  edges_nodup : m.edges.Nodup
  rows_mem : ∀ r, R r → ∀ e ∈ r.left ++ r.right, e ∈ m.edges
  rows_iff : ∀ row, row ∈ m.problem.rows ↔ ∃ r, R r ∧ row = r.toRow m.edges
  columns_eq : m.problem.columns = m.edges.map column
  column : ∀ e ∈ m.edges, EdgeColumn e (column e)

namespace Written

variable {R : EdgeRow → Prop} {column : Nat → Column Float} {m : FlowModel Float}
  (hm : m.Written R column)

include hm

theorem known : m.problem.Known := by
  intro row hrow t ht
  obtain ⟨r, hr, rfl⟩ := (hm.rows_iff row).1 hrow
  have hmem : ∃ e ∈ r.left ++ r.right, t.1 = m.edges.idxOf e + 1 := by
    rcases EdgeRow.mem_terms_toRow m.edges ht with ⟨e, he, rfl⟩ | ⟨e, he, rfl⟩
    · exact ⟨e, List.mem_append_left _ he, rfl⟩
    · exact ⟨e, List.mem_append_right _ he, rfl⟩
  obtain ⟨e, he, hidx⟩ := hmem
  have hlt := List.idxOf_lt_length_iff.2 (hm.rows_mem r hr e he)
  rw [hidx, hm.columns_eq, List.length_map]
  omega

theorem exists_edge {c : Column Float} (hc : c ∈ m.problem.columns) :
    ∃ e ∈ m.edges, column e = c ∧ EdgeColumn e c := by
  rw [hm.columns_eq] at hc
  obtain ⟨e, he, rfl⟩ := List.mem_map.1 hc
  exact ⟨e, he, rfl, hm.column e he⟩

theorem names_nodup : m.problem.names.Nodup := by
  have hnames : m.edges.map (fun e => (column e).name) = m.edges.map fun e => s!"edge_{e}" :=
    List.map_congr_left fun e he => (hm.column e he).name_eq
  rw [Problem.names, hm.columns_eq, List.map_map]
  exact hnames ▸ hm.edges_nodup.map edgeName_injective

theorem separable (hR : ∀ r, R r → r.Plain) : m.problem.Separable := by
  have hspelled : m.problem.Spelled := by
    refine ⟨hm.known, fun c hc => ?_, fun row hrow => ?_⟩
    · obtain ⟨e, -, -, hcolumn⟩ := hm.exists_edge hc
      exact hcolumn.listable.toSpelled
    · obtain ⟨r, hr, rfl⟩ := (hm.rows_iff row).1 hrow
      exact (hR r hr).spelled m.edges
  refine ⟨hspelled, hm.names_nodup, fun c hc => ?_, fun name hname => ?_⟩
  · obtain ⟨e, -, -, hcolumn⟩ := hm.exists_edge hc
    exact hcolumn.listable.readable
  · obtain ⟨c, hc, rfl⟩ := hspelled.exists_column_of_mem_leads hname
    obtain ⟨e, -, -, hcolumn⟩ := hm.exists_edge hc
    exact hcolumn.listable.ne_int

/-- Without a factor of zero, the model is read back as it is. -/
theorem parse_listing_eq (hR : ∀ r, R r → r.Shaped ∧ r.factor ≠ 0) (hread : m.problem.ReadsBack) :
    parse m.listing = .ok { m.problem with name := "parsed" } := by
  have hlistable : m.problem.Listable := by
    refine ⟨hm.names_nodup, fun c hc => ?_, fun row hrow => ?_⟩
    · obtain ⟨e, -, -, hcolumn⟩ := hm.exists_edge hc
      exact hcolumn.listable
    · obtain ⟨r, hr, rfl⟩ := (hm.rows_iff row).1 hrow
      exact (hR r hr).1.listable m.edges (hR r hr).2
  have hcolumns : m.problem.columns.map Column.reread = m.problem.columns := by
    refine (List.map_congr_left fun c hc => ?_).trans (List.map_id _)
    obtain ⟨e, -, -, hcolumn⟩ := hm.exists_edge hc
    exact hcolumn.reread_eq
  have hrows : m.problem.rows.map Row.reread = m.problem.rows := by
    refine (List.map_congr_left fun row hrow => ?_).trans (List.map_id _)
    obtain ⟨r, -, rfl⟩ := (hm.rows_iff row).1 hrow
    exact r.reread_toRow m.edges
  refine (Problem.parse_listing_eq hlistable hread hm.known).trans ?_
  rw [Problem.reread, hcolumns, hrows]

/-- The first row with a factor of zero is not read. -/
theorem parse_listing_eq_error (hR : ∀ r, R r → r.Shaped) (hread : m.problem.ReadsBack)
    (hzero : ∃ r, R r ∧ r.factor = 0) :
    (parse m.listing : Except (ListingError Float) (Problem Float)) = .error (.badTerm "") := by
  refine Problem.parse_listing_eq_error (hm.separable fun r hr => (hR r hr).toPlain) hread
    (fun row hrow => ?_) fun hs => ?_
  · obtain ⟨r, hr, rfl⟩ := (hm.rows_iff row).1 hrow
    exact (hR r hr).length_terms_ne_one m.edges
  · obtain ⟨r, hr, hf⟩ := hzero
    exact (hR r hr).not_wellSigned m.edges hf (hs.rows _ ((hm.rows_iff _).2 ⟨r, hr, rfl⟩))

end Written

section described

variable {g : FlowGraph} {R : EdgeRow → Prop} {U : Nat → Prop} {time : Nat → Float}
  {m : FlowModel Float} (hm : m.Described g R U time)
  (htime : ∀ e ∈ m.edges, ∃ n < 2 ^ 64, time e = Scalar.ofNat n) (hg : g.WellFormed)

include hm htime hg

theorem Described.exists_written : ∃ column, m.Written R column := by
  obtain ⟨upper, hcol, hup⟩ := hm.columns
  refine ⟨_, hm.edges_nodup hg, hm.rows_mem, hm.rows_iff, hcol, fun e he => ⟨rfl, ?_, ?_⟩⟩
  · intro x hx
    rcases List.mem_cons.1 hx with rfl | hx
    · exact htime e he
    · rcases List.mem_cons.1 hx with rfl | hx
      · exact ⟨0, by decide, rfl⟩
      · obtain ⟨-, rfl⟩ := (hup e he x).1 (Option.mem_toList.1 hx)
        exact ⟨1, by decide, rfl⟩
  · intro u hu
    obtain ⟨-, rfl⟩ := (hup e he u).1 hu
    exact unsigned_one.nonneg

/-- A model without a factor of 0 is read back. -/
theorem Described.parse_listing_eq (hR : ∀ r, R r → r.Shaped ∧ r.factor ≠ 0)
    (hread : m.problem.ReadsBack) :
    parse m.listing = .ok { m.problem with name := "parsed" } := by
  obtain ⟨column, hwritten⟩ := hm.exists_written htime hg
  exact hwritten.parse_listing_eq hR hread

/-- A factor of 0 is written as a minus behind a plus, which is not read. -/
theorem Described.parse_listing_eq_error (hR : ∀ r, R r → r.Shaped) (hread : m.problem.ReadsBack)
    (hzero : ∃ r, R r ∧ r.factor = 0) :
    (parse m.listing : Except (ListingError Float) (Problem Float)) = .error (.badTerm "") := by
  obtain ⟨column, hwritten⟩ := hm.exists_written htime hg
  exact hwritten.parse_listing_eq_error hR hread hzero

end described

end FlowModel

namespace Scenario

/-! ## Scenarios -/

/-- The times and bounds are numbers of 64 bits. -/
structure Words (s : Scenario) : Prop where
  unitWcet : ∀ unit wcet, s.database.unitWcet s.subprogram unit = .ok wcet → wcet < 2 ^ 64
  inlinedWcet : ∀ callee wcet, s.inlinedWcets.get? callee = some wcet → wcet < 2 ^ 64
  loopBound : ∀ header ancestor bound,
    s.database.loopBound s.subprogram header ancestor = .ok bound → bound < 2 ^ 64

theorem Small.words {s : Scenario} (h : s.Small) : s.Words where
  unitWcet unit wcet hw := (h.unitWcet unit wcet hw).trans_lt (by decide)
  inlinedWcet callee wcet hw := (h.inlinedWcet callee wcet hw).trans_lt (by decide)
  loopBound header ancestor bound hb := (h.loopBound header ancestor bound hb).trans_lt (by decide)

theorem Words.wcetOf_lt {s : Scenario} (h : s.Words) {α : Type} {e : Edge} {wcet : Nat}
    (hw : s.wcetOf (α := α) e = .ok wcet) : wcet < 2 ^ 64 := by
  rcases wcetOf_cases hw with rfl | ⟨unit, hunit⟩ | ⟨callee, hinlined⟩
  · exact Nat.two_pow_pos 64
  · exact h.unitWcet _ _ hunit
  · exact h.inlinedWcet _ _ hinlined

theorem crossings?_ne_nil {p : LoopPartition} {a : Nat} {edges : List Nat}
    (h : crossings? p a = some edges) : edges ≠ [] := by
  unfold crossings? at h
  split at h
  · next hne =>
    obtain rfl := Option.some.inj h
    simpa using hne
  · split at h
    · next hne =>
      obtain rfl := Option.some.inj h
      simpa using hne
    · cases h

theorem length_append_ne_one {left right : List Nat} (hl : left ≠ []) (hr : right ≠ []) :
    (left ++ right).length ≠ 1 := by
  have hleft := List.length_pos_of_ne_nil hl
  have hright := List.length_pos_of_ne_nil hr
  rw [List.length_append]
  omega

theorem shaped_limitRow {p : LoopPartition} {h a factor : Nat} {edges : List Nat} {comment : String}
    (hb : p.backOf h ≠ []) (hc : crossings? p a = some edges) (hf : factor < 2 ^ 64)
    (hcomment : Solid comment.toList ∧ '\n' ∉ comment.toList ∧ headings.lookup comment = none) :
    (limitRow p h factor edges comment).Shaped := by
  have hne := crossings?_ne_nil hc
  exact ⟨⟨hf, hcomment⟩, hb, length_append_ne_one hb hne, fun _ => hne⟩

variable {s : Scenario} {p : LoopPartition} {entry : Nat} {r : EdgeRow}

theorem shaped_flowRow {v : Vertex} (hpred : v.predecessors ≠ []) (hsucc : v.successors ≠ []) :
    (flowRow v).Shaped :=
  ⟨⟨show 1 < 2 ^ 64 by decide, remark_of_toString "Vertex " rfl ⟨'V', rfl, by decide⟩ (by decide)⟩,
    hsucc, length_append_ne_one hsucc hpred, fun _ => hpred⟩

/-- Every row of a model has the shape that its listing needs. -/
theorem shaped_of_modelRow (hwords : s.Words) (hr : s.ModelRow p entry r) : r.Shaped := by
  have hone : 1 < 2 ^ 64 := by decide
  rcases hr with ⟨v, -, hpred, hsucc, rfl⟩ | ⟨h, -, hrow⟩
  · exact shaped_flowRow hpred hsucc
  · cases hrow with
    | whole he hb =>
      have hlength : (p.backOf h.id ++ []).length ≠ 1 := by
        rw [List.append_nil]
        omega
      exact ⟨⟨hone, remark_of_toString "Header " rfl ⟨'H', rfl, by decide⟩ (by decide)⟩,
        List.ne_nil_of_length_pos (Nat.lt_of_lt_of_le Nat.two_pos hb), hlength,
        fun hf => absurd hf Nat.one_ne_zero⟩
    | selfLoop he hb hs hc =>
      exact shaped_limitRow hb hc hone
        (remark_of_toString "Self loop " rfl ⟨'S', rfl, by decide⟩ (by decide))
    | bound he hb hs ha hrow =>
      obtain ⟨-, -, -, -, hbound, hc⟩ := hrow
      refine shaped_limitRow hb hc (hwords.loopBound _ _ _ hbound) ?_
      refine remark_of_toString ("Header " ++ toString h.id ++ " with respect to ") rfl ?_ ?_
      · refine ⟨'H', ?_, by decide⟩
        rw [String.toList_append, String.toList_append]
        rfl
      · rw [String.toList_append, String.toList_append, toList_toString, List.mem_append,
          List.mem_append, not_or, not_or]
        refine ⟨⟨by decide, fun hmem => ?_⟩, by decide⟩
        exact absurd (Decimal.isDigit_of_mem_digits hmem) (by decide)

/-- The factor of a row is one or a loop bound. -/
theorem factor_ne_zero (hbounds : ∀ header ancestor bound,
    s.database.loopBound s.subprogram header ancestor = .ok bound → bound ≠ 0)
    (hr : s.ModelRow p entry r) : r.factor ≠ 0 := by
  rcases hr with ⟨v, -, -, -, rfl⟩ | ⟨h, -, hrow⟩
  · exact Nat.one_ne_zero
  · cases hrow with
    | whole => exact Nat.one_ne_zero
    | selfLoop => exact Nat.one_ne_zero
    | bound _ _ _ _ hrow =>
      obtain ⟨-, -, -, -, hbound, -⟩ := hrow
      exact hbounds _ _ _ hbound

/-- **Which models can be read back.** A model is read back from its listing as it is unless one of
the loop bounds that it reads is zero; then its listing has a term that cannot be read. -/
theorem parse_listing_of_model {sub : Subprogram} (hsub : sub.Made) (hgraph : s.graph = sub.graph)
    (he : s.graph.entry? = some entry) (hp : LoopPartition.ofGraph s.graph s.nest = .ok p)
    {m : FlowModel Float} (hm : s.model = .ok m) (hwords : s.Words) (hread : m.problem.ReadsBack) :
    ((∀ r, s.ModelRow p entry r → r.factor ≠ 0) →
      parse m.listing = .ok { m.problem with name := "parsed" }) ∧
    ((∃ r, s.ModelRow p entry r ∧ r.factor = 0) →
      (parse m.listing : Except (ListingError Float) (Problem Float)) = .error (.badTerm "")) := by
  obtain ⟨t, hn⟩ := hsub.found
  have hg : s.graph.WellFormed := hgraph ▸ hn.wellFormed
  obtain ⟨p', time, hp', hdesc, htime⟩ := described_model hg he hm
  cases hp.symm.trans hp'
  have htimes : ∀ e ∈ m.edges, ∃ n < 2 ^ 64, time e = Scalar.ofNat n := by
    intro id hid
    obtain ⟨e, hmem, rfl⟩ := (hdesc.mem_edges_iff hg).1 hid
    obtain ⟨wcet, hw, ht⟩ := htime e hmem
    exact ⟨wcet, hwords.wcetOf_lt hw, ht⟩
  have hshaped : ∀ r, s.ModelRow p entry r → r.Shaped := fun r => shaped_of_modelRow hwords
  constructor
  · intro hfactor
    exact hdesc.parse_listing_eq htimes hg (fun r hr => ⟨hshaped r hr, hfactor r hr⟩) hread
  · exact hdesc.parse_listing_eq_error htimes hg hshaped hread

end Scenario

namespace Sample

/-- The data for the sample with nested loops, where the inner loop never iterates. -/
def idleData : SubprogramData :=
  mainData.setLoopBound 3 2 0

def idleDatabase : Database :=
  ⟨NatMap.empty.insert mainId idleData⟩

/-- The edges of the sample with nested loops, by loop. -/
def nestedPartition : LoopPartition :=
  (LoopPartition.ofGraph nestedMain.graph nestedMain.nest).toOption.getD (.start nestedMain.nest)

/-- The model of the sample with nested loops. -/
def nestedModel (database : Database) : FlowModel Float :=
  (Scenario.ofSubprogram nestedMain database).model.toOption.getD ⟨.empty "nested" .maximise, []⟩

theorem ofGraph_nestedMain :
    LoopPartition.ofGraph nestedMain.graph nestedMain.nest = .ok nestedPartition :=
  rfl

theorem model_nestedMain (database : Database)
    (h : ∃ m : FlowModel Float, (Scenario.ofSubprogram nestedMain database).model = .ok m) :
    (Scenario.ofSubprogram nestedMain database).model = .ok (nestedModel database) := by
  obtain ⟨m, hm⟩ := h
  rw [nestedModel, hm]
  rfl

section data

variable {database : Database} {data : SubprogramData} (hd : database.data mainId = .ok data)

include hd

theorem words_nestedMain (hunit : ∀ q ∈ data.unitWcets.entries, q.2 ≤ 2 ^ 53)
    (hbound : ∀ q ∈ data.loopBounds.entries, ∀ b ∈ q.2.entries, b.2 ≤ 2 ^ 53) :
    (Scenario.ofSubprogram nestedMain database).Words :=
  (Scenario.small_of_data hd hunit (fun _ hq => absurd hq List.not_mem_nil) hbound).words

theorem factor_ne_zero_nestedMain
    (hbound : ∀ q ∈ data.loopBounds.entries, ∀ b ∈ q.2.entries, b.2 ≠ 0) (r : EdgeRow)
    (hr : (Scenario.ofSubprogram nestedMain database).ModelRow nestedPartition 1 r) :
    r.factor ≠ 0 := by
  refine Scenario.factor_ne_zero (fun header ancestor bound hb => ?_) hr
  obtain ⟨bounds, hbounds, hmem⟩ := Database.mem_of_loopBound hd hb
  exact hbound _ hbounds _ hmem

end data

/-- The idle database has a loop bound of 0. -/
theorem exists_factor_zero_idle : ∃ r,
    (Scenario.ofSubprogram nestedMain idleDatabase).ModelRow nestedPartition 1 r ∧
      r.factor = 0 := by
  have hbound : Scenario.BoundRow (Scenario.ofSubprogram nestedMain idleDatabase) nestedPartition 1
      ⟨3, some 2, 2, false, [2, 1], [5], [5]⟩ 3 _ :=
    .relative (by decide) rfl rfl (by decide) rfl rfl
  exact ⟨_, .inr ⟨_, by decide, .bound (by decide) (by decide) rfl (by decide) hbound⟩, rfl⟩

end Sample

open Sample in
/-- The sample with nested loops can be read back, but not if its inner loop never iterates. -/
theorem Scenario.parse_listing_of_model_nestedMain :
    (nestedMain.Made ∧ nestedMain.graph.entry? = some 1 ∧
      LoopPartition.ofGraph nestedMain.graph nestedMain.nest = .ok nestedPartition) ∧
    ((ofSubprogram nestedMain mainDatabase).model = .ok (nestedModel mainDatabase) ∧
      (ofSubprogram nestedMain mainDatabase).Words ∧
      (nestedModel mainDatabase).problem.ReadsBack ∧
      (∀ r, (ofSubprogram nestedMain mainDatabase).ModelRow nestedPartition 1 r → r.factor ≠ 0) ∧
      parse (nestedModel mainDatabase).listing =
        .ok { (nestedModel mainDatabase).problem with name := "parsed" }) ∧
    ((ofSubprogram nestedMain idleDatabase).model = .ok (nestedModel idleDatabase) ∧
      (ofSubprogram nestedMain idleDatabase).Words ∧
      (nestedModel idleDatabase).problem.ReadsBack ∧
      (∃ r, (ofSubprogram nestedMain idleDatabase).ModelRow nestedPartition 1 r ∧ r.factor = 0) ∧
      (parse (nestedModel idleDatabase).listing :
        Except (ListingError Float) (Problem Float)) = .error (.badTerm "")) := by
  have hmain : mainDatabase.data mainId = .ok mainData := by decide
  have hidle : idleDatabase.data mainId = .ok idleData := by decide
  have hrmain : (nestedModel mainDatabase).problem.ReadsBack := by
    constructor <;> decide +kernel
  have hridle : (nestedModel idleDatabase).problem.ReadsBack := by
    constructor <;> decide +kernel
  have hmmain := model_nestedMain mainDatabase ⟨_, rfl⟩
  have hmidle := model_nestedMain idleDatabase ⟨_, rfl⟩
  have hwmain := words_nestedMain hmain (by decide) (by decide)
  have hwidle := words_nestedMain hidle (by decide) (by decide)
  have hfactor := factor_ne_zero_nestedMain hmain (by decide)
  refine ⟨⟨made_nestedMain, rfl, ofGraph_nestedMain⟩, ⟨hmmain, hwmain, hrmain, hfactor, ?_⟩,
    ⟨hmidle, hwidle, hridle, exists_factor_zero_idle, ?_⟩⟩
  · have hread := parse_listing_of_model (s := ofSubprogram nestedMain mainDatabase) made_nestedMain
      rfl rfl ofGraph_nestedMain hmmain hwmain hrmain
    exact hread.1 hfactor
  · have hread := parse_listing_of_model (s := ofSubprogram nestedMain idleDatabase) made_nestedMain
      rfl rfl ofGraph_nestedMain hmidle hwidle hridle
    exact hread.2 exists_factor_zero_idle

end WorstCase
