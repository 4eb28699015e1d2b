import WorstCase.Proofs.Listing.RoundTrip
import WorstCase.Proofs.Number.Whole

/-!
# Problems read from a listing

Whatever a listing says, the problem read from it is coherent (`Problem.Coherent`): names stand for
one column each and follow the grammar unless a declaration made them, bounds do not cross, rows do
not have one term, and comments are not taken for headings. Each part of a listing keeps the draft
so (`Draft.Coherent.add`), hence all of them do (`Listing.coherent_of_parse`). A problem read from a
listing can thus be listed and read again, provided that names and numbers can be written at all
(`Problem.Printable`), exactly if no minus stands behind a plus (`Problem.parse_listing_of_parse`).
-/

namespace WorstCase

open Text Listing Double

namespace Listing

/-! ## Names of terms -/

theorem nameTail_readNameTail (cs : List Char) : NameTail (readNameTail cs).1 := by
  fun_induction readNameTail cs with
  | case1 => exact .nil
  | case2 c cs hc name rest heq ih =>
    rw [heq] at ih
    exact .hyphen hc ih
  | case3 => exact .nil
  | case4 c cs _ hc name rest heq ih =>
    rw [heq] at ih
    exact .char hc ih
  | case5 => exact .nil

/-- What is read as a name is one. -/
theorem isName_of_readName? {cs name rest : List Char} (h : readName? cs = some (name, rest)) :
    IsName name := by
  unfold readName? at h
  split at h
  · cases h
  · next c cs =>
    split at h
    · next hc =>
      obtain ⟨rfl, -⟩ := Prod.mk.inj (Option.some.inj h)
      exact .mk hc (nameTail_readNameTail cs)
    · cases h

theorem isName_of_read {cs name : List Char} (h : (Written.read cs).name = some name) :
    IsName name := by
  simp only [Written.read] at h
  split at h
  · next heq =>
    obtain rfl := Option.some.inj h
    exact isName_of_readName? heq
  · cases h

theorem isName_of_term? {w : Written} (hw : ∀ name, w.name = some name → IsName name)
    {name : String} {k : Float} (h : w.term? = some (.column name k)) : IsName name.toList := by
  unfold Written.term? at h
  cases hname : w.name with
  | none => cases hnumber : w.number <;> simp [hname, hnumber] at h
  | some cs =>
    obtain rfl : String.ofList cs = name := by
      cases hnumber : w.number <;> simp [hname, hnumber] at h <;> exact h.1
    rw [String.toList_ofList]
    exact hw cs hname

/-- The columns that terms mention have names. -/
theorem isName_of_readTerms {rounds : Nat} {first : Bool} {cs : List Char}
    {terms : List (Term Float)} (h : readTerms rounds first cs = .ok terms) {name : String}
    {k : Float} (ht : .column name k ∈ terms) : IsName name.toList := by
  fun_induction readTerms (α := Float) rounds first cs generalizing terms with
  | case1 =>
    cases h
    cases ht
  | case2 | case3 | case4 | case5 => cases h
  | case6 rounds first cs _ w _ term hterm rest hrest =>
    rename_i ih
    cases h
    rcases List.mem_cons.1 ht with rfl | ht
    · exact isName_of_term? (fun _ => isName_of_read) hterm
    · exact ih hrest ht

theorem Side.isName_of_read {cs : List Char} {side : Side Float} (h : Side.read cs = .ok side) :
    ∀ t ∈ side.terms, IsName t.1.toList := by
  unfold Side.read at h
  dsimp only at h
  split at h
  · cases h
  · next terms hterms =>
    cases h
    rintro ⟨name, k⟩ ht
    obtain ⟨term, hmem, heq⟩ := List.mem_filterMap.1 ht
    cases term with
    | constant value => cases heq
    | column name' k' =>
      cases heq
      exact isName_of_readTerms hterms hmem

/-! ## Remarks -/

/-- A trimmed text has no blanks around it. -/
theorem solid_trim (cs : List Char) : Solid (trim cs) := by
  have hhead : ∀ cs : List Char, ∀ c ∈ (trimStart cs).head?, ¬ isBlank c := by
    intro cs c hc hblank
    have hnot := List.head?_dropWhile_not isBlank cs
    rw [trimStart] at hc
    rw [hc] at hnot
    exact Bool.false_ne_true (hnot.symm.trans hblank)
  have hlast : ∀ c ∈ (trim cs).getLast?, ¬ isBlank c := by
    rw [trim, trimEnd, List.getLast?_reverse]
    exact hhead (trimStart cs).reverse
  refine ⟨fun c hc => ?_, hlast⟩
  -- what is cut off the end does not change the first character
  obtain ⟨post, hpost⟩ : trim cs <+: trimStart cs := by
    rw [trim, trimEnd, ← List.reverse_suffix, List.reverse_reverse]
    exact List.dropWhile_suffix _
  refine hhead cs c ?_
  rw [← hpost, List.head?_append, hc]
  rfl

theorem mem_of_mem_trim {cs : List Char} {c : Char} (h : c ∈ trim cs) : c ∈ cs := by
  have hend : c ∈ trimStart cs :=
    List.mem_reverse.1 ((List.dropWhile_suffix isBlank).mem (List.mem_reverse.1 h))
  exact (List.dropWhile_suffix isBlank).mem hend

theorem mem_of_after? {start cs rest : List Char} (h : after? start cs = some rest) {c : Char}
    (hc : c ∈ rest) : c ∈ cs := by
  fun_induction after? start cs with
  | case1 cs => exact Option.some.inj h ▸ hc
  | case2 => cases h
  | case3 _ _ _ ih => exact List.mem_cons_of_mem _ (ih h)
  | case4 => cases h

/-- The text is read as a remark when it stands behind two slashes. -/
structure IsRemark (text : List Char) : Prop where
  solid : Solid text
  no_newline : '\n' ∉ text
  no_heading : headings.lookup (String.ofList text) = none

/-- The remarks among the items are texts of lines. -/
def RemarksOf (items : List Item) : Prop :=
  ∀ text, .remark text ∈ items → IsRemark text

theorem RemarksOf.append {items items' : List Item} (h : RemarksOf items) (h' : RemarksOf items') :
    RemarksOf (items ++ items') :=
  fun text ht => (List.mem_append.1 ht).elim (h text) (h' text)

/-- A remark that is read can be written again: it has one line and no blanks around it. -/
theorem isRemark_of_ofRemark {cs text : List Char} (hline : '\n' ∉ cs)
    (h : Item.ofRemark (trim cs) = .remark text) : IsRemark text := by
  unfold Item.ofRemark at h
  split at h
  · cases h
  · next hnone =>
    cases h
    exact ⟨solid_trim cs, fun hmem => hline (mem_of_mem_trim hmem), hnone⟩

theorem remarksOf_cut (pieces : List (List Char)) : RemarksOf (cut pieces).1 := by
  fun_induction cut pieces with
  | case1 | case2 => exact fun text ht => absurd ht List.not_mem_nil
  | case3 piece rest _ items tail heq text ih =>
    rw [heq] at ih
    intro remark hr
    dsimp only at hr
    split at hr
    · exact ih remark hr
    · exact ih remark ((List.mem_cons.1 hr).resolve_left nofun)

/-- All remarks that are read can be written again. -/
theorem remarksOf_itemsOfLines {lines : List (List Char)} (h : ∀ line ∈ lines, '\n' ∉ line)
    (pending : List Char) : RemarksOf (itemsOfLines pending lines).1 := by
  fun_induction itemsOfLines pending lines with
  | case1 => exact fun text ht => absurd ht List.not_mem_nil
  | case2 pending line rest line' remark hafter items tail heq ih =>
    rw [List.forall_mem_cons] at h
    rw [heq] at ih
    intro text ht
    rcases List.mem_cons.1 ht with ht | ht
    · refine isRemark_of_ofRemark (fun hmem => h.1 ?_) ht.symm
      exact mem_of_mem_trim (mem_of_after? hafter hmem)
    · exact ih h.2 text ht
  | case3 pending line rest line' hafter items pending' hcut later tail heq ih =>
    rw [List.forall_mem_cons] at h
    rw [heq] at ih
    have hitems := remarksOf_cut ((pending ++ ' ' :: line').splitOnP (· == ';'))
    rw [hcut] at hitems
    exact hitems.append (ih h.2)

/-- What stands between separators has none. -/
theorem forall_mem_of_mem_splitOnP {β : Type} (sep : β → Bool) (xs : List β) :
    ∀ piece ∈ xs.splitOnP sep, ∀ x ∈ piece, sep x = false := by
  induction xs with
  | nil =>
    intro piece hpiece x hx
    rw [List.splitOnP_nil, List.mem_singleton] at hpiece
    rw [hpiece] at hx
    cases hx
  | cons y xs ih =>
    rw [List.splitOnP_cons_eq_if_modifyHead]
    split
    · exact List.forall_mem_cons.2 ⟨fun x hx => absurd hx List.not_mem_nil, ih⟩
    · next hy =>
      obtain ⟨first, rest, hsplit⟩ := List.exists_cons_of_ne_nil (List.splitOnP_ne_nil sep xs)
      rw [hsplit, List.forall_mem_cons] at ih
      rw [hsplit, List.modifyHead_cons, List.forall_mem_cons]
      exact ⟨List.forall_mem_cons.2 ⟨Bool.not_eq_true _ ▸ hy, ih.1⟩, ih.2⟩

theorem remarksOf_items (listing : List Char) : RemarksOf (items listing).1 := by
  refine remarksOf_itemsOfLines (fun line hline hmem => ?_) []
  have hnot := forall_mem_of_mem_splitOnP _ _ line hline _ hmem
  exact absurd hnot (by decide)

end Listing

/-! ## Coherent problems -/

/-- A column as reading leaves it: only a declaration makes a column of what is no name. -/
structure Column.Coherent (column : Column Float) : Prop where
  isName : column.integer = false → IsName column.name.toList
  objective_ne_neg_zero : column.objective ≠ -0
  not_lt : ∀ upper ∈ column.upper, ¬ upper < column.lower

/-- A row as reading leaves it: one term would have been a bound. -/
structure Row.Coherent (row : Row Float) : Prop where
  length_ne_one : row.terms.length ≠ 1
  comment : ∀ text ∈ row.comment, IsRemark text.toList

namespace Problem

/-- A problem as reading leaves it. -/
structure Coherent (p : Problem Float) : Prop where
  known : p.Known
  names_nodup : p.names.Nodup
  columns : ∀ column ∈ p.columns, column.Coherent
  rows : ∀ row ∈ p.rows, row.Coherent

theorem coherent_empty (name : String) (direction : Direction) :
    Coherent (.empty name direction) where
  known _ hrow := absurd hrow List.not_mem_nil
  names_nodup := List.nodup_nil
  columns _ hcolumn := absurd hcolumn List.not_mem_nil
  rows _ hrow := absurd hrow List.not_mem_nil

/-- A name that no column has been found for is new. -/
theorem intern_cases (p : Problem Float) (name : String) :
    (∃ c, p.intern name = (p, c)) ∨
      name ∉ p.names ∧ p.intern name = (p.addColumn name false, p.columns.length + 1) := by
  by_cases hmem : name ∈ p.names
  · left
    obtain ⟨column, hcolumn, rfl⟩ := List.mem_map.1 hmem
    obtain ⟨i, hi⟩ : ∃ i, p.columns.findIdx? (·.name == column.name) = some i := by
      refine Option.isSome_iff_exists.1 (List.findIdx?_isSome.trans ?_)
      exact List.any_eq_true.2 ⟨column, hcolumn, beq_self_eq_true _⟩
    refine ⟨i + 1, ?_⟩
    rw [intern, columnNamed?, hi]
    rfl
  · exact .inr ⟨hmem, intern_of_not_mem hmem⟩

namespace Coherent

variable {p p' : Problem Float}

theorem setDirection (h : p.Coherent) (direction : Direction) :
    (p.setDirection direction).Coherent :=
  ⟨h.known, h.names_nodup, h.columns, h.rows⟩

/-- A column is added under a new name. Only one that is declared may have a name that no term could
have. -/
theorem addColumn (h : p.Coherent) {name : String} (hnew : name ∉ p.names) {integer : Bool}
    (hn : integer = false → IsName name.toList) : (p.addColumn name integer).Coherent where
  known := h.known.addColumn name integer
  names_nodup := by
    have hnames : (p.addColumn name integer).names = p.names ++ [name] := List.map_append
    rw [hnames, ← List.concat_eq_append]
    exact h.names_nodup.concat hnew
  columns := by
    refine List.forall_mem_append.2 ⟨h.columns, List.forall_mem_singleton.2 ⟨hn, ?_, ?_⟩⟩
    · exact (by decide : (0 : Float) ≠ -0)
    · exact fun upper hupper => absurd hupper (Option.not_mem_none upper)
  rows := h.rows

/-- Changes of a column that keep its name and keep it coherent keep the problem so. -/
theorem edit (h : p.Coherent) {c : Nat}
    {f : Column Float → Except (ProblemError Float) (Column Float)}
    (hedit : p.edit c f = .ok p') (hf : ∀ column column' : Column Float, column.Coherent →
      f column = .ok column' → column'.name = column.name ∧ column'.Coherent) : p'.Coherent := by
  have hknown := h.known.edit hedit
  obtain ⟨column, column', hcolumn, hok, rfl⟩ := edit_eq_ok hedit
  have hget : p.columns[c - 1]? = some column := by
    unfold column? at hcolumn
    split at hcolumn
    · cases hcolumn
    · exact hcolumn
  obtain ⟨hname, hcoherent⟩ := hf column column' (h.columns column (List.mem_of_getElem? hget)) hok
  refine ⟨hknown, ?_, fun other hother => ?_, h.rows⟩
  · have hnamed : p.names[c - 1]? = some column'.name := by
      rw [names, List.getElem?_map, hget, hname]
      rfl
    obtain ⟨hlt, heq⟩ := List.getElem?_eq_some_iff.1 hnamed
    have hnames : (p.columns.set (c - 1) column').map (·.name) = p.names := by
      rw [List.map_set, ← heq]
      exact List.set_getElem_self hlt
    rw [names, hnames]
    exact h.names_nodup
  · rcases List.mem_or_eq_of_mem_set hother with hother | rfl
    · exact h.columns other hother
    · exact hcoherent

theorem intern (h : p.Coherent) {name : String} (hn : IsName name.toList) :
    (p.intern name).1.Coherent := by
  rcases intern_cases p name with ⟨c, hintern⟩ | ⟨hnew, hintern⟩
  · rw [hintern]
    exact h
  · rw [hintern]
    exact h.addColumn hnew fun _ => hn

theorem internTerms (h : p.Coherent) {terms : List (String × Float)}
    (hn : ∀ t ∈ terms, IsName t.1.toList) : (p.internTerms terms).1.Coherent := by
  induction terms generalizing p with
  | nil => exact h
  | cons t terms ih =>
    rw [List.forall_mem_cons] at hn
    exact ih (h.intern hn.1) hn.2

theorem addObjective (h : p.Coherent) {terms : List (String × Float)}
    (hn : ∀ t ∈ terms, IsName t.1.toList) (hadd : Draft.addObjective p terms = .ok p') :
    p'.Coherent := by
  induction terms generalizing p with
  | nil =>
    cases hadd
    exact h
  | cons t terms ih =>
    rw [List.forall_mem_cons] at hn
    simp only [Draft.addObjective] at hadd
    split at hadd
    · cases hadd
    · next p₁ hedit =>
      refine ih ((h.intern hn.1).edit hedit fun column column' hcolumn hok => ?_) hn.2 hadd
      cases hok
      exact ⟨rfl, hcolumn.isName, add_ne_neg_zero hcolumn.objective_ne_neg_zero _, hcolumn.not_lt⟩

/-- A declaration of a new name makes an integer column. -/
theorem setInteger_intern (h : p.Coherent) {name : String}
    (hset : (p.intern name).1.setInteger (p.intern name).2 true = .ok p') : p'.Coherent := by
  rcases intern_cases p name with ⟨c, hintern⟩ | ⟨hnew, hintern⟩
  · rw [hintern] at hset
    refine h.edit hset fun column column' hcolumn hok => ?_
    cases hok
    exact ⟨rfl, nofun, hcolumn.objective_ne_neg_zero, hcolumn.not_lt⟩
  · have hlast : (p.addColumn name false).setInteger (p.columns.length + 1) true =
        .ok (p.addColumn name true) := edit_at rfl rfl
    rw [hintern, hlast] at hset
    exact Except.ok.inj hset ▸ h.addColumn hnew nofun

theorem addIntegers (h : p.Coherent) {names : List String}
    (hadd : Draft.addIntegers p names = .ok p') : p'.Coherent := by
  induction names generalizing p with
  | nil =>
    cases hadd
    exact h
  | cons name names ih =>
    simp only [Draft.addIntegers] at hadd
    split at hadd
    · cases hadd
    · next p₁ hset => exact ih (h.setInteger_intern hset) hadd

theorem setUpper (h : p.Coherent) {c : Nat} {upper : Float} (hset : p.setUpper c upper = .ok p') :
    p'.Coherent := by
  refine h.edit hset fun column column' hcolumn hok => ?_
  split at hok
  · cases hok
  · next hle =>
    cases hok
    refine ⟨rfl, hcolumn.isName, hcolumn.objective_ne_neg_zero, fun u hu => ?_⟩
    exact Option.some.inj hu ▸ hle

theorem setLower (h : p.Coherent) {c : Nat} {lower : Float} (hset : p.setLower c lower = .ok p') :
    p'.Coherent := by
  refine h.edit hset fun column column' hcolumn hok => ?_
  split at hok
  · next upper hupper =>
    split at hok
    · cases hok
    · next hle =>
      cases hok
      refine ⟨rfl, hcolumn.isName, hcolumn.objective_ne_neg_zero, fun u hu => ?_⟩
      obtain rfl := Option.some.inj (hupper.symm.trans hu)
      exact hle
  · next hupper =>
    cases hok
    refine ⟨rfl, hcolumn.isName, hcolumn.objective_ne_neg_zero, fun u hu => ?_⟩
    exact absurd (hupper.symm.trans hu) nofun

theorem setBound (h : p.Coherent) {c : Nat} {comparison : Comparison} {bound : Float}
    (hset : Draft.setBound p c comparison bound = .ok p') : p'.Coherent := by
  cases comparison with
  | atMost => exact h.setUpper hset
  | atLeast => exact h.setLower hset
  | equal =>
    simp only [Draft.setBound] at hset
    split at hset
    · cases hset
    · next p₁ hlower => exact (h.setLower hlower).setUpper hset

theorem addRow (h : p.Coherent) {row : Row Float} (hrow : row.Coherent)
    (hadd : p.addRow row = .ok p') : p'.Coherent := by
  have hknown := h.known.addRow hadd
  obtain ⟨-, rfl⟩ := addRow_eq_ok hadd
  exact ⟨hknown, h.names_nodup, h.columns,
    List.forall_mem_append.2 ⟨h.rows, List.forall_mem_singleton.2 hrow⟩⟩

end Coherent

end Problem

namespace Listing

/-! ## Coherent drafts -/

/-- The terms of the statement have names. -/
def Statement.Named : Statement Float → Prop
  | .objective _ side => ∀ t ∈ side.terms, IsName t.1.toList
  | .integers _ => True
  | .constraint left _ right =>
    (∀ t ∈ left.terms, IsName t.1.toList) ∧ ∀ t ∈ right.terms, IsName t.1.toList

/-- A statement that is read mentions columns by names. -/
theorem Statement.named_of_read {text : List Char} {statement : Statement Float}
    (h : Statement.read text = .ok statement) : statement.Named := by
  unfold Statement.read at h
  split at h
  · split at h
    · cases h
    · next side hside =>
      cases h
      exact Side.isName_of_read hside
  · split at h
    · cases h
      exact trivial
    · split at h
      · cases h
      · split at h
        · cases h
        · next left hleft =>
          split at h
          · cases h
          · next right hright =>
            cases h
            exact ⟨Side.isName_of_read hleft, Side.isName_of_read hright⟩

namespace Draft

variable {d d' : Draft Float}

theorem withProblem_eq_ok {result : Except (ProblemError Float) (Problem Float)}
    (h : d.withProblem result = .ok d') : ∃ p, result = .ok p ∧ d' = { d with problem := p } := by
  cases result with
  | error e => cases h
  | ok p => exact ⟨p, rfl, (Except.ok.inj h).symm⟩

/-- The problem read so far is coherent, and the remark for the next row can be one. -/
structure Coherent (d : Draft Float) : Prop where
  problem : d.problem.Coherent
  comment : ∀ text ∈ d.comment, IsRemark text.toList

theorem coherent_start : Coherent .start where
  problem := Problem.coherent_empty _ _
  comment text ht := absurd ht (Option.not_mem_none text)

/-- A comparison, which is a bound or a row, keeps the draft coherent. -/
theorem Coherent.addConstraint (h : d.Coherent) {text : List Char} {left right : Side Float}
    {comparison : Comparison} (hnamed : (Statement.constraint left comparison right).Named)
    (hadd : d.addConstraint text left comparison right = .ok d') : d'.Coherent := by
  have hnone : ∀ text ∈ (none : Option String), IsRemark text.toList :=
    fun text ht => absurd ht (Option.not_mem_none text)
  have hright : ∀ t ∈ right.terms.map fun (name, k) => (name, -k), IsName t.1.toList := by
    intro t ht
    obtain ⟨t, hmem, rfl⟩ := List.mem_map.1 ht
    exact hnamed.2 t hmem
  have hinterned := (h.problem.internTerms hnamed.1).internTerms hright
  simp only [Draft.addConstraint] at hadd
  split at hadd
  · split at hadd
    · cases hadd
    · obtain ⟨p, hset, rfl⟩ := withProblem_eq_ok hadd
      exact ⟨hinterned.setBound hset, hnone⟩
  · next hlen =>
    obtain ⟨p, hrow, rfl⟩ := withProblem_eq_ok hadd
    refine ⟨hinterned.addRow ⟨fun hone => ?_, h.comment⟩ hrow, hnone⟩
    obtain ⟨⟨c, k⟩, heq⟩ := List.length_eq_one_iff.1 hone
    exact hlen c k heq

/-- Each part of a listing keeps the draft coherent. -/
theorem Coherent.add (h : d.Coherent) {item : Item}
    (hremark : ∀ text, item = .remark text → IsRemark text) (hadd : d.add item = .ok d') :
    d'.Coherent := by
  cases item with
  | heading group =>
    cases hadd
    exact ⟨h.problem, h.comment⟩
  | remark text =>
    cases hadd
    refine ⟨h.problem, fun comment hcomment => ?_⟩
    rw [← Option.some.inj hcomment, String.toList_ofList]
    exact hremark text rfl
  | statement text =>
    simp only [Draft.add] at hadd
    split at hadd
    · cases hadd
    · next direction side hread =>
      obtain ⟨p, hobjective, rfl⟩ := withProblem_eq_ok hadd
      exact ⟨(h.problem.setDirection direction).addObjective (Statement.named_of_read hread)
        hobjective, h.comment⟩
    · obtain ⟨p, hintegers, rfl⟩ := withProblem_eq_ok hadd
      exact ⟨h.problem.addIntegers hintegers, h.comment⟩
    · next hread => exact h.addConstraint (Statement.named_of_read hread) hadd

/-- The items of a listing keep the draft coherent. -/
theorem Coherent.addAll (h : d.Coherent) {items : List Item} (hremarks : RemarksOf items)
    (hadd : d.addAll items = .ok d') : d'.Coherent := by
  induction items generalizing d with
  | nil =>
    cases hadd
    exact h
  | cons item items ih =>
    simp only [Draft.addAll] at hadd
    split at hadd
    · cases hadd
    · next d₁ hitem =>
      have hfirst := h.add (fun text heq => hremarks text (heq ▸ List.mem_cons_self)) hitem
      exact ih hfirst (fun text ht => hremarks text (List.mem_cons_of_mem _ ht)) hadd

end Draft

/-- What is read from a listing is coherent. -/
theorem coherent_of_parse {text : String} {p : Problem Float} (h : parse text = .ok p) :
    p.Coherent := by
  simp only [parse, read] at h
  split at h
  · cases h
  · next d hadd =>
    split at h
    · cases h
    · split at h
      · cases h
      · cases h
        exact (Draft.coherent_start.addAll (remarksOf_items _) hadd).problem

end Listing

/-! ## Reading again -/

/-- The row with its terms in another order. Right sides are compared as numbers, so zeros of both
signs are the same. -/
structure Row.Reordered (row row' : Row Float) : Prop where
  terms : row'.terms.Perm row.terms
  comparison : row'.comparison = row.comparison
  rhs : row'.rhs == row.rhs
  group : row'.group = row.group
  comment : row'.comment = row.comment

/-- Reading a row back reorders its terms: those on the left come first. -/
theorem Row.Spelled.reordered {row : Row Float} (h : row.Spelled) :
    row.Reordered row.sorted.reread where
  terms := Problem.perm_terms row
  comparison := rfl
  rhs := plain_beq (h.finite _ List.mem_cons_self)
  group := rfl
  comment := rfl

namespace Problem

/-- The names and numbers of the problem can be written: what has been declared is a name, no
statement is taken for a declaration because of the name it starts with, and no number is
infinite. -/
structure Printable (p : Problem Float) : Prop where
  isName : ∀ column ∈ p.columns, column.integer → IsName column.name.toList
  ne_int : ∀ name ∈ p.leads, name.map Char.toLower ≠ "int".toList
  columns_finite : ∀ column ∈ p.columns, ∀ x ∈ column.numbers, x.isFinite
  rows_finite : ∀ row ∈ p.rows, ∀ x ∈ row.numbers, x.isFinite

/-- A coherent problem that can be printed is told apart from declarations when it is read. -/
theorem Coherent.separable {p : Problem Float} (hp : p.Coherent) (h : p.Printable) :
    p.Separable := by
  have hcolumns : ∀ column ∈ p.columns, column.Spelled := by
    intro column hcolumn
    refine ⟨?_, h.columns_finite column hcolumn⟩
    cases hint : column.integer with
    | true => exact h.isName column hcolumn hint
    | false => exact (hp.columns column hcolumn).isName hint
  refine ⟨⟨hp.known, hcolumns, fun row hrow => ⟨h.rows_finite row hrow, fun text ht => ?_⟩⟩,
    hp.names_nodup, fun column hcolumn => ⟨hcolumns column hcolumn,
      (hp.columns column hcolumn).objective_ne_neg_zero, fun upper hupper => ?_⟩, h.ne_int⟩
  · have hremark := (hp.rows row hrow).comment text ht
    refine ⟨hremark.solid, hremark.no_newline, ?_⟩
    have hnone := hremark.no_heading
    rwa [String.ofList_toList] at hnone
  · have hfinite := h.columns_finite column hcolumn
    refine le_of_not_lt (hfinite _ (List.mem_cons_of_mem _ List.mem_cons_self))
      (hfinite _ ?_) ((hp.columns column hcolumn).not_lt upper hupper)
    simp [Column.numbers, Option.mem_def.1 hupper]

/-- What has been read from a listing can be listed and read again, with its terms in the order in
which they are written, exactly if no minus stands behind a plus. -/
theorem parse_listing_of_parse {text : String} {p : Problem Float} (hp : parse text = .ok p)
    (h : p.Printable) (hread : p.ReadsBack) :
    (p.WellSigned → ∃ q, parse p.listing = .ok q ∧ q.direction = p.direction ∧
        q.columns == p.columns ∧ List.Forall₂ Row.Reordered p.rows q.rows) ∧
      (¬ p.WellSigned → (parse p.listing : Except (ListingError Float) (Problem Float)) =
        .error (.badTerm "")) := by
  have hcoherent := coherent_of_parse hp
  have hseparable := hcoherent.separable h
  have hlen : ∀ row ∈ p.rows, row.terms.length ≠ 1 :=
    fun row hrow => (hcoherent.rows row hrow).length_ne_one
  refine ⟨fun hs => ?_, parse_listing_eq_error hseparable hread hlen⟩
  refine ⟨_, parse_listing_sorted hseparable hread hlen hs, rfl, ?_, ?_⟩
  · exact beq_map fun column hcolumn => (hseparable.columns column hcolumn).reread_beq
  · rw [reread, sorted, List.map_map, List.forall₂_map_right_iff, List.forall₂_same]
    exact fun row hrow => (hseparable.rows row hrow).reordered

end Problem

namespace Sample

/-- A sum whose second term has a minus. -/
def difference : Problem Float where
  name := "parsed"
  direction := .maximise
  columns := [⟨"x", 0, none, false, 1⟩, ⟨"y", 0, none, false, -1⟩]
  rows := []

def mixtureText : String :=
  "min: -int;\n//Flow constraints\n-a-1 + b >= b + 1;\nint b;"

/-- A listing with a minus at the start of its objective, with a column on both sides of a
comparison, and with a name like that of a declaration, which starts no statement. -/
def mixture : Problem Float where
  name := "parsed"
  direction := .minimise
  columns := [⟨"int", 0, none, false, -1⟩, ⟨"a-1", 0, none, false, 0⟩, ⟨"b", 0, none, true, 0⟩]
  rows := [⟨[(2, -1), (3, 1), (3, -1)], .atLeast, 1, .flow, none⟩]

theorem parse_difference : parse "max: x - y;" = .ok difference := by
  rfl

theorem parse_mixtureText : parse mixtureText = .ok mixture := by
  rfl

theorem printable_difference : difference.Printable where
  isName := by simp [difference]
  ne_int := by decide +kernel
  columns_finite := by decide +kernel
  rows_finite := by decide

theorem printable_mixture : mixture.Printable where
  isName := by
    refine List.forall_mem_cons.2 ⟨nofun, List.forall_mem_cons.2 ⟨nofun,
      List.forall_mem_singleton.2 fun _ => ?_⟩⟩
    exact .mk rfl .nil
  ne_int := by decide +kernel
  columns_finite := by decide +kernel
  rows_finite := by decide +kernel

theorem readsBack_difference : difference.ReadsBack := by
  constructor <;> decide +kernel

theorem readsBack_mixture : mixture.ReadsBack := by
  constructor <;> decide +kernel

/-- The objective of the difference has a minus behind a plus. -/
theorem not_wellSigned_difference : ¬ difference.WellSigned := fun h =>
  absurd (h.objective _ (List.mem_singleton_self _)) (by decide +kernel)

theorem wellSigned_mixture : mixture.WellSigned where
  objective := by decide +kernel
  rows := List.forall_mem_singleton.2 ⟨by decide +kernel, .inl (by decide +kernel)⟩

end Sample

open Sample in
/-- The difference of two columns is read but not read back. The mixture, which has a minus only
at the start of a sum, is read back. -/
theorem Problem.parse_listing_of_parse_mixture :
    (parse "max: x - y;" = .ok difference ∧ ¬ difference.WellSigned ∧
      (parse difference.listing : Except (ListingError Float) (Problem Float)) =
        .error (.badTerm "")) ∧
    parse mixtureText = .ok mixture ∧ mixture.WellSigned ∧ ∃ q, parse mixture.listing = .ok q ∧
      q.direction = mixture.direction ∧ q.columns == mixture.columns ∧
      List.Forall₂ Row.Reordered mixture.rows q.rows :=
  ⟨⟨parse_difference, not_wellSigned_difference, (parse_listing_of_parse parse_difference
      printable_difference readsBack_difference).2 not_wellSigned_difference⟩,
    parse_mixtureText, wellSigned_mixture, (parse_listing_of_parse parse_mixtureText
      printable_mixture readsBack_mixture).1 wellSigned_mixture⟩

end WorstCase
