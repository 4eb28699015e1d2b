import WorstCase.Proofs.Linear.InPlace
import WorstCase.Proofs.Listing.Mentions

/-!
# What reading leaves is well formed

A statement can name new columns wherever a name may stand. They are noted in the order in which the
names are written, each where it first occurs (`Draft.names_addAll`). What becomes of the remark
lines is told by `Listing.origins`, which goes through the parts of a listing with the numbers of
their lines and says for each row in which line its statement ends and from which line it has its
comment. These are the rows and comments that reading makes (`Draft.makes_addAll`). A comparison
uses up the last remark, also if it is a bound and makes no row, so between two rows with comments
there is the line of the second one (`Listing.apart_origins`).
-/

namespace WorstCase

/-! ## Names of columns -/

/-- The names with another one, if it is new. -/
def note (names : List String) (name : String) : List String :=
  if name ∈ names then names else names ++ [name]

theorem prefix_foldl_note (names words : List String) : names <+: words.foldl note names := by
  induction words generalizing names with
  | nil => exact List.prefix_refl names
  | cons word words ih =>
    refine List.IsPrefix.trans ?_ (ih (note names word))
    unfold note
    split
    · exact List.prefix_refl names
    · exact List.prefix_append names [word]

/-- Names that are noted in order stand where they first occur. -/
theorem foldl_note_nil (words : List String) : words.foldl note [] = words.eraseDups := by
  induction words using List.reverseRecOn with
  | nil => rfl
  | append_singleton words word ih =>
    rw [List.foldl_append, ih, List.eraseDups_append]
    by_cases h : word ∈ words
    · simp [note, h, List.removeAll]
    · simp [note, h, List.removeAll, List.eraseDups_cons]

theorem valueAt?_of_isPrefix {names names' : List String} (h : names <+: names') {c : Nat}
    {name : String} (hc : valueAt? names c = some name) : valueAt? names' c = some name := by
  obtain ⟨more, rfl⟩ := h
  unfold valueAt? at hc ⊢
  split at hc
  · cases hc
  · next hne =>
    rw [if_neg hne, List.getElem?_append_left (List.getElem?_eq_some_iff.1 hc).1]
    exact hc

/-- The terms are over the columns with these names. -/
def TermsOver {α : Type} (names words : List String) (terms : List (Nat × α)) : Prop :=
  terms.map (fun t => valueAt? names t.1) = words.map some

theorem TermsOver.of_isPrefix {α : Type} {names names' words : List String} {terms : List (Nat × α)}
    (h : TermsOver names words terms) (hstarts : names <+: names') :
    TermsOver names' words terms := by
  unfold TermsOver at h ⊢
  induction terms generalizing words with
  | nil => exact h
  | cons t terms ih =>
    cases words with
    | nil => cases h
    | cons word words =>
      simp only [List.map_cons, List.cons.injEq] at h ⊢
      exact ⟨valueAt?_of_isPrefix hstarts h.1, ih h.2⟩

namespace Problem

variable {α : Type} [Scalar α]

/-- Looking a name up notes it and gives its column. -/
theorem intern_spec (p : Problem α) (name : String) :
    (p.intern name).1.names = note p.names name ∧ (p.intern name).1.rows = p.rows ∧
      valueAt? (p.intern name).1.names (p.intern name).2 = some name := by
  by_cases hmem : name ∈ p.names
  · obtain ⟨column, hcolumn, rfl⟩ := List.mem_map.1 hmem
    obtain ⟨i, hi⟩ : ∃ i, p.columns.findIdx? (·.name == column.name) = some i := by
      refine Option.isSome_iff_exists.1 (List.findIdx?_isSome.trans ?_)
      exact List.any_eq_true.2 ⟨column, hcolumn, beq_self_eq_true _⟩
    obtain ⟨hlt, hname, -⟩ := List.findIdx?_eq_some_iff_getElem.1 hi
    have hintern : p.intern column.name = (p, i + 1) := by
      rw [intern, columnNamed?, hi]
      rfl
    rw [hintern, note, if_pos hmem]
    refine ⟨rfl, rfl, ?_⟩
    rw [valueAt?, if_neg (Nat.succ_ne_zero _), Nat.add_sub_cancel, names, List.getElem?_map,
      List.getElem?_eq_getElem hlt]
    exact congrArg some (beq_iff_eq.1 hname)
  · rw [intern_of_not_mem hmem, note, if_neg hmem]
    have hnames : (p.addColumn name false).names = p.names ++ [name] := List.map_append
    refine ⟨hnames, rfl, ?_⟩
    rw [hnames, valueAt?, if_neg (Nat.succ_ne_zero _), Nat.add_sub_cancel]
    have hlen : p.columns.length = p.names.length := (List.length_map _).symm
    rw [hlen, List.getElem?_concat_length]

/-- Terms become terms over the numbers of the columns that they name. -/
theorem internTerms_spec (p : Problem α) (terms : List (String × α)) :
    (p.internTerms terms).1.names = (terms.map Prod.fst).foldl note p.names ∧
      (p.internTerms terms).1.rows = p.rows ∧
      TermsOver (p.internTerms terms).1.names (terms.map Prod.fst) (p.internTerms terms).2 := by
  induction terms generalizing p with
  | nil => exact ⟨rfl, rfl, rfl⟩
  | cons t terms ih =>
    obtain ⟨hnames, hrows, hnumber⟩ := p.intern_spec t.1
    obtain ⟨hnames', hrows', hnumbers⟩ := ih (p.intern t.1).1
    refine ⟨?_, hrows'.trans hrows, ?_⟩
    · rw [List.map_cons, List.foldl_cons, ← hnames]
      exact hnames'
    · have hstarts : (p.intern t.1).1.names <+: ((p.intern t.1).1.internTerms terms).1.names :=
        hnames' ▸ prefix_foldl_note _ _
      exact List.cons_eq_cons.2 ⟨valueAt?_of_isPrefix hstarts hnumber, hnumbers⟩

/-- The terms of both sides of a comparison, one side after the other. -/
theorem internSides_spec (p : Problem α) (left right : List (String × α)) :
    ((p.internTerms left).1.internTerms right).1.names =
        (left.map Prod.fst ++ right.map Prod.fst).foldl note p.names ∧
      ((p.internTerms left).1.internTerms right).1.rows = p.rows ∧
      TermsOver ((p.internTerms left).1.internTerms right).1.names
        (left.map Prod.fst ++ right.map Prod.fst)
        ((p.internTerms left).2 ++ ((p.internTerms left).1.internTerms right).2) := by
  obtain ⟨hnames, hrows, hleft⟩ := p.internTerms_spec left
  obtain ⟨hnames', hrows', hright⟩ := (p.internTerms left).1.internTerms_spec right
  -- the columns of the left side keep their numbers
  have hstarts :
      (p.internTerms left).1.names <+: ((p.internTerms left).1.internTerms right).1.names :=
    hnames' ▸ prefix_foldl_note _ _
  refine ⟨?_, hrows'.trans hrows, ?_⟩
  · rw [hnames', hnames, List.foldl_append]
  · rw [TermsOver, List.map_append, List.map_append, hright, hleft.of_isPrefix hstarts]

omit [Scalar α] in
theorem rows_edit {p p' : Problem α} {c : Nat} {f : Column α → Except (ProblemError α) (Column α)}
    (h : p.edit c f = .ok p') : p'.rows = p.rows := by
  obtain ⟨_, _, -, -, rfl⟩ := edit_eq_ok h
  rfl

end Problem

namespace Listing.Draft

open Problem

section Problem

variable {α : Type} [Scalar α] {p p' : Problem α}

/-- An objective notes its names in their order and adds no row. -/
theorem addObjective_spec {terms : List (String × α)} (h : addObjective p terms = .ok p') :
    p'.names = (terms.map Prod.fst).foldl note p.names ∧ p'.rows = p.rows := by
  induction terms generalizing p with
  | nil =>
    cases h
    exact ⟨rfl, rfl⟩
  | cons t terms ih =>
    simp only [addObjective] at h
    split at h
    · cases h
    · next p₁ hedit =>
      obtain ⟨hnames, hrows, -⟩ := p.intern_spec t.1
      obtain ⟨hnames', hrows'⟩ := ih h
      have hedited : p₁.names = (p.intern t.1).1.names :=
        names_edit hedit fun column column' hf => by
          rw [← Except.ok.inj hf]
      rw [hnames', hrows', hedited, hnames, rows_edit hedit]
      exact ⟨rfl, hrows⟩

/-- A declaration notes its names in their order and adds no row. -/
theorem addIntegers_spec {names : List String} (h : addIntegers p names = .ok p') :
    p'.names = names.foldl note p.names ∧ p'.rows = p.rows := by
  induction names generalizing p with
  | nil =>
    cases h
    exact ⟨rfl, rfl⟩
  | cons name names ih =>
    simp only [addIntegers] at h
    split at h
    · cases h
    · next p₁ hset =>
      obtain ⟨hnames, hrows, -⟩ := p.intern_spec name
      obtain ⟨hnames', hrows'⟩ := ih h
      have hedited : p₁.names = (p.intern name).1.names :=
        names_edit hset fun column column' hf => by
        rw [← Except.ok.inj hf]
      rw [hnames', hrows', hedited, hnames, rows_edit hset]
      exact ⟨rfl, hrows⟩

theorem setBound_spec {c : Nat} {comparison : Comparison} {bound : α}
    (h : setBound p c comparison bound = .ok p') : p'.names = p.names ∧ p'.rows = p.rows := by
  have hupper : ∀ {p p' : Problem α}, p.setUpper c bound = .ok p' →
      p'.names = p.names ∧ p'.rows = p.rows := fun h =>
    ⟨(names_change (c := .setUpper c bound) h).trans (List.append_nil _), rows_edit h⟩
  have hlower : ∀ {p p' : Problem α}, p.setLower c bound = .ok p' →
      p'.names = p.names ∧ p'.rows = p.rows := fun h =>
    ⟨(names_change (c := .setLower c bound) h).trans (List.append_nil _), rows_edit h⟩
  cases comparison with
  | atMost => exact hupper h
  | atLeast => exact hlower h
  | equal =>
    simp only [setBound] at h
    split at h
    · cases h
    · next p₁ hfirst =>
      rw [(hupper h).1, (hupper h).2]
      exact hlower hfirst

end Problem

variable {d d' : Draft Float}

/-- A comparison uses up the remark. With one term it is a bound and makes no row, else it makes a
row over the columns that it names. -/
theorem addConstraint_spec {text : List Char} {left right : Side Float} {comparison : Comparison}
    (h : d.addConstraint text left comparison right = .ok d') :
    d'.problem.names = (left.names ++ right.names).foldl note d.problem.names ∧ d'.comment = none ∧
      ((left.names ++ right.names).length = 1 ∧ d'.problem.rows = d.problem.rows ∨
        (left.names ++ right.names).length ≠ 1 ∧ ∃ row, d'.problem.rows = d.problem.rows ++ [row] ∧
          row.comment = d.comment ∧
          TermsOver d'.problem.names (left.names ++ right.names) row.terms) := by
  obtain ⟨hall, hrows, hterms⟩ := d.problem.internSides_spec left.terms
    (right.terms.map fun (name, k) => (name, -k))
  have hnegated : (right.terms.map fun (name, k) => (name, -k)).map Prod.fst = right.names :=
    List.map_map
  rw [hnegated] at hall hterms
  simp only [addConstraint] at h
  generalize hp : (d.problem.internTerms left.terms).1.internTerms
    (right.terms.map fun (name, k) => (name, -k)) = interned at h hall hrows hterms
  have hlength := congrArg List.length hterms
  rw [List.length_map, List.length_map] at hlength
  have hnames : left.names ++ right.names = left.terms.map Prod.fst ++ right.names := rfl
  rw [hnames, ← hlength]
  split at h
  · next c coefficient heq =>
    split at h
    · cases h
    · obtain ⟨p, hset, rfl⟩ := withProblem_eq_ok h
      obtain ⟨hbound, hbound'⟩ := setBound_spec hset
      exact ⟨hbound.trans hall, rfl, .inl ⟨by rw [heq]; rfl, hbound'.trans hrows⟩⟩
  · next hne =>
    obtain ⟨p, hrow, rfl⟩ := withProblem_eq_ok h
    obtain ⟨-, rfl⟩ := addRow_eq_ok hrow
    refine ⟨hall, rfl, .inr ⟨fun hone => ?_,
      ⟨_, comparison, right.constant - left.constant, d.group, d.comment⟩,
      congrArg (· ++ [_]) hrows, rfl, hterms⟩⟩
    obtain ⟨⟨c, k⟩, heq⟩ := List.length_eq_one_iff.1 hone
    exact hne c k heq

end Listing.Draft

namespace Listing

open Text

/-! ## Parts -/

/-- The names in a part of a listing. -/
def Item.names : Item → List String
  | .statement text =>
    match (Statement.read text : Except (ListingError Float) (Statement Float)) with
    | .ok s => s.names
    | .error _ => []
  | .heading _ | .remark _ => []

/-- The names in a comparison. -/
def Item.comparison? : Item → Option (List String)
  | .statement text =>
    match (Statement.read text : Except (ListingError Float) (Statement Float)) with
    | .ok (.constraint left _ right) => some (left.names ++ right.names)
    | _ => none
  | .heading _ | .remark _ => none

/-- The text of a remark. -/
def Item.remark? : Item → Option String
  | .remark text => some (String.ofList text)
  | .heading _ | .statement _ => none

namespace Draft

variable {d d' : Draft Float}

/-- What a part does: it notes its names, and if it is a comparison, it makes a bound or a row and
uses up the remark. -/
theorem add_spec {item : Item} (h : d.add item = .ok d') :
    d'.problem.names = item.names.foldl note d.problem.names ∧
      (item.comparison? = none ∧ d'.problem.rows = d.problem.rows ∧
          d'.comment = item.remark?.or d.comment ∨
        ∃ names, item.comparison? = some names ∧ d'.comment = none ∧
          (names.length = 1 ∧ d'.problem.rows = d.problem.rows ∨
            names.length ≠ 1 ∧ ∃ row, d'.problem.rows = d.problem.rows ++ [row] ∧
              row.comment = d.comment ∧ TermsOver d'.problem.names names row.terms)) := by
  cases item with
  | heading group =>
    cases h
    exact ⟨rfl, .inl ⟨rfl, rfl, rfl⟩⟩
  | remark text =>
    cases h
    exact ⟨rfl, .inl ⟨rfl, rfl, rfl⟩⟩
  | statement text =>
    simp only [Draft.add] at h
    simp only [Item.names, Item.comparison?, Item.remark?, Option.none_or]
    split at h
    · cases h
    · next direction side hread =>
      obtain ⟨p, hadd, rfl⟩ := withProblem_eq_ok h
      obtain ⟨hnames, hrows⟩ := addObjective_spec hadd
      rw [hread]
      exact ⟨hnames, .inl ⟨rfl, hrows, rfl⟩⟩
    · next names hread =>
      obtain ⟨p, hadd, rfl⟩ := withProblem_eq_ok h
      obtain ⟨hnames, hrows⟩ := addIntegers_spec hadd
      rw [hread]
      exact ⟨hnames, .inl ⟨rfl, hrows, rfl⟩⟩
    · next left comparison right hread =>
      obtain ⟨hnames, hcomment, hrows⟩ := addConstraint_spec h
      rw [hread]
      exact ⟨hnames, .inr ⟨_, rfl, hcomment, hrows⟩⟩

theorem addAll_cons {item : Item} {items : List Item} (h : d.addAll (item :: items) = .ok d') :
    ∃ d₁, d.add item = .ok d₁ ∧ d₁.addAll items = .ok d' := by
  simp only [addAll] at h
  split at h
  · cases h
  · next d₁ hadd => exact ⟨d₁, hadd, h⟩

/-- The columns are the names in the items, in the order in which they first occur. -/
theorem names_addAll {items : List Item} (h : d.addAll items = .ok d') :
    d'.problem.names = (items.flatMap Item.names).foldl note d.problem.names := by
  induction items generalizing d with
  | nil =>
    cases h
    rfl
  | cons item items ih =>
    obtain ⟨d₁, hadd, h⟩ := addAll_cons h
    rw [ih h, (add_spec hadd).1, List.flatMap_cons, List.foldl_append]

end Draft

/-! ## Rows and remarks -/

/-- Where a row comes from: the line in which its statement ends, the line of its remark, and the
names in its statement. -/
structure Origin where
  line : Nat
  remark : Option Nat
  names : List String

/-- The origins of the rows, given the parts of a listing with their lines and the line of the last
remark. -/
def origins : Option Nat → List (Nat × Item) → List Origin
  | _, [] => []
  | remark, (line, item) :: rest =>
    match item.comparison? with
    | none => origins (if item.remark?.isSome then some line else remark) rest
    | some names =>
      if names.length = 1 then origins none rest else ⟨line, remark, names⟩ :: origins none rest

/-- The row is over the columns that its statement names, and its comment is the remark of that
line. -/
structure Origin.Makes (names : List String) (remarkAt : Nat → Option String) (origin : Origin)
    (row : Row Float) : Prop where
  terms : TermsOver names origin.names row.terms
  comment : row.comment = origin.remark.bind remarkAt

/-- The rows that the parts of a listing add have the origins told from their lines. -/
theorem Draft.makes_addAll {d d' : Draft Float} {placed : List (Nat × Item)} {remark : Option Nat}
    {remarkAt : Nat → Option String}
    (hplaced : ∀ part ∈ placed, ∀ text ∈ part.2.remark?, remarkAt part.1 = some text)
    (hcomment : d.comment = remark.bind remarkAt) (h : d.addAll (placed.map Prod.snd) = .ok d') :
    ∃ rows, d'.problem.rows = d.problem.rows ++ rows ∧
      List.Forall₂ (Origin.Makes d'.problem.names remarkAt) (origins remark placed) rows := by
  induction placed generalizing d remark with
  | nil =>
    cases h
    exact ⟨[], (List.append_nil _).symm, .nil⟩
  | cons part placed ih =>
    obtain ⟨line, item⟩ := part
    rw [List.forall_mem_cons] at hplaced
    obtain ⟨d₁, hadd, h⟩ := addAll_cons h
    rcases (add_spec hadd).2 with ⟨hnone, hrows, hnext⟩ | ⟨names, hsome, hnext, hcase⟩
    · rw [origins, hnone, ← hrows]
      refine ih hplaced.2 ?_ h
      rw [hnext]
      cases hremark : item.remark? with
      | none => exact hcomment
      | some text => exact (hplaced.1 text hremark).symm
    · have hused : d₁.comment = (none : Option Nat).bind remarkAt := hnext
      obtain ⟨rows, hlater, hmakes⟩ := ih hplaced.2 hused h
      simp only [origins, hsome]
      rcases hcase with ⟨hone, hrows⟩ | ⟨hne, row, hrows, hrow, hterms⟩
      · rw [if_pos hone, ← hrows]
        exact ⟨rows, hlater, hmakes⟩
      · rw [if_neg hne]
        refine ⟨row :: rows, ?_, .cons ⟨?_, hrow.trans hcomment⟩ hmakes⟩
        · rw [hlater, hrows, List.append_assoc]
          rfl
        · exact hterms.of_isPrefix (names_addAll h ▸ prefix_foldl_note _ _)

/-! ## Lines -/

/-- The parts of a listing with the numbers of the lines in which they end. -/
def placeLines (n : Nat) (pending : List Char) : List (List Char) → List (Nat × Item)
  | [] => []
  | line :: rest =>
    let line := trim line
    match after? ['/', '/'] line with
    | some remark => (n, .ofRemark (trim remark)) :: placeLines (n + 1) pending rest
    | none =>
      let (items, pending) := cut ((pending ++ ' ' :: line).splitOnP (· == ';'))
      items.map (n, ·) ++ placeLines (n + 1) pending rest

/-- The remark that a line makes, if it is none of the headings. -/
def remarkIn? (line : List Char) : Option String :=
  (after? ['/', '/'] (trim line)).bind fun cs => (Item.ofRemark (trim cs)).remark?

/-- The remark in the line with this number, counted from 0. -/
def remarkAt? (lines : List (List Char)) (n : Nat) : Option String :=
  lines[n]?.bind remarkIn?

theorem map_snd_placeLines (n : Nat) (pending : List Char) (lines : List (List Char)) :
    (placeLines n pending lines).map Prod.snd = (itemsOfLines pending lines).1 := by
  induction lines generalizing n pending with
  | nil => rfl
  | cons line rest ih =>
    cases hafter : after? ['/', '/'] (trim line) with
    | some remark => simp only [placeLines, itemsOfLines, hafter, List.map_cons, ih]
    | none =>
      simp only [placeLines, itemsOfLines, hafter, List.map_append, ih, List.map_map]
      exact congrArg (· ++ _) (List.map_id _)

theorem remark?_of_mem_cut {pieces : List (List Char)} {item : Item} (h : item ∈ (cut pieces).1) :
    item.remark? = none := by
  fun_induction cut pieces with
  | case1 | case2 => cases h
  | case3 piece rest _ items tail heq text ih =>
    rw [heq] at ih
    dsimp only at h
    split at h
    · exact ih h
    · rcases List.mem_cons.1 h with rfl | h
      · rfl
      · exact ih h

/-- A remark among the parts is that of its line. -/
theorem remarkAt?_of_mem {n : Nat} {pending : List Char} {lines : List (List Char)}
    {part : Nat × Item} (h : part ∈ placeLines n pending lines) {text : String}
    (ht : text ∈ part.2.remark?) : ∃ k, part.1 = n + k ∧ remarkAt? lines k = some text := by
  induction lines generalizing n pending with
  | nil => cases h
  | cons line rest ih =>
    have hlater : ∀ pending, part ∈ placeLines (n + 1) pending rest →
        ∃ k, part.1 = n + k ∧ remarkAt? (line :: rest) k = some text := by
      intro pending h
      obtain ⟨k, hk, hremark⟩ := ih h
      exact ⟨k + 1, by omega, hremark⟩
    simp only [placeLines] at h
    split at h
    · next remark hafter =>
      rcases List.mem_cons.1 h with rfl | h
      · exact ⟨0, rfl, by simpa [remarkAt?, remarkIn?, hafter] using ht⟩
      · exact hlater _ h
    · rcases List.mem_append.1 h with h | h
      · obtain ⟨item, hitem, rfl⟩ := List.mem_map.1 h
        rw [remark?_of_mem_cut hitem] at ht
        cases ht
      · exact hlater _ h

/-- One part before another. Only statements can end in the same line. -/
structure Precedes (part part' : Nat × Item) : Prop where
  le : part.1 ≤ part'.1
  lt : part.2.remark?.isSome ∨ part'.2.remark?.isSome → part.1 < part'.1

/-- No item stands before the lines it is read from. -/
theorem le_of_mem_placeLines {n : Nat} {pending : List Char} {lines : List (List Char)}
    {part : Nat × Item} (h : part ∈ placeLines n pending lines) : n ≤ part.1 := by
  induction lines generalizing n pending with
  | nil => cases h
  | cons line rest ih =>
    simp only [placeLines] at h
    split at h
    · rcases List.mem_cons.1 h with rfl | h
      · exact Nat.le_refl n
      · exact Nat.le_of_succ_le (ih h)
    · rcases List.mem_append.1 h with h | h
      · obtain ⟨item, -, rfl⟩ := List.mem_map.1 h
        exact Nat.le_refl n
      · exact Nat.le_of_succ_le (ih h)

/-- Items stand in the order of their lines. -/
theorem pairwise_placeLines (n : Nat) (pending : List Char) (lines : List (List Char)) :
    (placeLines n pending lines).Pairwise Precedes := by
  induction lines generalizing n pending with
  | nil => exact .nil
  | cons line rest ih =>
    have hlater : ∀ item pending, ∀ part ∈ placeLines (n + 1) pending rest,
        Precedes (n, item) part := by
      intro item pending part hpart
      have hlt : n < part.1 := le_of_mem_placeLines hpart
      exact ⟨Nat.le_of_lt hlt, fun _ => hlt⟩
    simp only [placeLines]
    split
    · exact .cons (hlater _ _) (ih _ _)
    · refine List.pairwise_append.2 ⟨?_, ih _ _, ?_⟩
      · refine List.pairwise_map.2
          (List.pairwise_of_forall_mem_list fun item hitem item' hitem' => ?_)
        refine ⟨Nat.le_refl n, fun hremark => ?_⟩
        rw [remark?_of_mem_cut hitem, remark?_of_mem_cut hitem'] at hremark
        exact absurd hremark (by decide)
      · intro part hpart part' hpart'
        obtain ⟨item, -, rfl⟩ := List.mem_map.1 hpart
        exact hlater item _ part' hpart'

/-- The remark of a row is the last one before, or in a line of one of the parts. -/
theorem exists_of_mem_origins {remark : Option Nat} {placed : List (Nat × Item)} {origin : Origin}
    (h : origin ∈ origins remark placed) : (∃ item, (origin.line, item) ∈ placed) ∧
      ∀ m ∈ origin.remark, m ∈ remark ∨ ∃ item, (m, item) ∈ placed ∧ item.remark?.isSome := by
  induction placed generalizing remark with
  | nil => cases h
  | cons part placed ih =>
    obtain ⟨line, item⟩ := part
    have hlater : origin ∈ origins none placed →
        (∃ item', (origin.line, item') ∈ (line, item) :: placed) ∧
        ∀ m ∈ origin.remark, m ∈ remark ∨
          ∃ item', (m, item') ∈ (line, item) :: placed ∧ item'.remark?.isSome := by
      intro h
      obtain ⟨⟨item', hline⟩, hremark⟩ := ih h
      refine ⟨⟨item', List.mem_cons_of_mem _ hline⟩, fun m hm => ?_⟩
      obtain ⟨item', hmem, hsome⟩ := (hremark m hm).resolve_left (Option.not_mem_none m)
      exact .inr ⟨item', List.mem_cons_of_mem _ hmem, hsome⟩
    rw [origins] at h
    split at h
    · obtain ⟨⟨item', hline⟩, hremark⟩ := ih h
      refine ⟨⟨item', List.mem_cons_of_mem _ hline⟩, fun m hm => ?_⟩
      rcases hremark m hm with hm | ⟨item', hmem, hsome⟩
      · split at hm
        · next hsome => exact .inr ⟨item, Option.some.inj hm ▸ List.mem_cons_self, hsome⟩
        · exact .inl hm
      · exact .inr ⟨item', List.mem_cons_of_mem _ hmem, hsome⟩
    · split at h
      · exact hlater h
      · rcases List.mem_cons.1 h with rfl | h
        · exact ⟨⟨item, List.mem_cons_self⟩, fun m hm => .inl hm⟩
        · exact hlater h

/-- Each remark stands before the end of the statement whose row has it, and after the ends of all
the statements whose rows come before. -/
theorem apart_origins {remark : Option Nat} {placed : List (Nat × Item)}
    (hplaced : placed.Pairwise Precedes) (hremark : ∀ m ∈ remark, ∀ part ∈ placed, m < part.1) :
    (∀ origin ∈ origins remark placed, ∀ m ∈ origin.remark, m < origin.line) ∧
      (origins remark placed).Pairwise fun origin origin' =>
        ∀ m ∈ origin'.remark, origin.line < m := by
  induction placed generalizing remark with
  | nil => exact ⟨fun origin h => absurd h List.not_mem_nil, .nil⟩
  | cons part placed ih =>
    obtain ⟨line, item⟩ := part
    obtain ⟨hfirst, hplaced⟩ := List.pairwise_cons.1 hplaced
    have hnone : ∀ m ∈ (none : Option Nat), ∀ part ∈ placed, m < part.1 := fun m hm =>
      absurd hm (Option.not_mem_none m)
    rw [origins]
    split
    -- what waits as a remark stands before all the parts that follow, a new one as well as an old
    -- one
    · refine ih hplaced fun m hm part hpart => ?_
      split at hm
      · next hsome => exact Option.some.inj hm ▸ (hfirst part hpart).lt (.inl hsome)
      · exact hremark m hm part (List.mem_cons_of_mem _ hpart)
    · split
      · exact ih hplaced hnone
      · obtain ⟨hlater, hpairwise⟩ := ih hplaced hnone
        refine ⟨List.forall_mem_cons.2 ⟨fun m hm => ?_, hlater⟩,
          .cons (fun origin horigin m hm => ?_) hpairwise⟩
        · exact hremark m hm (line, item) List.mem_cons_self
        -- the remark has been used up, so that of a later row comes from a line that follows
        · obtain ⟨item', hmem, hsome⟩ := ((exists_of_mem_origins horigin).2 m hm).resolve_left
            (Option.not_mem_none m)
          exact (hfirst _ hmem).lt (.inr hsome)

/-! ## Listings -/

/-- The lines of a listing. -/
def linesOf (text : String) : List (List Char) :=
  text.toList.splitOnP (· == '\n')

/-- The names in the statements of a listing, as often as they occur. -/
def mentions (text : String) : List String :=
  (items text.toList).1.flatMap Item.names

/-- The origins of the rows of a listing. -/
def originsOf (text : String) : List Origin :=
  origins none (placeLines 0 [] (linesOf text))

theorem flatMap_names (items : List Item) : items.flatMap Item.names =
    (items.filterMap Item.text?).flatMap fun text => (Item.statement text).names := by
  induction items with
  | nil => rfl
  | cons item items ih =>
    rw [List.flatMap_cons, ih]
    cases item with
    | heading group => rfl
    | remark text => rfl
    | statement text => rfl

theorem inOrder_mentions (text : String) :
    InOrder ((mentions text).map String.toList) (spoken (linesOf text)) := by
  rw [mentions, flatMap_names, List.map_flatMap]
  refine (inOrder_itemsOfLines [] (linesOf text)).flatMap fun text _ => ?_
  simp only [Item.names]
  split
  · next statement hread => exact Statement.inOrder_of_read hread
  · exact .nil

/-- A problem as reading the listing leaves it. -/
structure WellFormed (text : String) (p : Problem Float) : Prop where
  names_nodup : p.names.Nodup
  /-- Columns are numbered in the order in which their names first occur in the statements. -/
  names_eq : p.names = (mentions text).eraseDups
  mentions_inOrder : InOrder ((mentions text).map String.toList) (spoken (linesOf text))
  known : p.Known
  length_ne_one : ∀ row ∈ p.rows, row.terms.length ≠ 1
  not_lt : ∀ column ∈ p.columns, ∀ upper ∈ column.upper, ¬ upper < column.lower
  /-- Each row has the columns that its statement names, and its comment is a remark line. -/
  rows : List.Forall₂ (Origin.Makes p.names (remarkAt? (linesOf text))) (originsOf text) p.rows
  /-- That line is there, and the statement of the row ends after it. -/
  remark_lt : ∀ origin ∈ originsOf text, ∀ m ∈ origin.remark,
    (remarkAt? (linesOf text) m).isSome ∧ m < origin.line
  /-- No line makes the comments of two rows or that of an earlier row. -/
  apart : (originsOf text).Pairwise fun origin origin' =>
    ∀ m ∈ origin'.remark, m ∉ origin.remark ∧ origin.line < m

/-- What is read from a listing is well formed. -/
theorem wellFormed_of_parse {text : String} {p : Problem Float} (h : parse text = .ok p) :
    WellFormed text p := by
  have hcoherent := coherent_of_parse h
  have hitems := map_snd_placeLines 0 [] (linesOf text)
  have hremark : ∀ part ∈ placeLines 0 [] (linesOf text), ∀ remark ∈ part.2.remark?,
      remarkAt? (linesOf text) part.1 = some remark := by
    intro part hpart remark hremark
    obtain ⟨k, hk, hat⟩ := remarkAt?_of_mem hpart hremark
    rwa [hk, Nat.zero_add]
  obtain ⟨hbefore, hapart⟩ := apart_origins (pairwise_placeLines 0 [] (linesOf text))
    fun m hm => absurd hm (Option.not_mem_none m)
  obtain ⟨d, hadd, rfl⟩ :
      ∃ d, Draft.start.addAll (items text.toList).1 = .ok d ∧ d.problem = p := by
    simp only [parse, read] at h
    split at h
    · cases h
    · next d hadd =>
      split at h
      · cases h
      · split at h
        · cases h
        · exact ⟨d, hadd, Except.ok.inj h⟩
  have hnames := Draft.names_addAll hadd
  rw [items, ← linesOf, ← hitems] at hadd
  have hstart : (Draft.start : Draft Float).comment =
      (none : Option Nat).bind (remarkAt? (linesOf text)) := rfl
  obtain ⟨rows, hrows, hmakes⟩ := Draft.makes_addAll hremark hstart hadd
  refine ⟨hcoherent.names_nodup, hnames.trans (foldl_note_nil _), inOrder_mentions text,
    hcoherent.known, fun row hrow => (hcoherent.rows row hrow).length_ne_one,
    fun column hcolumn => (hcoherent.columns column hcolumn).not_lt, ?_, ?_, ?_⟩
  · rw [hrows]
    exact hmakes
  · intro origin horigin m hm
    refine ⟨?_, hbefore origin horigin m hm⟩
    obtain ⟨item, hmem, hsome⟩ := ((exists_of_mem_origins horigin).2 m hm).resolve_left
      (Option.not_mem_none m)
    obtain ⟨remark, hr⟩ := Option.isSome_iff_exists.1 hsome
    rw [hremark _ hmem remark hr]
    rfl
  · refine hapart.imp_of_mem fun {origin origin'} horigin _ hlt m hm => ⟨fun hm' => ?_, hlt m hm⟩
    exact Nat.lt_asymm (hlt m hm) (hbefore origin horigin m hm')

end Listing

namespace Sample

/-- A listing in which a remark stands inside a statement, a bound uses up a remark, a name is
declared before its column is used, and two rows end in one line. -/
def remarkedText : String :=
  "max: 2 y + x; int z;\n//first\nx + y\n//second\n<= z; x - y = 0;\n//third\nx <= 1;\ny + z >= 2;"

def remarked : Problem Float where
  name := "parsed"
  direction := .maximise
  columns := [⟨"y", 0, none, false, 2⟩, ⟨"x", 0, some 1, false, 1⟩, ⟨"z", 0, none, true, 0⟩]
  rows := [⟨[(2, 1), (1, 1), (3, -1)], .atMost, 0, .other, some "second"⟩,
    ⟨[(2, 1), (1, -1)], .equal, 0, .other, none⟩, ⟨[(1, 1), (3, 1)], .atLeast, 2, .other, none⟩]

set_option maxRecDepth 4096 in
theorem parse_remarkedText : Listing.parse remarkedText = .ok remarked := by
  rfl

set_option maxRecDepth 4096 in
theorem originsOf_remarkedText : Listing.originsOf remarkedText =
    [⟨4, some 3, ["x", "y", "z"]⟩, ⟨4, none, ["x", "y"]⟩, ⟨7, none, ["y", "z"]⟩] := by
  rfl

end Sample

open Listing Sample in
/-- The remark inside the statement goes to its row, the other row that ends in the same line has
none, and the third remark is used up by the bound. -/
theorem Listing.wellFormed_of_parse_remarked :
    parse remarkedText = .ok remarked ∧ WellFormed remarkedText remarked ∧
      originsOf remarkedText =
        [⟨4, some 3, ["x", "y", "z"]⟩, ⟨4, none, ["x", "y"]⟩, ⟨7, none, ["y", "z"]⟩] :=
  ⟨parse_remarkedText, wellFormed_of_parse parse_remarkedText, originsOf_remarkedText⟩

end WorstCase
