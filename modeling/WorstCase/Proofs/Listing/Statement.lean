import WorstCase.Listing.Statement
import WorstCase.Proofs.Listing.Expression

/-!
# Statements that are written and read

A comparison of two sums (`Statement.read_constraint`), an objective (`Statement.read_objective`)
and a declaration of integer columns (`Statement.read_integers`) are read as what they were written
from. A comparison can be taken for a declaration only if it starts with a column of the name `int`.
-/

namespace WorstCase.Listing

open Text

theorem ne_of_isTermChar {c : Char} (h : isTermChar c) :
    c ≠ ':' ∧ c ≠ ';' ∧ c ≠ '<' ∧ c ≠ '>' ∧ c ≠ '=' ∧ c ≠ '/' ∧ c ≠ ',' ∧ c ≠ '\n' := by
  refine ⟨?_, ?_, ?_, ?_, ?_, ?_, ?_, ?_⟩ <;> rintro rfl <;> exact absurd h (by decide)

/-! ## Objectives -/

/-- A keyword stands at the start in some case. -/
theorem exists_of_afterKeyword? {ks cs rest : List Char} (h : afterKeyword? ks cs = some rest) :
    ∃ word, cs = word ++ rest ∧ word.map foldCase = ks := by
  induction ks generalizing cs with
  | nil =>
    cases h
    exact ⟨[], rfl, rfl⟩
  | cons k ks ih =>
    cases cs with
    | nil => cases h
    | cons c cs =>
      rw [afterKeyword?] at h
      split at h
      · next hc =>
        obtain ⟨word, rfl, hword⟩ := ih h
        exact ⟨c :: word, rfl, by rw [List.map_cons, hc, hword]⟩
      · cases h

/-- An objective has a colon. -/
theorem objective?_eq_none {cs : List Char} (h : ':' ∉ cs) : objective? cs = none := by
  refine List.findSome?_eq_none_iff.2 fun keyword _ => ?_
  dsimp only
  split
  · rfl
  · next rest hrest =>
    split
    · next body hbody =>
      obtain ⟨word, rfl, -⟩ := exists_of_afterKeyword? hrest
      have hmem : ':' ∈ trimStart rest := hbody ▸ List.mem_cons_self
      exact absurd (List.mem_append_right _ ((List.dropWhile_sublist _).subset hmem)) h
    · rfl

/-- The word that starts an objective. -/
def keywordOf : Direction → List Char
  | .maximise => "max: ".toList
  | .minimise => "min: ".toList

theorem objective?_keywordOf (direction : Direction) (body : List Char) :
    objective? (keywordOf direction ++ body) = some (direction, ' ' :: body) := by
  cases direction <;> rfl

theorem objective?_keywordOf_trimmed (direction : Direction) :
    objective? (trim (keywordOf direction)) = some (direction, []) := by
  cases direction <;> rfl

/-- Only blanks at the end of an objective go. -/
theorem solid_keywordOf_append (direction : Direction) {body : List Char} (h : Inline body) :
    Solid (keywordOf direction ++ body) := by
  refine ⟨fun c hc => ?_, fun c hc => ?_⟩
  · cases direction <;> exact Option.some.inj hc ▸ by decide
  · rw [List.getLast?_append_of_ne_nil _ h.ne_nil] at hc
    exact h.solid.last c hc

/-- An objective is read as its direction and its sum, which may have no terms. -/
theorem Statement.read_objective {cs : List Char} {ts : List (Term Float)} (h : SumOf cs ts)
    (hcs : cs = [] ∨ Inline cs) (direction : Direction) :
    Statement.read (trim (keywordOf direction ++ cs)) =
      .ok (.objective direction (Side.ofTerms ts)) := by
  rcases hcs with rfl | hcs
  · have hread := h.read_eq blank_of_mem_nil blank_of_mem_nil
    rw [List.nil_append, List.append_nil] at hread
    simp only [List.append_nil, Statement.read, objective?_keywordOf_trimmed, hread]
  · have hread := h.read_eq blank_of_mem_space blank_of_mem_nil
    rw [List.append_nil, List.singleton_append] at hread
    simp only [(solid_keywordOf_append direction hcs).trim_self, Statement.read,
      objective?_keywordOf, hread]

theorem Statement.read_objective_eq_error {cs : List Char} (hcs : Inline cs)
    {e : ListingError Float}
    (h : (Side.read (' ' :: cs) : Except (ListingError Float) (Side Float)) = .error e)
    (direction : Direction) :
    (Statement.read (trim (keywordOf direction ++ cs)) :
      Except (ListingError Float) (Statement Float)) = .error e := by
  simp only [(solid_keywordOf_append direction hcs).trim_self, Statement.read,
    objective?_keywordOf, h]

/-! ## Integer declarations -/

/-- Case counts for no letter but the s. -/
theorem map_toLower_of_map_foldCase {cs ks : List Char} (h : cs.map foldCase = ks) (hs : 's' ∉ ks) :
    cs.map Char.toLower = ks := by
  rw [← h]
  refine List.map_congr_left fun c hc => ?_
  have hne : c ≠ 'ſ' := by
    rintro rfl
    exact hs (h ▸ List.mem_map_of_mem hc)
  rw [foldCase, if_neg hne]

/-- A declaration starts with the word `int` and a blank. -/
theorem exists_of_integers? {cs : List Char} (h : integers? cs ≠ none) :
    ∃ word c rest, cs = word ++ c :: rest ∧ word.map Char.toLower = "int".toList ∧ isBlank c := by
  unfold integers? at h
  split at h
  · exact absurd rfl h
  · exact absurd rfl h
  · next c rest hafter =>
    obtain ⟨word, rfl, hword⟩ := exists_of_afterKeyword? hafter
    split at h
    · next hblank =>
      exact ⟨word, c, rest, rfl, map_toLower_of_map_foldCase hword (by decide), hblank⟩
    · exact absurd rfl h

/-- A text that starts with a digit declares nothing. -/
theorem integers?_of_digit {c : Char} (hc : c.isDigit) (cs : List Char) :
    integers? (c :: cs) = none := by
  by_contra h
  obtain ⟨word, d, rest, hcs, hword, -⟩ := exists_of_integers? h
  cases word with
  | nil => cases hword
  | cons w word =>
    obtain rfl := (List.cons.inj hcs).1
    have hi : c.toLower = 'i' := (List.cons.inj hword).1
    have hupper : ¬ (c.val ≥ 'A'.val ∧ c.val ≤ 'Z'.val) := by
      simp only [Char.isDigit, Bool.and_eq_true, decide_eq_true_eq] at hc
      rintro ⟨hA, -⟩
      exact absurd (UInt32.le_trans hA hc.2) (by decide)
    rw [Char.toLower, dif_neg hupper] at hi
    exact absurd hc (hi ▸ by decide)

/-- A text that starts with a name other than `int` declares nothing. -/
theorem integers?_of_name {name : List Char} (hn : IsName name)
    (hint : name.map Char.toLower ≠ "int".toList) (rest : List Char) :
    integers? (name ++ ' ' :: rest) = none := by
  by_contra h
  obtain ⟨word, c, rest', hcs, hword, hblank⟩ := exists_of_integers? h
  rcases List.append_eq_append_iff.1 hcs with ⟨more, rfl, hmore⟩ | ⟨more, rfl, hmore⟩
  · -- the keyword goes beyond the name: it has a space
    cases more with
    | nil => exact hint (by rwa [List.append_nil] at hword)
    | cons m more =>
      obtain rfl := (List.cons.inj hmore).1
      have hmem : ' '.toLower ∈ "int".toList :=
        hword ▸ List.mem_map_of_mem (List.mem_append_right _ List.mem_cons_self)
      exact absurd hmem (by decide)
  · -- the name goes beyond the keyword: no blank follows
    cases more with
    | nil => exact hint (by rwa [List.append_nil])
    | cons m more =>
      obtain rfl := (List.cons.inj hmore).1
      exact (hn.not_isBlank c (List.mem_append_right _ List.mem_cons_self)) hblank

theorem splitOnP_join {names : List (List Char)} (h : ∀ name ∈ names, IsName name) :
    ((join [',', ' '] names).splitOnP fun c => c == ',' || c == ' ').filter
      (fun name => !name.isEmpty) = names := by
  have hclean : ∀ name, IsName name → ∀ c ∈ name, (c == ',' || c == ' ') = false := by
    intro name hn c hc
    rcases hn.mem c hc with hc | rfl
    · have := toNat_of_isNameChar hc
      simp only [Bool.or_eq_false_iff, beq_eq_false_iff_ne]
      constructor <;> rintro rfl <;> revert this <;> decide
    · rfl
  induction names with
  | nil => rfl
  | cons name names ih =>
    rw [List.forall_mem_cons] at h
    have hne : name.isEmpty = false := by
      obtain ⟨-, -⟩ := h.1
      rfl
    cases names with
    | nil =>
      rw [join, List.splitOnP_eq_singleton (hclean name h.1)]
      simp [hne]
    | cons name' names =>
      have hjoin : join [',', ' '] (name :: name' :: names) =
          name ++ ',' :: ([] ++ ' ' :: join [',', ' '] (name' :: names)) :=
        List.append_assoc _ _ _
      rw [hjoin, List.splitOnP_append_cons_of_forall_mem (hclean name h.1) _ rfl,
        List.splitOnP_append_cons_of_forall_mem (by simp) _ rfl, List.filter_cons, List.filter_cons,
        ih h.2, hne]
      rfl

theorem mem_of_mem_join {sep : List Char} {css : List (List Char)} {c : Char}
    (h : c ∈ join sep css) : c ∈ sep ∨ ∃ cs ∈ css, c ∈ cs := by
  induction css with
  | nil => cases h
  | cons cs css ih =>
    cases css with
    | nil => exact .inr ⟨cs, List.mem_cons_self, h⟩
    | cons cs' css =>
      rcases List.mem_append.1 h with h | h
      · rcases List.mem_append.1 h with h | h
        · exact .inr ⟨cs, List.mem_cons_self, h⟩
        · exact .inl h
      · exact (ih h).imp_right fun ⟨cs'', hmem, hc⟩ => ⟨cs'', List.mem_cons_of_mem _ hmem, hc⟩

/-- The text of a declaration. -/
def declarationText (names : List (List Char)) : List Char :=
  "int ".toList ++ join [',', ' '] names

/-- A declaration has name characters, hyphens, commas and spaces. -/
theorem mem_declarationText {names : List (List Char)} (h : ∀ name ∈ names, IsName name) {c : Char}
    (hc : c ∈ declarationText names) : isTermChar c ∨ c = ',' := by
  have hword : ∀ c ∈ ['i', 'n', 't', ' '], isTermChar c := by simp [isTermChar, isNameChar]
  have hsep : ∀ c ∈ [',', ' '], isTermChar c ∨ c = ',' := by simp [isTermChar]
  rcases List.mem_append.1 hc with hc | hc
  · exact .inl (hword c hc)
  · rcases mem_of_mem_join hc with hc | ⟨name, hname, hc⟩
    · exact hsep c hc
    · exact .inl ((h name hname).inline.chars c hc)

theorem Statement.read_integers {names : List (List Char)} (h : ∀ name ∈ names, IsName name) :
    Statement.read (declarationText names) =
      .ok (.integers (names.map String.ofList) : Statement Float) := by
  have hcolon : ':' ∉ declarationText names := fun hc =>
    (mem_declarationText h hc).elim (fun hc => (ne_of_isTermChar hc).1 rfl) (by decide)
  have htrim : trimStart (join [',', ' '] names) = join [',', ' '] names := by
    cases names with
    | nil => rfl
    | cons name names =>
      obtain ⟨rest, hrest⟩ : ∃ rest, join [',', ' '] (name :: names) = name ++ rest := by
        cases names with
        | nil => exact ⟨[], (List.append_nil name).symm⟩
        | cons name' names => exact ⟨_, List.append_assoc _ _ _⟩
      rw [hrest]
      exact (h name List.mem_cons_self).trimStart_append rest
  have hint : integers? (declarationText names) = some (names.map String.ofList) := by
    have hafter : afterKeyword? "int".toList (declarationText names) =
        some (' ' :: join [',', ' '] names) := rfl
    simp only [integers?, hafter, isBlank_space, ↓reduceIte, htrim, splitOnP_join h]
  simp only [Statement.read, objective?_eq_none hcolon, hint]

/-! ## Comparisons -/

/-- The first comparison sign is the one between two sums. -/
theorem splitComparison?_append {left : List Char}
    (h : ∀ c ∈ left, c ≠ '<' ∧ c ≠ '>' ∧ c ≠ '=') (comparison : Comparison) (rest : List Char) :
    splitComparison? (left ++ (comparison.symbol.toList ++ ' ' :: rest)) =
      some (left, comparison, ' ' :: rest) := by
  induction left with
  | nil => cases comparison <;> rfl
  | cons c left ih =>
    rw [List.forall_mem_cons] at h
    have hnone : ∀ cs, readComparison? (c :: cs) = none := by
      intro cs
      unfold readComparison?
      split <;> first | rfl | (next heq => grind)
    rw [List.cons_append, splitComparison?, hnone, ih h.2]
    rfl

/-- The text of a comparison. -/
def comparisonText (left : List Char) (comparison : Comparison) (right : List Char) : List Char :=
  left ++ ' ' :: comparison.symbol.toList ++ ' ' :: right

theorem mem_comparisonText {left right : List Char} (hl : Inline left) (hr : Inline right)
    {comparison : Comparison} {c : Char} (h : c ∈ comparisonText left comparison right) :
    isTermChar c ∨ c = '<' ∨ c = '>' ∨ c = '=' := by
  have hsymbol : ∀ c ∈ comparison.symbol.toList, c = '<' ∨ c = '>' ∨ c = '=' := by
    cases comparison <;> simp [Comparison.symbol]
  simp only [comparisonText, List.mem_append, List.mem_cons] at h
  rcases h with (h | rfl | h) | rfl | h
  · exact .inl (hl.chars c h)
  · exact .inl rfl
  · exact .inr (hsymbol c h)
  · exact .inl rfl
  · exact .inl (hr.chars c h)

/-- Reading a comparison reads its sides, unless it is taken for a declaration. -/
theorem Statement.read_comparisonText {left right : List Char} (hl : Inline left)
    (hr : Inline right) {comparison : Comparison}
    (hint : integers? (comparisonText left comparison right) = none) :
    Statement.read (comparisonText left comparison right) = (do
      let left ← Side.read (left ++ [' '])
      let right ← Side.read (' ' :: right)
      return .constraint left comparison right :
        Except (ListingError Float) (Statement Float)) := by
  have hcolon : ':' ∉ comparisonText left comparison right := fun h =>
    (mem_comparisonText hl hr h).elim (fun h => (ne_of_isTermChar h).1 rfl) (by decide)
  have hsplit : splitComparison? (comparisonText left comparison right) =
      some (left ++ [' '], comparison, ' ' :: right) := by
    have htext : comparisonText left comparison right =
        left ++ [' '] ++ (comparison.symbol.toList ++ ' ' :: right) := by simp [comparisonText]
    rw [htext]
    refine splitComparison?_append (fun c hc => ?_) comparison right
    rcases List.mem_append.1 hc with hc | hc
    · obtain ⟨-, -, hlt, hgt, heq, -⟩ := ne_of_isTermChar (hl.chars c hc)
      exact ⟨hlt, hgt, heq⟩
    · rw [List.mem_singleton.1 hc]
      decide
  simp only [Statement.read, objective?_eq_none hcolon, hint, hsplit]
  cases (Side.read (left ++ [' ']) : Except (ListingError Float) (Side Float)) with
  | error e => rfl
  | ok left =>
    cases (Side.read (' ' :: right) : Except (ListingError Float) (Side Float)) with
    | error e => rfl
    | ok right => rfl

/-- A comparison of two sums is read as their sides. -/
theorem Statement.read_constraint {left right : List Char} {ls rs : List (Term Float)}
    (hleft : SumOf left ls) (hright : SumOf right rs) (hl : Inline left) (hr : Inline right)
    {comparison : Comparison}
    (hint : integers? (comparisonText left comparison right) = none) :
    Statement.read (comparisonText left comparison right) =
      .ok (.constraint (Side.ofTerms ls) comparison (Side.ofTerms rs)) := by
  have hreadLeft := hleft.read_eq blank_of_mem_nil blank_of_mem_space
  have hreadRight := hright.read_eq blank_of_mem_space blank_of_mem_nil
  rw [List.nil_append] at hreadLeft
  rw [List.append_nil, List.singleton_append] at hreadRight
  rw [Statement.read_comparisonText hl hr hint, hreadLeft, hreadRight]
  rfl

end WorstCase.Listing
