import WorstCase.Proofs.Listing.Rounds

/-!
# Where names are written

The names that reading finds in a statement stand in its text, one after the other
(`Statement.inOrder_of_read`), and the statements stand one after the other in the text of the
listing outside its remark lines (`Listing.inOrder_itemsOfLines`).
-/

namespace WorstCase.Listing

open Text

/-! ## Words in a text -/

/-- The words stand in the text, one after the other. -/
inductive InOrder : List (List Char) → List Char → Prop
  | nil {cs : List Char} : InOrder [] cs
  | cons {before word after : List Char} {words : List (List Char)} (h : InOrder words after) :
      InOrder (word :: words) (before ++ (word ++ after))

namespace InOrder

variable {words words' : List (List Char)} {cs cs' : List Char}

theorem prepend (h : InOrder words cs) (before : List Char) : InOrder words (before ++ cs) := by
  cases h with
  | nil => exact .nil
  | cons h =>
    rw [← List.append_assoc]
    exact .cons h

theorem append (h : InOrder words cs) (h' : InOrder words' cs') :
    InOrder (words ++ words') (cs ++ cs') := by
  induction h with
  | nil => exact h'.prepend _
  | cons _ ih =>
    simp only [List.cons_append, List.append_assoc]
    exact .cons ih

theorem of_isInfix (h : InOrder words cs) (hcs : cs <:+: cs') : InOrder words cs' := by
  obtain ⟨before, after, rfl⟩ := hcs
  have hall := (h.prepend before).append (.nil : InOrder [] after)
  rwa [List.append_nil] at hall

theorem single {word : List Char} (h : word <:+: cs) : InOrder [word] cs := by
  obtain ⟨before, after, rfl⟩ := h
  rw [List.append_assoc]
  exact .cons .nil

theorem of_sublist (h : InOrder words cs) (hsub : words'.Sublist words) : InOrder words' cs := by
  induction h generalizing words' with
  | nil =>
    rw [List.sublist_nil.1 hsub]
    exact .nil
  | cons h ih =>
    cases hsub with
    | cons _ hsub =>
      rw [← List.append_assoc]
      exact (ih hsub).prepend _
    | cons_cons _ hsub => exact .cons (ih hsub)

/-- Words that stand in words. -/
theorem flatMap (h : InOrder words cs) {inner : List Char → List (List Char)}
    (hinner : ∀ word ∈ words, InOrder (inner word) word) : InOrder (words.flatMap inner) cs := by
  induction h with
  | nil => exact .nil
  | cons _ ih =>
    rw [List.forall_mem_cons] at hinner
    exact (hinner.1.append (ih hinner.2)).prepend _

end InOrder

/-- The text consists of the pieces, with one character between each two of them. -/
inductive Pieces : List (List Char) → List Char → Prop
  | last {piece : List Char} : Pieces [piece] piece
  | more {piece rest : List Char} {c : Char} {pieces : List (List Char)} (h : Pieces pieces rest) :
      Pieces (piece :: pieces) (piece ++ c :: rest)

theorem pieces_splitOnP (sep : Char → Bool) (cs : List Char) : Pieces (cs.splitOnP sep) cs := by
  induction cs with
  | nil =>
    rw [List.splitOnP_nil]
    exact .last
  | cons c cs ih =>
    rw [List.splitOnP_cons_eq_if_modifyHead]
    split
    · exact .more ih
    · generalize cs.splitOnP sep = pieces at ih
      cases ih with
      | last => exact .last
      | more h => exact .more h

theorem Pieces.inOrder {pieces : List (List Char)} {cs : List Char} (h : Pieces pieces cs) :
    InOrder pieces cs := by
  induction h with
  | last => exact .single (List.infix_refl _)
  | @more piece _ c _ _ ih => exact (InOrder.single (List.infix_refl piece)).append (ih.prepend [c])

theorem trim_isInfix (cs : List Char) : trim cs <:+: cs := by
  have hend : trim cs <+: trimStart cs := by
    rw [trim, trimEnd, ← List.reverse_suffix, List.reverse_reverse]
    exact List.dropWhile_suffix _
  exact hend.isInfix.trans (List.dropWhile_suffix _).isInfix

/-! ## Names in a statement -/

variable {α : Type} [Scalar α] [Numeral α]

/-- The column of a term. -/
def Term.name? : Term α → Option String
  | .column name _ => some name
  | .constant _ => none

/-- The name of a term is what its third group has caught. -/
theorem Found.group?_of_term? {f : Found} {t : Term α} {name : String} (h : f.term? = some t)
    (hname : t.name? = some name) : f.group? 3 = some name.toList := by
  unfold Found.term? at h
  cases hword : f.group? 3 with
  | none =>
    obtain ⟨x, rfl⟩ : ∃ x, t = .constant x := by
      cases hnumber : f.group? 2 with
      | none => simp [hword, hnumber] at h
      | some number =>
        simp only [hword, hnumber, Option.bind_eq_bind, Option.bind_eq_some_iff] at h
        obtain ⟨d, -, ht⟩ := h
        exact ⟨_, (Option.some.inj ht).symm⟩
    cases hname
  | some word =>
    obtain ⟨k, rfl⟩ : ∃ k, t = .column (String.ofList word) k := by
      cases hnumber : f.group? 2 with
      | none =>
        simp only [hword, hnumber] at h
        exact ⟨_, (Option.some.inj h).symm⟩
      | some number =>
        simp only [hword, hnumber, Option.bind_eq_bind, Option.bind_eq_some_iff] at h
        obtain ⟨d, -, ht⟩ := h
        exact ⟨_, (Option.some.inj ht).symm⟩
    rw [← Option.some.inj hname, String.toList_ofList]

/-- The name in a term stands in what the round cuts off. -/
theorem infix_of_round? {first : Bool} {cs rest : List Char} {c : Cut α}
    (h : round? first cs = some (c, rest)) {name : String} (hname : c.term.name? = some name) :
    name.toList <:+: c.text := by
  obtain ⟨f, hf, h⟩ := Option.bind_eq_some_iff.1 h
  split at h
  · cases h
  · obtain ⟨t, ht, heq⟩ := Option.bind_eq_some_iff.1 h
    cases heq
    exact (Pattern.of_mem (List.mem_of_mem_head? hf)).infix_of_group?
      (Found.group?_of_term? ht hname)

/-- The names that are read stand in the text, in the order of the terms. -/
theorem Rounds.inOrder {first : Bool} {cs left : List Char} {cuts : List (Cut α)}
    (h : Rounds first cs cuts left) :
    InOrder (((cuts.map Cut.term).filterMap Term.name?).map String.toList) cs := by
  induction h with
  | done | stuck => exact .nil
  | @next first cs rest left c cuts hne h _ ih =>
    rw [(of_round? h).2.1]
    cases hname : c.term.name? with
    | none =>
      rw [List.map_cons, List.filterMap_cons_none hname]
      exact ih.prepend _
    | some name =>
      rw [List.map_cons, List.filterMap_cons_some hname, List.map_cons]
      exact (InOrder.single (infix_of_round? h hname)).append ih

omit [Numeral α] in
theorem Side.map_fst_ofTerms (terms : List (Term α)) :
    (Side.ofTerms terms).terms.map Prod.fst = terms.filterMap Term.name? := by
  rw [Side.ofTerms, List.map_filterMap]
  refine List.filterMap_congr fun t _ => ?_
  cases t <;> rfl

/-- The names in a side. -/
def Side.names (side : Side α) : List String :=
  side.terms.map Prod.fst

/-- The names on a side stand in its text. -/
theorem Side.inOrder_of_read {cs : List Char} {side : Side α} (h : Side.read cs = .ok side) :
    InOrder (side.names.map String.toList) cs := by
  obtain ⟨cuts, left, hrounds⟩ := exists_rounds (α := α) true (trim cs)
  rw [Side.read, hrounds.readTerms_eq (Nat.le_refl _)] at h
  split at h
  · cases h
  · next terms hterms =>
    cases h
    split at hterms
    · cases hterms
      rw [Side.names, Side.map_fst_ofTerms]
      exact hrounds.inOrder.of_isInfix (trim_isInfix cs)
    · cases hterms

/-- The names in a statement. -/
def Statement.names : Statement α → List String
  | .objective _ side => side.names
  | .integers names => names
  | .constraint left _ right => left.names ++ right.names

theorem suffix_of_objective? {cs body : List Char} {direction : Direction}
    (h : objective? cs = some (direction, body)) : body <:+ cs := by
  obtain ⟨keyword, -, h⟩ := List.exists_of_findSome?_eq_some h
  dsimp only at h
  split at h
  · cases h
  · next rest hrest =>
    split at h
    · next body' hbody =>
      cases h
      obtain ⟨word, rfl, -⟩ := exists_of_afterKeyword? hrest
      have hcolon : body <:+ trimStart rest := hbody ▸ List.suffix_cons ':' body
      exact (hcolon.trans (List.dropWhile_suffix _)).trans (List.suffix_append word rest)
    · cases h

theorem inOrder_of_integers? {cs : List Char} {names : List String}
    (h : integers? cs = some names) : InOrder (names.map String.toList) cs := by
  unfold integers? at h
  split at h
  · cases h
  · cases h
  · next c rest hafter =>
    split at h
    · cases h
      obtain ⟨word, rfl, -⟩ := exists_of_afterKeyword? hafter
      have hall := (pieces_splitOnP (fun c => c == ',' || c == ' ') (trimStart rest)).inOrder
      have hid : (String.toList ∘ String.ofList) = id := funext fun cs => String.toList_ofList
      rw [List.map_map, hid, List.map_id]
      have hsuffix : trimStart rest <:+ word ++ c :: rest :=
        (List.dropWhile_suffix _).trans
          ((List.suffix_cons c rest).trans (List.suffix_append word _))
      exact (hall.of_sublist List.filter_sublist).of_isInfix hsuffix.isInfix
    · cases h

theorem suffix_of_readComparison? {cs rest : List Char} {comparison : Comparison}
    (h : readComparison? cs = some (comparison, rest)) : rest <:+ cs := by
  unfold readComparison? at h
  split at h
  all_goals cases h
  · exact ⟨['<', '='], rfl⟩
  · exact ⟨['>', '='], rfl⟩
  · exact ⟨['=', '<'], rfl⟩
  · exact ⟨['=', '>'], rfl⟩
  · exact ⟨['<'], rfl⟩
  · exact ⟨['>'], rfl⟩
  · exact ⟨['='], rfl⟩

/-- The sides of a comparison stand around its sign. -/
theorem exists_of_splitComparison? {cs left right : List Char} {comparison : Comparison}
    (h : splitComparison? cs = some (left, comparison, right)) :
    ∃ sign, cs = left ++ (sign ++ right) := by
  induction cs generalizing left with
  | nil => cases h
  | cons c cs ih =>
    rw [splitComparison?] at h
    split at h
    · next hread =>
      cases h
      obtain ⟨sign, hsign⟩ := suffix_of_readComparison? hread
      exact ⟨sign, hsign.symm⟩
    · obtain ⟨⟨left', _⟩, hsplit, heq⟩ := Option.map_eq_some_iff.1 h
      cases heq
      obtain ⟨sign, hsign⟩ := ih hsplit
      exact ⟨sign, by rw [hsign]; rfl⟩

/-- The names that are read stand in the text of the statement, one after the other. -/
theorem Statement.inOrder_of_read {cs : List Char} {statement : Statement α}
    (h : Statement.read cs = .ok statement) : InOrder (statement.names.map String.toList) cs := by
  unfold Statement.read at h
  split at h
  · next hobjective =>
    split at h
    · cases h
    · next side hside =>
      cases h
      exact (Side.inOrder_of_read hside).of_isInfix (suffix_of_objective? hobjective).isInfix
  · split at h
    · next hintegers =>
      cases h
      exact inOrder_of_integers? hintegers
    · split at h
      · cases h
      · next left comparison right hsplit =>
        obtain ⟨sign, rfl⟩ := exists_of_splitComparison? hsplit
        split at h
        · cases h
        · next hleft =>
          split at h
          · cases h
          · next hright =>
            cases h
            rw [Statement.names, List.map_append]
            exact (Side.inOrder_of_read hleft).append ((Side.inOrder_of_read hright).prepend sign)

/-! ## Statements in a listing -/

/-- The text of a statement. -/
def Item.text? : Item → Option (List Char)
  | .statement text => some text
  | .heading _ | .remark _ => none

/-- The text outside the remark lines. -/
def spoken (lines : List (List Char)) : List Char :=
  lines.flatMap fun line =>
    if (after? ['/', '/'] (trim line)).isSome then [] else ' ' :: trim line

theorem Item.text?_ofRemark (cs : List Char) : (Item.ofRemark cs).text? = none := by
  unfold Item.ofRemark
  split <;> rfl

/-- The statements stand before the text after the last semicolon. -/
theorem exists_of_cut {pieces : List (List Char)} {cs : List Char} (h : Pieces pieces cs) :
    ∃ front, cs = front ++ (cut pieces).2 ∧
      InOrder ((cut pieces).1.filterMap Item.text?) front := by
  induction h with
  | @last piece => exact ⟨[], rfl, .nil⟩
  | @more piece rest c pieces h ih =>
    obtain ⟨front, hrest, hfront⟩ := ih
    have hcut : cut (piece :: pieces) =
        (if (trim piece).isEmpty then (cut pieces).1 else .statement (trim piece) :: (cut pieces).1,
          (cut pieces).2) := by
      cases h <;> rfl
    refine ⟨piece ++ (c :: front), ?_, ?_⟩
    · rw [hcut, hrest, List.append_assoc, List.cons_append]
    · have hlater := hfront.prepend [c]
      rw [hcut]
      dsimp only
      split
      · exact hlater.prepend piece
      · exact (InOrder.single (trim_isInfix piece)).append hlater

/-- The statements stand in the lines in their order, remarks apart. -/
theorem inOrder_itemsOfLines (pending : List Char) (lines : List (List Char)) :
    InOrder ((itemsOfLines pending lines).1.filterMap Item.text?) (pending ++ spoken lines) := by
  fun_induction itemsOfLines pending lines with
  | case1 => exact .nil
  | case2 pending line rest line' remark hafter items tail heq ih =>
    rw [heq] at ih
    have hremark : after? ['/', '/'] (trim line) = some remark := hafter
    have hspoken : spoken (line :: rest) = spoken rest := by simp [spoken, hremark]
    rw [hspoken, List.filterMap_cons_none (Item.text?_ofRemark _)]
    exact ih
  | case3 pending line rest line' hafter items pending' hcut later tail heq ih =>
    rw [heq] at ih
    have hstatement : after? ['/', '/'] (trim line) = none := hafter
    have hspoken : spoken (line :: rest) = ' ' :: trim line ++ spoken rest := by
      simp [spoken, hstatement]
    obtain ⟨front, hfront, horder⟩ :=
      exists_of_cut (pieces_splitOnP (· == ';') (pending ++ ' ' :: line'))
    rw [hcut] at hfront horder
    rw [hspoken, ← List.append_assoc, hfront, List.append_assoc, List.filterMap_append]
    exact horder.append ih

end WorstCase.Listing
