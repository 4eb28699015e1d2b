import WorstCase.Listing.Parser
import WorstCase.Proofs.Listing.Statement

/-!
# Lines and what they state

Lines state items (`Listing.Reads`): a blank line none, a line with two slashes a heading or a
remark, and any other line, which a semicolon ends, a statement. A listing made of such lines is
read by adding the items to a draft in order (`Listing.Reads.read_eq`).
-/

namespace WorstCase.Listing

open Text

theorem trim_append_of_blanks {pre : List Char} (h : ∀ c ∈ pre, isBlank c) (cs : List Char) :
    trim (pre ++ cs) = trim cs := by
  rw [trim, trimStart_blanks h, trim]

/-- A text that a semicolon can be put behind to make a line with one statement. -/
structure StatementText (text : List Char) : Prop where
  head : ∃ c rest, text = c :: rest ∧ ¬ isBlank c ∧ c ≠ '/'
  no_semicolon : ';' ∉ text
  no_newline : '\n' ∉ text

/-- The lines state the items. -/
inductive Reads : List (List Char) → List Item → Prop
  | nil : Reads [] []
  | blank {lines : List (List Char)} {items : List Item} (h : Reads lines items) :
      Reads ([] :: lines) items
  | remark {text : List Char} {lines : List (List Char)} {items : List Item} (ht : Solid text)
      (hline : '\n' ∉ text) (h : Reads lines items) :
      Reads (Problem.remarkLine text :: lines) (.ofRemark text :: items)
  | statement {text : List Char} {lines : List (List Char)} {items : List Item}
      (ht : StatementText text) (h : Reads lines items) :
      Reads ((text ++ [';']) :: lines) (.statement (trim text) :: items)

theorem Reads.append {lines lines' : List (List Char)} {items items' : List Item}
    (h : Reads lines items) (h' : Reads lines' items') :
    Reads (lines ++ lines') (items ++ items') := by
  induction h with
  | nil => exact h'
  | blank _ ih => exact .blank ih
  | remark ht hline _ ih => exact .remark ht hline ih
  | statement ht _ ih => exact .statement ht ih

/-! ## Cutting -/

/-- What is behind the slashes of a remark. -/
theorem exists_after?_remarkLine {text : List Char} (h : Solid text) :
    ∃ rest, after? ['/', '/'] (trim (Problem.remarkLine text)) = some rest ∧ trim rest = text := by
  cases text with
  | nil => exact ⟨[], rfl, rfl⟩
  | cons c text =>
    have hsolid : Solid (Problem.remarkLine (c :: text)) := by
      refine ⟨fun d hd => Option.some.inj hd ▸ by decide, fun d hd => h.last d ?_⟩
      exact hd
    rw [hsolid.trim_self]
    exact ⟨' ' :: c :: text, rfl, (trim_append_of_blanks blank_of_mem_space _).trans h.trim_self⟩

/-- A statement line is no remark. -/
theorem StatementText.after?_eq_none {text : List Char} (h : StatementText text) :
    trim (text ++ [';']) = text ++ [';'] ∧ after? ['/', '/'] (text ++ [';']) = none := by
  obtain ⟨c, rest, rfl, hblank, hslash⟩ := h.head
  constructor
  · refine Solid.trim_self ⟨fun d hd => Option.some.inj hd ▸ hblank, fun d hd => ?_⟩
    rw [List.getLast?_concat] at hd
    exact Option.some.inj hd ▸ by decide
  · exact if_neg hslash.symm

/-- A statement ends at its semicolon, and the blanks before it are dropped. -/
theorem StatementText.cut_eq {text pending : List Char} (h : StatementText text)
    (hp : ∀ c ∈ pending, c = ' ') :
    cut ((pending ++ ' ' :: (text ++ [';'])).splitOnP (· == ';')) =
      ([.statement (trim text)], []) := by
  have hclean : ∀ c ∈ pending ++ ' ' :: text, (c == ';') = false := by
    intro c hc
    rw [beq_eq_false_iff_ne]
    rintro rfl
    rcases List.mem_append.1 hc with hc | hc
    · cases hp _ hc
    · rcases List.mem_cons.1 hc with hc | hc
      · cases hc
      · exact h.no_semicolon hc
  have hblank : ∀ c ∈ pending ++ [' '], isBlank c := by
    intro c hc
    rcases List.mem_append.1 hc with hc | hc
    · rw [hp c hc]
      rfl
    · rw [List.mem_singleton.1 hc]
      rfl
  have htrim : trim (pending ++ ' ' :: text) = trim text := by
    rw [List.append_cons]
    exact trim_append_of_blanks hblank text
  have hne : (trim text).isEmpty = false := by
    obtain ⟨c, rest, rfl, hb, -⟩ := h.head
    rw [trim, trimStart_cons hb, trimEnd, List.isEmpty_reverse, List.isEmpty_eq_false_iff, ne_eq,
      List.dropWhile_eq_nil_iff]
    exact fun hall => hb (hall c (List.mem_reverse.2 List.mem_cons_self))
  have hline : pending ++ ' ' :: (text ++ [';']) = (pending ++ ' ' :: text) ++ ';' :: [] := by simp
  rw [hline, List.splitOnP_append_cons_of_forall_mem hclean _ rfl, List.splitOnP_nil]
  simp only [cut, htrim, hne, Bool.false_eq_true, ↓reduceIte]

theorem cut_spaces {pending : List Char} (hp : ∀ c ∈ pending, c = ' ') :
    cut ((pending ++ [' ']).splitOnP (· == ';')) = ([], pending ++ [' ']) := by
  have hclean : ∀ c ∈ pending ++ [' '], (c == ';') = false := by
    intro c hc
    rcases List.mem_append.1 hc with hc | hc
    · rw [hp c hc]
      rfl
    · rw [List.mem_singleton.1 hc]
      rfl
  rw [List.splitOnP_eq_singleton hclean]
  rfl

/-- Behind the last line there are only spaces. -/
theorem Reads.itemsOfLines_eq {lines : List (List Char)} {items : List Item} (h : Reads lines items)
    {pending : List Char} (hp : ∀ c ∈ pending, c = ' ') :
    ∃ tail, itemsOfLines pending (lines ++ [[]]) = (items, tail) ∧ ∀ c ∈ tail, c = ' ' := by
  have hblank : ∀ {pending : List Char}, (∀ c ∈ pending, c = ' ') → ∀ lines,
      itemsOfLines pending ([] :: lines) = itemsOfLines (pending ++ [' ']) lines := by
    intro pending hp lines
    have hnil : trim [] = [] := rfl
    simp only [itemsOfLines, hnil, after?, cut_spaces hp, List.nil_append]
  have hspaces : ∀ {pending : List Char}, (∀ c ∈ pending, c = ' ') →
      ∀ c ∈ pending ++ [' '], c = ' ' := by
    intro pending hp c hc
    exact (List.mem_append.1 hc).elim (hp c) List.mem_singleton.1
  induction h generalizing pending with
  | nil => exact ⟨pending ++ [' '], hblank hp [], hspaces hp⟩
  | blank _ ih =>
    obtain ⟨tail, htail, hsp⟩ := ih (hspaces hp)
    exact ⟨tail, (hblank hp _).trans htail, hsp⟩
  | remark ht _ _ ih =>
    obtain ⟨tail, htail, hsp⟩ := ih hp
    obtain ⟨rest, hafter, htrim⟩ := exists_after?_remarkLine ht
    refine ⟨tail, ?_, hsp⟩
    simp only [List.cons_append, itemsOfLines, hafter, htail, htrim]
  | statement ht _ ih =>
    obtain ⟨tail, htail, hsp⟩ := ih fun c hc => absurd hc List.not_mem_nil
    obtain ⟨htrim, hafter⟩ := ht.after?_eq_none
    refine ⟨tail, ?_, hsp⟩
    simp only [List.cons_append, itemsOfLines, htrim, hafter, ht.cut_eq hp, htail, List.nil_append]

theorem Reads.no_newline {lines : List (List Char)} {items : List Item} (h : Reads lines items) :
    ∀ line ∈ lines, '\n' ∉ line := by
  induction h with
  | nil => simp
  | blank _ ih => exact List.forall_mem_cons.2 ⟨List.not_mem_nil, ih⟩
  | remark _ hline _ ih =>
    refine List.forall_mem_cons.2 ⟨?_, ih⟩
    simpa [Problem.remarkLine] using hline
  | statement ht _ ih =>
    refine List.forall_mem_cons.2 ⟨?_, ih⟩
    simpa using ht.no_newline

/-- Text is split into the lines it was put together from, with nothing behind the last one. -/
theorem splitOnP_lines {lines : List (List Char)} (h : ∀ line ∈ lines, '\n' ∉ line) :
    (lines.flatMap (· ++ ['\n'])).splitOnP (· == '\n') = lines ++ [[]] := by
  induction lines with
  | nil => exact List.splitOnP_nil
  | cons line lines ih =>
    rw [List.forall_mem_cons] at h
    have hclean : ∀ c ∈ line, (c == '\n') = false := by
      intro c hc
      rw [beq_eq_false_iff_ne]
      rintro rfl
      exact h.1 hc
    rw [List.flatMap_cons, List.append_assoc, List.singleton_append,
      List.splitOnP_append_cons_of_forall_mem hclean _ rfl, ih h.2, List.cons_append]

/-! ## Reading -/

/-- Lines are read by adding to a draft what they state. -/
theorem Reads.read_eq {lines : List (List Char)} {items : List Item} (h : Reads lines items) :
    (read (lines.flatMap (· ++ ['\n'])) : Except (ListingError Float) (Problem Float)) =
      match Draft.start.addAll items with
      | .error e => .error e
      | .ok draft => if !draft.hasObjective then .error .noObjective else .ok draft.problem := by
  obtain ⟨tail, hitems, hspaces⟩ := h.itemsOfLines_eq fun c hc => absurd hc List.not_mem_nil
  have htail : trim tail = [] := by
    have hblank : ∀ c ∈ tail, isBlank c := fun c hc => hspaces c hc ▸ rfl
    have := trim_append_of_blanks hblank []
    rwa [List.append_nil] at this
  simp only [read, Listing.items, splitOnP_lines h.no_newline, hitems, htail, List.isEmpty_nil,
    Bool.not_true, Bool.false_eq_true, if_false]
  cases (Draft.start.addAll items : Except (ListingError Float) (Draft Float)) with
  | error e => rfl
  | ok draft => rfl

end WorstCase.Listing
