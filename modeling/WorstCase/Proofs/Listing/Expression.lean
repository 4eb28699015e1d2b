import WorstCase.Listing.Expression
import WorstCase.Listing.Printer
import WorstCase.Proofs.Number.Text

/-!
# Sums that are written and read

A text writes a term (`Listing.Writes`) when it is a number and a name, a name or a number. A sum of
such texts, the first of which may have a minus, is read as the terms in their order
(`Listing.SumOf.read_eq`). No term behind a plus can start with a minus (`Listing.readTerms_minus`).
Column names follow a grammar (`Listing.IsName`); they are read whole when a blank follows.
-/

namespace WorstCase

namespace Text

/-! ## Blanks at the ends -/

/-- The text has no blanks at its ends. -/
structure Solid (cs : List Char) : Prop where
  head : ∀ c ∈ cs.head?, ¬ isBlank c
  last : ∀ c ∈ cs.getLast?, ¬ isBlank c

theorem trimStart_of_head {cs : List Char} (h : ∀ c ∈ cs.head?, ¬ isBlank c) :
    trimStart cs = cs := by
  cases cs with
  | nil => rfl
  | cons c cs => exact List.dropWhile_cons_of_neg (h c rfl)

theorem trimStart_cons {c : Char} (h : ¬ isBlank c) (cs : List Char) :
    trimStart (c :: cs) = c :: cs :=
  List.dropWhile_cons_of_neg h

theorem trimStart_blanks {pre : List Char} (h : ∀ c ∈ pre, isBlank c) (cs : List Char) :
    trimStart (pre ++ cs) = trimStart cs :=
  List.dropWhile_append_of_pos h

theorem trimStart_space (cs : List Char) : trimStart (' ' :: cs) = trimStart cs :=
  rfl

/-- Trimming takes exactly the blanks around a solid text. -/
theorem Solid.trim_eq {cs : List Char} (h : Solid cs) {pre post : List Char}
    (hpre : ∀ c ∈ pre, isBlank c) (hpost : ∀ c ∈ post, isBlank c) :
    trim (pre ++ cs ++ post) = cs := by
  have hend : trimEnd (cs ++ post) = cs := by
    have hlast : ∀ c ∈ cs.reverse.head?, ¬ isBlank c := by
      rw [List.head?_reverse]
      exact h.last
    rw [trimEnd, List.reverse_append,
      List.dropWhile_append_of_pos fun c hc => hpost c (List.mem_reverse.1 hc)]
    exact (congrArg List.reverse (trimStart_of_head hlast)).trans (List.reverse_reverse cs)
  rw [trim, List.append_assoc, trimStart_blanks hpre]
  cases cs with
  | nil =>
    have hnil : trimStart post = [] := List.dropWhile_eq_nil_iff.2 hpost
    rw [List.nil_append, hnil]
    rfl
  | cons c cs =>
    have hstart : trimStart (c :: cs ++ post) = c :: cs ++ post :=
      trimStart_of_head fun d hd => h.head d hd
    rw [hstart, hend]

theorem isBlank_space : isBlank ' ' = true :=
  rfl

theorem blank_of_mem_nil : ∀ c ∈ [], isBlank c := by
  simp

theorem blank_of_mem_space : ∀ c ∈ [' '], isBlank c := by
  simp [isBlank_space]

theorem Solid.trim_self {cs : List Char} (h : Solid cs) : trim cs = cs := by
  have := h.trim_eq blank_of_mem_nil blank_of_mem_nil
  rwa [List.nil_append, List.append_nil] at this

end Text

namespace Listing

open Text

/-! ## Characters -/

/-- Name characters stand apart from blanks and from the signs of a listing. -/
theorem toNat_of_isNameChar {c : Char} (h : isNameChar c) :
    46 ≤ c.toNat ∧ c.toNat ≠ 47 ∧ (c.toNat < 58 ∨ 64 < c.toNat) ∧ c.toNat < 128 := by
  simp only [isNameChar, Char.isAlphanum, Char.isAlpha, Char.isUpper, Char.isLower, Char.isDigit,
    Bool.or_eq_true, Bool.and_eq_true, decide_eq_true_eq, UInt32.le_iff_toNat_le, ge_iff_le,
    beq_iff_eq] at h
  change ((((((65 ≤ c.toNat ∧ c.toNat ≤ 90) ∨ (97 ≤ c.toNat ∧ c.toNat ≤ 122)) ∨
    (48 ≤ c.toNat ∧ c.toNat ≤ 57)) ∨ c = '_') ∨ c = '[') ∨ c = ']') ∨ c = '.' at h
  rcases h with (((h | rfl) | rfl) | rfl) | rfl
  · omega
  all_goals decide

theorem not_isBlank_of_isNameChar {c : Char} (h : isNameChar c) : ¬ isBlank c := by
  have := toNat_of_isNameChar h
  simp [isBlank]
  omega

/-! ## Names -/

/-- What may follow the first character of a name: name characters, and a hyphen before any of
them. -/
inductive NameTail : List Char → Prop
  | nil : NameTail []
  | char {c : Char} {cs : List Char} (hc : isNameChar c) (h : NameTail cs) : NameTail (c :: cs)
  | hyphen {c : Char} {cs : List Char} (hc : isNameChar c) (h : NameTail cs) :
      NameTail ('-' :: c :: cs)

/-- A name that a column can have in a listing. -/
inductive IsName : List Char → Prop
  | mk {c : Char} {cs : List Char} (hc : isNameStart c) (h : NameTail cs) : IsName (c :: cs)

theorem nameTail_of_chars {cs : List Char} (h : ∀ c ∈ cs, isNameChar c) : NameTail cs := by
  induction cs with
  | nil => exact .nil
  | cons c cs ih =>
    rw [List.forall_mem_cons] at h
    exact .char h.1 (ih h.2)

theorem isNameChar_of_isNameStart {c : Char} (h : isNameStart c) : isNameChar c := by
  simp only [isNameStart, isNameChar, Char.isAlphanum, Bool.or_eq_true] at h ⊢
  exact h.elim (fun h => .inl (.inl (.inl (.inl (.inl h))))) fun h => .inl (.inl (.inl (.inr h)))

theorem NameTail.readNameTail_append {cs rest : List Char} (h : NameTail cs) (hrest : Break rest) :
    readNameTail (cs ++ rest) = (cs, rest) := by
  induction h with
  | nil => obtain rfl | ⟨rest, rfl⟩ := hrest.cases <;> rfl
  | @char c cs hc h ih =>
    have hne : c ≠ '-' := by
      rintro rfl
      exact absurd hc (by decide)
    rw [List.cons_append, readNameTail, ih]
    · simp only [hc, ↓reduceIte]
    · rintro d ds heq -
      exact hne heq
  | hyphen hc h ih => simp only [List.cons_append, readNameTail, ih, hc, ↓reduceIte]

/-- A name is read up to where it ends. -/
theorem IsName.readName?_append {name rest : List Char} (h : IsName name) (hrest : Break rest) :
    readName? (name ++ rest) = some (name, rest) := by
  obtain ⟨hc, h⟩ := h
  simp only [List.cons_append, readName?, hc, ↓reduceIte, h.readNameTail_append hrest]

theorem NameTail.mem {cs : List Char} (h : NameTail cs) : ∀ c ∈ cs, isNameChar c ∨ c = '-' := by
  induction h with
  | nil => exact fun c hc => absurd hc List.not_mem_nil
  | char hc h ih => exact List.forall_mem_cons.2 ⟨.inl hc, ih⟩
  | hyphen hc h ih => exact List.forall_mem_cons.2 ⟨.inr rfl, List.forall_mem_cons.2 ⟨.inl hc, ih⟩⟩

theorem IsName.mem {name : List Char} (h : IsName name) : ∀ c ∈ name, isNameChar c ∨ c = '-' := by
  obtain ⟨hc, h⟩ := h
  exact List.forall_mem_cons.2 ⟨.inl (isNameChar_of_isNameStart hc), h.mem⟩

/-! ## The start of a term -/

theorem skipTimes_of_head {cs : List Char} (h : ∀ c ∈ cs.head?, c ≠ '*') : skipTimes cs = cs := by
  unfold skipTimes
  split
  · exact absurd rfl (h '*' rfl)
  · rfl

theorem readSign_of_head {cs : List Char} (h : ∀ c ∈ cs.head?, c ≠ '+' ∧ c ≠ '-') :
    readSign cs = (none, cs) := by
  unfold readSign
  split
  · exact absurd rfl (h '+' rfl).1
  · exact absurd rfl (h '-' rfl).2
  · rfl

theorem read?_of_head {cs : List Char} (h : ∀ c ∈ cs.head?, ¬ c.isDigit ∧ c ≠ '.') :
    Decimal.read? cs = none := by
  cases cs with
  | nil => rfl
  | cons c cs =>
    obtain ⟨hdigit, hpoint⟩ := h c rfl
    simp only [Decimal.read?, List.takeWhile_cons_of_neg hdigit, List.dropWhile_cons_of_neg hdigit]
    split
    · rfl
    · next hnil => exact (hnil rfl).elim
    · next heq =>
      split at heq
      · next hcs => exact absurd (List.cons.inj hcs).1 hpoint
      · cases heq

theorem readName?_of_head {cs : List Char} (h : ∀ c ∈ cs.head?, ¬ isNameStart c) :
    readName? cs = none := by
  cases cs with
  | nil => rfl
  | cons c cs => exact if_neg (h c rfl)

/-- A name starts with nothing that another part of a term can start with. -/
theorem not_other_of_isNameStart {c : Char} (h : isNameStart c) :
    ¬ isBlank c ∧ ¬ c.isDigit ∧ c ≠ '.' ∧ c ≠ '*' ∧ c ≠ '+' ∧ c ≠ '-' := by
  have hblank := not_isBlank_of_isNameChar (isNameChar_of_isNameStart h)
  simp only [isNameStart, Char.isAlpha, Char.isUpper, Char.isLower, Bool.or_eq_true,
    Bool.and_eq_true, decide_eq_true_eq, UInt32.le_iff_toNat_le, ge_iff_le, beq_iff_eq] at h
  change ((65 ≤ c.toNat ∧ c.toNat ≤ 90) ∨ (97 ≤ c.toNat ∧ c.toNat ≤ 122)) ∨ c = '_' at h
  rcases h with h | rfl
  · refine ⟨hblank, fun hd => ?_, ?_⟩
    · simp only [Char.isDigit, Bool.and_eq_true, decide_eq_true_eq, UInt32.le_iff_toNat_le] at hd
      change 48 ≤ c.toNat ∧ c.toNat ≤ 57 at hd
      omega
    · refine ⟨?_, ?_, ?_, ?_⟩ <;> rintro rfl <;> revert h <;> decide
  · decide

/-- A digit starts neither a name nor a sign. -/
theorem not_other_of_isDigit {c : Char} (h : c.isDigit) :
    ¬ isBlank c ∧ ¬ isNameStart c ∧ c ≠ '+' ∧ c ≠ '-' := by
  have hblank := not_isBlank_of_isNameChar (c := c) (by simp [isNameChar, Char.isAlphanum, h])
  refine ⟨hblank, fun hs => (not_other_of_isNameStart hs).2.1 h, ?_, ?_⟩ <;> rintro rfl <;>
    exact absurd h (by decide)

/-! ## Terms -/

/-- The text writes the term: a coefficient and a name, a name that counts once, or a number. -/
inductive Writes : List Char → Term Float → Prop
  | column {cs name : List Char} {k : Float} (hk : Double.TextOf cs k) (hn : IsName name) :
      Writes (cs ++ ' ' :: name) (.column (String.ofList name) k)
  | unit {name : List Char} (hn : IsName name) : Writes name (.column (String.ofList name) 1)
  | constant {cs : List Char} {k : Float} (hk : Double.TextOf cs k) : Writes cs (.constant k)

/-- The term with the other sign. -/
def Term.neg : Term Float → Term Float
  | .column name k => .column name (-k)
  | .constant k => .constant (-k)

/-- The text writes the term, which may have a minus. -/
inductive WritesSigned : List Char → Term Float → Prop
  | plus {cs : List Char} {t : Term Float} (h : Writes cs t) : WritesSigned cs t
  | minus {cs : List Char} {t : Term Float} (h : Writes cs t) : WritesSigned ('-' :: cs) t.neg

/-- The sum ends here or goes on with a plus. -/
def SumBreak (rest : List Char) : Prop :=
  rest = [] ∨ ∃ more, rest = ' ' :: '+' :: ' ' :: more

theorem SumBreak.break {rest : List Char} (h : SumBreak rest) : Break rest := by
  obtain rfl | ⟨more, rfl⟩ := h
  · exact fun c hc => by cases hc
  · exact fun c hc => (Option.some.inj hc).symm

/-- Behind a term only a plus can follow. -/
theorem SumBreak.head?_trimStart {rest : List Char} (h : SumBreak rest) :
    ∀ c ∈ (trimStart rest).head?, c = '+' := by
  obtain rfl | ⟨more, rfl⟩ := h
  · exact fun c hc => by cases hc
  · exact fun c hc => (Option.some.inj hc).symm

theorem IsName.trimStart_append {name : List Char} (hn : IsName name) (rest : List Char) :
    trimStart (name ++ rest) = name ++ rest := by
  obtain ⟨hc, -⟩ := hn
  exact trimStart_cons (not_other_of_isNameStart hc).1 _

/-- Nothing is skipped before a name. -/
theorem IsName.skip {name : List Char} (hn : IsName name) (rest : List Char) :
    trimStart (skipTimes (trimStart (name ++ rest))) = name ++ rest := by
  have hskip : skipTimes (name ++ rest) = name ++ rest := by
    obtain ⟨hc, -⟩ := hn
    obtain ⟨-, -, -, htimes, -⟩ := not_other_of_isNameStart hc
    exact skipTimes_of_head fun d hd => Option.some.inj hd ▸ htimes
  rw [hn.trimStart_append, hskip, hn.trimStart_append]

/-- Reading finds the term behind the sign. -/
theorem Writes.read {cs₀ cs₁ cs rest : List Char} {sign : Option Char} {t : Term Float}
    (h : Writes cs t) (hrest : SumBreak rest) (hsign : readSign cs₀ = (sign, cs₁))
    (hcs : trimStart cs₁ = cs ++ rest) :
    (Written.read cs₀).sign = sign ∧ (Written.read cs₀).rest = trimStart rest ∧
      (Written.read cs₀).term? = some (if sign = some '-' then t.neg else t) := by
  have hmul : ∀ k : Float, k.isFinite → (if sign = some '-' then -1 else 1 : Float) * k =
      if sign = some '-' then -k else k := by
    intro k hk
    split
    · exact Double.neg_one_mul hk
    · exact Double.one_mul hk
  cases h with
  | @column num name k hk hn =>
    obtain ⟨d, rfl, hd⟩ := hk.exists_read
    have hread := hd (' ' :: (name ++ rest)) fun c hc => (Option.some.inj hc).symm
    rw [List.append_assoc, List.cons_append] at hcs
    simp only [Written.read, hsign, hcs, hread, trimStart_space, hn.skip,
      hn.readName?_append hrest.break, Written.term?, true_and]
    refine (congrArg (fun y => some (Term.column _ y)) (hmul _ hk.finite)).trans ?_
    split <;> rfl
  | unit hn =>
    have hread : Decimal.read? (cs ++ rest) = none := by
      obtain ⟨hc, -⟩ := hn
      obtain ⟨-, hdigit, hpoint, -⟩ := not_other_of_isNameStart hc
      exact read?_of_head fun d hd => Option.some.inj hd ▸ ⟨hdigit, hpoint⟩
    simp only [Written.read, hsign, hcs, hread, hn.skip, hn.readName?_append hrest.break,
      Written.term?, true_and]
    refine (congrArg (fun y => some (Term.column _ y)) (hmul 1 (by decide))).trans ?_
    split <;> rfl
  | constant hk =>
    obtain ⟨d, rfl, hd⟩ := hk.exists_read
    have hplus := hrest.head?_trimStart
    have htimes : skipTimes (trimStart rest) = trimStart rest :=
      skipTimes_of_head fun c hc => hplus c hc ▸ by decide
    have htrim : trimStart (trimStart rest) = trimStart rest :=
      trimStart_of_head fun c hc => hplus c hc ▸ by decide
    have hname : readName? (trimStart rest) = none :=
      readName?_of_head fun c hc => hplus c hc ▸ by decide
    simp only [Written.read, hsign, hcs, hd rest hrest.break, htimes, htrim, hname, Written.term?,
      true_and]
    refine (congrArg (fun y => some (Term.constant y)) (hmul _ hk.finite)).trans ?_
    split <;> rfl

/-! ## Sums -/

/-- The terms after the first, each with a plus before it. -/
def sumTail (css : List (List Char)) : List Char :=
  css.flatMap fun cs => ' ' :: '+' :: ' ' :: cs

theorem writeSum_cons (cs : List Char) (css : List (List Char)) :
    Problem.writeSum (cs :: css) = cs ++ sumTail css := by
  induction css generalizing cs with
  | nil => exact (List.append_nil cs).symm
  | cons cs' css ih =>
    have hjoin : Problem.writeSum (cs :: cs' :: css) =
        cs ++ [' ', '+', ' '] ++ Problem.writeSum (cs' :: css) := rfl
    rw [hjoin, ih, sumTail, sumTail, List.flatMap_cons]
    simp

theorem sumBreak_sumTail (css : List (List Char)) : SumBreak (sumTail css) := by
  cases css with
  | nil => exact .inl rfl
  | cons cs css => exact .inr ⟨cs ++ sumTail css, rfl⟩

/-- What follows a term starts with a plus, behind a blank. -/
theorem trimStart_sumTail_cons (cs : List Char) (css : List (List Char)) :
    trimStart (sumTail (cs :: css)) = '+' :: ' ' :: (cs ++ sumTail css) :=
  rfl

/-- A written term starts with neither a sign nor a blank. -/
theorem Writes.head {cs : List Char} {t : Term Float} (h : Writes cs t) :
    ∃ c rest, cs = c :: rest ∧ ¬ isBlank c ∧ c ≠ '+' ∧ c ≠ '-' := by
  have hnumber : ∀ {cs : List Char} {k : Float} (tail : List Char), Double.TextOf cs k →
      ∃ c rest, cs ++ tail = c :: rest ∧ ¬ isBlank c ∧ c ≠ '+' ∧ c ≠ '-' := by
    intro cs k tail hk
    obtain ⟨c, rest, rfl, hc⟩ := hk.positional.head_isDigit
    obtain ⟨hblank, -, hplus, hminus⟩ := not_other_of_isDigit hc
    exact ⟨c, rest ++ tail, rfl, hblank, hplus, hminus⟩
  cases h with
  | column hk hn => exact hnumber _ hk
  | unit hn =>
    obtain ⟨hc, -⟩ := hn
    obtain ⟨hblank, -, -, -, hplus, hminus⟩ := not_other_of_isNameStart hc
    exact ⟨_, _, rfl, hblank, hplus, hminus⟩
  | constant hk => simpa using hnumber [] hk

theorem WritesSigned.ne_nil {cs : List Char} {t : Term Float} (h : WritesSigned cs t) :
    cs ≠ [] := by
  cases h with
  | plus h =>
    obtain ⟨c, rest, rfl, -⟩ := h.head
    exact List.cons_ne_nil _ _
  | minus h => exact List.cons_ne_nil _ _

/-- One round cuts off a term. -/
theorem readTerms_succ {α : Type} [Scalar α] [Numeral α] {cs : List Char} {first : Bool}
    {t : Term α} (hne : cs ≠ []) (hsign : ((Written.read cs).sign.isNone && !first) = false)
    (hterm : (Written.read cs).term? = some t) (rounds : Nat) :
    readTerms (rounds + 1) first cs =
      (t :: ·) <$> readTerms rounds false (Written.read cs).rest := by
  obtain ⟨c, cs, rfl⟩ := List.exists_cons_of_ne_nil hne
  simp only [readTerms, hsign, hterm, Bool.false_eq_true, ↓reduceIte]
  cases (readTerms rounds false (Written.read (c :: cs)).rest :
    Except (ListingError α) (List (Term α))) <;> rfl

/-- Rounds cut terms off the front, and what follows them decides. -/
theorem readTerms_sumTail {css : List (List Char)} {ts : List (Term Float)}
    (h : List.Forall₂ Writes css ts) (more : List (List Char)) (rounds : Nat) :
    readTerms (rounds + css.length) false (trimStart (sumTail (css ++ more))) =
      (ts ++ ·) <$> readTerms rounds false (trimStart (sumTail more)) := by
  induction h with
  | nil => exact (id_map _).symm
  | @cons cs t css ts hcs _ ih =>
    obtain ⟨c, rest, rfl, hblank, -, -⟩ := hcs.head
    have htrim : trimStart (' ' :: (c :: rest ++ sumTail (css ++ more))) =
        c :: rest ++ sumTail (css ++ more) := trimStart_cons hblank _
    have hplus : readSign ('+' :: ' ' :: (c :: rest ++ sumTail (css ++ more))) =
        (some '+', ' ' :: (c :: rest ++ sumTail (css ++ more))) := rfl
    obtain ⟨hsign, hrest, hterm⟩ := hcs.read (sumBreak_sumTail _) hplus htrim
    rw [List.cons_append, trimStart_sumTail_cons, List.length_cons, ← Nat.add_assoc,
      readTerms_succ (List.cons_ne_nil _ _) (by rw [hsign]; rfl) hterm, hrest, ih, Functor.map_map]
    rfl

/-- Reading a sum reads its terms one after the other, and goes on with what follows. -/
theorem readTerms_writeSum {cs : List Char} {t : Term Float} {css : List (List Char)}
    {ts : List (Term Float)} (hcs : WritesSigned cs t) (hcss : List.Forall₂ Writes css ts)
    (more : List (List Char)) (rounds : Nat) :
    readTerms (rounds + css.length + 1) true (Problem.writeSum (cs :: (css ++ more))) =
      (t :: ts ++ ·) <$> readTerms rounds false (trimStart (sumTail more)) := by
  have hround : (Written.read (cs ++ sumTail (css ++ more))).rest =
      trimStart (sumTail (css ++ more)) ∧
        (Written.read (cs ++ sumTail (css ++ more))).term? = some t := by
    cases hcs with
    | plus hcs =>
      obtain ⟨c, rest, rfl, hblank, hplus, hminus⟩ := hcs.head
      have hnone : readSign (c :: rest ++ sumTail (css ++ more)) =
          (none, c :: rest ++ sumTail (css ++ more)) :=
        readSign_of_head fun d hd => Option.some.inj hd ▸ ⟨hplus, hminus⟩
      exact (hcs.read (sumBreak_sumTail _) hnone (trimStart_cons hblank _)).2
    | minus hcs =>
      obtain ⟨c, rest, rfl, hblank, -, -⟩ := hcs.head
      have hminus : readSign ('-' :: c :: rest ++ sumTail (css ++ more)) =
          (some '-', c :: rest ++ sumTail (css ++ more)) := rfl
      exact (hcs.read (sumBreak_sumTail _) hminus (trimStart_cons hblank _)).2
  rw [writeSum_cons, readTerms_succ (by simp [hcs.ne_nil]) (Bool.and_false _) hround.2, hround.1,
    readTerms_sumTail hcss, Functor.map_map]
  rfl

/-- The text is a sum of terms, the first of which may have a minus. -/
inductive SumOf : List Char → List (Term Float) → Prop
  | nil : SumOf [] []
  | cons {cs : List Char} {t : Term Float} {css : List (List Char)} {ts : List (Term Float)}
      (hcs : WritesSigned cs t) (hcss : List.Forall₂ Writes css ts) :
      SumOf (Problem.writeSum (cs :: css)) (t :: ts)

theorem SumOf.sum {css : List (List Char)} {ts : List (Term Float)}
    (h : List.Forall₂ Writes css ts) : SumOf (Problem.writeSum css) ts := by
  cases h with
  | nil => exact .nil
  | cons hcs hcss => exact .cons (.plus hcs) hcss

/-- A negative number alone is a sum: its sign is the first one. -/
theorem SumOf.negative {cs : List Char} {k : Float} (hk : Double.TextOf cs k) :
    SumOf ('-' :: cs) [.constant (-k)] :=
  .cons (.minus (.constant hk)) .nil

/-- A sum has at least as many characters as terms, so there are rounds enough to read it. -/
theorem length_le_writeSum {cs : List Char} (hcs : cs ≠ []) (css : List (List Char)) :
    css.length + 1 ≤ (Problem.writeSum (cs :: css)).length := by
  have htail : css.length ≤ (sumTail css).length := by
    induction css with
    | nil => exact Nat.le_refl 0
    | cons cs css ih =>
      simp only [sumTail, List.flatMap_cons, List.length_append, List.length_cons] at ih ⊢
      omega
  have := List.length_pos_of_ne_nil hcs
  rw [writeSum_cons, List.length_append]
  omega

/-- A written sum is read back. -/
theorem SumOf.readTerms_eq {cs : List Char} {ts : List (Term Float)} (h : SumOf cs ts) :
    readTerms cs.length true cs = .ok ts := by
  cases h with
  | nil => rfl
  | @cons cs t css ts hcs hcss =>
    obtain ⟨rounds, hrounds⟩ := Nat.exists_eq_add_of_le' (length_le_writeSum hcs.ne_nil css)
    have hread := readTerms_writeSum hcs hcss [] rounds
    rw [List.append_nil] at hread
    rw [hrounds, ← Nat.add_assoc, hread]
    cases rounds <;> exact congrArg Except.ok (List.append_nil _)

/-- A minus cannot stand behind the plus of a sum. -/
theorem readTerms_minus {cs : List Char} {t : Term Float} {css : List (List Char)}
    {ts : List (Term Float)} (hcs : WritesSigned cs t) (hcss : List.Forall₂ Writes css ts)
    (text : List Char) (more : List (List Char)) :
    let sum := Problem.writeSum (cs :: (css ++ ('-' :: text) :: more))
    (readTerms sum.length true sum : Except (ListingError Float) (List (Term Float))) =
      .error (.badTerm "") := by
  intro sum
  have hle : (css ++ ('-' :: text) :: more).length + 1 ≤ sum.length :=
    length_le_writeSum hcs.ne_nil _
  rw [List.length_append, List.length_cons] at hle
  obtain ⟨rounds, hrounds⟩ : ∃ rounds, sum.length = rounds + 1 + css.length + 1 :=
    ⟨sum.length - (css.length + 2), by omega⟩
  have hread := readTerms_writeSum hcs hcss (('-' :: text) :: more) (rounds + 1)
  rw [hrounds, hread, trimStart_sumTail_cons]
  rfl

/-! ## Sides -/

/-- The characters of sums. -/
def isTermChar (c : Char) : Bool :=
  isNameChar c || c == '-' || c == '+' || c == ' '

/-- A text such as a sum: it has the characters of sums, and no blanks at its ends. -/
structure Inline (cs : List Char) : Prop where
  ne_nil : cs ≠ []
  solid : Solid cs
  chars : ∀ c ∈ cs, isTermChar c

theorem inline_of_chars {cs : List Char} (hne : cs ≠ []) (h : ∀ c ∈ cs, isNameChar c ∨ c = '-') :
    Inline cs := by
  have hblank : ∀ c ∈ cs, ¬ isBlank c := fun c hc =>
    (h c hc).elim not_isBlank_of_isNameChar fun h => h ▸ by decide
  refine ⟨hne, ⟨fun c hc => hblank c (List.mem_of_mem_head? hc),
    fun c hc => hblank c (List.mem_of_mem_getLast? hc)⟩, fun c hc => ?_⟩
  rcases h c hc with h | rfl
  · simp [isTermChar, h]
  · rfl

theorem Inline.append {cs cs' sep : List Char} (h : Inline cs) (h' : Inline cs')
    (hsep : ∀ c ∈ sep, isTermChar c) : Inline (cs ++ sep ++ cs') := by
  refine ⟨List.append_ne_nil_of_right_ne_nil _ h'.ne_nil, ⟨fun c hc => ?_, fun c hc => ?_⟩,
    fun c hc => ?_⟩
  · rw [List.append_assoc, List.head?_append_of_ne_nil _ h.ne_nil] at hc
    exact h.solid.head c hc
  · rw [List.getLast?_append_of_ne_nil _ h'.ne_nil] at hc
    exact h'.solid.last c hc
  · rcases List.mem_append.1 hc with hc | hc
    · exact (List.mem_append.1 hc).elim (h.chars c) (hsep c)
    · exact h'.chars c hc

theorem IsName.not_isBlank {name : List Char} (h : IsName name) : ∀ c ∈ name, ¬ isBlank c :=
  fun c hc => (h.mem c hc).elim not_isBlank_of_isNameChar fun h => h ▸ by decide

theorem IsName.inline {name : List Char} (h : IsName name) : Inline name :=
  inline_of_chars (by obtain ⟨-, -⟩ := h; exact List.cons_ne_nil _ _) h.mem

theorem isNameChar_of_positional {cs : List Char} (h : Decimal.Positional cs) :
    ∀ c ∈ cs, isNameChar c := by
  intro c hc
  rcases h.mem hc with h | rfl
  · simp [isNameChar, Char.isAlphanum, h]
  · rfl

theorem inline_of_positional {cs : List Char} (h : Decimal.Positional cs) : Inline cs :=
  inline_of_chars (by obtain ⟨c, rest, rfl, -⟩ := h.head_isDigit; exact List.cons_ne_nil _ _)
    fun c hc => .inl (isNameChar_of_positional h c hc)

theorem inline_neg_of_positional {cs : List Char} (h : Decimal.Positional cs) :
    Inline ('-' :: cs) :=
  inline_of_chars (List.cons_ne_nil _ _) fun c hc => (List.mem_cons.1 hc).symm.imp_left
    (isNameChar_of_positional h c)

/-- Sums of inline texts are inline. -/
theorem inline_writeSum {css : List (List Char)} (hne : css ≠ []) (h : ∀ cs ∈ css, Inline cs) :
    Inline (Problem.writeSum css) := by
  induction css with
  | nil => exact absurd rfl hne
  | cons cs css ih =>
    rw [List.forall_mem_cons] at h
    have hplus : ∀ c ∈ [' ', '+', ' '], isTermChar c := by simp [isTermChar]
    cases css with
    | nil => exact h.1
    | cons cs' css => exact h.1.append (ih (List.cons_ne_nil _ _) h.2) hplus

theorem Writes.inline {cs : List Char} {t : Term Float} (h : Writes cs t) : Inline cs := by
  cases h with
  | column hk hn =>
    rw [List.append_cons]
    exact (inline_of_positional hk.positional).append hn.inline (by simp [isTermChar])
  | unit hn => exact hn.inline
  | constant hk => exact inline_of_positional hk.positional

theorem inline_of_writes {css : List (List Char)} {ts : List (Term Float)}
    (h : List.Forall₂ Writes css ts) : ∀ cs ∈ css, Inline cs := by
  induction h with
  | nil => simp
  | cons hcs _ ih => exact List.forall_mem_cons.2 ⟨hcs.inline, ih⟩

theorem WritesSigned.inline {cs : List Char} {t : Term Float} (h : WritesSigned cs t) :
    Inline cs := by
  cases h with
  | plus h => exact h.inline
  | minus h =>
    have hminus : Inline ['-'] := inline_of_chars (List.cons_ne_nil _ _) (by simp)
    have hnone : ∀ c ∈ ([] : List Char), isTermChar c := by simp
    exact hminus.append h.inline hnone

theorem SumOf.solid {cs : List Char} {ts : List (Term Float)} (h : SumOf cs ts) : Solid cs := by
  cases h with
  | nil => exact ⟨by simp, by simp⟩
  | cons hcs hcss =>
    refine (inline_writeSum (List.cons_ne_nil _ _) ?_).solid
    exact List.forall_mem_cons.2 ⟨hcs.inline, inline_of_writes hcss⟩

/-- A sum with blanks around it is read as a side. -/
theorem SumOf.read_eq {cs pre post : List Char} {ts : List (Term Float)} (h : SumOf cs ts)
    (hpre : ∀ c ∈ pre, isBlank c) (hpost : ∀ c ∈ post, isBlank c) :
    Side.read (pre ++ cs ++ post) = .ok (Side.ofTerms ts) := by
  simp only [Side.read, h.solid.trim_eq hpre hpost, h.readTerms_eq]

/-- A side with a minus behind a plus is not read. -/
theorem Side.read_minus {cs : List Char} {t : Term Float} {css : List (List Char)}
    {ts : List (Term Float)} (hcs : WritesSigned cs t) (hcss : List.Forall₂ Writes css ts)
    {text pre post : List Char} {more : List (List Char)}
    (hsum : Inline (Problem.writeSum (cs :: (css ++ ('-' :: text) :: more))))
    (hpre : ∀ c ∈ pre, isBlank c) (hpost : ∀ c ∈ post, isBlank c) :
    (Side.read (pre ++ Problem.writeSum (cs :: (css ++ ('-' :: text) :: more)) ++ post) :
      Except (ListingError Float) (Side Float)) = .error (.badTerm "") := by
  simp only [Side.read, hsum.solid.trim_eq hpre hpost, readTerms_minus hcs hcss text more]

/-- Terms with a column do not change the constant of a side. -/
theorem ofTerms_columns (ts : List (String × Float)) (tail : List (Term Float)) :
    Side.ofTerms (ts.map (fun t => .column t.1 t.2) ++ tail) =
      ⟨ts ++ (Side.ofTerms tail).terms, (Side.ofTerms tail).constant⟩ := by
  induction ts with
  | nil => rfl
  | cons t ts ih =>
    have hcons : ∀ rest : List (Term Float), Side.ofTerms (.column t.1 t.2 :: rest) =
        ⟨t :: (Side.ofTerms rest).terms, (Side.ofTerms rest).constant⟩ := fun _ => rfl
    rw [List.map_cons, List.cons_append, hcons, ih]
    rfl

end Listing

end WorstCase
