import WorstCase.Proofs.Listing.Parsed
import WorstCase.Proofs.Listing.Pattern

/-!
# The pattern of a term

Every part of a term is optional, so the pattern of terms (`Pattern.term`) matches at the start of
every text, if only nothing. Reading finds what the pattern finds (`Pattern.exists_first_term`). As
all that comes after a part is optional, a part is matched as if it stood alone. Only inside a
number a choice is taken back: digits that no fraction follows are all taken as those before the
point, and the last one has to be given back, because a digit has to stand after the point or
without it.
-/

namespace WorstCase

namespace Decimal

/-! ## Numbers by their parts -/

/-- No fraction starts here. -/
def NoFraction (cs : List Char) : Prop :=
  ∀ rest, cs = '.' :: rest → rest.takeWhile Char.isDigit = []

/-- No digit stands here. -/
def NoDigit (cs : List Char) : Prop :=
  ∀ c ∈ cs.head?, ¬ c.isDigit

theorem noDigit_dropWhile (cs : List Char) : NoDigit (cs.dropWhile Char.isDigit) := by
  intro c hc hdigit
  have hnot := List.head?_dropWhile_not Char.isDigit cs
  rw [hc] at hnot
  exact Bool.false_ne_true (hnot.symm.trans hdigit)

theorem takeWhile_of_noDigit {cs : List Char} (h : NoDigit cs) :
    cs.takeWhile Char.isDigit = [] := by
  cases cs with
  | nil => rfl
  | cons c cs => exact List.takeWhile_cons_of_neg (h c rfl)

/-- What can stand at the start of a text: digits without a fraction, a fraction with any digits
before the point, or no number. -/
inductive Start : List Char → Prop
  | whole {ds rest : List Char} (hne : ds ≠ []) (hds : ∀ c ∈ ds, c.isDigit) (hrest : NoDigit rest)
      (hfraction : NoFraction rest) : Start (ds ++ rest)
  | fraction {ds fs rest : List Char} (hds : ∀ c ∈ ds, c.isDigit) (hne : fs ≠ [])
      (hfs : ∀ c ∈ fs, c.isDigit) (hrest : NoDigit rest) : Start (ds ++ '.' :: (fs ++ rest))
  | other {cs : List Char} (hrest : NoDigit cs) (hfraction : NoFraction cs) : Start cs

/-- Every text starts in one of the three ways. -/
theorem start (cs : List Char) : Start cs := by
  have hds : ∀ c ∈ cs.takeWhile Char.isDigit, c.isDigit := fun c hc => List.mem_takeWhile_imp hc
  have hrest := noDigit_dropWhile cs
  have hcs := List.takeWhile_append_dropWhile (p := Char.isDigit) (l := cs)
  by_cases hfraction : NoFraction (cs.dropWhile Char.isDigit)
  · by_cases hne : cs.takeWhile Char.isDigit = []
    · rw [hne, List.nil_append] at hcs
      rw [hcs] at hrest hfraction
      exact .other hrest hfraction
    · exact hcs ▸ .whole hne hds hrest hfraction
  · obtain ⟨t, ht, hne⟩ :
        ∃ t, cs.dropWhile Char.isDigit = '.' :: t ∧ t.takeWhile Char.isDigit ≠ [] := by
      simpa [NoFraction] using hfraction
    have hsplit := List.takeWhile_append_dropWhile (p := Char.isDigit) (l := t)
    rw [ht, ← hsplit] at hcs
    exact hcs ▸ .fraction hds hne (fun c hc => List.mem_takeWhile_imp hc) (noDigit_dropWhile t)

/-- Digits without a fraction are read as a whole number, with its exponent. -/
theorem read?_whole {ds rest : List Char} (hne : ds ≠ []) (hds : ∀ c ∈ ds, c.isDigit)
    (hrest : NoDigit rest) (hfraction : NoFraction rest) : read? (ds ++ rest) =
      some (⟨digitsValue ds, (readExponent rest).1⟩, (readExponent rest).2) := by
  simp only [read?, takeWhile_isDigit hds hrest, dropWhile_isDigit hds hrest]
  split
  · exact absurd rfl hne
  · rfl
  · next heq =>
    split at heq
    · rw [hfraction _ rfl] at heq
      cases heq
    · cases heq

/-- The digits of a fraction count as tenths, with the exponent. -/
theorem read?_fraction {ds fs rest : List Char} (hds : ∀ c ∈ ds, c.isDigit) (hne : fs ≠ [])
    (hfs : ∀ c ∈ fs, c.isDigit) (hrest : NoDigit rest) : read? (ds ++ '.' :: (fs ++ rest)) =
      some (⟨digitsValue (ds ++ fs), (readExponent rest).1 - fs.length⟩,
        (readExponent rest).2) := by
  have hpoint : NoDigit ('.' :: (fs ++ rest)) := fun c hc => Option.some.inj hc ▸ by decide
  have hdrop : ('.' :: (fs ++ rest)).drop (fs.length + 1) = rest := by
    rw [List.drop_succ_cons, List.drop_left]
  obtain ⟨f, fs, rfl⟩ := List.exists_cons_of_ne_nil hne
  simp only [read?, takeWhile_isDigit hds hpoint, dropWhile_isDigit hds hpoint,
    takeWhile_isDigit hfs hrest, hdrop]

/-- Nothing else is read as a number. -/
theorem read?_other {cs : List Char} (hrest : NoDigit cs) (hfraction : NoFraction cs) :
    read? cs = none := by
  have hdrop : cs.dropWhile Char.isDigit = cs := by
    cases cs with
    | nil => rfl
    | cons c cs => exact List.dropWhile_cons_of_neg (hrest c rfl)
  simp only [read?, takeWhile_of_noDigit hrest, hdrop]
  split
  · rfl
  · next hnil => exact absurd rfl hnil
  · next heq =>
    split at heq
    · rw [hfraction _ rfl] at heq
      cases heq
    · cases heq

end Decimal

namespace Listing

open Text Decimal

namespace Pattern

/-! ## Numbers -/

def sign : Pattern :=
  char fun c => c == '+' || c == '-'

/-- Digits, of which the last may stand behind a point. -/
def mantissa : Pattern :=
  (many (char Char.isDigit)).seq ((optional (char (· == '.'))).seq (plus Char.isDigit))

def exponent : Pattern :=
  (char fun c => c == 'e' || c == 'E').seq ((optional sign).seq (plus Char.isDigit))

def number : Pattern :=
  mantissa.seq (optional exponent)

theorem candidates_many_char_of_not {test : Char → Bool} {cs : List Char}
    (h : ∀ c ∈ cs.head?, ¬ test c) : (many (char test)).candidates cs = [.nothing cs] := by
  have hnone : (char test).candidates cs = [] := fails_char h
  rw [candidates_many, hnone]
  rfl

/-- The longest run comes first among the candidates, and one shorter each time after it. -/
theorem candidates_many_char {test : Char → Bool} {c : Char} (h : test c) (cs : List Char) :
    (many (char test)).candidates (c :: cs) =
      ((many (char test)).candidates cs).map (Found.append ⟨[c], [], cs⟩) ++
        [.nothing (c :: cs)] := by
  have hone : (char test).candidates (c :: cs) = [⟨[c], [], cs⟩] := if_pos h
  rw [candidates_many, hone]
  simp

/-- A run of digits is preferred whole, then without its last digit. -/
theorem candidates_digits {ds rest : List Char} {d : Char} (hds : ∀ c ∈ ds, c.isDigit)
    (hd : d.isDigit) (hrest : NoDigit rest) : ∃ others,
    (many (char Char.isDigit)).candidates (ds ++ d :: rest) =
      ⟨ds ++ [d], [], rest⟩ :: ⟨ds, [], d :: rest⟩ :: others := by
  induction ds with
  | nil =>
    rw [List.nil_append, candidates_many_char hd, candidates_many_char_of_not hrest]
    exact ⟨[], rfl⟩
  | cons c ds ih =>
    rw [List.forall_mem_cons] at hds
    obtain ⟨others, ih⟩ := ih hds.2
    rw [List.cons_append, candidates_many_char hds.1, ih]
    exact ⟨_, rfl⟩

/-- Where no digit stands and no fraction starts, there is nothing to stand behind the digits. -/
theorem fails_lastDigits {cs : List Char} (hrest : NoDigit cs) (hfraction : NoFraction cs) :
    ((optional (char (· == '.'))).seq (plus Char.isDigit)).Fails cs := by
  refine fails_seq (forall_mem_optional (forall_mem_char fun c rest hcs hc => ?_) ?_)
  · rw [beq_iff_eq.1 hc] at hcs
    exact fails_plus (hfraction rest hcs)
  · exact fails_plus (takeWhile_of_noDigit hrest)

/-- Without a fraction, the pattern finds all digits, the last one where a fraction could stand. -/
theorem finds_mantissa_whole {ds rest : List Char} (hne : ds ≠ []) (hds : ∀ c ∈ ds, c.isDigit)
    (hrest : NoDigit rest) (hfraction : NoFraction rest) :
    mantissa.Finds (ds ++ rest) ⟨ds, [], rest⟩ := by
  obtain ⟨front, last, rfl⟩ : ∃ front last, ds = front ++ [last] :=
    ⟨ds.dropLast, ds.getLast hne, (List.dropLast_append_getLast hne).symm⟩
  obtain ⟨hfront, hlast⟩ := List.forall_mem_append.1 hds
  have hlast : last.isDigit := hlast last (List.mem_singleton_self last)
  have hpoint : (char (· == '.')).Fails (last :: rest) := fails_char fun c hc hpoint => by
    obtain rfl := Option.some.inj hc
    rw [beq_iff_eq.1 hpoint] at hlast
    exact absurd hlast (by decide)
  have hrun : Found.run Char.isDigit (last :: rest) = ⟨[last], [], rest⟩ := by
    have hlast : ∀ c ∈ [last], c.isDigit := List.forall_mem_singleton.2 hlast
    rw [← List.singleton_append, Found.run, takeWhile_isDigit hlast hrest,
      dropWhile_isDigit hlast hrest]
  have htail : ((optional (char (· == '.'))).seq (plus Char.isDigit)).Finds (last :: rest)
      ⟨[last], [], rest⟩ := by
    have hplus : (plus Char.isDigit).Finds (last :: rest) (.run Char.isDigit (last :: rest)) :=
      finds_plus (by rw [List.takeWhile_cons_of_pos hlast]; exact List.cons_ne_nil _ _)
    exact hrun ▸ hpoint.optional.seq hplus
  -- the whole run is tried first, and then given back up to its last digit
  obtain ⟨others, hdigits⟩ := candidates_digits hfront hlast hrest
  obtain ⟨later, htail⟩ := htail
  rw [List.append_assoc, List.singleton_append, mantissa, Finds, candidates, hdigits,
    List.flatMap_cons, fails_lastDigits hrest hfraction, List.map_nil, List.nil_append,
    List.flatMap_cons, htail]
  exact ⟨_, rfl⟩

/-- With a fraction, the pattern finds the digits on both sides of the point. -/
theorem finds_mantissa_fraction {ds fs rest : List Char} (hds : ∀ c ∈ ds, c.isDigit) (hne : fs ≠ [])
    (hfs : ∀ c ∈ fs, c.isDigit) (hrest : NoDigit rest) :
    mantissa.Finds (ds ++ '.' :: (fs ++ rest)) ⟨ds ++ '.' :: fs, [], rest⟩ := by
  have hpoint : NoDigit ('.' :: (fs ++ rest)) := fun c hc => Option.some.inj hc ▸ by decide
  have hwhole := finds_run Char.isDigit (ds ++ '.' :: (fs ++ rest))
  have hplus : (plus Char.isDigit).Finds (fs ++ rest) (.run Char.isDigit (fs ++ rest)) :=
    finds_plus (by rwa [takeWhile_isDigit hfs hrest])
  rw [Found.run, takeWhile_isDigit hds hpoint, dropWhile_isDigit hds hpoint] at hwhole
  rw [Found.run, takeWhile_isDigit hfs hrest, dropWhile_isDigit hfs hrest] at hplus
  have hone : (char (· == '.')).Finds ('.' :: (fs ++ rest)) ⟨['.'], [], fs ++ rest⟩ :=
    finds_char rfl (fs ++ rest)
  exact hwhole.seq (hone.optional.seq hplus)

theorem fails_mantissa {cs : List Char} (hrest : NoDigit cs) (hfraction : NoFraction cs) :
    mantissa.Fails cs := by
  refine fails_seq fun f hf => ?_
  rw [candidates_many_char_of_not hrest] at hf
  rw [List.mem_singleton.1 hf]
  exact fails_lastDigits hrest hfraction

/-! ## Signs and exponents -/

theorem isSign_iff {c : Char} : (c == '+' || c == '-') = true ↔ c = '+' ∨ c = '-' := by
  rw [Bool.or_eq_true, beq_iff_eq, beq_iff_eq]

theorem readSign_cases (cs : List Char) :
    (∃ c rest, cs = c :: rest ∧ (c = '+' ∨ c = '-') ∧ readSign cs = (some c, rest)) ∨
      (∀ c ∈ cs.head?, c ≠ '+' ∧ c ≠ '-') ∧ readSign cs = (none, cs) := by
  cases cs with
  | nil => exact .inr ⟨fun c hc => (by cases hc), rfl⟩
  | cons c cs =>
    by_cases hplus : c = '+'
    · exact .inl ⟨c, cs, rfl, .inl hplus, by rw [hplus]; rfl⟩
    · by_cases hminus : c = '-'
      · exact .inl ⟨c, cs, rfl, .inr hminus, by rw [hminus]; rfl⟩
      · have hnot : ∀ d ∈ (c :: cs).head?, d ≠ '+' ∧ d ≠ '-' := fun d hd =>
          Option.some.inj hd ▸ ⟨hplus, hminus⟩
        exact .inr ⟨hnot, readSign_of_head hnot⟩

theorem sign_cases (cs : List Char) :
    (∃ c rest, readSign cs = (some c, rest) ∧ sign.Finds cs ⟨[c], [], rest⟩) ∨
      readSign cs = (none, cs) ∧ sign.Fails cs := by
  rcases readSign_cases cs with ⟨c, rest, rfl, hc, hread⟩ | ⟨hnot, hread⟩
  · exact .inl ⟨c, rest, hread, finds_char (isSign_iff.2 hc) rest⟩
  · exact .inr ⟨hread, fails_char fun c hc hsign =>
      (isSign_iff.1 hsign).elim (hnot c hc).1 (hnot c hc).2⟩

theorem finds_sign (cs : List Char) :
    (optional sign).Finds cs ⟨(readSign cs).1.toList, [], (readSign cs).2⟩ := by
  rcases sign_cases cs with ⟨c, rest, hread, hfinds⟩ | ⟨hread, hfails⟩
  · exact hread ▸ hfinds.optional
  · exact hread ▸ hfails.optional

/-- A sign does not stand where a digit has to. -/
theorem noDigit_of_sign {c : Char} (h : c = '+' ∨ c = '-') (cs : List Char) :
    NoDigit (c :: cs) := by
  intro d hd
  rw [← Option.some.inj hd]
  rcases h with rfl | rfl <;> decide

theorem fails_signed {cs : List Char} (h : (readSign cs).2.takeWhile Char.isDigit = []) :
    ((optional sign).seq (plus Char.isDigit)).Fails cs := by
  rcases readSign_cases cs with ⟨c, rest, rfl, hc, hread⟩ | ⟨hnot, hread⟩
  · rw [hread] at h
    refine fails_seq (forall_mem_optional (forall_mem_char fun d rest' hcs _ => ?_) ?_)
    · rw [← (List.cons.inj hcs).2]
      exact fails_plus h
    · exact fails_plus (takeWhile_of_noDigit (noDigit_of_sign hc rest))
  · rw [hread] at h
    refine fails_seq (forall_mem_optional (forall_mem_char fun c rest hcs hc => ?_) (fails_plus h))
    subst hcs
    exact absurd (isSign_iff.1 hc) (not_or.2 (hnot c rfl))

/-- An exponent needs a digit. A letter without one is left to what follows. -/
theorem readExponent_cons {e : Char} (he : e = 'e' ∨ e = 'E') (cs : List Char) :
    readExponent (e :: cs) =
      if (readSign cs).2.takeWhile Char.isDigit = [] then (0, e :: cs)
      else (if (readSign cs).1 = some '-'
          then -(digitsValue ((readSign cs).2.takeWhile Char.isDigit) : Int)
          else digitsValue ((readSign cs).2.takeWhile Char.isDigit),
        (readSign cs).2.dropWhile Char.isDigit) := by
  rcases readSign_cases cs with ⟨c, rest, rfl, rfl | rfl, hread⟩ | ⟨hnot, hread⟩
  · simp only [hread, readExponent, if_pos he]
    cases rest.takeWhile Char.isDigit <;> rfl
  · simp only [hread, readExponent, if_pos he]
    cases rest.takeWhile Char.isDigit <;> rfl
  · have hplus : ∀ t, cs = '+' :: t → False := fun t ht => (hnot '+' (ht ▸ rfl)).1 rfl
    have hminus : ∀ t, cs = '-' :: t → False := fun t ht => (hnot '-' (ht ▸ rfl)).2 rfl
    simp only [hread, readExponent, if_pos he]
    cases cs.takeWhile Char.isDigit <;> simp

/-- Without a letter that a digit follows, a sign apart, there is no exponent. -/
theorem readExponent_of_forall {cs : List Char} (h : ∀ e t, cs = e :: t → e = 'e' ∨ e = 'E' →
    (readSign t).2.takeWhile Char.isDigit = []) : readExponent cs = (0, cs) := by
  cases cs with
  | nil => rfl
  | cons e t =>
    by_cases he : e = 'e' ∨ e = 'E'
    · rw [readExponent_cons he, if_pos (h e t rfl he)]
    · exact if_neg he

/-- A sign is read the same before other digits. -/
theorem readSign_toList_append (cs : List Char) {ds : List Char} (hds : ∀ c ∈ ds, c.isDigit) :
    readSign ((readSign cs).1.toList ++ ds) = ((readSign cs).1, ds) := by
  rcases readSign_cases cs with ⟨c, rest, rfl, rfl | rfl, hread⟩ | ⟨-, hread⟩
  · rw [hread]
    rfl
  · rw [hread]
    rfl
  · rw [hread]
    refine readSign_of_head fun c hc => ?_
    have hdigit := hds c (List.mem_of_mem_head? hc)
    constructor <;> rintro rfl <;> exact absurd hdigit (by decide)

theorem isExponentLetter_iff {c : Char} : (c == 'e' || c == 'E') = true ↔ c = 'e' ∨ c = 'E' := by
  rw [Bool.or_eq_true, beq_iff_eq, beq_iff_eq]

/-- What is read of an exponent is what the pattern finds, and reads the same on its own. It starts
with neither a digit nor a point. -/
theorem exists_finds_exponent (cs : List Char) : ∃ text,
    (optional exponent).Finds cs ⟨text, [], (readExponent cs).2⟩ ∧
      readExponent text = ((readExponent cs).1, []) ∧ NoDigit text ∧ NoFraction text := by
  by_cases h : ∃ e t, cs = e :: t ∧ (e = 'e' ∨ e = 'E') ∧ (readSign t).2.takeWhile Char.isDigit ≠ []
  · obtain ⟨e, t, rfl, he, hne⟩ := h
    have hds : ∀ c ∈ (readSign t).2.takeWhile Char.isDigit, c.isDigit := fun c hc =>
      List.mem_takeWhile_imp hc
    have hletter : (char fun c => c == 'e' || c == 'E').Finds (e :: t) ⟨[e], [], t⟩ :=
      finds_char (isExponentLetter_iff.2 he) t
    refine ⟨e :: ((readSign t).1.toList ++ (readSign t).2.takeWhile Char.isDigit), ?_, ?_, ?_, ?_⟩
    · rw [readExponent_cons he, if_neg hne]
      exact (hletter.seq ((finds_sign t).seq (finds_plus hne))).optional
    · rw [readExponent_cons he, readExponent_cons he, readSign_toList_append t hds, if_neg hne,
        List.takeWhile_eq_self_iff.2 hds, if_neg hne, List.dropWhile_eq_nil_iff.2 hds]
    · intro c hc
      rw [← Option.some.inj hc]
      rcases he with rfl | rfl <;> decide
    · rintro rest hcs
      rw [(List.cons.inj hcs).1] at he
      exact absurd he (by decide)
  · have hnone : ∀ e t, cs = e :: t → e = 'e' ∨ e = 'E' →
        (readSign t).2.takeWhile Char.isDigit = [] := fun e t hcs he =>
      by_contra fun hne => h ⟨e, t, hcs, he, hne⟩
    have hfails : exponent.Fails cs := fails_seq (forall_mem_char fun e t hcs he =>
      fails_signed (hnone e t hcs (isExponentLetter_iff.1 he)))
    rw [readExponent_of_forall hnone]
    exact ⟨[], hfails.optional, rfl, fun _ hc => (by cases hc), fun _ hc => (by cases hc)⟩

/-- A number is read where the pattern finds one, and the text of it reads as that number. -/
theorem exists_finds_number {cs rest : List Char} {d : Decimal} (h : read? cs = some (d, rest)) :
    ∃ text, number.Finds cs ⟨text, [], rest⟩ ∧ read? text = some (d, []) := by
  cases start cs with
  | whole hne hds hrest hfraction =>
    rw [read?_whole hne hds hrest hfraction] at h
    obtain ⟨rfl, rfl⟩ := Prod.mk.inj (Option.some.inj h)
    obtain ⟨text, hfinds, hread, hdigit, hpoint⟩ := exists_finds_exponent _
    refine ⟨_, (finds_mantissa_whole hne hds hrest hfraction).seq hfinds, ?_⟩
    exact (read?_whole hne hds hdigit hpoint).trans (by rw [hread])
  | fraction hds hne hfs hrest =>
    rw [read?_fraction hds hne hfs hrest] at h
    obtain ⟨rfl, rfl⟩ := Prod.mk.inj (Option.some.inj h)
    obtain ⟨text, hfinds, hread, hdigit, -⟩ := exists_finds_exponent _
    refine ⟨_, (finds_mantissa_fraction hds hne hfs hrest).seq hfinds, ?_⟩
    rw [List.append_assoc]
    exact (read?_fraction hds hne hfs hdigit).trans (by rw [hread])
  | other hrest hfraction =>
    rw [read?_other hrest hfraction] at h
    cases h

theorem fails_number {cs : List Char} (h : read? cs = none) : number.Fails cs := by
  cases start cs with
  | whole hne hds hrest hfraction =>
    rw [read?_whole hne hds hrest hfraction] at h
    cases h
  | fraction hds hne hfs hrest =>
    rw [read?_fraction hds hne hfs hrest] at h
    cases h
  | other hrest hfraction => exact (fails_mantissa hrest hfraction).seq

/-! ## Names -/

/-- A hyphen inside a name, and the name characters that have to follow it. -/
def hyphenated : Pattern :=
  (char (· == '-')).seq (plus isNameChar)

def nameTail : Pattern :=
  (many (char isNameChar)).seq (many hyphenated)

def name : Pattern :=
  (char isNameStart).seq nameTail

theorem fails_hyphenated {cs : List Char} (h : ∀ t, cs = '-' :: t → t.takeWhile isNameChar = []) :
    hyphenated.Fails cs := by
  refine fails_seq (forall_mem_char fun c t hcs hc => fails_plus (h t ?_))
  rw [hcs, beq_iff_eq.1 hc]

theorem finds_nameTail_nothing {cs : List Char} (hhead : ∀ c ∈ cs.head?, ¬ isNameChar c)
    (h : ∀ t, cs = '-' :: t → t.takeWhile isNameChar = []) : nameTail.Finds cs (.nothing cs) := by
  have hrun := finds_run isNameChar cs
  rw [Found.run_of_head hhead] at hrun
  exact hrun.seq (fails_hyphenated h).many

/-- The pattern finds the rest of a name that is read: hyphens only with a character behind them. -/
theorem finds_nameTail (cs : List Char) :
    nameTail.Finds cs ⟨(readNameTail cs).1, [], (readNameTail cs).2⟩ := by
  fun_induction readNameTail cs with
  | case1 => exact finds_nameTail_nothing (fun _ hc => (by cases hc)) fun _ hcs => (by cases hcs)
  | case2 c cs hc name rest hread ih =>
    -- the characters behind the hyphen go on with those that the shorter text starts with
    obtain ⟨g, hg⟩ := exists_finds_many hyphenated (Found.run isNameChar cs).rest
    have hparts := ((finds_run isNameChar cs).seq hg).unique (hread ▸ ih)
    have hhyphen : (char (· == '-')).Finds ('-' :: c :: cs) ⟨['-'], [], c :: cs⟩ :=
      finds_char rfl (c :: cs)
    have hplus : (plus isNameChar).Finds (c :: cs) (.run isNameChar (c :: cs)) :=
      finds_plus (by rw [List.takeWhile_cons_of_pos hc]; exact List.cons_ne_nil _ _)
    have hnone : ∀ d ∈ ('-' :: c :: cs).head?, ¬ isNameChar d := fun d hd =>
      Option.some.inj hd ▸ by decide
    have hrun := finds_run isNameChar ('-' :: c :: cs)
    rw [Found.run_cons_of_pos hc] at hplus
    rw [Found.run_of_head hnone] at hrun
    have hall := hrun.seq ((hhyphen.seq hplus).many (List.cons_ne_nil _ _) hg)
    rw [Found.append_assoc, Found.append_assoc, hparts] at hall
    exact hall
  | case3 c cs hc =>
    refine finds_nameTail_nothing (fun d hd => ?_) fun t ht => ?_
    · rw [← Option.some.inj hd]
      decide
    · rw [← (List.cons.inj ht).2]
      exact List.takeWhile_cons_of_neg hc
  | case4 c cs _ hc name rest hread ih =>
    obtain ⟨g, hg⟩ := exists_finds_many hyphenated (Found.run isNameChar cs).rest
    have hparts := ((finds_run isNameChar cs).seq hg).unique (hread ▸ ih)
    have hrun := finds_run isNameChar (c :: cs)
    rw [Found.run_cons_of_pos hc] at hrun
    have hall := hrun.seq hg
    rw [Found.append_assoc, hparts] at hall
    exact hall
  | case5 c cs hnot hc =>
    refine finds_nameTail_nothing (fun d hd => Option.some.inj hd ▸ hc) fun t ht => ?_
    obtain ⟨rfl, rfl⟩ := List.cons.inj ht
    cases cs with
    | nil => rfl
    | cons d cs => exact (hnot d cs rfl rfl).elim

theorem finds_name {cs name rest : List Char} (h : readName? cs = some (name, rest)) :
    Pattern.name.Finds cs ⟨name, [], rest⟩ := by
  cases cs with
  | nil => cases h
  | cons c cs =>
    rw [readName?] at h
    split at h
    · next hc =>
      cases h
      exact (finds_char hc cs).seq (finds_nameTail cs)
    · cases h

theorem fails_name {cs : List Char} (h : readName? cs = none) : name.Fails cs := by
  refine Fails.seq (fails_char fun c hc hstart => ?_)
  cases cs with
  | nil => cases hc
  | cons d cs =>
    obtain rfl := Option.some.inj hc
    rw [readName?, if_pos hstart] at h
    cases h

/-! ## Terms -/

def blanks : Pattern :=
  many (char isBlank)

def times : Pattern :=
  optional (char (· == '*'))

/-- A sign, a number and a name, each of which may be left out. -/
def term : Pattern :=
  (optional (group 1 sign)).seq <| blanks.seq <| (optional (group 2 number)).seq <| blanks.seq <|
    times.seq <| blanks.seq <| (optional (group 3 name)).seq blanks

/-- What a group captures of a part that may be left out, told from what is read there. -/
theorem exists_finds_captured {β : Type} {p : Pattern} {read : Option (β × List Char)}
    {P : β → List Char → Prop} {cs : List Char}
    (hfinds : ∀ b rest, read = some (b, rest) → ∃ text, p.Finds cs ⟨text, [], rest⟩ ∧ P b text)
    (hfails : read = none → p.Fails cs) (number : Nat) : ∃ text : Option (List Char),
      (optional (group number p)).Finds cs
        ⟨text.getD [], text.toList.map (number, ·), read.elim cs Prod.snd⟩ ∧
      Option.Rel P (read.map Prod.fst) text := by
  cases read with
  | none => exact ⟨none, (hfails rfl).captured number, .none⟩
  | some found =>
    obtain ⟨text, htext, hP⟩ := hfinds found.1 found.2 rfl
    exact ⟨some text, htext.captured rfl number, .some hP⟩

theorem finds_captured_sign (cs : List Char) : (optional (group 1 sign)).Finds cs
    ⟨(readSign cs).1.toList, (readSign cs).1.toList.map fun c => (1, [c]), (readSign cs).2⟩ := by
  rcases sign_cases cs with ⟨c, rest, hread, hfinds⟩ | ⟨hread, hfails⟩
  · exact hread ▸ hfinds.captured rfl 1
  · exact hread ▸ hfails.captured 1

/-- A sign of multiplication is skipped if there is one. -/
theorem exists_finds_times (cs : List Char) : ∃ text, times.Finds cs ⟨text, [], skipTimes cs⟩ := by
  by_cases h : ∃ t, cs = '*' :: t
  · obtain ⟨t, rfl⟩ := h
    exact ⟨['*'], (finds_char rfl t).optional⟩
  · have hhead : ∀ c ∈ cs.head?, c ≠ '*' := by
      rintro c hc rfl
      exact h ⟨cs.tail, (List.cons_head?_tail hc).symm⟩
    rw [skipTimes_of_head hhead]
    exact ⟨[], Fails.optional (fails_char fun c hc htimes => hhead c hc (beq_iff_eq.1 htimes))⟩

end Pattern

/-! ## What is read -/

/-- Where the number of a term has to stand. -/
def numberStart (cs : List Char) : List Char :=
  trimStart (readSign cs).2

/-- Where the name of a term has to stand. -/
def nameStart (cs : List Char) : List Char :=
  trimStart (skipTimes (trimStart ((read? (numberStart cs)).elim (numberStart cs) Prod.snd)))

/-- A term is read in its parts: sign, number, name and what is left. -/
theorem Written.read_eq (cs : List Char) : Written.read cs =
    ⟨(readSign cs).1, (read? (numberStart cs)).map Prod.fst,
      (readName? (nameStart cs)).map Prod.fst,
      trimStart ((readName? (nameStart cs)).elim (nameStart cs) Prod.snd)⟩ := by
  simp only [Written.read, nameStart, numberStart]
  cases read? (trimStart (readSign cs).2) with
  | none =>
    simp only [Option.elim_none]
    cases readName? (trimStart (skipTimes (trimStart (trimStart (readSign cs).2)))) <;> rfl
  | some found =>
    simp only [Option.elim_some]
    cases readName? (trimStart (skipTimes (trimStart found.2))) <;> rfl

/-- The groups of a term. -/
def captures (sign : Option Char) (number name : Option (List Char)) : List (Nat × List Char) :=
  sign.toList.map (fun c => (1, [c])) ++ (number.toList.map (2, ·) ++ name.toList.map (3, ·))

theorem lookup_captures (sign : Option Char) (number name : Option (List Char)) :
    (captures sign number name).lookup 1 = sign.map ([·]) ∧
      (captures sign number name).lookup 2 = number ∧
      (captures sign number name).lookup 3 = name := by
  cases sign <;> cases number <;> cases name <;> exact ⟨rfl, rfl, rfl⟩

/-- Reading finds what the pattern finds: it goes on at the same place with the same captures, and
the number is the one that its capture writes. -/
theorem exists_first_term (cs : List Char) : ∃ f, Pattern.term.first cs = some f ∧
    f.rest = (Written.read cs).rest ∧ f.group? 1 = (Written.read cs).sign.map ([·]) ∧
    Option.Rel (fun d text => read? text = some (d, [])) (Written.read cs).number (f.group? 2) ∧
    Option.Rel Eq (Written.read cs).name (f.group? 3) := by
  have hsign := Pattern.finds_captured_sign cs
  obtain ⟨number, hnumber, hd⟩ := Pattern.exists_finds_captured
    (fun _ _ => Pattern.exists_finds_number) (@Pattern.fails_number (numberStart cs)) 2
  obtain ⟨times, htimes⟩ := Pattern.exists_finds_times
    (trimStart ((read? (numberStart cs)).elim (numberStart cs) Prod.snd))
  obtain ⟨name, hname, hn⟩ := Pattern.exists_finds_captured (P := Eq)
    (fun name _ h => ⟨name, Pattern.finds_name h, rfl⟩) (@Pattern.fails_name (nameStart cs)) 3
  have hblanks := fun cs => Pattern.finds_run isBlank cs
  have hall := hsign.seq ((hblanks _).seq (hnumber.seq ((hblanks _).seq (htimes.seq
    ((hblanks _).seq (hname.seq (hblanks _)))))))
  have hgroups := lookup_captures (readSign cs).1 number name
  rw [Written.read_eq]
  generalize hf : Found.append _ _ = f at hall
  have hcaptures : f.groups = captures (readSign cs).1 number name := by
    simp only [← hf, Found.append, Found.run, captures, List.nil_append, List.append_nil]
  refine ⟨f, hall.first_eq, hf ▸ rfl, ?_⟩
  simp only [Found.group?, hcaptures, hgroups]
  exact ⟨trivial, hd, hn⟩

end Listing

end WorstCase
