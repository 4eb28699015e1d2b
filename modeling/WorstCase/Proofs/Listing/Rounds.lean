import WorstCase.Proofs.Listing.TermPattern

/-!
# Sums are read to their end

A sum is read in rounds. Each round (`Listing.round?`) searches for the pattern of terms at the
start of what is left of the text and cuts off what it finds. The pattern may well find nothing
there. But then there is neither a number nor a name, and the round fails. So a round that does not
fail takes something (`Listing.of_round?`), and the rounds come to an end on every text
(`Listing.exists_rounds`). Reading a side is running the rounds to their end
(`Listing.read_rounds`).
-/

namespace WorstCase

/-- The number that a whole text writes. -/
def Decimal.ofText? (cs : List Char) : Option Decimal :=
  match read? cs with
  | some (d, []) => some d
  | _ => none

namespace Listing

open Text Decimal

variable {α : Type} [Scalar α] [Numeral α]

/-! ## One round -/

/-- The term that the groups have captured, if there is a number or a name. -/
def Found.term? (f : Found) : Option (Term α) :=
  let sign : α := if f.group? 1 = some ['-'] then -1 else 1
  match f.group? 3, f.group? 2 with
  | some name, some number => do
    return .column (String.ofList name) (sign * Numeral.ofDecimal (← ofText? number))
  | some name, none => some (.column (String.ofList name) (sign * 1))
  | none, some number => do return .constant (sign * Numeral.ofDecimal (← ofText? number))
  | none, none => none

/-- What a round cuts off the text, and the term that it writes. -/
structure Cut (α : Type) where
  text : List Char
  term : Term α

/-- One round: the cut, and the text that is left. Only the first term can go without a sign. -/
def round? (first : Bool) (cs : List Char) : Option (Cut α × List Char) := do
  let f ← Pattern.term.first cs
  if (f.group? 1).isNone && !first then none
  else
    let term ← f.term?
    return (⟨f.text, term⟩, f.rest)

/-- The text starts with a sign. -/
def Signed (cs : List Char) : Prop :=
  ∃ c rest, cs = c :: rest ∧ (c = '+' ∨ c = '-')

theorem Found.term?_eq {f : Found} {w : Written} (hsign : f.group? 1 = w.sign.map ([·]))
    (hnumber : Option.Rel (fun d text => read? text = some (d, [])) w.number (f.group? 2))
    (hname : Option.Rel Eq w.name (f.group? 3)) : (f.term? : Option (Term α)) = w.term? := by
  have hminus : f.group? 1 = some ['-'] ↔ w.sign = some '-' := by
    rw [hsign]
    cases w.sign <;> simp
  unfold Found.term? Written.term?
  simp only [hminus]
  generalize w.number = number, f.group? 2 = text at hnumber
  generalize w.name = name, f.group? 3 = text' at hname
  cases hname with
  | none =>
    cases hnumber with
    | none => rfl
    | some h => simp [ofText?, h]
  | some hname =>
    subst hname
    cases hnumber with
    | none => rfl
    | some h => simp [ofText?, h]

/-- What a round does, told from the parts that are read. Neither a number nor a name is ever empty,
so where there is a term, something is found. -/
theorem exists_round (first : Bool) (cs : List Char) : ∃ text, cs = text ++ (Written.read cs).rest ∧
    (∀ t : Term α, (Written.read cs).term? = some t → text ≠ []) ∧
    (round? first cs : Option (Cut α × List Char)) =
      if (Written.read cs).sign.isNone && !first then none
      else (Written.read cs).term?.map fun t => (⟨text, t⟩, (Written.read cs).rest) := by
  obtain ⟨f, hf, hrest, hsign, hnumber, hname⟩ := exists_first_term cs
  have hof : Found.Of cs f := Pattern.of_mem (List.mem_of_mem_head? hf)
  refine ⟨f.text, hrest ▸ hof.append_eq.symm, ?_, ?_⟩
  -- a match of nothing would have captured nothing, and nothing is neither a name nor a number
  · intro t ht hnil
    have hnone : ∀ number text, f.group? number = some text → text = [] := fun number text hg =>
      List.infix_nil.1 (hnil ▸ hof.infix_of_group? hg)
    rw [Written.term?] at ht
    generalize hw : (Written.read cs).name = name at hname ht
    generalize (Written.read cs).number = number at hnumber ht
    generalize hg : f.group? 3 = captured at hname
    generalize hg' : f.group? 2 = captured' at hnumber
    cases hname with
    | some heq =>
      subst heq
      rw [hnone 3 _ hg] at hw
      cases isName_of_read hw
    | none =>
      cases hnumber with
      | some hread =>
        rw [hnone 2 _ hg'] at hread
        cases hread
      | none => cases ht
  · have hnone : (f.group? 1).isNone = (Written.read cs).sign.isNone := by
      rw [hsign, Option.isNone_map]
    rw [round?, hf, ← Found.term?_eq hsign hnumber hname, ← hrest]
    simp only [Option.bind_eq_bind, Option.bind_some, hnone]
    cases (f.term? : Option (Term α)) <;> rfl

/-- A round that does not fail takes something off the start of the text, and if it is not the
first, a sign to begin with. -/
theorem of_round? {first : Bool} {cs rest : List Char} {c : Cut α}
    (h : round? first cs = some (c, rest)) :
    c.text ≠ [] ∧ cs = c.text ++ rest ∧ (first = false → Signed c.text) := by
  obtain ⟨text, hcs, hne, hround⟩ := exists_round (α := α) first cs
  rw [hround] at h
  split at h
  · cases h
  · next hsign =>
    obtain ⟨t, ht, heq⟩ := Option.map_eq_some_iff.1 h
    obtain ⟨rfl, rfl⟩ := Prod.mk.inj heq
    refine ⟨hne t ht, hcs, fun hfirst => ?_⟩
    obtain ⟨d, ds, htext⟩ := List.exists_cons_of_ne_nil (hne t ht)
    rcases Pattern.readSign_cases cs with ⟨e, rest, hstart, he, -⟩ | ⟨-, hread⟩
    · rw [hcs, htext, List.cons_append] at hstart
      exact ⟨d, ds, htext, (List.cons.inj hstart).1 ▸ he⟩
    · rw [Written.read_eq, hread, hfirst] at hsign
      exact absurd rfl hsign

theorem readTerms_of_round?_eq_none {first : Bool} {cs : List Char} (hne : cs ≠ [])
    (h : (round? first cs : Option (Cut α × List Char)) = none) (n : Nat) :
    readTerms n first cs = (.error (.badTerm (offending cs)) : Except (ListingError α) _) := by
  obtain ⟨c, cs, rfl⟩ := List.exists_cons_of_ne_nil hne
  cases n with
  | zero => rfl
  | succ n =>
    obtain ⟨text, -, -, hround⟩ := exists_round (α := α) first (c :: cs)
    rw [hround] at h
    simp only [readTerms]
    split at h
    · next hsign => rw [if_pos hsign]
    · next hsign => rw [if_neg hsign, Option.map_eq_none_iff.1 h]

theorem readTerms_of_round?_eq_some {first : Bool} {cs rest : List Char} {c : Cut α} (hne : cs ≠ [])
    (h : round? first cs = some (c, rest)) (n : Nat) :
    readTerms (n + 1) first cs = (c.term :: ·) <$> readTerms n false rest := by
  obtain ⟨text, -, -, hround⟩ := exists_round (α := α) first cs
  rw [hround] at h
  split at h
  · cases h
  · next hsign =>
    obtain ⟨t, ht, heq⟩ := Option.map_eq_some_iff.1 h
    obtain ⟨rfl, rfl⟩ := Prod.mk.inj heq
    exact readTerms_succ hne (Bool.eq_false_iff.2 hsign) ht n

/-! ## All rounds -/

/-- The rounds on a text: what they cut off, and what is left when a round fails or nothing is
left. -/
inductive Rounds : Bool → List Char → List (Cut α) → List Char → Prop
  | done {first : Bool} : Rounds first [] [] []
  | stuck {first : Bool} {cs : List Char} (hne : cs ≠ [])
      (h : (round? first cs : Option (Cut α × List Char)) = none) : Rounds first cs [] cs
  | next {first : Bool} {cs rest left : List Char} {c : Cut α} {cuts : List (Cut α)} (hne : cs ≠ [])
      (h : round? first cs = some (c, rest)) (hrest : Rounds false rest cuts left) :
      Rounds first cs (c :: cuts) left

theorem Rounds.unique {first : Bool} {cs left left' : List Char} {cuts cuts' : List (Cut α)}
    (h : Rounds first cs cuts left) (h' : Rounds first cs cuts' left') :
    cuts' = cuts ∧ left' = left := by
  induction h generalizing cuts' with
  | done =>
    cases h' with
    | done => exact ⟨rfl, rfl⟩
    | stuck hne | next hne => exact absurd rfl hne
  | stuck hne h =>
    cases h' with
    | done => exact absurd rfl hne
    | stuck => exact ⟨rfl, rfl⟩
    | next _ hnext => cases h.symm.trans hnext
  | next hne h _ ih =>
    cases h' with
    | done => exact absurd rfl hne
    | stuck _ hstuck => cases h.symm.trans hstuck
    | next _ hnext hrest =>
      obtain ⟨rfl, rfl⟩ := Prod.mk.inj (Option.some.inj (h.symm.trans hnext))
      obtain ⟨rfl, rfl⟩ := ih hrest
      exact ⟨rfl, rfl⟩

theorem length_lt_of_round? {first : Bool} {cs rest : List Char} {c : Cut α}
    (h : round? first cs = some (c, rest)) : rest.length < cs.length := by
  obtain ⟨hne, hcs, -⟩ := of_round? h
  rw [hcs, List.length_append]
  exact Nat.lt_add_of_pos_left (List.length_pos_of_ne_nil hne)

/-- Every round but the last takes something, so there is a last one. -/
theorem exists_rounds (first : Bool) (cs : List Char) :
    ∃ (cuts : List (Cut α)) (left : List Char), Rounds first cs cuts left := by
  by_cases hne : cs = []
  · subst hne
    exact ⟨[], [], .done⟩
  · cases h : (round? first cs : Option (Cut α × List Char)) with
    | none => exact ⟨[], cs, .stuck hne h⟩
    | some next =>
      have := length_lt_of_round? h
      obtain ⟨cuts, left, hrest⟩ := exists_rounds false next.2
      exact ⟨next.1 :: cuts, left, .next hne h hrest⟩
termination_by cs.length

/-- The cuts are the start of the text, in their order. -/
theorem Rounds.flatten_append {first : Bool} {cs left : List Char} {cuts : List (Cut α)}
    (h : Rounds first cs cuts left) : (cuts.map Cut.text).flatten ++ left = cs := by
  induction h with
  | done | stuck => rfl
  | next _ h _ ih =>
    rw [List.map_cons, List.flatten_cons, List.append_assoc, ih, ← (of_round? h).2.1]

theorem Rounds.signed {cs left : List Char} {cuts : List (Cut α)} (h : Rounds false cs cuts left) :
    ∀ c ∈ cuts, Signed c.text := by
  generalize hfirst : false = first at h
  induction h with
  | done | stuck => exact fun c hc => absurd hc List.not_mem_nil
  | next _ h _ ih => exact List.forall_mem_cons.2 ⟨(of_round? h).2.2 hfirst.symm, ih rfl⟩

theorem Rounds.signed_tail {first : Bool} {cs left : List Char} {cuts : List (Cut α)}
    (h : Rounds first cs cuts left) : ∀ c ∈ cuts.tail, Signed c.text := by
  cases h with
  | done | stuck => exact fun c hc => absurd hc List.not_mem_nil
  | next _ _ hrest => exact hrest.signed

/-! ## Reading -/

/-- Reading terms runs the rounds, whatever bound above the length of the text it is given. -/
theorem Rounds.readTerms_eq {first : Bool} {cs left : List Char} {cuts : List (Cut α)}
    (h : Rounds first cs cuts left) {n : Nat} (hn : cs.length ≤ n) : readTerms n first cs =
      if left = [] then .ok (cuts.map Cut.term) else .error (.badTerm (offending left)) := by
  induction h generalizing n with
  | done => cases n <;> rfl
  | stuck hne h => rw [readTerms_of_round?_eq_none hne h, if_neg hne]
  | @next first cs rest left c cuts hne h _ ih =>
    have hlt := length_lt_of_round? h
    obtain ⟨n, rfl⟩ := Nat.exists_eq_add_one_of_ne_zero (by omega : n ≠ 0)
    rw [readTerms_of_round?_eq_some hne h, ih (by omega)]
    split <;> rfl

/-- Each round fails or takes something off the start of the text that writes one term and that, in
all rounds but the first, starts with a sign. So the rounds come to an end on every text, in one
way. Either nothing is left: then what they have cut off is the text without the blanks at its ends,
and reading a side gives the sum of the terms they have found. Or a round fails, and reading
complains about what is left there. -/
theorem read_rounds (cs : List Char) :
    (∀ (first : Bool) (rest : List Char),
      (round? first rest : Option (Cut α × List Char)) = none ∨ ∃ (c : Cut α) (rest' : List Char),
        round? first rest = some (c, rest') ∧ c.text ≠ [] ∧ rest = c.text ++ rest' ∧
          (first = false → Signed c.text)) ∧
    ∃ (cuts : List (Cut α)) (left : List Char), Rounds true (trim cs) cuts left ∧
      (∀ cuts' left', Rounds true (trim cs) cuts' left' → cuts' = cuts ∧ left' = left) ∧
      (∀ c ∈ cuts.tail, Signed c.text) ∧
      (left = [] ∧ (cuts.map Cut.text).flatten = trim cs ∧
          Side.read cs = .ok (Side.ofTerms (cuts.map Cut.term)) ∨
        left ≠ [] ∧ (cuts.map Cut.text).flatten ++ left = trim cs ∧
          (Side.read cs : Except (ListingError α) _) = .error (.badTerm (offending left))) := by
  refine ⟨fun first rest => ?_, ?_⟩
  · cases h : (round? first rest : Option (Cut α × List Char)) with
    | none => exact .inl rfl
    | some next => exact .inr ⟨next.1, next.2, rfl, of_round? h⟩
  · obtain ⟨cuts, left, h⟩ := exists_rounds (α := α) true (trim cs)
    refine ⟨cuts, left, h, fun _ _ => h.unique, h.signed_tail, ?_⟩
    have hall := h.flatten_append
    rw [Side.read, h.readTerms_eq (Nat.le_refl _)]
    by_cases hleft : left = []
    · rw [if_pos hleft]
      rw [hleft, List.append_nil] at hall
      exact .inl ⟨hleft, hall, rfl⟩
    · rw [if_neg hleft]
      exact .inr ⟨hleft, hall, rfl⟩

end Listing

end WorstCase
