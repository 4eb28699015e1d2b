import WorstCase.Proofs.Number.Arithmetic

/-!
# Texts of doubles

The text of a finite double that has no sign is positional: digits, or digits around a point. It is
read as a number, and what follows it is left, wherever it ends or a blank follows
(`Decimal.Positional.exists_read?`). A negative double has a minus and the text of its magnitude
(`Double.text_of_neg`). That the text of a double reads back as the double (`Double.ReadsBack`) is
assumed where doubles of any kind can occur.
-/

namespace WorstCase

/-- The text ends, or goes on after a space. -/
def Text.Break (cs : List Char) : Prop :=
  ∀ c ∈ cs.head?, c = ' '

theorem Text.Break.cases {cs : List Char} (h : Break cs) : cs = [] ∨ ∃ rest, cs = ' ' :: rest := by
  cases cs with
  | nil => exact .inl rfl
  | cons c rest => exact .inr ⟨rest, by rw [h c rfl]⟩

namespace Decimal

/-! ## Positional texts -/

/-- A number in digits, with an optional fraction. -/
inductive Positional : List Char → Prop
  | whole {ds : List Char} (hne : ds ≠ []) (hds : ∀ c ∈ ds, c.isDigit) : Positional ds
  | fraction {ds fs : List Char} (hne : ds ≠ []) (hds : ∀ c ∈ ds, c.isDigit) (hfs : fs ≠ [])
      (hfs' : ∀ c ∈ fs, c.isDigit) : Positional (ds ++ '.' :: fs)

theorem isDigit_of_mem_digits {n : Nat} {c : Char} (h : c ∈ digits n) : c.isDigit :=
  Nat.isDigit_of_mem_toDigits (by decide) (by decide) h

theorem positional_text (d : Decimal) : Positional d.text := by
  have hds : ∀ c ∈ digits d.coefficient, c.isDigit := fun c => isDigit_of_mem_digits
  have hne : digits d.coefficient ≠ [] := Nat.toDigits_ne_nil
  have hzeros : ∀ n, ∀ c ∈ List.replicate n '0', c.isDigit := fun n c hc =>
    (List.eq_of_mem_replicate hc) ▸ rfl
  unfold text
  split
  · exact .whole (List.append_ne_nil_of_left_ne_nil hne _) fun c hc =>
      (List.mem_append.1 hc).elim (hds c) (hzeros _ c)
  · dsimp only
    split
    · exact .fraction (List.cons_ne_nil '0' []) (by simp) (List.append_ne_nil_of_right_ne_nil _ hne)
        fun c hc => (List.mem_append.1 hc).elim (hzeros _ c) (hds c)
    · next hlen =>
      refine .fraction (fun hnil => ?_) (fun c hc => hds c (List.mem_of_mem_take hc))
        (fun hnil => ?_) (fun c hc => hds c (List.mem_of_mem_drop hc))
      · have := congrArg List.length hnil
        rw [List.length_take, List.length_nil] at this
        omega
      · have := congrArg List.length hnil
        rw [List.length_drop, List.length_nil] at this
        omega

theorem Positional.head_isDigit {cs : List Char} (h : Positional cs) :
    ∃ c rest, cs = c :: rest ∧ c.isDigit := by
  cases h with
  | whole hne hds =>
    obtain ⟨c, rest, rfl⟩ := List.exists_cons_of_ne_nil hne
    exact ⟨c, rest, rfl, hds c List.mem_cons_self⟩
  | fraction hne hds _ _ =>
    obtain ⟨c, rest, rfl⟩ := List.exists_cons_of_ne_nil hne
    exact ⟨c, _, rfl, hds c List.mem_cons_self⟩

theorem Positional.mem {cs : List Char} (h : Positional cs) {c : Char} (hc : c ∈ cs) :
    c.isDigit ∨ c = '.' := by
  cases h with
  | whole _ hds => exact .inl (hds c hc)
  | fraction _ hds _ hfs => grind

/-! ## Reading up to a blank -/

theorem takeWhile_isDigit {ds rest : List Char} (hds : ∀ c ∈ ds, c.isDigit)
    (hrest : ∀ c ∈ rest.head?, ¬ c.isDigit) : (ds ++ rest).takeWhile Char.isDigit = ds := by
  rw [List.takeWhile_append_of_pos hds]
  cases rest with
  | nil => exact List.append_nil ds
  | cons c rest => rw [List.takeWhile_cons_of_neg (hrest c rfl), List.append_nil]

theorem dropWhile_isDigit {ds rest : List Char} (hds : ∀ c ∈ ds, c.isDigit)
    (hrest : ∀ c ∈ rest.head?, ¬ c.isDigit) : (ds ++ rest).dropWhile Char.isDigit = rest := by
  rw [List.dropWhile_append_of_pos hds]
  cases rest with
  | nil => rfl
  | cons c rest => rw [List.dropWhile_cons_of_neg (hrest c rfl)]

theorem readExponent_of_break {cs : List Char} (h : Text.Break cs) : readExponent cs = (0, cs) := by
  obtain rfl | ⟨rest, rfl⟩ := h.cases <;> rfl

theorem not_isDigit_of_break {cs : List Char} (h : Text.Break cs) :
    ∀ c ∈ cs.head?, ¬ c.isDigit := by
  intro c hc
  rw [h c hc]
  decide

/-- Digits are read as a whole number up to a break. -/
theorem read?_digits {ds rest : List Char} (hne : ds ≠ []) (hds : ∀ c ∈ ds, c.isDigit)
    (hrest : Text.Break rest) : read? (ds ++ rest) = some (⟨digitsValue ds, 0⟩, rest) := by
  have hdigit := not_isDigit_of_break hrest
  simp only [read?, takeWhile_isDigit hds hdigit, dropWhile_isDigit hds hdigit]
  obtain ⟨c, ds, rfl⟩ := List.exists_cons_of_ne_nil hne
  obtain rfl | ⟨rest, rfl⟩ := hrest.cases <;> rfl

/-- A positional text is read as the same number whatever follows behind a blank. -/
theorem Positional.exists_read? {cs : List Char} (h : Positional cs) :
    ∃ d, ∀ rest, Text.Break rest → read? (cs ++ rest) = some (d, rest) := by
  cases h with
  | whole hne hds => exact ⟨⟨digitsValue cs, 0⟩, fun rest hrest => read?_digits hne hds hrest⟩
  | @fraction ds fs hne hds hfs hfs' =>
    refine ⟨⟨digitsValue (ds ++ fs), 0 - fs.length⟩, fun rest hrest => ?_⟩
    have hdigit := not_isDigit_of_break hrest
    have hpoint : ∀ c ∈ ('.' :: (fs ++ rest)).head?, ¬ c.isDigit := by
      rintro _ ⟨⟩
      decide
    have hdrop : ('.' :: (fs ++ rest)).drop (fs.length + 1) = rest := by
      rw [List.drop_succ_cons, List.drop_left]
    rw [List.append_assoc, List.cons_append]
    simp only [read?, takeWhile_isDigit hds hpoint, dropWhile_isDigit hds hpoint,
      takeWhile_isDigit hfs' hdigit, hdrop, readExponent_of_break hrest]
    obtain ⟨c, ds, rfl⟩ := List.exists_cons_of_ne_nil hne
    obtain ⟨f, fs, rfl⟩ := List.exists_cons_of_ne_nil hfs
    rfl

end Decimal

namespace Double

open Float.Model Float.Model.UnpackedFloat

/-- The text of the double reads back as the double. -/
def ReadsBack (x : Float) : Prop :=
  ofText? (Shortest.text x) = some x

instance (x : Float) : Decidable (ReadsBack x) :=
  inferInstanceAs (Decidable (_ = _))

/-- A finite double that is written without a sign. -/
structure Unsigned (x : Float) : Prop where
  finite : x.isFinite
  nonneg : 0 ≤ x
  ne_neg_zero : x ≠ -0

theorem Unsigned.unpack {x : Float} (h : Unsigned x) :
    x.toModel.unpack = .zero .positive ∨
      ∃ m e hp, x.toModel.unpack = .finite .positive m e hp := by
  have hle := le_iff.1 h.nonneg
  rcases unpack_of_isFinite h.finite with ⟨s, hx⟩ | ⟨s, m, e, hp, hx⟩ <;> cases s
  · exact absurd (eq_of_unpack_eq hx) h.ne_neg_zero
  · exact .inl hx
  · rw [hx] at hle
    cases hle
  · exact .inr ⟨m, e, hp, hx⟩

/-- A finite double below zero has a sign and digits. -/
theorem unpack_of_not_nonneg {x : Float} (hfin : x.isFinite) (h : ¬ 0 ≤ x) :
    ∃ m e hp, x.toModel.unpack = .finite .negative m e hp := by
  rcases unpack_of_isFinite hfin with ⟨s, hx⟩ | ⟨s, m, e, hp, hx⟩ <;> rw [le_iff, hx] at h
  · exact absurd rfl h
  · cases s with
    | positive => exact absurd rfl h
    | negative => exact ⟨m, e, hp, hx⟩

theorem unsigned_neg {x : Float} (hfin : x.isFinite) (h : ¬ 0 ≤ x) : Unsigned (-x) := by
  obtain ⟨m, e, hp, hx⟩ := unpack_of_not_nonneg hfin h
  have hneg : (-x).toModel.unpack = .finite .positive m e hp := by
    rw [unpack_neg, hx]
    rfl
  refine ⟨isFinite_neg hfin, ?_, fun heq => ?_⟩
  · rw [le_iff, hneg]
    rfl
  · rw [heq] at hneg
    cases hneg

theorem unsigned_zero : Unsigned 0 :=
  ⟨by decide, by decide, by decide⟩

theorem unsigned_one : Unsigned 1 :=
  ⟨by decide, by decide, by decide⟩

/-- Natural numbers of 64 bits have no sign. -/
theorem unsigned_ofNat {n : Nat} (h : n < 2 ^ 64) : Unsigned (Float.ofNat n) := by
  by_cases hn : n = 0
  · subst hn
    exact unsigned_zero
  · obtain ⟨m, e, hp, hx⟩ := exists_unpack_ofNat_word hn h
    have hfin : (Float.ofNat n).isFinite = (Float.ofNat n).toModel.unpack.isFinite := rfl
    refine ⟨?_, ?_, fun heq => ?_⟩
    · rw [hfin, hx]
      rfl
    · rw [le_iff, hx]
      rfl
    · rw [heq] at hx
      cases hx

/-- The negative of a number other than 0 is negative. -/
theorem not_nonneg_neg_ofNat {n : Nat} (hn : n ≠ 0) (h : n < 2 ^ 64) : ¬ 0 ≤ -Float.ofNat n := by
  obtain ⟨m, e, hp, hx⟩ := exists_unpack_ofNat_word hn h
  rw [le_iff, unpack_neg, hx]
  exact Bool.false_ne_true

/-! ## The text -/

theorem Unsigned.positional {x : Float} (h : Unsigned x) :
    Decimal.Positional (Shortest.text x) := by
  rcases h.unpack with hx | ⟨m, e, hp, hx⟩ <;> rw [Shortest.text, hx]
  · exact .whole (List.cons_ne_nil '0' []) (by simp)
  · exact Decimal.positional_text _

/-- A negative double is written as a minus and its absolute value. -/
theorem text_of_neg {x : Float} (hfin : x.isFinite) (h : ¬ 0 ≤ x) :
    Shortest.text x = '-' :: Shortest.text (-x) := by
  obtain ⟨m, e, hp, hx⟩ := unpack_of_not_nonneg hfin h
  have hneg : (-x).toModel.unpack = .finite .positive m e hp := by
    rw [unpack_neg, hx]
    rfl
  rw [Shortest.text, Shortest.text, hx, hneg]
  rfl

/-- The text is a number without a sign, and read as `x` up to a blank. -/
structure TextOf (cs : List Char) (x : Float) : Prop where
  positional : Decimal.Positional cs
  finite : x.isFinite
  exists_read : ∃ d : Decimal, d.toFloat = x ∧
    ∀ rest, Text.Break rest → Decimal.read? (cs ++ rest) = some (d, rest)

/-- A positional text is read as a decimal, with a minus before it too. -/
theorem ofText?_of_positional {cs : List Char} (hcs : Decimal.Positional cs) {d : Decimal}
    (h : Decimal.read? cs = some (d, [])) :
    ofText? cs = some d.toFloat ∧ ofText? ('-' :: cs) = some (-d.toFloat) := by
  obtain ⟨c, rest, rfl, hc⟩ := hcs.head_isDigit
  have hne : c ≠ '-' ∧ c ≠ '+' ∧ c ≠ 'i' ∧ c ≠ 'N' := by
    refine ⟨?_, ?_, ?_, ?_⟩ <;> rintro rfl <;> exact absurd hc (by decide)
  constructor
  · unfold ofText?
    split
    · next heq => exact absurd (List.cons.inj heq).1 hne.1
    · next heq => exact absurd (List.cons.inj heq).1 hne.2.1
    · dsimp only
      split
      · next heq => exact absurd (List.cons.inj heq).1 hne.2.2.1
      · next heq => exact absurd (List.cons.inj heq).1 hne.2.2.2
      · rw [h]
  · simp only [ofText?]
    split
    · next heq => exact absurd (List.cons.inj heq).1 hne.2.2.1
    · next heq => exact absurd (List.cons.inj heq).1 hne.2.2.2
    · rw [h]
      rfl

/-- An unsigned double that is read back is written as a text of it. -/
theorem Unsigned.textOf {x : Float} (h : Unsigned x) (hread : ReadsBack x) :
    TextOf (Shortest.text x) x := by
  obtain ⟨d, hd⟩ := h.positional.exists_read?
  have hend := hd [] (fun c hc => by cases hc)
  rw [List.append_nil] at hend
  have hd' := (ofText?_of_positional h.positional hend).1.symm.trans hread
  exact ⟨h.positional, h.finite, d, Option.some.inj hd', hd⟩

/-- The magnitude of a negative double is read wherever the double reads back. -/
theorem textOf_neg {x : Float} (hfin : x.isFinite) (h : ¬ 0 ≤ x) (hread : ReadsBack x) :
    TextOf (Shortest.text (-x)) (-x) := by
  have huns := unsigned_neg hfin h
  obtain ⟨d, hd⟩ := huns.positional.exists_read?
  have hend := hd [] (fun c hc => by cases hc)
  rw [List.append_nil] at hend
  rw [ReadsBack, text_of_neg hfin h] at hread
  have hd' := (ofText?_of_positional huns.positional hend).2.symm.trans hread
  refine ⟨huns.positional, huns.finite, d, ?_, hd⟩
  rw [← Option.some.inj hd', neg_neg]

end Double

end WorstCase
