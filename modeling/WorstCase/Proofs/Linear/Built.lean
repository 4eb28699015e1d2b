import WorstCase.Linear.Problem

/-!
# Problems made by their changes

A problem is *built* (`Problem.Built`) when it comes from an empty one by changes that were
accepted. The rows of a built problem are about its own columns (`Problem.Built.known`): a row is
accepted only with columns that are there, and columns are never taken away.
-/

namespace WorstCase.Problem

variable {α : Type}

/-- The rows name columns of the problem. -/
def Known (p : Problem α) : Prop :=
  ∀ row ∈ p.rows, ∀ term ∈ row.terms, 0 < term.1 ∧ term.1 ≤ p.columns.length

theorem column?_isSome_iff {p : Problem α} {c : Nat} :
    (p.column? c).isSome ↔ 0 < c ∧ c ≤ p.columns.length := by
  unfold column?
  split
  · next hc => simp [hc]
  · next hc =>
    simp only [isSome_getElem?]
    omega

/-! ## What the changes do -/

/-- A row can be added if it mentions only columns that there are. It comes last. -/
theorem addRow_eq_ok {p p' : Problem α} {row : Row α} (h : p.addRow row = .ok p') :
    (∀ term ∈ row.terms, 0 < term.1 ∧ term.1 ≤ p.columns.length) ∧
      p' = { p with rows := p.rows ++ [row] } := by
  unfold addRow at h
  split at h
  · cases h
  · next hfind =>
    refine ⟨fun term hterm => column?_isSome_iff.1 ?_, (Except.ok.inj h).symm⟩
    have hnone := List.find?_eq_none.1 hfind term hterm
    rwa [Bool.not_eq_true, Option.isNone_eq_false_iff] at hnone

/-- A change of a column replaces it at its place. -/
theorem edit_eq_ok {p p' : Problem α} {c : Nat} {f : Column α → Except (ProblemError α) (Column α)}
    (h : p.edit c f = .ok p') : ∃ column column', p.column? c = some column ∧
      f column = .ok column' ∧ p' = { p with columns := p.columns.set (c - 1) column' } := by
  unfold edit at h
  split at h
  · cases h
  · next column hcolumn =>
    split at h
    · cases h
    · next column' hf => exact ⟨column, column', hcolumn, hf, (Except.ok.inj h).symm⟩

/-- A change of one column leaves the rows and the number of columns. -/
theorem Known.edit {p p' : Problem α} (hp : p.Known) {c : Nat}
    {f : Column α → Except (ProblemError α) (Column α)} (h : p.edit c f = .ok p') : p'.Known := by
  obtain ⟨_, _, -, -, rfl⟩ := edit_eq_ok h
  intro row hrow term hterm
  rw [List.length_set]
  exact hp row hrow term hterm

theorem Known.addRow {p p' : Problem α} (hp : p.Known) {row : Row α}
    (h : p.addRow row = .ok p') : p'.Known := by
  obtain ⟨hterms, rfl⟩ := addRow_eq_ok h
  intro r hr term hterm
  rcases List.mem_append.1 hr with hr | hr
  · exact hp r hr term hterm
  · rw [List.mem_singleton.1 hr] at hterm
    exact hterms term hterm

variable [Scalar α]

theorem Known.addColumn {p : Problem α} (hp : p.Known) (name : String) (integer : Bool) :
    (p.addColumn name integer).Known := by
  intro row hrow term hterm
  obtain ⟨hpos, hle⟩ := hp row hrow term hterm
  refine ⟨hpos, Nat.le_trans hle ?_⟩
  simp [Problem.addColumn]

/-- The problem comes from an empty one by changes that were accepted. -/
inductive Built : Problem α → Prop
  | empty (name : String) (direction : Direction) : Built (.empty name direction)
  | setDirection {p : Problem α} (hp : Built p) (direction : Direction) :
      Built (p.setDirection direction)
  | addColumn {p : Problem α} (hp : Built p) (name : String) (integer : Bool) :
      Built (p.addColumn name integer)
  | setObjective {p p' : Problem α} (hp : Built p) (c : Nat) (coefficient : α)
      (h : p.setObjective c coefficient = .ok p') : Built p'
  | setInteger {p p' : Problem α} (hp : Built p) (c : Nat) (integer : Bool)
      (h : p.setInteger c integer = .ok p') : Built p'
  | setUpper {p p' : Problem α} (hp : Built p) (c : Nat) (upper : α)
      (h : p.setUpper c upper = .ok p') : Built p'
  | setLower {p p' : Problem α} (hp : Built p) (c : Nat) (lower : α)
      (h : p.setLower c lower = .ok p') : Built p'
  | addRow {p p' : Problem α} (hp : Built p) (row : Row α) (h : p.addRow row = .ok p') : Built p'

/-- The rows of a problem that is made by changes mention only columns that it has. -/
theorem Built.known {p : Problem α} (h : p.Built) : p.Known := by
  induction h with
  | empty name direction => exact fun row hrow => absurd hrow List.not_mem_nil
  | setDirection _ direction ih => exact ih
  | addColumn _ name integer ih => exact ih.addColumn name integer
  | setObjective _ c coefficient h ih => exact ih.edit h
  | setInteger _ c integer h ih => exact ih.edit h
  | setUpper _ c upper h ih => exact ih.edit h
  | setLower _ c lower h ih => exact ih.edit h
  | addRow _ row h ih => exact ih.addRow h

end WorstCase.Problem
