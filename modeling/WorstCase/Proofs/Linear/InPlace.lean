import WorstCase.Linear.InPlace
import WorstCase.Proofs.Action
import WorstCase.Proofs.Linear.Built

/-!
# A problem after any calls

Rows name columns of the problem, and no upper bound lies below the lower bound of its column
(`Problem.Consistent`). Both hold of the empty problem, and every call keeps them so, whether it is
accepted or not. A call is accepted exactly if it is allowed (`Problem.Call.Allowed`) and then does
what the change of the same name does; one that is refused changes nothing (`Problem.follows`). So a
problem is consistent after any calls, and its columns are those that were added, each with the
number that it was given (`Problem.consistent_after_calls`).

Nothing is asked of the comparison of scalars. A bound that is no number passes every check, and
then no comparison with it holds.
-/

namespace WorstCase.Problem

open WorstCase.Action

variable {α : Type}

/-! ## Actions step by step -/

/-- What a change comes to that is made as a whole or not at all. -/
def outcome {β : Type} (p : Problem α) (answer : β) :
    Except (ProblemError α) (Problem α) → Except (ProblemError α) β × Problem α
  | .ok q => (.ok answer, q)
  | .error e => (.error e, p)

section actions

variable {β γ : Type} {p q : Problem α}

/-- Giving another answer changes nothing else. -/
theorem apply_bind_pure {a : Action α β} {x : β} {change : Except (ProblemError α) (Problem α)}
    (h : a.apply p = p.outcome x change) (y : γ) :
    Action.apply (a >>= fun _ => pure y) p = p.outcome y change := by
  cases change with
  | error e => exact apply_bind_error h _
  | ok q => exact apply_bind_ok h _

theorem apply_read_ok {c : Nat} {column : Column α} (h : p.column? c = some column) :
    (InPlace.read c).apply p = (.ok column, p) := by
  have hcolumn : p.column c = .ok column := by rw [Problem.column, h]
  have hread : (InPlace.read c).apply p = Action.apply (liftM (p.column c)) p := rfl
  rw [hread, hcolumn]
  rfl

theorem apply_read_error {c : Nat} (h : p.column? c = none) :
    (InPlace.read c).apply p = (.error (.unknownColumn c), p) := by
  have hcolumn : p.column c = .error (.unknownColumn c) := by rw [Problem.column, h]
  have hread : (InPlace.read c).apply p = Action.apply (liftM (p.column c)) p := rfl
  rw [hread, hcolumn]
  rfl

/-- To read a column, check it and write it back is to edit it. -/
theorem apply_edit {c : Nat} {f : Column α → Except (ProblemError α) (Column α)}
    {check : Column α → Action α Unit}
    (hok : ∀ column column', f column = .ok column' →
      (check column).apply p = (InPlace.write c column').apply p)
    (herror : ∀ column e, f column = .error e → (check column).apply p = (.error e, p)) :
    Action.apply (InPlace.read c >>= check) p = p.outcome () (p.edit c f) := by
  cases hc : p.column? c with
  | none =>
    simp only [edit, hc]
    exact apply_bind_error (apply_read_error hc) _
  | some column =>
    simp only [edit, hc, apply_bind_ok (apply_read_ok hc)]
    cases hf : f column with
    | error e => exact herror column e hf
    | ok column' => exact hok column column' hf

/-- A change of a column succeeds if the column is there and takes the change. -/
theorem exists_edit_iff {c : Nat}
    {f : Column α → Except (ProblemError α) (Column α)} : (∃ q, p.edit c f = .ok q) ↔
      ∃ column, p.column? c = some column ∧ ∃ column', f column = .ok column' := by
  constructor
  · rintro ⟨q, h⟩
    obtain ⟨column, column', hc, hf, -⟩ := edit_eq_ok h
    exact ⟨column, hc, column', hf⟩
  · rintro ⟨column, hc, column', hf⟩
    exact ⟨{ p with columns := p.columns.set (c - 1) column' }, by simp only [edit, hc, hf]⟩

theorem apply_setObjective (c : Nat) (coefficient : α) :
    (InPlace.setObjective c coefficient).apply p = p.outcome () (p.setObjective c coefficient) := by
  refine apply_edit (fun column column' h => ?_) fun column e h => ?_
  · rw [← Except.ok.inj h]
  · cases h

theorem apply_setInteger (c : Nat) (integer : Bool) :
    (InPlace.setInteger c integer).apply p = p.outcome () (p.setInteger c integer) := by
  refine apply_edit (fun column column' h => ?_) fun column e h => ?_
  · rw [← Except.ok.inj h]
  · cases h

/-- Looking at columns changes nothing, and stops at the first one that is not there. -/
theorem apply_forM_read (terms : List (Nat × α)) :
    Action.apply (forM terms fun term => do let _ ← InPlace.read term.1) p =
      ((terms.find? fun term => (p.column? term.1).isNone).elim (.ok ())
        fun term => .error (.unknownColumn term.1), p) := by
  induction terms with
  | nil => rfl
  | cons term terms ih =>
    rw [List.forM_cons, List.find?_cons]
    cases hc : p.column? term.1 with
    | none => exact apply_bind_error (apply_bind_error (apply_read_error hc) _) _
    | some column =>
      have hfirst : Action.apply (do let _ ← InPlace.read term.1) p = (.ok (), p) :=
        apply_bind_ok (apply_read_ok hc) _
      rw [apply_bind_ok hfirst, ih]
      rfl

theorem apply_addRow (row : Row α) :
    (InPlace.addRow row).apply p = p.outcome () (p.addRow row) := by
  have hread := apply_forM_read (p := p) row.terms
  simp only [InPlace.addRow, addRow]
  cases hfind : row.terms.find? fun term => (p.column? term.1).isNone with
  | some term =>
    rw [hfind] at hread
    exact apply_bind_error hread _
  | none =>
    rw [hfind] at hread
    exact apply_bind_ok hread _

variable [Scalar α]

/-- An upper bound below the lower one is refused before anything is written. -/
theorem apply_setUpper (c : Nat) (upper : α) :
    (InPlace.setUpper c upper).apply p = p.outcome () (p.setUpper c upper) := by
  refine apply_edit (fun column column' h => ?_) fun column e h => ?_
  · split at h
    · cases h
    · next hlt =>
      cases h
      simp only [hlt, ↓reduceIte]
  · split at h
    · next hlt =>
      cases h
      simp only [hlt, ↓reduceIte]
      rfl
    · cases h

theorem apply_setLower (c : Nat) (lower : α) :
    (InPlace.setLower c lower).apply p = p.outcome () (p.setLower c lower) := by
  refine apply_edit (fun column column' h => ?_) fun column e h => ?_
  · split at h
    · next upper hupper =>
      split at h
      · cases h
      · next hlt =>
        cases h
        simp only [hupper, hlt, ↓reduceIte]
    · next hupper =>
      cases h
      simp only [hupper]
  · split at h
    · next upper hupper =>
      split at h
      · next hlt =>
        cases h
        simp only [hupper, hlt, ↓reduceIte]
        rfl
      · cases h
    · cases h

theorem apply_addColumn (name : String) (integer : Bool) :
    (InPlace.addColumn name integer).apply p =
      (.ok (p.columns.length + 1), p.addColumn name integer) := by
  have hlength : (p.addColumn name integer).columns.length = p.columns.length + 1 :=
    List.length_append
  rw [← hlength]
  rfl

end actions

/-! ## Calls -/

/-- A change that is asked for. -/
inductive Call (α : Type)
  | addColumn (name : String) (integer : Bool)
  | setDirection (direction : Direction)
  | setObjective (c : Nat) (coefficient : α)
  | setInteger (c : Nat) (integer : Bool)
  | setUpper (c : Nat) (upper : α)
  | setLower (c : Nat) (lower : α)
  | addRow (row : Row α)

namespace Call

/-- The name of the column that the call adds. -/
def added? : Call α → Option String
  | .addColumn name _ => some name
  | _ => none

/-- The number that the call gives: that of a new column. -/
def number? (p : Problem α) : Call α → Option Nat
  | .addColumn _ _ => some (p.columns.length + 1)
  | _ => none

variable [Scalar α]

/-- What the call does in place. -/
def action : Call α → Action α (Option Nat)
  | .addColumn name integer => some <$> InPlace.addColumn name integer
  | .setDirection direction => do InPlace.setDirection direction; return none
  | .setObjective c coefficient => do InPlace.setObjective c coefficient; return none
  | .setInteger c integer => do InPlace.setInteger c integer; return none
  | .setUpper c upper => do InPlace.setUpper c upper; return none
  | .setLower c lower => do InPlace.setLower c lower; return none
  | .addRow row => do InPlace.addRow row; return none

/-- The problem that the call makes of another one. -/
def change (p : Problem α) : Call α → Except (ProblemError α) (Problem α)
  | .addColumn name integer => .ok (p.addColumn name integer)
  | .setDirection direction => .ok (p.setDirection direction)
  | .setObjective c coefficient => p.setObjective c coefficient
  | .setInteger c integer => p.setInteger c integer
  | .setUpper c upper => p.setUpper c upper
  | .setLower c lower => p.setLower c lower
  | .addRow row => p.addRow row

/-- The columns that the call names are there, and a bound that it sets does not cross the other
bound of its column. -/
def Allowed (p : Problem α) : Call α → Prop
  | .addColumn _ _ | .setDirection _ => True
  | .setObjective c _ | .setInteger c _ => ∃ column, p.column? c = some column
  | .setUpper c upper => ∃ column, p.column? c = some column ∧ ¬ upper < column.lower
  | .setLower c lower => ∃ column, p.column? c = some column ∧
      ∀ upper, column.upper = some upper → ¬ upper < lower
  | .addRow row => ∀ term ∈ row.terms, 0 < term.1 ∧ term.1 ≤ p.columns.length

end Call

variable [Scalar α]

/-- The problem after calls, whatever each of them comes to. -/
def after (p : Problem α) (calls : List (Call α)) : Problem α :=
  calls.foldl (fun p c => (c.action.apply p).2) p

/-- In place, a call has the outcome that it has on the problem as a value. -/
theorem apply_action (p : Problem α) (c : Call α) :
    c.action.apply p = p.outcome (c.number? p) (c.change p) := by
  cases c with
  | addColumn name integer => exact apply_bind_ok (apply_addColumn name integer) _
  | setDirection direction => rfl
  | setObjective c coefficient => exact apply_bind_pure (apply_setObjective c coefficient) none
  | setInteger c integer => exact apply_bind_pure (apply_setInteger c integer) none
  | setUpper c upper => exact apply_bind_pure (apply_setUpper c upper) none
  | setLower c lower => exact apply_bind_pure (apply_setLower c lower) none
  | addRow row => exact apply_bind_pure (apply_addRow row) none

/-! ## Which calls are accepted -/

/-- A call succeeds exactly if it is allowed. -/
theorem exists_change_iff {p : Problem α} {c : Call α} :
    (∃ q, c.change p = .ok q) ↔ c.Allowed p := by
  cases c with
  | addColumn name integer => exact iff_of_true ⟨_, rfl⟩ trivial
  | setDirection direction => exact iff_of_true ⟨_, rfl⟩ trivial
  | setObjective c coefficient =>
    exact exists_edit_iff.trans (exists_congr fun column => and_iff_left ⟨_, rfl⟩)
  | setInteger c integer =>
    exact exists_edit_iff.trans (exists_congr fun column => and_iff_left ⟨_, rfl⟩)
  | setUpper c upper =>
    refine exists_edit_iff.trans (exists_congr fun column => and_congr_right fun _ => ?_)
    by_cases hlt : upper < column.lower <;> simp [hlt]
  | setLower c lower =>
    refine exists_edit_iff.trans (exists_congr fun column => and_congr_right fun _ => ?_)
    cases hupper : column.upper with
    | none => simp
    | some upper => by_cases hlt : upper < lower <;> simp [hlt]
  | addRow row =>
    refine ⟨fun ⟨q, h⟩ => (addRow_eq_ok h).1, fun h => ⟨{ p with rows := p.rows ++ [row] }, ?_⟩⟩
    have hnone : row.terms.find? (fun term => (p.column? term.1).isNone) = none := by
      refine List.find?_eq_none.2 fun term hterm => ?_
      rw [Bool.not_eq_true, Option.isNone_eq_false_iff]
      exact column?_isSome_iff.2 (h term hterm)
    simp only [Call.change, addRow, hnone]

/-- What a call comes to: it is accepted exactly if it is allowed, then makes its change and gives
its number, and otherwise it is refused and nothing is changed. -/
structure Follows (p : Problem α) (c : Call α) : Prop where
  accepted : c.Allowed p → ∃ q, c.change p = .ok q ∧ c.action.apply p = (.ok (c.number? p), q)
  refused : ¬ c.Allowed p → ∃ e, c.change p = .error e ∧ c.action.apply p = (.error e, p)

/-- A call does what it says if it is allowed, and otherwise changes nothing. -/
theorem follows (p : Problem α) (c : Call α) : p.Follows c := by
  have happly := apply_action p c
  constructor
  · intro h
    obtain ⟨q, hq⟩ := exists_change_iff.2 h
    rw [hq] at happly
    exact ⟨q, hq, happly⟩
  · intro h
    cases hchange : c.change p with
    | ok q => exact absurd (exists_change_iff.1 ⟨q, hchange⟩) h
    | error e =>
      rw [hchange] at happly
      exact ⟨e, rfl, happly⟩

/-! ## What calls keep -/

/-- Rows name columns of the problem, and no upper bound lies below the lower bound. -/
structure Consistent (p : Problem α) : Prop where
  known : p.Known
  ordered : ∀ column ∈ p.columns, ∀ upper, column.upper = some upper → ¬ upper < column.lower

theorem consistent_empty (name : String) (direction : Direction) :
    (empty name direction : Problem α).Consistent :=
  ⟨(Built.empty name direction).known, fun _ h => absurd h List.not_mem_nil⟩

namespace Consistent

variable {p q : Problem α} (hp : p.Consistent)

include hp

/-- Where an edit keeps the bounds of a column apart, the problem stays consistent. -/
theorem edit {c : Nat} {f : Column α → Except (ProblemError α) (Column α)} (h : p.edit c f = .ok q)
    (hf : ∀ column ∈ p.columns, ∀ column', f column = .ok column' →
      ∀ upper, column'.upper = some upper → ¬ upper < column'.lower) : q.Consistent := by
  refine ⟨hp.known.edit h, ?_⟩
  obtain ⟨column, column', hc, hcolumn', rfl⟩ := edit_eq_ok h
  intro other hother
  rcases List.mem_or_eq_of_mem_set hother with hother | rfl
  · exact hp.ordered other hother
  · refine hf column ?_ other hcolumn'
    unfold column? at hc
    split at hc
    · cases hc
    · exact List.mem_of_getElem? hc

theorem change {c : Call α} (h : c.change p = .ok q) : q.Consistent := by
  cases c with
  | addColumn name integer =>
    obtain rfl := Except.ok.inj h
    refine ⟨hp.known.addColumn name integer, fun column hcolumn => ?_⟩
    rcases List.mem_append.1 hcolumn with hcolumn | hcolumn
    · exact hp.ordered column hcolumn
    · rw [List.mem_singleton.1 hcolumn]
      intro upper hupper
      cases hupper
  | setDirection direction =>
    obtain rfl := Except.ok.inj h
    exact ⟨hp.known, hp.ordered⟩
  | setObjective c coefficient =>
    rw [Call.change, setObjective] at h
    refine hp.edit h fun column hcolumn column' hf => ?_
    obtain rfl := Except.ok.inj hf
    exact hp.ordered column hcolumn
  | setInteger c integer =>
    rw [Call.change, setInteger] at h
    refine hp.edit h fun column hcolumn column' hf => ?_
    obtain rfl := Except.ok.inj hf
    exact hp.ordered column hcolumn
  | setUpper c upper =>
    refine hp.edit h fun column _ column' hf upper' hupper => ?_
    split at hf
    · cases hf
    · next hlt =>
      cases hf
      cases hupper
      exact hlt
  | setLower c lower =>
    refine hp.edit h fun column _ column' hf upper' hupper => ?_
    split at hf
    · next upper heq =>
      split at hf
      · cases hf
      · next hlt =>
        cases hf
        rw [heq] at hupper
        cases hupper
        exact hlt
    · next heq =>
      cases hf
      rw [heq] at hupper
      cases hupper
  | addRow row =>
    refine ⟨hp.known.addRow h, ?_⟩
    obtain ⟨-, rfl⟩ := addRow_eq_ok h
    exact hp.ordered

theorem apply (c : Call α) : (c.action.apply p).2.Consistent := by
  rw [apply_action]
  cases h : c.change p with
  | ok q => exact hp.change h
  | error e => exact hp

/-- Calls keep a problem consistent, whether they are accepted or not. -/
theorem after (calls : List (Call α)) : (p.after calls).Consistent := by
  induction calls generalizing p with
  | nil => exact hp
  | cons c calls ih => exact ih (hp.apply c)

end Consistent

omit [Scalar α] in
/-- An edit that keeps the name of its column keeps all names in order. -/
theorem names_edit {p q : Problem α} {c : Nat} {f : Column α → Except (ProblemError α) (Column α)}
    (h : p.edit c f = .ok q) (hf : ∀ column column', f column = .ok column' →
      column'.name = column.name) : q.columns.map (·.name) = p.columns.map (·.name) := by
  obtain ⟨column, column', hc, hcolumn', rfl⟩ := edit_eq_ok h
  have hplace : (p.columns.map (·.name))[c - 1]? = some column'.name := by
    unfold column? at hc
    split at hc
    · cases hc
    · rw [List.getElem?_map, hc, Option.map_some, hf column column' hcolumn']
  obtain ⟨hlt, hname⟩ := List.getElem?_eq_some_iff.1 hplace
  rw [List.map_set, ← hname, List.set_getElem_self]

/-- Only a new column adds a name, and it adds it at the end. -/
theorem names_change {p q : Problem α} {c : Call α} (h : c.change p = .ok q) :
    q.columns.map (·.name) = p.columns.map (·.name) ++ c.added?.toList := by
  cases c with
  | addColumn name integer =>
    obtain rfl := Except.ok.inj h
    exact List.map_append
  | setDirection direction =>
    obtain rfl := Except.ok.inj h
    exact (List.append_nil _).symm
  | setObjective c coefficient =>
    rw [Call.change, setObjective] at h
    refine (names_edit h fun column column' hf => ?_).trans (List.append_nil _).symm
    rw [← Except.ok.inj hf]
  | setInteger c integer =>
    rw [Call.change, setInteger] at h
    refine (names_edit h fun column column' hf => ?_).trans (List.append_nil _).symm
    rw [← Except.ok.inj hf]
  | setUpper c upper =>
    refine (names_edit h fun column column' hf => ?_).trans (List.append_nil _).symm
    split at hf
    · cases hf
    · rw [← Except.ok.inj hf]
  | setLower c lower =>
    refine (names_edit h fun column column' hf => ?_).trans (List.append_nil _).symm
    split at hf
    · split at hf
      · cases hf
      · rw [← Except.ok.inj hf]
    · rw [← Except.ok.inj hf]
  | addRow row =>
    obtain ⟨-, rfl⟩ := addRow_eq_ok h
    exact (List.append_nil _).symm

/-- A call that adds a column is always accepted, so the names are those of the added columns. -/
theorem names_after (p : Problem α) (calls : List (Call α)) : (p.after calls).columns.map (·.name) =
    p.columns.map (·.name) ++ calls.filterMap Call.added? := by
  induction calls generalizing p with
  | nil => exact (List.append_nil _).symm
  | cons c calls ih =>
    have hstep : (c.action.apply p).2.columns.map (·.name) =
        p.columns.map (·.name) ++ c.added?.toList := by
      rw [apply_action]
      cases h : c.change p with
      | ok q => exact names_change h
      | error e =>
        cases c with
        | addColumn name integer => cases h
        | _ => exact (List.append_nil _).symm
    rw [after, List.foldl_cons]
    refine (ih (c.action.apply p).2).trans ?_
    rw [hstep, List.append_assoc, List.filterMap_cons]
    cases c.added? <;> rfl

theorem after_append (p : Problem α) (before later : List (Call α)) :
    p.after (before ++ later) = (p.after before).after later :=
  List.foldl_append

/-- After any calls, refused ones among them, rows name columns of the problem, no upper bound lies
below the lower bound of its column, and the next call is refused exactly if it is not allowed, and
then changes nothing. The columns are those that were added, in their order, and a column still has
the number that was given when it was added. -/
theorem consistent_after_calls (name : String) (direction : Direction) (calls : List (Call α)) :
    ((empty name direction).after calls).Consistent ∧
      (∀ c, ((empty name direction).after calls).Follows c) ∧
      ((empty name direction).after calls).columns.map (·.name) = calls.filterMap Call.added? ∧
      ∀ before later column integer, calls = before ++ .addColumn column integer :: later →
        ∃ number entry, ((Call.addColumn column integer).action.apply
            ((empty name direction).after before)).1 = .ok (some number) ∧
          ((empty name direction).after calls).column? number = some entry ∧
            entry.name = column := by
  refine ⟨(consistent_empty name direction).after calls, follows _, names_after _ _, ?_⟩
  rintro before later column integer rfl
  let p := (empty name direction : Problem α).after before
  have hadd : (Call.addColumn column integer).action.apply p =
      (.ok (some (p.columns.length + 1)), p.addColumn column integer) := apply_action ..
  have hafter : (empty name direction).after (before ++ .addColumn column integer :: later) =
      (p.addColumn column integer).after later := by
    rw [after_append, after, List.foldl_cons, hadd]
    rfl
  -- the name stands right behind those of the columns before
  have hname :
      (((p.addColumn column integer).after later).columns.map (·.name))[p.columns.length]? =
        some column := by
    have hnames : (p.addColumn column integer).columns.map (·.name) =
        p.columns.map (·.name) ++ [column] := List.map_append
    rw [names_after, hnames, List.append_assoc, ← List.length_map (·.name),
      List.getElem?_append_right (Nat.le_refl _), Nat.sub_self]
    rfl
  rw [List.getElem?_map] at hname
  obtain ⟨entry, hentry, hname⟩ := Option.map_eq_some_iff.1 hname
  refine ⟨p.columns.length + 1, entry, by rw [hadd], ?_, hname⟩
  rw [hafter, column?, if_neg (Nat.succ_ne_zero _)]
  exact hentry

/-- A lower bound that is no number lies above no upper bound. -/
example : ((empty "nan" .maximise).after
    [.addColumn "x" false, .setUpper 1 (-1), .setLower 1 (0 / 0), .setUpper 1 (-1),
      .setLower 1 (0 : Float)]).columns.map (·.upper) = [some (-1)] := by
  decide +kernel

end WorstCase.Problem
