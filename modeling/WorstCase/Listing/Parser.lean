import WorstCase.Listing.Statement

/-!
# Reading a listing

A listing is cut into headings, remarks and statements, and the problem is built up from these in
order. A heading sets the group of the rows after it. A remark becomes the comment of the next row.
A comparison with a single term is a bound on its column and makes no row. Columns are numbered in
the order in which they first occur.
-/

namespace WorstCase

/-! ## Columns by name -/

section Columns

variable {α : Type} [Scalar α]

/-- The problem with a column of this name, and its number. -/
def Problem.intern (p : Problem α) (name : String) : Problem α × Nat :=
  match p.columnNamed? name with
  | some c => (p, c)
  | none => (p.addColumn name false, p.columns.length + 1)

/-- The problem with a column for each name, and the terms over their numbers. -/
def Problem.internTerms (p : Problem α) : List (String × α) → Problem α × List (Nat × α)
  | [] => (p, [])
  | (name, coefficient) :: rest =>
    let (p, c) := p.intern name
    let (p, terms) := p.internTerms rest
    (p, (c, coefficient) :: terms)

end Columns

namespace Listing

/-! ## The parts of a listing -/

/-- A part of a listing: a line that starts a section, another remark line, or a statement, which
may span lines. -/
inductive Item
  | heading (group : RowGroup)
  | remark (text : List Char)
  | statement (text : List Char)

/-- The line titles that set the group of rows. -/
def headings : List (String × RowGroup) :=
  [("Flow constraints", .flow), ("Loop constraints", .loop), ("Capacity constraints", .capacity),
    ("Other constraints", .other), ("Bounds", .other), ("Objective function", .other),
    ("Integer constraints", .other)]

/-- A line that starts with two slashes, given without them. -/
def Item.ofRemark (cs : List Char) : Item :=
  match headings.lookup (String.ofList cs) with
  | some group => .heading group
  | none => .remark cs

/-- The statements that semicolons end, and the text after the last one. -/
def cut : List (List Char) → List Item × List Char
  | [] => ([], [])
  | [tail] => ([], tail)
  | piece :: rest =>
    let (items, tail) := cut rest
    let text := Text.trim piece
    (if text.isEmpty then items else .statement text :: items, tail)

/-- The parts of a listing given by lines, and the text after the last semicolon. The text before
the first line is what is left of a statement that has not ended. -/
def itemsOfLines (pending : List Char) : List (List Char) → List Item × List Char
  | [] => ([], pending)
  | line :: rest =>
    let line := Text.trim line
    match Text.after? ['/', '/'] line with
    | some remark =>
      let (items, tail) := itemsOfLines pending rest
      (.ofRemark (Text.trim remark) :: items, tail)
    | none =>
      let (items, pending) := cut ((pending ++ ' ' :: line).splitOnP (· == ';'))
      let (later, tail) := itemsOfLines pending rest
      (items ++ later, tail)

/-- The parts of a listing, and the text after the last semicolon. -/
def items (listing : List Char) : List Item × List Char :=
  itemsOfLines [] (listing.splitOnP (· == '\n'))

/-! ## Building the problem -/

/-- The problem read so far, the group for the next row, and the remark it will take. -/
structure Draft (α : Type) where
  problem : Problem α
  hasObjective : Bool
  group : RowGroup
  comment : Option String

variable {α : Type} [Scalar α]

namespace Draft

def start : Draft α where
  problem := .empty "parsed" .maximise
  hasObjective := false
  group := .other
  comment := none

/-- Puts another problem in place of the one read so far. -/
def withProblem (d : Draft α) :
    Except (ProblemError α) (Problem α) → Except (ListingError α) (Draft α)
  | .ok problem => .ok { d with problem }
  | .error e => .error (.problem e)

/-- Adds coefficients to the objective. -/
def addObjective (p : Problem α) : List (String × α) → Except (ProblemError α) (Problem α)
  | [] => .ok p
  | (name, coefficient) :: rest =>
    let (p, c) := p.intern name
    match p.edit c fun column =>
      .ok { column with objective := column.objective + coefficient } with
    | .error e => .error e
    | .ok p => addObjective p rest

/-- Makes columns integer. -/
def addIntegers (p : Problem α) : List String → Except (ProblemError α) (Problem α)
  | [] => .ok p
  | name :: rest =>
    let (p, c) := p.intern name
    match p.setInteger c true with
    | .error e => .error e
    | .ok p => addIntegers p rest

/-- Sets the bounds of a column that a comparison with one term states. -/
def setBound (p : Problem α) (c : Nat) (comparison : Comparison) (bound : α) :
    Except (ProblemError α) (Problem α) :=
  match comparison with
  | .atMost => p.setUpper c bound
  | .atLeast => p.setLower c bound
  | .equal =>
    match p.setLower c bound with
    | .error e => .error e
    | .ok p => p.setUpper c bound

/-- Adds what a comparison states: a bound if it has one term, else a row. -/
def addConstraint (d : Draft α) (text : List Char) (left : Side α) (comparison : Comparison)
    (right : Side α) : Except (ListingError α) (Draft α) :=
  let (p, leftTerms) := d.problem.internTerms left.terms
  let (p, rightTerms) := p.internTerms (right.terms.map fun (name, k) => (name, -k))
  let rhs := right.constant - left.constant
  match leftTerms ++ rightTerms with
  | [(c, coefficient)] =>
    if coefficient == 0 then .error (.badStatement (String.ofList text))
    else
      let comparison := if coefficient < 0 then comparison.flip else comparison
      { d with comment := none }.withProblem (setBound p c comparison (rhs / coefficient))
  | terms =>
    { d with comment := none }.withProblem (p.addRow ⟨terms, comparison, rhs, d.group, d.comment⟩)

/-- Adds one part of a listing. -/
def add [Numeral α] (d : Draft α) : Item → Except (ListingError α) (Draft α)
  | .heading group => .ok { d with group }
  | .remark text => .ok { d with comment := some (String.ofList text) }
  | .statement text =>
    match Statement.read text with
    | .error e => .error e
    | .ok (.objective direction side) =>
      { d with hasObjective := true }.withProblem
        (addObjective (d.problem.setDirection direction) side.terms)
    | .ok (.integers names) => d.withProblem (addIntegers d.problem names)
    | .ok (.constraint left comparison right) => d.addConstraint text left comparison right

/-- Adds the parts of a listing in order. -/
def addAll [Numeral α] (d : Draft α) : List Item → Except (ListingError α) (Draft α)
  | [] => .ok d
  | item :: rest =>
    match d.add item with
    | .error e => .error e
    | .ok d => d.addAll rest

end Draft

/-- Reads a listing. It has to state an objective, and its last statement has to end. -/
def read [Numeral α] (listing : List Char) : Except (ListingError α) (Problem α) :=
  let (items, tail) := items listing
  match Draft.start.addAll items with
  | .error e => .error e
  | .ok draft =>
    let tail := Text.trim tail
    if !tail.isEmpty then .error (.unterminated (String.ofList tail))
    else if !draft.hasObjective then .error .noObjective
    else .ok draft.problem

/-- Reads a listing. -/
def parse [Numeral α] (listing : String) : Except (ListingError α) (Problem α) :=
  read listing.toList

end Listing

end WorstCase
