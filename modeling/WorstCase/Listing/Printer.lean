import WorstCase.Linear.Problem
import WorstCase.Text.Blank

/-!
# Writing a listing

The listing of a problem states its objective, its rows under the title of their group, its bounds
and its integer columns, one statement a line. Terms with a negative coefficient stand on the right
side with their sign turned.
-/

namespace WorstCase.Problem

variable {α : Type} [Scalar α] [Numeral α]

/-- The name of column `c`; a number without a column is written with a C. -/
def nameOf (p : Problem α) (c : Nat) : List Char :=
  match p.column? c with
  | some column => column.name.toList
  | none => 'C' :: (toString c).toList

/-- A sum of written terms. -/
def writeSum (terms : List (List Char)) : List Char :=
  Text.join " + ".toList terms

/-- A coefficient and a name; a coefficient of one is left out. -/
def writeTerm (coefficient : α) (name : List Char) : List Char :=
  if coefficient == 1 then name else Numeral.text coefficient ++ ' ' :: name

/-- The objective, where each coefficient is written. -/
def objectiveLine (p : Problem α) : List Char :=
  let keyword := match p.direction with
    | .maximise => "max: ".toList
    | .minimise => "min: ".toList
  let terms := p.columns.map fun column =>
    Numeral.text column.objective ++ ' ' :: column.name.toList
  keyword ++ writeSum terms ++ [';']

/-- The statement of a row. -/
def rowLine (p : Problem α) (row : Row α) : List Char :=
  let left := row.terms.filterMap fun (c, k) =>
    if 0 ≤ k then some (writeTerm k (p.nameOf c)) else none
  let right := row.terms.filterMap fun (c, k) =>
    if 0 ≤ k then none else some (writeTerm (-k) (p.nameOf c))
  let left := if left.isEmpty then [['0']] else left
  let right := if row.rhs != 0 || right.isEmpty then right ++ [Numeral.text row.rhs] else right
  writeSum left ++ ' ' :: row.comparison.symbol.toList ++ ' ' :: writeSum right ++ [';']

/-- A line that is no statement. -/
def remarkLine (text : List Char) : List Char :=
  '/' :: '/' :: ' ' :: text

/-- The lines of rows, with a title before the first row of a group. -/
def rowLines (p : Problem α) : Option RowGroup → List (Row α) → List (List Char)
  | _, [] => []
  | group, row :: rest =>
    let title := if group = some row.group then [] else [[], remarkLine row.group.title.toList]
    let comment := match row.comment with
      | some text => [remarkLine text.toList]
      | none => []
    title ++ comment ++ p.rowLine row :: p.rowLines (some row.group) rest

/-- The bounds of a column that are not the usual ones. -/
def boundLines (column : Column α) : List (List Char) :=
  let name := column.name.toList
  let lower := if column.lower != 0 then
      [name ++ " >= ".toList ++ Numeral.text column.lower ++ [';']]
    else []
  let upper := match column.upper with
    | some upper => [name ++ " <= ".toList ++ Numeral.text upper ++ [';']]
    | none => []
  lower ++ upper

/-- A section with a title, left out when it is empty. -/
def titled (title : String) (lines : List (List Char)) : List (List Char) :=
  if lines.isEmpty then [] else [] :: remarkLine title.toList :: lines

/-- The declaration of the integer columns. -/
def integerLines (p : Problem α) : List (List Char) :=
  let names := (p.columns.filter (·.integer)).map (·.name.toList)
  if names.isEmpty then [] else ["int ".toList ++ Text.join [',', ' '] names ++ [';']]

/-- The lines of the listing. -/
def listingLines (p : Problem α) : List (List Char) :=
  remarkLine "Objective function".toList :: p.objectiveLine :: p.rowLines none p.rows ++
    titled "Bounds" (p.columns.flatMap boundLines) ++
    titled "Integer constraints" p.integerLines

/-- The listing of a problem. -/
def listing (p : Problem α) : String :=
  String.ofList (p.listingLines.flatMap (· ++ ['\n']))

end WorstCase.Problem
