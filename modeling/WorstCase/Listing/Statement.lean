import WorstCase.Listing.Expression

/-!
# Statements of a listing

A statement states the objective, names integer columns or compares two sides. Which of the three it
is shows at its start: an objective keyword with a colon, the word `int`, or neither.
-/

namespace WorstCase.Listing

/-- A statement whose sides have been read. -/
inductive Statement (α : Type)
  | objective (direction : Direction) (side : Side α)
  | integers (names : List String)
  | constraint (left : Side α) (comparison : Comparison) (right : Side α)

/-! ## Keywords -/

/-- The letter that a character stands for when case does not count. The long s is a case of s. -/
def foldCase (c : Char) : Char :=
  if c = 'ſ' then 's' else c.toLower

/-- The text after a keyword, whose letters may be in any case. -/
def afterKeyword? : List Char → List Char → Option (List Char)
  | [], cs => some cs
  | _ :: _, [] => none
  | k :: ks, c :: cs => if foldCase c = k then afterKeyword? ks cs else none

/-- The words that start an objective. -/
def objectiveKeywords : List (String × Direction) :=
  [("max", .maximise), ("min", .minimise), ("maximise", .maximise), ("maximize", .maximise),
    ("minimise", .minimise), ("minimize", .minimise)]

/-- The direction and the text of an objective: a keyword, a colon and a sum. -/
def objective? (cs : List Char) : Option (Direction × List Char) :=
  objectiveKeywords.findSome? fun (keyword, direction) =>
    match afterKeyword? keyword.toList cs with
    | none => none
    | some rest =>
      match Text.trimStart rest with
      | ':' :: body => some (direction, body)
      | _ => none

/-- The names of an integer declaration: the word `int`, a blank, and names between which commas and
spaces stand. -/
def integers? (cs : List Char) : Option (List String) :=
  match afterKeyword? "int".toList cs with
  | none => none
  | some [] => none
  | some (c :: rest) =>
    if Text.isBlank c then
      let names := (Text.trimStart rest).splitOnP fun c => c == ',' || c == ' '
      some ((names.filter fun name => !name.isEmpty).map String.ofList)
    else none

/-! ## Comparisons -/

/-- The comparison sign at the start of the text, and the text after it. -/
def readComparison? : List Char → Option (Comparison × List Char)
  | '<' :: '=' :: cs => some (.atMost, cs)
  | '>' :: '=' :: cs => some (.atLeast, cs)
  | '=' :: '<' :: cs => some (.atMost, cs)
  | '=' :: '>' :: cs => some (.atLeast, cs)
  | '<' :: cs => some (.atMost, cs)
  | '>' :: cs => some (.atLeast, cs)
  | '=' :: cs => some (.equal, cs)
  | _ => none

/-- The two sides of the first comparison sign in the text. -/
def splitComparison? : List Char → Option (List Char × Comparison × List Char)
  | [] => none
  | c :: cs =>
    match readComparison? (c :: cs) with
    | some (comparison, right) => some ([], comparison, right)
    | none => (splitComparison? cs).map fun (left, rest) => (c :: left, rest)

/-! ## Reading -/

/-- Reads a statement, given without its semicolon and without blanks at its ends. -/
def Statement.read {α : Type} [Scalar α] [Numeral α] (cs : List Char) :
    Except (ListingError α) (Statement α) :=
  match objective? cs with
  | some (direction, body) =>
    match Side.read body with
    | .error e => .error e
    | .ok side => .ok (.objective direction side)
  | none =>
    match integers? cs with
    | some names => .ok (.integers names)
    | none =>
      match splitComparison? cs with
      | none => .error (.badStatement (String.ofList cs))
      | some (left, comparison, right) =>
        match Side.read left with
        | .error e => .error e
        | .ok left =>
          match Side.read right with
          | .error e => .error e
          | .ok right => .ok (.constraint left comparison right)

end WorstCase.Listing
