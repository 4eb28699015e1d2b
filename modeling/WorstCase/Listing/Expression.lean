import WorstCase.Linear.Problem
import WorstCase.Text.Blank

/-!
# Expressions of a listing

One side of a statement is a sum of terms. A term is a number, a column name or both, with a sign in
front that only the first term may go without. Reading cuts one term at a time off the text.
-/

namespace WorstCase

/-- Why a text is no listing. -/
inductive ListingError (α : Type)
  | badStatement (text : String)
  | badTerm (text : String)
  | noObjective
  | unterminated (text : String)
  | problem (error : ProblemError α)

def ListingError.message {α : Type} : ListingError α → String
  | .badStatement text => s!"Unable to parse statement: {text}"
  | .badTerm text => s!"Unable to parse term '{text}'"
  | .noObjective => "The listing has no objective function"
  | .unterminated text => s!"Unterminated statement: {text}"
  | .problem _ => "Invalid problem"

namespace Listing

/-! ## Column names -/

/-- The characters a column name can start with. -/
def isNameStart (c : Char) : Bool :=
  c.isAlpha || c == '_'

/-- The characters of a column name. -/
def isNameChar (c : Char) : Bool :=
  c.isAlphanum || c == '_' || c == '[' || c == ']' || c == '.'

/-- The rest of a name and the text after it. A hyphen belongs to the name when a name character
follows it, so `a-b` is one name and `a - b` a difference. -/
def readNameTail : List Char → List Char × List Char
  | [] => ([], [])
  | '-' :: c :: cs =>
    if isNameChar c then
      let (name, rest) := readNameTail cs
      ('-' :: c :: name, rest)
    else ([], '-' :: c :: cs)
  | c :: cs =>
    if isNameChar c then
      let (name, rest) := readNameTail cs
      (c :: name, rest)
    else ([], c :: cs)

/-- The longest name at the start of the text, and the text after it. -/
def readName? : List Char → Option (List Char × List Char)
  | [] => none
  | c :: cs =>
    if isNameStart c then
      let (name, rest) := readNameTail cs
      some (c :: name, rest)
    else none

/-! ## Terms -/

/-- The parts of a term as written, and the text after it. -/
structure Written where
  sign : Option Char
  number : Option Decimal
  name : Option (List Char)
  rest : List Char

/-- The sign at the start of the text, and the text after it. -/
def readSign : List Char → Option Char × List Char
  | '+' :: cs => (some '+', cs)
  | '-' :: cs => (some '-', cs)
  | cs => (none, cs)

/-- The text after the sign of multiplication, which may be left out. -/
def skipTimes : List Char → List Char
  | '*' :: cs => cs
  | cs => cs

/-- Reads what there is of a sign, a number, a sign of multiplication and a name, with blanks
between and after them. -/
def Written.read (cs : List Char) : Written :=
  let (sign, cs) := readSign cs
  let cs := Text.trimStart cs
  let (number, cs) :=
    match Decimal.read? cs with
    | some (d, rest) => (some d, rest)
    | none => (none, cs)
  let cs := Text.trimStart (skipTimes (Text.trimStart cs))
  let (name, cs) :=
    match readName? cs with
    | some (name, rest) => (some name, rest)
    | none => (none, cs)
  ⟨sign, number, name, Text.trimStart cs⟩

/-- A term of a sum. -/
inductive Term (α : Type)
  | column (name : String) (coefficient : α)
  | constant (value : α)

/-- The term that is written, if it has a number or a name. A name without a number counts once. -/
def Written.term? {α : Type} [Scalar α] [Numeral α] (w : Written) : Option (Term α) :=
  let sign : α := if w.sign = some '-' then -1 else 1
  match w.name, w.number with
  | some name, some d => some (.column (String.ofList name) (sign * Numeral.ofDecimal d))
  | some name, none => some (.column (String.ofList name) (sign * 1))
  | none, some d => some (.constant (sign * Numeral.ofDecimal d))
  | none, none => none

/-- The text to complain about when no term can be read: up to the next sign. -/
def offending (cs : List Char) : String :=
  let isSign (c : Char) : Bool := c == '+' || c == '-'
  String.ofList (Text.trim ((cs.dropWhile isSign).takeWhile fun c => !isSign c))

/-- Cuts terms off the text until it is used up. Each term takes at least one character, so the
length of the text bounds the number of rounds. -/
def readTerms {α : Type} [Scalar α] [Numeral α] :
    Nat → (first : Bool) → List Char → Except (ListingError α) (List (Term α))
  | _, _, [] => .ok []
  | 0, _, cs => .error (.badTerm (offending cs))
  | rounds + 1, first, cs =>
    let w := Written.read cs
    if w.sign.isNone && !first then .error (.badTerm (offending cs))
    else
      match (w.term? : Option (Term α)) with
      | none => .error (.badTerm (offending cs))
      | some term =>
        match readTerms rounds false w.rest with
        | .error e => .error e
        | .ok terms => .ok (term :: terms)

/-! ## Sides -/

/-- One side of a statement: its terms with a column, and the sum of the others. -/
structure Side (α : Type) where
  terms : List (String × α)
  constant : α

namespace Side

variable {α : Type} [Scalar α]

def ofTerms (terms : List (Term α)) : Side α where
  terms := terms.filterMap fun
    | .column name coefficient => some (name, coefficient)
    | .constant _ => none
  constant := terms.foldl
    (fun sum term =>
      match term with
      | .column _ _ => sum
      | .constant value => sum + value)
    0

/-- Reads one side of a statement. -/
def read [Numeral α] (cs : List Char) : Except (ListingError α) (Side α) :=
  let cs := Text.trim cs
  match readTerms cs.length true cs with
  | .error e => .error e
  | .ok terms => .ok (ofTerms terms)

end Side

end Listing

end WorstCase
