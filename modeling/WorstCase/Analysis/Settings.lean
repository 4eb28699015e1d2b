import WorstCase.Linear.BranchAndBound
import WorstCase.Text.Blank
import WorstCase.Text.Unsigned

/-!
# Settings

The settings of a calculation, read from named variables. A variable that is not set leaves its
setting as it is.
-/

namespace WorstCase

/-- Why the variables give no settings. -/
inductive SettingsError
  | invalidValue (variableName value : String)
  | zeroLevel
deriving DecidableEq, Repr

def SettingsError.message : SettingsError → String
  | .invalidValue name value => s!"Invalid value '{value}' for {name}"
  | .zeroLevel => "The loop constraint level must be positive"

structure Settings where
  /-- How many levels a loop bound may reach outwards. Bounds relative to loops further out make no
  rows. -/
  loopConstraintLevel : Nat
  /-- Whether a capacity model caps all edges that were seen, or only the back edges. -/
  allConstraints : Bool
  /-- Where listings of models go. None are written without it. -/
  listingDirectory : Option String
  limits : SearchLimits
deriving DecidableEq, Repr

namespace Settings

/-- The largest level: no bound reaches further. -/
def largestLevel : Nat := 0xFFFFFFFF

/-- The largest count of nodes or milliseconds. -/
def largestCount : Nat := 0xFFFFFFFFFFFFFFFF

def default : Settings :=
  ⟨largestLevel, false, none, .unlimitedTime⟩

/-- The value of a variable as a number, if it is set. -/
def number (lookup : String → Option String) (name : String) (largest : Nat) :
    Except SettingsError (Option Nat) :=
  match lookup name with
  | none => .ok none
  | some value =>
    match Text.readUpTo? largest (Text.trim value.toList) with
    | some n => .ok (some n)
    | none => .error (.invalidValue name value)

/-- The words for yes and no. -/
def readSwitch? (cs : List Char) : Option Bool :=
  let word := String.ofList ((Text.trim cs).map Char.toLower)
  if ["1", "true", "yes", "on"].contains word then some true
  else if ["0", "false", "no", "off"].contains word then some false
  else none

/-- The value of a variable as a switch, if it is set. -/
def switch (lookup : String → Option String) (name : String) :
    Except SettingsError (Option Bool) :=
  match lookup name with
  | none => .ok none
  | some value =>
    match readSwitch? value.toList with
    | some b => .ok (some b)
    | none => .error (.invalidValue name value)

/-- The directory of a variable, unless there is nothing but blanks in it. -/
def directory (lookup : String → Option String) (name : String) : Option String :=
  (lookup name).filter fun value => !(Text.trim value.toList).isEmpty

/-- Reads the settings from variables. The first wrong one is reported. -/
def ofLookup (lookup : String → Option String) : Except SettingsError Settings := do
  let level ← number lookup "IPET_LOOP_CONSTRAINT_LEVEL" largestLevel
  if level = some 0 then
    throw .zeroLevel
  let all ← switch lookup "IPET_ALL_CONSTRAINTS"
  let nodes ← number lookup "IPET_MAX_BRANCH_NODES" largestCount
  let millis ← number lookup "IPET_SOLVE_TIMEOUT_MS" largestCount
  return {
    loopConstraintLevel := level.getD default.loopConstraintLevel
    allConstraints := all.getD default.allConstraints
    listingDirectory := directory lookup "IPET_ILP_DIRECTORY"
    limits := ⟨nodes.getD default.limits.maxNodes, millis⟩ }

/-- The solver that the settings describe. -/
def solver (s : Settings) : Solver Float :=
  BranchAndBound.solveDoubles Simplex.defaultIterations s.limits

end Settings

end WorstCase
