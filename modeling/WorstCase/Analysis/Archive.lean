/-!
# Archives of listings

Where the listings of models are kept: files with a name and a content, in ascending order of their
names. An archive may be out of reach, and not every name can be the name of a file.
-/

namespace WorstCase

/-- A place for files. -/
inductive Archive
  /-- Nothing can be written. -/
  | blocked
  | files (entries : List (String × String))
deriving DecidableEq, Repr

namespace Archive

def empty : Archive := .files []

/-- The most bytes that the name of a file can have. -/
def longestName : Nat := 255

/-- A file name is not too long and has no slash and no zero character. -/
def isFileName (name : String) : Bool :=
  decide (name.utf8ByteSize ≤ longestName) && name.toList.all fun c => c != '/' && c.toNat != 0

/-- Puts a file in its place; it replaces one of the same name. -/
def insertFile (name content : String) : List (String × String) → List (String × String)
  | [] => [(name, content)]
  | (n, c) :: rest =>
    if name < n then (name, content) :: (n, c) :: rest
    else if name = n then (name, content) :: rest
    else (n, c) :: insertFile name content rest

/-- Writes a file. Says whether it could be written. -/
def write (a : Archive) (name content : String) : Archive × Bool :=
  match a with
  | .blocked => (.blocked, false)
  | .files entries =>
    if isFileName name then (.files (insertFile name content entries), true)
    else (.files entries, false)

/-- The files, in ascending order of their names. -/
def toList : Archive → List (String × String)
  | .blocked => []
  | .files entries => entries

end Archive

end WorstCase
