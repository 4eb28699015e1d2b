/-!
# Maps from numbers

A finite map keyed by natural numbers is the list of its entries in ascending order of their keys,
with one entry for each key. Equal maps are equal lists.
-/

namespace WorstCase

/-- A finite map from numbers. -/
structure NatMap (ν : Type) where
  entries : List (Nat × ν)
deriving DecidableEq, Repr

namespace NatMap

variable {ν : Type}

def empty : NatMap ν := ⟨[]⟩

/-- The value stored for a key. -/
def get? (m : NatMap ν) (k : Nat) : Option ν :=
  m.entries.lookup k

def contains (m : NatMap ν) (k : Nat) : Bool :=
  (m.get? k).isSome

/-- Puts an entry in its place among ascending entries; it replaces one of the same key. -/
def insertEntry (k : Nat) (v : ν) : List (Nat × ν) → List (Nat × ν)
  | [] => [(k, v)]
  | (l, w) :: rest =>
    if k < l then (k, v) :: (l, w) :: rest
    else if k = l then (k, v) :: rest
    else (l, w) :: insertEntry k v rest

/-- Stores a value for a key, in place of any other. -/
def insert (m : NatMap ν) (k : Nat) (v : ν) : NatMap ν :=
  ⟨insertEntry k v m.entries⟩

/-- The number of keys. -/
def size (m : NatMap ν) : Nat :=
  m.entries.length

def keys (m : NatMap ν) : List Nat :=
  m.entries.map (·.1)

def values (m : NatMap ν) : List ν :=
  m.entries.map (·.2)

/-- The map of a list of entries, later ones replacing earlier ones of the same key. -/
def ofList (entries : List (Nat × ν)) : NatMap ν :=
  entries.foldl (fun m entry => m.insert entry.1 entry.2) empty

end NatMap

end WorstCase
