/-!
# Sets of numbers

A set of natural numbers is the list of its members in ascending order, so that equal sets are equal
lists and the members come out sorted.
-/

namespace WorstCase

/-- A finite set of numbers, in ascending order. -/
abbrev NatSet := List Nat

namespace NatSet

/-- Adds a member. -/
def insert (n : Nat) : NatSet → NatSet
  | [] => [n]
  | m :: ms =>
    if n < m then n :: m :: ms
    else if n = m then m :: ms
    else m :: insert n ms

/-- The set of the numbers in a list. -/
def ofList (ns : List Nat) : NatSet :=
  ns.foldl (fun set n => insert n set) []

end NatSet

end WorstCase
