import WorstCase.Analysis.Request

/-!
# A sample program

A main subprogram with two nested loops that calls a leaf with one loop, and data for both.
-/

namespace WorstCase.Sample

/-- The number of the main subprogram. -/
def mainId : Nat := 1

/-- The number of the leaf. -/
def leafId : Nat := 2

/-- The measured edges between the given vertices, numbered from 1. -/
def numbered (ends : List (Nat × Nat × EdgeKind)) : List Edge :=
  ends.zipIdx.map fun ((source, destination, kind), i) => ⟨i + 1, source, destination, kind⟩

/-- An outer loop with header 2 around an inner loop with header 3, and a way back from 4 to the
entry. The edge from 3 to 5 calls the leaf on demand. -/
def nestedLoops (name : String) (callLeaf : Bool) : GraphSpec where
  name
  vertices := [1, 2, 3, 4, 5, 6]
  edges := numbered
    [(1, 2, .trace), (2, 3, .trace), (3, 5, if callLeaf then .inlined leafId else .trace),
      (5, 3, .trace), (3, 6, .trace), (6, 2, .trace), (2, 4, .trace), (4, 1, .trace)]
  entry? := some 1

/-- A single loop with header 2. -/
def leaf (name : String) : GraphSpec where
  name
  vertices := [1, 2, 3, 4]
  edges := numbered
    [(1, 2, .trace), (2, 3, .trace), (3, 2, .trace), (3, 4, .trace), (4, 1, .trace)]
  entry? := some 1

/-- Builds a graph and makes a subprogram of it. -/
def subprogram (id : Nat) (spec : GraphSpec) : Except RequestError Subprogram := do
  let g ← Request.lift .graph spec.build
  Request.lift .program (Subprogram.ofGraphTagged id spec.name g)

/-- The sample program. -/
def program : Except RequestError Program := do
  let main ← subprogram mainId (nestedLoops "main" true)
  let leaf ← subprogram leafId (leaf "leaf")
  let p ← Request.lift .program (Program.empty.add main)
  Request.lift .program (p.add leaf)

/-- The data for the main subprogram: each edge takes 2. -/
def mainData : SubprogramData :=
  let bounds := ((SubprogramData.empty.setLoopBound 3 2 5).setLoopBound 2 1 3).setLoopBound 3 1 15
  let timed := [1, 2, 3, 4, 5, 6, 7, 8].foldl (fun d edge => d.setUnitWcet edge 2) bounds
  { timed with tests := 10 }

/-- The data for the leaf. -/
def leafData : SubprogramData :=
  let timed := ((SubprogramData.empty.setUnitWcet 1 1).setUnitWcet 2 4).setUnitWcet 4 1
  { timed.setLoopBound 2 1 8 with tests := 10 }

/-- The data for the sample program. -/
def database : Except RequestError Database := do
  let db ← Request.lift .data (Database.empty.insert mainId mainData)
  Request.lift .data (db.insert leafId leafData)

end WorstCase.Sample
