import WorstCase.Program.Subprogram
import WorstCase.Timing.Database

/-!
# Made-up timing data

Data to try the models with when none was measured. Fixed data gives each unit the time 1 and each
loop a bound that grows with the distance between the loops; random data is drawn from a source of
numbers and is the same again for the same source. Which source it is makes no difference to what is
made, as long as its numbers are in the range that was asked for.
-/

namespace WorstCase

/-! ## Sources of numbers -/

/-- A source of numbers in a state. A draw gives a number from 1 to what is asked for, and the state
of the source after it. -/
structure NumberSource (γ : Type) where
  state : γ
  draw : γ → Nat → Nat × γ
  inRange : ∀ state largest, 0 < largest →
    1 ≤ (draw state largest).1 ∧ (draw state largest).1 ≤ largest

/-- A generator of 64-bit words with a 64-bit state. -/
structure Generator where
  state : UInt64
deriving DecidableEq, Repr

namespace Generator

def ofSeed (seed : Nat) : Generator := ⟨seed.toUInt64⟩

/-- Steps the state by an odd constant and mixes its bits. -/
def next (g : Generator) : UInt64 × Generator :=
  let s := g.state + 0x9e3779b97f4a7c15
  let z := (s ^^^ (s >>> 30)) * 0xbf58476d1ce4e5b9
  let z := (z ^^^ (z >>> 27)) * 0x94d049bb133111eb
  (z ^^^ (z >>> 31), ⟨s⟩)

/-- A number from 1 to `largest`, which is positive. -/
def upTo (g : Generator) (largest : Nat) : Nat × Generator :=
  let (word, g) := g.next
  (1 + word.toNat % largest, g)

theorem upTo_inRange (g : Generator) (largest : Nat) (h : 0 < largest) :
    1 ≤ (g.upTo largest).1 ∧ (g.upTo largest).1 ≤ largest := by
  have hlt := Nat.mod_lt g.next.1.toNat h
  simp only [upTo]
  omega

def source (g : Generator) : NumberSource Generator :=
  ⟨g, upTo, upTo_inRange⟩

end Generator

/-! ## Fixed bounds -/

/-- The largest 64-bit number. -/
def maxCount : Nat := 0xFFFFFFFFFFFFFFFF

/-- The fixed bound of a loop relative to another one `difference` levels up: half of ten to the
power of the difference, less the difference, and at least 1. The power stops at the largest 64-bit
number. -/
def fixedBound (difference : Nat) : Nat :=
  let power := if difference < 20 then Nat.pow 10 difference else maxCount
  max 1 (power / 2 - difference)

/-! ## Making data -/

/-- What gets a time: the edges of a graph or its vertices. -/
inductive TimingUnit
  | edges
  | vertices
deriving DecidableEq, Repr

/-- How data is made. Without a source it is fixed. -/
structure Synthetic (γ : Type) where
  source : Option (NumberSource γ)
  units : TimingUnit
  /-- The largest random bound. -/
  boundCeiling : Nat
  ceiling_pos : 0 < boundCeiling

namespace Synthetic

/-- The largest random bound when none is asked for. -/
def defaultCeiling : Nat := 0x7FFFFFFF

/-- The largest random time. -/
def largestTime : Nat := 0x7FFFFFFFFFFFFFFF

variable {γ : Type}

def fixed : Synthetic γ where
  source := none
  units := .edges
  boundCeiling := defaultCeiling
  ceiling_pos := Nat.zero_lt_succ 0x7FFFFFFE

def random (seed : Nat) : Synthetic Generator :=
  { (fixed : Synthetic Generator) with source := some (Generator.ofSeed seed).source }

def withCeiling (s : Synthetic γ) (ceiling : Nat) : Synthetic γ :=
  { s with
    boundCeiling := max ceiling 1
    ceiling_pos := Nat.lt_of_lt_of_le Nat.one_pos (Nat.le_max_right ceiling 1) }

/-- A random number from 1 to `largest`, or the fixed one. -/
def draw (s : Synthetic γ) (largest fixedValue : Nat) : Nat × Synthetic γ :=
  match s.source with
  | none => (fixedValue, s)
  | some source =>
    let (n, state) := source.draw source.state largest
    (n, { s with source := some { source with state } })

/-- Gives each unit a time. -/
def timeUnits (s : Synthetic γ) (data : SubprogramData) : List Nat → SubprogramData × Synthetic γ
  | [] => (data, s)
  | unit :: rest =>
    let (wcet, s) := s.draw largestTime 1
    s.timeUnits (data.setUnitWcet unit wcet) rest

/-- Bounds a loop relative to the loops around it. -/
def boundLoop (s : Synthetic γ) (n : LoopNest) (h : LoopHeader) (data : SubprogramData) :
    List Nat → Except DataError (SubprogramData × Synthetic γ)
  | [] => .ok (data, s)
  | ancestor :: rest =>
    match n.level ancestor with
    | .error e => .error (.tree e)
    | .ok level =>
      let (bound, s) := s.draw s.boundCeiling (fixedBound (h.level - level))
      s.boundLoop n h (data.setLoopBound h.id ancestor bound) rest

/-- Bounds loops relative to the loops around them. -/
def boundLoops (s : Synthetic γ) (n : LoopNest) (data : SubprogramData) :
    List LoopHeader → Except DataError (SubprogramData × Synthetic γ)
  | [] => .ok (data, s)
  | h :: rest =>
    match s.boundLoop n h data h.ancestors with
    | .error e => .error e
    | .ok (data, s) => s.boundLoops n data rest

/-- Makes data for a graph with its loop nest. -/
def generate (s : Synthetic γ) (g : FlowGraph) (n : LoopNest) :
    Except DataError (SubprogramData × Synthetic γ) :=
  let units := match s.units with
    | .edges => g.edges.map (·.id)
    | .vertices => g.vertexIds
  let (data, s) := s.timeUnits .empty units
  s.boundLoops n data n.headersInward

/-- Makes and stores data for subprograms until one has data already. The data stored up to then
stays, so the database comes back with the complaint. -/
def populateAll (s : Synthetic γ) (db : Database) : List Subprogram → Database × Option DataError
  | [] => (db, none)
  | sub :: rest =>
    match s.generate sub.graph sub.nest with
    | .error e => (db, some e)
    | .ok (data, s) =>
      match db.insert sub.id data with
      | .error e => (db, some e)
      | .ok db => s.populateAll db rest

/-- Makes and stores data for the subprograms of a program. -/
def populate (s : Synthetic γ) (p : Program) (db : Database) : Database × Option DataError :=
  s.populateAll db p.subprograms

end Synthetic

end WorstCase
