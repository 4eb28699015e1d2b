/-!
# Actions

An action reads a state and changes it in place. It comes to an answer or it stops, and one that
stops half-way leaves behind what it has done so far. A computation over lists stops for a reason of
its own or because there is nothing at the place where it looks.
-/

namespace WorstCase

/-- Why a computation over lists stops. -/
inductive Stop (ε : Type)
  /-- It has a reason to give. -/
  | because (reason : ε)
  /-- There is nothing at the place where it looks. -/
  | outOfRange
deriving DecidableEq, Repr

/-- What stands at a place of a list. -/
def atPlace {ε β : Type} (xs : List β) (place : Nat) : Except (Stop ε) β :=
  match xs[place]? with
  | some x => .ok x
  | none => .error .outOfRange

/-- A computation that reads a state and changes it in place. -/
abbrev Action (ε σ β : Type) := ExceptT ε (StateM σ) β

/-- What an action comes to, and the state that it leaves behind. -/
def Action.apply {ε σ β : Type} (a : Action ε σ β) (s : σ) : Except ε β × σ :=
  (ExceptT.run a).run s

end WorstCase
