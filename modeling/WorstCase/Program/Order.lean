import WorstCase.Program.Subprogram

/-!
# The order of calculation

Callees come before their callers. Apart from that, subprograms keep the order of the program. There
is no order when a subprogram calls one that is not in the program, or itself through any number of
calls.
-/

namespace WorstCase.Program

/-- Looks at a call. `path` holds the caller and those that led to it; `visit` places the callee,
after its own callees, behind what is in order already. -/
def visitCallee (p : Program) (visit : Subprogram → List Nat → Except ProgramError (List Nat))
    (path : List Nat) (caller : Nat) (order : List Nat) (callee : Nat) :
    Except ProgramError (List Nat) :=
  match p.find? callee with
  | none => .error (.unknownCallee caller callee)
  | some s =>
    if path.contains callee then .error (.recursive callee)
    else if order.contains callee then .ok order
    else visit s order

/-- Places a subprogram after its callees. A path without a repetition is no longer than the
program, which bounds the depth. -/
def visit (p : Program) : Nat → (path : List Nat) → Subprogram → List Nat →
    Except ProgramError (List Nat)
  | 0, _, s, _ => .error (.recursive s.id)
  | depth + 1, path, s, order =>
    let path := s.id :: path
    match s.callees.foldlM (visitCallee p (visit p depth path) path s.id) order with
    | .error e => .error e
    | .ok order => .ok (order ++ [s.id])

/-- Places a subprogram of the program unless it is in order already. -/
def visitRoot (p : Program) (order : List Nat) (s : Subprogram) : Except ProgramError (List Nat) :=
  if order.contains s.id then .ok order else p.visit p.subprograms.length [] s order

/-- The subprograms, callees before callers. -/
def bottomUp (p : Program) : Except ProgramError (List Nat) :=
  p.subprograms.foldlM (visitRoot p) []

end WorstCase.Program
