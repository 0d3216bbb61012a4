import SingleClass.Diagnostic
import SingleClass.Failure
set_option autoImplicit false

/-!
The state of lowering: how many temporaries and labels have been handed out, and what has been noted.
A supply serves a whole unit and lives through failures, so nothing is handed out twice.
-/

namespace SingleClass

structure Supply where
  temps : Nat := 0
  labels : Nat := 0
  notes : List Diagnostic := []

/-- Lowering steps. A failing step keeps the supply as it left it. -/
abbrev Lower (α : Type) := EStateM Failure Supply α

def freshTemp (ty : Ty) : Lower Temp := fun s =>
  .ok { id := s.temps, ty } { s with temps := s.temps + 1 }

/-- The number that the labels of one conditional or loop share. -/
def freshLabel : Lower Nat := fun s => .ok s.labels { s with labels := s.labels + 1 }

def note (span : Span) (issue : Issue) : Lower Unit := fun s =>
  .ok () { s with notes := s.notes ++ [.place span issue] }

/-- Code that computes a value, and the operand that holds the value afterwards. -/
structure Fragment where
  code : List Instr := []
  operand : Operand

/-- What the context says about a value. Only calls to methods declared elsewhere ask. -/
inductive Expectation where
  /-- The value is thrown away. -/
  | discard
  | value (ty : Ty)
  | unknown
  deriving DecidableEq

/-- The expectation of a context that has a type; escape types and void say nothing. -/
def Expectation.of (t : Ty) : Expectation :=
  if t.isEscape || t.isVoid then .unknown else .value t

/-- An expression that waits to be lowered until its context knows what it expects. -/
structure Pending where
  expr : Expr
  lower : Expectation → Lower Fragment

def Pending.lowerAll : List (Pending × Expectation) → Lower (List Fragment)
  | [] => pure []
  | (p, want) :: rest => do
    let f ← p.lower want
    let fs ← Pending.lowerAll rest
    return f :: fs

end SingleClass
