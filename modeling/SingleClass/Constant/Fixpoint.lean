import SingleClass.Constant.Folding
import SingleClass.Constant.Propagation
set_option autoImplicit false

/-!
Constant optimisation: rounds of propagation and folding until a round changes nothing. Every change
of a round takes one unit off the weight of the method, so the rounds end.
-/

namespace SingleClass

structure Round where
  propagated : Nat
  folded : Nat
  deriving DecidableEq

def Round.changes (r : Round) : Nat := r.propagated + r.folded

namespace MethodDecl

def simplify (m : MethodDecl) : MethodDecl := m.propagate.fold

def round (m : MethodDecl) : Round :=
  { propagated := m.substitutions, folded := m.propagate.folds }

theorem weight_simplify (m : MethodDecl) : m.simplify.weight + m.round.changes = m.weight := by
  have := m.weight_propagate
  have := m.propagate.weight_fold
  simp only [simplify, round, Round.changes]
  omega

/-- The method at its fixpoint and the rounds that led there, the last of which changed nothing. -/
def optimize (m : MethodDecl) : MethodDecl × List Round :=
  if m.round.changes = 0 then (m.simplify, [m.round])
  else
    let (done, rounds) := m.simplify.optimize
    (done, m.round :: rounds)
termination_by m.weight
decreasing_by have := m.weight_simplify; omega

end MethodDecl

structure Optimized where
  program : Program
  rounds : List (String × List Round)

def Program.optimize (p : Program) : Optimized :=
  let methods := p.classDecl.methods.map fun m => (m.name, m.optimize)
  { program := { p with classDecl := { p.classDecl with methods := methods.map (·.2.1) } }
    rounds := methods.map fun (name, _, rounds) => (name, rounds) }

def Optimized.roundCount (o : Optimized) : Nat := o.rounds.foldl (fun n r => max n r.2.length) 0

def Optimized.changed (o : Optimized) : Bool := o.rounds.any fun r => r.2.any (·.changes ≠ 0)

end SingleClass
