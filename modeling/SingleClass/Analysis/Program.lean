import SingleClass.Analysis.Body
import SingleClass.Analysis.Declarations
import SingleClass.Typing.Expr
set_option autoImplicit false

/-!
Semantic analysis of a whole program: declarations, then every body, then the returns of each. A body
returns if control never reaches its end; there is no way to leave a loop but a return, so a loop on
the literal `true` never ends.
-/

namespace SingleClass

mutual

def Stmt.returns : Stmt → Bool
  | .ret .. => true
  | .block b _ => Stmt.anyReturns b
  | .cond _ _ none _ => false
  | .cond _ t (some e) _ => t.returns && e.returns
  | .loop c _ _ => c.literal? = some (.bool true)
  | .expr .. | .assign .. => false

def Stmt.anyReturns : List Stmt → Bool
  | [] => false
  | t :: ts => t.returns || Stmt.anyReturns ts

end

/-- A method that owes a value has to return on every path. -/
def MethodDecl.reviewReturns (d : MethodDecl) (m : Signature) : List Diagnostic :=
  if m.returnTy.isVoid || Stmt.anyReturns d.body then []
  else [.problem d.span (.missingReturn m.name)]

structure Analysis where
  symbols : Symbols
  declarations : List Diagnostic
  bodies : List (List Diagnostic)
  returns : List Diagnostic

def Analysis.diagnostics (a : Analysis) : List Diagnostic :=
  a.declarations ++ a.bodies.flatten ++ a.returns

def Analysis.hasErrors (a : Analysis) : Bool := !a.diagnostics.isEmpty

def Symbols.checkMethod (s : Symbols) (d : MethodDecl) (m : Signature) : List Diagnostic :=
  (Scope.checkBody { symbols := s, method := m } d.body).found

def Program.analyze (p : Program) : Analysis :=
  let s := Symbols.ofProgram p
  let methods := p.paired s
  { symbols := s
    declarations := s.reviewDeclarations p
    bodies := methods.map fun (d, m) => s.checkMethod d m
    returns := methods.flatMap fun (d, m) => d.reviewReturns m }

end SingleClass
