import SingleClass.Lowering.Stmt
set_option autoImplicit false

/-! Lowering of methods and of whole units. -/

namespace SingleClass

/-- What a body's code lacks at its end. A void method returns where its text ends. A method with a
value has returned on every path by then, but a label at the end needs code behind it. -/
def closing (ret : Ty) (code : List Instr) : List Instr :=
  if ret.isVoid then
    if code.getLast?.any Instr.isReturn then [] else [.ret none]
  else if code.getLast?.any Instr.endsBlock then [] else [.ret (some (.zero ret))]

def Scope.lowerMethod (s : Scope) (d : MethodDecl) : Lower MethodCode := do
  let body ← s.lowerBody d.body
  let instrs := body ++ closing s.method.returnTy.asValue body
  return {
    name := s.method.name
    isStatic := s.method.isStatic
    params := s.method.params
    locals := s.method.locals
    returnTy := s.method.returnTy
    instrs := instrs
    labels := .ofInstrs instrs }

namespace Symbols

def lowerMethods (s : Symbols) : List (MethodDecl × Signature) → Lower (List MethodCode)
  | [] => pure []
  | (d, m) :: rest => do
    let code ← Scope.lowerMethod { symbols := s, method := m } d
    let codes ← s.lowerMethods rest
    return code :: codes

/-- Lowers the methods of a program under given symbols, with which they are paired by position. -/
def lower (s : Symbols) (p : Program) : Lower ClassCode := do
  let methods ← s.lowerMethods (p.paired s)
  return {
    name := s.className
    superclass := s.superclass
    imports := s.imports
    fields := s.fields
    methods := methods }

end Symbols

end SingleClass
