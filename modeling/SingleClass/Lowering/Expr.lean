import SingleClass.Lowering.Call
set_option autoImplicit false

/-!
Lowering of expressions. Literals, variables and the receiver are operands as they are; every other
form computes into a fresh temporary.
-/

namespace SingleClass

namespace Scope

def lowerName (s : Scope) (name : String) : Lower Fragment :=
  match s.lookup name with
  | some (.field f) => do
    let t ← freshTemp f.ty.asValue
    return { code := [.getField t f.name f.ty.asValue], operand := .temp t }
  | some b => pure { operand := .var name b.symbol.ty.asValue }
  | none => throw (.noValue name)

/-- What the operands of an operator are expected to be. The sides of an equality go by each other. -/
def operandExpectations (s : Scope) (op : BinaryOp) (l r : Expr) : Expectation × Expectation :=
  match op.family with
  | .arithmetic | .ordering => (.value .int, .value .int)
  | .logical => (.value .boolean, .value .boolean)
  | .equality => (.of (s.typeHint r), .of (s.typeHint l))

def arrayExpectation : Expectation → Expectation
  | .value t => if t.isArray then .unknown else .value t.array
  | _ => .unknown

/-- The element type of an initializer: its own when it is known, else the one expected, else int. -/
def initElementTy (hinted : Ty) (want : Expectation) : Ty :=
  if hinted.isEscape then
    match want with
    | .value t => if t.isArray then t.element else .int
    | _ => .int
  else hinted.element

def constructorCall (s : Scope) (object : Temp) (className : String) : Call where
  dest := none
  dispatch := .constructor
  owner := s.symbols.internalName className
  receiver := some (.temp object)
  method := "<init>"
  args := []
  params := []
  ret := .void

mutual

def lower (s : Scope) : Expr → Expectation → Lower Fragment
  | .literal v _, _ => pure { operand := .ofLiteral v }
  | .name n _, _ => s.lowerName n
  | .this _, _ =>
    if s.method.isStatic then throw (.thisInStatic s.method.name)
    else pure { operand := s.thisOperand }
  | .binary op l r _, _ => do
    let wants := s.operandExpectations op l r
    let lf ← s.lower l wants.1
    let rf ← s.lower r wants.2
    let t ← freshTemp op.resultTy
    return { code := lf.code ++ rf.code ++ [.binary t op lf.operand rf.operand], operand := .temp t }
  | .unary op e _, _ => do
    let f ← s.lower e (.value op.ty)
    let t ← freshTemp op.ty
    return { code := f.code ++ [.unary t op f.operand], operand := .temp t }
  | .paren e, want => s.lower e want
  | .index a i _, want => do
    let af ← s.lower a (arrayExpectation want)
    let jf ← s.lower i (.value .int)
    let t ← freshTemp af.operand.ty.element
    return { code := af.code ++ jf.code ++ [.arrayLoad t af.operand jf.operand], operand := .temp t }
  | .length a _, _ => do
    let f ← s.lower a (.value Ty.int.array)
    let t ← freshTemp .int
    return { code := f.code ++ [.arrayLength t f.operand], operand := .temp t }
  | .call none m as span, want => do
    let (code, result) ← s.lowerCall none m (s.pendings as) span want
    match result with
    | some operand => return { code, operand }
    | none => throw (.voidCall m)
  | .call (some target) m as span, want => do
    let receiver : Pending := { expr := target, lower := fun w => s.lower target w }
    let (code, result) ← s.lowerCall (some receiver) m (s.pendings as) span want
    match result with
    | some operand => return { code, operand }
    | none => throw (.voidCall m)
  | .newObject c _, _ => do
    let t ← freshTemp (.named c)
    return { code := [.new t c, .call (s.constructorCall t c)], operand := .temp t }
  | .newArray element e _, _ => do
    let f ← s.lower e (.value .int)
    let t ← freshTemp (Typing.newArray element)
    return { code := f.code ++ [.newArray t (Ty.ofName element).element f.operand], operand := .temp t }
  | .arrayInit es span, want =>
    packArray (initElementTy (s.typeHint (.arrayInit es span)) want) (s.pendings es)

def pendings (s : Scope) : List Expr → List Pending
  | [] => []
  | e :: es => { expr := e, lower := fun w => s.lower e w } :: s.pendings es

end

def pending (s : Scope) (e : Expr) : Pending := { expr := e, lower := s.lower e }

theorem pendings_eq_map (s : Scope) (es : List Expr) : s.pendings es = es.map s.pending := by
  induction es with
  | nil => rfl
  | cons e es ih => simp [pendings, pending, ih]

end Scope

end SingleClass
