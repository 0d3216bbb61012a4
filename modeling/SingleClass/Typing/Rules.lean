import SingleClass.Symbols
set_option autoImplicit false

/-!
The typing rule of each form of expression, on the types of its parts, with the reason when the parts
do not fit. An escape type fits every rule.
-/

namespace SingleClass

inductive TypeError where
  | arrayOperand
  | operandMismatch (op : BinaryOp) (left right : Ty)
  | unaryOperand (op : UnaryOp) (found : Ty)
  | unresolvable (name : String)
  /-- The accessor name `length` on its own. -/
  | bareLength
  | inconsistentInit (expected found : Ty)
  | emptyInit
  | notAnArray (found : Ty)
  | thisInStatic (method : String)
  | voidValue (expr : String)
  deriving DecidableEq

def TypeError.message : TypeError → String
  | .arrayOperand => "Array type cannot be used on binary operations."
  | .operandMismatch op l r =>
    "Binary operation with incompatible types: '" ++ l.text ++ "' " ++ op.symbol ++ " '" ++ r.text ++ "'."
  | .unaryOperand op t => "Operator '" ++ op.symbol ++ "' cannot be applied to type '" ++ t.text ++ "'."
  | .unresolvable n => "Variable '" ++ n ++ "' does not exist."
  | .bareLength => "Can't compute type for expression of kind 'length'."
  | .inconsistentInit e f =>
    "Array initializer contains an element of type '" ++ f.text ++ "', but expected type was '" ++
      e.text ++ "'."
  | .emptyInit => "Empty array initializers are not allowed."
  | .notAnArray t => "Type '" ++ t.text ++ "' is not an array."
  | .thisInStatic m => "'this' cannot be used in static context such as the '" ++ m ++ "' method."
  | .voidValue e => "Expression '" ++ e ++ "' has type void and cannot be used as a value."

def Literal.ty : Literal → Ty
  | .int _ => .int
  | .bool _ => .boolean

def BinaryOp.resultTy (op : BinaryOp) : Ty :=
  if op.family = .arithmetic then .int else .boolean

def UnaryOp.ty : UnaryOp → Ty
  | .not => .boolean
  | .neg => .int

/-- Which operand types an operator accepts, arrays and escapes aside. -/
def BinaryOp.accepts (op : BinaryOp) (l r : Ty) : Bool :=
  match op.family with
  | .arithmetic | .ordering => l.isInt && r.isInt
  | .logical => l.isBoolean && r.isBoolean
  | .equality => l = r

namespace Typing

def binary (op : BinaryOp) (l r : Ty) : Except TypeError Ty :=
  if l.isEscape || r.isEscape then .ok op.resultTy
  else if l.isArray || r.isArray then .error .arrayOperand
  else if op.accepts l r then .ok op.resultTy
  else .error (.operandMismatch op l r)

def unary (op : UnaryOp) (t : Ty) : Except TypeError Ty :=
  if t.isEscape || t = op.ty then .ok op.ty else .error (.unaryOperand op t)

/-- Reading an element. An escape type that is no array passes through. -/
def element (t : Ty) : Except TypeError Ty :=
  if t.isArray then .ok t.element
  else if t.isEscape then .ok t
  else .error (.notAnArray t)

def length (t : Ty) : Except TypeError Ty := (element t).map fun _ => .int

def newArray (element : TypeName) : Ty := (Ty.ofName element).element.array

/-- Every element has the type of the first one that is not an escape, and that type is no array. -/
def arrayInit (elements : List Ty) : Except TypeError Ty :=
  match elements.find? (!·.isEscape) with
  | none =>
    match elements.head? with
    | some t => .ok t.element.array
    | none => .error .emptyInit
  | some first =>
    if first.isArray then .error (.inconsistentInit first.element first)
    else
      match elements.find? fun t => !t.isEscape && t ≠ first with
      | some other => .error (.inconsistentInit first other)
      | none => .ok first.array

def value (e : Expr) (t : Ty) : Except TypeError Ty :=
  if t.isVoid then .error (.voidValue e.text) else .ok t

end Typing

/-- A variable has its declared type and an import the open type. -/
def Scope.nameTy (s : Scope) (name : String) : Except TypeError Ty :=
  match s.lookup name with
  | some b => .ok b.symbol.ty.asValue
  | none =>
    if s.symbols.isImported name then .ok .external
    else if name = "length" then .error .bareLength
    else .error (.unresolvable name)

def Scope.thisTy (s : Scope) : Except TypeError Ty :=
  if s.method.isStatic then .error (.thisInStatic s.method.name) else .ok s.symbols.ownTy

/-- How the arguments that fall to a vararg parameter reach it. -/
inductive VarargPassing where
  | array
  | pack
  deriving DecidableEq

def VarargPassing.of (trailing : List Ty) (element : Ty) : VarargPassing :=
  match trailing with
  | [t] => if t.isArray && t.element = element then .array else .pack
  | _ => .pack

end SingleClass
