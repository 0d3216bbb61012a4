import SingleClass.Lowering.Supply
import SingleClass.Typing.Expr
set_option autoImplicit false

/-!
Lowering of calls and of array packing, over parts that wait to be lowered. The code of the receiver
comes first, then the arguments in order, then the call.
-/

namespace SingleClass

def storeElements (array : Operand) (element : Ty) : (i : Nat) → List Pending → Lower (List Instr)
  | _, [] => pure []
  | i, v :: vs => do
    let f ← v.lower (.value element)
    let rest ← storeElements array element (i + 1) vs
    return f.code ++ .assign (.element array (.int (.ofNat i))) f.operand :: rest

/-- A fresh array with the given values. It is allocated before any value is computed, and its size
has to be an int. -/
def packArray (element : Ty) (values : List Pending) : Lower Fragment := do
  if values.length ≥ 2147483648 then throw (.arrayTooLong values.length)
  let array ← freshTemp element.array
  let stores ← storeElements (.temp array) element 0 values
  return {
    code := .newArray array element (.int (.ofNat values.length)) :: stores
    operand := .temp array }

/-- The part of a call that its target settles. -/
structure CallSite where
  code : List Instr := []
  dispatch : Dispatch
  owner : String
  receiver : Option Operand
  callee : Option Signature

/-- The arguments of a call and the types by which the method is called. -/
structure BoundCall where
  args : List Fragment
  params : List Ty
  ret : Ty

namespace Scope

def thisOperand (s : Scope) : Operand := .this s.symbols.className

def ownerOf (s : Scope) (t : Ty) (method : String) : Lower String :=
  if t.isArray then throw (.noOwner method t)
  else
    match t.kind with
    | .named c => pure (s.symbols.internalName c)
    | .string => pure "java/lang/String"
    | _ => throw (.noOwner method t)

def callSite (s : Scope) (target : Option Pending) (method : String) : Lower CallSite :=
  match target with
  | none =>
    if s.method.isStatic then throw (.noReceiver method s.method.name)
    else pure {
      dispatch := .virtual
      owner := s.symbols.className
      receiver := some s.thisOperand
      callee := s.symbols.callee? method none }
  | some t =>
    match s.staticReceiver? t.expr with
    | some i => pure { dispatch := .static, owner := i.internalName, receiver := none, callee := none }
    | none =>
      match s.typeOf t.expr with
      | .error e => throw (.typing e)
      | .ok ty => do
        let owner ← s.ownerOf ty method
        let f ← t.lower .unknown
        return {
          code := f.code
          dispatch := .virtual
          owner := owner
          receiver := some f.operand
          callee := s.symbols.callee? method (some ty) }

/-- Arguments of a method of this class, one for each parameter. What falls to a vararg is passed as
the array it is, or packed. Arguments without a parameter are left out. -/
def lowerDeclaredArgs (s : Scope) (callee : Signature) (args : List Pending) :
    Lower (List Fragment) := do
  let wanted := (args.zip callee.params).map fun (a, p) => (a, Expectation.of p.ty.asValue)
  let fixed ← Pending.lowerAll (wanted.take callee.fixedArity)
  match callee.vararg? with
  | none => return fixed
  | some v =>
    let trailing := args.drop callee.fixedArity
    let tys := trailing.map fun a => s.typeHint a.expr
    let packed ← match VarargPassing.of tys v.ty.element, trailing with
      | .array, a :: _ => a.lower (.value v.ty.asValue)
      | _, _ => packArray v.ty.element trailing
    return fixed ++ [packed]

/-- What a method declared elsewhere returns: what the context expects. -/
def foreignResult (want : Expectation) (method : String) (span : Span) : Lower Ty :=
  match want with
  | .discard => pure .void
  | .value t => pure t
  | .unknown => do
    note span (.assumedInt method)
    return .int

def bindArguments (s : Scope) (callee : Option Signature) (method : String) (args : List Pending)
    (span : Span) (want : Expectation) : Lower BoundCall :=
  match callee with
  | some m => do
    let bound ← s.lowerDeclaredArgs m args
    return { args := bound, params := m.paramTys, ret := m.returnTy }
  | none => do
    let bound ← Pending.lowerAll (args.map fun a => (a, .of (s.typeHint a.expr)))
    let ret ← foreignResult want method span
    return { args := bound, params := bound.map (·.operand.ty), ret }

def resultTemp (want : Expectation) (ret : Ty) : Lower (Option Temp) :=
  if want = .discard || ret.isVoid then pure none
  else do
    let t ← freshTemp ret
    return some t

/-- The code of a call, and the operand with its result if it has one that is wanted. -/
def lowerCall (s : Scope) (target : Option Pending) (method : String) (args : List Pending)
    (span : Span) (want : Expectation) : Lower (List Instr × Option Operand) := do
  let site ← s.callSite target method
  let bound ← s.bindArguments site.callee method args span want
  let dest ← resultTemp want bound.ret
  let call : Call := {
    dest
    dispatch := site.dispatch
    owner := site.owner
    receiver := site.receiver
    method
    args := bound.args.map (·.operand)
    params := bound.params
    ret := bound.ret }
  return (site.code ++ bound.args.flatMap (·.code) ++ [.call call], dest.map .temp)

end Scope

end SingleClass
