import SingleClass.Typing.Rules
set_option autoImplicit false

/-!
The type of an expression at a place, or the first reason why it has none. The index of an array
access and the arguments of a call are not looked at: they do not bear on the type.
-/

namespace SingleClass

mutual

def Scope.typeOf (s : Scope) : Expr → Except TypeError Ty
  | .literal v _ => .ok v.ty
  | .name n _ => s.nameTy n
  | .this _ => s.thisTy
  | .binary op l r _ => do
    let lt ← s.typeOf l
    let lt ← Typing.value l lt
    let rt ← s.typeOf r
    let rt ← Typing.value r rt
    Typing.binary op lt rt
  | .unary op e _ => do
    let t ← s.typeOf e
    let t ← Typing.value e t
    Typing.unary op t
  | .paren e => s.typeOf e
  | .index a _ _ => do
    let t ← s.typeOf a
    let t ← Typing.value a t
    Typing.element t
  | .length a _ => do
    let t ← s.typeOf a
    let t ← Typing.value a t
    Typing.length t
  | .call none m _ _ =>
    if s.method.isStatic then .error (.thisInStatic s.method.name) else .ok (s.symbols.callTy m none)
  | .call (some target) m _ _ => do
    let t ← s.typeOf target
    let t ← Typing.value target t
    return s.symbols.callTy m (some t)
  | .newObject c _ => .ok (.named c)
  | .newArray t _ _ => .ok (Typing.newArray t)
  | .arrayInit es _ => do
    let ts ← s.valuesOf es
    Typing.arrayInit ts

def Scope.valuesOf (s : Scope) : List Expr → Except TypeError (List Ty)
  | [] => .ok []
  | e :: es => do
    let t ← s.typeOf e
    let t ← Typing.value e t
    let ts ← s.valuesOf es
    return t :: ts

end

def Scope.valueOf (s : Scope) (e : Expr) : Except TypeError Ty := do
  let t ← s.typeOf e
  Typing.value e t

/-- The type of an expression as far as it is known. -/
def Scope.typeHint (s : Scope) (e : Expr) : Ty :=
  match s.typeOf e with
  | .ok t => t
  | .error _ => .indeterminate

end SingleClass
