import SingleClass.Failure
set_option autoImplicit false

/-!
Descriptors: the encoding of field and method types in emitted code. Arrays have one dimension, and
class names are the internal ones.
-/

namespace SingleClass

inductive BaseType where
  | int | boolean | void
  | object (className : String)
  deriving DecidableEq

structure FieldType where
  isArray : Bool := false
  base : BaseType
  deriving DecidableEq

structure MethodType where
  params : List FieldType
  result : FieldType
  deriving DecidableEq

def BaseType.text : BaseType → String
  | .int => "I"
  | .boolean => "Z"
  | .void => "V"
  | .object c => "L" ++ c ++ ";"

def FieldType.text (t : FieldType) : String := (if t.isArray then "[" else "") ++ t.base.text

def MethodType.text (t : MethodType) : String :=
  "(" ++ String.join (t.params.map FieldType.text) ++ ")" ++ t.result.text

namespace ClassCode

/-- The encoding of a type seen from a class, whose imports say where other classes are. Types that
stand for missing knowledge have none, nor has an array of void. -/
def fieldType (c : ClassCode) (t : Ty) : Except Failure FieldType :=
  match t.kind with
  | .int => .ok { isArray := t.isArray, base := .int }
  | .boolean => .ok { isArray := t.isArray, base := .boolean }
  | .string => .ok { isArray := t.isArray, base := .object "java/lang/String" }
  | .named n => .ok { isArray := t.isArray, base := .object (c.internalName n) }
  | .void => if t.isArray then .error (.noDescriptor t) else .ok { base := .void }
  | .external | .indeterminate => .error (.noDescriptor t)

def fieldTypes (c : ClassCode) : List Ty → Except Failure (List FieldType)
  | [] => .ok []
  | t :: ts => do
    let d ← c.fieldType t
    let ds ← c.fieldTypes ts
    return d :: ds

def methodType (c : ClassCode) (params : List Ty) (ret : Ty) : Except Failure MethodType := do
  let ps ← c.fieldTypes params
  let r ← c.fieldType ret
  return { params := ps, result := r }

end ClassCode

end SingleClass
