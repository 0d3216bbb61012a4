import SingleClass.Assembly.Selection
set_option autoImplicit false

/-! Assembly of methods and classes, as data and as text. -/

namespace SingleClass

/-- The bounds written in every method, for the operand stack and for the registers. -/
def methodLimit : Nat := 99

structure MethodAssembly where
  name : String
  isStatic : Bool
  type : MethodType
  blocks : List (List Line)

structure ClassAssembly where
  name : String
  superName : String
  fields : List (String × FieldType)
  methods : List MethodAssembly

def MethodAssembly.lines (m : MethodAssembly) : List Line := m.blocks.flatten

def MethodAssembly.text (m : MethodAssembly) : String :=
  ".method public " ++ (if m.isStatic then "static " else "") ++ m.name ++ m.type.text ++ "\n" ++
    indentation ++ ".limit stack " ++ toString methodLimit ++ "\n" ++
    indentation ++ ".limit locals " ++ toString methodLimit ++ "\n" ++
    String.join (m.lines.map Line.render) ++ ".end method\n"

/-- The constructor that every class has: it runs that of the superclass. -/
def constructorLines (superName : String) : List Line :=
  [.load .object 0,
    .invoke .constructor superName "<init>" { params := [], result := { base := .void } },
    .ret none]

def constructorText (superName : String) : String :=
  ".method public <init>()V\n" ++ String.join ((constructorLines superName).map Line.render) ++
    ".end method\n"

def ClassAssembly.text (c : ClassAssembly) : String :=
  ".class public " ++ c.name ++ "\n.super " ++ c.superName ++ "\n" ++
    (if c.fields.isEmpty then "" else "\n") ++
    String.join (c.fields.map fun (n, t) => ".field public " ++ n ++ " " ++ t.text ++ "\n") ++
    "\n" ++ constructorText c.superName ++
    String.join (c.methods.map fun m => "\n" ++ m.text)

namespace ClassCode

/-- The superclass in emitted code; a class that extends none extends the root class. -/
def superName (c : ClassCode) : String :=
  match c.superclass with
  | some s => c.internalName s
  | none => "java/lang/Object"

def frame (c : ClassCode) (m : MethodCode) : Except Failure Frame := do
  let r ← m.registers
  return { unit := c, method := m, registers := r }

def assembleMethod (c : ClassCode) (m : MethodCode) : Except Failure MethodAssembly := do
  let f ← c.frame m
  let t ← c.methodType m.paramTys m.returnTy
  let blocks ← f.selectAll 0 m.instrs
  return { name := m.name, isStatic := m.isStatic, type := t, blocks }

def assembleMethods (c : ClassCode) : List MethodCode → Except Failure (List MethodAssembly)
  | [] => .ok []
  | m :: ms => do
    let a ← c.assembleMethod m
    let as ← c.assembleMethods ms
    return a :: as

def assembleFields (c : ClassCode) : List Symbol → Except Failure (List (String × FieldType))
  | [] => .ok []
  | f :: fs => do
    let t ← c.fieldType f.ty
    let ts ← c.assembleFields fs
    return (f.name, t) :: ts

def assemble (c : ClassCode) : Except Failure ClassAssembly := do
  let fields ← c.assembleFields c.fields
  let methods ← c.assembleMethods c.methods
  return { name := c.name, superName := c.superName, fields, methods }

end ClassCode

end SingleClass
