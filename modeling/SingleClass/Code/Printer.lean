import SingleClass.Code.Basic
set_option autoImplicit false

/-! Three-address code as text. -/

namespace SingleClass

def Temp.name (t : Temp) : String := "tmp" ++ toString t.id

def Temp.text (t : Temp) : String := t.name ++ ":" ++ t.ty.text

def Operand.text : Operand → String
  | .int v => toString v.toInt
  | .bool b => boolText b
  | .var n t => n ++ ":" ++ t.text
  | .temp t => t.text
  | .this _ => "this"
  | .null _ => "null"

def Dest.text : Dest → String
  | .var n t => n ++ ":" ++ t.text
  | .temp t => t.text
  | .element a i => a.text ++ "[" ++ i.text ++ "]"

def Dispatch.text : Dispatch → String
  | .constructor => "invokespecial"
  | .static => "invokestatic"
  | .virtual => "invokevirtual"

def Label.text (l : Label) : String := l.kind ++ "_" ++ toString l.number

def Call.text (c : Call) : String :=
  let result := match c.dest with
    | some t => t.text ++ " = "
    | none => ""
  let receiver := match c.receiver with
    | some r => r.text ++ if c.args.isEmpty then "" else "; "
    | none => ""
  result ++ c.dispatch.text ++ " " ++ c.owner ++ "." ++ c.method ++ "(" ++ receiver ++
    ", ".intercalate (c.args.map Operand.text) ++ "):" ++ c.ret.text

def Instr.text : Instr → String
  | .assign d v => d.text ++ " = " ++ v.text
  | .binary d op l r => d.text ++ " = " ++ l.text ++ " " ++ op.symbol ++ " " ++ r.text
  | .unary d op v => d.text ++ " = " ++ op.symbol ++ v.text
  | .call c => c.text
  | .new d c => d.text ++ " = new " ++ c
  | .newArray d t size => d.text ++ " = new " ++ t.text ++ "[" ++ size.text ++ "]"
  | .arrayLoad d a i => d.text ++ " = " ++ a.text ++ "[" ++ i.text ++ "]"
  | .arrayLength d a => d.text ++ " = arraylength " ++ a.text
  | .getField d f t => d.text ++ " = getfield this." ++ f ++ ":" ++ t.text
  | .putField f t v => "putfield this." ++ f ++ ":" ++ t.text ++ " = " ++ v.text
  | .ret (some v) => "ret " ++ v.text
  | .ret none => "ret"
  | .goto l => "goto " ++ l.text
  | .branch c l => "if (" ++ c.text ++ ") goto " ++ l.text
  | .label l => l.text ++ ":"

def Symbol.text (s : Symbol) : String := s.name ++ ":" ++ s.ty.text

def MethodCode.text (m : MethodCode) : String :=
  (if m.isStatic then "static " else "") ++ "method " ++ m.name ++
    "(" ++ ", ".intercalate (m.params.map Symbol.text) ++ "):" ++ m.returnTy.text ++ " \x7b\n" ++
    String.join (m.instrs.map fun i =>
      (if i.label?.isSome then "  " else "    ") ++ i.text ++ "\n") ++ "\x7d"

def ClassCode.text (c : ClassCode) : String :=
  String.join (c.imports.map fun i => i.text ++ "\n") ++ classHeader c.name c.superclass ++
    String.join (c.fields.map fun f => "  field " ++ f.text ++ "\n") ++
    String.join (c.methods.map fun m => m.text ++ "\n") ++ "\x7d"

end SingleClass
