import SingleClass.Source.Tree
set_option autoImplicit false

/-! The tree as text. Bodies of methods are not shown: a class prints as the list of its members. -/

namespace SingleClass

def boolText : Bool → String
  | true => "true"
  | false => "false"

def Literal.text : Literal → String
  | .int v => toString v.toInt
  | .bool b => boolText b

def TypeName.text (t : TypeName) : String :=
  t.name ++ if t.isVararg then "..." else if t.isArray then "[]" else ""

def VarDecl.text (v : VarDecl) : String := v.type.text ++ " " ++ v.name

def Import.text (i : Import) : String := "import " ++ i.path ++ ";"

def MethodDecl.text (m : MethodDecl) : String :=
  (if m.isStatic then "static " else "") ++ m.returns.text ++ " " ++ m.name ++
    "(" ++ ", ".intercalate (m.params.map VarDecl.text) ++ ")"

def classHeader (name : String) (superclass : Option String) : String :=
  "class " ++ name ++ (match superclass with
    | some s => " extends " ++ s
    | none => "") ++ " \x7b\n"

def ClassDecl.text (c : ClassDecl) : String :=
  classHeader c.name c.superclass ++
    String.join (c.fields.map fun v => "    " ++ v.text ++ ";\n") ++
    String.join (c.methods.map fun m => "    " ++ m.text ++ "\n") ++ "\x7d"

def Program.text (p : Program) : String :=
  String.join (p.imports.map fun i => i.text ++ "\n") ++ p.classDecl.text

mutual

def Expr.text : Expr → String
  | .literal v _ => v.text
  | .name n _ => n
  | .this _ => "this"
  | .binary op l r _ => l.text ++ " " ++ op.symbol ++ " " ++ r.text
  | .unary op e _ => op.symbol ++ e.text
  | .paren e => "(" ++ e.text ++ ")"
  | .index a i _ => a.text ++ "[" ++ i.text ++ "]"
  | .length a _ => a.text ++ ".length"
  | .call none m as _ => m ++ "(" ++ ", ".intercalate (Expr.texts as) ++ ")"
  | .call (some t) m as _ => t.text ++ "." ++ m ++ "(" ++ ", ".intercalate (Expr.texts as) ++ ")"
  | .newObject c _ => "new " ++ c ++ "()"
  | .newArray t e _ => "new " ++ t.name ++ "[" ++ e.text ++ "]"
  | .arrayInit es _ => "[" ++ ", ".intercalate (Expr.texts es) ++ "]"

def Expr.texts : List Expr → List String
  | [] => []
  | e :: es => e.text :: Expr.texts es

end

def Expr.kindName : Expr → String
  | .literal .. => "literal"
  | .name .. => "identifier"
  | .this .. => "this"
  | .binary .. => "binary expression"
  | .unary .. => "unary expression"
  | .paren .. => "parenthesized expression"
  | .index .. => "array access"
  | .length .. => "length access"
  | .call .. => "method call"
  | .newObject .. => "object creation"
  | .newArray .. => "array creation"
  | .arrayInit .. => "array initializer"

end SingleClass
