import SingleClass.Source.Operator
set_option autoImplicit false

/-!
The tree of a compilation unit: imports and one class with fields and methods.

Every node but a parenthesized expression carries a span. The `make` functions build nodes the way a
reader of source text does first, with the span of the part that comes first in the text; `withSpan`
then places a node exactly.
-/

namespace SingleClass

structure Location where
  line : Nat := 0
  column : Nat := 0
  offset : Nat := 0
  deriving DecidableEq

/-- The stretch of source text that a node covers. A node built without a text has the zero span,
which is the default of every field here. -/
structure Span where
  start : Location := {}
  stop : Location := {}
  deriving DecidableEq

instance : Inhabited Span := ⟨{}⟩

def Span.between (line column endLine endColumn : Nat) : Span :=
  { start := { line, column }, stop := { line := endLine, column := endColumn } }

def Span.point (line column : Nat) : Span := .between line column line column

def Span.line (s : Span) : Nat := s.start.line
def Span.column (s : Span) : Nat := s.start.column

inductive Literal where
  | int (value : Int32)
  | bool (value : Bool)
  deriving DecidableEq

/-- A type as it is written at a declaration. The flags are free of each other, as in the text. -/
structure TypeName where
  name : String
  isArray : Bool := false
  isVararg : Bool := false
  span : Span := {}
  deriving DecidableEq

inductive Expr where
  | literal (value : Literal) (span : Span)
  | name (name : String) (span : Span)
  | this (span : Span)
  | binary (op : BinaryOp) (left right : Expr) (span : Span)
  | unary (op : UnaryOp) (operand : Expr) (span : Span)
  | paren (inner : Expr)
  | index (array position : Expr) (span : Span)
  | length (array : Expr) (span : Span)
  /-- A call without a target is on the implicit receiver. -/
  | call (target : Option Expr) (method : String) (args : List Expr) (span : Span)
  | newObject (className : String) (span : Span)
  | newArray (element : TypeName) (size : Expr) (span : Span)
  | arrayInit (elements : List Expr) (span : Span)

inductive Stmt where
  | block (body : List Stmt) (span : Span)
  | cond (condition : Expr) (thenBranch : Stmt) (elseBranch : Option Stmt) (span : Span)
  | loop (condition : Expr) (body : Stmt) (span : Span)
  | expr (value : Expr) (span : Span)
  | assign (target value : Expr) (span : Span)
  | ret (value : Option Expr) (span : Span)

instance : Inhabited Expr := ⟨.this {}⟩
instance : Inhabited Stmt := ⟨.block [] {}⟩

structure VarDecl where
  type : TypeName
  name : String
  span : Span := {}
  deriving DecidableEq

structure MethodDecl where
  name : String
  returns : TypeName
  isStatic : Bool := false
  params : List VarDecl := []
  locals : List VarDecl := []
  body : List Stmt := []
  span : Span := {}

/-- The program entry point, `static void main(String[] args)`, before its body is known. -/
def MethodDecl.entryPoint : MethodDecl where
  name := "main"
  returns := { name := "void" }
  isStatic := true
  params := [{ type := { name := "String", isArray := true }, name := "args" }]

structure ClassDecl where
  name : String
  superclass : Option String := none
  fields : List VarDecl := []
  methods : List MethodDecl := []
  span : Span := {}

structure Import where
  path : String
  span : Span := {}
  deriving DecidableEq

/-- The name under which the class is visible: what follows the last dot of the path. -/
def Import.simpleName (i : Import) : String :=
  .ofList (i.path.toList.reverse.takeWhile (· ≠ '.')).reverse

/-- The name under which emitted code refers to the class: the path with slashes for dots. -/
def Import.internalName (i : Import) : String :=
  .ofList (i.path.toList.map fun c => if c = '.' then '/' else c)

structure Program where
  imports : List Import := []
  classDecl : ClassDecl
  span : Span := {}

def Expr.span : Expr → Span
  | .paren e => e.span
  | .literal _ s | .name _ s | .this s | .binary _ _ _ s | .unary _ _ s | .index _ _ s
  | .length _ s | .call _ _ _ s | .newObject _ s | .newArray _ _ s | .arrayInit _ s => s

/-- Places an expression. Parentheses have no span of their own, so theirs goes to what they hold. -/
def Expr.withSpan (s : Span) : Expr → Expr
  | .literal v _ => .literal v s
  | .name n _ => .name n s
  | .this _ => .this s
  | .binary op l r _ => .binary op l r s
  | .unary op e _ => .unary op e s
  | .paren e => .paren (e.withSpan s)
  | .index a i _ => .index a i s
  | .length a _ => .length a s
  | .call t m as _ => .call t m as s
  | .newObject c _ => .newObject c s
  | .newArray t e _ => .newArray t e s
  | .arrayInit es _ => .arrayInit es s

@[simp] theorem Expr.span_withSpan (e : Expr) (s : Span) : (e.withSpan s).span = s := by
  fun_induction Expr.withSpan s e <;> simp_all [span]

def Stmt.span : Stmt → Span
  | .block _ s | .cond _ _ _ s | .loop _ _ s | .expr _ s | .assign _ _ s | .ret _ s => s

def Stmt.withSpan (s : Span) : Stmt → Stmt
  | .block b _ => .block b s
  | .cond c t e _ => .cond c t e s
  | .loop c b _ => .loop c b s
  | .expr e _ => .expr e s
  | .assign t v _ => .assign t v s
  | .ret v _ => .ret v s

@[simp] theorem Stmt.span_withSpan (t : Stmt) (s : Span) : (t.withSpan s).span = s := by
  cases t <;> rfl

def Expr.makeBinary (op : BinaryOp) (l r : Expr) : Expr := .binary op l r l.span
def Expr.makeUnary (op : UnaryOp) (e : Expr) : Expr := .unary op e e.span
def Expr.makeIndex (a i : Expr) : Expr := .index a i a.span
def Expr.makeLength (a : Expr) : Expr := .length a a.span
def Expr.makeNewArray (t : TypeName) (size : Expr) : Expr := .newArray t size size.span

def Expr.makeCall (target : Option Expr) (method : String) (args : List Expr) : Expr :=
  .call target method args ((target.map Expr.span).getD {})

def Stmt.makeCond (c : Expr) (t : Stmt) (e : Option Stmt) : Stmt := .cond c t e c.span
def Stmt.makeLoop (c : Expr) (b : Stmt) : Stmt := .loop c b c.span
def Stmt.makeExpr (e : Expr) : Stmt := .expr e e.span
def Stmt.makeAssign (t v : Expr) : Stmt := .assign t v t.span
def Stmt.makeRet (v : Option Expr) : Stmt := .ret v ((v.map Expr.span).getD {})

def Expr.stripParens : Expr → Expr
  | .paren e => e.stripParens
  | e => e

def Expr.literal? : Expr → Option Literal
  | .literal v _ => some v
  | .paren e => e.literal?
  | _ => none

end SingleClass
