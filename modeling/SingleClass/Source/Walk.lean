import SingleClass.Source.Printer
set_option autoImplicit false

/-!
Walking the tree: its nodes in source order, a node before what it holds, and the names that a
statement assigns.
-/

namespace SingleClass

inductive Node where
  | program
  | importDecl (decl : Import)
  | classDecl (decl : ClassDecl)
  | field (decl : VarDecl)
  | method (decl : MethodDecl)
  | stmt (stmt : Stmt)
  | expr (expr : Expr)

mutual

def Expr.nodes : Expr → List Node
  | .literal v s => [.expr (.literal v s)]
  | .name n s => [.expr (.name n s)]
  | .this s => [.expr (.this s)]
  | .newObject c s => [.expr (.newObject c s)]
  | .binary op l r s => .expr (.binary op l r s) :: l.nodes ++ r.nodes
  | .unary op e s => .expr (.unary op e s) :: e.nodes
  | .paren e => .expr (.paren e) :: e.nodes
  | .index a i s => .expr (.index a i s) :: a.nodes ++ i.nodes
  | .length a s => .expr (.length a s) :: a.nodes
  | .call none m as s => .expr (.call none m as s) :: Expr.nodesOf as
  | .call (some t) m as s => .expr (.call (some t) m as s) :: t.nodes ++ Expr.nodesOf as
  | .newArray t e s => .expr (.newArray t e s) :: e.nodes
  | .arrayInit es s => .expr (.arrayInit es s) :: Expr.nodesOf es

def Expr.nodesOf : List Expr → List Node
  | [] => []
  | e :: es => e.nodes ++ Expr.nodesOf es

end

theorem Expr.mem_nodes_self (e : Expr) : .expr e ∈ e.nodes := by
  cases e with
  | call t m as p => cases t <;> simp [Expr.nodes]
  | _ => simp [Expr.nodes]

theorem Expr.nodes_stripParens_subset (e : Expr) : e.stripParens.nodes ⊆ e.nodes := by
  fun_induction Expr.stripParens e with
  | case1 e ih =>
    rw [Expr.nodes]
    exact List.subset_cons_of_subset _ ih
  | case2 e hn => exact List.Subset.refl _

mutual

def Stmt.nodes : Stmt → List Node
  | .block b s => .stmt (.block b s) :: Stmt.nodesOf b
  | .cond c t none s => .stmt (.cond c t none s) :: c.nodes ++ t.nodes
  | .cond c t (some e) s => .stmt (.cond c t (some e) s) :: c.nodes ++ t.nodes ++ e.nodes
  | .loop c b s => .stmt (.loop c b s) :: c.nodes ++ b.nodes
  | .expr e s => .stmt (.expr e s) :: e.nodes
  | .assign t v s => .stmt (.assign t v s) :: t.nodes ++ v.nodes
  | .ret none s => [.stmt (.ret none s)]
  | .ret (some v) s => .stmt (.ret (some v) s) :: v.nodes

def Stmt.nodesOf : List Stmt → List Node
  | [] => []
  | t :: ts => t.nodes ++ Stmt.nodesOf ts

end

theorem Stmt.mem_nodes_self (t : Stmt) : .stmt t ∈ t.nodes := by
  cases t with
  | cond c t e p => cases e <;> simp [Stmt.nodes]
  | ret v p => cases v <;> simp [Stmt.nodes]
  | _ => simp [Stmt.nodes]

def Program.nodes (p : Program) : List Node :=
  .program :: p.imports.map .importDecl ++ .classDecl p.classDecl :: p.classDecl.fields.map .field ++
    p.classDecl.methods.flatMap fun m => .method m :: Stmt.nodesOf m.body

def Span.text (s : Span) : String := toString s.line ++ ":" ++ toString s.column

def Node.caption : Node → String
  | .program => "program"
  | .importDecl i => "import " ++ i.simpleName
  | .classDecl c => "class " ++ c.name
  | .field v => "field " ++ v.text
  | .method m => "method " ++ m.text
  | .stmt t => "stmt " ++ t.span.text
  | .expr e => e.kindName ++ (match e.literal? with
      | some v => " " ++ v.text
      | none => "") ++ " " ++ e.span.text

def Node.isExpr : Node → Bool
  | .expr _ => true
  | _ => false

mutual

/-- The plain names a statement stores to, one entry per store. A store to an array element leaves
the name of the array alone. -/
def Stmt.stores : Stmt → List String
  | .block b _ => Stmt.storesOf b
  | .cond _ t none _ => t.stores
  | .cond _ t (some e) _ => t.stores ++ e.stores
  | .loop _ b _ => b.stores
  | .assign (.name n _) _ _ => [n]
  | .assign .. | .expr .. | .ret .. => []

def Stmt.storesOf : List Stmt → List String
  | [] => []
  | t :: ts => t.stores ++ Stmt.storesOf ts

end

/-- The names a statement assigns, each once, in order of first assignment. -/
def Stmt.assigned (t : Stmt) : List String := t.stores.eraseDups

end SingleClass
