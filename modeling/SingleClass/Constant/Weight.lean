import SingleClass.Source.Tree
set_option autoImplicit false

/-!
The weight of a body: how many names, binary operators and parentheses it holds. These are the nodes
that constant optimisation can remove, so the weight bounds how often it can change anything.
-/

namespace SingleClass

mutual

def Expr.weight : Expr → Nat
  | .literal .. | .this _ | .newObject .. => 0
  | .name .. => 1
  | .binary _ l r _ => l.weight + r.weight + 1
  | .unary _ e _ => e.weight
  | .paren e => e.weight + 1
  | .index a i _ => a.weight + i.weight
  | .length a _ => a.weight
  | .call none _ as _ => Expr.weightOf as
  | .call (some t) _ as _ => t.weight + Expr.weightOf as
  | .newArray _ e _ => e.weight
  | .arrayInit es _ => Expr.weightOf es

def Expr.weightOf : List Expr → Nat
  | [] => 0
  | e :: es => e.weight + Expr.weightOf es

end

mutual

def Stmt.weight : Stmt → Nat
  | .block b _ => Stmt.weightOf b
  | .cond c t none _ => c.weight + t.weight
  | .cond c t (some e) _ => c.weight + t.weight + e.weight
  | .loop c b _ => c.weight + b.weight
  | .expr e _ => e.weight
  | .assign t v _ => t.weight + v.weight
  | .ret none _ => 0
  | .ret (some v) _ => v.weight

def Stmt.weightOf : List Stmt → Nat
  | [] => 0
  | t :: ts => t.weight + Stmt.weightOf ts

end

def MethodDecl.weight (m : MethodDecl) : Nat := Stmt.weightOf m.body

end SingleClass
