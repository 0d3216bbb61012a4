import SingleClass.Constant.Weight
set_option autoImplicit false

/-!
Folding, bottom up: arithmetic on two integer literals becomes the literal result, and parentheses
around a literal go. `folds` counts the nodes that `fold` replaces.
-/

namespace SingleClass

def BinaryOp.constant? (op : BinaryOp) : Expr → Expr → Option Int32
  | .literal (.int a) _, .literal (.int b) _ => op.compute a b
  | _, _ => none

def Expr.foldBinary (op : BinaryOp) (l r : Expr) (span : Span) : Expr :=
  match op.constant? l r with
  | some v => .literal (.int v) span
  | none => .binary op l r span

def Expr.isLiteral : Expr → Bool
  | .literal .. => true
  | _ => false

def Expr.foldParen (e : Expr) : Expr := if e.isLiteral then e else .paren e

mutual

def Expr.fold : Expr → Expr
  | .literal v s => .literal v s
  | .name n s => .name n s
  | .this s => .this s
  | .newObject c s => .newObject c s
  | .binary op l r s => .foldBinary op l.fold r.fold s
  | .unary op e s => .unary op e.fold s
  | .paren e => e.fold.foldParen
  | .index a i s => .index a.fold i.fold s
  | .length a s => .length a.fold s
  | .call none m as s => .call none m (Expr.foldAll as) s
  | .call (some t) m as s => .call (some t.fold) m (Expr.foldAll as) s
  | .newArray t e s => .newArray t e.fold s
  | .arrayInit es s => .arrayInit (Expr.foldAll es) s

def Expr.foldAll : List Expr → List Expr
  | [] => []
  | e :: es => e.fold :: Expr.foldAll es

end

mutual

def Expr.folds : Expr → Nat
  | .literal .. | .name .. | .this _ | .newObject .. => 0
  | .binary op l r _ => l.folds + r.folds + (op.constant? l.fold r.fold).isSome.toNat
  | .unary _ e _ => e.folds
  | .paren e => e.folds + e.fold.isLiteral.toNat
  | .index a i _ => a.folds + i.folds
  | .length a _ => a.folds
  | .call none _ as _ => Expr.foldsOf as
  | .call (some t) _ as _ => t.folds + Expr.foldsOf as
  | .newArray _ e _ => e.folds
  | .arrayInit es _ => Expr.foldsOf es

def Expr.foldsOf : List Expr → Nat
  | [] => 0
  | e :: es => e.folds + Expr.foldsOf es

end

mutual

def Stmt.fold : Stmt → Stmt
  | .block b s => .block (Stmt.foldAll b) s
  | .cond c t none s => .cond c.fold t.fold none s
  | .cond c t (some e) s => .cond c.fold t.fold (some e.fold) s
  | .loop c b s => .loop c.fold b.fold s
  | .expr e s => .expr e.fold s
  | .assign t v s => .assign t.fold v.fold s
  | .ret none s => .ret none s
  | .ret (some v) s => .ret (some v.fold) s

def Stmt.foldAll : List Stmt → List Stmt
  | [] => []
  | t :: ts => t.fold :: Stmt.foldAll ts

end

mutual

def Stmt.folds : Stmt → Nat
  | .block b _ => Stmt.foldsOf b
  | .cond c t none _ => c.folds + t.folds
  | .cond c t (some e) _ => c.folds + t.folds + e.folds
  | .loop c b _ => c.folds + b.folds
  | .expr e _ => e.folds
  | .assign t v _ => t.folds + v.folds
  | .ret none _ => 0
  | .ret (some v) _ => v.folds

def Stmt.foldsOf : List Stmt → Nat
  | [] => 0
  | t :: ts => t.folds + Stmt.foldsOf ts

end

def MethodDecl.fold (m : MethodDecl) : MethodDecl := { m with body := Stmt.foldAll m.body }
def MethodDecl.folds (m : MethodDecl) : Nat := Stmt.foldsOf m.body

theorem Expr.weight_foldBinary (op : BinaryOp) (l r : Expr) (span : Span) :
    (Expr.foldBinary op l r span).weight + (op.constant? l r).isSome.toNat =
      l.weight + r.weight + 1 := by
  unfold foldBinary
  split
  next v h =>
    unfold BinaryOp.constant? at h
    split at h <;> simp_all [weight, BinaryOp.constant?]
  next h => simp [h, weight]

theorem Expr.weight_foldParen (e : Expr) :
    e.foldParen.weight + e.isLiteral.toNat = e.weight + 1 := by
  cases e <;> simp [foldParen, isLiteral, weight]

mutual

theorem Expr.weight_fold (e : Expr) : e.fold.weight + e.folds = e.weight := by
  cases e with
  | literal | name | this | newObject => simp [Expr.fold, Expr.folds, Expr.weight]
  | binary op l r s =>
    have := Expr.weight_foldBinary op l.fold r.fold s
    have := Expr.weight_fold l
    have := Expr.weight_fold r
    simp only [Expr.fold, Expr.folds, Expr.weight]
    omega
  | paren e =>
    have := Expr.weight_foldParen e.fold
    have := Expr.weight_fold e
    simp only [Expr.fold, Expr.folds, Expr.weight]
    omega
  | unary op e s => simpa [Expr.fold, Expr.folds, Expr.weight] using Expr.weight_fold e
  | length a s => simpa [Expr.fold, Expr.folds, Expr.weight] using Expr.weight_fold a
  | newArray t e s => simpa [Expr.fold, Expr.folds, Expr.weight] using Expr.weight_fold e
  | index a i s =>
    have := Expr.weight_fold a
    have := Expr.weight_fold i
    simp only [Expr.fold, Expr.folds, Expr.weight]
    omega
  | call t m as s =>
    have := Expr.weight_foldAll as
    cases t with
    | none => simpa [Expr.fold, Expr.folds, Expr.weight]
    | some t =>
      have := Expr.weight_fold t
      simp only [Expr.fold, Expr.folds, Expr.weight]
      omega
  | arrayInit es s => simpa [Expr.fold, Expr.folds, Expr.weight] using Expr.weight_foldAll es

theorem Expr.weight_foldAll (es : List Expr) :
    Expr.weightOf (Expr.foldAll es) + Expr.foldsOf es = Expr.weightOf es := by
  cases es with
  | nil => rfl
  | cons e es =>
    have := Expr.weight_fold e
    have := Expr.weight_foldAll es
    simp only [Expr.foldAll, Expr.foldsOf, Expr.weightOf]
    omega

end

mutual

theorem Stmt.weight_fold (t : Stmt) : t.fold.weight + t.folds = t.weight := by
  cases t with
  | block b s => simpa [Stmt.fold, Stmt.folds, Stmt.weight] using Stmt.weight_foldAll b
  | cond c t e s =>
    have := Expr.weight_fold c
    have := Stmt.weight_fold t
    cases e with
    | none => simp only [Stmt.fold, Stmt.folds, Stmt.weight]; omega
    | some e =>
      have := Stmt.weight_fold e
      simp only [Stmt.fold, Stmt.folds, Stmt.weight]
      omega
  | loop c b s =>
    have := Expr.weight_fold c
    have := Stmt.weight_fold b
    simp only [Stmt.fold, Stmt.folds, Stmt.weight]
    omega
  | expr e s => simpa [Stmt.fold, Stmt.folds, Stmt.weight] using Expr.weight_fold e
  | assign t v s =>
    have := Expr.weight_fold t
    have := Expr.weight_fold v
    simp only [Stmt.fold, Stmt.folds, Stmt.weight]
    omega
  | ret v s =>
    cases v with
    | none => rfl
    | some v => simpa [Stmt.fold, Stmt.folds, Stmt.weight] using Expr.weight_fold v

theorem Stmt.weight_foldAll (ts : List Stmt) :
    Stmt.weightOf (Stmt.foldAll ts) + Stmt.foldsOf ts = Stmt.weightOf ts := by
  cases ts with
  | nil => rfl
  | cons t ts =>
    have := Stmt.weight_fold t
    have := Stmt.weight_foldAll ts
    simp only [Stmt.foldAll, Stmt.foldsOf, Stmt.weightOf]
    omega

end

theorem MethodDecl.weight_fold (m : MethodDecl) : m.fold.weight + m.folds = m.weight :=
  Stmt.weight_foldAll m.body

end SingleClass
