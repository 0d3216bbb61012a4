import SingleClass.Constant.Facts
import SingleClass.Constant.Weight
import SingleClass.Source.Walk
set_option autoImplicit false

/-!
Propagation: a read of a local that is known to hold a literal becomes that literal.

`after` says what is known behind a statement. Only assignments to the method's own locals are
tracked; what a loop body assigns is unknown before, in and behind the loop; behind a conditional only
what both branches agree on is known. `propagate` works with the facts before each statement and
`substitutions` counts the reads that it replaces.
-/

namespace SingleClass

mutual

def Expr.substitute (f : Facts) : Expr → Expr
  | .literal v s => .literal v s
  | .name n s =>
    match f.get? n with
    | some v => .literal v s
    | none => .name n s
  | .this s => .this s
  | .newObject c s => .newObject c s
  | .binary op l r s => .binary op (l.substitute f) (r.substitute f) s
  | .unary op e s => .unary op (e.substitute f) s
  | .paren e => .paren (e.substitute f)
  | .index a i s => .index (a.substitute f) (i.substitute f) s
  | .length a s => .length (a.substitute f) s
  | .call none m as s => .call none m (Expr.substituteAll f as) s
  | .call (some t) m as s => .call (some (t.substitute f)) m (Expr.substituteAll f as) s
  | .newArray t e s => .newArray t (e.substitute f) s
  | .arrayInit es s => .arrayInit (Expr.substituteAll f es) s

def Expr.substituteAll (f : Facts) : List Expr → List Expr
  | [] => []
  | e :: es => e.substitute f :: Expr.substituteAll f es

end

mutual

def Expr.substitutions (f : Facts) : Expr → Nat
  | .literal .. | .this _ | .newObject .. => 0
  | .name n _ => (f.get? n).isSome.toNat
  | .binary _ l r _ => l.substitutions f + r.substitutions f
  | .unary _ e _ => e.substitutions f
  | .paren e => e.substitutions f
  | .index a i _ => a.substitutions f + i.substitutions f
  | .length a _ => a.substitutions f
  | .call none _ as _ => Expr.substitutionsOf f as
  | .call (some t) _ as _ => t.substitutions f + Expr.substitutionsOf f as
  | .newArray _ e _ => e.substitutions f
  | .arrayInit es _ => Expr.substitutionsOf f es

def Expr.substitutionsOf (f : Facts) : List Expr → Nat
  | [] => 0
  | e :: es => e.substitutions f + Expr.substitutionsOf f es

end

def Facts.store (f : Facts) (name : String) : Expr → Facts
  | .literal v _ => f.insert name v
  | _ => f.erase name

mutual

def Stmt.after (locals : List String) (f : Facts) : Stmt → Facts
  | .block b _ => Stmt.afterAll locals f b
  | .cond _ t none _ => f.meet (t.after locals f)
  | .cond _ t (some e) _ => (e.after locals f).meet (t.after locals f)
  | .loop _ b _ => f.forget b.assigned
  | .assign (.name n _) v _ => if n ∈ locals then f.store n (v.substitute f) else f
  | .assign .. | .expr .. | .ret .. => f

def Stmt.afterAll (locals : List String) (f : Facts) : List Stmt → Facts
  | [] => f
  | t :: ts => Stmt.afterAll locals (t.after locals f) ts

end

mutual

def Stmt.propagate (locals : List String) (f : Facts) : Stmt → Stmt
  | .block b s => .block (Stmt.propagateAll locals f b) s
  | .cond c t none s => .cond (c.substitute f) (t.propagate locals f) none s
  | .cond c t (some e) s =>
    .cond (c.substitute f) (t.propagate locals f) (some (e.propagate locals f)) s
  | .loop c b s =>
    .loop (c.substitute (f.forget b.assigned)) (b.propagate locals (f.forget b.assigned)) s
  | .expr e s => .expr (e.substitute f) s
  | .assign (.name n p) v s => .assign (.name n p) (v.substitute f) s
  | .assign t v s => .assign (t.substitute f) (v.substitute f) s
  | .ret none s => .ret none s
  | .ret (some v) s => .ret (some (v.substitute f)) s

def Stmt.propagateAll (locals : List String) (f : Facts) : List Stmt → List Stmt
  | [] => []
  | t :: ts => t.propagate locals f :: Stmt.propagateAll locals (t.after locals f) ts

end

mutual

def Stmt.substitutions (locals : List String) (f : Facts) : Stmt → Nat
  | .block b _ => Stmt.substitutionsOf locals f b
  | .cond c t none _ => c.substitutions f + t.substitutions locals f
  | .cond c t (some e) _ =>
    c.substitutions f + t.substitutions locals f + e.substitutions locals f
  | .loop c b _ =>
    c.substitutions (f.forget b.assigned) + b.substitutions locals (f.forget b.assigned)
  | .expr e _ => e.substitutions f
  | .assign (.name _ _) v _ => v.substitutions f
  | .assign t v _ => t.substitutions f + v.substitutions f
  | .ret none _ => 0
  | .ret (some v) _ => v.substitutions f

def Stmt.substitutionsOf (locals : List String) (f : Facts) : List Stmt → Nat
  | [] => 0
  | t :: ts => t.substitutions locals f + Stmt.substitutionsOf locals (t.after locals f) ts

end

def MethodDecl.localNames (m : MethodDecl) : List String := m.locals.map (·.name)

def MethodDecl.propagate (m : MethodDecl) : MethodDecl :=
  { m with body := Stmt.propagateAll m.localNames {} m.body }

def MethodDecl.substitutions (m : MethodDecl) : Nat := Stmt.substitutionsOf m.localNames {} m.body

mutual

theorem Expr.weight_substitute (f : Facts) (e : Expr) :
    (e.substitute f).weight + e.substitutions f = e.weight := by
  cases e with
  | literal | this | newObject => simp [Expr.substitute, Expr.substitutions, Expr.weight]
  | name n s =>
    simp only [Expr.substitute, Expr.substitutions, Expr.weight]
    cases f.get? n <;> simp [Expr.weight]
  | binary op l r s =>
    have := Expr.weight_substitute f l
    have := Expr.weight_substitute f r
    simp only [Expr.substitute, Expr.substitutions, Expr.weight]
    omega
  | paren e =>
    have := Expr.weight_substitute f e
    simp only [Expr.substitute, Expr.substitutions, Expr.weight]
    omega
  | unary op e s =>
    simpa [Expr.substitute, Expr.substitutions, Expr.weight] using Expr.weight_substitute f e
  | length a s =>
    simpa [Expr.substitute, Expr.substitutions, Expr.weight] using Expr.weight_substitute f a
  | newArray t e s =>
    simpa [Expr.substitute, Expr.substitutions, Expr.weight] using Expr.weight_substitute f e
  | index a i s =>
    have := Expr.weight_substitute f a
    have := Expr.weight_substitute f i
    simp only [Expr.substitute, Expr.substitutions, Expr.weight]
    omega
  | call t m as s =>
    have := Expr.weight_substituteAll f as
    cases t with
    | none => simpa [Expr.substitute, Expr.substitutions, Expr.weight]
    | some t =>
      have := Expr.weight_substitute f t
      simp only [Expr.substitute, Expr.substitutions, Expr.weight]
      omega
  | arrayInit es s =>
    simpa [Expr.substitute, Expr.substitutions, Expr.weight] using Expr.weight_substituteAll f es

theorem Expr.weight_substituteAll (f : Facts) (es : List Expr) :
    Expr.weightOf (Expr.substituteAll f es) + Expr.substitutionsOf f es = Expr.weightOf es := by
  cases es with
  | nil => rfl
  | cons e es =>
    have := Expr.weight_substitute f e
    have := Expr.weight_substituteAll f es
    simp only [Expr.substituteAll, Expr.substitutionsOf, Expr.weightOf]
    omega

end

mutual

theorem Stmt.weight_propagate (locals : List String) (f : Facts) (t : Stmt) :
    (t.propagate locals f).weight + t.substitutions locals f = t.weight := by
  cases t with
  | block b s =>
    simpa [Stmt.propagate, Stmt.substitutions, Stmt.weight] using Stmt.weight_propagateAll locals f b
  | cond c t e s =>
    have := Expr.weight_substitute f c
    have := Stmt.weight_propagate locals f t
    cases e with
    | none => simp only [Stmt.propagate, Stmt.substitutions, Stmt.weight]; omega
    | some e =>
      have := Stmt.weight_propagate locals f e
      simp only [Stmt.propagate, Stmt.substitutions, Stmt.weight]
      omega
  | loop c b s =>
    have := Expr.weight_substitute (f.forget b.assigned) c
    have := Stmt.weight_propagate locals (f.forget b.assigned) b
    simp only [Stmt.propagate, Stmt.substitutions, Stmt.weight]
    omega
  | expr e s =>
    simpa [Stmt.propagate, Stmt.substitutions, Stmt.weight] using Expr.weight_substitute f e
  | assign t v s =>
    have := Expr.weight_substitute f t
    have := Expr.weight_substitute f v
    cases t <;> simp only [Stmt.propagate, Stmt.substitutions, Stmt.weight] <;> omega
  | ret v s =>
    cases v with
    | none => rfl
    | some v =>
      simpa [Stmt.propagate, Stmt.substitutions, Stmt.weight] using Expr.weight_substitute f v

theorem Stmt.weight_propagateAll (locals : List String) (f : Facts) (ts : List Stmt) :
    Stmt.weightOf (Stmt.propagateAll locals f ts) + Stmt.substitutionsOf locals f ts =
      Stmt.weightOf ts := by
  cases ts with
  | nil => rfl
  | cons t ts =>
    have := Stmt.weight_propagate locals f t
    have := Stmt.weight_propagateAll locals (t.after locals f) ts
    simp only [Stmt.propagateAll, Stmt.substitutionsOf, Stmt.weightOf]
    omega

end

theorem MethodDecl.weight_propagate (m : MethodDecl) :
    m.propagate.weight + m.substitutions = m.weight :=
  Stmt.weight_propagateAll m.localNames {} m.body

end SingleClass
