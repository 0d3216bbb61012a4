import SingleClass.Lowering.Expr
set_option autoImplicit false

/-!
Lowering of statements. A conditional numbered `n` becomes

```text
    <condition>
    if (condition) goto then_n
    <else>
    goto endif_n
  then_n:
    <then>
  endif_n:
```

and a loop

```text
  whilecond_n:
    <condition>
    if (condition) goto whilebody_n
    goto whileend_n
  whilebody_n:
    <body>
    goto whilecond_n
  whileend_n:
```
-/

namespace SingleClass

namespace Scope

/-- An expression for its effect. The result of a call is thrown away. -/
def lowerEffect (s : Scope) (e : Expr) : Lower (List Instr) :=
  match e.stripParens with
  | .call target m as span => do
    let (code, _) ← s.lowerCall (target.map s.pending) m (as.map s.pending) span .discard
    return code
  | e => do
    let f ← s.lower e (.of (s.typeHint e))
    return f.code

def lowerAssign (s : Scope) (target value : Expr) : Lower (List Instr) :=
  match target with
  | .name n _ =>
    match s.lookup n with
    | some (.field f) => do
      let v ← s.lower value (.of f.ty.asValue)
      return v.code ++ [.putField f.name f.ty.asValue v.operand]
    | some b => do
      let v ← s.lower value (.of b.symbol.ty.asValue)
      return v.code ++ [.assign (.var n b.symbol.ty.asValue) v.operand]
    | none => throw (.undeclaredTarget n)
  | .index a i _ => do
    let af ← s.lower a .unknown
    let jf ← s.lower i (.value .int)
    let v ← s.lower value (.of af.operand.ty.element)
    return af.code ++ jf.code ++ v.code ++ [.assign (.element af.operand jf.operand) v.operand]
  | e => throw (.badTarget e.kindName)

def lowerReturn (s : Scope) (value : Option Expr) : Lower (List Instr) :=
  match value with
  | some e => do
    let v ← s.lower e (.of s.method.returnTy)
    return v.code ++ [.ret (some v.operand)]
  | none => pure [.ret none]

end Scope

def condCode (n : Nat) (condition : Fragment) (thenCode elseCode : List Instr) : List Instr :=
  condition.code ++ [.branch condition.operand ⟨"then", n⟩] ++ elseCode ++
    [.goto ⟨"endif", n⟩, .label ⟨"then", n⟩] ++ thenCode ++ [.label ⟨"endif", n⟩]

def loopCode (n : Nat) (condition : Fragment) (body : List Instr) : List Instr :=
  [.label ⟨"whilecond", n⟩] ++ condition.code ++
    [.branch condition.operand ⟨"whilebody", n⟩, .goto ⟨"whileend", n⟩, .label ⟨"whilebody", n⟩] ++
    body ++ [.goto ⟨"whilecond", n⟩, .label ⟨"whileend", n⟩]

namespace Scope

mutual

def lowerStmt (s : Scope) : Stmt → Lower (List Instr)
  | .block b _ => s.lowerBody b
  | .cond c t none _ => do
    let n ← freshLabel
    let condition ← s.lower c (.value .boolean)
    let thenCode ← s.lowerStmt t
    return condCode n condition thenCode []
  | .cond c t (some e) _ => do
    let n ← freshLabel
    let condition ← s.lower c (.value .boolean)
    let elseCode ← s.lowerStmt e
    let thenCode ← s.lowerStmt t
    return condCode n condition thenCode elseCode
  | .loop c b _ => do
    let n ← freshLabel
    let condition ← s.lower c (.value .boolean)
    let body ← s.lowerStmt b
    return loopCode n condition body
  | .expr e _ => s.lowerEffect e
  | .assign target value _ => s.lowerAssign target value
  | .ret v _ => s.lowerReturn v

def lowerBody (s : Scope) : List Stmt → Lower (List Instr)
  | [] => pure []
  | t :: ts => do
    let code ← s.lowerStmt t
    let rest ← s.lowerBody ts
    return code ++ rest

end

end Scope

end SingleClass
