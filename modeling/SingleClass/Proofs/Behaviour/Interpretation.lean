import SingleClass.Proofs.Behaviour.Expr
set_option autoImplicit false

/-!
Interpretations of bodies: a reading of every form of expression over values and a memory of its own.
Fixed are only the order of evaluation, from left to right, and 32-bit arithmetic on integers. Whether
a logical operator looks at its right side, when an initializer allocates, and all that calls, fields
and arrays do is left to the interpretation.
-/

namespace SingleClass

structure Interpretation where
  Value : Type
  Memory : Type
  int : Int32 → Value
  bool : Bool → Value
  this : Action Memory Value
  /-- A name that is no variable of the method: a field, or a class that is called. -/
  outer : String → Action Memory Value
  storeOuter : String → Value → Action Memory Unit
  /-- The result of an operator that its left operand settles. -/
  settled : BinaryOp → Value → Option Value
  binary : BinaryOp → Value → Value → Action Memory Value
  unary : UnaryOp → Value → Action Memory Value
  element : (array index : Value) → Action Memory Value
  storeElement : (array index value : Value) → Action Memory Unit
  length : Value → Action Memory Value
  /-- A call by its receiver, if one is written, its method and its arguments. -/
  call : Option Value → String → List Value → Action Memory Value
  newObject : String → Action Memory Value
  newArray : TypeName → Value → Action Memory Value
  /-- An initializer on its way, begun by its size and given its elements one by one. -/
  Initializer : Type
  beginInit : Nat → Action Memory Initializer
  addInit : Initializer → Value → Action Memory Initializer
  endInit : Initializer → Action Memory Value
  truth : Value → Option Bool
  settled_arithmetic : ∀ (op : BinaryOp) (v : Value), op.family = .arithmetic → settled op v = none
  binary_add : ∀ a b : Int32, binary .add (int a) (int b) = pure (int (a + b))
  binary_sub : ∀ a b : Int32, binary .sub (int a) (int b) = pure (int (a - b))
  binary_mul : ∀ a b : Int32, binary .mul (int a) (int b) = pure (int (a * b))
  /-- What a division by zero does is left open. -/
  binary_div : ∀ a b : Int32, b ≠ 0 → binary .div (int a) (int b) = pure (int (a / b))

namespace Interpretation

theorem binary_of_compute (I : Interpretation) {op : BinaryOp} {a b c : Int32}
    (h : op.compute a b = some c) : I.binary op (I.int a) (I.int b) = pure (I.int c) := by
  cases op with
  | add => cases h; exact I.binary_add a b
  | sub => cases h; exact I.binary_sub a b
  | mul => cases h; exact I.binary_mul a b
  | div =>
    obtain ⟨hb, rfl⟩ : b ≠ 0 ∧ a / b = c := by simpa [BinaryOp.compute] using h
    exact I.binary_div a b hb
  | lt | le | gt | ge | eq | ne | and | or => cases h

def literal (I : Interpretation) : Literal → I.Value
  | .int v => I.int v
  | .bool b => I.bool b

mutual

/-- The action of an expression where `names` are the variables and `vars` their values. -/
def eval (I : Interpretation) (names : List String) (vars : String → I.Value) :
    Expr → Action I.Memory I.Value
  | .literal v _ => pure (I.literal v)
  | .name n _ => if n ∈ names then pure (vars n) else I.outer n
  | .this _ => I.this
  | .binary op l r _ => do
    let a ← I.eval names vars l
    match I.settled op a with
    | some v => pure v
    | none => do
      let b ← I.eval names vars r
      I.binary op a b
  | .unary op e _ => do
    let v ← I.eval names vars e
    I.unary op v
  | .paren e => I.eval names vars e
  | .index a i _ => do
    let array ← I.eval names vars a
    let index ← I.eval names vars i
    I.element array index
  | .length a _ => do
    let array ← I.eval names vars a
    I.length array
  | .call none m as _ => do
    let args ← I.evalAll names vars as
    I.call none m args
  | .call (some t) m as _ => do
    let receiver ← I.eval names vars t
    let args ← I.evalAll names vars as
    I.call (some receiver) m args
  | .newObject c _ => I.newObject c
  | .newArray t e _ => do
    let size ← I.eval names vars e
    I.newArray t size
  | .arrayInit es _ => do
    let start ← I.beginInit es.length
    let filled ← I.evalInit names vars start es
    I.endInit filled

def evalAll (I : Interpretation) (names : List String) (vars : String → I.Value) :
    List Expr → Action I.Memory (List I.Value)
  | [] => pure []
  | e :: es => do
    let v ← I.eval names vars e
    let vs ← I.evalAll names vars es
    return v :: vs

def evalInit (I : Interpretation) (names : List String) (vars : String → I.Value) :
    I.Initializer → List Expr → Action I.Memory I.Initializer
  | filled, [] => pure filled
  | filled, e :: es => do
    let v ← I.eval names vars e
    let next ← I.addInit filled v
    I.evalInit names vars next es

end

def evaluator (I : Interpretation) (names : List String) : Evaluator I.Value I.Memory where
  eval vars e := I.eval names vars e
  effect vars e := do
    let _ ← I.eval names vars e
    return ()
  truth := I.truth
  isVariable n := n ∈ names
  storeName := I.storeOuter
  storeElement := I.storeElement

end Interpretation

/-- The values and the memory of a run in a world, where both sides of a logical operator are looked
at and an initializer allocates when its elements are known. -/
def World.interpretation (w : World) (S : Symbols) : Interpretation where
  Value := Value
  Memory := Memory
  int := .int
  bool := .bool
  this := pure w.this
  outer n :=
    match S.field? n with
    | some f => Memory.getField w.this f.name f.ty.asValue
    | none => Action.fail
  storeOuter n v := Memory.putField w.this n v
  settled _ _ := none
  binary op a b := Action.ofOption (op.apply a b)
  unary op a := Action.ofOption (op.apply a)
  element := Memory.loadElement
  storeElement := Memory.storeElement
  length := Memory.length
  call receiver m args :=
    match S.method? m with
    | none => Action.fail
    | some callee => do
      let result ← w.call m (some (receiver.getD w.this)) args callee.returnTy
      return result.getD (.ref .null)
  newObject := w.newObject
  newArray t size := Memory.allocArray (Ty.ofName t).elementCell size
  Initializer := List Value
  beginInit _ := pure []
  addInit vs v := pure (vs ++ [v])
  endInit vs := Memory.pack ((vs.head?.map Value.cell).getD .object) (vs.map pure)
  truth
    | .bool b => some b
    | _ => none
  settled_arithmetic _ _ _ := rfl
  binary_add _ _ := rfl
  binary_sub _ _ := rfl
  binary_mul _ _ := rfl
  binary_div a b hb := by
    have happly : BinaryOp.apply .div (.int a) (.int b) = some (.int (a / b)) := by
      simp [BinaryOp.apply, BinaryOp.compute, hb]
    rw [happly]
    rfl

def MethodDecl.varNames (m : MethodDecl) : List String := (m.params ++ m.locals).map (·.name)

def MethodDecl.runs (I : Interpretation) (m : MethodDecl) : Behaviour I.Value I.Memory :=
  Stmt.runsAll (I.evaluator m.varNames) m.body

end SingleClass
