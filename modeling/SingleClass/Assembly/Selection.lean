import SingleClass.Assembly.Line
import SingleClass.Assembly.Registers
set_option autoImplicit false

/-!
Selection of assembly for three-address code. Each instruction loads its operands, works on the stack
and stores its result, and leaves the stack as it found it.
-/

namespace SingleClass

def Cell.of (t : Ty) : Except Failure Cell :=
  if t.isArray then .ok .object
  else
    match t.kind with
    | .int => .ok .int
    | .boolean => .ok .bool
    | .string | .named _ => .ok .object
    | .void | .external | .indeterminate => .error (.noCell t)

def BinaryOp.word? : BinaryOp → Option WordOp
  | .add => some .add
  | .sub => some .sub
  | .mul => some .mul
  | .div => some .div
  | .and => some .and
  | .or => some .or
  | _ => none

/-- The test that holds when a comparison does. Order is for integers only. -/
def BinaryOp.test (op : BinaryOp) (c : Cell) : Except Failure Test :=
  match op, c with
  | .eq, .object => .ok .sameReference
  | .ne, .object => .ok .otherReference
  | .eq, _ => .ok (.words .eq)
  | .ne, _ => .ok (.words .ne)
  | .lt, .int => .ok (.words .lt)
  | .le, .int => .ok (.words .le)
  | .gt, .int => .ok (.words .gt)
  | .ge, .int => .ok (.words .ge)
  | op, c => .error (.noComparison op c)

def Line.leave (t : Ty) : Except Failure Line :=
  if t.isVoid && !t.isArray then .ok (.ret none) else (Cell.of t).map (.ret <| some ·)

def Line.loadElement (t : Ty) : Except Failure Line := (Cell.of t).map .arrayLoad

def Line.storeElement (t : Ty) : Except Failure Line := (Cell.of t).map .arrayStore

/-- How the operands of a comparison are held. Two references are compared as such. -/
def Cell.compared (op : BinaryOp) (l r : Ty) : Except Failure Cell :=
  if op.family = .equality && l.isReference && r.isReference then .ok .object else Cell.of l

/-- Comparison number `k` of a method: leaves 1 when the test holds, else 0. -/
def compareLines (k : Nat) (t : Test) : List Line :=
  [.jumpIf t ⟨"cmp_true", k⟩, .push 0, .goto ⟨"cmp_end", k⟩, .label ⟨"cmp_true", k⟩, .push 1,
    .label ⟨"cmp_end", k⟩]

/-- Where instructions are selected: a method of a class, its registers assigned. -/
structure Frame where
  unit : ClassCode
  method : MethodCode
  registers : Registers

namespace Frame

def load (f : Frame) : Operand → Except Failure Line
  | .int v => .ok (.push v)
  | .bool b => .ok (.push (if b then 1 else 0))
  | .null _ => .ok .pushNull
  | o => do
    let r ← f.registers.operand o
    let c ← Cell.of o.ty
    return .load c r

def loadAll (f : Frame) : List Operand → Except Failure (List Line)
  | [] => .ok []
  | o :: os => do
    let l ← f.load o
    let ls ← f.loadAll os
    return l :: ls

def storeTemp (f : Frame) (t : Temp) : Except Failure Line := do
  let r ← f.registers.temp t
  let c ← Cell.of t.ty
  return .store c r

def storeVar (f : Frame) (name : String) (t : Ty) : Except Failure Line := do
  let r ← f.registers.var name
  let c ← Cell.of t
  return .store c r

def assign (f : Frame) (d : Dest) (value : Operand) : Except Failure (List Line) :=
  match d with
  | .var n t => do
    let v ← f.load value
    let s ← f.storeVar n t
    return [v, s]
  | .temp t => do
    let v ← f.load value
    let s ← f.storeTemp t
    return [v, s]
  | .element array index => do
    let ls ← f.loadAll [array, index, value]
    let s ← Line.storeElement array.ty.element
    return ls ++ [s]

def operator (k : Nat) (op : BinaryOp) (l r : Ty) : Except Failure (List Line) :=
  match op.word? with
  | some w => .ok [.word w]
  | none => do
    let c ← Cell.compared op l r
    let t ← op.test c
    return compareLines k t

def unaryLines : UnaryOp → List Line
  | .not => [.push 1, .word .xor]
  | .neg => [.negate]

def allocate (f : Frame) (element : Ty) : Except Failure Line := do
  let c ← Cell.of element
  match c with
  | .int => return .newIntArray
  | .bool => return .newBoolArray
  | .object =>
    let t ← f.unit.fieldType element
    match t.isArray, t.base with
    | false, .object className => return .newObjectArray className
    | _, _ => return .newObjectArray t.text

/-- What becomes of the result of a call: stored, or dropped if there is one. -/
def result (f : Frame) (dest : Option Temp) (ret : Ty) : Except Failure (List Line) :=
  match dest with
  | some t => do
    let s ← f.storeTemp t
    return [s]
  | none => .ok (if ret.isVoid then [] else [.pop])

def call (f : Frame) (c : Call) : Except Failure (List Line) := do
  let ls ← f.loadAll (c.receiver.toList ++ c.args)
  let t ← f.unit.methodType c.params c.ret
  let rs ← f.result c.dest c.ret
  return ls ++ .invoke c.dispatch c.owner c.method t :: rs

/-- The lines of an instruction. Comparisons before it in the method number `k`. -/
def select (f : Frame) (k : Nat) : Instr → Except Failure (List Line)
  | .assign d v => f.assign d v
  | .binary d op l r => do
    let ls ← f.loadAll [l, r]
    let os ← operator k op l.ty r.ty
    let s ← f.storeTemp d
    return ls ++ os ++ [s]
  | .unary d op v => do
    let l ← f.load v
    let s ← f.storeTemp d
    return l :: unaryLines op ++ [s]
  | .call c => f.call c
  | .new d className => do
    let s ← f.storeTemp d
    return [.new (f.unit.internalName className), s]
  | .newArray d element size => do
    let l ← f.load size
    let a ← f.allocate element
    let s ← f.storeTemp d
    return [l, a, s]
  | .arrayLoad d array index => do
    let ls ← f.loadAll [array, index]
    let e ← Line.loadElement array.ty.element
    let s ← f.storeTemp d
    return ls ++ [e, s]
  | .arrayLength d array => do
    let l ← f.load array
    let s ← f.storeTemp d
    return [l, .arrayLength, s]
  | .getField d field ty => do
    let t ← f.unit.fieldType ty
    let s ← f.storeTemp d
    return [.load .object 0, .getField f.unit.name field t, s]
  | .putField field ty value => do
    let l ← f.load value
    let t ← f.unit.fieldType ty
    return [.load .object 0, l, .putField f.unit.name field t]
  | .ret value => do
    let ls ← f.loadAll value.toList
    let r ← Line.leave f.method.returnTy
    return ls ++ [r]
  | .goto l => .ok [.goto l]
  | .branch condition l => do
    let c ← f.load condition
    return [c, .ifTrue l]
  | .label l => if f.method.labels.has l then .ok [.label l] else .error (.missingLabel l)

def comparisons : Instr → Nat
  | .binary _ op _ _ => if op.word?.isNone then 1 else 0
  | _ => 0

def selectAll (f : Frame) : (k : Nat) → List Instr → Except Failure (List (List Line))
  | _, [] => .ok []
  | k, i :: is => do
    let ls ← f.select k i
    let rest ← f.selectAll (k + comparisons i) is
    return ls :: rest

end Frame

end SingleClass
