import Mathlib.Logic.Relation
import SingleClass.Assembly.Class
import SingleClass.Proofs.Behaviour.Code
set_option autoImplicit false

/-!
A stack machine for assembly: a position in the lines of a method, registers, an operand stack, and
the memory of the other machines. A boolean is the word 0 or 1 on the stack and in a register; where a
line says that a word is meant as a boolean, its lowest bit counts. Words of the wrong kind, an empty
register and an empty stack are failures.
-/

namespace SingleClass

/-- What a register or a place on the stack holds. -/
inductive Word where
  | int (value : Int32)
  | ref (ref : Ref)
  deriving DecidableEq

def Word.ofBool (b : Bool) : Word := .int (if b then 1 else 0)

def Value.word : Value → Word
  | .int v => .int v
  | .bool b => .ofBool b
  | .ref r => .ref r

@[simp] theorem Value.word_int (n : Int32) : (Value.int n).word = .int n := rfl
@[simp] theorem Value.word_ref (r : Ref) : (Value.ref r).word = .ref r := rfl

/-- The value that a word is in a place of this kind. -/
def Word.value? : Cell → Word → Option Value
  | .int, .int v => some (.int v)
  | .bool, .int v => some (.bool (v &&& 1 = 1))
  | .object, .ref r => some (.ref r)
  | _, _ => none

def Cell.admits (c : Cell) (x : Word) : Bool := (x.value? c).isSome

def WordOp.compute : WordOp → Int32 → Int32 → Option Int32
  | .add, a, b => some (a + b)
  | .sub, a, b => some (a - b)
  | .mul, a, b => some (a * b)
  | .div, a, b => if b = 0 then none else some (a / b)
  | .and, a, b => some (a &&& b)
  | .or, a, b => some (a ||| b)
  | .xor, a, b => some (a ^^^ b)

def Relation.holds : Relation → Int32 → Int32 → Bool
  | .eq, a, b => a = b
  | .ne, a, b => a ≠ b
  | .lt, a, b => a < b
  | .le, a, b => a ≤ b
  | .gt, a, b => b < a
  | .ge, a, b => b ≤ a

def Test.holds? : Test → Word → Word → Option Bool
  | .words r, .int a, .int b => some (r.holds a b)
  | .sameReference, .ref a, .ref b => some (a = b)
  | .otherReference, .ref a, .ref b => some (a ≠ b)
  | _, _, _ => none

def FieldType.ty (t : FieldType) : Ty where
  kind := match t.base with
    | .int => .int
    | .boolean => .boolean
    | .void => .void
    | .object c => .named c
  isArray := t.isArray

/-- How a value of the type sits on the stack; void has no values. -/
def FieldType.cell? (t : FieldType) : Option Cell :=
  if t.isArray then some .object
  else
    match t.base with
    | .int => some .int
    | .boolean => some .bool
    | .object _ => some .object
    | .void => none

def FieldType.value? (t : FieldType) (x : Word) : Option Value := do
  let c ← t.cell?
  x.value? c

def FieldType.values? : List FieldType → List Word → Option (List Value)
  | [], [] => some []
  | t :: ts, x :: xs => do
    let v ← t.value? x
    let vs ← FieldType.values? ts xs
    return v :: vs
  | _, _ => none

/-- Registers and stack. The head of the stack is its top. -/
structure Activation where
  registers : Nat → Option Word
  stack : List Word

namespace Activation

def push (s : Activation) (x : Word) : Activation := { s with stack := x :: s.stack }

def setRegister (s : Activation) (n : Nat) (x : Word) : Activation :=
  { s with registers := fun k => if k = n then some x else s.registers k }

/-- What is below the topmost words, once they have served. -/
def withStack (s : Activation) (stack : List Word) : Activation := { s with stack }

end Activation

/-- A call: the arguments lie on the receiver, if there is one, and give way to the result. -/
def Line.invocation (w : World) (dispatch : Dispatch) (method : String) (t : MethodType)
    (s : Activation) : Action Memory Activation := do
  let args ← Action.ofOption (FieldType.values? t.params (s.stack.take t.params.length).reverse)
  let below := s.stack.drop t.params.length
  let (receiver, rest) ← Action.ofOption <| match dispatch, below with
    | .static, rest => some (none, rest)
    | _, .ref r :: rest => some (some (.ref r), rest)
    | _, _ => none
  let result ← w.call method receiver args t.result.ty
  return s.withStack (result.toList.map Value.word ++ rest)

/-- What a line does to registers, stack and memory, jumps and returns aside. -/
def Line.effect (w : World) (s : Activation) : Line → Action Memory Activation
  | .push v => pure (s.push (.int v))
  | .pushNull => pure (s.push (.ref .null))
  | .load c n =>
    match s.registers n with
    | some x => if c.admits x then pure (s.push x) else Action.fail
    | none => Action.fail
  | .store c n =>
    match s.stack with
    | x :: rest => if c.admits x then pure ((s.withStack rest).setRegister n x) else Action.fail
    | [] => Action.fail
  | .word op =>
    match s.stack with
    | .int b :: .int a :: rest => do
      let v ← Action.ofOption (op.compute a b)
      return s.withStack (.int v :: rest)
    | _ => Action.fail
  | .negate =>
    match s.stack with
    | .int a :: rest => pure (s.withStack (.int (-a) :: rest))
    | _ => Action.fail
  | .pop =>
    match s.stack with
    | _ :: rest => pure (s.withStack rest)
    | [] => Action.fail
  | .new className => do
    let v ← w.newObject className
    return s.push v.word
  | .newIntArray => allocate .int
  | .newBoolArray => allocate .bool
  | .newObjectArray _ => allocate .object
  | .arrayLoad c =>
    match s.stack with
    | .int i :: .ref r :: rest => do
      let v ← Memory.loadElement (.ref r) (.int i)
      if v.cell = c then return s.withStack (v.word :: rest) else Action.fail
    | _ => Action.fail
  | .arrayStore c =>
    match s.stack with
    | x :: .int i :: .ref r :: rest => do
      let v ← Action.ofOption (x.value? c)
      Memory.storeElement (.ref r) (.int i) v
      return s.withStack rest
    | _ => Action.fail
  | .arrayLength =>
    match s.stack with
    | .ref r :: rest => do
      let v ← Memory.length (.ref r)
      return s.withStack (v.word :: rest)
    | _ => Action.fail
  | .getField _ field t =>
    match s.stack with
    | .ref r :: rest => do
      let v ← Memory.getField (.ref r) field t.ty
      return s.withStack (v.word :: rest)
    | _ => Action.fail
  | .putField _ field t =>
    match s.stack with
    | x :: .ref r :: rest => do
      let v ← Action.ofOption (t.value? x)
      Memory.putField (.ref r) field v
      return s.withStack rest
    | _ => Action.fail
  | .invoke dispatch _ method t => Line.invocation w dispatch method t s
  | .label _ | .goto _ | .ifTrue _ | .jumpIf _ _ | .ret _ => pure s
where
  allocate (c : Cell) : Action Memory Activation :=
    match s.stack with
    | .int n :: rest => do
      let v ← Memory.allocArray c (.int n)
      return s.withStack (v.word :: rest)
    | _ => Action.fail

structure MachineState where
  pc : Nat
  activation : Activation
  memory : Memory

inductive Ending where
  | returned (value : Option Word) (memory : Memory)
  | failed (memory : Memory)

inductive MachineProgress where
  | running (state : MachineState)
  | finished (ending : Ending)

def Final.ending : Final → Ending
  | .returned v μ => .returned (v.map Value.word) μ
  | .failed μ => .failed μ

namespace MethodAssembly

def start (a : MethodAssembly) (position : Nat) : Nat := (a.blocks.take position).flatten.length

def jump (a : MethodAssembly) (s : MachineState) (l : Label) (stack : List Word) :
    Option MachineProgress :=
  (a.lines.idxOf? (.label l)).map fun position =>
    .running { s with pc := position, activation := s.activation.withStack stack }

def next (s : MachineState) (stack : List Word) : Option MachineProgress :=
  some (.running { s with pc := s.pc + 1, activation := s.activation.withStack stack })

/-- One line. There is no step past the end, to a label without a line, or in a call that does not
come back. -/
def step (a : MethodAssembly) (w : World) (s : MachineState) : Option MachineProgress :=
  match a.lines[s.pc]? with
  | none => none
  | some (.label _) => next s s.activation.stack
  | some (.goto l) => a.jump s l s.activation.stack
  | some (.ifTrue l) =>
    match s.activation.stack with
    | .int v :: rest => if v ≠ 0 then a.jump s l rest else next s rest
    | _ => some (.finished (.failed s.memory))
  | some (.jumpIf t l) =>
    match s.activation.stack with
    | y :: x :: rest =>
      match t.holds? x y with
      | some true => a.jump s l rest
      | some false => next s rest
      | none => some (.finished (.failed s.memory))
    | _ => some (.finished (.failed s.memory))
  | some (.ret none) => some (.finished (.returned none s.memory))
  | some (.ret (some c)) =>
    match s.activation.stack with
    | x :: _ =>
      if c.admits x then some (.finished (.returned (some x) s.memory))
      else some (.finished (.failed s.memory))
    | [] => some (.finished (.failed s.memory))
  | some line =>
    match line.effect w s.activation s.memory with
    | .returns activation memory => some (.running { pc := s.pc + 1, activation, memory })
    | .fails memory => some (.finished (.failed memory))
    | .diverges => none

def Reaches (a : MethodAssembly) (w : World) : MachineState → MachineState → Prop :=
  Relation.ReflTransGen fun s s' => a.step w s = some (.running s')

/-- The machine, started in a state, comes to this end. -/
def Ends (a : MethodAssembly) (w : World) (s : MachineState) (e : Ending) : Prop :=
  ∃ s', a.Reaches w s s' ∧ a.step w s' = some (.finished e)

end MethodAssembly

end SingleClass
