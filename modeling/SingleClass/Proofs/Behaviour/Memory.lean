import SingleClass.Failure
import SingleClass.Proofs.Behaviour.Stmt
set_option autoImplicit false

/-!
Values at run time and the memory they refer to, shared by the bodies of methods, by three-address
code and by assembly. Memory is not typed: what a field holds and what a call gives back is looked at
when it arrives, and what does not fit the declared type is a failure, as are a null or foreign
reference, an index out of range, a negative size and a division by zero.
-/

namespace SingleClass

/-- An array reference knows how its elements are held. -/
inductive Ref where
  | null
  | object (address : Nat)
  | array (element : Cell) (address : Nat)
  deriving DecidableEq

inductive Value where
  | int (value : Int32)
  | bool (value : Bool)
  | ref (ref : Ref)
  deriving DecidableEq

def Value.ofLiteral : Literal → Value
  | .int v => .int v
  | .bool b => .bool b

def Value.cell : Value → Cell
  | .int _ => .int
  | .bool _ => .bool
  | .ref _ => .object

def Ty.elementCell (t : Ty) : Cell :=
  match t.kind with
  | .int => .int
  | .boolean => .bool
  | _ => .object

/-- The value belongs to the type. Classes are not told apart, and an array is an object too. -/
def Value.fits (t : Ty) : Value → Bool
  | .int _ => t.isInt
  | .bool _ => t.isBoolean
  | .ref r =>
    if t.isArray then
      match r with
      | .null => true
      | .object _ => false
      | .array c _ => c = t.elementCell
    else
      match t.kind with
      | .string | .named _ => true
      | _ => false

def Cell.zero : Cell → Value
  | .int => .int 0
  | .bool => .bool false
  | .object => .ref .null

/-- An operator on two values. Operands of the wrong kind have no result. -/
def BinaryOp.apply (op : BinaryOp) : Value → Value → Option Value
  | .int a, .int b =>
    match op with
    | .lt => some (.bool (a < b))
    | .le => some (.bool (a ≤ b))
    | .gt => some (.bool (b < a))
    | .ge => some (.bool (b ≤ a))
    | .eq => some (.bool (a = b))
    | .ne => some (.bool (a ≠ b))
    | _ => (op.compute a b).map .int
  | .bool a, .bool b =>
    match op with
    | .and => some (.bool (a && b))
    | .or => some (.bool (a || b))
    | .eq => some (.bool (a = b))
    | .ne => some (.bool (a ≠ b))
    | _ => none
  | .ref a, .ref b =>
    match op with
    | .eq => some (.bool (a = b))
    | .ne => some (.bool (a ≠ b))
    | _ => none
  | _, _ => none

def UnaryOp.apply : UnaryOp → Value → Option Value
  | .not, .bool b => some (.bool !b)
  | .neg, .int a => some (.int (-a))
  | _, _ => none

structure Memory where
  fields : (address : Nat) → (field : String) → Value
  arrays : (address : Nat) → List Value
  /-- The address that the next allocation takes. -/
  next : Nat

namespace Memory

def allocObject (contents : String → Value) : Action Memory Value := fun m =>
  .returns (.ref (.object m.next))
    { m with
      fields := fun a => if a = m.next then contents else m.fields a
      next := m.next + 1 }

def allocArray (c : Cell) : (size : Value) → Action Memory Value
  | .int n => fun m =>
    if n < 0 then .fails m
    else .returns (.ref (.array c m.next))
      { m with
        arrays := fun a => if a = m.next then List.replicate n.toInt.toNat c.zero else m.arrays a
        next := m.next + 1 }
  | _ => Action.fail

def loadElement : (array index : Value) → Action Memory Value
  | .ref (.array c a), .int i => fun m =>
    match (m.arrays a)[i.toInt.toNat]? with
    | some v => if 0 ≤ i ∧ v.cell = c then .returns v m else .fails m
    | none => .fails m
  | _, _ => Action.fail

def storeElement : (array index value : Value) → Action Memory Unit
  | .ref (.array c a), .int i, v => fun m =>
    if 0 ≤ i ∧ i.toInt.toNat < (m.arrays a).length ∧ v.cell = c then
      .returns ()
        { m with
          arrays := fun b => if b = a then (m.arrays a).set i.toInt.toNat v else m.arrays b }
    else .fails m
  | _, _, _ => Action.fail

def length : Value → Action Memory Value
  | .ref (.array _ a) => fun m => .returns (.int (.ofNat (m.arrays a).length)) m
  | _ => Action.fail

/-- A field of an object, read at its declared type. -/
def getField (object : Value) (field : String) (t : Ty) : Action Memory Value :=
  match object with
  | .ref (.object a) => fun m =>
    if (m.fields a field).fits t then .returns (m.fields a field) m else .fails m
  | _ => Action.fail

def putField (object : Value) (field : String) (v : Value) : Action Memory Unit :=
  match object with
  | .ref (.object a) => fun m =>
    .returns ()
      { m with
        fields := fun b f => if b = a ∧ f = field then v else m.fields b f }
  | _ => Action.fail

end Memory

/-- What surrounds the run of a method: its receiver, what other methods do, and what fresh objects of
a class hold. -/
structure World where
  this : Value
  calls : (method : String) → (receiver : Option Value) → (args : List Value) →
    Action Memory (Option Value)
  blank : (className field : String) → Value

namespace World

/-- The result that a method of the return type gives: none if it is void, else one that fits. -/
def accept (ret : Ty) (result : Option Value) : Action Memory (Option Value) :=
  if ret.isVoid then pure none
  else
    match result with
    | some v => if v.fits ret then pure (some v) else Action.fail
    | none => Action.fail

def call (w : World) (method : String) (receiver : Option Value) (args : List Value) (ret : Ty) :
    Action Memory (Option Value) := do
  let result ← w.calls method receiver args
  accept ret result

def newObject (w : World) (className : String) : Action Memory Value :=
  Memory.allocObject (w.blank className)

end World

end SingleClass
