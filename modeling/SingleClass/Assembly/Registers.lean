import SingleClass.Failure
import Std.Data.TreeMap.Lemmas
set_option autoImplicit false

/-!
Registers of a method: the receiver in register 0 unless the method is static, then parameters and
locals as declared, then temporaries by first definition. Every slot keeps its register for the whole
method, and a name declared twice has one slot.
-/

namespace SingleClass

/-- What gets a register of its own. A variable is never confused with a temporary, whatever its name. -/
inductive Slot where
  | var (name : String)
  | temp (id : Nat)
  deriving DecidableEq

structure Registers where
  isStatic : Bool
  next : Nat
  vars : Std.TreeMap String Nat := {}
  temps : Std.TreeMap Nat Nat := {}

namespace Registers

def start (isStatic : Bool) : Registers := { isStatic, next := if isStatic then 0 else 1 }

def get? (r : Registers) : Slot → Option Nat
  | .var name => r.vars[name]?
  | .temp id => r.temps[id]?

def take (r : Registers) : Slot → Registers
  | .var name => { r with next := r.next + 1, vars := r.vars.insert name r.next }
  | .temp id => { r with next := r.next + 1, temps := r.temps.insert id r.next }

def assign (r : Registers) (s : Slot) : Except Failure Registers :=
  if (r.get? s).isSome then .ok r
  else if r.next < registerLimit then .ok (r.take s)
  else .error .outOfRegisters

@[simp] theorem get?_start (isStatic : Bool) (s : Slot) : (start isStatic).get? s = none := by
  cases s <;> simp [start, get?]

@[simp] theorem next_take (r : Registers) (s : Slot) : (r.take s).next = r.next + 1 := by
  cases s <;> rfl

theorem get?_take (r : Registers) (s t : Slot) :
    (r.take s).get? t = if t = s then some r.next else r.get? t := by
  cases s <;> cases t <;>
    simp [take, get?, Std.TreeMap.getElem?_insert, @eq_comm String, @eq_comm Nat]

def var (r : Registers) (name : String) : Except Failure Nat :=
  match r.get? (.var name) with
  | some n => .ok n
  | none => .error (.varWithoutRegister name)

def temp (r : Registers) (t : Temp) : Except Failure Nat :=
  match r.get? (.temp t.id) with
  | some n => .ok n
  | none => .error (.tempWithoutRegister t)

def operand (r : Registers) (o : Operand) : Except Failure Nat :=
  match o with
  | .var n _ => r.var n
  | .temp t => r.temp t
  | .this _ => if r.isStatic then .error (.operandWithoutRegister o) else .ok 0
  | _ => .error (.operandWithoutRegister o)

def assignAll : Registers → List Slot → Except Failure Registers
  | r, [] => .ok r
  | r, s :: ss => do
    let r ← r.assign s
    assignAll r ss

end Registers

def MethodCode.slots (m : MethodCode) : List Slot :=
  (m.params ++ m.locals).map (.var ·.name) ++ m.temps.map (.temp ·.id)

def MethodCode.registers (m : MethodCode) : Except Failure Registers :=
  (Registers.start m.isStatic).assignAll m.slots

end SingleClass
