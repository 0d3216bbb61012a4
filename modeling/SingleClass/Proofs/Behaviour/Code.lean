import SingleClass.Assembly.Registers
import SingleClass.Code.Basic
import SingleClass.Proofs.Behaviour.Expr
set_option autoImplicit false

/-!
A machine for three-address code: a program counter over the instructions of a method, jumps through
its label table, and an environment of variables and temporaries. A temporary has no value before its
first definition.
-/

namespace SingleClass

abbrev Env := Slot → Option Value

def Env.set (env : Env) (slot : Slot) (v : Value) : Env := fun t => if t = slot then some v else env t

theorem Env.set_self (env : Env) (slot : Slot) (v : Value) : env.set slot v slot = some v := by
  simp [Env.set]

theorem Env.set_of_ne (env : Env) {slot t : Slot} (v : Value) (h : t ≠ slot) :
    env.set slot v t = env t := by
  simp [Env.set, h]

def Operand.read (w : World) (env : Env) : Operand → Option Value
  | .int v => some (.int v)
  | .bool b => some (.bool b)
  | .var n _ => env (.var n)
  | .temp t => env (.temp t.id)
  | .this _ => some w.this
  | .null _ => some (.ref .null)

def Operand.readAll (w : World) (env : Env) : List Operand → Option (List Value)
  | [] => some []
  | o :: os => do
    let v ← o.read w env
    let vs ← Operand.readAll w env os
    return v :: vs

namespace Instr

/-- What an instruction does to environment and memory, jumps and returns aside. An operand without a
value is a failure. -/
def effect (w : World) (env : Env) : Instr → Action Memory Env
  | .assign (.var n _) v => do
    let a ← Action.ofOption (v.read w env)
    return env.set (.var n) a
  | .assign (.temp t) v => do
    let a ← Action.ofOption (v.read w env)
    return env.set (.temp t.id) a
  | .assign (.element array index) v => do
    let a ← Action.ofOption (array.read w env)
    let i ← Action.ofOption (index.read w env)
    let x ← Action.ofOption (v.read w env)
    Memory.storeElement a i x
    return env
  | .binary t op l r => do
    let a ← Action.ofOption (l.read w env)
    let b ← Action.ofOption (r.read w env)
    let v ← Action.ofOption (op.apply a b)
    return env.set (.temp t.id) v
  | .unary t op o => do
    let a ← Action.ofOption (o.read w env)
    let v ← Action.ofOption (op.apply a)
    return env.set (.temp t.id) v
  | .call c => do
    let receiver ← Action.ofOption (Operand.readAll w env c.receiver.toList)
    let args ← Action.ofOption (Operand.readAll w env c.args)
    let result ← w.call c.method receiver.head? args c.ret
    match c.dest with
    | none => return env
    | some t => do
      let v ← Action.ofOption result
      return env.set (.temp t.id) v
  | .new t className => do
    let v ← w.newObject className
    return env.set (.temp t.id) v
  | .newArray t element size => do
    let n ← Action.ofOption (size.read w env)
    let v ← Memory.allocArray element.elementCell n
    return env.set (.temp t.id) v
  | .arrayLoad t array index => do
    let a ← Action.ofOption (array.read w env)
    let i ← Action.ofOption (index.read w env)
    let v ← Memory.loadElement a i
    return env.set (.temp t.id) v
  | .arrayLength t array => do
    let a ← Action.ofOption (array.read w env)
    let v ← Memory.length a
    return env.set (.temp t.id) v
  | .getField t field ty => do
    let v ← Memory.getField w.this field ty
    return env.set (.temp t.id) v
  | .putField field _ value => do
    let v ← Action.ofOption (value.read w env)
    Memory.putField w.this field v
    return env
  | .label _ | .ret _ | .goto _ | .branch _ _ => pure env

end Instr

def Located {A : Type} (whole : List A) (k : Nat) (part : List A) : Prop := part <+: whole.drop k

namespace Located

variable {A : Type} {whole : List A} {k : Nat}

theorem left {part rest : List A} (h : Located whole k (part ++ rest)) : Located whole k part :=
  (List.prefix_append part rest).trans h

theorem right {part rest : List A} (h : Located whole k (part ++ rest)) :
    Located whole (k + part.length) rest := by
  obtain ⟨post, hpost⟩ := h
  refine ⟨post, ?_⟩
  rw [← List.drop_drop, ← hpost, List.append_assoc, List.drop_left]

theorem head {a : A} {rest : List A} (h : Located whole k (a :: rest)) : whole[k]? = some a := by
  obtain ⟨post, hpost⟩ := h
  have := congrArg (·[0]?) hpost
  simpa using this.symm

theorem tail {a : A} {rest : List A} (h : Located whole k (a :: rest)) :
    Located whole (k + 1) rest := by
  have h' : Located whole k ([a] ++ rest) := h
  exact h'.right

theorem getElem?_add {j : Nat} {part : List A} (h : Located whole k part) (hj : j < part.length) :
    whole[k + j]? = part[j]? := by
  obtain ⟨post, hpost⟩ := h
  rw [← List.getElem?_drop, ← hpost, List.getElem?_append_left hj]

theorem cast {k' : Nat} {part : List A} (h : Located whole k part) (hk : k = k') :
    Located whole k' part :=
  hk ▸ h

end Located

def LabelTable.position? (t : LabelTable) (l : Label) : Option Nat :=
  (t.find? (·.1 = l)).map (·.2)

structure Config where
  pc : Nat
  env : Env
  memory : Memory

inductive Progress where
  | running (config : Config)
  | finished (final : Final)

namespace MethodCode

def jump (m : MethodCode) (c : Config) (l : Label) : Option Progress :=
  (m.labels.position? l).map fun position => .running { c with pc := position }

/-- One step. There is none past the end, to a label without a marker, or in a call that does not come
back. -/
def step (m : MethodCode) (w : World) (c : Config) : Option Progress :=
  match m.instrs[c.pc]? with
  | none => none
  | some (.goto l) => m.jump c l
  | some (.branch condition l) =>
    match condition.read w c.env with
    | some (.bool true) => m.jump c l
    | some (.bool false) => some (.running { c with pc := c.pc + 1 })
    | _ => some (.finished (.failed c.memory))
  | some (.ret none) => some (.finished (.returned none c.memory))
  | some (.ret (some o)) =>
    match o.read w c.env with
    | some v => some (.finished (.returned (some v) c.memory))
    | none => some (.finished (.failed c.memory))
  | some i =>
    match i.effect w c.env c.memory with
    | .returns env memory => some (.running { pc := c.pc + 1, env, memory })
    | .fails memory => some (.finished (.failed memory))
    | .diverges => none

def run (m : MethodCode) (w : World) : (n : Nat) → Config → Option Final
  | 0, _ => none
  | n + 1, c =>
    match m.step w c with
    | none => none
    | some (.finished f) => some f
    | some (.running c') => m.run w n c'

/-- The code, run from a configuration, comes to this end. -/
def terminates (m : MethodCode) (w : World) (c : Config) (f : Final) : Prop :=
  ∃ n, m.run w n c = some f

end MethodCode

end SingleClass
