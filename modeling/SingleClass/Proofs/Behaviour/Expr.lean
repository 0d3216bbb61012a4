import SingleClass.Proofs.Behaviour.Memory
import SingleClass.Proofs.Typing.Judgement
set_option autoImplicit false

/-!
Runs of bodies in a unit that stands alone: every call is to a method of the class. Operands are
evaluated from left to right, both sides of a logical operator always. What falls to a vararg is
passed as it is if it is one array of the vararg's elements, and else it is packed into a fresh array;
an array that is packed or initialized is allocated before its elements are evaluated.
-/

namespace SingleClass

def Action.all : List (Action Memory Value) → Action Memory (List Value)
  | [] => pure []
  | x :: xs => do
    let v ← x
    let vs ← Action.all xs
    return v :: vs

def Memory.fill (array : Value) : (i : Nat) → List (Action Memory Value) → Action Memory Unit
  | _, [] => pure ()
  | i, x :: xs => do
    let v ← x
    Memory.storeElement array (.int (.ofNat i)) v
    Memory.fill array (i + 1) xs

def Memory.pack (c : Cell) (values : List (Action Memory Value)) : Action Memory Value := do
  let array ← Memory.allocArray c (.int (.ofNat values.length))
  Memory.fill array 0 values
  return array

namespace Scope

def PassesArray (s : Scope) (element : Ty) (args : List Expr) : Prop :=
  ∃ e, args = [e] ∧ s.HasType e element.array

open Classical in
/-- The values that a method receives for its parameters. -/
noncomputable def passArguments (s : Scope) (callee : Signature) (args : List Expr)
    (values : List (Action Memory Value)) : Action Memory (List Value) :=
  match callee.vararg? with
  | none => Action.all values
  | some v => do
    let fixed ← Action.all (values.take callee.fixedArity)
    let trailing := values.drop callee.fixedArity
    let last ←
      if s.PassesArray v.ty.element (args.drop callee.fixedArity) then trailing.headD Action.fail
      else Memory.pack v.ty.elementCell trailing
    return fixed ++ [last]

open Classical in
/-- How the array of an initializer holds its elements. -/
noncomputable def initCell (s : Scope) (es : List Expr) : Cell :=
  if ∀ e ∈ es, s.HasType e .int then .int
  else if ∀ e ∈ es, s.HasType e .boolean then .bool
  else .object

theorem passesArray_iff {s : Scope} (hs : s.Closed) {es : List Expr} {ts : List Ty}
    (h : s.HaveTypes es ts) {element : Ty} : s.PassesArray element es ↔ ts = [element.array] := by
  constructor
  · rintro ⟨e, rfl, he⟩
    cases h with
    | cons he' _ hnil =>
      cases hnil
      rw [he.unique hs he']
  · rintro rfl
    cases h with
    | cons he _ hnil =>
      cases hnil
      exact ⟨_, rfl, he⟩

theorem initCell_of_hasType {s : Scope} (hs : s.Closed) {es : List Expr} {t : Ty} (hne : es ≠ [])
    (h : ∀ e ∈ es, s.HasType e t) (harray : t.isArray = false) : s.initCell es = t.elementCell := by
  obtain ⟨e, he⟩ := List.exists_mem_of_ne_nil es hne
  have hself := ((h e he).declared hs).2
  have hall : ∀ u, (∀ e ∈ es, s.HasType e u) ↔ t = u := by
    intro u
    constructor
    · intro hu
      exact (h e he).unique hs (hu e he)
    · rintro rfl
      exact h
  have hkind : t = ⟨t.kind, false, false⟩ := by
    rw [← hself]
    simp [Ty.asValue, harray]
  rw [initCell]
  simp only [hall]
  rw [hkind]
  cases t.kind <;> simp [Ty.int, Ty.boolean, Ty.elementCell]

/-- A call of a method of the class: receiver, arguments, then the method. -/
noncomputable def invoke (s : Scope) (w : World) (receiver : Action Memory Value) (method : String)
    (args : List Expr) (values : List (Action Memory Value)) : Action Memory (Option Value) := do
  let object ← receiver
  match s.symbols.method? method with
  | none => Action.fail
  | some callee => do
    let passed ← s.passArguments callee args values
    w.call method (some object) passed callee.returnTy

def evalName (s : Scope) (w : World) (vars : String → Value) (name : String) :
    Action Memory Value :=
  match s.lookup name with
  | some (.field f) => Memory.getField w.this f.name f.ty.asValue
  | some _ => pure (vars name)
  | none => Action.fail

mutual

noncomputable def eval (s : Scope) (w : World) (vars : String → Value) : Expr → Action Memory Value
  | .literal v _ => pure (.ofLiteral v)
  | .name n _ => s.evalName w vars n
  | .this _ => pure w.this
  | .binary op l r _ => do
    let a ← s.eval w vars l
    let b ← s.eval w vars r
    Action.ofOption (op.apply a b)
  | .unary op e _ => do
    let a ← s.eval w vars e
    Action.ofOption (op.apply a)
  | .paren e => s.eval w vars e
  | .index a i _ => do
    let array ← s.eval w vars a
    let index ← s.eval w vars i
    Memory.loadElement array index
  | .length a _ => do
    let array ← s.eval w vars a
    Memory.length array
  | .call none m as _ => do
    let result ← s.invoke w (pure w.this) m as (s.evals w vars as)
    Action.ofOption result
  | .call (some t) m as _ => do
    let result ← s.invoke w (s.eval w vars t) m as (s.evals w vars as)
    Action.ofOption result
  | .newObject c _ => do
    let object ← w.newObject c
    let _ ← w.call "<init>" (some object) [] .void
    return object
  | .newArray t e _ => do
    let size ← s.eval w vars e
    Memory.allocArray (Ty.ofName t).elementCell size
  | .arrayInit es _ => Memory.pack (s.initCell es) (s.evals w vars es)

noncomputable def evals (s : Scope) (w : World) (vars : String → Value) :
    List Expr → List (Action Memory Value)
  | [] => []
  | e :: es => s.eval w vars e :: s.evals w vars es

end

theorem evals_eq_map (s : Scope) (w : World) (vars : String → Value) (es : List Expr) :
    s.evals w vars es = es.map (s.eval w vars) := by
  induction es with
  | nil => rfl
  | cons e es ih => simp [evals, ih]

/-- An expression as a statement. The result of a call is not looked at. -/
noncomputable def effect (s : Scope) (w : World) (vars : String → Value) (e : Expr) :
    Action Memory Unit :=
  match e.stripParens with
  | .call t m as _ => do
    let receiver := (t.map (s.eval w vars)).getD (pure w.this)
    let _ ← s.invoke w receiver m as (as.map (s.eval w vars))
    return ()
  | e => do
    let _ ← s.eval w vars e
    return ()

noncomputable def evalReceiver (s : Scope) (w : World) (vars : String → Value) (t : Option Expr) :
    Action Memory Value :=
  (t.map (s.eval w vars)).getD (pure w.this)

theorem evalName_of_var {s : Scope} {w : World} {vars : String → Value} {n : String} {b : Binding}
    (hb : s.lookup n = some b) (hf : b.isField = false) : s.evalName w vars n = pure (vars n) := by
  simp only [evalName, hb]
  cases b with
  | field v => simp [Binding.isField] at hf
  | _ => rfl

theorem eval_call (s : Scope) (w : World) (vars : String → Value) (t : Option Expr) (m : String)
    (as : List Expr) (p : Span) :
    s.eval w vars (.call t m as p) =
      s.invoke w (s.evalReceiver w vars t) m as (as.map (s.eval w vars)) >>= Action.ofOption := by
  cases t <;> simp only [eval, evals_eq_map] <;> rfl

theorem effect_of_call {s : Scope} {w : World} {vars : String → Value} {e : Expr} {t : Option Expr}
    {m : String} {as : List Expr} {p : Span} (h : e.stripParens = .call t m as p) :
    s.effect w vars e =
      s.invoke w (s.evalReceiver w vars t) m as (as.map (s.eval w vars)) >>= fun _ => pure () := by
  simp only [effect, h]
  rfl

theorem effect_of_not_call {s : Scope} {w : World} {vars : String → Value} {e : Expr}
    (h : ∀ t m as p, e.stripParens ≠ .call t m as p) :
    s.effect w vars e = s.eval w vars e.stripParens >>= fun _ => pure () := by
  unfold effect
  split
  · rename_i t m as p he
    exact absurd he (h t m as p)
  · rfl

def field? (s : Scope) (name : String) : Option Symbol :=
  match s.lookup name with
  | some (.field f) => some f
  | _ => none

noncomputable def evaluator (s : Scope) (w : World) : Evaluator Value Memory where
  eval := s.eval w
  effect := s.effect w
  truth
    | .bool b => some b
    | _ => none
  isVariable n := (s.lookup n).any fun b => !b.isField
  storeName n v :=
    match s.field? n with
    | some f => Memory.putField w.this f.name v
    | none => Action.fail
  storeElement := Memory.storeElement

end Scope

inductive Final where
  | returned (value : Option Value) (memory : Memory)
  | failed (memory : Memory)

/-- The end of a method whose body has an outcome. Where control reaches the end of the text, a void
method has returned nothing. -/
def Outcome.final? (ret : Ty) : Outcome Value Memory → Option Final
  | .normal s => if ret.isVoid then some (.returned none s.memory) else none
  | .returned v s => some (.returned v s.memory)
  | .failed s => some (.failed s.memory)

/-- A body run from given variables and memory ends the method so. -/
def Scope.finishes (s : Scope) (w : World) (body : List Stmt) (start : State Value Memory)
    (f : Final) : Prop :=
  ∃ o, Stmt.runsAll (s.evaluator w) body start o ∧ o.final? s.method.returnTy = some f

end SingleClass
