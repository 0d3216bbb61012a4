import SingleClass.Source.Tree
set_option autoImplicit false

/-!
What the run of a body can come to. Statements are read over an evaluator of expressions that is left
open: it says how an expression acts on memory under given values of the variables, and it never
changes a variable. Runs are relations, so a body that does not end has no outcome.
-/

namespace SingleClass

/-- How an action on memory ends, if it does. -/
inductive Reply (M A : Type) where
  | returns (value : A) (memory : M)
  | fails (memory : M)
  | diverges

abbrev Action (M A : Type) := M → Reply M A

namespace Action

variable {M A B : Type}

instance : Monad (Action M) where
  pure a := fun m => .returns a m
  bind x f := fun m =>
    match x m with
    | .returns a m' => f a m'
    | .fails m' => .fails m'
    | .diverges => .diverges

def fail : Action M A := fun m => .fails m

def ofOption : Option A → Action M A
  | some a => pure a
  | none => fail

theorem pure_apply (a : A) (m : M) : (pure a : Action M A) m = .returns a m := rfl

theorem bind_apply (x : Action M A) (f : A → Action M B) (m : M) :
    (x >>= f) m = match x m with
      | .returns a m' => f a m'
      | .fails m' => .fails m'
      | .diverges => .diverges := rfl

@[simp] theorem pure_bind (a : A) (f : A → Action M B) : (pure a >>= f) = f a := rfl

end Action

/-- The variables of a method and what lies outside of it. -/
structure State (V M : Type) where
  vars : String → V
  memory : M

def State.set {V M : Type} (s : State V M) (name : String) (v : V) : State V M :=
  { s with vars := fun n => if n = name then v else s.vars n }

inductive Outcome (V M : Type) where
  /-- Control reaches the end. -/
  | normal (state : State V M)
  | returned (value : Option V) (state : State V M)
  | failed (state : State V M)

def Outcome.isNormal {V M : Type} : Outcome V M → Bool
  | .normal _ => true
  | _ => false

/-- The outcomes that a run from a state can have. -/
abbrev Behaviour (V M : Type) := State V M → Outcome V M → Prop

namespace Behaviour

variable {V M A : Type}

def done : Behaviour V M := fun s o => o = .normal s

def andThen (x : (String → V) → Action M A) (k : A → Behaviour V M) : Behaviour V M := fun s o =>
  match x s.vars s.memory with
  | .returns a m => k a { s with memory := m } o
  | .fails m => o = .failed { s with memory := m }
  | .diverges => False

def seq (first second : Behaviour V M) : Behaviour V M := fun s o =>
  (∃ s', first s (.normal s') ∧ second s' o) ∨ (first s o ∧ o.isNormal = false)

inductive Loop (test : (String → V) → Action M Bool) (body : Behaviour V M) : Behaviour V M
  | stop {s : State V M} {m : M} (h : test s.vars s.memory = .returns false m) :
      Loop test body s (.normal { s with memory := m })
  | fail {s : State V M} {m : M} (h : test s.vars s.memory = .fails m) :
      Loop test body s (.failed { s with memory := m })
  | leave {s : State V M} {m : M} {o : Outcome V M} (h : test s.vars s.memory = .returns true m)
      (hb : body { s with memory := m } o) (ho : o.isNormal = false) : Loop test body s o
  | again {s s' : State V M} {m : M} {o : Outcome V M}
      (h : test s.vars s.memory = .returns true m) (hb : body { s with memory := m } (.normal s'))
      (hl : Loop test body s' o) : Loop test body s o

end Behaviour

/-- What statements ask about expressions and stores. -/
structure Evaluator (V M : Type) where
  eval : (String → V) → Expr → Action M V
  /-- An expression on its own, where a call need not have a value. -/
  effect : (String → V) → Expr → Action M Unit
  truth : V → Option Bool
  isVariable : String → Bool
  storeName : String → V → Action M Unit
  storeElement : (array index value : V) → Action M Unit

namespace Evaluator

variable {V M : Type}

def test (E : Evaluator V M) (c : Expr) (vars : String → V) : Action M Bool := do
  let v ← E.eval vars c
  Action.ofOption (E.truth v)

/-- A store of `value`: to a variable, to another name, or to an element of an array, whose array and
index come first. No other target takes a store. -/
def assign (E : Evaluator V M) (target value : Expr) : Behaviour V M :=
  match target with
  | .name n _ =>
    .andThen (E.eval · value) fun v =>
      if E.isVariable n then fun s o => o = .normal (s.set n v)
      else .andThen (fun _ => E.storeName n v) fun _ => .done
  | .index a i _ =>
    .andThen (fun vars => do
      let array ← E.eval vars a
      let index ← E.eval vars i
      let v ← E.eval vars value
      E.storeElement array index v) fun _ => .done
  | _ => fun s o => o = .failed s

end Evaluator

mutual

def Stmt.runs {V M : Type} (E : Evaluator V M) : Stmt → Behaviour V M
  | .block b _ => Stmt.runsAll E b
  | .cond c t none _ => .andThen (E.test c) fun
    | true => t.runs E
    | false => .done
  | .cond c t (some e) _ => .andThen (E.test c) fun
    | true => t.runs E
    | false => e.runs E
  | .loop c b _ => .Loop (E.test c) (b.runs E)
  | .expr e _ => .andThen (E.effect · e) fun _ => .done
  | .assign target value _ => E.assign target value
  | .ret none _ => fun s o => o = .returned none s
  | .ret (some e) _ => .andThen (E.eval · e) fun v s o => o = .returned (some v) s

def Stmt.runsAll {V M : Type} (E : Evaluator V M) : List Stmt → Behaviour V M
  | [] => .done
  | t :: ts => .seq (t.runs E) (Stmt.runsAll E ts)

end

end SingleClass
