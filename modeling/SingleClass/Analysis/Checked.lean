import SingleClass.Diagnostic
set_option autoImplicit false

/-!
A value together with the diagnostics found on the way to it. Sequencing keeps the diagnostics in the
order of discovery, and a check never stops the ones after it.
-/

namespace SingleClass

structure Checked (α : Type) where
  value : α
  found : List Diagnostic := []

namespace Checked

instance : Monad Checked where
  pure a := { value := a }
  bind x f :=
    let y := f x.value
    { value := y.value, found := x.found ++ y.found }

@[simp] theorem value_pure {α : Type} (a : α) : (pure a : Checked α).value = a := rfl
@[simp] theorem found_pure {α : Type} (a : α) : (pure a : Checked α).found = [] := rfl

@[simp] theorem value_bind {α β : Type} (x : Checked α) (f : α → Checked β) :
    (x >>= f).value = (f x.value).value := rfl

@[simp] theorem found_bind {α β : Type} (x : Checked α) (f : α → Checked β) :
    (x >>= f).found = x.found ++ (f x.value).found := rfl

def report (span : Span) (p : Problem) : Checked Unit :=
  { value := (), found := [.problem span p] }

def reportAll (ds : List Diagnostic) : Checked Unit := { value := (), found := ds }

/-- The type a rule gives. A rule that fails is reported, and the type is then indeterminate. -/
def ofRule (span : Span) : Except TypeError Ty → Checked Ty
  | .ok t => { value := t }
  | .error e => { value := .indeterminate, found := [.problem span (.typing e)] }

def asValue (x : Checked Ty) (e : Expr) : Checked Ty := do
  let t ← x
  ofRule e.span (Typing.value e t)

end Checked

end SingleClass
