import SingleClass.Source.Printer
set_option autoImplicit false

/-!
Types of expressions and declarations: a base kind with an array mark and a vararg mark.

Two kinds stand for missing knowledge. `external` is the type of what is declared in another unit and
agrees with every type; `indeterminate` is the type of an expression in which a mistake has been
reported, and agrees with every type so that the mistake is reported once.
-/

namespace SingleClass

inductive Kind where
  | int | boolean | string | void
  | named (className : String)
  | external
  | indeterminate
  deriving DecidableEq

/-- The vararg mark stands on a declared parameter only; inside the method it reads as an array. -/
structure Ty where
  kind : Kind
  isArray : Bool := false
  isVararg : Bool := false
  deriving DecidableEq

namespace Ty

def int : Ty := { kind := .int }
def boolean : Ty := { kind := .boolean }
def string : Ty := { kind := .string }
def void : Ty := { kind := .void }
def named (className : String) : Ty := { kind := .named className }
def external : Ty := { kind := .external }
def indeterminate : Ty := { kind := .indeterminate }

def array (t : Ty) : Ty := { t with isArray := true }

def element (t : Ty) : Ty := { kind := t.kind }

/-- The type seen where a variable is used: a vararg is an array there. -/
def asValue (t : Ty) : Ty := { t with isVararg := false }

/-- The kind a declared name stands for. Four names are built in and every other is a class, whether
or not the class exists. -/
def kindOfName : String → Kind
  | "int" => .int
  | "boolean" => .boolean
  | "String" => .string
  | "void" => .void
  | other => .named other

def ofName (t : TypeName) : Ty :=
  { kind := kindOfName t.name, isArray := t.isArray || t.isVararg, isVararg := t.isVararg }

def isInt (t : Ty) : Bool := t.kind = .int && !t.isArray
def isBoolean (t : Ty) : Bool := t.kind = .boolean && !t.isArray

/-- Based on void; an array of void counts too. -/
def isVoid (t : Ty) : Bool := t.kind = .void

/-- External or indeterminate: agrees with every rule. -/
def isEscape (t : Ty) : Bool := t.kind = .external || t.kind = .indeterminate

def isReference (t : Ty) : Bool :=
  t.isArray || match t.kind with
    | .string | .named _ | .external => true
    | _ => false

/-- A value of type `source` may be stored where `target` is declared, on the types alone. -/
def assignable (source target : Ty) : Bool :=
  source.isEscape || target.isEscape || source.asValue = target.asValue

def baseName (t : Ty) : String :=
  match t.kind with
  | .int => "int"
  | .boolean => "boolean"
  | .string => "String"
  | .void => "void"
  | .named className => className
  | .external => "<external>"
  | .indeterminate => "<unknown>"

def text (t : Ty) : String :=
  t.baseName ++ if t.isVararg then "..." else if t.isArray then "[]" else ""

@[simp] theorem asValue_asValue (t : Ty) : t.asValue.asValue = t.asValue := rfl
@[simp] theorem element_array (t : Ty) : t.array.element = t.element := rfl
@[simp] theorem element_asValue (t : Ty) : t.asValue.element = t.element := rfl
@[simp] theorem isEscape_asValue (t : Ty) : t.asValue.isEscape = t.isEscape := rfl
@[simp] theorem isEscape_array (t : Ty) : t.array.isEscape = t.isEscape := rfl
@[simp] theorem isEscape_element (t : Ty) : t.element.isEscape = t.isEscape := rfl

theorem assignable_refl (t : Ty) : assignable t t = true := by simp [assignable]

theorem assignable_comm (s t : Ty) : assignable s t = assignable t s := by
  simp only [assignable, eq_comm (a := s.asValue), Bool.or_comm s.isEscape]

end Ty

end SingleClass
