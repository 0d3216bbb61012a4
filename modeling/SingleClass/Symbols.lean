import SingleClass.Ty
set_option autoImplicit false

/-!
What a unit declares: its class, superclass, imports, fields and method signatures, in source order
and with duplicates kept. A name means its first declaration.
-/

namespace SingleClass

structure Symbol where
  name : String
  ty : Ty
  span : Span := {}
  deriving DecidableEq

structure Signature where
  name : String
  returnTy : Ty
  params : List Symbol := []
  locals : List Symbol := []
  isStatic : Bool := false
  span : Span := {}
  deriving DecidableEq

structure Symbols where
  className : String
  superclass : Option String := none
  imports : List Import := []
  fields : List Symbol := []
  methods : List Signature := []
  deriving DecidableEq

def Symbol.ofDecl (v : VarDecl) : Symbol := { name := v.name, ty := .ofName v.type, span := v.span }

def Signature.ofDecl (m : MethodDecl) : Signature where
  name := m.name
  returnTy := .ofName m.returns
  params := m.params.map .ofDecl
  locals := m.locals.map .ofDecl
  isStatic := m.isStatic
  span := m.span

/-- The symbols a program declares. Nothing is checked here. -/
def Symbols.ofProgram (p : Program) : Symbols where
  className := p.classDecl.name
  superclass := p.classDecl.superclass
  imports := p.imports
  fields := p.classDecl.fields.map .ofDecl
  methods := p.classDecl.methods.map .ofDecl

/-- Methods of a program beside the signatures that symbols hold, by position. -/
def Program.paired (p : Program) (s : Symbols) : List (MethodDecl × Signature) :=
  p.classDecl.methods.zip s.methods

namespace Signature

def param? (m : Signature) (name : String) : Option Symbol := m.params.find? (·.name = name)
def local? (m : Signature) (name : String) : Option Symbol := m.locals.find? (·.name = name)
def paramTys (m : Signature) : List Ty := m.params.map (·.ty)

def vararg? (m : Signature) : Option Symbol := m.params.getLast?.filter (·.ty.isVararg)

/-- How many arguments every call has to supply. -/
def fixedArity (m : Signature) : Nat :=
  if m.vararg?.isSome then m.params.length - 1 else m.params.length

theorem fixedArity_le (m : Signature) : m.fixedArity ≤ m.params.length := by
  unfold fixedArity; split <;> omega

end Signature

def findImport (imports : List Import) (name : String) : Option Import :=
  imports.find? (·.simpleName = name)

/-- How emitted code refers to a class: an import by its path, any other class by its own name. -/
def internalName (imports : List Import) (className : String) : String :=
  match findImport imports className with
  | some i => i.internalName
  | none => className

namespace Symbols

def field? (s : Symbols) (name : String) : Option Symbol := s.fields.find? (·.name = name)
def method? (s : Symbols) (name : String) : Option Signature := s.methods.find? (·.name = name)
def import? (s : Symbols) (name : String) : Option Import := findImport s.imports name
def isImported (s : Symbols) (name : String) : Bool := (s.import? name).isSome
def isSuperclass (s : Symbols) (name : String) : Bool := s.superclass = some name
def internalName (s : Symbols) (className : String) : String :=
  SingleClass.internalName s.imports className

def ownTy (s : Symbols) : Ty := .named s.className

/-- Declared outside the unit: the open type itself, or a class that is imported or extended. Arrays
go by their elements. -/
def isExternal (s : Symbols) (t : Ty) : Bool :=
  match t.kind with
  | .external => true
  | .named c => s.isImported c || s.isSuperclass c
  | _ => false

def isKnown (s : Symbols) (t : Ty) : Bool :=
  match t.kind with
  | .named c => c = s.className || s.isExternal t
  | _ => true

/-- Assignability inside the unit: types declared outside agree with every type, both ways, so the
class itself can stand where its superclass is expected. -/
def assignable (s : Symbols) (source target : Ty) : Bool :=
  Ty.assignable source target || s.isExternal source || s.isExternal target

/-- The method of this class that a call means, when the receiver is of this class. No receiver means
the implicit one. -/
def callee? (s : Symbols) (name : String) (receiver : Option Ty) : Option Signature :=
  match receiver with
  | none => s.method? name
  | some t => if t.isArray = false ∧ t.kind = .named s.className then s.method? name else none

/-- What a call returns: the callee's declared type, or the open type for a callee elsewhere. -/
def callTy (s : Symbols) (name : String) (receiver : Option Ty) : Ty :=
  match s.callee? name receiver with
  | some m => m.returnTy
  | none => .external

end Symbols

/-- A place in the unit: its symbols and the method around the place. -/
structure Scope where
  symbols : Symbols
  method : Signature
  deriving DecidableEq

inductive Binding where
  | localVar (symbol : Symbol)
  | param (symbol : Symbol)
  | field (symbol : Symbol)
  deriving DecidableEq

def Binding.symbol : Binding → Symbol
  | .localVar s | .param s | .field s => s

def Binding.isField : Binding → Bool
  | .field _ => true
  | _ => false

/-- Locals hide parameters and parameters hide fields. -/
def Scope.lookup (s : Scope) (name : String) : Option Binding :=
  match s.method.local? name with
  | some v => some (.localVar v)
  | none =>
    match s.method.param? name with
    | some v => some (.param v)
    | none => (s.symbols.field? name).map .field

/-- The import that a call's target names, when the name is not a variable: the call is then static. -/
def Scope.staticReceiver? (s : Scope) : Expr → Option Import
  | .name n _ => if (s.lookup n).isNone then s.symbols.import? n else none
  | .paren e => s.staticReceiver? e
  | _ => none

end SingleClass
