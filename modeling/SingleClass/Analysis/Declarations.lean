import SingleClass.Diagnostic
set_option autoImplicit false

/-!
Review of the declarations of a unit, before any body is looked at: names declared twice in a scope,
variables of unknown or void type, misplaced varargs, locals that hide parameters.
-/

namespace SingleClass

def duplicateIn (scope : DeclScope) (seen : List String) (name : String) (span : Span) :
    List Diagnostic :=
  if name ∈ seen then [.problem span (.duplicate scope name)] else []

def Symbols.reviewVarTy (s : Symbols) (v : Symbol) : List Diagnostic :=
  if v.ty.isVoid then [.problem v.span (.voidVariable v.name)]
  else if s.isKnown v.ty then []
  else [.problem v.span (.unknownType v.ty.element.text)]

/-- One scope of variables: for each in turn, its name and then its type. -/
def Symbols.reviewVars (s : Symbols) (scope : DeclScope) :
    (seen : List String) → List Symbol → List Diagnostic
  | _, [] => []
  | seen, v :: vs =>
    duplicateIn scope seen v.name v.span ++ s.reviewVarTy v ++ s.reviewVars scope (v.name :: seen) vs

def reviewImports : (seen : List String) → List Import → List Diagnostic
  | _, [] => []
  | seen, i :: is =>
    duplicateIn .imports seen i.simpleName i.span ++ reviewImports (i.simpleName :: seen) is

def reviewVarargs : List Symbol → List Diagnostic
  | [] | [_] => []
  | v :: w :: vs =>
    (if v.ty.isVararg then [.problem v.span (.varargNotLast v.name)] else []) ++ reviewVarargs (w :: vs)

def Signature.reviewShadowing (m : Signature) : List Diagnostic :=
  m.locals.filterMap fun v =>
    if (m.param? v.name).isSome then some (.problem v.span (.localShadowsParam v.name)) else none

def Symbols.reviewMethod (s : Symbols) (returnSpan : Span) (m : Signature) : List Diagnostic :=
  (if s.isKnown m.returnTy then [] else [.problem returnSpan (.unknownType m.returnTy.baseName)]) ++
    s.reviewVars .params [] m.params ++ s.reviewVars .locals [] m.locals ++
    reviewVarargs m.params ++ m.reviewShadowing

def Symbols.reviewMethods (s : Symbols) :
    (seen : List String) → List (MethodDecl × Signature) → List Diagnostic
  | _, [] => []
  | seen, (d, m) :: ms =>
    duplicateIn .methods seen m.name m.span ++ s.reviewMethod d.returns.span m ++
      s.reviewMethods (m.name :: seen) ms

def Symbols.reviewDeclarations (s : Symbols) (p : Program) : List Diagnostic :=
  reviewImports [] s.imports ++ s.reviewVars .fields [] s.fields ++ s.reviewMethods [] (p.paired s)

end SingleClass
