import SingleClass.Typing.Rules
set_option autoImplicit false

/-! What can be wrong with a program, as causes, and the text of each. -/

namespace SingleClass

inductive DeclScope where
  | imports | fields | methods | params | locals
  deriving DecidableEq

def DeclScope.noun : DeclScope → String
  | .imports => "import"
  | .fields => "field"
  | .methods => "method"
  | .params => "parameter"
  | .locals => "local variable"

inductive Arity where
  | exactly (count : Nat)
  | atLeast (count : Nat)
  deriving DecidableEq

def Arity.admits : Arity → Nat → Bool
  | .exactly n, found => found = n
  | .atLeast n, found => n ≤ found

def Arity.text : Arity → String
  | .exactly n => toString n
  | .atLeast n => "at least " ++ toString n

/-- A rule of the language that a program breaks. -/
inductive Problem where
  | duplicate (scope : DeclScope) (name : String)
  | localShadowsParam (name : String)
  | unknownType (name : String)
  | voidVariable (name : String)
  | varargNotLast (name : String)
  | typing (error : TypeError)
  | condition (found : Ty)
  | indexNotInt (found : Ty)
  | sizeNotInt (found : Ty)
  | assignTarget
  | assignMismatch (source target : Ty)
  | fieldAssignInStatic (field method : String)
  | fieldInStatic (field method : String)
  | undefinedMethod (name : String)
  | invalidReceiver (found : Ty)
  | unknownReceiverClass (method : String)
  | argumentCount (method : String) (expected : Arity) (found : Nat)
  | argumentMismatch (position : Nat) (method : String) (expected found : Ty)
  | varargMismatch (method : String) (element found : Ty)
  | returnMismatch (expected found : Ty) (method : String)
  | missingReturnValue (method : String)
  | voidReturnValue (method : String)
  | missingReturn (method : String)

def Problem.message : Problem → String
  | .duplicate scope n => "Duplicate " ++ scope.noun ++ ": " ++ n
  | .localShadowsParam n => "Local variable '" ++ n ++ "' redeclares a parameter."
  | .unknownType n => "Unknown type '" ++ n ++ "'."
  | .voidVariable n => "Variable '" ++ n ++ "' cannot have type void."
  | .varargNotLast n => "Vararg parameter '" ++ n ++ "' must be the last parameter."
  | .typing e => e.message
  | .condition t =>
    "Condition expression type incorrect: expected 'boolean', found '" ++ t.text ++ "'."
  | .indexNotInt t => "Array index must be an integer, found '" ++ t.text ++ "'."
  | .sizeNotInt t => "Array size must be an integer, found '" ++ t.text ++ "'."
  | .assignTarget =>
    "Invalid left-hand side in assignment. Must be a variable or a valid lvalue."
  | .assignMismatch s t =>
    "Cannot assign a value of type '" ++ s.text ++ "' to a variable of type '" ++ t.text ++ "'."
  | .fieldAssignInStatic f m =>
    "Cannot assign field '" ++ f ++ "' in the static method '" ++ m ++ "'."
  | .fieldInStatic f m => "Field '" ++ f ++ "' cannot be used in the static method '" ++ m ++ "'."
  | .undefinedMethod m =>
    "Method '" ++ m ++ "' is not defined in the current class, an imported class, or superclass."
  | .invalidReceiver t => "Type '" ++ t.text ++ "' has no methods to call."
  | .unknownReceiverClass m =>
    "Cannot call method '" ++ m ++ "': the class of its receiver is not known."
  | .argumentCount m e f =>
    "Incorrect number of arguments for method '" ++ m ++ "'. Expected " ++ e.text ++ ", found " ++
      toString f ++ "."
  | .argumentMismatch p m e f =>
    "Type mismatch for argument " ++ toString p ++ " in method '" ++ m ++ "': Expected '" ++ e.text ++
      "', found '" ++ f.text ++ "'."
  | .varargMismatch m e f =>
    "Type mismatch for varargs argument in method '" ++ m ++ "': Expected type '" ++ e.text ++
      "' or array of '" ++ e.text ++ "', found '" ++ f.text ++ "'."
  | .returnMismatch e f m =>
    "Return type mismatch, expected " ++ e.text ++ ", found " ++ f.text ++ " in method " ++ m ++ "."
  | .missingReturnValue m => "Method '" ++ m ++ "' must return a value."
  | .voidReturnValue m => "Void method '" ++ m ++ "' cannot return a value."
  | .missingReturn m => "Method '" ++ m ++ "' does not return a value on every path."

inductive Issue where
  | semantic (problem : Problem)
  /-- No context says what a method declared elsewhere returns, so int is taken. -/
  | assumedInt (method : String)

inductive Stage where
  | semantic | lowering
  deriving DecidableEq

def Stage.text : Stage → String
  | .semantic => "semantic"
  | .lowering => "lowering"

def Issue.stage : Issue → Stage
  | .semantic _ => .semantic
  | .assumedInt _ => .lowering

def Issue.message : Issue → String
  | .semantic p => p.message
  | .assumedInt m =>
    "Cannot infer the return type of external method '" ++ m ++ "'; assuming int."

structure Diagnostic where
  line : Nat
  column : Nat
  issue : Issue

namespace Diagnostic

def place (span : Span) (issue : Issue) : Diagnostic :=
  { line := span.line, column := span.column, issue }

def problem (span : Span) (p : Problem) : Diagnostic := place span (.semantic p)

def stage (d : Diagnostic) : Stage := d.issue.stage
def message (d : Diagnostic) : String := d.issue.message

def text (d : Diagnostic) : String :=
  toString d.line ++ ":" ++ toString d.column ++ ": " ++ d.stage.text ++ " error: " ++ d.message

end Diagnostic

end SingleClass
