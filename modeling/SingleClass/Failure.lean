import SingleClass.Code.Printer
import SingleClass.Typing.Rules
set_option autoImplicit false

/-!
Why a unit cannot be compiled at all, as causes. A mistake in the program is not among them: that is a
diagnostic.
-/

namespace SingleClass

/-- How a value sits in a register or on the operand stack. A boolean is a word like an integer and
differs only as an array element. -/
inductive Cell where
  | int | bool | object
  deriving DecidableEq

inductive Failure where
  | undeclaredTarget (name : String)
  /-- An assignment to an expression of this kind. -/
  | badTarget (kind : String)
  | noValue (name : String)
  | thisInStatic (method : String)
  | voidCall (method : String)
  | noReceiver (callee method : String)
  | typing (error : TypeError)
  | noOwner (method : String) (receiver : Ty)
  | arrayTooLong (size : Nat)
  | noDescriptor (ty : Ty)
  | noCell (ty : Ty)
  | noComparison (op : BinaryOp) (cell : Cell)
  | outOfRegisters
  | varWithoutRegister (name : String)
  | tempWithoutRegister (temp : Temp)
  | operandWithoutRegister (operand : Operand)
  | missingLabel (label : Label)
  | badFlag (key value : String)

inductive Failure.Category where
  | lowering | codeGen | unsupported | config | internal
  deriving DecidableEq

def Failure.Category.describe : Category → String → String
  | .lowering, detail => "Lowering error: " ++ detail
  | .codeGen, detail => "Code generation error: " ++ detail
  | .unsupported, detail => "Unsupported construct: " ++ detail
  | .config, detail => "Configuration error: " ++ detail
  | .internal, detail => "Internal compiler error: " ++ detail

def Cell.text : Cell → String
  | .int => "Int"
  | .bool => "Bool"
  | .object => "Object"

/-- Registers are numbered by 16 bits and the last number is not used. -/
def registerLimit : Nat := 65535

namespace Failure

def category : Failure → Category
  | .undeclaredTarget _ | .badTarget _ | .noValue _ | .thisInStatic _ | .voidCall _ | .noReceiver ..
  | .typing _ => .lowering
  | .noOwner .. => .unsupported
  | .arrayTooLong _ | .noDescriptor _ | .noCell _ | .noComparison .. | .outOfRegisters
  | .varWithoutRegister _ | .tempWithoutRegister _ | .operandWithoutRegister _ => .codeGen
  | .missingLabel _ => .internal
  | .badFlag .. => .config

def detail : Failure → String
  | .undeclaredTarget n => "assignment to undeclared '" ++ n ++ "'"
  | .badTarget kind => "cannot assign to " ++ kind
  | .noValue n => "'" ++ n ++ "' does not name a value"
  | .thisInStatic m => "'this' used in static method '" ++ m ++ "'"
  | .voidCall m => "void call '" ++ m ++ "' used as a value"
  | .noReceiver c m => "call to '" ++ c ++ "' without a receiver in static method '" ++ m ++ "'"
  | .typing e => e.message
  | .noOwner m t => "call to '" ++ m ++ "' on a value of type " ++ t.text
  | .arrayTooLong n => "array of " ++ toString n ++ " elements does not fit an int size"
  | .noDescriptor t => "type '" ++ t.text ++ "' has no descriptor"
  | .noCell t => "no value of type '" ++ t.text ++ "' can be held in a register"
  | .noComparison op c =>
    "operator '" ++ op.symbol ++ "' has no encoding for " ++ c.text ++ " operands"
  | .outOfRegisters => "method needs more than " ++ toString registerLimit ++ " registers"
  | .varWithoutRegister n => "no register for variable '" ++ n ++ "'"
  | .tempWithoutRegister t => "no register for " ++ t.name
  | .operandWithoutRegister o => "operand '" ++ o.text ++ "' has no register"
  | .missingLabel l => "label " ++ l.text ++ " missing from the label table"
  | .badFlag k v => "option '" ++ k ++ "' expects true or false, found '" ++ v ++ "'"

def message (f : Failure) : String := f.category.describe f.detail

end Failure

end SingleClass
