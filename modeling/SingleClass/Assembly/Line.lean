import SingleClass.Assembly.Descriptor
set_option autoImplicit false

/-!
Lines of assembly: instructions of a stack machine, as data, and the text of each. A constant is
written by the shortest instruction that pushes it and a low register by the short form.
-/

namespace SingleClass

inductive WordOp where
  | add | sub | mul | div | and | or | xor
  deriving DecidableEq

inductive Relation where
  | eq | ne | lt | le | gt | ge
  deriving DecidableEq

inductive Test where
  | words (relation : Relation)
  | sameReference
  | otherReference
  deriving DecidableEq

inductive Line where
  | push (value : Int32)
  | pushNull
  | load (cell : Cell) (register : Nat)
  | store (cell : Cell) (register : Nat)
  | word (op : WordOp)
  | negate
  | pop
  | label (label : Label)
  | goto (target : Label)
  /-- Jumps on a word other than zero. -/
  | ifTrue (target : Label)
  | jumpIf (test : Test) (target : Label)
  | new (className : String)
  | newIntArray
  | newBoolArray
  /-- An array of references. The element is a class, or an array by its descriptor. -/
  | newObjectArray (element : String)
  | arrayLoad (element : Cell)
  | arrayStore (element : Cell)
  | arrayLength
  | getField (owner field : String) (type : FieldType)
  | putField (owner field : String) (type : FieldType)
  | invoke (dispatch : Dispatch) (owner method : String) (type : MethodType)
  | ret (value : Option Cell)
  deriving DecidableEq

def WordOp.text : WordOp → String
  | .add => "iadd"
  | .sub => "isub"
  | .mul => "imul"
  | .div => "idiv"
  | .and => "iand"
  | .or => "ior"
  | .xor => "ixor"

def Relation.text : Relation → String
  | .eq => "eq"
  | .ne => "ne"
  | .lt => "lt"
  | .le => "le"
  | .gt => "gt"
  | .ge => "ge"

def Test.text : Test → String
  | .words r => "if_icmp" ++ r.text
  | .sameReference => "if_acmpeq"
  | .otherReference => "if_acmpne"

def Cell.letter : Cell → String
  | .int | .bool => "i"
  | .object => "a"

def Cell.elementLetter : Cell → String
  | .int => "i"
  | .bool => "b"
  | .object => "a"

def registerText (mnemonic : String) (register : Nat) : String :=
  mnemonic ++ (if register ≤ 3 then "_" else " ") ++ toString register

def pushText (value : Int32) : String :=
  let v := value.toInt
  if v = -1 then "iconst_m1"
  else if 0 ≤ v ∧ v ≤ 5 then "iconst_" ++ toString v
  else if -128 ≤ v ∧ v ≤ 127 then "bipush " ++ toString v
  else if -32768 ≤ v ∧ v ≤ 32767 then "sipush " ++ toString v
  else "ldc " ++ toString v

def Line.text : Line → String
  | .push v => pushText v
  | .pushNull => "aconst_null"
  | .load c r => registerText (c.letter ++ "load") r
  | .store c r => registerText (c.letter ++ "store") r
  | .word op => op.text
  | .negate => "ineg"
  | .pop => "pop"
  | .label l => l.text ++ ":"
  | .goto l => "goto " ++ l.text
  | .ifTrue l => "ifne " ++ l.text
  | .jumpIf t l => t.text ++ " " ++ l.text
  | .new c => "new " ++ c
  | .newIntArray => "newarray int"
  | .newBoolArray => "newarray boolean"
  | .newObjectArray e => "anewarray " ++ e
  | .arrayLoad c => c.elementLetter ++ "aload"
  | .arrayStore c => c.elementLetter ++ "astore"
  | .arrayLength => "arraylength"
  | .getField o f t => "getfield " ++ o ++ "/" ++ f ++ " " ++ t.text
  | .putField o f t => "putfield " ++ o ++ "/" ++ f ++ " " ++ t.text
  | .invoke d o m t => d.text ++ " " ++ o ++ "/" ++ m ++ t.text
  | .ret none => "return"
  | .ret (some c) => c.letter ++ "return"

def indentation : String := "    "

/-- A line as it stands in a method: at the margin when it ends with a colon, else indented. -/
def Line.render (l : Line) : String :=
  (if l.text.toList.getLast? = some ':' then "" else indentation) ++ l.text ++ "\n"

end SingleClass
