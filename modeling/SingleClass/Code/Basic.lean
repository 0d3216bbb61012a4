import SingleClass.Symbols
set_option autoImplicit false

/-!
Three-address code. Instructions read atomic operands; intermediate values live in temporaries that
are numbered across the whole unit; control flow is by labels, jumps and branches.
-/

namespace SingleClass

structure Temp where
  id : Nat
  ty : Ty
  deriving DecidableEq

inductive Operand where
  | int (value : Int32)
  | bool (value : Bool)
  | var (name : String) (ty : Ty)
  | temp (temp : Temp)
  | this (className : String)
  | null (ty : Ty)
  deriving DecidableEq

def Operand.ty : Operand → Ty
  | .int _ => .int
  | .bool _ => .boolean
  | .var _ t => t
  | .temp t => t.ty
  | .this c => .named c
  | .null t => t

/-- The value a variable of the type holds before any store. -/
def Operand.zero (t : Ty) : Operand :=
  if t.isInt then .int 0 else if t.isBoolean then .bool false else .null t

def Operand.ofLiteral : Literal → Operand
  | .int v => .int v
  | .bool b => .bool b

inductive Dest where
  | var (name : String) (ty : Ty)
  | temp (temp : Temp)
  | element (array index : Operand)
  deriving DecidableEq

/-- How the code of a call is found. -/
inductive Dispatch where
  | constructor
  | static
  | virtual
  deriving DecidableEq

/-- A jump target. Labels of one construct share a number and differ in kind. -/
structure Label where
  kind : String
  number : Nat
  deriving DecidableEq

structure Call where
  dest : Option Temp
  dispatch : Dispatch
  owner : String
  receiver : Option Operand
  method : String
  args : List Operand
  /-- The parameter types by which the method is declared. -/
  params : List Ty
  ret : Ty
  deriving DecidableEq

inductive Instr where
  | assign (dest : Dest) (value : Operand)
  | binary (dest : Temp) (op : BinaryOp) (left right : Operand)
  | unary (dest : Temp) (op : UnaryOp) (operand : Operand)
  | call (call : Call)
  | new (dest : Temp) (className : String)
  | newArray (dest : Temp) (element : Ty) (size : Operand)
  | arrayLoad (dest : Temp) (array index : Operand)
  | arrayLength (dest : Temp) (array : Operand)
  | getField (dest : Temp) (field : String) (ty : Ty)
  | putField (field : String) (ty : Ty) (value : Operand)
  | ret (value : Option Operand)
  | goto (target : Label)
  /-- A jump taken when the condition is true. -/
  | branch (condition : Operand) (target : Label)
  | label (label : Label)
  deriving DecidableEq

namespace Instr

def defined? : Instr → Option Temp
  | .assign (.temp t) _ => some t
  | .binary t _ _ _ | .unary t _ _ | .new t _ | .newArray t _ _ | .arrayLoad t _ _
  | .arrayLength t _ | .getField t _ _ => some t
  | .call c => c.dest
  | _ => none

def isReturn : Instr → Bool
  | .ret _ => true
  | _ => false

/-- Control never goes on to the next instruction. -/
def endsBlock : Instr → Bool
  | .ret _ | .goto _ => true
  | _ => false

def label? : Instr → Option Label
  | .label l => some l
  | _ => none

def call? : Instr → Option Call
  | .call c => some c
  | _ => none

end Instr

/-- Labels with the positions of their markers, in order of position. -/
abbrev LabelTable := List (Label × Nat)

namespace LabelTable

/-- Records a marker; an earlier marker of the same label gives way. -/
def mark (t : LabelTable) (l : Label) (position : Nat) : LabelTable :=
  t.filter (·.1 ≠ l) ++ [(l, position)]

def ofMarkers (markers : List (Label × Nat)) : LabelTable :=
  markers.foldl (fun t m => mark t m.1 m.2) []

def ofInstrs (code : List Instr) : LabelTable :=
  ofMarkers (code.zipIdx.filterMap fun (i, position) => i.label?.map (·, position))

def has (t : LabelTable) (l : Label) : Bool := t.any (·.1 = l)

end LabelTable

structure MethodCode where
  name : String
  isStatic : Bool := false
  params : List Symbol := []
  locals : List Symbol := []
  returnTy : Ty
  instrs : List Instr := []
  labels : LabelTable := []
  deriving DecidableEq

structure ClassCode where
  name : String
  superclass : Option String := none
  imports : List Import := []
  fields : List Symbol := []
  methods : List MethodCode := []
  deriving DecidableEq

def Temp.firstDefinitions (code : List Instr) : List Temp :=
  (code.filterMap Instr.defined?).foldl
    (fun ts t => if ts.any (·.id = t.id) then ts else ts ++ [t]) []

def MethodCode.temps (m : MethodCode) : List Temp := Temp.firstDefinitions m.instrs

def MethodCode.paramTys (m : MethodCode) : List Ty := m.params.map (·.ty)

def ClassCode.internalName (c : ClassCode) (className : String) : String :=
  SingleClass.internalName c.imports className

end SingleClass
