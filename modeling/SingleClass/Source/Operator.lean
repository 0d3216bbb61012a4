set_option autoImplicit false

namespace SingleClass

inductive BinaryOp where
  | add | sub | mul | div
  | lt | le | gt | ge
  | eq | ne
  | and | or
  deriving DecidableEq

inductive UnaryOp where
  | not | neg
  deriving DecidableEq

/-- Binary operators by what they ask of their operands. -/
inductive BinaryOp.Family where
  | arithmetic | ordering | equality | logical
  deriving DecidableEq

def BinaryOp.family : BinaryOp → Family
  | .add | .sub | .mul | .div => .arithmetic
  | .lt | .le | .gt | .ge => .ordering
  | .eq | .ne => .equality
  | .and | .or => .logical

def BinaryOp.symbol : BinaryOp → String
  | .add => "+"
  | .sub => "-"
  | .mul => "*"
  | .div => "/"
  | .lt => "<"
  | .le => "<="
  | .gt => ">"
  | .ge => ">="
  | .eq => "=="
  | .ne => "!="
  | .and => "&&"
  | .or => "||"

def UnaryOp.symbol : UnaryOp → String
  | .not => "!"
  | .neg => "-"

theorem BinaryOp.symbol_injective {a b : BinaryOp} (h : a.symbol = b.symbol) : a = b := by
  revert h; cases a <;> cases b <;> decide

/-- 32-bit wrapping arithmetic on two integers. Only the four arithmetic operators compute, and a
division by zero has no value. -/
def BinaryOp.compute : BinaryOp → Int32 → Int32 → Option Int32
  | .add, a, b => some (a + b)
  | .sub, a, b => some (a - b)
  | .mul, a, b => some (a * b)
  | .div, a, b => if b = 0 then none else some (a / b)
  | _, _, _ => none

theorem BinaryOp.arithmetic_of_compute {op : BinaryOp} {a b c : Int32}
    (h : op.compute a b = some c) : op.family = .arithmetic := by
  cases op <;> simp_all [compute, family]

end SingleClass
