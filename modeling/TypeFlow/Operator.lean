/-!
# Operators

The binary and unary operators of the language, the tokens that write them and the strength
with which the binary ones bind.
-/

namespace TypeFlow

/-- The binary operators. -/
inductive BinaryOp where
  | add
  | sub
  | mul
  | div
  | mod
  | eq
  | ne
  | lt
  | le
  | gt
  | ge
  | and
  | or
  deriving DecidableEq, Repr, Inhabited

namespace BinaryOp

def all : List BinaryOp :=
  [.add, .sub, .mul, .div, .mod, .eq, .ne, .lt, .le, .gt, .ge, .and, .or]

def token : BinaryOp → String
  | .add => "+"
  | .sub => "-"
  | .mul => "*"
  | .div => "/"
  | .mod => "%"
  | .eq => "=="
  | .ne => "!="
  | .lt => "<"
  | .le => "<="
  | .gt => ">"
  | .ge => ">="
  | .and => "&&"
  | .or => "||"

/-- The operator that a token writes. -/
def ofToken? (token : String) : Option BinaryOp := all.find? (·.token == token)

/-- Binding strength. Operators of one strength associate to the left. -/
def precedence : BinaryOp → Nat
  | .or => 1
  | .and => 2
  | .eq | .ne | .lt | .le | .gt | .ge => 3
  | .add | .sub => 4
  | .mul | .div | .mod => 5

/-- Operators that make numbers of numbers. -/
def isArithmetic : BinaryOp → Bool
  | .add | .sub | .mul | .div | .mod => true
  | _ => false

/-- Operators that make a boolean of two operands of a kind. -/
def isComparison : BinaryOp → Bool
  | .eq | .ne | .lt | .le | .gt | .ge => true
  | _ => false

theorem mem_all (op : BinaryOp) : op ∈ all := by cases op <;> decide

theorem ofToken?_token (op : BinaryOp) : ofToken? op.token = some op := by cases op <;> decide

end BinaryOp

/-- The unary operators. -/
inductive UnaryOp where
  | not
  | neg
  deriving DecidableEq, Repr, Inhabited

namespace UnaryOp

def all : List UnaryOp := [.not, .neg]

def token : UnaryOp → String
  | .not => "!"
  | .neg => "-"

/-- The operator that a token writes. -/
def ofToken? (token : String) : Option UnaryOp := all.find? (·.token == token)

end UnaryOp

end TypeFlow
