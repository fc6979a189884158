/-!
# FrontEnd — operators

The unary and binary operators of the language, their symbols, and the
two groups of binary operators the typing rules tell apart.
-/

namespace FrontEnd

inductive BinaryOp
  | mul
  | div
  | rem
  | add
  | sub
  | lt
  | gt
  | ltEq
  | gtEq
  | eq
  | notEq
  | and
  | or
deriving DecidableEq

namespace BinaryOp

/-- The operator as it is written. -/
def symbol : BinaryOp → String
  | mul => "*"
  | div => "/"
  | rem => "%"
  | add => "+"
  | sub => "-"
  | lt => "<"
  | gt => ">"
  | ltEq => "<="
  | gtEq => ">="
  | eq => "=="
  | notEq => "!="
  | and => "&&"
  | or => "||"

/-- The operators that are integral on integers. Division is not one of
them: it always yields a number. -/
def isArithmetic : BinaryOp → Bool
  | mul | rem | add | sub => true
  | _ => false

/-- The operators that always yield a boolean. -/
def isBoolean : BinaryOp → Bool
  | lt | gt | ltEq | gtEq | eq | notEq | and | or => true
  | _ => false

end BinaryOp

inductive UnaryOp
  | pos
  | neg
  | not
  | increment
  | decrement
deriving DecidableEq

/-- The operator as it is written. -/
def UnaryOp.symbol : UnaryOp → String
  | .pos => "+"
  | .neg => "-"
  | .not => "!"
  | .increment => "++"
  | .decrement => "--"

end FrontEnd
