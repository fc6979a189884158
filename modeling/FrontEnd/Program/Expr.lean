import FrontEnd.Decimal.Binary64
import FrontEnd.Program.Operator
import FrontEnd.Program.Ty
import FrontEnd.Source.Span
/-!
# FrontEnd — expressions

An expression node names its operands by id. A node starts as a name
and becomes a reference once name resolution, or the type pass for the
values of an enum, finds what the name stands for.
-/

namespace FrontEnd

inductive ExprKind
  /-- What stands where an expression could not be read. -/
  | invalid
  /-- A name that has not been resolved; the node's span reads as it. -/
  | identifier
  | integer (value : Int)
  | float (value : Binary64)
  | boolean (value : Bool)
  /-- A string literal; the node's span reads as its contents. -/
  | string
  | enumValue (v : EnumValueId)
  | variable (v : VariableId)
  | function (f : FunctionId)
  | parameter (p : ParameterId)
  /-- A name that stands for a type. -/
  | typeName (t : Ty)
  | call (callee : ExprId) (arguments : IdRange .argument)
  /-- What `name` selects from a subject. -/
  | field (subject : ExprId) (name : Span)
  | range (first last : ExprId)
  | unary (op : UnaryOp) (operand : ExprId)
  | binary (op : BinaryOp) (lhs rhs : ExprId)
deriving DecidableEq

/-- Whether the node names its referent already. -/
def ExprKind.isReference : ExprKind → Bool
  | .variable _ | .function _ | .parameter _ | .typeName _ | .enumValue _ => true
  | _ => false

/-- An expression node. -/
structure Expr where
  kind : ExprKind
  span : Span
  /-- The type recorded by the type pass. -/
  type : Ty := .unset
  /-- A diagnostic has been kept for this node; later passes keep quiet. -/
  flagged : Bool := false
deriving DecidableEq

end FrontEnd
