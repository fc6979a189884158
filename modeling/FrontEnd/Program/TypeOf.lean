import FrontEnd.Program.Basic
/-!
# FrontEnd — the type of an expression

`Program.typeOf` reads the type of an expression off its structure and
the types of the declarations it refers to. It does not look at the
types recorded in expressions.
-/

namespace FrontEnd

/-- The first enum type, counted from `index`, whose values reach past
`v`, when `before` values belong to the ones before. -/
def enumTypeFrom (v : EnumValueId) (before index : Nat) : List EnumType → Option EnumTypeId
  | [] => none
  | e :: rest =>
    if v.raw < before + e.values.len then some ⟨index⟩
    else enumTypeFrom v (before + e.values.len) (index + 1) rest

/-- The type of an arithmetic operation: invalid if an operand is, a
number for a division, and an integer for integers otherwise. -/
def Ty.arithmetic (op : BinaryOp) (lhs rhs : Ty) : Ty :=
  if lhs.isInvalid || rhs.isInvalid then .error
  else if op = .div then .num
  else if lhs = .int ∧ rhs = .int then .int
  else .num

namespace Program

/-- The enum type a value belongs to. The values of all enum types
follow each other, so their numbers are added up until they pass it. -/
def enumTypeOf (p : Program) (v : EnumValueId) : Option EnumTypeId :=
  enumTypeFrom v 0 0 p.enumTypes.toList

/-- The type of an expression whose operands nest less than `fuel` deep. -/
def typeOfWithin (p : Program) : (fuel : Nat) → (e : ExprId) → Except Fault Ty
  | 0, _ => .error .endless
  | fuel + 1, e => do
    match (← p.exprs.get e).kind with
    | .integer _ => return .int
    | .float _ => return .num
    | .boolean _ => return .bool
    | .string => return .str
    | .enumValue v => return (p.enumTypeOf v).elim .error .enum
    | .variable v => return (← p.vars.get v).type
    | .parameter a => return (← p.parameters.get a).type
    | .function f => return (← p.functions.get f).returnType
    | .call callee _ =>
      match (← p.exprs.get callee).kind with
      | .function f => return (← p.functions.get f).returnType
      | _ => return .error
    | .unary .not _ => return .bool
    | .unary _ operand => p.typeOfWithin fuel operand
    | .binary op lhs rhs =>
      if op.isBoolean then return .bool
      else return .arithmetic op (← p.typeOfWithin fuel lhs) (← p.typeOfWithin fuel rhs)
    | .invalid | .identifier | .typeName _ | .field _ _ | .range _ _ => return .error

/-- The type of an expression. -/
def typeOf (p : Program) (e : ExprId) : Except Fault Ty := p.typeOfWithin p.exprDepth e

end Program

end FrontEnd
