import FrontEnd.Program.Stmt
import FrontEnd.Program.Ty
/-!
# FrontEnd — declarations

The records of what a program declares: functions and their parameters,
variables, enum types and their values, struct types. The types in them
are filled in by the type pass.
-/

namespace FrontEnd

structure Function where
  name : Span
  /-- The whole declaration. -/
  span : Span
  body : Block := .empty
  returnTypeExpr : Option ExprId := none
  /-- `Ty.none` of a function that declares no return type. -/
  returnType : Ty := .unset
  parameters : IdRange .parameter := .empty
deriving DecidableEq

structure Parameter where
  name : Span
  typeExpr : Option ExprId := none
  type : Ty := .unset
deriving DecidableEq

structure Variable where
  name : Span
  type : Ty := .unset
  /-- When a top-level variable is initialized: one later than the last
  variable its initializer reads. It is 0 of a variable that is not at
  the top level, or whose initializer reads its way into a cycle. -/
  order : Nat := 0
deriving DecidableEq

/-- An enum type owns a run of the enum values. -/
structure EnumType where
  name : Span
  values : IdRange .enumValue
deriving DecidableEq

structure EnumValue where
  name : Span
deriving DecidableEq

/-- A struct type is declared and can be named, but has no fields. -/
structure StructType where
  name : Span
deriving DecidableEq

end FrontEnd
