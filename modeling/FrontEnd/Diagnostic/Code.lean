/-!
# FrontEnd — diagnostic codes

What can be wrong with a program, one `Code` for each. The first digit
of a code's text names the phase that reports it.
-/

namespace FrontEnd

inductive Code
  /-- No function is called `main`. -/
  | noMain
  /-- A name means nothing where it stands. -/
  | unknownName
  /-- A called name means nothing where it stands. -/
  | unknownFunction
  /-- Something else than a function is called. -/
  | notAFunction
  /-- A name in the place of a type means nothing. -/
  | unknownType
  /-- Something else than a type stands in the place of one. -/
  | notAType
  /-- The enum type has no value of this name. -/
  | unknownEnumValue
  /-- The initializers of top-level variables read each other in a cycle. -/
  | cyclicInitializer
  /-- A value does not fit what it is stored in. -/
  | typeMismatch
  /-- A condition is not a boolean. -/
  | notABoolean
  /-- A loop runs over neither a range nor an enum type. -/
  | notIterable
  /-- The compiler itself has failed. -/
  | internal
deriving DecidableEq

namespace Code

/-- Every code, in the order of their declaration. -/
def all : List Code :=
  [noMain, unknownName, unknownFunction, notAFunction, unknownType, notAType, unknownEnumValue,
    cyclicInitializer, typeMismatch, notABoolean, notIterable, internal]

/-- The code as it is printed. -/
def text : Code → String
  | noMain => "E1001"
  | unknownName => "E1002"
  | unknownFunction => "E1003"
  | notAFunction => "E1004"
  | unknownType => "E1005"
  | notAType => "E1006"
  | unknownEnumValue => "E1007"
  | cyclicInitializer => "E1008"
  | typeMismatch => "E2001"
  | notABoolean => "E2002"
  | notIterable => "E2003"
  | internal => "E9001"

/-- The message of a diagnostic that has none of its own. -/
def description : Code → String
  | noMain => "the program has no `main` function"
  | unknownName => "this name does not exist"
  | unknownFunction => "this function does not exist"
  | notAFunction => "this expression is not a function"
  | unknownType => "this type does not exist"
  | notAType => "this expression is not a valid type"
  | unknownEnumValue => "this enum value does not exist"
  | cyclicInitializer => "this initializer depends on a cycle of top-level variables"
  | typeMismatch => "the value does not match the type it is assigned to"
  | notABoolean => "the condition is not a boolean"
  | notIterable => "this value cannot be iterated over"
  | internal => "internal compiler error"

/-- Reported while names and types are resolved. -/
def isResolutionError : Code → Bool
  | noMain | unknownName | unknownFunction | notAFunction | unknownType | notAType
  | unknownEnumValue | cyclicInitializer => true
  | _ => false

/-- Reported while types are checked. -/
def isTypeError : Code → Bool
  | typeMismatch | notABoolean | notIterable => true
  | _ => false

def isInternal (c : Code) : Bool := c == internal

/-- Codes are ordered as they are declared. -/
instance : Ord Code where
  compare a b := compare a.ctorIdx b.ctorIdx

end Code

end FrontEnd
