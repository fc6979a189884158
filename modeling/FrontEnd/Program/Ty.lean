import FrontEnd.RecordId
/-!
# FrontEnd — types

A `Ty` is a resolved type. Two of them are invalid: `unset`, before the
type pass has been there, and `error`, where it found no type. An
invalid type may stand for any other, so that one bad expression is
reported once and not again at every use.
-/

namespace FrontEnd

inductive Ty
  | unset
  | error
  | none
  | bool
  | int
  | num
  | str
  | enum (e : EnumTypeId)
  | struct (s : StructTypeId)
deriving DecidableEq

namespace Ty

def isInvalid : Ty → Bool
  | unset | error => true
  | _ => false

/-- The kind of type, without saying which enum or struct. -/
def name : Ty → String
  | unset => "uninitialised"
  | error => "error"
  | none => "none"
  | bool => "bool"
  | int => "int"
  | num => "num"
  | str => "str"
  | enum _ => "enum"
  | struct _ => "struct"

/-- The type as messages show it. -/
def text : Ty → String
  | enum e => "enum #" ++ Nat.repr e.raw
  | struct s => "struct #" ++ Nat.repr s.raw
  | t => t.name

/-- The type a keyword of the language names. -/
def ofKeyword? (word : String) : Option Ty :=
  if word = "int" then some int
  else if word = "num" then some num
  else if word = "str" then some str
  else if word = "bool" then some bool
  else Option.none

/-- Whether a value of one type may be stored where another is expected:
equal types are, an integer widens to a number, and an invalid type on
either side is let pass. -/
def assignable (found expected : Ty) : Bool :=
  found.isInvalid || expected.isInvalid || found == expected ||
    (found == int && expected == num)

end Ty

end FrontEnd
