import FrontEnd.RecordId
import FrontEnd.Source.Span
/-!
# FrontEnd — symbol tables

A scope is a chain of tables of bounded size. Each table links to the
next one: to the scope's own overflow, marked as a continuation, while
there is any, and then to the first table of the enclosing scope.
-/

namespace FrontEnd

/-- What a symbol names. -/
inductive Target
  | variable (v : VariableId)
  | function (f : FunctionId)
  | parameter (p : ParameterId)
  | enumType (e : EnumTypeId)
  | structType (s : StructTypeId)
deriving DecidableEq

/-- A declared name and what it stands for. -/
structure Symbol where
  name : Span
  target : Target
deriving DecidableEq

/-- How many symbols one table holds. -/
def symbolTableCapacity : Nat := 16

structure SymbolTable where
  /-- The symbols in the order of their declaration. -/
  symbols : Array Symbol := #[]
  /-- Where a lookup goes on; the sentinel ends it. -/
  next : SymbolTableId := .sentinel
  /-- The table is the overflow of the one before it in its scope. -/
  isContinuation : Bool := false
deriving DecidableEq

def SymbolTable.isFull (t : SymbolTable) : Bool :=
  decide (symbolTableCapacity ≤ t.symbols.size)

end FrontEnd
