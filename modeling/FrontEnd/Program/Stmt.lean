import FrontEnd.RecordId
import FrontEnd.Source.Span
/-!
# FrontEnd — statements and blocks

All statements of a program stand in one list. A block is a run of it
that holds the block's own statements and, right after each of them
that has a body, the whole of that body. How long a body is, is stored
with the statement that owns it, or with the function it declares.
-/

namespace FrontEnd

/-- A run of the statement list, and the scope its names are looked up
in. The scope is the sentinel until name resolution has been there. -/
structure Block where
  statements : IdRange .stmt
  symbolTable : SymbolTableId
deriving DecidableEq

namespace Block

/-- The block that holds no statement and has no scope. -/
def empty : Block := ⟨.empty, .sentinel⟩

def len (b : Block) : Nat := b.statements.len

def isEmpty (b : Block) : Bool := b.statements.isEmpty

/-- The statement that stands `offset` places after the block's start. -/
def stmtAt (b : Block) (offset : Nat) : StmtId := ⟨b.statements.start + offset⟩

end Block

/-- What stands before a body, with a loop's iterator given as an `ι`. -/
inductive Head (ι : Type)
  | bare
  | ifThen (condition : ExprId)
  | elseIf (condition : ExprId)
  | elseThen
  /-- A loop without condition. -/
  | loop
  | forEach (iterator : ι) (iterable : ExprId)
  | whileDo (condition : ExprId)
deriving DecidableEq

inductive StmtKind
  /-- What stands where a statement could not be read. -/
  | invalid
  /-- A function declaration; its body is kept with the function. -/
  | function (f : FunctionId)
  | enumType (e : EnumTypeId)
  | structType (s : StructTypeId)
  | variable (v : VariableId) (type init : Option ExprId)
  /-- A statement with a body of its own. -/
  | nest (head : Head VariableId) (body : Block)
  /-- Leave the loop around. -/
  | breakLoop
  | assign (lhs rhs : ExprId)
  | output (value : ExprId)
  /-- An expression that stands alone. -/
  | evaluate (value : ExprId)
  | returnValue (value : Option ExprId)
deriving DecidableEq

/-- A statement of the program. -/
structure Stmt where
  kind : StmtKind
  span : Span
deriving DecidableEq

end FrontEnd
