import FrontEnd.Program.Decl
import FrontEnd.Program.Expr
import FrontEnd.Program.SymbolTable
import FrontEnd.Table
/-!
# FrontEnd — programs

A `Program` holds one table per kind of record. Records are appended
once and refer to each other by id; what the passes find out about them
is filled in later. The first symbol table is made with the program, so
that its id can mean that there is no table.
-/

namespace FrontEnd

structure Program where
  exprs : Table .expr Expr := .empty
  /-- The arguments of all calls, those of one call side by side. -/
  arguments : Table .argument ExprId := .empty
  stmts : Table .stmt Stmt := .empty
  functions : Table .function Function := .empty
  parameters : Table .parameter Parameter := .empty
  vars : Table .variable Variable := .empty
  enumTypes : Table .enumType EnumType := .empty
  enumValues : Table .enumValue EnumValue := .empty
  structTypes : Table .structType StructType := .empty
  symbolTables : Table .symbolTable SymbolTable := Table.empty.push {}
  /-- The function the program starts with. -/
  main : Option FunctionId := none
  /-- The search for `main` has been made, whatever it found. -/
  mainSearched : Bool := false
  /-- The top level. -/
  block : Block := .empty

namespace Program

/-- The program that declares nothing. -/
def empty : Program := {}

/-! ## Appending records

Each of these gives the new record's id, or the range of the new ids,
and the program that holds it. -/

def addExpr (p : Program) (x : Expr) : ExprId × Program :=
  (p.exprs.nextId, { p with exprs := p.exprs.push x })

def addStmt (p : Program) (s : Stmt) : StmtId × Program :=
  (p.stmts.nextId, { p with stmts := p.stmts.push s })

def addFunction (p : Program) (f : Function) : FunctionId × Program :=
  (p.functions.nextId, { p with functions := p.functions.push f })

def addVariable (p : Program) (v : Variable) : VariableId × Program :=
  (p.vars.nextId, { p with vars := p.vars.push v })

def addStructType (p : Program) (s : StructType) : StructTypeId × Program :=
  (p.structTypes.nextId, { p with structTypes := p.structTypes.push s })

/-- Append the argument list of a call. -/
def addArguments (p : Program) (arguments : List ExprId) : IdRange .argument × Program :=
  (⟨p.arguments.size, arguments.length⟩,
    { p with arguments := p.arguments.append arguments })

/-- Append the parameters of a function. -/
def addParameters (p : Program) (parameters : List Parameter) :
    IdRange .parameter × Program :=
  (⟨p.parameters.size, parameters.length⟩,
    { p with parameters := p.parameters.append parameters })

/-- Append an enum type with its values, which follow those of every
enum type before it. -/
def addEnumType (p : Program) (name : Span) (values : List EnumValue) :
    EnumTypeId × Program :=
  (p.enumTypes.nextId,
    { p with
      enumTypes := p.enumTypes.push ⟨name, ⟨p.enumValues.size, values.length⟩⟩
      enumValues := p.enumValues.append values })

/-- Append an empty symbol table that links to `next`. -/
def addSymbolTable (p : Program) (next : SymbolTableId) : SymbolTableId × Program :=
  (p.symbolTables.nextId, { p with symbolTables := p.symbolTables.push { next } })

/-! ## Operands -/

/-- The direct operands of an expression of the given kind, in the order
in which they are evaluated. -/
def operands (p : Program) : ExprKind → Except Fault (List ExprId)
  | .call callee arguments => do
    let arguments ← p.arguments.slice arguments
    return callee :: arguments.map (·.2)
  | .field subject _ => return [subject]
  | .range first last => return [first, last]
  | .unary _ operand => return [operand]
  | .binary _ lhs rhs => return [lhs, rhs]
  | _ => return []

/-- Operands nest no deeper than there are expressions, unless they nest
without end. -/
def exprDepth (p : Program) : Nat := p.exprs.size + 1

end Program

end FrontEnd
