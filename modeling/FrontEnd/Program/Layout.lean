import FrontEnd.Program.Block
/-!
# FrontEnd — layout

The passes take for granted that every id stored in a program is held
by its table and that every body starts right after the statement that
owns it and ends inside the block around it. `Program.validate` checks
both, and names the first thing that is wrong.
-/

namespace FrontEnd

/-- What is wrong with the layout of a program. -/
inductive LayoutError
  /-- A block reaches past the end of what it is part of. -/
  | outOfBounds (statements : IdRange .stmt) (limit : Nat)
  /-- A body does not start right after the statement that owns it. -/
  | misplaced (owner : StmtId) (start : Nat)
  /-- An id refers past the end of its table. -/
  | dangling (record : String) (index : Nat)
  /-- The values of an enum type do not follow those of the one before. -/
  | notContiguous (e : EnumTypeId)
deriving DecidableEq

/-- The error in words. -/
def LayoutError.message : LayoutError → String
  | .outOfBounds statements limit =>
    "block " ++ statements.text ++ " extends past statement " ++ Nat.repr limit
  | .misplaced owner start =>
    "body of statement " ++ Nat.repr owner.raw ++ " starts at " ++ Nat.repr start ++
      ", expected " ++ Nat.repr (owner.raw + 1)
  | .dangling record index => record ++ " index " ++ Nat.repr index ++ " is out of range"
  | .notContiguous e =>
    "values of enum type " ++ Nat.repr e.raw ++ " are not contiguous with earlier enum values"

/-- What records of the kind are called in a message. -/
def RecordKind.noun : RecordKind → String
  | .expr => "expression"
  | .argument => "argument"
  | .stmt => "statement"
  | .function => "function"
  | .parameter => "parameter"
  | .variable => "variable"
  | .enumType => "enum type"
  | .enumValue => "enum value"
  | .structType => "struct type"
  | .symbolTable => "symbol table"

/-- A check of the layout. -/
abbrev LayoutCheck := Except (Abort LayoutError) Unit

namespace Table

variable {k : RecordKind} {α : Type}

/-- The table holds a record under the id. -/
def checkId (t : Table k α) (i : RecordId k) : LayoutCheck :=
  if i.raw < t.size then .ok () else .error (.error (.dangling k.noun i.raw))

/-- The table holds every record of the range; an empty one needs none. -/
def checkRange (t : Table k α) (r : IdRange k) : LayoutCheck :=
  if r.isEmpty then .ok () else t.checkId ⟨r.stop - 1⟩

end Table

namespace Program

/-! ## Ids in records -/

/-- Every id in an expression is good. -/
def checkExprKind (p : Program) : ExprKind → LayoutCheck
  | .enumValue v => p.enumValues.checkId v
  | .variable v => p.vars.checkId v
  | .function f => p.functions.checkId f
  | .parameter a => p.parameters.checkId a
  | .call callee arguments => do
    p.exprs.checkId callee
    p.arguments.checkRange arguments
    (← p.arguments.slice arguments).forM fun (_, e) => p.exprs.checkId e
  | .field subject _ => p.exprs.checkId subject
  | .range first last => do
    p.exprs.checkId first
    p.exprs.checkId last
  | .unary _ operand => p.exprs.checkId operand
  | .binary _ lhs rhs => do
    p.exprs.checkId lhs
    p.exprs.checkId rhs
  | .invalid | .identifier | .integer _ | .float _ | .boolean _ | .string | .typeName _ =>
    return ()

/-- Every id in a function is good, those in its body apart. -/
def checkFunction (p : Program) (f : Function) : LayoutCheck := do
  f.returnTypeExpr.forM p.exprs.checkId
  p.parameters.checkRange f.parameters

/-- The values of the enum types, counted from `index`, follow each
other from `start` on; gives where they stop. -/
def checkEnumTypes (start index : Nat) : List EnumType → Except (Abort LayoutError) Nat
  | [] => .ok start
  | e :: rest =>
    if e.values.start = start then checkEnumTypes e.values.stop (index + 1) rest
    else .error (.error (.notContiguous ⟨index⟩))

/-- Every id in a declaration is good, and each enum type has the values
after those of the one before. -/
def checkDeclarations (p : Program) : LayoutCheck := do
  p.functions.toList.forM p.checkFunction
  p.parameters.toList.forM fun a => a.typeExpr.forM p.exprs.checkId
  let stop ← checkEnumTypes 0 0 p.enumTypes.toList
  p.enumValues.checkRange ⟨0, stop⟩

/-- Every id in a statement is good, those in its body apart. -/
def checkStmtKind (p : Program) : StmtKind → LayoutCheck
  | .function f => p.functions.checkId f
  | .enumType e => p.enumTypes.checkId e
  | .structType s => p.structTypes.checkId s
  | .variable v type init => do
    p.vars.checkId v
    type.forM p.exprs.checkId
    init.forM p.exprs.checkId
  | .nest (.forEach iterator iterable) _ => do
    p.vars.checkId iterator
    p.exprs.checkId iterable
  | .nest (.ifThen condition) _ | .nest (.elseIf condition) _ | .nest (.whileDo condition) _ =>
    p.exprs.checkId condition
  | .assign lhs rhs => do
    p.exprs.checkId lhs
    p.exprs.checkId rhs
  | .output value | .evaluate value | .returnValue (some value) => p.exprs.checkId value
  | .invalid | .nest .bare _ | .nest .elseThen _ | .nest .loop _ | .breakLoop
  | .returnValue none => return ()

/-! ## Blocks -/

/-- The body of a child starts right behind the child and ends in the
block, which stops at `limit`. -/
def checkPlace (limit : Nat) (child : StmtId) (body : Block) : LayoutCheck :=
  if body.statements.start ≠ child.raw + 1 then
    .error (.error (.misplaced child body.statements.start))
  else if limit < body.statements.stop then
    .error (.error (.outOfBounds body.statements limit))
  else .ok ()

/-- The children of a block with their bodies, of those that have one. -/
def bodies (p : Program) (b : Block) : Except Fault (List (StmtId × Block)) := do
  (← p.children b).ids.filterMapM fun child => do
    return (← p.bodyOf child).map (child, ·)

/-- The bodies in a block of less than `fuel` places are well placed, and
so are those inside them. The last body is looked into first. -/
def checkBlockWithin (p : Program) : (fuel : Nat) → (block : Block) → LayoutCheck
  | 0, _ => .error (.fault .endless)
  | fuel + 1, block => do
    p.symbolTables.checkId block.symbolTable
    let bodies ← p.bodies block
    bodies.forM fun (child, body) => checkPlace block.statements.stop child body
    bodies.reverse.forM fun (_, body) => p.checkBlockWithin fuel body

/-- Every block from the top level down is well placed. -/
def checkBlocks (p : Program) : LayoutCheck :=
  if p.stmts.size < p.block.statements.stop then
    .error (.error (.outOfBounds p.block.statements p.stmts.size))
  else p.checkBlockWithin (p.block.len + 1) p.block

/-! ## The whole program -/

/-- Check every stored id and the layout of every block. -/
def validate (p : Program) : LayoutCheck := do
  p.exprs.toList.forM fun e => p.checkExprKind e.kind
  p.checkDeclarations
  p.stmts.toList.forM fun s => p.checkStmtKind s.kind
  p.checkBlocks
  p.symbolTables.toList.forM fun t => p.symbolTables.checkId t.next

end Program

end FrontEnd
