import FrontEnd.Analysis.Basic
import FrontEnd.Program.Outline
import FrontEnd.Program.Scope
/-!
# FrontEnd — name resolution

Every block gets a scope of its own inside that of the block around it,
and every name in an expression is replaced by what it stands for in
its scope. The functions of a block are declared before any of its
statements is looked at, so they may call each other; at the top level
enum types, struct types and variables are too. Everything else can be
named after its declaration only.

A name that means nothing is left as it is.
-/

namespace FrontEnd

/-- What an expression becomes whose name stands for the target. -/
def Target.exprKind : Target → ExprKind
  | .variable v => .variable v
  | .function f => .function f
  | .parameter a => .parameter a
  | .enumType e => .typeName (.enum e)
  | .structType s => .typeName (.struct s)

/-- What a statement lets the block around it know. -/
inductive Declares
  | nothing
  /-- A function, which is known to the whole block. -/
  | function (f : FunctionId)
  /-- An enum type, a struct type or a variable, which is known to the
  whole top level, but in a body only to what follows it. -/
  | value (target : Target)

/-- What the block around a statement of the kind gets to know by it. -/
def StmtKind.declares : StmtKind → Declares
  | .function f => .function f
  | .enumType e => .value (.enumType e)
  | .structType s => .value (.structType s)
  | .variable v _ _ => .value (.variable v)
  | _ => .nothing

/-- The expression before a body, if there is one. -/
def Head.expr? {ι : Type} : Head ι → Option ExprId
  | .ifThen condition | .elseIf condition | .whileDo condition => some condition
  | .forEach _ iterable => some iterable
  | .bare | .elseThen | .loop => none

/-- The expressions in a statement of the kind, in the order in which
their names are resolved; those in a function declaration apart. -/
def StmtKind.exprs : StmtKind → List ExprId
  | .variable _ type init => init.toList ++ type.toList
  | .nest head _ => head.expr?.toList
  | .assign lhs rhs => [lhs, rhs]
  | .output value | .evaluate value => [value]
  | .returnValue value => value.toList
  | .invalid | .function _ | .enumType _ | .structType _ | .breakLoop => []

namespace Program

/-- Under which name a target is declared. -/
def nameOf (p : Program) : Target → Except Fault Span
  | .variable v => return (← p.vars.get v).name
  | .function f => return (← p.functions.get f).name
  | .parameter a => return (← p.parameters.get a).name
  | .enumType e => return (← p.enumTypes.get e).name
  | .structType s => return (← p.structTypes.get s).name

/-- Declare a target in a scope, under its name. -/
def declareTarget (p : Program) (scope : SymbolTableId) (target : Target) :
    Except Fault Program := do
  p.declare scope ⟨← p.nameOf target, target⟩

/-- What a name stands for in a scope. The keywords of the language
stand for types wherever they are, and cannot be declared anew. -/
def meaning (p : Program) (source : String) (scope : SymbolTableId) (name : Span) :
    Except Fault (Option ExprKind) := do
  match Ty.ofKeyword? (name.read source) with
  | some type => return some (.typeName type)
  | none =>
    let symbol ← p.findSymbol scope fun other => other.read source == name.read source
    return symbol.map fun s => s.target.exprKind

/-- Resolve the names in an expression whose operands nest less than
`fuel` deep. -/
def bindExprWithin (source : String) (scope : SymbolTableId) : (fuel : Nat) →
    (p : Program) → (e : ExprId) → Except Fault Program
  | 0, _, _ => .error .endless
  | fuel + 1, p, e => do
    let x ← p.exprs.get e
    match x.kind with
    | .identifier =>
      match ← p.meaning source scope x.span with
      | some kind => return p.setKind e kind
      | none => return p
    | kind => (← p.operands kind).foldlM (bindExprWithin source scope fuel) p

/-- Resolve the names in an expression. -/
def bindExpr (source : String) (scope : SymbolTableId) (p : Program) (e : ExprId) :
    Except Fault Program :=
  bindExprWithin source scope p.exprDepth p e

/-- Resolve the names in several expressions. -/
def bindExprs (source : String) (scope : SymbolTableId) (p : Program) (es : List ExprId) :
    Except Fault Program :=
  es.foldlM (bindExpr source scope) p

/-- The type expressions of a function: its return type and then those
of its parameters. -/
def signature (p : Program) (f : FunctionId) : Except Fault (List ExprId) := do
  let r ← p.functions.get f
  let parameters ← p.parameters.slice r.parameters
  return r.returnTypeExpr.toList ++ parameters.filterMap (·.2.typeExpr)

/-- Declare what the statements of a block let be known before any of
them: functions, and at the top level the rest too. -/
def declareAhead (topLevel : Bool) (scope : SymbolTableId) (p : Program) (s : StmtId) :
    Except Fault Program := do
  match (← p.stmts.get s).kind.declares with
  | .function f => p.declareTarget scope (.function f)
  | .value target => if topLevel then p.declareTarget scope target else return p
  | .nothing => return p

/-- Declare what the statements of an outline let be known before any of
them. -/
def declareAllAhead (topLevel : Bool) (scope : SymbolTableId) (p : Program)
    (outline : Outline) : Except Fault Program := do
  (← outline.direct).foldlM (declareAhead topLevel scope) p

/-- Resolve the names in a statement that has no body, and declare what
it declares unless that has been done. -/
def bindLeaf (source : String) (topLevel : Bool) (scope : SymbolTableId) (p : Program)
    (s : StmtId) : Except Fault Program := do
  let kind := (← p.stmts.get s).kind
  let p ← bindExprs source scope p kind.exprs
  match kind.declares with
  | .value target => if topLevel then return p else p.declareTarget scope target
  | _ => return p

/-- Resolve the names that stand before the body of a statement. -/
def bindHead (source : String) (scope : SymbolTableId) (p : Program) (s : StmtId) :
    Except Fault Program := do
  match (← p.stmts.get s).kind with
  | .function f => bindExprs source scope p (← p.signature f)
  | kind => bindExprs source scope p kind.exprs

/-- Give the body of a statement a new scope inside another. -/
def openScope (p : Program) (s : StmtId) (around : SymbolTableId) :
    Except (Abort InternalError) (SymbolTableId × Program) := do
  let (scope, p) := p.addSymbolTable around
  match ← p.updateBody s ({ · with symbolTable := scope }) with
  | some p => return (scope, p)
  | none =>
    throw (.error (.invariant "name resolution"
      ("statement " ++ Nat.repr s.raw ++ " has no body")))

/-- Declare what is known in a body from its start: the parameters of a
function, or the iterator of a loop. -/
def declareInside (scope : SymbolTableId) (p : Program) (s : StmtId) : Except Fault Program := do
  match (← p.stmts.get s).kind with
  | .function f =>
    let parameters ← p.parameters.slice (← p.functions.get f).parameters
    parameters.foldlM (fun p (a, _) => p.declareTarget scope (.parameter a)) p
  | .nest (.forEach iterator _) _ => p.declareTarget scope (.variable iterator)
  | _ => return p

/-- Resolve the names in the statements of a block, after what is known
ahead of them has been declared. -/
def bindOutline (source : String) : (topLevel : Bool) → (scope : SymbolTableId) →
    (outline : Outline) → (p : Program) → Except (Abort InternalError) Program
  | _, _, .stuck fault, _ => throw (.fault fault)
  | _, _, .done, p => return p
  | topLevel, scope, .leaf s rest, p => do
    let p ← bindLeaf source topLevel scope p s
    bindOutline source topLevel scope rest p
  | topLevel, scope, .nested s body rest, p => do
    -- what stands before the body is in the scope around it
    let p ← bindHead source scope p s
    let (inner, p) ← p.openScope s scope
    let p ← declareInside inner p s
    let p ← declareAllAhead false inner p body
    let p ← bindOutline source false inner body p
    bindOutline source topLevel scope rest p

/-- Resolve every name in the program. -/
def bindNames (p : Program) (source : String) : Except (Abort InternalError) Program := do
  let outline := p.outline p.block
  let (scope, p) := p.addSymbolTable .sentinel
  let p := { p with block := { p.block with symbolTable := scope } }
  let p ← declareAllAhead true scope p outline
  bindOutline source true scope outline p

end Program

end FrontEnd
