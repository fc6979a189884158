import FrontEnd.Analysis.Basic
import FrontEnd.Program.Outline
/-!
# FrontEnd — type checking

The last pass reports what is left over or does not fit: names without
meaning, calls of what is no function, values of the wrong type,
conditions that are no booleans, loops over what cannot be iterated. It
changes nothing but the flags of expressions.
-/

namespace FrontEnd

/-- What does not fit where a type was expected, in words. -/
def Ty.mismatch (expected found : Ty) : String :=
  "expected `" ++ expected.text ++ "`, found `" ++ found.text ++ "`"

/-- Whether a loop can run over an expression of the kind. A name without
meaning is reported as that. -/
def ExprKind.isIterable : ExprKind → Bool
  | .range _ _ | .typeName (.enum _) | .identifier => true
  | _ => false

namespace Analysis

/-! ## Expressions -/

/-- Report the names without meaning in an expression whose operands nest
less than `fuel` deep, and the calls in it of what is no function. -/
def checkExprWithin : (fuel : Nat) → (a : Analysis) → (e : ExprId) → Except Fault Analysis
  | 0, _, _ => .error .endless
  | fuel + 1, a, e => do
    match (← a.program.exprs.get e).kind with
    | .identifier => a.raiseAt .unknownName e
    | .call callee arguments =>
      let a ← match (← a.program.exprs.get callee).kind with
        | .function _ => pure a
        -- a called name is reported once, as a function
        | .identifier => a.raiseAt .unknownFunction callee
        | _ => (← checkExprWithin fuel a callee).raiseAt .notAFunction callee
      (← a.program.arguments.slice arguments).foldlM (fun a (_, e) => checkExprWithin fuel a e) a
    | kind => (← a.program.operands kind).foldlM (checkExprWithin fuel) a

/-- Report the names without meaning in an expression, and the calls in
it of what is no function. -/
def checkExpr (a : Analysis) (e : ExprId) : Except Fault Analysis :=
  checkExprWithin a.program.exprDepth a e

/-- Report, at a span, that a value does not fit what it is stored in. -/
def checkAssignable (a : Analysis) (value : ExprId) (expected : Ty) (span : Span) :
    Except Fault Analysis := do
  let found ← a.program.typeOf value
  if found.assignable expected then return a
  else a.report value { code := .typeMismatch, span, message := expected.mismatch found }

/-- Report a condition that is not a boolean. -/
def checkCondition (a : Analysis) (condition : ExprId) : Except Fault Analysis := do
  let a ← a.checkExpr condition
  let found ← a.program.typeOf condition
  if found.isInvalid || found == .bool then return a
  else
    let span := (← a.program.exprs.get condition).span
    a.report condition { code := .notABoolean, span, message := Ty.bool.mismatch found }

/-- Report what a loop cannot run over. -/
def checkIterable (a : Analysis) (iterable : ExprId) : Except Fault Analysis := do
  let a ← a.checkExpr iterable
  if (← a.program.exprs.get iterable).kind.isIterable then return a
  else a.raiseAt .notIterable iterable

/-! ## Statements -/

/-- Check a statement without a body, or what stands before the body. -/
def checkStmt (a : Analysis) (s : StmtId) : Except Fault Analysis := do
  let stmt ← a.program.stmts.get s
  match stmt.kind with
  | .variable v _ (some init) =>
    let a ← a.checkExpr init
    a.checkAssignable init (← a.program.vars.get v).type stmt.span
  | .assign lhs rhs =>
    let a ← a.checkExpr lhs
    let a ← a.checkExpr rhs
    a.checkAssignable rhs (← a.program.typeOf lhs) stmt.span
  | .nest (.ifThen condition) _ | .nest (.elseIf condition) _ | .nest (.whileDo condition) _ =>
    a.checkCondition condition
  | .nest (.forEach _ iterable) _ => a.checkIterable iterable
  | .output value | .evaluate value | .returnValue (some value) => a.checkExpr value
  | _ => return a

/-- Check the statements of a block in order. -/
def checkOutline : (outline : Outline) → (a : Analysis) → Except Fault Analysis
  | .stuck fault, _ => .error fault
  | .done, a => return a
  | .leaf s rest, a => do checkOutline rest (← a.checkStmt s)
  | .nested s body rest, a => do
    let a ← a.checkStmt s
    let a ← checkOutline body a
    checkOutline rest a

/-- Report every type error of a resolved program. -/
def check (a : Analysis) : Except (Abort InternalError) Analysis := do
  let block := a.program.block
  if block.symbolTable.isSentinel && !block.isEmpty then
    throw (.error (.invariant "type checking" "program was not resolved before checking"))
  else checkOutline (a.program.outline block) a

end Analysis

end FrontEnd
