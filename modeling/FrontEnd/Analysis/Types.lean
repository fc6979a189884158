import FrontEnd.Analysis.Basic
import FrontEnd.Program.Outline
/-!
# FrontEnd — type resolution

Once all names are resolved, every declaration gets its type and every
expression in a statement has its type recorded. A block starts with the
signatures of its functions, so that a call anywhere in it knows what it
returns; then its statements follow in order. A variable without a
declared type has the type of its initializer.

Top-level variables may be read ahead of their declaration. They are
settled before anything else at the top level, each once every one that
its initializer reads is settled, and numbered in that order; those that
are left over read their way into a cycle.

Where a value of an enum type is expected, its name alone will do.
-/

namespace FrontEnd

namespace Program

/-- The first value of an enum type that reads as `name` does. -/
def findEnumValue (p : Program) (source : String) (e : EnumTypeId) (name : Span) :
    Except Fault (Option EnumValueId) := do
  let values ← p.enumValues.slice (← p.enumTypes.get e).values
  return (values.find? fun (_, v) => v.name.read source == name.read source).map (·.1)

/-- Give a variable its type. -/
def setVariableType (p : Program) (v : VariableId) (type : Ty) : Except Fault Program := do
  let vars ← p.vars.update v ({ · with type })
  return { p with vars }

end Program

namespace Analysis

/-! ## Expressions -/

/-- Record the type that an expression has by its structure. -/
def recordType (a : Analysis) (e : ExprId) : Except Fault (Ty × Analysis) := do
  let type ← a.program.typeOf e
  return (type, { a with program := a.program.setExprType e type })

/-- A name where an enum is expected becomes the value of that name, if
there is one; a field of an enum type has to. -/
def nameEnumValue (source : String) (expected : Option Ty) (a : Analysis) (e : ExprId) :
    Except Fault Analysis := do
  let x ← a.program.exprs.get e
  match x.kind, expected with
  | .identifier, some (.enum t) =>
    match ← a.program.findEnumValue source t x.span with
    | some v => return { a with program := a.program.setKind e (.enumValue v) }
    | none => return a
  | .field subject name, _ =>
    match (← a.program.exprs.get subject).kind with
    | .typeName (.enum t) =>
      match ← a.program.findEnumValue source t name with
      | some v => return { a with program := a.program.setKind e (.enumValue v) }
      | none => a.raiseAt .unknownEnumValue e
    | _ => return a
  | _, _ => return a

/-- Record the types of an expression whose operands nest less than
`fuel` deep: those of its operands, of which nothing is expected, and
then its own. -/
def typeExprWithin (source : String) : (fuel : Nat) → (expected : Option Ty) →
    (a : Analysis) → (e : ExprId) → Except Fault (Ty × Analysis)
  | 0, _, _, _ => .error .endless
  | fuel + 1, expected, a, e => do
    let operands ← a.program.operands (← a.program.exprs.get e).kind
    let a ← operands.foldlM (fun a e => return (← typeExprWithin source fuel none a e).2) a
    let a ← a.nameEnumValue source expected e
    a.recordType e

/-- Record the types in an expression where `expected` is wanted. -/
def typeExpr (source : String) (expected : Option Ty) (a : Analysis) (e : ExprId) :
    Except Fault (Ty × Analysis) :=
  typeExprWithin source a.program.exprDepth expected a e

/-- The type that an expression in the place of a type names. -/
def typeNamed (a : Analysis) (e : ExprId) : Except Fault (Ty × Analysis) := do
  let (type, a) ← match (← a.program.exprs.get e).kind with
    | .typeName type => pure (type, a)
    | .identifier => pure (.error, ← a.raiseAt .unknownType e)
    | _ => pure (.error, ← a.raiseAt .notAType e)
  return (type, { a with program := a.program.setExprType e type })

/-- The type an optional type expression names. -/
def typeNamed? (a : Analysis) : Option ExprId → Except Fault (Option Ty × Analysis)
  | some e => return (← a.typeNamed e).map some id
  | none => return (none, a)

/-- The type of an optional expression. -/
def typeExpr? (source : String) (expected : Option Ty) (a : Analysis) :
    Option ExprId → Except Fault (Option Ty × Analysis)
  | some e => return (← typeExpr source expected a e).map some id
  | none => return (none, a)

/-! ## Signatures -/

/-- The type of a parameter is the one it names. -/
def typeParameter (a : Analysis) (i : ParameterId) : Except Fault Analysis := do
  let (type, a) ← a.typeNamed? (← a.program.parameters.get i).typeExpr
  let parameters ← a.program.parameters.update i ({ · with type := type.getD .error })
  return { a with program := { a.program with parameters } }

/-- The types of a function's result and of its parameters. A function
that names no return type has none. -/
def typeSignature (a : Analysis) (f : FunctionId) : Except Fault Analysis := do
  let r ← a.program.functions.get f
  let (type, a) ← a.typeNamed? r.returnTypeExpr
  let functions ← a.program.functions.update f ({ · with returnType := type.getD .none })
  let a := { a with program := { a.program with functions } }
  (← a.program.parameters.slice r.parameters).foldlM (fun a (i, _) => a.typeParameter i) a

/-- The signatures of the functions that are declared by the statements. -/
def typeSignatures (a : Analysis) (statements : List StmtId) : Except Fault Analysis :=
  statements.foldlM (fun a s => do
    match (← a.program.stmts.get s).kind with
    | .function f => a.typeSignature f
    | _ => return a) a

end Analysis

/-! ## Top-level variables -/

/-- A top-level variable that waits for the ones its initializer reads. -/
structure Global where
  id : VariableId
  /-- Its type is declared. -/
  declared : Bool
  init : Option ExprId

/-- The greatest of `least` and the orders of all expressions, unless one
of these has none. -/
def greatestOrder (order : ExprId → Except Fault (Option Nat)) (least : Nat) :
    List ExprId → Except Fault (Option Nat)
  | [] => return some least
  | e :: rest => do
    match ← order e with
    | some n => greatestOrder order (max least n) rest
    | none => return none

namespace Program

/-- The greatest order of a variable that an expression reads whose
operands nest less than `fuel` deep, or nothing while one of these is
not settled. -/
def readOrderWithin (p : Program) : (fuel : Nat) → (e : ExprId) → Except Fault (Option Nat)
  | 0, _ => .error .endless
  | fuel + 1, e => do
    match (← p.exprs.get e).kind with
    | .variable v =>
      let order := (← p.vars.get v).order
      return if 0 < order then some order else none
    | kind => greatestOrder (p.readOrderWithin fuel) 0 (← p.operands kind)

/-- The greatest order of a variable that an expression reads, or nothing
while one of these is not settled. -/
def readOrder (p : Program) (e : ExprId) : Except Fault (Option Nat) :=
  p.readOrderWithin p.exprDepth e

end Program

namespace Global

/-- The type its initializer is expected to have. -/
def expected (g : Global) (p : Program) : Except Fault (Option Ty) := do
  if g.declared then return some (← p.vars.get g.id).type
  else return none

/-- The greatest order its initializer reads. -/
def readOrder (g : Global) (p : Program) : Except Fault (Option Nat) :=
  match g.init with
  | some e => p.readOrder e
  | none => return some 0

end Global

namespace Analysis

/-- A statement that declares a variable starts it off unsettled, with
the type that it declares. -/
def declareGlobal (a : Analysis) (s : StmtId) : Except Fault (Option Global × Analysis) := do
  match (← a.program.stmts.get s).kind with
  | .variable v typeExpr init =>
    let (type, a) ← a.typeNamed? typeExpr
    let vars ← a.program.vars.update v
      ({ · with type := type.getD .unset, order := 0 })
    return (some ⟨v, typeExpr.isSome, init⟩,
      { a with program := { a.program with vars } })
  | _ => return (none, a)

/-- The variables that are declared by the statements, in order. -/
def declareGlobals (a : Analysis) : List StmtId → Except Fault (List Global × Analysis)
  | [] => return ([], a)
  | s :: rest => do
    let (g, a) ← a.declareGlobal s
    let (globals, a) ← a.declareGlobals rest
    return (g.toList ++ globals, a)

/-- Settle a variable: it is initialized next after what it reads. -/
def settle (source : String) (a : Analysis) (g : Global) (order : Nat) :
    Except Fault Analysis := do
  let (type, a) ← typeExpr? source (← g.expected a.program) a g.init
  let vars ← a.program.vars.update g.id fun v =>
    { v with order, type := if g.declared then v.type else type.getD .error }
  return { a with program := { a.program with vars } }

/-- Go through the waiting variables once, and settle each that reads
settled ones only; gives those that still wait. -/
def settleRound (source : String) (a : Analysis) :
    List Global → Except Fault (List Global × Analysis)
  | [] => return ([], a)
  | g :: rest => do
    match ← g.readOrder a.program with
    | some order => settleRound source (← settle source a g (order + 1)) rest
    | none =>
      let (waiting, a) ← settleRound source a rest
      return (g :: waiting, a)

/-- Go through the waiting variables until a round settles none, at most
`rounds` times; gives those that are left over. -/
def settleRounds (source : String) : (rounds : Nat) → (a : Analysis) → (waiting : List Global) →
    Except Fault (List Global × Analysis)
  | 0, a, waiting => return (waiting, a)
  | rounds + 1, a, waiting => do
    let (left, a) ← settleRound source a waiting
    if left.length < waiting.length then settleRounds source rounds a left
    else return (left, a)

/-- A variable that reads its way into a cycle has no order, and no type
unless it is declared. -/
def reportCycle (source : String) (a : Analysis) (g : Global) : Except Fault Analysis := do
  let (_, a) ← typeExpr? source (← g.expected a.program) a g.init
  let a ← match g.init with
    | some e => a.raiseAt .cyclicInitializer e
    | none => pure a
  if g.declared then return a
  else return { a with program := ← a.program.setVariableType g.id .error }

/-- Settle the variables that the top-level statements declare. -/
def typeGlobals (source : String) (a : Analysis) (statements : List StmtId) :
    Except Fault Analysis := do
  let (globals, a) ← a.declareGlobals statements
  let (left, a) ← settleRounds source globals.length a globals
  left.foldlM (reportCycle source) a

/-! ## Statements -/

/-- What a loop over an expression of the kind runs through. -/
def iteratorType : ExprKind → Ty
  | .range _ _ => .int
  | .typeName (.enum e) => .enum e
  | _ => .error

/-- Record the types in a statement that has no body. -/
def typeLeaf (source : String) (a : Analysis) (s : StmtId) : Except Fault Analysis := do
  match (← a.program.stmts.get s).kind with
  | .variable v type init =>
    let (declared, a) ← a.typeNamed? type
    let (inferred, a) ← typeExpr? source declared a init
    let type := (declared <|> inferred).getD .error
    return { a with program := ← a.program.setVariableType v type }
  | .assign lhs rhs =>
    let (target, a) ← typeExpr source none a lhs
    return (← typeExpr source (some target) a rhs).2
  | .output value | .evaluate value | .returnValue (some value) =>
    return (← typeExpr source none a value).2
  | _ => return a

/-- Record the types in what stands before the body of a statement. -/
def typeHead (source : String) (a : Analysis) (s : StmtId) : Except Fault Analysis := do
  match (← a.program.stmts.get s).kind with
  | .nest (.ifThen condition) _ | .nest (.elseIf condition) _ | .nest (.whileDo condition) _ =>
    return (← typeExpr source (some .bool) a condition).2
  | .nest (.forEach iterator iterable) _ =>
    let (_, a) ← typeExpr source none a iterable
    let type := iteratorType (← a.program.exprs.get iterable).kind
    return { a with program := ← a.program.setVariableType iterator type }
  | _ => return a

/-- The variables of the top level are typed before its statements are. -/
def isGlobal (a : Analysis) (s : StmtId) : Except Fault Bool := do
  match (← a.program.stmts.get s).kind with
  | .variable _ _ _ => return true
  | _ => return false

/-- What is typed at the start of a block, which must have a scope: the
functions it declares, and at the top level its variables. -/
def enterBlock (source : String) (topLevel : Bool) (block : Block) (outline : Outline)
    (a : Analysis) : Except (Abort Halt) Analysis := do
  if block.symbolTable.isSentinel then
    throw (.error ⟨.invariant "type resolution"
      ("block at statement " ++ Nat.repr block.statements.start ++ " was never name-resolved"), a⟩)
  else
    let statements ← outline.direct
    let a ← a.typeSignatures statements
    if topLevel then typeGlobals source a statements else return a

/-- Record the types in the statements of a block. -/
def typeOutline (source : String) : (topLevel : Bool) → (outline : Outline) →
    (a : Analysis) → Except (Abort Halt) Analysis
  | _, .stuck fault, _ => throw (.fault fault)
  | _, .done, a => return a
  | topLevel, .leaf s rest, a => do
    -- entering the top level has typed its variables
    let settled ← a.isGlobal s
    let a ← if topLevel && settled then pure a else typeLeaf source a s
    typeOutline source topLevel rest a
  | topLevel, .nested s body rest, a => do
    let a ← typeHead source a s
    -- the scope is read off the program as it is, where names have been resolved
    let block := (← a.program.bodyOf s).getD .empty
    let a ← enterBlock source false block body a
    let a ← typeOutline source false body a
    typeOutline source topLevel rest a

/-- Give every declaration its type, and record that of every expression
in a statement. -/
def resolveTypes (a : Analysis) (source : String) : Except (Abort Halt) Analysis := do
  let outline := a.program.outline a.program.block
  let a ← enterBlock source true a.program.block outline a
  typeOutline source true outline a

end Analysis

end FrontEnd
