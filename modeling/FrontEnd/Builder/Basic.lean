import FrontEnd.Decimal.Style
import FrontEnd.Program.Block
/-!
# FrontEnd — building programs

A `Builder` makes a program node by node, in the order in which a parser
would, and writes a source to go with it: every name and literal is
appended to the source, and the node gets the span of what was written.
Statements land in one list as they are made, so that a block with a
body is opened before its statements and closed after them.
-/

namespace FrontEnd

/-- A body that is being built, and how many statements there were when
it was opened. -/
inductive OpenBody
  | function (f : FunctionId) (start : Nat)
  | nest (s : StmtId) (head : Head VariableId) (start : Nat)

/-- A program in the making, with its source. -/
structure Builder where
  program : Program := .empty
  source : String := ""
  /-- The bodies that are open, the innermost first. -/
  opened : List OpenBody := []

namespace Builder

/-- A builder that has made nothing yet. -/
def empty : Builder := {}

/-! ## The source -/

/-- The source as it stands before the next word: words are set apart by
a space, unless a line has just been started. -/
def separated (source : String) : String :=
  if source.isEmpty || source.endsWith "\n" then source else source ++ " "

/-- Append a word to the source; gives the span it covers. -/
def write (b : Builder) (word : String) : Span × Builder :=
  let source := separated b.source
  (⟨source.utf8ByteSize, word.utf8ByteSize⟩, { b with source := source ++ word })

/-- Append several words to the source, one after the other. -/
def writeAll (b : Builder) : List String → List Span × Builder
  | [] => ([], b)
  | word :: words =>
    let (span, b) := b.write word
    let (spans, b) := b.writeAll words
    (span :: spans, b)

/-- Start a new line of the source. -/
def newline (b : Builder) : Builder := { b with source := b.source ++ "\n" }

/-- Numbers are written in full from a ten-thousandth up to below ten
quadrillions, and with an exponent beyond. -/
def floatStyle : NumberStyle := ⟨-4, 15, "NaN", "inf"⟩

/-! ## Nodes -/

def spanOf (b : Builder) (e : ExprId) : Except Fault Span :=
  return (← b.program.exprs.get e).span

/-- The smallest span around a given one and those of some expressions. -/
def spanAround (b : Builder) (span : Span) (exprs : List ExprId) : Except Fault Span :=
  exprs.foldlM (fun span e => return span.merge (← b.spanOf e)) span

def addExpr (b : Builder) (kind : ExprKind) (span : Span) : ExprId × Builder :=
  let (e, program) := b.program.addExpr { kind, span }
  (e, { b with program })

def addStmt (b : Builder) (kind : StmtKind) (span : Span) : StmtId × Builder :=
  let (s, program) := b.program.addStmt { kind, span }
  (s, { b with program })

def addVariable (b : Builder) (name : Span) : VariableId × Builder :=
  let (v, program) := b.program.addVariable { name }
  (v, { b with program })

/-! ## Expressions -/

/-- A leaf that reads as what is written for it. -/
def leaf (b : Builder) (kind : ExprKind) (word : String) : ExprId × Builder :=
  let (span, b) := b.write word
  b.addExpr kind span

/-- A name that has not been resolved. -/
def identifier (b : Builder) (name : String) : ExprId × Builder := b.leaf .identifier name

def integer (b : Builder) (value : Int) : ExprId × Builder :=
  b.leaf (.integer value) (Int.repr value)

def float (b : Builder) (value : Binary64) : ExprId × Builder :=
  b.leaf (.float value) (floatStyle.write value)

def boolean (b : Builder) (value : Bool) : ExprId × Builder :=
  b.leaf (.boolean value) (if value then "true" else "false")

/-- A string literal. It is written in quotes and its span leaves them out. -/
def string (b : Builder) (contents : String) : ExprId × Builder :=
  let (quoted, b) := b.write ("\"" ++ contents ++ "\"")
  b.addExpr .string ⟨quoted.start + 1, quoted.len - 2⟩

def call (b : Builder) (callee : ExprId) (arguments : List ExprId) :
    Except Fault (ExprId × Builder) := do
  let span ← b.spanAround (← b.spanOf callee) arguments
  let (range, program) := b.program.addArguments arguments
  return { b with program }.addExpr (.call callee range) span

def field (b : Builder) (subject : ExprId) (name : String) : Except Fault (ExprId × Builder) := do
  let (name, b) := b.write name
  let span := (← b.spanOf subject).merge name
  return b.addExpr (.field subject name) span

def range (b : Builder) (first last : ExprId) : Except Fault (ExprId × Builder) := do
  let span ← b.spanAround (← b.spanOf first) [last]
  return b.addExpr (.range first last) span

def unary (b : Builder) (op : UnaryOp) (operand : ExprId) : Except Fault (ExprId × Builder) := do
  let (symbol, b) := b.write op.symbol
  let span ← b.spanAround symbol [operand]
  return b.addExpr (.unary op operand) span

/-- A binary operation. Its operator is not written. -/
def binary (b : Builder) (op : BinaryOp) (lhs rhs : ExprId) :
    Except Fault (ExprId × Builder) := do
  let span ← b.spanAround (← b.spanOf lhs) [rhs]
  return b.addExpr (.binary op lhs rhs) span

/-! ## Statements without a body -/

def declareVariable (b : Builder) (name : String) (type init : Option ExprId) :
    Except Fault (VariableId × Builder) := do
  let (name, b) := b.write name
  let (v, b) := b.addVariable name
  let span ← b.spanAround name (type.toList ++ init.toList)
  return (v, (b.addStmt (.variable v type init) span).2)

def assign (b : Builder) (lhs rhs : ExprId) : Except Fault (StmtId × Builder) := do
  let span ← b.spanAround (← b.spanOf lhs) [rhs]
  return b.addStmt (.assign lhs rhs) span

def output (b : Builder) (value : ExprId) : Except Fault (StmtId × Builder) := do
  return b.addStmt (.output value) (← b.spanOf value)

def evaluate (b : Builder) (value : ExprId) : Except Fault (StmtId × Builder) := do
  return b.addStmt (.evaluate value) (← b.spanOf value)

def returnValue (b : Builder) (value : Option ExprId) : Except Fault (StmtId × Builder) := do
  let (keyword, b) := b.write "return"
  let span ← b.spanAround keyword value.toList
  return b.addStmt (.returnValue value) span

def breakLoop (b : Builder) : StmtId × Builder :=
  let (span, b) := b.write "break"
  b.addStmt .breakLoop span

def enumType (b : Builder) (name : String) (values : List String) : EnumTypeId × Builder :=
  let (name, b) := b.write name
  let (values, b) := b.writeAll values
  let (e, program) := b.program.addEnumType name (values.map EnumValue.mk)
  (e, ({ b with program }.addStmt (.enumType e) name).2)

def structType (b : Builder) (name : String) : StructTypeId × Builder :=
  let (name, b) := b.write name
  let (s, program) := b.program.addStructType { name }
  (s, ({ b with program }.addStmt (.structType s) name).2)

/-! ## Bodies -/

/-- Declare a function and open its body. -/
def openFunction (b : Builder) (name : String) (parameters : List (String × Option ExprId))
    (returnTypeExpr : Option ExprId) : Except Fault Builder := do
  let (name, b) := b.write name
  let (names, b) := b.writeAll (parameters.map (·.1))
  let records := names.zipWith (fun name (_, typeExpr) => { name, typeExpr }) parameters
  let (parameters, program) := b.program.addParameters records
  let b := { b with program }
  let span ← b.spanAround name returnTypeExpr.toList
  let (f, program) := b.program.addFunction { name, span, returnTypeExpr, parameters }
  let (_, b) := { b with program }.addStmt (.function f) name
  return { b with opened := .function f b.program.stmts.size :: b.opened }

/-- Append a statement and open its body. -/
def openNest (b : Builder) (head : Head VariableId) (span : Span) : Builder :=
  -- the statement is given its kind when `close` knows how long the body is
  let (s, b) := b.addStmt .invalid span
  { b with opened := .nest s head b.program.stmts.size :: b.opened }

/-- Append a statement that starts with the given head and open its
body. The iterator of a loop is made from its name. -/
def openBody (b : Builder) : Head String → Except Fault Builder
  | .bare =>
    let (span, b) := b.write "\x7b"
    return b.openNest .bare span
  | .elseThen =>
    let (span, b) := b.write "else"
    return b.openNest .elseThen span
  | .loop =>
    let (span, b) := b.write "loop"
    return b.openNest .loop span
  | .ifThen condition => return b.openNest (.ifThen condition) (← b.spanOf condition)
  | .elseIf condition => return b.openNest (.elseIf condition) (← b.spanOf condition)
  | .whileDo condition => return b.openNest (.whileDo condition) (← b.spanOf condition)
  | .forEach iterator iterable => do
    let (name, b) := b.write iterator
    let (v, b) := b.addVariable name
    return b.openNest (.forEach v iterable) (← b.spanAround name [iterable])

/-- Close the innermost body: it holds every statement made since it was
opened. Gives what was closed; at the top level nothing is. -/
def close (b : Builder) : Option OpenBody × Builder :=
  match b.opened with
  | [] => (none, b)
  | body :: opened =>
    let program := match body with
      | .function f start =>
        let block := b.program.blockSince start
        { b.program with
          functions := b.program.functions.modify f ({ · with body := block }) }
      | .nest s head start =>
        let block := b.program.blockSince start
        { b.program with
          stmts := b.program.stmts.modify s ({ · with kind := .nest head block }) }
    (some body, { b with program, opened })

/-- The finished program: its top level holds every statement. -/
def finish (b : Builder) : Program := { b.program with block := b.program.blockSince 0 }

end Builder

end FrontEnd
