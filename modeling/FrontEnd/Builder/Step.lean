import FrontEnd.Builder.Basic
/-!
# FrontEnd — building step by step

A `Step` is one thing a builder can be told to do. A program is built by
a list of them: a step that opens a body is followed by those of the
body and a `close`, and bodies still open in the end are closed then.
-/

namespace FrontEnd

inductive Step
  | identifier (name : String)
  | integer (value : Int)
  | float (value : Binary64)
  | boolean (value : Bool)
  | string (contents : String)
  | call (callee : ExprId) (arguments : List ExprId)
  | field (subject : ExprId) (name : String)
  | range (first last : ExprId)
  | unary (op : UnaryOp) (operand : ExprId)
  | binary (op : BinaryOp) (lhs rhs : ExprId)
  | variable (name : String) (type init : Option ExprId)
  | assign (lhs rhs : ExprId)
  | output (value : ExprId)
  | evaluate (value : ExprId)
  | returnValue (value : Option ExprId)
  | breakLoop
  | enumType (name : String) (values : List String)
  | structType (name : String)
  | openFunction (name : String) (parameters : List (String × Option ExprId))
      (returnType : Option ExprId)
  | openBody (head : Head String)
  | close
  | word (text : String)
  | newline
deriving DecidableEq

/-- What a step made. -/
inductive Made
  | expr (e : ExprId)
  | stmt (s : StmtId)
  | variable (v : VariableId)
  | function (f : FunctionId)
  | enumType (e : EnumTypeId)
  | structType (s : StructTypeId)
  | word (span : Span)
  | newline
deriving DecidableEq

/-- What is made once a body is closed: the function, the iterator of a
loop over values, or else the statement. -/
def OpenBody.made : OpenBody → Made
  | .function f _ => .function f
  | .nest _ (.forEach iterator _) _ => .variable iterator
  | .nest s _ _ => .stmt s

namespace Builder

/-- Take a step. A step that opens a body makes nothing until the body
is closed, and closing at the top level makes nothing. -/
def take (b : Builder) : Step → Except Fault (Option Made × Builder)
  | .identifier name => return (b.identifier name).map (some ∘ .expr) id
  | .integer value => return (b.integer value).map (some ∘ .expr) id
  | .float value => return (b.float value).map (some ∘ .expr) id
  | .boolean value => return (b.boolean value).map (some ∘ .expr) id
  | .string contents => return (b.string contents).map (some ∘ .expr) id
  | .call callee arguments => return (← b.call callee arguments).map (some ∘ .expr) id
  | .field subject name => return (← b.field subject name).map (some ∘ .expr) id
  | .range first last => return (← b.range first last).map (some ∘ .expr) id
  | .unary op operand => return (← b.unary op operand).map (some ∘ .expr) id
  | .binary op lhs rhs => return (← b.binary op lhs rhs).map (some ∘ .expr) id
  | .variable name type init => return (← b.declareVariable name type init).map (some ∘ .variable) id
  | .assign lhs rhs => return (← b.assign lhs rhs).map (some ∘ .stmt) id
  | .output value => return (← b.output value).map (some ∘ .stmt) id
  | .evaluate value => return (← b.evaluate value).map (some ∘ .stmt) id
  | .returnValue value => return (← b.returnValue value).map (some ∘ .stmt) id
  | .breakLoop => return b.breakLoop.map (some ∘ .stmt) id
  | .enumType name values => return (b.enumType name values).map (some ∘ .enumType) id
  | .structType name => return (b.structType name).map (some ∘ .structType) id
  | .openFunction name parameters returnType =>
    return (none, ← b.openFunction name parameters returnType)
  | .openBody head => return (none, ← b.openBody head)
  | .close => return b.close.map (·.map OpenBody.made) id
  | .word text => return (b.write text).map (some ∘ .word) id
  | .newline => return (some .newline, b.newline)

/-- Close every body that is still open; gives what that makes. -/
def closeAll (b : Builder) : List Made × Builder :=
  b.opened.foldl (fun (made, b) _ =>
    let (body, b) := b.close
    (made ++ (body.map OpenBody.made).toList, b)) ([], b)

/-- Take steps one after the other. -/
def takeAll (b : Builder) (steps : List Step) : Except Fault Builder :=
  steps.foldlM (fun b step => return (← b.take step).2) b

end Builder

/-- The program that a list of steps builds, and its source. -/
def Program.build (steps : List Step) : Except Fault (Program × String) := do
  let b := (← Builder.empty.takeAll steps).closeAll.2
  return (b.finish, b.source)

end FrontEnd
