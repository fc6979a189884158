import FrontEnd.Builder.Step
import FrontEnd.Proofs.Outcome
/-!
# FrontEnd — what a step of a builder does

A step that succeeds has found the spans of the expressions that it was
given, and has then made one change to the builder (`Builder.Takes`).
What the steps keep is proved by cases of this relation, so that only
`takes_of_take` looks into how they go about it.
-/

namespace FrontEnd

/-- What a step that succeeds hands back, and what it makes of the
builder. -/
inductive Builder.Takes (b : Builder) : Step → Option Made → Builder → Prop
  | identifier (name : String) :
      Takes b (.identifier name) (some (.expr (b.identifier name).1)) (b.identifier name).2
  | integer (value : Int) :
      Takes b (.integer value) (some (.expr (b.integer value).1)) (b.integer value).2
  | float (value : Binary64) :
      Takes b (.float value) (some (.expr (b.float value).1)) (b.float value).2
  | boolean (value : Bool) :
      Takes b (.boolean value) (some (.expr (b.boolean value).1)) (b.boolean value).2
  | string (contents : String) :
      Takes b (.string contents) (some (.expr (b.string contents).1)) (b.string contents).2
  /-- The arguments are recorded ahead of the call. -/
  | call {callee : ExprId} {arguments : List ExprId} {start span : Span}
      (hstart : b.spanOf callee = .ok start) (hspan : b.spanAround start arguments = .ok span) :
      Takes b (.call callee arguments) (some (.expr b.program.exprs.nextId))
        ({ b with program := (b.program.addArguments arguments).2 }.addExpr
          (.call callee (b.program.addArguments arguments).1) span).2
  | field {subject : ExprId} {name : String} {span : Span} (hspan : b.spanOf subject = .ok span) :
      Takes b (.field subject name) (some (.expr b.program.exprs.nextId))
        ((b.write name).2.addExpr (.field subject (b.write name).1) (span.merge (b.write name).1)).2
  | range {first last : ExprId} {start span : Span} (hstart : b.spanOf first = .ok start)
      (hspan : b.spanAround start [last] = .ok span) :
      Takes b (.range first last) (some (.expr b.program.exprs.nextId))
        (b.addExpr (.range first last) span).2
  | unary {op : UnaryOp} {operand : ExprId} {span : Span}
      (hspan : (b.write op.symbol).2.spanAround (b.write op.symbol).1 [operand] = .ok span) :
      Takes b (.unary op operand) (some (.expr b.program.exprs.nextId))
        ((b.write op.symbol).2.addExpr (.unary op operand) span).2
  | binary {op : BinaryOp} {lhs rhs : ExprId} {start span : Span}
      (hstart : b.spanOf lhs = .ok start) (hspan : b.spanAround start [rhs] = .ok span) :
      Takes b (.binary op lhs rhs) (some (.expr b.program.exprs.nextId))
        (b.addExpr (.binary op lhs rhs) span).2
  | «variable» {name : String} {type init : Option ExprId} {span : Span}
      (hspan : (b.write name).2.spanAround (b.write name).1 (type.toList ++ init.toList) = .ok span) :
      Takes b (.variable name type init) (some (.variable b.program.vars.nextId))
        (((b.write name).2.addVariable (b.write name).1).2.addStmt
          (.variable b.program.vars.nextId type init) span).2
  | assign {lhs rhs : ExprId} {start span : Span} (hstart : b.spanOf lhs = .ok start)
      (hspan : b.spanAround start [rhs] = .ok span) :
      Takes b (.assign lhs rhs) (some (.stmt b.program.stmts.nextId))
        (b.addStmt (.assign lhs rhs) span).2
  | output {value : ExprId} {span : Span} (hspan : b.spanOf value = .ok span) :
      Takes b (.output value) (some (.stmt b.program.stmts.nextId)) (b.addStmt (.output value) span).2
  | evaluate {value : ExprId} {span : Span} (hspan : b.spanOf value = .ok span) :
      Takes b (.evaluate value) (some (.stmt b.program.stmts.nextId))
        (b.addStmt (.evaluate value) span).2
  | returnValue {value : Option ExprId} {span : Span}
      (hspan : (b.write "return").2.spanAround (b.write "return").1 value.toList = .ok span) :
      Takes b (.returnValue value) (some (.stmt b.program.stmts.nextId))
        ((b.write "return").2.addStmt (.returnValue value) span).2
  | breakLoop : Takes b .breakLoop (some (.stmt b.breakLoop.1)) b.breakLoop.2
  | enumType (name : String) (values : List String) :
      Takes b (.enumType name values) (some (.enumType (b.enumType name values).1))
        (b.enumType name values).2
  | structType (name : String) :
      Takes b (.structType name) (some (.structType (b.structType name).1)) (b.structType name).2
  | openFunction {name : String} {parameters : List (String × Option ExprId)}
      {returnType : Option ExprId} {b' : Builder}
      (opens : b.openFunction name parameters returnType = .ok b') :
      Takes b (.openFunction name parameters returnType) none b'
  | openBody {head : Head String} {b' : Builder} (opens : b.openBody head = .ok b') :
      Takes b (.openBody head) none b'
  | close : Takes b .close (b.close.1.map OpenBody.made) b.close.2
  | word (text : String) : Takes b (.word text) (some (.word (b.write text).1)) (b.write text).2
  | newline : Takes b .newline (some .newline) b.newline

variable {b b' : Builder} {step : Step} {made : Option Made}

/-- **A step does one of these things when it succeeds.** -/
theorem takes_of_take (h : b.take step = .ok (made, b')) : b.Takes step made b' := by
  cases step with
  | call | range | binary | assign =>
    -- what is made spans its first expression and others
    obtain ⟨⟨_, _⟩, hmake, h⟩ := bind_eq_ok.1 h
    cases pure_eq_ok.1 h
    obtain ⟨start, hstart, hmake⟩ := bind_eq_ok.1 hmake
    obtain ⟨span, hspan, hmake⟩ := bind_eq_ok.1 hmake
    cases pure_eq_ok.1 hmake
    constructor
    · exact hstart
    · exact hspan
  | field | unary | «variable» | output | evaluate | returnValue =>
    obtain ⟨⟨_, _⟩, hmake, h⟩ := bind_eq_ok.1 h
    cases pure_eq_ok.1 h
    obtain ⟨span, hspan, hmake⟩ := bind_eq_ok.1 hmake
    cases pure_eq_ok.1 hmake
    constructor
    exact hspan
  | openFunction | openBody =>
    obtain ⟨b₁, opens, h⟩ := bind_eq_ok.1 h
    cases pure_eq_ok.1 h
    constructor
    exact opens
  | _ =>
    cases pure_eq_ok.1 h
    constructor

end FrontEnd
