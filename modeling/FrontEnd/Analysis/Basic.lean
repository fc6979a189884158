import FrontEnd.Diagnostic.InternalError
import FrontEnd.Diagnostic.Queue
import FrontEnd.Program.TypeOf
/-!
# FrontEnd — analyses

An `Analysis` is a program together with the diagnostics reported about
it so far. The passes take one and give one. A diagnostic about an
expression flags it, if the queue keeps the diagnostic, and a flagged
expression is not reported again.
-/

namespace FrontEnd

structure Analysis where
  program : Program
  queue : Queue

/-- An internal error, and how far the analysis had got by then. -/
structure Halt where
  error : InternalError
  reached : Analysis

namespace Program

/-- The expression becomes one of another kind. -/
def setKind (p : Program) (e : ExprId) (kind : ExprKind) : Program :=
  { p with exprs := p.exprs.modify e ({ · with kind }) }

/-- Record the type of an expression. -/
def setExprType (p : Program) (e : ExprId) (type : Ty) : Program :=
  { p with exprs := p.exprs.modify e ({ · with type }) }

/-- A diagnostic has been kept for the expression. -/
def flag (p : Program) (e : ExprId) : Program :=
  { p with exprs := p.exprs.modify e ({ · with flagged := true }) }

end Program

namespace Analysis

/-- Report a code at a span. -/
def raise (a : Analysis) (code : Code) (span : Span) : Bool × Analysis :=
  let (kept, queue) := a.queue.raise code span
  (kept, { a with queue })

/-- Report a diagnostic on account of an expression, unless the
expression is flagged already. -/
def report (a : Analysis) (e : ExprId) (d : Diagnostic) : Except Fault Analysis := do
  if (← a.program.exprs.get e).flagged then return a
  else
    let (kept, queue) := a.queue.push d
    return ⟨if kept then a.program.flag e else a.program, queue⟩

/-- Report a code at an expression, unless it is flagged already. -/
def raiseAt (a : Analysis) (code : Code) (e : ExprId) : Except Fault Analysis := do
  a.report e (.ofCode code (← a.program.exprs.get e).span)

end Analysis

end FrontEnd
