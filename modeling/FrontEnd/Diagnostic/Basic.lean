import FrontEnd.Diagnostic.Code
import FrontEnd.Source.LineTable
import FrontEnd.Source.Span
/-!
# FrontEnd — diagnostics

A `Diagnostic` reports one thing that is wrong with a program: its code,
the span it is about, and a message. Line and column are filled in once
all diagnostics are known; they are 0 until then.
-/

namespace FrontEnd

structure Diagnostic where
  code : Code
  span : Span
  message : String
  line : Nat := 0
  column : Nat := 0
deriving DecidableEq

namespace Diagnostic

/-- A diagnostic with the message of its code. -/
def ofCode (code : Code) (span : Span) : Diagnostic := { code, span, message := code.description }

def hasPosition (d : Diagnostic) : Bool := d.line != 0

/-- What two diagnostics share that report the same. -/
def key (d : Diagnostic) : Code × Span := (d.code, d.span)

/-- Fill in where the span starts in the source. -/
def locate (d : Diagnostic) (table : LineTable) (source : String) : Diagnostic :=
  let position := table.position source d.span.start
  { d with line := position.line, column := position.column }

/-- The diagnostic in one line, with its position once that is known. -/
def text (d : Diagnostic) : String :=
  let place :=
    if d.hasPosition then " at " ++ Nat.repr d.line ++ ":" ++ Nat.repr d.column else ""
  "error[" ++ d.code.text ++ "]" ++ place ++ ": " ++ d.message

end Diagnostic

end FrontEnd
