import FrontEnd.Analysis.Check
import FrontEnd.Analysis.Names
import FrontEnd.Analysis.Types
/-!
# FrontEnd — compilation

All passes in order: the layout is validated, `main` is looked for,
names and then types are resolved, and the result is checked. What comes
out is the program with all that was found out about it, and the
diagnostics with their positions.
-/

namespace FrontEnd

namespace Program

/-- The first function that is called `main`. -/
def findMain (p : Program) (source : String) : Option FunctionId :=
  (p.functions.enumerate.find? fun (_, f) => f.name.read source == "main").map (·.1)

end Program

namespace Analysis

/-- The analysis of a program before anything is known about it. -/
def start (config : QueueConfig) (program : Program) : Analysis :=
  ⟨program, Queue.ofConfig config⟩

/-- Look for `main`, once for a program. A program without one gets a
diagnostic that has no place in the source. -/
def determineMain (a : Analysis) (source : String) : Analysis :=
  if a.program.mainSearched then a
  else
    let program := { a.program with mainSearched := true }
    match program.findMain source with
    | some f => { a with program := { program with main := some f } }
    | none => ({ a with program }.raise .noMain .zero).2

/-- Resolve all names in the program. -/
def resolveNames (a : Analysis) (source : String) : Except (Abort Halt) Analysis :=
  match a.program.bindNames source with
  | .ok program => .ok { a with program }
  | .error abort => .error (abort.mapError (⟨·, a⟩))

/-- Resolve the names and types of a program, after its layout has been
found good. -/
def resolve (a : Analysis) (source : String) : Except (Abort Halt) Analysis := do
  match a.program.validate with
  | .ok () => (← (a.determineMain source).resolveNames source).resolveTypes source
  | .error abort => throw (abort.mapError (⟨.layout ·, a⟩))

end Analysis

/-- A compiled program, and what is wrong with it. -/
structure Compilation where
  program : Program
  diagnostics : List Diagnostic

namespace Compilation

/-- Nothing is wrong with the program. -/
def isOk (c : Compilation) : Bool := c.diagnostics.isEmpty

/-- The diagnostics, one a line. -/
def render (c : Compilation) : String := String.join (c.diagnostics.map (·.text ++ "\n"))

end Compilation

/-- Compile a program whose spans are spans of `source`. -/
def Program.compile (p : Program) (config : QueueConfig) (source : String) :
    Except (Abort InternalError) Compilation := do
  match (Analysis.start config p).resolve source with
  | .ok a =>
    let a ← a.check
    return ⟨a.program, a.queue.finish source⟩
  | .error abort => throw (abort.mapError Halt.error)

end FrontEnd
