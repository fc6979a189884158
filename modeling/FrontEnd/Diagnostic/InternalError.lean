import FrontEnd.Diagnostic.Code
import FrontEnd.Program.Layout
/-!
# FrontEnd — internal errors

A compilation that cannot be carried through ends in an `InternalError`.
The program being compiled is never at fault for one.
-/

namespace FrontEnd

inductive InternalError
  /-- The program does not have the layout the passes take for granted. -/
  | layout (error : LayoutError)
  /-- A pass found something that an earlier one should have seen to. -/
  | invariant (pass detail : String)
deriving DecidableEq

namespace InternalError

/-- Every internal error carries the same code. -/
def code (_ : InternalError) : Code := .internal

/-- The error in words, and whose fault it is. -/
def message (e : InternalError) : String :=
  let cause := match e with
    | layout error => ": malformed program: " ++ error.message
    | invariant pass detail => " in " ++ pass ++ ": " ++ detail
  "internal compiler error [" ++ e.code.text ++ "]" ++ cause ++
    "\nThis is a bug in the Rhino compiler, not a problem with the program being compiled."

end InternalError

end FrontEnd
