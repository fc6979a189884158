/-!
# FrontEnd — faults

An operation on a program can fail to answer for a reason that is no
diagnostic of the program being compiled: it looked up an id that its
table does not hold, or it followed references in a circle. `Fault`
names the two. `Abort` adds an ordinary error to them, for operations
that may also refuse with a reason of their own.
-/

namespace FrontEnd

/-- Why an operation could not answer at all. -/
inductive Fault
  /-- An id refers past the end of its table. -/
  | outOfRange
  /-- A walk along references came back to where it had been. -/
  | endless
deriving DecidableEq

/-- Why an operation that may also refuse with an error of type `ε`
did not succeed. -/
inductive Abort (ε : Type)
  | fault (fault : Fault)
  | error (error : ε)
deriving DecidableEq

/-- A step that can only fault may stand where an error is possible too. -/
instance {ε : Type} : MonadLift (Except Fault) (Except (Abort ε)) where
  monadLift := fun step => step.mapError Abort.fault

namespace Abort

variable {ε ε' : Type}

/-- Restate the error, and leave a fault as it is. -/
def mapError (f : ε → ε') : Abort ε → Abort ε'
  | fault f => fault f
  | error e => error (f e)

end Abort

end FrontEnd
