import FrontEnd.Diagnostic.Basic
/-!
# FrontEnd — the diagnostic queue

A `Queue` keeps the diagnostics reported so far in the order of their
report. It refuses one that reports the same as one it holds, when it
is told to, and all of them once it holds as many as it is allowed to.
-/

namespace FrontEnd

/-- What a queue refuses. -/
structure QueueConfig where
  /-- How many diagnostics are kept; all of them when 0. -/
  errorLimit : Nat := 0
  /-- Refuse a diagnostic with the code and span of one that is held. -/
  deduplicate : Bool := true
deriving DecidableEq

/-- The configuration that refuses nothing. -/
def QueueConfig.unlimited : QueueConfig := { deduplicate := false }

structure Queue where
  config : QueueConfig := {}
  diagnostics : List Diagnostic := []
  /-- How many diagnostics came when no more were allowed. -/
  dropped : Nat := 0

namespace Queue

/-- A queue that holds nothing yet. -/
def ofConfig (config : QueueConfig) : Queue := { config }

def size (q : Queue) : Nat := q.diagnostics.length

def isEmpty (q : Queue) : Bool := q.diagnostics.isEmpty

/-- Every diagnostic is an error. -/
def hasErrors (q : Queue) : Bool := !q.isEmpty

/-- The queue holds as many diagnostics as it may. -/
def limitReached (q : Queue) : Bool :=
  decide (0 < q.config.errorLimit) && decide (q.config.errorLimit ≤ q.size)

/-- The queue holds a diagnostic that reports the same. -/
def holds (q : Queue) (d : Diagnostic) : Bool := q.diagnostics.any (·.key == d.key)

/-- Report a diagnostic; says whether it was kept. -/
def push (q : Queue) (d : Diagnostic) : Bool × Queue :=
  -- the limit comes first: past it, one that is held already is dropped as well
  if q.limitReached then (false, { q with dropped := q.dropped + 1 })
  else if q.config.deduplicate && q.holds d then (false, q)
  else (true, { q with diagnostics := q.diagnostics ++ [d] })

/-- Report a code at a span, with the code's own message. -/
def raise (q : Queue) (code : Code) (span : Span) : Bool × Queue := q.push (.ofCode code span)

/-- How many diagnostics carry the code. -/
def count (q : Queue) (code : Code) : Nat := q.diagnostics.countP (·.code == code)

/-- Fill in the positions of all diagnostics. -/
def annotate (q : Queue) (source : String) : Queue :=
  let table := LineTable.ofText source
  { q with diagnostics := q.diagnostics.map (·.locate table source) }

/-- Take all diagnostics out, in the order of their report. -/
def flush (q : Queue) : List Diagnostic × Queue := (q.diagnostics, { q with diagnostics := [] })

/-- All diagnostics with their positions. -/
def finish (q : Queue) (source : String) : List Diagnostic := (q.annotate source).flush.1

end Queue

end FrontEnd
