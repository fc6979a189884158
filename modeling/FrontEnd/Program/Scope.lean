import FrontEnd.Program.Basic
/-!
# FrontEnd — scopes

Declaring a name in a scope and looking one up. A scope is addressed by
the first of its tables. When the last of them is full, a new table is
put in right behind it, ahead of the enclosing scope, so a lookup sees
the whole of a scope before what is around it, and ids that scopes
inside hold on to stay good.
-/

namespace FrontEnd

namespace Program

/-- The last table of the scope that starts at `table`, reached within
`fuel` links. -/
def lastTableWithin (p : Program) : (fuel : Nat) → (table : SymbolTableId) →
    Except Fault SymbolTableId
  | 0, _ => .error .endless
  | fuel + 1, table => do
    let next := (← p.symbolTables.get table).next
    if next.isSentinel then return table
    else if (← p.symbolTables.get next).isContinuation then p.lastTableWithin fuel next
    else return table

/-- The last table of the scope that starts at `table`. -/
def lastTable (p : Program) (table : SymbolTableId) : Except Fault SymbolTableId :=
  p.lastTableWithin (p.symbolTables.size + 1) table

/-- Put an empty table in behind `table`, as the overflow of its scope. -/
def overflow (p : Program) (table : SymbolTableId) : Except Fault (SymbolTableId × Program) := do
  let parent := (← p.symbolTables.get table).next
  let fresh : SymbolTable := { next := parent, isContinuation := true }
  let tables := p.symbolTables.push fresh
  return (p.symbolTables.nextId,
    { p with symbolTables := tables.modify table ({ · with next := p.symbolTables.nextId }) })

/-- Append a symbol to a table. -/
def addSymbol (p : Program) (table : SymbolTableId) (symbol : Symbol) : Program :=
  { p with
    symbolTables := p.symbolTables.modify table fun t =>
      { t with symbols := t.symbols.push symbol } }

/-- Add a symbol to the scope that starts at `table`. -/
def declare (p : Program) (table : SymbolTableId) (symbol : Symbol) : Except Fault Program := do
  let last ← p.lastTable table
  if (← p.symbolTables.get last).isFull then
    let (fresh, p) ← p.overflow last
    return p.addSymbol fresh symbol
  else return p.addSymbol last symbol

end Program

/-- What a lookup came by: the symbols it passed over, and the first one
that matches. -/
structure Lookup where
  passed : List Symbol
  found : Option Symbol

/-- The first of some symbols that matches, and those before it. -/
def Lookup.among (wanted : Span → Bool) (symbols : List Symbol) : Lookup :=
  let (passed, rest) := symbols.span fun s => !wanted s.name
  ⟨passed, rest.head?⟩

/-- Every name the lookup read, in order. -/
def Lookup.names (l : Lookup) : List Span := (l.passed ++ l.found.toList).map (·.name)

namespace Program

/-- Look through the tables from `table` on, along at most `fuel` links. -/
def lookupWithin (p : Program) (wanted : Span → Bool) : (fuel : Nat) →
    (table : SymbolTableId) → Except Fault Lookup
  | 0, _ => .error .endless
  | fuel + 1, table => do
    if table.isSentinel then return ⟨[], none⟩
    else
      let t ← p.symbolTables.get table
      let here := Lookup.among wanted t.symbols.toList
      match here.found with
      | some _ => return here
      | none =>
        let there ← p.lookupWithin wanted fuel t.next
        return ⟨here.passed ++ there.passed, there.found⟩

/-- Look through the scope that starts at `table` and then through those
around it. -/
def lookup (p : Program) (table : SymbolTableId) (wanted : Span → Bool) : Except Fault Lookup :=
  p.lookupWithin wanted (p.symbolTables.size + 1) table

/-- The first symbol that matches, the innermost scope first. -/
def findSymbol (p : Program) (table : SymbolTableId) (wanted : Span → Bool) :
    Except Fault (Option Symbol) := do
  return (← p.lookup table wanted).found

end Program

end FrontEnd
