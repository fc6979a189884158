/-!
# FrontEnd — typed ids and id ranges

Every cross-reference of a program is an index into the table of one
kind of record. The kind is part of the id's type, so an expression is
never looked up among the statements. An `IdRange` is a contiguous run
of ids: a call's arguments, a function's parameters, an enum's values,
a block's statements.
-/

namespace FrontEnd

/-- The kinds of record a program holds, one table each. -/
inductive RecordKind
  | expr
  | argument
  | stmt
  | function
  | parameter
  | variable
  | enumType
  | enumValue
  | structType
  | symbolTable
deriving DecidableEq

/-- Every kind, in the order of their declaration. -/
def RecordKind.all : List RecordKind :=
  [.expr, .argument, .stmt, .function, .parameter, .variable, .enumType, .enumValue,
    .structType, .symbolTable]

/-- The name under which ids of the kind are printed. -/
def RecordKind.label : RecordKind → String
  | .expr => "ExprId"
  | .argument => "ArgId"
  | .stmt => "StmtId"
  | .function => "FunctionId"
  | .parameter => "ParamId"
  | .variable => "VariableId"
  | .enumType => "EnumTypeId"
  | .enumValue => "EnumValueId"
  | .structType => "StructTypeId"
  | .symbolTable => "SymbolTableId"

/-- An index into the table of records of kind `k`. -/
structure RecordId (k : RecordKind) where
  raw : Nat
deriving DecidableEq

abbrev ExprId := RecordId .expr
abbrev ArgumentId := RecordId .argument
abbrev StmtId := RecordId .stmt
abbrev FunctionId := RecordId .function
abbrev ParameterId := RecordId .parameter
abbrev VariableId := RecordId .variable
abbrev EnumTypeId := RecordId .enumType
abbrev EnumValueId := RecordId .enumValue
abbrev StructTypeId := RecordId .structType
abbrev SymbolTableId := RecordId .symbolTable

variable {k : RecordKind}

/-- The printed form of an id: its label and its index. -/
def RecordId.text (i : RecordId k) : String := k.label ++ "(" ++ Nat.repr i.raw ++ ")"

namespace RecordId

/-- The symbol table every program holds first. A link to it ends a
chain, and a block whose table it is has not been given a scope. -/
def sentinel : SymbolTableId := ⟨0⟩

def isSentinel (t : SymbolTableId) : Bool := t.raw == 0

end RecordId

/-- A contiguous run of `len` ids from `start` on. -/
structure IdRange (k : RecordKind) where
  start : Nat
  len : Nat
deriving DecidableEq

namespace IdRange

/-- The range that holds no id. -/
def empty : IdRange k := ⟨0, 0⟩

/-- The ids from `first` up to, and without, `stop`. -/
def between (first stop : RecordId k) : IdRange k := ⟨first.raw, stop.raw - first.raw⟩

/-- The first index after the range. -/
def stop (r : IdRange k) : Nat := r.start + r.len

def isEmpty (r : IdRange k) : Bool := r.len == 0

/-- The first id, of a range that holds any. -/
def first? (r : IdRange k) : Option (RecordId k) := if r.isEmpty then none else some ⟨r.start⟩

def contains (r : IdRange k) (i : RecordId k) : Bool :=
  decide (r.start ≤ i.raw) && decide (i.raw < r.stop)

/-- The ids of the range in increasing order. -/
def ids (r : IdRange k) : List (RecordId k) := (List.range' r.start r.len).map RecordId.mk

theorem mem_ids {r : IdRange k} {i : RecordId k} : i ∈ r.ids ↔ r.start ≤ i.raw ∧ i.raw < r.stop := by
  cases i with | mk i => simp [ids, stop, List.mem_range'_1]

/-- The printed form of a range: its start and its length. -/
def text (r : IdRange k) : String :=
  "[" ++ Nat.repr r.start ++ "; " ++ Nat.repr r.len ++ "]"

end IdRange

end FrontEnd
