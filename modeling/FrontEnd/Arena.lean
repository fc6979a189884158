import FrontEnd.Fault
import FrontEnd.RecordId
/-!
# FrontEnd — bucketed arenas

An `Arena` keeps records in buckets of a fixed capacity, so that a
record never moves once it is appended: when the last bucket is full
the next record opens a new one. Indexing splits an id into a bucket
and a place in it; `toList` is the plain list the buckets stand for.
-/

namespace FrontEnd

/-- The size of one bucket in bytes. -/
def bucketBytes : Nat := 16 * 1024

/-- How many records of the given size fit a bucket. Records without
size are counted as if they took one byte. -/
def bucketCapacity (recordBytes : Nat) : Nat :=
  if recordBytes = 0 then bucketBytes else bucketBytes / recordBytes

/-- The records of kind `k`, in buckets of `capacity` records each. -/
structure Arena (k : RecordKind) (α : Type) where
  capacity : Nat
  buckets : Array (Array α) := #[]
  /-- The number of records over all buckets. -/
  size : Nat := 0

namespace Arena

variable {k : RecordKind} {α : Type}

/-- An arena without records, for records of the given size. -/
def empty (recordBytes : Nat) : Arena k α := { capacity := bucketCapacity recordBytes }

/-- Every record, bucket after bucket. -/
def toList (a : Arena k α) : List α := a.buckets.toList.flatMap Array.toList

def bucketCount (a : Arena k α) : Nat := a.buckets.size

/-- The id the next record will get. -/
def nextId (a : Arena k α) : RecordId k := ⟨a.size⟩

def isEmpty (a : Arena k α) : Bool := a.size == 0

def contains (a : Arena k α) (i : RecordId k) : Bool := decide (i.raw < a.size)

/-- No bucket has room for another record. -/
def isFull (a : Arena k α) : Bool :=
  match a.buckets.back? with
  | none => true
  | some bucket => bucket.size == a.capacity

/-- Append a record to the last bucket, or to a new one when that is full. -/
def push (a : Arena k α) (record : α) : Arena k α :=
  if a.isFull then
    { a with buckets := a.buckets.push #[record], size := a.size + 1 }
  else
    { a with
      buckets := a.buckets.modify (a.buckets.size - 1) (Array.push · record)
      size := a.size + 1 }

/-- The record under `i`: the quotient by the capacity names the bucket
and the remainder the place in it. -/
def get? (a : Arena k α) (i : RecordId k) : Option α := do
  let bucket ← a.buckets[i.raw / a.capacity]?
  bucket[i.raw % a.capacity]?

/-- The record under `i`, which the arena must hold. -/
def get (a : Arena k α) (i : RecordId k) : Except Fault α :=
  match a.get? i with
  | some record => .ok record
  | none => .error .outOfRange

/-- Overwrite the record under `i`, which the arena must hold. -/
def set (a : Arena k α) (i : RecordId k) (record : α) : Except Fault (Arena k α) :=
  match a.get? i with
  | some _ =>
    .ok { a with
      buckets := a.buckets.modify (i.raw / a.capacity)
        (Array.modify · (i.raw % a.capacity) fun _ => record) }
  | none => .error .outOfRange

/-- Append a default record, to be filled in later; gives its id, and the
record as it is read under it. -/
def append [Inhabited α] (a : Arena k α) : Except Fault ((RecordId k × α) × Arena k α) := do
  let i := a.nextId
  let a := a.push default
  return ((i, ← a.get i), a)

/-- A copy with buckets of its own, which have room for as much. -/
def clone (a : Arena k α) : Arena k α :=
  { a with buckets := a.buckets.map fun bucket => Array.emptyWithCapacity a.capacity ++ bucket }

/-- Every id with its record. -/
def enumerate (a : Arena k α) : List (RecordId k × α) :=
  ((IdRange.mk 0 a.size).ids).zip a.toList

/-- The records of a range with their ids. An empty range reads nothing,
wherever it starts. -/
def slice (a : Arena k α) (r : IdRange k) : Except Fault (List (RecordId k × α)) :=
  if r.isEmpty then .ok []
  else if r.stop ≤ a.size then
    r.ids.mapM fun i => do return (i, ← a.get i)
  else .error .outOfRange

/-- The printed form: every id with its record, in order, between braces. -/
def text (a : Arena k α) (showRecord : α → String) : String :=
  "\x7b" ++
    ", ".intercalate (a.enumerate.map fun (i, record) => i.text ++ ": " ++ showRecord record) ++
    "\x7d"

/-- The records of an arena at one moment, with their number. -/
structure View (k : RecordKind) (α : Type) where
  arena : Arena k α
  count : Nat

/-- A view of the records appended so far. -/
def view (a : Arena k α) : View k α := ⟨a, a.size⟩

namespace View

def isEmpty (v : View k α) : Bool := v.count == 0

/-- Every record of the view, bucket after bucket. -/
def toList (v : View k α) : List α := v.arena.toList.take v.count

def get? (v : View k α) (i : RecordId k) : Option α :=
  if i.raw < v.count then v.arena.get? i else none

end View

end Arena

end FrontEnd
