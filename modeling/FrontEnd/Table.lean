import FrontEnd.Fault
import FrontEnd.RecordId
/-!
# FrontEnd — tables

A `Table k α` holds the records of one kind in the order of their ids.
Records are appended and later overwritten in place; none is removed,
so an id once handed out stays good. Looking up an id the table does
not hold is a `Fault`.
-/

namespace FrontEnd

/-- The records of kind `k`, each at the index its id names. -/
structure Table (k : RecordKind) (α : Type) where
  records : Array α := #[]

namespace Table

variable {k : RecordKind} {α : Type}

/-- The table that holds nothing yet. -/
def empty : Table k α := {}

/-- The records in the order of their ids. -/
def toList (t : Table k α) : List α := t.records.toList

def size (t : Table k α) : Nat := t.records.size

/-- The id the next record will get. -/
def nextId (t : Table k α) : RecordId k := ⟨t.size⟩

def get? (t : Table k α) (i : RecordId k) : Option α := t.records[i.raw]?

/-- The record under `i`, which the table must hold. -/
def get (t : Table k α) (i : RecordId k) : Except Fault α :=
  match t.get? i with
  | some record => .ok record
  | none => .error .outOfRange

/-- Append a record, whose id is `t.nextId`. -/
def push (t : Table k α) (record : α) : Table k α := ⟨t.records.push record⟩

/-- Append several records in order. -/
def append (t : Table k α) (records : List α) : Table k α := ⟨t.records ++ records⟩

/-- Change the record under `i`, if the table holds one. -/
def modify (t : Table k α) (i : RecordId k) (f : α → α) : Table k α := ⟨t.records.modify i.raw f⟩

/-- Change the record under `i`, which the table must hold. -/
def update (t : Table k α) (i : RecordId k) (f : α → α) : Except Fault (Table k α) :=
  if i.raw < t.size then .ok (t.modify i f) else .error .outOfRange

/-- The records of a range with their ids. An empty range reads nothing,
wherever it starts. -/
def slice (t : Table k α) (r : IdRange k) : Except Fault (List (RecordId k × α)) :=
  if r.isEmpty then .ok []
  else if r.stop ≤ t.size then
    .ok (r.ids.zip (t.records.extract r.start r.stop).toList)
  else .error .outOfRange

/-- Every id with its record. -/
def enumerate (t : Table k α) : List (RecordId k × α) :=
  ((IdRange.mk 0 t.size).ids).zip t.toList

/-! ## The list a table stands for -/

variable (t : Table k α)

@[simp] theorem toList_empty : (empty : Table k α).toList = [] := rfl

@[simp] theorem length_toList : t.toList.length = t.size := rfl

@[simp] theorem toList_push (record : α) : (t.push record).toList = t.toList ++ [record] := by
  simp [toList, push]

@[simp] theorem toList_append (records : List α) :
    (t.append records).toList = t.toList ++ records := by
  simp [toList, append]

@[simp] theorem size_push (record : α) : (t.push record).size = t.size + 1 := by
  simp [size, push]

@[simp] theorem size_append (records : List α) :
    (t.append records).size = t.size + records.length := by
  rw [← length_toList, toList_append, List.length_append, length_toList]

@[simp] theorem size_modify (i : RecordId k) (f : α → α) : (t.modify i f).size = t.size := by
  simp [size, modify]

theorem get?_eq_toList (i : RecordId k) : t.get? i = t.toList[i.raw]? := by
  simp [get?, toList]

/-- **A look-up answers exactly for the ids the table holds.** -/
theorem get_eq_ok_iff {i : RecordId k} {record : α} :
    t.get i = .ok record ↔ t.toList[i.raw]? = some record := by
  rw [← get?_eq_toList, get]
  cases t.get? i <;> simp

theorem update_eq_ok_iff {i : RecordId k} {f : α → α} {t' : Table k α} :
    t.update i f = .ok t' ↔ i.raw < t.size ∧ t' = t.modify i f := by
  unfold update
  split
  · next h => simp [h, eq_comm]
  · next h => simp [h]

/-! ## Look-ups -/

variable {t}

theorem get_eq_ok {i : RecordId k} {record : α} : t.get i = .ok record ↔ t.get? i = some record := by
  rw [get_eq_ok_iff, get?_eq_toList]

/-- The table holds a record exactly under the ids below its size. -/
theorem get?_isSome_iff {i : RecordId k} : (t.get? i).isSome ↔ i.raw < t.size := by
  simp [get?, size]

theorem lt_size_of_get? {i : RecordId k} {record : α} (h : t.get? i = some record) :
    i.raw < t.size :=
  get?_isSome_iff.1 (by simp [h])

theorem exists_get?_of_lt {i : RecordId k} (h : i.raw < t.size) :
    ∃ record, t.get? i = some record :=
  Option.isSome_iff_exists.1 (get?_isSome_iff.2 h)

theorem get?_eq_none_iff {i : RecordId k} : t.get? i = none ↔ t.size ≤ i.raw := by
  simp [get?, size]

/-- The next id is the first that is not in the table. -/
theorem eq_nextId {i : RecordId k} (h : t.size ≤ i.raw) (h' : i.raw < t.size + 1) :
    i = t.nextId := by
  cases i
  exact congrArg RecordId.mk (Nat.le_antisymm (Nat.le_of_lt_succ h') h)

theorem get?_push {record : α} {i : RecordId k} :
    (t.push record).get? i = if i = t.nextId then some record else t.get? i := by
  cases i with | mk i => simp [get?, push, nextId, size, Array.getElem?_push]

theorem get?_push_of_lt {record : α} {i : RecordId k} (h : i.raw < t.size) :
    (t.push record).get? i = t.get? i := by
  rw [get?_push, if_neg]
  rintro rfl
  simp [nextId] at h

/-- Changing one record leaves the others as they are. -/
theorem get?_modify {i j : RecordId k} {f : α → α} :
    (t.modify i f).get? j = if j = i then (t.get? j).map f else t.get? j := by
  cases i with | mk i => cases j with | mk j =>
    simp only [get?, modify, Array.getElem?_modify, RecordId.mk.injEq, eq_comm (a := i)]

theorem get?_modify_of_ne {i j : RecordId k} {f : α → α} (h : j ≠ i) :
    (t.modify i f).get? j = t.get? j := by
  rw [get?_modify, if_neg h]

theorem get?_append_of_lt {records : List α} {i : RecordId k} (h : i.raw < t.size) :
    (t.append records).get? i = t.get? i := by
  rw [get?_eq_toList, get?_eq_toList, toList_append, List.getElem?_append_left]
  simpa using h

/-- **Tables with the same look-ups are the same.** -/
theorem ext_get? {t' : Table k α} (h : ∀ i, t.get? i = t'.get? i) : t = t' := by
  obtain ⟨records⟩ := t
  obtain ⟨records'⟩ := t'
  congr 1
  exact Array.ext_getElem? fun i => h ⟨i⟩

/-- A change that leaves the record as it is leaves the table as it is. -/
theorem modify_same {i : RecordId k} {f : α → α} {r : α} (hr : t.get? i = some r) (hf : f r = r) :
    t.modify i f = t := by
  refine ext_get? fun j => ?_
  rw [get?_modify]
  split
  · next hj => rw [hj, hr, Option.map_some, hf]
  · rfl

theorem update_same {i : RecordId k} {f : α → α} {r : α} (hr : t.get? i = some r) (hf : f r = r) :
    t.update i f = .ok t :=
  (t.update_eq_ok_iff).2 ⟨lt_size_of_get? hr, (modify_same hr hf).symm⟩

end Table

end FrontEnd
