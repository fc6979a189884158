import FrontEnd.Proofs.Scopes
/-!
# FrontEnd — tables that are filled in order

A scope goes on in another table only when the one before is full
(`Packed`). Declaring keeps it so, wherever the scope stands that
something is declared in (`Packed.declare`).
-/

namespace FrontEnd

variable {p p' : Program} {tables tables' : Table .symbolTable SymbolTable}
variable {t u last parent : SymbolTableId} {r : SymbolTable}
variable {ids : List SymbolTableId} {symbols : List Symbol}

/-- A table holds no more than it may, and is full if its scope goes on
in another one. -/
structure SymbolTable.PackedIn (tables : Table .symbolTable SymbolTable) (r : SymbolTable) :
    Prop where
  next_lt : r.next.raw < tables.size
  size_le : r.symbols.size ≤ symbolTableCapacity
  full : r.next.isSentinel = false → ∀ ru, tables.get? r.next = some ru →
    ru.isContinuation = true → r.symbols.size = symbolTableCapacity

/-- Every table is full before its scope goes on in another one. -/
def Packed (tables : Table .symbolTable SymbolTable) : Prop :=
  ∀ t r, tables.get? t = some r → r.PackedIn tables

theorem Program.empty_packed : Packed Program.empty.symbolTables := by
  intro t r hr
  obtain ⟨i⟩ := t
  have hi : i < 1 := Table.lt_size_of_get? hr
  obtain rfl : i = 0 := by omega
  cases hr
  exact ⟨by decide, by decide, fun hs => absurd hs (by decide)⟩

/-- Where a look-up of the last table stops, no scope goes on. -/
theorem Stops.packedIn (stops : Stops tables r.next) (hpos : 0 < tables.size)
    (h : r.symbols.size ≤ symbolTableCapacity) : r.PackedIn tables := by
  rcases stops with hs | ⟨rp, hp, hc⟩
  · refine ⟨?_, h, fun hs' => ?_⟩
    · have hraw : r.next.raw = 0 := by simpa [RecordId.isSentinel] using hs
      omega
    · simp [hs] at hs'
  · refine ⟨Table.lt_size_of_get? hp, h, fun _ ru hu hcu => ?_⟩
    cases hp.symm.trans hu
    simp [hc] at hcu

/-- What is the first table of a scope stays one, and so does what is of
its overflow. -/
def FlagsKept (before after : Table .symbolTable SymbolTable) : Prop :=
  ∀ u r, before.get? u = some r →
    ∃ r', after.get? u = some r' ∧ r'.isContinuation = r.isContinuation

theorem FlagsKept.stops (kept : FlagsKept tables tables') (stops : Stops tables parent) :
    Stops tables' parent :=
  stops.imp id fun ⟨rp, hp, hc⟩ =>
    have ⟨rp', hp', hc'⟩ := kept parent rp hp
    ⟨rp', hp', hc'.trans hc⟩

theorem FlagsKept.push (new : SymbolTable) : FlagsKept tables (tables.push new) :=
  fun _ r hr => ⟨r, by rw [Table.get?_push_of_lt (Table.lt_size_of_get? hr), hr], rfl⟩

theorem FlagsKept.modify {f : SymbolTable → SymbolTable}
    (hf : ∀ r, (f r).isContinuation = r.isContinuation) : FlagsKept tables (tables.modify t f) := by
  intro u r hr
  rw [Table.get?_modify, hr]
  split
  · exact ⟨f r, rfl, hf r⟩
  · exact ⟨r, rfl, rfl⟩

theorem FlagsKept.trans {tables'' : Table .symbolTable SymbolTable}
    (h : FlagsKept tables tables') (h' : FlagsKept tables' tables'') : FlagsKept tables tables'' :=
  fun u r hr =>
    have ⟨r', hr', hc⟩ := h u r hr
    have ⟨r'', hr'', hc'⟩ := h' u r' hr'
    ⟨r'', hr'', hc'.trans hc⟩

theorem Program.flagsKept_spliced (p : Program) (last next : SymbolTableId) :
    FlagsKept p.symbolTables (p.spliced last next).symbolTables :=
  (FlagsKept.push _).trans (.modify fun _ => rfl)

namespace Packed

/-- Tables stay packed if those that change are. -/
theorem of_changes (packed : Packed tables) (size_le : tables.size ≤ tables'.size)
    (kept : FlagsKept tables tables')
    (changed : ∀ t r, tables'.get? t = some r → tables.get? t = some r ∨ r.PackedIn tables') :
    Packed tables' := by
  intro t r hr
  rcases changed t r hr with hold | hnew
  · have h := packed t r hold
    refine ⟨Nat.lt_of_lt_of_le h.next_lt size_le, h.size_le, fun hs ru' hu' hc => ?_⟩
    -- the table behind an old one is old, so its flag was there before
    obtain ⟨ru, hu⟩ := Table.exists_get?_of_lt h.next_lt
    obtain ⟨_, hu'', hflag⟩ := kept _ _ hu
    cases hu'.symm.trans hu''
    exact h.full hs ru hu (hflag.symm.trans hc)
  · exact hnew

/-- A table for a new scope leaves tables packed. -/
theorem push (packed : Packed tables) (stops : Stops tables parent) :
    Packed (tables.push { next := parent }) := by
  have kept : FlagsKept tables (tables.push { next := parent }) := .push _
  refine packed.of_changes (by simp) kept fun t r hr => ?_
  rw [Table.get?_push] at hr
  split at hr
  · cases hr
    exact .inr ((kept.stops stops).packedIn (by simp) (Nat.zero_le _))
  · exact .inl hr

/-- An overflow behind a full table leaves tables packed. -/
theorem spliced (packed : Packed p.symbolTables) (hr : p.symbolTables.get? last = some r)
    (stops : Stops p.symbolTables r.next) (hfull : r.isFull = true) :
    Packed (p.spliced last r.next).symbolTables := by
  have kept := p.flagsKept_spliced last r.next
  have hlast := Table.lt_size_of_get? hr
  -- the full table changes and the new one comes after it
  refine packed.of_changes (by simp) kept fun u ru hu => ?_
  rcases Program.get?_spliced_cases hr hu with rfl | ⟨rfl, rfl⟩ | hold
  · exact .inr (Stops.packedIn (kept.stops stops) (by simp) (Nat.zero_le _))
  · have hle := (packed u r hr).size_le
    refine .inr ⟨?_, hle, fun _ _ _ _ => Nat.le_antisymm hle (by simpa [SymbolTable.isFull] using hfull)⟩
    simp [Table.nextId]
  · exact .inl hold

/-- A symbol in the last table of a scope leaves tables packed, if it is
not full. -/
theorem addSymbol (packed : Packed p.symbolTables) (hr : p.symbolTables.get? t = some r)
    (stops : Stops p.symbolTables r.next) (hfull : r.isFull = false) (symbol : Symbol) :
    Packed (p.addSymbol t symbol).symbolTables := by
  have kept : FlagsKept p.symbolTables (p.addSymbol t symbol).symbolTables := .modify fun _ => rfl
  refine packed.of_changes (by simp) kept fun u ru hu => ?_
  rcases Program.get?_addSymbol_cases hu with hold | ⟨r', hr', rfl, rfl⟩
  · exact .inl hold
  · cases hr.symm.trans hr'
    have hpos : 0 < (p.addSymbol u symbol).symbolTables.size := by
      rw [Program.size_addSymbol]
      exact Nat.zero_lt_of_lt (Table.lt_size_of_get? hr)
    refine .inr (Stops.packedIn (kept.stops stops) hpos ?_)
    rw [Array.size_push]
    exact Nat.lt_of_not_le (of_decide_eq_false hfull)

end Packed

/-- The walk to the last table of a scope ends where a look-up goes on
outside of it. -/
theorem Program.lastTableWithin_stops {fuel : Nat}
    (h : p.lastTableWithin fuel t = .ok last) :
    ∃ r, p.symbolTables.get? last = some r ∧ Stops p.symbolTables r.next := by
  induction fuel generalizing t with
  | zero => cases h
  | succ fuel ih =>
    simp only [Program.lastTableWithin, bind_eq_ok, Table.get_eq_ok] at h
    obtain ⟨r, hr, h⟩ := h
    cases hs : r.next.isSentinel with
    | true =>
      simp only [hs, if_true, pure_eq_ok] at h
      exact ⟨r, h ▸ hr, .inl hs⟩
    | false =>
      simp only [hs, Bool.false_eq_true, if_false, bind_eq_ok, Table.get_eq_ok] at h
      obtain ⟨rn, hn, h⟩ := h
      cases hc : rn.isContinuation with
      | true => exact ih (by simpa [hc] using h)
      | false =>
        simp only [hc, Bool.false_eq_true, if_false, pure_eq_ok] at h
        exact ⟨r, h ▸ hr, .inr ⟨rn, hn, hc⟩⟩

/-- **A declaration leaves tables packed.** -/
theorem Packed.declare (packed : Packed p.symbolTables) {symbol : Symbol}
    (h : p.declare t symbol = .ok p') : Packed p'.symbolTables := by
  cases Program.declare_eq_ok.1 h with
  | fits hlast hr room =>
    obtain ⟨r, hr', stops⟩ := Program.lastTableWithin_stops hlast
    cases hr.symm.trans hr'
    exact packed.addSymbol hr stops room symbol
  | overflows hlast hr full =>
    obtain ⟨r, hr', stops⟩ := Program.lastTableWithin_stops hlast
    cases hr.symm.trans hr'
    exact (packed.spliced hr stops full).addSymbol (Program.get?_spliced_nextId _ hr)
      ((Program.flagsKept_spliced _ _ _).stops stops) rfl symbol

/-- Every table of a scope but its last is full. -/
theorem Packed.full_of_run (packed : Packed tables) (run : ScopeRun tables parent t ids symbols) :
    ∀ u ∈ ids.dropLast, ∃ r, tables.get? u = some r ∧ r.symbols.size = symbolTableCapacity := by
  induction run with
  | last => simp
  | @step t r ru ids symbols ht hs hu hc rest ih =>
    intro u hmem
    rw [List.dropLast_cons_of_ne_nil (List.ne_nil_of_mem rest.mem_first), List.mem_cons] at hmem
    rcases hmem with rfl | hmem
    · exact ⟨r, ht, (packed _ r ht).full hs ru hu hc⟩
    · exact ih u hmem

end FrontEnd
