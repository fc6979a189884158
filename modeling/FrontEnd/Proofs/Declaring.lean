import FrontEnd.Program.Scope
import FrontEnd.Proofs.Outcome
/-!
# FrontEnd — what a declaration changes

A declaration changes the tables and nothing else. The symbol goes into
the last table of its scope, or into an overflow that is put in behind
that table when it is full (`DeclaresIn`). What a declaration keeps is
shown for `spliced` and `addSymbol` and then holds of it by cases.
-/

namespace FrontEnd

namespace Program

variable {p p' : Program} {t u last next : SymbolTableId} {r ru : SymbolTable} {symbol : Symbol}

/-! ## Putting in an overflow -/

/-- A program with an empty overflow put in behind the table `last`, ahead
of `next`. -/
def spliced (p : Program) (last next : SymbolTableId) : Program :=
  { p with
    symbolTables := (p.symbolTables.push { next, isContinuation := true }).modify last
      ({ · with next := p.symbolTables.nextId }) }

@[simp] theorem size_spliced :
    (p.spliced last next).symbolTables.size = p.symbolTables.size + 1 := by
  simp [spliced]

theorem overflow_eq_ok : p.overflow last = .ok (t, p') ↔
    ∃ r, p.symbolTables.get? last = some r ∧ p.symbolTables.nextId = t ∧
      p.spliced last r.next = p' := by
  simp only [overflow, bind_eq_ok, pure_eq_ok, Prod.mk.injEq, Table.get_eq_ok, spliced]

/-- The overflow comes last and is empty. -/
theorem get?_spliced_nextId (next : SymbolTableId) (hr : p.symbolTables.get? last = some r) :
    (p.spliced last next).symbolTables.get? p.symbolTables.nextId =
      some { next, isContinuation := true } := by
  have hne : p.symbolTables.nextId ≠ last := by
    rintro rfl
    exact Nat.lt_irrefl _ (Table.lt_size_of_get? hr)
  rw [spliced, Table.get?_modify_of_ne hne, Table.get?_push, if_pos rfl]

/-- The table in front of the overflow goes on in it. -/
theorem get?_spliced_last (next : SymbolTableId) (hr : p.symbolTables.get? last = some r) :
    (p.spliced last next).symbolTables.get? last =
      some { r with next := p.symbolTables.nextId } := by
  rw [spliced, Table.get?_modify, if_pos rfl,
    Table.get?_push_of_lt (Table.lt_size_of_get? hr), hr, Option.map_some]

/-- Every other table stays. -/
theorem get?_spliced_of_ne (hne : u ≠ last) (hlt : u.raw < p.symbolTables.size) :
    (p.spliced last next).symbolTables.get? u = p.symbolTables.get? u := by
  rw [spliced, Table.get?_modify_of_ne hne, Table.get?_push_of_lt hlt]

/-- **What a table can be once an overflow is in:** the overflow, the table
in front of it, or a table as it was. -/
theorem get?_spliced_cases (hr : p.symbolTables.get? last = some r)
    (hu : (p.spliced last next).symbolTables.get? u = some ru) :
    ru = { next, isContinuation := true } ∨
      (u = last ∧ ru = { r with next := p.symbolTables.nextId }) ∨
      p.symbolTables.get? u = some ru := by
  by_cases hul : u = last
  · subst hul
    rw [get?_spliced_last next hr] at hu
    exact .inr (.inl ⟨rfl, (Option.some.inj hu).symm⟩)
  · rw [spliced, Table.get?_modify_of_ne hul, Table.get?_push] at hu
    split at hu
    · exact .inl (Option.some.inj hu).symm
    · exact .inr (.inr hu)

/-! ## Adding a symbol -/

@[simp] theorem size_addSymbol :
    (p.addSymbol t symbol).symbolTables.size = p.symbolTables.size := by
  simp [addSymbol]

theorem get?_addSymbol (symbol : Symbol) (hr : p.symbolTables.get? t = some r) :
    (p.addSymbol t symbol).symbolTables.get? t =
      some { r with symbols := r.symbols.push symbol } := by
  simp only [addSymbol, Table.get?_modify, if_true, hr, Option.map_some]

theorem get?_addSymbol_of_ne (hne : u ≠ t) :
    (p.addSymbol t symbol).symbolTables.get? u = p.symbolTables.get? u :=
  Table.get?_modify_of_ne hne

/-- A table is as it was, or it is the one that has the symbol. -/
theorem get?_addSymbol_cases (hu : (p.addSymbol t symbol).symbolTables.get? u = some ru) :
    p.symbolTables.get? u = some ru ∨
      ∃ r, p.symbolTables.get? t = some r ∧ u = t ∧
        ru = { r with symbols := r.symbols.push symbol } := by
  by_cases hut : u = t
  · subst hut
    simp only [addSymbol, Table.get?_modify, if_true] at hu
    obtain ⟨r, hr, rfl⟩ := Option.map_eq_some_iff.1 hu
    exact .inr ⟨r, hr, rfl, rfl⟩
  · exact .inl (get?_addSymbol_of_ne hut ▸ hu)

/-! ## Declaring -/

/-- **What a declaration does.** The last table of the scope takes the
symbol while there is room in it, and an overflow behind it does after
that. -/
inductive DeclaresIn (p : Program) (t : SymbolTableId) (symbol : Symbol) : Program → Prop
  | fits {last : SymbolTableId} {r : SymbolTable} (hlast : p.lastTable t = .ok last)
      (hr : p.symbolTables.get? last = some r) (room : r.isFull = false) :
      DeclaresIn p t symbol (p.addSymbol last symbol)
  | overflows {last : SymbolTableId} {r : SymbolTable} (hlast : p.lastTable t = .ok last)
      (hr : p.symbolTables.get? last = some r) (full : r.isFull = true) :
      DeclaresIn p t symbol ((p.spliced last r.next).addSymbol p.symbolTables.nextId symbol)

theorem declare_eq_ok : p.declare t symbol = .ok p' ↔ DeclaresIn p t symbol p' := by
  constructor
  · intro h
    simp only [declare, bind_eq_ok, Table.get_eq_ok] at h
    obtain ⟨last, hlast, r, hr, h⟩ := h
    cases hfull : r.isFull with
    | true =>
      simp only [hfull, if_true, bind_eq_ok, pure_eq_ok] at h
      obtain ⟨⟨fresh, q⟩, hover, rfl⟩ := h
      obtain ⟨r', hr', rfl, rfl⟩ := overflow_eq_ok.1 hover
      cases hr.symm.trans hr'
      exact .overflows hlast hr hfull
    | false =>
      simp only [hfull, Bool.false_eq_true, if_false, pure_eq_ok] at h
      exact h ▸ .fits hlast hr hfull
  · intro h
    cases h with
    | fits hlast hr room =>
      simp only [declare, hlast, ok_bind, Table.get_eq_ok.2 hr, room, Bool.false_eq_true, if_false]
      rfl
    | overflows hlast hr full =>
      have hover := overflow_eq_ok.2 ⟨_, hr, rfl, rfl⟩
      simp only [declare, hlast, ok_bind, Table.get_eq_ok.2 hr, full, if_true, hover]
      rfl

/-- To declare a symbol changes nothing but the tables. -/
theorem tables_of_declare (h : p.declare t symbol = .ok p') :
    ∃ tables, p' = { p with symbolTables := tables } ∧ p.symbolTables.size ≤ tables.size := by
  cases declare_eq_ok.1 h with
  | fits => exact ⟨_, rfl, by simp⟩
  | overflows => exact ⟨_, rfl, by simp⟩

end Program

end FrontEnd
