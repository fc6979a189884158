import FrontEnd.Proofs.LayoutAgain
import FrontEnd.Proofs.NameEdits
import FrontEnd.Proofs.TypeEdits
/-!
# FrontEnd — passes only fill in

What a pass leaves of a program is the program with placeholders filled
in (`Program.FilledIn`), and whatever has been filled in is there
(`Program.FilledWell`). For the scopes this comes down to where a
declaration can get to along the links of tables: the tables that name
resolution adds are linked to none but each other (`Sealed`).
-/

namespace FrontEnd

open Relation

/-- What passes may make of a node: a name becomes a reference, and what
is selected from an enum type becomes its value. -/
inductive ExprKind.FillsTo : ExprKind → ExprKind → Prop
  | same (kind : ExprKind) : FillsTo kind kind
  | name {kind : ExprKind} (reference : kind.isReference = true) : FillsTo .identifier kind
  | selected (subject : ExprId) (name : Span) (v : EnumValueId) :
      FillsTo (.field subject name) (.enumValue v)

theorem ExprKind.FillsTo.trans {kind kind' kind'' : ExprKind} (h : kind.FillsTo kind')
    (h' : kind'.FillsTo kind'') : kind.FillsTo kind'' := by
  cases h with
  | same => exact h'
  | selected => cases h' with | same => exact .selected ..
  | name reference =>
    cases h' with
    | same => exact .name reference
    | name => exact .name ‹_›
    | selected => cases reference

/-- A table begins with another if every record is where it was. -/
theorem Table.toList_prefix_iff {k : RecordKind} {α : Type} {t t' : Table k α} :
    t.toList <+: t'.toList ↔ ∀ i x, t.get? i = some x → t'.get? i = some x := by
  simp only [List.prefix_iff_getElem?, get?_eq_toList]
  constructor
  · intro h i x hx
    obtain ⟨hlt, rfl⟩ := List.getElem?_eq_some_iff.1 hx
    exact h _ hlt
  · exact fun h i hlt => h ⟨i⟩ _ (List.getElem?_eq_getElem hlt)

namespace Program

/-- The second program is the first with placeholders filled in: nothing
differs but kinds of expressions that are filled in, types, flags, orders
of variables, scopes of blocks, `main`, and symbol tables that come after
those that there were. -/
structure FilledIn (p p' : Program) : Prop where
  frame : p'.frame = p.frame
  kinds : ∀ e x, p.exprs.get? e = some x →
    ∃ x', p'.exprs.get? e = some x' ∧ x.kind.FillsTo x'.kind
  tables : p.symbolTables.toList <+: p'.symbolTables.toList

/-- The second program is the first with placeholders filled in, and all
that they are filled in with is there. -/
structure FilledWell (p p' : Program) : Prop extends p.FilledIn p' where
  references : ∀ e x x', p.exprs.get? e = some x → p'.exprs.get? e = some x' →
    x'.kind = x.kind ∨ p'.checkExprKind x'.kind = .ok ()
  links : ∀ t r, p.symbolTables.size ≤ t.raw → p'.symbolTables.get? t = some r →
    r.next.raw < p'.symbolTables.size
  bodies : ∀ s body, p'.bodyOf s = .ok (some body) →
    p.bodyOf s = .ok (some body) ∨ body.symbolTable.raw < p'.symbolTables.size
  block : p'.block = p.block ∨ p'.block.symbolTable.raw < p'.symbolTables.size

variable {source : String} {p₀ p p' p'' : Program} {n : Nat} {scope : SymbolTableId} {r : SymbolTable}

theorem FilledIn.size_le (h : p.FilledIn p') : p.symbolTables.size ≤ p'.symbolTables.size :=
  h.tables.length_le

theorem FilledIn.trans (h : p.FilledIn p') (h' : p'.FilledIn p'') : p.FilledIn p'' where
  frame := h'.frame.trans h.frame
  kinds e x hx := by
    obtain ⟨x', hx', hf⟩ := h.kinds e x hx
    obtain ⟨x'', hx'', hf'⟩ := h'.kinds e x' hx'
    exact ⟨x'', hx'', hf.trans hf'⟩
  tables := h.tables.trans h'.tables

namespace FilledWell

/-- A change to nothing but the expressions, and to what is not looked at. -/
theorem of_exprs (frame : p'.frame = p.frame)
    (kinds : ∀ e x, p.exprs.get? e = some x → ∃ x', p'.exprs.get? e = some x' ∧
      x.kind.FillsTo x'.kind ∧ (x'.kind = x.kind ∨ p.checkExprKind x'.kind = .ok ()))
    (tables : p'.symbolTables = p.symbolTables) (bodies : ∀ s, p'.bodyOf s = p.bodyOf s)
    (block : p'.block = p.block) : p.FilledWell p' where
  frame := frame
  kinds e x hx := by
    obtain ⟨x', hx', hf, -⟩ := kinds e x hx
    exact ⟨x', hx', hf⟩
  tables := tables ▸ List.prefix_refl _
  references e x x' hx hx' := by
    obtain ⟨y, hy, -, hk⟩ := kinds e x hx
    rw [hx'] at hy
    cases hy
    rwa [checkExprKind_congr frame]
  links t r ht hr := by
    rw [tables] at hr
    exact absurd (Table.lt_size_of_get? hr) (Nat.not_lt.2 ht)
  bodies s body h := .inl (bodies s ▸ h)
  block := .inl block

theorem refl (p : Program) : p.FilledWell p :=
  .of_exprs rfl (fun _ x hx => ⟨x, hx, .same _, .inl rfl⟩) rfl (fun _ => rfl) rfl

theorem trans (h : p.FilledWell p') (h' : p'.FilledWell p'') : p.FilledWell p'' where
  toFilledIn := h.toFilledIn.trans h'.toFilledIn
  references e x x'' hx hx'' := by
    obtain ⟨x', hx', -⟩ := h.kinds e x hx
    rcases h'.references e x' x'' hx' hx'' with hk' | hk'
    · rcases h.references e x x' hx hx' with hk | hk
      · exact .inl (hk'.trans hk)
      · exact .inr (by rw [hk', checkExprKind_congr h'.frame, hk])
    · exact .inr hk'
  links t r ht hr := by
    by_cases hlt : t.raw < p'.symbolTables.size
    · -- the table has been there before, and still is the same
      obtain ⟨r', hr'⟩ := Table.exists_get?_of_lt hlt
      have hsame := Table.toList_prefix_iff.1 h'.tables t r' hr'
      rw [hr] at hsame
      cases hsame
      exact Nat.lt_of_lt_of_le (h.links t r ht hr') h'.size_le
    · exact h'.links t r (Nat.le_of_not_lt hlt) hr
  bodies s body hb := by
    rcases h'.bodies s body hb with hb' | hlt
    · exact (h.bodies s body hb').imp_right fun hlt => Nat.lt_of_lt_of_le hlt h'.size_le
    · exact .inr hlt
  block := by
    rcases h'.block with hb' | hlt
    · rw [hb']
      exact h.block.imp_right fun hlt => Nat.lt_of_lt_of_le hlt h'.size_le
    · exact .inr hlt

end FilledWell

/-! ## Tables of new scopes -/

/-- A table that is linked to one of the tables from `n` on or to none,
and whose symbols name declarations. -/
structure Inside (n : Nat) (p : Program) (r : SymbolTable) : Prop where
  next : r.next.isSentinel = true ∨ n ≤ r.next.raw
  held : r.next.raw < p.symbolTables.size
  named : ∀ symbol ∈ r.symbols.toList, ∃ name, p.nameOf symbol.target = .ok name

/-- Names have been resolved in scopes whose tables come after those of
`p₀`, and are linked to none of these. -/
structure Sealed (p₀ p : Program) : Prop extends p₀.FilledWell p where
  inside : ∀ t r, p₀.symbolTables.size ≤ t.raw → p.symbolTables.get? t = some r →
    p.Inside p₀.symbolTables.size r

theorem Inside.mono (inside : p.Inside n r) (frame : p'.frame = p.frame)
    (size : p.symbolTables.size ≤ p'.symbolTables.size) : p'.Inside n r where
  next := inside.next
  held := Nat.lt_of_lt_of_le inside.held size
  named symbol hs := by
    rw [← nameOf_frame, frame, nameOf_frame]
    exact inside.named symbol hs

namespace Sealed

theorem refl (p : Program) : p.Sealed p where
  toFilledWell := .refl p
  inside _ _ ht hr := absurd (Table.lt_size_of_get? hr) (Nat.not_lt.2 ht)

variable (h : p₀.Sealed p)

include h

/-- A scope goes on in new tables only. -/
theorem lastTable (own : p.Own p₀.symbolTables.size scope) :
    Keeps (p.Own p₀.symbolTables.size) (p.lastTable scope) := by
  unfold Program.lastTable
  generalize p.symbolTables.size + 1 = fuel
  induction fuel generalizing scope with
  | zero => exact .error
  | succ fuel ih =>
    refine .read fun r hr => ?_
    rw [Table.get_eq_ok] at hr
    dsimp only
    split
    · exact .pure own
    · next hs =>
      have inside := h.inside scope r own.le hr
      refine .read fun r' _ => ?_
      split
      · exact ih ⟨inside.next.resolve_left hs, inside.held⟩
      · exact .pure own

/-- What is found in a new scope is a declaration. -/
theorem findSymbol (own : p.Own p₀.symbolTables.size scope) (wanted : Span → Bool) :
    Keeps (fun found => ∀ symbol, found = some symbol → ∃ name, p.nameOf symbol.target = .ok name)
      (p.findSymbol scope wanted) := by
  have looked : ∀ fuel (t : SymbolTableId), t.isSentinel = true ∨ p₀.symbolTables.size ≤ t.raw →
      Keeps (fun l => ∀ symbol, l.found = some symbol → ∃ name, p.nameOf symbol.target = .ok name)
        (p.lookupWithin wanted fuel t) := by
    intro fuel
    induction fuel with
    | zero => exact fun t _ => .error
    | succ fuel ih =>
      intro t ht
      unfold lookupWithin
      split
      · exact .pure fun symbol hs => by cases hs
      · next hsentinel =>
        refine .read fun r hr => ?_
        have inside := h.inside t r (ht.resolve_left hsentinel) (Table.get_eq_ok.1 hr)
        dsimp only
        split
        · refine .pure fun symbol hs => inside.named symbol ?_
          rw [Lookup.found_among] at hs
          exact List.mem_of_find?_eq_some hs
        · exact (ih r.next inside.next).bind fun l hl => .pure hl
  exact (looked _ scope (.inr own.le)).bind fun l hl => .pure hl

/-- A name comes to mean what is there. -/
theorem meaning (own : p.Own p₀.symbolTables.size scope) (name : Span) :
    Keeps (fun found => ∀ kind, found = some kind →
        kind.isReference = true ∧ p.checkExprKind kind = .ok ()) (p.meaning source scope name) := by
  unfold Program.meaning
  split
  · refine .pure fun kind hk => ?_
    cases hk
    exact ⟨rfl, rfl⟩
  · refine (h.findSymbol own _).bind fun found hfound => .pure fun kind hk => ?_
    obtain ⟨symbol, rfl, rfl⟩ := Option.map_eq_some_iff.1 hk
    exact ⟨by cases symbol.target <;> rfl, checkExprKind_exprKind (hfound symbol rfl)⟩

/-! ## What one edit leaves sealed -/

/-- A change to nothing but the tables, of which the old ones stay. -/
theorem setTables {tables : Table .symbolTable SymbolTable}
    (size : p.symbolTables.size ≤ tables.size)
    (old : ∀ t : SymbolTableId, t.raw < p₀.symbolTables.size → tables.get? t = p.symbolTables.get? t)
    (inside : ∀ t r, p₀.symbolTables.size ≤ t.raw → tables.get? t = some r →
      Inside p₀.symbolTables.size { p with symbolTables := tables } r) :
    p₀.Sealed { p with symbolTables := tables } where
  frame := h.frame
  kinds := h.kinds
  references := h.references
  tables := by
    refine Table.toList_prefix_iff.2 fun t r hr => ?_
    rw [old t (Table.lt_size_of_get? hr)]
    exact Table.toList_prefix_iff.1 h.tables t r hr
  links t r ht hr := (inside t r ht hr).held
  inside := inside
  bodies s body hb := (h.bodies s body hb).imp_right fun hlt => Nat.lt_of_lt_of_le hlt size
  block := h.block.imp_right fun hlt => Nat.lt_of_lt_of_le hlt size

/-- To add a table that is inside. -/
theorem push (inside : Inside p₀.symbolTables.size { p with symbolTables := p.symbolTables.push r } r) :
    p₀.Sealed { p with symbolTables := p.symbolTables.push r } := by
  refine h.setTables (by simp) (fun t ht => ?_) fun t r' ht hr' => ?_
  · exact Table.get?_push_of_lt (Nat.lt_of_lt_of_le ht h.size_le)
  · rw [Table.get?_push] at hr'
    split at hr'
    · cases hr'
      exact inside
    · exact (h.inside t r' ht hr').mono rfl (by simp)

/-- To change a table so that it stays inside. -/
theorem modify {change : SymbolTable → SymbolTable} (own : p.Own p₀.symbolTables.size scope)
    (inside : ∀ r, p.Inside p₀.symbolTables.size r → p.Inside p₀.symbolTables.size (change r)) :
    p₀.Sealed { p with symbolTables := p.symbolTables.modify scope change } := by
  refine h.setTables (by simp) (fun t ht => ?_) fun t r' ht hr' => ?_
  · refine Table.get?_modify_of_ne ?_
    rintro rfl
    exact absurd own.le (Nat.not_le.2 ht)
  · rw [Table.get?_modify] at hr'
    split at hr'
    · obtain ⟨r, hr, rfl⟩ := Option.map_eq_some_iff.1 hr'
      exact (inside r (h.inside t r ht hr)).mono rfl (by simp)
    · exact (h.inside t r' ht hr').mono rfl (by simp)

theorem addSymbol {symbol : Symbol} (own : p.Own p₀.symbolTables.size scope)
    (named : ∃ name, p.nameOf symbol.target = .ok name) : p₀.Sealed (p.addSymbol scope symbol) := by
  refine h.modify own fun r inside => ⟨inside.next, inside.held, fun symbol' hs => ?_⟩
  rw [Array.toList_push, List.mem_append] at hs
  rcases hs with hs | hs
  · exact inside.named symbol' hs
  · rw [List.mem_singleton.1 hs]
    exact named

/-- To put in an overflow behind a table that is a scope's own. -/
theorem spliced {last : SymbolTableId} (own : p.Own p₀.symbolTables.size last)
    (hr : p.symbolTables.get? last = some r) : p₀.Sealed (p.spliced last r.next) := by
  have inside := h.inside last r own.le hr
  have hfresh : p.symbolTables.size < (p.symbolTables.push
      { next := r.next, isContinuation := true }).size := by simp
  have pushed := h.push (r := { next := r.next, isContinuation := true })
    ⟨inside.next, Nat.lt_trans inside.held hfresh, by simp⟩
  exact pushed.modify ⟨own.le, Nat.lt_trans own.held hfresh⟩ fun r inside =>
    ⟨.inr h.size_le, hfresh, inside.named⟩

theorem declare {symbol : Symbol} (own : p.Own p₀.symbolTables.size scope)
    (named : ∃ name, p.nameOf symbol.target = .ok name) :
    Keeps p₀.Sealed (p.declare scope symbol) := by
  intro p' hd
  cases declare_eq_ok.1 hd with
  | fits hlast => exact h.addSymbol (h.lastTable own _ hlast) named
  | @overflows last r hlast hr =>
    have spliced := h.spliced (h.lastTable own _ hlast) hr
    have fresh : (p.spliced last r.next).Own p₀.symbolTables.size p.symbolTables.nextId :=
      ⟨h.size_le, by rw [size_spliced]; exact Nat.lt_succ_self _⟩
    exact spliced.addSymbol fresh named

theorem setKind {e : ExprId} {x : Expr} {kind : ExprKind} (hx : p.exprs.get? e = some x)
    (fills : x.kind.FillsTo kind) (held : p.checkExprKind kind = .ok ()) :
    p₀.Sealed (p.setKind e kind) where
  toFilledWell := by
    refine h.toFilledWell.trans (.of_exprs (frame_setKind e kind) (fun c y hy => ?_) rfl (fun _ => rfl) rfl)
    simp only [Program.setKind, Table.get?_modify]
    split
    · next heq =>
      subst heq
      rw [hx] at hy
      cases hy
      exact ⟨_, by rw [hx]; rfl, fills, .inr held⟩
    · exact ⟨y, hy, .same _, .inl rfl⟩
  inside t r ht hr := (h.inside t r ht hr).mono (frame_setKind e kind) (Nat.le_refl _)

/-- To give blocks scopes that are there. -/
theorem setScopes (exprs : p'.exprs = p.exprs) (tables : p'.symbolTables = p.symbolTables)
    (frame : p'.frame = p.frame)
    (bodies : ∀ s body, p'.bodyOf s = .ok (some body) →
      p.bodyOf s = .ok (some body) ∨ body.symbolTable.raw < p.symbolTables.size)
    (block : p'.block = p.block ∨ p'.block.symbolTable.raw < p.symbolTables.size) :
    p₀.Sealed p' where
  frame := frame.trans h.frame
  kinds := exprs ▸ h.kinds
  tables := tables ▸ h.tables
  references e x x' hx hx' := by
    rw [checkExprKind_congr frame]
    exact h.references e x x' hx (exprs ▸ hx')
  links := tables ▸ h.links
  inside t r ht hr := by
    rw [tables] at hr
    exact (h.inside t r ht hr).mono frame (Nat.le_of_eq (by rw [tables]))
  bodies s body hb := by
    rw [tables]
    exact (bodies s body hb).elim (h.bodies s body) .inr
  block := by
    rw [tables]
    rcases block with hb | hlt
    · rw [hb]
      exact h.block
    · exact .inr hlt

theorem edit (edit : NameEdit source p₀.symbolTables.size p p') : p₀.Sealed p' := by
  cases edit with
  | bind hx name own means =>
    obtain ⟨reference, held⟩ := h.meaning own _ _ means _ rfl
    exact h.setKind hx (name ▸ .name reference) held
  | declare own declared =>
    obtain ⟨name, hname, hdeclare⟩ := bind_eq_ok.1 declared
    exact h.declare own ⟨name, hname⟩ p' hdeclare
  | @openBody s around _ own opens =>
    have pushed := h.push (r := { next := around }) ⟨.inr own.le, Nat.lt_trans own.held (by simp), by simp⟩
    refine pushed.setScopes opens.exprs opens.tables ?_ (fun s' body hb => ?_) (.inl opens.block)
    · exact frame_of_unscoped opens.unscoped (by rw [opens.exprs])
    · refine (opens.bodies s' body hb).imp_right fun hnew => ?_
      simp [hnew, Table.nextId]
  | openTop =>
    have pushed := h.push (r := { next := .sentinel }) ⟨.inl rfl, by simp [RecordId.sentinel], by simp⟩
    exact pushed.setScopes rfl rfl rfl (fun s body hb => .inl hb) (.inr (by simp [Table.nextId]))

omit h in
theorem edits (edits : NameEdits source p₀.symbolTables.size p₀ p) : p₀.Sealed p := by
  induction edits with
  | refl => exact .refl p₀
  | tail _ edit ih => exact ih.edit edit

end Sealed

/-- **Name resolution fills in.** -/
theorem bindNames_filledWell (source : String) (p : Program) :
    Keeps p.FilledWell (p.bindNames source) :=
  (bindNames_edits source p).mono fun _ edits => (Sealed.edits edits).toFilledWell

end Program

/-! ## The other passes -/

open Analysis Program

variable {source : String} {a b c : Analysis}

/-- What the type pass and the check do fills in. -/
theorem Analysis.TypeEdit.filledWell (edit : TypeEdit source a b) :
    a.program.FilledWell b.program := by
  have matured := edit.matured
  refine .of_exprs matured.frame (fun e x hx => ?_) matured.symbolTables matured.bodyOf matured.block
  obtain ⟨x', hx', -⟩ := matured.exprs e x hx
  refine ⟨x', hx', ?_⟩
  obtain hk | ⟨isOpen, t, name, v, hk, found⟩ := edit.kind hx hx'
  · exact ⟨hk ▸ .same _, .inl hk⟩
  · rw [hk]
    refine ⟨?_, .inr (Table.checkId_eq_ok.2 (lt_size_of_findEnumValue found))⟩
    cases hopen : x.kind with
    | identifier => exact .name rfl
    | field subject name => exact .selected subject name v
    | _ => rw [hopen] at isOpen; cases isOpen

theorem Analysis.TypeEdits.filledWell (edits : TypeEdits source a b) :
    a.program.FilledWell b.program := by
  induction edits with
  | refl => exact .refl _
  | tail _ edit ih => exact ih.trans edit.filledWell

theorem determineMain_filledWell (a : Analysis) (source : String) :
    a.program.FilledWell (a.determineMain source).program := by
  obtain ⟨main, searched, hprogram, -⟩ := determineMain_eq a source
  rw [hprogram]
  exact .of_exprs rfl (fun _ x hx => ⟨x, hx, .same _, .inl rfl⟩) rfl (fun _ => rfl) rfl

theorem resolveTypes_filledWell (a : Analysis) (source : String) :
    Keeps (fun b => a.program.FilledWell b.program) (a.resolveTypes source) :=
  (TypeEdits.resolveTypes (.refl : TypeEdits source a a)).ends.mono fun _ edits => edits.filledWell

theorem check_filledWell (a : Analysis) :
    Keeps (fun b => a.program.FilledWell b.program) a.check :=
  -- the check reads no source
  (TypeEdits.check (.refl : TypeEdits "" a a)).mono fun _ edits => edits.filledWell

theorem resolve_filledWell (a : Analysis) (source : String) :
    Keeps (fun b => a.program.FilledWell b.program) (a.resolve source) := by
  intro b h
  obtain ⟨-, p₁, hnames, htypes⟩ := resolve_eq_ok.1 h
  exact (determineMain_filledWell a source).trans
    ((bindNames_filledWell source _ p₁ hnames).trans (resolveTypes_filledWell _ source b htypes))

/-- **Passes only fill in placeholders.** A program that has been resolved
and checked is the program that there was: no record has been added, taken
away or moved, and nothing in one has changed but what is there to be
filled in. Names have become references, and what is selected a value of
an enum; references and all other nodes are as they were. The symbol
tables that there were are untouched, and all new ones come after them. -/
theorem resolve_check_filledIn (resolved : a.resolve source = .ok b) (checked : b.check = .ok c) :
    a.program.FilledIn c.program :=
  ((resolve_filledWell a source b resolved).trans (check_filledWell b c checked)).toFilledIn

/-- A program that is resolved once more keeps the scopes that it has got,
and only gets more. -/
theorem resolve_check_filledIn_again :
    Succeeds (Program.build [.identifier "E", .enumType "E" ["v"], .field ⟨0⟩ "v",
        .variable "x" none (some ⟨1⟩), .openBody .bare, .identifier "x", .output ⟨2⟩, .close])
      fun (p, source) => Succeeds ((start .unlimited p).resolve source) fun a =>
        Succeeds (a.resolve source) fun b => Succeeds b.check fun c =>
          a.program.exprs.toList.map (·.kind) = [.typeName (.enum ⟨0⟩), .enumValue ⟨0⟩, .variable ⟨0⟩] ∧
          a.program.symbolTables.size = 3 ∧ c.program.symbolTables.size = 5 ∧
          p.FilledIn a.program ∧ a.program.FilledIn c.program := by
  have facts : Succeeds (Program.build [.identifier "E", .enumType "E" ["v"], .field ⟨0⟩ "v",
        .variable "x" none (some ⟨1⟩), .openBody .bare, .identifier "x", .output ⟨2⟩, .close])
      fun (p, source) => Succeeds ((start .unlimited p).resolve source) fun a =>
        Succeeds (a.resolve source) fun b => Succeeds b.check fun c =>
          a.program.exprs.toList.map (·.kind) = [.typeName (.enum ⟨0⟩), .enumValue ⟨0⟩, .variable ⟨0⟩] ∧
          a.program.symbolTables.size = 3 ∧ c.program.symbolTables.size = 5 := by
    decide +kernel
  obtain ⟨⟨p, source⟩, built, a, ha, b, hb, c, hc, hkinds, hbefore, hafter⟩ := facts
  exact ⟨(p, source), built, a, ha, b, hb, c, hc, hkinds, hbefore, hafter,
    (resolve_filledWell _ source a ha).toFilledIn, resolve_check_filledIn hb hc⟩

end FrontEnd
