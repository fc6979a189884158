import FrontEnd.Proofs.ScopeLinks
import Mathlib.Logic.Relation
/-!
# FrontEnd — what name resolution writes

Whatever name resolution does to a program, it binds names, gives bodies
scopes, and declares symbols (`NameEdit`). All this happens in scopes of
its own: with tables numbered from `n` on as those, it looks up and
declares in no other. There is one lemma for each function of the pass.
-/

namespace FrontEnd

open Relation

namespace Program

/-- The scope is one of those whose tables are numbered from `n` on. -/
structure Own (n : Nat) (p : Program) (scope : SymbolTableId) : Prop where
  le : n ≤ scope.raw
  held : scope.raw < p.symbolTables.size

/-- One thing that name resolution does. -/
inductive NameEdit (source : String) (n : Nat) (p : Program) : Program → Prop
  /-- A name gets the meaning that it has in a scope. -/
  | bind {e : ExprId} {x : Expr} {scope : SymbolTableId} {kind : ExprKind}
      (hx : p.exprs.get? e = some x) (name : x.kind = .identifier) (own : p.Own n scope)
      (means : p.meaning source scope x.span = .ok (some kind)) :
      NameEdit source n p (p.setKind e kind)
  | declare {scope : SymbolTableId} {target : Target} {p' : Program} (own : p.Own n scope)
      (declared : p.declareTarget scope target = .ok p') : NameEdit source n p p'
  | openBody {s : StmtId} {around : SymbolTableId} {p' : Program} (own : p.Own n around)
      (opens : OpensScope p p' s around) : NameEdit source n p p'
  | openTop : NameEdit source n p
      { (p.addSymbolTable .sentinel).2 with
        block := { p.block with symbolTable := p.symbolTables.nextId } }

/-- What name resolution does, one edit after the other. -/
abbrev NameEdits (source : String) (n : Nat) : Program → Program → Prop :=
  ReflTransGen (NameEdit source n)

variable {source : String} {n : Nat} {p p' : Program} {scope : SymbolTableId} {symbol : Symbol}
variable {target : Target} {s : StmtId} {e : ExprId}

/-! ## Single edits -/

/-- To declare a target changes nothing but the tables. -/
theorem tables_of_declareTarget (h : p.declareTarget scope target = .ok p') :
    ∃ tables, p' = { p with symbolTables := tables } ∧ p.symbolTables.size ≤ tables.size := by
  obtain ⟨name, -, h⟩ := bind_eq_ok.1 h
  exact tables_of_declare h

/-- A scope is opened for a statement that has a body. -/
theorem opens_of_openScope {around : SymbolTableId} {r : SymbolTableId × Program}
    (h : p.openScope s around = .ok r) :
    r.1 = p.symbolTables.nextId ∧ OpensScope p r.2 s around := by
  have hbody : ∃ body, p.bodyOf s = .ok (some body) := by
    obtain ⟨found, hfound, h⟩ := bind_eq_ok.1 h
    rw [lift_eq_ok] at hfound
    cases found with
    | none => cases h
    | some q =>
      obtain ⟨⟨kind, span⟩, hs, hfound⟩ := bind_eq_ok.1 hfound
      cases kind with
      | function f =>
        obtain ⟨functions, hupdate, -⟩ := bind_eq_ok.1 hfound
        obtain ⟨g, hg⟩ := Table.exists_get?_of_lt ((Table.update_eq_ok_iff _).1 hupdate).1
        exact ⟨g.body, bodyOf_eq_some.2 (.inl ⟨f, span, g, Table.get_eq_ok.1 hs, hg, rfl⟩)⟩
      | nest head body => exact ⟨body, bodyOf_eq_some.2 (.inr ⟨head, span, Table.get_eq_ok.1 hs⟩)⟩
      | _ => cases hfound
  obtain ⟨body, hbody⟩ := hbody
  obtain ⟨p', hp', opens⟩ := openScope_ok around hbody
  rw [h] at hp'
  cases hp'
  exact ⟨rfl, opens⟩

/-- No table is ever taken away. -/
theorem NameEdit.size_le (h : NameEdit source n p p') :
    p.symbolTables.size ≤ p'.symbolTables.size := by
  cases h with
  | bind => exact Nat.le_refl _
  | declare own declared =>
    obtain ⟨tables, rfl, hle⟩ := tables_of_declareTarget declared
    exact hle
  | openBody own opens => simp [opens.tables]
  | openTop => simp [addSymbolTable]

theorem NameEdits.size_le (h : NameEdits source n p p') :
    p.symbolTables.size ≤ p'.symbolTables.size := by
  induction h with
  | refl => exact Nat.le_refl _
  | tail _ edit ih => exact Nat.le_trans ih edit.size_le

theorem NameEdit.frame (h : NameEdit source n p p') : p'.frame = p.frame := by
  cases h with
  | bind => exact frame_setKind ..
  | declare own declared =>
    obtain ⟨tables, rfl, -⟩ := tables_of_declareTarget declared
    rfl
  | openBody own opens => exact frame_of_unscoped opens.unscoped (by rw [opens.exprs])
  | openTop => rfl

theorem NameEdits.frame (h : NameEdits source n p p') : p'.frame = p.frame := by
  induction h with
  | refl => rfl
  | tail _ edit ih => exact edit.frame.trans ih

/-- A scope that has been given stays given. -/
theorem NameEdits.isScoped (h : NameEdits source n p p') (hpos : 0 < p.symbolTables.size)
    (hs : p.Scoped s) : p'.Scoped s := by
  induction h with
  | refl => exact hs
  | tail before edit ih =>
    cases edit with
    | bind | openTop => exact ih
    | declare own declared =>
      obtain ⟨tables, rfl, -⟩ := tables_of_declareTarget declared
      exact ih
    | openBody own opens => exact opens.keeps_scoped (Nat.lt_of_lt_of_le hpos (NameEdits.size_le before)) ih

theorem NameEdits.top (h : NameEdits source n p p') (hpos : 0 < p.symbolTables.size)
    (given : p.block.symbolTable.isSentinel = false) : p'.block.symbolTable.isSentinel = false := by
  induction h with
  | refl => exact given
  | tail before edit ih =>
    cases edit with
    | bind => exact ih
    | declare own declared =>
      obtain ⟨tables, rfl, -⟩ := tables_of_declareTarget declared
      exact ih
    | openBody own opens => exact opens.block ▸ ih
    | openTop =>
      have pos := Nat.lt_of_lt_of_le hpos (NameEdits.size_le before)
      simpa [RecordId.isSentinel, Table.nextId] using Nat.ne_of_gt pos

/-- A scope stays there while names are resolved. -/
theorem Own.mono (own : p.Own n scope) (h : NameEdits source n p p') : p'.Own n scope :=
  ⟨own.le, Nat.lt_of_lt_of_le own.held h.size_le⟩

/-! ## The functions of the pass -/

/-- Two parts of the pass, one after the other. -/
theorem NameEdits.bind {ε : Type} {x : Except ε Program} {f : Program → Except ε Program}
    (hx : Keeps (NameEdits source n p) x)
    (next : ∀ p', NameEdits source n p p' → Keeps (NameEdits source n p') (f p')) :
    Keeps (NameEdits source n p) (x >>= f) :=
  Keeps.bind hx fun p' h => (next p' h).mono fun _ h' => h.trans h'

/-- A run of steps in a scope. -/
theorem Own.foldlM {α : Type} {f : Program → α → Except Fault Program} {xs : List α}
    (own : p.Own n scope)
    (step : ∀ x ∈ xs, ∀ p, p.Own n scope → Keeps (NameEdits source n p) (f p x)) :
    Keeps (NameEdits source n p) (xs.foldlM f p) :=
  Keeps.foldlM (fun x hx b h => (step x hx b (own.mono h)).mono fun _ h' => h.trans h') .refl

namespace Own

variable (own : p.Own n scope)

include own

theorem declareTarget (target : Target) :
    Keeps (NameEdits source n p) (p.declareTarget scope target) :=
  fun _ declared => .single (.declare own declared)

theorem bindExprWithin (fuel : Nat) (e : ExprId) :
    Keeps (NameEdits source n p) (p.bindExprWithin source scope fuel e) := by
  induction fuel generalizing p e with
  | zero => exact .error
  | succ fuel ih =>
    refine .read fun x hx => ?_
    split
    · next name =>
      refine .read fun found means => ?_
      cases found with
      | none => exact .pure .refl
      | some kind => exact .pure (.single (.bind (Table.get_eq_ok.1 hx) name own means))
    · exact .read fun es _ => own.foldlM fun e _ p own => ih own e

theorem bindExprs (es : List ExprId) : Keeps (NameEdits source n p) (p.bindExprs source scope es) :=
  own.foldlM fun e _ _ own => own.bindExprWithin _ e

theorem declareAhead (topLevel : Bool) (s : StmtId) :
    Keeps (NameEdits source n p) (p.declareAhead topLevel scope s) := by
  refine .read fun stmt _ => ?_
  split
  · exact own.declareTarget _
  · split
    · exact own.declareTarget _
    · exact .pure .refl
  · exact .pure .refl

theorem declareAllAhead (topLevel : Bool) (outline : Outline) :
    Keeps (NameEdits source n p) (p.declareAllAhead topLevel scope outline) :=
  .read fun _ _ => own.foldlM fun s _ _ own => own.declareAhead topLevel s

theorem bindLeaf (topLevel : Bool) (s : StmtId) :
    Keeps (NameEdits source n p) (p.bindLeaf source topLevel scope s) := by
  refine .read fun stmt _ => NameEdits.bind (own.bindExprs _) fun p h => ?_
  split
  · split
    · exact .pure .refl
    · exact (own.mono h).declareTarget _
  · exact .pure .refl

theorem bindHead (s : StmtId) : Keeps (NameEdits source n p) (p.bindHead source scope s) := by
  refine .read fun stmt _ => ?_
  split
  · exact .read fun es _ => own.bindExprs es
  · exact own.bindExprs _

/-- The scope of a body is a new one. -/
theorem openScope (s : StmtId) :
    Keeps (fun r => NameEdits source n p r.2 ∧ r.2.Own n r.1) (p.openScope s scope) := by
  intro r h
  obtain ⟨hr, opens⟩ := opens_of_openScope h
  refine ⟨.single (.openBody own opens), ?_, ?_⟩
  · rw [hr]
    exact Nat.le_trans own.le (Nat.le_of_lt own.held)
  · rw [hr, opens.tables, Table.size_push]
    exact Nat.lt_succ_self _

theorem declareInside (s : StmtId) : Keeps (NameEdits source n p) (p.declareInside scope s) := by
  refine .read fun stmt _ => ?_
  split
  · exact .read fun r _ => .read fun parameters _ => own.foldlM fun i _ _ own => own.declareTarget _
  · exact own.declareTarget _
  · exact .pure .refl

theorem bindOutline (topLevel : Bool) (outline : Outline) :
    Keeps (NameEdits source n p) (p.bindOutline source topLevel scope outline) := by
  induction outline generalizing topLevel scope p with
  | stuck fault => exact .error
  | done => exact .pure .refl
  | leaf s rest ih =>
    exact NameEdits.bind (own.bindLeaf topLevel s).lift fun p h => ih (own.mono h) topLevel
  | nested s body rest ihbody ihrest =>
    refine NameEdits.bind (own.bindHead s).lift fun p h => ?_
    have own := own.mono h
    refine (own.openScope s).bind fun r ⟨h, inner⟩ => Keeps.mono ?_ fun _ h' => h.trans h'
    have own := own.mono h
    refine NameEdits.bind (inner.declareInside s).lift fun p h => ?_
    have own := own.mono h
    have inner := inner.mono h
    refine NameEdits.bind (inner.declareAllAhead false body).lift fun p h => ?_
    have own := own.mono h
    exact NameEdits.bind (ihbody (inner.mono h) false) fun p h => ihrest (own.mono h) topLevel

end Own

/-- The program with a scope for the top level. -/
def withTop (p : Program) : Program :=
  { (p.addSymbolTable .sentinel).2 with
    block := { p.block with symbolTable := p.symbolTables.nextId } }

theorem own_withTop (p : Program) : p.withTop.Own p.symbolTables.size p.symbolTables.nextId :=
  ⟨Nat.le_refl _, by simp [withTop, addSymbolTable, Table.nextId]⟩

/-- **Name resolution is a chain of edits** in tables that it adds. -/
theorem bindNames_edits (source : String) (p : Program) :
    Keeps (NameEdits source p.symbolTables.size p) (p.bindNames source) := by
  have top : NameEdit source p.symbolTables.size p p.withTop := .openTop
  refine Keeps.mono (NameEdits.bind (p.own_withTop.declareAllAhead true _).lift fun p' h =>
    (p.own_withTop.mono h).bindOutline true _) fun _ h => ?_
  exact .head top h

end Program

end FrontEnd
