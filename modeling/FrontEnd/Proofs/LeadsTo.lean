import FrontEnd.Analysis.Compile
import FrontEnd.Proofs.Ledger
import FrontEnd.Proofs.NameEdits
import FrontEnd.Proofs.TypeEdits
/-!
# FrontEnd — what can be entered in a ledger

Every pass goes step by step through reports on account of expressions
and through changes that neither flag nor report (`LeadsTo`): an edit is
one or the other (`TypeEdits.leadsTo`, `NameEdits.leadsTo`).
-/

namespace FrontEnd

open Relation

namespace Analysis

/-- One analysis comes of another by what can be entered in a ledger. -/
def LeadsTo (a b : Analysis) : Prop := ∃ entries, Ledger a b entries

theorem LeadsTo.refl (a : Analysis) : LeadsTo a a := ⟨[], .silent rfl rfl rfl⟩

variable {a₀ a b : Analysis} {source : String} {p p' : Program} {f : Expr → Expr} {e : ExprId} {n : Nat}

theorem LeadsTo.trans (h : LeadsTo a₀ a) (h' : LeadsTo a b) : LeadsTo a₀ b := by
  obtain ⟨entries, h⟩ := h
  obtain ⟨entries', h'⟩ := h'
  exact ⟨entries ++ entries', h.append h'⟩

/-- To change anything but expressions. -/
theorem LeadsTo.change (hexprs : p.exprs = a.program.exprs) : LeadsTo a { a with program := p } :=
  ⟨[], .silent (Program.flags_congr hexprs) (by rw [hexprs]) rfl⟩

/-- To change an expression, but not its flag. -/
theorem LeadsTo.changeExpr (hf : ∀ x, (f x).flagged = x.flagged) :
    LeadsTo a { a with program := { a.program with exprs := a.program.exprs.modify e f } } :=
  ⟨[], .silent (Program.flags_modify hf) (Table.size_modify ..) rfl⟩

theorem TypeEdit.leadsTo (edit : TypeEdit source a b) : LeadsTo a b := by
  cases edit with
  | value | record => exact .changeExpr fun _ => rfl
  | report code made => exact ⟨_, .report code made⟩
  | result | parameter | declared | inferred | iterator | order => exact .change rfl

theorem TypeEdits.leadsTo (edits : TypeEdits source a b) : LeadsTo a b := by
  induction edits with
  | refl => exact .refl a
  | tail _ edit ih => exact ih.trans edit.leadsTo

end Analysis

namespace Program

open Analysis

variable {source : String} {n : Nat} {p p' : Program}

theorem NameEdit.leadsTo (edit : NameEdit source n p p') (q : Queue) : LeadsTo ⟨p, q⟩ ⟨p', q⟩ := by
  cases edit with
  | bind => exact .changeExpr fun _ => rfl
  | declare own declared =>
    obtain ⟨tables, rfl, -⟩ := tables_of_declareTarget declared
    exact .change rfl
  | openBody own opens => exact .change opens.exprs
  | openTop => exact .change rfl

theorem NameEdits.leadsTo (edits : NameEdits source n p p') (q : Queue) : LeadsTo ⟨p, q⟩ ⟨p', q⟩ := by
  induction edits with
  | refl => exact .refl _
  | tail _ edit ih => exact ih.trans (edit.leadsTo q)

end Program

end FrontEnd
