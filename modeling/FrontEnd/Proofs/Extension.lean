import FrontEnd.Proofs.Regular
import FrontEnd.Proofs.ScopeLinks
/-!
# FrontEnd — programs that only grow

A builder appends records. What is read off a program through ids it
holds is then read off every program that has come out of it by
appending (`Extends`): operands, declarations, and what each statement
owns.
-/

namespace FrontEnd

namespace Table

variable {k : RecordKind} {α : Type} {t t' t'' : Table k α}

/-- Every record of the one table is in the other, under the same id. -/
def Extends (t t' : Table k α) : Prop := ∀ i x, t.get? i = some x → t'.get? i = some x

theorem Extends.refl (t : Table k α) : t.Extends t := fun _ _ h => h

theorem Extends.trans (h : t.Extends t') (h' : t'.Extends t'') : t.Extends t'' :=
  fun i x hx => h' i x (h i x hx)

theorem extends_push (t : Table k α) (record : α) : t.Extends (t.push record) := by
  intro i x hx
  rw [get?_push_of_lt (lt_size_of_get? hx), hx]

theorem extends_append (t : Table k α) (records : List α) : t.Extends (t.append records) := by
  intro i x hx
  rw [get?_append_of_lt (lt_size_of_get? hx), hx]

theorem Extends.size_le (h : t.Extends t') : t.size ≤ t'.size := by
  by_contra hlt
  obtain ⟨x, hx⟩ := exists_get?_of_lt (t := t) (i := ⟨t'.size⟩) (by simp only; omega)
  exact Nat.lt_irrefl _ (lt_size_of_get? (h _ x hx))

/-- A slice of a table is one of every table that extends it. -/
theorem Extends.slice (h : t.Extends t') {r : IdRange k} {l : List (RecordId k × α)}
    (hl : t.slice r = .ok l) : t'.slice r = .ok l := by
  unfold Table.slice at hl ⊢
  split at hl
  · next hr => rw [if_pos hr, hl]
  · next hr =>
    split at hl
    · next hstop =>
      have hle := h.size_le
      rw [if_neg hr, if_pos (Nat.le_trans hstop hle), ← hl]
      congr 2
      refine List.ext_getElem? fun i => ?_
      have hpre : ∀ n : Nat, n < t.size → t'.records[n]? = t.records[n]? := by
        intro n hn
        obtain ⟨x, hx⟩ := exists_get?_of_lt (t := t) (i := ⟨n⟩) hn
        rw [show t.records[n]? = some x from hx]
        exact h ⟨n⟩ x hx
      simp only [Array.getElem?_toList, Array.getElem?_extract]
      by_cases hi : i < min r.stop t.size - r.start
      · rw [if_pos (show i < min r.stop t'.records.size - r.start by
            simp only [size] at hi hle hstop ⊢; omega),
          if_pos (show i < min r.stop t.records.size - r.start from hi)]
        exact hpre _ (by omega)
      · rw [if_neg (show ¬ i < min r.stop t'.records.size - r.start by
            simp only [size] at hi hle hstop ⊢; omega),
          if_neg (show ¬ i < min r.stop t.records.size - r.start from hi)]
    · cases hl

end Table

namespace Program

/-- The one program has come out of the other by appending records. -/
structure Extends (p p' : Program) : Prop where
  arguments : p.arguments.Extends p'.arguments
  stmts : p.stmts.Extends p'.stmts
  functions : p.functions.Extends p'.functions
  parameters : p.parameters.Extends p'.parameters
  vars : p.vars.Extends p'.vars
  enumTypes : p.enumTypes.Extends p'.enumTypes
  enumValues : p.enumValues.Extends p'.enumValues
  structTypes : p.structTypes.Extends p'.structTypes

variable {p p' : Program} {s : StmtId} {stmt : Stmt}

theorem Extends.trans {p'' : Program} (h : Extends p p') (h' : Extends p' p'') : Extends p p'' :=
  ⟨h.arguments.trans h'.arguments, h.stmts.trans h'.stmts, h.functions.trans h'.functions,
    h.parameters.trans h'.parameters, h.vars.trans h'.vars, h.enumTypes.trans h'.enumTypes,
    h.enumValues.trans h'.enumValues, h.structTypes.trans h'.structTypes⟩

namespace Extends

variable (h : Extends p p')

include h

/-- Operands that can be listed stay as they are. -/
theorem operands {kind : ExprKind} {es : List ExprId} (ho : p.operands kind = .ok es) :
    p'.operands kind = .ok es := by
  cases kind with
  | call callee arguments =>
    obtain ⟨l, hl, ho⟩ := bind_eq_ok.1 ho
    simp only [Program.operands, h.arguments.slice hl, ok_bind]
    exact ho
  | _ => exact ho

theorem declarationHeld {kind : StmtKind} (hd : p.DeclarationHeld kind) :
    p'.DeclarationHeld kind := by
  cases kind with
  | function f =>
    obtain ⟨r, hr, hrange⟩ := hd
    refine ⟨r, h.functions f r hr, hrange.imp_right fun hle => ?_⟩
    exact Nat.le_trans hle h.parameters.size_le
  | enumType e => exact Nat.lt_of_lt_of_le hd h.enumTypes.size_le
  | structType u => exact Nat.lt_of_lt_of_le hd h.structTypes.size_le
  | «variable» v type init => exact Nat.lt_of_lt_of_le hd h.vars.size_le
  | nest head body =>
    cases head with
    | forEach iterator iterable => exact Nat.lt_of_lt_of_le hd h.vars.size_le
    | _ => trivial
  | _ => trivial

theorem nameOf {t : Target} {name : Span} (hn : p.nameOf t = .ok name) :
    p'.nameOf t = .ok name := by
  have key : ∀ {k : RecordKind} {α : Type} {a b : Table k α} {i : RecordId k} (f : α → Span),
      a.Extends b → (do return f (← a.get i) : Except Fault Span) = .ok name →
        (do return f (← b.get i) : Except Fault Span) = .ok name := by
    intro k α a b i f hab hn
    obtain ⟨r, hr, hn⟩ := bind_eq_ok.1 hn
    rw [Table.get_eq_ok.2 (hab i r (Table.get_eq_ok.1 hr))]
    exact hn
  cases t with
  | «variable» v => exact key Variable.name h.vars hn
  | function f => exact key Function.name h.functions hn
  | parameter a => exact key Parameter.name h.parameters hn
  | enumType e => exact key EnumType.name h.enumTypes hn
  | structType u => exact key StructType.name h.structTypes hn

/-- A statement owns what it has owned. -/
theorem owned (hs : p.stmts.get? s = some stmt) (hd : p.DeclarationHeld stmt.kind) :
    p'.owned s = p.owned s := by
  have hs' := h.stmts s stmt hs
  obtain ⟨kind, span⟩ := stmt
  simp only [Program.owned, declaredAhead, declaredInside, Table.get_eq_ok.2 hs, ok_bind,
    Table.get_eq_ok.2 hs']
  cases kind with
  | function f =>
    obtain ⟨r, hr, hrange⟩ := hd
    obtain ⟨l, hl⟩ := slice_ok hrange
    simp only [Table.get_eq_ok.2 hr, Table.get_eq_ok.2 (h.functions f r hr), ok_bind, hl,
      h.parameters.slice hl]
  | nest head body => cases head <;> rfl
  | _ => rfl

/-- A statement has the body it has had. -/
theorem bodyOf (hs : p.stmts.get? s = some stmt) (hd : p.DeclarationHeld stmt.kind) :
    p'.bodyOf s = p.bodyOf s := by
  have hs' := h.stmts s stmt hs
  obtain ⟨kind, span⟩ := stmt
  simp only [Program.bodyOf, Table.get_eq_ok.2 hs, ok_bind, Table.get_eq_ok.2 hs']
  cases kind with
  | function f =>
    obtain ⟨r, hr, -⟩ := hd
    simp only [Table.get_eq_ok.2 hr, Table.get_eq_ok.2 (h.functions f r hr)]
  | _ => rfl

theorem bodyPlace (hs : p.stmts.get? s = some stmt) (hd : p.DeclarationHeld stmt.kind) :
    p'.bodyPlace s = p.bodyPlace s := by
  rw [Program.bodyPlace, Program.bodyPlace, h.bodyOf hs hd]

end Extends

end Program

end FrontEnd
