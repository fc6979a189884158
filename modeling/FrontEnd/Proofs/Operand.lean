import FrontEnd.Proofs.Frame
import Mathlib.Data.List.Nodup
import Mathlib.Data.List.Pairwise
import Mathlib.Logic.Relation
/-!
# FrontEnd — expressions as trees

Where every expression is used in at most one place (`UsedOnce`) and
operands are older than what is made of them (`OperandsOlder`), the
expressions of a program are trees, with the expressions of statements
and signatures at the roots. What lies under two different roots, or
under two different operands of one node, is different
(`eq_of_under_slots`, `eq_of_under_operands`), so that a pass that walks
one of them leaves the other as it is.
-/

namespace FrontEnd

/-- What only one list of a family holds tells which one. -/
theorem eq_of_nodup_flatMap {α β : Type} {f : α → List β} {xs : List α} {a a' : α} {b : β}
    (h : (xs.flatMap f).Nodup) (ha : a ∈ xs) (ha' : a' ∈ xs) (hb : b ∈ f a) (hb' : b ∈ f a') :
    a = a' := by
  by_contra hne
  have : Std.Symm (Function.onFun List.Disjoint f) := ⟨fun _ _ hd => fun _ hb ha => hd ha hb⟩
  exact (List.nodup_flatMap.1 h).2.forall ha ha' hne hb hb'

namespace Program

/-- The direct operands of the expression under an id. -/
def operandsAt (p : Program) (e : ExprId) : List ExprId :=
  elements (do p.operands (← p.exprs.get e).kind)

/-- The expressions that stand in a statement, those of the signature it
declares included. -/
def slotsAt (p : Program) (s : StmtId) : List ExprId :=
  elements do
    match (← p.stmts.get s).kind with
    | .function f => p.signature f
    | kind => return kind.exprs

def exprIds (p : Program) : List ExprId := (IdRange.mk 0 p.exprs.size).ids

def stmtIds (p : Program) : List StmtId := (IdRange.mk 0 p.stmts.size).ids

/-- Every expression is used in at most one place: as an operand, as an
argument, or in a statement or signature. -/
def UsedOnce (p : Program) : Prop :=
  (p.exprIds.flatMap p.operandsAt ++ p.stmtIds.flatMap p.slotsAt).Nodup

instance (p : Program) : Decidable p.UsedOnce := inferInstanceAs (Decidable (List.Nodup _))

/-- Operands are made before what is made of them. -/
def OperandsOlder (p : Program) : Prop := ∀ e, ∀ c ∈ p.operandsAt e, c.raw < e.raw

/-- The expression `e` is `r`, or an operand of `r` at some depth. -/
def Under (p : Program) : ExprId → ExprId → Prop :=
  Relation.ReflTransGen fun e c => c ∈ p.operandsAt e

variable {p p' : Program} {e e' r r' c c' : ExprId} {s s' : StmtId}

/-! ## Reading them off -/

theorem slotsAt_frame (s : StmtId) : p.frame.slotsAt s = p.slotsAt s := by
  simp only [slotsAt, stmts_get_frame, signature_frame]
  cases p.stmts.get s with
  | error fault => rfl
  | ok stmt =>
    obtain ⟨kind, span⟩ := stmt
    cases kind <;> rfl

theorem slotsAt_congr (h : p'.frame = p.frame) : p'.slotsAt s = p.slotsAt s := by
  rw [← slotsAt_frame, h, slotsAt_frame]

theorem operands_congr (h : p'.arguments = p.arguments) (kind : ExprKind) :
    p'.operands kind = p.operands kind := by
  cases kind <;> simp only [operands, h]

theorem operandsAt_of_get {x : Expr} {es : List ExprId} (hx : p.exprs.get e = .ok x)
    (ho : p.operands x.kind = .ok es) : p.operandsAt e = es := by
  simp only [operandsAt, hx, ok_bind, ho, elements_ok]

theorem operandsAt_field {x : Expr} {name : Span} (hx : p.exprs.get? e = some x)
    (hk : x.kind = .field c name) : p.operandsAt e = [c] :=
  operandsAt_of_get (Table.get_eq_ok.2 hx) (by rw [hk]; rfl)

theorem operandsAt_unary {x : Expr} {op : UnaryOp} (hx : p.exprs.get? e = some x)
    (hk : x.kind = .unary op c) : p.operandsAt e = [c] :=
  operandsAt_of_get (Table.get_eq_ok.2 hx) (by rw [hk]; rfl)

theorem operandsAt_binary {x : Expr} {op : BinaryOp} {lhs rhs : ExprId}
    (hx : p.exprs.get? e = some x) (hk : x.kind = .binary op lhs rhs) :
    p.operandsAt e = [lhs, rhs] :=
  operandsAt_of_get (Table.get_eq_ok.2 hx) (by rw [hk]; rfl)

/-- What stands for a declaration or a type, and a name, has no operands. -/
theorem operandsAt_leaf {x : Expr} (hx : p.exprs.get? e = some x)
    (hk : p.operands x.kind = .ok []) : p.operandsAt e = [] :=
  operandsAt_of_get (Table.get_eq_ok.2 hx) hk

/-- Only an expression that the program holds has operands. -/
theorem lt_size_of_mem_operandsAt (h : c ∈ p.operandsAt e) : e.raw < p.exprs.size := by
  by_contra hlt
  have hnone : p.exprs.get? e = none := Table.get?_eq_none_iff.2 (Nat.le_of_not_lt hlt)
  simp [operandsAt, Table.get, hnone, bind, Except.bind] at h

theorem lt_size_of_mem_slotsAt (h : e ∈ p.slotsAt s) : s.raw < p.stmts.size := by
  by_contra hlt
  have hnone : p.stmts.get? s = none := Table.get?_eq_none_iff.2 (Nat.le_of_not_lt hlt)
  simp [slotsAt, Table.get, hnone, bind, Except.bind] at h

theorem mem_exprIds : e ∈ p.exprIds ↔ e.raw < p.exprs.size := by
  cases e with | mk e => simp [exprIds, IdRange.ids]

theorem mem_stmtIds : s ∈ p.stmtIds ↔ s.raw < p.stmts.size := by
  cases s with | mk s => simp [stmtIds, IdRange.ids]

/-! ## What lies under an expression -/

theorem Under.refl : p.Under r r := Relation.ReflTransGen.refl

theorem Under.trans (h : p.Under r e) (h' : p.Under e e') : p.Under r e' :=
  Relation.ReflTransGen.trans h h'

theorem Under.of_operand (hc : c ∈ p.operandsAt r) (h : p.Under c e) : p.Under r e :=
  Relation.ReflTransGen.head hc h

/-- What lies under an expression is it or lies under an operand of it. -/
theorem under_iff : p.Under r e ↔ e = r ∨ ∃ c ∈ p.operandsAt r, p.Under c e := by
  unfold Under
  rw [Relation.ReflTransGen.cases_head_iff]
  simp only [eq_comm]

theorem under_leaf_iff (h : p.operandsAt r = []) : p.Under r e ↔ e = r := by
  rw [under_iff, h]
  simp

/-- Fewer operands, less that lies under. -/
theorem Under.mono (h : ∀ e, p'.operandsAt e ⊆ p.operandsAt e) (hu : p'.Under r e) :
    p.Under r e :=
  Relation.ReflTransGen.mono (fun e _ hc => h e hc) _ _ hu

theorem under_congr (h : ∀ e, p'.operandsAt e = p.operandsAt e) : p'.Under r e ↔ p.Under r e := by
  unfold Under
  simp only [h]

theorem le_of_under (older : p.OperandsOlder) (h : p.Under r e) : e.raw ≤ r.raw := by
  induction h with
  | refl => exact Nat.le_refl _
  | tail _ hc ih =>
    have := older _ _ hc
    omega

/-! ## One place for each expression -/

namespace UsedOnce

variable (once : p.UsedOnce)

include once

theorem nodup_operands : (p.exprIds.flatMap p.operandsAt).Nodup := (List.nodup_append.1 once).1

theorem nodup_slots : (p.stmtIds.flatMap p.slotsAt).Nodup := (List.nodup_append.1 once).2.1

theorem operandsAt_nodup : (p.operandsAt e).Nodup := by
  by_cases h : e.raw < p.exprs.size
  · exact (List.nodup_flatMap.1 once.nodup_operands).1 e (mem_exprIds.2 h)
  · have : p.operandsAt e = [] :=
      List.eq_nil_iff_forall_not_mem.2 fun c hc => h (lt_size_of_mem_operandsAt hc)
    rw [this]
    exact List.nodup_nil

theorem slotsAt_nodup : (p.slotsAt s).Nodup := by
  by_cases h : s.raw < p.stmts.size
  · exact (List.nodup_flatMap.1 once.nodup_slots).1 s (mem_stmtIds.2 h)
  · have : p.slotsAt s = [] :=
      List.eq_nil_iff_forall_not_mem.2 fun c hc => h (lt_size_of_mem_slotsAt hc)
    rw [this]
    exact List.nodup_nil

/-- An expression is an operand of one other at most. -/
theorem eq_of_operand (h : c ∈ p.operandsAt e) (h' : c ∈ p.operandsAt e') : e = e' := by
  exact eq_of_nodup_flatMap once.nodup_operands (mem_exprIds.2 (lt_size_of_mem_operandsAt h))
    (mem_exprIds.2 (lt_size_of_mem_operandsAt h')) h h'

/-- A statement shares no expression with another. -/
theorem eq_of_slot (h : r ∈ p.slotsAt s) (h' : r ∈ p.slotsAt s') : s = s' := by
  exact eq_of_nodup_flatMap once.nodup_slots (mem_stmtIds.2 (lt_size_of_mem_slotsAt h))
    (mem_stmtIds.2 (lt_size_of_mem_slotsAt h')) h h'

/-- What stands in a statement is no operand. -/
theorem not_operand_of_slot (h : r ∈ p.slotsAt s) : r ∉ p.operandsAt e := by
  intro hc
  refine (List.nodup_append.1 once).2.2 r ?_ r ?_ rfl
  · exact List.mem_flatMap.2 ⟨e, mem_exprIds.2 (lt_size_of_mem_operandsAt hc), hc⟩
  · exact List.mem_flatMap.2 ⟨s, mem_stmtIds.2 (lt_size_of_mem_slotsAt h), h⟩

/-- **Two expressions with one below both lie one under the other.** -/
theorem under_or_under (h : p.Under r e) (h' : p.Under r' e) : p.Under r r' ∨ p.Under r' r := by
  induction h with
  | refl => exact .inr h'
  | tail hr hc ih =>
    rcases Relation.ReflTransGen.cases_tail h' with rfl | ⟨d, hd, hdc⟩
    · exact .inl (hr.tail hc)
    · -- the one expression that the last one is an operand of lies under both
      exact ih (once.eq_of_operand hc hdc ▸ hd)

/-- Nothing but itself has a slot under it. -/
theorem eq_of_under_slot (hr : r ∈ p.slotsAt s) (h : p.Under e r) : r = e := by
  rcases Relation.ReflTransGen.cases_tail h with rfl | ⟨d, -, hd⟩
  · rfl
  · exact absurd hd (once.not_operand_of_slot hr)

/-- **What lies under two slots lies under one of them only.** -/
theorem eq_of_under_slots (hr : r ∈ p.slotsAt s) (hr' : r' ∈ p.slotsAt s')
    (h : p.Under r e) (h' : p.Under r' e) : r = r' := by
  rcases once.under_or_under h h' with hu | hu
  · exact (once.eq_of_under_slot hr' hu).symm
  · exact once.eq_of_under_slot hr hu

/-- **What lies under two operands of one expression lies under one of
them only.** -/
theorem eq_of_under_operands (older : p.OperandsOlder) (hc : c ∈ p.operandsAt r)
    (hc' : c' ∈ p.operandsAt r) (h : p.Under c e) (h' : p.Under c' e) : c = c' := by
  have key : ∀ {c c' : ExprId}, c ∈ p.operandsAt r → c' ∈ p.operandsAt r → p.Under c c' →
      c = c' := by
    intro c c' hc hc' hu
    rcases Relation.ReflTransGen.cases_tail hu with rfl | ⟨d, hd, hdc⟩
    · rfl
    · -- then the expression itself lies under its operand, which is older
      have hdr : d = r := once.eq_of_operand hdc hc'
      have hle := le_of_under older (hdr ▸ hd)
      have hlt := older r c hc
      omega
  rcases once.under_or_under h h' with hu | hu
  · exact key hc hc' hu
  · exact (key hc' hc hu).symm

end UsedOnce

end Program

end FrontEnd
