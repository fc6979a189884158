import FrontEnd.Proofs.TypeEquations
/-!
# FrontEnd — where expressions stand

An expression stands in the place of a value or of a type. The values of
a statement are what it computes with, and everything under them; its
types are those that it declares something with. Where every expression
is used in one place, none is both (`not_inValue_of_inType`).
-/

namespace FrontEnd

namespace Program

/-- The statements that are reached from the top level, in order. -/
def reachable (p : Program) : List StmtId := elements (p.outline p.block).flatten

/-- The values in a statement. -/
def valuesAt (p : Program) (s : StmtId) : List ExprId :=
  elements do return (← p.stmts.get s).kind.values

/-- The expressions in a statement that stand in the place of a type. -/
def typesAt (p : Program) (s : StmtId) : List ExprId :=
  elements do
    match (← p.stmts.get s).kind with
    | .function f => p.signature f
    | .variable _ type _ => return type.toList
    | _ => return []

/-- The expression is a value in a statement, or an operand of one at
some depth. -/
def InValue (p : Program) (e : ExprId) : Prop :=
  ∃ s ∈ p.reachable, ∃ r ∈ p.valuesAt s, p.Under r e

/-- The expression stands in the place of a type. -/
def InType (p : Program) (e : ExprId) : Prop := ∃ s ∈ p.reachable, e ∈ p.typesAt s

/-- The expression is what a value calls. -/
def IsCallee (p : Program) (e : ExprId) : Prop :=
  ∃ c x arguments, p.InValue c ∧ p.exprs.get? c = some x ∧ x.kind = .call e arguments

variable {p p' p₀ : Program} {s s' : StmtId} {e e' r c : ExprId} {x : Expr} {stmt : Stmt}

/-! ## Statements -/

theorem valuesAt_eq (hs : p.stmts.get? s = some stmt) : p.valuesAt s = stmt.kind.values := by
  simp only [valuesAt, Table.get_eq_ok.2 hs, ok_bind]
  rfl

/-- A statement that has values is held. -/
theorem exists_stmt_of_mem_valuesAt (h : r ∈ p.valuesAt s) :
    ∃ stmt, p.stmts.get? s = some stmt ∧ r ∈ stmt.kind.values := by
  cases hs : p.stmts.get? s with
  | none => simp [valuesAt, Table.get, hs, bind, Except.bind] at h
  | some stmt => exact ⟨stmt, rfl, valuesAt_eq hs ▸ h⟩

/-- What stands in a statement is a value or a type. -/
theorem mem_slotsAt_iff : r ∈ p.slotsAt s ↔ r ∈ p.valuesAt s ∨ r ∈ p.typesAt s := by
  cases hs : p.stmts.get? s with
  | none => simp [slotsAt, valuesAt, typesAt, Table.get, hs, bind, Except.bind]
  | some stmt =>
    obtain ⟨kind, span⟩ := stmt
    simp only [slotsAt, valuesAt, typesAt, Table.get_eq_ok.2 hs, ok_bind]
    cases kind <;>
      simp [StmtKind.exprs, StmtKind.values, pure, Except.pure]

theorem mem_slotsAt_of_values (hs : p.stmts.get? s = some stmt) (he : e ∈ stmt.kind.values) :
    e ∈ p.slotsAt s :=
  mem_slotsAt_iff.2 (.inl (valuesAt_eq hs ▸ he))

/-- No expression of a statement is both a value and a type. -/
theorem UsedOnce.not_value_of_type (once : p.UsedOnce) (ht : e ∈ p.typesAt s) :
    e ∉ p.valuesAt s := by
  intro hv
  have nodup := once.slotsAt_nodup (s := s)
  obtain ⟨⟨kind, span⟩, hs, hv⟩ := exists_stmt_of_mem_valuesAt hv
  simp only [typesAt, slotsAt, Table.get_eq_ok.2 hs, ok_bind] at ht nodup
  cases kind with
  | «variable» v type init =>
    exact (List.nodup_append.1 nodup).2.2 e hv e ht rfl
  | _ => simp [StmtKind.values, pure, Except.pure] at hv ht

/-- A regular program reaches every statement. -/
theorem Regular.mem_reachable (regular : p.Regular) : s ∈ p.reachable ↔ s.raw < p.stmts.size := by
  obtain ⟨o, lays⟩ := regular.layout
  rw [reachable, outline_of_lays lays regular.whole, lays.flatten, elements_ok, ← mem_stmtIds]
  rfl

theorem Regular.inValue_of_mem (regular : p.Regular) (hr : r ∈ p.valuesAt s) (hu : p.Under r e) :
    p.InValue e :=
  ⟨s, regular.mem_reachable.2 (lt_size_of_mem_slotsAt (mem_slotsAt_iff.2 (.inl hr))), r, hr, hu⟩

theorem Regular.inType_of_mem (regular : p.Regular) (he : e ∈ p.typesAt s) : p.InType e :=
  ⟨s, regular.mem_reachable.2 (lt_size_of_mem_slotsAt (mem_slotsAt_iff.2 (.inr he))), he⟩

/-! ## Values and types -/

theorem InValue.operand (h : p.InValue e) (hc : c ∈ p.operandsAt e) : p.InValue c := by
  obtain ⟨s, hs, r, hr, hu⟩ := h
  exact ⟨s, hs, r, hr, hu.trans (.of_operand hc .refl)⟩

/-- What is a value in two statements is one in the same statement. -/
theorem UsedOnce.stmt_eq_of_values {stmt' : Stmt} (once : p.UsedOnce)
    (hs : p.stmts.get? s = some stmt) (hs' : p.stmts.get? s' = some stmt') (he : e ∈ stmt.kind.values)
    (he' : e ∈ stmt'.kind.values) : stmt = stmt' := by
  obtain rfl := once.eq_of_slot (mem_slotsAt_of_values hs he) (mem_slotsAt_of_values hs' he')
  exact Option.some.inj (hs.symm.trans hs')

/-- **What stands in the place of a type is no value.** -/
theorem UsedOnce.not_inValue_of_inType (once : p.UsedOnce) (ht : p.InType e) : ¬ p.InValue e := by
  rintro ⟨s, -, r, hr, hu⟩
  obtain ⟨s', -, he⟩ := ht
  have hslot := mem_slotsAt_iff.2 (.inr he)
  obtain rfl := once.eq_of_under_slot hslot hu
  obtain rfl := once.eq_of_slot hslot (mem_slotsAt_iff.2 (.inl hr))
  exact once.not_value_of_type he hr

/-- What is called is an operand of the call. -/
theorem IsCallee.exists_call (h : p.IsCallee e) (held : p.OperandsHeld) :
    ∃ c x arguments, p.InValue c ∧ p.exprs.get? c = some x ∧ x.kind = .call e arguments ∧
      e ∈ p.operandsAt c := by
  obtain ⟨c, x, arguments, hc, hx, hk⟩ := h
  exact ⟨c, x, arguments, hc, hx, hk, held.mem_of_call hx hk⟩

/-- What is called is a value itself. -/
theorem IsCallee.inValue (h : p.IsCallee e) (held : p.OperandsHeld) : p.InValue e := by
  obtain ⟨c, -, -, hc, -, -, hop⟩ := h.exists_call held
  exact hc.operand hop

/-- A value that a statement begins with is not called. -/
theorem UsedOnce.not_isCallee_of_slot (once : p.UsedOnce) (held : p.OperandsHeld)
    (hr : r ∈ p.slotsAt s) : ¬ p.IsCallee r := by
  intro h
  obtain ⟨c, -, -, -, -, -, hop⟩ := h.exists_call held
  exact once.not_operand_of_slot hr hop

/-- An operand is called by what it is an operand of, or not at all. -/
theorem UsedOnce.callee_of_operand (once : p.UsedOnce) (held : p.OperandsHeld)
    (hx : p.exprs.get? c = some x) (he : e ∈ p.operandsAt c) (h : p.IsCallee e) :
    ∃ arguments, x.kind = .call e arguments := by
  obtain ⟨c', x', arguments, -, hx', hk, hop⟩ := h.exists_call held
  obtain rfl := once.eq_of_operand he hop
  rw [hx] at hx'
  cases hx'
  exact ⟨arguments, hk⟩

/-! ## What the frame decides -/

theorem reachable_congr (h : p'.frame = p.frame) : p'.reachable = p.reachable := by
  rw [reachable, outline_congr h, reachable]

theorem valuesAt_frame (s : StmtId) : p.frame.valuesAt s = p.valuesAt s := by
  simp only [valuesAt, stmts_get_frame]
  cases p.stmts.get s with
  | error fault => rfl
  | ok stmt =>
    obtain ⟨kind, span⟩ := stmt
    cases kind <;> rfl

theorem valuesAt_congr (h : p'.frame = p.frame) : p'.valuesAt s = p.valuesAt s := by
  rw [← valuesAt_frame, h, valuesAt_frame]

theorem typesAt_frame (s : StmtId) : p.frame.typesAt s = p.typesAt s := by
  simp only [typesAt, stmts_get_frame, signature_frame]
  cases p.stmts.get s with
  | error fault => rfl
  | ok stmt =>
    obtain ⟨kind, span⟩ := stmt
    cases kind <;> rfl

theorem typesAt_congr (h : p'.frame = p.frame) : p'.typesAt s = p.typesAt s := by
  rw [← typesAt_frame, h, typesAt_frame]

theorem inType_congr (h : p'.frame = p.frame) : p'.InType e ↔ p.InType e := by
  simp only [InType, reachable_congr h, typesAt_congr h]

theorem inValue_congr (h : p'.frame = p.frame) (hops : ∀ e, p'.operandsAt e = p.operandsAt e) :
    p'.InValue e ↔ p.InValue e := by
  simp only [InValue, reachable_congr h, valuesAt_congr h, under_congr hops]

/-- What has lost operands uses each expression in one place still. -/
theorem Pruned.usedOnce (h : Pruned p₀ p) (once : p₀.UsedOnce) : p.UsedOnce := by
  have hexprs : p.exprIds = p₀.exprIds := by rw [exprIds, size_exprs_congr h.frame, exprIds]
  have hstmts : p.stmtIds = p₀.stmtIds := by rw [stmtIds, size_stmts_congr h.frame, stmtIds]
  have hslots : p.slotsAt = p₀.slotsAt := funext fun s => slotsAt_congr h.frame
  rw [UsedOnce, hexprs, hstmts, hslots]
  refine List.Nodup.sublist (List.Sublist.append ?_ (List.Sublist.refl _)) once
  induction p₀.exprIds with
  | nil => exact List.Sublist.refl _
  | cons e es ih =>
    refine List.Sublist.append ?_ ih
    rcases h.operandsAt e with he | he <;> rw [he]
    exact List.nil_sublist _

/-! ## Tasks -/

/-- The values of a statement are what it has tasks for as values. -/
theorem mem_valuesAt_of_task
    (declarations : ∀ s stmt, p.stmts.get? s = some stmt → p.DeclarationHeld stmt.kind)
    {expected : Option Origin} (h : .value e expected ∈ p.tasks s) : e ∈ p.valuesAt s := by
  obtain ⟨⟨kind, span⟩, hs⟩ := exists_stmt_of_mem_tasks h
  rw [valuesAt_eq hs]
  by_cases hk : ∃ f, kind = .function f
  · obtain ⟨f, rfl⟩ := hk
    exact absurd h (not_value_of_function hs (declarations s _ hs))
  · rw [tasks_eq hs fun f hf => hk ⟨f, hf⟩] at h
    cases kind with
    | «variable» v type init =>
      cases type <;> cases init <;> simp [StmtKind.tasks, StmtKind.values] at h ⊢ <;> exact h.1
    | nest head body =>
      cases head <;> simp [StmtKind.tasks, StmtKind.values, Head.expr?] at h ⊢ <;> exact h.1
    | assign lhs rhs =>
      simp only [StmtKind.tasks, StmtKind.values, List.mem_cons, Task.value.injEq] at h ⊢
      tauto
    | returnValue value =>
      cases value <;> simp [StmtKind.tasks, StmtKind.values] at h ⊢
      exact h.1
    | _ => simp [StmtKind.tasks, StmtKind.values] at h ⊢ <;> exact h.1

/-- A value of a statement has a task. -/
theorem exists_task_of_mem_valuesAt (h : r ∈ p.valuesAt s) :
    ∃ expected, .value r expected ∈ p.tasks s := by
  obtain ⟨stmt, hs, hr⟩ := exists_stmt_of_mem_valuesAt h
  rw [tasks_eq hs fun f hf => by rw [hf] at hr; cases hr]
  exact mem_tasks_of_value hr

/-- The types of a statement are what it has tasks for as types. -/
theorem mem_tasks_name
    (declarations : ∀ s stmt, p.stmts.get? s = some stmt → p.DeclarationHeld stmt.kind) :
    .name e ∈ p.tasks s ↔ e ∈ p.typesAt s := by
  cases hs : p.stmts.get? s with
  | none => simp [tasks, typesAt, Table.get, hs, bind, Except.bind]
  | some stmt =>
    obtain ⟨kind, span⟩ := stmt
    have hname : ∀ t (typeExpr : Option ExprId) other,
        .name e ∈ declarationTasks t typeExpr other ↔ typeExpr = some e := by
      intro t typeExpr other
      cases typeExpr <;> simp [declarationTasks, eq_comm]
    by_cases hk : ∃ f, kind = .function f
    · obtain ⟨f, rfl⟩ := hk
      obtain ⟨r, params, hr, hparams, htasks, -, -⟩ := function_eqs hs (declarations s _ hs)
      simp only [htasks, typesAt, signature, Table.get_eq_ok.2 hs, ok_bind, Table.get_eq_ok.2 hr,
        hparams, pure, Except.pure, elements_ok, List.mem_append, List.mem_flatMap, hname,
        Option.mem_toList, List.mem_filterMap]
    · rw [tasks_eq hs fun f hf => hk ⟨f, hf⟩]
      simp only [typesAt, Table.get_eq_ok.2 hs, ok_bind]
      cases kind with
      | «variable» v type init =>
        cases type <;> cases init <;>
          simp [StmtKind.tasks, pure, Except.pure, eq_comm]
      | nest head body => cases head <;> simp [StmtKind.tasks, pure, Except.pure]
      | returnValue value => cases value <;> simp [StmtKind.tasks, pure, Except.pure]
      | function f => exact absurd ⟨f, rfl⟩ hk
      | _ => simp [StmtKind.tasks, pure, Except.pure]

end Program

end FrontEnd
