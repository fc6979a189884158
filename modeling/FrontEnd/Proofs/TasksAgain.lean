import FrontEnd.Proofs.Flags
import FrontEnd.Proofs.Order
import FrontEnd.Proofs.TypeWalk
/-!
# FrontEnd — tasks that are done are run again

To run a task that is done succeeds and changes nothing
(`runTask_again`): each type is recorded where it is recorded already,
names are no values of the enums that are expected, and what is reported
has been reported before.
-/

namespace FrontEnd

open Analysis

variable {source : String} {p₀ : Program} {a a' b : Analysis} {e : ExprId} {expected : Option Ty}
variable {x : Expr} {s : StmtId} {ss : List StmtId} {t : Target} {type : Ty}

namespace Analysis

/-! ## What is left alone is done -/

theorem Unmoved.exprDone {r : ExprId} (h : a.Unmoved b) (held : a.program.OperandsHeld)
    (done : a.ExprDone source r) : b.ExprDone source r := (Flags.unmoved h).exprDone held done

theorem Unmoved.taskDone {x : Task} (h : a.Unmoved b) (held : a.program.OperandsHeld)
    (done : a.TaskDone source x) : b.TaskDone source x := (Flags.unmoved h).taskDone held done

theorem Unmoved.typeDone (h : a.Unmoved b) (held : a.program.OperandsHeld) (done : a.TypeDone e) :
    b.TypeDone e := by
  have hname : a.TaskDone "" (.name e) := done
  exact h.taskDone held hname

/-- A run over a list moves nothing if no step of it does. -/
theorem foldlM_unmoved {α : Type} {f : Analysis → α → Except Fault Analysis} {xs : List α}
    (step : ∀ x ∈ xs, ∀ b, a.Unmoved b → ∃ b', f b x = .ok b' ∧ b.Unmoved b') :
    ∃ b, xs.foldlM f a = .ok b ∧ a.Unmoved b :=
  foldlM_total (fun b => a.Unmoved b) (fun x hx b hb => by
    obtain ⟨b', hb', hmoved⟩ := step x hx b hb
    exact ⟨b', hb', hb.trans hmoved⟩) (.refl a)

end Analysis

/-! ## Expressions -/

/-- To record the type that is recorded changes nothing. -/
theorem setExprType_same {p : Program} (hx : p.exprs.get? e = some x) : p.setExprType e x.type = p := by
  have hexprs : p.exprs.modify e ({ · with type := x.type }) = p.exprs := Table.modify_same hx rfl
  simp only [Program.setExprType, hexprs]

theorem recordType_again (done : a.NodeDone source e) :
    a.recordType e = .ok (a.program.recorded e, a) := by
  obtain ⟨x, hx, htype, -⟩ := done
  simp only [recordType, htype, ok_bind, setExprType_same hx, Program.recorded, hx]
  rfl

/-- A node that is done is not changed, and what is wrong with it has
been reported. -/
theorem nameEnumValue_again (held : a.program.OperandsHeld) (done : a.NodeDone source e)
    (hint : a.HintDone source expected e) :
    ∃ b, nameEnumValue source expected a e = .ok b ∧ a.Unmoved b := by
  obtain ⟨x, hx, -, hfield⟩ := done
  simp only [nameEnumValue, Table.get_eq_ok.2 hx, ok_bind]
  split
  · next t hk =>
    simp only [hint x t hx hk rfl, ok_bind]
    exact ⟨a, rfl, .refl a⟩
  · next subject name hk =>
    have hmem : subject ∈ a.program.operandsAt e := by
      rw [Program.operandsAt_field hx hk]
      exact List.mem_singleton_self _
    obtain ⟨y, hy⟩ := Table.exists_get?_of_lt
      (Nat.lt_trans (held.older e subject hmem) (Table.lt_size_of_get? hx))
    simp only [Table.get_eq_ok.2 hy, ok_bind]
    split
    · next t hyk =>
      obtain ⟨hfind, hquiet⟩ := hfield subject name y t hk hy hyk
      simp only [hfind, ok_bind, raiseAt_eq hx]
      exact report_of_quiet hx hquiet
    · exact ⟨a, rfl, .refl a⟩
  · exact ⟨a, rfl, .refl a⟩

/-- **To record the types in an expression that is done changes nothing.** -/
theorem typeExprWithin_again {fuel : Nat} (held : a.program.OperandsHeld) (hfuel : e.raw < fuel)
    (done : a.ExprDone source e) (hint : a.HintDone source expected e) :
    ∃ b, typeExprWithin source fuel expected a e = .ok (a.program.recorded e, b) ∧ a.Unmoved b := by
  induction fuel generalizing a e expected with
  | zero => omega
  | succ fuel ih =>
    obtain ⟨x, hx, -⟩ := done e .refl
    have hops := held.operands_eq hx
    obtain ⟨b, hrun, hb⟩ := @foldlM_unmoved a ExprId
      (fun a c => do return (← typeExprWithin source fuel none a c).2) (a.program.operandsAt e)
      fun c hc b hb => by
        have hbheld : b.program.OperandsHeld := hb.program ▸ held
        have hlt : c.raw < fuel := Nat.lt_of_lt_of_le (held.older e c hc) (Nat.le_of_lt_succ hfuel)
        obtain ⟨b', hb', hmoved⟩ := ih hbheld hlt
          (hb.exprDone held fun d hd => done d (hd.of_operand hc))
          (show b.HintDone source none c by simp [HintDone])
        exact ⟨b', by simp only [hb', ok_bind]; rfl, hmoved⟩
    have hbheld : b.program.OperandsHeld := hb.program ▸ held
    have hflags := Flags.unmoved hb
    obtain ⟨c, hname, hc⟩ := nameEnumValue_again hbheld (hb.exprDone held done e .refl)
      (hflags.hintDone hint)
    have hall := hb.trans hc
    refine ⟨c, ?_, hall⟩
    have hrecord := recordType_again (hall.exprDone held done e .refl)
    rw [show c.program.recorded e = a.program.recorded e by rw [hall.program]] at hrecord
    simp only [typeExprWithin, Table.get_eq_ok.2 hx, ok_bind, hops]
    rw [hrun, ok_bind, hname, ok_bind, hrecord]

theorem typeExpr_again (held : a.program.OperandsHeld) (done : a.ExprDone source e)
    (hint : a.HintDone source expected e) :
    ∃ b, typeExpr source expected a e = .ok (a.program.recorded e, b) ∧ a.Unmoved b := by
  obtain ⟨x, hx, -⟩ := done e .refl
  exact typeExprWithin_again held (Nat.lt_succ_of_lt (Table.lt_size_of_get? hx)) done hint

/-- A type expression that is done is not looked at anew. -/
theorem typeNamed_again (done : a.TypeDone e) :
    ∃ b, a.typeNamed e = .ok (a.program.recorded e, b) ∧ a.Unmoved b := by
  obtain ⟨x, hx, htype, hquiet⟩ := done
  obtain ⟨b, hb, hmoved⟩ : ∃ b, a.reportMisplaced e x = .ok b ∧ a.Unmoved b := by
    unfold reportMisplaced
    cases hcode : x.kind.misplaced? with
    | none => exact ⟨a, rfl, .refl a⟩
    | some code => exact report_of_quiet hx (hquiet code hcode)
  refine ⟨b, ?_, hmoved⟩
  have hbx : b.program.exprs.get? e = some x := by rw [hmoved.program, hx]
  simp only [typeNamed_eq hx, hb, ok_bind, ← htype, setExprType_same hbx, Program.recorded, hx]
  rfl

/-! ## Tasks -/

/-- To give a declaration the type it has changes nothing. -/
theorem setTypeAt_same {p : Program} (h : p.typeAt t = .ok type) (ht : t.isTyped = true) :
    p.setTypeAt type t = .ok p := by
  cases t with
  | «variable» v =>
    obtain ⟨r, hr, h⟩ := bind_eq_ok.1 h
    have hsame : p.vars.update v ({ · with type := r.type }) = .ok p.vars :=
      Table.update_same (Table.get_eq_ok.1 hr) rfl
    rw [← pure_eq_ok.1 h]
    simp only [Program.setTypeAt, Program.setVariableType, hsame, ok_bind]
    rfl
  | function f =>
    obtain ⟨r, hr, h⟩ := bind_eq_ok.1 h
    have hsame : p.functions.update f ({ · with returnType := r.returnType }) = .ok p.functions :=
      Table.update_same (Table.get_eq_ok.1 hr) rfl
    rw [← pure_eq_ok.1 h]
    simp only [Program.setTypeAt, hsame, ok_bind]
    rfl
  | parameter i =>
    obtain ⟨r, hr, h⟩ := bind_eq_ok.1 h
    have hsame : p.parameters.update i ({ · with type := r.type }) = .ok p.parameters :=
      Table.update_same (Table.get_eq_ok.1 hr) rfl
    rw [← pure_eq_ok.1 h]
    simp only [Program.setTypeAt, hsame, ok_bind]
    rfl
  | enumType u => cases ht
  | structType u => cases ht

/-- Tasks give types to declarations that have one. -/
theorem isTyped_of_give {origin : Origin} (regular : p₀.Regular) (h : .give t origin ∈ p₀.tasks s) :
    t.isTyped = true := by
  obtain ⟨⟨kind, span⟩, hs⟩ := Program.exists_stmt_of_mem_tasks h
  by_cases hk : ∃ f, kind = .function f
  · obtain ⟨f, rfl⟩ := hk
    obtain ⟨r, params, -, -, htasks, -, -⟩ := Program.function_eqs hs (regular.declarations s _ hs)
    rw [htasks, List.mem_append, List.mem_flatMap] at h
    rcases h with h | ⟨⟨i, q⟩, -, h⟩
    · rw [(Program.mem_declarationTasks h (p := p₀)).2.1 t rfl]
      rfl
    · rw [(Program.mem_declarationTasks h (p := p₀)).2.1 t rfl]
      rfl
  · rw [Program.tasks_eq hs fun f hf => hk ⟨f, hf⟩] at h
    have hgives := kind.writes_tasks _ h t rfl
    cases kind with
    | «variable» v type init =>
      rw [List.mem_singleton.1 hgives]
      rfl
    | nest head body =>
      cases head with
      | forEach iterator iterable =>
        rw [List.mem_singleton.1 hgives]
        rfl
      | _ => simp [StmtKind.gives] at hgives
    | _ => simp [StmtKind.gives] at hgives

/-- **To run a task that is done changes nothing.** -/
theorem runTask_again {x : Task} (regular : p₀.Regular) (hx : x ∈ p₀.tasks s)
    (held : a.program.OperandsHeld) (done : a.TaskDone source x) :
    ∃ b, runTask source a x = .ok b ∧ a.Unmoved b := by
  cases x with
  | name e =>
    obtain ⟨b, hb, hmoved⟩ := typeNamed_again done
    exact ⟨b, by simp only [runTask, hb, ok_bind]; rfl, hmoved⟩
  | value e expected =>
    obtain ⟨b, hb, hmoved⟩ := typeExpr_again held done.1 done.2
    exact ⟨b, by simp only [runTask, hb, ok_bind]; rfl, hmoved⟩
  | give t origin =>
    refine ⟨a, ?_, .refl a⟩
    simp only [runTask, setTypeAt_same done (isTyped_of_give regular hx), ok_bind]
    rfl

/-- **To visit statements whose tasks are done changes nothing.** -/
theorem visits_again (regular : p₀.Regular) (held : a.program.OperandsHeld)
    (done : ∀ s ∈ ss, ∀ x ∈ p₀.tasks s, a.TaskDone source x) :
    ∃ b, ss.foldlM (visit source p₀) a = .ok b ∧ a.Unmoved b := by
  refine foldlM_unmoved fun s hs b hb => foldlM_unmoved fun x hx c hc => ?_
  have hall := hb.trans hc
  exact runTask_again regular hx (hall.program ▸ held) (hall.taskDone held (done s hs x hx))

end FrontEnd
