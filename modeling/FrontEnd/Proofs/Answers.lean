import FrontEnd.Proofs.Checks
import FrontEnd.Proofs.Placement
/-!
# FrontEnd — the check of a layout always answers

`Program.validate` looks ids up in programs of which nothing is known
yet. Still it never faults (`validate_answers`): a range is found to be
held before it is read, and a body to lie inside its block before it is
looked into.
-/

namespace FrontEnd

/-- The step does not fault. -/
def Answers {ε α : Type} (x : Except (Abort ε) α) : Prop := ∀ fault, x ≠ .error (.fault fault)

namespace Answers

variable {ε α β : Type} {x : Except (Abort ε) α}

theorem of_ok {a : α} (h : x = .ok a) : Answers x := by
  rintro fault hfault
  rw [h] at hfault
  cases hfault

theorem error (e : ε) : Answers (.error (.error e) : Except (Abort ε) α) := by
  rintro fault ⟨⟩

theorem bind {f : α → Except (Abort ε) β} (hx : Answers x)
    (hf : ∀ a, x = .ok a → Answers (f a)) : Answers (x >>= f) := by
  cases x with
  | error abort =>
    rintro fault hfault
    exact hx fault (by cases hfault; rfl)
  | ok a => exact hf a rfl

theorem forM {xs : List α} {f : α → Except (Abort ε) Unit} (h : ∀ x ∈ xs, Answers (f x)) :
    Answers (xs.forM f) := by
  induction xs with
  | nil => exact of_ok rfl
  | cons x xs ih =>
    obtain ⟨hx, hxs⟩ := List.forall_mem_cons.1 h
    exact hx.bind fun _ _ => ih hxs

theorem option_forM {o : Option α} {f : α → Except (Abort ε) Unit} (h : ∀ x, Answers (f x)) :
    Answers (o.forM f) := by
  cases o with
  | none => exact of_ok rfl
  | some x => exact h x

/-- A step that does not fault succeeds or is refused. -/
theorem cases (h : Answers x) : (∃ a, x = .ok a) ∨ ∃ e, x = .error (.error e) := by
  cases x with
  | ok a => exact .inl ⟨a, rfl⟩
  | error abort =>
    cases abort with
    | fault fault => exact absurd rfl (h fault)
    | error e => exact .inr ⟨e, rfl⟩

end Answers

namespace Table

variable {k : RecordKind} {α : Type}

theorem checkId_answers (t : Table k α) (i : RecordId k) : Answers (t.checkId i) := by
  unfold checkId
  split
  · exact .of_ok rfl
  · exact .error _

theorem checkRange_answers (t : Table k α) (r : IdRange k) : Answers (t.checkRange r) := by
  unfold checkRange
  split
  · exact .of_ok rfl
  · exact t.checkId_answers _

end Table

namespace Program

variable (p : Program) {b : Block}

/-! ## Records -/

theorem checkExprKind_answers (kind : ExprKind) : Answers (p.checkExprKind kind) := by
  cases kind with
  | call callee arguments =>
    refine (p.exprs.checkId_answers callee).bind fun _ _ => ?_
    refine (p.arguments.checkRange_answers arguments).bind fun _ hrange => ?_
    obtain ⟨l, hl⟩ := slice_ok (Table.checkRange_eq_ok.1 hrange)
    rw [hl]
    exact .forM fun x _ => p.exprs.checkId_answers x.2
  | range first last =>
    exact (p.exprs.checkId_answers first).bind fun _ _ => p.exprs.checkId_answers last
  | binary op lhs rhs =>
    exact (p.exprs.checkId_answers lhs).bind fun _ _ => p.exprs.checkId_answers rhs
  | field subject name => exact p.exprs.checkId_answers subject
  | unary op operand => exact p.exprs.checkId_answers operand
  | enumValue v => exact p.enumValues.checkId_answers v
  | «variable» v => exact p.vars.checkId_answers v
  | function f => exact p.functions.checkId_answers f
  | parameter i => exact p.parameters.checkId_answers i
  | _ => exact .of_ok rfl

theorem checkEnumTypes_answers (start index : Nat) (types : List EnumType) :
    Answers (checkEnumTypes start index types) := by
  induction types generalizing start index with
  | nil => exact .of_ok rfl
  | cons r rest ih =>
    unfold checkEnumTypes
    split
    · exact ih _ _
    · exact .error _

theorem checkDeclarations_answers : Answers p.checkDeclarations := by
  refine (Answers.forM fun r _ => ?_).bind fun _ _ => ?_
  · exact (Answers.option_forM p.exprs.checkId_answers).bind fun _ _ =>
      p.parameters.checkRange_answers _
  · refine (Answers.forM fun r _ => .option_forM p.exprs.checkId_answers).bind fun _ _ => ?_
    exact (checkEnumTypes_answers 0 0 _).bind fun stop _ => p.enumValues.checkRange_answers _

theorem checkStmtKind_answers (kind : StmtKind) : Answers (p.checkStmtKind kind) := by
  have hid := p.exprs.checkId_answers
  cases kind with
  | function f => exact p.functions.checkId_answers f
  | enumType u => exact p.enumTypes.checkId_answers u
  | structType u => exact p.structTypes.checkId_answers u
  | «variable» v type init =>
    exact (p.vars.checkId_answers v).bind fun _ _ =>
      (Answers.option_forM hid).bind fun _ _ => .option_forM hid
  | nest head body =>
    cases head with
    | forEach iterator iterable =>
      exact (p.vars.checkId_answers iterator).bind fun _ _ => hid iterable
    | ifThen condition => exact hid condition
    | elseIf condition => exact hid condition
    | whileDo condition => exact hid condition
    | _ => exact .of_ok rfl
  | assign lhs rhs => exact (hid lhs).bind fun _ _ => hid rhs
  | output value => exact hid value
  | evaluate value => exact hid value
  | returnValue value =>
    cases value with
    | some value => exact hid value
    | none => exact .of_ok rfl
  | _ => exact .of_ok rfl

/-! ## Blocks -/

theorem checkPlace_answers (limit : Nat) (child : StmtId) (body : Block) :
    Answers (checkPlace limit child body) := by
  unfold checkPlace
  split
  · exact .error _
  · split
    · exact .error _
    · exact .of_ok rfl

variable {p}

/-- A block that lies inside the list of statements has children in it. -/
theorem childrenFrom_succeeds {places offset : Nat}
    (bodies : ∀ s : StmtId, s.raw < p.stmts.size → ∃ body, p.bodyOf s = .ok body)
    (fits : b.statements.stop ≤ p.stmts.size) :
    Succeeds (p.childrenFrom b places offset) fun children =>
      ∀ s ∈ children.ids, b.statements.start ≤ s.raw ∧ s.raw < p.stmts.size := by
  induction places generalizing offset with
  | zero => exact .pure (by simp)
  | succ places ih =>
    unfold childrenFrom
    split
    · next hlt =>
      have hheld : (b.stmtAt offset).raw < p.stmts.size := by
        simp only [IdRange.stop, Block.len, Block.stmtAt] at fits hlt ⊢
        omega
      obtain ⟨body, hbody⟩ := bodies _ hheld
      have hslots : Succeeds (p.slotCount (b.stmtAt offset)) fun _ => True :=
        (Succeeds.of_eq (P := fun _ => True) hbody trivial).bind fun _ _ => .pure trivial
      refine hslots.bind fun slots _ => ih.bind fun rest hrest => .pure ?_
      exact List.forall_mem_cons.2 ⟨⟨Nat.le_add_right _ _, hheld⟩, hrest⟩
    · exact .pure (by simp)

theorem checkBlockWithin_answers {fuel : Nat}
    (bodies : ∀ s : StmtId, s.raw < p.stmts.size → ∃ body, p.bodyOf s = .ok body)
    (fits : b.statements.stop ≤ p.stmts.size) (hf : b.len < fuel) :
    Answers (p.checkBlockWithin fuel b) := by
  induction fuel generalizing b with
  | zero => omega
  | succ fuel ih =>
    refine (p.symbolTables.checkId_answers _).bind fun _ _ => ?_
    obtain ⟨listed, hchildren, hheld⟩ : Succeeds (p.children b) fun children =>
      ∀ s ∈ children.ids, b.statements.start ≤ s.raw ∧ s.raw < p.stmts.size :=
      childrenFrom_succeeds bodies fits
    obtain ⟨found, hfound⟩ : ∃ found, p.bodies b = .ok found := by
      simp only [Program.bodies, hchildren, ok_bind]
      refine exists_filterMapM fun s hs => ?_
      obtain ⟨body, hbody⟩ := bodies s (hheld s hs).2
      exact ⟨_, by rw [hbody]; rfl⟩
    rw [hfound]
    refine (Answers.forM fun c _ => checkPlace_answers _ c.1 c.2).bind fun _ hplaces =>
      .forM fun c hc => ?_
    -- a body is looked into after it has been found to lie inside the block
    have hc := List.mem_reverse.1 hc
    obtain ⟨hstart, hstop⟩ := checkPlace_eq_ok.1 (forM_eq_ok.1 hplaces c hc)
    have hbelow := (hheld c.1 ((mem_bodies hchildren hfound).1 hc).1).1
    refine ih (Nat.le_trans hstop fits) ?_
    simp only [IdRange.stop, Block.len] at hstart hstop hf ⊢
    omega

/-- **The check of a layout never faults**: every program is accepted, or
refused with an error of the layout. -/
theorem validate_answers (p : Program) : Answers p.validate := by
  refine (Answers.forM fun x _ => p.checkExprKind_answers x.kind).bind fun _ _ => ?_
  refine p.checkDeclarations_answers.bind fun _ hdeclarations => ?_
  refine (Answers.forM fun s _ => p.checkStmtKind_answers s.kind).bind fun _ hstmts => ?_
  refine Answers.bind ?_ fun _ _ => .forM fun t _ => p.symbolTables.checkId_answers t.next
  have functions := (checkDeclarations_eq_ok.1 hdeclarations).1
  have bodies : ∀ s : StmtId, s.raw < p.stmts.size → ∃ body, p.bodyOf s = .ok body := by
    intro s hs
    obtain ⟨stmt, hstmt⟩ := Table.exists_get?_of_lt hs
    have held := ((checkStmtKind_eq_ok functions).1
      (forM_eq_ok.1 hstmts stmt (Table.mem_toList.2 ⟨s, hstmt⟩))).1
    obtain ⟨kind, span⟩ := stmt
    cases kind with
    | function f =>
      obtain ⟨r, hr, -⟩ := held
      exact ⟨some r.body, bodyOf_eq_some.2 (.inl ⟨f, span, r, hstmt, hr, rfl⟩)⟩
    | nest head body => exact ⟨some body, bodyOf_eq_some.2 (.inr ⟨head, span, hstmt⟩)⟩
    | _ => exact ⟨none, by simp only [bodyOf, Table.get_eq_ok.2 hstmt, ok_bind]; rfl⟩
  unfold checkBlocks
  split
  · exact .error _
  · next hfits => exact checkBlockWithin_answers bodies (Nat.le_of_not_lt hfits) (Nat.lt_succ_self _)

end Program

end FrontEnd
