import FrontEnd.Proofs.StmtTasks
/-!
# FrontEnd — the type pass as a run of tasks

Each part of the type pass runs the tasks of its statement, one after
the other.
-/

namespace FrontEnd

namespace Analysis

variable {source : String} {a a' : Analysis} {e c : ExprId} {type : Ty} {s : StmtId}

/-! ## Steps of the pass as tasks -/

theorem typeNamed_eq_runTask (source : String) (a : Analysis) (e : ExprId) :
    a.typeNamed e = (do
      let b ← runTask source a (.name e)
      return (b.program.recorded e, b)) := by
  simp only [runTask]
  cases h : a.typeNamed e with
  | error fault => rfl
  | ok result =>
    obtain ⟨type, b⟩ := result
    obtain ⟨-, -, htype, -⟩ := typeNamed_done h
    simp only [ok_bind, pure, Except.pure, htype]

/-- An expression whose types have been recorded is held. -/
theorem held_of_typeExprWithin {fuel : Nat} {expected : Option Ty}
    (h : typeExprWithin source fuel expected a e = .ok (type, a')) :
    ∃ x, a'.program.exprs.get? e = some x ∧ x.type = type := by
  cases fuel with
  | zero => cases h
  | succ fuel =>
    obtain ⟨x, -, h⟩ := bind_eq_ok.1 h
    obtain ⟨es, -, h⟩ := bind_eq_ok.1 h
    obtain ⟨b, -, h⟩ := bind_eq_ok.1 h
    obtain ⟨b', -, h⟩ := bind_eq_ok.1 h
    obtain ⟨found, hfound, h⟩ := bind_eq_ok.1 h
    cases pure_eq_ok.1 h
    obtain ⟨y, hy, -⟩ := bind_eq_ok.1 hfound
    refine ⟨{ y with type }, ?_, rfl⟩
    simp only [Program.setExprType, Table.get?_modify, if_true, Table.get_eq_ok.1 hy, Option.map_some]

theorem typeExpr_eq_runTask (source : String) (expected : Option Origin) (a : Analysis) (e : ExprId) :
    typeExpr source (expected.map a.program.typeFrom) a e = (do
      let b ← runTask source a (.value e expected)
      return (b.program.recorded e, b)) := by
  simp only [runTask]
  cases h : typeExpr source (expected.map a.program.typeFrom) a e with
  | error fault => rfl
  | ok result =>
    obtain ⟨type, b⟩ := result
    obtain ⟨x, hx, rfl⟩ := held_of_typeExprWithin h
    simp only [ok_bind, pure, Except.pure, Program.recorded, hx]

theorem typeExpr_none_eq (source : String) (a : Analysis) (e : ExprId) :
    typeExpr source none a e = (do
      let b ← runTask source a (.value e none)
      return (b.program.recorded e, b)) :=
  typeExpr_eq_runTask source none a e

theorem typeExpr_recorded_eq (source : String) (a : Analysis) (e c : ExprId) :
    typeExpr source (some (a.program.recorded c)) a e = (do
      let b ← runTask source a (.value e (some (.recorded c)))
      return (b.program.recorded e, b)) :=
  typeExpr_eq_runTask source (some (.recorded c)) a e

theorem typeExpr_always_eq (source : String) (a : Analysis) (e : ExprId) (type : Ty) :
    typeExpr source (some type) a e = (do
      let b ← runTask source a (.value e (some (.always type)))
      return (b.program.recorded e, b)) :=
  typeExpr_eq_runTask source (some (.always type)) a e

/-! ## Runs of tasks -/

variable {p₀ : Program} {x : Task}

/-- A run of tasks leaves the program pruned. -/
theorem pruned_of_tasks {tasks : List Task} (once : p₀.UsedOnce) (older : p₀.OperandsOlder)
    (hp : Program.Pruned p₀ a.program) (proper : ∀ x ∈ tasks, x.Proper p₀)
    (run : tasks.foldlM (runTask source) a = .ok a') : Program.Pruned p₀ a'.program :=
  foldlM_invariant (fun b => Program.Pruned p₀ b.program)
    (fun x hx _ _ hb h => (runTask_done once older hb (proper x hx) h).1.pruned hb) hp run

/-- The statements of a pruned program are those it has been pruned from. -/
theorem exists_stmt {stmt : Stmt} (hp : Program.Pruned p₀ a.program)
    (hs : p₀.stmts.get? s = some stmt) :
    ∃ stmt', a.program.stmts.get? s = some stmt' ∧ stmt'.kind.frame = stmt.kind.frame := by
  obtain ⟨stmt', hs', heq⟩ := Program.exists_stmt_congr hp.frame hs
  exact ⟨stmt', hs', congrArg Stmt.kind heq⟩

/-! ## Signatures -/

theorem declarationTasks_eq (source : String) (a : Analysis) (t : Target) (typeExpr : Option ExprId)
    (other : Ty) :
    (do
      let (type, b) ← a.typeNamed? typeExpr
      return { b with program := ← b.program.setTypeAt (type.getD other) t }) =
      (declarationTasks t typeExpr other).foldlM (runTask source) a := by
  cases typeExpr with
  | none =>
    simp only [typeNamed?, declarationTasks, List.foldlM_cons, List.foldlM_nil, bind_pure, pure_bind]
    rfl
  | some e =>
    simp only [typeNamed?, typeNamed_eq_runTask source, declarationTasks, List.foldlM_cons,
      List.foldlM_nil, bind_assoc, pure_bind, bind_pure]
    rfl

theorem typeParameter_eq (source : String) {i : ParameterId} {q : Parameter}
    (hq : a.program.parameters.get? i = some q) :
    a.typeParameter i = (declarationTasks (.parameter i) q.typeExpr .error).foldlM (runTask source) a := by
  rw [← declarationTasks_eq]
  simp only [typeParameter, Table.get_eq_ok.2 hq, ok_bind, Program.setTypeAt, bind_assoc, pure_bind]

variable (regular : p₀.Regular) (once : p₀.UsedOnce)

include regular once

theorem typeParameters_eq (source : String) {l : List (ParameterId × Parameter)}
    (hl : ∀ iq ∈ l, p₀.parameters.get? iq.1 = some iq.2) (hp : Program.Pruned p₀ a.program) :
    l.foldlM (fun a (i, _) => a.typeParameter i) a =
      (l.flatMap fun (i, q) => declarationTasks (.parameter i) q.typeExpr .error).foldlM
        (runTask source) a := by
  induction l generalizing a with
  | nil => rfl
  | cons iq l ih =>
    obtain ⟨i, q⟩ := iq
    obtain ⟨hq, hrest⟩ := List.forall_mem_cons.1 hl
    obtain ⟨q', hq', heq⟩ := Program.exists_parameter_congr hp.frame hq
    have htype : q'.typeExpr = q.typeExpr := (congrArg Parameter.typeExpr heq :)
    simp only [List.foldlM_cons, List.flatMap_cons, List.foldlM_append]
    rw [typeParameter_eq source hq', htype]
    cases hrun : (declarationTasks (.parameter i) q.typeExpr .error).foldlM (runTask source) a with
    | error fault => rfl
    | ok b =>
      refine ih hrest (pruned_of_tasks once regular.operands.older hp (fun x hx => ?_) hrun)
      exact (Program.mem_declarationTasks hx).2.2.2

/-- A signature is typed by the tasks of its declaration. -/
theorem typeSignature_eq (source : String) {f : FunctionId} {span : Span}
    (hs : p₀.stmts.get? s = some ⟨.function f, span⟩) (hp : Program.Pruned p₀ a.program) :
    a.typeSignature f = (p₀.tasks s).foldlM (runTask source) a := by
  obtain ⟨r, params, hr, hparams, htasks, -, -⟩ :=
    Program.function_eqs hs (regular.declarations s _ hs)
  obtain ⟨r', hr', hframe⟩ := Program.exists_function_congr hp.frame hr
  have hreturn := congrArg Function.returnTypeExpr hframe
  have hrange := congrArg Function.parameters hframe
  simp only [Function.frame] at hreturn hrange
  have hsplit : a.typeSignature f = (do
      let b ← (declarationTasks (.function f) r.returnTypeExpr .none).foldlM (runTask source) a
      (← b.program.parameters.slice r.parameters).foldlM (fun a x => a.typeParameter x.1) b) := by
    rw [← declarationTasks_eq]
    simp only [typeSignature, Table.get_eq_ok.2 hr', ok_bind, Program.setTypeAt, bind_assoc,
      pure_bind, hreturn, hrange]
  rw [hsplit, htasks, List.foldlM_append]
  cases hrun : (declarationTasks (.function f) r.returnTypeExpr .none).foldlM (runTask source) a with
  | error fault => rfl
  | ok b =>
    have hpb := pruned_of_tasks once regular.operands.older hp
      (fun x hx => (Program.mem_declarationTasks hx).2.2.2) hrun
    obtain ⟨params', hparams', hids⟩ : ∃ params', b.program.parameters.slice r.parameters =
        .ok params' ∧ params'.map (·.1) = params.map (·.1) := by
      have hslice := congrArg (fun p : Program => p.parameters.slice r.parameters) hpb.frame
      simp only [Program.frame, Table.slice_map] at hslice
      rw [hparams] at hslice
      cases hb : b.program.parameters.slice r.parameters with
      | error fault => rw [hb] at hslice; cases hslice
      | ok params' =>
        rw [hb] at hslice
        have hmap := congrArg (List.map (·.1)) (Except.ok.inj hslice)
        rw [List.map_map, List.map_map] at hmap
        exact ⟨params', rfl, hmap⟩
    rw [ok_bind, ok_bind, hparams', ok_bind]
    have hfold : ∀ l : List (ParameterId × Parameter), l.foldlM (fun a x => a.typeParameter x.1) b =
        (l.map (·.1)).foldlM typeParameter b := fun l => by rw [List.foldlM_map]
    rw [hfold, hids, ← hfold]
    exact typeParameters_eq regular once source (fun iq hiq => (Program.mem_slice hparams hiq).1) hpb

/-! ## Statements -/

/-- A statement without a body is typed by its tasks. -/
theorem typeLeaf_eq (source : String) (hp : Program.Pruned p₀ a.program)
    (hleaf : a.program.bodyOf s = .ok none) :
    typeLeaf source a s = (p₀.tasks s).foldlM (runTask source) a := by
  obtain ⟨⟨kind, span⟩, hs, hbody⟩ := bind_eq_ok.1 hleaf
  rw [Table.get_eq_ok] at hs
  have hk : ∀ f, kind ≠ .function f := by
    rintro f rfl
    obtain ⟨r, -, h⟩ := bind_eq_ok.1 hbody
    cases pure_eq_ok.1 h
  have htasks : p₀.tasks s = kind.tasks := by
    rw [← Program.tasks_congr hp.frame]
    exact Program.tasks_eq hs hk
  have hslots : p₀.slotsAt s = kind.exprs := by
    rw [← Program.slotsAt_congr hp.frame]
    exact Program.slotsAt_eq_exprs hs hk
  have proper := fun x (hx : x ∈ p₀.tasks s) =>
    Program.proper_of_mem_tasks regular.declarations once hx
  rw [htasks] at proper ⊢
  simp only [typeLeaf, Table.get_eq_ok.2 hs, ok_bind]
  cases kind with
  | function f => exact absurd rfl (hk f)
  | nest head body => cases pure_eq_ok.1 hbody
  | «variable» v type init =>
    cases type with
    | none =>
      cases init <;>
        simp only [typeNamed?, typeExpr?, typeExpr_none_eq, bind_assoc, pure_bind, StmtKind.tasks,
          List.foldlM_cons, List.foldlM_nil, bind_pure, Prod.map_apply, id] <;> rfl
    | some e =>
      cases init with
      | none =>
        simp only [typeNamed?, typeExpr?, typeNamed_eq_runTask source, bind_assoc, pure_bind,
          StmtKind.tasks, List.foldlM_cons, List.foldlM_nil, bind_pure, Prod.map_apply, id]
        rfl
      | some c =>
        simp only [typeNamed?, typeExpr?, typeNamed_eq_runTask source, typeExpr_recorded_eq,
          bind_assoc, pure_bind, StmtKind.tasks, List.foldlM_cons, List.foldlM_nil, bind_pure,
          Prod.map_apply, id]
        cases hb : runTask source a (.name e) with
        | error fault => rfl
        | ok b =>
          rw [ok_bind, ok_bind]
          cases hb' : runTask source b (.value c (some (.recorded e))) with
          | error fault => rfl
          | ok b' =>
            -- typing the initializer leaves the declared type as it is
            have hpb := (runTask_done once regular.operands.older hp
              (proper (.name e) (by simp [StmtKind.tasks])) hb).1.pruned hp
            have hvalue := proper (.value c (some (.recorded e))) (by simp [StmtKind.tasks])
            have hchanges := (runTask_done once regular.operands.older hpb hvalue hb').1
            have hsame := hchanges.recorded (hvalue _ rfl e rfl)
            rw [ok_bind, ok_bind, ← hsame]
            rfl
  | assign lhs rhs =>
    simp only [typeExpr_recorded_eq, typeExpr_none_eq, bind_assoc, pure_bind, StmtKind.tasks,
      List.foldlM_cons, List.foldlM_nil]
  | returnValue value =>
    cases value with
    | none => rfl
    | some value =>
      simp only [typeExpr_none_eq, bind_assoc, pure_bind, StmtKind.tasks, List.foldlM_cons,
        List.foldlM_nil]
  | output value =>
    simp only [typeExpr_none_eq, bind_assoc, pure_bind, StmtKind.tasks, List.foldlM_cons,
      List.foldlM_nil]
  | evaluate value =>
    simp only [typeExpr_none_eq, bind_assoc, pure_bind, StmtKind.tasks, List.foldlM_cons,
      List.foldlM_nil]
  | _ => rfl

omit regular once in
/-- What stands before a body is typed by the tasks of the statement. -/
theorem typeHead_eq (source : String) (hp : Program.Pruned p₀ a.program) {head : Head VariableId}
    {body : Block} {span : Span} (hs : a.program.stmts.get? s = some ⟨.nest head body, span⟩) :
    typeHead source a s = (p₀.tasks s).foldlM (runTask source) a := by
  have htasks : p₀.tasks s = (StmtKind.nest head body).tasks := by
    rw [← Program.tasks_congr hp.frame]
    exact Program.tasks_eq hs (by simp)
  rw [htasks]
  simp only [typeHead, Table.get_eq_ok.2 hs, ok_bind]
  cases head with
  | forEach iterator iterable =>
    simp only [typeExpr_none_eq, bind_assoc, pure_bind, StmtKind.tasks, List.foldlM_cons,
      List.foldlM_nil, bind_pure]
    cases hb : runTask source a (.value iterable none) with
    | error fault => rfl
    | ok b =>
      obtain ⟨⟨type, b'⟩, htyped, h⟩ := bind_eq_ok.1 hb
      cases pure_eq_ok.1 h
      obtain ⟨x, hx, -⟩ := held_of_typeExprWithin htyped
      simp only [ok_bind, Table.get_eq_ok.2 hx, runTask, Program.typeFrom, hx, Program.setTypeAt]
  | ifThen condition =>
    simp only [typeExpr_always_eq, bind_assoc, pure_bind, StmtKind.tasks, List.foldlM_cons,
      List.foldlM_nil]
  | elseIf condition =>
    simp only [typeExpr_always_eq, bind_assoc, pure_bind, StmtKind.tasks, List.foldlM_cons,
      List.foldlM_nil]
  | whileDo condition =>
    simp only [typeExpr_always_eq, bind_assoc, pure_bind, StmtKind.tasks, List.foldlM_cons,
      List.foldlM_nil]
  | _ => rfl

end Analysis

end FrontEnd
