import FrontEnd.Proofs.Resolved
/-!
# FrontEnd — the types of a resolved program

Types are recorded while the program is walked once, at a time when many
declarations do not have theirs yet. Nevertheless what is recorded fits
together in the end: every type is the one that the program, as it has
come out, gives the expression or the declaration (`Program.Solved`).
-/

namespace FrontEnd

open Analysis

/-- The values in a statement of the kind: all expressions but those in
the place of types. -/
def StmtKind.values : StmtKind → List ExprId
  | .variable _ _ init => init.toList
  | .nest head _ => head.expr?.toList
  | .assign lhs rhs => [lhs, rhs]
  | .output value | .evaluate value => [value]
  | .returnValue value => value.toList
  | .invalid | .function _ | .enumType _ | .structType _ | .breakLoop => []

namespace Program

/-- The type that an expression names in the place of a type. -/
def named (p : Program) (e : ExprId) : Ty :=
  match p.exprs.get? e with
  | some x => x.kind.named
  | none => .error

/-- The statement declares a variable of the top level whose initializer
reads its way into a cycle. -/
def Unordered (p : Program) (s : StmtId) : Prop :=
  s ∈ elements (p.outline p.block).direct ∧
    ∃ v type init span r, p.stmts.get s = .ok ⟨.variable v type init, span⟩ ∧
      p.vars.get v = .ok r ∧ r.order = 0

/-- The recorded types are those that the program gives its expressions
and declarations. -/
structure Solved (p : Program) : Prop where
  value : ∀ s stmt, p.stmts.get s = .ok stmt → ¬ p.Unordered s → ∀ r ∈ stmt.kind.values,
    ∀ e, p.Under r e → ∃ x, p.exprs.get e = .ok x ∧ p.typeOf e = .ok x.type
  declared : ∀ s v e init span, p.stmts.get s = .ok ⟨.variable v (some e) init, span⟩ →
    ∃ r, p.vars.get v = .ok r ∧ r.type = p.named e
  inferred : ∀ s v init span, p.stmts.get s = .ok ⟨.variable v none init, span⟩ →
    ∃ r, p.vars.get v = .ok r ∧ (p.Unordered s ∨ init = none → r.type = .error) ∧
      ∀ e, ¬ p.Unordered s → init = some e → ∃ x, p.exprs.get e = .ok x ∧ r.type = x.type
  iterator : ∀ s v e body span, p.stmts.get s = .ok ⟨.nest (.forEach v e) body, span⟩ →
    ∃ r x, p.vars.get v = .ok r ∧ p.exprs.get e = .ok x ∧ r.type = iteratorType x.kind
  result : ∀ f r, p.functions.get f = .ok r → r.returnType = r.returnTypeExpr.elim .none p.named
  parameter : ∀ i r, p.parameters.get i = .ok r → r.type = r.typeExpr.elim .error p.named

variable {p p' : Program} {s : StmtId}

/-- A variable that declares no type has that of its initializer. -/
theorem Solved.inferred_typeOf (solved : p.Solved) {v : VariableId} {e : ExprId} {span : Span}
    (hs : p.stmts.get s = .ok ⟨.variable v none (some e), span⟩) (ordered : ¬ p.Unordered s) :
    ∃ r, p.vars.get v = .ok r ∧ p.typeOf e = .ok r.type := by
  obtain ⟨r, hr, -, hinit⟩ := solved.inferred s v _ span hs
  obtain ⟨x, hx, htype⟩ := hinit e ordered rfl
  obtain ⟨y, hy, htypeOf⟩ := solved.value s _ hs ordered e (by simp [StmtKind.values]) e .refl
  obtain rfl := Except.ok.inj (hx.symm.trans hy)
  exact ⟨r, hr, htype ▸ htypeOf⟩

theorem declaresVariable_frame (s : StmtId) :
    p.frame.declaresVariable s = p.declaresVariable s := by
  simp only [declaresVariable, frame, Table.get?_map]
  cases p.stmts.get? s with
  | none => rfl
  | some stmt =>
    obtain ⟨kind, span⟩ := stmt
    cases kind <;> rfl

theorem globals_congr (h : p'.frame = p.frame) : p'.globals = p.globals := by
  have hdeclares : p'.declaresVariable = p.declaresVariable := funext fun s => by
    rw [← declaresVariable_frame, h, declaresVariable_frame]
  simp only [globals, globalsIn, outline_congr h, hdeclares]

theorem mem_globals : s ∈ p.globals ↔
    s ∈ elements (p.outline p.block).direct ∧ p.declaresVariable s = true := by
  simp only [globals, globalsIn, if_true, List.mem_filter]

/-- Functions and parameters belong to function declarations. -/
theorem function_of_owned {t : Target} (h : t ∈ p.owned s)
    (ht : (∃ f, t = .function f) ∨ ∃ i, t = .parameter i := by simp) :
    ∃ g span, p.stmts.get? s = some ⟨.function g, span⟩ ∧ ∀ f, t = .function f → f = g := by
  obtain ⟨⟨kind, span⟩, hs, howns⟩ := mem_owned.1 h
  cases howns with
  | function f => exact ⟨f, span, hs, fun g hg => by cases hg; rfl⟩
  | @parameter f r params x hr hparams hx => exact ⟨f, span, hs, fun g hg => by cases hg⟩
  | _ => rcases ht with ⟨f, hf⟩ | ⟨i, hi⟩ <;> contradiction

end Program

variable {source : String} {p p₀ : Program} {a a' : Analysis} {s : StmtId} {L : List StmtId}
variable {r : ExprId} {kind : StmtKind}

/-- Every value of a statement has a task. -/
theorem mem_tasks_of_value (h : r ∈ kind.values) : ∃ expected, .value r expected ∈ kind.tasks := by
  cases kind with
  | «variable» v type init =>
    cases type <;> cases init <;> simp_all [StmtKind.values, StmtKind.tasks]
  | nest head body => cases head <;> simp_all [StmtKind.values, StmtKind.tasks, Head.expr?]
  | returnValue value => cases value <;> simp_all [StmtKind.values, StmtKind.tasks]
  | assign lhs rhs =>
    rcases List.mem_cons.1 h with rfl | h
    · exact ⟨none, by simp [StmtKind.tasks]⟩
    · obtain rfl := List.mem_singleton.1 h
      exact ⟨some (.recorded lhs), by simp [StmtKind.tasks]⟩
  | _ => simp_all [StmtKind.values, StmtKind.tasks]

/-! ## What is done solves the equations -/

theorem Analysis.TypeDone.named_eq {e : ExprId} (done : a.TypeDone e) :
    a.program.recorded e = a.program.named e := by
  obtain ⟨x, hx, htype, -⟩ := done
  simp only [Program.recorded, Program.named, hx, htype]

/-- A statement that declares a variable is the same from the start. -/
theorem variable_of_pruned {v : VariableId} {type init : Option ExprId} {span : Span}
    (hp : Program.Pruned p₀ p) (hs : p.stmts.get? s = some ⟨.variable v type init, span⟩) :
    ∃ span₀, p₀.stmts.get? s = some ⟨.variable v type init, span₀⟩ :=
  Program.exists_variable_congr hp.frame.symm hs

section

variable (done : a.TypesDone source p₀ L)

include done

/-- A variable of the top level has no order exactly if it is part of a
cycle. -/
theorem Analysis.TypesDone.unordered_iff : a.program.Unordered s ↔ s ∈ L := by
  have hglobals := Program.globals_congr done.pruned.frame
  constructor
  · rintro ⟨hdirect, v, type, init, span, r, hs, hr, hzero⟩
    rw [Table.get_eq_ok] at hs hr
    obtain ⟨span₀, hs₀⟩ := variable_of_pruned done.pruned hs
    have hmem : s ∈ p₀.globals := by
      rw [← hglobals]
      exact Program.mem_globals.2 ⟨hdirect, by simp only [Program.declaresVariable, hs]⟩
    by_contra hnot
    obtain ⟨-, r', n, hr', hsucc, -⟩ := done.globals.settled s hmem hnot
    rw [globalOf_eq hs₀, hr] at hr'
    rw [← Option.some.inj hr', hzero] at hsucc
    omega
  · intro hs
    have hmem := done.globals.sub.subset hs
    rw [← hglobals] at hmem
    obtain ⟨hdirect, hdeclares⟩ := Program.mem_globals.1 hmem
    obtain ⟨v, type, init, span, hstmt⟩ := Program.exists_of_declaresVariable hdeclares
    obtain ⟨span₀, hs₀⟩ := variable_of_pruned done.pruned hstmt
    obtain ⟨r, hr, hzero, -⟩ := (done.globals.cyclic s hs).var
    rw [globalOf_eq hs₀] at hr
    exact ⟨hdirect, v, type, init, span, r, Table.get_eq_ok.2 hstmt, Table.get_eq_ok.2 hr, hzero⟩

theorem Analysis.TypesDone.of_not_unordered (h : ¬ a.program.Unordered s) :
    ∀ x ∈ a.program.tasks s, a.TaskDone source x := by
  rw [Program.tasks_congr done.pruned.frame]
  by_cases hs : s ∈ p₀.globals
  · exact (done.globals.settled s hs fun hL => h (done.unordered_iff.2 hL)).tasks
  · exact done.tasks s hs

/-- Whatever becomes of a variable, its declared type is recorded. -/
theorem Analysis.TypesDone.name {e : ExprId} (he : .name e ∈ a.program.tasks s) : a.TypeDone e := by
  by_cases h : a.program.Unordered s
  · rw [Program.tasks_congr done.pruned.frame] at he
    exact (done.globals.cyclic s (done.unordered_iff.1 h)).named e he
  · exact done.of_not_unordered h _ he

/-- A declaration that is given its type has it. -/
theorem Analysis.TypesDone.declaration {t : Target} {typeExpr : Option ExprId} {other : Ty}
    (h : ∀ x ∈ declarationTasks t typeExpr other, x ∈ a.program.tasks s)
    (hs : ¬ a.program.Unordered s) :
    a.program.typeAt t = .ok (typeExpr.elim other a.program.named) := by
  have hall := done.of_not_unordered hs
  cases typeExpr with
  | none => exact hall (.give t (.always other)) (h _ (by simp [declarationTasks]))
  | some e =>
    have hgive := hall _ (h (.give t (.recorded e)) (by simp [declarationTasks]))
    have hname := done.name (h (.name e) (by simp [declarationTasks]))
    exact hgive.trans (congrArg Except.ok hname.named_eq)

end

theorem not_unordered {stmt : Stmt} (hs : p.stmts.get? s = some stmt)
    (hk : ∀ v type init, stmt.kind ≠ .variable v type init) : ¬ p.Unordered s := by
  rintro ⟨-, v, type, init, span, r, hs', -⟩
  rw [Table.get_eq_ok, hs] at hs'
  cases hs'
  exact hk v type init rfl

section

variable (done : a.TypesDone source p₀ L)

include done

/-- A variable has the type it is declared with; if there is none that of
its initializer, and if it is part of a cycle an error. -/
theorem Analysis.TypesDone.variable_eq {v : VariableId} {typeExpr init : Option ExprId} {span : Span}
    (hs : a.program.stmts.get? s = some ⟨.variable v typeExpr init, span⟩) :
    ∃ r, a.program.vars.get v = .ok r ∧
      (a.program.Unordered s → r.type = typeExpr.elim .error a.program.named) ∧
      (¬ a.program.Unordered s →
        r.type = typeExpr.elim (init.elim .error a.program.recorded) a.program.named) := by
  have hname : ∀ e, typeExpr = some e → a.TypeDone e := fun e he =>
    done.name ((name_mem_tasks hs).2 he)
  by_cases h : a.program.Unordered s
  · obtain ⟨r, hr, -, htype⟩ := (done.globals.cyclic s (done.unordered_iff.1 h)).var
    obtain ⟨span₀, hs₀⟩ := variable_of_pruned done.pruned hs
    rw [globalOf_eq hs₀, ← Table.get_eq_ok] at hr
    rw [cycleFrom_eq hs₀] at htype
    refine ⟨r, hr, fun _ => ?_, fun hnot => absurd h hnot⟩
    cases typeExpr with
    | none => exact htype
    | some e => exact htype.trans (hname e rfl).named_eq
  · have hgive := done.of_not_unordered h _ ((give_mem_tasks hs).2 ⟨rfl, rfl⟩)
    obtain ⟨r, hr, htype⟩ := Program.typeAt_variable hgive
    refine ⟨r, hr, fun h' => absurd h' h, fun _ => ?_⟩
    cases typeExpr with
    | none => cases init <;> exact htype
    | some e => exact htype.trans (hname e rfl).named_eq

variable (regular : p₀.Regular)

include regular

/-- A function returns what its declaration names. -/
theorem Analysis.TypesDone.result_eq {f : FunctionId} {r : Function}
    (howned : .function f ∈ a.program.owned s) (hf : a.program.functions.get? f = some r) :
    r.returnType = r.returnTypeExpr.elim .none a.program.named := by
  have regular' := regular.congr done.pruned.frame done.pruned.held
  obtain ⟨g, span, hs, hg⟩ := Program.function_of_owned howned
  obtain rfl := hg f rfl
  obtain ⟨r', params, hr', -, htasks, -, -⟩ := Program.function_eqs hs (regular'.declarations s _ hs)
  obtain rfl := Option.some.inj (hf.symm.trans hr')
  have htype := done.declaration (t := .function f)
    (fun x hx => htasks ▸ List.mem_append_left _ hx) (not_unordered hs (by simp))
  simp only [Program.typeAt, Table.get_eq_ok.2 hf, ok_bind] at htype
  exact pure_eq_ok.1 htype

/-- A parameter has the type it is declared with. -/
theorem Analysis.TypesDone.parameter_eq {i : ParameterId} {r : Parameter}
    (howned : .parameter i ∈ a.program.owned s) (hi : a.program.parameters.get? i = some r) :
    r.type = r.typeExpr.elim .error a.program.named := by
  have regular' := regular.congr done.pruned.frame done.pruned.held
  obtain ⟨g, span, hs, -⟩ := Program.function_of_owned howned
  obtain ⟨r', params, -, hparams, htasks, -, hall⟩ :=
    Program.function_eqs hs (regular'.declarations s _ hs)
  rw [hall] at howned
  obtain ⟨⟨j, q⟩, hmem, hj⟩ : ∃ c ∈ params, Target.parameter c.1 = .parameter i := by
    simpa using howned
  obtain rfl : j = i := Target.parameter.inj hj
  obtain rfl := Option.some.inj (hi.symm.trans (Program.mem_slice hparams hmem).1)
  have htype := done.declaration (t := .parameter j)
    (fun x hx => htasks ▸ List.mem_append_right _ (List.mem_flatMap.2 ⟨_, hmem, hx⟩))
    (not_unordered hs (by simp))
  simp only [Program.typeAt, Table.get_eq_ok.2 hi, ok_bind] at htype
  exact pure_eq_ok.1 htype

end

/-- **When all tasks are done the equations are solved.** -/
theorem Analysis.TypesDone.solved (done : a.TypesDone source p₀ L) (regular : p₀.Regular)
    (functions : ∀ f : FunctionId, f.raw < a.program.functions.size → ∃ s, .function f ∈ a.program.owned s)
    (parameters : ∀ i : ParameterId, i.raw < a.program.parameters.size →
      ∃ s, .parameter i ∈ a.program.owned s) : a.program.Solved := by
  refine
    { value := fun s stmt hs hnot r hr e hu => ?_
      declared := fun s v e init span hs => ?_
      inferred := fun s v init span hs => ?_
      iterator := fun s v e body span hs => ?_
      result := fun f r hf => ?_
      parameter := fun i r hi => ?_ }
  · rw [Table.get_eq_ok] at hs
    obtain ⟨expected, hx⟩ := mem_tasks_of_value hr
    have htasks := Program.tasks_eq hs fun f hf => by
      rw [hf] at hr
      cases hr
    rw [← htasks] at hx
    obtain ⟨x, hx, htype, -⟩ := (done.of_not_unordered hnot _ hx).1 e hu
    exact ⟨x, Table.get_eq_ok.2 hx, htype⟩
  · obtain ⟨r, hr, hcyclic, hordered⟩ := done.variable_eq (Table.get_eq_ok.1 hs)
    by_cases h : a.program.Unordered s
    · exact ⟨r, hr, hcyclic h⟩
    · exact ⟨r, hr, hordered h⟩
  · obtain ⟨r, hr, hcyclic, hordered⟩ := done.variable_eq (Table.get_eq_ok.1 hs)
    refine ⟨r, hr, fun h => ?_, fun e hnot he => ?_⟩
    · by_cases hs : a.program.Unordered s
      · exact hcyclic hs
      · have htype := hordered hs
        rw [h.resolve_left hs] at htype
        exact htype
    · have hvalue := (value_mem_tasks (Table.get_eq_ok.1 hs)).2 ⟨he, rfl⟩
      obtain ⟨x, hx, -⟩ := (done.of_not_unordered hnot _ hvalue).1 e .refl
      refine ⟨x, Table.get_eq_ok.2 hx, (hordered hnot).trans ?_⟩
      simp only [he, Option.elim, Program.recorded, hx]
  · rw [Table.get_eq_ok] at hs
    have hnot := not_unordered hs (by simp)
    have htasks := Program.tasks_eq hs (by simp)
    obtain ⟨x, hx, -⟩ := (done.of_not_unordered hnot (.value e none) (by simp [htasks, StmtKind.tasks])).1
      e .refl
    have hgive := done.of_not_unordered hnot (.give (.variable v) (.iterated e))
      (by simp [htasks, StmtKind.tasks])
    obtain ⟨r, hr, htype⟩ := Program.typeAt_variable hgive
    refine ⟨r, x, hr, Table.get_eq_ok.2 hx, htype.trans ?_⟩
    simp only [Program.typeFrom, hx]
  · rw [Table.get_eq_ok] at hf
    obtain ⟨s, howned⟩ := functions f (Table.lt_size_of_get? hf)
    exact done.result_eq regular howned hf
  · rw [Table.get_eq_ok] at hi
    obtain ⟨s, howned⟩ := parameters i (Table.lt_size_of_get? hi)
    exact done.parameter_eq regular howned hi

/-! ## Resolved programs -/

namespace Program

/-- **A resolved program solves its typing equations.** Whatever has been
built with one place for each expression, when its resolution succeeds
nothing that a type was computed from has changed after that. -/
theorem resolve_solved {steps : List Step} {written : String}
    (built : Program.build steps = .ok (p, written)) (once : p.UsedOnce) (queue : Queue)
    (source : String) (h : Analysis.resolve ⟨p, queue⟩ source = .ok a) : a.program.Solved := by
  have fresh := build_fresh built
  obtain ⟨p₁, q₁, L, named, hframe, -, -, done, -⟩ := resolve_done fresh once h
  have hsame : a.program.frame = p.frame := done.pruned.frame.trans hframe
  refine done.solved named.regular (fun f hf => ?_) fun i hi => ?_
  · rw [size_functions_congr hsame] at hf
    obtain ⟨s, hs⟩ := fresh.functions f hf
    exact ⟨s, owned_congr hsame ▸ hs⟩
  · rw [size_parameters_congr hsame] at hi
    obtain ⟨s, hs⟩ := fresh.parameters i hi
    exact ⟨s, owned_congr hsame ▸ hs⟩

/-- A variable that is declared before the one it reads has its type. -/
theorem resolve_solved_ahead :
    Succeeds (Program.build
        [.identifier "b", .variable "a" none (some ⟨0⟩), .integer 1, .variable "b" none (some ⟨1⟩)])
      fun (p, source) => p.UsedOnce ∧ Succeeds (Analysis.resolve (.start {} p) source) fun a =>
        ∃ r x, a.program.vars.get ⟨0⟩ = .ok r ∧ a.program.exprs.get ⟨0⟩ = .ok x ∧ r.type = x.type ∧
          r.type = .int := by
  have facts : Succeeds (Program.build
        [.identifier "b", .variable "a" none (some ⟨0⟩), .integer 1, .variable "b" none (some ⟨1⟩)])
      fun (p, source) => p.UsedOnce ∧ Succeeds (Analysis.resolve (.start {} p) source) fun a =>
        Succeeds (a.program.stmts.get ⟨0⟩)
            (fun stmt => stmt.kind = .variable ⟨0⟩ none (some ⟨0⟩)) ∧
          Succeeds (a.program.vars.get ⟨0⟩) fun r => r.type = .int ∧ r.order = 2 := by decide +kernel
  obtain ⟨⟨p, source⟩, built, once, a, ha, ⟨⟨kind, span⟩, hs, hkind⟩, r, hr, hint, horder⟩ := facts
  obtain rfl : kind = .variable ⟨0⟩ none (some ⟨0⟩) := hkind
  have solved := resolve_solved built once _ source ha
  have hordered : ¬ a.program.Unordered ⟨0⟩ := by
    rintro ⟨-, v, type, init, span', r', hs', hr', hzero⟩
    rw [hs] at hs'
    cases hs'
    rw [hr] at hr'
    cases hr'
    omega
  obtain ⟨r', hr', -, htype⟩ := solved.inferred ⟨0⟩ ⟨0⟩ (some ⟨0⟩) span hs
  obtain ⟨x, hx, heq⟩ := htype ⟨0⟩ hordered rfl
  rw [hr] at hr'
  cases hr'
  exact ⟨(p, source), built, once, a, ha, r, x, hr, hx, heq, hint⟩

end Program

end FrontEnd
