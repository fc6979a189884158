import FrontEnd.Proofs.TypeSafety
/-!
# FrontEnd — type checking does not fault

On a sound program whose top level has a scope type checking succeeds
(`check_succeeds`): it reads what the passes before it have left, and
writes nothing but flags.
-/

namespace FrontEnd

open Program

variable {p₀ : Program} {depth : ExprId → Nat} {reached : StmtId → Prop}
variable {a : Analysis} {e : ExprId} {s : StmtId} {fuel : Nat}

namespace Analysis

/-! ## Expressions -/

theorem checkExprWithin_succeeds (sound : Sound p₀ depth reached a.program)
    (he : e.raw < p₀.exprs.size) (hf : depth e < fuel) :
    Succeeds (checkExprWithin fuel a e) fun a' => Sound p₀ depth reached a'.program := by
  induction fuel generalizing a e with
  | zero => omega
  | succ fuel ih =>
    refine (sound.get_expr he).bind fun x fits => ?_
    have hrest : Succeeds
        (do (← a.program.operands x.kind).foldlM (checkExprWithin fuel) a)
        fun a' => Sound p₀ depth reached a'.program :=
      (sound.operands fits).bind fun es hes => .foldlM
        (fun c hc b hb => ih hb (hes c hc).1 (by have := (hes c hc).2; omega)) sound
    obtain ⟨kind, span, type, flagged⟩ := x
    have hoperands := fits.operands
    cases kind with
    | identifier => exact raiseAt_succeeds sound he _
    | call callee arguments =>
      obtain ⟨es, hes, hall⟩ := hoperands
      obtain ⟨l, hl, hes⟩ := bind_eq_ok.1 hes
      obtain rfl := pure_eq_ok.1 hes
      obtain ⟨⟨hcallee, hdepth⟩, hall⟩ := List.forall_mem_cons.1 hall
      have harguments : ∀ b : Analysis, Sound p₀ depth reached b.program → Succeeds
          (do (← b.program.arguments.slice arguments).foldlM (fun b x => checkExprWithin fuel b x.2) b)
          fun a' => Sound p₀ depth reached a'.program := by
        intro b hb
        rw [← hb.arguments] at hl
        refine (Succeeds.of_eq hl rfl).bind ?_
        rintro _ rfl
        refine .foldlM (fun x hx c hc => ?_) hb
        obtain ⟨hlt, hbelow⟩ := hall x.2 (List.mem_map_of_mem hx)
        exact ih hc hlt (by omega)
      refine (sound.get_expr hcallee).bind fun y _ => ?_
      obtain ⟨kind, span', type', flagged'⟩ := y
      cases kind with
      | function f => exact harguments a sound
      | identifier => exact (raiseAt_succeeds sound hcallee _).bind harguments
      | _ =>
        exact (ih sound hcallee (by omega)).bind fun b hb =>
          (raiseAt_succeeds hb hcallee _).bind harguments
    | _ => exact hrest

section

variable (ground : Grounded p₀ depth) (sound : Sound p₀ depth reached a.program)

include ground sound

theorem typeOf_succeeds (he : e.raw < p₀.exprs.size) :
    Succeeds (a.program.typeOf e) fun _ => True := by
  exact (typeOfWithin_succeeds sound he (sound.depth_lt ground he)).mono fun _ _ => trivial

theorem checkExpr_succeeds (he : e.raw < p₀.exprs.size) :
    Succeeds (a.checkExpr e) fun a' => Sound p₀ depth reached a'.program := by
  exact checkExprWithin_succeeds sound he (sound.depth_lt ground he)

theorem checkAssignable_succeeds (he : e.raw < p₀.exprs.size) (expected : Ty) (span : Span) :
    Succeeds (a.checkAssignable e expected span) fun a' => Sound p₀ depth reached a'.program := by
  refine (typeOf_succeeds ground sound he).bind fun found _ => ?_
  split
  · exact .pure sound
  · exact report_succeeds sound he _

theorem checkCondition_succeeds (he : e.raw < p₀.exprs.size) :
    Succeeds (a.checkCondition e) fun a' => Sound p₀ depth reached a'.program := by
  refine (checkExpr_succeeds ground sound he).bind fun b hb => ?_
  refine (typeOf_succeeds ground hb he).bind fun found _ => ?_
  split
  · exact .pure hb
  · exact (hb.get_expr he).bind fun x _ => report_succeeds hb he _

theorem checkIterable_succeeds (he : e.raw < p₀.exprs.size) :
    Succeeds (a.checkIterable e) fun a' => Sound p₀ depth reached a'.program := by
  refine (checkExpr_succeeds ground sound he).bind fun b hb => ?_
  refine (hb.get_expr he).bind fun x _ => ?_
  split
  · exact .pure hb
  · exact raiseAt_succeeds hb he _

/-! ## Statements -/

theorem checkStmt_succeeds (hs : s.raw < p₀.stmts.size) :
    Succeeds (a.checkStmt s) fun a' => Sound p₀ depth reached a'.program := by
  refine (sound.get_stmt ground hs).bind fun stmt ⟨held, hexprs, _⟩ => ?_
  obtain ⟨kind, span⟩ := stmt
  cases kind with
  | «variable» v type init =>
    cases init with
    | none => exact .pure sound
    | some init =>
      have hinit := hexprs init (by simp [StmtKind.exprs])
      refine (checkExpr_succeeds ground sound hinit).bind fun b hb => ?_
      exact (hb.get_var held).bind fun r _ => checkAssignable_succeeds ground hb hinit _ _
  | assign lhs rhs =>
    have hlhs := hexprs lhs (by simp [StmtKind.exprs])
    have hrhs := hexprs rhs (by simp [StmtKind.exprs])
    refine (checkExpr_succeeds ground sound hlhs).bind fun b hb => ?_
    refine (checkExpr_succeeds ground hb hrhs).bind fun c hc => ?_
    exact (typeOf_succeeds ground hc hlhs).bind fun t _ =>
      checkAssignable_succeeds ground hc hrhs _ _
  | nest head body =>
    cases head with
    | ifThen condition =>
      exact checkCondition_succeeds ground sound (hexprs _ (by simp [StmtKind.exprs, Head.expr?]))
    | elseIf condition =>
      exact checkCondition_succeeds ground sound (hexprs _ (by simp [StmtKind.exprs, Head.expr?]))
    | whileDo condition =>
      exact checkCondition_succeeds ground sound (hexprs _ (by simp [StmtKind.exprs, Head.expr?]))
    | forEach iterator iterable =>
      exact checkIterable_succeeds ground sound (hexprs _ (by simp [StmtKind.exprs, Head.expr?]))
    | _ => exact .pure sound
  | output value => exact checkExpr_succeeds ground sound (hexprs _ (by simp [StmtKind.exprs]))
  | evaluate value => exact checkExpr_succeeds ground sound (hexprs _ (by simp [StmtKind.exprs]))
  | returnValue value =>
    cases value with
    | some value => exact checkExpr_succeeds ground sound (hexprs _ (by simp [StmtKind.exprs]))
    | none => exact .pure sound
  | _ => exact .pure sound

theorem checkOutline_succeeds {outline : Outline} {i j : Nat} (lays : Lays p₀ i j outline) :
    Succeeds (checkOutline outline a) fun a' => Sound p₀ depth reached a'.program := by
  induction lays generalizing a with
  | done i => exact .pure sound
  | leaf single tail ih =>
    exact (checkStmt_succeeds ground sound (lt_size_of_bodyOf single)).bind fun b hb => ih hb
  | nested owns place inner tail ihBody ihRest =>
    refine (checkStmt_succeeds ground sound (lt_size_of_bodyOf owns)).bind fun b hb => ?_
    exact (ihBody hb).bind fun c hc => ihRest hc

/-- **Type checking succeeds on sound programs** whose top level has a
scope. -/
theorem check_succeeds {i j : Nat} (lays : Lays p₀ i j (p₀.outline p₀.block))
    (hscope : p₀.block.symbolTable.isSentinel = false) :
    Succeeds a.check fun a' => Sound p₀ depth reached a'.program := by
  have houtline : a.program.outline a.program.block = p₀.outline p₀.block :=
    outline_congr sound.frame
  have hscope' : a.program.block.symbolTable.isSentinel = false := by rwa [sound.block]
  simp only [check, houtline, hscope', Bool.false_and, Bool.false_eq_true, if_false]
  exact (checkOutline_succeeds ground sound lays).lift

end

end Analysis

end FrontEnd
