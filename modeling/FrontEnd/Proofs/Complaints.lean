import FrontEnd.Proofs.Flags
/-!
# FrontEnd — what the check complains about

What the check reports does not depend on what it has reported before.
So it can be read off the resolved program as a list of complaints, in
the order in which they are reported (`Program.complaints`), and to check
the program is to report them one after the other (`check_eq_ok`).
-/

namespace FrontEnd

/-- A report to be made on account of an expression. -/
structure Complaint where
  expr : ExprId
  diagnostic : Diagnostic

/-- What there is to be said. -/
abbrev Said : Type := Except Fault (List Complaint)

instance : Append Said where
  append said said' := do return (← said) ++ (← said')

namespace Program

/-! ## Complaints -/

/-- The complaint about an expression at its span. -/
def complaint (p : Program) (code : Code) (e : ExprId) : Said := do
  return [⟨e, .ofCode code (← p.exprs.get e).span⟩]

/-- What is said about what is called, if `within` says what there is to
be said about an expression. -/
def calleeComplaints (p : Program) (within : ExprId → Said) (callee : ExprId) : Said := do
  match (← p.exprs.get callee).kind with
  | .function _ => return []
  | .identifier => p.complaint .unknownFunction callee
  | _ => within callee ++ p.complaint .notAFunction callee

/-- What is said about an expression whose operands nest less than `fuel`
deep. -/
def complaintsWithin (p : Program) : (fuel : Nat) → (e : ExprId) → Said
  | 0, _ => .error .endless
  | fuel + 1, e => do
    match (← p.exprs.get e).kind with
    | .identifier => p.complaint .unknownName e
    | .call callee arguments =>
      p.calleeComplaints (p.complaintsWithin fuel) callee ++ do
        (← p.arguments.slice arguments).flatMapM fun (_, e) => p.complaintsWithin fuel e
    | kind => (← p.operands kind).flatMapM (p.complaintsWithin fuel)

def exprComplaints (p : Program) (e : ExprId) : Said := p.complaintsWithin p.exprDepth e

/-- What is said about a value that does not fit what it is stored in. -/
def valueComplaints (p : Program) (value : ExprId) (expected : Ty) (span : Span) : Said := do
  let found ← p.typeOf value
  if found.assignable expected then return []
  else return [⟨value, { code := .typeMismatch, span, message := expected.mismatch found }⟩]

/-- What is said about a condition that is no boolean. -/
def conditionComplaints (p : Program) (condition : ExprId) : Said := do
  let found ← p.typeOf condition
  if found.isInvalid || found == .bool then return []
  else
    let span := (← p.exprs.get condition).span
    return [⟨condition, { code := .notABoolean, span, message := Ty.bool.mismatch found }⟩]

/-- What is said about what a loop cannot run over. -/
def iterableComplaints (p : Program) (iterable : ExprId) : Said := do
  if (← p.exprs.get iterable).kind.isIterable then return []
  else p.complaint .notIterable iterable

/-- What is said about a statement, its body apart. -/
def stmtComplaints (p : Program) (s : StmtId) : Said := do
  let stmt ← p.stmts.get s
  match stmt.kind with
  | .variable v _ (some init) =>
    p.exprComplaints init ++ do p.valueComplaints init (← p.vars.get v).type stmt.span
  | .assign lhs rhs =>
    p.exprComplaints lhs ++ (p.exprComplaints rhs ++ do
      p.valueComplaints rhs (← p.typeOf lhs) stmt.span)
  | .nest (.ifThen condition) _ | .nest (.elseIf condition) _ | .nest (.whileDo condition) _ =>
    p.exprComplaints condition ++ p.conditionComplaints condition
  | .nest (.forEach _ iterable) _ => p.exprComplaints iterable ++ p.iterableComplaints iterable
  | .output value | .evaluate value | .returnValue (some value) => p.exprComplaints value
  | _ => return []

def outlineComplaints (p : Program) : Outline → Said
  | .stuck fault => .error fault
  | .done => return []
  | .leaf s rest => p.stmtComplaints s ++ p.outlineComplaints rest
  | .nested s body rest =>
    p.stmtComplaints s ++ (p.outlineComplaints body ++ p.outlineComplaints rest)

/-- What is said about a program. -/
def complaints (p : Program) : Said :=
  p.outlineComplaints (p.outline p.block)

end Program

namespace Analysis

/-- Report one complaint after the other. -/
def reportAll (a : Analysis) (cs : List Complaint) : Except Fault Analysis :=
  cs.foldlM (fun a c => a.report c.expr c.diagnostic) a

/-- Check what is called, whose operands nest less than `fuel` deep. -/
def checkCallee (fuel : Nat) (a : Analysis) (callee : ExprId) : Except Fault Analysis := do
  match (← a.program.exprs.get callee).kind with
  | .function _ => return a
  | .identifier => a.raiseAt .unknownFunction callee
  | _ => (← checkExprWithin fuel a callee).raiseAt .notAFunction callee

/-- A step reports what is said, and does nothing else. -/
def Says (said : Said) (a : Analysis) (step : Except Fault Analysis) : Prop :=
  ∀ b, step = .ok b ↔ ∃ cs, said = .ok cs ∧ a.reportAll cs = .ok b

end Analysis

open Analysis

variable {a a' b : Analysis} {cs : List Complaint} {e : ExprId} {d : Diagnostic} {s : StmtId}
variable {said said' : Said} {step : Except Fault Analysis}
variable {p : Program} {x : Expr}

/-- Reports change nothing but flags. -/
theorem Flags.reportAll (h : a.reportAll cs = .ok b) : Flags a b :=
  foldlM_invariant (Flags a) (fun _ _ _ _ hb h => hb.trans (.report h)) (.refl a) h

/-! ## Steps and what they say -/

namespace Analysis.Says

theorem nothing : Says (pure []) a (pure a) := by
  intro b
  constructor
  · intro h
    exact ⟨[], rfl, h⟩
  · rintro ⟨cs, hcs, h⟩
    obtain rfl := pure_eq_ok.1 hcs
    exact h

theorem one : Says (pure [⟨e, d⟩]) a (a.report e d) := by
  intro b
  have hone : a.reportAll [⟨e, d⟩] = a.report e d := by
    simp only [reportAll, List.foldlM_cons, List.foldlM_nil]
    cases a.report e d <;> rfl
  constructor
  · intro h
    exact ⟨_, rfl, hone.trans h⟩
  · rintro ⟨cs, hcs, h⟩
    obtain rfl := pure_eq_ok.1 hcs
    exact hone.symm.trans h

theorem append {next : Analysis → Except Fault Analysis} (h : Says said a step)
    (hnext : ∀ b, Flags a b → Says said' b (next b)) :
    Says (said ++ said') a (step >>= next) := by
  intro c
  rw [bind_eq_ok]
  constructor
  · rintro ⟨b, hb, hc⟩
    obtain ⟨cs, hcs, hb⟩ := (h b).1 hb
    obtain ⟨cs', hcs', hc⟩ := (hnext b (.reportAll hb) c).1 hc
    refine ⟨cs ++ cs', by rw [hcs, hcs']; rfl, ?_⟩
    exact foldlM_append_eq_ok.2 ⟨b, hb, hc⟩
  · rintro ⟨all, hall, hc⟩
    obtain ⟨cs, hcs, hall⟩ := bind_eq_ok.1 hall
    obtain ⟨cs', hcs', hall⟩ := bind_eq_ok.1 hall
    obtain rfl := pure_eq_ok.1 hall
    obtain ⟨b, hb, hc⟩ := foldlM_append_eq_ok.1 hc
    exact ⟨b, (h b).2 ⟨cs, hcs, hb⟩, (hnext b (.reportAll hb) c).2 ⟨cs', hcs', hc⟩⟩

theorem foldlM {α : Type} {f : Analysis → α → Except Fault Analysis}
    {g : α → Said} {xs : List α}
    (h : ∀ x ∈ xs, ∀ b, Flags a b → Says (g x) b (f b x)) :
    Says (xs.flatMapM g) a (xs.foldlM f a) := by
  induction xs generalizing a with
  | nil => exact nothing
  | cons x xs ih =>
    rw [List.flatMapM_cons, List.foldlM_cons]
    refine (h x List.mem_cons_self a (.refl a)).append fun b hb => ih fun y hy c hc => ?_
    exact h y (List.mem_cons_of_mem _ hy) c (hb.trans hc)

/-- What cannot be said cannot be reported. -/
theorem fault {f f' : Fault} : Says (.error f) a (.error f') := by
  intro b
  simp

theorem bind {α : Type} {v : Except Fault α} {f : α → Except Fault Analysis}
    {g : α → Said} (h : ∀ x, v = .ok x → Says (g x) a (f x)) :
    Says (v >>= g) a (v >>= f) := by
  cases v with
  | error fault => exact Says.fault
  | ok x => exact h x rfl

end Analysis.Says

/-- To look an expression up in a flagged program. -/
theorem says_expr {f : Expr → Except Fault Analysis} {g : Expr → Said}
    (h : Flags a b)
    (hf : ∀ x x', a.program.exprs.get? e = some x → x.Same x' → Says (g x) b (f x')) :
    Says (a.program.exprs.get e >>= g) b (b.program.exprs.get e >>= f) := by
  cases hx : a.program.exprs.get? e with
  | none =>
    have hb : b.program.exprs.get? e = none := by
      rw [Table.get?_eq_none_iff] at hx ⊢
      rw [h.size]
      exact hx
    simp only [Table.get, hx, hb]
    exact Says.fault
  | some x =>
    obtain ⟨x', hx', hs⟩ := h.exprs e x hx
    rw [Table.get_eq_ok.2 hx, Table.get_eq_ok.2 hx', ok_bind, ok_bind]
    exact hf x x' hx hs

/-! ## Expressions -/

theorem says_complaint {code : Code} (h : Flags a b) :
    Says (a.program.complaint code e) b (b.raiseAt code e) := by
  refine says_expr h fun x x' _ hs => ?_
  rw [hs.span]
  exact Says.one

/-- To check a call is to check what is called and then the arguments. -/
theorem checkExprWithin_call {fuel : Nat} {callee : ExprId} {arguments : IdRange .argument}
    (hx : b.program.exprs.get? e = some x) (hk : x.kind = .call callee arguments) :
    b.checkExprWithin (fuel + 1) e = b.checkCallee fuel callee >>= fun c =>
      c.program.arguments.slice arguments >>= (·.foldlM (fun a (_, e) => checkExprWithin fuel a e) c) := by
  simp only [checkExprWithin, Table.get_eq_ok.2 hx, ok_bind, hk, checkCallee]
  cases b.program.exprs.get callee with
  | error fault => rfl
  | ok y =>
    simp only [ok_bind]
    cases y.kind with
    | function | identifier => rfl
    | _ => exact (bind_assoc _ _ _).symm

theorem says_exprWithin {fuel : Nat} (h : Flags a b) :
    Says (a.program.complaintsWithin fuel e) b (b.checkExprWithin fuel e) := by
  induction fuel generalizing b e with
  | zero => exact Says.fault
  | succ fuel ih =>
    cases hx : a.program.exprs.get? e with
    | none =>
      have hb := h.get?_kind e
      rw [hx, Option.map_none, Option.map_eq_none_iff] at hb
      simp only [Program.complaintsWithin, checkExprWithin, Table.get, hx, hb]
      exact Says.fault
    | some x =>
    obtain ⟨x', hx', hs⟩ := h.exprs e x hx
    -- what the operands say, whatever kind of node they belong to
    have hoperands : ∀ kind,
        Says (a.program.operands kind >>= (·.flatMapM (a.program.complaintsWithin fuel))) b
          (b.program.operands kind >>= (·.foldlM (checkExprWithin fuel) b)) := by
      intro kind
      rw [Program.operands_congr h.arguments]
      exact Says.bind fun es _ => Says.foldlM fun e _ c hc => ih (h.trans hc)
    rw [Program.complaintsWithin, Table.get_eq_ok.2 hx, ok_bind]
    cases hk : x.kind with
    | call callee arguments =>
      rw [checkExprWithin_call hx' (hs.kind.trans hk)]
      refine Says.append ?_ fun c hc => ?_
      · refine says_expr h fun y y' _ hs' => ?_
        rw [hs'.kind]
        split
        · exact Says.nothing
        · exact says_complaint h
        · exact (ih h).append fun c hc => says_complaint (h.trans hc)
      · have hflags := h.trans hc
        rw [hflags.arguments]
        exact Says.bind fun es _ => Says.foldlM fun e _ d hd => ih (hflags.trans hd)
    | identifier =>
      rw [checkExprWithin, Table.get_eq_ok.2 hx', ok_bind, hs.kind, hk]
      exact says_complaint h
    | _ =>
      rw [checkExprWithin, Table.get_eq_ok.2 hx', ok_bind, hs.kind, hk]
      exact hoperands _

theorem says_expr_complaints (h : Flags a b) : Says (a.program.exprComplaints e) b (b.checkExpr e) := by
  have hdepth : b.program.exprDepth = a.program.exprDepth := by
    simp only [Program.exprDepth, h.size]
  rw [checkExpr, hdepth]
  exact says_exprWithin h

/-! ## Statements -/

section

variable (held : a.program.OperandsHeld)

include held

theorem says_value {value : ExprId} {expected : Ty} {span : Span} (h : Flags a b) :
    Says (a.program.valueComplaints value expected span) b
      (b.checkAssignable value expected span) := by
  simp only [Program.valueComplaints, checkAssignable, h.typeOf held]
  refine Says.bind fun found _ => ?_
  split
  · exact Says.nothing
  · exact Says.one

theorem says_condition {condition : ExprId} (h : Flags a b) :
    Says (a.program.exprComplaints condition ++ a.program.conditionComplaints condition) b
      (b.checkCondition condition) := by
  refine (says_expr_complaints h).append fun c hc => ?_
  have hflags := h.trans hc
  simp only [Program.conditionComplaints, hflags.typeOf held]
  refine Says.bind fun found _ => ?_
  split
  · exact Says.nothing
  · refine says_expr hflags fun x x' _ hs => ?_
    rw [hs.span]
    exact Says.one

omit held in
theorem says_iterable {iterable : ExprId} (h : Flags a b) :
    Says (a.program.exprComplaints iterable ++ a.program.iterableComplaints iterable) b
      (b.checkIterable iterable) := by
  refine (says_expr_complaints h).append fun c hc => ?_
  have hflags := h.trans hc
  refine says_expr hflags fun x x' _ hs => ?_
  rw [hs.kind]
  split
  · exact Says.nothing
  · exact says_complaint hflags

theorem says_stmt (h : Flags a b) : Says (a.program.stmtComplaints s) b (b.checkStmt s) := by
  simp only [Program.stmtComplaints, checkStmt, Table.get]
  cases hs : a.program.stmts.get? s with
  | none =>
    rw [Table.get?_eq_none_iff, ← Program.size_stmts_congr h.frame] at hs
    rw [Table.get?_eq_none_iff.2 hs]
    exact Says.fault
  | some stmt =>
    obtain ⟨stmt', hs', heq⟩ := Program.exists_stmt_congr h.frame hs
    rw [hs']
    obtain ⟨kind, span⟩ := stmt
    obtain ⟨kind', span'⟩ := stmt'
    have hkind : kind'.frame = kind.frame := congrArg Stmt.kind heq
    obtain rfl : span' = span := congrArg Stmt.span heq
    rw [ok_bind, ok_bind]
    cases kind with
    | nest head body =>
      obtain ⟨body', rfl⟩ := StmtKind.nest_of_frame hkind
      cases head with
      | ifThen | elseIf | whileDo => exact says_condition held h
      | forEach => exact says_iterable h
      | bare | elseThen | loop => exact Says.nothing
    | «variable» v type init =>
      obtain rfl := StmtKind.eq_of_frame hkind nofun
      cases init with
      | none => exact Says.nothing
      | some init =>
        refine (says_expr_complaints h).append fun c hc => ?_
        have hflags := h.trans hc
        rw [hflags.vars]
        exact Says.bind fun r _ => says_value held hflags
    | assign lhs rhs =>
      obtain rfl := StmtKind.eq_of_frame hkind nofun
      refine (says_expr_complaints h).append fun c hc => ?_
      refine (says_expr_complaints (h.trans hc)).append fun d hd => ?_
      have hflags := (h.trans hc).trans hd
      simp only [hflags.typeOf held]
      exact Says.bind fun type _ => says_value held hflags
    | output value | evaluate value =>
      obtain rfl := StmtKind.eq_of_frame hkind nofun
      exact says_expr_complaints h
    | returnValue value =>
      obtain rfl := StmtKind.eq_of_frame hkind nofun
      cases value with
      | none => exact Says.nothing
      | some value => exact says_expr_complaints h
    | _ =>
      obtain rfl := StmtKind.eq_of_frame hkind nofun
      exact Says.nothing

theorem says_outline {outline : Outline} (h : Flags a b) :
    Says (a.program.outlineComplaints outline) b (b.checkOutline outline) := by
  induction outline generalizing b with
  | stuck fault => exact Says.fault
  | done => exact Says.nothing
  | leaf s rest ih => exact (says_stmt held h).append fun c hc => ih (h.trans hc)
  | nested s body rest ihBody ihRest =>
    refine (says_stmt held h).append fun c hc => ?_
    exact (ihBody (h.trans hc)).append fun d hd => ihRest ((h.trans hc).trans hd)

/-- **To check a program is to report what there is to complain about in
it**, whatever has been flagged or given a scope before. -/
theorem check_eq_ok (h : Flags a b) (hblock : b.program.block.symbolTable.isSentinel = false) :
    b.check = .ok a' ↔ ∃ cs, a.program.complaints = .ok cs ∧ b.reportAll cs = .ok a' := by
  simp only [check, hblock, Bool.false_and, Bool.false_eq_true, if_false, lift_eq_ok,
    Program.outline_congr h.frame]
  exact says_outline held h a'

end

/-! ## Reporting all -/

/-- What has been reported is quiet. -/
theorem quiet_of_reportAll (h : a.reportAll cs = .ok b) :
    ∀ c ∈ cs, (∃ x, b.program.exprs.get? c.expr = some x) ∧ b.Quiet c.expr c.diagnostic := by
  induction cs generalizing a with
  | nil => intro c hc; cases hc
  | cons c cs ih =>
    obtain ⟨a₁, hfirst, hrest⟩ := foldlM_cons_eq_ok.1 h
    intro c' hc'
    rcases List.mem_cons.1 hc' with rfl | hc'
    · obtain ⟨x, hx, -, hquiet, -⟩ := report_eq_ok hfirst
      have hflags := (Flags.report hfirst).trans (.reportAll hrest)
      obtain ⟨x', hx', -⟩ := hflags.exprs _ x hx
      exact ⟨⟨x', hx'⟩, (Flags.reportAll hrest).quiet hquiet⟩
    · exact ih hrest c' hc'

/-- **To report again what is quiet changes nothing.** -/
theorem reportAll_again (held : ∀ c ∈ cs, ∃ x, a.program.exprs.get? c.expr = some x)
    (quiet : ∀ c ∈ cs, a.Quiet c.expr c.diagnostic) :
    ∃ b, a.reportAll cs = .ok b ∧ a.Unmoved b := by
  refine foldlM_total (a.Unmoved ·) (fun c hc b hb => ?_) (.refl a)
  obtain ⟨x, hx⟩ := held c hc
  rw [← hb.program] at hx
  obtain ⟨b', hb', hmoved⟩ := report_of_quiet hx ((Flags.unmoved hb).quiet (quiet c hc))
  exact ⟨b', hb', hb.trans hmoved⟩

end FrontEnd
