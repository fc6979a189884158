import FrontEnd.Proofs.Built
import FrontEnd.Proofs.Checks
/-!
# FrontEnd — what a builder has in stock

A builder that is given only expressions it has handed out itself can
always take another step (`take_succeeds`), and what it has recorded
stays good for the check of the layout (`Stocked`): the expressions in
statements, in open bodies and in signatures are held, the values of the
enum types follow each other, and no declaration has a type yet. So a
whole run of such steps succeeds (`build_succeeds`).
-/

namespace FrontEnd

/-- The expressions that stand before an open body. -/
def OpenBody.exprs : OpenBody → List ExprId
  | .function _ _ => []
  | .nest _ head _ => head.expr?.toList

/-- What has been recorded by a builder whose open bodies are these. -/
structure Stocked (p : Program) (opened : List OpenBody) : Prop where
  functions : ∀ r ∈ p.functions.toList, p.FunctionHeld r ∧ r.returnType = .unset
  parameters : ∀ r ∈ p.parameters.toList,
    (∀ e, r.typeExpr = some e → e.raw < p.exprs.size) ∧ r.type = .unset
  vars : ∀ r ∈ p.vars.toList, r.type = .unset
  values : Program.checkEnumTypes 0 0 p.enumTypes.toList = .ok p.enumValues.size
  stmts : ∀ s ∈ p.stmts.toList, ∀ e ∈ s.kind.exprs, e.raw < p.exprs.size
  heads : ∀ body ∈ opened, ∀ e ∈ body.exprs, e.raw < p.exprs.size

open Program

variable {p : Program} {b : Builder} {opened : List OpenBody} {body : OpenBody} {e : ExprId}

/-- Values may be appended to those there are. -/
theorem checkEnumTypes_append {types : List EnumType} {start index stop : Nat} (r : EnumType)
    (h : checkEnumTypes start index types = .ok stop) (hr : r.values.start = stop) :
    checkEnumTypes start index (types ++ [r]) = .ok r.values.stop := by
  induction types generalizing start index with
  | nil =>
    cases h
    simp [checkEnumTypes, hr]
  | cons r' rest ih =>
    obtain ⟨hstart, hrest⟩ := checkEnumTypes_cons.1 h
    exact checkEnumTypes_cons.2 ⟨hstart, ih hrest⟩

namespace Stocked

/-! ## Records -/

theorem empty : Stocked .empty [] where
  functions := by simp [Program.empty]
  parameters := by simp [Program.empty]
  vars := by simp [Program.empty]
  values := rfl
  stmts := by simp [Program.empty]
  heads := by simp

section

variable (h : Stocked p opened)

include h

theorem addExpr (x : Expr) : Stocked (p.addExpr x).2 opened := by
  have hle : ∀ {e : ExprId}, e.raw < p.exprs.size → e.raw < (p.exprs.push x).size := fun he => by
    rw [Table.size_push]
    omega
  exact
    { functions := fun r hr =>
        ⟨⟨fun e he => hle ((h.functions r hr).1.1 e he), (h.functions r hr).1.2⟩,
          (h.functions r hr).2⟩
      parameters := fun r hr =>
        ⟨fun e he => hle ((h.parameters r hr).1 e he), (h.parameters r hr).2⟩
      vars := h.vars
      values := h.values
      stmts := fun s hs e he => hle (h.stmts s hs e he)
      heads := fun body hbody e he => hle (h.heads body hbody e he) }

theorem addArguments (arguments : List ExprId) : Stocked (p.addArguments arguments).2 opened :=
  { h with }

theorem addStmt {s : Stmt} (hs : ∀ e ∈ s.kind.exprs, e.raw < p.exprs.size) :
    Stocked (p.addStmt s).2 opened :=
  { h with
    stmts := by
      simp only [Program.addStmt, Table.toList_push, List.forall_mem_append, List.forall_mem_singleton]
      exact ⟨h.stmts, hs⟩ }

theorem addVariable (name : Span) : Stocked (p.addVariable { name }).2 opened :=
  { h with
    vars := by
      simp only [Program.addVariable, Table.toList_push, List.forall_mem_append,
        List.forall_mem_singleton]
      exact ⟨h.vars, trivial⟩ }

theorem addStructType (r : StructType) : Stocked (p.addStructType r).2 opened := { h with }

theorem addEnumType (name : Span) (values : List EnumValue) :
    Stocked (p.addEnumType name values).2 opened :=
  { h with
    values := by
      simp only [Program.addEnumType, Table.toList_push, Table.size_append]
      exact checkEnumTypes_append _ h.values rfl }

theorem addParameters {parameters : List Parameter} (hparameters : ∀ r ∈ parameters,
    (∀ e, r.typeExpr = some e → e.raw < p.exprs.size) ∧ r.type = .unset) :
    Stocked (p.addParameters parameters).2 opened :=
  { h with
    functions := fun r hr => by
      obtain ⟨⟨hreturn, hrange⟩, htype⟩ := h.functions r hr
      refine ⟨⟨hreturn, hrange.imp_right fun hle => ?_⟩, htype⟩
      simp only [Program.addParameters, Table.size_append]
      omega
    parameters := by
      simp only [Program.addParameters, Table.toList_append, List.forall_mem_append]
      exact ⟨h.parameters, hparameters⟩ }

theorem addFunction {r : Function} (hr : p.FunctionHeld r) (ht : r.returnType = .unset) :
    Stocked (p.addFunction r).2 opened :=
  { h with
    functions := by
      simp only [Program.addFunction, Table.toList_push, List.forall_mem_append,
        List.forall_mem_singleton]
      exact ⟨h.functions, hr, ht⟩ }

theorem openBody (hbody : ∀ e ∈ body.exprs, e.raw < p.exprs.size) : Stocked p (body :: opened) :=
  { h with heads := List.forall_mem_cons.2 ⟨hbody, h.heads⟩ }

end

/-- A record that has been changed is an old one, or comes from one. -/
theorem mem_toList_modify {k : RecordKind} {α : Type} {t : Table k α} {i : RecordId k} {f : α → α}
    {x : α} (hx : x ∈ (t.modify i f).toList) : x ∈ t.toList ∨ ∃ y ∈ t.toList, x = f y := by
  obtain ⟨j, hj⟩ := Table.mem_toList.1 hx
  rw [Table.get?_modify] at hj
  split at hj
  · obtain ⟨y, hy, rfl⟩ := Option.map_eq_some_iff.1 hj
    exact .inr ⟨y, Table.mem_toList.2 ⟨j, hy⟩, rfl⟩
  · exact .inl (Table.mem_toList.2 ⟨j, hj⟩)

/-- Closing a body leaves the stock as good as it was. -/
theorem close (h : Stocked b.program b.opened) :
    Stocked b.close.2.program b.close.2.opened := by
  unfold Builder.close
  split
  · exact h
  · next body opened hopened =>
    rw [hopened] at h
    obtain ⟨hhead, hheads⟩ := List.forall_mem_cons.1 h.heads
    cases body with
    | function f start =>
      refine { h with functions := fun r hr => ?_, heads := hheads }
      rcases mem_toList_modify hr with hold | ⟨r', hr', rfl⟩
      · exact h.functions r hold
      · exact h.functions r' hr'
    | nest s head start =>
      refine { h with stmts := fun stmt hstmt => ?_, heads := hheads }
      rcases mem_toList_modify hstmt with hold | ⟨stmt', -, rfl⟩
      · exact h.stmts stmt hold
      · exact hhead

end Stocked

/-! ## Steps -/

/-- The expressions that a step is given. -/
def Step.exprs : Step → List ExprId
  | .call callee arguments => callee :: arguments
  | .field subject _ => [subject]
  | .range first last => [first, last]
  | .unary _ operand => [operand]
  | .binary _ lhs rhs => [lhs, rhs]
  | .variable _ type init => type.toList ++ init.toList
  | .assign lhs rhs => [lhs, rhs]
  | .output value | .evaluate value => [value]
  | .returnValue value => value.toList
  | .openFunction _ parameters returnType =>
    parameters.filterMap (·.2) ++ returnType.toList
  | .openBody head => head.expr?.toList
  | .identifier _ | .integer _ | .float _ | .boolean _ | .string _ | .breakLoop
  | .enumType _ _ | .structType _ | .close | .word _ | .newline => []

/-- The expression that a step has made, if it has made one. -/
def Made.expr? : Made → Option ExprId
  | .expr e => some e
  | _ => none

namespace Builder

theorem spanOf_succeeds (he : e.raw < b.program.exprs.size) :
    Succeeds (b.spanOf e) fun _ => True := by
  obtain ⟨x, hx⟩ := Table.exists_get?_of_lt he
  exact (Succeeds.of_eq (P := fun _ => True) (Table.get_eq_ok.2 hx) trivial).bind
    fun _ _ => .pure trivial

theorem spanAround_succeeds (span : Span) {es : List ExprId}
    (hes : ∀ e ∈ es, e.raw < b.program.exprs.size) :
    Succeeds (b.spanAround span es) fun _ => True :=
  .foldlM (fun e he _ _ => (spanOf_succeeds (hes e he)).bind fun _ _ => .pure trivial) trivial

/-- What a step leaves behind: a good stock, with what it has made. -/
structure Took (b : Builder) (made : Option Made) (b' : Builder) : Prop where
  stocked : Stocked b'.program b'.opened
  grows : b.program.exprs.size ≤ b'.program.exprs.size
  held : ∀ e, made.bind Made.expr? = some e → e.raw < b'.program.exprs.size

/-- What a step makes is passed on with the builder. -/
theorem made_succeeds {α : Type} {x : Except Fault (α × Builder)} {f : α → Made}
    (h : Succeeds x fun r => Took b (some (f r.1)) r.2) :
    Succeeds (do return (← x).map (some ∘ f) id : Except Fault (Option Made × Builder))
      fun r => Took b r.1 r.2 :=
  h.bind fun _ ht => by exact .pure ht

theorem Took.of_exprs {b' : Builder} {made : Option Made} (h : Stocked b'.program b'.opened)
    (hexprs : b'.program.exprs = b.program.exprs) (hmade : made.bind Made.expr? = none) :
    Took b made b' where
  stocked := h
  grows := Nat.le_of_eq (by rw [hexprs])
  held e he := by
    rw [hmade] at he
    cases he

theorem Took.addExpr {b₁ : Builder} {kind : ExprKind} {span : Span}
    (h : Stocked b₁.program b₁.opened) (hexprs : b₁.program.exprs = b.program.exprs) :
    Took b (some (.expr (b₁.addExpr kind span).1)) (b₁.addExpr kind span).2 where
  stocked := h.addExpr _
  grows := by
    simp only [Builder.addExpr, Program.addExpr, Table.size_push, hexprs]
    omega
  held := by
    rintro _ ⟨⟩
    simp [Builder.addExpr, Program.addExpr, Table.nextId]

/-- A body is opened behind a statement of its own. -/
theorem openNest_took {b₁ : Builder} {head : Head VariableId} {span : Span}
    (h : Stocked b₁.program b₁.opened)
    (hhead : ∀ e ∈ head.expr?.toList, e.raw < b₁.program.exprs.size)
    (hexprs : b₁.program.exprs = b.program.exprs) : Took b none (b₁.openNest head span) :=
  .of_exprs ((h.addStmt (by simp [StmtKind.exprs])).openBody hhead) hexprs rfl

/-- Closing a body makes no expression. -/
theorem close_took (h : Stocked b.program b.opened) :
    Took b (b.close.1.map OpenBody.made) b.close.2 := by
  refine .of_exprs h.close ?_ ?_
  · unfold close
    split
    · rfl
    · next body opened _ => cases body <;> rfl
  · cases b.close.1 with
    | none => rfl
    | some body =>
      rcases body with ⟨f, start⟩ | ⟨s, head, start⟩
      · rfl
      · cases head <;> rfl

section

variable (h : Stocked b.program b.opened)

include h

theorem openFunction_succeeds (name : String) {parameters : List (String × Option ExprId)}
    {returnType : Option ExprId}
    (hparameters : ∀ e ∈ parameters.filterMap (·.2), e.raw < b.program.exprs.size)
    (hreturn : ∀ e, returnType = some e → e.raw < b.program.exprs.size) :
    Succeeds (b.openFunction name parameters returnType) (Took b none) := by
  unfold openFunction
  obtain ⟨names, b₁, hw, hprogram, h₁⟩ :=
    exists_writeAll_keeps (P := Stocked) (b := (b.write name).2) h (parameters.map (·.1))
  simp only [hw]
  have hexprs : b₁.program.exprs = b.program.exprs := congrArg Program.exprs hprogram
  rw [← hexprs] at hparameters hreturn
  have hrecords : ∀ r ∈ names.zipWith (fun name x => ({ name, typeExpr := x.2 } : Parameter))
      parameters, (∀ e, r.typeExpr = some e → e.raw < b₁.program.exprs.size) ∧ r.type = .unset := by
    intro r hr
    rw [← List.map_uncurry_zip_eq_zipWith] at hr
    obtain ⟨⟨span, text, typeExpr⟩, hmem, rfl⟩ := List.mem_map.1 hr
    exact ⟨fun e he => hparameters e (List.mem_filterMap.2 ⟨_, (List.of_mem_zip hmem).2, he⟩), rfl⟩
  refine (spanAround_succeeds _ (by simpa [Program.addParameters] using hreturn)).bind
    fun span _ => .pure (.of_exprs ?_ hexprs rfl)
  exact (((h₁.addParameters hrecords).addFunction
    ⟨hreturn, .inr (by simp [IdRange.stop, Program.addParameters])⟩ rfl).addStmt
      (by simp [StmtKind.exprs])).openBody (by simp [OpenBody.exprs])

theorem openBody_succeeds {head : Head String}
    (hhead : ∀ e ∈ head.expr?.toList, e.raw < b.program.exprs.size) :
    Succeeds (b.openBody head) (Took b none) := by
  cases head with
  | bare | elseThen | loop =>
    refine .pure ?_
    exact openNest_took h hhead rfl
  | ifThen condition | elseIf condition | whileDo condition =>
    refine (spanOf_succeeds (hhead condition (by simp [Head.expr?]))).bind fun span _ => .pure ?_
    exact openNest_took h hhead rfl
  | forEach iterator iterable =>
    refine (spanAround_succeeds _ hhead).bind fun span _ => .pure ?_
    exact openNest_took (h.addVariable _) hhead rfl

theorem enumType_took (name : String) (values : List String) :
    Took b (some (.enumType (b.enumType name values).1)) (b.enumType name values).2 := by
  unfold enumType
  obtain ⟨names, b₁, hw, hprogram, h₁⟩ := exists_writeAll_keeps (P := Stocked) (b := (b.write name).2) h values
  simp only [hw]
  have hexprs : b₁.program.exprs = b.program.exprs := congrArg Program.exprs hprogram
  exact .of_exprs ((h₁.addEnumType _ _).addStmt (by simp [StmtKind.exprs])) hexprs rfl

/-- **Every step succeeds that is given expressions which are held**, and
leaves a good stock behind. -/
theorem take_succeeds {step : Step} (held : ∀ e ∈ step.exprs, e.raw < b.program.exprs.size) :
    Succeeds (b.take step) fun r => Took b r.1 r.2 := by
  cases step with
  | identifier name | integer value | float value | boolean value | string contents =>
    refine .pure ?_
    exact .addExpr h rfl
  | call callee arguments =>
    obtain ⟨hcallee, harguments⟩ := List.forall_mem_cons.1 held
    refine made_succeeds ?_
    refine (spanOf_succeeds hcallee).bind fun start _ => ?_
    refine (spanAround_succeeds start harguments).bind fun span _ => .pure ?_
    exact .addExpr (h.addArguments arguments) rfl
  | field subject name =>
    refine made_succeeds ?_
    refine (spanOf_succeeds (held subject (by simp [Step.exprs]))).bind fun span _ => .pure ?_
    exact .addExpr h rfl
  | range first last | binary op first last =>
    obtain ⟨hfirst, hlast⟩ := List.forall_mem_cons.1 held
    refine made_succeeds ?_
    refine (spanOf_succeeds hfirst).bind fun start _ => ?_
    exact (spanAround_succeeds start hlast).bind fun span _ => .pure (.addExpr h rfl)
  | unary op operand =>
    refine made_succeeds ?_
    exact (spanAround_succeeds _ held).bind fun span _ => .pure (.addExpr h rfl)
  | «variable» name type init =>
    refine made_succeeds ?_
    refine (spanAround_succeeds _ held).bind fun span _ => .pure ?_
    refine .of_exprs ((h.addVariable _).addStmt fun e he => held e ?_) rfl rfl
    simpa [StmtKind.exprs, Step.exprs, or_comm] using he
  | assign lhs rhs =>
    obtain ⟨hlhs, hrhs⟩ := List.forall_mem_cons.1 held
    refine made_succeeds ?_
    refine (spanOf_succeeds hlhs).bind fun start _ => ?_
    exact (spanAround_succeeds start hrhs).bind fun span _ =>
      .pure (.of_exprs (h.addStmt held) rfl rfl)
  | output value | evaluate value =>
    refine made_succeeds ?_
    exact (spanOf_succeeds (held value (by simp [Step.exprs]))).bind fun span _ =>
      .pure (.of_exprs (h.addStmt held) rfl rfl)
  | returnValue value =>
    refine made_succeeds ?_
    exact (spanAround_succeeds _ held).bind fun span _ =>
      .pure (.of_exprs (h.addStmt held) rfl rfl)
  | breakLoop => exact .pure (.of_exprs (h.addStmt (by simp [StmtKind.exprs])) rfl rfl)
  | enumType name values => exact .pure (enumType_took h name values)
  | structType name =>
    exact .pure (.of_exprs ((h.addStructType _).addStmt (by simp [StmtKind.exprs])) rfl rfl)
  | openFunction name parameters returnType =>
    obtain ⟨hparameters, hreturn⟩ := List.forall_mem_append.1 held
    exact (openFunction_succeeds h name hparameters fun e he => hreturn e (by simp [he])).bind
      fun _ ht => .pure ht
  | openBody head => exact (openBody_succeeds h held).bind fun _ ht => .pure ht
  | close => exact .pure (close_took h)
  | word text | newline => exact .pure (.of_exprs h rfl rfl)

end

/-! ## Whole runs -/

/-- Each step is given only expressions that have been handed out: those
given, or made by a step before it. No such step faults
(`take_succeeds`), so the last case is never met. -/
def OwnIds (given : List ExprId) (b : Builder) : List Step → Prop
  | [] => True
  | step :: steps => (∀ e ∈ step.exprs, e ∈ given) ∧
    match b.take step with
    | .ok (made, b) => OwnIds (given ++ (made.bind Made.expr?).toList) b steps
    | .error _ => True

instance decidableOwnIds (given : List ExprId) (b : Builder) :
    (steps : List Step) → Decidable (OwnIds given b steps)
  | [] => .isTrue trivial
  | step :: steps =>
    have : Decidable (match b.take step with
        | .ok (made, b) => OwnIds (given ++ (made.bind Made.expr?).toList) b steps
        | .error _ => True) :=
      match b.take step with
      | .ok (_, b) => decidableOwnIds _ b steps
      | .error _ => .isTrue trivial
    inferInstanceAs (Decidable (_ ∧ _))

/-- **A run succeeds whose steps are given what has been handed out.** -/
theorem takeAll_succeeds {steps : List Step} {given : List ExprId}
    (h : Stocked b.program b.opened) (held : ∀ e ∈ given, e.raw < b.program.exprs.size)
    (own : OwnIds given b steps) :
    Succeeds (b.takeAll steps) fun b' => Stocked b'.program b'.opened := by
  induction steps generalizing b given with
  | nil => exact .pure h
  | cons step steps ih =>
    obtain ⟨hstep, own⟩ := own
    obtain ⟨⟨made, b₁⟩, hb₁, ht⟩ := take_succeeds h fun e he => held e (hstep e he)
    simp only [hb₁] at own
    have held₁ : ∀ e ∈ given ++ (made.bind Made.expr?).toList, e.raw < b₁.program.exprs.size :=
      List.forall_mem_append.2 ⟨fun e he => Nat.lt_of_lt_of_le (held e he) ht.grows,
        fun e he => ht.held e (Option.mem_toList.1 he)⟩
    obtain ⟨b₂, hb₂, h₂⟩ := ih ht.stocked held₁ own
    exact ⟨b₂, foldlM_cons_eq_ok.2 ⟨b₁, by rw [hb₁]; rfl, hb₂⟩, h₂⟩

/-- What such a run builds is well stocked. -/
theorem build_succeeds {steps : List Step} (own : OwnIds [] .empty steps) :
    Succeeds (Program.build steps) fun r => Stocked r.1 [] := by
  refine (takeAll_succeeds .empty (by simp) own).bind fun b h => .pure ?_
  obtain ⟨h', hopened⟩ := closeAll_keeps (P := fun b => Stocked b.program b.opened)
    (fun _ => Stocked.close) h
  rw [hopened] at h'
  exact { h' with }

end Builder

end FrontEnd
