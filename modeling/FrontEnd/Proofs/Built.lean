import FrontEnd.Proofs.Building
import FrontEnd.Proofs.Steps
/-!
# FrontEnd — programs that have been built

Each step of a builder keeps a program in the making, whatever the step
(`Growing.take`), and so does the closing of what is still open in the
end. A program that a list of steps builds is therefore regular, and
nothing in it has been resolved or reported (`build_fresh`).
-/

namespace FrontEnd

open Program

variable {b b' : Builder} {e : ExprId} {span : Span}

/-! ## What a builder looks up -/

/-- The span of an expression can be read off only if it is held. -/
theorem lt_size_of_spanOf (h : b.spanOf e = .ok span) : e.raw < b.program.exprs.size := by
  obtain ⟨x, hx, -⟩ := bind_eq_ok.1 h
  exact Table.lt_size_of_get? (Table.get_eq_ok.1 hx)

theorem lt_size_of_spanAround {around : Span} {es : List ExprId}
    (h : b.spanAround around es = .ok span) : ∀ e ∈ es, e.raw < b.program.exprs.size := by
  induction es generalizing around with
  | nil => simp
  | cons e es ih =>
    obtain ⟨around', haround, hrest⟩ := foldlM_cons_eq_ok.1 h
    obtain ⟨s, hs, -⟩ := bind_eq_ok.1 haround
    exact List.forall_mem_cons.2 ⟨lt_size_of_spanOf hs, ih hrest⟩

/-- Writing changes the source only. -/
theorem exists_writeAll (b : Builder) (words : List String) :
    ∃ spans b', b.writeAll words = (spans, b') ∧ b'.program = b.program ∧ b'.opened = b.opened := by
  induction words generalizing b with
  | nil => exact ⟨[], b, rfl, rfl, rfl⟩
  | cons word words ih =>
    obtain ⟨spans, b', hw, hprogram, hopened⟩ := ih (b.write word).2
    exact ⟨(b.write word).1 :: spans, b', by simp only [Builder.writeAll, hw], hprogram, hopened⟩

/-- What is known of the program and of the open bodies is so when words
have been written. -/
theorem exists_writeAll_keeps {P : Program → List OpenBody → Prop} {b : Builder}
    (h : P b.program b.opened) (words : List String) :
    ∃ spans b', b.writeAll words = (spans, b') ∧ b'.program = b.program ∧ P b'.program b'.opened := by
  obtain ⟨spans, b', hw, hprogram, hopened⟩ := exists_writeAll b words
  refine ⟨spans, b', hw, hprogram, ?_⟩
  rwa [hprogram, hopened]

/-- Records just appended are read back by the range they were given. -/
theorem slice_append_new {k : RecordKind} {α : Type} (t : Table k α) (records : List α) :
    (t.append records).slice ⟨t.size, records.length⟩ =
      .ok ((IdRange.mk t.size records.length).ids.zip records) := by
  unfold Table.slice
  split
  · next h =>
    obtain rfl : records = [] := by simpa [IdRange.isEmpty] using h
    simp
  · rw [if_pos (by simp [IdRange.stop])]
    congr 2
    have hlist := Table.toList_append t records
    simp only [Table.toList] at hlist
    simp only [Array.toList_extract, hlist, List.extract_eq_take_drop, IdRange.stop]
    rw [List.drop_left' (by rfl), Nat.add_sub_cancel_left, List.take_length]

/-- The operands of a call are its callee and the arguments just appended. -/
theorem operands_addArguments (p : Program) (callee : ExprId) (arguments : List ExprId) :
    (p.addArguments arguments).2.operands (.call callee ⟨p.arguments.size, arguments.length⟩) =
      .ok (callee :: arguments) := by
  simp only [operands, Program.addArguments, slice_append_new, ok_bind]
  rw [List.map_snd_zip (by simp [IdRange.ids])]
  rfl

/-! ## Steps -/

namespace Growing

/-- A statement is made that declares nothing. -/
theorem addPlain (g : Growing b.program b.opened) {kind : StmtKind} (span : Span)
    (hf : ∀ f, kind ≠ .function f) (hn : ∀ head body, kind ≠ .nest head body)
    (hd : b.program.DeclarationHeld kind) (hk : kind.declares = .nothing) :
    Growing (b.program.addStmt ⟨kind, span⟩).2 b.opened :=
  g.addStmt (.refl _) hf hn hd fun t ht => by rw [hk] at ht; cases ht

theorem declareVariable (g : Growing b.program b.opened) (name : Span) (type init : Option ExprId)
    (span : Span) :
    Growing ((b.program.addVariable { name }).2.addStmt
      ⟨.variable b.program.vars.nextId type init, span⟩).2 b.opened := by
  refine g.addStmt (.addVariable _) (fun f h => ?_) (fun head body h => ?_) ?_ fun t ht name => ?_
  · cases h
  · cases h
  · simp [DeclarationHeld, Program.addVariable, Table.nextId]
  · cases ht
    exact not_nameOf Variable.name (Nat.le_refl _) name

theorem enumType (g : Growing b.program b.opened) (name : Span) (values : List EnumValue)
    (span : Span) :
    Growing ((b.program.addEnumType name values).2.addStmt
      ⟨.enumType b.program.enumTypes.nextId, span⟩).2 b.opened := by
  refine g.addStmt (.addEnumType _ _) (fun f h => ?_) (fun head body h => ?_) ?_ fun t ht name h => ?_
  · cases h
  · cases h
  · simp [DeclarationHeld, Program.addEnumType, Table.nextId]
  · cases ht
    obtain ⟨r, hr, -⟩ := bind_eq_ok.1 h
    exact Nat.lt_irrefl _ (Table.lt_size_of_get? (Table.get_eq_ok.1 hr))

theorem structType (g : Growing b.program b.opened) (name span : Span) :
    Growing ((b.program.addStructType { name }).2.addStmt
      ⟨.structType b.program.structTypes.nextId, span⟩).2 b.opened := by
  refine g.addStmt (.addStructType _) (fun f h => ?_) (fun head body h => ?_) ?_ fun t ht name h => ?_
  · cases h
  · cases h
  · simp [DeclarationHeld, Program.addStructType, Table.nextId]
  · cases ht
    obtain ⟨r, hr, -⟩ := bind_eq_ok.1 h
    exact Nat.lt_irrefl _ (Table.lt_size_of_get? (Table.get_eq_ok.1 hr))

/-- A body is opened without anything new to be known in it. -/
theorem openPlain (g : Growing b.program b.opened) {head : Head VariableId} (span : Span)
    (hits : ∀ s start, OpenBody.iterators (.nest s head start) = []) :
    Growing (b.openNest head span).program (b.openNest head span).opened := by
  refine g.openNest (.refl _) (Table.size_push ..) fun t ht => ?_
  · rw [hits] at ht
    cases ht

theorem openBody (g : Growing b.program b.opened) {head : Head String}
    (h : b.openBody head = .ok b') : Growing b'.program b'.opened := by
  cases head with
  | bare | elseThen | loop =>
    obtain rfl := pure_eq_ok.1 h
    exact openPlain (b := (b.write _).2) g _ fun _ _ => rfl
  | ifThen condition | elseIf condition | whileDo condition =>
    obtain ⟨span, -, h⟩ := bind_eq_ok.1 h
    obtain rfl := pure_eq_ok.1 h
    exact g.openPlain span fun _ _ => rfl
  | forEach iterator iterable =>
    obtain ⟨span, -, h⟩ := bind_eq_ok.1 h
    obtain rfl := pure_eq_ok.1 h
    refine g.openNest (.addVariable { name := (b.write iterator).1 }) (Table.size_push ..)
      fun t ht => ?_
    · obtain rfl : t = .variable b.program.vars.nextId := by
        simpa [OpenBody.iterators, Builder.addVariable, Builder.write, Program.addVariable] using ht
      refine ⟨⟨(b.write iterator).1, ?_⟩, not_nameOf Variable.name (Nat.le_refl _)⟩
      simp only [nameOf, Program.addVariable, Table.get, Table.get?_push, if_true]
      rfl

theorem openFunctionStep (g : Growing b.program b.opened) {name : String}
    {parameters : List (String × Option ExprId)} {returnTypeExpr : Option ExprId}
    (h : b.openFunction name parameters returnTypeExpr = .ok b') :
    Growing b'.program b'.opened := by
  unfold Builder.openFunction at h
  obtain ⟨names, b₁, hw, -, g₁⟩ :=
    exists_writeAll_keeps (P := Growing) (b := (b.write name).2) g (parameters.map (·.1))
  simp only [hw] at h
  obtain ⟨span, -, h⟩ := bind_eq_ok.1 h
  obtain rfl := pure_eq_ok.1 h
  exact g₁.openFunction rfl rfl (Table.size_push ..) rfl

theorem close (g : Growing b.program b.opened) :
    Growing b.close.2.program b.close.2.opened := by
  unfold Builder.close
  split
  · exact g
  · next body opened hopened =>
    rw [hopened] at g
    cases body with
    | function f start => exact g.closeFunction rfl
    | nest s head start => exact g.closeNest rfl

theorem enumTypeStep (g : Growing b.program b.opened) (name : String) (values : List String) :
    Growing (b.enumType name values).2.program (b.enumType name values).2.opened := by
  unfold Builder.enumType
  obtain ⟨names, b₁, hw, -, g₁⟩ :=
    exists_writeAll_keeps (P := Growing) (b := (b.write name).2) g values
  simp only [hw]
  exact g₁.enumType _ _ _

/-- **Every step keeps a program in the making.** -/
theorem take (g : Growing b.program b.opened) {step : Step} {made : Option Made}
    (h : b.take step = .ok (made, b')) : Growing b'.program b'.opened := by
  cases takes_of_take h with
  | identifier | integer | float | boolean | string => exact g.addExpr rfl rfl (by simp)
  | call hstart hspan =>
    exact (g.addArguments _).addExpr rfl (operands_addArguments b.program _ _)
      (List.forall_mem_cons.2 ⟨lt_size_of_spanOf hstart, lt_size_of_spanAround hspan⟩)
  | field hspan => exact g.addExpr rfl rfl (by simpa using lt_size_of_spanOf hspan)
  | range hstart hspan | binary hstart hspan =>
    exact g.addExpr rfl rfl
      (List.forall_mem_cons.2 ⟨lt_size_of_spanOf hstart, lt_size_of_spanAround hspan⟩)
  | unary hspan => exact g.addExpr rfl rfl (lt_size_of_spanAround hspan)
  | «variable» => exact g.declareVariable _ _ _ _
  | assign | output | evaluate | returnValue | breakLoop =>
    exact g.addPlain _ (fun f h => by cases h) (fun head body h => by cases h) trivial rfl
  | enumType name values => exact g.enumTypeStep name values
  | structType name => exact g.structType _ _
  | openFunction opens => exact g.openFunctionStep opens
  | openBody opens => exact g.openBody opens
  | close => exact g.close
  | word | newline => exact g

/-! ## Whole runs -/

theorem empty : Growing Builder.empty.program Builder.empty.opened where
  operands e x hx := by cases hx
  unresolved e x hx := by cases hx
  declarations s stmt hs := by cases hs
  owners s s' t hs _ := absurd (lt_of_owned hs) (Nat.not_lt_zero _)
  values e r hr := by cases hr
  named t ht := by cases ht
  waiting t ht := by cases ht
  distinct := List.nodup_nil
  bodies s body hb := absurd (lt_size_of_bodyOf hb) (Nat.not_lt_zero _)
  block := rfl
  tables := rfl
  mainSearched := rfl
  functions f hf := absurd hf (Nat.not_lt_zero _)
  parameters a ha := absurd ha (Nat.not_lt_zero _)
  layout := .top (.done 0)

theorem takeAll (g : Growing b.program b.opened) {steps : List Step}
    (h : b.takeAll steps = .ok b') : Growing b'.program b'.opened := by
  refine foldlM_invariant (fun b => Growing b.program b.opened) (fun step _ b b' g h => ?_) g h
  obtain ⟨⟨made, b₁⟩, h₁, h⟩ := bind_eq_ok.1 h
  obtain rfl := pure_eq_ok.1 h
  exact g.take h₁

end Growing

namespace Builder

theorem opened_close (b : Builder) : b.close.2.opened = b.opened.tail := by
  unfold close
  split
  · next h => rw [h]; rfl
  · next h => rw [h]; rfl

section

variable {P : Builder → Prop} (close : ∀ b, P b → P b.close.2)

include close

/-- Closing what is open, as often as there is something. -/
theorem closeEach_keeps (bodies : List OpenBody) (made : List Made) (h : P b)
    (hlen : b.opened.length = bodies.length) :
    let b' := (bodies.foldl (fun (made, b) _ =>
      let (body, b) := b.close
      (made ++ (body.map OpenBody.made).toList, b)) (made, b)).2
    P b' ∧ b'.opened = [] := by
  induction bodies generalizing b made with
  | nil => exact ⟨h, List.length_eq_zero_iff.1 hlen⟩
  | cons body bodies ih =>
    have hclosed : b.close.2.opened.length = bodies.length := by
      rw [opened_close, List.length_tail, hlen]
      rfl
    exact ih _ (close b h) hclosed

/-- **What closing one body keeps, closing all of them keeps**, and none
is open in the end. -/
theorem closeAll_keeps (h : P b) : P b.closeAll.2 ∧ b.closeAll.2.opened = [] :=
  closeEach_keeps close b.opened [] h rfl

end

end Builder

/-- What holds of a program that has just been built. -/
structure Program.Fresh (p : Program) : Prop where
  regular : p.Regular
  /-- No name has been resolved, and nothing has been reported. -/
  unresolved : ∀ e x, p.exprs.get? e = some x → x.kind.isReference = false ∧ x.flagged = false
  /-- Every function is declared by a statement, and every parameter
  belongs to one. -/
  functions : ∀ f : FunctionId, f.raw < p.functions.size → ∃ s, .function f ∈ p.owned s
  parameters : ∀ a : ParameterId, a.raw < p.parameters.size → ∃ s, .parameter a ∈ p.owned s
  scopes : p.ScopesHeld
  tables : 0 < p.symbolTables.size
  unsearched : p.mainSearched = false

/-- **Whatever the steps, what they build is regular and fresh.** -/
theorem Program.build_fresh {steps : List Step} {p : Program} {written : String}
    (h : Program.build steps = .ok (p, written)) : p.Fresh := by
  obtain ⟨b, hb, h⟩ := bind_eq_ok.1 h
  cases pure_eq_ok.1 h
  obtain ⟨g, hopened⟩ := Builder.closeAll_keeps (P := fun b => Growing b.program b.opened)
    (fun _ => Growing.close) (Growing.empty.takeAll hb)
  generalize b.closeAll.2 = c at g hopened
  rw [hopened] at g
  have hlayout := g.layout
  cases hlayout with
  | @top _ o lays =>
    have hheld : 0 < c.program.symbolTables.size := by
      rw [g.tables]
      simp
    refine
      { regular :=
          { operands := g.operands
            declarations := g.declarations
            owners := g.owners
            values := g.values
            layout := ⟨o, lays.congr fun _ _ _ => rfl⟩
            whole := by simp [Builder.finish, blockSince] }
        unresolved := g.unresolved
        functions := g.functions
        parameters := g.parameters
        scopes :=
          { links := fun t r hr => ?_
            bodies := fun s body hbody => ?_
            block := hheld }
        tables := hheld
        unsearched := g.mainSearched }
    · have hr' : c.program.symbolTables.get? t = some r := hr
      rw [g.tables, Table.get?_push] at hr'
      split at hr'
      · cases hr'
        exact hheld
      · cases hr'
    · rw [g.bodies s body hbody]
      exact hheld

end FrontEnd
