import FrontEnd.Proofs.Built
/-!
# FrontEnd — statements given to a builder as a tree

A `Script` is the steps of a builder as a tree: the statements of each
body under the step that opens it, and what makes no statement in
between. What a statement was made by can be read off the program and
its source (`readCall`). `Recalls` is the same as a relation, which
holds right after the step (`take_leaf`, `take_opening`) and for good,
however the program grows (`Recalls.later`).
-/

namespace FrontEnd

/-- What a step is to the statements of a program. -/
inductive Role
  /-- It makes no statement. -/
  | plain
  | leaf
  /-- It makes a statement and opens its body. -/
  | opening
  | closing
deriving DecidableEq

def Step.role : Step → Role
  | .variable _ _ _ | .assign _ _ | .output _ | .evaluate _ | .returnValue _ | .breakLoop
  | .enumType _ _ | .structType _ => .leaf
  | .openFunction _ _ _ | .openBody _ => .opening
  | .close => .closing
  | .identifier _ | .integer _ | .float _ | .boolean _ | .string _ | .call _ _ | .field _ _
  | .range _ _ | .unary _ _ | .binary _ _ _ | .word _ | .newline => .plain

/-- Statements as a tree, with an `α` for each of them. -/
inductive StmtTree (α : Type)
  | done
  | leaf (a : α) (rest : StmtTree α)
  | nested (a : α) (body rest : StmtTree α)
deriving DecidableEq

namespace StmtTree

variable {α β : Type}

def map (f : α → β) : StmtTree α → StmtTree β
  | .done => .done
  | .leaf a rest => .leaf (f a) (rest.map f)
  | .nested a body rest => .nested (f a) (body.map f) (rest.map f)

/-- The number of statements, bodies included. -/
def size : StmtTree α → Nat
  | .done => 0
  | .leaf _ rest => 1 + rest.size
  | .nested _ body rest => 1 + body.size + rest.size

end StmtTree

/-- Steps as a tree. Every body that is opened is closed. -/
inductive Script
  | done
  | plain (step : Step) (role : step.role = .plain) (rest : Script)
  | leaf (step : Step) (role : step.role = .leaf) (rest : Script)
  | nested (step : Step) (role : step.role = .opening) (body rest : Script)

namespace Script

/-- The steps one after the other. -/
def steps : Script → List Step
  | .done => []
  | .plain step _ rest | .leaf step _ rest => step :: rest.steps
  | .nested step _ body rest => step :: body.steps ++ .close :: rest.steps

/-- The tree of the statements that the script makes, each given by the
step that makes it. -/
def calls : Script → StmtTree Step
  | .done => .done
  | .plain _ _ rest => rest.calls
  | .leaf step _ rest => .leaf step rest.calls
  | .nested step _ body rest => .nested step body.calls rest.calls

end Script

/-- Take the steps of a script; gives the step that made each statement,
with what the builder handed back for it. -/
def Builder.emit (b : Builder) : Script → Except Fault (Builder × StmtTree (Step × Option Made))
  | .done => return (b, .done)
  | .plain step _ rest => do
    let (_, b) ← b.take step
    b.emit rest
  | .leaf step _ rest => do
    let (made, b) ← b.take step
    let (b, rest) ← b.emit rest
    return (b, .leaf (step, made) rest)
  | .nested step _ body rest => do
    let (_, b) ← b.take step
    let (b, body) ← b.emit body
    let (made, b) ← b.take .close
    let (b, rest) ← b.emit rest
    return (b, .nested (step, made) body rest)

/-! ## Reading a program back -/

/-- The head with its iterator read by `f`. -/
def Head.mapM {ι κ : Type} (f : ι → Except Fault κ) : Head ι → Except Fault (Head κ)
  | .bare => return .bare
  | .ifThen condition => return .ifThen condition
  | .elseIf condition => return .elseIf condition
  | .elseThen => return .elseThen
  | .loop => return .loop
  | .forEach iterator iterable => return .forEach (← f iterator) iterable
  | .whileDo condition => return .whileDo condition

/-- The step that a statement was made by, with its names as they read in
the source, and what the builder handed back for it. No step makes an
invalid statement. -/
def Program.readCall (p : Program) (source : String) (s : StmtId) :
    Except Fault (Step × Option Made) := do
  match (← p.stmts.get s).kind with
  | .invalid => .error .outOfRange
  | .function f =>
    let r ← p.functions.get f
    let parameters ← p.parameters.slice r.parameters
    return (.openFunction (r.name.read source)
      (parameters.map fun (_, a) => (a.name.read source, a.typeExpr)) r.returnTypeExpr,
      some (.function f))
  | .enumType e =>
    let r ← p.enumTypes.get e
    let values ← p.enumValues.slice r.values
    return (.enumType (r.name.read source) (values.map fun (_, v) => v.name.read source),
      some (.enumType e))
  | .structType u =>
    let r ← p.structTypes.get u
    return (.structType (r.name.read source), some (.structType u))
  | .variable v type init =>
    let r ← p.vars.get v
    return (.variable (r.name.read source) type init, some (.variable v))
  | .nest head _ =>
    let named ← head.mapM fun v => return (← p.vars.get v).name.read source
    return (.openBody named, some (OpenBody.nest s head 0).made)
  | .breakLoop => return (.breakLoop, some (.stmt s))
  | .assign lhs rhs => return (.assign lhs rhs, some (.stmt s))
  | .output value => return (.output value, some (.stmt s))
  | .evaluate value => return (.evaluate value, some (.stmt s))
  | .returnValue value => return (.returnValue value, some (.stmt s))

/-- Read each statement of an outline. -/
def Outline.read {α : Type} (f : StmtId → Except Fault α) : Outline → Except Fault (StmtTree α)
  | .stuck fault => .error fault
  | .done => return .done
  | .leaf s rest => return .leaf (← f s) (← rest.read f)
  | .nested s body rest => return .nested (← f s) (← body.read f) (← rest.read f)

/-- The statements of a program as a tree: the children of its top level,
and under each of them those of its body. -/
def Program.readBack (p : Program) (source : String) :
    Except Fault (StmtTree (Step × Option Made)) :=
  (p.outline p.block).read (p.readCall source)

/-! ## Words -/

/-- The word stands in the source, at the span. -/
def Reads (source : String) (span : Span) (word : String) : Prop :=
  ∃ before after : String, source = before ++ word ++ after ∧
    span = ⟨before.utf8ByteSize, word.utf8ByteSize⟩

variable {source more word : String} {span : Span} {b b' b₁ b₂ : Builder} {p p' : Program}

theorem Reads.append (h : Reads source span word) : Reads (source ++ more) span word := by
  obtain ⟨before, after, rfl, rfl⟩ := h
  exact ⟨before, after ++ more, by simp only [String.append_assoc], rfl⟩

theorem Reads.read (h : Reads source span word) : span.read source = word := by
  obtain ⟨before, after, rfl, rfl⟩ := h
  simp only [Span.read, Span.stop, sliceBytes?_append, Option.getD_some]

/-- The one source goes on where the other ends. -/
def Continues (source source' : String) : Prop := ∃ more, source' = source ++ more

theorem Continues.refl (source : String) : Continues source source := ⟨"", by simp⟩

theorem Continues.trans {source' source'' : String} (h : Continues source source')
    (h' : Continues source' source'') : Continues source source'' := by
  obtain ⟨more, rfl⟩ := h
  obtain ⟨more', rfl⟩ := h'
  exact ⟨more ++ more', by simp only [String.append_assoc]⟩

theorem Reads.continues {source' : String} (h : Reads source span word)
    (grows : Continues source source') : Reads source' span word := by
  obtain ⟨more, rfl⟩ := grows
  exact h.append

/-- What is written reads as it was written. -/
theorem write_reads (b : Builder) (word : String) :
    Reads (b.write word).2.source (b.write word).1 word ∧
      Continues b.source (b.write word).2.source := by
  refine ⟨⟨Builder.separated b.source, "", by simp [Builder.write], rfl⟩, ?_⟩
  have hsep : Continues b.source (Builder.separated b.source) := by
    unfold Builder.separated
    split
    · exact .refl _
    · exact ⟨" ", rfl⟩
  exact hsep.trans ⟨word, rfl⟩

theorem writeAll_reads (b : Builder) (words : List String) :
    ∃ spans b', b.writeAll words = (spans, b') ∧ b'.program = b.program ∧ b'.opened = b.opened ∧
      Continues b.source b'.source ∧ List.Forall₂ (Reads b'.source) spans words := by
  induction words generalizing b with
  | nil => exact ⟨[], b, rfl, rfl, rfl, .refl _, .nil⟩
  | cons word words ih =>
    obtain ⟨hword, hgrows⟩ := write_reads b word
    obtain ⟨spans, b', hw, hprogram, hopened, hgrows', hall⟩ := ih (b.write word).2
    exact ⟨(b.write word).1 :: spans, b', by simp only [Builder.writeAll, hw], hprogram, hopened,
      hgrows.trans hgrows', .cons (hword.continues hgrows') hall⟩

/-! ## What made a statement -/

/-- A statement of the given kind was made by a step that handed back
`made`. -/
inductive Recalls (p : Program) (source : String) (s : StmtId) : StmtKind → Step → Made → Prop
  | function {f : FunctionId} {r : Function} {l : List (ParameterId × Parameter)} {name : String}
      {parameters : List (String × Option ExprId)} (hr : p.functions.get? f = some r)
      (hl : p.parameters.slice r.parameters = .ok l) (hname : Reads source r.name name)
      (hall : List.Forall₂
        (fun a given => Reads source a.2.name given.1 ∧ a.2.typeExpr = given.2) l parameters) :
      Recalls p source s (.function f) (.openFunction name parameters r.returnTypeExpr)
        (.function f)
  | enumType {e : EnumTypeId} {r : EnumType} {l : List (EnumValueId × EnumValue)} {name : String}
      {values : List String} (hr : p.enumTypes.get? e = some r)
      (hl : p.enumValues.slice r.values = .ok l) (hname : Reads source r.name name)
      (hall : List.Forall₂ (fun v word => Reads source v.2.name word) l values) :
      Recalls p source s (.enumType e) (.enumType name values) (.enumType e)
  | structType {u : StructTypeId} {r : StructType} {name : String}
      (hr : p.structTypes.get? u = some r) (hname : Reads source r.name name) :
      Recalls p source s (.structType u) (.structType name) (.structType u)
  | «variable» {v : VariableId} {r : Variable} {name : String} (type init : Option ExprId)
      (hr : p.vars.get? v = some r) (hname : Reads source r.name name) :
      Recalls p source s (.variable v type init) (.variable name type init) (.variable v)
  | forEach {v : VariableId} {r : Variable} {name : String} (iterable : ExprId) (body : Block)
      (hr : p.vars.get? v = some r) (hname : Reads source r.name name) :
      Recalls p source s (.nest (.forEach v iterable) body) (.openBody (.forEach name iterable))
        (.variable v)
  | nest {head : Head VariableId} {named : Head String} (body : Block)
      (h : ∀ f, head.mapM f = .ok named) :
      Recalls p source s (.nest head body) (.openBody named) (.stmt s)
  | breakLoop : Recalls p source s .breakLoop .breakLoop (.stmt s)
  | assign (lhs rhs : ExprId) : Recalls p source s (.assign lhs rhs) (.assign lhs rhs) (.stmt s)
  | output (value : ExprId) : Recalls p source s (.output value) (.output value) (.stmt s)
  | evaluate (value : ExprId) : Recalls p source s (.evaluate value) (.evaluate value) (.stmt s)
  | returnValue (value : Option ExprId) :
      Recalls p source s (.returnValue value) (.returnValue value) (.stmt s)

theorem map_eq_of_forall₂ {α β : Type} {R : α → β → Prop} {f : α → β} {xs : List α} {ys : List β}
    (h : List.Forall₂ R xs ys) (hf : ∀ x y, R x y → f x = y) : xs.map f = ys := by
  induction h with
  | nil => rfl
  | cons hxy _ ih => rw [List.map_cons, hf _ _ hxy, ih]

variable {s : StmtId} {kind : StmtKind} {step : Step} {m : Made}

/-- **What made a statement is what is read off for it.** -/
theorem Recalls.readCall (h : Recalls p source s kind step m)
    (hs : p.stmts.get? s = some ⟨kind, span⟩) : p.readCall source s = .ok (step, some m) := by
  simp only [Program.readCall, Table.get_eq_ok.2 hs, ok_bind]
  cases h with
  | function hr hl hname hall =>
    simp only [Table.get_eq_ok.2 hr, ok_bind, hl, hname.read]
    rw [map_eq_of_forall₂ hall fun a given h => by rw [h.1.read, h.2]]
    rfl
  | enumType hr hl hname hall =>
    simp only [Table.get_eq_ok.2 hr, ok_bind, hl, hname.read]
    rw [map_eq_of_forall₂ hall fun v word h => h.read]
    rfl
  | structType hr hname =>
    simp only [Table.get_eq_ok.2 hr, ok_bind, hname.read]
    rfl
  | «variable» type init hr hname =>
    simp only [Table.get_eq_ok.2 hr, ok_bind, hname.read]
    rfl
  | forEach iterable body hr hname =>
    simp only [Head.mapM, Table.get_eq_ok.2 hr, ok_bind, hname.read]
    rfl
  | @nest head named body h =>
    simp only [h, ok_bind]
    cases head with
    | forEach iterator iterable => cases h fun _ => .error .outOfRange
    | _ => rfl
  | breakLoop | assign lhs rhs | output value | evaluate value | returnValue value => rfl

/-- Declarations stay as they are, but for the bodies of functions, and
the source goes on. -/
structure Later (b b' : Builder) : Prop where
  source : Continues b.source b'.source
  functions : ∀ f r, b.program.functions.get? f = some r →
    ∃ body, b'.program.functions.get? f = some { r with body }
  parameters : b.program.parameters.Extends b'.program.parameters
  vars : b.program.vars.Extends b'.program.vars
  enumTypes : b.program.enumTypes.Extends b'.program.enumTypes
  enumValues : b.program.enumValues.Extends b'.program.enumValues
  structTypes : b.program.structTypes.Extends b'.program.structTypes

theorem Later.refl (b : Builder) : Later b b :=
  ⟨.refl _, fun _ r hr => ⟨r.body, hr⟩, .refl _, .refl _, .refl _, .refl _, .refl _⟩

theorem Later.trans (h : Later b b₁) (h' : Later b₁ b') : Later b b' where
  source := h.source.trans h'.source
  functions f r hr := by
    obtain ⟨body, hr₁⟩ := h.functions f r hr
    exact h'.functions f { r with body } hr₁
  parameters := h.parameters.trans h'.parameters
  vars := h.vars.trans h'.vars
  enumTypes := h.enumTypes.trans h'.enumTypes
  enumValues := h.enumValues.trans h'.enumValues
  structTypes := h.structTypes.trans h'.structTypes

/-- **What made a statement is not forgotten.** -/
theorem Recalls.later (later : Later b b') (h : Recalls b.program b.source s kind step m) :
    Recalls b'.program b'.source s kind step m := by
  cases h with
  | @function f r l name parameters hr hl hname hall =>
    obtain ⟨body, hr'⟩ := later.functions f r hr
    exact .function (r := { r with body }) hr' (later.parameters.slice hl) (hname.continues later.source)
      (hall.imp fun _ _ h => ⟨h.1.continues later.source, h.2⟩)
  | enumType hr hl hname hall =>
    exact .enumType (later.enumTypes _ _ hr) (later.enumValues.slice hl)
      (hname.continues later.source) (hall.imp fun _ _ h => h.continues later.source)
  | structType hr hname =>
    exact .structType (later.structTypes _ _ hr) (hname.continues later.source)
  | «variable» type init hr hname =>
    exact .variable type init (later.vars _ _ hr) (hname.continues later.source)
  | forEach iterable body hr hname =>
    exact .forEach iterable body (later.vars _ _ hr) (hname.continues later.source)
  | nest body h => exact .nest body h
  | breakLoop => exact .breakLoop
  | assign lhs rhs => exact .assign lhs rhs
  | output value => exact .output value
  | evaluate value => exact .evaluate value
  | returnValue value => exact .returnValue value

/-! ## Steps -/

/-- Records are appended, and the source goes on. -/
structure Adds (b b' : Builder) : Prop where
  records : b.program.Extends b'.program
  source : Continues b.source b'.source

theorem Adds.later (adds : Adds b b') : Later b b' :=
  ⟨adds.source, fun f r hr => ⟨r.body, adds.records.functions f r hr⟩, adds.records.parameters,
    adds.records.vars, adds.records.enumTypes, adds.records.enumValues, adds.records.structTypes⟩

/-- What a step leaves that makes a statement without a body. -/
structure MadeLeaf (b b' : Builder) (step : Step) (made : Option Made) : Prop where
  adds : Adds b b'
  opened : b'.opened = b.opened
  exists_kind : ∃ kind span m, made = some m ∧
    b'.program.stmts = b.program.stmts.push ⟨kind, span⟩ ∧
    b'.program.bodyOf b.program.stmts.nextId = .ok none ∧
    Recalls b'.program b'.source b.program.stmts.nextId kind step m

/-- The kind of a statement whose body is closed. -/
def OpenBody.closed (block : Block) : OpenBody → StmtKind
  | .function f _ => .function f
  | .nest _ head _ => .nest head block

/-- What a step leaves that opens a body. -/
structure MadeOpen (b b' : Builder) (step : Step) (body : OpenBody) : Prop where
  adds : Adds b b'
  opened : b'.opened = body :: b.opened
  owned : body.OwnedAt b.program.stmts.size
  exists_span : ∃ span, b'.program.stmts = b.program.stmts.push ⟨body.pending, span⟩
  recalls : ∀ block, Recalls b'.program b'.source b.program.stmts.nextId (body.closed block) step
    body.made

/-- A statement is made of declarations that are there. -/
theorem MadeLeaf.addStmt (b₁ : Builder) (records : AddsRecords b.program b₁.program)
    (source : Continues b.source b₁.source) (opened : b₁.opened = b.opened)
    (hf : ∀ f, kind ≠ .function f) (hn : ∀ head body, kind ≠ .nest head body)
    (recalls : Recalls (b₁.addStmt kind span).2.program b₁.source b₁.program.stmts.nextId kind
      step m) : MadeLeaf b (b₁.addStmt kind span).2 step (some m) := by
  have hstmts : b₁.program.stmts = b.program.stmts := records.sameStmts
  refine ⟨⟨Growing.extends_addStmt records _, source⟩, opened, kind, span, m, rfl, ?_, ?_, ?_⟩
  · rw [← hstmts]
    rfl
  · rw [← hstmts]
    exact Growing.bodyOf_addStmt b₁.program span hf hn
  · rw [← hstmts]
    exact recalls

/-- Records that are appended in a row are read as they were written. -/
theorem zip_reads {k : RecordKind} {α γ : Type} {S : α → γ → Prop} {start : Nat}
    {records : List α} {words : List γ} (h : List.Forall₂ S records words) :
    List.Forall₂ (fun x y => S x.2 y) ((IdRange.mk start records.length : IdRange k).ids.zip records)
      words := by
  have hmap : ((IdRange.mk start records.length : IdRange k).ids.zip records).map Prod.snd =
      records := List.map_snd_zip (by simp [IdRange.ids])
  rw [← hmap] at h
  exact List.forall₂_map_left_iff.1 h

theorem enumType_madeLeaf (b : Builder) (name : String) (values : List String) :
    MadeLeaf b (b.enumType name values).2 (.enumType name values)
      (some (.enumType (b.enumType name values).1)) := by
  obtain ⟨hname, hsource⟩ := write_reads b name
  obtain ⟨names, b₁, hw, hprogram, hopened, hsource', hall⟩ := writeAll_reads (b.write name).2 values
  simp only [Builder.enumType, hw]
  have hadds : AddsRecords b.program
      (b₁.program.addEnumType (b.write name).1 (names.map EnumValue.mk)).2 := by
    rw [hprogram]
    exact .addEnumType _ _
  refine MadeLeaf.addStmt { b₁ with
    program := (b₁.program.addEnumType (b.write name).1 (names.map EnumValue.mk)).2 }
    hadds (hsource.trans hsource') hopened (fun f h => ?_) (fun head body h => ?_) ?_
  · cases h
  · cases h
  · have hvalues : List.Forall₂ (fun (v : EnumValue) word => Reads b₁.source v.name word)
        (names.map EnumValue.mk) values := List.forall₂_map_left_iff.2 hall
    exact .enumType (Table.get?_push.trans (if_pos rfl)) (slice_append_new _ _)
      (hname.continues hsource') (zip_reads (S := fun (v : EnumValue) word => Reads b₁.source v.name word) hvalues)

/-- **A step that makes a statement without a body makes just that.** -/
theorem take_leaf {made : Option Made} (role : step.role = .leaf)
    (h : b.take step = .ok (made, b')) : MadeLeaf b b' step made := by
  cases takes_of_take h with
  | @«variable» name type init =>
    obtain ⟨hname, hsource⟩ := write_reads b name
    refine MadeLeaf.addStmt ((b.write name).2.addVariable (b.write name).1).2 (.addVariable _)
      hsource rfl (fun f h => ?_) (fun head body h => ?_) ?_
    · cases h
    · cases h
    · exact .variable type init (Table.get?_push.trans (if_pos rfl)) hname
  | @assign lhs rhs =>
    exact MadeLeaf.addStmt b (.refl _) (.refl _) rfl (fun f h => by cases h)
      (fun head body h => by cases h) (.assign lhs rhs)
  | @output value =>
    exact MadeLeaf.addStmt b (.refl _) (.refl _) rfl (fun f h => by cases h)
      (fun head body h => by cases h) (.output value)
  | @evaluate value =>
    exact MadeLeaf.addStmt b (.refl _) (.refl _) rfl (fun f h => by cases h)
      (fun head body h => by cases h) (.evaluate value)
  | @returnValue value =>
    exact MadeLeaf.addStmt (b.write "return").2 (.refl _) (write_reads b _).2 rfl
      (fun f h => by cases h) (fun head body h => by cases h) (.returnValue value)
  | breakLoop =>
    exact MadeLeaf.addStmt (b.write "break").2 (.refl _) (write_reads b _).2 rfl
      (fun f h => by cases h) (fun head body h => by cases h) .breakLoop
  | enumType name values => exact enumType_madeLeaf b name values
  | structType name =>
    obtain ⟨hname, hsource⟩ := write_reads b name
    refine MadeLeaf.addStmt { (b.write name).2 with
      program := ((b.write name).2.program.addStructType { name := (b.write name).1 }).2 }
      (.addStructType _) hsource rfl (fun f h => ?_) (fun head body h => ?_) ?_
    · cases h
    · cases h
    · exact .structType (Table.get?_push.trans (if_pos rfl)) hname
  | _ => cases role

/-- The parameters of a function read as they were written. -/
theorem parameters_read {spans : List Span} {parameters : List (String × Option ExprId)}
    (h : List.Forall₂ (Reads source) spans (parameters.map (·.1))) :
    List.Forall₂ (fun (a : Parameter) given => Reads source a.name given.1 ∧ a.typeExpr = given.2)
      (spans.zipWith (fun name x => { name, typeExpr := x.2 }) parameters) parameters := by
  induction parameters generalizing spans with
  | nil =>
    cases h
    exact .nil
  | cons given parameters ih =>
    cases h with
    | cons hname hrest => exact .cons ⟨hname, rfl⟩ (ih hrest)

/-- A body is opened behind a statement of its own. -/
theorem MadeOpen.addStmt (b₁ : Builder) {body : OpenBody} (records : b.program.Extends b₁.program)
    (stmts : b₁.program.stmts = b.program.stmts) (source : Continues b.source b₁.source)
    (opened : b₁.opened = b.opened) (owned : body.OwnedAt b₁.program.stmts.size)
    (recalls : ∀ block, Recalls (b₁.addStmt body.pending span).2.program b₁.source
      b₁.program.stmts.nextId (body.closed block) step body.made) :
    MadeOpen b { (b₁.addStmt body.pending span).2 with opened := body :: b₁.opened } step body where
  adds := ⟨records.trans (Recorded.extends_pushStmt _), source⟩
  opened := by rw [opened]
  owned := stmts ▸ owned
  exists_span := ⟨span, by rw [← stmts]; rfl⟩
  recalls block := by
    rw [← stmts]
    exact recalls block

/-- A function is declared behind its parameters, and its body is opened. -/
theorem addFunction_madeOpen (b₁ : Builder) {q : Builder} {r : Function} {records : List Parameter}
    {name : String} {parameters : List (String × Option ExprId)} {start : Nat}
    (program : b₁.program = b.program) (source : Continues b.source b₁.source)
    (opened : b₁.opened = b.opened)
    (hq : q = { b₁ with program := ((b₁.program.addParameters records).2.addFunction r).2 })
    (hstart : start = q.program.stmts.size + 1)
    (place : r.parameters = ⟨b₁.program.parameters.size, records.length⟩)
    (reads : Reads b₁.source r.name name)
    (all : List.Forall₂ (fun (a : Parameter) given =>
      Reads b₁.source a.name given.1 ∧ a.typeExpr = given.2) records parameters) :
    MadeOpen b
      { (q.addStmt (.function b₁.program.functions.nextId) r.name).2 with
        opened := .function b₁.program.functions.nextId start :: q.opened }
      (.openFunction name parameters r.returnTypeExpr)
      (.function b₁.program.functions.nextId start) := by
  have extended : b.program.Extends q.program := by
    rw [hq, ← program]
    exact extends_addFunction b₁.program records r
  have stmts : q.program.stmts = b.program.stmts := by
    rw [hq, ← program]
    rfl
  have owned : (OpenBody.function b₁.program.functions.nextId start).OwnedAt q.program.stmts.size :=
    hstart
  subst hq
  -- the records are there before the statement that owns them
  refine MadeOpen.addStmt _ extended stmts source opened owned fun block => ?_
  have slice := slice_append_new b₁.program.parameters records
  rw [← place] at slice
  exact .function (Table.get?_push.trans (if_pos rfl)) slice reads (place ▸ zip_reads all)

theorem openFunction_madeOpen {name : String} {parameters : List (String × Option ExprId)}
    {returnType : Option ExprId} (h : b.openFunction name parameters returnType = .ok b') :
    ∃ body, MadeOpen b b' (.openFunction name parameters returnType) body := by
  unfold Builder.openFunction at h
  obtain ⟨hname, hsource⟩ := write_reads b name
  obtain ⟨names, b₁, hw, hprogram, hopened, hsource', hall⟩ :=
    writeAll_reads (b.write name).2 (parameters.map (·.1))
  simp only [hw] at h
  obtain ⟨span, -, h⟩ := bind_eq_ok.1 h
  obtain rfl := pure_eq_ok.1 h
  -- to write the names adds to the source and to nothing else
  have hprogram' : b₁.program = b.program := hprogram
  have hopened' : b₁.opened = b.opened := hopened
  exact ⟨_, addFunction_madeOpen b₁ (r := ⟨(b.write name).1, span, _, returnType, _, _⟩) hprogram'
    (hsource.trans hsource') hopened' rfl (Table.size_push ..) rfl (hname.continues hsource')
    (parameters_read hall)⟩

theorem openNest_madeOpen (b₁ : Builder) {head : Head VariableId} {named : Head String}
    (records : b.program.Extends b₁.program) (stmts : b₁.program.stmts = b.program.stmts)
    (source : Continues b.source b₁.source) (opened : b₁.opened = b.opened)
    (recalls : ∀ block, Recalls (b₁.openNest head span).program b₁.source
      b₁.program.stmts.nextId (.nest head block) (.openBody named)
      (OpenBody.nest b₁.program.stmts.nextId head 0).made) :
    ∃ body, MadeOpen b (b₁.openNest head span) (.openBody named) body := by
  let body : OpenBody :=
    .nest b₁.program.stmts.nextId head (b₁.program.stmts.push ⟨.invalid, span⟩).size
  have howned : body.OwnedAt b₁.program.stmts.size :=
    ⟨rfl, Table.size_push b₁.program.stmts ⟨.invalid, span⟩⟩
  -- what is handed back does not tell where the body starts
  have hmade : body.made = (OpenBody.nest b₁.program.stmts.nextId head 0).made := by
    cases head <;> rfl
  refine ⟨body, MadeOpen.addStmt b₁ records stmts source opened howned fun block => ?_⟩
  rw [hmade]
  exact recalls block

theorem openBody_madeOpen {head : Head String} (h : b.openBody head = .ok b') :
    ∃ body, MadeOpen b b' (.openBody head) body := by
  cases head with
  | bare | elseThen | loop =>
    obtain rfl := pure_eq_ok.1 h
    exact openNest_madeOpen (b.write _).2 (extends_refl _) rfl (write_reads b _).2 rfl
      fun block => .nest block fun f => rfl
  | ifThen condition | elseIf condition | whileDo condition =>
    obtain ⟨span, -, h⟩ := bind_eq_ok.1 h
    obtain rfl := pure_eq_ok.1 h
    exact openNest_madeOpen b (extends_refl _) rfl (.refl _) rfl
      fun block => .nest block fun f => rfl
  | forEach iterator iterable =>
    obtain ⟨span, -, h⟩ := bind_eq_ok.1 h
    obtain rfl := pure_eq_ok.1 h
    obtain ⟨hname, hsource⟩ := write_reads b iterator
    exact openNest_madeOpen ((b.write iterator).2.addVariable (b.write iterator).1).2
      (AddsRecords.addVariable _).toExtends rfl hsource rfl
      fun block => .forEach iterable block (Table.get?_push.trans (if_pos rfl)) hname

/-- **A step that opens a body makes the statement that owns it.** -/
theorem take_opening {made : Option Made} (role : step.role = .opening)
    (h : b.take step = .ok (made, b')) : ∃ body, MadeOpen b b' step body := by
  cases takes_of_take h with
  | openFunction opens => exact openFunction_madeOpen opens
  | openBody opens => exact openBody_madeOpen opens
  | _ => cases role

/-- **A step that makes no statement leaves them and the open bodies.** -/
theorem take_plain {made : Option Made} (role : step.role = .plain)
    (h : b.take step = .ok (made, b')) :
    Adds b b' ∧ b'.program.stmts = b.program.stmts ∧ b'.opened = b.opened := by
  have same : b.program.Extends b.program := extends_refl _
  cases takes_of_take h with
  | identifier | integer | float | boolean | string | field | unary =>
    exact ⟨⟨{ same with }, (write_reads b _).2⟩, rfl, rfl⟩
  | call => exact ⟨⟨{ same with arguments := Table.extends_append _ _ }, .refl _⟩, rfl, rfl⟩
  | range | binary => exact ⟨⟨{ same with }, .refl _⟩, rfl, rfl⟩
  | word => exact ⟨⟨same, (write_reads b _).2⟩, rfl, rfl⟩
  | newline => exact ⟨⟨same, ⟨"\n", rfl⟩⟩, rfl, rfl⟩
  | _ => cases role

end FrontEnd
