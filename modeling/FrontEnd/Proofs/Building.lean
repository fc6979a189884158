import FrontEnd.Proofs.Growing
/-!
# FrontEnd — what building gives

Every step of a builder keeps a program in the making (`Growing.take`),
so what a list of steps builds is regular (`Program.build_regular`):
the passes may rely on it whatever the steps were.
-/

namespace FrontEnd

open Program

variable {p q : Program} {opened : List OpenBody} {kind : StmtKind} {span : Span}

/-- Declarations are recorded that no statement has been made for yet. -/
structure AddsRecords (p q : Program) : Prop extends Program.Extends p q where
  exprs : q.exprs = p.exprs
  sameStmts : q.stmts = p.stmts
  sameFunctions : q.functions = p.functions
  sameParameters : q.parameters = p.parameters
  values : (∀ e r, p.enumTypes.get? e = some r →
      r.values.isEmpty ∨ r.values.stop ≤ p.enumValues.size) →
    ∀ e r, q.enumTypes.get? e = some r → r.values.isEmpty ∨ r.values.stop ≤ q.enumValues.size
  block : q.block = p.block
  tables : q.symbolTables = p.symbolTables
  mainSearched : q.mainSearched = p.mainSearched

theorem extends_refl (p : Program) : p.Extends p :=
  ⟨.refl _, .refl _, .refl _, .refl _, .refl _, .refl _, .refl _, .refl _⟩

/-- A function comes with its parameters. -/
theorem extends_addFunction (p : Program) (records : List Parameter) (r : Function) :
    p.Extends ((p.addParameters records).2.addFunction r).2 :=
  { extends_refl p with
    functions := Table.extends_push _ _
    parameters := Table.extends_append _ _ }

namespace AddsRecords

theorem refl (p : Program) : AddsRecords p p :=
  ⟨extends_refl p, rfl, rfl, rfl, rfl, fun h => h, rfl, rfl, rfl⟩

theorem addVariable (v : Variable) : AddsRecords p (p.addVariable v).2 :=
  { extends_refl p with
    vars := Table.extends_push _ _
    exprs := rfl, sameStmts := rfl, sameFunctions := rfl, sameParameters := rfl
    values := fun h => h
    block := rfl, tables := rfl, mainSearched := rfl }

theorem addStructType (s : StructType) : AddsRecords p (p.addStructType s).2 :=
  { extends_refl p with
    structTypes := Table.extends_push _ _
    exprs := rfl, sameStmts := rfl, sameFunctions := rfl, sameParameters := rfl
    values := fun h => h
    block := rfl, tables := rfl, mainSearched := rfl }

theorem addEnumType (name : Span) (values : List EnumValue) :
    AddsRecords p (p.addEnumType name values).2 :=
  { extends_refl p with
    enumTypes := Table.extends_push _ _
    enumValues := Table.extends_append _ _
    exprs := rfl, sameStmts := rfl, sameFunctions := rfl, sameParameters := rfl
    values := fun h e r hr => by
      simp only [Program.addEnumType, Table.get?_push, Table.size_append] at hr ⊢
      split at hr
      · obtain rfl := Option.some.inj hr
        exact .inr (Nat.le_refl _)
      · exact (h e r hr).imp_right fun hle => by omega
    block := rfl, tables := rfl, mainSearched := rfl }

theorem recorded {iterators : List Target} (a : AddsRecords p q) (d : Recorded p iterators) :
    Recorded q iterators :=
  d.grow a.toExtends a.exprs a.sameStmts (a.values d.values) a.block a.tables a.mainSearched

end AddsRecords

namespace Growing

/-! ## Expressions -/

theorem addExpr (g : Growing p opened) {kind : ExprKind} {es : List ExprId}
    (hkind : kind.isReference = false) (hes : p.operands kind = .ok es)
    (held : ∀ c ∈ es, c.raw < p.exprs.size) :
    Growing (p.addExpr { kind, span }).2 opened :=
  { g.toRecorded.addExpr hkind hes held with
    functions := g.functions
    parameters := g.parameters
    layout := g.layout.congr (fun _ _ _ h => h) fun _ _ => rfl }

theorem addArguments (g : Growing p opened) (arguments : List ExprId) :
    Growing (p.addArguments arguments).2 opened := by
  have ext : p.Extends (p.addArguments arguments).2 :=
    { extends_refl p with arguments := Table.extends_append _ _ }
  exact
    { g.toRecorded.grow ext rfl rfl g.values rfl rfl rfl with
      functions := g.functions
      parameters := g.parameters
      layout := g.layout.congr (fun _ _ _ h => h) fun _ _ => rfl }

/-! ## Statements -/

/-- The layout of what has been made is that of a program with more in it. -/
theorem layout_of_extends (g : Growing p opened) (ext : p.Extends q) :
    OpenLayout q p.stmts.size opened := by
  refine g.layout.congr (fun k stmt _ hs => ext.stmts _ _ hs) fun k hk => ?_
  obtain ⟨stmt, hstmt, hd⟩ := g.toRecorded.stmts_held (s := ⟨k⟩) hk
  exact ext.bodyPlace hstmt hd

theorem extends_addStmt (a : AddsRecords p q) (stmt : Stmt) : p.Extends (q.addStmt stmt).2 :=
  { a.toExtends with
    stmts := a.sameStmts ▸ Table.extends_push _ _ }

theorem get?_addStmt (q : Program) (stmt : Stmt) :
    (q.addStmt stmt).2.stmts.get? q.stmts.nextId = some stmt := by
  simp only [Program.addStmt, Table.get?_push, if_true]

/-- A statement without a body owns what it declares. -/
theorem owned_addStmt (q : Program) (hf : ∀ f, kind ≠ .function f)
    (hn : ∀ head body, kind ≠ .nest head body) :
    (q.addStmt ⟨kind, span⟩).2.owned q.stmts.nextId =
      match kind.declares with
      | .value t => [t]
      | _ => [] := by
  have hget := Table.get_eq_ok.2 (get?_addStmt q ⟨kind, span⟩)
  rw [owned, declaredAhead_eq _ hget]
  simp only [declaredInside, hget, ok_bind]
  cases kind with
  | function f => exact absurd rfl (hf f)
  | nest head body => exact absurd rfl (hn head body)
  | _ => rfl

theorem bodyOf_addStmt (q : Program) (span : Span) (hf : ∀ f, kind ≠ .function f)
    (hn : ∀ head body, kind ≠ .nest head body) :
    (q.addStmt ⟨kind, span⟩).2.bodyOf q.stmts.nextId = .ok none := by
  have hget := Table.get_eq_ok.2 (get?_addStmt q ⟨kind, span⟩)
  simp only [bodyOf, hget, ok_bind]
  cases kind with
  | function f => exact absurd rfl (hf f)
  | nest head body => exact absurd rfl (hn head body)
  | _ => rfl

/-- What had no name belongs to no statement, if no statement is new. -/
theorem unowned_of_unnamed {t : Target} (g : Growing p opened) (ext : p.Extends q)
    (hstmts : q.stmts = p.stmts) (h : ∀ name, p.nameOf t ≠ .ok name) :
    (∀ s, t ∉ q.owned s) ∧ t ∉ opened.flatMap OpenBody.iterators := by
  obtain ⟨hown, hopen⟩ := g.toRecorded.new_of_unnamed h
  refine ⟨fun s hs => hown s ?_, hopen⟩
  have hlt : s.raw < p.stmts.size := hstmts ▸ lt_of_owned hs
  rwa [g.toRecorded.owned_of_extends ext hlt] at hs

/-- What a statement without a body adds to what has been recorded. -/
theorem recorded_addStmt (g : Growing p opened) (a : AddsRecords p q)
    (hf : ∀ f, kind ≠ .function f) (hn : ∀ head body, kind ≠ .nest head body)
    (hd : q.DeclarationHeld kind)
    (hnew : ∀ t, kind.declares = .value t → ∀ name, p.nameOf t ≠ .ok name) :
    Recorded (q.addStmt ⟨kind, span⟩).2 (opened.flatMap OpenBody.iterators) := by
  refine (a.recorded g.toRecorded).pushStmt rfl hd (fun t ht => ?_) fun b hb => ?_
  · have htarget : kind.declares = .value t := by
      have ht' : t ∈ (q.addStmt ⟨kind, span⟩).2.owned q.stmts.nextId := ht
      rw [owned_addStmt q hf hn] at ht'
      cases hk : kind.declares with
      | nothing => simp [hk] at ht'
      | function f => simp [hk] at ht'
      | value t' =>
        obtain rfl : t = t' := by simpa [hk] using ht'
        rfl
    exact g.unowned_of_unnamed a.toExtends a.sameStmts (hnew t htarget)
  · have hb' : (q.addStmt ⟨kind, span⟩).2.bodyOf q.stmts.nextId = .ok (some b) := hb
    rw [bodyOf_addStmt q span hf hn] at hb'
    cases hb'

/-- A statement without a body is made, after what it declares. -/
theorem addStmt (g : Growing p opened) (a : AddsRecords p q)
    (hf : ∀ f, kind ≠ .function f) (hn : ∀ head body, kind ≠ .nest head body)
    (hd : q.DeclarationHeld kind)
    (hnew : ∀ t, kind.declares = .value t → ∀ name, p.nameOf t ≠ .ok name) :
    Growing (q.addStmt ⟨kind, span⟩).2 opened := by
  have ext := extends_addStmt a ⟨kind, span⟩
  have hsize : (q.addStmt ⟨kind, span⟩).2.stmts.size = p.stmts.size + 1 := by
    simp only [Program.addStmt, Table.size_push, a.sameStmts]
  refine
    { g.recorded_addStmt a hf hn hd hnew with
      functions := fun f hlt => ?_
      parameters := fun i hlt => ?_
      layout := ?_ }
  · obtain ⟨s, hs⟩ := g.functions f (a.sameFunctions ▸ hlt)
    exact ⟨s, g.toRecorded.mem_owned_of_extends ext hs⟩
  · obtain ⟨s, hs⟩ := g.parameters i (a.sameParameters ▸ hlt)
    exact ⟨s, g.toRecorded.mem_owned_of_extends ext hs⟩
  · rw [hsize]
    refine (g.layout_of_extends ext).append (.leaf ?_ (.done _))
    have := bodyOf_addStmt q span hf hn
    rwa [Table.nextId, a.sameStmts] at this

/-! ## Opening bodies -/

/-- A loop is opened, or another body that is kept with its statement. -/
theorem openNest (g : Growing p opened) (a : AddsRecords p q) {head : Head VariableId}
    {start : Nat} (hstart : start = q.stmts.size + 1)
    (hits : ∀ t ∈ OpenBody.iterators (.nest q.stmts.nextId head start),
      (∃ name, q.nameOf t = .ok name) ∧ ∀ name, p.nameOf t ≠ .ok name) :
    Growing (q.addStmt ⟨.invalid, span⟩).2 (.nest q.stmts.nextId head start :: opened) := by
  have hf : ∀ f, StmtKind.invalid ≠ .function f := fun f h => by cases h
  have hn : ∀ head body, StmtKind.invalid ≠ .nest head body := fun head body h => by cases h
  have g' : Growing (q.addStmt ⟨.invalid, span⟩).2 opened :=
    g.addStmt a hf hn trivial fun t h => by cases h
  have ext := extends_addStmt a ⟨.invalid, span⟩
  have hsize : (q.addStmt ⟨.invalid, span⟩).2.stmts.size = p.stmts.size + 1 := by
    simp only [Program.addStmt, Table.size_push, a.sameStmts]
  have hnew : ∀ t ∈ OpenBody.iterators (.nest q.stmts.nextId head start),
      (∀ s, t ∉ p.owned s) ∧ t ∉ opened.flatMap OpenBody.iterators := fun t ht =>
    g.toRecorded.new_of_unnamed (hits t ht).2
  refine
    { g'.toRecorded with
      named := fun t ht => ?_
      waiting := fun t ht s hs => ?_
      distinct := ?_
      functions := g'.functions
      parameters := g'.parameters
      layout := ?_ }
  · rcases List.mem_append.1 (List.flatMap_cons .. ▸ ht) with h | h
    · obtain ⟨name, hname⟩ := (hits t h).1
      exact ⟨name, hname⟩
    · exact g'.named t h
  · rcases List.mem_append.1 (List.flatMap_cons .. ▸ ht) with h | h
    · -- the new statement owns nothing yet
      by_cases hlt : s.raw < p.stmts.size
      · rw [g.toRecorded.owned_of_extends ext hlt] at hs
        exact (hnew t h).1 s hs
      · have hlt' := lt_of_owned hs
        rw [hsize, ← a.sameStmts] at hlt'
        obtain rfl := Table.eq_nextId (Nat.le_of_not_lt (a.sameStmts ▸ hlt)) hlt'
        rw [owned_addStmt q hf hn] at hs
        cases hs
    · exact g'.waiting t h s hs
  · rw [List.flatMap_cons, List.nodup_append]
    refine ⟨?_, g'.distinct, fun t ht u hu htu => (hnew t ht).2 (htu ▸ hu)⟩
    cases head <;> simp [OpenBody.iterators]
  · rw [hsize]
    have howner := get?_addStmt q ⟨.invalid, span⟩
    rw [Table.nextId, a.sameStmts] at howner
    refine .inside (g.layout_of_extends ext) howner ⟨?_, ?_⟩ (.done _)
    · rw [Table.nextId, a.sameStmts]
    · rw [hstart, a.sameStmts]

/-- A function that is declared owns itself and its parameters. -/
theorem mem_owned_function {q : Program} {f : FunctionId} {r : Function} {name : Span} {t : Target}
    (hr : q.functions.get? f = some r)
    (hrange : r.parameters.isEmpty ∨ r.parameters.stop ≤ q.parameters.size) :
    t ∈ (q.addStmt ⟨.function f, name⟩).2.owned q.stmts.nextId ↔
      t = .function f ∨ ∃ i ∈ r.parameters.ids, t = .parameter i := by
  have hget := get?_addStmt q ⟨.function f, name⟩
  have hr' : (q.addStmt ⟨.function f, name⟩).2.functions.get? f = some r := hr
  rw [mem_owned]
  constructor
  · rintro ⟨stmt, hs, howns⟩
    obtain rfl := Option.some.inj (hget.symm.trans hs)
    cases howns with
    | function f => exact .inl rfl
    | @parameter f r₁ params x hr₁ hparams hx =>
      obtain rfl := Option.some.inj (hr'.symm.trans hr₁)
      exact .inr ⟨x.1, (mem_slice hparams hx).2, rfl⟩
  · rintro (rfl | ⟨i, hi, rfl⟩)
    · exact ⟨_, hget, .function f⟩
    · obtain ⟨params, hparams⟩ := slice_ok hrange
      obtain ⟨x, hx⟩ := exists_mem_slice hparams hi
      exact ⟨_, hget, .parameter hr' hparams hx⟩

/-- A function is declared with its parameters, and its body opened. -/
theorem openFunction (g : Growing p opened) {name : Span} {returnTypeExpr : Option ExprId}
    {records : List Parameter} {r : Function} {f : FunctionId} {start : Nat}
    (hr : r = { name, span, returnTypeExpr, parameters := ⟨p.parameters.size, records.length⟩ })
    (hf : f = p.functions.nextId) (hstart : start = p.stmts.size + 1)
    (hq : q = ((p.addParameters records).2.addFunction r).2) :
    Growing (q.addStmt ⟨.function f, name⟩).2 (.function f start :: opened) := by
  have ext : p.Extends q := hq ▸ extends_addFunction p records r
  have hext : p.Extends (q.addStmt ⟨.function f, name⟩).2 := ext.trans (Recorded.extends_pushStmt _)
  have hstmts : q.stmts = p.stmts := by rw [hq]; rfl
  have hget : (q.addStmt ⟨.function f, name⟩).2.stmts.get? q.stmts.nextId =
      some ⟨.function f, name⟩ := get?_addStmt q _
  have hfun : q.functions.get? f = some r := by
    rw [hq, hf]
    simp only [Program.addFunction, Program.addParameters, Table.get?_push, if_true]
  have hrange : r.parameters.isEmpty ∨ r.parameters.stop ≤ q.parameters.size := by
    rw [hq, hr]
    exact .inr (by simp [IdRange.stop, Program.addFunction, Program.addParameters])
  -- the new statement owns just the new function and the new parameters
  have howned : ∀ t, t ∈ (q.addStmt ⟨.function f, name⟩).2.owned q.stmts.nextId ↔
      t = .function f ∨ ∃ i ∈ r.parameters.ids, t = .parameter i :=
    fun _ => mem_owned_function hfun hrange
  have hids : ∀ i, i ∈ r.parameters.ids ↔
      p.parameters.size ≤ i.raw ∧ i.raw < p.parameters.size + records.length := by
    intro i
    rw [IdRange.mem_ids, hr]
    rfl
  -- functions and parameters that are new had no names, so they had no owners
  have hunnamed : ∀ t ∈ (q.addStmt ⟨.function f, name⟩).2.owned q.stmts.nextId,
      ∀ name, p.nameOf t ≠ .ok name := by
    intro t ht
    obtain rfl | ⟨i, hi, rfl⟩ := (howned t).1 ht
    · exact not_nameOf Function.name (hf ▸ Nat.le_refl _)
    · exact not_nameOf Parameter.name ((hids i).1 hi).1
  have d : Recorded q (opened.flatMap OpenBody.iterators) := by
    refine g.toRecorded.grow ext ?_ hstmts ?_ ?_ ?_ ?_ <;> rw [hq]
    · rfl
    · exact g.values
    all_goals rfl
  refine
    { @Recorded.pushStmt q (q.addStmt ⟨.function f, name⟩).2 _ ⟨.function f, name⟩ d rfl
        ⟨r, hfun, hrange⟩ (fun t ht => ?_) fun b hb => ?_ with
      functions := fun f' hlt => ?_
      parameters := fun i hlt => ?_
      layout := ?_ }
  · exact g.unowned_of_unnamed ext hstmts (hunnamed t ht)
  · rcases bodyOf_eq_some.1 hb with ⟨f', span', r', hs, hr', rfl⟩ | ⟨head, span', hs⟩
    · rw [hget] at hs
      cases hs
      obtain rfl : r = r' := Option.some.inj (hfun.symm.trans hr')
      rw [hr]
      rfl
    · rw [hget] at hs
      cases hs
  · by_cases hold : f'.raw < p.functions.size
    · obtain ⟨s, hs⟩ := g.functions f' hold
      exact ⟨s, g.toRecorded.mem_owned_of_extends hext hs⟩
    · have hlt' : f'.raw < p.functions.size + 1 := by
        simpa [hq, Program.addStmt, Program.addFunction, Program.addParameters] using hlt
      obtain rfl : f' = f := hf ▸ Table.eq_nextId (Nat.le_of_not_lt hold) hlt'
      exact ⟨_, (howned _).2 (.inl rfl)⟩
  · by_cases hold : i.raw < p.parameters.size
    · obtain ⟨s, hs⟩ := g.parameters i hold
      exact ⟨s, g.toRecorded.mem_owned_of_extends hext hs⟩
    · have hlt' : i.raw < p.parameters.size + records.length := by
        simpa [hq, Program.addStmt, Program.addFunction, Program.addParameters] using hlt
      exact ⟨_, (howned _).2 (.inr ⟨i, (hids i).2 ⟨Nat.le_of_not_lt hold, hlt'⟩, rfl⟩)⟩
  · have hsize : (q.addStmt ⟨.function f, name⟩).2.stmts.size = p.stmts.size + 1 := by
      simp only [Program.addStmt, Table.size_push, hstmts]
    have howner := hget
    rw [Table.nextId, hstmts] at howner
    rw [hsize]
    exact .inside (g.layout_of_extends hext) howner hstart (.done _)

/-! ## Closing bodies -/

/-- The statements since a body was opened, as a block. -/
theorem blockSince_place (p : Program) (start : Nat) :
    (p.blockSince start).statements = ⟨start, p.stmts.size - start⟩ := rfl

section

variable {k : Nat} {f : FunctionId} {block : Block} {iterators : List Target}
variable (d : Recorded p iterators) (owner : p.stmts.get? ⟨k⟩ = some ⟨.function f, span⟩)
variable (hq : q = { p with functions := p.functions.modify f ({ · with body := block }) })

include d owner hq

/-- No other statement declares the function, so no other body changes. -/
theorem bodyPlace_closeFunction {l : Nat} (hl : l ≠ k) : q.bodyPlace ⟨l⟩ = p.bodyPlace ⟨l⟩ := by
  have hstmts : q.stmts = p.stmts := by rw [hq]
  have howner := owned_function owner
  simp only [bodyPlace, bodyOf, hstmts]
  cases hs : p.stmts.get ⟨l⟩ with
  | error fault => rfl
  | ok stmt =>
    obtain ⟨kind, span'⟩ := stmt
    cases kind with
    | function f' =>
      have hne : f' ≠ f := by
        rintro rfl
        have howned := owned_function (Table.get_eq_ok.1 hs)
        exact hl (congrArg RecordId.raw (d.owners ⟨l⟩ ⟨k⟩ (.function f') howned howner))
      simp only [ok_bind, Recorded.functions_get_close hq, if_neg hne]
      cases p.functions.get f' <;> rfl
    | _ => rfl

theorem bodyOf_closeFunction : q.bodyOf ⟨k⟩ = .ok (some block) := by
  have hstmts : q.stmts = p.stmts := by rw [hq]
  obtain ⟨r, hr, -⟩ := d.declarations _ _ owner
  have hget := Recorded.functions_get_close hq f
  rw [Table.get_eq_ok.2 hr, Except.map, if_pos rfl, Table.get_eq_ok] at hget
  exact bodyOf_eq_some.2 (.inl ⟨f, span, _, hstmts ▸ owner, hget, rfl⟩)

end

section

variable {k : Nat} {head : Head VariableId} {block : Block}
variable (owner : p.stmts.get? ⟨k⟩ = some ⟨.invalid, span⟩)
variable (hq : q = { p with stmts := p.stmts.modify ⟨k⟩ ({ · with kind := .nest head block }) })

include owner hq

theorem get?_closeNest {l : Nat} (hl : l ≠ k) : q.stmts.get? ⟨l⟩ = p.stmts.get? ⟨l⟩ := by
  rw [Recorded.stmts_get?_close hq owner, if_neg fun h => hl (congrArg RecordId.raw h)]

theorem bodyPlace_closeNest {l : Nat} (hl : l ≠ k) : q.bodyPlace ⟨l⟩ = p.bodyPlace ⟨l⟩ := by
  simp only [bodyPlace, bodyOf, Table.get, get?_closeNest owner hq hl]
  rw [hq]

theorem bodyOf_closeNest : q.bodyOf ⟨k⟩ = .ok (some block) :=
  bodyOf_eq_some.2 (.inr ⟨head, span, by rw [Recorded.stmts_get?_close hq owner, if_pos rfl]⟩)

end

/-- A body is closed that is kept with a function. -/
theorem closeFunction {f : FunctionId} {start : Nat}
    (g : Growing p (.function f start :: opened))
    (hq : q = { p with
      functions := p.functions.modify f ({ · with body := p.blockSince start }) }) :
    Growing q opened := by
  have howned := Recorded.owned_closeFunction hq
  have hstmts : q.stmts = p.stmts := by rw [hq]
  have hlayout := g.layout
  cases hlayout with
  | @inside k _ _ span o _ outer owner place lays =>
    obtain rfl : start = k + 1 := place
    have hother : ∀ l, l ≠ k → q.bodyPlace ⟨l⟩ = p.bodyPlace ⟨l⟩ :=
      fun l hl => bodyPlace_closeFunction g.toRecorded owner hq hl
    have hbody := bodyOf_closeFunction g.toRecorded owner hq
    have houter : OpenLayout q k opened :=
      outer.congr (fun l stmt _ hs => hstmts ▸ hs) fun l hl => hother l (by omega)
    have hlays : Lays q k p.stmts.size (.nested ⟨k⟩ o .done) :=
      .nested hbody (blockSince_place p (k + 1)) (lays.congr fun l hl _ => hother l (by omega))
        (.done _)
    refine
      { g.toRecorded.closeFunction hq rfl with
        functions := fun f' hlt => ?_
        parameters := fun i hlt => ?_
        layout := hstmts ▸ houter.append hlays }
    · obtain ⟨s, hs⟩ := g.functions f' (by simpa [hq] using hlt)
      exact ⟨s, by rwa [howned]⟩
    · obtain ⟨s, hs⟩ := g.parameters i (by simpa [hq] using hlt)
      exact ⟨s, by rwa [howned]⟩

/-- A body is closed that is kept with its statement. -/
theorem closeNest {s : StmtId} {head : Head VariableId} {start : Nat}
    (g : Growing p (.nest s head start :: opened))
    (hq : q = { p with
      stmts := p.stmts.modify s ({ · with kind := .nest head (p.blockSince start) }) }) :
    Growing q opened := by
  have hlayout := g.layout
  cases hlayout with
  | @inside k _ _ span o _ outer owner place lays =>
    obtain ⟨rfl, rfl⟩ := place
    have hmono : ∀ s t, t ∈ p.owned s → t ∈ q.owned s := by
      intro s t ht
      rw [Recorded.owned_closeNest hq owner (k + 1)]
      split
      · next hs =>
        rw [hs, Recorded.owned_pending owner] at ht
        cases ht
      · exact ht
    have hplace : ∀ l, l ≠ k → q.bodyPlace ⟨l⟩ = p.bodyPlace ⟨l⟩ :=
      fun l hl => bodyPlace_closeNest owner hq hl
    have hbody := bodyOf_closeNest owner hq
    have houter : OpenLayout q k opened :=
      outer.congr (fun l stmt hl hs => by rw [get?_closeNest owner hq (by omega), hs])
        fun l hl => hplace l (by omega)
    have hlays : Lays q k p.stmts.size (.nested ⟨k⟩ o .done) :=
      .nested hbody (blockSince_place p (k + 1)) (lays.congr fun l hl _ => hplace l (by omega))
        (.done _)
    have hsize : q.stmts.size = p.stmts.size := by
      rw [hq]
      simp
    refine
      { Recorded.closeNest hq owner g.toRecorded rfl with
        functions := fun f hlt => ?_
        parameters := fun i hlt => ?_
        layout := hsize ▸ houter.append hlays }
    · obtain ⟨s, hs⟩ := g.functions f (by simpa [hq] using hlt)
      exact ⟨s, hmono s _ hs⟩
    · obtain ⟨s, hs⟩ := g.parameters i (by simpa [hq] using hlt)
      exact ⟨s, hmono s _ hs⟩

end Growing

end FrontEnd
