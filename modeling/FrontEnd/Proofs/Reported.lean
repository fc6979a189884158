import FrontEnd.Proofs.Justified
/-!
# FrontEnd — no error is missed

Errors are put off from one pass to the next, and passed over where a
diagnostic has been kept for the expression before, or where a type is
invalid. Nevertheless whatever is wrong with a compiled program has been
reported (`compile_reported`): where an expression was passed over, what
had been kept for it was the same, or the reason why it is wrong.
-/

namespace FrontEnd

open Analysis

namespace Program

/-- The expression initializes a top-level variable that has no order. -/
def InitsCycle (p : Program) (e : ExprId) : Prop :=
  ∃ v r, p.IsGlobal v (some e) ∧ p.vars.get v = .ok r ∧ r.order = 0

/-- Whatever is wrong with the program is reported: there are diagnostics
with these codes at these spans. -/
structure Reported (p : Program) (source : String) (has : Code → Span → Prop) : Prop where
  noMain : (∀ f r, p.functions.get f = .ok r → r.name.read source ≠ "main") → has .noMain .zero
  name : ∀ e x, p.InValue e → p.exprs.get e = .ok x → x.kind = .identifier → ¬ p.IsCallee e →
    has .unknownName x.span
  function : ∀ e x, p.IsCallee e → p.exprs.get e = .ok x → x.kind = .identifier →
    has .unknownFunction x.span
  callee : ∀ e x, p.IsCallee e → p.exprs.get e = .ok x → (∀ f, x.kind ≠ .function f) →
    x.kind ≠ .identifier → has .notAFunction x.span ∨ has .unknownEnumValue x.span
  typeName : ∀ e x, p.InType e → p.exprs.get e = .ok x → x.kind = .identifier →
    has .unknownType x.span
  type : ∀ e x, p.InType e → p.exprs.get e = .ok x → x.kind ≠ .identifier →
    (∀ t, x.kind ≠ .typeName t) → has .notAType x.span
  enumValue : ∀ e x subject name y t, p.InValue e → p.exprs.get e = .ok x →
    x.kind = .field subject name → p.exprs.get subject = .ok y → y.kind = .typeName (.enum t) →
    has .unknownEnumValue x.span
  cycle : ∀ e x, p.InitsCycle e → p.exprs.get e = .ok x → has .cyclicInitializer x.span
  mismatch : ∀ span e x found expected, p.Stores span e expected → p.exprs.get e = .ok x →
    p.typeOf e = .ok found → found.assignable expected = false →
    has .typeMismatch span ∨ p.InitsCycle e ∧ has .cyclicInitializer x.span
  condition : ∀ e x found, p.IsCondition e → p.exprs.get e = .ok x → p.typeOf e = .ok found →
    found.isInvalid = false → found ≠ .bool → has .notABoolean x.span
  iterable : ∀ e x, p.IsIterable e → p.exprs.get e = .ok x → x.kind.isIterable = false →
    has .notIterable x.span ∨ (∃ subject name, x.kind = .field subject name) ∧ has .unknownEnumValue x.span

end Program

variable {source : String} {p p₁ p₀ : Program} {a b : Analysis} {cs : List Complaint} {e r : ExprId}
variable {x x' : Expr} {L : List StmtId} {queue : Queue} {s : StmtId} {c : Complaint}

/-! ## Why an expression is flagged -/

/-- A diagnostic has been kept for the expression. -/
def Analysis.IsFlagged (a : Analysis) (e : ExprId) : Prop :=
  ∃ x, a.program.exprs.get? e = some x ∧ x.flagged = true

/-- One of the complaints about the expression has been reported. -/
def Queue.HasOneOf (q : Queue) (cs : List Complaint) (e : ExprId) : Prop :=
  ∃ c ∈ cs, c.expr = e ∧ q.Has c.diagnostic.code c.diagnostic.span

/-- An expression that has been flagged by reports is one that something
has been reported on. -/
theorem flagged_of_reportAll (h : a.reportAll cs = .ok b) (hf : b.IsFlagged e) :
    a.IsFlagged e ∨ b.queue.HasOneOf cs e := by
  refine foldlM_invariant (fun b => ∀ e, b.IsFlagged e → a.IsFlagged e ∨ b.queue.HasOneOf cs e)
    (fun c hc b b' hb hreport e hf => ?_) (fun e => .inl) h e hf
  obtain ⟨y, -, hgrows, -, hprogram⟩ := report_eq_ok hreport
  have hbefore : b.IsFlagged e → a.IsFlagged e ∨ b'.queue.HasOneOf cs e := fun hf =>
    (hb e hf).imp_right fun ⟨c', hc', he, hhas⟩ => ⟨c', hc', he, hgrows.has hhas⟩
  obtain ⟨x, hx, hxf⟩ := hf
  rcases hprogram with hsame | ⟨-, hflag, hhas⟩
  · exact hbefore ⟨x, hsame ▸ hx, hxf⟩
  · by_cases he : e = c.expr
    · exact .inr ⟨c, hc, he.symm, hhas⟩
    · rw [hflag] at hx
      simp only [Program.flag, Table.get?_modify_of_ne he] at hx
      exact hbefore ⟨x, hx, hxf⟩

/-- **What there is to complain about has been reported**, unless another
diagnostic has been kept for the expression. -/
theorem has_of_reportAll (h : a.reportAll cs = .ok b) (hlimit : b.queue.config.errorLimit = 0)
    (hc : c ∈ cs) : a.IsFlagged c.expr ∨ b.queue.HasOneOf cs c.expr := by
  obtain ⟨-, hf | hrefuses⟩ := quiet_of_reportAll h c hc
  · exact flagged_of_reportAll h hf
  · exact .inr ⟨c, hc, rfl, Queue.has_of_refuses hlimit hrefuses⟩

namespace Resolution

variable (went : Resolution source p queue p₁ L a)
include went

/-- A diagnostic that resolution has kept for a value is that an enum type
has no such value, or that the initializer reads its way into a cycle. -/
theorem flagged (he : a.program.InValue e) (hx : a.program.exprs.get? e = some x)
    (hf : a.IsFlagged e) :
    ((∃ subject name, x.kind = .field subject name ∧ a.NamesEnum subject) ∧
        a.queue.Has .unknownEnumValue x.span) ∨
      (a.program.InitsCycle e ∧ ∃ w, a.program.Mentions e (.variable w)) ∧
        a.queue.Has .cyclicInitializer x.span := by
  obtain ⟨x', hx', hf⟩ := hf
  rw [hx] at hx'
  obtain rfl := Option.some.inj hx'
  obtain ⟨s, -, r, hr, hu⟩ := he
  obtain ⟨expected, htask⟩ := Program.exists_task_of_mem_valuesAt hr
  rw [Program.tasks_congr went.done.pruned.frame] at htask
  by_cases hG : s ∈ p₁.globals
  · by_cases hL : s ∈ L
    · have cyclic := went.done.globals.cyclic s hL
      have heard := went.heard.globals.2 s hL
      have hinit := init_of_value (declares_of_mem_globals hG) htask
      by_cases her : e = r
      · -- the initializer itself
        subst her
        obtain ⟨q, hq, hzero, -⟩ := cyclic.var
        obtain ⟨e', he', w, -, hm, -⟩ := cyclic.reads.exists_init
        rw [hinit] at he'
        cases he'
        exact .inr ⟨⟨⟨_, q, went.isGlobal_iff.2 ⟨s, hG, rfl, hinit⟩, Table.get_eq_ok.2 hq, hzero⟩,
          w, hm⟩, heard.root e hinit x hx hf⟩
      · exact .inl (heard.below r hinit e hu her x hx hf)
    · exact .inl (went.heard.globals.1 s hG hL _ htask e hu x hx hf)
  · exact .inl (went.heard.tasks s hG _ htask e hu x hx hf)

/-- The types in a value are those of its nodes as seen when they were
recorded. A variable that reads its way into a cycle may have been gone
through when others were not settled. -/
theorem value_done {expected : Option Origin} (hr : .value r expected ∈ p₁.tasks s) :
    ∃ ss, (a.unsettle p₁ ss).TaskDone source (.value r expected) := by
  by_cases hL : s ∈ L
  · obtain ⟨-, rest, -, hdone⟩ := went.done.globals.stages.exists_split hL
    exact ⟨s :: rest, hdone r expected hr⟩
  · rw [← Program.tasks_congr went.done.pruned.frame] at hr
    exact ⟨[], went.done.of_not_unordered (fun h => hL (went.done.unordered_iff.1 h)) _ hr⟩

/-- The node of a value is done, as seen when its type was recorded. -/
theorem node_done (he : a.program.InValue e) : ∃ ss, (a.unsettle p₁ ss).NodeDone source e := by
  obtain ⟨s, -, r, hr, hu⟩ := he
  obtain ⟨expected, htask⟩ := Program.exists_task_of_mem_valuesAt hr
  rw [Program.tasks_congr went.done.pruned.frame] at htask
  obtain ⟨ss, hdone⟩ := went.value_done htask
  exact ⟨ss, hdone.1 e hu⟩

/-- What the type pass has found about the nodes of a value is so whatever
has become of the statement. -/
theorem field_done (he : a.program.InValue e) (hx : a.program.exprs.get? e = some x) :
    a.FieldDone source e x := by
  obtain ⟨ss, x', hx', -, hfield⟩ := went.node_done he
  obtain rfl := Option.some.inj (hx.symm.trans hx')
  exact hfield

/-- **A field of an enum type that is left has been reported.** -/
theorem field_has (hlimit : a.queue.config.errorLimit = 0) {subject : ExprId} {name : Span} {y : Expr}
    {t : EnumTypeId} (he : a.program.InValue e) (hx : a.program.exprs.get? e = some x)
    (hk : x.kind = .field subject name) (hy : a.program.exprs.get? subject = some y)
    (hyk : y.kind = .typeName (.enum t)) : a.queue.Has .unknownEnumValue x.span := by
  obtain ⟨-, hf | hrefuses⟩ := went.field_done he hx subject name y t hk hy hyk
  · rcases went.flagged he hx hf with ⟨-, hhas⟩ | ⟨⟨-, w, hm⟩, -⟩
    · exact hhas
    · -- there is no variable in it that it could read
      rw [Program.mentions_iff hx, hk, Program.operandsAt_field hx hk] at hm
      obtain hm | ⟨c, hc, hm⟩ := hm
      · cases hm
      · obtain rfl := List.mem_singleton.1 hc
        rw [Program.mentions_iff hy, hyk, Program.operandsAt_leaf hy (by rw [hyk]; rfl)] at hm
        simp [ExprKind.target?] at hm
  · exact Queue.has_of_refuses hlimit hrefuses

/-- **What stands in the place of a type and names none has been
reported.** -/
theorem type_has (hlimit : a.queue.config.errorLimit = 0) {code : Code} (he : a.program.InType e)
    (hx : a.program.exprs.get? e = some x) (hcode : x.kind.misplaced? = some code) :
    a.queue.Has code x.span := by
  obtain ⟨s, -, he⟩ := he
  have regular := went.named.regular.congr went.done.pruned.frame went.done.pruned.held
  have htask : .name e ∈ a.program.tasks s := (Program.mem_tasks_name regular.declarations).2 he
  obtain ⟨x', hx', -, hquiet⟩ := went.done.name htask
  obtain rfl := Option.some.inj (hx.symm.trans hx')
  rw [Program.tasks_congr went.done.pruned.frame] at htask
  have heard : a.TypeHeard e := by
    by_cases hG : s ∈ p₁.globals
    · by_cases hL : s ∈ L
      · exact (went.heard.globals.2 s hL).named e htask
      · exact went.heard.globals.1 s hG hL _ htask
    · exact went.heard.tasks s hG _ htask
  rcases hquiet code hcode with ⟨y, hy, hf⟩ | hrefuses
  · obtain rfl := Option.some.inj (hx.symm.trans hy)
    obtain ⟨code', hcode', hhas⟩ := heard x hx hf
    rw [hcode] at hcode'
    exact Option.some.inj hcode' ▸ hhas
  · exact Queue.has_of_refuses hlimit hrefuses

end Resolution

/-! ## What is said about an expression -/

namespace Program

variable {stmt : Stmt}

/-- A name and a field have no type. -/
theorem typeOf_untyped (hx : p.exprs.get? e = some x)
    (hk : x.kind = .identifier ∨ ∃ subject name, x.kind = .field subject name) :
    p.typeOf e = .ok .error := by
  simp only [typeOf, exprDepth, typeOfWithin, Table.get_eq_ok.2 hx, ok_bind]
  rcases hk with hk | ⟨subject, name, hk⟩ <;> rw [hk] <;> rfl

theorem KindObjection.mem_values (h : p.KindObjection stmt c) : c.expr ∈ stmt.kind.values := by
  cases h with
  | init | assign | iterable => simp [StmtKind.values, Head.expr?]
  | condition hhead => rcases hhead with rfl | rfl | rfl <;> simp [StmtKind.values, Head.expr?]

/-- **There is at most one thing to be said about a statement by its kind.** -/
theorem KindObjection.unique {c' : Complaint} (h : p.KindObjection stmt c)
    (h' : p.KindObjection stmt c') : c' = c := by
  cases h with
  | init hr hf =>
    cases h' with
    | init hr' hf' =>
      cases hr.symm.trans hr'
      cases hf.symm.trans hf'
      rfl
  | assign ht hf =>
    cases h' with
    | assign ht' hf' =>
      cases ht.symm.trans ht'
      cases hf.symm.trans hf'
      rfl
  | condition hhead hx hf =>
    cases h' with
    | condition hhead' hx' hf' =>
      rcases hhead with rfl | rfl | rfl <;> rcases hhead' with h | h | h <;> cases h <;>
        (cases hx.symm.trans hx'; cases hf.symm.trans hf'; rfl)
    | iterable => rcases hhead with h | h | h <;> cases h
  | iterable hx =>
    cases h' with
    | condition hhead => rcases hhead with h | h | h <;> cases h
    | iterable hx' =>
      cases hx.symm.trans hx'
      rfl

/-- The only thing to be said about a value without a type is that nothing
can run over it. -/
theorem KindObjection.of_untyped (h : p.KindObjection stmt c) (ht : p.typeOf c.expr = .ok .error) :
    ∃ x, p.exprs.get? c.expr = some x ∧ x.kind.isIterable = false ∧
      c.diagnostic = .ofCode .notIterable x.span := by
  cases h with
  | init hr hf h =>
    rw [ht] at hf
    cases hf
    cases h
  | assign _ hf h =>
    rw [ht] at hf
    cases hf
    cases h
  | condition _ _ hf hv =>
    rw [ht] at hf
    cases hf
    cases hv
  | iterable hx hk => exact ⟨_, hx, hk, rfl⟩

/-- What there is to be said about a node among the values is said. -/
theorem NodeObjection.objection (h : p.NodeObjection e c) (he : p.InValue e) : p.Objection c := by
  obtain ⟨s, hs, r, hr, hu⟩ := he
  exact ⟨s, hs, .inl ⟨r, hr, e, hu, h⟩⟩

/-- What there is to be said about a name. -/
theorem Objection.of_name (h : p.Objection c) (hx : p.exprs.get? c.expr = some x)
    (hk : x.kind = .identifier) :
    p.IsCallee c.expr ∧ c.diagnostic = .ofCode .unknownFunction x.span ∨
      ¬ p.IsCallee c.expr ∧ c.diagnostic = .ofCode .unknownName x.span := by
  obtain ⟨s, -, ⟨r, -, e, -, hnode⟩ | ⟨stmt, -, hkind⟩⟩ := h
  · cases hnode with
    | name hx' _ hn =>
      rw [hx] at hx'
      exact .inr ⟨hn, by rw [Option.some.inj hx']⟩
    | function hx' _ hc =>
      rw [hx] at hx'
      exact .inl ⟨hc, by rw [Option.some.inj hx']⟩
    | callee hx' _ hi _ =>
      rw [hx] at hx'
      exact absurd (Option.some.inj hx' ▸ hk) hi
  · obtain ⟨x', hx', hiter, -⟩ := hkind.of_untyped (typeOf_untyped hx (.inl hk))
    rw [hx] at hx'
    rw [← Option.some.inj hx', hk] at hiter
    cases hiter

section

variable (held : p.OperandsHeld) (once : p.UsedOnce)
include held once

/-- What there is to be said about what is called. -/
theorem Objection.of_callee (h : p.Objection c) (hc : p.IsCallee c.expr)
    (hx : p.exprs.get? c.expr = some x) (hk : x.kind ≠ .identifier) :
    c.diagnostic = .ofCode .notAFunction x.span := by
  obtain ⟨s, -, ⟨r, -, e, -, hnode⟩ | ⟨stmt, hstmt, hkind⟩⟩ := h
  · cases hnode with
    | name _ _ hn => exact absurd hc hn
    | function hx' hk' _ =>
      rw [hx] at hx'
      exact absurd (Option.some.inj hx' ▸ hk') hk
    | callee hx' =>
      rw [hx] at hx'
      rw [Option.some.inj hx']
  · -- what a statement begins with is not called
    exact absurd hc (once.not_isCallee_of_slot held (mem_slotsAt_of_values hstmt hkind.mem_values))

/-- What there is to be said about a value that a statement begins with. -/
theorem Objection.of_value (h : p.Objection c) (hs : p.stmts.get? s = some stmt)
    (hr : c.expr ∈ stmt.kind.values) (hx : p.exprs.get? c.expr = some x) (hk : x.kind ≠ .identifier) :
    p.KindObjection stmt c := by
  obtain ⟨s', -, ⟨r, -, e, -, hnode⟩ | ⟨stmt', hstmt', hkind⟩⟩ := h
  · cases hnode with
    | name hx' hk' _ | function hx' hk' _ =>
      rw [hx] at hx'
      exact absurd (Option.some.inj hx' ▸ hk') hk
    | callee _ _ _ hc =>
      exact absurd hc (once.not_isCallee_of_slot held (mem_slotsAt_of_values hs hr))
  · rwa [once.stmt_eq_of_values hs hstmt' hr hkind.mem_values]

omit held in
/-- What initializes a top-level variable is a value of no other statement. -/
theorem InitsCycle.stmt_eq (h : p.InitsCycle e) (hs : p.stmts.get? s = some stmt)
    (hr : e ∈ stmt.kind.values) : ∃ v type span, stmt = ⟨.variable v type (some e), span⟩ := by
  obtain ⟨v, -, ⟨s', -, type, span, hs'⟩, -⟩ := h
  have heq := once.stmt_eq_of_values hs (Table.get_eq_ok.1 hs') hr (by simp [StmtKind.values])
  exact ⟨v, type, span, heq⟩

end

end Program

/-! ## Compiled programs -/

/-- A program has been resolved, and what there is to be said about it has
been reported, without a limit. -/
structure Reporting (source : String) (p : Program) (queue : Queue) (p₁ : Program) (L : List StmtId)
    (cs : List Complaint) (a b : Analysis) : Prop where
  went : Resolution source p queue p₁ L a
  complaints : a.program.complaints = .ok cs
  reports : a.reportAll cs = .ok b
  unlimited : queue.config.errorLimit = 0

namespace Reporting

variable (run : Reporting source p queue p₁ L cs a b)
include run

theorem held : a.program.OperandsHeld := run.went.done.pruned.held

theorem once : a.program.UsedOnce := run.went.done.pruned.usedOnce run.went.named.usedOnce

theorem grows : a.queue.Grows b.queue := (Flags.reportAll run.reports).queue

theorem unlimited_resolved : a.queue.config.errorLimit = 0 := by
  obtain ⟨-, -, -, hqueue⟩ := determineMain_eq ⟨p, queue⟩ source
  have hconfig : a.queue.config = queue.config := run.went.changes.queue.config.trans hqueue.config
  rw [hconfig, run.unlimited]

/-- **An objection has been reported**, unless another diagnostic has been
kept for the expression. -/
theorem has (h : a.program.Objection c) : a.IsFlagged c.expr ∨
    ∃ c', a.program.Objection c' ∧ c'.expr = c.expr ∧
      b.queue.Has c'.diagnostic.code c'.diagnostic.span := by
  have hmem : ∀ c, c ∈ cs ↔ a.program.Objection c := fun _ =>
    Program.mem_complaints run.held run.once run.complaints
  have hlimit : b.queue.config.errorLimit = 0 := by rw [run.grows.config, run.unlimited_resolved]
  refine (has_of_reportAll run.reports hlimit ((hmem c).2 h)).imp_right ?_
  rintro ⟨c', hc', he, hhas⟩
  exact ⟨c', (hmem c').1 hc', he, hhas⟩

/-- **What there is to be said about a value that a statement begins with
has been reported**, or an enum type has no such value, or the initializer
reads its way into a cycle. -/
theorem value_has {stmt : Stmt} (hs : s ∈ a.program.reachable) (hstmt : a.program.stmts.get? s = some stmt)
    (hobj : a.program.KindObjection stmt c) (hx : a.program.exprs.get? c.expr = some x)
    (hk : x.kind ≠ .identifier) :
    (∃ subject name, x.kind = .field subject name) ∧ b.queue.Has .unknownEnumValue x.span ∨
      a.program.InitsCycle c.expr ∧ b.queue.Has .cyclicInitializer x.span ∨
        b.queue.Has c.diagnostic.code c.diagnostic.span := by
  have hr := hobj.mem_values
  have he : a.program.InValue c.expr := ⟨s, hs, c.expr, Program.valuesAt_eq hstmt ▸ hr, .refl⟩
  rcases run.has ⟨s, hs, .inr ⟨stmt, hstmt, hobj⟩⟩ with hf | ⟨c', hc', hce, hhas⟩
  · rcases run.went.flagged he hx hf with ⟨⟨subject, name, hfield, -⟩, hhas⟩ | ⟨⟨hcycle, -⟩, hhas⟩
    · exact .inl ⟨⟨subject, name, hfield⟩, run.grows.has hhas⟩
    · exact .inr (.inl ⟨hcycle, run.grows.has hhas⟩)
  · rw [hobj.unique (hc'.of_value run.held run.once hstmt (hce ▸ hr) (hce ▸ hx) hk)] at hhas
    exact .inr (.inr hhas)

/-- What there is to be said about a value with a type has been reported,
or the initializer reads its way into a cycle. -/
theorem typed_has {stmt : Stmt} {found : Ty} (hs : s ∈ a.program.reachable)
    (hstmt : a.program.stmts.get? s = some stmt) (hobj : a.program.KindObjection stmt c)
    (hx : a.program.exprs.get? c.expr = some x) (hfound : a.program.typeOf c.expr = .ok found)
    (herror : found ≠ .error) :
    a.program.InitsCycle c.expr ∧ b.queue.Has .cyclicInitializer x.span ∨
      b.queue.Has c.diagnostic.code c.diagnostic.span := by
  -- a name or field that is left over has the type of an error
  have huntyped : ¬ (x.kind = .identifier ∨ ∃ subject name, x.kind = .field subject name) := fun hk => by
    rw [Program.typeOf_untyped hx hk] at hfound
    exact herror (Except.ok.inj hfound).symm
  rcases run.value_has hs hstmt hobj hx fun hk => huntyped (.inl hk) with ⟨hfield, -⟩ | h
  · exact absurd (.inr hfield) huntyped
  · exact h

/-- A name that is left has been reported as what it stands for. -/
theorem name_has (he : a.program.InValue e) (hx : a.program.exprs.get? e = some x)
    (hk : x.kind = .identifier) (hobj : ∃ d, a.program.Objection ⟨e, d⟩) :
    a.program.IsCallee e ∧ b.queue.Has .unknownFunction x.span ∨
      ¬ a.program.IsCallee e ∧ b.queue.Has .unknownName x.span := by
  obtain ⟨d, hobj⟩ := hobj
  rcases run.has hobj with hf | ⟨c', hc', rfl, hhas⟩
  · -- there is nothing in a name that could have been reported before
    rcases run.went.flagged he hx hf with ⟨⟨subject, name, hfield, -⟩, -⟩ | ⟨⟨-, w, hm⟩, -⟩
    · rw [hk] at hfield
      cases hfield
    · rw [Program.mentions_iff hx, hk, Program.operandsAt_leaf hx (by rw [hk]; rfl)] at hm
      simp [ExprKind.target?] at hm
  · rcases hc'.of_name hx hk with ⟨hc, hd⟩ | ⟨hc, hd⟩
    · rw [hd] at hhas
      exact .inl ⟨hc, hhas⟩
    · rw [hd] at hhas
      exact .inr ⟨hc, hhas⟩

/-- If there is no `main`, that has been reported. -/
theorem noMain_has (fresh : p.Fresh)
    (h : ∀ f r, a.program.functions.get f = .ok r → r.name.read source ≠ "main") :
    b.queue.Has .noMain .zero := by
  have hframe := run.went.frame
  have hnone : p.findMain source = none := by
    refine Program.findMain_eq_none.2 fun f r hr => ?_
    obtain ⟨r', hr', hf⟩ := Program.exists_function_congr hframe (Table.get_eq_ok.1 hr)
    have hname : r'.name = r.name := (congrArg Function.name hf :)
    rw [← hname]
    exact h f r' (Table.get_eq_ok.2 hr')
  refine (run.went.changes.queue.trans run.grows).has ?_
  have hquiet : ({ p with mainSearched := true } : Program).findMain source = none := hnone
  simp only [determineMain, fresh.unsearched, Bool.false_eq_true, if_false, hquiet, raise]
  cases hr : queue.refuses (.ofCode .noMain .zero) with
  | true =>
    obtain ⟨n, hn⟩ := Queue.push_refused hr
    rw [Queue.raise, hn]
    exact (Queue.grows_dropped queue n).has (Queue.has_of_refuses run.unlimited hr)
  | false =>
    rw [Queue.raise, Queue.push_kept hr]
    exact ⟨_, List.mem_append_right _ (List.mem_singleton_self _), rfl, rfl⟩

/-- What is called and is no function has been reported, or it is a value
that its enum type does not have. -/
theorem callee_has (hc : a.program.IsCallee e) (hx : a.program.exprs.get? e = some x)
    (hf : ∀ f, x.kind ≠ .function f) (hi : x.kind ≠ .identifier) :
    b.queue.Has .notAFunction x.span ∨ b.queue.Has .unknownEnumValue x.span := by
  have he := hc.inValue run.held
  rcases run.has ((Program.NodeObjection.callee hx hf hi hc).objection he) with
    hflag | ⟨c', hc', rfl, hhas⟩
  · rcases run.went.flagged he hx hflag with ⟨-, hhas⟩ | ⟨⟨⟨v, -, ⟨s', -, type, span, hs'⟩, -⟩, -⟩, -⟩
    · exact .inr (run.grows.has hhas)
    · -- what is called initializes no variable
      have hslot := Program.mem_slotsAt_of_values (e := e) (Table.get_eq_ok.1 hs')
        (by simp [StmtKind.values])
      exact absurd hc (run.once.not_isCallee_of_slot run.held hslot)
  · rw [hc'.of_callee run.held run.once hc hx hi] at hhas
    exact .inl hhas

/-- A value that does not fit has been reported, or it reads its way into a
cycle. -/
theorem mismatch_has {span : Span} {found expected : Ty} (hs : a.program.Stores span e expected)
    (hx : a.program.exprs.get? e = some x) (hfound : a.program.typeOf e = .ok found)
    (hno : found.assignable expected = false) :
    b.queue.Has .typeMismatch span ∨
      a.program.InitsCycle e ∧ b.queue.Has .cyclicInitializer x.span := by
  -- an error fits anywhere
  have herror : found ≠ .error := by
    rintro rfl
    cases hno
  cases hs with
  | init hmem hstmt hr ht =>
    subst ht
    exact (run.typed_has hmem (Table.get_eq_ok.1 hstmt) (.init (Table.get_eq_ok.1 hr) hfound hno)
      hx hfound herror).symm
  | assign hmem hstmt ht =>
    exact (run.typed_has hmem (Table.get_eq_ok.1 hstmt) (.assign ht hfound hno) hx hfound herror).symm

/-- A condition that is not a boolean has been reported. -/
theorem condition_has {found : Ty} (hcond : a.program.IsCondition e)
    (hx : a.program.exprs.get? e = some x) (hfound : a.program.typeOf e = .ok found)
    (hv : found.isInvalid = false) (hb : found ≠ .bool) : b.queue.Has .notABoolean x.span := by
  obtain ⟨s, hs, head, body, span, hstmt, hhead⟩ := hcond
  rw [Table.get_eq_ok] at hstmt
  have hobj : a.program.KindObjection ⟨.nest head body, span⟩ ⟨e, _⟩ :=
    .condition hhead hx hfound hv hb
  have herror : found ≠ .error := by
    rintro rfl
    cases hv
  refine (run.typed_has hs hstmt hobj hx hfound herror).resolve_left fun ⟨hcycle, _⟩ => ?_
  obtain ⟨v, type, span', heq⟩ := hcycle.stmt_eq run.once hstmt hobj.mem_values
  cases heq

/-- That nothing can run over a value has been reported, or it is a value
that its enum type does not have. -/
theorem iterable_has (hiter : a.program.IsIterable e) (hx : a.program.exprs.get? e = some x)
    (hk : x.kind.isIterable = false) :
    b.queue.Has .notIterable x.span ∨
      (∃ subject name, x.kind = .field subject name) ∧ b.queue.Has .unknownEnumValue x.span := by
  obtain ⟨s, hs, v, body, span, hstmt⟩ := hiter
  rw [Table.get_eq_ok] at hstmt
  have hname : x.kind ≠ .identifier := fun h => by
    rw [h] at hk
    cases hk
  have hobj : a.program.KindObjection ⟨.nest (.forEach v e) body, span⟩ ⟨e, _⟩ := .iterable hx hk
  rcases run.value_has hs hstmt hobj hx hname with hfield | ⟨hcycle, -⟩ | hhas
  · exact .inr hfield
  · obtain ⟨v, type, span', heq⟩ := hcycle.stmt_eq run.once hstmt hobj.mem_values
    cases heq
  · exact .inl hhas

/-- **Whatever is wrong with the resolved program has been reported.** -/
theorem reported (fresh : p.Fresh) : a.program.Reported source b.queue.Has := by
  have hlimit := run.unlimited_resolved
  refine
    { noMain := run.noMain_has fresh
      name := fun e x he hx hk hn => ?_
      function := fun e x hc hx hk => ?_
      callee := fun e x hc hx => run.callee_has hc (Table.get_eq_ok.1 hx)
      typeName := fun e x he hx hk => ?_
      type := fun e x he hx hi ht => ?_
      enumValue := fun e x subject name y t he hx hk hy hyk => ?_
      cycle := fun e x ⟨v, r, hv, hr, hzero⟩ hx => ?_
      mismatch := fun span e x found expected hs hx => run.mismatch_has hs (Table.get_eq_ok.1 hx)
      condition := fun e x found hcond hx => run.condition_has hcond (Table.get_eq_ok.1 hx)
      iterable := fun e x hiter hx => run.iterable_has hiter (Table.get_eq_ok.1 hx) } <;>
    rw [Table.get_eq_ok] at hx
  · have hobj := (Program.NodeObjection.name hx hk hn).objection he
    exact ((run.name_has he hx hk ⟨_, hobj⟩).resolve_left fun h => hn h.1).2
  · have he := hc.inValue run.held
    have hobj := (Program.NodeObjection.function hx hk hc).objection he
    exact ((run.name_has he hx hk ⟨_, hobj⟩).resolve_right fun h => h.1 hc).2
  · exact run.grows.has (run.went.type_has hlimit he hx (by rw [hk]; rfl))
  · refine run.grows.has (run.went.type_has hlimit he hx ?_)
    cases hk : x.kind <;> simp_all [ExprKind.misplaced?]
  · exact run.grows.has (run.went.field_has hlimit he hx hk (Table.get_eq_ok.1 hy) hyk)
  · exact run.grows.has (run.went.cycle_has hlimit hv (Table.get_eq_ok.2 hx) hr hzero)

end Reporting

theorem Analysis.Annotated.initsCycle (h : a.Annotated b) :
    b.program.InitsCycle e ↔ a.program.InitsCycle e := by
  simp only [Program.InitsCycle, h.isGlobal, h.flags.vars]

/-- What is reported of a program is reported of it with more flags. -/
theorem Analysis.Annotated.reported {has : Code → Span → Prop} (h : a.Annotated b)
    (held : a.program.OperandsHeld) (hr : a.program.Reported source has) :
    b.program.Reported source has := by
  have htype : ∀ {e}, b.program.typeOf e = a.program.typeOf e := h.flags.typeOf held
  refine
    { noMain := fun hmain => hr.noMain fun f r hf => hmain f r (h.functions ▸ hf)
      name := fun e x he hx hk hn => ?_
      function := fun e x hc hx hk => ?_
      callee := fun e x hc hx hf hi => ?_
      typeName := fun e x he hx hk => ?_
      type := fun e x he hx hi ht => ?_
      enumValue := fun e x subject name y t he hx hk hy hyk => ?_
      cycle := fun e x hv hx => ?_
      mismatch := fun span e x found expected hs hx hf hno => ?_
      condition := fun e x found hc hx hf hv hb => ?_
      iterable := fun e x hi hx hk => ?_ } <;>
    obtain ⟨x₀, hx₀, same⟩ := h.node_back hx <;>
    rw [same.span]
  · exact hr.name e x₀ (h.inValue.1 he) hx₀ (same.kind ▸ hk) fun hc => hn (h.isCallee.2 hc)
  · exact hr.function e x₀ (h.isCallee.1 hc) hx₀ (same.kind ▸ hk)
  · exact hr.callee e x₀ (h.isCallee.1 hc) hx₀ (same.kind ▸ hf) (same.kind ▸ hi)
  · exact hr.typeName e x₀ (h.inType.1 he) hx₀ (same.kind ▸ hk)
  · exact hr.type e x₀ (h.inType.1 he) hx₀ (same.kind ▸ hi) (same.kind ▸ ht)
  · obtain ⟨y₀, hy₀, same'⟩ := h.node_back hy
    exact hr.enumValue e x₀ subject name y₀ t (h.inValue.1 he) hx₀ (same.kind ▸ hk) hy₀
      (same'.kind ▸ hyk)
  · exact hr.cycle e x₀ (h.initsCycle.1 hv) hx₀
  · refine (hr.mismatch span e x₀ found expected ((h.stores held).1 hs) hx₀ (htype.symm.trans hf)
      hno).imp_right ?_
    exact fun hcycle => ⟨h.initsCycle.2 hcycle.1, hcycle.2⟩
  · exact hr.condition e x₀ found (h.isCondition.1 hc) hx₀ (htype.symm.trans hf) hv hb
  · rw [same.kind]
    exact hr.iterable e x₀ (h.isIterable.1 hi) hx₀ (same.kind ▸ hk)

/-- A diagnostic of the compilation has the code and the span. -/
def Compilation.Has (c : Compilation) (code : Code) (span : Span) : Prop :=
  ∃ d ∈ c.diagnostics, d.code = code ∧ d.span = span

/-- To locate diagnostics leaves their codes and spans. -/
theorem has_finish (q : Queue) (q₀ : Program) (source : String) :
    (Compilation.mk q₀ (q.finish source)).Has = q.Has := by
  funext code span
  simp [Compilation.Has, Queue.Has, Queue.finish, Queue.annotate, Queue.flush, Diagnostic.locate]

namespace Program

/-- **No error is missed.** Whatever has been built with one place for each
expression, when it compiles without a limit on errors, whatever is wrong
with the program that comes out is among the diagnostics. -/
theorem compile_reported {steps : List Step} {written : String}
    (built : Program.build steps = .ok (p, written)) (once : p.UsedOnce) (config : QueueConfig)
    (unlimited : config.errorLimit = 0) (source : String) {c : Compilation}
    (h : p.compile config source = .ok c) : c.program.Reported source c.Has := by
  have fresh := build_fresh built
  obtain ⟨a, b, p₁, L, cs, went, hcs, hall, rfl⟩ := compile_eq_ok fresh once h
  have run : Reporting source p (Queue.ofConfig config) p₁ L cs a b := ⟨went, hcs, hall, unlimited⟩
  rw [has_finish]
  exact (annotated_of_reportAll hall).reported run.held (run.reported fresh)

/-- Where one error is passed over on account of another, the other one is
reported: a field that is called, and two initializers of the wrong type. -/
theorem compile_reported_instead :
    Succeeds (Program.build
        [.enumType "Color" ["Red"], .identifier "Color", .field ⟨0⟩ "Blue", .call ⟨1⟩ [], .evaluate ⟨2⟩,
          .identifier "b", .identifier "int", .variable "a" (some ⟨4⟩) (some ⟨3⟩),
          .identifier "a", .identifier "str", .variable "b" (some ⟨6⟩) (some ⟨5⟩),
          .integer 1, .call ⟨7⟩ [], .output ⟨8⟩])
      fun (p, source) => p.UsedOnce ∧ Succeeds (p.compile {} source) fun c =>
        c.program.Reported source c.Has ∧
        c.diagnostics.map (·.code) = [.noMain, .cyclicInitializer, .cyclicInitializer,
          .unknownEnumValue, .notAFunction] := by
  have facts : Succeeds (Program.build
        [.enumType "Color" ["Red"], .identifier "Color", .field ⟨0⟩ "Blue", .call ⟨1⟩ [], .evaluate ⟨2⟩,
          .identifier "b", .identifier "int", .variable "a" (some ⟨4⟩) (some ⟨3⟩),
          .identifier "a", .identifier "str", .variable "b" (some ⟨6⟩) (some ⟨5⟩),
          .integer 1, .call ⟨7⟩ [], .output ⟨8⟩])
      fun (p, source) => p.UsedOnce ∧ Succeeds (p.compile {} source) fun c =>
        c.diagnostics.map (·.code) = [.noMain, .cyclicInitializer, .cyclicInitializer,
          .unknownEnumValue, .notAFunction] := by
    decide +kernel
  obtain ⟨⟨p, source⟩, built, once, c, h, hcodes⟩ := facts
  exact ⟨(p, source), built, once, c, h, compile_reported built once {} rfl source h, hcodes⟩

end Program

end FrontEnd
