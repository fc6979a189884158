import FrontEnd.Proofs.InitOrder
import FrontEnd.Proofs.Objections
import FrontEnd.Proofs.Reruns
/-!
# FrontEnd — no diagnostic without cause

Diagnostics are reported while the program is still being changed: names
become values, variables get their types, orders are settled. Whatever
is reported is nevertheless true of the program in the end
(`compile_justified`): what has been reported on a node stays as it is,
and what depends on types and orders is reported when these are final.
-/

namespace FrontEnd

open Analysis

namespace Program

/-- The enum type has a value of the name. -/
def HasValue (p : Program) (source : String) (t : EnumTypeId) (name : Span) : Prop :=
  ∃ r i v, p.enumTypes.get t = .ok r ∧ i ∈ r.values.ids ∧ p.enumValues.get i = .ok v ∧
    v.name.read source = name.read source

/-- A statement at the span stores the value where the type is expected. -/
inductive Stores (p : Program) (span : Span) (value : ExprId) (expected : Ty) : Prop
  | init {s : StmtId} {v : VariableId} {type : Option ExprId} {r : Variable} (hs : s ∈ p.reachable)
      (hstmt : p.stmts.get s = .ok ⟨.variable v type (some value), span⟩)
      (hr : p.vars.get v = .ok r) (ht : r.type = expected)
  | assign {s : StmtId} {lhs : ExprId} (hs : s ∈ p.reachable)
      (hstmt : p.stmts.get s = .ok ⟨.assign lhs value, span⟩) (ht : p.typeOf lhs = .ok expected)

/-- The expression decides whether some body runs. -/
def IsCondition (p : Program) (e : ExprId) : Prop :=
  ∃ s ∈ p.reachable, ∃ head body span, p.stmts.get s = .ok ⟨.nest head body, span⟩ ∧
    (head = .ifThen e ∨ head = .elseIf e ∨ head = .whileDo e)

/-- Some loop runs over the expression. -/
def IsIterable (p : Program) (e : ExprId) : Prop :=
  ∃ s ∈ p.reachable, ∃ v body span, p.stmts.get s = .ok ⟨.nest (.forEach v e) body, span⟩

/-- The diagnostic is true of the program. -/
inductive Warrants (p : Program) (source : String) : Diagnostic → Prop
  | noMain (h : ∀ f r, p.functions.get f = .ok r → r.name.read source ≠ "main") :
      Warrants p source (.ofCode .noMain .zero)
  | unknownName {e : ExprId} {x : Expr} (he : p.InValue e) (hx : p.exprs.get e = .ok x)
      (hk : x.kind = .identifier) (hn : ¬ p.IsCallee e) :
      Warrants p source (.ofCode .unknownName x.span)
  | unknownFunction {e : ExprId} {x : Expr} (hc : p.IsCallee e) (hx : p.exprs.get e = .ok x)
      (hk : x.kind = .identifier) : Warrants p source (.ofCode .unknownFunction x.span)
  | notAFunction {e : ExprId} {x : Expr} (hc : p.IsCallee e) (hx : p.exprs.get e = .ok x)
      (hf : ∀ f, x.kind ≠ .function f) (hi : x.kind ≠ .identifier) :
      Warrants p source (.ofCode .notAFunction x.span)
  | unknownType {e : ExprId} {x : Expr} (he : p.InType e) (hx : p.exprs.get e = .ok x)
      (hk : x.kind = .identifier) : Warrants p source (.ofCode .unknownType x.span)
  | notAType {e : ExprId} {x : Expr} (he : p.InType e) (hx : p.exprs.get e = .ok x)
      (hi : x.kind ≠ .identifier) (ht : ∀ t, x.kind ≠ .typeName t) :
      Warrants p source (.ofCode .notAType x.span)
  | unknownEnumValue {e subject : ExprId} {x y : Expr} {name : Span} {t : EnumTypeId}
      (hx : p.exprs.get e = .ok x) (hk : x.kind = .field subject name)
      (hy : p.exprs.get subject = .ok y) (hyk : y.kind = .typeName (.enum t))
      (hnone : ¬ p.HasValue source t name) :
      Warrants p source (.ofCode .unknownEnumValue x.span)
  | cyclicInitializer {v : VariableId} {e : ExprId} {x : Expr} (hv : p.IsGlobal v (some e))
      (hx : p.exprs.get e = .ok x) (hc : p.ReachesCycle v) :
      Warrants p source (.ofCode .cyclicInitializer x.span)
  | typeMismatch {span : Span} {value : ExprId} {found expected : Ty}
      (hs : p.Stores span value expected) (hf : p.typeOf value = .ok found)
      (hfound : found.isInvalid = false) (hexpected : expected.isInvalid = false)
      (h : found.assignable expected = false) :
      Warrants p source
        { code := .typeMismatch, span,
          message := "expected `" ++ expected.text ++ "`, found `" ++ found.text ++ "`" }
  | notABoolean {e : ExprId} {x : Expr} {found : Ty} (hc : p.IsCondition e)
      (hx : p.exprs.get e = .ok x) (hf : p.typeOf e = .ok found) (hv : found.isInvalid = false)
      (hb : found ≠ .bool) :
      Warrants p source
        { code := .notABoolean, span := x.span,
          message := "expected `bool`, found `" ++ found.text ++ "`" }
  | notIterable {e : ExprId} {x : Expr} (hi : p.IsIterable e) (hx : p.exprs.get e = .ok x)
      (hr : ∀ first last, x.kind ≠ .range first last) (ht : ∀ t, x.kind ≠ .typeName (.enum t))
      (hk : x.kind ≠ .identifier) : Warrants p source (.ofCode .notIterable x.span)

variable {p p' p₀ : Program} {source : String} {e : ExprId} {x : Expr} {s : StmtId} {c : Complaint}
variable {found expected : Ty} {d : Diagnostic}

/-! ## What is not found -/

/-- A value that is not found is one that there is not. -/
theorem not_hasValue_of_findEnumValue {t : EnumTypeId} {name : Span}
    (h : p.findEnumValue source t name = .ok none) : ¬ p.HasValue source t name := by
  rintro ⟨r, i, v, hr, hi, hv, hread⟩
  obtain ⟨r', hr', h⟩ := bind_eq_ok.1 h
  rw [hr] at hr'
  obtain rfl := Except.ok.inj hr'
  obtain ⟨values, hvalues, h⟩ := bind_eq_ok.1 h
  obtain ⟨v', hmem⟩ := exists_mem_slice hvalues hi
  have hget := (mem_slice hvalues hmem).1
  rw [Table.get_eq_ok.1 hv] at hget
  obtain rfl := Option.some.inj hget
  have hfind := List.find?_eq_none.1 (Option.map_eq_none_iff.1 (pure_eq_ok.1 h)) _ hmem
  exact hfind (by simpa using hread)

theorem mem_enumerate {k : RecordKind} {α : Type} {t : Table k α} {i : RecordId k} {record : α} :
    (i, record) ∈ t.enumerate ↔ t.get? i = some record := by
  rw [Table.get?_eq_toList, Table.enumerate, List.mem_iff_getElem?]
  simp only [IdRange.ids, List.getElem?_zip_eq_some, List.getElem?_map, Option.map_eq_some_iff]
  constructor
  · rintro ⟨n, ⟨m, hm, rfl⟩, hrecord⟩
    obtain ⟨hlt, rfl⟩ := List.getElem?_eq_some_iff.1 hm
    simpa using hrecord
  · intro h
    have hlt : i.raw < t.size := (List.getElem?_eq_some_iff.1 h).1
    exact ⟨i.raw, ⟨i.raw, by simp [hlt], rfl⟩, h⟩

/-- There is no `main` if no function is called so. -/
theorem findMain_eq_none : p.findMain source = none ↔
    ∀ f r, p.functions.get f = .ok r → r.name.read source ≠ "main" := by
  simp only [findMain, Option.map_eq_none_iff, List.find?_eq_none, Table.get_eq_ok, ← mem_enumerate,
    Prod.forall, beq_iff_eq]

/-! ## What is objected to is wrong -/

theorem valid_of_not_assignable (h : found.assignable expected = false) :
    found.isInvalid = false ∧ expected.isInvalid = false := by
  simp only [Ty.assignable, Bool.or_eq_false_iff] at h
  exact ⟨h.1.1.1, h.1.1.2⟩

/-- **What is objected to is true.** -/
theorem Objection.warrants (h : p.Objection c) : p.Warrants source c.diagnostic := by
  obtain ⟨s, hs, ⟨r, hr, e, hu, hnode⟩ | ⟨stmt, hstmt, hkind⟩⟩ := h
  · have he : p.InValue e := ⟨s, hs, r, hr, hu⟩
    cases hnode with
    | name hx hk hn => exact .unknownName he (Table.get_eq_ok.2 hx) hk hn
    | function hx hk hc => exact .unknownFunction hc (Table.get_eq_ok.2 hx) hk
    | callee hx hf hi hc => exact .notAFunction hc (Table.get_eq_ok.2 hx) hf hi
  · rw [← Table.get_eq_ok] at hstmt
    cases hkind with
    | init hr hf h =>
      obtain ⟨hfound, hexpected⟩ := valid_of_not_assignable h
      exact .typeMismatch (.init hs hstmt (Table.get_eq_ok.2 hr) rfl) hf hfound hexpected h
    | assign ht hf h =>
      obtain ⟨hfound, hexpected⟩ := valid_of_not_assignable h
      exact .typeMismatch (.assign hs hstmt ht) hf hfound hexpected h
    | condition hhead hx hf hv hb =>
      exact .notABoolean ⟨s, hs, _, _, _, hstmt, hhead⟩ (Table.get_eq_ok.2 hx) hf hv hb
    | iterable hx hk =>
      refine .notIterable ⟨s, hs, _, _, _, hstmt⟩ (Table.get_eq_ok.2 hx) ?_ ?_ ?_
      · rintro first last h
        rw [h] at hk
        cases hk
      · rintro t h
        rw [h] at hk
        cases hk
      · intro h
        rw [h] at hk
        cases hk

/-- **What the type pass finds wrong is wrong in the end.** -/
theorem TypeError.warrants {told : Diagnostic → Prop} {a : Analysis} (h : p₀.TypeError source d)
    (once : p₀.UsedOnce) (ha : a.Told source p₀ told) : a.program.Warrants source d := by
  have hnode : ∀ {e x₀}, p₀.exprs.get? e = some x₀ →
      ∃ x, a.program.exprs.get e = .ok x ∧ p₀.Grown source e x₀ x := by
    intro e x₀ hx₀
    obtain ⟨x, hx⟩ := Table.exists_get?_of_lt
      (size_exprs_congr ha.pruned.frame ▸ Table.lt_size_of_get? hx₀)
    obtain ⟨x₀', hx₀', grown⟩ := ha.nodes e x hx
    rw [hx₀] at hx₀'
    exact ⟨x, Table.get_eq_ok.2 hx, Option.some.inj hx₀' ▸ grown⟩
  cases h with
  | @misplaced e x₀ code he hx₀ hcode =>
    obtain ⟨x, hx, grown⟩ := hnode hx₀
    have hkind := grown.kind.resolve_right fun hv => once.not_inValue_of_inType he hv.1
    have he' := (inType_congr ha.pruned.frame).2 he
    rw [← grown.span]
    rw [← hkind] at hcode
    unfold ExprKind.misplaced? at hcode
    split at hcode
    · cases hcode
    · next hk =>
      obtain rfl := Option.some.inj hcode
      exact .unknownType he' hx hk
    · next ht hi =>
      obtain rfl := Option.some.inj hcode
      exact .notAType he' hx hi ht
  | noValue he hx₀ lacks =>
    obtain ⟨x, hx, grown⟩ := hnode hx₀
    have hkind := grown.kind.resolve_right fun hv => hv.2.2.not_lacks lacks
    obtain ⟨subject, name, y₀, t, hk, hy₀, hyk, hfind⟩ := lacks
    obtain ⟨y, hy, grown'⟩ := hnode hy₀
    have hykind := grown'.kind.resolve_right fun hv => by simp [hyk, MayBeValue] at hv
    rw [← grown.span]
    refine .unknownEnumValue hx (hkind.trans hk) hy (hykind.trans hyk) ?_
    exact not_hasValue_of_findEnumValue (by rw [findEnumValue_congr ha.pruned.frame, hfind])

end Program

/-! ## Reports change nothing that matters -/

variable {source : String} {p p₁ : Program} {a b : Analysis} {cs : List Complaint} {d : Diagnostic}
variable {L : List StmtId} {queue : Queue}

/-- What has been reported was there before, or is one of the complaints. -/
theorem mem_of_reportAll (h : a.reportAll cs = .ok b) (hd : d ∈ b.queue.diagnostics) :
    d ∈ a.queue.diagnostics ∨ ∃ c ∈ cs, c.diagnostic = d := by
  refine foldlM_invariant
    (fun b => ∀ d ∈ b.queue.diagnostics, d ∈ a.queue.diagnostics ∨ ∃ c ∈ cs, c.diagnostic = d)
    (fun c hc b b' hb hreport d hd => ?_) (fun d hd => .inl hd) h d hd
  rcases mem_of_report hreport hd with hbefore | rfl
  · exact hb d hbefore
  · exact .inr ⟨c, hc, rfl⟩

/-- What reports leave of an analysis: flags and diagnostics may have been
added. -/
structure Analysis.Annotated (a b : Analysis) : Prop where
  flags : Flags a b
  program : b.program = { a.program with exprs := b.program.exprs }

theorem annotated_of_reportAll (h : a.reportAll cs = .ok b) : a.Annotated b where
  flags := .reportAll h
  program := by
    refine foldlM_invariant (fun b => b.program = { a.program with exprs := b.program.exprs })
      (fun c _ b b' hb hreport => ?_) rfl h
    obtain ⟨x, -, -, -, hsame | ⟨-, hflag, -⟩⟩ := report_eq_ok hreport
    · rw [hsame]
      exact hb
    · rw [hflag, Program.flag, hb]

namespace Analysis.Annotated

variable {e : ExprId} {x : Expr} {span : Span} {expected : Ty}
variable (h : a.Annotated b)
include h

theorem stmts : b.program.stmts = a.program.stmts := by rw [h.program]

theorem functions : b.program.functions = a.program.functions := by rw [h.program]

theorem reachable : b.program.reachable = a.program.reachable := Program.reachable_congr h.flags.frame

theorem node (hx : a.program.exprs.get e = .ok x) : ∃ x', b.program.exprs.get e = .ok x' ∧ x.Same x' :=
  have ⟨x', hx', same⟩ := h.flags.exprs _ _ (Table.get_eq_ok.1 hx)
  ⟨x', Table.get_eq_ok.2 hx', same⟩

theorem node_back (hx : b.program.exprs.get e = .ok x) : ∃ x₀, a.program.exprs.get e = .ok x₀ ∧ x₀.Same x :=
  have ⟨x₀, hx₀, same⟩ := h.flags.back (Table.get_eq_ok.1 hx)
  ⟨x₀, Table.get_eq_ok.2 hx₀, same⟩

theorem inValue : b.program.InValue e ↔ a.program.InValue e :=
  Program.inValue_congr h.flags.frame h.flags.operandsAt

theorem inType : b.program.InType e ↔ a.program.InType e := Program.inType_congr h.flags.frame

theorem isCallee : b.program.IsCallee e ↔ a.program.IsCallee e := by
  have hcalls : ∀ c arguments, (∃ x, b.program.exprs.get? c = some x ∧ x.kind = .call e arguments) ↔
      ∃ x, a.program.exprs.get? c = some x ∧ x.kind = .call e arguments := fun c arguments => by
    simp only [← Option.map_eq_some_iff, h.flags.get?_kind]
  constructor
  · rintro ⟨c, x, arguments, hc, hx, hk⟩
    obtain ⟨x', hx', hk'⟩ := (hcalls c arguments).1 ⟨x, hx, hk⟩
    exact ⟨c, x', arguments, h.inValue.1 hc, hx', hk'⟩
  · rintro ⟨c, x, arguments, hc, hx, hk⟩
    obtain ⟨x', hx', hk'⟩ := (hcalls c arguments).2 ⟨x, hx, hk⟩
    exact ⟨c, x', arguments, h.inValue.2 hc, hx', hk'⟩

theorem isGlobal {v : VariableId} {init : Option ExprId} :
    b.program.IsGlobal v init ↔ a.program.IsGlobal v init := by
  rw [Program.IsGlobal, Program.outline_congr h.flags.frame, h.stmts, Program.IsGlobal]

theorem reachesCycle {v : VariableId} : b.program.ReachesCycle v ↔ a.program.ReachesCycle v := by
  have hreads : b.program.InitReads = a.program.InitReads := by
    funext v w
    simp only [Program.InitReads, h.isGlobal, h.flags.mentions]
  rw [Program.ReachesCycle, hreads, Program.ReachesCycle]

theorem hasValue {source : String} {t : EnumTypeId} {name : Span} :
    b.program.HasValue source t name ↔ a.program.HasValue source t name := by
  simp only [Program.HasValue, h.flags.enumTypes, h.flags.enumValues]

theorem isCondition : b.program.IsCondition e ↔ a.program.IsCondition e := by
  simp only [Program.IsCondition, h.reachable, h.stmts]

theorem isIterable : b.program.IsIterable e ↔ a.program.IsIterable e := by
  simp only [Program.IsIterable, h.reachable, h.stmts]

theorem stores (held : a.program.OperandsHeld) :
    b.program.Stores span e expected ↔ a.program.Stores span e expected := by
  constructor
  · rintro (⟨hs, hstmt, hr, ht⟩ | ⟨hs, hstmt, ht⟩)
    · exact .init (h.reachable ▸ hs) (h.stmts ▸ hstmt) (h.flags.vars ▸ hr) ht
    · exact .assign (h.reachable ▸ hs) (h.stmts ▸ hstmt) ((h.flags.typeOf held).symm.trans ht)
  · rintro (⟨hs, hstmt, hr, ht⟩ | ⟨hs, hstmt, ht⟩)
    · exact .init (h.reachable ▸ hs) (h.stmts ▸ hstmt) (h.flags.vars ▸ hr) ht
    · exact .assign (h.reachable ▸ hs) (h.stmts ▸ hstmt) ((h.flags.typeOf held).trans ht)

/-- **What is true of a program is true after reporting.** -/
theorem warrants (held : a.program.OperandsHeld) (hd : a.program.Warrants source d) :
    b.program.Warrants source d := by
  cases hd with
  | noMain hmain => exact .noMain fun f r hr => hmain f r (h.functions ▸ hr)
  | unknownName he hx hk hn =>
    obtain ⟨x', hx', same⟩ := h.node hx
    rw [← same.span]
    exact .unknownName (h.inValue.2 he) hx' (same.kind.trans hk) fun hc => hn (h.isCallee.1 hc)
  | unknownFunction hc hx hk =>
    obtain ⟨x', hx', same⟩ := h.node hx
    rw [← same.span]
    exact .unknownFunction (h.isCallee.2 hc) hx' (same.kind.trans hk)
  | notAFunction hc hx hf hi =>
    obtain ⟨x', hx', same⟩ := h.node hx
    rw [← same.span]
    exact .notAFunction (h.isCallee.2 hc) hx' (same.kind ▸ hf) (same.kind ▸ hi)
  | unknownType he hx hk =>
    obtain ⟨x', hx', same⟩ := h.node hx
    rw [← same.span]
    exact .unknownType (h.inType.2 he) hx' (same.kind.trans hk)
  | notAType he hx hi ht =>
    obtain ⟨x', hx', same⟩ := h.node hx
    rw [← same.span]
    exact .notAType (h.inType.2 he) hx' (same.kind ▸ hi) (same.kind ▸ ht)
  | unknownEnumValue hx hk hy hyk hnone =>
    obtain ⟨x', hx', same⟩ := h.node hx
    obtain ⟨y', hy', same'⟩ := h.node hy
    rw [← same.span]
    exact .unknownEnumValue hx' (same.kind.trans hk) hy' (same'.kind.trans hyk)
      fun hvalue => hnone (h.hasValue.1 hvalue)
  | cyclicInitializer hv hx hc =>
    obtain ⟨x', hx', same⟩ := h.node hx
    rw [← same.span]
    exact .cyclicInitializer (h.isGlobal.2 hv) hx' (h.reachesCycle.2 hc)
  | typeMismatch hs hf hfound hexpected hno =>
    exact .typeMismatch ((h.stores held).2 hs) ((h.flags.typeOf held).trans hf) hfound hexpected hno
  | notABoolean hc hx hf hv hb =>
    obtain ⟨x', hx', same⟩ := h.node hx
    rw [← same.span]
    exact .notABoolean (h.isCondition.2 hc) hx' ((h.flags.typeOf held).trans hf) hv hb
  | notIterable hi hx hr ht hk =>
    obtain ⟨x', hx', same⟩ := h.node hx
    rw [← same.span]
    exact .notIterable (h.isIterable.2 hi) hx' (same.kind ▸ hr) (same.kind ▸ ht) (same.kind ▸ hk)

end Analysis.Annotated

/-! ## Compiled programs -/

/-- How a compilation goes: the program is resolved, and what there is to
be said about it is reported. -/
theorem compile_eq_ok {config : QueueConfig} {c : Compilation} (fresh : p.Fresh) (once : p.UsedOnce)
    (h : p.compile config source = .ok c) :
    ∃ a b p₁ L cs, Resolution source p (Queue.ofConfig config) p₁ L a ∧
      a.program.complaints = .ok cs ∧ a.reportAll cs = .ok b ∧
      c = ⟨b.program, b.queue.finish source⟩ := by
  unfold Program.compile at h
  split at h
  · next a hresolve =>
    obtain ⟨p₁, L, went⟩ := resolve_stages fresh once hresolve
    obtain ⟨b, hcheck, h⟩ := bind_eq_ok.1 h
    obtain ⟨cs, hcs, hall⟩ :=
      (check_eq_ok went.done.pruned.held (.refl a) went.placed.block).1 hcheck
    exact ⟨a, b, p₁, L, cs, went, hcs, hall, (pure_eq_ok.1 h).symm⟩
  · cases h

/-- What resolution reports is true of the resolved program. -/
theorem Resolution.warrants {config : QueueConfig} (went : Resolution source p (Queue.ofConfig config) p₁ L a)
    (hd : d ∈ a.queue.diagnostics) : a.program.Warrants source d := by
  rcases went.told.said d hd with hbefore | htype | hcycle
  · obtain ⟨rfl, hmain⟩ := determineMain_told config p source d hbefore
    have hframe := went.frame
    refine .noMain fun f r hr => ?_
    obtain ⟨r₀, hr₀, hf⟩ := Program.exists_function_congr hframe.symm (Table.get_eq_ok.1 hr)
    have hname : r₀.name = r.name := (congrArg Function.name hf :)
    rw [← hname]
    exact Program.findMain_eq_none.1 hmain f r₀ (Table.get_eq_ok.2 hr₀)
  · exact htype.warrants went.named.usedOnce went.told
  · obtain ⟨v, e, x, r, hv, hx, hr, hzero, rfl⟩ := went.cycleError hcycle
    exact .cyclicInitializer hv hx ((went.ranked.initOrder.cyclic v _ r hv hr).1 hzero)

namespace Program

/-- **No diagnostic is without cause.** Whatever has been built with one
place for each expression, when it compiles every diagnostic is true of
the program that comes out, and stands where its span starts. -/
theorem compile_justified {steps : List Step} {written : String}
    (built : Program.build steps = .ok (p, written)) (once : p.UsedOnce) (config : QueueConfig)
    (source : String) {c : Compilation} (h : p.compile config source = .ok c) :
    ∀ d ∈ c.diagnostics, ∃ d₀, c.program.Warrants source d₀ ∧
      d = d₀.locate (LineTable.ofText source) source := by
  obtain ⟨a, b, p₁, L, cs, went, hcs, hall, rfl⟩ := compile_eq_ok (build_fresh built) once h
  intro d hd
  obtain ⟨d₀, hd₀, rfl⟩ := List.mem_map.1 hd
  refine ⟨d₀, (annotated_of_reportAll hall).warrants went.done.pruned.held ?_, rfl⟩
  rcases mem_of_reportAll hall hd₀ with hbefore | ⟨c, hc, rfl⟩
  · exact went.warrants hbefore
  · exact ((mem_complaints went.done.pruned.held (went.done.pruned.usedOnce went.named.usedOnce)
      hcs).1 hc).warrants

/-- One program with an error of every pass, each of them true. -/
theorem compile_justified_passes :
    Succeeds (Program.build
        [.identifier "nope", .output ⟨0⟩, .identifier "gone", .call ⟨1⟩ [], .evaluate ⟨2⟩,
          .identifier "int", .string "x", .variable "n" (some ⟨3⟩) (some ⟨4⟩),
          .integer 1, .openBody (.ifThen ⟨5⟩), .close, .enumType "Color" ["Red"],
          .identifier "Color", .field ⟨6⟩ "Blue", .evaluate ⟨7⟩,
          .identifier "a", .variable "a" none (some ⟨8⟩)])
      fun (p, source) => p.UsedOnce ∧ Succeeds (p.compile {} source) fun c =>
        (∀ d ∈ c.diagnostics, ∃ d₀, c.program.Warrants source d₀ ∧
          d = d₀.locate (LineTable.ofText source) source) ∧
        c.diagnostics.map (·.code) = [.noMain, .cyclicInitializer, .unknownEnumValue, .unknownName,
          .unknownFunction, .typeMismatch, .notABoolean] := by
  have facts : Succeeds (Program.build
        [.identifier "nope", .output ⟨0⟩, .identifier "gone", .call ⟨1⟩ [], .evaluate ⟨2⟩,
          .identifier "int", .string "x", .variable "n" (some ⟨3⟩) (some ⟨4⟩),
          .integer 1, .openBody (.ifThen ⟨5⟩), .close, .enumType "Color" ["Red"],
          .identifier "Color", .field ⟨6⟩ "Blue", .evaluate ⟨7⟩,
          .identifier "a", .variable "a" none (some ⟨8⟩)])
      fun (p, source) => p.UsedOnce ∧ Succeeds (p.compile {} source) fun c =>
        c.diagnostics.map (·.code) = [.noMain, .cyclicInitializer, .unknownEnumValue, .unknownName,
          .unknownFunction, .typeMismatch, .notABoolean] := by
    decide +kernel
  obtain ⟨⟨p, source⟩, built, once, c, h, hcodes⟩ := facts
  exact ⟨(p, source), built, once, c, h, compile_justified built once {} source h, hcodes⟩

end Program

end FrontEnd
