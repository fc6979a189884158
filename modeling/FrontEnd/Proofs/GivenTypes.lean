import FrontEnd.Proofs.FilledIn
import FrontEnd.Proofs.Unset
/-!
# FrontEnd — types that are given

Functions, parameters, variables that are declared with a type and the
iterators of loops do not have their types from values: these are named,
or stand in what is looped over. As long as nothing has been reported,
the type pass gives valid ones to all of them (`resolveTypes_given`).
-/

namespace FrontEnd

open Relation Analysis

namespace Program

/-- The statement declares the variable without a type. -/
def Infers (p : Program) (s : StmtId) (v : VariableId) (init : Option ExprId) : Prop :=
  ∃ span, p.stmts.get? s = some ⟨.variable v none init, span⟩

/-- The declaration has a type, and a valid one. -/
def HasType (p : Program) (t : Target) : Prop :=
  ∃ type, p.typeAt t = .ok type ∧ type.isInvalid = false

/-- If the statement is a loop over something, it can be looped over. -/
def Runs (p : Program) (s : StmtId) : Prop :=
  ∀ v e body span x, p.stmts.get? s = some ⟨.nest (.forEach v e) body, span⟩ →
    p.exprs.get? e = some x → (iteratorType x.kind).isInvalid = false

/-- The program is as building leaves it and its names have been bound,
and every parameter has a type. -/
structure Typable (p : Program) : Prop where
  regular : p.Regular
  names : p.KindsValid
  parameters : ∀ i r, p.parameters.get? i = some r → r.typeExpr ≠ none

end Program

namespace Analysis

/-- If nothing has been reported, and the statement is no loop over what
cannot be looped over, what it declares has a valid type. -/
def Given (a : Analysis) (s : StmtId) (t : Target) : Prop :=
  a.Clean → a.program.Runs s → a.program.HasType t

/-- All that the statement declares has been given its type, unless it is
a variable without one. -/
def GivenAt (a : Analysis) (s : StmtId) : Prop :=
  (∀ v init, ¬ a.program.Infers s v init) → ∀ t ∈ a.program.owned s, a.Given s t

end Analysis

variable {source : String} {p p' : Program} {a₀ a b : Analysis} {s : StmtId} {t t' : Target}
variable {type : Ty} {span : Span} {stmt : Stmt}

/-! ## Edits -/

/-- What is filled in has no operands. -/
theorem Program.FilledIn.held (h : p.FilledIn p') (held : p.OperandsHeld) : p'.OperandsHeld := by
  intro e x' hx'
  obtain ⟨x, hx⟩ := Table.exists_get?_of_lt
    (Program.size_exprs_congr h.frame ▸ Table.lt_size_of_get? hx' : e.raw < p.exprs.size)
  obtain ⟨y, hy, fills⟩ := h.kinds e x hx
  rw [hx'] at hy
  obtain rfl := Option.some.inj hy
  obtain ⟨es, hes, hlt⟩ := held e x hx
  generalize x.kind = kind at fills hes
  generalize x'.kind = kind' at fills ⊢
  cases fills with
  | same =>
    have harguments : p'.arguments = p.arguments := (congrArg Program.arguments h.frame :)
    exact ⟨es, (Program.operands_congr harguments _).trans hes, hlt⟩
  | name reference =>
    refine ⟨[], ?_, by simp⟩
    cases kind' <;> first | rfl | cases reference
  | selected => exact ⟨[], rfl, by simp⟩

theorem Program.Typable.edits (typable : a.program.Typable) (edits : TypeEdits source a b) :
    b.program.Typable where
  regular := typable.regular.congr edits.filledWell.frame
    (edits.filledWell.toFilledIn.held typable.regular.operands)
  names := edits.kindsValid typable.names
  parameters i r hr := by
    obtain ⟨r₀, hr₀, heq⟩ := edits.matured.parameter hr
    rw [heq]
    exact typable.parameters i r₀ hr₀

theorem Analysis.Names.valid (named : a.Names type) (clean : a.Clean) (names : a.program.KindsValid) :
    type.isInvalid = false := by
  obtain ⟨e, x, hx, hk⟩ | hnot := named
  · have hvalid := names e x hx
    rwa [hk] at hvalid
  · exact absurd clean hnot

/-- What can be looped over can neither become nor have been anything
else. -/
theorem Matured.runs_iff (h : Matured a b) : b.program.Runs s ↔ a.program.Runs s := by
  have same : ∀ {x x' : Expr}, x.Matures x' → iteratorType x'.kind = iteratorType x.kind := by
    intro x x' hm
    rcases hm.kind with hk | ⟨hopen, v, hv⟩
    · rw [hk]
    · rw [hv]
      cases hk : x.kind <;> rw [hk] at hopen <;> first | rfl | cases hopen
  constructor
  · intro runs v e body span x hs hx
    obtain ⟨x', hx', hm⟩ := h.exprs e x hx
    exact same hm ▸ runs v e body span x' (h.stmts ▸ hs) hx'
  · intro runs v e body span x' hs hx'
    obtain ⟨x, hx, hm⟩ := h.back hx'
    exact same hm ▸ runs v e body span x (h.stmts ▸ hs) hx

/-- Where the type of one declaration has been written. -/
theorem Changes.hasType (h : Changes (fun _ => False) (· = t') a b)
    (written : t = t' → b.program.HasType t) (before : a.program.HasType t) : b.program.HasType t := by
  by_cases ht : t = t'
  · exact written ht
  · obtain ⟨type, htype, hvalid⟩ := before
    exact ⟨type, (h.typeAt ht).trans htype, hvalid⟩

/-- Where the record of a variable has been written. -/
theorem Changes.update_var_named {v : VariableId} {change : Variable → Variable}
    {vars : Table .variable Variable} (written : a.program.vars.update v change = .ok vars)
    (keeps : ∀ r, (change r).name = r.name) :
    Changes (fun _ => False) (· = .variable v) a { a with program := { a.program with vars } } ∧
      ∃ r, a.program.vars.get? v = some r ∧
        Program.typeAt { a.program with vars } (.variable v) = .ok (change r).type := by
  obtain ⟨changes, r, hr, hr'⟩ := Changes.update_var written fun r => by simp only [Variable.frame, keeps]
  refine ⟨changes, r, hr, ?_⟩
  simp only [Program.typeAt, Table.get_eq_ok.2 hr']
  rfl

/-- Where the result of a function has been written. -/
theorem Changes.update_result {f : FunctionId} {functions : Table .function Function}
    (written : a.program.functions.update f ({ · with returnType := type }) = .ok functions) :
    Changes (fun _ => False) (· = .function f) a { a with program := { a.program with functions } } ∧
      Program.typeAt { a.program with functions } (.function f) = .ok type := by
  refine setTypeAt_done ?_
  simp only [Program.setTypeAt, written]
  rfl

theorem Changes.update_parameter {i : ParameterId} {parameters : Table .parameter Parameter}
    (written : a.program.parameters.update i ({ · with type }) = .ok parameters) :
    Changes (fun _ => False) (· = .parameter i) a { a with program := { a.program with parameters } } ∧
      Program.typeAt { a.program with parameters } (.parameter i) = .ok type := by
  refine setTypeAt_done ?_
  simp only [Program.setTypeAt, written]
  rfl

/-- **What has been given its type keeps a valid one.** -/
theorem Analysis.TypeEdit.given (edit : TypeEdit source a b) (typable : a.program.Typable)
    (ht : t ∈ a.program.owned s) (hs : ∀ v init, ¬ a.program.Infers s v init) (given : a.Given s t) :
    b.Given s t := by
  intro clean runs
  have clean₀ := edit.matured.clean clean
  have runs₀ := edit.matured.runs_iff.1 runs
  have before := given clean₀ runs₀
  have owner : ∀ {s' stmt}, a.program.stmts.get? s' = some stmt → t ∈ a.program.owned s' →
      a.program.stmts.get? s = some stmt := fun hs' ht' =>
    typable.regular.owners _ _ t ht' ht ▸ hs'
  cases edit with
  | value | record => exact before
  | report code made =>
    obtain ⟨-, -, -, -, hsame | ⟨-, hflag, -⟩⟩ := report_eq_ok made
    · exact hsame ▸ before
    · rw [hflag]
      exact before
  | @result f type functions named written =>
    obtain ⟨changes, htype⟩ := Changes.update_result written
    refine changes.hasType (fun hf => ⟨type, hf ▸ htype, ?_⟩) before
    rcases named with rfl | named
    · rfl
    · exact named.valid clean₀ typable.names
  | @parameter i r type parameters hr named written =>
    obtain ⟨changes, htype⟩ := Changes.update_parameter written
    refine changes.hasType (fun hi => ⟨type, hi ▸ htype, ?_⟩) before
    obtain ⟨e, he⟩ := Option.ne_none_iff_exists'.1 (typable.parameters i r hr)
    exact (named e he).valid clean₀ typable.names
  | @declared s' v e init span type change vars hs' named written gives =>
    obtain ⟨changes, r, -, htype⟩ := Changes.update_var_named written fun r => (gives r).2
    refine changes.hasType (fun hv => ⟨_, hv ▸ htype, ?_⟩) before
    rw [(gives r).1]
    exact named.valid clean₀ typable.names
  | @inferred s' v init span change vars hs' written keeps =>
    refine (Changes.update_var_named written keeps).1.hasType (fun hv => ?_) before
    exact absurd ⟨span, owner hs' (by simp [hv, Program.owned_variable hs'])⟩ (hs v init)
  | @iterator s' v e body span x vars hs' hx written =>
    obtain ⟨changes, r, -, htype⟩ := Changes.update_var_named written fun _ => rfl
    refine changes.hasType (fun hv => ⟨_, hv ▸ htype, ?_⟩) before
    exact runs₀ v e body span x (owner hs' (by simp [hv, Program.owned_iterator hs'])) hx
  | @order v n vars written =>
    obtain ⟨changes, r, hr, htype⟩ := Changes.update_var_named written fun _ => rfl
    refine changes.hasType (fun hv => ?_) before
    subst hv
    obtain ⟨type, hsame, hvalid⟩ := before
    simp only [Program.typeAt, Table.get_eq_ok.2 hr] at hsame
    cases hsame
    exact ⟨_, htype, hvalid⟩

theorem Analysis.Given.edits (given : a.Given s t) (typable : a.program.Typable)
    (ht : t ∈ a.program.owned s) (hs : ∀ v init, ¬ a.program.Infers s v init)
    (edits : TypeEdits source a b) : b.Given s t := by
  induction edits with
  | refl => exact given
  | @tail c d edits edit ih =>
    have h : TypeEdits source a c := edits
    refine edit.given (typable.edits h) (Program.owned_congr h.filledWell.frame ▸ ht)
      (fun v init hi => hs v init ?_) ih
    rwa [Program.Infers, h.matured.stmts] at hi

theorem Analysis.GivenAt.edits (given : a.GivenAt s) (typable : a.program.Typable)
    (edits : TypeEdits source a b) : b.GivenAt s := by
  intro hs t ht
  have hs₀ : ∀ v init, ¬ a.program.Infers s v init := fun v init h => by
    rw [Program.Infers, ← edits.matured.stmts] at h
    exact hs v init h
  rw [Program.owned_congr edits.filledWell.frame] at ht
  exact (given hs₀ t ht).edits typable ht hs₀ edits

/-! ## Declarations -/

/-- What every step of a run comes to, if the later steps keep it. -/
theorem Analysis.TypeEdits.each {α : Type} {f : Analysis → α → Except Fault Analysis} {xs : List α}
    {Q : α → Analysis → Prop}
    (step : ∀ x ∈ xs, ∀ b, TypeEdits source a b → Keeps (fun c => TypeEdits source b c ∧ Q x c) (f b x))
    (keep : ∀ x ∈ xs, ∀ b c, TypeEdits source a b → TypeEdits source b c → Q x b → Q x c) :
    Keeps (fun b => TypeEdits source a b ∧ ∀ x ∈ xs, Q x b) (xs.foldlM f a) := by
  induction xs generalizing a with
  | nil => exact .pure ⟨.refl, by simp⟩
  | cons x xs ih =>
    rw [List.foldlM_cons]
    refine (step x List.mem_cons_self a .refl).bind fun b ⟨h, hx⟩ => Keeps.mono (ih
      (fun y hy c h' => step y (List.mem_cons_of_mem _ hy) c (h.trans h'))
      (fun y hy c d h' => keep y (List.mem_cons_of_mem _ hy) c d (h.trans h'))) fun c ⟨h', hxs⟩ => ?_
    exact ⟨h.trans h', List.forall_mem_cons.2 ⟨keep x List.mem_cons_self b c h h' hx, hxs⟩⟩

section

variable (typable : a.program.Typable)

include typable

theorem typeParameter_given (s : StmtId) (i : ParameterId) :
    Keeps (·.Given s (.parameter i)) (a.typeParameter i) := by
  refine .read fun r hr => (TypeEdits.typeNamed? (.refl : TypeEdits "" a a) _).bind
    fun ⟨found, b⟩ ⟨h, hfound⟩ => .read fun parameters written => .pure fun clean _ => ?_
  obtain ⟨-, htype⟩ := Changes.update_parameter written
  refine ⟨_, htype, ?_⟩
  obtain ⟨hnone, -⟩ | ⟨e, type, -, rfl, named⟩ := hfound
  · exact absurd hnone (typable.parameters i r (Table.get_eq_ok.1 hr))
  · exact named.valid ⟨clean.diagnostics, clean.unflagged⟩ (typable.edits h).names

theorem typeParameters_given (infers : ∀ v init, ¬ a.program.Infers s v init)
    (l : List (ParameterId × Parameter)) :
    Keeps (fun b => TypeEdits "" a b ∧
      ∀ x ∈ l, .parameter x.1 ∈ a.program.owned s → b.Given s (.parameter x.1))
      (l.foldlM (fun a (i, _) => a.typeParameter i) a) := by
  refine TypeEdits.each (fun x _ b hb c hc => ⟨TypeEdits.typeParameter b x.1 c hc, fun _ =>
    typeParameter_given (typable.edits hb) s x.1 c hc⟩) fun x _ b c hb hbc hx ht => ?_
  refine (hx ht).edits (typable.edits hb) (Program.owned_congr hb.filledWell.frame ▸ ht)
    (fun v init hi => infers v init ?_) hbc
  rwa [Program.Infers, hb.matured.stmts] at hi

/-- A function is given its result and all its parameters. -/
theorem typeSignature_given {f : FunctionId} (hs : a.program.stmts.get? s = some ⟨.function f, span⟩) :
    Keeps (·.GivenAt s) (a.typeSignature f) := by
  obtain ⟨r, params, hr, hparams, -, -, howned⟩ :=
    Program.function_eqs hs (typable.regular.declarations s _ hs)
  refine .read fun r' hr' => (TypeEdits.typeNamed? (.refl : TypeEdits "" a a) _).bind
    fun ⟨found, b⟩ ⟨h, hfound⟩ => .read fun functions written => .read fun l hl => ?_
  rw [Table.get_eq_ok, hr] at hr'
  obtain rfl := Option.some.inj hr'
  have result : found.getD .none = .none ∨ b.Names (found.getD .none) := by
    obtain ⟨-, rfl⟩ | ⟨-, type, -, rfl, named⟩ := hfound
    · exact .inl rfl
    · exact .inr named
  have edits : TypeEdits "" a _ := h.tail (.result result written)
  have given : Analysis.Given ⟨{ b.program with functions }, b.queue⟩ s (.function f) := by
    rintro clean -
    obtain ⟨-, htype⟩ := Changes.update_result written
    refine ⟨_, htype, ?_⟩
    rcases result with hnone | named
    · rw [hnone]
      rfl
    · exact named.valid ⟨clean.diagnostics, clean.unflagged⟩ (typable.edits h).names
  have hframe := edits.filledWell.frame
  have infers : ∀ v init, ¬ b.program.Infers s v init := by
    rintro v init ⟨span', hs'⟩
    rw [h.matured.stmts, hs] at hs'
    cases hs'
  refine (typeParameters_given (typable.edits edits) infers l).mono fun c ⟨hc, hgiven⟩ _ t ht => ?_
  rw [Program.owned_congr hc.filledWell.frame] at ht
  have hmem := ht
  rw [Program.owned_congr hframe, howned, List.mem_cons, List.mem_map] at hmem
  obtain rfl | ⟨⟨i, x⟩, hx, rfl⟩ := hmem
  · exact given.edits (typable.edits edits) ht infers hc
  · obtain ⟨y, hy⟩ := Program.exists_mem_slice hl (Program.mem_slice hparams hx).2
    exact hgiven (i, y) hy ht

/-- Functions are given their types where their block is entered. -/
theorem typeSignatures_given (ss : List StmtId) :
    Keeps (fun b => TypeEdits source a b ∧
      ∀ s ∈ ss, a.program.declaresFunction s = true → b.GivenAt s) (a.typeSignatures ss) := by
  refine TypeEdits.each (fun s _ b hb => .read fun stmt hs => ?_) fun s _ b c hb hbc hs hf =>
    (hs hf).edits (typable.edits hb) hbc
  rw [Table.get_eq_ok] at hs
  split
  · next f hk =>
    obtain ⟨kind, span⟩ := stmt
    obtain rfl : kind = .function f := hk
    exact fun c hc => ⟨TypeEdits.typeSignature .refl f c hc, fun _ =>
      typeSignature_given (typable.edits hb) hs c hc⟩
  · next hk =>
    refine .pure ⟨.refl, fun hf => ?_⟩
    rw [hb.matured.stmts] at hs
    simp only [Program.declaresFunction, hs] at hf
    split at hf
    · next heq =>
      cases heq
      exact absurd rfl (hk _)
    · cases hf

end

/-- A variable that is declared with a type is given it. -/
theorem givenAt_of_declared {v : VariableId} {typeExpr init : Option ExprId} {found : Option Ty}
    {change : Variable → Variable} {vars : Table .variable Variable} (names : a.program.KindsValid)
    (hs : a.program.stmts.get? s = some ⟨.variable v typeExpr init, span⟩)
    (hfound : (typeExpr = none ∧ found = none) ∨
      ∃ e type, typeExpr = some e ∧ found = some type ∧ a.Names type)
    (written : a.program.vars.update v change = .ok vars)
    (gives : ∀ r, (change r).name = r.name ∧ ∀ type, found = some type → (change r).type = type) :
    Analysis.GivenAt { a with program := { a.program with vars } } s := by
  intro infers t ht clean _
  have howned : Program.owned { a.program with vars } s = [.variable v] := Program.owned_variable hs
  obtain rfl := List.mem_singleton.1 (howned ▸ ht)
  obtain ⟨-, r, -, htype⟩ := Changes.update_var_named written fun r => (gives r).1
  refine ⟨_, htype, ?_⟩
  obtain ⟨rfl, -⟩ | ⟨e, type, -, rfl, named⟩ := hfound
  · exact absurd ⟨span, hs⟩ (infers v init)
  · rw [(gives r).2 type rfl]
    exact named.valid ⟨clean.diagnostics, clean.unflagged⟩ names

section

variable (typable : a.program.Typable)

include typable

theorem declareGlobal_given (s : StmtId) :
    Keeps (fun r => a.program.declaresVariable s = true → r.2.GivenAt s) (a.declareGlobal s) := by
  refine .read fun stmt hs => ?_
  rw [Table.get_eq_ok] at hs
  obtain ⟨kind, span⟩ := stmt
  split
  · next v typeExpr init hk =>
    obtain rfl : kind = .variable v typeExpr init := hk
    refine (TypeEdits.typeNamed? (.refl : TypeEdits "" a a) typeExpr).bind fun ⟨found, b⟩ ⟨h, hfound⟩ =>
      .read fun vars written => .pure fun _ => ?_
    refine givenAt_of_declared (typable.edits h).names (h.matured.stmts ▸ hs) hfound written
      fun r => ⟨rfl, ?_⟩
    rintro type rfl
    rfl
  · next hk =>
    refine .pure fun hv => ?_
    simp only [Program.declaresVariable, hs] at hv
    split at hv
    · next heq =>
      cases heq
      exact absurd rfl (hk _ _ _)
    · cases hv

omit typable in
theorem declareGlobals_given (ss : List StmtId) (typable : a.program.Typable) :
    Keeps (fun r => ∀ s ∈ ss, a.program.declaresVariable s = true → r.2.GivenAt s)
      (a.declareGlobals ss) := by
  induction ss generalizing a with
  | nil => exact .pure (by simp)
  | cons s ss ih =>
    refine ((@TypeEdits.declareGlobal "" a s).and (declareGlobal_given typable s)).bind fun ⟨g, b⟩ ⟨⟨h, _⟩, hs⟩ => ?_
    have typable' := typable.edits h
    have hstmts : b.program.stmts = a.program.stmts := h.matured.stmts
    refine ((@TypeEdits.declareGlobals "" b ss).and (ih typable')).bind fun ⟨G, c⟩ ⟨⟨h', _⟩, hss⟩ => .pure ?_
    refine List.forall_mem_cons.2 ⟨fun hv => (hs hv).edits typable' h', fun s' hs' hv => ?_⟩
    refine hss s' hs' ?_
    simpa only [Program.declaresVariable, hstmts] using hv

/-- The variables of the top level are given their types ahead of all
other statements. -/
theorem typeGlobals_given (ss : List StmtId) :
    Keeps (fun b => ∀ s ∈ ss, a.program.declaresVariable s = true → b.GivenAt s)
      (typeGlobals source a ss) := by
  refine ((@TypeEdits.declareGlobals source a ss).and (declareGlobals_given ss typable)).bind
    fun r ⟨⟨h, declares⟩, given⟩ => ?_
  exact (TypeEdits.settleGlobals declares).mono fun b h' s hs hv =>
    (given s hs hv).edits (typable.edits h) h'

/-! ## Statements -/

/-- Where a block is entered, its functions are given their types, and at
the top level its variables. -/
theorem enterBlock_given (topLevel : Bool) (block : Block) (outline : Outline) :
    Keeps (fun b => TypeEdits source a b ∧ ∀ ss, outline.direct = .ok ss → ∀ s ∈ ss,
      a.program.declaresFunction s = true ∨ topLevel = true ∧ a.program.declaresVariable s = true →
        b.GivenAt s) (enterBlock source topLevel block outline a) := by
  refine fun b hb => ⟨(TypeEdits.enterBlock (.refl : TypeEdits source a a) topLevel block outline).ends b hb,
    fun ss hss => ?_⟩
  unfold Analysis.enterBlock at hb
  split at hb
  · cases hb
  rw [hss] at hb
  obtain ⟨ss', hss', hb⟩ := bind_eq_ok.1 hb
  obtain rfl := Except.ok.inj (lift_eq_ok.1 hss')
  obtain ⟨c, hc, hb⟩ := bind_eq_ok.1 hb
  obtain ⟨h, functions⟩ := @typeSignatures_given source a typable ss c (lift_eq_ok.1 hc)
  have typable' := typable.edits h
  cases topLevel with
  | false =>
    cases pure_eq_ok.1 hb
    rintro s hs (hf | ⟨htop, -⟩)
    · exact functions s hs hf
    · cases htop
  | true =>
    have hb := lift_eq_ok.1 hb
    have h' := TypeEdits.typeGlobals c ss b hb
    rintro s hs (hf | ⟨-, hv⟩)
    · exact (functions s hs hf).edits typable' h'
    · refine typeGlobals_given typable' ss b hb s hs ?_
      simpa only [Program.declaresVariable, h.matured.stmts] using hv

omit typable in
/-- What is neither a function nor a variable is given no type. -/
theorem givenAt_of_untyped {kind : StmtKind} (hs : a.program.stmts.get? s = some ⟨kind, span⟩)
    (hf : ∀ f, kind ≠ .function f) (hv : ∀ v type init, kind ≠ .variable v type init)
    (hn : ∀ v e body, kind ≠ .nest (.forEach v e) body) : a.GivenAt s := by
  rintro - t ht - -
  cases t with
  | «variable» v =>
    obtain ⟨type, init, span', h⟩ | ⟨e, body, span', h⟩ := Program.variable_of_owned ht
    · rw [hs] at h
      cases h
      exact absurd rfl (hv v type init)
    · rw [hs] at h
      cases h
      exact absurd rfl (hn v e body)
  | function f =>
    obtain ⟨g, span', h, -⟩ := Program.function_of_owned ht
    rw [hs] at h
    cases h
    exact absurd rfl (hf g)
  | parameter i =>
    obtain ⟨g, span', h, -⟩ := Program.function_of_owned ht
    rw [hs] at h
    cases h
    exact absurd rfl (hf g)
  | enumType _ | structType _ => exact ⟨.none, rfl, rfl⟩

/-- A statement without a body is no function. -/
theorem typeLeaf_given (hs : a.program.bodyOf s = .ok none) :
    Keeps (·.GivenAt s) (typeLeaf source a s) := by
  obtain ⟨⟨kind, span⟩, hstmt, hbody⟩ := bind_eq_ok.1 hs
  rw [Table.get_eq_ok] at hstmt
  cases kind with
  | «variable» v typeExpr init =>
    refine .read fun stmt hstmt' => ?_
    rw [Table.get_eq_ok, hstmt] at hstmt'
    cases hstmt'
    refine (@TypeEdits.typeNamed? source a a .refl typeExpr).bind fun ⟨found, b⟩ ⟨h, hfound⟩ =>
      (@TypeEdits.typeExpr? source b b .refl found init).bind fun ⟨inferred, c⟩ h' =>
        .read fun p hp => .pure ?_
    obtain ⟨vars, written, hp⟩ := bind_eq_ok.1 hp
    cases pure_eq_ok.1 hp
    have both : TypeEdits source a c := h.trans h'
    refine givenAt_of_declared (typable.edits both).names (both.matured.stmts ▸ hstmt)
      (hfound.imp_right ?_) written fun r => ⟨rfl, ?_⟩
    · rintro ⟨e, type, he, htype, named⟩
      exact ⟨e, type, he, htype, TypeEdits.matured h' |>.names named⟩
    · rintro type rfl
      rfl
  | function f =>
    have hf := Program.not_declaresFunction hs
    simp only [Program.declaresFunction, hstmt] at hf
    cases hf
  | nest head body => cases hbody
  | _ =>
    refine fun b hb => ?_
    have h := TypeEdits.typeLeaf a s b hb
    exact givenAt_of_untyped (h.matured.stmts ▸ hstmt) (by simp) (by simp) (by simp)

omit typable in
/-- A loop gives its iterator its type. -/
theorem typeHead_given {head : Head VariableId} {body : Block}
    (hs : a.program.stmts.get? s = some ⟨.nest head body, span⟩) :
    Keeps (·.GivenAt s) (typeHead source a s) := by
  cases head with
  | forEach v e =>
    refine .read fun stmt hs' => ?_
    rw [Table.get_eq_ok, hs] at hs'
    cases hs'
    refine (@TypeEdits.typeExpr source a a .refl none e).bind fun ⟨_, b⟩ h => .read fun x hx =>
      .read fun p hp => .pure fun _ t ht clean runs => ?_
    obtain ⟨vars, written, hp⟩ := bind_eq_ok.1 hp
    cases pure_eq_ok.1 hp
    have hs := h.matured.stmts ▸ hs
    have howned : Program.owned { b.program with vars } s = [.variable v] := Program.owned_iterator hs
    obtain rfl := List.mem_singleton.1 (howned ▸ ht)
    obtain ⟨-, r, -, htype⟩ := Changes.update_var_named written fun _ => rfl
    exact ⟨_, htype, runs v e body span x hs (Table.get_eq_ok.1 hx)⟩
  | _ =>
    refine fun b hb => ?_
    have h := TypeEdits.typeHead a s b hb
    exact givenAt_of_untyped (h.matured.stmts ▸ hs) (by simp) (by simp) (by simp)

end

theorem Analysis.isGlobal_eq_ok {settled : Bool} (h : a.isGlobal s = .ok settled) :
    settled = a.program.declaresVariable s := by
  obtain ⟨⟨kind, span⟩, hs, h⟩ := bind_eq_ok.1 h
  simp only [Program.declaresVariable, Table.get_eq_ok.1 hs]
  cases kind <;> exact (pure_eq_ok.1 h).symm

/-- **The walk over an outline gives all that is declared in it a type**,
if that has been done for what is typed on entering its block. -/
theorem typeOutline_given {i j : Nat} {o : Outline} {topLevel : Bool} (typable : a₀.program.Typable)
    (lays : Lays a₀.program i j o) (edits : TypeEdits source a₀ a)
    (entered : ∀ ss, o.direct = .ok ss → ∀ s ∈ ss, a₀.program.declaresFunction s = true ∨
      topLevel = true ∧ a₀.program.declaresVariable s = true → a.GivenAt s) :
    Keeps (fun b => TypeEdits source a b ∧ ∀ k, i ≤ k → k < j → b.GivenAt ⟨k⟩)
      (typeOutline source topLevel o a) := by
  induction lays generalizing topLevel a with
  | done i => exact .pure ⟨.refl, fun k hik hki => absurd hik (Nat.not_le.2 hki)⟩
  | @leaf i j rest single tail ih =>
    have hstmts : a.program.stmts = a₀.program.stmts := edits.matured.stmts
    obtain ⟨ids, hids, -⟩ := tail.direct_held
    obtain ⟨hfirst, hrest⟩ := List.forall_mem_cons.1
      (entered (⟨i⟩ :: ids) (by simp only [Outline.direct, hids, ok_bind]; rfl))
    have typable' := typable.edits edits
    have next : ∀ b, TypeEdits source a b → b.GivenAt ⟨i⟩ → Keeps
        (fun c => TypeEdits source a c ∧ ∀ k, i ≤ k → k < j → c.GivenAt ⟨k⟩)
        (typeOutline source topLevel rest b) := by
      intro b h hgiven
      refine (ih (edits.trans h) fun ss hss s hs hk => ?_).mono fun c hc => ?_
      · rw [hids] at hss
        exact (hrest s (Except.ok.inj hss ▸ hs) hk).edits typable' h
      · refine ⟨h.trans hc.1, fun k hik hkj => ?_⟩
        rcases Nat.eq_or_lt_of_le hik with rfl | hlt
        · exact hgiven.edits (typable'.edits h) hc.1
        · exact hc.2 k hlt hkj
    refine .read fun settled hsettled => ?_
    dsimp only
    split
    · next hset =>
      obtain ⟨htop, rfl⟩ := Bool.and_eq_true_iff.1 hset
      have hv := Analysis.isGlobal_eq_ok (lift_eq_ok.1 hsettled)
      simp only [Program.declaresVariable, hstmts] at hv
      exact next a .refl (hfirst (.inr ⟨htop, hv.symm⟩))
    · have hbody : a.program.bodyOf ⟨i⟩ = .ok none := Program.bodyOf_none_congr edits.filledWell.frame single
      exact (Keeps.lift ((TypeEdits.typeLeaf a ⟨i⟩).and (typeLeaf_given typable' hbody))).bind
        fun b hb => next b hb.1 hb.2
  | @nested i k j block body rest owns place inner tail ihInner ihTail =>
    have hstmts : a.program.stmts = a₀.program.stmts := edits.matured.stmts
    obtain ⟨ids, hids, -⟩ := tail.direct_held
    obtain ⟨hfirst, hrest⟩ := List.forall_mem_cons.1
      (entered (⟨i⟩ :: ids) (by simp only [Outline.direct, hids, ok_bind]; rfl))
    have typable' := typable.edits edits
    have head : Keeps (fun b => TypeEdits source a b ∧ b.GivenAt ⟨i⟩) (typeHead source a ⟨i⟩) := by
      rcases Program.bodyOf_eq_some.1 owns with ⟨f, span, r, hs, -, -⟩ | ⟨head, span, hs⟩
      · -- a function has been given its type on entering the block
        have hf : a₀.program.declaresFunction ⟨i⟩ = true := by
          simp only [Program.declaresFunction, hs]
        exact (TypeEdits.typeHead a ⟨i⟩).mono fun b h => ⟨h, (hfirst (.inl hf)).edits typable' h⟩
      · exact (TypeEdits.typeHead a ⟨i⟩).and (typeHead_given (hstmts ▸ hs))
    refine (Keeps.lift head).bind fun b hhead => .read fun block _ => ?_
    obtain ⟨h, hgiven⟩ := hhead
    have hb : TypeEdits source a₀ b := edits.trans h
    have typableb := typable.edits hb
    refine (enterBlock_given typableb false _ body).bind fun c hc => ?_
    obtain ⟨h', hentered⟩ := hc
    refine (ihInner (hb.trans h') fun ss hss s hs hk => hentered ss hss s hs (.inl ?_)).bind
      fun d hd => ?_
    · simpa only [Program.declaresFunction, hb.matured.stmts, Bool.false_eq_true, false_and,
        or_false] using hk
    obtain ⟨hd, hbody⟩ := hd
    have hcd : TypeEdits source b d := h'.trans hd
    refine (ihTail (hb.trans hcd) fun ss hss s hs hk => ?_).mono fun e he => ?_
    · rw [hids] at hss
      exact (hrest s (Except.ok.inj hss ▸ hs) hk).edits typable' (h.trans hcd)
    · obtain ⟨he, htail⟩ := he
      refine ⟨h.trans (hcd.trans he), fun m him hmj => ?_⟩
      rcases Nat.eq_or_lt_of_le him with rfl | hlt
      · exact hgiven.edits typableb (hcd.trans he)
      · by_cases hmk : m < k
        · exact (hbody m hlt hmk).edits (typable.edits (hb.trans hcd)) he
        · exact htail m (Nat.le_of_not_lt hmk) hmj

/-- **The type pass gives a type to all that is declared.** -/
theorem resolveTypes_given (typable : a.program.Typable) :
    Keeps (fun b => TypeEdits source a b ∧ ∀ s, s.raw < b.program.stmts.size → b.GivenAt s)
      (a.resolveTypes source) := by
  obtain ⟨o, lays⟩ := typable.regular.layout
  have ho := Program.outline_of_lays lays typable.regular.whole
  refine (enterBlock_given typable true _ _).bind fun b ⟨h, hentered⟩ => ?_
  rw [ho] at hentered ⊢
  refine (typeOutline_given typable lays h fun ss hss s hs hk => hentered ss hss s hs ?_).mono
    fun c ⟨hc, hall⟩ => ⟨h.trans hc, fun s hs => hall s.raw (Nat.zero_le _) ?_⟩
  · simpa only [true_and] using hk
  · have both : TypeEdits source a c := h.trans hc
    rwa [both.matured.stmts] at hs

end FrontEnd
