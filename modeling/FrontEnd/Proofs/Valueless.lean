import FrontEnd.Proofs.Arithmetic
import FrontEnd.Proofs.CleanCompile
import FrontEnd.Proofs.EnumSlices
import FrontEnd.Proofs.Typing
/-!
# FrontEnd — values without a type

Nothing has a type that is a range, the name of a type or selected from
what is no enum type, and no pass takes exception to it as a value. So a
program may compile without a diagnostic and still have variables whose
types are errors: those that are declared without a type, and with a
value that comes to nothing else (`Program.Valueless`). There are no
others (`compile_valid`).
-/

namespace FrontEnd

open Analysis

/-- A node of the kind has no type by itself. -/
def ExprKind.isUntyped : ExprKind → Bool
  | .invalid | .range _ _ | .typeName _ | .field _ _ => true
  | _ => false

/-- The statement declares no variable without both a type and an
initializer. -/
def StmtKind.isComplete : StmtKind → Bool
  | .variable _ none none => false
  | _ => true

namespace Program

/-- Every variable is declared with a type or an initializer, and every
parameter with a type. -/
def Complete (p : Program) : Prop :=
  (∀ stmt ∈ p.stmts.toList, stmt.kind.isComplete = true) ∧
    ∀ r ∈ p.parameters.toList, r.typeExpr.isSome = true

instance (p : Program) : Decidable p.Complete := inferInstanceAs (Decidable (_ ∧ _))

/-- The value has no type for what it is made of: a node without a type,
an operation on such a value, or a variable that is declared without a
type and with such a value. -/
inductive Valueless (p : Program) : ExprId → Prop
  | node {e : ExprId} {x : Expr} (hx : p.exprs.get? e = some x) (hk : x.kind.isUntyped = true) :
      Valueless p e
  | unary {e operand : ExprId} {x : Expr} {op : UnaryOp} (hx : p.exprs.get? e = some x)
      (hk : x.kind = .unary op operand) (hop : op ≠ .not) (h : Valueless p operand) : Valueless p e
  | left {e lhs rhs : ExprId} {x : Expr} {op : BinaryOp} (hx : p.exprs.get? e = some x)
      (hk : x.kind = .binary op lhs rhs) (hop : op.isBoolean = false) (h : Valueless p lhs) :
      Valueless p e
  | right {e lhs rhs : ExprId} {x : Expr} {op : BinaryOp} (hx : p.exprs.get? e = some x)
      (hk : x.kind = .binary op lhs rhs) (hop : op.isBoolean = false) (h : Valueless p rhs) :
      Valueless p e
  | reference {e init : ExprId} {x : Expr} {v : VariableId} {s : StmtId}
      (hx : p.exprs.get? e = some x) (hk : x.kind = .variable v) (hv : p.Infers s v (some init))
      (h : Valueless p init) : Valueless p e

/-- The type of the variable is invalid exactly if it is declared without
one, and with a value that has none. -/
def Explained (p : Program) (v : VariableId) : Prop :=
  ∃ r, p.vars.get? v = some r ∧
    (r.type.isInvalid = true ↔ ∃ s init, p.Infers s v (some init) ∧ p.Valueless init)

/-- There is nothing to be said about the program, and all that a value
names but variables has a type. -/
structure Flawless (p : Program) : Prop where
  held : p.OperandsHeld
  once : p.UsedOnce
  objection : ∀ c, ¬ p.Objection c
  values : ∀ e x v, p.exprs.get? e = some x → x.kind = .enumValue v → ∃ t, p.enumTypeOf v = some t
  results : ∀ f r, p.functions.get f = .ok r → r.returnType.isInvalid = false
  parameters : ∀ i r, p.parameters.get i = .ok r → r.type.isInvalid = false

variable {p : Program} {e : ExprId} {x : Expr} {type : Ty} {s : StmtId} {v : VariableId}

theorem valueless_iff (hx : p.exprs.get? e = some x) : p.Valueless e ↔
    x.kind.isUntyped = true ∨
    (∃ op operand, x.kind = .unary op operand ∧ op ≠ .not ∧ p.Valueless operand) ∨
    (∃ op lhs rhs, x.kind = .binary op lhs rhs ∧ op.isBoolean = false ∧
      (p.Valueless lhs ∨ p.Valueless rhs)) ∨
    ∃ v s init, x.kind = .variable v ∧ p.Infers s v (some init) ∧ p.Valueless init := by
  constructor
  · intro h
    cases h with
    | node hx' hk => exact .inl (Option.some.inj (hx.symm.trans hx') ▸ hk)
    | unary hx' hk hop h =>
      exact .inr (.inl ⟨_, _, Option.some.inj (hx.symm.trans hx') ▸ hk, hop, h⟩)
    | left hx' hk hop h =>
      exact .inr (.inr (.inl ⟨_, _, _, Option.some.inj (hx.symm.trans hx') ▸ hk, hop, .inl h⟩))
    | right hx' hk hop h =>
      exact .inr (.inr (.inl ⟨_, _, _, Option.some.inj (hx.symm.trans hx') ▸ hk, hop, .inr h⟩))
    | reference hx' hk hv h =>
      exact .inr (.inr (.inr ⟨_, _, _, Option.some.inj (hx.symm.trans hx') ▸ hk, hv, h⟩))
  · rintro (hk | ⟨op, operand, hk, hop, h⟩ | ⟨op, lhs, rhs, hk, hop, h | h⟩ | ⟨v, s, init, hk, hv, h⟩)
    · exact .node hx hk
    · exact .unary hx hk hop h
    · exact .left hx hk hop h
    · exact .right hx hk hop h
    · exact .reference hx hk hv h

/-! ## Values -/

namespace Flawless

variable (flawless : p.Flawless)

include flawless

/-- Every name among the values means something. -/
theorem not_identifier (he : p.InValue e) (hn : ¬ p.IsCallee e) (hx : p.exprs.get? e = some x) :
    x.kind ≠ .identifier := by
  intro hk
  obtain ⟨s, hs, r, hr, hu⟩ := he
  exact flawless.objection _ ⟨s, hs, .inl ⟨r, hr, e, hu, .name hx hk hn⟩⟩

/-- All that is called is a function. -/
theorem called {callee : ExprId} {arguments : IdRange .argument} (he : p.InValue e)
    (hx : p.exprs.get? e = some x) (hk : x.kind = .call callee arguments) :
    ∃ y f, p.exprs.get? callee = some y ∧ y.kind = .function f := by
  have hcallee : p.IsCallee callee := ⟨e, x, arguments, he, hx, hk⟩
  have hmem : callee ∈ p.operandsAt e := by
    have hes := flawless.held.operands_eq hx
    rw [hk] at hes
    obtain ⟨l, -, hl⟩ := bind_eq_ok.1 hes
    exact pure_eq_ok.1 hl ▸ List.mem_cons_self
  obtain ⟨y, hy⟩ := Table.exists_get?_of_lt
    (Nat.lt_trans (flawless.held.older e callee hmem) (Table.lt_size_of_get? hx))
  obtain ⟨s, hs, r, hr, hu⟩ := he.operand hmem
  have quiet : ∀ c, ¬ p.NodeObjection callee c := fun c hobj =>
    flawless.objection c ⟨s, hs, .inl ⟨r, hr, callee, hu, hobj⟩⟩
  by_contra hnot
  have hf : ∀ f, y.kind ≠ .function f := fun f hf => hnot ⟨y, f, hy, hf⟩
  by_cases hi : y.kind = .identifier
  · exact quiet _ (.function hy hi hcallee)
  · exact quiet _ (.callee hy hf hi hcallee)

/-- What is known of a value is known of its operands, unless it is a
call. -/
theorem below (hx : p.exprs.get? e = some x)
    (hk : ∀ callee arguments, x.kind ≠ .call callee arguments) (he : p.InValue e)
    (explained : ∀ w, p.Mentions e (.variable w) → p.Explained w) :
    ∀ c ∈ p.operandsAt e, p.InValue c ∧ ¬ p.IsCallee c ∧
      ∀ w, p.Mentions c (.variable w) → p.Explained w := fun _ hc =>
  ⟨he.operand hc, not_isCallee_of_operand flawless.held flawless.once hx hk hc,
    fun w hm => explained w (hm.of_operand hc)⟩

/-- **A value has no valid type exactly if it is made of what has none.** -/
theorem typeOf_isInvalid (he : p.InValue e) (hn : ¬ p.IsCallee e)
    (explained : ∀ w, p.Mentions e (.variable w) → p.Explained w) (h : p.typeOf e = .ok type) :
    type.isInvalid = true ↔ p.Valueless e := by
  have typing := typing_of_typeOfWithin h
  clear h
  induction typing with
  | @own e x type hx htype =>
    rw [valueless_iff hx]
    cases hk : x.kind with
    | identifier => exact absurd hk (flawless.not_identifier he hn hx)
    | unary op operand =>
      obtain ⟨hop, rfl⟩ : op = .not ∧ Ty.bool = type := by
        simpa [hk, ExprKind.ownType?] using htype
      simp [ExprKind.isUntyped, Ty.isInvalid, hop]
    | binary op lhs rhs =>
      obtain ⟨hop, rfl⟩ : op.isBoolean = true ∧ Ty.bool = type := by
        simpa [hk, ExprKind.ownType?] using htype
      simp [ExprKind.isUntyped, Ty.isInvalid, hop]
    | «variable» _ | parameter _ | function _ | enumValue _ | call _ _ =>
      rw [hk] at htype
      cases htype
    | _ =>
      rw [hk] at htype
      cases htype
      simp [ExprKind.isUntyped, Ty.isInvalid]
  | @enumValue e x v hx hk =>
    obtain ⟨t, ht⟩ := flawless.values e x v hx hk
    simp [valueless_iff hx, hk, ht, ExprKind.isUntyped, Ty.isInvalid]
  | @«variable» e x v r hx hk hr =>
    obtain ⟨r', hr', hiff⟩ := explained v ⟨e, x, .refl, hx, by rw [hk]; rfl⟩
    obtain rfl := Option.some.inj (hr.symm.trans hr')
    rw [hiff, valueless_iff hx]
    simp [hk, ExprKind.isUntyped]
  | parameter hx hk hr =>
    simp [valueless_iff hx, hk, ExprKind.isUntyped, flawless.parameters _ _ (Table.get_eq_ok.2 hr)]
  | function hx hk hr =>
    simp [valueless_iff hx, hk, ExprKind.isUntyped, flawless.results _ _ (Table.get_eq_ok.2 hr)]
  | call hx hk hy hf hr =>
    simp [valueless_iff hx, hk, ExprKind.isUntyped, flawless.results _ _ (Table.get_eq_ok.2 hr)]
  | noCall hx hk hy hf =>
    obtain ⟨y, f, hy', hf'⟩ := flawless.called he hx hk
    obtain rfl := Option.some.inj (hy.symm.trans hy')
    exact absurd hf' (hf f)
  | @unary e operand x op type hx hk hop h ih =>
    have hops := operandsAt_unary hx hk
    obtain ⟨hc, hcallee, hexplained⟩ :=
      flawless.below hx (by simp [hk]) he explained operand (by simp [hops])
    refine (ih hc hcallee hexplained).trans ?_
    rw [valueless_iff hx]
    simp [hk, ExprKind.isUntyped, hop]
  | @binary e lhs rhs x op left right hx hk hop hl hr ihl ihr =>
    have hops := operandsAt_binary hx hk
    obtain ⟨hcl, hcalleel, hexplainedl⟩ :=
      flawless.below hx (by simp [hk]) he explained lhs (by simp [hops])
    obtain ⟨hcr, hcalleer, hexplainedr⟩ :=
      flawless.below hx (by simp [hk]) he explained rhs (by simp [hops])
    refine Ty.arithmetic_isInvalid.trans
      ((or_congr (ihl hcl hcalleel hexplainedl) (ihr hcr hcalleer hexplainedr)).trans ?_)
    rw [valueless_iff hx]
    simp [hk, ExprKind.isUntyped, hop]

end Flawless

/-! ## Enum values -/

/-- Where the values of enum types follow each other, each has its type. -/
theorem KindValid.enumTypeOf {v : EnumValueId} (valid : p.KindValid (.enumValue v))
    (declarations : p.checkDeclarations = .ok ()) : ∃ t, p.enumTypeOf v = some t := by
  obtain ⟨t, r, hr, hv⟩ := valid
  exact ⟨t, enumTypeOf_eq declarations ⟨r, Table.get_eq_ok.2 hr, hv⟩⟩

end Program

/-! ## Resolved programs -/

variable {source : String} {p p₁ : Program} {a : Analysis} {L : List StmtId} {queue : Queue}
variable {config : QueueConfig} {c : Compilation} {s : StmtId} {v : VariableId} {init : Option ExprId}

theorem Program.Infers.of_frame (h : a.program.Infers s v init) (hframe : a.program.frame = p.frame) :
    p.Infers s v init := by
  obtain ⟨span, hs⟩ := h
  exact Program.exists_variable_congr hframe.symm hs

theorem Program.Infers.owned (h : p.Infers s v init) : .variable v ∈ p.owned s := by
  obtain ⟨span, hs⟩ := h
  simp [Program.owned_variable hs]

/-- A variable has one initializer at most. -/
theorem Program.Infers.unique {s' : StmtId} {init' : Option ExprId} (h : p.Infers s v init)
    (h' : p.Infers s' v init') (regular : p.Regular) : init = init' := by
  obtain rfl := regular.owners _ _ _ h.owned h'.owned
  obtain ⟨span, hs⟩ := h
  obtain ⟨span', hs'⟩ := h'
  rw [hs] at hs'
  cases hs'
  rfl

theorem Program.Infers.exists_valueless_iff {e : ExprId} (h : p.Infers s v (some e))
    (regular : p.Regular) :
    (∃ s init, p.Infers s v (some init) ∧ p.Valueless init) ↔ p.Valueless e := by
  refine ⟨?_, fun hnone => ⟨s, e, h, hnone⟩⟩
  rintro ⟨s', init, h', hnone⟩
  cases h.unique h' regular
  exact hnone

/-- What is declared without a type has an initializer. -/
theorem Program.Complete.infers (complete : p.Complete) (h : p.Infers s v init) :
    ∃ e, init = some e := by
  obtain ⟨span, hs⟩ := h
  have hkind := complete.1 _ (Table.mem_toList.2 ⟨s, hs⟩)
  cases init with
  | none => cases hkind
  | some e => exact ⟨e, rfl⟩

namespace Resolution

variable (went : Resolution source p queue p₁ L a)

include went

/-- Where nothing is reported, no initializer reads its way into a
cycle. -/
theorem not_unordered (clean : a.Clean) : ¬ a.program.Unordered s := by
  intro hs
  obtain ⟨-, v, type, init, span, -, hstmt, -⟩ := id hs
  obtain ⟨span₀, hstmt₀⟩ := variable_of_pruned went.done.pruned (Table.get_eq_ok.1 hstmt)
  have cyclic := went.done.globals.cyclic s (went.done.unordered_iff.1 hs)
  cases init with
  | some e =>
    obtain ⟨x, -, hquiet⟩ := cyclic.quiet e (by rw [globalOf_eq hstmt₀])
    exact clean.not_quiet hquiet
  | none =>
    have hreads := cyclic.reads
    simp only [Global.Reads, globalOf_eq hstmt₀] at hreads
    cases hreads

variable (fresh : p.Fresh) (given : ∀ s, (∀ v init, ¬ a.program.Infers s v init) →
  ∀ t ∈ a.program.owned s, a.program.HasType t)

include given

omit went in
/-- Functions and parameters have their types. -/
theorem signature_hasType {t : Target} (ht : t ∈ a.program.owned s)
    (hsignature : (∃ f, t = .function f) ∨ ∃ i, t = .parameter i) : a.program.HasType t := by
  refine given s (fun v init h => ?_) t ht
  obtain ⟨span, hs⟩ := h
  obtain ⟨g, span', hs', -⟩ := Program.function_of_owned ht hsignature
  rw [hs] at hs'
  cases hs'

include fresh

/-- When there is nothing to complain about. -/
theorem flawless (nil : a.program.complaints = .ok []) : a.program.Flawless where
  held := went.done.pruned.held
  once := went.done.pruned.usedOnce went.named.usedOnce
  objection c h := by
    have hmem := (Program.mem_complaints went.done.pruned.held
      (went.done.pruned.usedOnce went.named.usedOnce) nil).2 h
    cases hmem
  values e x v hx hk := by
    have valid := went.kindsValid fresh e x hx
    rw [hk] at valid
    obtain ⟨-, hdeclarations, -⟩ := Program.validate_eq_ok.1 went.valid
    refine valid.enumTypeOf ?_
    rw [← Program.checkDeclarations_frame, went.frame, Program.checkDeclarations_frame]
    exact hdeclarations
  results f r hr := by
    obtain ⟨s, hs⟩ := went.function_owned fresh (Table.lt_size_of_get? (Table.get_eq_ok.1 hr))
    obtain ⟨type, htype, hvalid⟩ := signature_hasType given hs (.inl ⟨f, rfl⟩)
    simp only [Program.typeAt, hr] at htype
    cases htype
    exact hvalid
  parameters i r hr := by
    obtain ⟨s, hs⟩ := went.parameter_owned fresh (Table.lt_size_of_get? (Table.get_eq_ok.1 hr))
    obtain ⟨type, htype, hvalid⟩ := signature_hasType given hs (.inr ⟨i, rfl⟩)
    simp only [Program.typeAt, hr] at htype
    cases htype
    exact hvalid

/-- **Why a variable has no valid type**, by what its initializer reads. -/
theorem explained (complete : ∀ s v, ¬ a.program.Infers s v none) (clean : a.Clean) (flawless : a.program.Flawless)
    (hv : .variable v ∈ a.program.owned s) : a.program.Explained v := by
  have regular := went.named.regular.congr went.done.pruned.frame went.done.pruned.held
  refine went.variable_induction (fun s v hv ih => ?_) hv
  by_cases hinfers : ∀ w init, ¬ a.program.Infers s w init
  · obtain ⟨type, htype, hvalid⟩ := given s hinfers _ hv
    obtain ⟨r, hr, rfl⟩ := Program.typeAt_variable htype
    refine ⟨r, Table.get_eq_ok.1 hr, iff_of_false (by simp [hvalid]) ?_⟩
    rintro ⟨s', init, h, -⟩
    obtain rfl := regular.owners _ _ _ h.owned hv
    exact hinfers v _ h
  · simp only [not_forall, not_not] at hinfers
    obtain ⟨w, init, h⟩ := hinfers
    obtain ⟨span, hs⟩ := id h
    obtain rfl : v = w := by simpa [Program.owned_variable hs] using hv
    obtain ⟨e, rfl⟩ := Option.ne_none_iff_exists'.1 fun hnone => complete s v (hnone ▸ h)
    have hstmt := Table.get_eq_ok.2 hs
    have ordered : ¬ a.program.Unordered s := went.not_unordered clean
    have solved := went.solved fresh
    obtain ⟨r, hr, htypeOf⟩ := solved.inferred_typeOf hstmt ordered
    have hvalue : e ∈ a.program.valuesAt s := by
      rw [Program.valuesAt_eq hs]
      simp [StmtKind.values]
    have hslot := Program.mem_slotsAt_iff.2 (.inl hvalue)
    have hcallee := flawless.once.not_isCallee_of_slot flawless.held hslot
    refine ⟨r, Table.get_eq_ok.1 hr, Iff.trans ?_ (h.exists_valueless_iff regular).symm⟩
    exact flawless.typeOf_isInvalid (regular.inValue_of_mem hvalue .refl) hcallee
      (fun w hm => ih ordered none e span w hs hm) htypeOf

end Resolution

/-- **Which types may be invalid when nothing is reported.** If all
variables have a type or an initializer and all parameters a type, only
variables that are declared without a type can have an invalid one. Where
every expression is used once, they have it if their value is made of
what has no type, and only then. -/
theorem Program.compile_valid {steps : List Step} {written : String}
    (built : Program.build steps = .ok (p, written)) (complete : p.Complete)
    (h : p.compile config source = .ok c) (nil : c.diagnostics = []) :
    (∀ s ∈ c.program.reachable, (∀ v init, ¬ c.program.Infers s v init) →
        ∀ t ∈ c.program.owned s, c.program.HasType t) ∧
      (p.UsedOnce → ∀ s ∈ c.program.reachable, ∀ v init, c.program.Infers s v init →
        ∃ e type, init = some e ∧ c.program.typeAt (.variable v) = .ok type ∧
          (type.isInvalid = true ↔ c.program.Valueless e)) := by
  have fresh := Program.build_fresh built
  have parameters : ∀ i r, p.parameters.get? i = some r → r.typeExpr ≠ none := fun i r hr hnone => by
    have hsome := complete.2 r (Table.mem_toList.2 ⟨i, hr⟩)
    rw [hnone] at hsome
    cases hsome
  have given := fun s => compile_given (s := s) fresh parameters h nil
  refine ⟨fun s _ infers => given s infers, fun once s _ v init infers => ?_⟩
  obtain ⟨a, hresolve, clean, hcs, hprogram⟩ := compile_clean fresh h nil
  rw [hprogram] at infers given ⊢
  obtain ⟨p₁, L, went⟩ := resolve_stages fresh once hresolve
  have started : ∀ s v, ¬ a.program.Infers s v none := fun s v hi => by
    obtain ⟨e, he⟩ := complete.infers (hi.of_frame went.frame)
    cases he
  obtain ⟨r, hr, hiff⟩ := went.explained fresh given started clean (went.flawless fresh given hcs) infers.owned
  obtain ⟨e, rfl⟩ := Option.ne_none_iff_exists'.1 fun hnone => started s v (hnone ▸ infers)
  have regular := went.named.regular.congr went.done.pruned.frame went.done.pruned.held
  refine ⟨e, r.type, rfl, ?_, hiff.trans (infers.exists_valueless_iff regular)⟩
  simp only [typeAt, Table.get_eq_ok.2 hr]
  rfl

/-- A variable with a type, and one whose value negates a range. -/
theorem Program.compile_valid_range :
    Succeeds (Program.build
        [.integer 1, .integer 2, .range ⟨0⟩ ⟨1⟩, .variable "x" none (some ⟨2⟩),
          .identifier "x", .unary .neg ⟨3⟩, .variable "y" none (some ⟨4⟩),
          .identifier "num", .integer 3, .variable "z" (some ⟨5⟩) (some ⟨6⟩),
          .openFunction "main" [] none, .close])
      fun (p, source) => p.Complete ∧ p.UsedOnce ∧ Succeeds (p.compile {} source) fun c =>
        c.diagnostics = [] ∧ c.program.HasType (.variable ⟨2⟩) ∧ c.program.Valueless ⟨4⟩ := by
  have facts : Succeeds (Program.build
        [.integer 1, .integer 2, .range ⟨0⟩ ⟨1⟩, .variable "x" none (some ⟨2⟩),
          .identifier "x", .unary .neg ⟨3⟩, .variable "y" none (some ⟨4⟩),
          .identifier "num", .integer 3, .variable "z" (some ⟨5⟩) (some ⟨6⟩),
          .openFunction "main" [] none, .close])
      fun (p, source) => p.Complete ∧ p.UsedOnce ∧ Succeeds (p.compile {} source) fun c =>
        c.diagnostics = [] ∧ c.program.reachable = [⟨0⟩, ⟨1⟩, ⟨2⟩, ⟨3⟩] ∧
          (c.program.stmts.get? ⟨1⟩).map (·.kind) = some (.variable ⟨1⟩ none (some ⟨4⟩)) ∧
          (c.program.stmts.get? ⟨2⟩).map (·.kind) = some (.variable ⟨2⟩ (some ⟨5⟩) (some ⟨6⟩)) ∧
          c.program.typeAt (.variable ⟨1⟩) = .ok .error := by
    decide +kernel
  obtain ⟨⟨p, source⟩, built, complete, once, c, h, nil, hreach, hy, hz, herror⟩ := facts
  obtain ⟨typed, inferred⟩ := Program.compile_valid built complete h nil
  refine ⟨(p, source), built, complete, once, c, h, nil, ?_, ?_⟩
  · obtain ⟨⟨kind, span⟩, hs, rfl⟩ := Option.map_eq_some_iff.1 hz
    refine typed ⟨2⟩ (by simp [hreach]) ?_ _ (by simp [owned_variable hs])
    rintro v init ⟨span', hs'⟩
    rw [hs] at hs'
    cases hs'
  · obtain ⟨⟨kind, span⟩, hs, rfl⟩ := Option.map_eq_some_iff.1 hy
    obtain ⟨e, type, he, htype, hiff⟩ := inferred once ⟨1⟩ (by simp [hreach]) ⟨1⟩ _ ⟨span, hs⟩
    cases he
    rw [herror] at htype
    cases htype
    exact hiff.1 rfl

/-- Types that are invalid though nothing is reported: of a variable whose
value is a range, and of one whose initializer is used again where the
variable can be seen. -/
theorem Program.compile_leaves_invalid :
    Succeeds (Program.build
        [.integer 1, .integer 2, .range ⟨0⟩ ⟨1⟩, .variable "x" none (some ⟨2⟩),
          .openFunction "main" [] none, .close])
      (fun (p, source) => p.Complete ∧ p.UsedOnce ∧ Succeeds (p.compile {} source) fun c =>
        c.diagnostics = [] ∧ ⟨0⟩ ∈ c.program.reachable ∧ .variable ⟨0⟩ ∈ c.program.owned ⟨0⟩ ∧
          c.program.typeAt (.variable ⟨0⟩) = .ok .error) ∧
    Succeeds (Program.build
        [.openFunction "main" [] none, .openBody .bare, .identifier "y", .variable "y" none (some ⟨0⟩),
          .output ⟨0⟩, .close, .close])
      fun (p, source) => p.Complete ∧ Succeeds (p.compile {} source) fun c =>
        c.diagnostics = [] ∧ ⟨2⟩ ∈ c.program.reachable ∧ .variable ⟨0⟩ ∈ c.program.owned ⟨2⟩ ∧
          c.program.typeAt (.variable ⟨0⟩) = .ok .unset := by
  decide +kernel

end FrontEnd
