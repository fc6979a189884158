import FrontEnd.Proofs.Answers
import FrontEnd.Proofs.CheckSafety
import FrontEnd.Proofs.NameSafety
import Mathlib.Data.Finset.Card
/-!
# FrontEnd — validation as a gate

A program whose layout is good is sound, if its expressions do not nest
in a circle and the types it starts with are its own
(`sound_of_validate`); then no pass faults (`resolve_check_succeeds`),
and any other layout is refused up front (`refused_or_analysed`). Of the
ids that are stored in a program, those inside of types are the only
ones that `validate` does not look at, and where one of them is not held
a pass may fault (`resolve_faults_of_strange_type`).
-/

namespace FrontEnd

/-- The type that an expression of the kind stands for. -/
def ExprKind.type? : ExprKind → Option Ty
  | .typeName t => some t
  | _ => none

namespace Program

variable {p : Program} {source : String} {queue : Queue} {e c : ExprId}

/-- No expression lies below itself. -/
def Acyclic (p : Program) : Prop :=
  ∀ e, ¬ Relation.TransGen (fun e c => c ∈ p.operandsAt e) e e

/-- Every type that the passes may read off the program. -/
def types (p : Program) : List Ty :=
  p.exprs.toList.filterMap (·.kind.type?) ++ p.vars.toList.map (·.type) ++
    p.parameters.toList.map (·.type) ++ p.functions.toList.map (·.returnType)

/-- Every enum type that is mentioned is one of the program. -/
def TypesHeld (p : Program) : Prop := ∀ t ∈ p.types, p.TypeHeld t

instance (p : Program) : Decidable p.TypesHeld :=
  inferInstanceAs (Decidable (∀ t ∈ p.types, p.TypeHeld t))

theorem TypesHeld.of_expr (h : p.TypesHeld) {x : Expr} {t : Ty} (hx : p.exprs.get? e = some x)
    (ht : x.kind = .typeName t) : p.TypeHeld t := by
  refine h t (List.mem_append_left _ (List.mem_append_left _ (List.mem_append_left _ ?_)))
  exact List.mem_filterMap.2 ⟨x, Table.mem_toList.2 ⟨e, hx⟩, by rw [ht]; rfl⟩

theorem TypesHeld.of_var (h : p.TypesHeld) {v : VariableId} {r : Variable}
    (hr : p.vars.get? v = some r) : p.TypeHeld r.type := by
  refine h _ (List.mem_append_left _ (List.mem_append_left _ (List.mem_append_right _ ?_)))
  exact List.mem_map_of_mem (Table.mem_toList.2 ⟨v, hr⟩)

theorem TypesHeld.of_parameter (h : p.TypesHeld) {i : ParameterId} {r : Parameter}
    (hr : p.parameters.get? i = some r) : p.TypeHeld r.type := by
  refine h _ (List.mem_append_left _ (List.mem_append_right _ ?_))
  exact List.mem_map_of_mem (Table.mem_toList.2 ⟨i, hr⟩)

theorem TypesHeld.of_function (h : p.TypesHeld) {f : FunctionId} {r : Function}
    (hr : p.functions.get? f = some r) : p.TypeHeld r.returnType :=
  h _ (List.mem_append_right _ (List.mem_map_of_mem (Table.mem_toList.2 ⟨f, hr⟩)))

/-! ## How deep expressions nest -/

open Classical in
/-- The number of expressions that lie below one. -/
noncomputable def nesting (p : Program) (e : ExprId) : Nat :=
  {i ∈ Finset.range p.exprs.size |
    Relation.TransGen (fun e c => c ∈ p.operandsAt e) e ⟨i⟩}.card

open Classical in
theorem nesting_lt_exprDepth (e : ExprId) : p.nesting e < p.exprDepth := by
  have := Finset.card_filter_le (Finset.range p.exprs.size)
    fun i => Relation.TransGen (fun e c => c ∈ p.operandsAt e) e ⟨i⟩
  rw [Finset.card_range] at this
  exact Nat.lt_succ_of_le this

open Classical in
/-- Operands have less below them, where nothing lies below itself. -/
theorem nesting_lt (acyclic : p.Acyclic) (hc : c ∈ p.operandsAt e) (held : c.raw < p.exprs.size) :
    p.nesting c < p.nesting e := by
  refine Finset.card_lt_card ⟨fun i hi => ?_, fun hsub => ?_⟩
  · rw [Finset.mem_filter] at hi ⊢
    exact ⟨hi.1, .head hc hi.2⟩
  · have hmem := hsub (Finset.mem_filter.2 ⟨Finset.mem_range.2 held, .single hc⟩)
    exact acyclic c (Finset.mem_filter.1 hmem).2

/-- Where operands lie at a lower height than what is made of them,
nothing lies below itself. -/
theorem acyclic_of_height (height : ExprId → Nat)
    (h : ∀ e ∈ p.exprIds, ∀ c ∈ p.operandsAt e, height c < height e) : p.Acyclic := by
  have hlt : ∀ {e c}, Relation.TransGen (fun e c => c ∈ p.operandsAt e) e c →
      height c < height e := by
    intro e c hec
    induction hec with
    | single hc => exact h _ (mem_exprIds.2 (lt_size_of_mem_operandsAt hc)) _ hc
    | tail _ hc ih => exact Nat.lt_trans (h _ (mem_exprIds.2 (lt_size_of_mem_operandsAt hc)) _ hc) ih
  exact fun e he => Nat.lt_irrefl _ (hlt he)

/-! ## Validated programs are sound -/

theorem grounded_of_validate (valid : p.validate = .ok ()) : p.Grounded p.nesting := by
  obtain ⟨-, hdeclarations, hstmts, -, -⟩ := validate_eq_ok.1 valid
  obtain ⟨functions, parameters, -⟩ := checkDeclarations_eq_ok.1 hdeclarations
  have stmts : ∀ s stmt, p.stmts.get? s = some stmt →
      p.DeclarationHeld stmt.kind ∧ ∀ e ∈ stmt.kind.exprs, e.raw < p.exprs.size := fun s stmt hs =>
    (checkStmtKind_eq_ok functions).1 (forM_eq_ok.1 hstmts stmt (Table.mem_toList.2 ⟨s, hs⟩))
  exact
    { depth_lt := fun e _ => nesting_lt_exprDepth e
      declarations := fun s stmt hs => (stmts s stmt hs).1
      slots := slotsHeld_of_declarations functions parameters stmts
      values := values_of_checkDeclarations hdeclarations }

theorem sound_of_validate (acyclic : p.Acyclic) (types : p.TypesHeld)
    (valid : p.validate = .ok ()) : Sound p p.nesting (fun _ => False) p where
  frame := rfl
  block := rfl
  fits e x hx :=
    { held := (validate_eq_ok.1 valid).1 e x hx
      type := fun t ht => types.of_expr hx ht
      below := fun es hes c hc => by
        obtain ⟨es', hes', hheld⟩ := operands_of_checkExprKind ((validate_eq_ok.1 valid).1 e x hx)
        obtain rfl : es' = es := Except.ok.inj (hes'.symm.trans hes)
        refine nesting_lt acyclic ?_ (hheld c hc)
        rwa [operandsAt_of_get (Table.get_eq_ok.2 hx) hes] }
  vars _ _ hr := types.of_var hr
  parameters _ _ hr := types.of_parameter hr
  functions _ _ hr := types.of_function hr
  bodies _ hs := hs.elim

/-- A scope of the top level is held. -/
theorem tables_of_checkBlocks (h : p.checkBlocks = .ok ()) : 0 < p.symbolTables.size := by
  unfold checkBlocks at h
  split at h
  · cases h
  · obtain ⟨hscope, -⟩ := check_bind_eq_ok.1 h
    exact Nat.lt_of_le_of_lt (Nat.zero_le _) (Table.checkId_eq_ok.1 hscope)

/-! ## The passes -/

/-- **No pass faults on a program whose layout is good**, whatever the
source reads and whatever has been reported before, as long as its
expressions do not nest in a circle and its types are its own. -/
theorem resolve_check_succeeds (acyclic : p.Acyclic) (types : p.TypesHeld)
    (valid : p.validate = .ok ()) (queue : Queue) (source : String) :
    Succeeds (Analysis.resolve ⟨p, queue⟩ source) fun a => Succeeds a.check fun _ => True := by
  have hblocks := (validate_eq_ok.1 valid).2.2.2.1
  have hpos := tables_of_checkBlocks hblocks
  obtain ⟨outline, lays, houtline⟩ := exists_lays hblocks
  obtain ⟨main, searched, hprogram, -⟩ := determineMain_eq ⟨p, queue⟩ source
  -- the program after the search for `main`, and after name resolution
  generalize ha₁ : Analysis.determineMain ⟨p, queue⟩ source = a₁ at hprogram
  have hframe₁ : a₁.program.frame = p.frame := by
    rw [hprogram]
    rfl
  have ground₁ := (grounded_of_validate valid).congr hframe₁
  have sound₁ := (sound_of_validate acyclic types valid).start hframe₁ (by rw [hprogram])
    (by rw [hprogram]) (by rw [hprogram]) (by rw [hprogram])
  have lays₁ : Lays a₁.program p.block.statements.start p.block.statements.stop
      (a₁.program.outline a₁.program.block) := by
    rw [outline_congr hframe₁, houtline]
    exact lays.congr fun _ _ _ => bodyPlace_congr hframe₁
  obtain ⟨p₂, hbind, hframe₂, hscope, sound₂⟩ :=
    bindNames_succeeds source ground₁ sound₁ lays₁ (by rw [hprogram]; exact hpos)
  have lays₂ : Lays p₂ p.block.statements.start p.block.statements.stop (p₂.outline p₂.block) := by
    rw [outline_congr hframe₂]
    exact lays₁.congr fun _ _ _ => bodyPlace_congr hframe₂
  have ground₂ := ground₁.congr hframe₂
  obtain ⟨a₃, htypes, sound₃⟩ := Analysis.resolveTypes_succeeds (a := ⟨p₂, a₁.queue⟩) source ground₂
    sound₂ lays₂ (fun k hik hkj => ⟨hik, hkj⟩) hscope
  refine ⟨a₃, resolve_eq_ok.2 ⟨valid, p₂, ?_, ?_⟩, ?_⟩
  · rw [ha₁]
    exact hbind
  · rw [ha₁]
    exact htypes
  · exact (Analysis.check_succeeds ground₂ sound₃ lays₂ hscope).mono fun _ _ => trivial

/-- **Validation is a gate.** A program is refused up front with what is
wrong in its layout, before anything is done to it; or resolving and
checking it succeeds, whatever the source reads and whatever has been
reported before. Of the ids in it, only those inside of types have to be
held beforehand. -/
theorem refused_or_analysed (acyclic : p.Acyclic) (types : p.TypesHeld) (queue : Queue)
    (source : String) :
    (∃ e, p.validate = .error (.error e) ∧
      Analysis.resolve ⟨p, queue⟩ source = .error (.error ⟨.layout e, ⟨p, queue⟩⟩)) ∨
    (p.validate = .ok () ∧ ∃ a b, Analysis.resolve ⟨p, queue⟩ source = .ok a ∧ a.check = .ok b) := by
  rcases p.validate_answers.cases with ⟨⟨⟩, valid⟩ | ⟨e, refused⟩
  · obtain ⟨a, ha, b, hb, -⟩ := resolve_check_succeeds acyclic types valid queue source
    exact .inr ⟨valid, a, b, ha, hb⟩
  · refine .inl ⟨e, refused, ?_⟩
    simp only [Analysis.resolve, refused]
    rfl

/-- A sum whose operands come behind it and are one expression, in a
body, after the variable that it reads: analysed, and as no builder
would have made it. -/
theorem refused_or_analysed_shared :
    let p : Program :=
      { exprs := ⟨#[⟨.binary .add ⟨1⟩ ⟨1⟩, ⟨0, 1⟩, .unset, false⟩,
          ⟨.identifier, ⟨0, 1⟩, .unset, false⟩]⟩
        vars := ⟨#[{ name := ⟨0, 1⟩ }]⟩
        stmts := ⟨#[⟨.variable ⟨0⟩ none none, ⟨0, 1⟩⟩,
          ⟨.nest .bare ⟨⟨2, 1⟩, .sentinel⟩, ⟨0, 1⟩⟩, ⟨.output ⟨0⟩, ⟨0, 1⟩⟩]⟩
        block := ⟨⟨0, 3⟩, .sentinel⟩ }
    p.Acyclic ∧ p.TypesHeld ∧
      ∃ a b, (Analysis.start {} p).resolve "x" = .ok a ∧ a.check = .ok b := by
  intro p
  have acyclic : p.Acyclic := acyclic_of_height (fun e => 1 - e.raw) (by decide)
  have types : p.TypesHeld := by decide
  refine ⟨acyclic, types, ?_⟩
  rcases refused_or_analysed acyclic types (.ofConfig {}) "x" with ⟨e, refused, -⟩ | ⟨-, done⟩
  · have valid : p.validate = .ok () := by decide
    rw [valid] at refused
    cases refused
  · exact done

/-- An expression that stands for an enum type the program does not have
passes validation, and resolving the field of it faults. -/
theorem resolve_faults_of_strange_type :
    let p : Program :=
      { exprs := ⟨#[⟨.typeName (.enum ⟨0⟩), ⟨0, 0⟩, .unset, false⟩,
          ⟨.field ⟨0⟩ ⟨0, 0⟩, ⟨0, 0⟩, .unset, false⟩]⟩
        stmts := ⟨#[⟨.evaluate ⟨1⟩, ⟨0, 0⟩⟩]⟩
        block := ⟨⟨0, 1⟩, .sentinel⟩ }
    p.Acyclic ∧ p.validate = .ok () ∧
      (Analysis.start {} p).resolve "" = .error (.fault .outOfRange) := by
  intro p
  refine ⟨acyclic_of_height RecordId.raw (by decide), by decide, ?_⟩
  rfl

end Program

end FrontEnd
