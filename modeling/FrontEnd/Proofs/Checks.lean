import FrontEnd.Proofs.LayoutAgain
/-!
# FrontEnd — what the checks of ids say

Each check of the layout looks at the ids in one kind of record. Here is
what it says when it succeeds: that operands are held
(`operands_of_checkExprKind`, `checkExprKind_of_operands`), what a statement declares and the
expressions in it (`checkStmtKind_eq_ok`), signatures and the values of
enum types (`checkDeclarations_eq_ok`).
-/

namespace FrontEnd

namespace Table

variable {k : RecordKind} {α : Type} {t : Table k α}

theorem checkRange_eq_ok {r : IdRange k} :
    t.checkRange r = .ok () ↔ r.isEmpty ∨ r.stop ≤ t.size := by
  unfold checkRange
  split
  · next h => simp [h]
  · next h =>
    rw [checkId_eq_ok]
    simp only [IdRange.isEmpty, beq_iff_eq] at h
    simp only [h, IdRange.isEmpty, beq_iff_eq, false_or, IdRange.stop]
    omega

/-- A range that has been read is empty, or held. -/
theorem held_of_slice {r : IdRange k} {l : List (RecordId k × α)} (h : t.slice r = .ok l) :
    r.isEmpty ∨ r.stop ≤ t.size := by
  unfold slice at h
  split at h
  · next hr => exact .inl hr
  · split at h
    · next hr => exact .inr hr
    · cases h

end Table

/-- A check of what may be missing succeeds if there is nothing, or what
there is passes it. -/
theorem forM_option_eq_ok {ε α : Type} {f : α → Except ε Unit} {o : Option α} :
    o.forM f = .ok () ↔ ∀ x, o = some x → f x = .ok () := by
  cases o with
  | none => simp [Option.forM, pure, Except.pure]
  | some x => simp [Option.forM]

namespace Program

variable {p : Program}

/-- The operands of a checked expression can be listed, and are held. -/
theorem operands_of_checkExprKind {kind : ExprKind} (h : p.checkExprKind kind = .ok ()) :
    Succeeds (p.operands kind) fun es => ∀ c ∈ es, c.raw < p.exprs.size := by
  cases kind with
  | call callee arguments =>
    simp only [checkExprKind, check_bind_eq_ok, Table.checkId_eq_ok] at h
    obtain ⟨hcallee, -, h⟩ := h
    obtain ⟨l, hl, hall⟩ := bind_eq_ok.1 h
    rw [lift_eq_ok] at hl
    refine .of_eq (by simp only [operands, hl, ok_bind]; rfl) ?_
    refine List.forall_mem_cons.2 ⟨hcallee, fun c hc => ?_⟩
    obtain ⟨x, hx, rfl⟩ := List.mem_map.1 hc
    exact Table.checkId_eq_ok.1 (forM_eq_ok.1 hall x hx)
  | field subject name => exact .pure (by simpa using Table.checkId_eq_ok.1 h)
  | range first last =>
    simp only [checkExprKind, check_bind_eq_ok, Table.checkId_eq_ok] at h
    exact .pure (by simpa using h)
  | unary op operand => exact .pure (by simpa using Table.checkId_eq_ok.1 h)
  | binary op lhs rhs =>
    simp only [checkExprKind, check_bind_eq_ok, Table.checkId_eq_ok] at h
    exact .pure (by simpa using h)
  | _ => exact .pure (by simp)

/-- An expression that names no referent is good if its operands can be
listed and are held. -/
theorem checkExprKind_of_operands {kind : ExprKind} {es : List ExprId}
    (hkind : kind.isReference = false) (hes : p.operands kind = .ok es)
    (held : ∀ c ∈ es, c.raw < p.exprs.size) : p.checkExprKind kind = .ok () := by
  cases kind with
  | enumValue v | «variable» v | function f | parameter i | typeName t => cases hkind
  | call callee arguments =>
    obtain ⟨l, hl, hes⟩ := bind_eq_ok.1 hes
    obtain rfl := pure_eq_ok.1 hes
    obtain ⟨hcallee, harguments⟩ := List.forall_mem_cons.1 held
    simp only [checkExprKind, check_bind_eq_ok, Table.checkId_eq_ok, Table.checkRange_eq_ok]
    refine ⟨hcallee, Table.held_of_slice hl, ?_⟩
    rw [hl]
    exact forM_eq_ok.2 fun x hx => Table.checkId_eq_ok.2 (harguments x.2 (List.mem_map_of_mem hx))
  | field subject name | unary op operand =>
    obtain rfl := pure_eq_ok.1 hes
    exact Table.checkId_eq_ok.2 (held _ List.mem_cons_self)
  | range first last | binary op first last =>
    obtain rfl := pure_eq_ok.1 hes
    obtain ⟨hfirst, hlast⟩ := List.forall_mem_cons.1 held
    exact check_bind_eq_ok.2
      ⟨Table.checkId_eq_ok.2 hfirst, Table.checkId_eq_ok.2 (hlast _ List.mem_cons_self)⟩
  | _ => rfl

/-! ## Declarations -/

/-- The return type and the parameters that a function names are held. -/
def FunctionHeld (p : Program) (r : Function) : Prop :=
  (∀ e, r.returnTypeExpr = some e → e.raw < p.exprs.size) ∧
    (r.parameters.isEmpty ∨ r.parameters.stop ≤ p.parameters.size)

theorem checkFunction_eq_ok {r : Function} : p.checkFunction r = .ok () ↔ p.FunctionHeld r := by
  simp only [checkFunction, check_bind_eq_ok, forM_option_eq_ok, Table.checkId_eq_ok,
    Table.checkRange_eq_ok, FunctionHeld]

/-- The values of the first type start where they are to, and the others
follow from where they stop. -/
theorem checkEnumTypes_cons {r : EnumType} {rest : List EnumType} {start index stop : Nat} :
    checkEnumTypes start index (r :: rest) = .ok stop ↔
      r.values.start = start ∧ checkEnumTypes r.values.stop (index + 1) rest = .ok stop := by
  rw [checkEnumTypes]
  split
  · next hstart => simp [hstart]
  · next hstart => simp [hstart]

/-- Where values follow each other, none is past the last. -/
theorem stop_le_of_checkEnumTypes {types : List EnumType} {start index stop : Nat}
    (h : checkEnumTypes start index types = .ok stop) :
    start ≤ stop ∧ ∀ r ∈ types, r.values.stop ≤ stop := by
  induction types generalizing start index with
  | nil =>
    cases h
    simp
  | cons r rest ih =>
    obtain ⟨hstart, hrest⟩ := checkEnumTypes_cons.1 h
    obtain ⟨hle, hall⟩ := ih hrest
    refine ⟨?_, List.forall_mem_cons.2 ⟨hle, hall⟩⟩
    simp only [IdRange.stop] at hle
    omega

/-- **What the check of the declarations says.** -/
theorem checkDeclarations_eq_ok : p.checkDeclarations = .ok () ↔
    (∀ f r, p.functions.get? f = some r → p.FunctionHeld r) ∧
      (∀ i r, p.parameters.get? i = some r → ∀ e, r.typeExpr = some e → e.raw < p.exprs.size) ∧
        ∃ stop, checkEnumTypes 0 0 p.enumTypes.toList = .ok stop ∧ stop ≤ p.enumValues.size := by
  have hfunctions : p.functions.toList.forM p.checkFunction = .ok () ↔
      ∀ f r, p.functions.get? f = some r → p.FunctionHeld r := by
    simp only [forM_eq_ok, Table.mem_toList, checkFunction_eq_ok]
    exact ⟨fun h f r hr => h r ⟨f, hr⟩, fun h r ⟨f, hr⟩ => h f r hr⟩
  have hparameters : (p.parameters.toList.forM fun r => r.typeExpr.forM p.exprs.checkId) = .ok () ↔
      ∀ i r, p.parameters.get? i = some r → ∀ e, r.typeExpr = some e → e.raw < p.exprs.size := by
    simp only [forM_eq_ok, Table.mem_toList, forM_option_eq_ok, Table.checkId_eq_ok]
    exact ⟨fun h i r hr => h r ⟨i, hr⟩, fun h r ⟨i, hr⟩ => h i r hr⟩
  have hrange : ∀ stop, p.enumValues.checkRange ⟨0, stop⟩ = .ok () ↔ stop ≤ p.enumValues.size := by
    intro stop
    rw [Table.checkRange_eq_ok]
    simp only [IdRange.isEmpty, IdRange.stop, beq_iff_eq]
    omega
  simp only [checkDeclarations, check_bind_eq_ok, bind_eq_ok (f := fun stop => p.enumValues.checkRange _),
    hfunctions, hparameters, hrange]

/-- The values of every enum type are held. -/
theorem values_of_checkDeclarations (h : p.checkDeclarations = .ok ()) (u : EnumTypeId)
    (r : EnumType) (hr : p.enumTypes.get? u = some r) :
    r.values.isEmpty ∨ r.values.stop ≤ p.enumValues.size := by
  obtain ⟨-, -, stop, hstop, hle⟩ := checkDeclarations_eq_ok.1 h
  exact .inr (Nat.le_trans ((stop_le_of_checkEnumTypes hstop).2 r (Table.mem_toList.2 ⟨u, hr⟩)) hle)

/-! ## Statements -/

/-- **What the check of a statement says**, where signatures are good. -/
theorem checkStmtKind_eq_ok {kind : StmtKind}
    (functions : ∀ f r, p.functions.get? f = some r → p.FunctionHeld r) :
    p.checkStmtKind kind = .ok () ↔
      p.DeclarationHeld kind ∧ ∀ e ∈ kind.exprs, e.raw < p.exprs.size := by
  cases kind with
  | function f =>
    simp only [checkStmtKind, Table.checkId_eq_ok, DeclarationHeld, StmtKind.exprs]
    constructor
    · intro hf
      obtain ⟨r, hr⟩ := Table.exists_get?_of_lt hf
      exact ⟨⟨r, hr, (functions f r hr).2⟩, by simp⟩
    · rintro ⟨⟨r, hr, -⟩, -⟩
      exact Table.lt_size_of_get? hr
  | «variable» v type init =>
    simp only [checkStmtKind, check_bind_eq_ok, forM_option_eq_ok, Table.checkId_eq_ok,
      DeclarationHeld, StmtKind.exprs, List.mem_append, Option.mem_toList, or_imp, forall_and]
    exact and_congr_right fun _ => and_comm
  | nest head body =>
    cases head <;>
      simp [checkStmtKind, DeclarationHeld, StmtKind.exprs, Head.expr?, check_bind_eq_ok,
        Table.checkId_eq_ok, pure, Except.pure]
  | returnValue value =>
    cases value <;>
      simp [checkStmtKind, DeclarationHeld, StmtKind.exprs, Table.checkId_eq_ok, pure, Except.pure]
  | _ =>
    simp [checkStmtKind, DeclarationHeld, StmtKind.exprs, check_bind_eq_ok, Table.checkId_eq_ok,
      pure, Except.pure]

/-- The expressions in statements and signatures are held, if those in
statements and in declarations are. -/
theorem slotsHeld_of_declarations
    (functions : ∀ f r, p.functions.get? f = some r → p.FunctionHeld r)
    (parameters : ∀ i r, p.parameters.get? i = some r →
      ∀ e, r.typeExpr = some e → e.raw < p.exprs.size)
    (stmts : ∀ s stmt, p.stmts.get? s = some stmt →
      p.DeclarationHeld stmt.kind ∧ ∀ e ∈ stmt.kind.exprs, e.raw < p.exprs.size) :
    p.SlotsHeld := by
  intro s e he
  obtain ⟨stmt, hs⟩ := Table.exists_get?_of_lt (lt_size_of_mem_slotsAt he)
  obtain ⟨held, hexprs⟩ := stmts s stmt hs
  have hread := slotsAt_eq hs held
  obtain ⟨kind, span⟩ := stmt
  cases kind with
  | function f =>
    obtain ⟨r, hr, hread⟩ := bind_eq_ok.1 hread
    obtain ⟨l, hl, hread⟩ := bind_eq_ok.1 hread
    rw [← pure_eq_ok.1 hread] at he
    rcases List.mem_append.1 he with hreturn | hparameter
    · exact (functions f r (Table.get_eq_ok.1 hr)).1 e (Option.mem_toList.1 hreturn)
    · obtain ⟨⟨i, x⟩, hx, hxe⟩ := List.mem_filterMap.1 hparameter
      exact parameters i x (mem_slice hl hx).1 e hxe
  | _ => exact hexprs e (Except.ok.inj hread ▸ he)

end Program

end FrontEnd
