import FrontEnd.Proofs.Lexical
import FrontEnd.Proofs.Nesting
/-!
# FrontEnd — regular programs

What every program has that has been built step by step, and what no
pass takes from it: operands are older than what is made of them,
declarations are held and each belongs to one statement, and the
statements lay out an outline. The type expressions of parameters are
apart (`SlotsHeld`), since a builder does not look at them.
-/

namespace FrontEnd

namespace Program

/-- The operands of every expression are held, and older than it is. -/
def OperandsHeld (p : Program) : Prop :=
  ∀ e x, p.exprs.get? e = some x →
    ∃ es, p.operands x.kind = .ok es ∧ ∀ c ∈ es, c.raw < e.raw

/-- The program holds every expression in a statement or signature. -/
def SlotsHeld (p : Program) : Prop := ∀ s, ∀ r ∈ p.slotsAt s, r.raw < p.exprs.size

/-- What a statement of the kind declares is held. -/
def DeclarationHeld (p : Program) : StmtKind → Prop
  | .function f =>
    ∃ r, p.functions.get? f = some r ∧ (r.parameters.isEmpty ∨ r.parameters.stop ≤ p.parameters.size)
  | .enumType e => e.raw < p.enumTypes.size
  | .structType s => s.raw < p.structTypes.size
  | .variable v _ _ => v.raw < p.vars.size
  | .nest (.forEach iterator _) _ => iterator.raw < p.vars.size
  | _ => True

/-- What a statement adds to the declarations of the program: what it
declares, and the parameters or the iterator that its body knows by it. -/
def owned (p : Program) (s : StmtId) : List Target :=
  p.declaredAhead true s ++ p.declaredInside s

/-- The static shape that building gives a program. -/
structure Regular (p : Program) : Prop where
  operands : p.OperandsHeld
  declarations : ∀ s stmt, p.stmts.get? s = some stmt → p.DeclarationHeld stmt.kind
  /-- No declaration belongs to two statements. -/
  owners : ∀ s s' t, t ∈ p.owned s → t ∈ p.owned s' → s = s'
  /-- The values of an enum type are held. -/
  values : ∀ e r, p.enumTypes.get? e = some r → r.values.isEmpty ∨ r.values.stop ≤ p.enumValues.size
  layout : ∃ o, Lays p 0 p.stmts.size o
  whole : p.block.statements = ⟨0, p.stmts.size⟩

variable {p p' : Program} {s : StmtId} {e c : ExprId}

/-! ## What a regular program answers -/

theorem OperandsHeld.older (h : p.OperandsHeld) : p.OperandsOlder := by
  intro e c hc
  cases hx : p.exprs.get? e with
  | none =>
    have := lt_size_of_mem_operandsAt hc
    have := Table.get?_eq_none_iff.1 hx
    omega
  | some x =>
    obtain ⟨es, hes, hlt⟩ := h e x hx
    rw [operandsAt_of_get (Table.get_eq_ok.2 hx) hes] at hc
    exact hlt c hc

/-- The operands of a held expression can be listed. -/
theorem OperandsHeld.operands_eq {x : Expr} (h : p.OperandsHeld) (hx : p.exprs.get? e = some x) :
    p.operands x.kind = .ok (p.operandsAt e) := by
  obtain ⟨es, hes, -⟩ := h e x hx
  rw [operandsAt_of_get (Table.get_eq_ok.2 hx) hes, hes]

/-- What is called is the first operand. -/
theorem OperandsHeld.mem_of_call {x : Expr} {callee : ExprId} {arguments : IdRange .argument}
    (h : p.OperandsHeld) (hx : p.exprs.get? e = some x) (hk : x.kind = .call callee arguments) :
    callee ∈ p.operandsAt e := by
  have hops := h.operands_eq hx
  rw [hk] at hops
  obtain ⟨l, -, hl⟩ := bind_eq_ok.1 hops
  rw [← pure_eq_ok.1 hl]
  exact List.mem_cons_self

/-- A range that is empty or in the table can be read. -/
theorem slice_ok {k : RecordKind} {α : Type} {t : Table k α} {r : IdRange k}
    (h : r.isEmpty ∨ r.stop ≤ t.size) : ∃ l, t.slice r = .ok l := by
  unfold Table.slice
  rcases h with h | h
  · exact ⟨[], if_pos h⟩
  · split
    · exact ⟨[], rfl⟩
    · exact ⟨_, rfl⟩

/-- The entries of a slice are records of the table under ids of the range. -/
theorem mem_slice {k : RecordKind} {α : Type} {t : Table k α} {r : IdRange k}
    {l : List (RecordId k × α)} {i : RecordId k} {a : α} (h : t.slice r = .ok l)
    (hm : (i, a) ∈ l) : t.get? i = some a ∧ i ∈ r.ids := by
  unfold Table.slice at h
  split at h
  · cases h
    simp at hm
  · split at h
    · cases h
      obtain ⟨n, hn, heq⟩ := List.getElem_of_mem hm
      simp only [List.getElem_zip, Prod.mk.injEq] at heq
      obtain ⟨hi, ha⟩ := heq
      refine ⟨?_, (List.of_mem_zip hm).1⟩
      subst hi ha
      simp [IdRange.ids, Table.get?]
    · cases h

/-- Every id of a range has its entry in the slice. -/
theorem exists_mem_slice {k : RecordKind} {α : Type} {t : Table k α} {r : IdRange k}
    {l : List (RecordId k × α)} {i : RecordId k} (h : t.slice r = .ok l) (hi : i ∈ r.ids) :
    ∃ a, (i, a) ∈ l := by
  obtain ⟨n, hn, rfl⟩ := List.getElem_of_mem hi
  have hlen : n < r.len := by simpa [IdRange.ids] using hn
  unfold Table.slice at h
  split at h
  · next he =>
    simp only [IdRange.isEmpty, beq_iff_eq] at he
    omega
  · split at h
    · next hstop =>
      cases h
      have hle : n < (t.records.extract r.start r.stop).toList.length := by
        simp only [IdRange.stop, Table.size] at hstop ⊢
        simp only [Array.length_toList, Array.size_extract]
        omega
      refine ⟨(t.records.extract r.start r.stop).toList[n], List.mem_iff_getElem.2 ⟨n, ?_, ?_⟩⟩
      · rw [List.length_zip]
        omega
      · rw [List.getElem_zip]
    · cases h

section

variable {stmt : Stmt} (hs : p.stmts.get? s = some stmt) (hdecl : p.DeclarationHeld stmt.kind)

include hs hdecl

theorem slotsAt_eq : (match stmt.kind with
    | .function f => p.signature f
    | kind => .ok kind.exprs) = .ok (p.slotsAt s) := by
  obtain ⟨kind, span⟩ := stmt
  cases kind with
  | function f =>
    obtain ⟨r, hr, hrange⟩ := hdecl
    obtain ⟨params, hparams⟩ := slice_ok hrange
    have hsig : p.signature f =
        .ok (r.returnTypeExpr.toList ++ params.filterMap (·.2.typeExpr)) := by
      simp only [signature, Table.get_eq_ok.2 hr, ok_bind, hparams]
      rfl
    simp only [slotsAt, Table.get_eq_ok.2 hs, ok_bind, hsig, elements_ok]
  | _ => simp only [slotsAt, Table.get_eq_ok.2 hs, ok_bind]; rfl

end

/-! ## Who owns what -/

/-- How a statement of the kind comes to own a declaration. -/
inductive Owns (p : Program) : StmtKind → Target → Prop
  | function (f : FunctionId) : p.Owns (.function f) (.function f)
  | parameter {f : FunctionId} {r : Function} {params : List (ParameterId × Parameter)}
      {x : ParameterId × Parameter} (hr : p.functions.get? f = some r)
      (hparams : p.parameters.slice r.parameters = .ok params) (hx : x ∈ params) :
      p.Owns (.function f) (.parameter x.1)
  | enumType (e : EnumTypeId) : p.Owns (.enumType e) (.enumType e)
  | structType (u : StructTypeId) : p.Owns (.structType u) (.structType u)
  | «variable» (v : VariableId) (type init : Option ExprId) :
      p.Owns (.variable v type init) (.variable v)
  | iterator (v : VariableId) (e : ExprId) (body : Block) :
      p.Owns (.nest (.forEach v e) body) (.variable v)

/-- A statement owns what it declares. -/
theorem owns_of_ahead {stmt : Stmt} {t : Target} (hs : p.stmts.get? s = some stmt)
    (h : t ∈ p.declaredAhead true s) : p.Owns stmt.kind t := by
  rw [declaredAhead_eq _ (Table.get_eq_ok.2 hs)] at h
  obtain ⟨kind, span⟩ := stmt
  cases kind with
  | function f =>
    obtain rfl := List.mem_singleton.1 h
    exact .function f
  | enumType e =>
    obtain rfl := List.mem_singleton.1 h
    exact .enumType e
  | structType u =>
    obtain rfl := List.mem_singleton.1 h
    exact .structType u
  | «variable» v type init =>
    obtain rfl := List.mem_singleton.1 h
    exact .variable v type init
  | _ => cases h

/-- A statement owns what its body knows by it. -/
theorem owns_of_inside {stmt : Stmt} {t : Target} (hs : p.stmts.get? s = some stmt)
    (h : t ∈ p.declaredInside s) : p.Owns stmt.kind t := by
  obtain ⟨kind, span⟩ := stmt
  simp only [declaredInside, Table.get_eq_ok.2 hs, ok_bind] at h
  cases kind with
  | function f =>
    -- nothing is known by a function that is not held, or whose parameters are not
    cases hr : p.functions.get f with
    | error fault => simp [hr, bind, Except.bind] at h
    | ok r =>
      cases hparams : p.parameters.slice r.parameters with
      | error fault => simp [hr, hparams, bind, Except.bind] at h
      | ok params =>
        simp only [hr, hparams, ok_bind, pure, Except.pure, elements_ok] at h
        obtain ⟨x, hx, rfl⟩ := List.mem_map.1 h
        exact .parameter (Table.get_eq_ok.1 hr) hparams hx
  | nest head body =>
    cases head with
    | forEach v e =>
      obtain rfl := List.mem_singleton.1 h
      exact .iterator v e body
    | _ => cases h
  | _ => cases h

/-- **What a statement owns, by its kind.** -/
theorem mem_owned {t : Target} :
    t ∈ p.owned s ↔ ∃ stmt, p.stmts.get? s = some stmt ∧ p.Owns stmt.kind t := by
  constructor
  · intro h
    cases hs : p.stmts.get? s with
    | none =>
      have hnone : p.stmts.get s = .error .outOfRange := by simp only [Table.get, hs]
      simp [owned, declaredAhead, declaredInside, hnone, bind, Except.bind] at h
    | some stmt =>
      exact ⟨stmt, rfl, (List.mem_append.1 h).elim (owns_of_ahead hs) (owns_of_inside hs)⟩
  · rintro ⟨⟨kind, span⟩, hs, howns⟩
    simp only [owned, declaredAhead, declaredInside, Table.get_eq_ok.2 hs, ok_bind]
    cases howns with
    | parameter hr hparams hx =>
      simp only [Table.get_eq_ok.2 hr, ok_bind, hparams, pure, Except.pure, elements_ok]
      exact List.mem_append_right _ (List.mem_map_of_mem hx)
    | _ => simp [StmtKind.declares, pure, Except.pure]

/-- A function belongs to the statement that declares it. -/
theorem owned_function {f : FunctionId} {span : Span}
    (hs : p.stmts.get? s = some ⟨.function f, span⟩) : .function f ∈ p.owned s :=
  mem_owned.2 ⟨_, hs, .function f⟩

theorem owned_variable {v : VariableId} {type init : Option ExprId} {span : Span}
    (hs : p.stmts.get? s = some ⟨.variable v type init, span⟩) : p.owned s = [.variable v] := by
  simp [owned, declaredAhead, declaredInside, Table.get_eq_ok.2 hs, ok_bind, StmtKind.declares, pure,
    Except.pure]

theorem owned_iterator {v : VariableId} {e : ExprId} {body : Block} {span : Span}
    (hs : p.stmts.get? s = some ⟨.nest (.forEach v e) body, span⟩) : p.owned s = [.variable v] := by
  simp [owned, declaredAhead, declaredInside, Table.get_eq_ok.2 hs, ok_bind, StmtKind.declares, pure,
    Except.pure]

/-- A record that is held has the name it is declared under. -/
theorem exists_nameOf {k : RecordKind} {α : Type} {tbl : Table k α} {i : RecordId k}
    (name : α → Span) (hi : i.raw < tbl.size) :
    ∃ span, (do return name (← tbl.get i) : Except Fault Span) = .ok span := by
  obtain ⟨r, hr⟩ := Table.exists_get?_of_lt hi
  exact ⟨name r, by rw [Table.get_eq_ok.2 hr]; rfl⟩

/-- A record that is not held has none. -/
theorem not_nameOf {k : RecordKind} {α : Type} {tbl : Table k α} {i : RecordId k} (name : α → Span)
    (hi : tbl.size ≤ i.raw) (span : Span) :
    (do return name (← tbl.get i) : Except Fault Span) ≠ .ok span := by
  intro h
  obtain ⟨r, hr, -⟩ := bind_eq_ok.1 h
  exact absurd (Table.lt_size_of_get? (Table.get_eq_ok.1 hr)) (Nat.not_lt.2 hi)

/-- Every declaration that is owned has a name. -/
theorem exists_name {t : Target}
    (declarations : ∀ s stmt, p.stmts.get? s = some stmt → p.DeclarationHeld stmt.kind)
    (ht : t ∈ p.owned s) : ∃ name, p.nameOf t = .ok name := by
  obtain ⟨⟨kind, span⟩, hs, howns⟩ := mem_owned.1 ht
  have hdecl := declarations s _ hs
  cases howns with
  | function f =>
    obtain ⟨r, hr, -⟩ := hdecl
    exact exists_nameOf Function.name (Table.lt_size_of_get? hr)
  | parameter hr hparams hx =>
    exact exists_nameOf Parameter.name (Table.lt_size_of_get? (mem_slice hparams hx).1)
  | enumType e => exact exists_nameOf EnumType.name hdecl
  | structType u => exact exists_nameOf StructType.name hdecl
  | «variable» v type init => exact exists_nameOf Variable.name hdecl
  | iterator v e body => exact exists_nameOf Variable.name hdecl

/-! ## The frame decides -/

theorem bodyPlace_frame (s : StmtId) : p.frame.bodyPlace s = p.bodyPlace s := by
  simp only [bodyPlace, bodyOf_frame]
  cases p.bodyOf s with
  | error fault => rfl
  | ok body => cases body <;> rfl

theorem bodyPlace_congr (h : p'.frame = p.frame) : p'.bodyPlace s = p.bodyPlace s := by
  rw [← bodyPlace_frame, h, bodyPlace_frame]

/-- Whether a statement has a body is part of the frame. -/
theorem exists_body_congr {body : Option Block} (h : p'.frame = p.frame) (hb : p.bodyOf s = .ok body) :
    ∃ body', p'.bodyOf s = .ok body' ∧ body'.map Block.frame = body.map Block.frame := by
  have hsame : (p'.bodyOf s).map (Option.map Block.frame) = (p.bodyOf s).map (Option.map Block.frame) := by
    rw [← bodyOf_frame, h, bodyOf_frame]
  rw [hb] at hsame
  cases hbody : p'.bodyOf s with
  | error fault =>
    rw [hbody] at hsame
    cases hsame
  | ok body' =>
    rw [hbody] at hsame
    exact ⟨body', rfl, Except.ok.inj hsame⟩

theorem bodyOf_none_congr (h : p'.frame = p.frame) (hb : p.bodyOf s = .ok none) :
    p'.bodyOf s = .ok none := by
  obtain ⟨body, hbody, hsame⟩ := exists_body_congr h hb
  rwa [Option.map_eq_none_iff.1 hsame] at hbody

theorem bodyOf_some_congr {b : Block} (h : p'.frame = p.frame) (hb : p.bodyOf s = .ok (some b)) :
    ∃ b', p'.bodyOf s = .ok (some b') := by
  obtain ⟨body, hbody, hsame⟩ := exists_body_congr h hb
  obtain ⟨b', rfl, -⟩ := Option.map_eq_some_iff.1 hsame
  exact ⟨b', hbody⟩

theorem size_stmts_congr (h : p'.frame = p.frame) : p'.stmts.size = p.stmts.size :=
  Table.size_eq_of_map_eq (congrArg Program.stmts h)

theorem size_exprs_congr (h : p'.frame = p.frame) : p'.exprs.size = p.exprs.size :=
  Table.size_eq_of_map_eq (congrArg Program.exprs h)

theorem size_functions_congr (h : p'.frame = p.frame) : p'.functions.size = p.functions.size :=
  Table.size_eq_of_map_eq (congrArg Program.functions h)

theorem size_parameters_congr (h : p'.frame = p.frame) :
    p'.parameters.size = p.parameters.size :=
  Table.size_eq_of_map_eq (congrArg Program.parameters h)

theorem size_vars_congr (h : p'.frame = p.frame) : p'.vars.size = p.vars.size :=
  Table.size_eq_of_map_eq (congrArg Program.vars h)

theorem owned_frame (s : StmtId) : p.frame.owned s = p.owned s := by
  simp only [owned, declaredAhead_frame, declaredInside_frame]

theorem owned_congr (h : p'.frame = p.frame) : p'.owned s = p.owned s := by
  rw [← owned_frame, h, owned_frame]

theorem exists_expr_congr {x : Expr} (h : p'.frame = p.frame) (hx : p.exprs.get? e = some x) :
    ∃ x', p'.exprs.get? e = some x' ∧ x'.frame = x.frame :=
  Table.exists_of_map_eq (congrArg Program.exprs h) hx

theorem exists_stmt_congr {stmt : Stmt} (h : p'.frame = p.frame)
    (hs : p.stmts.get? s = some stmt) :
    ∃ stmt', p'.stmts.get? s = some stmt' ∧ stmt'.frame = stmt.frame :=
  Table.exists_of_map_eq (congrArg Program.stmts h) hs

/-- A statement that declares a variable is part of the frame. -/
theorem exists_variable_congr {v : VariableId} {type init : Option ExprId} {span : Span}
    (h : p'.frame = p.frame) (hs : p.stmts.get? s = some ⟨.variable v type init, span⟩) :
    ∃ span', p'.stmts.get? s = some ⟨.variable v type init, span'⟩ := by
  obtain ⟨⟨kind, span'⟩, hs', heq⟩ := exists_stmt_congr h hs
  have hkind := congrArg Stmt.kind heq
  cases kind <;> cases hkind
  exact ⟨span', hs'⟩

theorem exists_function_congr {f : FunctionId} {r : Function} (h : p'.frame = p.frame)
    (hr : p.functions.get? f = some r) :
    ∃ r', p'.functions.get? f = some r' ∧ r'.frame = r.frame :=
  Table.exists_of_map_eq (congrArg Program.functions h) hr

theorem exists_parameter_congr {i : ParameterId} {r : Parameter} (h : p'.frame = p.frame)
    (hr : p.parameters.get? i = some r) :
    ∃ r', p'.parameters.get? i = some r' ∧ r'.frame = r.frame :=
  Table.exists_of_map_eq (congrArg Program.parameters h) hr

theorem declarationHeld_frame (kind : StmtKind) :
    p.frame.DeclarationHeld kind.frame ↔ p.DeclarationHeld kind := by
  cases kind with
  | function f =>
    simp only [DeclarationHeld, StmtKind.frame, frame, Table.get?_map, Table.size_map]
    cases p.functions.get? f <;> simp [Function.frame]
  | nest head body =>
    cases head <;> simp [DeclarationHeld, StmtKind.frame, frame]
  | _ => simp [DeclarationHeld, StmtKind.frame, frame]

theorem declarations_congr (h : p'.frame = p.frame)
    (held : ∀ s stmt, p.stmts.get? s = some stmt → p.DeclarationHeld stmt.kind) (s : StmtId)
    (stmt' : Stmt) (hs' : p'.stmts.get? s = some stmt') : p'.DeclarationHeld stmt'.kind := by
  obtain ⟨stmt, hs, heq⟩ := exists_stmt_congr h.symm hs'
  have hkind : stmt'.kind.frame = stmt.kind.frame := (congrArg Stmt.kind heq).symm
  rw [← declarationHeld_frame, h, hkind, declarationHeld_frame]
  exact held s stmt hs

theorem values_congr (h : p'.frame = p.frame)
    (held : ∀ u r, p.enumTypes.get? u = some r →
      r.values.isEmpty ∨ r.values.stop ≤ p.enumValues.size)
    (u : EnumTypeId) (r : EnumType) (hr : p'.enumTypes.get? u = some r) :
    r.values.isEmpty ∨ r.values.stop ≤ p'.enumValues.size := by
  have htypes := congrArg Program.enumTypes h
  have hvalues := congrArg Program.enumValues h
  simp only [frame] at htypes hvalues
  rw [htypes] at hr
  rw [hvalues]
  exact held u r hr

/-- **What keeps the frame and the operands keeps a program regular.** -/
theorem Regular.congr (regular : p.Regular) (h : p'.frame = p.frame)
    (operands : p'.OperandsHeld) : p'.Regular where
  operands := operands
  declarations := declarations_congr h regular.declarations
  owners s s' t hs hs' := by
    rw [owned_congr h] at hs hs'
    exact regular.owners s s' t hs hs'
  values := values_congr h regular.values
  layout := by
    obtain ⟨o, ho⟩ := regular.layout
    rw [size_stmts_congr h]
    exact ⟨o, ho.congr fun k _ _ => bodyPlace_congr h⟩
  whole := by
    rw [size_stmts_congr h, ← regular.whole]
    have hblock := congrArg (fun q : Program => q.block.statements) h
    exact hblock

end Program

end FrontEnd
