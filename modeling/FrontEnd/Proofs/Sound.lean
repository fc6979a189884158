import FrontEnd.Proofs.Checks
/-!
# FrontEnd — sound programs

What keeps the passes from faulting. `Program.Grounded` is what no pass
changes: whatever a statement refers to is held, and operands nest less
deep than there are expressions. `Program.Sound` is what every pass
keeps, of a program that has started as a grounded one: expressions
refer to what is held and lie above their operands, and every type that
is recorded anywhere is one of the program.
-/

namespace FrontEnd

/-- The enum type that a type mentions. -/
def Ty.enum? : Ty → Option EnumTypeId
  | .enum u => some u
  | _ => Option.none

namespace Program

/-- An enum type that the type mentions is one of the program. -/
def TypeHeld (p : Program) (t : Ty) : Prop := ∀ u ∈ t.enum?, u.raw < p.enumTypes.size

instance (p : Program) (t : Ty) : Decidable (p.TypeHeld t) :=
  inferInstanceAs (Decidable (∀ u ∈ t.enum?, u.raw < p.enumTypes.size))

/-- An expression may be of the kind: what it refers to is held, and its
operands lie below it. -/
structure Fits (p : Program) (depth : ExprId → Nat) (e : ExprId) (kind : ExprKind) : Prop where
  held : p.checkExprKind kind = .ok ()
  type : ∀ t, kind = .typeName t → p.TypeHeld t
  below : ∀ es, p.operands kind = .ok es → ∀ c ∈ es, depth c < depth e

/-- What the passes rely on and leave alone. -/
structure Grounded (p : Program) (depth : ExprId → Nat) : Prop where
  depth_lt : ∀ e, e.raw < p.exprs.size → depth e < p.exprDepth
  declarations : ∀ s stmt, p.stmts.get? s = some stmt → p.DeclarationHeld stmt.kind
  slots : p.SlotsHeld
  values : ∀ u r, p.enumTypes.get? u = some r →
    r.values.isEmpty ∨ r.values.stop ≤ p.enumValues.size

/-- What every pass keeps of a program that has come from `p₀`; the
statements of `reached` have bodies with scopes. -/
structure Sound (p₀ : Program) (depth : ExprId → Nat) (reached : StmtId → Prop) (p : Program) :
    Prop where
  frame : p.frame = p₀.frame
  block : p.block = p₀.block
  fits : ∀ e x, p.exprs.get? e = some x → p₀.Fits depth e x.kind
  vars : ∀ v r, p.vars.get? v = some r → p₀.TypeHeld r.type
  parameters : ∀ a r, p.parameters.get? a = some r → p₀.TypeHeld r.type
  functions : ∀ f r, p.functions.get? f = some r → p₀.TypeHeld r.returnType
  bodies : ∀ s, reached s → p.Scoped s

variable {p₀ p p' : Program} {depth : ExprId → Nat} {reached reached' : StmtId → Prop}
variable {e c : ExprId} {s : StmtId} {kind : ExprKind} {t : Ty}

theorem TypeHeld.of_none (h : t.enum? = none) : p.TypeHeld t := by simp [TypeHeld, h]

/-! ## Operands -/

namespace Fits

/-- A kind without operands is as good at any expression. -/
theorem leaf (held : p.checkExprKind kind = .ok ()) (type : ∀ t, kind = .typeName t → p.TypeHeld t)
    (ho : p.operands kind = .ok []) : p.Fits depth e kind where
  held := held
  type := type
  below es hes := by
    rw [ho] at hes
    cases hes
    simp

/-- The operands can be listed, and are held. -/
theorem operands (h : p.Fits depth e kind) :
    Succeeds (p.operands kind) fun es => ∀ c ∈ es, c.raw < p.exprs.size ∧ depth c < depth e := by
  obtain ⟨es, hes, hall⟩ := operands_of_checkExprKind h.held
  exact ⟨es, hes, fun c hc => ⟨hall c hc, h.below es hes c hc⟩⟩

end Fits

/-! ## Another program to start from -/

section

variable (hframe : p'.frame = p.frame)

include hframe

theorem TypeHeld.congr (h : p.TypeHeld t) : p'.TypeHeld t := by
  have htypes := congrArg Program.enumTypes hframe
  simp only [Program.frame] at htypes
  rw [TypeHeld, htypes]
  exact h

theorem Fits.congr (h : p.Fits depth e kind) : p'.Fits depth e kind where
  held := (checkExprKind_congr hframe kind).trans h.held
  type t ht := (h.type t ht).congr hframe
  below es hes := by
    have harguments := congrArg Program.arguments hframe
    simp only [Program.frame] at harguments
    rw [operands_congr harguments] at hes
    exact h.below es hes

theorem Grounded.congr (h : p.Grounded depth) : p'.Grounded depth where
  depth_lt e he := by
    rw [exprDepth, size_exprs_congr hframe] at *
    exact h.depth_lt e he
  declarations := declarations_congr hframe h.declarations
  slots s := by
    rw [slotsAt_congr hframe, size_exprs_congr hframe]
    exact h.slots s
  values := values_congr hframe h.values

/-- What is sound stays so when only scopes change. -/
theorem Sound.start (h : Sound p depth (fun _ => False) p) (hexprs : p'.exprs = p.exprs)
    (hvars : p'.vars = p.vars) (hparameters : p'.parameters = p.parameters)
    (hfunctions : p'.functions = p.functions) : Sound p' depth (fun _ => False) p' where
  frame := rfl
  block := rfl
  fits e x hx := (h.fits e x (hexprs ▸ hx)).congr hframe
  vars v r hr := (h.vars v r (hvars ▸ hr)).congr hframe
  parameters a r hr := (h.parameters a r (hparameters ▸ hr)).congr hframe
  functions f r hr := (h.functions f r (hfunctions ▸ hr)).congr hframe
  bodies _ hs := hs.elim

end

/-- A sound program may be taken as the one to start from. -/
theorem Sound.rebase (h : Sound p₀ depth reached p) : Sound p depth reached p where
  frame := rfl
  block := rfl
  fits e x hx := (h.fits e x hx).congr h.frame
  vars v r hr := (h.vars v r hr).congr h.frame
  parameters a r hr := (h.parameters a r hr).congr h.frame
  functions f r hr := (h.functions f r hr).congr h.frame
  bodies := h.bodies

/-! ## Reading off a sound program -/

namespace Sound

section

variable (sound : Sound p₀ depth reached p)

include sound

theorem size_exprs : p.exprs.size = p₀.exprs.size := size_exprs_congr sound.frame

theorem arguments : p.arguments = p₀.arguments := by
  have := congrArg Program.arguments sound.frame
  exact this

theorem enumTypes : p.enumTypes = p₀.enumTypes := by
  have := congrArg Program.enumTypes sound.frame
  exact this

theorem enumValues : p.enumValues = p₀.enumValues := by
  have := congrArg Program.enumValues sound.frame
  exact this

/-- The fuel of a walk is enough for every expression. -/
theorem depth_lt (ground : p₀.Grounded depth) (he : e.raw < p₀.exprs.size) :
    depth e < p.exprDepth := by
  have hdepth := ground.depth_lt e he
  rwa [Program.exprDepth, ← sound.size_exprs] at hdepth

/-- A held expression can be read. -/
theorem get_expr (he : e.raw < p₀.exprs.size) :
    Succeeds (p.exprs.get e) fun x => p₀.Fits depth e x.kind := by
  obtain ⟨x, hx⟩ := Table.exists_get?_of_lt (sound.size_exprs ▸ he)
  exact .of_eq (Table.get_eq_ok.2 hx) (sound.fits e x hx)

theorem operands (fits : p₀.Fits depth e kind) :
    Succeeds (p.operands kind) fun es => ∀ c ∈ es, c.raw < p₀.exprs.size ∧ depth c < depth e := by
  rw [operands_congr sound.arguments]
  exact fits.operands

theorem get_var {v : VariableId} (hv : v.raw < p₀.vars.size) :
    Succeeds (p.vars.get v) fun r => p₀.TypeHeld r.type := by
  obtain ⟨r, hr⟩ := Table.exists_get?_of_lt (size_vars_congr sound.frame ▸ hv)
  exact .of_eq (Table.get_eq_ok.2 hr) (sound.vars v r hr)

theorem get_parameter {a : ParameterId} (ha : a.raw < p₀.parameters.size) :
    Succeeds (p.parameters.get a) fun r => p₀.TypeHeld r.type := by
  obtain ⟨r, hr⟩ := Table.exists_get?_of_lt (size_parameters_congr sound.frame ▸ ha)
  exact .of_eq (Table.get_eq_ok.2 hr) (sound.parameters a r hr)

theorem get_function {f : FunctionId} (hf : f.raw < p₀.functions.size) :
    Succeeds (p.functions.get f) fun r => p₀.TypeHeld r.returnType := by
  obtain ⟨r, hr⟩ := Table.exists_get?_of_lt (size_functions_congr sound.frame ▸ hf)
  exact .of_eq (Table.get_eq_ok.2 hr) (sound.functions f r hr)

theorem mono (h : ∀ s, reached' s → reached s) : Sound p₀ depth reached' p :=
  { sound with bodies := fun s hs => sound.bodies s (h s hs) }

/-! ## Writing into a sound program -/

/-- Expressions may change to kinds that fit. -/
theorem set_exprs {exprs : Table .expr Expr} (hframe : exprs.map Expr.frame = p.exprs.map Expr.frame)
    (fits : ∀ e x, exprs.get? e = some x → p₀.Fits depth e x.kind) :
    Sound p₀ depth reached { p with exprs } :=
  { sound with frame := (frame_exprs hframe).trans sound.frame, fits }

theorem setKind (fits : p₀.Fits depth e kind) : Sound p₀ depth reached (p.setKind e kind) :=
  sound.set_exprs (Table.map_modify fun _ => rfl) fun c x hx => by
    rw [Table.get?_modify] at hx
    split at hx
    · next heq =>
      obtain ⟨_, -, rfl⟩ := Option.map_eq_some_iff.1 hx
      exact heq ▸ fits
    · exact sound.fits c x hx

/-- What changes neither the kind of a node nor where it stands. -/
theorem modify_expr (e : ExprId) {f : Expr → Expr} (hframe : ∀ x, (f x).frame = x.frame)
    (hkind : ∀ x, (f x).kind = x.kind) :
    Sound p₀ depth reached { p with exprs := p.exprs.modify e f } :=
  sound.set_exprs (Table.map_modify hframe) fun c x hx => by
    rw [Table.get?_modify] at hx
    split at hx
    · obtain ⟨y, hy, rfl⟩ := Option.map_eq_some_iff.1 hx
      exact hkind y ▸ sound.fits c y hy
    · exact sound.fits c x hx

theorem setExprType (e : ExprId) (t : Ty) : Sound p₀ depth reached (p.setExprType e t) :=
  sound.modify_expr e (fun _ => rfl) fun _ => rfl

theorem flag (e : ExprId) : Sound p₀ depth reached (p.flag e) :=
  sound.modify_expr e (fun _ => rfl) fun _ => rfl

/-- A variable may be given a type of the program. -/
theorem update_var {v : VariableId} {f : Variable → Variable} (hv : v.raw < p₀.vars.size)
    (hframe : ∀ r, (f r).frame = r.frame)
    (hf : ∀ r, p₀.TypeHeld r.type → p₀.TypeHeld (f r).type) :
    Succeeds (p.vars.update v f) fun vars => Sound p₀ depth reached { p with vars } := by
  rw [← size_vars_congr sound.frame] at hv
  refine .of_eq (Table.update_eq_ok_iff _ |>.2 ⟨hv, rfl⟩) ?_
  refine { sound with
    frame := (frame_vars (Table.map_modify hframe)).trans sound.frame
    vars := fun u r hr => ?_ }
  rw [Table.get?_modify] at hr
  split at hr
  · obtain ⟨r', hr', rfl⟩ := Option.map_eq_some_iff.1 hr
    exact hf r' (sound.vars u r' hr')
  · exact sound.vars u r hr

theorem setVariableType {v : VariableId} (hv : v.raw < p₀.vars.size) (ht : p₀.TypeHeld t) :
    Succeeds (p.setVariableType v t) (Sound p₀ depth reached) :=
  (sound.update_var (f := ({ · with type := t })) hv (fun _ => rfl) fun _ _ => ht).bind
    fun _ h => .pure h

theorem update_parameter {a : ParameterId} (ha : a.raw < p₀.parameters.size) (ht : p₀.TypeHeld t) :
    Succeeds (p.parameters.update a ({ · with type := t })) fun parameters =>
      Sound p₀ depth reached { p with parameters } := by
  rw [← size_parameters_congr sound.frame] at ha
  have hframe : ∀ r : Parameter, ({ r with type := t } : Parameter).frame = r.frame := fun _ => rfl
  refine .of_eq (Table.update_eq_ok_iff _ |>.2 ⟨ha, rfl⟩) ?_
  refine { sound with
    frame := (frame_parameters (Table.map_modify hframe)).trans sound.frame
    parameters := fun b r hr => ?_ }
  rw [Table.get?_modify] at hr
  split at hr
  · obtain ⟨r', -, rfl⟩ := Option.map_eq_some_iff.1 hr
    exact ht
  · exact sound.parameters b r hr

theorem update_function {f : FunctionId} (hf : f.raw < p₀.functions.size) (ht : p₀.TypeHeld t) :
    Succeeds (p.functions.update f ({ · with returnType := t })) fun functions =>
      Sound p₀ depth reached { p with functions } := by
  rw [← size_functions_congr sound.frame] at hf
  have hframe : ∀ r : Function, ({ r with returnType := t } : Function).frame = r.frame :=
    fun _ => rfl
  refine .of_eq (Table.update_eq_ok_iff _ |>.2 ⟨hf, rfl⟩) ?_
  refine { sound with
    frame := (frame_functions (Table.map_modify hframe)).trans sound.frame
    functions := fun g r hr => ?_
    bodies := fun s hs b hb => ?_ }
  · rw [Table.get?_modify] at hr
    split at hr
    · obtain ⟨r', -, rfl⟩ := Option.map_eq_some_iff.1 hr
      exact ht
    · exact sound.functions g r hr
  · -- no body is kept in what has changed
    refine sound.bodies s hs b ?_
    rw [bodyOf_eq_some] at hb ⊢
    rcases hb with ⟨g, span, r, hstmt, hr, hbody⟩ | hnest
    · rw [Table.get?_modify] at hr
      split at hr
      · obtain ⟨r', hr', rfl⟩ := Option.map_eq_some_iff.1 hr
        exact .inl ⟨g, span, r', hstmt, hr', hbody⟩
      · exact .inl ⟨g, span, r, hstmt, hr, hbody⟩
    · exact .inr hnest

end

/-! ## Statements -/

section

variable (ground : Grounded p₀ depth) (sound : Sound p₀ depth reached p)

include ground sound

/-- A held statement can be read, and so can whatever it refers to. -/
theorem get_stmt (hs : s.raw < p₀.stmts.size) :
    Succeeds (p.stmts.get s) fun stmt => p₀.DeclarationHeld stmt.kind ∧
      (∀ e ∈ stmt.kind.exprs, e.raw < p₀.exprs.size) ∧
      ∀ f, stmt.kind = .function f →
        Succeeds (p.signature f) fun es => ∀ e ∈ es, e.raw < p₀.exprs.size := by
  obtain ⟨stmt, hstmt⟩ := Table.exists_get?_of_lt (size_stmts_congr sound.frame ▸ hs)
  obtain ⟨stmt₀, hstmt₀, heq⟩ := exists_stmt_congr sound.frame.symm hstmt
  have hkind : stmt.kind.frame = stmt₀.kind.frame := (congrArg Stmt.kind heq).symm
  have held := ground.declarations s stmt₀ hstmt₀
  rw [← declarationHeld_frame, ← hkind] at held
  have held' := held
  rw [← sound.frame, declarationHeld_frame] at held'
  rw [declarationHeld_frame] at held
  have hslots := ground.slots s
  rw [← slotsAt_congr sound.frame] at hslots
  have hread := slotsAt_eq hstmt held'
  refine .of_eq (Table.get_eq_ok.2 hstmt) ⟨held, ?_, fun f hf => ?_⟩
  · obtain ⟨kind, span⟩ := stmt
    cases kind with
    | function f => simp [StmtKind.exprs]
    | _ => exact Except.ok.inj hread ▸ hslots
  · rw [hf] at hread
    exact .of_eq hread hslots

end

end Sound

end Program

end FrontEnd
