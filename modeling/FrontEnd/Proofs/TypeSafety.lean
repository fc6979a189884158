import FrontEnd.Proofs.Sound
/-!
# FrontEnd — type resolution does not fault

On a sound program whose blocks have scopes type resolution succeeds, and
leaves a sound program (`resolveTypes_succeeds`). The values of an enum
type are looked up wherever a type mentions it, so what carries the walk
is that every type it comes by is one of the program (`TypeHeld`).
-/

namespace FrontEnd

open Program

variable {p₀ p p' : Program} {depth : ExprId → Nat} {reached : StmtId → Prop}
variable {a : Analysis} {e : ExprId} {s : StmtId} {source : String} {fuel : Nat}
variable {expected : Option Ty} {o : Option ExprId} {t : Ty} {g : Global}

namespace Program

/-! ## The type of an expression -/

theorem TypeHeld.error : p.TypeHeld .error := .of_none rfl

theorem typeHeld_of_none : ∀ t, (none : Option Ty) = some t → p.TypeHeld t := by simp

theorem lt_of_enumTypeFrom {v : EnumValueId} {before index : Nat} {types : List EnumType}
    {u : EnumTypeId} (h : enumTypeFrom v before index types = some u) :
    u.raw < index + types.length := by
  induction types generalizing before index with
  | nil => cases h
  | cons r rest ih =>
    simp only [enumTypeFrom] at h
    split at h
    · cases h
      simp
    · have := ih h
      simp only [List.length_cons]
      omega

theorem typeHeld_enumTypeOf (v : EnumValueId) : p.TypeHeld ((p.enumTypeOf v).elim .error .enum) := by
  cases h : p.enumTypeOf v with
  | none => exact .error
  | some u =>
    rintro _ ⟨⟩
    simpa using lt_of_enumTypeFrom h

theorem typeHeld_arithmetic (op : BinaryOp) (lhs rhs : Ty) :
    p.TypeHeld (Ty.arithmetic op lhs rhs) := by
  refine .of_none ?_
  unfold Ty.arithmetic
  split_ifs <;> rfl

theorem typeOfWithin_succeeds (sound : Sound p₀ depth reached p) (he : e.raw < p₀.exprs.size)
    (hf : depth e < fuel) : Succeeds (p.typeOfWithin fuel e) p₀.TypeHeld := by
  induction fuel generalizing e with
  | zero => omega
  | succ fuel ih =>
    refine (sound.get_expr he).bind fun x fits => ?_
    obtain ⟨kind, span, type, flagged⟩ := x
    have hoperands := fits.operands
    have held := fits.held
    cases kind with
    | enumValue v =>
      have := typeHeld_enumTypeOf (p := p) v
      rw [TypeHeld, sound.enumTypes] at this
      exact .pure this
    | «variable» v => exact (sound.get_var (Table.checkId_eq_ok.1 held)).bind fun r hr => .pure hr
    | parameter b =>
      exact (sound.get_parameter (Table.checkId_eq_ok.1 held)).bind fun r hr => .pure hr
    | function f =>
      exact (sound.get_function (Table.checkId_eq_ok.1 held)).bind fun r hr => .pure hr
    | call callee arguments =>
      simp only [checkExprKind, check_bind_eq_ok, Table.checkId_eq_ok] at held
      refine (sound.get_expr held.1).bind fun y fitsy => ?_
      obtain ⟨kind, span', type', flagged'⟩ := y
      cases kind with
      | function f =>
        exact (sound.get_function (Table.checkId_eq_ok.1 fitsy.held)).bind fun r hr => .pure hr
      | _ => exact .pure .error
    | unary op operand =>
      obtain ⟨es, hes, hall⟩ := hoperands
      cases hes
      have hoperand := hall operand (by simp)
      cases op with
      | not => exact .pure (.of_none rfl)
      | _ => exact ih hoperand.1 (by omega)
    | binary op lhs rhs =>
      obtain ⟨es, hes, hall⟩ := hoperands
      cases hes
      have hlhs := hall lhs (by simp)
      have hrhs := hall rhs (by simp)
      cases hop : op.isBoolean with
      | true =>
        simp only [hop]
        exact .pure (.of_none rfl)
      | false =>
        simp only [hop]
        refine (ih hlhs.1 (by omega)).bind fun l _ => (ih hrhs.1 (by omega)).bind fun r _ => ?_
        exact .pure (typeHeld_arithmetic op l r)
    | _ => exact .pure (.of_none rfl)

/-- The values of an enum type of the program can be searched. -/
theorem findEnumValue_succeeds (ground : Grounded p₀ depth) (sound : Sound p₀ depth reached p)
    {u : EnumTypeId} (hu : u.raw < p₀.enumTypes.size) (name : Span) :
    Succeeds (p.findEnumValue source u name) fun found =>
      ∀ v, found = some v → p₀.Fits depth e (.enumValue v) := by
  obtain ⟨r, hr⟩ := Table.exists_get?_of_lt hu
  obtain ⟨l, hl⟩ := slice_ok (ground.values u r hr)
  rw [← sound.enumTypes] at hr
  rw [← sound.enumValues] at hl
  refine (Succeeds.of_eq (Table.get_eq_ok.2 hr) rfl).bind ?_
  rintro _ rfl
  refine (Succeeds.of_eq hl rfl).bind ?_
  rintro _ rfl
  refine .pure fun v hv => .leaf (Table.checkId_eq_ok.2 ?_) (fun t ht => by cases ht) rfl
  obtain ⟨⟨w, x⟩, hfound, rfl⟩ := Option.map_eq_some_iff.1 hv
  rw [← sound.enumValues]
  exact Table.lt_size_of_get? (mem_slice hl (List.mem_of_find?_eq_some hfound)).1

/-- What an expression reads can be looked through. -/
theorem readOrderWithin_succeeds (sound : Sound p₀ depth reached p) (he : e.raw < p₀.exprs.size)
    (hf : depth e < fuel) : Succeeds (p.readOrderWithin fuel e) fun _ => True := by
  induction fuel generalizing e with
  | zero => omega
  | succ fuel ih =>
    refine (sound.get_expr he).bind fun x fits => ?_
    have hrest : Succeeds
        (do greatestOrder (p.readOrderWithin fuel) 0 (← p.operands x.kind)) fun _ => True := by
      refine (sound.operands fits).bind fun es hes => ?_
      generalize 0 = least
      induction es generalizing least with
      | nil => exact .pure trivial
      | cons c es ihes =>
        obtain ⟨hc, hes⟩ := List.forall_mem_cons.1 hes
        refine (ih hc.1 (by omega)).bind fun found _ => ?_
        cases found with
        | none => exact .pure trivial
        | some n => exact ihes hes (max least n)
    obtain ⟨kind, span, type, flagged⟩ := x
    cases kind with
    | «variable» v =>
      exact (sound.get_var (Table.checkId_eq_ok.1 fits.held)).bind fun r _ => .pure trivial
    | _ => exact hrest

end Program

/-- A type that may be there is one of the program, and the program has
stayed sound. -/
structure Typed (p₀ : Program) (depth : ExprId → Nat) (reached : StmtId → Prop)
    (r : Option Ty × Analysis) : Prop where
  type : ∀ t, r.1 = some t → p₀.TypeHeld t
  sound : Sound p₀ depth reached r.2.program

theorem Typed.getD {r : Option Ty × Analysis} (typed : Typed p₀ depth reached r) {other : Ty}
    (h : p₀.TypeHeld other) : p₀.TypeHeld (r.1.getD other) := by
  cases ht : r.1 with
  | none => exact h
  | some t => exact typed.type t ht

namespace Analysis

/-! ## Reports -/

section

variable (sound : Sound p₀ depth reached a.program)

include sound

theorem report_succeeds (he : e.raw < p₀.exprs.size) (d : Diagnostic) :
    Succeeds (a.report e d) fun a' => Sound p₀ depth reached a'.program := by
  refine (sound.get_expr he).bind fun x _ => ?_
  split
  · exact .pure sound
  · have h : Sound p₀ depth reached
        (if (a.queue.push d).1 then a.program.flag e else a.program) := by
      split
      · exact sound.flag e
      · exact sound
    exact .pure h

theorem raiseAt_succeeds (he : e.raw < p₀.exprs.size) (code : Code) :
    Succeeds (a.raiseAt code e) fun a' => Sound p₀ depth reached a'.program :=
  (sound.get_expr he).bind fun _ _ => report_succeeds sound he _

/-! ## Expressions -/

theorem typeNamed_succeeds (he : e.raw < p₀.exprs.size) :
    Succeeds (a.typeNamed e) fun (t, a') => p₀.TypeHeld t ∧ Sound p₀ depth reached a'.program := by
  refine (sound.get_expr he).bind fun x fits => ?_
  obtain ⟨kind, span, type, flagged⟩ := x
  cases kind with
  | typeName t => exact .pure ⟨fits.type t rfl, sound.setExprType e t⟩
  | identifier =>
    exact (raiseAt_succeeds sound he _).bind fun a' ha' => .pure ⟨.error, ha'.setExprType e _⟩
  | _ => exact (raiseAt_succeeds sound he _).bind fun a' ha' => .pure ⟨.error, ha'.setExprType e _⟩

theorem typeNamed?_succeeds (ho : ∀ e, o = some e → e.raw < p₀.exprs.size) :
    Succeeds (a.typeNamed? o) (Typed p₀ depth reached) := by
  cases o with
  | none => exact .pure ⟨typeHeld_of_none, sound⟩
  | some e =>
    refine (typeNamed_succeeds sound (ho e rfl)).bind fun (t, a') ⟨ht, sound'⟩ =>
      .pure ⟨fun t' ht' => ?_, sound'⟩
    cases ht'
    exact ht

theorem recordType_succeeds (ground : Grounded p₀ depth) (he : e.raw < p₀.exprs.size) :
    Succeeds (a.recordType e) fun (t, a') =>
      p₀.TypeHeld t ∧ Sound p₀ depth reached a'.program :=
  (typeOfWithin_succeeds sound he (sound.depth_lt ground he)).bind
    fun t ht => .pure ⟨ht, sound.setExprType e t⟩

variable (hexpected : ∀ t, expected = some t → p₀.TypeHeld t)

include hexpected

theorem nameEnumValue_succeeds (ground : Grounded p₀ depth) (he : e.raw < p₀.exprs.size) :
    Succeeds (a.nameEnumValue source expected e) fun a' => Sound p₀ depth reached a'.program := by
  refine (sound.get_expr he).bind fun x fits => ?_
  split
  · next u hkind =>
    refine (findEnumValue_succeeds (e := e) ground sound (hexpected _ rfl u rfl) x.span).bind
      fun found hfound => ?_
    cases found with
    | none => exact .pure sound
    | some v => exact .pure (sound.setKind (hfound v rfl))
  · next subject name hkind =>
    have held := fits.held
    rw [hkind] at held
    refine (sound.get_expr (Table.checkId_eq_ok.1 held)).bind fun y fitsy => ?_
    split
    · next u hsubject =>
      refine (findEnumValue_succeeds (e := e) ground sound (fitsy.type _ hsubject u rfl) name).bind
        fun found hfound => ?_
      cases found with
      | none => exact raiseAt_succeeds sound he _
      | some v => exact .pure (sound.setKind (hfound v rfl))
    · exact .pure sound
  · exact .pure sound

theorem typeExprWithin_succeeds (ground : Grounded p₀ depth) (he : e.raw < p₀.exprs.size)
    (hf : depth e < fuel) : Succeeds (typeExprWithin source fuel expected a e) fun (t, a') =>
      p₀.TypeHeld t ∧ Sound p₀ depth reached a'.program := by
  induction fuel generalizing expected a e with
  | zero => omega
  | succ fuel ih =>
    refine (sound.get_expr he).bind fun x fits => ?_
    refine (sound.operands fits).bind fun es hes => ?_
    refine Succeeds.bind (P := fun a' => Sound p₀ depth reached a'.program)
      (.foldlM (fun c hc b hb => ?_) sound) fun b hb => ?_
    · obtain ⟨hlt, hdepth⟩ := hes c hc
      exact (ih hb typeHeld_of_none hlt (by omega)).bind fun (t, b') ⟨_, hb'⟩ => .pure hb'
    · exact (nameEnumValue_succeeds hb hexpected ground he).bind fun b' hb' =>
        recordType_succeeds hb' ground he

theorem typeExpr_succeeds (ground : Grounded p₀ depth) (he : e.raw < p₀.exprs.size) :
    Succeeds (typeExpr source expected a e) fun (t, a') =>
      p₀.TypeHeld t ∧ Sound p₀ depth reached a'.program :=
  typeExprWithin_succeeds sound hexpected ground he (sound.depth_lt ground he)

theorem typeExpr?_succeeds (ground : Grounded p₀ depth)
    (ho : ∀ e, o = some e → e.raw < p₀.exprs.size) :
    Succeeds (typeExpr? source expected a o) (Typed p₀ depth reached) := by
  cases o with
  | none => exact .pure ⟨typeHeld_of_none, sound⟩
  | some e =>
    refine (typeExpr_succeeds sound hexpected ground (ho e rfl)).bind
      fun (t, a') ⟨ht, sound'⟩ => .pure ⟨fun t' ht' => ?_, sound'⟩
    cases ht'
    exact ht

end

/-! ## Signatures -/

end Analysis

namespace Program

/-- A parameter is held, and so is the expression of its type. -/
def ParameterHeld (p : Program) (i : ParameterId) : Prop :=
  ∃ r, p.parameters.get? i = some r ∧ ∀ e, r.typeExpr = some e → e.raw < p.exprs.size

theorem ParameterHeld.congr {i : ParameterId} (held : p.ParameterHeld i) (h : p'.frame = p.frame) :
    p'.ParameterHeld i := by
  obtain ⟨r, hr, htype⟩ := held
  obtain ⟨r', hr', heq⟩ := exists_parameter_congr h hr
  have hsame : r'.typeExpr = r.typeExpr := (congrArg Parameter.typeExpr heq :)
  exact ⟨r', hr', fun e he => size_exprs_congr h ▸ htype e (hsame ▸ he)⟩

/-- A slice of parameters holds the same ones whatever their types are. -/
theorem slice_parameters_congr (h : p'.frame = p.frame) {range : IdRange .parameter}
    {l : List (ParameterId × Parameter)} (hl : p.parameters.slice range = .ok l) :
    ∃ l', p'.parameters.slice range = .ok l' ∧ ∀ x ∈ l', ∃ r, (x.1, r) ∈ l := by
  have hmap : ∀ q : Program, q.frame.parameters.slice range =
      (q.parameters.slice range).map (List.map fun x => (x.1, x.2.frame)) :=
    fun q => Table.slice_map q.parameters Parameter.frame range
  have hsame := hmap p'
  rw [h, hmap p, hl] at hsame
  cases hl' : p'.parameters.slice range with
  | error fault =>
    rw [hl'] at hsame
    cases hsame
  | ok l' =>
    rw [hl'] at hsame
    refine ⟨l', rfl, fun x hx => ?_⟩
    have hmem : (x.1, x.2.frame) ∈ l'.map fun x => (x.1, x.2.frame) :=
      List.mem_map.2 ⟨x, hx, rfl⟩
    rw [← Except.ok.inj hsame] at hmem
    obtain ⟨⟨i, r⟩, hr, heq⟩ := List.mem_map.1 hmem
    obtain ⟨rfl, -⟩ := Prod.mk.inj heq
    exact ⟨r, hr⟩

end Program

namespace Analysis

section

variable (sound : Sound p₀ depth reached a.program)

include sound

theorem typeParameter_succeeds {i : ParameterId} (held : p₀.ParameterHeld i) :
    Succeeds (a.typeParameter i) fun a' => Sound p₀ depth reached a'.program := by
  obtain ⟨r, hr, htype⟩ := held.congr sound.frame
  rw [sound.size_exprs] at htype
  have hi : i.raw < p₀.parameters.size := by
    rw [← size_parameters_congr sound.frame]
    exact Table.lt_size_of_get? hr
  refine (Succeeds.of_eq (Table.get_eq_ok.2 hr) rfl).bind ?_
  rintro _ rfl
  refine (typeNamed?_succeeds sound htype).bind fun (t, a') typed => ?_
  exact (typed.sound.update_parameter hi (typed.getD .error)).bind fun parameters h => .pure h

theorem typeSignature_succeeds {f : FunctionId}
    (signature : Succeeds (a.program.signature f) fun es => ∀ e ∈ es, e.raw < p₀.exprs.size) :
    Succeeds (a.typeSignature f) fun a' => Sound p₀ depth reached a'.program := by
  obtain ⟨es, hes, hall⟩ := signature
  obtain ⟨r, hr, hes⟩ := bind_eq_ok.1 hes
  obtain ⟨l, hl, hes⟩ := bind_eq_ok.1 hes
  obtain rfl := pure_eq_ok.1 hes
  have hf : f.raw < p₀.functions.size := by
    rw [← size_functions_congr sound.frame]
    exact Table.lt_size_of_get? (Table.get_eq_ok.1 hr)
  refine (Succeeds.of_eq hr rfl).bind ?_
  rintro _ rfl
  refine (typeNamed?_succeeds sound fun e he => hall e (by simp [he])).bind
    fun (t, a₁) typed => ?_
  refine (typed.sound.update_function hf (typed.getD (.of_none rfl))).bind
    fun functions sound₂ => ?_
  obtain ⟨l', hl', hmem⟩ := slice_parameters_congr (sound₂.frame.trans sound.frame.symm) hl
  refine (Succeeds.of_eq hl' rfl).bind ?_
  rintro _ rfl
  refine .foldlM (fun x hx b hb => typeParameter_succeeds hb ?_) sound₂
  obtain ⟨y, hy⟩ := hmem x hx
  refine ParameterHeld.congr ⟨y, (mem_slice hl hy).1, fun e he => ?_⟩ sound.frame.symm
  rw [sound.size_exprs]
  exact hall e (List.mem_append_right _ (List.mem_filterMap.2 ⟨_, hy, he⟩))

theorem typeSignatures_succeeds (ground : Grounded p₀ depth) {statements : List StmtId}
    (hs : ∀ s ∈ statements, s.raw < p₀.stmts.size) :
    Succeeds (a.typeSignatures statements) fun a' => Sound p₀ depth reached a'.program := by
  refine .foldlM (fun s hmem b hb => ?_) sound
  refine (hb.get_stmt ground (hs s hmem)).bind fun stmt ⟨_, _, signature⟩ => ?_
  obtain ⟨kind, span⟩ := stmt
  cases kind with
  | function f => exact typeSignature_succeeds hb (signature f rfl)
  | _ => exact .pure hb

end

/-! ## Top-level variables -/

end Analysis

/-- A variable and its initializer are held. -/
structure Global.Held (p : Program) (g : Global) : Prop where
  id : g.id.raw < p.vars.size
  init : ∀ e, g.init = some e → e.raw < p.exprs.size

namespace Analysis

section

variable (ground : Grounded p₀ depth) (sound : Sound p₀ depth reached a.program)

include ground sound

theorem declareGlobal_succeeds (hs : s.raw < p₀.stmts.size) :
    Succeeds (a.declareGlobal s) fun r =>
      (∀ g, r.1 = some g → g.Held p₀) ∧ Sound p₀ depth reached r.2.program := by
  refine (sound.get_stmt ground hs).bind fun stmt ⟨held, hexprs, _⟩ => ?_
  obtain ⟨kind, span⟩ := stmt
  cases kind with
  | «variable» v typeExpr init =>
    refine (typeNamed?_succeeds sound fun e he => hexprs e (by simp [StmtKind.exprs, he])).bind
      fun (t, a') typed => ?_
    refine (typed.sound.update_var (f := ({ · with type := t.getD .unset, order := 0 })) held
      (fun _ => rfl) fun _ _ => typed.getD (.of_none rfl)).bind
      fun vars h => .pure ⟨fun g hg => ?_, h⟩
    cases hg
    exact ⟨held, fun e he => hexprs e (by simp [StmtKind.exprs, show init = some e from he])⟩
  | _ => exact .pure ⟨by simp, sound⟩

theorem declareGlobals_succeeds {statements : List StmtId}
    (hs : ∀ s ∈ statements, s.raw < p₀.stmts.size) :
    Succeeds (a.declareGlobals statements) fun r =>
      (∀ g ∈ r.1, g.Held p₀) ∧ Sound p₀ depth reached r.2.program := by
  induction statements generalizing a with
  | nil => exact .pure ⟨by simp, sound⟩
  | cons s rest ih =>
    obtain ⟨hs, hrest⟩ := List.forall_mem_cons.1 hs
    refine (declareGlobal_succeeds ground sound hs).bind fun (g, a₁) ⟨hg, sound₁⟩ => ?_
    refine (ih sound₁ hrest).bind fun (globals, a₂) ⟨hglobals, sound₂⟩ => .pure ⟨?_, sound₂⟩
    intro g' hg'
    rcases List.mem_append.1 hg' with hnew | hold
    · exact hg g' (Option.mem_toList.1 hnew)
    · exact hglobals g' hold

omit ground in
theorem expected_succeeds (held : g.Held p₀) :
    Succeeds (g.expected a.program) fun o => ∀ t, o = some t → p₀.TypeHeld t := by
  unfold Global.expected
  split
  · refine (sound.get_var held.id).bind fun r hr => .pure fun t ht => ?_
    cases ht
    exact hr
  · exact .pure fun t ht => nomatch ht

theorem readOrder_succeeds (held : g.Held p₀) :
    Succeeds (g.readOrder a.program) fun _ => True := by
  unfold Global.readOrder
  split
  · next e he =>
    have hlt := held.init e he
    exact readOrderWithin_succeeds sound hlt (sound.depth_lt ground hlt)
  · exact .pure trivial

theorem settle_succeeds (source : String) (held : g.Held p₀) (order : Nat) :
    Succeeds (settle source a g order) fun a' => Sound p₀ depth reached a'.program := by
  refine (expected_succeeds sound held).bind fun expected hexpected => ?_
  refine (typeExpr?_succeeds sound hexpected ground held.init).bind fun (t, a') typed => ?_
  refine (typed.sound.update_var
    (f := fun v => { v with order, type := if g.declared then v.type else t.getD .error })
    held.id (fun _ => rfl) fun r hr => ?_).bind fun vars h => .pure h
  by_cases hd : g.declared
  · simpa only [hd, if_true] using hr
  · simp only [hd]
    exact typed.getD .error

theorem settleRound_succeeds (source : String) {globals : List Global}
    (held : ∀ g ∈ globals, g.Held p₀) :
    Succeeds (settleRound source a globals) fun r =>
      (∀ g ∈ r.1, g.Held p₀) ∧ Sound p₀ depth reached r.2.program := by
  induction globals generalizing a with
  | nil => exact .pure ⟨by simp, sound⟩
  | cons g rest ih =>
    obtain ⟨hg, hrest⟩ := List.forall_mem_cons.1 held
    refine (readOrder_succeeds ground sound hg).bind fun found _ => ?_
    cases found with
    | some order =>
      exact (settle_succeeds ground sound source hg _).bind fun a₁ sound₁ => ih sound₁ hrest
    | none =>
      exact (ih sound hrest).bind fun (waiting, a₁) ⟨hwaiting, sound₁⟩ =>
        .pure ⟨List.forall_mem_cons.2 ⟨hg, hwaiting⟩, sound₁⟩

theorem settleRounds_succeeds (source : String) (rounds : Nat) {globals : List Global}
    (held : ∀ g ∈ globals, g.Held p₀) :
    Succeeds (settleRounds source rounds a globals) fun r =>
      (∀ g ∈ r.1, g.Held p₀) ∧ Sound p₀ depth reached r.2.program := by
  induction rounds generalizing a globals with
  | zero => exact .pure ⟨held, sound⟩
  | succ rounds ih =>
    refine (settleRound_succeeds ground sound source held).bind fun (left, a₁) ⟨hleft, sound₁⟩ => ?_
    by_cases hlt : left.length < globals.length
    · simp only [hlt, if_true]
      exact ih sound₁ hleft
    · simp only [hlt]
      exact .pure ⟨hleft, sound₁⟩

theorem reportCycle_succeeds (source : String) (held : g.Held p₀) :
    Succeeds (reportCycle source a g) fun a' => Sound p₀ depth reached a'.program := by
  refine (expected_succeeds sound held).bind fun expected hexpected => ?_
  refine (typeExpr?_succeeds sound hexpected ground held.init).bind fun (t, a₁) typed => ?_
  have hend : ∀ a₂ : Analysis, Sound p₀ depth reached a₂.program → Succeeds
      (if g.declared then pure a₂
        else do return { a₂ with program := ← a₂.program.setVariableType g.id .error })
      fun a' : Analysis => Sound p₀ depth reached a'.program := by
    intro a₂ sound₂
    split
    · exact .pure sound₂
    · exact (sound₂.setVariableType held.id .error).bind fun p h => .pure h
  cases hinit : g.init with
  | none => exact hend a₁ typed.sound
  | some e => exact (raiseAt_succeeds typed.sound (held.init e hinit) _).bind hend

theorem typeGlobals_succeeds (source : String) {statements : List StmtId}
    (hs : ∀ s ∈ statements, s.raw < p₀.stmts.size) :
    Succeeds (typeGlobals source a statements) fun a' => Sound p₀ depth reached a'.program := by
  refine (declareGlobals_succeeds ground sound hs).bind fun (globals, a₁) ⟨held, sound₁⟩ => ?_
  refine (settleRounds_succeeds ground sound₁ source _ held).bind
    fun (left, a₂) ⟨hleft, sound₂⟩ => ?_
  exact .foldlM (fun g hg b hb => reportCycle_succeeds ground hb source (hleft g hg)) sound₂

/-! ## Statements -/

theorem typeLeaf_succeeds (source : String) (hs : s.raw < p₀.stmts.size) :
    Succeeds (typeLeaf source a s) fun a' => Sound p₀ depth reached a'.program := by
  refine (sound.get_stmt ground hs).bind fun stmt ⟨held, hexprs, _⟩ => ?_
  have hvalue : ∀ value : ExprId, value.raw < p₀.exprs.size → Succeeds
      (do return (← typeExpr source none a value).2)
      fun a' : Analysis => Sound p₀ depth reached a'.program := fun value hvalue =>
    (typeExpr_succeeds sound typeHeld_of_none ground hvalue).bind
      fun (t, a') ⟨_, h⟩ => .pure h
  obtain ⟨kind, span⟩ := stmt
  cases kind with
  | «variable» v type init =>
    refine (typeNamed?_succeeds sound fun e he => hexprs e (by simp [StmtKind.exprs, he])).bind
      fun (declared, a₁) hdeclared => ?_
    refine (typeExpr?_succeeds hdeclared.sound hdeclared.type ground
      fun e he => hexprs e (by simp [StmtKind.exprs, he])).bind fun (inferred, a₂) hinferred => ?_
    refine (hinferred.sound.setVariableType held ?_).bind fun p h => .pure h
    cases hd : declared with
    | some t => exact hdeclared.type t hd
    | none =>
      cases hi : inferred with
      | some t => exact hinferred.type t hi
      | none => exact .error
  | assign lhs rhs =>
    refine (typeExpr_succeeds sound typeHeld_of_none ground
      (hexprs lhs (by simp [StmtKind.exprs]))).bind fun (target, a₁) ⟨htarget, sound₁⟩ => ?_
    refine (typeExpr_succeeds sound₁ (fun t ht => ?_) ground
      (hexprs rhs (by simp [StmtKind.exprs]))).bind fun (t, a₂) ⟨_, h⟩ => .pure h
    cases ht
    exact htarget
  | output value | evaluate value => exact hvalue value (hexprs value (by simp [StmtKind.exprs]))
  | returnValue value =>
    cases value with
    | some value => exact hvalue value (hexprs value (by simp [StmtKind.exprs]))
    | none => exact .pure sound
  | _ => exact .pure sound

theorem typeHead_succeeds (source : String) (hs : s.raw < p₀.stmts.size) :
    Succeeds (typeHead source a s) fun a' => Sound p₀ depth reached a'.program := by
  refine (sound.get_stmt ground hs).bind fun stmt ⟨held, hexprs, _⟩ => ?_
  have hcondition : ∀ condition : ExprId, condition.raw < p₀.exprs.size → Succeeds
      (do return (← typeExpr source (some .bool) a condition).2)
      fun a' : Analysis => Sound p₀ depth reached a'.program := fun condition hcondition => by
    refine (typeExpr_succeeds sound (fun t ht => ?_) ground hcondition).bind
      fun (t, a') ⟨_, h⟩ => .pure h
    cases ht
    exact .of_none rfl
  obtain ⟨kind, span⟩ := stmt
  cases kind with
  | nest head body =>
    cases head with
    | ifThen condition | elseIf condition | whileDo condition =>
      exact hcondition condition (hexprs _ (by simp [StmtKind.exprs, Head.expr?]))
    | forEach iterator iterable =>
      have hiterable := hexprs iterable (by simp [StmtKind.exprs, Head.expr?])
      refine (typeExpr_succeeds sound typeHeld_of_none ground hiterable).bind
        fun (t, a₁) ⟨_, sound₁⟩ => ?_
      refine (sound₁.get_expr hiterable).bind fun x fits => ?_
      refine (sound₁.setVariableType held ?_).bind fun p h => .pure h
      -- a loop over an enum type runs through its values
      cases hk : x.kind with
      | typeName t =>
        cases t with
        | enum u => exact fits.type _ hk
        | _ => exact .error
      | range first last => exact .of_none rfl
      | _ => exact .error
    | _ => exact .pure sound
  | _ => exact .pure sound

theorem enterBlock_succeeds (source : String) (topLevel : Bool) {block : Block}
    {outline : Outline} {i j : Nat} (lays : Lays p₀ i j outline)
    (hscope : block.symbolTable.isSentinel = false) :
    Succeeds (enterBlock source topLevel block outline a)
      fun a' => Sound p₀ depth reached a'.program := by
  obtain ⟨direct, hdirect, hheld⟩ := lays.direct_held
  have hlt : ∀ s ∈ direct, s.raw < p₀.stmts.size := fun s hs => by
    obtain ⟨stmt, hstmt⟩ := hheld s hs
    exact Table.lt_size_of_get? hstmt
  simp only [enterBlock, hscope, Bool.false_eq_true, if_false]
  refine (Succeeds.of_eq hdirect rfl).lift.bind ?_
  rintro _ rfl
  refine (typeSignatures_succeeds sound ground hlt).lift.bind fun a₁ sound₁ => ?_
  cases topLevel with
  | true => exact (typeGlobals_succeeds ground sound₁ source hlt).lift
  | false => exact .pure sound₁

/-- **The walk of an outline succeeds** where every body has a scope. -/
theorem typeOutline_succeeds (source : String) (topLevel : Bool) {outline : Outline} {i j : Nat}
    (lays : Lays p₀ i j outline) (scopes : ∀ k, i ≤ k → k < j → reached ⟨k⟩) :
    Succeeds (typeOutline source topLevel outline a)
      fun a' => Sound p₀ depth reached a'.program := by
  induction lays generalizing topLevel a with
  | done i => exact .pure sound
  | @leaf i j rest single tail ih =>
    have hs : i < p₀.stmts.size := lt_size_of_bodyOf single
    have hglobal : Succeeds (a.isGlobal ⟨i⟩) fun _ => True := by
      refine (sound.get_stmt ground hs).bind fun stmt _ => ?_
      split
      · exact .pure trivial
      · exact .pure trivial
    refine hglobal.lift.bind fun settled _ => ?_
    have hrest : ∀ a₁ : Analysis, Sound p₀ depth reached a₁.program →
        Succeeds (typeOutline source topLevel rest a₁)
          fun a' => Sound p₀ depth reached a'.program := fun a₁ sound₁ =>
      ih sound₁ topLevel fun k hik hkj => scopes k (by omega) hkj
    cases hsettled : topLevel && settled with
    | true =>
      exact hrest a sound
    | false =>
      exact (typeLeaf_succeeds ground sound source hs).lift.bind hrest
  | @nested i k j block body rest owns place inner tail ihBody ihRest =>
    have hle := inner.le
    have hle' := tail.le
    have hs : i < p₀.stmts.size := lt_size_of_bodyOf owns
    refine (typeHead_succeeds ground sound source hs).lift.bind fun a₁ sound₁ => ?_
    obtain ⟨block', howns⟩ := bodyOf_some_congr sound₁.frame owns
    have hscope := sound₁.bodies ⟨i⟩ (scopes i (Nat.le_refl _) (by omega)) block' howns
    refine (Succeeds.of_eq howns rfl).lift.bind ?_
    rintro _ rfl
    refine (enterBlock_succeeds ground sound₁ source false inner hscope).bind fun a₂ sound₂ => ?_
    refine (ihBody sound₂ false fun l hil hlk => scopes l (by omega) (by omega)).bind
      fun a₃ sound₃ => ?_
    exact ihRest sound₃ topLevel fun l hkl hlj => scopes l (by omega) hlj

end

/-- **Type resolution succeeds on sound programs** whose blocks have
scopes, and leaves a sound program. -/
theorem resolveTypes_succeeds (source : String) (ground : a.program.Grounded depth)
    (sound : Sound a.program depth reached a.program) {i j : Nat}
    (lays : Lays a.program i j (a.program.outline a.program.block))
    (scopes : ∀ k, i ≤ k → k < j → reached ⟨k⟩)
    (hscope : a.program.block.symbolTable.isSentinel = false) :
    Succeeds (a.resolveTypes source) fun a' => Sound a.program depth reached a'.program :=
  (enterBlock_succeeds ground sound source true lays hscope).bind fun _ sound' =>
    typeOutline_succeeds ground sound' source true lays scopes

end Analysis

end FrontEnd
