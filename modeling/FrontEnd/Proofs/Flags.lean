import FrontEnd.Proofs.ReadOrder
import FrontEnd.Proofs.ScopeLinks
import FrontEnd.Proofs.Tasks
/-!
# FrontEnd — what only reports

A part of a pass that only reports changes nothing but the flags of
expressions and the queue, and to resolve names that mean nothing
changes nothing but scopes (`Flags`). Whatever the type pass has done is
still done after that.
-/

namespace FrontEnd

/-- The expression is the same, but may have been flagged. -/
structure Expr.Same (x x' : Expr) : Prop where
  kind : x'.kind = x.kind
  span : x'.span = x.span
  type : x'.type = x.type
  flagged : x.flagged = true → x'.flagged = true

/-- Nothing has changed but flags, scopes and what is reported. -/
structure Flags (a a' : Analysis) : Prop where
  exprs : ∀ e x, a.program.exprs.get? e = some x →
    ∃ x', a'.program.exprs.get? e = some x' ∧ x.Same x'
  size : a'.program.exprs.size = a.program.exprs.size
  rest : a'.program.unscoped = a.program.unscoped
  queue : a.queue.Grows a'.queue

namespace Expr.Same

variable {x x' x'' : Expr}

theorem refl (x : Expr) : x.Same x := ⟨rfl, rfl, rfl, fun h => h⟩

theorem trans (h : x.Same x') (h' : x'.Same x'') : x.Same x'' :=
  ⟨h'.kind.trans h.kind, h'.span.trans h.span, h'.type.trans h.type,
    fun hf => h'.flagged (h.flagged hf)⟩

end Expr.Same

namespace Flags

variable {a a' a'' : Analysis} {e : ExprId} {x : Expr} {t : Target} {d : Diagnostic}
variable {source : String} {p₀ : Program}

theorem refl (a : Analysis) : Flags a a := ⟨fun _ x hx => ⟨x, hx, .refl x⟩, rfl, rfl, .refl _⟩

theorem trans (h : Flags a a') (h' : Flags a' a'') : Flags a a'' where
  exprs e x hx := by
    obtain ⟨x', hx', hs⟩ := h.exprs e x hx
    obtain ⟨x'', hx'', hs'⟩ := h'.exprs e x' hx'
    exact ⟨x'', hx'', hs.trans hs'⟩
  size := h'.size.trans h.size
  rest := h'.rest.trans h.rest
  queue := h.queue.trans h'.queue

/-- A report flags its expression at most. -/
theorem report (h : a.report e d = .ok a') : Flags a a' := by
  obtain ⟨x, -, hgrows, -, hprogram⟩ := Analysis.report_eq_ok h
  rcases hprogram with hsame | ⟨-, hflag, -⟩
  · refine ⟨fun c y hy => ⟨y, by rw [hsame]; exact hy, .refl y⟩, by rw [hsame], by rw [hsame], hgrows⟩
  · refine ⟨fun c y hy => ?_, by rw [hflag]; simp [Program.flag], by rw [hflag]; rfl, hgrows⟩
    rw [hflag]
    simp only [Program.flag, Table.get?_modify]
    split
    · exact ⟨{ y with flagged := true }, by rw [hy]; rfl, rfl, rfl, rfl, fun _ => rfl⟩
    · exact ⟨y, hy, .refl y⟩

theorem unmoved (h : a.Unmoved a') : Flags a a' := by
  refine ⟨fun e x hx => ⟨x, by rw [h.program]; exact hx, .refl x⟩, ?_, ?_, h.grows⟩ <;> rw [h.program]

/-! ## What is read off a program that has been flagged -/

variable (h : Flags a a')

include h

/-- A view that does not see the flags sees no change. -/
theorem get?_map {β : Type} {f : Expr → β} (hf : ∀ x x' : Expr, x.Same x' → f x' = f x) (e : ExprId) :
    (a'.program.exprs.get? e).map f = (a.program.exprs.get? e).map f := by
  cases hx : a.program.exprs.get? e with
  | none =>
    rw [Table.get?_eq_none_iff] at hx
    rw [Table.get?_eq_none_iff.2 (h.size ▸ hx)]
  | some x =>
    obtain ⟨x', hx', hs⟩ := h.exprs e x hx
    rw [hx', Option.map_some, Option.map_some, hf x x' hs]

theorem get?_kind (e : ExprId) :
    (a'.program.exprs.get? e).map Expr.kind = (a.program.exprs.get? e).map Expr.kind :=
  h.get?_map (fun _ _ hs => hs.kind) e

/-- Every expression was there before. -/
theorem back {x' : Expr} (hx' : a'.program.exprs.get? e = some x') :
    ∃ x, a.program.exprs.get? e = some x ∧ x.Same x' := by
  obtain ⟨x, hx⟩ := Table.exists_get?_of_lt (h.size ▸ Table.lt_size_of_get? hx')
  obtain ⟨x'', hx'', hs⟩ := h.exprs e x hx
  rw [hx'] at hx''
  exact ⟨x, hx, Option.some.inj hx'' ▸ hs⟩

theorem vars : a'.program.vars = a.program.vars := by
  have := congrArg Program.vars h.rest
  exact this

theorem returnTypes (f : FunctionId) : (a'.program.functions.get? f).map (·.returnType) =
    (a.program.functions.get? f).map (·.returnType) := by
  have hfunctions := congrArg (fun q : Program => q.functions.get? f) h.rest
  simp only [Program.unscoped, Table.get?_map] at hfunctions
  have := congrArg (Option.map (·.returnType)) hfunctions
  rw [Option.map_map, Option.map_map] at this
  exact this

theorem parameters : a'.program.parameters = a.program.parameters := by
  have := congrArg Program.parameters h.rest
  exact this

theorem arguments : a'.program.arguments = a.program.arguments := by
  have := congrArg Program.arguments h.rest
  exact this

theorem enumTypes : a'.program.enumTypes = a.program.enumTypes := by
  have := congrArg Program.enumTypes h.rest
  exact this

theorem enumValues : a'.program.enumValues = a.program.enumValues := by
  have := congrArg Program.enumValues h.rest
  exact this

theorem operandsAt (e : ExprId) : a'.program.operandsAt e = a.program.operandsAt e := by
  have := h.get?_kind e
  simp only [Program.operandsAt, Table.get, Program.operands_congr h.arguments]
  cases hx : a.program.exprs.get? e with
  | none =>
    rw [hx] at this
    rw [Option.map_eq_none_iff.1 this]
  | some x =>
    rw [hx] at this
    obtain ⟨x', hx', hkind⟩ := Option.map_eq_some_iff.1 this
    simp only [hx', ok_bind, hkind]

theorem under {c : ExprId} : a'.program.Under e c ↔ a.program.Under e c :=
  Program.under_congr h.operandsAt

theorem mentions : a'.program.Mentions e t ↔ a.program.Mentions e t :=
  ⟨Program.mentions_of_kinds (fun d => (h.get?_kind d).symm) h.arguments.symm,
    Program.mentions_of_kinds h.get?_kind h.arguments⟩

theorem typeAt (t : Target) : a'.program.typeAt t = a.program.typeAt t := by
  cases t with
  | function f =>
    have hread : ∀ q : Program, q.typeAt (.function f) =
        ((q.functions.get? f).map (·.returnType)).elim (.error .outOfRange) .ok := by
      intro q
      simp only [Program.typeAt, Table.get]
      cases q.functions.get? f <;> rfl
    rw [hread, hread, h.returnTypes]
  | _ => simp only [Program.typeAt, h.vars, h.parameters]

theorem typeOf (held : a.program.OperandsHeld) : a'.program.typeOf e = a.program.typeOf e :=
  Program.typeOf_congr held h.size ⟨fun c _ => h.get?_kind c, fun t _ => h.typeAt t, h.enumTypes⟩

theorem findEnumValue (t : EnumTypeId) (name : Span) :
    a'.program.findEnumValue source t name = a.program.findEnumValue source t name := by
  simp only [Program.findEnumValue, h.enumTypes, h.enumValues]

theorem quiet (hq : a.Quiet e d) : a'.Quiet e d := by
  rcases hq with ⟨x, hx, hf⟩ | hr
  · obtain ⟨x', hx', hs⟩ := h.exprs e x hx
    exact .inl ⟨x', hx', hs.flagged hf⟩
  · exact .inr (h.queue.refuses hr)

theorem typeFrom (origin : Origin) : a'.program.typeFrom origin = a.program.typeFrom origin := by
  cases origin with
  | always type => rfl
  | recorded e =>
    rw [Program.typeFrom, Program.typeFrom, Program.recorded_eq, Program.recorded_eq,
      h.get?_map fun _ _ hs => hs.type]
  | iterated e => rw [Program.typeFrom_iterated, Program.typeFrom_iterated, h.get?_kind]

theorem held (held : a.program.OperandsHeld) : a'.program.OperandsHeld := by
  intro e x' hx'
  have hk := h.get?_kind e
  rw [hx'] at hk
  obtain ⟨x, hx, hkind⟩ := Option.map_eq_some_iff.1 hk.symm
  rw [← hkind, Program.operands_congr h.arguments]
  exact held e x hx

theorem frame : a'.program.frame = a.program.frame := by
  refine Program.frame_of_unscoped h.rest (Table.ext_get? fun e => ?_)
  rw [Table.get?_map, Table.get?_map]
  exact h.get?_map (fun x x' hs => by simp only [Expr.frame, hs.span]) e

theorem pruned (hp : Program.Pruned p₀ a.program) : Program.Pruned p₀ a'.program where
  held := h.held hp.held
  operandsAt e := by
    rw [h.operandsAt]
    exact hp.operandsAt e
  targets e x' t hx' ht := by
    have hk := h.get?_kind e
    rw [hx'] at hk
    obtain ⟨x, hx, hkind⟩ := Option.map_eq_some_iff.1 hk.symm
    exact hp.targets e x t hx (hkind ▸ ht)
  frame := h.frame.trans hp.frame

/-! ## What is done is done -/

theorem exprDone {r : ExprId} (held : a.program.OperandsHeld) (done : a.ExprDone source r) :
    a'.ExprDone source r := by
  intro e he
  obtain ⟨x, hx, htype, hfield⟩ := done e (h.under.1 he)
  obtain ⟨x', hx', hs⟩ := h.exprs e x hx
  refine ⟨x', hx', ?_, fun subject name y' t hk hy' hyk => ?_⟩
  · rw [h.typeOf held, hs.type, htype]
  · have hkind := h.get?_kind subject
    rw [hy'] at hkind
    obtain ⟨y, hy, hyk'⟩ := Option.map_eq_some_iff.1 hkind.symm
    obtain ⟨hfind, hquiet⟩ := hfield subject name y t (hs.kind ▸ hk) hy (hyk' ▸ hyk)
    rw [h.findEnumValue, hs.span]
    exact ⟨hfind, h.quiet hquiet⟩

theorem hintDone {expected : Option Ty} (done : a.HintDone source expected e) :
    a'.HintDone source expected e := by
  intro x' t hx' hk he
  obtain ⟨x, hx, hs⟩ := h.back hx'
  rw [h.findEnumValue, hs.span]
  exact done x t hx (hs.kind ▸ hk) he

/-- **A task that is done is done after reporting.** -/
theorem taskDone {x : Task} (held : a.program.OperandsHeld) (done : a.TaskDone source x) :
    a'.TaskDone source x := by
  cases x with
  | name e =>
    obtain ⟨y, hy, htype, hquiet⟩ := done
    obtain ⟨y', hy', hs⟩ := h.exprs e y hy
    refine ⟨y', hy', by rw [hs.type, hs.kind, htype], fun code hcode => ?_⟩
    rw [hs.span]
    exact h.quiet (hquiet code (hs.kind ▸ hcode))
  | value e expected =>
    obtain ⟨hdone, hhint⟩ := done
    refine ⟨h.exprDone held hdone, ?_⟩
    rw [show expected.map a'.program.typeFrom = expected.map a.program.typeFrom from
      congrArg (expected.map ·) (funext h.typeFrom)]
    exact h.hintDone hhint
  | give t origin =>
    exact (h.typeAt t).trans (done.trans (congrArg Except.ok (h.typeFrom origin).symm))

theorem orderRead {found : Option Nat} (read : a.program.OrderRead e found) :
    a'.program.OrderRead e found :=
  read.congr (fun _ => h.mentions.symm) fun _ _ => by rw [h.vars]

end Flags

end FrontEnd
