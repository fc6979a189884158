import FrontEnd.Proofs.Positions
/-!
# FrontEnd — what the type pass reports

Whatever the type pass reports is wrong with the program that it starts
from: something stands in the place of a type that is none, an enum type
has no value of the name that is selected from it (`TypeError`), or a
top-level variable is left over when all others are settled
(`CycleError`). The nodes that have been reported stay what they are,
since only names that are found become values (`Grown`).
-/

namespace FrontEnd

namespace Program

/-- A node of the kind selects from an enum type a value that the type
does not have. -/
def Lacks (p : Program) (source : String) (kind : ExprKind) : Prop :=
  ∃ subject name y t, kind = .field subject name ∧ p.exprs.get? subject = some y ∧
    y.kind = .typeName (.enum t) ∧ p.findEnumValue source t name = .ok none

/-- What may become a value does not lack it. -/
theorem MayBeValue.not_lacks {p : Program} {source : String} {kind : ExprKind}
    (h : p.MayBeValue source kind) : ¬ p.Lacks source kind := by
  rintro ⟨subject, name, y, t, rfl, hy, hyk, hfind⟩
  rcases h with hk | ⟨subject', name', y', t', v, hk, hy', hyk', hfind'⟩
  · cases hk
  · cases hk
    cases hy.symm.trans hy'
    cases hyk.symm.trans hyk'
    cases hfind.symm.trans hfind'

/-- What the type pass may have made of a node. -/
structure Grown (source : String) (p₀ : Program) (e : ExprId) (x₀ x : Expr) : Prop where
  span : x.span = x₀.span
  kind : x.kind = x₀.kind ∨
    p₀.InValue e ∧ (∃ v, x.kind = .enumValue v) ∧ p₀.MayBeValue source x₀.kind

/-- What there is to be reported when types are resolved, cycles apart. -/
inductive TypeError (p : Program) (source : String) : Diagnostic → Prop
  | misplaced {e : ExprId} {x : Expr} {code : Code} (he : p.InType e)
      (hx : p.exprs.get? e = some x) (hcode : x.kind.misplaced? = some code) :
      TypeError p source (.ofCode code x.span)
  | noValue {e : ExprId} {x : Expr} (he : p.InValue e) (hx : p.exprs.get? e = some x)
      (lacks : p.Lacks source x.kind) : TypeError p source (.ofCode .unknownEnumValue x.span)

end Program

/-- The diagnostic is about the initializer of a top-level variable that
has no order in the end. -/
def Program.CycleError (p₀ p : Program) (d : Diagnostic) : Prop :=
  ∃ s ∈ p₀.globals, ∃ e x r, (p₀.globalOf s).init = some e ∧ p₀.exprs.get? e = some x ∧
    p.vars.get? (p₀.globalOf s).id = some r ∧ r.order = 0 ∧ d = .ofCode .cyclicInitializer x.span

open Analysis

/-- The type pass has come from the program to here, and has reported
nothing but what is told. -/
structure Analysis.Told (source : String) (p₀ : Program) (told : Diagnostic → Prop) (a : Analysis) :
    Prop where
  pruned : Program.Pruned p₀ a.program
  nodes : ∀ e x, a.program.exprs.get? e = some x →
    ∃ x₀, p₀.exprs.get? e = some x₀ ∧ p₀.Grown source e x₀ x
  said : ∀ d ∈ a.queue.diagnostics, told d

variable {source : String} {p₀ p : Program} {told : Diagnostic → Prop} {a a' b : Analysis}
variable {e : ExprId} {x x₀ : Expr} {d : Diagnostic} {s : StmtId} {type : Ty}

theorem Program.findEnumValue_congr (h : p.frame = p₀.frame) (t : EnumTypeId) (name : Span) :
    p.findEnumValue source t name = p₀.findEnumValue source t name := by
  have htypes : p.enumTypes = p₀.enumTypes := (congrArg Program.enumTypes h :)
  have hvalues : p.enumValues = p₀.enumValues := (congrArg Program.enumValues h :)
  simp only [Program.findEnumValue, htypes, hvalues]

theorem Program.Grown.kind_eq (h : p₀.Grown source e x₀ x) (hk : ∀ v, x.kind ≠ .enumValue v) :
    x.kind = x₀.kind :=
  h.kind.resolve_right fun ⟨_, ⟨v, hv⟩, _⟩ => hk v hv

namespace Analysis.Told

/-- A field that lacks its value has done so from the start. -/
theorem lacks (h : a.Told source p₀ told) (hx : a.program.exprs.get? e = some x)
    (lacks : a.program.Lacks source x.kind) :
    ∃ x₀, p₀.exprs.get? e = some x₀ ∧ x.span = x₀.span ∧ p₀.Lacks source x₀.kind := by
  obtain ⟨subject, name, y, t, hk, hy, hyk, hfind⟩ := lacks
  obtain ⟨x₀, hx₀, grown⟩ := h.nodes e x hx
  obtain ⟨y₀, hy₀, grown'⟩ := h.nodes subject y hy
  refine ⟨x₀, hx₀, grown.span, subject, name, y₀, t, ?_, hy₀, ?_, ?_⟩
  · rw [← grown.kind_eq (by simp [hk]), hk]
  · rw [← grown'.kind_eq (by simp [hyk]), hyk]
  · rw [← Program.findEnumValue_congr h.pruned.frame, hfind]

/-- What may become a value could have done so from the start. -/
theorem mayBeValue (h : a.Told source p₀ told) (hmay : a.program.MayBeValue source x.kind)
    (grown : p₀.Grown source e x₀ x) : p₀.MayBeValue source x₀.kind := by
  have hsame : x.kind = x₀.kind := grown.kind_eq fun v hv => by
    have hopen := hmay.isOpen
    rw [hv] at hopen
    cases hopen
  rw [← hsame]
  refine hmay.imp_right fun ⟨subject, name, y, t, v, hk, hy, hyk, hfind⟩ => ?_
  obtain ⟨y₀, hy₀, grown'⟩ := h.nodes subject y hy
  refine ⟨subject, name, y₀, t, v, hk, hy₀, ?_, ?_⟩
  · rw [← grown'.kind_eq (by simp [hyk]), hyk]
  · rw [← Program.findEnumValue_congr h.pruned.frame, hfind]

/-! ## Single changes -/

/-- What leaves expressions and reports alone. -/
theorem of_exprs (h : a.Told source p₀ told) (hp : Program.Pruned p₀ b.program)
    (hexprs : b.program.exprs = a.program.exprs) (hqueue : b.queue = a.queue) :
    b.Told source p₀ told where
  pruned := hp
  nodes := hexprs ▸ h.nodes
  said := hqueue ▸ h.said

theorem setExprType (h : a.Told source p₀ told) (hx : a.program.exprs.get? e = some x) (type : Ty) :
    Analysis.Told source p₀ told { a with program := a.program.setExprType e type } where
  pruned := (Changes.setExprType hx type).pruned h.pruned
  nodes c y hy := by
    simp only [Program.setExprType, Table.get?_modify] at hy
    split at hy
    · next hc =>
      obtain ⟨z, hz, rfl⟩ := Option.map_eq_some_iff.1 hy
      obtain ⟨z₀, hz₀, grown⟩ := h.nodes c z hz
      exact ⟨z₀, hz₀, grown.span, grown.kind⟩
    · exact h.nodes c y hy
  said := h.said

theorem report (h : a.Told source p₀ told) (hd : told d) (hr : a.report e d = .ok a') :
    a'.Told source p₀ told where
  pruned := (Changes.report hr).pruned h.pruned
  nodes c y hy := by
    obtain ⟨z, hz⟩ := Table.exists_get?_of_lt
      ((Changes.report hr).size ▸ Table.lt_size_of_get? hy)
    obtain ⟨z', hz', same⟩ := (Flags.report hr).exprs c z hz
    rw [hy] at hz'
    obtain rfl := Option.some.inj hz'
    obtain ⟨z₀, hz₀, grown⟩ := h.nodes c z hz
    refine ⟨z₀, hz₀, same.span.trans grown.span, ?_⟩
    rw [same.kind]
    exact grown.kind
  said d' hd' := (mem_of_report hr hd').elim (h.said d') fun heq => heq ▸ hd

end Analysis.Told

/-! ## Expressions -/

section
variable (hsaid : ∀ d, p₀.TypeError source d → told d) (once : p₀.UsedOnce)
include hsaid once

/-- **What names no type is reported as that.** -/
theorem typeNamed_told (h : a.Told source p₀ told) (he : p₀.InType e)
    (hrun : a.typeNamed e = .ok (type, a')) : a'.Told source p₀ told := by
  obtain ⟨y, hy, -⟩ := bind_eq_ok.1 hrun
  rw [Table.get_eq_ok] at hy
  rw [typeNamed_eq hy] at hrun
  obtain ⟨b, hb, hrun⟩ := bind_eq_ok.1 hrun
  cases pure_eq_ok.1 hrun
  obtain ⟨y₀, hy₀, grown⟩ := h.nodes e y hy
  have hkind : y.kind = y₀.kind := grown.kind.resolve_right fun hv =>
    once.not_inValue_of_inType he hv.1
  have toldb : b.Told source p₀ told := by
    unfold reportMisplaced at hb
    split at hb
    · cases hb
      exact h
    · next code hcode =>
      refine h.report (hsaid _ ?_) hb
      rw [grown.span]
      exact .misplaced he hy₀ (hkind ▸ hcode)
  obtain ⟨z, hz⟩ : ∃ z, b.program.exprs.get? e = some z := by
    obtain ⟨z₀, hz₀⟩ : ∃ z₀, p₀.exprs.get? e = some z₀ := ⟨y₀, hy₀⟩
    exact Table.exists_get?_of_lt
      (Program.size_exprs_congr toldb.pruned.frame ▸ Table.lt_size_of_get? hz₀)
  exact toldb.setExprType hz _

omit once in
/-- **A name becomes a value if there is one**, and a field of an enum
type is reported if there is none. -/
theorem nameEnumValue_told {expected : Option Ty} (h : a.Told source p₀ told) (he : p₀.InValue e)
    (hrun : nameEnumValue source expected a e = .ok a') : a'.Told source p₀ told := by
  obtain ⟨x, hx, -⟩ := bind_eq_ok.1 hrun
  rw [Table.get_eq_ok] at hx
  obtain ⟨x₀, hx₀, grown⟩ := h.nodes e x hx
  rcases nameEnumValue_cases hrun hx with ⟨rfl, -, -⟩ | ⟨hmay, hnone, v, hv, rfl⟩ |
    ⟨subject, name, y, t, hk, hy, hyk, hfind, hreport⟩
  · exact h
  · refine ⟨(Changes.setKind hx hmay.isOpen hnone hv).pruned h.pruned, fun c z hz => ?_, h.said⟩
    simp only [Program.setKind, Table.get?_modify] at hz
    split at hz
    · next hc =>
      subst hc
      rw [hx] at hz
      cases hz
      exact ⟨x₀, hx₀, grown.span, .inr ⟨he, ⟨v, rfl⟩, h.mayBeValue hmay grown⟩⟩
    · exact h.nodes c z hz
  · -- a value is looked for that there is not
    obtain ⟨x₁, hx₁, hspan, lacks⟩ := h.lacks hx ⟨subject, name, y, t, hk, hy, hyk, hfind⟩
    refine h.report (hsaid _ ?_) hreport
    rw [hspan]
    exact .noValue he hx₁ lacks

omit once in
/-- **What is reported about an expression is that enum types do not have
the values that are selected from them.** -/
theorem typeExprWithin_told {fuel : Nat} {expected : Option Ty} (h : a.Told source p₀ told)
    (he : p₀.InValue e) (hrun : typeExprWithin source fuel expected a e = .ok (type, a')) :
    a'.Told source p₀ told := by
  induction fuel generalizing expected a e type a' with
  | zero => cases hrun
  | succ fuel ih =>
    obtain ⟨x, hx, h₁⟩ := bind_eq_ok.1 hrun
    rw [Table.get_eq_ok] at hx
    obtain ⟨es, hes, h₂⟩ := bind_eq_ok.1 h₁
    obtain ⟨b, hb, h₃⟩ := bind_eq_ok.1 h₂
    obtain ⟨c, hname, hrecord⟩ := bind_eq_ok.1 h₃
    obtain rfl : es = a.program.operandsAt e :=
      Except.ok.inj (hes.symm.trans (h.pruned.held.operands_eq hx))
    have toldb : b.Told source p₀ told := by
      refine foldlM_invariant (Analysis.Told source p₀ told) (fun d hd b b' hb hstep => ?_) h hb
      obtain ⟨⟨type, b''⟩, htyped, hb'⟩ := bind_eq_ok.1 hstep
      cases pure_eq_ok.1 hb'
      exact ih hb (he.operand (h.pruned.mem_operandsAt hd)) htyped
    have toldc := nameEnumValue_told hsaid toldb he hname
    obtain ⟨z, hz⟩ : ∃ z, c.program.exprs.get? e = some z := by
      obtain ⟨x₀, hx₀, -⟩ := h.nodes e x hx
      exact Table.exists_get?_of_lt
        (Program.size_exprs_congr toldc.pruned.frame ▸ Table.lt_size_of_get? hx₀)
    obtain ⟨rfl, -⟩ := recordType_done toldc.pruned.held hrecord hz
    exact toldc.setExprType hz _

omit once in
theorem typeExpr?_told {init : Option ExprId} {expected found : Option Ty}
    (h : a.Told source p₀ told) (hinit : ∀ e, init = some e → p₀.InValue e)
    (hrun : typeExpr? source expected a init = .ok (found, a')) : a'.Told source p₀ told := by
  cases init with
  | none =>
    cases hrun
    exact h
  | some e =>
    obtain ⟨⟨type, b⟩, hb, hrun⟩ := bind_eq_ok.1 hrun
    cases pure_eq_ok.1 hrun
    exact typeExprWithin_told hsaid h (hinit e rfl) hb

theorem typeNamed?_told {typeExpr : Option ExprId} {found : Option Ty}
    (h : a.Told source p₀ told) (htype : ∀ e, typeExpr = some e → p₀.InType e)
    (hrun : a.typeNamed? typeExpr = .ok (found, a')) : a'.Told source p₀ told := by
  cases typeExpr with
  | none =>
    cases hrun
    exact h
  | some e =>
    obtain ⟨⟨type, b⟩, hb, hrun⟩ := bind_eq_ok.1 hrun
    cases pure_eq_ok.1 hrun
    exact typeNamed_told hsaid once h (htype e rfl) hb

/-! ## Statements -/

variable (regular : p₀.Regular)
include regular

theorem runTask_told {x : Task} (h : a.Told source p₀ told) (hx : x ∈ p₀.tasks s)
    (hrun : runTask source a x = .ok a') : a'.Told source p₀ told := by
  cases x with
  | name e =>
    obtain ⟨⟨type, b⟩, hb, hrun⟩ := bind_eq_ok.1 hrun
    cases pure_eq_ok.1 hrun
    exact typeNamed_told hsaid once h
      (regular.inType_of_mem ((Program.mem_tasks_name regular.declarations).1 hx)) hb
  | value e expected =>
    obtain ⟨⟨type, b⟩, hb, hrun⟩ := bind_eq_ok.1 hrun
    cases pure_eq_ok.1 hrun
    exact typeExprWithin_told hsaid h
      (regular.inValue_of_mem (Program.mem_valuesAt_of_task regular.declarations hx) .refl) hb
  | give t origin =>
    obtain ⟨p', hp', hrun⟩ := bind_eq_ok.1 hrun
    cases pure_eq_ok.1 hrun
    have hchanges := (setTypeAt_done hp').1
    refine h.of_exprs (hchanges.pruned h.pruned) ?_ rfl
    exact Table.ext_get? fun e => hchanges.exprs e fun hf => hf

theorem visits_told {ss : List StmtId} (h : a.Told source p₀ told)
    (hrun : ss.foldlM (visit source p₀) a = .ok a') : a'.Told source p₀ told :=
  foldlM_invariant (Analysis.Told source p₀ told) (fun _ _ _ _ hb hvisit =>
    foldlM_invariant (Analysis.Told source p₀ told) (fun _ hx _ _ hc hrun =>
      runTask_told hsaid once regular hc hx hrun) hb hvisit) h hrun

/-! ## Top-level variables -/

omit hsaid once in
/-- The initializer of a variable is a value. -/
theorem inValue_of_init (hs : p₀.declaresVariable s = true) (he : (p₀.globalOf s).init = some e) :
    p₀.InValue e := by
  obtain ⟨expected, hx⟩ := mem_value_tasks hs he
  exact regular.inValue_of_mem (Program.mem_valuesAt_of_task regular.declarations hx) .refl

theorem declareGlobal_told {g : Option Global} (h : a.Told source p₀ told)
    (hs : p₀.declaresVariable s = true) (hrun : a.declareGlobal s = .ok (g, a')) :
    a'.Told source p₀ told := by
  obtain ⟨v, typeExpr, init, span, hs⟩ := Program.exists_of_declaresVariable hs
  have hpruned := (declareGlobal_done regular once hs h.pruned hrun).2.1.pruned h.pruned
  obtain ⟨⟨kind', span'⟩, hs', hframe⟩ := exists_stmt h.pruned hs
  obtain rfl : kind' = .variable v typeExpr init := by
    cases kind' <;> cases hframe
    rfl
  simp only [declareGlobal, Table.get_eq_ok.2 hs', ok_bind] at hrun
  obtain ⟨⟨type, b⟩, hnamed, hrun⟩ := bind_eq_ok.1 hrun
  obtain ⟨vars, -, hrun⟩ := bind_eq_ok.1 hrun
  obtain ⟨-, rfl⟩ := Prod.mk.inj (pure_eq_ok.1 hrun)
  refine (typeNamed?_told hsaid once h (fun e he => ?_) hnamed).of_exprs hpruned rfl rfl
  exact regular.inType_of_mem ((Program.mem_tasks_name regular.declarations).1
    ((name_mem_tasks hs).2 he))

omit once in
theorem settle_told {n : Nat} (h : a.Told source p₀ told) (hs : p₀.declaresVariable s = true)
    (hrun : settle source a (p₀.globalOf s) n = .ok a') : a'.Told source p₀ told := by
  obtain ⟨expected, -, hrun⟩ := bind_eq_ok.1 hrun
  obtain ⟨⟨type, b⟩, hb, hrun⟩ := bind_eq_ok.1 hrun
  obtain ⟨vars, hvars, hrun⟩ := bind_eq_ok.1 hrun
  cases pure_eq_ok.1 hrun
  have toldb := typeExpr?_told hsaid h (fun e he => inValue_of_init regular hs he) hb
  have hchanges := (Changes.update_var hvars fun r => by rfl).1
  exact toldb.of_exprs (hchanges.pruned toldb.pruned) rfl rfl

omit once in
theorem settleRound_told {W left : List Global} (h : a.Told source p₀ told)
    (hW : ∀ g ∈ W, ∃ s, p₀.declaresVariable s = true ∧ g = p₀.globalOf s)
    (hrun : settleRound source a W = .ok (left, a')) :
    a'.Told source p₀ told ∧ ∀ g ∈ left, g ∈ W := by
  induction W generalizing a left with
  | nil =>
    cases pure_eq_ok.1 hrun
    exact ⟨h, by simp⟩
  | cons g W ih =>
    obtain ⟨⟨s, hs, rfl⟩, hrest⟩ := List.forall_mem_cons.1 hW
    obtain ⟨found, -, hrun⟩ := bind_eq_ok.1 hrun
    cases found with
    | some n =>
      obtain ⟨b, hsettle, hrun⟩ := bind_eq_ok.1 hrun
      obtain ⟨ha', hsub⟩ := ih (settle_told hsaid regular h hs hsettle) hrest hrun
      exact ⟨ha', fun g hg => List.mem_cons_of_mem _ (hsub g hg)⟩
    | none =>
      obtain ⟨⟨left', b⟩, hround, hrun⟩ := bind_eq_ok.1 hrun
      obtain ⟨rfl, rfl⟩ := Prod.mk.inj (pure_eq_ok.1 hrun)
      obtain ⟨hb, hsub⟩ := ih h hrest hround
      refine ⟨hb, fun g hg => ?_⟩
      rcases List.mem_cons.1 hg with rfl | hg
      · exact List.mem_cons_self
      · exact List.mem_cons_of_mem _ (hsub g hg)

omit once in
theorem settleRounds_told {rounds : Nat} {W left : List Global} (h : a.Told source p₀ told)
    (hW : ∀ g ∈ W, ∃ s, p₀.declaresVariable s = true ∧ g = p₀.globalOf s)
    (hrun : settleRounds source rounds a W = .ok (left, a')) : a'.Told source p₀ told := by
  induction rounds generalizing a W with
  | zero =>
    cases pure_eq_ok.1 hrun
    exact h
  | succ rounds ih =>
    obtain ⟨⟨left', b⟩, hround, hrun⟩ := bind_eq_ok.1 hrun
    obtain ⟨hb, hsub⟩ := settleRound_told hsaid regular h hW hround
    dsimp only at hrun
    split at hrun
    · exact ih hb (fun g hg => hW g (hsub g hg)) hrun
    · cases pure_eq_ok.1 hrun
      exact hb

omit once in
/-- **A cycle is reported at the initializer that reads its way into it.** -/
theorem reportCycle_told (h : a.Told source p₀ told) (hs : p₀.declaresVariable s = true)
    (hinit : (p₀.globalOf s).init = some e)
    (hcycle : ∀ x, p₀.exprs.get? e = some x → told (.ofCode .cyclicInitializer x.span))
    (hrun : reportCycle source a (p₀.globalOf s) = .ok a') : a'.Told source p₀ told := by
  obtain ⟨expected, -, hrun⟩ := bind_eq_ok.1 hrun
  obtain ⟨⟨type, b⟩, hb, hrun⟩ := bind_eq_ok.1 hrun
  have toldb := typeExpr?_told hsaid h (fun e he => inValue_of_init regular hs he) hb
  simp only [hinit] at hrun
  obtain ⟨c, hreport, hrun⟩ := bind_eq_ok.1 hrun
  obtain ⟨x, hx, -⟩ := bind_eq_ok.1 hreport
  rw [Table.get_eq_ok] at hx
  obtain ⟨x₀, hx₀, grown⟩ := toldb.nodes e x hx
  rw [raiseAt_eq hx, grown.span] at hreport
  have toldc := toldb.report (hcycle x₀ hx₀) hreport
  split at hrun
  · cases pure_eq_ok.1 hrun
    exact toldc
  · obtain ⟨p', hp', hrun⟩ := bind_eq_ok.1 hrun
    cases pure_eq_ok.1 hrun
    obtain ⟨vars, hvars, hp'⟩ := bind_eq_ok.1 hp'
    cases pure_eq_ok.1 hp'
    exact toldc.of_exprs ((Changes.update_var hvars fun _ => rfl).1.pruned toldc.pruned) rfl rfl

end

/-! ## The whole pass -/

variable (regular : p₀.Regular) (once : p₀.UsedOnce) (inScope : p₀.InScope)

include regular in
/-- The order of a top-level variable is not changed any more once the
cycles have been reported. -/
theorem get?_global_of_order {c : Analysis} (hs : s ∈ p₀.globals)
    (h : Changes (p₀.RegionOf (p₀.order true (p₀.outline p₀.block)))
      (p₀.OwnedBy (p₀.order true (p₀.outline p₀.block))) c a') :
    a'.program.vars.get? (p₀.globalOf s).id = c.program.vars.get? (p₀.globalOf s).id := by
  refine h.vars _ fun ⟨s', hs', howned⟩ => ?_
  have hne : s ≠ s' := by
    rintro rfl
    exact (List.nodup_append.1 (List.nodup_append.1 (nodup_visited regular)).2.1).2.2 s hs s hs' rfl
  exact hne (regular.owners s s' _ (owned_globalOf (declares_of_mem_globals hs)) howned)

include regular once inScope in
/-- **Whatever the type pass reports is wrong with the program**: it was
there before, or it is a type error, or a cycle that is one in the end. -/
theorem resolveTypes_told (held : p₀.OperandsHeld) {q : Queue}
    (isScoped : ∀ s, p₀.Scoped s) (fresh : ∀ e x, p₀.exprs.get? e = some x → x.flagged = false)
    (h : Analysis.resolveTypes ⟨p₀, q⟩ source = .ok a') :
    a'.Told source p₀ fun d =>
      d ∈ q.diagnostics ∨ p₀.TypeError source d ∨ p₀.CycleError a'.program d := by
  have hp : Program.Pruned p₀ p₀ := .refl held
  obtain ⟨_, b, c, went⟩ := resolveTypes_run (a := ⟨p₀, q⟩) regular once inScope hp isScoped fresh h
  have hpb := went.visitedF.changes.pruned hp
  have hnodupG := (List.nodup_append.1 (List.nodup_append.1 (nodup_visited regular)).2.1).1
  obtain ⟨L, b', c', run⟩ :=
    typeGlobals_run regular once hpb (direct_held regular) hnodupG went.fresh went.globals
  have hL : ∀ s ∈ L, s ∈ p₀.globals := fun s hs => run.done.sub.subset hs
  have hdeclares : ∀ s ∈ p₀.globals, p₀.declaresVariable s = true := fun s => declares_of_mem_globals
  have hpc' := run.done.changes.pruned (run.begun.pruned hpb)
  obtain ⟨-, horders, -⟩ := reportCycles_done regular once hpc' (run.done.sub.nodup hnodupG)
    (fun s hs => hdeclares s (hL s hs)) run.done.begun run.reads run.cycles
  generalize htold : (fun d => d ∈ q.diagnostics ∨ p₀.TypeError source d ∨
    p₀.CycleError a'.program d) = told
  have hsaid : ∀ d, p₀.TypeError source d → told d := by
    rintro d hd
    rw [← htold]
    exact .inr (.inl hd)
  have start : Analysis.Told source p₀ told ⟨p₀, q⟩ :=
    ⟨hp, fun e x hx => ⟨x, hx, rfl, .inl rfl⟩, fun d hd => by rw [← htold]; exact .inl hd⟩
  have toldb := visits_told hsaid once regular start went.functions
  have toldb' : b'.Told source p₀ told := by
    refine foldlM_invariant (Analysis.Told source p₀ told) (fun s hs d d' hd hstep => ?_) toldb
      run.declared
    obtain ⟨⟨g, d''⟩, hdeclare, hd'⟩ := bind_eq_ok.1 hstep
    cases pure_eq_ok.1 hd'
    exact declareGlobal_told hsaid once regular hd (hdeclares s hs) hdeclare
  have toldc' : c'.Told source p₀ told := by
    refine settleRounds_told hsaid regular toldb' (fun g hg => ?_) run.rounds
    obtain ⟨s, hs, rfl⟩ := List.mem_map.1 hg
    exact ⟨s, hdeclares s hs, rfl⟩
  have toldc : c.Told source p₀ told := by
    refine foldlM_invariant (Analysis.Told source p₀ told) (fun g hg d d' hd hstep => ?_) toldc'
      run.cycles
    obtain ⟨s, hs, rfl⟩ := List.mem_map.1 hg
    obtain ⟨e, he, -⟩ := (run.reads s hs).exists_init
    refine reportCycle_told hsaid regular hd (hdeclares s (hL s hs)) he (fun x hx => ?_) hstep
    -- what is left over has no order, and gets none any more
    obtain ⟨r, hr, hzero, -⟩ := (run.done.begun s hs).waiting.var
    obtain ⟨r', hr', horder⟩ : ∃ r', c.program.vars.get? (p₀.globalOf s).id = some r' ∧
        r'.order = r.order := by
      have horder := horders (p₀.globalOf s).id
      rw [hr] at horder
      exact Option.map_eq_some_iff.1 horder
    rw [← htold]
    refine .inr (.inr ⟨s, hL s hs, e, x, r', he, hx, ?_, horder.trans hzero, rfl⟩)
    rw [get?_global_of_order regular (hL s hs) went.visitedR.changes, hr']
  exact visits_told hsaid once regular toldc went.others

end FrontEnd
