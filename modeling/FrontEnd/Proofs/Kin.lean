import FrontEnd.Proofs.Agree
import FrontEnd.Proofs.Told
/-!
# FrontEnd — programs that are kin

The type pass says the same about programs that are `Kin`. One use of
this is a program next to itself: then it says that a run does not depend
on the voice. The other is a program next to what the type pass has made
of it before: enum values may stand there in the place of names, types are
recorded, variables have their orders, and still the same is reported.

This module has what is read off such programs, and the changes that keep
them kin.
-/

namespace FrontEnd

open Analysis

/-! ## Programs that are kin -/

namespace Program

/-- A node of the kind is an enum value, or the type pass may make one of
it without a word. -/
def Silent (p : Program) (source : String) (kind : ExprKind) : Prop :=
  (∃ v, kind = .enumValue v) ∨ p.MayBeValue source kind

/-- Nothing has changed but the types that are recorded, and that the
expression `e` may have become an enum value. -/
structure Hushed (p : Program) (e : ExprId) (p' : Program) : Prop where
  frame : p'.frame = p.frame
  vars : p'.vars = p.vars
  kinds : ∀ c x x', p.exprs.get? c = some x → p'.exprs.get? c = some x' →
    x'.kind = x.kind ∨ c = e ∧ x.kind.isOpen = true ∧ ∃ v, x'.kind = .enumValue v

end Program

/-- What two runs have in common. -/
structure Setting where
  source : String
  /-- The runs are exactly the same. -/
  exact : Prop
  /-- What stands in the place of a type. -/
  types : ExprId → Prop
  /-- The variables whose orders are known to be the same. -/
  settled : VariableId → Prop
  /-- The program of which both come. -/
  start : Program

/-- The second program has the nodes of the first, but for those which may
be an enum value in one of them and a silent name in the other. -/
structure Kin (t : Setting) (c d : Program) : Prop where
  same : t.exact → c = d
  left : c.frame = t.start.frame
  right : d.frame = t.start.frame
  kinds : ∀ e x y, c.exprs.get? e = some x → d.exprs.get? e = some y →
    y.kind = x.kind ∨ ¬ t.types e ∧ c.Silent t.source x.kind ∧ d.Silent t.source y.kind
  operands : ∀ e, ∀ o ∈ c.operandsAt e, ¬ t.types o
  orders : ∀ v r r', t.settled v → c.vars.get? v = some r → d.vars.get? v = some r' →
    r'.order = r.order

/-- Both runs have come to programs that are kin. -/
inductive Kinned (t : Setting) : (Voice → Analysis) → (Voice → Analysis) → Prop
  | intro {c d : Program} (kin : Kin t c d) : Kinned t c.sounding d.sounding

/-- Both runs have come to programs that are kin, with results that are
related. -/
inductive KinnedWith {α : Type} (t : Setting) (T : α → α → Prop) :
    (Voice → α × Analysis) → (Voice → α × Analysis) → Prop
  | intro {c d : Program} {x y : α} (related : T x y) (kin : Kin t c d) :
      KinnedWith t T (fun v => (x, c.sounding v)) (fun v => (y, d.sounding v))

/-- The results are the same if the runs are. -/
def Setting.Same {α : Type} (t : Setting) (x y : α) : Prop := t.exact → x = y

variable {t : Setting} {c c' d d' p p' p₁ : Program} {e o : ExprId} {x x' y : Expr} {source : String}
variable {kind : ExprKind}

/-! ## Silent nodes -/

namespace Program

/-- The name of a type is not silent. -/
theorem not_silent_typeName (type : Ty) : ¬ p.Silent source (.typeName type) := by
  rintro (⟨v, h⟩ | h | ⟨subject, name, y, t, v, h, -⟩) <;> cases h

theorem silent_enumValue (v : EnumValueId) : p.Silent source (.enumValue v) := .inl ⟨v, rfl⟩

/-- What is silent here is silent where subjects that name types are the
same. -/
theorem Silent.congr (h : p.Silent source kind) (hframe : p'.frame = p.frame)
    (hkinds : ∀ e x x' type, p.exprs.get? e = some x → p'.exprs.get? e = some x' →
      x.kind = .typeName type → x'.kind = .typeName type) : p'.Silent source kind := by
  rcases h with h | h | ⟨subject, name, y, t, v, hk, hy, hyk, hfind⟩
  · exact .inl h
  · exact .inr (.inl h)
  · obtain ⟨y', hy', -⟩ := exists_expr_congr hframe hy
    refine .inr (.inr ⟨subject, name, y', t, v, hk, hy', hkinds subject y y' _ hy hy' hyk, ?_⟩)
    rw [findEnumValue_congr hframe, hfind]

namespace Hushed

theorem refl (p : Program) (e : ExprId) : p.Hushed e p :=
  ⟨rfl, rfl, fun c x x' hx hx' => .inl (by rw [hx] at hx'; cases hx'; rfl)⟩

theorem trans (h : p.Hushed e p₁) (h' : p₁.Hushed e p') : p.Hushed e p' where
  frame := h'.frame.trans h.frame
  vars := h'.vars.trans h.vars
  kinds c x x' hx hx' := by
    obtain ⟨x₁, hx₁, -⟩ := exists_expr_congr h.frame hx
    rcases h.kinds c x x₁ hx hx₁ with hk | ⟨rfl, hopen, v, hv⟩
    · exact hk ▸ h'.kinds c x₁ x' hx₁ hx'
    · rcases h'.kinds c x₁ x' hx₁ hx' with hk' | ⟨-, -, hv'⟩
      · exact .inr ⟨rfl, hopen, v, hk'.trans hv⟩
      · exact .inr ⟨rfl, hopen, hv'⟩

theorem setExprType (p : Program) (e o : ExprId) (type : Ty) : p.Hushed e (p.setExprType o type) where
  frame := frame_setExprType ..
  vars := rfl
  kinds c x x' hx hx' := by
    simp only [Program.setExprType, Table.get?_modify, hx] at hx'
    split at hx' <;> cases hx' <;> exact .inl rfl

theorem setKind (hx : p.exprs.get? e = some x) (hopen : x.kind.isOpen = true) (v : EnumValueId) :
    p.Hushed e (p.setKind e (.enumValue v)) where
  frame := frame_setKind ..
  vars := rfl
  kinds c z z' hz hz' := by
    simp only [Program.setKind, Table.get?_modify, hz] at hz'
    split at hz'
    · next hc =>
      rw [hc, hx] at hz
      cases hz
      cases hz'
      exact .inr ⟨hc, hopen, v, rfl⟩
    · cases hz'
      exact .inl rfl

/-- What names a type still does. -/
theorem typeName {type : Ty} (h : p.Hushed e p') (hx : p.exprs.get? o = some x)
    (hx' : p'.exprs.get? o = some x') (hk : x.kind = .typeName type) : x'.kind = .typeName type := by
  rcases h.kinds o x x' hx hx' with hk' | ⟨-, hopen, -⟩
  · rw [hk', hk]
  · rw [hk] at hopen
    cases hopen

theorem silent (h : p.Hushed e p') (hs : p.Silent source kind) : p'.Silent source kind :=
  hs.congr h.frame fun _ _ _ _ hx hx' hk => h.typeName hx hx' hk

/-- What was silent is so still, whatever it may have become. -/
theorem silent_at (h : p.Hushed e p') (hx : p.exprs.get? o = some x)
    (hx' : p'.exprs.get? o = some x') (hs : p.Silent source x.kind) : p'.Silent source x'.kind := by
  rcases h.kinds o x x' hx hx' with hk | ⟨-, -, v, hv⟩
  · rw [hk]
    exact h.silent hs
  · rw [hv]
    exact silent_enumValue v

end Hushed

end Program

open Program

/-! ## Reading off programs that are kin -/

namespace Kin

/-- A program is kin to itself. -/
theorem refl (hframe : c.frame = t.start.frame)
    (hoperands : ∀ e, ∀ o ∈ c.operandsAt e, ¬ t.types o) : Kin t c c where
  same _ := rfl
  left := hframe
  right := hframe
  kinds e x y hx hy := .inl (by rw [hx] at hy; cases hy; rfl)
  operands := hoperands
  orders v r r' _ hr hr' := by rw [hr] at hr'; cases hr'; rfl

variable (k : Kin t c d)
include k

theorem frame : d.frame = c.frame := k.right.trans k.left.symm

theorem arguments : d.arguments = c.arguments := (congrArg Program.arguments k.frame :)

theorem exists_right (hx : c.exprs.get? e = some x) :
    ∃ y, d.exprs.get? e = some y ∧ y.span = x.span := by
  obtain ⟨y, hy, heq⟩ := exists_expr_congr k.frame hx
  exact ⟨y, hy, (congrArg Expr.span heq :)⟩

theorem findEnumValue (u : EnumTypeId) (name : Span) :
    d.findEnumValue t.source u name = c.findEnumValue t.source u name :=
  findEnumValue_congr k.frame u name

theorem typeName {type : Ty} (hx : c.exprs.get? e = some x) (hy : d.exprs.get? e = some y) :
    x.kind = .typeName type ↔ y.kind = .typeName type := by
  rcases k.kinds e x y hx hy with hk | ⟨-, hc, hd⟩
  · rw [hk]
  · constructor
    · intro h
      exact absurd (h ▸ hc) (not_silent_typeName type)
    · intro h
      exact absurd (h ▸ hd) (not_silent_typeName type)

theorem silent_iff : c.Silent t.source kind ↔ d.Silent t.source kind :=
  ⟨fun h => h.congr k.frame fun _ _ _ _ hx hy => (k.typeName hx hy).1,
    fun h => h.congr k.frame.symm fun _ _ _ _ hx hy => (k.typeName hy hx).2⟩

theorem silent_right (hx : c.exprs.get? e = some x) (hy : d.exprs.get? e = some y)
    (hs : c.Silent t.source x.kind) : d.Silent t.source y.kind := by
  rcases k.kinds e x y hx hy with hk | ⟨-, -, hd⟩
  · rw [hk]
    exact k.silent_iff.1 hs
  · exact hd

/-- In the place of a type the nodes are the same. -/
theorem kind_of_type (he : t.exact ∨ t.types e) (hx : c.exprs.get? e = some x)
    (hy : d.exprs.get? e = some y) : y.kind = x.kind := by
  rcases he with hexact | he
  · rw [← k.same hexact, hx] at hy
    cases hy
    rfl
  · exact (k.kinds e x y hx hy).resolve_right fun h => h.1 he

/-- To look an expression up. -/
theorem expr {σ σ' : Type} {S : (Voice → σ) → (Voice → σ') → Prop}
    {f : Voice → Expr → Except Fault σ} {g : Voice → Expr → Except Fault σ'}
    (h : ∀ x y, c.exprs.get? e = some x → d.exprs.get? e = some y → Agree t.exact S
      (fun v => f v { x with flagged := v.flags e }) (fun v => g v { y with flagged := v.flags e })) :
    Agree t.exact S (fun v => (c.sounding v).program.exprs.get e >>= f v)
      (fun v => (d.sounding v).program.exprs.get e >>= g v) := by
  cases hx : c.exprs.get? e with
  | none =>
    refine .error (e := .outOfRange) fun v => ?_
    rw [show (c.sounding v).program.exprs.get e = _ from get_voiced e, Table.get, hx]
    rfl
  | some x =>
    obtain ⟨y, hy, -⟩ := k.exists_right hx
    refine (h x y hx hy).congr (fun v => ?_) (fun v => ?_)
    · rw [show (c.sounding v).program.exprs.get e = _ from get_voiced e, Table.get_eq_ok.2 hx]
      rfl
    · rw [show (d.sounding v).program.exprs.get e = _ from get_voiced e, Table.get_eq_ok.2 hy]
      rfl

end Kin

/-! ## Changes -/

/-- What has become an enum value has no operands any more. -/
theorem Program.Hushed.mem_operandsAt {b : ExprId} (h : p.Hushed e p')
    (ho : o ∈ p'.operandsAt b) : o ∈ p.operandsAt b := by
  have harguments : p'.arguments = p.arguments := (congrArg Program.arguments h.frame :)
  obtain ⟨x', hx'⟩ := Table.exists_get?_of_lt (lt_size_of_mem_operandsAt ho)
  obtain ⟨x, hx, -⟩ := exists_expr_congr h.frame.symm hx'
  simp only [operandsAt, Table.get_eq_ok.2 hx', ok_bind] at ho
  simp only [operandsAt, Table.get_eq_ok.2 hx, ok_bind]
  rcases h.kinds b x x' hx hx' with hk | ⟨-, -, v, hv⟩
  · rwa [hk, operands_congr harguments] at ho
  · rw [hv] at ho
    cases ho

namespace Kin

/-- Both programs are hushed at one expression. -/
theorem hush (k : Kin t c d) (hc : c.Hushed e c') (hd : d.Hushed e d') (hsame : t.exact → c' = d')
    (he : ∀ x y, c'.exprs.get? e = some x → d'.exprs.get? e = some y →
      y.kind = x.kind ∨ ¬ t.types e ∧ c'.Silent t.source x.kind ∧ d'.Silent t.source y.kind) :
    Kin t c' d' where
  same := hsame
  left := hc.frame.trans k.left
  right := hd.frame.trans k.right
  kinds b x' y' hx' hy' := by
    by_cases hb : b = e
    · subst hb
      exact he x' y' hx' hy'
    · -- away from there both nodes are as they were
      obtain ⟨x, hx, -⟩ := exists_expr_congr hc.frame.symm hx'
      obtain ⟨y, hy, -⟩ := exists_expr_congr hd.frame.symm hy'
      have hxk := (hc.kinds b x x' hx hx').resolve_right fun h => hb h.1
      have hyk := (hd.kinds b y y' hy hy').resolve_right fun h => hb h.1
      rw [hxk, hyk]
      exact (k.kinds b x y hx hy).imp_right fun h => ⟨h.1, hc.silent h.2.1, hd.silent h.2.2⟩
  operands b o ho := k.operands b o (hc.mem_operandsAt ho)
  orders v r r' hv hr hr' := k.orders v r r' hv (hc.vars ▸ hr) (hd.vars ▸ hr')

/-- Both programs are hushed where both are silent. -/
theorem hush_silent (k : Kin t c d) (hc : c.Hushed e c') (hd : d.Hushed e d')
    (hsame : t.exact → c' = d') (ht : ¬ t.types e) (hx : c.exprs.get? e = some x)
    (hs : c.Silent t.source x.kind) : Kin t c' d' := by
  refine k.hush hc hd hsame fun x' y' hx' hy' => .inr ⟨ht, hc.silent_at hx hx' hs, ?_⟩
  obtain ⟨y, hy, -⟩ := k.exists_right hx
  exact hd.silent_at hy hy' (k.silent_right hx hy hs)

theorem setExprType (k : Kin t c d) {type type' : Ty} (htype : t.Same type type') (e : ExprId) :
    Kin t (c.setExprType e type) (d.setExprType e type') := by
  have hc := Hushed.setExprType c e e type
  have hd := Hushed.setExprType d e e type'
  refine k.hush hc hd (fun h => by rw [k.same h, htype h]) fun x' y' hx' hy' => ?_
  obtain ⟨x, hx, rfl⟩ : ∃ x, c.exprs.get? e = some x ∧ { x with type } = x' := by
    simpa [Program.setExprType, Table.get?_modify] using hx'
  obtain ⟨y, hy, rfl⟩ : ∃ y, d.exprs.get? e = some y ∧ { y with type := type' } = y' := by
    simpa [Program.setExprType, Table.get?_modify] using hy'
  exact (k.kinds e x y hx hy).imp_right fun h => ⟨h.1, hc.silent h.2.1, hd.silent h.2.2⟩

end Kin

/-! ## Reports -/

theorem Program.get_sounding (hx : p.exprs.get? e = some x) (v : Voice) :
    (p.sounding v).program.exprs.get e = .ok { x with flagged := v.flags e } := by
  rw [show (p.sounding v).program.exprs.get e = _ from get_voiced e, Table.get_eq_ok.2 hx]
  rfl

theorem Program.get_sounding_none (hx : p.exprs.get? e = none) (v : Voice) :
    (p.sounding v).program.exprs.get e = .error .outOfRange := by
  rw [show (p.sounding v).program.exprs.get e = _ from get_voiced e, Table.get, hx]
  rfl

theorem Program.raiseAt_sounding (hx : p.exprs.get? e = some x) (code : Code) (v : Voice) :
    (p.sounding v).raiseAt code e =
      .ok (p.sounding (v.hearAll [⟨e, .ofCode code x.span⟩])) := by
  rw [raiseAt, get_sounding hx, ok_bind, report_sounding hx]
  rfl

/-- The same is reported of both programs. -/
theorem Kin.raiseAt (k : Kin t c d) (code : Code) (e : ExprId) :
    Agree t.exact (Kinned t) (fun v => (c.sounding v).raiseAt code e)
      (fun v => (d.sounding v).raiseAt code e) := by
  cases hx : c.exprs.get? e with
  | none => exact .error fun v => by rw [Analysis.raiseAt, get_sounding_none hx]; rfl
  | some x =>
    obtain ⟨y, hy, hspan⟩ := k.exists_right hx
    exact .ok _ (raiseAt_sounding hx code) (fun v => by rw [raiseAt_sounding hy, hspan]) ⟨k⟩

end FrontEnd
