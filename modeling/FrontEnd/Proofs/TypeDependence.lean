import FrontEnd.Proofs.Regular
/-!
# FrontEnd — what the type of an expression depends on

`typeOf` looks at the kinds of what lies under an expression and at the
types of the declarations named there, and at nothing else
(`typeOf_congr`). It does not look at recorded types.
-/

namespace FrontEnd

/-- The declaration a node refers to whose type is looked up. -/
def ExprKind.target? : ExprKind → Option Target
  | .variable v => some (.variable v)
  | .function f => some (.function f)
  | .parameter a => some (.parameter a)
  | _ => none

namespace Program

/-- The type of a declaration; that of a function is what it returns. -/
def typeAt (p : Program) : Target → Except Fault Ty
  | .variable v => return (← p.vars.get v).type
  | .function f => return (← p.functions.get f).returnType
  | .parameter a => return (← p.parameters.get a).type
  | .enumType _ | .structType _ => return .none

/-- The declaration is named under the expression. -/
def Mentions (p : Program) (e : ExprId) (t : Target) : Prop :=
  ∃ c x, p.Under e c ∧ p.exprs.get? c = some x ∧ x.kind.target? = some t

variable {p p' : Program} {e c : ExprId} {x : Expr} {t : Target}

/-- The type of a variable is that of its record. -/
theorem typeAt_variable {v : VariableId} {type : Ty} (h : p.typeAt (.variable v) = .ok type) :
    ∃ r, p.vars.get v = .ok r ∧ r.type = type := by
  obtain ⟨r, hr, h⟩ := bind_eq_ok.1 h
  exact ⟨r, hr, pure_eq_ok.1 h⟩

theorem Mentions.of_operand (hc : c ∈ p.operandsAt e) (h : p.Mentions c t) : p.Mentions e t := by
  obtain ⟨d, x, hd, hx, ht⟩ := h
  exact ⟨d, x, hd.of_operand hc, hx, ht⟩

/-- A node that refers to nothing mentions what its operands mention. -/
theorem not_mentions_leaf {es : List ExprId} (hx : p.exprs.get? e = some x)
    (hops : p.operands x.kind = .ok es) (hes : ∀ c ∈ es, ∀ t, ¬ p.Mentions c t)
    (hk : x.kind.target? = none) (t : Target) : ¬ p.Mentions e t := by
  rintro ⟨c, y, hu, hy, ht⟩
  rcases under_iff.1 hu with rfl | ⟨d, hd, hu⟩
  · rw [hx] at hy
    rw [← Option.some.inj hy, hk] at ht
    cases ht
  · rw [operandsAt_of_get (Table.get_eq_ok.2 hx) hops] at hd
    exact hes d hd t ⟨c, y, hu, hy, ht⟩

/-- What is mentioned depends on the kinds of expressions. -/
theorem mentions_of_kinds {r : ExprId}
    (hget : ∀ d, (p'.exprs.get? d).map Expr.kind = (p.exprs.get? d).map Expr.kind)
    (harguments : p'.arguments = p.arguments) (h : p.Mentions r t) : p'.Mentions r t := by
  obtain ⟨c, y, hu, hy, hk⟩ := h
  have hops : ∀ d, p'.operandsAt d = p.operandsAt d := by
    intro d
    have := hget d
    simp only [operandsAt, Table.get, operands_congr harguments]
    cases hd : p.exprs.get? d with
    | none =>
      rw [hd] at this
      rw [Option.map_eq_none_iff.1 this]
    | some z =>
      rw [hd] at this
      obtain ⟨z', hz', hkind⟩ := Option.map_eq_some_iff.1 this
      rw [hz']
      simp only [ok_bind, hkind]
  have hc := hget c
  rw [hy] at hc
  obtain ⟨y', hy', hkind⟩ := Option.map_eq_some_iff.1 hc
  exact ⟨c, y', (under_congr hops).2 hu, hy', hkind ▸ hk⟩

/-- What programs agree on that give an expression one type. -/
structure AgreeUnder (p p' : Program) (e : ExprId) : Prop where
  kinds : ∀ c, p.Under e c →
    (p'.exprs.get? c).map Expr.kind = (p.exprs.get? c).map Expr.kind
  types : ∀ t, p.Mentions e t → p'.typeAt t = p.typeAt t
  enumTypes : p'.enumTypes = p.enumTypes

theorem AgreeUnder.operand (h : AgreeUnder p p' e) (hc : c ∈ p.operandsAt e) :
    AgreeUnder p p' c where
  kinds d hd := h.kinds d (hd.of_operand hc)
  types t ht := h.types t (ht.of_operand hc)
  enumTypes := h.enumTypes

theorem AgreeUnder.exists_get (h : AgreeUnder p p' e) (hx : p.exprs.get? e = some x) :
    ∃ x', p'.exprs.get? e = some x' ∧ x'.kind = x.kind := by
  have := h.kinds e .refl
  rw [hx] at this
  obtain ⟨x', hx', hkind⟩ := Option.map_eq_some_iff.1 this
  exact ⟨x', hx', hkind⟩

theorem AgreeUnder.typeAt_of_kind (h : AgreeUnder p p' e) (hx : p.exprs.get? e = some x)
    (ht : x.kind.target? = some t) : p'.typeAt t = p.typeAt t :=
  h.types t ⟨e, x, .refl, hx, ht⟩

theorem typeOfWithin_congr {fuel : Nat} (held : p.OperandsHeld) (h : AgreeUnder p p' e) :
    p'.typeOfWithin fuel e = p.typeOfWithin fuel e := by
  induction fuel generalizing e with
  | zero => rfl
  | succ fuel ih =>
    cases hx : p.exprs.get? e with
    | none =>
      have hx' : p'.exprs.get? e = none := by
        have := h.kinds e .refl
        rw [hx] at this
        exact Option.map_eq_none_iff.1 this
      simp only [typeOfWithin, Table.get, hx, hx']
      rfl
    | some x =>
      obtain ⟨x', hx', hkind⟩ := h.exists_get hx
      have hrec : ∀ c ∈ p.operandsAt e, p'.typeOfWithin fuel c = p.typeOfWithin fuel c :=
        fun c hc => ih (h.operand hc)
      have htype := fun t ht => @AgreeUnder.typeAt_of_kind _ _ _ _ t h hx ht
      simp only [typeOfWithin, Table.get_eq_ok.2 hx, Table.get_eq_ok.2 hx', ok_bind, hkind]
      cases hk : x.kind with
      | «variable» v => exact htype (.variable v) (by rw [hk]; rfl)
      | parameter a => exact htype (.parameter a) (by rw [hk]; rfl)
      | function f => exact htype (.function f) (by rw [hk]; rfl)
      | enumValue v => simp only [enumTypeOf, h.enumTypes]
      | unary op operand =>
        have hc : operand ∈ p.operandsAt e := by simp [operandsAt_unary hx hk]
        cases op with
        | not => rfl
        | _ => exact hrec operand hc
      | binary op lhs rhs =>
        have hl : lhs ∈ p.operandsAt e := by simp [operandsAt_binary hx hk]
        have hr : rhs ∈ p.operandsAt e := by simp [operandsAt_binary hx hk]
        simp only [hrec lhs hl, hrec rhs hr]
      | call callee arguments =>
        have hagree := h.operand (held.mem_of_call hx hk)
        -- a call has the type of the function that its callee names
        cases hy : p.exprs.get? callee with
        | none =>
          have hy' : p'.exprs.get? callee = none := by
            have := hagree.kinds callee .refl
            rw [hy] at this
            exact Option.map_eq_none_iff.1 this
          simp only [Table.get, hy, hy']
          rfl
        | some y =>
          obtain ⟨y', hy', hkind'⟩ := hagree.exists_get hy
          simp only [Table.get_eq_ok.2 hy, Table.get_eq_ok.2 hy', ok_bind, hkind']
          cases hk' : y.kind with
          | function f =>
            exact hagree.typeAt_of_kind hy (t := .function f) (by rw [hk']; rfl)
          | _ => rfl
      | _ => rfl

/-- **The type of an expression depends only on the kinds under it and on
the types of the declarations named there.** -/
theorem typeOf_congr (held : p.OperandsHeld) (hsize : p'.exprs.size = p.exprs.size)
    (h : AgreeUnder p p' e) : p'.typeOf e = p.typeOf e := by
  rw [typeOf, typeOf, exprDepth, exprDepth, hsize, typeOfWithin_congr held h]

end Program

end FrontEnd
