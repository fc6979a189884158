import FrontEnd.Proofs.NameBinding
import FrontEnd.Proofs.ScopeLinks
/-!
# FrontEnd — the name pass

What the name pass does to a regular program, step by step: it succeeds,
and it binds the names at every place to what can be seen from there.
While it is under way the program is the one it started from but for
names bound and scopes given (`Binding`), and the scopes that are open
spell out the declarations that can be seen (`Sees`).
-/

namespace FrontEnd

namespace Program

/-- The program `p` is `p₀`, but for names bound and scopes given. -/
structure Binding (p₀ p : Program) : Prop where
  held : p.OperandsHeld
  operandsAt : ∀ e, p.operandsAt e = p₀.operandsAt e
  exprs : p.exprs.map Expr.frame = p₀.exprs.map Expr.frame
  rest : p.unscoped = p₀.unscoped

/-- The open scopes spell out what can be seen. -/
structure Sees (p₀ p : Program) (scopes : List OpenScope) (visible : List Target) : Prop where
  nested : NestedScopes p.symbolTables scopes
  symbols : scopes.flatMap (·.symbols) = visible.map p₀.symbolAt

variable {p₀ p p' : Program} {source : String} {visible : List Target} {scopes : List OpenScope}
variable {e : ExprId} {s : StmtId}

namespace Binding

theorem refl (held : p.OperandsHeld) : Binding p p := ⟨held, fun _ => rfl, rfl, rfl⟩

theorem frame (h : Binding p₀ p) : p.frame = p₀.frame := frame_of_unscoped h.rest h.exprs

theorem under_iff (h : Binding p₀ p) {r : ExprId} : p.Under r e ↔ p₀.Under r e :=
  under_congr h.operandsAt

theorem size (h : Binding p₀ p) : p.exprs.size = p₀.exprs.size := size_exprs_congr h.frame

/-- Binding further names. -/
theorem boundBy {sites : List Site} {exprs : Table .expr Expr} (h : Binding p₀ p)
    (hb : BoundBy p₀ source sites p.exprs exprs) : Binding p₀ { p with exprs } where
  held := h.held.boundBy hb rfl
  operandsAt e := (@operandsAt_boundBy p₀ p { p with exprs } _ _ hb rfl e).trans (h.operandsAt e)
  exprs := hb.map_frame.trans h.exprs
  rest := h.rest

/-- What neither expressions nor anything but scopes changes. -/
theorem of_unscoped (h : Binding p₀ p) (he : p'.exprs = p.exprs)
    (hr : p'.unscoped = p.unscoped) : Binding p₀ p' := by
  have ha := arguments_of_unscoped hr
  refine ⟨?_, fun e => ?_, by rw [he, h.exprs], hr.trans h.rest⟩
  · intro e x hx
    obtain ⟨es, hes, hlt⟩ := h.held e x (he ▸ hx)
    exact ⟨es, by rw [operands_congr ha, hes], hlt⟩
  · rw [← h.operandsAt e]
    simp only [Program.operandsAt, he, operands_congr ha]

end Binding

/-! ## Expressions -/

/-- What a name stands for in the open scopes. -/
theorem Sees.meaning (sees : Sees p₀ p scopes visible) (name : Span) :
    p.meaning source (innermost scopes) name = .ok (p₀.means source visible name) := by
  unfold Program.meaning means
  cases Ty.ofKeyword? (name.read source) with
  | some type => rfl
  | none =>
    simp only [sees.nested.findSymbol, ok_bind, sees.symbols, List.find?_map, Option.map_map]
    rfl

/-- A run over several expressions binds the names in each. -/
theorem Binding.foldlM {f : Program → ExprId → Except Fault Program} (h : Binding p₀ p)
    (sees : Sees p₀ p scopes visible) (rs : List ExprId)
    (step : ∀ r ∈ rs, ∀ q, Binding p₀ q → Sees p₀ q scopes visible →
      ∃ exprs, f q r = .ok { q with exprs } ∧ BoundBy p₀ source [(r, visible)] q.exprs exprs) :
    ∃ exprs, rs.foldlM f p = .ok { p with exprs } ∧
      BoundBy p₀ source (rs.map (·, visible)) p.exprs exprs := by
  induction rs generalizing p with
  | nil => exact ⟨p.exprs, rfl, .refl⟩
  | cons r rs ih =>
    obtain ⟨exprs, hr, hb⟩ := step r (by simp) p h sees
    obtain ⟨exprs', hrs, hb'⟩ := ih (h.boundBy hb) ⟨sees.nested, sees.symbols⟩
      fun r' hr' => step r' (List.mem_cons_of_mem _ hr')
    exact ⟨exprs', foldlM_cons_eq_ok.2 ⟨_, hr, hrs⟩, hb.trans hb'⟩

/-- To bind the node of a name is to bind what lies under it: a name has
no operands. -/
theorem Binding.boundBy_name {x : Expr} (h : Binding p₀ p) (hx : p.exprs.get? e = some x)
    (hk : x.kind = .identifier) (source : String) (visible : List Target) :
    BoundBy p₀ source [(e, visible)] p.exprs
      (p.exprs.modify e ({ · with kind := p₀.boundKind source visible x })) := by
  intro e'
  have hleaf : p₀.Under e e' ↔ e' = e :=
    under_leaf_iff ((h.operandsAt e).symm.trans (operandsAt_leaf hx (by rw [hk]; rfl)))
  rw [Table.get?_modify]
  by_cases hee : e' = e
  · rw [if_pos hee, hee, hx]
    have hself : p₀.Under (e, visible).1 e := .refl
    simp only [Option.map_some, Option.some.injEq]
    rw [bindAll, List.foldl_cons, List.foldl_nil, bindAt_of_under hself]
  · rw [if_neg hee]
    cases p.exprs.get? e' with
    | none => rfl
    | some x' =>
      simp only [Option.map_some, Option.some.injEq]
      rw [bindAll, List.foldl_cons, List.foldl_nil, bindAt_of_not_under fun hu => hee (hleaf.1 hu)]

theorem bindExprWithin_ok {fuel : Nat} (h : Binding p₀ p) (sees : Sees p₀ p scopes visible)
    (he : e.raw < p.exprs.size) (hf : e.raw < fuel) :
    ∃ exprs, bindExprWithin source (innermost scopes) fuel p e = .ok { p with exprs } ∧
      BoundBy p₀ source [(e, visible)] p.exprs exprs := by
  induction fuel generalizing p e with
  | zero => omega
  | succ fuel ih =>
    obtain ⟨x, hx⟩ := Table.exists_get?_of_lt he
    have hops := h.held.operands_eq hx
    by_cases hk : x.kind = .identifier
    · have hbound := h.boundBy_name hx hk source visible
      simp only [bindExprWithin, Table.get_eq_ok.2 hx, ok_bind, hk, sees.meaning]
      cases hm : p₀.means source visible x.span with
      | none =>
        have hkind : p₀.boundKind source visible x = .identifier := by simp [boundKind, hk, hm]
        rw [hkind, Table.modify_same hx (by rw [← hk])] at hbound
        exact ⟨p.exprs, rfl, hbound⟩
      | some kind =>
        have hkind : p₀.boundKind source visible x = kind := by simp [boundKind, hk, hm]
        rw [hkind] at hbound
        exact ⟨_, rfl, hbound⟩
    · have hstep : bindExprWithin source (innermost scopes) (fuel + 1) p e =
          (p.operandsAt e).foldlM (bindExprWithin source (innermost scopes) fuel) p := by
        obtain ⟨kind, span, type, flagged⟩ := x
        simp only [bindExprWithin, Table.get_eq_ok.2 hx, ok_bind]
        cases kind with
        | identifier => exact absurd rfl hk
        | _ => simp only [hops, ok_bind]
      have hold : ∀ c ∈ p.operandsAt e, c.raw < e.raw := fun c hc => h.held.older e c hc
      obtain ⟨exprs, hrun, hb⟩ := h.foldlM sees (p.operandsAt e) fun c hc q hq hsees =>
        ih hq hsees (by rw [hq.size, ← h.size]; have := hold c hc; omega)
          (by have := hold c hc; omega)
      refine ⟨exprs, hstep.trans hrun, fun e' => ?_⟩
      rw [hb e', h.operandsAt e]
      cases hx' : p.exprs.get? e' with
      | none => rfl
      | some x' =>
        simp only [Option.map_some, Option.some.injEq]
        refine bindAll_operands fun hee => ?_
        rw [hee, hx, Option.some.injEq] at hx'
        rwa [← hx']

theorem bindExprs_ok (source : String) (h : Binding p₀ p) (sees : Sees p₀ p scopes visible)
    (rs : List ExprId) (held : ∀ r ∈ rs, r.raw < p₀.exprs.size) :
    ∃ exprs, bindExprs source (innermost scopes) p rs = .ok { p with exprs } ∧
      BoundBy p₀ source (rs.map (·, visible)) p.exprs exprs :=
  h.foldlM sees rs fun r hr q hq hsees =>
    have hlt : r.raw < q.exprs.size := by rw [hq.size]; exact held r hr
    bindExprWithin_ok hq hsees hlt (Nat.lt_succ_of_lt hlt)

end Program

end FrontEnd
