import FrontEnd.Proofs.Regular
import FrontEnd.Proofs.Scopes
/-!
# FrontEnd — what binding names does to expressions

Binding the names under an expression turns each of them into what it
means where the expression stands, and leaves every other expression as
it is (`bindAt`). A pass over several expressions is followed in the same
way, one site after the other (`BoundBy`), and never changes which
expressions are operands of which, so that all of it can be said of the
program the pass started from.
-/

namespace FrontEnd

/-- An expression whose names are bound, and the declarations that can be
seen from it. -/
abbrev Site : Type := ExprId × List Target

namespace Program

/-- The expressions of a place, each with what can be seen from it. -/
def sitesAt (p : Program) (place : Place) : List Site :=
  (p.slotsAt place.stmt).map fun r => (r, place.visible)

open Classical in
/-- What binding the names at a site makes of the expression `e`. -/
noncomputable def bindAt (p : Program) (source : String) (e : ExprId) (x : Expr) (site : Site) :
    Expr :=
  if p.Under site.1 e then { x with kind := p.boundKind source site.2 x } else x

/-- What binding the names at several sites in turn makes of `e`. -/
noncomputable def bindAll (p : Program) (source : String) (sites : List Site) (e : ExprId)
    (x : Expr) : Expr :=
  sites.foldl (p.bindAt source e) x

end Program

/-- The names at the sites have been bound, one site after the other. -/
def BoundBy (p : Program) (source : String) (sites : List Site) (exprs exprs' : Table .expr Expr) :
    Prop :=
  ∀ e, exprs'.get? e = (exprs.get? e).map (p.bindAll source sites e)

namespace Program

variable {p₀ p p' : Program} {source : String} {visible : List Target} {site : Site}
variable {sites sites' : List Site} {e r : ExprId} {x : Expr}

theorem bindAt_of_not_under (h : ¬ p.Under site.1 e) : p.bindAt source e x site = x := if_neg h

theorem bindAt_of_under (h : p.Under site.1 e) :
    p.bindAt source e x site = { x with kind := p.boundKind source site.2 x } := if_pos h

/-- Nothing but the kind of an expression changes, and its operands do not. -/
theorem bindAt_eq (p p' : Program) (source : String) (e : ExprId) (x : Expr) (site : Site) :
    ∃ kind, p.bindAt source e x site = { x with kind } ∧ p'.operands kind = p'.operands x.kind := by
  by_cases h : p.Under site.1 e
  · exact ⟨_, bindAt_of_under h, operands_boundKind⟩
  · exact ⟨x.kind, bindAt_of_not_under h, rfl⟩

theorem bindAll_eq (p p' : Program) (source : String) (sites : List Site) (e : ExprId) (x : Expr) :
    ∃ kind, p.bindAll source sites e x = { x with kind } ∧
      p'.operands kind = p'.operands x.kind := by
  induction sites generalizing x with
  | nil => exact ⟨x.kind, rfl, rfl⟩
  | cons site sites ih =>
    obtain ⟨kind, hkind, hops⟩ := bindAt_eq p p' source e x site
    obtain ⟨kind', hkind', hops'⟩ := ih (p.bindAt source e x site)
    refine ⟨kind', ?_, ?_⟩
    · rw [bindAll, List.foldl_cons]
      rw [bindAll] at hkind'
      rw [hkind', hkind]
    · rw [hops', hkind, hops]

theorem bindAll_append : p.bindAll source (sites ++ sites') e x =
    p.bindAll source sites' e (p.bindAll source sites e x) := List.foldl_append ..

theorem bindAll_of_not_under (source : String) (x : Expr)
    (h : ∀ site ∈ sites, ¬ p.Under site.1 e) : p.bindAll source sites e x = x := by
  induction sites with
  | nil => rfl
  | cons site sites ih =>
    rw [bindAll, List.foldl_cons, bindAt_of_not_under (h site (by simp))]
    exact ih fun site' hs => h site' (List.mem_cons_of_mem _ hs)

/-- Where the same can be seen from all sites that an expression lies
under, it does not matter how many these are. -/
theorem bindAll_of_under (same : ∀ site ∈ sites, p.Under site.1 e → site.2 = visible)
    (h : ∃ site ∈ sites, p.Under site.1 e) :
    p.bindAll source sites e x = { x with kind := p.boundKind source visible x } := by
  induction sites generalizing x with
  | nil => simp at h
  | cons site sites ih =>
    have hcons : p.bindAll source (site :: sites) e x =
        p.bindAll source sites e (p.bindAt source e x site) := rfl
    rw [hcons]
    by_cases hrest : ∃ site' ∈ sites, p.Under site'.1 e
    · rw [ih (fun site' hs => same site' (List.mem_cons_of_mem _ hs)) hrest]
      by_cases hu : p.Under site.1 e
      · rw [bindAt_of_under hu, same site (by simp) hu]
        simp only [boundKind_idem]
      · rw [bindAt_of_not_under hu]
    · have hself : p.Under site.1 e := by
        obtain ⟨site', hs, hu⟩ := h
        rcases List.mem_cons.1 hs with rfl | hmem
        · exact hu
        · exact absurd ⟨site', hmem, hu⟩ hrest
      rw [bindAll_of_not_under source _ fun site' hs hu => hrest ⟨site', hs, hu⟩,
        bindAt_of_under hself, same site (by simp) hself]

/-- To bind the names in an expression that is no name itself is to bind
those in its operands. -/
theorem bindAll_operands (h : e = r → x.kind ≠ .identifier) :
    p.bindAll source ((p.operandsAt r).map (·, visible)) e x =
      p.bindAll source [(r, visible)] e x := by
  have hone : p.bindAll source [(r, visible)] e x = p.bindAt source e x (r, visible) := rfl
  rw [hone]
  by_cases hc : ∃ c ∈ p.operandsAt r, p.Under c e
  · obtain ⟨c, hc', hu⟩ := hc
    have same : ∀ site ∈ (p.operandsAt r).map (·, visible), p.Under site.1 e → site.2 = visible := by
      intro site hs _
      obtain ⟨c', -, rfl⟩ := List.mem_map.1 hs
      rfl
    rw [bindAll_of_under same ⟨(c, visible), List.mem_map_of_mem hc', hu⟩,
      bindAt_of_under (hu.of_operand hc')]
  · have hnot : ∀ site ∈ (p.operandsAt r).map (·, visible), ¬ p.Under site.1 e := by
      intro site hs
      obtain ⟨c, hc', rfl⟩ := List.mem_map.1 hs
      exact fun hu => hc ⟨c, hc', hu⟩
    rw [bindAll_of_not_under source x hnot]
    by_cases he : e = r
    · rw [bindAt_of_under (he ▸ .refl), boundKind_of_ne (h he)]
    · exact (bindAt_of_not_under fun hu => (under_iff.1 hu).elim he hc).symm

end Program

namespace BoundBy

variable {p₀ : Program} {source : String} {sites sites' : List Site}
variable {exprs exprs' exprs'' : Table .expr Expr}

theorem refl : BoundBy p₀ source [] exprs exprs := fun e => by
  cases exprs.get? e <;> rfl

theorem trans (h : BoundBy p₀ source sites exprs exprs')
    (h' : BoundBy p₀ source sites' exprs' exprs'') :
    BoundBy p₀ source (sites ++ sites') exprs exprs'' := fun e => by
  rw [h' e, h e, Option.map_map]
  exact congrArg (Option.map · (exprs.get? e)) (funext fun x => Program.bindAll_append.symm)

theorem map_frame (h : BoundBy p₀ source sites exprs exprs') :
    exprs'.map Expr.frame = exprs.map Expr.frame := by
  refine Table.ext_get? fun e => ?_
  rw [Table.get?_map, Table.get?_map, h e, Option.map_map]
  refine congrArg (Option.map · (exprs.get? e)) (funext fun x => ?_)
  obtain ⟨kind, hkind, -⟩ := Program.bindAll_eq p₀ p₀ source sites e x
  simp only [Function.comp, hkind, Expr.frame]

end BoundBy

namespace Program

variable {p₀ p p' : Program} {source : String} {sites : List Site}

/-- Binding names keeps the operands of every expression. -/
theorem operandsAt_boundBy (h : BoundBy p₀ source sites p.exprs p'.exprs)
    (ha : p'.arguments = p.arguments) (e : ExprId) : p'.operandsAt e = p.operandsAt e := by
  simp only [operandsAt, Table.get, h e]
  cases p.exprs.get? e with
  | none => rfl
  | some x =>
    obtain ⟨kind, hkind, hops⟩ := bindAll_eq p₀ p source sites e x
    simp only [Option.map_some, ok_bind, hkind, operands_congr ha, hops]

theorem OperandsHeld.boundBy (held : p.OperandsHeld) (h : BoundBy p₀ source sites p.exprs p'.exprs)
    (ha : p'.arguments = p.arguments) : p'.OperandsHeld := by
  intro e x' hx'
  rw [h e] at hx'
  obtain ⟨x, hx, rfl⟩ := Option.map_eq_some_iff.1 hx'
  obtain ⟨kind, hkind, hops⟩ := bindAll_eq p₀ p source sites e x
  obtain ⟨es, hes, hlt⟩ := held e x hx
  exact ⟨es, by rw [hkind, operands_congr ha, hops, hes], hlt⟩

end Program

end FrontEnd
