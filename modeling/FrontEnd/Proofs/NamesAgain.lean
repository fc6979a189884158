import FrontEnd.Proofs.Flags
import FrontEnd.Proofs.Resolved
/-!
# FrontEnd — the name pass, once more

A name that is left after the name pass means nothing where it stands,
and the type pass does not change that (`NamesSettled.matures`). To run
the name pass again then changes no expression, and gives every block a
new scope (`bindNames_again`).
-/

namespace FrontEnd

namespace Program

variable {p p' : Program} {source : String} {sites : List Site} {e : ExprId} {x : Expr}

/-- Where no site changes an expression, all of them together do not. -/
theorem bindAll_settled
    (h : ∀ site ∈ sites, p.Under site.1 e → p.boundKind source site.2 x = x.kind) :
    p.bindAll source sites e x = x := by
  induction sites with
  | nil => rfl
  | cons site sites ih =>
    obtain ⟨hfirst, hrest⟩ := List.forall_mem_cons.1 h
    have hsame : p.bindAt source e x site = x := by
      by_cases hu : p.Under site.1 e
      · rw [bindAt_of_under hu, hfirst hu]
      · exact bindAt_of_not_under hu
    rw [bindAll, List.foldl_cons, hsame]
    exact ih hrest

theorem SlotsHeld.congr (slots : p.SlotsHeld) (h : p'.frame = p.frame) : p'.SlotsHeld := by
  intro s r hr
  rw [slotsAt_congr h] at hr
  rw [size_exprs_congr h]
  exact slots s r hr

/-- **What means nothing goes on meaning nothing** when some names have
become values of enums. -/
theorem NamesSettled.matures (settled : p.NamesSettled source) (hframe : p'.frame = p.frame)
    (hunder : ∀ {r e}, p'.Under r e → p.Under r e)
    (hmatures : ∀ e x, p.exprs.get? e = some x → ∃ x', p'.exprs.get? e = some x' ∧ x.Matures x') :
    p'.NamesSettled source := by
  intro place hplace r hr e x' hu hx'
  rw [places_congr hframe] at hplace
  rw [slotsAt_congr hframe] at hr
  have hlt := Table.lt_size_of_get? hx'
  rw [size_exprs_congr hframe] at hlt
  obtain ⟨x, hx⟩ := Table.exists_get?_of_lt hlt
  obtain ⟨y, hy, hm⟩ := hmatures e x hx
  rw [hx'] at hy
  obtain rfl := Option.some.inj hy
  rcases hm.kind with hkind | ⟨-, v, hv⟩
  · have hsame := settled place hplace r hr e x (hunder hu) hx
    rw [boundKind_congr hframe, hkind, ← hsame]
    simp only [boundKind, hkind, hm.span]
  · exact boundKind_of_ne (by rw [hv]; simp)

/-- **To bind the names of a program whose names are settled gives new
scopes and changes no expression.** -/
theorem bindNames_again (regular : p.Regular) (slots : p.SlotsHeld)
    (hpos : 0 < p.symbolTables.size) (settled : p.NamesSettled source) :
    ∃ p', p.bindNames source = .ok p' ∧ NamesBound p source p' ∧ p'.exprs = p.exprs := by
  obtain ⟨p', hp', bound⟩ := bindNames_ok source regular slots hpos
  refine ⟨p', hp', bound, Table.ext_get? fun e => ?_⟩
  rw [bound.bound e]
  cases hx : p.exprs.get? e with
  | none => rfl
  | some x =>
    rw [Option.map_some, bindAll_settled]
    intro site hsite hu
    obtain ⟨place, hplace, hsite⟩ := List.mem_flatMap.1 hsite
    obtain ⟨r, hr, rfl⟩ := List.mem_map.1 hsite
    exact settled place hplace r hr e x hu hx

end Program

end FrontEnd
