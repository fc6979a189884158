import FrontEnd.Proofs.Built
import FrontEnd.Proofs.NameSuccess
/-!
# FrontEnd — what every name becomes

Where every expression is used in one place, the expressions under the
slot of a statement are bound at that statement and nowhere else, so the
name pass replaces each name by what it means there and leaves all other
expressions alone.
-/

namespace FrontEnd

namespace Program

variable {p p' : Program} {source : String} {e r : ExprId} {x : Expr} {place : Place}

/-! ## One place for each statement -/

/-- The places in an outline are those of its statements, in order. -/
theorem map_stmt_placesIn {outline : Outline} {statements : List StmtId} {topLevel : Bool}
    {own outer : List Target} (h : outline.flatten = .ok statements) :
    (p.placesIn topLevel own outer outline).map (·.stmt) = statements := by
  induction outline generalizing topLevel own outer statements with
  | stuck fault => cases h
  | done =>
    cases h
    rfl
  | leaf s rest ih =>
    obtain ⟨tail, htail, h⟩ := bind_eq_ok.1 h
    obtain rfl := pure_eq_ok.1 h
    simp only [placesIn, List.map_cons, ih htail]
  | nested s body rest ihBody ihRest =>
    obtain ⟨inner, hinner, h⟩ := bind_eq_ok.1 h
    obtain ⟨tail, htail, h⟩ := bind_eq_ok.1 h
    obtain rfl := pure_eq_ok.1 h
    simp only [placesIn, List.map_cons, List.map_append, ihBody hinner, ihRest htail]

/-- The places of a regular program are those of its statements, in order. -/
theorem Regular.map_stmt_places (regular : p.Regular) : p.places.map (·.stmt) = p.stmtIds := by
  obtain ⟨outline, lays⟩ := regular.layout
  rw [places, outline_of_lays lays regular.whole, map_stmt_placesIn lays.flatten, Nat.sub_zero]
  rfl

theorem Regular.place_unique (regular : p.Regular) {place' : Place} (h : place ∈ p.places)
    (h' : place' ∈ p.places) (hs : place.stmt = place'.stmt) : place = place' := by
  refine List.inj_on_of_nodup_map ?_ h h' hs
  rw [regular.map_stmt_places, stmtIds, IdRange.ids]
  exact (List.nodup_range' ..).map fun a b hab => by cases hab; rfl

/-- Every statement has a place. -/
theorem Regular.exists_place (regular : p.Regular) {s : StmtId} (h : r ∈ p.slotsAt s) :
    ∃ place ∈ p.places, place.stmt = s := by
  have hs := mem_stmtIds.2 (lt_size_of_mem_slotsAt h)
  rw [← regular.map_stmt_places] at hs
  exact List.mem_map.1 hs

/-! ## What becomes of an expression -/

/-- **A name becomes what it means at its place**, and every other
expression of the place stays as it is. -/
theorem NamesBound.get?_of_under (bound : NamesBound p source p') (regular : p.Regular)
    (once : p.UsedOnce) (hp : place ∈ p.places) (hr : r ∈ p.slotsAt place.stmt)
    (hu : p.Under r e) (hx : p.exprs.get? e = some x) :
    p'.exprs.get? e = some { x with kind := p.boundKind source place.visible x } := by
  rw [bound.bound e, hx, Option.map_some]
  congr 1
  refine bindAll_of_under (fun site hs hsite => ?_) ⟨(r, place.visible), ?_, hu⟩
  · obtain ⟨place', hp', hs⟩ := List.mem_flatMap.1 hs
    obtain ⟨r', hr', rfl⟩ := List.mem_map.1 hs
    have hrr : r' = r := once.eq_of_under_slots hr' hr hsite hu
    have hstmt := once.eq_of_slot hr (hrr ▸ hr')
    rw [regular.place_unique hp hp' hstmt]
  · exact List.mem_flatMap.2 ⟨place, hp, List.mem_map_of_mem hr⟩

/-- An expression that no statement uses stays as it is. -/
theorem NamesBound.get?_of_not_under (bound : NamesBound p source p')
    (h : ∀ s, ∀ r ∈ p.slotsAt s, ¬ p.Under r e) : p'.exprs.get? e = p.exprs.get? e := by
  rw [bound.bound e]
  cases p.exprs.get? e with
  | none => rfl
  | some x =>
    rw [Option.map_some, bindAll_of_not_under source x]
    intro site hs
    obtain ⟨place, -, hs⟩ := List.mem_flatMap.1 hs
    obtain ⟨r, hr, rfl⟩ := List.mem_map.1 hs
    exact h place.stmt r hr

/-- **Names are resolved lexically.** In whatever program has been built
with one place for each expression, and whatever its source, the name
pass succeeds where all slots are held. It turns each name that stands
in a statement or signature into what it means where the statement can
see it, and leaves everything else in there as it was. -/
theorem bindNames_lexical {steps : List Step} {written : String}
    (built : Program.build steps = .ok (p, written)) (once : p.UsedOnce) (source : String) :
    (p.SlotsHeld → ∃ p', p.bindNames source = .ok p') ∧
      (∀ s, ∀ r ∈ p.slotsAt s, ∃ place ∈ p.places, place.stmt = s) ∧
      ∀ p', p.bindNames source = .ok p' →
        ∀ place ∈ p.places, ∀ r ∈ p.slotsAt place.stmt, ∀ e, p.Under r e →
          ∃ x, p.exprs.get e = .ok x ∧
            p'.exprs.get e = .ok { x with kind := p.boundKind source place.visible x } := by
  have fresh := build_fresh built
  have regular := fresh.regular
  refine ⟨fun slots => ?_, fun s r hr => regular.exists_place hr, ?_⟩
  · obtain ⟨p', hp', -⟩ := bindNames_ok source regular slots fresh.tables
    exact ⟨p', hp'⟩
  · intro p' hp' place hplace r hr e hu
    have bound := namesBound_of_bindNames regular fresh.tables hp'
    have hlt : e.raw < p.exprs.size :=
      Nat.lt_of_le_of_lt (le_of_under regular.operands.older hu)
        (slotsHeld_of_bindNames regular hp' place.stmt r hr)
    obtain ⟨x, hx⟩ := Table.exists_get?_of_lt hlt
    exact ⟨x, Table.get_eq_ok.2 hx,
      Table.get_eq_ok.2 (bound.get?_of_under regular once hplace hr hu hx)⟩

/-- A parameter hides the function it belongs to. -/
theorem bindNames_lexical_shadowing :
    Succeeds (Program.build
        [.identifier "int", .openFunction "main" [("main", some ⟨0⟩)] none, .identifier "main",
          .output ⟨1⟩, .close])
      fun (p, source) => p.UsedOnce ∧ Succeeds (p.bindNames source) fun p' =>
        ∃ x, p'.exprs.get ⟨1⟩ = .ok x ∧ x.kind = .parameter ⟨0⟩ := by
  have facts : Succeeds (Program.build
        [.identifier "int", .openFunction "main" [("main", some ⟨0⟩)] none, .identifier "main",
          .output ⟨1⟩, .close])
      fun (p, source) => (p.UsedOnce ∧ ⟨1⟩ ∈ p.slotsAt ⟨1⟩ ∧
          ⟨⟨1⟩, [.parameter ⟨0⟩, .function ⟨0⟩]⟩ ∈ p.places) ∧
        Succeeds (p.exprs.get ⟨1⟩)
          (fun x => p.boundKind source [.parameter ⟨0⟩, .function ⟨0⟩] x = .parameter ⟨0⟩) ∧
        Succeeds (p.bindNames source) fun _ => True := by decide +kernel
  obtain ⟨⟨p, source⟩, built, ⟨once, hr, hplace⟩, ⟨x, hx, hkind⟩, p', hp', -⟩ := facts
  obtain ⟨-, -, lexical⟩ := bindNames_lexical built once source
  obtain ⟨x', hx', h⟩ := lexical p' hp' _ hplace ⟨1⟩ hr ⟨1⟩ .refl
  obtain rfl : x = x' := Except.ok.inj (hx.symm.trans hx')
  exact ⟨(p, source), built, once, p', hp', _, h, hkind⟩

end Program

end FrontEnd
