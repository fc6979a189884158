import FrontEnd.Proofs.Safety
import FrontEnd.Proofs.Stock
/-!
# FrontEnd — built programs compile

A builder that is given only expressions it has handed out gives a
program that passes validation (`validate_of_stocked`), whose operands
come before what is made of them and which mentions no type yet. So no
pass faults on it, and compiling it gives a result (`build_compiles`),
even against a source that has nothing to do with it.
-/

namespace FrontEnd

namespace Program

variable {p : Program} {opened : List OpenBody}

/-! ## What is built is valid -/

/-- **A fresh program with a good stock passes validation.** -/
theorem validate_of_stocked (fresh : p.Fresh) (stock : Stocked p opened) :
    p.validate = .ok () := by
  have functions : ∀ f r, p.functions.get? f = some r → p.FunctionHeld r := fun f r hr =>
    (stock.functions r (Table.mem_toList.2 ⟨f, hr⟩)).1
  obtain ⟨o, lays⟩ := fresh.regular.layout
  have hwhole := fresh.regular.whole
  refine validate_eq_ok.2 ⟨fun e x hx => ?_, checkDeclarations_eq_ok.2 ⟨functions, ?_, ?_⟩, ?_, ?_,
    fresh.scopes.links⟩
  · obtain ⟨es, hes, hlt⟩ := fresh.regular.operands e x hx
    have hsize := Table.lt_size_of_get? hx
    exact checkExprKind_of_operands (fresh.unresolved e x hx).1 hes
      fun c hc => Nat.lt_trans (hlt c hc) hsize
  · exact fun i r hr => (stock.parameters r (Table.mem_toList.2 ⟨i, hr⟩)).1
  · exact ⟨_, stock.values, Nat.le_refl _⟩
  · refine forM_eq_ok.2 fun stmt hstmt => (checkStmtKind_eq_ok functions).2 ?_
    obtain ⟨s, hs⟩ := Table.mem_toList.1 hstmt
    exact ⟨fresh.regular.declarations s stmt hs, stock.stmts stmt hstmt⟩
  · unfold checkBlocks
    rw [if_neg (by simp [hwhole, IdRange.stop])]
    exact checkBlockWithin_of_lays fresh.scopes lays hwhole fresh.scopes.block
      (by simp [Block.len, hwhole])

/-- Operands come before what is made of them, so nothing lies below
itself. -/
theorem Regular.acyclic (regular : p.Regular) : p.Acyclic :=
  acyclic_of_height RecordId.raw fun e _ c hc => regular.operands.older e c hc

/-- A program that has just been built mentions no type. -/
theorem types_of_stocked (fresh : p.Fresh) (stock : Stocked p opened) :
    ∀ t ∈ p.types, t = .unset := by
  intro t ht
  simp only [types, List.mem_append, List.mem_map, List.mem_filterMap] at ht
  rcases ht with ((⟨x, hx, ht⟩ | ⟨r, hr, rfl⟩) | ⟨r, hr, rfl⟩) | ⟨r, hr, rfl⟩
  · obtain ⟨e, hx⟩ := Table.mem_toList.1 hx
    have hkind := (fresh.unresolved e x hx).1
    obtain ⟨kind, span⟩ := x
    cases kind with
    | typeName u => cases hkind
    | _ => cases ht
  · exact stock.vars r hr
  · exact (stock.parameters r hr).2
  · exact (stock.functions r hr).2

/-! ## What is built compiles -/

/-- A program whose layout is good compiles, if its expressions do not
nest in a circle and its types are its own. -/
theorem compile_succeeds (acyclic : p.Acyclic) (types : p.TypesHeld) (valid : p.validate = .ok ())
    (config : QueueConfig) (source : String) :
    Succeeds (p.compile config source) fun _ => True := by
  obtain ⟨a, ha, b, hb, -⟩ := resolve_check_succeeds acyclic types valid (.ofConfig config) source
  refine ⟨⟨b.program, b.queue.finish source⟩, ?_, trivial⟩
  simp only [compile, Analysis.start, ha, hb, ok_bind]
  rfl

end Program

end FrontEnd
