import FrontEnd.Proofs.GlobalsAgain
import FrontEnd.Proofs.TypePass
/-!
# FrontEnd — the type pass, once more

What the type pass has done is still done when only flags and scopes
have changed since (`TypesDone.flags`), and to run the pass again then
changes nothing (`resolveTypes_again`).
-/

namespace FrontEnd

open Analysis

variable {source : String} {p₀ : Program} {a a' : Analysis} {s : StmtId} {G L W : List StmtId}

/-! ## What is done is done -/

namespace Flags

variable (h : Flags a a')

include h

theorem typeDone {e : ExprId} (held : a.program.OperandsHeld) (done : a.TypeDone e) :
    a'.TypeDone e := by
  have hname : a.TaskDone "" (.name e) := done
  exact h.taskDone held hname

theorem unsettle (p₀ : Program) (W : List StmtId) : Flags (a.unsettle p₀ W) (a'.unsettle p₀ W) where
  exprs := h.exprs
  size := h.size
  rest := by
    have hvar : a'.program.unsettledVar p₀ = a.program.unsettledVar p₀ := by
      funext s r
      rw [Program.unsettledVar, h.typeFrom]
      rfl
    have hvars : (a'.program.unsettle p₀ W).vars = (a.program.unsettle p₀ W).vars := by
      simp only [Program.unsettle, hvar, h.vars]
    have key : ∀ q : Program, (q.unsettle p₀ W).unscoped =
        { q.unscoped with vars := (q.unsettle p₀ W).vars } := fun _ => rfl
    rw [Analysis.unsettle, Analysis.unsettle, key, key, hvars, h.rest]
  queue := h.queue

theorem reads {g : Global} {found : Option Nat} (reads : g.Reads a.program found) :
    g.Reads a'.program found := Global.Reads.flags reads h

theorem settled (held : a.program.OperandsHeld) (settled : a.Settled source p₀ s) :
    a'.Settled source p₀ s := by
  obtain ⟨r, n, hr, ho, hread⟩ := settled.order
  exact ⟨fun x hx => h.taskDone held (settled.tasks x hx), r, n, h.vars ▸ hr, ho, h.reads hread⟩

theorem cyclic (held : a.program.OperandsHeld) (cyclic : a.Cyclic p₀ s) : a'.Cyclic p₀ s := by
  obtain ⟨r, hr, hzero, htype⟩ := cyclic.var
  refine ⟨fun e he => h.typeDone held (cyclic.named e he),
    ⟨r, h.vars ▸ hr, hzero, htype.trans (h.typeFrom _).symm⟩, h.reads cyclic.reads, fun e he => ?_⟩
  obtain ⟨x, hx, hq⟩ := cyclic.quiet e he
  obtain ⟨x', hx', hs⟩ := h.exprs e x hx
  exact ⟨x', hx', hs.span ▸ h.quiet hq⟩

theorem cyclesDone (hp : Program.Pruned p₀ a.program) (done : a.CyclesDone source p₀ L) :
    a'.CyclesDone source p₀ L := by
  induction L with
  | nil => trivial
  | cons s L ih =>
    refine ⟨fun e expected hx => ?_, ih done.2⟩
    have hpu := pruned_unsettle hp (s :: L)
    exact (h.unsettle p₀ (s :: L)).taskDone hpu.held (done.1 e expected hx)

theorem globalsDone (hp : Program.Pruned p₀ a.program) (done : a.GlobalsDone source p₀ G L) :
    a'.GlobalsDone source p₀ G L where
  sub := done.sub
  settled s hs hnot := h.settled hp.held (done.settled s hs hnot)
  cyclic s hs := h.cyclic hp.held (done.cyclic s hs)
  stages := h.cyclesDone hp done.stages

theorem typesDone (done : a.TypesDone source p₀ L) : a'.TypesDone source p₀ L where
  pruned := h.pruned done.pruned
  globals := h.globalsDone done.pruned done.globals
  tasks s hs x hx := h.taskDone done.pruned.held (done.tasks s hs x hx)

end Flags

/-! ## The pass -/

variable (regular : p₀.Regular) (once : p₀.UsedOnce)

include regular once

/-- **To resolve types that are resolved changes nothing.** -/
theorem resolveTypes_again (done : a.TypesDone source p₀ L) (isScoped : ∀ s, a.program.Scoped s)
    (hblock : a.program.block.symbolTable.isSentinel = false) :
    ∃ b, a.resolveTypes source = .ok b ∧ a.Unmoved b := by
  obtain ⟨o, lays⟩ := regular.layout
  have ho : p₀.outline p₀.block = o := Program.outline_of_lays lays regular.whole
  have hao : a.program.outline a.program.block = o :=
    (Program.outline_congr done.pruned.frame).trans ho
  obtain ⟨ids, hids, hheld⟩ := lays.direct_held
  have hG : p₀.globals = ids.filter p₀.declaresVariable := by
    simp only [Program.globals, Program.globalsIn, ho, if_true, hids, elements_ok]
  have hnodup : (p₀.functionsIn o ++ (p₀.globals ++ p₀.order true o)).Nodup := by
    have hperm := @Program.order_perm _ true _ _ _ lays
    have hsame : p₀.globalsIn true o = p₀.globals := by rw [Program.globals, ho]
    rw [hsame] at hperm
    refine hperm.nodup_iff.2 ?_
    exact (List.nodup_range' ..).map fun a b hab => by cases hab; rfl
  obtain ⟨-, hnodupGR, hapartF⟩ := List.nodup_append.1 hnodup
  obtain ⟨hnodupG, -, hapartG⟩ := List.nodup_append.1 hnodupGR
  have hF : ∀ s ∈ p₀.functionsIn o, s ∉ p₀.globals := fun s hs hg =>
    hapartF s hs s (List.mem_append_left _ hg) rfl
  have hR : ∀ s ∈ p₀.order true o, s ∉ p₀.globals := fun s hs hg => hapartG s hg s hs rfl
  obtain ⟨b, hb, hmoved⟩ := visits_again regular done.pruned.held fun s hs => done.tasks s (hF s hs)
  have doneB := (Flags.unmoved hmoved).typesDone done
  have hglobals := doneB.globals
  rw [hG] at hglobals hnodupG
  obtain ⟨c, hc, hmovedC⟩ := typeGlobals_again regular once doneB.pruned hheld hnodupG hglobals
  have doneC := (Flags.unmoved hmovedC).typesDone doneB
  obtain ⟨d, hd, hmovedD⟩ := visits_again regular doneC.pruned.held fun s hs => doneC.tasks s (hR s hs)
  have hall := hmoved.trans hmovedC
  have hscoped : ∀ s, c.program.Scoped s := hall.program ▸ isScoped
  have henter : enterBlock source true a.program.block o a = .ok c := by
    have hsig : a.typeSignatures ids = .ok b := by
      rw [typeSignatures_eq regular once source done.pruned hheld, ← hb, Program.functionsIn, hids,
        elements_ok]
    simp only [enterBlock, hblock, hids, lift_ok, ok_bind, hsig, if_true, hc]
    rfl
  refine ⟨d, ?_, hall.trans hmovedD⟩
  simp only [Analysis.resolveTypes, hao]
  rw [henter, ok_bind, typeOutline_eq regular once source lays doneC.pruned hscoped, hd, lift_ok]

end FrontEnd
