import FrontEnd.Proofs.Order
import FrontEnd.Proofs.TaskRuns
/-!
# FrontEnd — the walk of the type pass

Behind the top-level declarations, the type pass visits the statements
in order and runs the tasks of each (`typeOutline_eq`). Where names have
been bound to what can be seen (`InScope`), no task interferes with one
that has been run before, so in the end all of them are done.
-/

namespace FrontEnd

namespace Program

/-- Only what can be seen from a statement is mentioned in it. -/
def InScope (p : Program) : Prop :=
  ∀ place ∈ p.places, ∀ r ∈ p.slotsAt place.stmt, ∀ t, p.Mentions r t → t ∈ place.visible

variable {p : Program} {s s' : StmtId} {e : ExprId} {t : Target}

theorem Mentions.isTyped (h : p.Mentions e t) : t.isTyped = true := by
  obtain ⟨c, x, -, -, ht⟩ := h
  cases hk : x.kind <;> rw [hk] at ht <;> cases ht <;> rfl

variable (regular : p.Regular) (once : p.UsedOnce) (inScope : p.InScope)

include regular inScope in
/-- The values of a statement mention nothing of what it is clear of. -/
theorem Regular.not_owned_of_clear (h : p.declaresFunction s = true ∨ p.Clear s s')
    {expected : Option Origin} (hx : .value e expected ∈ p.tasks s) (ht : p.Mentions e t) :
    t ∉ p.owned s' := by
  rcases h with hf | hclear
  · simp only [declaresFunction] at hf
    split at hf
    · next hs => exact absurd hx (not_value_of_function hs (regular.declarations s _ hs))
    · cases hf
  · have hslot := slot_of_uses regular.declarations hx (r := e) (by simp [Task.uses])
    obtain ⟨⟨stmt, visible⟩, hplace, rfl⟩ := regular.exists_place hslot
    exact hclear visible hplace t (inScope _ hplace e hslot t ht) ht.isTyped

include regular once inScope in
/-- **The tasks of statements that are clear of each other are apart.** -/
theorem Regular.pairwise_agenda {ss : List StmtId} (nodup : ss.Nodup)
    (clear : ss.Pairwise fun s s' => p.declaresFunction s = true ∨ p.Clear s s')
    (self : ∀ s ∈ ss, p.declaresFunction s = true ∨ p.Clear s s) :
    (ss.flatMap p.tasks).Pairwise (Task.Apart p) := by
  refine List.pairwise_flatMap.2 ⟨fun s hs => ?_, ?_⟩
  · refine pairwise_tasks regular.declarations once fun e expected hx t ht => ?_
    exact regular.not_owned_of_clear inScope (self s hs) hx ht
  · refine (nodup.and clear).imp fun {s s'} h x hx y hy => ?_
    refine regular.apart_tasks once h.1 hx hy fun e expected hx t ht => ?_
    exact regular.not_owned_of_clear inScope h.2 hx ht

end Program

/-! ## The walk as a run -/

theorem Changes.bodyOf {region : ExprId → Prop} {targets : Target → Prop} {a a' : Analysis}
    (h : Changes region targets a a') (s : StmtId) :
    a'.program.bodyOf s = a.program.bodyOf s :=
  h.matured.bodyOf s

namespace Analysis

/-- Run the tasks of a statement. -/
def visit (source : String) (p₀ : Program) (a : Analysis) (s : StmtId) : Except Fault Analysis :=
  (p₀.tasks s).foldlM (runTask source) a

variable {source : String} {p₀ : Program} {a a' : Analysis} {s : StmtId} {ss : List StmtId}
variable {topLevel : Bool} {i j : Nat} {o : Outline}

theorem foldlM_visit :
    ss.foldlM (visit source p₀) a = (ss.flatMap p₀.tasks).foldlM (runTask source) a := by
  induction ss generalizing a with
  | nil => rfl
  | cons s ss ih =>
    rw [List.foldlM_cons, List.flatMap_cons, List.foldlM_append]
    exact bind_congr fun b => ih

variable (regular : p₀.Regular) (once : p₀.UsedOnce)

include regular once

/-- What a run of visits keeps of the program. -/
theorem pruned_of_visit (hp : Program.Pruned p₀ a.program) (h : visit source p₀ a s = .ok a') :
    Program.Pruned p₀ a'.program ∧ ∀ k, a'.program.bodyOf k = a.program.bodyOf k := by
  have proper := fun x (hx : x ∈ p₀.tasks s) =>
    Program.proper_of_mem_tasks regular.declarations once hx
  refine foldlM_invariant (fun b => Program.Pruned p₀ b.program ∧
    ∀ k, b.program.bodyOf k = a.program.bodyOf k) (fun x hx b b' hb hrun => ?_) ⟨hp, fun _ => rfl⟩ h
  have hchanges := (runTask_done once regular.operands.older hb.1 (proper x hx) hrun).1
  exact ⟨hchanges.pruned hb.1, fun k => (hchanges.bodyOf k).trans (hb.2 k)⟩

theorem pruned_of_visits (hp : Program.Pruned p₀ a.program)
    (h : ss.foldlM (visit source p₀) a = .ok a') :
    Program.Pruned p₀ a'.program ∧ ∀ k, a'.program.bodyOf k = a.program.bodyOf k := by
  refine foldlM_invariant (fun b => Program.Pruned p₀ b.program ∧
    ∀ k, b.program.bodyOf k = a.program.bodyOf k) (fun s _ b b' hb hrun => ?_) ⟨hp, fun _ => rfl⟩ h
  obtain ⟨hpb, hbodies⟩ := pruned_of_visit regular once hb.1 hrun
  exact ⟨hpb, fun k => (hbodies k).trans (hb.2 k)⟩

/-- The signatures of a block are typed by visits to its functions. -/
theorem typeSignatures_eq (source : String) (hp : Program.Pruned p₀ a.program)
    (hheld : ∀ s ∈ ss, ∃ stmt, p₀.stmts.get? s = some stmt) :
    a.typeSignatures ss = (ss.filter p₀.declaresFunction).foldlM (visit source p₀) a := by
  induction ss generalizing a with
  | nil => rfl
  | cons s ss ih =>
    obtain ⟨⟨⟨kind, span⟩, hs⟩, hrest⟩ := List.forall_mem_cons.1 hheld
    obtain ⟨⟨kind', span'⟩, hs', hframe⟩ := exists_stmt hp hs
    simp only [typeSignatures, List.foldlM_cons, List.filter_cons, Program.declaresFunction, hs,
      Table.get_eq_ok.2 hs', ok_bind]
    cases kind with
    | function f =>
      obtain rfl : kind' = .function f := by
        cases kind' <;> cases hframe
        rfl
      simp only [if_true, List.foldlM_cons, typeSignature_eq regular once source hs hp]
      refine bind_congr_ok fun b hb => ?_
      exact ih (pruned_of_visit regular once hp hb).1 hrest
    | _ =>
      split
      · cases hframe
      · exact ih hp hrest

/-- **The walk over an outline visits its statements in order**, where
every body has been given a scope. -/
theorem typeOutline_eq (source : String) (lays : Lays p₀ i j o)
    (hp : Program.Pruned p₀ a.program) (isScoped : ∀ s, a.program.Scoped s) :
    typeOutline source topLevel o a =
      liftM ((p₀.order topLevel o).foldlM (visit source p₀) a) := by
  induction lays generalizing topLevel a with
  | done i => rfl
  | @leaf i j rest single tail ih =>
    obtain ⟨⟨kind, span⟩, hs, hbody⟩ := bind_eq_ok.1 single
    have hs := Table.get_eq_ok.1 hs
    obtain ⟨⟨kind', span'⟩, hs', hframe⟩ := exists_stmt hp hs
    have hglobal : a.isGlobal ⟨i⟩ = .ok (p₀.declaresVariable ⟨i⟩) := by
      simp only [isGlobal, Table.get_eq_ok.2 hs', ok_bind, Program.declaresVariable, hs]
      cases kind' <;> cases kind <;> first | rfl | cases hframe
    have hleaf : a.program.bodyOf ⟨i⟩ = .ok none := Program.bodyOf_none_congr hp.frame single
    simp only [typeOutline, hglobal, lift_ok, ok_bind, Program.order]
    by_cases hg : (topLevel && p₀.declaresVariable ⟨i⟩) = true
    · simp only [if_pos hg, List.nil_append, pure_bind]
      exact ih hp isScoped
    · simp only [if_neg hg, List.singleton_append, List.foldlM_cons, lift_bind,
        typeLeaf_eq regular once source hp hleaf]
      refine bind_congr_ok fun b hb => ?_
      obtain ⟨hpb, hbodies⟩ := pruned_of_visit regular once hp (lift_eq_ok.1 hb)
      exact ih hpb fun k body h => isScoped k body (hbodies k ▸ h)
  | @nested i k j block body rest owns place inner tail ihInner ihTail =>
    obtain ⟨⟨kind, span⟩, hs, hbody⟩ := bind_eq_ok.1 owns
    have hs := Table.get_eq_ok.1 hs
    obtain ⟨⟨kind', span'⟩, hs', hframe⟩ := exists_stmt hp hs
    -- what stands before the body is visited, unless it is a function
    have hhead : typeHead source a ⟨i⟩ = (if p₀.declaresFunction ⟨i⟩ then [] else [⟨i⟩]).foldlM
        (visit source p₀) a := by
      cases kind with
      | function f =>
        obtain rfl : kind' = .function f := by
          cases kind' <;> cases hframe
          rfl
        simp only [typeHead, Table.get_eq_ok.2 hs', ok_bind, Program.declaresFunction, hs, if_true]
        rfl
      | nest head within =>
        cases kind' with
        | nest head' within' =>
          have hnot : p₀.declaresFunction ⟨i⟩ = false := by simp only [Program.declaresFunction, hs]
          rw [typeHead_eq source hp hs', hnot, if_neg Bool.false_ne_true, List.foldlM_cons]
          exact (bind_pure _).symm
        | _ => cases hframe
      | _ => cases hbody
    obtain ⟨ids, hids, hheld⟩ := inner.direct_held
    simp only [typeOutline, Program.order, hhead, List.foldlM_append, lift_bind]
    refine bind_congr_ok fun b hb => ?_
    obtain ⟨hpb, hbodies⟩ := pruned_of_visits regular once hp (lift_eq_ok.1 hb)
    obtain ⟨b', hb'⟩ := Program.bodyOf_some_congr hpb.frame owns
    have hopen : b'.symbolTable.isSentinel = false := isScoped ⟨i⟩ b' (hbodies ⟨i⟩ ▸ hb')
    have hheld' : ∀ s ∈ ids, ∃ stmt, p₀.stmts.get? s = some stmt := hheld
    have henter : enterBlock source false b' body b =
        liftM ((p₀.functionsIn body).foldlM (visit source p₀) b) := by
      simp only [enterBlock, hopen, hids, lift_ok, ok_bind, typeSignatures_eq regular once source hpb hheld',
        Program.functionsIn, elements_ok]
      exact bind_pure _
    simp only [hb', lift_ok, ok_bind, Option.getD_some, henter]
    refine bind_congr_ok fun c hc => ?_
    obtain ⟨hpc, hbodies'⟩ := pruned_of_visits regular once hpb (lift_eq_ok.1 hc)
    have hscoped : ∀ k, c.program.Scoped k := fun k body h =>
      isScoped k body (hbodies k ▸ hbodies' k ▸ h)
    rw [ihInner hpc hscoped]
    refine bind_congr_ok fun d hd => ?_
    obtain ⟨hpd, hbodies''⟩ := pruned_of_visits regular once hpc (lift_eq_ok.1 hd)
    exact ihTail hpd fun k body h => hscoped k body (hbodies'' k ▸ h)

end Analysis

end FrontEnd
