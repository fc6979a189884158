import FrontEnd.Proofs.Cycles
/-!
# FrontEnd — the variables of the top level

Typing the variables of the top level leaves each of them settled or in a
cycle, whatever order it has taken (`typeGlobals_done`).
-/

namespace FrontEnd

open Analysis

/-- The variables of the statements are settled, but for those that read
their way into a cycle. -/
structure Analysis.GlobalsDone (source : String) (p₀ : Program) (G L : List StmtId)
    (a : Analysis) : Prop where
  sub : L.Sublist G
  settled : ∀ s ∈ G, s ∉ L → a.Settled source p₀ s
  cyclic : ∀ s ∈ L, a.Cyclic p₀ s
  stages : a.CyclesDone source p₀ L

/-- What has been kept about the variables is about them. -/
def Analysis.GlobalsHeard (p₀ : Program) (G L : List StmtId) (a : Analysis) : Prop :=
  (∀ s ∈ G, s ∉ L → ∀ x ∈ p₀.tasks s, a.TaskHeard x) ∧ ∀ s ∈ L, a.CycleHeard p₀ s

variable {source : String} {p₀ : Program} {a a' : Analysis} {ss G L : List StmtId}
variable {region : ExprId → Prop} {targets : Target → Prop}

/-- Where nothing of the variables changes, they stay as they are. -/
theorem Analysis.GlobalsDone.changes (done : a.GlobalsDone source p₀ G L) (regular : p₀.Regular)
    (hG : ∀ s ∈ G, p₀.declaresVariable s = true) (hp : Program.Pruned p₀ a.program)
    (h : Changes region targets a a')
    (hr : ∀ s ∈ G, ∀ x ∈ p₀.tasks s, ∀ e, x.Reads p₀ e → ¬ region e)
    (ht : ∀ s ∈ G, ∀ x ∈ p₀.tasks s, ∀ t, x.Concerns p₀ t → ¬ targets t) :
    a'.GlobalsDone source p₀ G L := by
  have hL : ∀ s ∈ L, s ∈ G := fun s hs => done.sub.subset hs
  have hmentions : ∀ s ∈ L, ∀ e, (p₀.globalOf s).init = some e → ∀ t, a.program.Mentions e t →
      ¬ targets t := by
    intro s hs e he t htm
    obtain ⟨expected, hx⟩ := mem_value_tasks (hG s (hL s hs)) he
    exact ht s (hL s hs) _ hx t (hp.mentions htm)
  have hself : ∀ s ∈ G, ¬ targets (.variable (p₀.globalOf s).id) := by
    intro s hs
    obtain ⟨v, typeExpr, init, span, hstmt⟩ := Program.exists_of_declaresVariable (hG s hs)
    refine ht s hs _ ((give_mem_tasks hstmt).2 ⟨rfl, rfl⟩) _ ?_
    rw [globalOf_eq hstmt]
    exact rfl
  refine ⟨done.sub, fun s hs hnot => ?_, fun s hs => ?_, ?_⟩
  · exact (done.settled s hs hnot).changes (hG s hs) hp h (hr s hs)
      fun x hx t hc => ht s hs x hx t (hc.pruned hp)
  · refine (done.cyclic s hs).changes (hG s (hL s hs)) hp.held h (hr s (hL s hs)) (hself s (hL s hs)) ?_
    intro e he v hv
    rw [h.vars v (hmentions s hs e he _ hv)]
  · exact done.stages.changes regular (fun s hs => hG s (hL s hs)) hp h (fun s hs => hr s (hL s hs))
      hmentions

theorem Analysis.GlobalsHeard.changes (heard : a.GlobalsHeard p₀ G L) (hsub : L.Sublist G)
    (hG : ∀ s ∈ G, p₀.declaresVariable s = true) (hp : Program.Pruned p₀ a.program)
    (h : Changes region targets a a')
    (hr : ∀ s ∈ G, ∀ x ∈ p₀.tasks s, ∀ e, x.Reads p₀ e → ¬ region e) :
    a'.GlobalsHeard p₀ G L := by
  refine ⟨fun s hs hnot x hx => ?_, fun s hs => ?_⟩
  · exact (heard.1 s hs hnot x hx).changes h hp.held fun c hc => hr s hs x hx c (hc.pruned hp)
  · exact (heard.2 s hs).changes (hG s (hsub.subset hs)) hp h (hr s (hsub.subset hs))

variable (regular : p₀.Regular) (once : p₀.UsedOnce)

include regular once

/-- How the typing of top-level variables goes: all of them are declared,
they are settled in rounds, and what is left over is reported. -/
structure GlobalsRun (source : String) (p₀ : Program) (G L : List StmtId) (a b c a' : Analysis) :
    Prop where
  declared : G.foldlM (fun a s => do return (← a.declareGlobal s).2) a = .ok b
  rounds : settleRounds source G.length b (G.map p₀.globalOf) = .ok (L.map p₀.globalOf, c)
  cycles : (L.map p₀.globalOf).foldlM (reportCycle source) c = .ok a'
  begun : Changes (p₀.RegionOf G) (p₀.OwnedBy G) a b
  done : RoundDone source p₀ G G L b c
  reads : ∀ s ∈ L, (p₀.globalOf s).Reads c.program none

theorem typeGlobals_run (hp : Program.Pruned p₀ a.program)
    (hheld : ∀ s ∈ ss, ∃ stmt, p₀.stmts.get? s = some stmt)
    (nodup : (ss.filter p₀.declaresVariable).Nodup)
    (fresh : ∀ s ∈ ss.filter p₀.declaresVariable, ∀ x ∈ p₀.tasks s, x.Fresh p₀ a)
    (h : typeGlobals source a ss = .ok a') :
    ∃ L b c, GlobalsRun source p₀ (ss.filter p₀.declaresVariable) L a b c a' := by
  obtain ⟨⟨globals, b⟩, hdeclare, h⟩ := bind_eq_ok.1 h
  rw [declareGlobals_eq regular once hp hheld] at hdeclare
  obtain ⟨b', hb', hdeclare⟩ := bind_eq_ok.1 hdeclare
  obtain ⟨hglobals, hb⟩ := Prod.mk.inj (pure_eq_ok.1 hdeclare)
  obtain rfl : b' = b := hb
  have hG : ∀ s ∈ ss.filter p₀.declaresVariable, p₀.declaresVariable s = true := fun s hs =>
    (List.mem_filter.1 hs).2
  obtain ⟨hchanges, hbegun⟩ := declareAll_done regular once hp nodup hG fresh hb'
  obtain ⟨⟨left, c⟩, hrounds, h⟩ := bind_eq_ok.1 h
  rw [← hglobals, List.length_map] at hrounds
  obtain ⟨L, rfl, round, hreads⟩ := settleRounds_done regular once (hchanges.pruned hp) nodup
    le_rfl hG (fun _ hs => hs) hbegun hrounds
  exact ⟨L, b', c, hb', hrounds, h, hchanges, round, hreads⟩

/-- **Every variable of the top level is settled, or reads its way into a
cycle.** -/
theorem typeGlobals_done (hp : Program.Pruned p₀ a.program)
    (hheld : ∀ s ∈ ss, ∃ stmt, p₀.stmts.get? s = some stmt)
    (nodup : (ss.filter p₀.declaresVariable).Nodup)
    (fresh : ∀ s ∈ ss.filter p₀.declaresVariable, ∀ x ∈ p₀.tasks s, x.Fresh p₀ a)
    (h : typeGlobals source a ss = .ok a') :
    Changes (p₀.RegionOf (ss.filter p₀.declaresVariable)) (p₀.OwnedBy (ss.filter p₀.declaresVariable))
        a a' ∧
      ∃ L, a'.GlobalsDone source p₀ (ss.filter p₀.declaresVariable) L ∧
        a'.GlobalsHeard p₀ (ss.filter p₀.declaresVariable) L := by
  obtain ⟨L, b, c, went⟩ := typeGlobals_run regular once hp hheld nodup fresh h
  have hG : ∀ s ∈ ss.filter p₀.declaresVariable, p₀.declaresVariable s = true := fun s hs =>
    (List.mem_filter.1 hs).2
  generalize ss.filter p₀.declaresVariable = G at *
  have round := went.done
  have hpb := went.begun.pruned hp
  have hL : ∀ s ∈ L, s ∈ G := fun s hs => round.sub.subset hs
  have hpc := round.changes.pruned hpb
  obtain ⟨hchanges', -, hcyclic, hstages⟩ := reportCycles_done regular once hpc
    (round.sub.nodup nodup) (fun s hs => hG s (hL s hs)) round.begun went.reads went.cycles
  refine ⟨(went.begun.trans round.changes).trans (hchanges'.mono (fun e he => ?_) fun t ht => ?_), L,
    ⟨round.sub, fun s hs hnot => ?_, fun s hs => (hcyclic s hs).1, hstages⟩,
    fun s hs hnot x hx => ?_, fun s hs => (hcyclic s hs).2⟩
  · obtain ⟨s, hs, hslot⟩ := regionOf_of_initsOf regular (fun s hs => hG s (hL s hs)) he
    exact ⟨s, hL s hs, hslot⟩
  · obtain ⟨s, hs, howned⟩ := ht
    exact ⟨s, hL s hs, howned⟩
  · refine (round.settled s hs hnot).1.changes (hG s hs) hpc hchanges' (fun x hx e hr hin => ?_) ?_
    · exact not_regionOf_of_reads regular once hnot hx hr
        (regionOf_of_initsOf regular (fun s hs => hG s (hL s hs)) hin)
    · rintro x hx t hc ⟨s', hs', howned⟩
      obtain rfl := eq_of_owned (hG s' (hL s' hs')) howned
      exact not_concerns_of_waiting regular (hG s hs) (hG s' (hL s' hs')) (fun h => hnot (h ▸ hs'))
        (round.settled s hs hnot).1 (round.begun s' hs').waiting hx hc
  · refine ((round.settled s hs hnot).2 x hx).changes hchanges' hpc.held fun c hc hin => ?_
    exact not_regionOf_of_reads regular once hnot hx (hc.pruned hpc)
      (regionOf_of_initsOf regular (fun s hs => hG s (hL s hs)) hin)

end FrontEnd
