import FrontEnd.Proofs.Unsettling
/-!
# FrontEnd — cycles

A variable that is left over when no round settles any more reads one
that has no order (`Cyclic`). What is recorded in its initializer is what
was known when it was reported: those that are left over with it and
come after it had no type but a declared one (`CyclesDone`).
-/

namespace FrontEnd

/-- The type of a variable that reads its way into a cycle. -/
def Program.cycleFrom (p : Program) (s : StmtId) : Origin :=
  match p.stmts.get? s with
  | some ⟨.variable _ (some type) _, _⟩ => .recorded type
  | _ => .always .error

/-- The expressions of the initializers of some variables. -/
def Program.InitsOf (p : Program) (ss : List StmtId) (e : ExprId) : Prop :=
  ∃ s ∈ ss, ∃ c, (p.globalOf s).init = some c ∧ p.Under c e

namespace Analysis

/-- The variable of the statement has no order, since its initializer
reads one that has none. -/
structure Cyclic (p₀ : Program) (a : Analysis) (s : StmtId) : Prop where
  named : ∀ e, .name e ∈ p₀.tasks s → a.TypeDone e
  var : ∃ r, a.program.vars.get? (p₀.globalOf s).id = some r ∧ r.order = 0 ∧
    r.type = a.program.typeFrom (p₀.cycleFrom s)
  reads : (p₀.globalOf s).Reads a.program none
  quiet : ∀ e, (p₀.globalOf s).init = some e → ∃ x, a.program.exprs.get? e = some x ∧
    a.Quiet e (.ofCode .cyclicInitializer x.span)

/-- If a diagnostic has been kept for the initializer of the variable, it
was that it reads its way into a cycle. -/
structure CycleHeard (p₀ : Program) (a : Analysis) (s : StmtId) : Prop where
  named : ∀ e, .name e ∈ p₀.tasks s → a.TypeHeard e
  root : ∀ e, (p₀.globalOf s).init = some e → ∀ x, a.program.exprs.get? e = some x →
    x.flagged = true → a.queue.Has .cyclicInitializer x.span
  below : ∀ e, (p₀.globalOf s).init = some e → ∀ c, a.program.Under e c → c ≠ e → a.NodeHeard c

/-- The types in each of the initializers are as they were recorded, with
it and those after it not settled yet. -/
def CyclesDone (source : String) (p₀ : Program) (a : Analysis) : List StmtId → Prop
  | [] => True
  | s :: rest =>
    (∀ e expected, .value e expected ∈ p₀.tasks s →
      (a.unsettle p₀ (s :: rest)).TaskDone source (.value e expected)) ∧
    CyclesDone source p₀ a rest

end Analysis

open Analysis

variable {source : String} {p₀ : Program} {a a' b : Analysis} {s s' : StmtId} {x : Task}
variable {v : VariableId} {typeExpr init : Option ExprId} {span : Span} {found : Option Nat}
variable {region : ExprId → Prop} {targets : Target → Prop} {ss L : List StmtId} {e : ExprId} {t : Target}

theorem cycleFrom_eq (hs : p₀.stmts.get? s = some ⟨.variable v typeExpr init, span⟩) :
    p₀.cycleFrom s = typeExpr.elim (.always .error) .recorded := by
  simp only [Program.cycleFrom, hs]
  cases typeExpr <;> rfl

theorem cycleFrom_name (hs : p₀.stmts.get? s = some ⟨.variable v typeExpr init, span⟩)
    (he : (p₀.cycleFrom s).expr? = some e) : .name e ∈ p₀.tasks s := by
  rw [cycleFrom_eq hs] at he
  rw [name_mem_tasks hs]
  cases typeExpr with
  | none => cases he
  | some c => exact he

/-- The types in an initializer are as they were recorded, with it and
those after it not settled yet. -/
theorem Analysis.CyclesDone.exists_split (done : a.CyclesDone source p₀ L) (hs : s ∈ L) :
    ∃ before rest, L = before ++ s :: rest ∧ ∀ e expected, .value e expected ∈ p₀.tasks s →
      (a.unsettle p₀ (s :: rest)).TaskDone source (.value e expected) := by
  induction L with
  | nil => cases hs
  | cons s' L ih =>
    rcases List.mem_cons.1 hs with rfl | hs
    · exact ⟨[], L, rfl, done.1⟩
    · obtain ⟨before, rest, rfl, stage⟩ := ih done.2 hs
      exact ⟨s' :: before, rest, rfl, stage⟩

/-- A variable that is declared at the top level is all that its
statement declares. -/
theorem eq_of_owned (hs : p₀.declaresVariable s = true) (h : t ∈ p₀.owned s) :
    t = .variable (p₀.globalOf s).id := by
  obtain ⟨v, typeExpr, init, span, hs⟩ := Program.exists_of_declaresVariable hs
  rw [globalOf_eq hs]
  rw [Program.owned_variable hs] at h
  exact List.mem_singleton.1 h

theorem mem_value_tasks (hs : p₀.declaresVariable s = true) (he : (p₀.globalOf s).init = some e) :
    ∃ expected, .value e expected ∈ p₀.tasks s := by
  obtain ⟨v, typeExpr, init, span, hs⟩ := Program.exists_of_declaresVariable hs
  rw [globalOf_eq hs] at he
  exact ⟨_, (value_mem_tasks hs).2 ⟨he, rfl⟩⟩

theorem init_of_value {expected : Option Origin} (hs : p₀.declaresVariable s = true)
    (hx : .value e expected ∈ p₀.tasks s) : (p₀.globalOf s).init = some e := by
  obtain ⟨v, typeExpr, init, span, hs⟩ := Program.exists_of_declaresVariable hs
  rw [globalOf_eq hs, ((value_mem_tasks hs).1 hx).1]

/-- What reads a variable without an order has an initializer to read it. -/
theorem Global.Reads.exists_init {g : Global} {p : Program} (h : g.Reads p none) :
    ∃ e, g.init = some e ∧ p.OrderRead e none := by
  obtain ⟨id, declared, init⟩ := g
  cases init with
  | none => cases h
  | some e => exact ⟨e, rfl, h⟩

/-- What is read is the same as long as no order changes. -/
theorem Global.Reads.keep {g : Global} (reads : g.Reads a.program found)
    (h : Changes region targets a a') (held : a.program.OperandsHeld)
    (ho : ∀ e, g.init = some e → ∀ v, a.program.Mentions e (.variable v) →
      (a'.program.vars.get? v).map (·.order) = (a.program.vars.get? v).map (·.order)) :
    g.Reads a'.program found := by
  obtain ⟨id, declared, init⟩ := g
  cases init with
  | none => exact reads
  | some e =>
    exact Program.OrderRead.congr reads (fun w => ⟨h.keeps _ _, h.mentions held⟩) (ho e rfl)

/-! ## What is found out stays -/

/-- A cycle stays one while nothing of the statement is changed, and no
order. -/
theorem Analysis.Cyclic.changes (cyclic : a.Cyclic p₀ s) (hs : p₀.declaresVariable s = true)
    (held : a.program.OperandsHeld) (h : Changes region targets a a')
    (hr : ∀ x ∈ p₀.tasks s, ∀ e, x.Reads p₀ e → ¬ region e)
    (ht : ¬ targets (.variable (p₀.globalOf s).id))
    (ho : ∀ e, (p₀.globalOf s).init = some e → ∀ v, a.program.Mentions e (.variable v) →
      (a'.program.vars.get? v).map (·.order) = (a.program.vars.get? v).map (·.order)) :
    a'.Cyclic p₀ s := by
  obtain ⟨r, hv, hzero, htype⟩ := cyclic.var
  refine ⟨fun e he => (cyclic.named e he).changes h (hr _ he e rfl), ⟨r, (h.vars _ ht).trans hv, hzero,
    ?_⟩, cyclic.reads.keep h held ho, fun e he => ?_⟩
  · obtain ⟨v, typeExpr, init, span, hstmt⟩ := Program.exists_of_declaresVariable hs
    rw [h.typeFrom fun e he => hr _ (cycleFrom_name hstmt he) e rfl]
    exact htype
  · obtain ⟨y, hy, hq⟩ := cyclic.quiet e he
    obtain ⟨expected, hx⟩ := mem_value_tasks hs he
    exact ⟨y, (h.exprs e (hr _ hx e (.inl .refl))).trans hy, h.quiet hq⟩

theorem Analysis.CycleHeard.changes (heard : a.CycleHeard p₀ s) (hs : p₀.declaresVariable s = true)
    (hp : Program.Pruned p₀ a.program) (h : Changes region targets a a')
    (hr : ∀ x ∈ p₀.tasks s, ∀ e, x.Reads p₀ e → ¬ region e) : a'.CycleHeard p₀ s := by
  have hinit : ∀ e, (p₀.globalOf s).init = some e → ∀ c, p₀.Under e c → ¬ region c := by
    intro e he c hc
    obtain ⟨expected, hx⟩ := mem_value_tasks hs he
    exact hr _ hx c (.inl hc)
  refine ⟨fun e he => (heard.named e he).changes h (hr _ he e rfl), fun e he y hy hf => ?_,
    fun e he c hc hne => ?_⟩
  · rw [h.exprs e (hinit e he e .refl)] at hy
    exact h.queue.has (heard.root e he y hy hf)
  · have hc' := h.under hp.held hc
    exact (heard.below e he c hc' hne).changes h (hinit e he c (hp.under hc'))

theorem Analysis.CyclesDone.changes (done : a.CyclesDone source p₀ L) (regular : p₀.Regular)
    (hL : ∀ s ∈ L, p₀.declaresVariable s = true) (hp : Program.Pruned p₀ a.program)
    (h : Changes region targets a a')
    (hr : ∀ s ∈ L, ∀ x ∈ p₀.tasks s, ∀ e, x.Reads p₀ e → ¬ region e)
    (ht : ∀ s ∈ L, ∀ e, (p₀.globalOf s).init = some e → ∀ t, a.program.Mentions e t → ¬ targets t) :
    a'.CyclesDone source p₀ L := by
  induction L with
  | nil => trivial
  | cons s L ih =>
    obtain ⟨hfirst, hrest⟩ := done
    refine ⟨fun e expected hx => ?_, ih hrest (fun s' hs' => hL s' (List.mem_cons_of_mem _ hs'))
      (fun s' hs' => hr s' (List.mem_cons_of_mem _ hs')) fun s' hs' => ht s' (List.mem_cons_of_mem _ hs')⟩
    have hu := h.unsettle regular hL fun s' hs' e he => hr s' hs' _ he e rfl
    have hpu := (Changes.of_unsettle a p₀ (s :: L)).pruned hp
    refine (hfirst e expected hx).changes hu hpu.held (fun c hc => ?_) fun t htm htt => ?_
    · exact hr s List.mem_cons_self _ hx c (hc.pruned hpu)
    · exact ht s List.mem_cons_self e (init_of_value (hL s List.mem_cons_self) hx) t htm htt.1

/-! ## Reporting a cycle -/

/-- A field of an enum type mentions nothing. -/
theorem not_mentions_of_heard {y : Expr} (heard : a.NodeHeard e)
    (hy : a.program.exprs.get? e = some y) (hf : y.flagged = true) (t : Target) :
    ¬ a.program.Mentions e t := by
  obtain ⟨⟨subject, name, hk, z, u, hz, hzk⟩, -⟩ := heard y hy hf
  have hsubject := Program.not_mentions_leaf hz (by rw [hzk]; rfl) (by simp) (by rw [hzk]; rfl)
  exact Program.not_mentions_leaf hy (by rw [hk]; rfl) (by simpa using hsubject) (by rw [hk]; rfl) t

/-- A variable in a cycle keeps the type it is declared with, and has an
error for a type otherwise. -/
theorem setCyclic_done {r : Variable}
    (hs : p₀.stmts.get? s = some ⟨.variable v typeExpr init, span⟩)
    (hr : a.program.vars.get? v = some r)
    (htype : ∀ e, typeExpr = some e → r.type = a.program.typeFrom (.recorded e))
    (h : (if typeExpr.isSome then return a
      else return { a with program := ← a.program.setVariableType v .error } :
        Except Fault Analysis) = .ok a') :
    Changes (fun _ => False) (· = .variable v) a a' ∧
      (∀ w, (a'.program.vars.get? w).map (·.order) = (a.program.vars.get? w).map (·.order)) ∧
      ∃ r', a'.program.vars.get? v = some r' ∧ r'.type = a'.program.typeFrom (p₀.cycleFrom s) := by
  rw [cycleFrom_eq hs]
  cases typeExpr with
  | some e =>
    cases pure_eq_ok.1 h
    exact ⟨.refl _, fun _ => rfl, r, hr, htype e rfl⟩
  | none =>
    obtain ⟨q, hq, h⟩ := bind_eq_ok.1 h
    cases pure_eq_ok.1 h
    obtain ⟨vars, hvars, hq⟩ := bind_eq_ok.1 hq
    cases pure_eq_ok.1 hq
    obtain ⟨hc, r', -, hnew⟩ := Changes.update_var hvars fun _ => rfl
    refine ⟨hc, fun w => ?_, _, hnew, rfl⟩
    obtain ⟨-, rfl⟩ := (Table.update_eq_ok_iff _).1 hvars
    rw [Table.get?_modify]
    split
    · rw [Option.map_map]
      rfl
    · rfl

section

variable (regular : p₀.Regular) (once : p₀.UsedOnce)

include regular

/-- What has been done while the variable waited is done as seen without
the type that the variable got last. -/
theorem Analysis.TaskDone.of_waiting (done : a.TaskDone source x)
    (hs : p₀.declaresVariable s = true) (waiting : a.Waiting p₀ s)
    (held : a.program.OperandsHeld)
    (h : Changes (fun _ => False) (· = .variable (p₀.globalOf s).id) a a') :
    (a'.unsettle p₀ [s]).TaskDone source x := by
  have hself : ∀ s' ∈ [s], p₀.declaresVariable s' = true := by simpa using hs
  have hsame : a.program.unsettle p₀ [s] = a.program :=
    unsettle_of_waiting regular hself (by simpa using waiting)
  have hu := h.unsettle regular hself fun _ _ _ _ hf => hf
  rw [Analysis.unsettle, hsame] at hu
  refine done.changes hu held (fun _ _ hf => hf) fun t _ ht => ?_
  exact ht.2 s List.mem_cons_self ht.1

include once

/-- **What reporting one cycle comes to.** -/
theorem reportCycle_done (hs : p₀.stmts.get? s = some ⟨.variable v typeExpr init, span⟩)
    (hp : Program.Pruned p₀ a.program) (begun : a.Begun p₀ s)
    (reads : (p₀.globalOf s).Reads a.program none)
    (h : reportCycle source a (p₀.globalOf s) = .ok a') :
    Changes (fun e => ∃ c, init = some c ∧ p₀.Under c e) (· = .variable v) a a' ∧
      (∀ w, (a'.program.vars.get? w).map (·.order) = (a.program.vars.get? w).map (·.order)) ∧
      a'.Cyclic p₀ s ∧ a'.CycleHeard p₀ s ∧
      ∀ e expected, .value e expected ∈ p₀.tasks s →
        (a'.unsettle p₀ [s]).TaskDone source (.value e expected) := by
  have hdeclares : p₀.declaresVariable s = true := by simp only [Program.declaresVariable, hs]
  have hg := globalOf_eq hs
  obtain ⟨root, hroot, hread⟩ := reads.exists_init
  obtain ⟨value, hvalue⟩ := mem_value_tasks hdeclares hroot
  have honly : ∀ {e}, (p₀.globalOf s).init = some e → e = root := fun he =>
    (Option.some.inj (hroot.symm.trans he)).symm
  have hinit : init = some root := by rwa [hg] at hroot
  -- the initializer is typed, and then reported
  obtain ⟨expected, hexpected, h⟩ := bind_eq_ok.1 h
  obtain ⟨⟨inferred, b⟩, htyped, h⟩ := bind_eq_ok.1 h
  rw [show (p₀.globalOf s).init = init by rw [hg]] at htyped
  obtain ⟨hchanges, -, hdone, hheard⟩ :=
    typeInit_done regular once hs hp begun.waiting hexpected htyped
  have hpb := hchanges.pruned hp
  simp only [hroot] at h
  obtain ⟨c, hreport, h⟩ := bind_eq_ok.1 h
  obtain ⟨y, hy, -⟩ := bind_eq_ok.1 hreport
  rw [Table.get_eq_ok] at hy
  rw [raiseAt_eq hy] at hreport
  obtain ⟨y', hy', -, hspan, hquiet, hflagged⟩ := report_done hy hreport
  rw [← hspan] at hquiet hflagged
  have hflags := Flags.report hreport
  have hreported := Changes.report hreport
  have hpc := hreported.pruned hpb
  have hfirst : Changes (fun e => ∃ d, init = some d ∧ p₀.Under d e) (fun _ => False) a c :=
    hchanges.trans (hreported.mono (fun e he => ⟨root, hinit, he ▸ .refl⟩) fun _ hf => hf)
  have hname : ∀ e, .name e ∈ p₀.tasks s → ¬ ∃ d, init = some d ∧ p₀.Under d e :=
    fun _ => not_under_init regular once hs
  -- the variable gets its type last
  obtain ⟨r₀, hr₀, hzero, htype₀⟩ := begun.waiting.var
  rw [declaredFrom_eq hs] at htype₀
  rw [hg] at hr₀ h
  have hrc : c.program.vars.get? v = some r₀ := (hfirst.vars _ fun hf => hf).trans hr₀
  obtain ⟨hlast, horders, r, hr, htype⟩ := setCyclic_done hs hrc (fun e he => by
    subst he
    have hmem : Task.name e ∈ p₀.tasks s := (name_mem_tasks hs).2 rfl
    exact htype₀.trans (hfirst.recorded (hname e hmem)).symm) h
  have hall : Changes (fun e => ∃ d, init = some d ∧ p₀.Under d e) (· = .variable v) a a' :=
    (hfirst.mono (fun _ he => he) fun _ hf => hf.elim).trans
      (hlast.mono (fun _ hf => hf.elim) fun _ ht => ht)
  have hordersAll : ∀ w, (a'.program.vars.get? w).map (·.order) =
      (a.program.vars.get? w).map (·.order) := by
    intro w
    rw [horders, hfirst.vars w fun hf => hf]
  have hnode : ∀ d, b.program.Under root d → b.NodeHeard d :=
    hheard root value hvalue (begun.fresh root value hvalue)
  refine ⟨hall, hordersAll,
    { named := fun e he => (begun.waiting.named e he).changes hall (hname e he)
      var := ?_
      reads := reads.keep hall hp.held fun _ _ w _ => hordersAll w
      quiet := fun e he => ?_ },
    { named := fun e he => (begun.heard e he).changes hall (hname e he)
      root := fun e he z hz hf => ?_
      below := fun e he d hd hne => ?_ }, fun e expected hx => ?_⟩
  · rw [hg]
    have hsame := hordersAll v
    rw [hr, hr₀] at hsame
    exact ⟨r, hr, (Option.some.inj hsame).trans hzero, htype⟩
  · rw [honly he]
    exact ⟨y', (hlast.exprs root fun hf => hf).trans hy', hlast.quiet hquiet⟩
  · -- a flag can only come from this report, since a cycle reads a variable
    rw [honly he, hlast.exprs root fun hf => hf, hy'] at hz
    obtain rfl := Option.some.inj hz
    rcases hflagged hf with hold | hhas
    · obtain ⟨w, -, hm, -⟩ := hread
      exact absurd (hchanges.keeps _ _ hm) (not_mentions_of_heard (hnode root .refl) hy hold _)
    · exact hlast.queue.has hhas
  · obtain rfl := honly he
    have hd' : b.program.Under e d := hflags.under.1 (hlast.under hpc.held hd)
    exact ((hnode d hd').changes hreported hne).changes hlast fun hf => hf
  · -- but for its type, the variable still waits
    have hwaits : c.Waiting p₀ s := begun.waiting.changes hdeclares hfirst hname fun hf => hf
    rw [← show (p₀.globalOf s).id = v by rw [hg]] at hlast
    exact (hflags.taskDone hpb.held (hdone e expected hx)).of_waiting regular hdeclares hwaits
      hpc.held hlast

omit regular once in
/-- What is left to go through is not changed before. -/
theorem unsettle_cons (a : Analysis) (p₀ : Program) (s : StmtId) (ss : List StmtId) :
    a.unsettle p₀ (s :: ss) = (a.unsettle p₀ [s]).unsettle p₀ ss := rfl

/-- Statements do not look at expressions of others. -/
theorem not_regionOf_of_reads (hs : s ∉ ss) (hx : x ∈ p₀.tasks s) (hr : x.Reads p₀ e) :
    ¬ p₀.RegionOf ss e := by
  rintro ⟨s', hs', r', hr', hu'⟩
  obtain ⟨r, hr, hu⟩ := Program.exists_under_of_reads hr
  have hslot := Program.slot_of_uses regular.declarations hx hr
  obtain rfl := once.eq_of_under_slots hslot hr' hu hu'
  exact hs (once.eq_of_slot hslot hr' ▸ hs')

omit once in
theorem regionOf_of_initsOf (hL : ∀ s ∈ L, p₀.declaresVariable s = true) (h : p₀.InitsOf L e) :
    p₀.RegionOf L e := by
  obtain ⟨s, hs, c, hc, hu⟩ := h
  obtain ⟨expected, hx⟩ := mem_value_tasks (hL s hs) hc
  exact regionOf_of_region regular hs hx hu

/-- A declared type is part of no initializer. -/
theorem not_initsOf_of_name (hL : ∀ s ∈ L, p₀.declaresVariable s = true)
    (hs : p₀.declaresVariable s = true) (he : .name e ∈ p₀.tasks s) : ¬ p₀.InitsOf L e := by
  rintro ⟨s', hs', c, hc, hu⟩
  by_cases hne : s = s'
  · obtain ⟨v, typeExpr, init, span, hstmt⟩ := Program.exists_of_declaresVariable hs
    rw [← hne, globalOf_eq hstmt] at hc
    exact not_under_init regular once hstmt he ⟨c, hc, hu⟩
  · obtain ⟨expected, hx⟩ := mem_value_tasks (hL s' hs') hc
    exact not_region_of_reads regular once hne he hx rfl hu

omit once in
theorem not_ownedBy (hL : ∀ s ∈ L, p₀.declaresVariable s = true)
    (hs : p₀.declaresVariable s = true) (hnot : s ∉ L) :
    ¬ p₀.OwnedBy L (.variable (p₀.globalOf s).id) := by
  rintro ⟨s', hs', ht⟩
  have heq := eq_of_owned (hL s' hs') ht
  exact globalOf_ne regular hs (hL s' hs') (fun h => hnot (h ▸ hs')) (Target.variable.inj heq)

/-- **What reporting all cycles comes to.** -/
theorem reportCycles_done (hp : Program.Pruned p₀ a.program) (nodup : L.Nodup)
    (hL : ∀ s ∈ L, p₀.declaresVariable s = true) (begun : ∀ s ∈ L, a.Begun p₀ s)
    (reads : ∀ s ∈ L, (p₀.globalOf s).Reads a.program none)
    (run : (L.map p₀.globalOf).foldlM (reportCycle source) a = .ok a') :
    Changes (p₀.InitsOf L) (p₀.OwnedBy L) a a' ∧
      (∀ w, (a'.program.vars.get? w).map (·.order) = (a.program.vars.get? w).map (·.order)) ∧
      (∀ s ∈ L, a'.Cyclic p₀ s ∧ a'.CycleHeard p₀ s) ∧ a'.CyclesDone source p₀ L := by
  induction L generalizing a with
  | nil =>
    obtain rfl := foldlM_nil_eq_ok.1 run
    exact ⟨.refl a, fun _ => rfl, by simp, trivial⟩
  | cons s L ih =>
    obtain ⟨hnew, hnodup⟩ := List.nodup_cons.1 nodup
    obtain ⟨hs, hrest⟩ := List.forall_mem_cons.1 hL
    obtain ⟨hbegun, hbegunRest⟩ := List.forall_mem_cons.1 begun
    obtain ⟨hread, hreadRest⟩ := List.forall_mem_cons.1 reads
    obtain ⟨b, hb, run⟩ := foldlM_cons_eq_ok.1 run
    obtain ⟨v, typeExpr, init, span, hstmt⟩ := Program.exists_of_declaresVariable hs
    obtain ⟨hchanges, horders, hcyclic, hheard, hdone⟩ :=
      reportCycle_done regular once hstmt hp hbegun hread hb
    have hg := globalOf_eq hstmt
    have hvalue : ∀ c, init = some c → .value c (typeExpr.map .recorded) ∈ p₀.tasks s :=
      fun c hc => (value_mem_tasks hstmt).2 ⟨hc, rfl⟩
    have hpb := hchanges.pruned hp
    have hbegunNext : ∀ s' ∈ L, b.Begun p₀ s' := by
      intro s' hs'
      have hne : s' ≠ s := fun h => hnew (h ▸ hs')
      refine (hbegunRest s' hs').changes (hrest s' hs') hchanges ?_ fun ht => ?_
      · rintro x hx e hr ⟨c, hc, hu⟩
        exact not_region_of_reads regular once hne hx (hvalue c hc) hr hu
      · refine globalOf_ne regular (hrest s' hs') hs hne ?_
        rw [hg]
        exact Target.variable.inj ht
    obtain ⟨hchanges', horders', hcyclic', hdone'⟩ := ih hpb hnodup hrest hbegunNext
      (fun s' hs' => (hreadRest s' hs').keep hchanges hp.held fun _ _ w _ => horders w) run
    have hapart : ∀ x ∈ p₀.tasks s, ∀ e, x.Reads p₀ e → ¬ p₀.InitsOf L e := fun x hx e hr h =>
      not_regionOf_of_reads regular once hnew hx hr (regionOf_of_initsOf regular hrest h)
    refine ⟨?_, fun w => (horders' w).trans (horders w), List.forall_mem_cons.2 ⟨⟨?_, ?_⟩, hcyclic'⟩,
      fun e expected hx => ?_, hdone'⟩
    · refine Changes.trans (hchanges.mono ?_ ?_) (hchanges'.mono ?_ ?_)
      · exact fun e h => ⟨s, List.mem_cons_self, by rw [hg]; exact h⟩
      · rintro t rfl
        refine ⟨s, List.mem_cons_self, ?_⟩
        have := owned_globalOf hs
        rwa [hg] at this
      · exact fun e ⟨s', hs', h⟩ => ⟨s', List.mem_cons_of_mem _ hs', h⟩
      · exact fun t ⟨s', hs', h⟩ => ⟨s', List.mem_cons_of_mem _ hs', h⟩
    · exact hcyclic.changes hs hpb.held hchanges' hapart (not_ownedBy regular hrest hs hnew)
        fun _ _ w _ => horders' w
    · exact hheard.changes hs hpb hchanges' hapart
    · -- those that come after it wait until its turn is over
      have hwait : (b.unsettle p₀ (s :: L)).program = (b.unsettle p₀ [s]).program := by
        rw [unsettle_cons]
        refine unsettle_of_waiting regular hrest fun s' hs' => ?_
        refine (hbegunNext s' hs').waiting.changes (hrest s' hs') (.of_unsettle b p₀ [s])
          (fun _ _ hf => hf) ?_
        rintro ⟨s'', hs'', ht⟩
        obtain rfl := List.mem_singleton.1 hs''
        exact globalOf_ne regular (hrest s' hs') hs (fun h => hnew (h ▸ hs')) (Target.variable.inj ht)
      have hstage : (b.unsettle p₀ (s :: L)).TaskDone source (.value e expected) := by
        rw [show b.unsettle p₀ (s :: L) = b.unsettle p₀ [s] by
          rw [Analysis.unsettle, Analysis.unsettle] at hwait ⊢
          exact congrArg (Analysis.mk · b.queue) hwait]
        exact hdone e expected hx
      have hu := hchanges'.unsettle regular hL fun s' hs' e he =>
        not_initsOf_of_name regular once hrest (hL s' hs') he
      have hpu := (Changes.of_unsettle b p₀ (s :: L)).pruned hpb
      refine hstage.changes hu hpu.held (fun c hc => hapart _ hx c (hc.pruned hpu)) fun t _ ht => ?_
      obtain ⟨⟨s', hs', howned⟩, hother⟩ := ht
      exact hother s' (List.mem_cons_of_mem _ hs') (eq_of_owned (hrest s' hs') howned)

end

end FrontEnd
