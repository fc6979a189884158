import FrontEnd.Proofs.TopLevel
/-!
# FrontEnd — the type pass

After the type pass all tasks of all statements are done, but for the
initializers that read their way into a cycle (`resolveTypes_done`). What
is found out about a statement is not changed again, since what can be
seen from it has been settled before its turn.
-/

namespace FrontEnd

open Analysis

/-- The statements that declare the variables of the top level, in order. -/
def Program.globals (p : Program) : List StmtId := p.globalsIn true (p.outline p.block)

/-- What is left of a program for the type pass to do is nothing. -/
structure Analysis.TypesDone (source : String) (p₀ : Program) (L : List StmtId) (a : Analysis) :
    Prop where
  pruned : Program.Pruned p₀ a.program
  globals : a.GlobalsDone source p₀ p₀.globals L
  tasks : ∀ s, s ∉ p₀.globals → ∀ x ∈ p₀.tasks s, a.TaskDone source x

/-- What the type pass has kept about expressions is about them as types
and values. -/
structure Analysis.TypesHeard (p₀ : Program) (L : List StmtId) (a : Analysis) : Prop where
  globals : a.GlobalsHeard p₀ p₀.globals L
  tasks : ∀ s, s ∉ p₀.globals → ∀ x ∈ p₀.tasks s, a.TaskHeard x

variable {source : String} {p₀ : Program} {a a' : Analysis} {s s' : StmtId} {x : Task}
variable {ss : List StmtId} {t : Target} {i j : Nat} {o : Outline} {own outer : List Target}

/-- At the top level the same can be seen from everywhere. -/
theorem visible_of_direct (lays : Lays p₀ i j o) (hs : s ∈ elements o.direct) :
    ⟨s, own ++ outer⟩ ∈ p₀.placesIn true own outer o := by
  induction lays generalizing own with
  | done i => simp [Outline.direct] at hs
  | @leaf i j rest single tail ih =>
    obtain ⟨ids, hids, -⟩ := tail.direct_held
    have hbehind : p₀.declaredBehind true ⟨i⟩ = [] := by
      obtain ⟨stmt, hstmt, -⟩ := bind_eq_ok.1 single
      rw [Program.declaredBehind_eq true hstmt]
      cases stmt.kind.declares <;> rfl
    simp only [Outline.direct, hids, ok_bind, pure, Except.pure, elements_ok, List.mem_cons] at hs ih
    simp only [Program.placesIn, hbehind, List.append_nil, List.mem_cons]
    rcases hs with rfl | hs
    · exact .inl rfl
    · exact .inr (ih hs)
  | @nested i k j block body rest owns place inner tail _ ih =>
    obtain ⟨ids, hids, -⟩ := tail.direct_held
    simp only [Outline.direct, hids, ok_bind, pure, Except.pure, elements_ok, List.mem_cons] at hs ih
    simp only [Program.placesIn, List.mem_cons, List.mem_append]
    rcases hs with rfl | hs
    · exact .inl rfl
    · exact .inr (.inr (ih hs))

variable (regular : p₀.Regular) (once : p₀.UsedOnce) (inScope : p₀.InScope)

include regular in
/-- What a task depends on belongs to no other statement, unless a value
mentions it. -/
theorem not_ownedBy_of_concerns (hs : s ∉ ss) (hx : x ∈ p₀.tasks s)
    (hvalue : ∀ e expected, x = .value e expected → ∀ t, p₀.Mentions e t → ¬ p₀.OwnedBy ss t)
    (hc : x.Concerns p₀ t) : ¬ p₀.OwnedBy ss t := by
  cases x with
  | name e => exact hc.elim
  | value e expected => exact hvalue e expected rfl t hc
  | give t' origin =>
    rintro ⟨s', hs', howned⟩
    have hself := Program.owned_of_writes regular.declarations hx (t := t) hc
    exact hs (regular.owners s s' t hself howned ▸ hs')

include regular once in
/-- A task stays done while other statements are visited. -/
theorem taskDone_of_others (hs : s ∉ ss) (hx : x ∈ p₀.tasks s) (hp : Program.Pruned p₀ a.program)
    (h : Changes (p₀.RegionOf ss) (p₀.OwnedBy ss) a a')
    (hvalue : ∀ e expected, x = .value e expected → ∀ t, p₀.Mentions e t → ¬ p₀.OwnedBy ss t)
    (done : a.TaskDone source x) : a'.TaskDone source x := by
  refine done.changes h hp.held (fun e he hr => ?_) fun t hc ht => ?_
  · exact not_regionOf_of_reads regular once hs hx (he.pruned hp) hr
  · exact not_ownedBy_of_concerns regular hs hx hvalue (hc.pruned hp) ht

include regular once inScope in
/-- **Visits to statements that are clear of each other leave their tasks
done.** -/
theorem visits_done (nodup : ss.Nodup)
    (clear : ss.Pairwise fun s s' => p₀.declaresFunction s = true ∨ p₀.Clear s s')
    (self : ∀ s ∈ ss, p₀.declaresFunction s = true ∨ p₀.Clear s s)
    (hp : Program.Pruned p₀ a.program) (run : ss.foldlM (visit source p₀) a = .ok a') :
    Changes (p₀.RegionOf ss) (p₀.OwnedBy ss) a a' ∧
      (∀ s ∈ ss, ∀ x ∈ p₀.tasks s, a'.TaskDone source x) ∧
      ((∀ s ∈ ss, ∀ x ∈ p₀.tasks s, x.Fresh p₀ a) →
        ∀ s ∈ ss, ∀ x ∈ p₀.tasks s, a'.TaskHeard x) := by
  rw [foldlM_visit] at run
  have hproper : ∀ x ∈ ss.flatMap p₀.tasks, x.Proper p₀ := by
    intro x hx
    obtain ⟨s, -, hx⟩ := List.mem_flatMap.1 hx
    exact Program.proper_of_mem_tasks regular.declarations once hx
  obtain ⟨hchanges, hdone, hheard⟩ := tasks_run once regular.operands.older hp hproper
    (regular.pairwise_agenda once inScope nodup clear self) run
  refine ⟨hchanges.mono ?_ ?_, fun s hs x hx => hdone x (List.mem_flatMap.2 ⟨s, hs, hx⟩),
    fun fresh s hs x hx => hheard (fun y hy => ?_) x (List.mem_flatMap.2 ⟨s, hs, hx⟩)⟩
  · rintro e ⟨x, hx, hr⟩
    obtain ⟨s, hs, hx⟩ := List.mem_flatMap.1 hx
    exact regionOf_of_region regular hs hx hr
  · rintro t ⟨x, hx, hw⟩
    obtain ⟨s, hs, hx⟩ := List.mem_flatMap.1 hx
    exact ⟨s, hs, Program.owned_of_writes regular.declarations hx hw⟩
  · obtain ⟨s, hs, hy⟩ := List.mem_flatMap.1 hy
    exact fresh s hs y hy

include regular inScope in
/-- The variables of the top level read only what is settled ahead of all
other statements. -/
theorem not_ownedBy_of_global {e : ExprId} {expected : Option Origin} (hs : s ∈ p₀.globals)
    (hx : .value e expected ∈ p₀.tasks s) (ht : p₀.Mentions e t) :
    ¬ p₀.OwnedBy (p₀.order true (p₀.outline p₀.block)) t := by
  rintro ⟨s', hs', howned⟩
  obtain ⟨o, lays⟩ := regular.layout
  have ho : p₀.outline p₀.block = o := Program.outline_of_lays lays regular.whole
  simp only [Program.globals, Program.globalsIn, ho, if_true] at hs
  rw [ho] at hs'
  have hplace := @visible_of_direct p₀ s 0 _ o (p₀.blockAhead true o) [] lays (List.mem_filter.1 hs).1
  rw [List.append_nil] at hplace
  have hslot := Program.slot_of_uses regular.declarations hx (r := e) (by simp [Task.uses])
  have hvisible := inScope ⟨s, p₀.blockAhead true o⟩ (by rw [Program.places, ho]; exact hplace)
    e hslot t ht
  exact regular.not_owned_of_ahead lays hvisible ht.isTyped hs' howned

/-! ## The top level -/

/-- What visits to some statements come to. -/
structure Visited (source : String) (p₀ : Program) (ss : List StmtId) (a a' : Analysis) : Prop where
  changes : Changes (p₀.RegionOf ss) (p₀.OwnedBy ss) a a'
  done : ∀ s ∈ ss, ∀ x ∈ p₀.tasks s, a'.TaskDone source x
  heard : (∀ s ∈ ss, ∀ x ∈ p₀.tasks s, x.Fresh p₀ a) →
    ∀ s ∈ ss, ∀ x ∈ p₀.tasks s, a'.TaskHeard x

/-- How the type pass goes over the top level: the functions are typed,
then the variables, and then the other statements. -/
structure TypesRun (source : String) (p₀ : Program) (L : List StmtId) (a b c a' : Analysis) :
    Prop where
  functions : (p₀.functionsIn (p₀.outline p₀.block)).foldlM (visit source p₀) a = .ok b
  globals : typeGlobals source b (elements (p₀.outline p₀.block).direct) = .ok c
  others : (p₀.order true (p₀.outline p₀.block)).foldlM (visit source p₀) c = .ok a'
  visitedF : Visited source p₀ (p₀.functionsIn (p₀.outline p₀.block)) a b
  /-- The variables come to their turn untouched. -/
  fresh : ∀ s ∈ p₀.globals, ∀ x ∈ p₀.tasks s, x.Fresh p₀ b
  changesG : Changes (p₀.RegionOf p₀.globals) (p₀.OwnedBy p₀.globals) b c
  done : c.GlobalsDone source p₀ p₀.globals L
  heard : c.GlobalsHeard p₀ p₀.globals L
  visitedR : Visited source p₀ (p₀.order true (p₀.outline p₀.block)) c a'

theorem declares_of_mem_globals (h : s ∈ p₀.globals) : p₀.declaresVariable s = true :=
  (List.mem_filter.1 h).2

theorem declares_of_mem_functionsIn (h : s ∈ p₀.functionsIn o) : p₀.declaresFunction s = true :=
  (List.mem_filter.1 h).2

section
include regular

/-- The statements of the top level are held. -/
theorem direct_held : ∀ s ∈ elements (p₀.outline p₀.block).direct,
    ∃ stmt, p₀.stmts.get? s = some stmt := by
  obtain ⟨o, lays⟩ := regular.layout
  obtain ⟨ids, hids, hheld⟩ := lays.direct_held
  rw [Program.outline_of_lays lays regular.whole, hids]
  exact hheld

/-- Every statement has one place among those that are visited. -/
theorem visited_perm : (p₀.functionsIn (p₀.outline p₀.block) ++
    (p₀.globals ++ p₀.order true (p₀.outline p₀.block))).Perm p₀.stmtIds := by
  obtain ⟨o, lays⟩ := regular.layout
  rw [Program.globals, Program.outline_of_lays lays regular.whole]
  exact @Program.order_perm _ true _ _ _ lays

theorem nodup_visited : (p₀.functionsIn (p₀.outline p₀.block) ++
    (p₀.globals ++ p₀.order true (p₀.outline p₀.block))).Nodup :=
  (visited_perm regular).nodup_iff.2 <|
    (List.nodup_range' ..).map fun a b hab => by cases hab; rfl

/-- What can be seen at the top level is settled in its turn. -/
theorem order_clear_top :
    (p₀.order true (p₀.outline p₀.block)).Pairwise
        (fun s s' => p₀.declaresFunction s = true ∨ p₀.Clear s s') ∧
      ∀ s ∈ p₀.order true (p₀.outline p₀.block), p₀.declaresFunction s = true ∨ p₀.Clear s s := by
  obtain ⟨o, lays⟩ := regular.layout
  have ho := Program.outline_of_lays lays regular.whole
  rw [ho]
  have seen : p₀.Foreign (p₀.blockAhead true o ++ []) (p₀.order true o ++ []) := by
    rw [List.append_nil, List.append_nil]
    exact fun t ht htyped s hs => regular.not_owned_of_ahead lays ht htyped hs
  obtain ⟨hclear, hself⟩ := regular.order_clear lays
    (by rw [Program.places, ho]; exact fun _ h => h) (by simp) seen
  exact ⟨hclear, fun s hs => (hself s hs).imp_right And.left⟩

/-- There is no value in a function declaration. -/
theorem not_value_of_declares (hf : p₀.declaresFunction s = true) (hx : x ∈ p₀.tasks s)
    (e : ExprId) (expected : Option Origin) : x ≠ .value e expected := by
  rintro rfl
  simp only [Program.declaresFunction] at hf
  split at hf
  · next hstmt => exact Program.not_value_of_function hstmt (regular.declarations s _ hstmt) hx
  · cases hf

end

include regular once inScope in
theorem resolveTypes_run (hp : Program.Pruned p₀ a.program) (isScoped : ∀ s, a.program.Scoped s)
    (fresh : ∀ e, a.Unflagged e) (h : a.resolveTypes source = .ok a') :
    ∃ L b c, TypesRun source p₀ L a b c a' := by
  have hheld := direct_held regular
  obtain ⟨hnodupF, hnodupGR, hapartF⟩ := List.nodup_append.1 (nodup_visited regular)
  obtain ⟨hnodupG, hnodupR, -⟩ := List.nodup_append.1 hnodupGR
  obtain ⟨hclear, hself⟩ := order_clear_top regular
  obtain ⟨c, henter, hwalk⟩ := bind_eq_ok.1 h
  rw [Program.outline_congr hp.frame] at henter hwalk
  obtain ⟨o, lays⟩ := regular.layout
  obtain rfl : p₀.outline p₀.block = o := Program.outline_of_lays lays regular.whole
  obtain ⟨ids, hids, -⟩ := lays.direct_held
  -- entering the top level types the functions and the variables
  unfold enterBlock at henter
  split at henter
  · cases henter
  obtain ⟨ids', hids', henter⟩ := bind_eq_ok.1 henter
  rw [hids, lift_ok] at hids'
  cases hids'
  obtain rfl : elements (p₀.outline p₀.block).direct = ids := by rw [hids, elements_ok]
  obtain ⟨b, hsig, hglob⟩ := bind_eq_ok.1 henter
  rw [lift_eq_ok, typeSignatures_eq regular once source hp hheld] at hsig
  simp only [if_true, lift_eq_ok] at hglob
  obtain ⟨hchangesF, hdoneF, hheardF⟩ := visits_done regular once inScope hnodupF
    (List.pairwise_of_forall_mem_list fun s hs _ _ => .inl (declares_of_mem_functionsIn hs))
    (fun s hs => .inl (declares_of_mem_functionsIn hs)) hp hsig
  have hpb := hchangesF.pruned hp
  have hfreshG : ∀ s ∈ p₀.globals, ∀ x ∈ p₀.tasks s, x.Fresh p₀ b := by
    intro s hs x hx e he y hy
    have hnot : s ∉ p₀.functionsIn (p₀.outline p₀.block) := fun hF =>
      hapartF s hF s (List.mem_append_left _ hs) rfl
    rw [hchangesF.exprs e fun hr =>
      not_regionOf_of_reads regular once hnot hx (Task.reads_of_region he) hr] at hy
    exact fresh e y hy
  obtain ⟨hchangesG, L, hglobals, hheardG⟩ :=
    typeGlobals_done regular once hpb hheld hnodupG hfreshG hglob
  have hpc := hchangesG.pruned hpb
  -- then the other statements are visited
  have hscoped : ∀ s, c.program.Scoped s := by
    intro s body hbody
    rw [hchangesG.bodyOf, hchangesF.bodyOf] at hbody
    exact isScoped s body hbody
  rw [typeOutline_eq regular once source lays hpc hscoped, lift_eq_ok] at hwalk
  obtain ⟨hchangesR, hdoneR, hheardR⟩ := visits_done regular once inScope hnodupR hclear hself hpc hwalk
  exact ⟨L, b, c, hsig, hglob, hwalk, ⟨hchangesF, hdoneF, hheardF⟩, hfreshG, hchangesG, hglobals,
    hheardG, ⟨hchangesR, hdoneR, hheardR⟩⟩

include regular once inScope in
/-- **After the type pass all is done**, and what has been kept about an
expression is about it as a type or a value. -/
theorem resolveTypes_done (hp : Program.Pruned p₀ a.program) (isScoped : ∀ s, a.program.Scoped s)
    (fresh : ∀ e, a.Unflagged e) (h : a.resolveTypes source = .ok a') :
    Changes (fun _ => True) (fun _ => True) a a' ∧
      ∃ L, a'.TypesDone source p₀ L ∧ a'.TypesHeard p₀ L := by
  obtain ⟨L, b, c, went⟩ := resolveTypes_run regular once inScope hp isScoped fresh h
  have hchangesF := went.visitedF.changes
  have hchangesG := went.changesG
  have hchangesR := went.visitedR.changes
  have hpb := hchangesF.pruned hp
  have hpc := hchangesG.pruned hpb
  obtain ⟨-, hnodupGR, hapartF⟩ := List.nodup_append.1 (nodup_visited regular)
  have hapartG := (List.nodup_append.1 hnodupGR).2.2
  have hgOrder : ∀ s ∈ p₀.globals, s ∉ p₀.order true (p₀.outline p₀.block) := fun s hs hR =>
    hapartG s hs s hR rfl
  have hapart : ∀ s ∈ p₀.globals, ∀ x ∈ p₀.tasks s, ∀ e, x.Reads p₀ e →
      ¬ p₀.RegionOf (p₀.order true (p₀.outline p₀.block)) e :=
    fun s hs x hx e hr => not_regionOf_of_reads regular once (hgOrder s hs) hx hr
  -- every other statement is a function of the top level, or visited in its turn
  have hcases : ∀ s, s ∉ p₀.globals → ∀ x ∈ p₀.tasks s,
      s ∈ p₀.functionsIn (p₀.outline p₀.block) ∨ s ∈ p₀.order true (p₀.outline p₀.block) := by
    intro s hs x hx
    obtain ⟨stmt, hstmt⟩ := Program.exists_stmt_of_mem_tasks hx
    have hmem := (visited_perm regular).symm.subset
      (Program.mem_stmtIds.2 (Table.lt_size_of_get? hstmt))
    rcases List.mem_append.1 hmem with hF | hrest
    · exact .inl hF
    · exact .inr ((List.mem_append.1 hrest).resolve_left hs)
  have hkeepF : ∀ s ∈ p₀.functionsIn (p₀.outline p₀.block),
      s ∉ p₀.globals ∧ s ∉ p₀.order true (p₀.outline p₀.block) := by
    intro s hs
    exact ⟨fun hg => hapartF s hs s (List.mem_append_left _ hg) rfl,
      fun hR => hapartF s hs s (List.mem_append_right _ hR) rfl⟩
  have hvalueF : ∀ {ss}, ∀ s ∈ p₀.functionsIn (p₀.outline p₀.block), ∀ x ∈ p₀.tasks s,
      ∀ e expected, x = .value e expected → ∀ t, p₀.Mentions e t → ¬ p₀.OwnedBy ss t :=
    fun s hs x hx e expected hv =>
      absurd hv (not_value_of_declares regular (declares_of_mem_functionsIn hs) hx e expected)
  have hall : Changes (fun _ => True) (fun _ => True) a a' :=
    ((hchangesF.mono (fun _ _ => trivial) fun _ _ => trivial).trans
      (hchangesG.mono (fun _ _ => trivial) fun _ _ => trivial)).trans
      (hchangesR.mono (fun _ _ => trivial) fun _ _ => trivial)
  refine ⟨hall, L, ⟨hchangesR.pruned hpc, ?_, fun s hs x hx => ?_⟩, ?_, fun s hs x hx => ?_⟩
  · refine went.done.changes regular (fun s => declares_of_mem_globals) hpc hchangesR hapart
      fun s hs x hx t hc => ?_
    refine not_ownedBy_of_concerns regular (hgOrder s hs) hx ?_ hc
    rintro e expected rfl t ht
    exact not_ownedBy_of_global regular inScope hs hx ht
  · rcases hcases s hs x hx with hF | hR
    · obtain ⟨hnotG, hnotR⟩ := hkeepF s hF
      refine taskDone_of_others regular once hnotR hx hpc hchangesR (hvalueF s hF x hx) ?_
      exact taskDone_of_others regular once hnotG hx hpb hchangesG (hvalueF s hF x hx)
        (went.visitedF.done s hF x hx)
    · exact went.visitedR.done s hR x hx
  · exact went.heard.changes went.done.sub (fun s => declares_of_mem_globals) hpc hchangesR hapart
  · rcases hcases s hs x hx with hF | hR
    · obtain ⟨hnotG, hnotR⟩ := hkeepF s hF
      refine ((went.visitedF.heard (fun _ _ _ _ e _ => fresh e) s hF x hx).changes hchangesG hpb.held
        fun e he hr => ?_).changes hchangesR hpc.held fun e he hr => ?_
      · exact not_regionOf_of_reads regular once hnotG hx (he.pruned hpb) hr
      · exact not_regionOf_of_reads regular once hnotR hx (he.pruned hpc) hr
    · refine went.visitedR.heard (fun s hs x hx e he y hy => ?_) s hR x hx
      have hnotF : s ∉ p₀.functionsIn (p₀.outline p₀.block) := fun hF => (hkeepF s hF).2 hs
      have hnotG : s ∉ p₀.globals := fun hg => hgOrder s hg hs
      rw [hchangesG.exprs e fun hr =>
          not_regionOf_of_reads regular once hnotG hx (Task.reads_of_region he) hr,
        hchangesF.exprs e fun hr =>
          not_regionOf_of_reads regular once hnotF hx (Task.reads_of_region he) hr] at hy
      exact fresh e y hy

end FrontEnd
