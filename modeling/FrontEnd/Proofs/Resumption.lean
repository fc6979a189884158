import FrontEnd.Proofs.Justified
import FrontEnd.Proofs.Truncation
/-!
# FrontEnd — what a limit has dropped

What a compilation with a limit returns can be compiled again. That binds
the same names, goes through the type pass in lockstep with the first time
(`Resolution.agree`), and complains about the same in the end. What has
been kept the first time is flagged, and what has been dropped is not. So
the second time the rest of the diagnostics comes out
(`compile_resumes`).
-/

namespace FrontEnd

open Analysis Program

variable {source : String} {p p₁ q d : Program} {a a' b c : Analysis} {S : List StmtId} {queue : Queue}
variable {x : Task} {v : VariableId} {cs : List Complaint}

/-! ## Orders that stay -/

/-- A task gives no variable another order. -/
theorem order_of_runTask (once : p₁.UsedOnce) (older : p₁.OperandsOlder)
    (hp : Program.Pruned p₁ a.program) (proper : x.Proper p₁) (h : runTask source a x = .ok a')
    (v : VariableId) :
    (a'.program.vars.get? v).map (·.order) = (a.program.vars.get? v).map (·.order) := by
  -- a task that writes the variable writes its type
  by_cases hw : x.Writes (.variable v)
  · cases x with
    | give t origin =>
      obtain rfl : Target.variable v = t := hw
      obtain ⟨p', hp', h⟩ := bind_eq_ok.1 h
      cases pure_eq_ok.1 h
      obtain ⟨vars, hvars, hp'⟩ := bind_eq_ok.1 hp'
      cases pure_eq_ok.1 hp'
      obtain ⟨-, rfl⟩ := (Table.update_eq_ok_iff _).1 hvars
      simp only [Table.get?_modify, if_true, Option.map_map]
      rfl
    | name e => exact hw.elim
    | value e expected => exact hw.elim
  · rw [(runTask_done once older hp proper h).1.vars v hw]

/-- Visits to statements give no variable another order. -/
theorem order_of_visits {ss : List StmtId} (regular : p₁.Regular) (once : p₁.UsedOnce)
    (hp : Program.Pruned p₁ a.program) (h : ss.foldlM (visit source p₁) a = .ok a')
    (v : VariableId) :
    (a'.program.vars.get? v).map (·.order) = (a.program.vars.get? v).map (·.order) := by
  have kept : Program.Pruned p₁ a'.program ∧
      (a'.program.vars.get? v).map (·.order) = (a.program.vars.get? v).map (·.order) := by
    refine foldlM_invariant (fun b => Program.Pruned p₁ b.program ∧
      (b.program.vars.get? v).map (·.order) = (a.program.vars.get? v).map (·.order))
      (fun s _ b b' hb hvisit => ?_) ⟨hp, rfl⟩ h
    refine foldlM_invariant (fun b => Program.Pruned p₁ b.program ∧
      (b.program.vars.get? v).map (·.order) = (a.program.vars.get? v).map (·.order))
      (fun x hx c c' hc htask => ?_) hb hvisit
    have proper := proper_of_mem_tasks regular.declarations once hx
    exact ⟨(runTask_done once regular.operands.older hc.1 proper htask).1.pruned hc.1,
      (order_of_runTask once regular.operands.older hc.1 proper htask v).trans hc.2⟩
  exact kept.2

/-- **Only variables of the top level get orders.** -/
theorem Resolution.order_of_local (went : Resolution source p queue p₁ S a)
    (hv : ∀ s ∈ p₁.globals, (p₁.globalOf s).id ≠ v) :
    (a.program.vars.get? v).map (·.order) = (p₁.vars.get? v).map (·.order) := by
  have regular := went.named.regular
  have once := went.named.usedOnce
  have hp : Program.Pruned p₁ p₁ := .refl regular.operands
  obtain ⟨_, b, c, run⟩ := resolveTypes_run (a := ⟨p₁, _⟩) regular once went.named.inScope hp
    went.named.isScoped went.named.unflagged went.types
  have hpb := run.visitedF.changes.pruned hp
  -- the top level declares its variables one by one, and this one is not among them
  have howned : ¬ p₁.OwnedBy p₁.globals (.variable v) := by
    rintro ⟨s, hs, howned⟩
    exact hv s hs (Target.variable.inj (eq_of_owned (declares_of_mem_globals hs) howned)).symm
  rw [order_of_visits regular once (run.changesG.pruned hpb) run.others, run.changesG.vars v howned,
    order_of_visits regular once hp run.functions]

/-! ## The second time next to the first -/

/-- A program whose names are bound, next to what its types being resolved
makes of it. -/
def Program.onceMore (p : Program) (source : String) : Setting where
  source := source
  exact := False
  types := p.InType
  settled := fun v => ∀ s ∈ p.globals, (p.globalOf s).id ≠ v
  start := p

/-- The types of a function declaration are those in its signature. -/
theorem mem_typesAt_function {s : StmtId} {r : Stmt} {f : FunctionId} {g : Function} {e : ExprId}
    (held : p.DeclarationHeld r.kind) (hr : p.stmts.get? s = some r) (hk : r.kind = .function f)
    (hg : p.functions.get? f = some g) :
    e ∈ p.typesAt s ↔ g.returnTypeExpr = some e ∨
      ∃ i ∈ g.parameters.ids, ∃ q, p.parameters.get? i = some q ∧ q.typeExpr = some e := by
  rw [hk] at held
  obtain ⟨g', hg', hrange⟩ := held
  cases hg.symm.trans hg'
  obtain ⟨l, hl⟩ := slice_ok hrange
  simp only [typesAt, signature, Table.get_eq_ok.2 hr, ok_bind, hk, Table.get_eq_ok.2 hg, hl, pure,
    Except.pure, elements_ok, List.mem_append, Option.mem_toList, List.mem_filterMap]
  refine or_congr_right (Iff.intro ?_ ?_)
  · rintro ⟨⟨i, q⟩, hmem, hq⟩
    obtain ⟨hget, hi⟩ := mem_slice hl hmem
    exact ⟨i, hi, q, hget, hq⟩
  · rintro ⟨i, hi, q, hq, he⟩
    obtain ⟨q', hmem⟩ := exists_mem_slice hl hi
    cases hq.symm.trans (mem_slice hl hmem).1
    exact ⟨(i, q), hmem, he⟩

theorem Program.Regular.seated (regular : p.Regular) (once : p.UsedOnce) :
    (p.onceMore source).Seated where
  values s r hr e he ht :=
    once.not_inValue_of_inType ht (regular.inValue_of_mem (valuesAt_eq hr ▸ he) .refl)
  declared s r v e init hr hk := by
    refine .inr (regular.inType_of_mem (s := s) ?_)
    have hget : p.stmts.get s = .ok r := Table.get_eq_ok.2 hr
    rw [typesAt, hget, ok_bind, hk]
    exact List.mem_singleton_self e
  results s r f g e hr hk hg he :=
    .inr (regular.inType_of_mem
      ((mem_typesAt_function (regular.declarations s r hr) hr hk hg).2 (.inl he)))
  parameters s r f g i q e hr hk hg hi hq he :=
    .inr (regular.inType_of_mem
      ((mem_typesAt_function (regular.declarations s r hr) hr hk hg).2 (.inr ⟨i, hi, q, hq, he⟩)))

/-- Every variable of the top level is declared by one of its statements. -/
theorem settled_declaring {ss : List StmtId} (hss : (p.outline p.block).direct = .ok ss)
    (v : VariableId) : ((p.onceMore source).declaring ss).settled v := by
  by_cases hv : ∃ s ∈ p.globals, (p.globalOf s).id = v
  · obtain ⟨s, hs, rfl⟩ := hv
    obtain ⟨hdirect, hdeclares⟩ := mem_globals.1 hs
    obtain ⟨w, type, init, span, hstmt⟩ := exists_of_declaresVariable hdeclares
    rw [hss, elements_ok] at hdirect
    exact .inr ⟨s, hdirect, _, type, init, hstmt, by rw [globalOf_eq hstmt]⟩
  · exact .inl fun s hs h => hv ⟨s, hs, h⟩

/-- **What has been resolved is kin to what it comes from.** -/
theorem Resolution.kin (went : Resolution source p queue p₁ S a) (h : Flags a b) :
    Kin (p₁.onceMore source) p₁ b.program where
  same := False.elim
  left := rfl
  right := h.frame.trans went.done.pruned.frame
  kinds e x y hx hy := by
    obtain ⟨z, hz, same⟩ := h.back hy
    obtain ⟨x', hx', grown⟩ := went.told.nodes e z hz
    cases hx.symm.trans hx'
    rw [same.kind]
    refine grown.kind.imp_right fun h => ⟨fun ht => ?_, .inr h.2.2, .inl h.2.1⟩
    exact went.named.usedOnce.not_inValue_of_inType ht h.1
  operands e o ho ht := by
    obtain ⟨s, -, hs⟩ := ht
    exact went.named.usedOnce.not_operand_of_slot (mem_slotsAt_iff.2 (.inr hs)) ho
  orders v r r' hv hr hr' := by
    have horder := went.order_of_local hv
    rw [h.vars] at hr'
    rw [hr, hr'] at horder
    exact Option.some.inj horder

/-- **The second time the type pass says what it has said before.** -/
theorem Resolution.agree (went : Resolution source p queue p₁ S a) (h : Flags a b) :
    Agree False (Kinned (p₁.onceMore source)) (fun v => abridge ((p₁.sounding v).resolveTypes source))
      (fun v => abridge ((b.program.sounding v).resolveTypes source)) :=
  (went.kin h).resolveTypes (went.named.regular.seated went.named.usedOnce)
    fun _ hss v => settled_declaring hss v

/-! ## What a program tells -/

/-- Whatever the voice, the type pass and the check complain about the
same, and leave the same program but for flags. -/
def Program.Tells (p : Program) (source : String) (cs : List Complaint) (q : Program) : Prop :=
  ∀ v, abridge ((p.sounding v).resolveTypes source) >>= Analysis.check =
    .ok (q.sounding (v.hearAll cs))

theorem reportAll_sounding (h : ∀ c ∈ cs, ∃ x, p.exprs.get? c.expr = some x) (v : Voice) :
    (p.sounding v).reportAll cs = .ok (p.sounding (v.hearAll cs)) := by
  induction cs generalizing v with
  | nil => rfl
  | cons c cs ih =>
    obtain ⟨⟨x, hx⟩, hrest⟩ := List.forall_mem_cons.1 h
    rw [Analysis.reportAll, List.foldlM_cons, report_sounding hx, ok_bind]
    exact ih hrest (v.hear c)

/-- A program differs by flags from itself without any. -/
theorem Flags.sounding (hexprs : d.unflagged.exprs = q.unflagged.exprs)
    (hrest : d.unscoped = q.unscoped) (v : Voice) :
    Flags ⟨q.unflagged, { config := v.queue.config }⟩ (d.sounding v) where
  exprs e x hx := by
    rw [← hexprs, unflagged, get?_voiced] at hx
    obtain ⟨y, hy, rfl⟩ := Option.map_eq_some_iff.1 hx
    exact ⟨{ y with flagged := v.flags e }, (get?_voiced ..).trans (by rw [hy]; rfl), rfl, rfl, rfl,
      fun h => absurd h Bool.false_ne_true⟩
  size := by
    have hsize := congrArg Table.size hexprs
    rw [unflagged, size_exprs_voiced] at hsize
    exact (size_exprs_voiced ..).trans hsize
  rest := hrest
  queue := ⟨rfl, List.nil_prefix⟩

/-- The operands of a program do not depend on its flags. -/
theorem operandsHeld_unflagged (v : Voice) (held : (q.sounding v).program.OperandsHeld) :
    q.unflagged.OperandsHeld := by
  intro e x hx
  rw [unflagged, get?_voiced] at hx
  obtain ⟨y, hy, rfl⟩ := Option.map_eq_some_iff.1 hx
  exact held e { y with flagged := v.flags e } ((get?_voiced ..).trans (by rw [hy]; rfl))

/-- **The check says the same of programs that differ by flags and
scopes.** -/
theorem check_sounding (held : q.unflagged.OperandsHeld) (hcs : q.unflagged.complaints = .ok cs)
    (hheld : ∀ c ∈ cs, ∃ x, q.exprs.get? c.expr = some x)
    (hexprs : d.unflagged.exprs = q.unflagged.exprs) (hrest : d.unscoped = q.unscoped)
    (hblock : d.block.symbolTable.isSentinel = false) (v : Voice) :
    (d.sounding v).check = .ok (d.sounding (v.hearAll cs)) := by
  refine (check_eq_ok held (.sounding hexprs hrest v) hblock).2 ⟨cs, hcs, reportAll_sounding ?_ v⟩
  intro c hc
  obtain ⟨x, hx⟩ := hheld c hc
  have hlt := Table.lt_size_of_get? hx
  have hsize := congrArg Table.size hexprs
  rw [unflagged, unflagged, size_exprs_voiced, size_exprs_voiced] at hsize
  exact Table.exists_get?_of_lt (hsize ▸ hlt)

/-- What is the same but for flags and scopes is the same without flags. -/
theorem Flags.exprs_unflagged (h : Flags a b) :
    b.program.unflagged.exprs = a.program.unflagged.exprs := by
  refine Table.ext_get? fun e => ?_
  simp only [unflagged, get?_voiced]
  cases hx : a.program.exprs.get? e with
  | none =>
    have hkind := h.get?_kind e
    rw [hx, Option.map_none, Option.map_eq_none_iff] at hkind
    rw [hkind]
  | some x =>
    obtain ⟨⟨kind, span, type, flagged⟩, hx', same⟩ := h.exprs e x hx
    obtain ⟨rfl, rfl, rfl, -⟩ := same
    rw [hx']
    rfl

/-- What is reported of a program is about its expressions. -/
theorem held_of_reportAll {v : Voice} (h : (q.sounding v).reportAll cs = .ok b) :
    ∀ c ∈ cs, ∃ x, q.exprs.get? c.expr = some x := by
  intro c hc
  obtain ⟨⟨x, hx⟩, -⟩ := quiet_of_reportAll h c hc
  obtain ⟨y, hy, -⟩ := (Flags.reportAll h).back hx
  obtain ⟨z, hz, -⟩ := Option.map_eq_some_iff.1 ((get?_voiced ..).symm.trans hy)
  exact ⟨z, hz⟩

/-- If the type pass succeeds both times, then it succeeds in every voice. -/
theorem Resolution.types_again (went : Resolution source p queue p₁ S a) (h : Flags a b)
    (hc : b.resolveTypes source = .ok c) :
    ∃ (cs : List Complaint) (q d : Program) (w w' : Voice),
      (∀ v, abridge ((p₁.sounding v).resolveTypes source) = .ok (q.sounding (v.hearAll cs))) ∧
      (∀ v, abridge ((b.program.sounding v).resolveTypes source) = .ok (d.sounding (v.hearAll cs))) ∧
      a = q.sounding w ∧ c = d.sounding w' := by
  let l : Voice := ⟨p₁.flags, (Analysis.determineMain ⟨p, queue⟩ source).queue⟩
  have hleft : abridge ((p₁.sounding l).resolveTypes source) = .ok a := by
    rw [sounding, voiced_flags, went.types]
    rfl
  have hright : abridge ((b.program.sounding b.voice).resolveTypes source) = .ok c := by
    rw [sounding_voice, hc]
    rfl
  -- the first time and the second are two of the runs that agree
  cases went.agree h with
  | error left => cases (left l).symm.trans hleft
  | apart _ right =>
    obtain ⟨e, he⟩ := right b.voice
    cases he.symm.trans hright
  | ok cs left right related =>
    obtain @⟨q, d, -⟩ := related
    exact ⟨cs, q, d, _, _, left, right, Except.ok.inj (hleft.symm.trans (left l)),
      Except.ok.inj (hright.symm.trans (right b.voice))⟩

/-- **The second time everything is said that has been said the first
time**, whatever has been kept of it. -/
theorem Resolution.tells_again (went : Resolution source p queue p₁ S a) (fresh : p.Fresh)
    (hcheck : a.check = .ok b) :
    ∃ cs q, p₁.Tells source cs q ∧ b.program.validate = .ok () ∧ b.program.mainSearched = true ∧
      ∃ b₁ d, b.program.bindNames source = .ok b₁ ∧ b₁.exprs = b.program.exprs ∧
        b₁.Tells source cs d := by
  have placed := went.placed
  obtain ⟨cs₀, -, hall⟩ := (check_eq_ok went.done.pruned.held (.refl a) placed.block).1 hcheck
  have placedB := placed.reportAll hall
  have hab := Flags.reportAll hall
  have resolved := went.resolved fresh
  obtain ⟨b₁, hb₁, hrescoped, -⟩ := bindNames_resolved resolved hab placedB
  obtain ⟨c, hc, hbc, placedC⟩ := resolve_again resolved hab placedB
  have hmain : b.determineMain source = b := by
    rw [determineMain, placedB.searched, if_pos rfl]
  obtain ⟨hvalid, b₁', hb₁', htypes⟩ := resolve_eq_ok.1 hc
  rw [hmain] at hb₁' htypes
  cases hb₁.symm.trans hb₁'
  obtain ⟨cs, q, d, w, w', left, right, rfl, rfl⟩ := went.types_again (hab.trans hrescoped.flags) htypes
  -- what has been resolved the second time is what was resolved the first time
  have hflags := hab.trans hbc.flags
  have hexprs : d.unflagged.exprs = q.unflagged.exprs := by
    have hsame := hflags.exprs_unflagged
    simp only [sounding, unflagged, voiced_voiced] at hsame
    exact hsame
  -- so there is the same to complain about
  have held := operandsHeld_unflagged w went.done.pruned.held
  obtain ⟨cs', hcs', hall'⟩ := (check_eq_ok held (.sounding rfl rfl w) placed.block).1 hcheck
  have hheld := held_of_reportAll hall'
  refine ⟨cs ++ cs', q, fun v => ?_, hvalid, placedB.searched, b₁, d, hb₁, hrescoped.exprs, fun v => ?_⟩
  · rw [left v, ok_bind, check_sounding held hcs' hheld rfl rfl placed.block, Voice.hearAll_append]
  · rw [right v, ok_bind, check_sounding held hcs' hheld hexprs hflags.rest placedC.block,
      Voice.hearAll_append]

/-! ## Compilations that are resumed -/

/-- A program that has the flags of a voice sounds with that voice. -/
theorem voiced_of_exprs {flags : ExprId → Bool} (h : p.exprs = (q.voiced flags).exprs) :
    p.voiced flags = p := by
  have hexprs : (p.voiced flags).exprs = p.exprs := by
    refine Table.ext_get? fun e => ?_
    rw [get?_voiced, h, get?_voiced, Option.map_map]
    rfl
  exact congrArg (fun exprs => { p with exprs }) hexprs

/-- A compilation lets a voice hear what the program tells. -/
theorem compile_of_tells {config : QueueConfig} {p' : Program} {v : Voice}
    (hvalid : p.validate = .ok ())
    (hmain : (Analysis.start config p).determineMain source = ⟨p', v.queue⟩)
    (hbind : p'.bindNames source = .ok p₁) (hflags : p₁.voiced v.flags = p₁)
    (tells : p₁.Tells source cs q) : p.compile config source =
      .ok ⟨q.voiced (v.hearAll cs).flags, (v.hearAll cs).queue.finish source⟩ := by
  have hstart : (⟨p₁, v.queue⟩ : Analysis) = p₁.sounding v := by rw [sounding, hflags]
  rw [compile_of_start hmain, hvalid, hbind]
  simp only [Except.mapError, ok_bind, hstart]
  rw [← bind_assoc, tells v]
  rfl

namespace Program

/-- **What a limit has dropped is not lost.** Whatever has been built with
one place for each expression, when it compiles without a limit it does so
with one. What comes out then can be compiled again, without a limit, and
that reports what the limit has dropped. -/
theorem compile_resumes {steps : List Step} {written : String}
    (built : Program.build steps = .ok (p, written)) (once : p.UsedOnce) (source : String) {L : Nat}
    (hL : 1 ≤ L) {c : Compilation} (hc : p.compile .unlimited source = .ok c) :
    ∃ c₁ c₂, p.compile { errorLimit := L, deduplicate := false } source = .ok c₁ ∧
      c₁.program.compile .unlimited source = .ok c₂ ∧
      c.diagnostics = c₁.diagnostics ++ c₂.diagnostics := by
  have fresh := build_fresh built
  -- with the limit it compiles as well
  obtain ⟨c₁, hc₁⟩ : ∃ c₁, p.compile { errorLimit := L, deduplicate := false } source = .ok c₁ := by
    rcases compile_truncates p source false hL with ⟨e, -, he⟩ | ⟨c₁, -, hc₁, -⟩
    · cases he.symm.trans hc
    · exact ⟨c₁, hc₁⟩
  obtain ⟨a, b, p₁, S, cs₀, went, hcs₀, hall, rfl⟩ := compile_eq_ok fresh once hc₁
  have hcheck : a.check = .ok b :=
    (check_eq_ok went.done.pruned.held (.refl a) went.placed.block).2 ⟨cs₀, hcs₀, hall⟩
  obtain ⟨cs, q, tells, hvalid, hsearched, b₁, d, hb₁, hexprs, tells'⟩ := went.tells_again fresh hcheck
  obtain ⟨p', ds, hlen, hmain⟩ := determineMain_start p source
  have hbind : p'.bindNames source = .ok p₁ := by
    have hbind := went.binds
    rw [show Analysis.determineMain ⟨p, _⟩ source = _ from hmain _] at hbind
    exact hbind
  -- three voices hear the same
  let l : Voice := ⟨p₁.flags, { config := { errorLimit := L, deduplicate := false }, diagnostics := ds }⟩
  let u : Voice := ⟨p₁.flags, { config := .unlimited, diagnostics := ds }⟩
  let r : Voice := ⟨(l.hearAll cs).flags, { config := .unlimited }⟩
  cases (compile_of_tells (v := u) went.valid (hmain _) hbind (voiced_flags p₁) tells).symm.trans hc
  have hlimited := (compile_of_tells (v := l) went.valid (hmain _) hbind (voiced_flags p₁) tells).symm.trans hc₁
  obtain ⟨hprogram, hdiagnostics⟩ := Compilation.mk.inj (Except.ok.inj hlimited)
  have hagain : b.program.compile .unlimited source = _ := compile_of_tells (v := r) hvalid
    (by rw [determineMain, Analysis.start, if_pos hsearched]; rfl) hb₁
    (voiced_of_exprs (hexprs.trans (congrArg Program.exprs hprogram.symm))) tells'
  have start : Voice.Truncates L l u :=
    ⟨rfl, rfl, (List.take_of_length_le (Nat.le_trans hlen hL)).symm, fun _ => id, fun _ => rfl⟩
  have hsaid : (u.hearAll cs).queue.diagnostics =
      (l.hearAll cs).queue.diagnostics ++ (r.hearAll cs).queue.diagnostics :=
    Voice.hearAll_eq_append start hL rfl (Nat.le_trans hlen hL) rfl
  refine ⟨_, _, hc₁, hagain, ?_⟩
  calc (u.hearAll cs).queue.finish source
      = ((l.hearAll cs).queue.diagnostics ++ (r.hearAll cs).queue.diagnostics).map
          (·.locate (LineTable.ofText source) source) := congrArg (List.map _) hsaid
    _ = (l.hearAll cs).queue.finish source ++ (r.hearAll cs).queue.finish source := List.map_append
    _ = b.queue.finish source ++ (r.hearAll cs).queue.finish source := by rw [hdiagnostics]

/-- Without `main` and with a cycle of two variables: with room for one
diagnostic both variables are reported only when what has come out is
compiled again. -/
theorem compile_resumes_cycle :
    Succeeds (Program.build
        [.identifier "b", .variable "a" none (some ⟨0⟩), .identifier "a", .variable "b" none (some ⟨1⟩)])
      fun (p, source) => p.UsedOnce ∧ 1 ≤ 1 ∧ Succeeds (p.compile .unlimited source) fun c =>
        Succeeds (p.compile { errorLimit := 1, deduplicate := false } source) fun c₁ =>
          Succeeds (c₁.program.compile .unlimited source) fun c₂ =>
            c.diagnostics = c₁.diagnostics ++ c₂.diagnostics ∧
            c.diagnostics.map (·.code) = [.noMain, .cyclicInitializer, .cyclicInitializer] ∧
            c₁.diagnostics.length = 1 := by
  have facts : Succeeds (Program.build
        [.identifier "b", .variable "a" none (some ⟨0⟩), .identifier "a", .variable "b" none (some ⟨1⟩)])
      fun (p, source) => p.UsedOnce ∧ Succeeds (p.compile .unlimited source) fun c =>
        Succeeds (p.compile { errorLimit := 1, deduplicate := false } source) fun c₁ =>
          c.diagnostics.map (·.code) = [.noMain, .cyclicInitializer, .cyclicInitializer] ∧
          c₁.diagnostics.length = 1 := by decide +kernel
  obtain ⟨⟨p, source⟩, built, once, c, hc, c₁, hc₁, hcodes, hlength⟩ := facts
  have hL : 1 ≤ 1 := by decide
  obtain ⟨c₁', c₂, hc₁', hc₂, hresumes⟩ := compile_resumes built once source hL hc
  cases hc₁'.symm.trans hc₁
  exact ⟨(p, source), built, once, hL, c, hc, c₁, hc₁, c₂, hc₂, hresumes, hcodes, hlength⟩

end Program

end FrontEnd
