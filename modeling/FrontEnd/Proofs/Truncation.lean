import FrontEnd.Proofs.Lockstep
/-!
# FrontEnd — what an error limit does

Neither the type pass nor the check depends on the voice of the program
(`exists_typesHeard`, `check_hears`). So a limit on the number of
diagnostics takes away those that come after the limit, and the flags that
go with them, and changes nothing else (`compile_truncates`).
-/

namespace FrontEnd

open Analysis

namespace Program

/-! ## Hearing a check -/

/-- Whatever its voice, a run on the program hears the same complaints and
changes nothing else, or it fails for one reason. -/
inductive Hears {ε : Type} (p : Program) (f : Voice → Except ε Analysis) : Prop
  | hears (cs : List Complaint) (h : ∀ v, f v = .ok (p.sounding (v.hearAll cs)))
  | fails {e : ε} (h : ∀ v, f v = .error e)

variable {p : Program} {e : ExprId} {s : StmtId} {d : Diagnostic} {source : String}

namespace Hears

variable {ε α : Type} {f : Voice → Except ε Analysis}

theorem nothing : p.Hears fun v => (.ok (p.sounding v) : Except ε Analysis) := .hears [] fun _ => rfl

theorem bind {k : Analysis → Except ε Analysis} (h : p.Hears f)
    (next : p.Hears fun v => k (p.sounding v)) : p.Hears fun v => f v >>= k := by
  cases h with
  | hears cs h =>
    cases next with
    | hears cs' next => exact .hears (cs ++ cs') fun v => by rw [h, ok_bind, next, Voice.hearAll_append]
    | fails next => exact .fails fun v => by rw [h, ok_bind, next]
  | fails h => exact .fails fun v => by rw [h]; rfl

/-- To read what does not depend on the voice. -/
theorem read {u : Except ε α} {k : Voice → α → Except ε Analysis}
    (next : ∀ x, u = .ok x → p.Hears fun v => k v x) : p.Hears fun v => u >>= k v := by
  cases u with
  | error e => exact .fails fun _ => rfl
  | ok x => exact next x rfl

theorem foldlM {step : Analysis → α → Except ε Analysis} {xs : List α}
    (h : ∀ x ∈ xs, p.Hears fun v => step (p.sounding v) x) :
    p.Hears fun v => xs.foldlM step (p.sounding v) := by
  induction xs with
  | nil => exact nothing
  | cons x xs ih =>
    simp only [List.foldlM_cons]
    exact (h x List.mem_cons_self).bind (ih fun y hy => h y (List.mem_cons_of_mem _ hy))

theorem lift {f : Voice → Except Fault Analysis} (h : p.Hears f) :
    p.Hears fun v => (liftM (f v) : Except (Abort ε) Analysis) := by
  cases h with
  | hears cs h => exact .hears cs fun v => by rw [h, lift_ok]
  | fails h => exact .fails fun v => by rw [h]; rfl

/-- To look an expression up. -/
theorem expr {f : Voice → Expr → Except Fault Analysis}
    (h : ∀ x, p.exprs.get? e = some x → p.Hears fun v => f v { x with flagged := v.flags e }) :
    p.Hears fun v => (p.sounding v).program.exprs.get e >>= f v := by
  cases hx : p.exprs.get? e with
  | none => exact .fails fun v => by rw [get_sounding_none hx]; rfl
  | some x =>
    simp only [get_sounding hx, ok_bind]
    exact h x hx

theorem report (e : ExprId) (d : Diagnostic) : p.Hears fun v => (p.sounding v).report e d := by
  cases hx : p.exprs.get? e with
  | none => exact .fails fun v => by rw [Analysis.report, get_sounding_none hx]; rfl
  | some x => exact .hears [⟨e, d⟩] fun v => report_sounding hx d

theorem raiseAt (code : Code) (e : ExprId) : p.Hears fun v => (p.sounding v).raiseAt code e :=
  expr fun x _ => report e (.ofCode code x.span)

end Hears

theorem operands_sounding (kind : ExprKind) (v : Voice) :
    (p.sounding v).program.operands kind = p.operands kind := operands_voiced kind

theorem typeOf_sounding (e : ExprId) (v : Voice) :
    (p.sounding v).program.typeOf e = p.typeOf e := typeOf_voiced e

theorem checkCallee_hears {fuel : Nat} {callee : ExprId}
    (h : p.Hears fun v => (p.sounding v).checkExprWithin fuel callee) :
    p.Hears fun v => (p.sounding v).checkCallee fuel callee := by
  refine Hears.expr fun y _ => ?_
  obtain ⟨kind, span, type, flagged⟩ := y
  cases kind with
  | function f => exact .nothing
  | identifier => exact .raiseAt .unknownFunction callee
  | _ => exact h.bind (.raiseAt .notAFunction callee)

theorem checkExprWithin_hears (fuel : Nat) (e : ExprId) :
    p.Hears fun v => (p.sounding v).checkExprWithin fuel e := by
  induction fuel generalizing e with
  | zero => exact .fails fun _ => rfl
  | succ fuel ih =>
    by_cases hcall : ∃ x callee arguments, p.exprs.get? e = some x ∧ x.kind = .call callee arguments
    · obtain ⟨x, callee, arguments, hx, hk⟩ := hcall
      have hget : ∀ v : Voice,
          (p.sounding v).program.exprs.get? e = some { x with flagged := v.flags e } :=
        fun v => Table.get_eq_ok.1 (get_sounding hx v)
      simp only [checkExprWithin_call (hget _) hk]
      refine (checkCallee_hears (ih callee)).bind ?_
      exact Hears.read (u := p.arguments.slice arguments) fun es _ => Hears.foldlM fun o _ => ih o.2
    · refine Hears.expr fun x hx => ?_
      obtain ⟨kind, span, type, flagged⟩ := x
      have operands : p.Hears fun v => (p.sounding v).program.operands kind >>=
          (·.foldlM (checkExprWithin fuel) (p.sounding v)) := by
        simp only [operands_sounding]
        exact Hears.read fun es _ => Hears.foldlM fun o _ => ih o
      cases kind with
      | identifier => exact .raiseAt .unknownName e
      | call callee arguments => exact absurd ⟨_, _, _, hx, rfl⟩ hcall
      | _ => exact operands

theorem checkExpr_hears (e : ExprId) : p.Hears fun v => (p.sounding v).checkExpr e := by
  have hdepth : ∀ v : Voice, (p.sounding v).program.exprDepth = p.exprDepth := fun v => by
    rw [exprDepth, sounding, size_exprs_voiced, exprDepth]
  simp only [checkExpr, hdepth]
  exact checkExprWithin_hears _ e

/-! ## Statements -/

theorem checkAssignable_hears (value : ExprId) (expected : Ty) (span : Span) :
    p.Hears fun v => (p.sounding v).checkAssignable value expected span := by
  simp only [checkAssignable, typeOf_sounding]
  refine Hears.read fun found _ => ?_
  cases found.assignable expected with
  | true => exact .nothing
  | false => exact .report value _

theorem checkCondition_hears (condition : ExprId) :
    p.Hears fun v => (p.sounding v).checkCondition condition := by
  refine (checkExpr_hears condition).bind ?_
  simp only [typeOf_sounding]
  refine Hears.read fun found _ => ?_
  cases found.isInvalid || found == .bool with
  | true => exact .nothing
  | false =>
    refine Hears.expr fun x _ => ?_
    exact Hears.report condition
      { code := .notABoolean, span := x.span, message := Ty.bool.mismatch found }

theorem checkIterable_hears (iterable : ExprId) :
    p.Hears fun v => (p.sounding v).checkIterable iterable := by
  refine (checkExpr_hears iterable).bind (Hears.expr fun x _ => ?_)
  by_cases h : x.kind.isIterable = true
  · simp only [h, if_true]
    exact .nothing
  · simp only [h]
    exact .raiseAt .notIterable iterable

theorem checkStmt_hears (s : StmtId) : p.Hears fun v => (p.sounding v).checkStmt s := by
  refine Hears.read (u := p.stmts.get s) fun stmt _ => ?_
  obtain ⟨kind, span⟩ := stmt
  cases kind with
  | nest head body =>
    cases head with
    | ifThen e | elseIf e | whileDo e => exact checkCondition_hears e
    | forEach iterator e => exact checkIterable_hears e
    | bare | elseThen | loop => exact .nothing
  | «variable» v type init =>
    cases init with
    | none => exact .nothing
    | some init =>
      refine (checkExpr_hears init).bind (Hears.read (u := p.vars.get v) fun r _ => ?_)
      exact checkAssignable_hears init r.type span
  | assign lhs rhs =>
    refine (checkExpr_hears lhs).bind ((checkExpr_hears rhs).bind ?_)
    simp only [typeOf_sounding]
    exact Hears.read fun type _ => checkAssignable_hears rhs type span
  | output e | evaluate e => exact checkExpr_hears e
  | returnValue e =>
    cases e with
    | none => exact .nothing
    | some e => exact checkExpr_hears e
  | _ => exact .nothing

theorem checkOutline_hears (outline : Outline) :
    p.Hears fun v => (p.sounding v).checkOutline outline := by
  induction outline with
  | stuck fault => exact .fails fun _ => rfl
  | done => exact .nothing
  | leaf s rest ih => exact (checkStmt_hears s).bind ih
  | nested s body rest ihBody ihRest => exact (checkStmt_hears s).bind (ihBody.bind ihRest)

/-- **What the check complains about does not depend on the voice.** -/
theorem check_hears (p : Program) : p.Hears fun v => (p.sounding v).check := by
  have houtline : ∀ v : Voice,
      (p.sounding v).program.outline (p.sounding v).program.block = p.outline p.block :=
    fun v => outline_congr frame_voiced
  simp only [check, houtline]
  change p.Hears fun v => if p.block.symbolTable.isSentinel && !p.block.isEmpty then _ else _
  cases p.block.symbolTable.isSentinel && !p.block.isEmpty with
  | true => exact .fails fun _ => rfl
  | false => exact (checkOutline_hears _).lift

/-! ## Hearing the type pass -/

/-- The runs of a pass on one program, next to each other. -/
def alone (p : Program) (source : String) : Setting where
  source := source
  exact := True
  types := fun _ => False
  settled := fun _ => True
  start := p

theorem seated_alone (p : Program) (source : String) : (p.alone source).Seated :=
  ⟨fun _ _ _ _ _ => id, fun _ _ _ _ _ _ _ => .inl trivial, fun _ _ _ _ _ _ _ _ _ => .inl trivial,
    fun _ _ _ _ _ _ _ _ _ _ _ _ _ => .inl trivial⟩

/-- **What the type pass complains about does not depend on the voice**, nor
does what it makes of the program. -/
theorem exists_typesHeard (p : Program) (source : String) :
    (∃ (c : Program) (cs : List Complaint),
        ∀ v, abridge ((p.sounding v).resolveTypes source) = .ok (c.sounding (v.hearAll cs))) ∨
      ∃ e, ∀ v, abridge ((p.sounding v).resolveTypes source) = .error e := by
  have kin : Kin (p.alone source) p p := .refl rfl fun _ _ _ => id
  cases kin.resolveTypes (seated_alone p source) fun _ _ _ => .inl trivial with
  | ok cs left _ related =>
    obtain ⟨k⟩ := related
    exact .inl ⟨_, cs, left⟩
  | error left => exact .inr ⟨_, left⟩
  | apart inexact _ => exact absurd trivial inexact

/-! ## Compilations with a limit -/

/-- The program with all flags taken away. -/
def unflagged (p : Program) : Program := p.voiced fun _ => false

/-- The programs are the same but for flags, and what is flagged in the
first is flagged in the second. -/
structure FlaggedWithin (p q : Program) : Prop where
  same : p.unflagged = q.unflagged
  flags : ∀ e x y, p.exprs.get? e = some x → q.exprs.get? e = some y →
    x.flagged = true → y.flagged = true

theorem flaggedWithin_voiced {flags flags' : ExprId → Bool}
    (h : ∀ e, flags e = true → flags' e = true) :
    (p.voiced flags).FlaggedWithin (p.voiced flags') where
  same := by rw [unflagged, voiced_voiced, unflagged, voiced_voiced]
  flags e x y hx hy hf := by
    rw [get?_voiced] at hx hy
    obtain ⟨z, -, rfl⟩ := Option.map_eq_some_iff.1 hx
    obtain ⟨z', -, rfl⟩ := Option.map_eq_some_iff.1 hy
    exact h e hf

/-- Whatever the configuration, looking for `main` comes to the same, since
none refuses the first diagnostic. -/
theorem determineMain_start (p : Program) (source : String) :
    ∃ (p' : Program) (ds : List Diagnostic), ds.length ≤ 1 ∧ ∀ config,
      (Analysis.start config p).determineMain source = ⟨p', { config, diagnostics := ds }⟩ := by
  cases hsearched : p.mainSearched with
  | true =>
    refine ⟨p, [], Nat.zero_le 1, fun config => ?_⟩
    rw [determineMain, Analysis.start, if_pos hsearched]
    rfl
  | false =>
    have hn : ∀ config, ¬ (Analysis.start config p).program.mainSearched = true := fun config h => by
      rw [Analysis.start, hsearched] at h
      cases h
    cases hmain : findMain { p with mainSearched := true } source with
    | some f =>
      refine ⟨{ p with mainSearched := true, main := some f }, [], Nat.zero_le 1, fun config => ?_⟩
      rw [determineMain, if_neg (hn config)]
      simp only [Analysis.start, hmain]
      rfl
    | none =>
      refine ⟨{ p with mainSearched := true }, [.ofCode .noMain .zero], Nat.le_refl 1, fun config => ?_⟩
      -- a limit of one or more has room for the first diagnostic
      have hopen : ({ config } : Queue).limitReached = false := by
        simp only [Queue.limitReached, Queue.size, List.length_nil, Nat.le_zero]
        by_cases h : config.errorLimit = 0 <;> simp [h]
      have hpush : (Queue.ofConfig config).push (.ofCode .noMain .zero) = _ :=
        Queue.push_kept (by simp [Queue.refuses, Queue.ofConfig, Queue.holds, hopen])
      rw [determineMain, if_neg (hn config)]
      simp only [Analysis.start, hmain, Analysis.raise, Queue.raise, hpush]
      rfl

/-- A compilation pass by pass, once `main` has been looked for. -/
theorem compile_of_start {config : QueueConfig} {p' : Program} {queue : Queue}
    (hmain : (Analysis.start config p).determineMain source = ⟨p', queue⟩) :
    p.compile config source =
      p.validate.mapError (Abort.mapError .layout) >>= fun _ =>
        p'.bindNames source >>= fun p₁ =>
          abridge (Analysis.resolveTypes ⟨p₁, queue⟩ source) >>= fun a =>
            a.check >>= fun b => .ok ⟨b.program, b.queue.finish source⟩ := by
  simp only [compile, Analysis.resolve, hmain, Analysis.resolveNames]
  rw [show (Analysis.start config p).program.validate = p.validate from rfl]
  cases p.validate with
  | error abort => cases abort <;> rfl
  | ok u =>
    cases p'.bindNames source with
    | error abort => cases abort <;> rfl
    | ok p₁ =>
      simp only [ok_bind, Except.mapError]
      cases Analysis.resolveTypes ⟨p₁, queue⟩ source with
      | error abort => rfl
      | ok a => rfl

/-- **An error limit only truncates.** Whatever program is compiled, with a
limit and without one it fails for the same reason, or it succeeds both
times. Then the limit keeps the first diagnostics, and of the program that
is returned it takes away flags and nothing else. -/
theorem compile_truncates (p : Program) (source : String) (deduplicate : Bool) {L : Nat}
    (hL : 1 ≤ L) :
    (∃ e, p.compile { errorLimit := L, deduplicate } source = .error e ∧
      p.compile { errorLimit := 0, deduplicate } source = .error e) ∨
    ∃ c c', p.compile { errorLimit := L, deduplicate } source = .ok c ∧
      p.compile { errorLimit := 0, deduplicate } source = .ok c' ∧
      c.diagnostics = c'.diagnostics.take L ∧ c.program.FlaggedWithin c'.program := by
  obtain ⟨p', ds, hlen, hmain⟩ := determineMain_start p source
  simp only [compile_of_start (hmain _)]
  cases hvalid : p.validate.mapError (Abort.mapError InternalError.layout) with
  | error e => exact .inl ⟨e, rfl, rfl⟩
  | ok u =>
  cases hbind : p'.bindNames source with
  | error e => exact .inl ⟨e, rfl, rfl⟩
  | ok p₁ =>
  -- both runs go on from one program, in voices that differ in their limits
  let voice (errorLimit : Nat) : Voice :=
    ⟨p₁.flags, { config := { errorLimit, deduplicate }, diagnostics := ds }⟩
  have hstart : ∀ n, (⟨p₁, (voice n).queue⟩ : Analysis) = p₁.sounding (voice n) := fun n =>
    (Analysis.sounding_voice ⟨p₁, (voice n).queue⟩).symm
  have start : Voice.Truncates L (voice L) (voice 0) :=
    ⟨rfl, rfl, (List.take_of_length_le (Nat.le_trans hlen hL)).symm, fun _ => id, fun _ => rfl⟩
  simp only [ok_bind]
  rw [hstart L, hstart 0]
  -- what is heard depends on neither voice, so one keeps a part of what the other keeps
  rcases exists_typesHeard p₁ source with ⟨q, cs, htypes⟩ | ⟨e, htypes⟩
  · simp only [htypes, ok_bind]
    cases check_hears q with
    | hears cs' hcheck =>
      have heard := (start.hearAll hL cs).hearAll hL cs'
      simp only [hcheck, ok_bind]
      refine .inr ⟨_, _, rfl, rfl, ?_, flaggedWithin_voiced heard.flags⟩
      exact (congrArg (List.map _) heard.diagnostics).trans (List.map_take ..)
    | fails hcheck => exact .inl ⟨_, by simp only [hcheck]; rfl, by simp only [hcheck]; rfl⟩
  · exact .inl ⟨e, by simp only [htypes]; rfl, by simp only [htypes]; rfl⟩

/-- Without `main` and with a cycle of two variables, of which only the
first is flagged when there is room for two diagnostics. -/
theorem compile_truncates_cycle :
    Succeeds (Program.build
        [.identifier "b", .variable "a" none (some ⟨0⟩), .identifier "a", .variable "b" none (some ⟨1⟩)])
      fun (p, source) => 1 ≤ 2 ∧
        Succeeds (p.compile { errorLimit := 2, deduplicate := true } source) fun c =>
          Succeeds (p.compile { errorLimit := 0, deduplicate := true } source) fun c' =>
            c.diagnostics = c'.diagnostics.take 2 ∧ c.program.FlaggedWithin c'.program ∧
            c'.diagnostics.map (·.code) = [.noMain, .cyclicInitializer, .cyclicInitializer] ∧
            c.program.exprs.toList.map (·.flagged) = [true, false] ∧
            c'.program.exprs.toList.map (·.flagged) = [true, true] := by
  have facts : Succeeds (Program.build
        [.identifier "b", .variable "a" none (some ⟨0⟩), .identifier "a", .variable "b" none (some ⟨1⟩)])
      fun (p, source) =>
        Succeeds (p.compile { errorLimit := 2, deduplicate := true } source) fun c =>
          Succeeds (p.compile { errorLimit := 0, deduplicate := true } source) fun c' =>
            c'.diagnostics.map (·.code) = [.noMain, .cyclicInitializer, .cyclicInitializer] ∧
            c.program.exprs.toList.map (·.flagged) = [true, false] ∧
            c'.program.exprs.toList.map (·.flagged) = [true, true] := by decide +kernel
  obtain ⟨⟨p, source⟩, built, c, hc, c', hc', hcodes⟩ := facts
  have hL : 1 ≤ 2 := by decide
  refine ⟨(p, source), built, hL, c, hc, c', hc', ?_⟩
  rcases compile_truncates p source true hL with ⟨e, hfails, -⟩ | ⟨b, b', hb, hb', htake, hflags⟩
  · cases hfails.symm.trans hc
  · cases hb.symm.trans hc
    cases hb'.symm.trans hc'
    exact ⟨htake, hflags, hcodes⟩

end Program

end FrontEnd
