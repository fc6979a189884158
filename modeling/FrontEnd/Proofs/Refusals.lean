import FrontEnd.Proofs.ValidAgain
/-!
# FrontEnd — only the layout is refused

A resolution that ends with an error has found the layout bad, and has
done nothing else (`resolve_refused`). Once a resolution has succeeded the
top level has a scope, and no pass takes it away (`runAll_entered`): the
check, which asks for one, does not refuse the program. So the only error
a compilation ends with is that of the layout
(`only_layout_refused`).
-/

namespace FrontEnd

open Analysis Program

/-- The top level has been given a scope. -/
def Program.Entered (p : Program) : Prop := p.block.symbolTable.isSentinel = false

namespace Analysis

variable {source : String} {a b : Analysis} {stages : List Stage} {config : QueueConfig}

/-! ## The scope of the top level -/

theorem TypeEdits.entered (edits : TypeEdits source a b) (entered : a.program.Entered) :
    b.program.Entered := by
  rw [Entered, edits.matured.block]
  exact entered

theorem resolveTypes_entered (entered : a.program.Entered) (source : String) :
    Keeps (fun b => b.program.Entered) (a.resolveTypes source) :=
  (TypeEdits.resolveTypes (.refl : TypeEdits source a a)).ends.mono fun _ edits =>
    edits.entered entered

/-- A resolution that succeeds gives the top level a scope. -/
theorem resolve_entered (a : Analysis) (source : String) :
    Keeps (fun b => b.program.Entered) (a.resolve source) := by
  intro b h
  obtain ⟨valid, p', hnames, htypes⟩ := resolve_eq_ok.1 h
  obtain ⟨main, searched, hprogram, -⟩ := determineMain_eq a source
  have pos := tables_of_checkBlocks (validate_eq_ok.1 valid).2.2.2.1
  rw [show a.program.symbolTables = (a.determineMain source).program.symbolTables by rw [hprogram]] at pos
  have entered : p'.Entered := ((bindNames_leaves pos source).ends p' hnames).2.1
  exact resolveTypes_entered (a := ⟨p', _⟩) entered source b htypes

/-- No pass takes the scope of the top level away. -/
theorem runAll_entered (pos : 0 < a.program.symbolTables.size) (entered : a.program.Entered)
    (stages : List Stage) : Keeps (fun b => b.program.Entered) (a.runAll stages) := by
  refine .mono (P := fun b => 0 < b.program.symbolTables.size ∧ b.program.Entered)
    (runAll_keeps (fun b source h => ?_) (fun b source p' h hp' => ?_) (fun source b c h edits => ?_)
      ⟨pos, entered⟩ stages) fun _ => And.right
  · obtain ⟨main, searched, hprogram, -⟩ := determineMain_eq b source
    rw [hprogram]
    exact h
  · exact ⟨Nat.lt_of_lt_of_le h.1 (bindNames_filledWell source _ p' hp').size_le,
      ((bindNames_leaves h.1 source).ends p' hp').2.1⟩
  · exact ⟨edits.matured.symbolTables ▸ h.1, edits.entered h.2⟩

/-- The check refuses no program whose top level has a scope. -/
theorem check_unrefused (entered : a.program.Entered) (e : InternalError) :
    a.check ≠ .error (.error e) := by
  intro h
  rw [Entered] at entered
  simp only [check, entered, Bool.false_and, Bool.false_eq_true, if_false] at h
  cases hrun : checkOutline (a.program.outline a.program.block) a <;> rw [hrun] at h <;> cases h

/-! ## Refusals -/

/-- **A resolution refuses what the check of the layout does.** It ends
with an error if and only if the layout is refused. The error is that of
the layout, and nothing has been done by then. -/
theorem resolve_refused {halt : Halt} :
    a.resolve source = .error (.error halt) ↔
      ∃ e, a.program.validate = .error (.error e) ∧ halt = ⟨.layout e, a⟩ := by
  cases hvalid : a.program.validate with
  | ok u =>
    refine ⟨fun h => absurd h (resolve_unhalted hvalid source halt), ?_⟩
    rintro ⟨e, he, -⟩
    cases he
  | error abort =>
    rw [resolve, hvalid]
    cases abort with
    | fault fault => exact absurd hvalid (a.program.validate_answers fault)
    | error e =>
      refine ⟨fun h => ⟨e, rfl, by cases h; rfl⟩, ?_⟩
      rintro ⟨e', he', rfl⟩
      cases he'
      rfl

/-- A resolved program can be checked, right away or after other passes. -/
theorem check_of_resolved {c : Analysis} (resolved : a.resolve source = .ok b)
    (ran : b.runAll stages = .ok c) (e : InternalError) : c.check ≠ .error (.error e) := by
  have valid := (resolve_eq_ok.1 resolved).1
  have pos := tables_of_checkBlocks (validate_eq_ok.1 valid).2.2.2.1
  have pos' := Nat.lt_of_lt_of_le pos (resolve_filledWell a source b resolved).size_le
  exact check_unrefused (runAll_entered pos' (resolve_entered a source b resolved) stages c ran) e

/-- A compilation ends with no error but that of the layout. -/
theorem compile_refused {p : Program} {e : InternalError} :
    p.compile config source = .error (.error e) ↔
      ∃ l, p.validate = .error (.error l) ∧ e = .layout l := by
  constructor
  · intro h
    simp only [compile] at h
    cases hresolve : (start config p).resolve source with
    | ok a =>
      simp only [hresolve] at h
      cases hcheck : a.check with
      | ok b => rw [hcheck] at h; cases h
      | error abort =>
        rw [hcheck] at h
        cases h
        have ran : a.runAll [] = .ok a := rfl
        exact absurd hcheck (check_of_resolved hresolve ran e)
    | error abort =>
      rw [hresolve] at h
      cases abort with
      | fault fault => cases h
      | error halt =>
        obtain ⟨l, hl, rfl⟩ := resolve_refused.1 hresolve
        cases h
        exact ⟨l, hl, rfl⟩
  · rintro ⟨l, hl, rfl⟩
    have hresolve : (start config p).resolve source = _ := resolve_refused.2 ⟨l, hl, rfl⟩
    rw [compile, hresolve]
    rfl

/-- **Only the check of the layout can fail a compilation.** Of whatever
program, a resolution ends with an error exactly when the check of the
layout does, and with that one, before anything has been done. It never
ends with the errors that a statement has no body or that a block has no
scope. A check after it, right away or after other passes, ends with no
error, and so a compilation ends with no error but that of the layout. -/
theorem only_layout_refused (a : Analysis) (source : String) :
    (∀ halt, a.resolve source = .error (.error halt) ↔
      ∃ e, a.program.validate = .error (.error e) ∧ halt = ⟨.layout e, a⟩) ∧
    (∀ pass detail reached, a.resolve source ≠ .error (.error ⟨.invariant pass detail, reached⟩)) ∧
    (∀ b stages c, a.resolve source = .ok b → b.runAll stages = .ok c →
      ∀ e, c.check ≠ .error (.error e)) ∧
    ∀ config e, a.program.compile config source = .error (.error e) ↔
      ∃ l, a.program.validate = .error (.error l) ∧ e = .layout l := by
  refine ⟨fun halt => resolve_refused, fun pass detail reached h => ?_,
    fun b stages c => check_of_resolved, fun config e => compile_refused⟩
  obtain ⟨e, -, hhalt⟩ := resolve_refused.1 h
  cases hhalt

/-- A program, and the same one cut off inside the body of its function. -/
theorem only_layout_refused_cut :
    Succeeds (Program.build [.openFunction "f" [("a", none)] none, .identifier "a", .output ⟨0⟩, .close])
      fun (p, source) =>
        let cut := start {} { p with block := { p.block with statements := ⟨0, 1⟩ } }
        let outside := LayoutError.outOfBounds ⟨1, 1⟩ 1
        cut.program.validate = .error (.error outside) ∧
        cut.resolve source = .error (.error ⟨.layout outside, cut⟩) ∧
        Succeeds ((start {} p).resolve source) fun b =>
          Succeeds (b.runAll [.types source, .check]) fun c => ∀ e, c.check ≠ .error (.error e) := by
  have facts : Succeeds
      (Program.build [.openFunction "f" [("a", none)] none, .identifier "a", .output ⟨0⟩, .close])
      fun (p, source) =>
        Program.validate { p with block := { p.block with statements := ⟨0, 1⟩ } } =
          .error (.error (.outOfBounds ⟨1, 1⟩ 1)) ∧
        Succeeds ((start {} p).resolve source) fun b =>
          Succeeds (b.runAll [.types source, .check]) fun c => c.program.symbolTables.size = 3 := by
    decide +kernel
  obtain ⟨⟨p, source⟩, built, refused, b, resolved, c, ran, -⟩ := facts
  refine ⟨(p, source), built, refused, ?_, b, resolved, c, ran, ?_⟩
  · exact ((only_layout_refused (start {} _) source).1 _).2 ⟨_, refused, rfl⟩
  · exact (only_layout_refused (start {} p) source).2.2.1 b _ c resolved ran

end Analysis

end FrontEnd
