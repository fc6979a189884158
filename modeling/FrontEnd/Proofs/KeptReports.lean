import FrontEnd.Builder.Step
import FrontEnd.Proofs.LeadsTo
/-!
# FrontEnd — one kept report for each flag

A program may be resolved and checked any number of times, in any order,
and a call may end with an internal error (`call`, `callAll`). Whatever is
kept of the reports meanwhile is entered in one ledger: there are as many
entries as expressions have come to be flagged and as the lack of `main`
has been reported (`callAll_accounts`).
-/

namespace FrontEnd

namespace Analysis

variable {a₀ a b : Analysis} {source : String}

namespace LeadsTo

theorem resolveNames (h : LeadsTo a₀ a) :
    Leaves (LeadsTo a₀) (LeadsTo a₀ ·.reached) (a.resolveNames source) := by
  unfold Analysis.resolveNames
  split
  · next p hp => exact .pure (h.trans ((Program.bindNames_edits source _ p hp).leadsTo a.queue))
  · next abort _ =>
    cases abort with
    | fault fault => exact .fault fault
    | error e => exact .halt h

theorem determineMain (h : LeadsTo a₀ a) : LeadsTo a₀ (a.determineMain source) := by
  unfold Analysis.determineMain
  split
  · exact h
  · have searched : LeadsTo a₀ { a with program := { a.program with mainSearched := true } } :=
      h.trans (.change rfl)
    dsimp only
    split
    · exact searched.trans (.change rfl)
    · exact searched.trans ⟨_, .noMain _⟩

theorem resolve (h : LeadsTo a₀ a) : Leaves (LeadsTo a₀) (LeadsTo a₀ ·.reached) (a.resolve source) := by
  unfold Analysis.resolve
  split
  · refine h.determineMain.resolveNames.bind fun b h => ?_
    exact (TypeEdits.resolveTypes .refl).mono (fun _ edits => h.trans edits.leadsTo)
      fun _ edits => h.trans edits.leadsTo
  · next abort _ =>
    cases abort with
    | fault fault => exact .fault fault
    | error e => exact .halt h

end LeadsTo

/-! ## Any number of calls -/

/-- What can be asked for of an analysis. -/
inductive Pass
  | resolve
  | check

/-- The analysis as a call leaves it, also if it ends with an internal
error. -/
def call (source : String) (a : Analysis) : Pass → Except Fault Analysis
  | .resolve =>
    match a.resolve source with
    | .ok b => .ok b
    | .error (.error halt) => .ok halt.reached
    | .error (.fault fault) => .error fault
  | .check =>
    match a.check with
    | .ok b => .ok b
    -- a check that refuses has not begun
    | .error (.error _) => .ok a
    | .error (.fault fault) => .error fault

/-- The analysis as several calls leave it, one after another. -/
def callAll (a : Analysis) (source : String) (passes : List Pass) : Except Fault Analysis :=
  passes.foldlM (call source) a

theorem LeadsTo.call (h : LeadsTo a₀ a) (pass : Pass) :
    Keeps (LeadsTo a₀) (call source a pass) := by
  cases pass with
  | resolve =>
    simp only [Analysis.call]
    split
    · next b hb => exact .ok (h.resolve.ends b hb)
    · next halt hx => exact .ok (h.resolve.halts halt hx)
    · exact .error
  | check =>
    simp only [Analysis.call]
    split
    · next b hb =>
      have edits : TypeEdits source a b := TypeEdits.check .refl b hb
      exact .ok (h.trans edits.leadsTo)
    · exact .ok h
    · exact .error

/-- **There is one kept report for each flag.** However often a program is
resolved and checked, the diagnostics that are kept are as many as the
expressions that come to be flagged and the reports that there is no
`main`. No expression is the cause of two, none that is flagged is ever
taken back, and a report that is refused flags nothing. -/
theorem callAll_accounts (passes : List Pass) (run : a.callAll source passes = .ok b) :
    (∃ kept : List Entry, Ledger a b kept ∧
      b.queue.diagnostics = a.queue.diagnostics ++ kept.map (·.diagnostic) ∧
      kept.length = (a.newlyFlagged b).length + kept.countP (·.diagnostic.code = .noMain) ∧
      (∀ k ∈ kept, k.cause = none ↔ k.diagnostic.code = .noMain) ∧
      (causes kept).Nodup ∧
      ∀ e, e ∈ causes kept ↔ a.program.flags e = false ∧ b.program.flags e = true) ∧
    (∀ e, a.program.flags e = true → b.program.flags e = true) ∧
    ∀ (c c' : Analysis) (e : ExprId) (d : Diagnostic), c.queue.refuses d = true →
      c.report e d = .ok c' →
        c'.program = c.program ∧ c'.queue.diagnostics = c.queue.diagnostics := by
  obtain ⟨kept, ledger⟩ : LeadsTo a b :=
    Keeps.foldlM (fun pass _ c h => h.call pass) (LeadsTo.refl a) b run
  have balances := ledger.balances
  refine ⟨⟨kept, ledger, balances.diagnostics, balances.length_eq, balances.codes, balances.once,
    fun e => ?_⟩, fun e he => (balances.flags e).2 (.inl he),
    fun c c' e d hr made => report_refused hr made⟩
  rw [balances.perm.mem_iff, mem_newlyFlagged balances.size]

/-- Of a program without `main`, with a cycle of two variables and a name
that means nothing, three reports are kept where there is room for no
more: two of them flag the variables, and the name is not flagged. -/
theorem callAll_accounts_cycle :
    Succeeds (Program.build
        [.identifier "b", .variable "a" none (some ⟨0⟩), .identifier "a", .variable "b" none (some ⟨1⟩),
          .identifier "c", .output ⟨2⟩])
      fun (p, source) =>
        Succeeds ((start { errorLimit := 3, deduplicate := true } p).callAll source
            [.resolve, .check, .resolve, .check]) fun b =>
          b.queue.dropped = 2 ∧ b.program.exprs.toList.map (·.flagged) = [true, true, false] ∧
          ∃ kept : List Entry, b.queue.diagnostics = kept.map (·.diagnostic) ∧
            kept.map (·.diagnostic.code) = [.noMain, .cyclicInitializer, .cyclicInitializer] ∧
            kept.length = 2 + kept.countP (·.diagnostic.code = .noMain) ∧ (causes kept).Nodup := by
  have facts : Succeeds (Program.build
        [.identifier "b", .variable "a" none (some ⟨0⟩), .identifier "a", .variable "b" none (some ⟨1⟩),
          .identifier "c", .output ⟨2⟩])
      fun (p, source) =>
        Succeeds ((start { errorLimit := 3, deduplicate := true } p).callAll source
            [.resolve, .check, .resolve, .check]) fun b =>
          (b.queue.dropped = 2 ∧ b.program.exprs.toList.map (·.flagged) = [true, true, false]) ∧
          b.queue.diagnostics.map (·.code) = [.noMain, .cyclicInitializer, .cyclicInitializer] ∧
          ((start { errorLimit := 3, deduplicate := true } p).newlyFlagged b).length = 2 := by
    decide +kernel
  obtain ⟨⟨p, source⟩, built, b, run, ⟨hdropped, hflagged⟩, hcodes, hnew⟩ := facts
  obtain ⟨⟨kept, -, hkept, hlength, -, once, -⟩, -⟩ := callAll_accounts _ run
  rw [start, Queue.ofConfig, List.nil_append] at hkept
  rw [hnew] at hlength
  rw [hkept, List.map_map] at hcodes
  exact ⟨(p, source), built, b, run, hdropped, hflagged, kept, hkept, hcodes, hlength, once⟩

end Analysis

end FrontEnd
