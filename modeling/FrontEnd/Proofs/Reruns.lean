import FrontEnd.Proofs.Complaints
import FrontEnd.Proofs.LayoutAgain
import FrontEnd.Proofs.NamesAgain
import FrontEnd.Proofs.TypePassAgain
/-!
# FrontEnd — running the passes again

A program that has been resolved and checked can be resolved and checked
again as often as one likes. Each time every block gets a new scope, and
that is all: no diagnostic is added, and nothing that has been found out
is found out differently (`rerun_unchanged`).
-/

namespace FrontEnd

open Analysis

/-- One more run of the passes. -/
inductive Rerun
  | resolve
  | resolveAndCheck

namespace Analysis

/-- Run the passes once more. -/
def rerun (source : String) (a : Analysis) : Rerun → Except (Abort Halt) Analysis
  | .resolve => a.resolve source
  | .resolveAndCheck => do
    let b ← a.resolve source
    b.check.mapError (·.mapError (⟨·, b⟩))

/-- Run the passes some more times. -/
def rerunAll (source : String) (a : Analysis) (again : List Rerun) : Except (Abort Halt) Analysis :=
  again.foldlM (rerun source) a

/-- Nothing has changed but the scopes of blocks, which are new, and how
many diagnostics were dropped. -/
structure Rescoped (a b : Analysis) : Prop where
  exprs : b.program.exprs = a.program.exprs
  rest : b.program.unscoped = a.program.unscoped
  tables : ∀ t : SymbolTableId, t.raw < a.program.symbolTables.size →
    b.program.symbolTables.get? t = a.program.symbolTables.get? t
  more : a.program.symbolTables.size ≤ b.program.symbolTables.size
  config : b.queue.config = a.queue.config
  diagnostics : b.queue.diagnostics = a.queue.diagnostics

/-- There is nothing left to resolve in the program. -/
structure Resolved (source : String) (p₁ : Program) (L : List StmtId) (a : Analysis) : Prop where
  regular : p₁.Regular
  once : p₁.UsedOnce
  done : a.TypesDone source p₁ L
  settled : a.program.NamesSettled source
  slots : a.program.SlotsHeld
  valid : a.program.validate = .ok ()

/-- All blocks of the program have scopes, and `main` has been looked
for. -/
structure Placed (a : Analysis) : Prop where
  scopes : a.program.ScopesHeld
  isScoped : ∀ s, a.program.Scoped s
  block : a.program.block.symbolTable.isSentinel = false
  tables : 0 < a.program.symbolTables.size
  searched : a.program.mainSearched = true

end Analysis

variable {source : String} {p p₁ : Program} {a b c : Analysis} {L : List StmtId}
variable {cs : List Complaint} {queue : Queue}

/-! ## Small changes -/

namespace Analysis.Rescoped

theorem refl (a : Analysis) : a.Rescoped a :=
  ⟨rfl, rfl, fun _ _ => rfl, Nat.le_refl _, rfl, rfl⟩

theorem trans (h : a.Rescoped b) (h' : b.Rescoped c) : a.Rescoped c where
  exprs := h'.exprs.trans h.exprs
  rest := h'.rest.trans h.rest
  tables t ht := (h'.tables t (Nat.lt_of_lt_of_le ht h.more)).trans (h.tables t ht)
  more := Nat.le_trans h.more h'.more
  config := h'.config.trans h.config
  diagnostics := h'.diagnostics.trans h.diagnostics

theorem of_unmoved (h : a.Unmoved b) : a.Rescoped b := by
  obtain ⟨n, rfl⟩ := h
  exact ⟨rfl, rfl, fun _ _ => rfl, Nat.le_refl _, rfl, rfl⟩

theorem flags (h : a.Rescoped b) : Flags a b where
  exprs e x hx := ⟨x, by rw [h.exprs, hx], .refl x⟩
  size := by rw [h.exprs]
  rest := h.rest
  queue := ⟨h.config, h.diagnostics ▸ List.prefix_refl _⟩

end Analysis.Rescoped

theorem Analysis.Placed.unmoved (placed : a.Placed) (h : a.Unmoved b) : b.Placed := by
  obtain ⟨n, rfl⟩ := h
  exact ⟨placed.scopes, placed.isScoped, placed.block, placed.tables, placed.searched⟩

/-- What only reports takes no scope away. -/
theorem Analysis.Placed.reportAll (placed : a.Placed) (h : a.reportAll cs = .ok b) : b.Placed := by
  refine foldlM_invariant Analysis.Placed (fun c _ a₁ a₂ placed h => ?_) placed h
  obtain ⟨x, -, -, -, hprogram | ⟨-, hprogram, -⟩⟩ := report_eq_ok h
  all_goals
    refine ⟨?_, ?_, ?_, ?_, ?_⟩ <;> rw [hprogram]
  · exact placed.scopes
  · exact placed.isScoped
  · exact placed.block
  · exact placed.tables
  · exact placed.searched
  · exact ⟨placed.scopes.links, placed.scopes.bodies, placed.scopes.block⟩
  · exact placed.isScoped
  · exact placed.block
  · exact placed.tables
  · exact placed.searched

namespace Flags

theorem namesSettled (h : Flags a b) (settled : a.program.NamesSettled source) :
    b.program.NamesSettled source :=
  settled.matures h.frame h.under.1 fun e x hx => by
    obtain ⟨x', hx', hs⟩ := h.exprs e x hx
    exact ⟨x', hx', hs.span, hs.flagged, .inl hs.kind⟩

theorem kindsHeld (h : Flags a b) (held : a.program.KindsHeld) : b.program.KindsHeld := by
  intro e x' hx'
  have hlt := Table.lt_size_of_get? hx'
  rw [h.size] at hlt
  obtain ⟨x, hx⟩ := Table.exists_get?_of_lt hlt
  obtain ⟨y, hy, hs⟩ := h.exprs e x hx
  rw [hx'] at hy
  cases hy
  rw [Program.checkExprKind_congr h.frame, hs.kind]
  exact held e x hx

end Flags

/-! ## One more run -/

/-- To bind the names of what has been resolved gives new scopes. -/
theorem bindNames_resolved (resolved : a.Resolved source p₁ L) (h : Flags a b) (placed : b.Placed) :
    ∃ p', b.program.bindNames source = .ok p' ∧ b.Rescoped ⟨p', b.queue⟩ ∧
      Analysis.Placed ⟨p', b.queue⟩ := by
  have doneB := h.typesDone resolved.done
  have regularB := resolved.regular.congr doneB.pruned.frame doneB.pruned.held
  obtain ⟨p', hp', bound, hexprs⟩ := Program.bindNames_again regularB
    (resolved.slots.congr h.frame) placed.tables (h.namesSettled resolved.settled)
  refine ⟨p', hp', ⟨hexprs, bound.binding.rest, fun t ht => bound.grow.same t ht List.not_mem_nil,
    bound.grow.size_le, rfl, rfl⟩, bound.links placed.scopes, bound.bodies, bound.block, bound.tables, ?_⟩
  have hsearched := congrArg Program.mainSearched bound.binding.rest
  exact hsearched.trans placed.searched

/-- **To resolve again gives new scopes, and changes nothing else.** -/
theorem resolve_again (resolved : a.Resolved source p₁ L) (h : Flags a b) (placed : b.Placed) :
    ∃ c, b.resolve source = .ok c ∧ b.Rescoped c ∧ c.Placed := by
  have hvalid : b.program.validate = .ok () :=
    Program.validate_congr resolved.valid h.frame
      (h.kindsHeld (Program.validate_eq_ok.1 resolved.valid).1) placed.scopes
  have hmain : b.determineMain source = b := by
    rw [determineMain, placed.searched, if_pos rfl]
  obtain ⟨p', hp', hrescoped, hplaced⟩ := bindNames_resolved resolved h placed
  obtain ⟨c, hc, hmoved⟩ := resolveTypes_again resolved.regular resolved.once
    (hrescoped.flags.typesDone (h.typesDone resolved.done)) hplaced.isScoped hplaced.block
  exact ⟨c, resolve_eq_ok.2 ⟨hvalid, p', by rw [hmain, hp'], by rw [hmain, hc]⟩,
    hrescoped.trans (.of_unmoved hmoved), hplaced.unmoved hmoved⟩

/-- **To check again changes nothing.** -/
theorem check_again (held : a.program.OperandsHeld) (hcs : a.program.complaints = .ok cs)
    (hab : a.reportAll cs = .ok b) (h : Flags b c) (placed : c.Placed) :
    ∃ d, c.check = .ok d ∧ c.Unmoved d := by
  have hquiet := quiet_of_reportAll hab
  have hheld : ∀ c' ∈ cs, ∃ x, c.program.exprs.get? c'.expr = some x := fun c' hc' => by
    obtain ⟨⟨x, hx⟩, -⟩ := hquiet c' hc'
    obtain ⟨x', hx', -⟩ := h.exprs _ x hx
    exact ⟨x', hx'⟩
  obtain ⟨d, hd, hmoved⟩ := reportAll_again hheld fun c' hc' => h.quiet (hquiet c' hc').2
  exact ⟨d, (check_eq_ok held ((Flags.reportAll hab).trans h) placed.block).2 ⟨cs, hcs, hd⟩, hmoved⟩

/-! ## Any number of runs -/

/-- What is true once a program has been resolved and checked stays true
whatever passes are run. -/
theorem rerunAll_ok (resolved : a.Resolved source p₁ L) (hcs : a.program.complaints = .ok cs)
    (hab : a.reportAll cs = .ok b) (placed : b.Placed) (again : List Rerun) :
    ∃ c, b.rerunAll source again = .ok c ∧ b.Rescoped c ∧ c.Placed := by
  refine foldlM_total (fun c => b.Rescoped c ∧ c.Placed) (fun run _ c hc => ?_) ⟨.refl b, placed⟩
  obtain ⟨hbc, placedC⟩ := hc
  obtain ⟨d, hd, hcd, placedD⟩ := resolve_again resolved ((Flags.reportAll hab).trans hbc.flags) placedC
  cases run with
  | resolve => exact ⟨d, hd, hbc.trans hcd, placedD⟩
  | resolveAndCheck =>
    obtain ⟨f, hf, hmoved⟩ := check_again resolved.done.pruned.held hcs hab (hbc.trans hcd).flags placedD
    refine ⟨f, ?_, (hbc.trans hcd).trans (.of_unmoved hmoved), placedD.unmoved hmoved⟩
    simp only [rerun, hd, ok_bind, hf]
    rfl

/-! ## Programs that have been built -/

theorem Changes.placed (h : Changes (fun _ => True) (fun _ => True) a b) (placed : a.Placed) :
    b.Placed := by
  have htables : b.program.symbolTables = a.program.symbolTables :=
    (congrArg Program.symbolTables h.rest :)
  have hblock : b.program.block = a.program.block :=
    (congrArg Program.block h.rest :)
  have hsearched : b.program.mainSearched = a.program.mainSearched :=
    (congrArg Program.mainSearched h.rest :)
  refine ⟨placed.scopes.congr h.bodyOf hblock (by rw [htables]) ?_, fun s body hb => ?_, ?_, ?_, ?_⟩
  · rw [htables]
    exact placed.scopes.links
  · exact placed.isScoped s body (h.bodyOf s ▸ hb)
  · rw [hblock]
    exact placed.block
  · rw [htables]
    exact placed.tables
  · rw [hsearched]
    exact placed.searched

theorem determineMain_searched (a : Analysis) (source : String) :
    (a.determineMain source).program.mainSearched = true := by
  simp only [determineMain]
  split
  · assumption
  · split <;> rfl

namespace Resolution

variable (went : Resolution source p queue p₁ L a)

include went

theorem placed : a.Placed := by
  refine went.changes.placed ⟨went.named.scopes, went.named.isScoped, went.named.block,
    went.named.tables, ?_⟩
  have hsearched := congrArg Program.mainSearched went.bound.binding.rest
  exact hsearched.trans (determineMain_searched _ source)

/-- What a resolution leaves is resolved. -/
theorem resolved (fresh : p.Fresh) : a.Resolved source p₁ L := by
  have hframe := went.bound.binding.frame
  have hmain := determineMain_frame ⟨p, queue⟩ source
  obtain ⟨main, searched, hprogram, -⟩ := determineMain_eq ⟨p, queue⟩ source
  refine ⟨went.named.regular, went.named.usedOnce, went.done, ?_,
    went.slots.congr went.done.pruned.frame, ?_⟩
  · exact went.named.settled.matures went.done.pruned.frame went.done.pruned.under
      went.changes.matures
  · have hkinds := (Program.validate_eq_ok.1 went.valid).1
    have hkinds' := hkinds.congr hmain (by rw [hprogram])
    have regular := fresh.regular.congr hmain (by rw [hprogram]; exact fresh.regular.operands)
    exact Program.validate_congr went.valid (went.done.pruned.frame.trans (hframe.trans hmain))
      (went.changes.kindsHeld (went.bound.kindsHeld regular hkinds')) went.placed.scopes

end Resolution

namespace Program

/-- **Resolving and checking again changes nothing.** Whatever has been
built with one place for each expression, once it has been resolved and
checked, further runs succeed, report nothing and leave all that has been
found out as it is; each block only gets a new scope. -/
theorem rerun_unchanged {steps : List Step} {written : String}
    (built : Program.build steps = .ok (p, written)) (once : p.UsedOnce) (config : QueueConfig)
    (source : String) (hresolve : (Analysis.start config p).resolve source = .ok a)
    (hcheck : a.check = .ok b) (again : List Rerun) :
    ∃ c, b.rerunAll source again = .ok c ∧ b.Rescoped c := by
  have fresh := build_fresh built
  obtain ⟨p₁, L, went⟩ := resolve_stages fresh once hresolve
  obtain ⟨cs, hcs, hab⟩ := (check_eq_ok went.done.pruned.held (.refl a) went.placed.block).1 hcheck
  obtain ⟨c, hc, hbc, -⟩ := rerunAll_ok (went.resolved fresh) hcs hab (went.placed.reportAll hab) again
  exact ⟨c, hc, hbc⟩

/-- A cycle of two variables, and no `main`, are reported once and for all. -/
theorem rerun_unchanged_cycle :
    Succeeds (Program.build
        [.identifier "b", .variable "a" none (some ⟨0⟩), .identifier "a", .variable "b" none (some ⟨1⟩)])
      fun (p, source) => p.UsedOnce ∧
        Succeeds ((Analysis.start .unlimited p).resolve source) fun a => Succeeds a.check fun b =>
          b.queue.size = 3 ∧ Succeeds (b.rerunAll source [.resolve, .resolveAndCheck]) fun c =>
            c.queue.diagnostics = b.queue.diagnostics ∧ c.program.exprs = b.program.exprs := by
  have facts : Succeeds (Program.build
        [.identifier "b", .variable "a" none (some ⟨0⟩), .identifier "a", .variable "b" none (some ⟨1⟩)])
      fun (p, source) => p.UsedOnce ∧
        Succeeds ((Analysis.start .unlimited p).resolve source) fun a => Succeeds a.check fun b =>
          b.queue.size = 3 := by decide +kernel
  obtain ⟨⟨p, source⟩, built, once, a, ha, b, hb, hsize⟩ := facts
  obtain ⟨c, hc, same⟩ :=
    rerun_unchanged built once .unlimited source ha hb [.resolve, .resolveAndCheck]
  exact ⟨(p, source), built, once, a, ha, b, hb, hsize, c, hc, same.diagnostics, same.exprs⟩

end Program

end FrontEnd
