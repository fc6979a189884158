import FrontEnd.Proofs.GivenTypes
import FrontEnd.Proofs.KeptReports
import FrontEnd.Proofs.Objections
/-!
# FrontEnd — compiling without a diagnostic

When a program compiles and nothing is reported, no expression has been
flagged on the way, there is nothing to complain about, and what comes
out is the resolved program (`compile_clean`). All in it whose type is
given then has a valid one (`compile_given`).
-/

namespace FrontEnd

open Analysis

variable {source : String} {p : Program} {a b : Analysis} {cs : List Complaint} {s : StmtId}
variable {queue : Queue} {config : QueueConfig} {c : Compilation}

/-! ## Nothing is reported -/

/-- Nothing is flagged where nothing is kept. -/
theorem Analysis.LeadsTo.clean (h : LeadsTo a b)
    (unflagged : ∀ e x, a.program.exprs.get? e = some x → x.flagged = false)
    (nil : b.queue.diagnostics = []) : b.Clean where
  diagnostics := nil
  unflagged e x hx := by
    obtain ⟨entries, ledger⟩ := h
    have balances := ledger.balances
    obtain rfl : entries = [] := by
      have hall := balances.diagnostics
      rw [nil, eq_comm, List.append_eq_nil_iff] at hall
      exact List.map_eq_nil_iff.1 hall.2
    have hflags := balances.flags e
    simp only [causes, List.filterMap_nil, List.not_mem_nil, or_false] at hflags
    by_contra hx'
    rw [Bool.not_eq_false] at hx'
    -- the expression has been flagged from the start
    have ha := hflags.1 (by simp [Program.flags, hx, hx'])
    obtain ⟨y, hy⟩ := Table.exists_get?_of_lt (Program.lt_size_of_flags ha)
    simp [Program.flags, hy, unflagged e y hy] at ha

/-- Where nothing is reported there is nothing to report. -/
theorem reportAll_clean (clean : b.Clean) (h : a.reportAll cs = .ok b) : cs = [] ∧ b = a := by
  obtain rfl : cs = [] := List.eq_nil_iff_forall_not_mem.2 fun c hc =>
    clean.not_quiet (quiet_of_reportAll h c hc).2
  exact ⟨rfl, (foldlM_nil_eq_ok.1 h).symm⟩

/-- A resolution of a fresh program goes over to types. -/
theorem resolve_typed (fresh : p.Fresh) (h : Analysis.resolve ⟨p, queue⟩ source = .ok a) :
    ∃ a₁ : Analysis, a₁.program.Regular ∧ a₁.program.KindsValid ∧ a₁.program.frame = p.frame ∧
      a₁.program.block.symbolTable.isSentinel = false ∧ a₁.resolveTypes source = .ok a := by
  obtain ⟨-, p₁, hbind, htypes⟩ := resolve_eq_ok.1 h
  obtain ⟨regular, hexprs, -, -, htables⟩ := fresh.determineMain queue source
  have bound := Program.namesBound_of_bindNames regular htables hbind
  refine ⟨_, regular.congr bound.binding.frame bound.binding.held, ?_,
    bound.binding.frame.trans (determineMain_frame ⟨p, queue⟩ source), bound.block, htypes⟩
  refine (Program.bindNames_edits source _ p₁ hbind).kindsValid fun e x hx => ?_
  rw [hexprs] at hx
  exact (fresh.kindsValid e x hx).congr (determineMain_frame ⟨p, queue⟩ source)

/-- **What a compilation comes to that reports nothing.** -/
theorem compile_clean (fresh : p.Fresh) (h : p.compile config source = .ok c)
    (nil : c.diagnostics = []) :
    ∃ a, Analysis.resolve ⟨p, Queue.ofConfig config⟩ source = .ok a ∧ a.Clean ∧
      a.program.complaints = .ok [] ∧ c.program = a.program := by
  unfold Program.compile at h
  split at h
  · next a hresolve =>
    obtain ⟨b, hcheck, h⟩ := bind_eq_ok.1 h
    cases pure_eq_ok.1 h
    obtain ⟨a₁, regular, -, -, hblock, htypes⟩ := resolve_typed fresh hresolve
    have edits : TypeEdits source a₁ a := (TypeEdits.resolveTypes .refl).ends a htypes
    have held := edits.filledWell.toFilledIn.held regular.operands
    obtain ⟨cs, hcs, hall⟩ := (check_eq_ok held (.refl a) (edits.matured.block ▸ hblock)).1 hcheck
    have leads : LeadsTo (start config p) b :=
      ((LeadsTo.refl _).resolve.ends a hresolve).trans
        (TypeEdits.leadsTo (TypeEdits.check (.refl : TypeEdits source a a) b hcheck))
    have clean : b.Clean := leads.clean (fun e x hx => (fresh.unresolved e x hx).2) ?_
    · obtain ⟨rfl, rfl⟩ := reportAll_clean clean hall
      exact ⟨b, hresolve, clean, hcs, rfl⟩
    · exact List.map_eq_nil_iff.1 nil
  · cases h

/-! ## Loops -/

namespace Program

variable {o : Outline} {l : List StmtId}

/-- Of a program that nothing is said about, nothing is said about any
statement. -/
theorem stmtComplaints_nil (hl : o.flatten = .ok l) (h : p.outlineComplaints o = .ok []) :
    ∀ s ∈ l, p.stmtComplaints s = .ok [] := by
  induction o generalizing l with
  | stuck fault => cases h
  | done =>
    cases pure_eq_ok.1 hl
    simp
  | leaf s rest ih =>
    obtain ⟨xs, ys, hxs, hys, hnil⟩ := said_append_eq_ok.1 h
    obtain ⟨rfl, rfl⟩ := List.append_eq_nil_iff.1 hnil.symm
    obtain ⟨l', hl', hl⟩ := bind_eq_ok.1 hl
    cases pure_eq_ok.1 hl
    exact List.forall_mem_cons.2 ⟨hxs, ih hl' hys⟩
  | nested s body rest ihBody ih =>
    obtain ⟨xs, more, hxs, hmore, hnil⟩ := said_append_eq_ok.1 h
    obtain ⟨rfl, rfl⟩ := List.append_eq_nil_iff.1 hnil.symm
    obtain ⟨ys, zs, hys, hzs, hnil⟩ := said_append_eq_ok.1 hmore
    obtain ⟨rfl, rfl⟩ := List.append_eq_nil_iff.1 hnil.symm
    obtain ⟨l₁, hl₁, hl⟩ := bind_eq_ok.1 hl
    obtain ⟨l₂, hl₂, hl⟩ := bind_eq_ok.1 hl
    cases pure_eq_ok.1 hl
    exact List.forall_mem_cons.2 ⟨hxs, List.forall_mem_append.2 ⟨ihBody hl₁ hys, ih hl₂ hzs⟩⟩

/-- A name that means nothing is complained about. -/
theorem not_identifier_of_exprComplaints {e : ExprId} {x : Expr} (hx : p.exprs.get? e = some x)
    (h : p.exprComplaints e = .ok []) : x.kind ≠ .identifier := by
  intro hk
  unfold exprComplaints at h
  generalize p.exprDepth = fuel at h
  cases fuel with
  | zero => cases h
  | succ fuel =>
    simp only [complaintsWithin, Table.get_eq_ok.2 hx, ok_bind, hk, complaint] at h
    cases pure_eq_ok.1 h

/-- **A loop that is not complained about runs through something.** -/
theorem runs_of_complaints (h : p.stmtComplaints s = .ok []) : p.Runs s := by
  intro v e body span x hs hx
  simp only [stmtComplaints, Table.get_eq_ok.2 hs, ok_bind] at h
  obtain ⟨xs, ys, hxs, hys, hnil⟩ := said_append_eq_ok.1 h
  obtain ⟨rfl, rfl⟩ := List.append_eq_nil_iff.1 hnil.symm
  have hname := not_identifier_of_exprComplaints hx hxs
  have hiterable : x.kind.isIterable = true := by
    by_contra hnot
    have hmem := (mem_iterableComplaints (c := ⟨e, .ofCode .notIterable x.span⟩) hys).2
      ⟨x, hx, by simpa using hnot, rfl⟩
    cases hmem
  unfold ExprKind.isIterable at hiterable
  split at hiterable
  · next hk => simp only [hk]; rfl
  · next hk => simp only [hk]; rfl
  · next hk => exact absurd hk hname
  · cases hiterable

end Program

/-! ## Given types -/

/-- **What is declared with a type has a valid one**, when a program
compiles and nothing is reported. -/
theorem compile_given (fresh : p.Fresh)
    (parameters : ∀ i r, p.parameters.get? i = some r → r.typeExpr ≠ none)
    (h : p.compile config source = .ok c) (nil : c.diagnostics = [])
    (infers : ∀ v init, ¬ c.program.Infers s v init) :
    ∀ t ∈ c.program.owned s, c.program.HasType t := by
  obtain ⟨a, hresolve, clean, hcs, hprogram⟩ := compile_clean fresh h nil
  rw [hprogram] at infers ⊢
  obtain ⟨a₁, regular, names, hframe, -, htypes⟩ := resolve_typed fresh hresolve
  have typable : a₁.program.Typable := by
    refine ⟨regular, names, fun i r hr => ?_⟩
    obtain ⟨r₀, hr₀, heq⟩ := Program.exists_parameter_congr hframe.symm hr
    have htype : r₀.typeExpr = r.typeExpr := (congrArg Parameter.typeExpr heq :)
    exact htype ▸ parameters i r₀ hr₀
  obtain ⟨edits, given⟩ := resolveTypes_given typable a htypes
  have regular := (typable.edits edits).regular
  intro t ht
  have hs : s.raw < a.program.stmts.size := lt_of_owned ht
  refine given s hs infers t ht clean (Program.runs_of_complaints ?_)
  obtain ⟨l, hl⟩ := Program.flatten_of_outlineComplaints hcs
  refine Program.stmtComplaints_nil hl hcs s ?_
  have hreach := regular.mem_reachable.2 hs
  rwa [Program.reachable, hl, elements_ok] at hreach

end FrontEnd
