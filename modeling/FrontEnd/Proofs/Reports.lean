import FrontEnd.Proofs.Outcome
import FrontEnd.Analysis.Compile
/-!
# FrontEnd — reporting

Once a diagnostic has been reported on account of an expression, the
expression is flagged or the queue refuses the diagnostic, and either
stays so (`Quiet`). To report it again changes nothing but the count of
what was dropped (`Unmoved`).
-/

namespace FrontEnd

namespace Diagnostic

/-- A diagnostic without its position. -/
def unplaced (d : Diagnostic) : Diagnostic := { d with line := 0, column := 0 }

end Diagnostic

namespace Queue

/-- The queue does not keep the diagnostic. -/
def refuses (q : Queue) (d : Diagnostic) : Bool :=
  q.limitReached || (q.config.deduplicate && q.holds d)

/-- The queue holds a diagnostic with the code at the span. -/
def Has (q : Queue) (code : Code) (span : Span) : Prop :=
  ∃ d ∈ q.diagnostics, d.code = code ∧ d.span = span

/-- Diagnostics are added behind those there are. -/
structure Grows (q q' : Queue) : Prop where
  config : q'.config = q.config
  diagnostics : q.diagnostics <+: q'.diagnostics

variable {q q' q'' : Queue} {d : Diagnostic} {code : Code} {span : Span}

theorem Grows.refl (q : Queue) : q.Grows q := ⟨rfl, List.prefix_refl _⟩

theorem Grows.trans (h : q.Grows q') (h' : q'.Grows q'') : q.Grows q'' :=
  ⟨h'.config.trans h.config, h.diagnostics.trans h'.diagnostics⟩

theorem holds_iff : q.holds d = true ↔ q.Has d.code d.span := by
  simp only [holds, Has, List.any_eq_true, Diagnostic.key, beq_iff_eq, Prod.mk.injEq]

theorem Grows.has (h : q.Grows q') (hd : q.Has code span) : q'.Has code span := by
  obtain ⟨d, hmem, hkey⟩ := hd
  exact ⟨d, h.diagnostics.subset hmem, hkey⟩

theorem Grows.limitReached (h : q.Grows q') (hl : q.limitReached = true) :
    q'.limitReached = true := by
  have hlen := h.diagnostics.length_le
  rw [Queue.limitReached, Bool.and_eq_true, decide_eq_true_iff, decide_eq_true_iff] at hl ⊢
  rw [h.config]
  exact ⟨hl.1, Nat.le_trans hl.2 hlen⟩

/-- **What a queue refuses, it refuses for good.** -/
theorem Grows.refuses (h : q.Grows q') (hd : q.refuses d = true) : q'.refuses d = true := by
  simp only [Queue.refuses, Bool.or_eq_true, Bool.and_eq_true] at hd ⊢
  rcases hd with hl | ⟨hdedup, hholds⟩
  · exact .inl (h.limitReached hl)
  · exact .inr ⟨h.config ▸ hdedup, holds_iff.2 (h.has (holds_iff.1 hholds))⟩

/-- Without a limit, only what is held is refused. -/
theorem has_of_refuses (hl : q.config.errorLimit = 0) (h : q.refuses d = true) :
    q.Has d.code d.span := by
  simp only [refuses, limitReached, hl, Nat.lt_irrefl, decide_false, Bool.false_and,
    Bool.false_or, Bool.and_eq_true] at h
  exact holds_iff.1 h.2

theorem push_refused (h : q.refuses d = true) : ∃ n, q.push d = (false, { q with dropped := n }) := by
  simp only [refuses, Bool.or_eq_true] at h
  unfold push
  by_cases hl : q.limitReached = true
  · exact ⟨q.dropped + 1, by rw [if_pos hl]⟩
  · exact ⟨q.dropped, by rw [if_neg hl, if_pos (h.resolve_left hl)]⟩

theorem push_kept (h : q.refuses d = false) :
    q.push d = (true, { q with diagnostics := q.diagnostics ++ [d] }) := by
  simp only [refuses, Bool.or_eq_false_iff] at h
  unfold push
  rw [if_neg (by simp [h.1]), if_neg (by simp [h.2])]

theorem grows_dropped (q : Queue) (n : Nat) : q.Grows { q with dropped := n } :=
  ⟨rfl, List.prefix_refl _⟩

theorem grows_append (q : Queue) (d : Diagnostic) :
    q.Grows { q with diagnostics := q.diagnostics ++ [d] } :=
  ⟨rfl, List.prefix_append _ _⟩

/-- Nothing but the diagnostic itself comes into the queue. -/
theorem mem_push {d' : Diagnostic} (h : d' ∈ (q.push d).2.diagnostics) :
    d' ∈ q.diagnostics ∨ d' = d := by
  cases hr : q.refuses d with
  | true =>
    obtain ⟨n, hn⟩ := push_refused hr
    rw [hn] at h
    exact .inl h
  | false =>
    rw [push_kept hr] at h
    exact (List.mem_append.1 h).imp_right List.mem_singleton.1

end Queue

namespace Analysis

/-- Nothing has changed but how many diagnostics were dropped. -/
def Unmoved (a a' : Analysis) : Prop := ∃ n, a' = ⟨a.program, { a.queue with dropped := n }⟩

/-- A report of the diagnostic on account of the expression is not kept. -/
def Quiet (a : Analysis) (e : ExprId) (d : Diagnostic) : Prop :=
  (∃ x, a.program.exprs.get? e = some x ∧ x.flagged = true) ∨ a.queue.refuses d = true

variable {a a' a'' : Analysis} {e : ExprId} {d : Diagnostic} {x : Expr} {code : Code}

theorem Unmoved.refl (a : Analysis) : a.Unmoved a := ⟨a.queue.dropped, rfl⟩

theorem Unmoved.trans (h : a.Unmoved a') (h' : a'.Unmoved a'') : a.Unmoved a'' := by
  obtain ⟨n, rfl⟩ := h
  obtain ⟨m, rfl⟩ := h'
  exact ⟨m, rfl⟩

theorem Unmoved.program (h : a.Unmoved a') : a'.program = a.program := by
  obtain ⟨n, rfl⟩ := h
  rfl

theorem Unmoved.grows (h : a.Unmoved a') : a.queue.Grows a'.queue := by
  obtain ⟨n, rfl⟩ := h
  exact Queue.grows_dropped _ _

/-- **Reporting again what is quiet changes nothing.** -/
theorem report_of_quiet (hx : a.program.exprs.get? e = some x) (h : a.Quiet e d) :
    ∃ a', a.report e d = .ok a' ∧ a.Unmoved a' := by
  simp only [report, Table.get_eq_ok.2 hx, ok_bind]
  by_cases hf : x.flagged = true
  · exact ⟨a, by rw [if_pos hf]; rfl, .refl a⟩
  · have hr : a.queue.refuses d = true := by
      rcases h with ⟨x', hx', hf'⟩ | hr
      · rw [hx] at hx'
        exact absurd (Option.some.inj hx' ▸ hf') hf
      · exact hr
    obtain ⟨n, hn⟩ := Queue.push_refused hr
    refine ⟨⟨a.program, { a.queue with dropped := n }⟩, ?_, n, rfl⟩
    rw [if_neg hf, hn]
    rfl

/-- What a report may do: nothing to the program, or flag the expression
once the diagnostic is held. -/
theorem report_eq_ok (h : a.report e d = .ok a') :
    ∃ x, a.program.exprs.get? e = some x ∧ a.queue.Grows a'.queue ∧ a'.Quiet e d ∧
      (a'.program = a.program ∨
        x.flagged = false ∧ a'.program = a.program.flag e ∧ a'.queue.Has d.code d.span) := by
  obtain ⟨x, hx, h⟩ := bind_eq_ok.1 h
  rw [Table.get_eq_ok] at hx
  refine ⟨x, hx, ?_⟩
  by_cases hf : x.flagged = true
  · rw [if_pos hf] at h
    cases pure_eq_ok.1 h
    exact ⟨.refl _, .inl ⟨x, hx, hf⟩, .inl rfl⟩
  · rw [if_neg hf] at h
    cases hr : a.queue.refuses d with
    | true =>
      obtain ⟨n, hn⟩ := Queue.push_refused hr
      rw [hn] at h
      cases pure_eq_ok.1 h
      refine ⟨Queue.grows_dropped _ _, .inr ?_, .inl rfl⟩
      exact (Queue.grows_dropped a.queue n).refuses hr
    | false =>
      rw [Queue.push_kept hr] at h
      cases pure_eq_ok.1 h
      refine ⟨Queue.grows_append _ _, .inl ⟨{ x with flagged := true }, ?_, rfl⟩, .inr ⟨?_, rfl, ?_⟩⟩
      · simp only [if_true, Program.flag, Table.get?_modify, hx, Option.map_some]
      · simpa using hf
      · exact ⟨d, by simp, rfl, rfl⟩

/-- What is left of an expression that something has been reported on: it
is as it was but for its flag, and a flag that is new is one for that. -/
theorem report_done (hx : a.program.exprs.get? e = some x) (h : a.report e d = .ok a') :
    ∃ x', a'.program.exprs.get? e = some x' ∧ x'.kind = x.kind ∧ x'.span = x.span ∧ a'.Quiet e d ∧
      (x'.flagged = true → x.flagged = true ∨ a'.queue.Has d.code d.span) := by
  obtain ⟨y, -, -, hquiet, hsame | ⟨-, hflag, hhas⟩⟩ := report_eq_ok h
  · exact ⟨x, by rw [hsame, hx], rfl, rfl, hquiet, .inl⟩
  · refine ⟨{ x with flagged := true }, ?_, rfl, rfl, hquiet, fun _ => .inr hhas⟩
    rw [hflag]
    simp only [Program.flag, Table.get?_modify, if_true, hx, Option.map_some]

theorem mem_of_report {d' : Diagnostic} (h : a.report e d = .ok a')
    (hd : d' ∈ a'.queue.diagnostics) : d' ∈ a.queue.diagnostics ∨ d' = d := by
  obtain ⟨x, -, h⟩ := bind_eq_ok.1 h
  by_cases hf : x.flagged = true
  · rw [if_pos hf] at h
    cases pure_eq_ok.1 h
    exact .inl hd
  · rw [if_neg hf] at h
    cases pure_eq_ok.1 h
    exact Queue.mem_push hd

theorem raiseAt_eq (hx : a.program.exprs.get? e = some x) :
    a.raiseAt code e = a.report e (.ofCode code x.span) := by
  simp only [raiseAt, Table.get_eq_ok.2 hx, ok_bind]

end Analysis

end FrontEnd
