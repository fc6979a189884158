import FrontEnd.Proofs.Voice
/-!
# FrontEnd — a ledger of what is kept

Whatever a pass does to an analysis, it reports on account of expressions,
it may report that there is no `main`, and all else it does neither flags
an expression nor touches the queue (`Ledger`). The ledger of a run lists
the diagnostics that the queue has kept, each with the expression that it
flagged. So the flags and the queue can be read off the ledger, and no
expression is in it twice (`Ledger.balances`).
-/

namespace FrontEnd

/-- A diagnostic that has been kept, and the expression on whose account. -/
structure Entry where
  cause : Option ExprId
  diagnostic : Diagnostic

/-- The expressions that are the cause of an entry. -/
def causes (entries : List Entry) : List ExprId := entries.filterMap (·.cause)

@[simp] theorem causes_append (entries entries' : List Entry) :
    causes (entries ++ entries') = causes entries ++ causes entries' :=
  List.filterMap_append

namespace Analysis

/-- What is entered for a report on account of an expression: nothing if
the expression is flagged already, or the queue refuses. -/
def entered (a : Analysis) (e : ExprId) (d : Diagnostic) : List Entry :=
  if a.program.flags e || a.queue.refuses d then [] else [⟨some e, d⟩]

/-- What is entered if there is no `main`. -/
def enteredNoMain (a : Analysis) : List Entry :=
  if a.queue.refuses (.ofCode .noMain .zero) then [] else [⟨none, .ofCode .noMain .zero⟩]

/-- One analysis comes of another by reports, of which the entries have
been kept, and by changes that neither flag nor report. -/
inductive Ledger : Analysis → Analysis → List Entry → Prop
  | silent {a b : Analysis} (flags : b.program.flags = a.program.flags)
      (size : b.program.exprs.size = a.program.exprs.size) (queue : b.queue = a.queue) :
      Ledger a b []
  | report {a b : Analysis} {e : ExprId} {d : Diagnostic} (code : d.code ≠ .noMain)
      (made : a.report e d = .ok b) : Ledger a b (a.entered e d)
  | noMain (a : Analysis) : Ledger a (a.raise .noMain .zero).2 a.enteredNoMain
  | append {a b c : Analysis} {entries entries' : List Entry} (first : Ledger a b entries)
      (later : Ledger b c entries') : Ledger a c (entries ++ entries')

end Analysis

open Analysis

namespace Program

variable {p : Program} {e c : ExprId} {x : Expr}

/-- Only expressions that are held are flagged. -/
theorem lt_size_of_flags (h : p.flags e = true) : e.raw < p.exprs.size := by
  unfold flags at h
  cases hx : p.exprs.get? e with
  | some x => exact Table.lt_size_of_get? hx
  | none => simp [hx] at h

theorem flags_congr {p' : Program} (h : p'.exprs = p.exprs) : p'.flags = p.flags := by
  funext e
  rw [flags, h, flags]

theorem flags_modify {f : Expr → Expr} (hf : ∀ x, (f x).flagged = x.flagged) :
    flags { p with exprs := p.exprs.modify e f } = p.flags := by
  funext c
  simp only [flags, Table.get?_modify]
  split
  · rw [Option.map_map]
    exact congrArg (fun o => Option.getD o false) (congrArg (Option.map · _) (funext hf))
  · rfl

theorem flags_flag (hx : p.exprs.get? e = some x) :
    (p.flag e).flags c = (p.flags c || decide (c = e)) := by
  simp only [flags, flag, Table.get?_modify]
  by_cases hc : c = e
  · simp [hc, hx]
  · simp [hc]

end Program

namespace Analysis

variable {a b c : Analysis} {e : ExprId} {d : Diagnostic} {entries entries' : List Entry}

/-! ## The balance -/

/-- The entries account for what has been kept and for what has been
flagged. -/
structure Balances (a b : Analysis) (entries : List Entry) : Prop where
  diagnostics : b.queue.diagnostics = a.queue.diagnostics ++ entries.map (·.diagnostic)
  flags : ∀ e, b.program.flags e = true ↔ a.program.flags e = true ∨ e ∈ causes entries
  /-- What causes an entry had not been flagged. -/
  fresh : ∀ e ∈ causes entries, a.program.flags e = false
  once : (causes entries).Nodup
  /-- Only the lack of `main` is on no expression's account. -/
  codes : ∀ k ∈ entries, k.cause = none ↔ k.diagnostic.code = .noMain
  size : b.program.exprs.size = a.program.exprs.size

namespace Balances

/-- Where nothing is kept and nothing is flagged, nothing is entered. -/
theorem nothing (diagnostics : b.queue.diagnostics = a.queue.diagnostics)
    (flags : b.program.flags = a.program.flags)
    (size : b.program.exprs.size = a.program.exprs.size) : Balances a b [] where
  diagnostics := by rw [diagnostics, List.map_nil, List.append_nil]
  flags e := by simp [flags, causes]
  fresh e he := by cases he
  once := List.nodup_nil
  codes k hk := by cases hk
  size := size

theorem append (h : Balances a b entries) (h' : Balances b c entries') :
    Balances a c (entries ++ entries') where
  diagnostics := by
    rw [h'.diagnostics, h.diagnostics, List.map_append, List.append_assoc]
  flags e := by
    rw [h'.flags, h.flags, causes_append, List.mem_append, or_assoc]
  fresh e he := by
    rcases List.mem_append.1 (causes_append .. ▸ he) with he | he
    · exact h.fresh e he
    · have hb := h'.fresh e he
      exact Bool.eq_false_iff.2 fun ha => Bool.eq_false_iff.1 hb ((h.flags e).2 (.inl ha))
  once := by
    rw [causes_append, List.nodup_append']
    refine ⟨h.once, h'.once, fun e he he' => ?_⟩
    -- what has been entered is flagged, and is not entered again
    exact Bool.eq_false_iff.1 (h'.fresh e he') ((h.flags e).2 (.inr he))
  codes k hk := (List.mem_append.1 hk).elim (h.codes k) (h'.codes k)
  size := h'.size.trans h.size

end Balances

/-- What is refused flags nothing. -/
theorem report_refused (hr : a.queue.refuses d = true) (made : a.report e d = .ok b) :
    b.program = a.program ∧ b.queue.diagnostics = a.queue.diagnostics := by
  obtain ⟨x, -, made⟩ := bind_eq_ok.1 made
  split at made
  · cases pure_eq_ok.1 made
    exact ⟨rfl, rfl⟩
  · obtain ⟨n, hn⟩ := Queue.push_refused hr
    rw [hn] at made
    cases pure_eq_ok.1 made
    exact ⟨rfl, rfl⟩

/-- **A report enters its diagnostic and flags its expression, or does
neither.** -/
theorem report_balances (code : d.code ≠ .noMain) (made : a.report e d = .ok b) :
    Balances a b (a.entered e d) := by
  cases hr : a.queue.refuses d with
  | true =>
    obtain ⟨hprogram, hdiagnostics⟩ := report_refused hr made
    rw [entered, hr, Bool.or_true, if_pos rfl]
    exact .nothing hdiagnostics (by rw [hprogram]) (by rw [hprogram])
  | false =>
    obtain ⟨x, hx, made⟩ := bind_eq_ok.1 made
    rw [Table.get_eq_ok] at hx
    have hflag : a.program.flags e = x.flagged := by simp [Program.flags, hx]
    cases hf : x.flagged with
    | true =>
      rw [hf, if_pos rfl] at made
      cases pure_eq_ok.1 made
      rw [entered, hflag, hf, Bool.true_or, if_pos rfl]
      exact .nothing rfl rfl rfl
    | false =>
      rw [hf, if_neg Bool.false_ne_true, Queue.push_kept hr] at made
      cases pure_eq_ok.1 made
      rw [entered, hflag, hf, hr, Bool.or_false, if_neg Bool.false_ne_true]
      exact
        { diagnostics := rfl
          flags := fun c => by simp [Program.flags_flag hx, causes]
          fresh := fun c hc => by
            obtain rfl : c = e := by simpa [causes] using hc
            rw [hflag, hf]
          once := List.nodup_singleton e
          codes := fun k hk => by simp [List.mem_singleton.1 hk, code]
          size := Table.size_modify .. }

theorem noMain_balances (a : Analysis) :
    Balances a (a.raise .noMain .zero).2 a.enteredNoMain := by
  cases hr : a.queue.refuses (.ofCode .noMain .zero) with
  | true =>
    obtain ⟨n, hn⟩ := Queue.push_refused hr
    rw [enteredNoMain, hr, if_pos rfl]
    exact .nothing (by rw [raise, Queue.raise, hn]) rfl rfl
  | false =>
    rw [enteredNoMain, hr, if_neg Bool.false_ne_true]
    exact
      { diagnostics := by rw [raise, Queue.raise, Queue.push_kept hr]; rfl
        flags := fun e => by simp [raise, causes]
        fresh := fun e he => by cases he
        once := List.nodup_nil
        codes := fun k hk => by simp [List.mem_singleton.1 hk, Diagnostic.ofCode]
        size := rfl }

/-- **The flags and the queue are what the ledger says.** -/
theorem Ledger.balances (h : Ledger a b entries) : Balances a b entries := by
  induction h with
  | silent flags size queue => exact .nothing (by rw [queue]) flags size
  | report code made => exact report_balances code made
  | noMain a => exact noMain_balances a
  | append _ _ ih ih' => exact ih.append ih'

/-! ## Counting -/

/-- The expressions that have come to be flagged. -/
def newlyFlagged (a b : Analysis) : List ExprId :=
  (IdRange.mk 0 a.program.exprs.size).ids.filter fun e => !a.program.flags e && b.program.flags e

theorem mem_newlyFlagged (size : b.program.exprs.size = a.program.exprs.size) :
    e ∈ a.newlyFlagged b ↔ a.program.flags e = false ∧ b.program.flags e = true := by
  simp only [newlyFlagged, List.mem_filter, IdRange.mem_ids, IdRange.stop, Nat.zero_add,
    Bool.and_eq_true, Bool.not_eq_true', Nat.zero_le, true_and, and_iff_right_iff_imp]
  rintro ⟨-, hb⟩
  exact size ▸ Program.lt_size_of_flags hb

/-- **Each expression that has come to be flagged has one entry.** -/
theorem Balances.perm (h : Balances a b entries) :
    (causes entries).Perm (a.newlyFlagged b) := by
  have nodup : (a.newlyFlagged b).Nodup := by
    refine List.Nodup.filter _ (List.Nodup.map (fun m n h => ?_) List.nodup_range')
    exact congrArg RecordId.raw h
  refine (List.perm_ext_iff_of_nodup h.once nodup).2 fun e => ?_
  rw [mem_newlyFlagged h.size, h.flags]
  constructor
  · exact fun he => ⟨h.fresh e he, .inr he⟩
  · rintro ⟨ha, ha' | he⟩
    · exact absurd ha' (Bool.eq_false_iff.1 ha)
    · exact he

/-- As many diagnostics have been kept as expressions have come to be
flagged, and those on the lack of `main`. -/
theorem Balances.length_eq (h : Balances a b entries) : entries.length =
    (a.newlyFlagged b).length + entries.countP (·.diagnostic.code = .noMain) := by
  rw [← h.perm.length_eq, causes, List.length_filterMap_eq_countP,
    List.length_eq_countP_add_countP (fun k : Entry => k.cause.isSome)]
  congr 1
  refine List.countP_congr fun k hk => ?_
  simpa using h.codes k hk

end Analysis

end FrontEnd
