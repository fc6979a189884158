import FrontEnd.Proofs.Complaints
/-!
# FrontEnd — voices

Which expressions are flagged and what the queue holds is the `Voice` of
an analysis. It decides which complaint is kept, and nothing else. So the
rest of an analysis can be given another voice (`Program.sounding`), and
to report is to let the voice hear a complaint (`report_sounding`).

Two voices that hear the same are compared at the end. One with a limit
keeps the first diagnostics of one without (`Truncates`). And one that
starts from the flags that the limit has left keeps the others, when it
hears everything once more (`hearAll_resumes`).
-/

namespace FrontEnd

/-- Who has been complained about, and what has been kept of it. -/
structure Voice where
  flags : ExprId → Bool
  queue : Queue

namespace Voice

/-- Take in a complaint: it goes to the queue unless its expression is
flagged, and flags the expression if the queue keeps it. -/
def hear (v : Voice) (c : Complaint) : Voice :=
  if v.flags c.expr then v
  else
    let (kept, queue) := v.queue.push c.diagnostic
    ⟨if kept then fun e => v.flags e || decide (e = c.expr) else v.flags, queue⟩

/-- Take in one complaint after the other. -/
def hearAll (v : Voice) (cs : List Complaint) : Voice := cs.foldl hear v

variable {v w l u r : Voice} {c : Complaint} {cs : List Complaint} {L : Nat} {e : ExprId}

theorem hearAll_append (v : Voice) (cs cs' : List Complaint) :
    (v.hearAll cs).hearAll cs' = v.hearAll (cs ++ cs') :=
  List.foldl_append.symm

/-! ## What becomes of a complaint -/

theorem hear_flagged (h : v.flags c.expr = true) : v.hear c = v := if_pos h

theorem hear_refused (hf : v.flags c.expr = false) (h : v.queue.refuses c.diagnostic = true) :
    ∃ n, v.hear c = ⟨v.flags, { v.queue with dropped := n }⟩ := by
  obtain ⟨n, hn⟩ := Queue.push_refused h
  refine ⟨n, ?_⟩
  rw [hear, hf, hn]
  rfl

theorem hear_kept (hf : v.flags c.expr = false) (h : v.queue.refuses c.diagnostic = false) :
    v.hear c = ⟨fun e => v.flags e || decide (e = c.expr),
      { v.queue with diagnostics := v.queue.diagnostics ++ [c.diagnostic] }⟩ := by
  rw [hear, hf, Queue.push_kept h]
  rfl

/-- No flag is taken back. -/
theorem flags_hear (h : v.flags e = true) : (v.hear c).flags e = true := by
  cases hf : v.flags c.expr with
  | true => rwa [hear_flagged hf]
  | false =>
    cases hr : v.queue.refuses c.diagnostic with
    | true =>
      obtain ⟨n, hn⟩ := hear_refused hf hr
      rwa [hn]
    | false =>
      rw [hear_kept hf hr]
      simp [h]

theorem flags_hearAll (h : v.flags e = true) : (v.hearAll cs).flags e = true := by
  induction cs generalizing v with
  | nil => exact h
  | cons c cs ih => exact ih (flags_hear h)

/-- A voice whose limit is reached keeps nothing any more. -/
theorem hear_full (h : v.queue.limitReached = true) :
    (v.hear c).flags = v.flags ∧ (v.hear c).queue.config = v.queue.config ∧
      (v.hear c).queue.diagnostics = v.queue.diagnostics := by
  cases hf : v.flags c.expr with
  | true => rw [hear_flagged hf]; exact ⟨rfl, rfl, rfl⟩
  | false =>
    obtain ⟨n, hn⟩ := hear_refused (c := c) hf (by simp [Queue.refuses, h])
    rw [hn]
    exact ⟨rfl, rfl, rfl⟩

theorem hearAll_full (h : v.queue.limitReached = true) : (v.hearAll cs).flags = v.flags := by
  induction cs generalizing v with
  | nil => rfl
  | cons c cs ih =>
    obtain ⟨hflags, hconfig, hdiagnostics⟩ := hear_full (c := c) h
    refine (ih ?_).trans hflags
    rw [Queue.limitReached, Queue.size, hconfig, hdiagnostics]
    exact h

/-! ## A limit -/

/-- The first voice is limited to `L` diagnostics. It has kept the first
ones of the second, which has no limit, and flags no more than that. Up
to the limit they are the same. -/
structure Truncates (L : Nat) (v w : Voice) : Prop where
  config : v.queue.config = { w.queue.config with errorLimit := L }
  unlimited : w.queue.config.errorLimit = 0
  diagnostics : v.queue.diagnostics = w.queue.diagnostics.take L
  flags : ∀ e, v.flags e = true → w.flags e = true
  same : w.queue.diagnostics.length ≤ L → v.flags = w.flags

namespace Truncates

theorem limitReached (h : Truncates L v w) (hL : 1 ≤ L) :
    v.queue.limitReached = true ↔ L ≤ w.queue.diagnostics.length := by
  simp only [Queue.limitReached, Queue.size, h.config, h.diagnostics, List.length_take,
    Bool.and_eq_true, decide_eq_true_eq]
  omega

theorem refuses_unlimited (h : Truncates L v w) (d : Diagnostic) :
    w.queue.refuses d = (w.queue.config.deduplicate && w.queue.holds d) := by
  simp [Queue.refuses, Queue.limitReached, h.unlimited]

/-- Ahead of the limit both voices are of one mind. -/
theorem refuses (h : Truncates L v w) (hL : 1 ≤ L) (hlt : w.queue.diagnostics.length < L)
    (d : Diagnostic) : v.queue.refuses d = w.queue.refuses d := by
  have hopen : v.queue.limitReached = false :=
    Bool.eq_false_iff.2 fun hl => Nat.not_le_of_lt hlt ((h.limitReached hL).1 hl)
  have hsame : v.queue.diagnostics = w.queue.diagnostics := by
    rw [h.diagnostics, List.take_of_length_le (Nat.le_of_lt hlt)]
  rw [h.refuses_unlimited, Queue.refuses, hopen, Bool.false_or, h.config, Queue.holds, hsame,
    Queue.holds]

/-- What the second voice keeps past the limit is nothing to the first. -/
theorem hear_past (h : Truncates L v w) (hL : 1 ≤ L) (hle : L ≤ w.queue.diagnostics.length)
    (hf : w.flags c.expr = false) : Truncates L (v.hear c) (w.hear c) := by
  obtain ⟨hflags, hconfig, hdiagnostics⟩ := hear_full (c := c) ((h.limitReached hL).2 hle)
  cases hr : w.queue.refuses c.diagnostic with
  | true =>
    obtain ⟨n, hn⟩ := hear_refused hf hr
    rw [hn]
    exact ⟨hconfig.trans h.config, h.unlimited, hdiagnostics.trans h.diagnostics,
      fun e he => h.flags e (hflags ▸ he), fun hlen => hflags.trans (h.same hlen)⟩
  | false =>
    rw [hear_kept hf hr]
    refine ⟨hconfig.trans h.config, h.unlimited, ?_, fun e he => ?_, fun hlen => ?_⟩
    · simp only [hdiagnostics, h.diagnostics, List.take_append_of_le_length hle]
    · simp only [h.flags e (hflags ▸ he), Bool.true_or]
    · simp only [List.length_append, List.length_singleton] at hlen
      omega

/-- **What both voices hear keeps them together.** -/
theorem hear (h : Truncates L v w) (hL : 1 ≤ L) (c : Complaint) :
    Truncates L (v.hear c) (w.hear c) := by
  rcases Nat.lt_or_ge w.queue.diagnostics.length L with hlt | hle
  · -- nothing has been dropped yet, so the flags are the same
    have hsame := h.same (Nat.le_of_lt hlt)
    cases hf : w.flags c.expr with
    | true => rwa [hear_flagged hf, hear_flagged (by rwa [hsame])]
    | false =>
      have hfv : v.flags c.expr = false := by rwa [hsame]
      cases hr : w.queue.refuses c.diagnostic with
      | true =>
        obtain ⟨n, hn⟩ := hear_refused hf hr
        obtain ⟨m, hm⟩ := hear_refused hfv ((h.refuses hL hlt _).trans hr)
        rw [hn, hm]
        exact ⟨h.config, h.unlimited, h.diagnostics, h.flags, h.same⟩
      | false =>
        rw [hear_kept hf hr, hear_kept hfv ((h.refuses hL hlt _).trans hr)]
        refine ⟨h.config, h.unlimited, ?_, by simp only [hsame, imp_self, implies_true], fun _ => by rw [hsame]⟩
        rw [h.diagnostics, List.take_of_length_le (Nat.le_of_lt hlt), List.take_of_length_le]
        rw [List.length_append]
        exact hlt
  · cases hf : w.flags c.expr with
    | true =>
      obtain ⟨hflags, hconfig, hdiagnostics⟩ := hear_full (c := c) ((h.limitReached hL).2 hle)
      rw [hear_flagged hf]
      exact ⟨hconfig.trans h.config, h.unlimited, hdiagnostics.trans h.diagnostics,
        fun e he => h.flags e (hflags ▸ he), fun hlen => hflags.trans (h.same hlen)⟩
    | false => exact h.hear_past hL hle hf

theorem hearAll (h : Truncates L v w) (hL : 1 ≤ L) (cs : List Complaint) :
    Truncates L (v.hearAll cs) (w.hearAll cs) := by
  induction cs generalizing v w with
  | nil => exact h
  | cons c cs ih => exact ih (h.hear hL c)

end Truncates

/-! ## Hearing everything once more -/

/-- A voice that keeps whatever is not about a flagged expression. -/
theorem hear_of_keeps (hconfig : u.queue.config = .unlimited) :
    u.hear c = if u.flags c.expr then u else ⟨fun e => u.flags e || decide (e = c.expr),
      { u.queue with diagnostics := u.queue.diagnostics ++ [c.diagnostic] }⟩ := by
  cases hf : u.flags c.expr with
  | true => exact hear_flagged hf
  | false =>
    refine hear_kept hf ?_
    simp [Queue.refuses, Queue.limitReached, hconfig, QueueConfig.unlimited]

/-- **What a limit has dropped is not lost.** The limited voice `l` and the
unlimited `u` have come to here together. The voice `r` hears what `u`
does, but starts from the flags that `l` will have in the end: it keeps
what `u` keeps past the limit. -/
theorem hearAll_resumes (h : Truncates L l u) (hL : 1 ≤ L) (hu : u.queue.config = .unlimited)
    (hr : r.queue.config = .unlimited)
    (hflags : ∀ e, r.flags e = ((l.hearAll cs).flags e || u.flags e))
    (hdiagnostics : r.queue.diagnostics = u.queue.diagnostics.drop L) :
    (r.hearAll cs).queue.diagnostics = (u.hearAll cs).queue.diagnostics.drop L := by
  induction cs generalizing l u r with
  | nil => exact hdiagnostics
  | cons c cs ih =>
    have hlater := h.hear hL c
    change ((r.hear c).hearAll cs).queue.diagnostics =
      ((u.hear c).hearAll cs).queue.diagnostics.drop L
    change ∀ e, r.flags e = (((l.hear c).hearAll cs).flags e || u.flags e) at hflags
    have hrc : r.flags c.expr = (((l.hear c).hearAll cs).flags c.expr || u.flags c.expr) := hflags _
    cases hf : u.flags c.expr with
    | true =>
      rw [hear_flagged hf] at hlater ⊢
      rw [hear_flagged (by rw [hrc, hf, Bool.or_true])]
      exact ih hlater hu hr hflags hdiagnostics
    | false =>
      have hkept := hear_of_keeps (c := c) hu
      rw [hf, if_neg Bool.false_ne_true] at hkept
      rcases Nat.lt_or_ge u.queue.diagnostics.length L with hlt | hle
      · -- the limited voice keeps it as well, and so it is flagged in the end
        have hflag : (l.hear c).flags c.expr = true := by
          rw [hlater.same (by rw [hkept, List.length_append]; exact hlt), hkept]
          simp
        have hend : ((l.hear c).hearAll cs).flags c.expr = true := flags_hearAll hflag
        rw [hear_flagged (v := r) (by rw [hrc, hend, Bool.true_or])]
        refine ih hlater (by rw [hkept]; exact hu) hr (fun e => ?_) ?_
        · rw [hflags e, hkept]
          by_cases he : e = c.expr
          · rw [he, hend, Bool.true_or, Bool.true_or]
          · simp [he]
        · rw [hdiagnostics, hkept, List.drop_of_length_le (Nat.le_of_lt hlt),
            List.drop_of_length_le (by rw [List.length_append]; exact hlt)]
      · -- the limited voice has come to its end
        have hfull := (h.limitReached hL).2 hle
        obtain ⟨hsame, hconfig, hsameDiagnostics⟩ := hear_full (c := c) hfull
        have hend : ((l.hear c).hearAll cs).flags = l.flags := by
          refine (hearAll_full ?_).trans hsame
          rw [Queue.limitReached, Queue.size, hconfig, hsameDiagnostics]
          exact hfull
        have hlow : l.flags c.expr = false :=
          Bool.eq_false_iff.2 fun hl => Bool.false_ne_true (hf.symm.trans (h.flags _ hl))
        have hkept' := hear_of_keeps (c := c) hr
        rw [hrc, hend, hlow, hf, Bool.or_false, if_neg Bool.false_ne_true] at hkept'
        refine ih hlater (by rw [hkept]; exact hu) (by rw [hkept']; exact hr) (fun e => ?_) ?_
        · simp only [hkept, hkept', hflags e, Bool.or_assoc]
        · rw [hkept, hkept', hdiagnostics, List.drop_append_of_le_length hle]

/-- **What is kept with a limit, and what is kept after that, is all.** -/
theorem hearAll_eq_append (h : Truncates L l u) (hL : 1 ≤ L) (hu : u.queue.config = .unlimited)
    (hlen : u.queue.diagnostics.length ≤ L)
    (hr : r = ⟨(l.hearAll cs).flags, { config := .unlimited }⟩) :
    (u.hearAll cs).queue.diagnostics =
      (l.hearAll cs).queue.diagnostics ++ (r.hearAll cs).queue.diagnostics := by
  have hrest : (r.hearAll cs).queue.diagnostics = (u.hearAll cs).queue.diagnostics.drop L := by
    refine hearAll_resumes h hL hu (by rw [hr]) (fun e => ?_) ?_
    · rw [hr]
      cases hf : u.flags e with
      | false => rw [Bool.or_false]
      | true =>
        have hl : l.flags e = true := by rw [h.same hlen, hf]
        rw [Bool.or_true, flags_hearAll hl]
    · rw [hr, List.drop_of_length_le hlen]
  rw [(h.hearAll hL cs).diagnostics, hrest, List.take_append_drop]

end Voice

/-! ## Programs and voices -/

namespace Table

variable {k : RecordKind} {α β : Type}

/-- Every record changed with regard to its id. -/
def mapIds (t : Table k α) (f : RecordId k → α → β) : Table k β :=
  ⟨t.records.mapIdx fun i x => f ⟨i⟩ x⟩

@[simp] theorem get?_mapIds (t : Table k α) (f : RecordId k → α → β) (i : RecordId k) :
    (t.mapIds f).get? i = (t.get? i).map (f i) := by
  simp [get?, mapIds]

@[simp] theorem size_mapIds (t : Table k α) (f : RecordId k → α → β) :
    (t.mapIds f).size = t.size := by
  simp [size, mapIds]

/-- Changes of which one does not see the other. -/
theorem modify_mapIds {t : Table k α} {f : RecordId k → α → α} {i : RecordId k} {g : α → α}
    (h : ∀ j x, g (f j x) = f j (g x)) : (t.mapIds f).modify i g = (t.modify i g).mapIds f := by
  refine ext_get? fun j => ?_
  simp only [get?_modify, get?_mapIds]
  split
  · simp only [Option.map_map]
    exact congrArg (Option.map · (t.get? j)) (funext (h j))
  · rfl

end Table

namespace Program

/-- The program with other flags. -/
def voiced (p : Program) (flags : ExprId → Bool) : Program :=
  { p with exprs := p.exprs.mapIds fun e x => { x with flagged := flags e } }

/-- The flags of a program. -/
def flags (p : Program) (e : ExprId) : Bool := ((p.exprs.get? e).map (·.flagged)).getD false

/-- The analysis with a voice. -/
def sounding (p : Program) (v : Voice) : Analysis := ⟨p.voiced v.flags, v.queue⟩

variable {p : Program} {flags : ExprId → Bool} {v : Voice} {e : ExprId} {x : Expr} {d : Diagnostic}

theorem get?_voiced (p : Program) (flags : ExprId → Bool) (e : ExprId) :
    (p.voiced flags).exprs.get? e = (p.exprs.get? e).map ({ · with flagged := flags e }) :=
  Table.get?_mapIds ..

@[simp] theorem size_exprs_voiced : (p.voiced flags).exprs.size = p.exprs.size :=
  Table.size_mapIds ..

theorem voiced_flags (p : Program) : p.voiced p.flags = p := by
  have hexprs : (p.voiced p.flags).exprs = p.exprs := by
    refine Table.ext_get? fun e => ?_
    rw [get?_voiced, Program.flags]
    cases p.exprs.get? e <;> rfl
  exact congrArg (fun exprs => { p with exprs }) hexprs

@[simp] theorem voiced_voiced (p : Program) (flags flags' : ExprId → Bool) :
    (p.voiced flags).voiced flags' = p.voiced flags' := by
  have hexprs : ((p.voiced flags).voiced flags').exprs = (p.voiced flags').exprs := by
    refine Table.ext_get? fun e => ?_
    simp only [get?_voiced, Option.map_map]
    rfl
  exact congrArg (fun exprs => { p with exprs }) hexprs

@[simp] theorem frame_voiced : (p.voiced flags).frame = p.frame := by
  refine frame_exprs (Table.ext_get? fun e => ?_)
  rw [Table.get?_map, Table.get?_map, Table.get?_mapIds, Option.map_map]
  rfl

theorem setKind_voiced (e : ExprId) (kind : ExprKind) :
    (p.voiced flags).setKind e kind = (p.setKind e kind).voiced flags := by
  refine congrArg (fun exprs => { p with exprs }) ?_
  exact Table.modify_mapIds fun _ _ => rfl

theorem setExprType_voiced (e : ExprId) (type : Ty) :
    (p.voiced flags).setExprType e type = (p.setExprType e type).voiced flags := by
  refine congrArg (fun exprs => { p with exprs }) ?_
  exact Table.modify_mapIds fun _ _ => rfl

theorem flag_voiced (e : ExprId) :
    (p.voiced flags).flag e = p.voiced fun c => flags c || decide (c = e) := by
  refine congrArg (fun exprs => { p with exprs }) (Table.ext_get? fun c => ?_)
  rw [Table.get?_modify, get?_voiced, Table.get?_mapIds]
  by_cases hc : c = e
  · simp [hc, Function.comp_def]
  · simp [hc]

/-! ## What is the same in every voice -/

@[simp] theorem sounding_stmts : (p.sounding v).program.stmts = p.stmts := rfl

@[simp] theorem sounding_functions : (p.sounding v).program.functions = p.functions := rfl

@[simp] theorem sounding_parameters : (p.sounding v).program.parameters = p.parameters := rfl

@[simp] theorem sounding_vars : (p.sounding v).program.vars = p.vars := rfl

@[simp] theorem operands_voiced (kind : ExprKind) :
    (p.voiced flags).operands kind = p.operands kind :=
  operands_congr rfl kind

theorem get_voiced (e : ExprId) :
    (p.voiced flags).exprs.get e = (p.exprs.get e).map ({ · with flagged := flags e }) := by
  simp only [Table.get, get?_voiced]
  cases p.exprs.get? e <;> rfl

/-- To read the kind or the span of an expression is the same in every
voice. -/
theorem get_voiced_bind {α : Type} {f : Expr → Except Fault α} {g : Expr → Except Fault α}
    (h : ∀ x, f { x with flagged := flags e } = g x) :
    (p.voiced flags).exprs.get e >>= f = p.exprs.get e >>= g := by
  rw [get_voiced]
  cases p.exprs.get e with
  | error fault => rfl
  | ok x => exact h x

@[simp] theorem typeOf_voiced (e : ExprId) : (p.voiced flags).typeOf e = p.typeOf e := by
  have within : ∀ fuel e, (p.voiced flags).typeOfWithin fuel e = p.typeOfWithin fuel e := by
    intro fuel
    induction fuel with
    | zero => exact fun e => rfl
    | succ fuel ih =>
      intro e
      simp only [typeOfWithin, ih]
      refine get_voiced_bind fun x => ?_
      cases x.kind with
      | call callee arguments => exact get_voiced_bind fun y => rfl
      | unary op operand => cases op <;> rfl
      | _ => rfl
  simp only [typeOf, exprDepth, size_exprs_voiced, within]

@[simp] theorem readOrder_voiced (e : ExprId) : (p.voiced flags).readOrder e = p.readOrder e := by
  have within : ∀ fuel e, (p.voiced flags).readOrderWithin fuel e = p.readOrderWithin fuel e := by
    intro fuel
    induction fuel with
    | zero => exact fun e => rfl
    | succ fuel ih =>
      intro e
      simp only [readOrderWithin]
      refine get_voiced_bind fun x => ?_
      simp only [funext ih, operands_voiced]
      rfl
  simp only [readOrder, exprDepth, size_exprs_voiced, within]

end Program

/-- The voice of an analysis. -/
def Analysis.voice (a : Analysis) : Voice := ⟨a.program.flags, a.queue⟩

theorem Analysis.sounding_voice (a : Analysis) : a.program.sounding a.voice = a := by
  obtain ⟨p, q⟩ := a
  simp only [Program.sounding, voice, Program.voiced_flags]

/-- **To report is to let the voice hear a complaint.** -/
theorem Program.report_sounding {p : Program} {v : Voice} {e : ExprId} {x : Expr}
    (hx : p.exprs.get? e = some x) (d : Diagnostic) :
    (p.sounding v).report e d = .ok (p.sounding (v.hear ⟨e, d⟩)) := by
  have hget : (p.sounding v).program.exprs.get e = .ok { x with flagged := v.flags e } := by
    rw [Table.get_eq_ok]
    exact (get?_voiced ..).trans (by rw [hx]; rfl)
  rw [Analysis.report, hget, ok_bind]
  simp only
  cases hf : v.flags e with
  | true =>
    rw [Voice.hear_flagged hf]
    rfl
  | false =>
    cases hr : v.queue.refuses d with
    | true =>
      obtain ⟨n, hn⟩ := Queue.push_refused hr
      have hpush : (p.sounding v).queue.push d = _ := hn
      simp only [hpush, Voice.hear, hf, hn]
      rfl
    | false =>
      have hpush : (p.sounding v).queue.push d = _ := Queue.push_kept hr
      rw [Voice.hear_kept hf hr]
      simp only [hpush, if_true]
      rw [show (p.sounding v).program.flag e = _ from flag_voiced e]
      rfl

end FrontEnd
