import FrontEnd.Proofs.Told
import FrontEnd.Proofs.TypeEdits
/-!
# FrontEnd — which nodes become values of enums

The type pass makes a value of a node where it has been asked for one
(`Program.Asks`): the node selects a name from an enum type, or it is a
name that is expected to be a value of one. Nothing is expected of an
operand, and of what a statement begins with only what the statement
expects. So every node is what it was, or the value that was asked for
(`Analysis.Chosen`), from the first statement of the pass to the last.
-/

namespace FrontEnd

namespace Program

/-- At the expression, whose node was `x` when names were resolved, a
value of the enum type is asked for under the name. -/
inductive Asks (p : Program) (expects : ExprId → EnumTypeId → Prop) (e : ExprId) (x : Expr) :
    EnumTypeId → Span → Prop
  | field {subject : ExprId} {name : Span} {t : EnumTypeId} (hk : x.kind = .field subject name)
      (named : p.named subject = .enum t) : Asks p expects e x t name
  | name {t : EnumTypeId} (hk : x.kind = .identifier) (expected : expects e t) :
      Asks p expects e x t x.span

/-- What the type pass may have made of the node `x₀`. -/
structure Picks (p : Program) (source : String) (expects : ExprId → EnumTypeId → Prop) (e : ExprId)
    (x₀ x : Expr) : Prop where
  span : x.span = x₀.span
  kind : x.kind = x₀.kind ∨ ∃ t name v, x.kind = .enumValue v ∧ p.Asks expects e x₀ t name ∧
    p.findEnumValue source t name = .ok (some v)

end Program

open Analysis

/-- Every node is as it was in `p₀`, or has become the value that it asks
for there. -/
structure Analysis.Chosen (source : String) (p₀ : Program) (expects : ExprId → EnumTypeId → Prop)
    (a : Analysis) : Prop where
  frame : a.program.frame = p₀.frame
  nodes : ∀ e x, a.program.exprs.get? e = some x →
    ∃ x₀, p₀.exprs.get? e = some x₀ ∧ p₀.Picks source expects e x₀ x

variable {source : String} {p₀ p : Program} {expects : ExprId → EnumTypeId → Prop}
variable {a a' b : Analysis} {e : ExprId} {x x₀ : Expr} {s : StmtId} {t : EnumTypeId} {name : Span}
variable {v : EnumValueId} {expected : Option Ty} {type : Ty}

theorem Program.named_eq_enum : p.named e = .enum t ↔
    ∃ y, p.exprs.get? e = some y ∧ y.kind = .typeName (.enum t) := by
  unfold Program.named
  constructor
  · intro h
    split at h
    · next y hy =>
      refine ⟨y, hy, ?_⟩
      unfold ExprKind.named at h
      split at h
      · next hk => rw [hk, h]
      · cases h
    · cases h
  · rintro ⟨y, hy, hk⟩
    simp only [hy, hk, ExprKind.named]

/-- What names an enum type names it for good. -/
theorem Matured.named (h : Matured a b) (named : a.program.named e = .enum t) :
    b.program.named e = .enum t := by
  obtain ⟨y, hy, hk⟩ := Program.named_eq_enum.1 named
  obtain ⟨y', hy', hm⟩ := h.exprs e y hy
  exact Program.named_eq_enum.2 ⟨y', hy', (hm.kind_eq (by rw [hk]; rfl)).trans hk⟩

theorem Program.Picks.kind_eq (h : p.Picks source expects e x₀ x)
    (hk : ∀ v, x.kind ≠ .enumValue v) : x.kind = x₀.kind :=
  h.kind.resolve_right fun ⟨_, _, v, hv, _⟩ => hk v hv

namespace Analysis.Chosen

theorem start (queue : Queue) : Chosen source p₀ expects ⟨p₀, queue⟩ :=
  ⟨rfl, fun _ x hx => ⟨x, hx, rfl, .inl rfl⟩⟩

variable (h : a.Chosen source p₀ expects)

include h

/-- What names an enum type has named it from the start. -/
theorem named (named : a.program.named e = .enum t) : p₀.named e = .enum t := by
  obtain ⟨y, hy, hk⟩ := Program.named_eq_enum.1 named
  obtain ⟨y₀, hy₀, picks⟩ := h.nodes e y hy
  exact Program.named_eq_enum.2 ⟨y₀, hy₀, (picks.kind_eq (by simp [hk])).symm.trans hk⟩

/-! ## Single changes -/

/-- What leaves the kinds of expressions alone. -/
theorem of_kinds (hframe : b.program.frame = a.program.frame)
    (hback : ∀ e y, b.program.exprs.get? e = some y →
      ∃ x, a.program.exprs.get? e = some x ∧ y.span = x.span ∧ y.kind = x.kind) :
    b.Chosen source p₀ expects := by
  refine ⟨hframe.trans h.frame, fun e y hy => ?_⟩
  obtain ⟨x, hx, hspan, hkind⟩ := hback e y hy
  obtain ⟨x₀, hx₀, picks⟩ := h.nodes e x hx
  exact ⟨x₀, hx₀, hspan.trans picks.span, hkind ▸ picks.kind⟩

theorem of_exprs (hframe : b.program.frame = a.program.frame)
    (hexprs : b.program.exprs = a.program.exprs) : b.Chosen source p₀ expects :=
  h.of_kinds hframe fun _ y hy => ⟨y, hexprs ▸ hy, rfl, rfl⟩

theorem setExprType (e : ExprId) (type : Ty) :
    Chosen source p₀ expects { a with program := a.program.setExprType e type } := by
  have edit : TypeEdit source a { a with program := a.program.setExprType e type } := .record e type
  refine h.of_kinds edit.matured.frame fun c y hy => ?_
  simp only [Program.setExprType, Table.get?_modify] at hy
  split at hy
  · obtain ⟨x, hx, rfl⟩ := Option.map_eq_some_iff.1 hy
    exact ⟨x, hx, rfl, rfl⟩
  · exact ⟨y, hy, rfl, rfl⟩

theorem raiseAt {code : Code} (hr : a.raiseAt code e = .ok b) :
    b.Chosen source p₀ expects ∧ b.program.vars = a.program.vars := by
  obtain ⟨x, -, hr⟩ := bind_eq_ok.1 hr
  have hflags := Flags.report hr
  refine ⟨h.of_kinds (Changes.report hr).frame fun c y hy => ?_, hflags.vars⟩
  obtain ⟨x, hx, same⟩ := hflags.back hy
  exact ⟨x, hx, same.span, same.kind⟩

/-- A value is chosen where it is asked for. -/
theorem setKind (hx : a.program.exprs.get? e = some x) (hopen : x.kind.isOpen = true)
    (asks : ∀ x₀, x₀.kind = x.kind → x₀.span = x.span → p₀.Asks expects e x₀ t name)
    (found : a.program.findEnumValue source t name = .ok (some v)) :
    Chosen source p₀ expects { a with program := a.program.setKind e (.enumValue v) } := by
  have hmatured : Matured a { a with program := a.program.setKind e (.enumValue v) } :=
    matured_of_modify fun y hy => ⟨rfl, id, .inr ⟨Option.some.inj (hx.symm.trans hy) ▸ hopen, v, rfl⟩⟩
  refine ⟨hmatured.frame.trans h.frame, fun c y hy => ?_⟩
  simp only [Program.setKind, Table.get?_modify] at hy
  split at hy
  · next hc =>
    subst hc
    rw [hx] at hy
    obtain rfl := Option.some.inj hy
    obtain ⟨x₀, hx₀, picks⟩ := h.nodes c x hx
    have hkind := picks.kind_eq fun w hw => by
      rw [hw] at hopen
      cases hopen
    rw [Program.findEnumValue_congr h.frame] at found
    exact ⟨x₀, hx₀, picks.span, .inr ⟨t, name, v, rfl, asks x₀ hkind.symm picks.span.symm, found⟩⟩
  · exact h.nodes c y hy

/-! ## Expressions -/

/-- **A node becomes a value only where one is asked for.** -/
theorem nameEnumValue (hints : ∀ t, expected = some (.enum t) → expects e t) :
    Keeps (fun b => b.Chosen source p₀ expects ∧ b.program.vars = a.program.vars)
      (a.nameEnumValue source expected e) := by
  refine .read fun x hx => ?_
  rw [Table.get_eq_ok] at hx
  split
  · next t hk =>
    refine .read fun found hfound => ?_
    cases found with
    | none => exact .pure ⟨h, rfl⟩
    | some v =>
      refine .pure ⟨h.setKind hx (by rw [hk]; rfl) (fun x₀ hkind hspan => ?_) hfound, rfl⟩
      rw [← hspan]
      exact .name (hkind.trans hk) (hints t rfl)
  · next subject name hk =>
    refine .read fun y hy => ?_
    rw [Table.get_eq_ok] at hy
    split
    · next t hyk =>
      refine .read fun found hfound => ?_
      cases found with
      | none => exact fun b hb => h.raiseAt hb
      | some v =>
        have named := h.named (Program.named_eq_enum.2 ⟨y, hy, hyk⟩)
        exact .pure ⟨h.setKind hx (by rw [hk]; rfl)
          (fun x₀ hkind _ => .field (hkind.trans hk) named) hfound, rfl⟩
    · exact .pure ⟨h, rfl⟩
  · exact .pure ⟨h, rfl⟩

/-- **In an expression only the root is hinted at.** Of its operands
nothing is expected. -/
theorem typeExprWithin (fuel : Nat) (hints : ∀ t, expected = some (.enum t) → expects e t) :
    Keeps (fun r => r.2.Chosen source p₀ expects ∧ r.2.program.vars = a.program.vars)
      (typeExprWithin source fuel expected a e) := by
  induction fuel generalizing expected a e with
  | zero => exact .error
  | succ fuel ih =>
    refine .read fun x _ => .read fun es _ => Keeps.bind
      (P := fun b => b.Chosen source p₀ expects ∧ b.program.vars = a.program.vars) ?_ fun b hb => ?_
    · refine .foldlM (fun c _ b hb => ?_) ⟨h, rfl⟩
      exact (ih hb.1 (by simp)).bind fun r hr => .pure ⟨hr.1, hr.2.trans hb.2⟩
    · refine (hb.1.nameEnumValue hints).bind fun c hc => .read fun type _ => .pure ?_
      exact ⟨hc.1.setExprType e type, hc.2.trans hb.2⟩

theorem typeExpr? {init : Option ExprId}
    (hints : ∀ e, init = some e → ∀ t, expected = some (.enum t) → expects e t) :
    Keeps (fun r => r.2.Chosen source p₀ expects ∧ r.2.program.vars = a.program.vars)
      (typeExpr? source expected a init) := by
  cases init with
  | none => exact .pure ⟨h, rfl⟩
  | some e => exact (h.typeExprWithin _ (hints e rfl)).bind fun r hr => .pure hr

theorem typeNamed (e : ExprId) : Keeps (fun r => r.2.Chosen source p₀ expects) (a.typeNamed e) := by
  refine .read fun x _ => ?_
  cases x.kind with
  | typeName type => exact .pure (h.setExprType e type)
  | _ => exact .read fun b hb => .pure ((h.raiseAt hb).1.setExprType e .error)

theorem typeNamed? (typeExpr : Option ExprId) :
    Keeps (fun r => r.2.Chosen source p₀ expects) (a.typeNamed? typeExpr) := by
  cases typeExpr with
  | none => exact .pure h
  | some e => exact (h.typeNamed e).bind fun r hr => .pure hr

/-! ## Tasks -/

theorem runTask {task : Task} (hints : ∀ e expected t, task = .value e expected →
      expected.map a.program.typeFrom = some (.enum t) → expects e t) :
    Keeps (Chosen source p₀ expects) (runTask source a task) := by
  cases task with
  | name e => exact (h.typeNamed e).bind fun r hr => .pure hr
  | value e expected =>
    exact (h.typeExprWithin _ fun t => hints e expected t rfl).bind fun r hr => .pure hr.1
  | give target origin =>
    refine .read fun p' hp' => .pure ?_
    have hchanges := (setTypeAt_done hp').1
    exact h.of_exprs hchanges.frame (Table.ext_get? fun e => hchanges.exprs e fun hf => hf)

omit h in
/-- **What is expected of a value has been recorded before, and stays.** So
in a run of tasks each value is what is asked for as seen from the end. -/
theorem tasks {tasks : List Task} (once : p₀.UsedOnce) (older : p₀.OperandsOlder)
    (hp : Program.Pruned p₀ a.program) (proper : ∀ x ∈ tasks, x.Proper p₀)
    (apart : tasks.Pairwise (Task.Apart p₀)) (run : tasks.foldlM (Analysis.runTask source) a = .ok a')
    (hints : ∀ e expected t, .value e expected ∈ tasks →
      expected.map a'.program.typeFrom = some (.enum t) → expects e t)
    (h : a.Chosen source p₀ expects) : a'.Chosen source p₀ expects := by
  induction tasks generalizing a with
  | nil =>
    obtain rfl := foldlM_nil_eq_ok.1 run
    exact h
  | cons x tasks ih =>
    obtain ⟨hchanges, -⟩ := tasks_run once older hp proper apart run
    obtain ⟨b, hb, hrest⟩ := foldlM_cons_eq_ok.1 run
    obtain ⟨hproper, hproperRest⟩ := List.forall_mem_cons.1 proper
    obtain ⟨hapart, hapartRest⟩ := List.pairwise_cons.1 apart
    have hstep := (runTask_done once older hp hproper hb).1
    refine ih (hstep.pruned hp) hproperRest hapartRest hrest
      (fun e expected t hx => hints e expected t (List.mem_cons_of_mem _ hx)) ?_
    refine h.runTask (fun e expected t hx heq => hints e expected t (hx ▸ List.mem_cons_self) ?_) b hb
    subst hx
    rw [← heq]
    refine hchanges.map_typeFrom fun origin ho c hc ⟨y, hy, hregion⟩ => ?_
    rcases List.mem_cons.1 hy with rfl | hy
    · exact hproper origin ho c hc hregion
    · exact (hapart y hy).1 c (.inr ⟨origin, ho, hc⟩) hregion

end Analysis.Chosen

/-! ## Top-level variables -/

/-- The records of the variables of the top level say what is expected of
their initializers. -/
def Analysis.Hints (p₀ : Program) (expects : ExprId → EnumTypeId → Prop) (a : Analysis) : Prop :=
  ∀ s ∈ p₀.globals, (p₀.globalOf s).declared = true →
    ∀ r, a.program.vars.get? (p₀.globalOf s).id = some r → ∀ t, r.type = .enum t →
      ∀ e, (p₀.globalOf s).init = some e → expects e t

namespace Analysis.Hints

theorem congr (hints : a.Hints p₀ expects) (hvars : b.program.vars = a.program.vars) :
    b.Hints p₀ expects := by
  unfold Hints
  rw [hvars]
  exact hints

/-- A variable with a declared type keeps it. -/
theorem update {change : Variable → Variable} {vars : Table .variable Variable}
    (hints : a.Hints p₀ expects) (regular : p₀.Regular) (hs : s ∈ p₀.globals)
    (written : a.program.vars.update (p₀.globalOf s).id change = .ok vars)
    (keeps : (p₀.globalOf s).declared = true → ∀ r, (change r).type = r.type) :
    Hints p₀ expects { a with program := { a.program with vars } } := by
  intro s' hs' hdeclared r' hr' t ht e he
  obtain ⟨-, rfl⟩ := (Table.update_eq_ok_iff _).1 written
  rw [Table.get?_modify] at hr'
  split at hr'
  · next hid =>
    obtain rfl : s' = s := by
      by_contra hne
      exact globalOf_ne regular (declares_of_mem_globals hs') (declares_of_mem_globals hs) hne hid
    obtain ⟨r, hr, rfl⟩ := Option.map_eq_some_iff.1 hr'
    rw [keeps hdeclared] at ht
    exact hints s' hs' hdeclared r hr t ht e he
  · exact hints s' hs' hdeclared r' hr' t ht e he

/-- What is expected of an initializer is read off the record. -/
theorem of_expected (hints : a.Hints p₀ expects) (hs : s ∈ p₀.globals)
    (hexpected : (p₀.globalOf s).expected a.program = .ok expected) :
    ∀ e, (p₀.globalOf s).init = some e → ∀ t, expected = some (.enum t) → expects e t := by
  intro e he t ht
  unfold Global.expected at hexpected
  split at hexpected
  · next hdeclared =>
    obtain ⟨r, hr, hexpected⟩ := bind_eq_ok.1 hexpected
    rw [← pure_eq_ok.1 hexpected] at ht
    exact hints s hs hdeclared r (Table.get_eq_ok.1 hr) t (Option.some.inj ht) e he
  · rw [← pure_eq_ok.1 hexpected] at ht
    cases ht

/-- A variable that waits has the type that is named in its declaration. -/
theorem of_begun (begun : ∀ s ∈ p₀.globals, a.Begun p₀ s)
    (named : ∀ s ∈ p₀.globals, ∀ type e t, .name type ∈ p₀.tasks s →
      .value e (some (.recorded type)) ∈ p₀.tasks s → a.program.named type = .enum t → expects e t) :
    a.Hints p₀ expects := by
  intro s hs hdeclared r hr t ht e he
  obtain ⟨v, typeExpr, init, span, hstmt⟩ :=
    Program.exists_of_declaresVariable (declares_of_mem_globals hs)
  obtain ⟨r', hr', -, htype⟩ := (begun s hs).waiting.var
  rw [hr] at hr'
  obtain rfl := Option.some.inj hr'
  rw [globalOf_eq hstmt] at hdeclared he
  obtain ⟨type, rfl⟩ := Option.isSome_iff_exists.1 hdeclared
  have hname : .name type ∈ p₀.tasks s := (name_mem_tasks hstmt).2 rfl
  have hvalue : .value e (some (.recorded type)) ∈ p₀.tasks s :=
    (value_mem_tasks hstmt).2 ⟨he, rfl⟩
  refine named s hs type e t hname hvalue ?_
  rw [← ((begun s hs).waiting.named type hname).named_eq, ← ht, htype, declaredFrom_eq hstmt]
  rfl

end Analysis.Hints

namespace Analysis.Chosen

variable (regular : p₀.Regular)

theorem declareGlobal (h : a.Chosen source p₀ expects) (s : StmtId) :
    Keeps (fun r => r.2.Chosen source p₀ expects) (a.declareGlobal s) := by
  refine .read fun stmt _ => ?_
  split
  · refine (h.typeNamed? _).bind fun r hr => .read fun vars written => .pure ?_
    exact hr.of_exprs (matured_of_vars written fun _ => rfl).frame rfl
  · exact .pure h

include regular

/-- **To settle a variable makes values of what its declared type hints
at**, and of no other name. -/
theorem settle (h : a.Chosen source p₀ expects) (hints : a.Hints p₀ expects) (hs : s ∈ p₀.globals)
    (n : Nat) : Keeps (fun b => b.Chosen source p₀ expects ∧ b.Hints p₀ expects)
      (settle source a (p₀.globalOf s) n) := by
  refine .read fun expected hexpected => (h.typeExpr? (hints.of_expected hs hexpected)).bind
    fun r hr => .read fun vars written => .pure ⟨?_, ?_⟩
  · exact hr.1.of_exprs (matured_of_vars written fun _ => rfl).frame rfl
  · exact (hints.congr hr.2).update regular hs written fun hdeclared _ => if_pos hdeclared

theorem settleRound {W : List Global} (h : a.Chosen source p₀ expects) (hints : a.Hints p₀ expects)
    (hW : ∀ g ∈ W, ∃ s ∈ p₀.globals, g = p₀.globalOf s) :
    Keeps (fun r => (r.2.Chosen source p₀ expects ∧ r.2.Hints p₀ expects) ∧
      ∀ g ∈ r.1, ∃ s ∈ p₀.globals, g = p₀.globalOf s) (settleRound source a W) := by
  induction W generalizing a with
  | nil => exact .pure ⟨⟨h, hints⟩, hW⟩
  | cons g W ih =>
    obtain ⟨hg, hrest⟩ := List.forall_mem_cons.1 hW
    refine .read fun found _ => ?_
    cases found with
    | none =>
      exact (ih h hints hrest).bind fun r hr => .pure ⟨hr.1, List.forall_mem_cons.2 ⟨hg, hr.2⟩⟩
    | some n =>
      obtain ⟨s, hs, rfl⟩ := hg
      exact (h.settle regular hints hs (n + 1)).bind fun b hb => ih hb.1 hb.2 hrest

theorem settleRounds {W : List Global} (rounds : Nat) (h : a.Chosen source p₀ expects)
    (hints : a.Hints p₀ expects) (hW : ∀ g ∈ W, ∃ s ∈ p₀.globals, g = p₀.globalOf s) :
    Keeps (fun r => (r.2.Chosen source p₀ expects ∧ r.2.Hints p₀ expects) ∧
      ∀ g ∈ r.1, ∃ s ∈ p₀.globals, g = p₀.globalOf s) (settleRounds source rounds a W) := by
  induction rounds generalizing a W with
  | zero => exact .pure ⟨⟨h, hints⟩, hW⟩
  | succ rounds ih =>
    refine (h.settleRound regular hints hW).bind fun r hr => ?_
    dsimp only
    split
    · exact ih hr.1.1 hr.1.2 hr.2
    · exact .pure hr

/-- A variable that reads its way into a cycle is hinted at all the same. -/
theorem reportCycle (h : a.Chosen source p₀ expects) (hints : a.Hints p₀ expects)
    (hs : s ∈ p₀.globals) : Keeps (fun b => b.Chosen source p₀ expects ∧ b.Hints p₀ expects)
      (reportCycle source a (p₀.globalOf s)) := by
  have last : ∀ b : Analysis, b.Chosen source p₀ expects ∧ b.Hints p₀ expects →
      Keeps (fun c : Analysis => c.Chosen source p₀ expects ∧ c.Hints p₀ expects)
        (if (p₀.globalOf s).declared then pure b
          else do return { b with program := ← b.program.setVariableType (p₀.globalOf s).id .error }) := by
    rintro b ⟨hb, hints⟩
    split
    · exact .pure ⟨hb, hints⟩
    · next hdeclared =>
      refine .read fun p hp => .pure ?_
      obtain ⟨vars, written, hp⟩ := bind_eq_ok.1 hp
      cases pure_eq_ok.1 hp
      exact ⟨hb.of_exprs (matured_of_vars written fun _ => rfl).frame rfl,
        hints.update regular hs written fun h => absurd h hdeclared⟩
  refine .read fun expected hexpected => (h.typeExpr? (hints.of_expected hs hexpected)).bind
    fun r hr => ?_
  cases (p₀.globalOf s).init with
  | none => exact last r.2 ⟨hr.1, hints.congr hr.2⟩
  | some e =>
    refine .read fun b hb => last b ?_
    obtain ⟨hb, hvars⟩ := hr.1.raiseAt hb
    exact ⟨hb, hints.congr (hvars.trans hr.2)⟩

end Analysis.Chosen

/-! ## The whole pass -/

section

variable (regular : p₀.Regular) (once : p₀.UsedOnce) (inScope : p₀.InScope)
include regular once inScope

/-- Visits to statements that are clear of each other make values of what
is asked for as seen from the end. -/
theorem Analysis.Chosen.visits {ss : List StmtId} (h : a.Chosen source p₀ expects) (nodup : ss.Nodup)
    (clear : ss.Pairwise fun s s' => p₀.declaresFunction s = true ∨ p₀.Clear s s')
    (self : ∀ s ∈ ss, p₀.declaresFunction s = true ∨ p₀.Clear s s)
    (hp : Program.Pruned p₀ a.program) (run : ss.foldlM (visit source p₀) a = .ok a')
    (hints : ∀ s ∈ ss, ∀ e expected t, .value e expected ∈ p₀.tasks s →
      expected.map a'.program.typeFrom = some (.enum t) → expects e t) :
    a'.Chosen source p₀ expects := by
  rw [foldlM_visit] at run
  refine Chosen.tasks once regular.operands.older hp (fun x hx => ?_)
    (regular.pairwise_agenda once inScope nodup clear self) run (fun e expected t hx heq => ?_) h
  · obtain ⟨s, -, hx⟩ := List.mem_flatMap.1 hx
    exact Program.proper_of_mem_tasks regular.declarations once hx
  · obtain ⟨s, hs, hx⟩ := List.mem_flatMap.1 hx
    exact hints s hs e expected t hx heq

/-- **The type pass makes values of nothing but what asks for one.** What
is expected may be seen from the end, since nothing that it is read off
has changed by then. -/
theorem resolveTypes_chosen (held : p₀.OperandsHeld) {q : Queue} (isScoped : ∀ s, p₀.Scoped s)
    (fresh : ∀ e x, p₀.exprs.get? e = some x → x.flagged = false)
    (h : Analysis.resolveTypes ⟨p₀, q⟩ source = .ok a')
    (hints : ∀ s e expected t, .value e expected ∈ p₀.tasks s →
      expected.map a'.program.typeFrom = some (.enum t) → expects e t) :
    a'.Chosen source p₀ expects := by
  have hp : Program.Pruned p₀ p₀ := .refl held
  obtain ⟨_, b, c, went⟩ := resolveTypes_run (a := ⟨p₀, q⟩) regular once inScope hp isScoped fresh h
  obtain ⟨hall, L, done, -⟩ :=
    resolveTypes_done (a := ⟨p₀, q⟩) regular once inScope hp isScoped fresh h
  have hpb := went.visitedF.changes.pruned hp
  have hpc := went.changesG.pruned hpb
  obtain ⟨hnodupF, hnodupGR, -⟩ := List.nodup_append.1 (nodup_visited regular)
  obtain ⟨hnodupG, hnodupR, -⟩ := List.nodup_append.1 hnodupGR
  obtain ⟨hclear, hself⟩ := order_clear_top regular
  obtain ⟨L', b', c', run⟩ :=
    typeGlobals_run regular once hpb (direct_held regular) hnodupG went.fresh went.globals
  have hdeclares : ∀ s ∈ p₀.globals, p₀.declaresVariable s = true := fun s => declares_of_mem_globals
  -- there is no value in a function declaration
  have chosenB : b.Chosen source p₀ expects :=
    (Chosen.start q).visits regular once inScope hnodupF
      (List.pairwise_of_forall_mem_list fun s hs _ _ => .inl (declares_of_mem_functionsIn hs))
      (fun s hs => .inl (declares_of_mem_functionsIn hs)) hp went.functions
      fun s hs e expected t hx =>
        absurd rfl (not_value_of_declares regular (declares_of_mem_functionsIn hs) hx e expected)
  have chosenB' : b'.Chosen source p₀ expects := by
    refine foldlM_invariant (Chosen source p₀ expects) (fun s _ d d' hd hstep => ?_) chosenB run.declared
    obtain ⟨⟨g, d''⟩, hdeclare, hd'⟩ := bind_eq_ok.1 hstep
    cases pure_eq_ok.1 hd'
    exact hd.declareGlobal s _ hdeclare
  obtain ⟨-, begun⟩ := declareAll_done regular once hpb hnodupG hdeclares went.fresh run.declared
  have hintsB' : b'.Hints p₀ expects := by
    refine Hints.of_begun begun fun s _ type e t hname hvalue named => ?_
    refine hints s e _ t hvalue (congrArg some ?_)
    have hname' : .name type ∈ a'.program.tasks s := by rwa [Program.tasks_congr done.pruned.frame]
    exact (done.name hname').named_eq.trans (hall.matured.named (chosenB'.named named))
  obtain ⟨⟨chosenC', hintsC'⟩, -⟩ := chosenB'.settleRounds regular _ hintsB'
    (fun g hg => by
      obtain ⟨s, hs, rfl⟩ := List.mem_map.1 hg
      exact ⟨s, hs, rfl⟩) _ run.rounds
  obtain ⟨chosenC, -⟩ : c.Chosen source p₀ expects ∧ c.Hints p₀ expects := by
    refine foldlM_invariant (fun d => d.Chosen source p₀ expects ∧ d.Hints p₀ expects)
      (fun g hg d d' hd hstep => ?_) ⟨chosenC', hintsC'⟩ run.cycles
    obtain ⟨s, hs, rfl⟩ := List.mem_map.1 hg
    exact hd.1.reportCycle regular hd.2 (run.done.sub.subset hs) _ hstep
  exact chosenC.visits regular once inScope hnodupR hclear hself hpc went.others
    fun s _ => hints s

end

end FrontEnd
