import FrontEnd.Proofs.Flags
import FrontEnd.Proofs.TypeWalk
/-!
# FrontEnd — one top-level variable

A top-level variable waits until all that its initializer reads is
settled (`Waiting`). Then it is typed like any other variable, and gets
the next order after what it reads (`Settled`).
-/

namespace FrontEnd

/-- What waits for a statement that declares a variable. -/
def Program.globalOf (p : Program) (s : StmtId) : Global :=
  match p.stmts.get? s with
  | some ⟨.variable v type init, _⟩ => ⟨v, type.isSome, init⟩
  | _ => ⟨⟨0⟩, false, none⟩

/-- The type that a statement declares a variable with, if it does. -/
def Program.declaredFrom (p : Program) (s : StmtId) : Origin :=
  match p.stmts.get? s with
  | some ⟨.variable _ (some type) _, _⟩ => .recorded type
  | _ => .always .unset

/-- The greatest order that the initializer reads. -/
def Global.Reads (g : Global) (p : Program) (found : Option Nat) : Prop :=
  match g.init with
  | some e => p.OrderRead e found
  | none => found = some 0

/-- The variable of the statement is not settled yet. -/
structure Analysis.Waiting (p₀ : Program) (a : Analysis) (s : StmtId) : Prop where
  named : ∀ e, .name e ∈ p₀.tasks s → a.TypeDone e
  var : ∃ r, a.program.vars.get? (p₀.globalOf s).id = some r ∧ r.order = 0 ∧
    r.type = a.program.typeFrom (p₀.declaredFrom s)

/-- The variable of the statement has its type, and its order is the next
after all that its initializer reads. -/
structure Analysis.Settled (source : String) (p₀ : Program) (a : Analysis) (s : StmtId) : Prop where
  tasks : ∀ x ∈ p₀.tasks s, a.TaskDone source x
  order : ∃ r n, a.program.vars.get? (p₀.globalOf s).id = some r ∧ r.order = n + 1 ∧
    (p₀.globalOf s).Reads a.program (some n)

open Analysis

variable {source : String} {p₀ p : Program} {a a' b : Analysis} {s s' : StmtId} {x : Task}
variable {v : VariableId} {typeExpr init : Option ExprId} {span : Span} {found : Option Nat}

theorem mem_variable_tasks : x ∈ (StmtKind.variable v typeExpr init).tasks ↔
    (∃ e, typeExpr = some e ∧ x = .name e) ∨
      (∃ e, init = some e ∧ x = .value e (typeExpr.map .recorded)) ∨
      x = .give (.variable v) ((typeExpr <|> init).elim (.always .error) .recorded) := by
  cases typeExpr <;> cases init <;> simp [StmtKind.tasks]

theorem Program.exists_of_declaresVariable (h : p.declaresVariable s = true) :
    ∃ v typeExpr init span, p.stmts.get? s = some ⟨.variable v typeExpr init, span⟩ := by
  unfold declaresVariable at h
  split at h
  · next v typeExpr init span hs => exact ⟨v, typeExpr, init, span, hs⟩
  · cases h

section

variable (hs : p₀.stmts.get? s = some ⟨.variable v typeExpr init, span⟩)

include hs

theorem globalOf_eq : p₀.globalOf s = ⟨v, typeExpr.isSome, init⟩ := by
  simp only [Program.globalOf, hs]

theorem declaredFrom_eq : p₀.declaredFrom s = typeExpr.elim (.always .unset) .recorded := by
  simp only [Program.declaredFrom, hs]
  cases typeExpr <;> rfl

theorem mem_global_tasks : x ∈ p₀.tasks s ↔
    (∃ e, typeExpr = some e ∧ x = .name e) ∨
      (∃ e, init = some e ∧ x = .value e (typeExpr.map .recorded)) ∨
      x = .give (.variable v) ((typeExpr <|> init).elim (.always .error) .recorded) := by
  rw [Program.tasks_eq hs (by simp)]
  exact mem_variable_tasks

/-- The declared type is all that is read as a type. -/
theorem name_mem_tasks {e : ExprId} : .name e ∈ p₀.tasks s ↔ typeExpr = some e := by
  rw [mem_global_tasks hs]
  simp [eq_comm]

/-- The initializer is all that is typed as a value, with the declared type
as its hint. -/
theorem value_mem_tasks {e : ExprId} {expected : Option Origin} :
    .value e expected ∈ p₀.tasks s ↔ init = some e ∧ expected = typeExpr.map .recorded := by
  rw [mem_global_tasks hs]
  simp [eq_comm]

/-- The variable is all that is given a type: the declared one, or that of
the initializer. -/
theorem give_mem_tasks {t : Target} {origin : Origin} :
    .give t origin ∈ p₀.tasks s ↔
      t = .variable v ∧ origin = (typeExpr <|> init).elim (.always .error) .recorded := by
  rw [mem_global_tasks hs]
  simp

theorem declaredFrom_name {e : ExprId} (he : (p₀.declaredFrom s).expr? = some e) :
    .name e ∈ p₀.tasks s := by
  rw [declaredFrom_eq hs] at he
  rw [name_mem_tasks hs]
  cases typeExpr with
  | none => cases he
  | some c => exact he

end

/-! ## What is found out stays -/

variable {region : ExprId → Prop} {targets : Target → Prop}

theorem Analysis.Waiting.changes (w : a.Waiting p₀ s) (hs : p₀.declaresVariable s = true)
    (h : Changes region targets a a') (hname : ∀ e, .name e ∈ p₀.tasks s → ¬ region e)
    (ht : ¬ targets (.variable (p₀.globalOf s).id)) : a'.Waiting p₀ s := by
  obtain ⟨v, typeExpr, init, span, hs⟩ := Program.exists_of_declaresVariable hs
  obtain ⟨r, hv, ho, htype⟩ := w.var
  refine ⟨fun e he => (w.named e he).changes h (hname e he), r, (h.vars _ ht).trans hv, ho, ?_⟩
  · rw [h.typeFrom fun e he => hname e (declaredFrom_name hs he)]
    exact htype

theorem Global.Reads.changes {g : Global} (reads : g.Reads a.program found)
    (h : Changes region targets a a') (held : a.program.OperandsHeld)
    (ht : ∀ e, g.init = some e → ∀ t, a.program.Mentions e t → ¬ targets t) :
    g.Reads a'.program found := by
  obtain ⟨id, declared, init⟩ := g
  cases init with
  | none => exact reads
  | some e => exact h.orderRead held reads fun v hv => ht e rfl _ hv

theorem Global.Reads.flags {g : Global} (reads : g.Reads a.program found) (h : Flags a a') :
    g.Reads a'.program found := by
  obtain ⟨id, declared, init⟩ := g
  cases init with
  | none => exact reads
  | some e => exact h.orderRead reads

theorem Analysis.Settled.changes (settled : a.Settled source p₀ s) (hs : p₀.declaresVariable s = true)
    (hp : Program.Pruned p₀ a.program) (h : Changes region targets a a')
    (hr : ∀ x ∈ p₀.tasks s, ∀ e, x.Reads p₀ e → ¬ region e)
    (ht : ∀ x ∈ p₀.tasks s, ∀ t, x.Concerns a.program t → ¬ targets t) :
    a'.Settled source p₀ s := by
  obtain ⟨v, typeExpr, init, span, hs⟩ := Program.exists_of_declaresVariable hs
  obtain ⟨r, n, hv, ho, reads⟩ := settled.order
  refine ⟨fun x hx => ?_, r, n, ?_, ho, ?_⟩
  · exact (settled.tasks x hx).changes h hp.held (fun e he => hr x hx e (he.pruned hp)) (ht x hx)
  · rw [globalOf_eq hs] at hv ⊢
    rw [h.vars v (ht _ ((give_mem_tasks hs).2 ⟨rfl, rfl⟩) _ rfl)]
    exact hv
  · refine reads.changes h hp.held fun e he => ?_
    rw [globalOf_eq hs] at he
    exact ht _ ((value_mem_tasks hs).2 ⟨he, rfl⟩)

/-- A variable reads one order. -/
theorem Global.Reads.unique {g : Global} {found' : Option Nat} (h : g.Reads p found)
    (h' : g.Reads p found') : found' = found := by
  obtain ⟨id, declared, init⟩ := g
  cases init with
  | none => exact Eq.trans h' h.symm
  | some e => exact Program.OrderRead.unique h h'

/-- A settled variable has the type that it declares, or that of its
initializer. -/
theorem Analysis.Settled.type_eq (settled : a.Settled source p₀ s)
    (hs : p₀.stmts.get? s = some ⟨.variable v typeExpr init, span⟩) {r : Variable}
    (hr : a.program.vars.get? v = some r) :
    r.type = a.program.typeFrom ((typeExpr <|> init).elim (.always .error) .recorded) := by
  obtain ⟨r', hr', htype⟩ := Program.typeAt_variable (settled.tasks _ ((give_mem_tasks hs).2 ⟨rfl, rfl⟩))
  rw [Table.get_eq_ok, hr] at hr'
  rwa [Option.some.inj hr']

/-! ## Settling a variable -/

variable (regular : p₀.Regular) (once : p₀.UsedOnce)

include regular once

/-- The types in the initializer of a variable that waits are recorded
as if the variable were not a top-level one. -/
theorem typeInit_done (hs : p₀.stmts.get? s = some ⟨.variable v typeExpr init, span⟩)
    (hp : Program.Pruned p₀ a.program) (w : a.Waiting p₀ s) {expected inferred : Option Ty}
    (hexpected : (p₀.globalOf s).expected a.program = .ok expected)
    (h : typeExpr? source expected a init = .ok (inferred, b)) :
    Changes (fun e => ∃ c, init = some c ∧ p₀.Under c e) (fun _ => False) a b ∧
      inferred = init.map b.program.recorded ∧
      (∀ e expected, .value e expected ∈ p₀.tasks s → b.TaskDone source (.value e expected)) ∧
      ∀ e expected, .value e expected ∈ p₀.tasks s → Task.Fresh p₀ a (.value e expected) →
        b.TaskHeard (.value e expected) := by
  have hhint : expected = (typeExpr.map .recorded).map a.program.typeFrom := by
    obtain ⟨r, hv, -, htype⟩ := w.var
    rw [globalOf_eq hs] at hexpected hv
    rw [declaredFrom_eq hs] at htype
    cases typeExpr with
    | none => exact (pure_eq_ok.1 hexpected).symm
    | some c =>
      simp only [Global.expected, Option.isSome_some, if_true, Table.get_eq_ok.2 hv, ok_bind] at hexpected
      rw [← pure_eq_ok.1 hexpected, htype]
      rfl
  cases init with
  | none =>
    cases pure_eq_ok.1 h
    refine ⟨.refl a, rfl, fun e expected hx => ?_, fun e expected hx => ?_⟩
    · cases ((value_mem_tasks hs).1 hx).1
    · cases ((value_mem_tasks hs).1 hx).1
  | some c =>
    obtain ⟨⟨type, b'⟩, htyped, h⟩ := bind_eq_ok.1 h
    obtain ⟨hinferred, hb⟩ := Prod.mk.inj (pure_eq_ok.1 h)
    obtain rfl : b' = b := hb
    have hmem : .value c (typeExpr.map .recorded) ∈ p₀.tasks s :=
      (value_mem_tasks hs).2 ⟨rfl, rfl⟩
    have hrun : runTask source a (.value c (typeExpr.map .recorded)) = .ok b' := by
      simp only [runTask, ← hhint, htyped, ok_bind]
      rfl
    obtain ⟨hchanges, hdone, hheard⟩ := runTask_done once regular.operands.older hp
      (Program.proper_of_mem_tasks regular.declarations once hmem) hrun
    obtain ⟨y, hy, rfl⟩ := held_of_typeExprWithin htyped
    refine ⟨hchanges.mono (fun e he => ⟨c, rfl, he⟩) (fun _ ht => ht), ?_, fun e expected hx => ?_,
      fun e expected hx => ?_⟩
    · rw [← hinferred, Option.map_some, Program.recorded, hy]
    · obtain ⟨⟨⟩, rfl⟩ := (value_mem_tasks hs).1 hx
      exact hdone
    · obtain ⟨⟨⟩, rfl⟩ := (value_mem_tasks hs).1 hx
      exact hheard

/-- The declared type is no part of the initializer. -/
theorem not_under_init (hs : p₀.stmts.get? s = some ⟨.variable v typeExpr init, span⟩) {e : ExprId}
    (hname : .name e ∈ p₀.tasks s) : ¬ ∃ c, init = some c ∧ p₀.Under c e := by
  rintro ⟨c, hc, hu⟩
  have proper := Program.proper_of_mem_tasks regular.declarations once
    ((value_mem_tasks hs).2 ⟨hc, rfl⟩)
  refine proper (.recorded e) ?_ e rfl hu
  rw [(name_mem_tasks hs).1 hname]
  rfl

/-- **A variable that waits for nothing more is settled.** -/
theorem settle_done (hs : p₀.stmts.get? s = some ⟨.variable v typeExpr init, span⟩)
    (hp : Program.Pruned p₀ a.program) (w : a.Waiting p₀ s) {n : Nat}
    (reads : (p₀.globalOf s).Reads a.program (some n))
    (h : settle source a (p₀.globalOf s) (n + 1) = .ok a') :
    Changes (fun e => ∃ c, init = some c ∧ p₀.Under c e) (· = .variable v) a a' ∧
      a'.Settled source p₀ s ∧
      ((∀ e, .name e ∈ p₀.tasks s → a.TypeHeard e) →
        (∀ e expected, .value e expected ∈ p₀.tasks s → Task.Fresh p₀ a (.value e expected)) →
        ∀ x ∈ p₀.tasks s, a'.TaskHeard x) := by
  obtain ⟨expected, hexpected, h⟩ := bind_eq_ok.1 h
  obtain ⟨⟨inferred, b⟩, htyped, h⟩ := bind_eq_ok.1 h
  obtain ⟨vars, hvars, h⟩ := bind_eq_ok.1 h
  have ha' := pure_eq_ok.1 h
  obtain ⟨r, hr, ho, htype⟩ := w.var
  have hg := globalOf_eq hs
  rw [show (p₀.globalOf s).init = init by rw [hg]] at htyped
  obtain ⟨hchanges, hinferred, hvalue, hheard⟩ :=
    typeInit_done regular once hs hp w hexpected htyped
  have hpb := hchanges.pruned hp
  rw [hg] at hr hvars
  obtain ⟨hlast, r', hr', hnew⟩ := Changes.update_var hvars fun _ => rfl
  rw [hchanges.vars v fun h => h, hr] at hr'
  obtain rfl := Option.some.inj hr'
  rw [show (⟨{ b.program with vars }, b.queue⟩ : Analysis) = a' from ha'] at hlast
  rw [show vars = a'.program.vars by rw [← ha']] at hnew
  -- the variable has no order yet, so its initializer does not read it
  have hnot : ∀ c, init = some c → ¬ a.program.Mentions c (.variable v) := by
    intro c hc hm
    simp only [hg, Global.Reads, hc] at reads
    obtain ⟨r', hr', hpos, -⟩ := reads.1 v hm
    rw [hr] at hr'
    rw [← Option.some.inj hr'] at hpos
    omega
  have hall : Changes (fun e => ∃ c, init = some c ∧ p₀.Under c e) (· = .variable v) a a' :=
    (hchanges.mono (fun _ he => he) fun _ ht => ht.elim).trans
      (hlast.mono (fun _ he => he.elim) fun _ ht => ht)
  have hname : ∀ e, .name e ∈ p₀.tasks s → ¬ ∃ c, init = some c ∧ p₀.Under c e :=
    fun _ => not_under_init regular once hs
  have hreads : (p₀.globalOf s).Reads a'.program (some n) := by
    refine reads.changes hall hp.held fun c hc t ht htv => ?_
    rw [hg] at hc
    exact hnot c hc (htv ▸ ht)
  rw [← show (p₀.globalOf s).id = v by rw [hg]] at hnew
  refine ⟨hall, ⟨fun x hx => ?_, ⟨_, n, hnew, rfl, hreads⟩⟩, fun named fresh x hx => ?_⟩
  · cases x with
    | name e => exact (w.named e hx).changes hall (hname e hx)
    | value e expected =>
      refine (hvalue e expected hx).changes hlast hpb.held (fun _ _ hf => hf) fun t ht htv => ?_
      exact hnot e ((value_mem_tasks hs).1 hx).1 (htv ▸ hchanges.mentions hp.held ht)
    | give t origin =>
      obtain ⟨rfl, rfl⟩ := (give_mem_tasks hs).1 hx
      rw [hg] at hnew
      simp only [TaskDone, Program.typeAt, Table.get_eq_ok.2 hnew, ok_bind]
      refine congrArg Except.ok ?_
      cases typeExpr with
      | some e =>
        rw [declaredFrom_eq hs] at htype
        have hsame := hall.recorded (hname e ((name_mem_tasks hs).2 rfl))
        exact htype.trans hsame.symm
      | none =>
        rw [hinferred]
        cases init with
        | none => rfl
        | some c => exact (hlast.recorded fun h => h).symm
  · cases x with
    | name e => exact (named e hx).changes hall (hname e hx)
    | value e expected =>
      exact (hheard e expected hx (fresh e expected hx)).changes hlast hpb.held fun _ _ hf => hf
    | give t origin => trivial

end FrontEnd
