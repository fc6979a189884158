import FrontEnd.Proofs.Changes
import Mathlib.Logic.Relation
/-!
# FrontEnd — what the type pass and the check write

Whatever the type pass does to an analysis, it makes values of names,
records types, reports, and gives declarations their types and variables
their order (`TypeEdit`); and of these the check does nothing but report.
There is one lemma for each function of the passes. What an edit leaves
of the program is `TypeEdit.matured`.
-/

namespace FrontEnd

open Relation

/-- The variable is declared by a statement. -/
def Global.From (p : Program) (g : Global) : Prop :=
  ∃ s type span, p.stmts.get? s = some ⟨.variable g.id type g.init, span⟩ ∧ g.declared = type.isSome

namespace Analysis

/-- Nothing has been reported. -/
structure Clean (a : Analysis) : Prop where
  diagnostics : a.queue.diagnostics = []
  unflagged : ∀ e x, a.program.exprs.get? e = some x → x.flagged = false

/-- An expression names the type, unless something has been reported. -/
def Names (a : Analysis) (type : Ty) : Prop :=
  (∃ e x, a.program.exprs.get? e = some x ∧ x.kind = .typeName type) ∨ ¬ a.Clean

/-- One thing that the type pass does. -/
inductive TypeEdit (source : String) (a : Analysis) : Analysis → Prop
  /-- A name or a field becomes a value of an enum type that has it. -/
  | value {e : ExprId} {x : Expr} {t : EnumTypeId} {name : Span} {v : EnumValueId}
      (hx : a.program.exprs.get? e = some x) (isOpen : x.kind.isOpen = true)
      (found : a.program.findEnumValue source t name = .ok (some v)) :
      TypeEdit source a { a with program := a.program.setKind e (.enumValue v) }
  | record (e : ExprId) (type : Ty) :
      TypeEdit source a { a with program := a.program.setExprType e type }
  | report {e : ExprId} {d : Diagnostic} {b : Analysis} (code : d.code ≠ .noMain)
      (made : a.report e d = .ok b) : TypeEdit source a b
  | result {f : FunctionId} {type : Ty} {functions : Table .function Function}
      (named : type = .none ∨ a.Names type)
      (written : a.program.functions.update f ({ · with returnType := type }) = .ok functions) :
      TypeEdit source a { a with program := { a.program with functions } }
  | parameter {i : ParameterId} {r : Parameter} {type : Ty} {parameters : Table .parameter Parameter}
      (hr : a.program.parameters.get? i = some r) (named : ∀ e, r.typeExpr = some e → a.Names type)
      (written : a.program.parameters.update i ({ · with type }) = .ok parameters) :
      TypeEdit source a { a with program := { a.program with parameters } }
  /-- A variable that is declared with a type gets the type that is named. -/
  | declared {s : StmtId} {v : VariableId} {e : ExprId} {init : Option ExprId} {span : Span} {type : Ty}
      {change : Variable → Variable} {vars : Table .variable Variable}
      (hs : a.program.stmts.get? s = some ⟨.variable v (some e) init, span⟩) (named : a.Names type)
      (written : a.program.vars.update v change = .ok vars)
      (gives : ∀ r, (change r).type = type ∧ (change r).name = r.name) :
      TypeEdit source a { a with program := { a.program with vars } }
  /-- A variable that is declared without a type gets any. -/
  | inferred {s : StmtId} {v : VariableId} {init : Option ExprId} {span : Span}
      {change : Variable → Variable} {vars : Table .variable Variable}
      (hs : a.program.stmts.get? s = some ⟨.variable v none init, span⟩)
      (written : a.program.vars.update v change = .ok vars)
      (keeps : ∀ r, (change r).name = r.name) :
      TypeEdit source a { a with program := { a.program with vars } }
  | iterator {s : StmtId} {v : VariableId} {e : ExprId} {body : Block} {span : Span} {x : Expr}
      {vars : Table .variable Variable}
      (hs : a.program.stmts.get? s = some ⟨.nest (.forEach v e) body, span⟩)
      (hx : a.program.exprs.get? e = some x)
      (written : a.program.vars.update v ({ · with type := iteratorType x.kind }) = .ok vars) :
      TypeEdit source a { a with program := { a.program with vars } }
  | order {v : VariableId} {n : Nat} {vars : Table .variable Variable}
      (written : a.program.vars.update v ({ · with order := n }) = .ok vars) :
      TypeEdit source a { a with program := { a.program with vars } }

/-- What the type pass does, one edit after the other. -/
abbrev TypeEdits (source : String) : Analysis → Analysis → Prop := ReflTransGen (TypeEdit source)

end Analysis

open Analysis

variable {source : String} {a₀ a b : Analysis} {e : ExprId} {d : Diagnostic} {code : Code} {type : Ty}

/-! ## What is clean -/

theorem Queue.refuses_of_nil {q : Queue} (h : q.diagnostics = []) : q.refuses d = false := by
  have hsize : q.size = 0 := by simp [Queue.size, h]
  have hlimit : q.limitReached = false := by
    rw [Queue.limitReached, hsize, Bool.and_eq_false_iff, decide_eq_false_iff_not,
      decide_eq_false_iff_not]
    omega
  simp [refuses, hlimit, Queue.holds, h]

/-- Where nothing has been reported, no report is kept quiet. -/
theorem Analysis.Clean.not_quiet (clean : a.Clean) : ¬ a.Quiet e d := by
  rintro (⟨x, hx, hf⟩ | hr)
  · rw [clean.unflagged e x hx] at hf
    cases hf
  · rw [Queue.refuses_of_nil clean.diagnostics] at hr
    cases hr

theorem Analysis.not_clean_of_report (h : a.report e d = .ok b) : ¬ b.Clean := by
  obtain ⟨-, -, -, hquiet, -⟩ := report_eq_ok h
  exact fun clean => clean.not_quiet hquiet

theorem Analysis.not_clean_of_raiseAt (h : a.raiseAt code e = .ok b) : ¬ b.Clean := by
  obtain ⟨x, -, h⟩ := bind_eq_ok.1 h
  exact not_clean_of_report h

namespace Matured

variable (h : Matured a b)

include h

/-- What is clean has been so from the start. -/
theorem clean (clean : b.Clean) : a.Clean where
  diagnostics := List.prefix_nil.1 (clean.diagnostics ▸ h.queue.diagnostics)
  unflagged e x hx := by
    obtain ⟨x', hx', hm⟩ := h.exprs e x hx
    by_contra hf
    rw [Bool.not_eq_false] at hf
    have := clean.unflagged e x' hx'
    rw [hm.flagged hf] at this
    cases this

/-- A type that is named stays named. -/
theorem names (named : a.Names type) : b.Names type := by
  rcases named with ⟨e, x, hx, hk⟩ | hclean
  · obtain ⟨x', hx', hm⟩ := h.exprs e x hx
    exact .inl ⟨e, x', hx', (hm.kind_eq (by rw [hk]; rfl)).trans hk⟩
  · exact .inr fun clean => hclean (h.clean clean)

/-- A variable stays the one that a statement declares. -/
theorem global {g : Global} (from₀ : g.From a.program) : g.From b.program := by
  obtain ⟨s, type, span, hs, hdeclared⟩ := from₀
  exact ⟨s, type, span, h.stmts ▸ hs, hdeclared⟩

/-- A parameter keeps its type expression. -/
theorem parameter {i : ParameterId} {r : Parameter} (hr : b.program.parameters.get? i = some r) :
    ∃ r₀, a.program.parameters.get? i = some r₀ ∧ r.typeExpr = r₀.typeExpr := by
  obtain ⟨r₀, hr₀, heq⟩ := Table.exists_of_map_eq (congrArg Program.parameters h.rest).symm hr
  exact ⟨r₀, hr₀, (congrArg Parameter.typeExpr heq.symm :)⟩

end Matured

/-! ## Single edits -/

/-- To change an expression in its kind or its type leaves the rest. -/
theorem matured_of_modify {f : Expr → Expr}
    (hf : ∀ x, a.program.exprs.get? e = some x → x.Matures (f x)) :
    Matured a { a with program := { a.program with exprs := a.program.exprs.modify e f } } where
  exprs c x hx := by
    simp only [Table.get?_modify]
    split
    · next hc => exact ⟨f x, by rw [hx]; rfl, hf x (hc ▸ hx)⟩
    · exact ⟨x, hx, .refl x⟩
  size := Table.size_modify ..
  rest := rfl
  queue := .refl _

/-- To change what the type pass writes into declarations leaves the rest. -/
theorem matured_of_untyped {p : Program} (hexprs : p.exprs = a.program.exprs)
    (h : p.untyped = a.program.untyped) : Matured a { a with program := p } where
  exprs e x hx := ⟨x, hexprs ▸ hx, .refl x⟩
  size := by rw [hexprs]
  rest := h
  queue := .refl _

theorem matured_of_vars {v : VariableId} {change : Variable → Variable} {vars : Table .variable Variable}
    (written : a.program.vars.update v change = .ok vars) (keeps : ∀ r, (change r).name = r.name) :
    Matured a { a with program := { a.program with vars } } := by
  refine matured_of_untyped rfl ?_
  simp only [Program.untyped, Table.map_update (f := Variable.frame) written fun r => by
    simp only [Variable.frame, keeps]]

/-- **What an edit leaves of the program.** -/
theorem Analysis.TypeEdit.matured (h : TypeEdit source a b) : Matured a b := by
  cases h with
  | value hx isOpen found =>
    refine matured_of_modify fun y hy => ⟨rfl, id, .inr ⟨?_, _, rfl⟩⟩
    rw [hx] at hy
    exact Option.some.inj hy ▸ isOpen
  | record e type => exact matured_of_modify fun _ _ => ⟨rfl, id, .inl rfl⟩
  | report code made =>
    obtain ⟨x, -, hgrows, -, hprogram⟩ := report_eq_ok made
    rcases hprogram with hsame | ⟨-, hflag, -⟩
    · exact ⟨fun e x hx => ⟨x, hsame ▸ hx, .refl x⟩, by rw [hsame], by rw [hsame], hgrows⟩
    · obtain ⟨hexprs, hsize, hrest, -⟩ := matured_of_modify (a := a) (f := fun x : Expr => { x with flagged := true })
        fun _ _ => ⟨rfl, fun _ => rfl, .inl rfl⟩
      exact ⟨by rw [hflag]; exact hexprs, by rw [hflag]; exact hsize, by rw [hflag]; exact hrest, hgrows⟩
  | result _ written =>
    refine matured_of_untyped rfl ?_
    simp only [Program.untyped, Table.map_update (f := fun f : Function => { f with returnType := .unset })
      written fun _ => rfl]
  | parameter _ _ written =>
    refine matured_of_untyped rfl ?_
    simp only [Program.untyped, Table.map_update (f := Parameter.frame) written fun _ => rfl]
  | declared _ _ written gives => exact matured_of_vars written fun r => (gives r).2
  | inferred _ written keeps => exact matured_of_vars written keeps
  | iterator _ _ written => exact matured_of_vars written fun _ => rfl
  | order written => exact matured_of_vars written fun _ => rfl

/-- A node that becomes a value becomes one that there is. -/
theorem Analysis.TypeEdit.kind {x x' : Expr} (edit : TypeEdit source a b)
    (hx : a.program.exprs.get? e = some x) (hx' : b.program.exprs.get? e = some x') :
    x'.kind = x.kind ∨ x.kind.isOpen = true ∧ ∃ t name v,
      x'.kind = .enumValue v ∧ a.program.findEnumValue source t name = .ok (some v) := by
  have modified : ∀ {c f}, (a.program.exprs.modify c f).get? e = some x' →
      c = e ∧ x' = f x ∨ x' = x := by
    intro c f h
    rw [Table.get?_modify, hx] at h
    split at h
    · next heq => exact .inl ⟨heq.symm, (Option.some.inj h).symm⟩
    · exact .inr (Option.some.inj h).symm
  cases edit with
  | @value c y t name v hy isOpen found =>
    obtain ⟨rfl, rfl⟩ | rfl := modified hx'
    · rw [hx] at hy
      cases hy
      exact .inr ⟨isOpen, t, name, v, rfl, found⟩
    · exact .inl rfl
  | record c type =>
    obtain ⟨-, rfl⟩ | rfl := modified hx'
    · exact .inl rfl
    · exact .inl rfl
  | report code made =>
    obtain ⟨-, -, -, -, hsame | ⟨-, hflag, -⟩⟩ := report_eq_ok made
    · rw [hsame, hx] at hx'
      exact .inl (congrArg Expr.kind (Option.some.inj hx').symm)
    · rw [hflag] at hx'
      obtain ⟨-, rfl⟩ | rfl := modified hx'
      · exact .inl rfl
      · exact .inl rfl
  | result | parameter | declared | inferred | iterator | order =>
    exact .inl (congrArg Expr.kind (Option.some.inj (hx.symm.trans hx')).symm)

theorem Analysis.TypeEdits.matured (h : TypeEdits source a b) : Matured a b := by
  induction h with
  | refl => exact .refl _
  | tail _ edit ih => exact ih.trans edit.matured

namespace Analysis.TypeEdits

variable (h : TypeEdits source a₀ a)

include h

/-! ## Reports -/

theorem report (hcode : d.code ≠ .noMain) : Keeps (TypeEdits source a₀) (a.report e d) :=
  fun _ made => h.tail (.report hcode made)

theorem raiseAt (hcode : code ≠ .noMain) (e : ExprId) :
    Keeps (TypeEdits source a₀) (a.raiseAt code e) :=
  .read fun _ _ => h.report hcode

/-! ## Types of expressions -/

theorem nameEnumValue (expected : Option Ty) (e : ExprId) :
    Keeps (TypeEdits source a₀) (a.nameEnumValue source expected e) := by
  refine .read fun x hx => ?_
  rw [Table.get_eq_ok] at hx
  split
  · next hk =>
    refine .read fun found hfound => ?_
    cases found with
    | none => exact .pure h
    | some v => exact .pure (h.tail (.value hx (by rw [hk]; rfl) hfound))
  · next hk =>
    refine .read fun y _ => ?_
    split
    · refine .read fun found hfound => ?_
      cases found with
      | none => exact h.raiseAt (by decide) e
      | some v => exact .pure (h.tail (.value hx (by rw [hk]; rfl) hfound))
    · exact .pure h
  · exact .pure h

theorem typeExprWithin (fuel : Nat) (expected : Option Ty) (e : ExprId) :
    Keeps (fun r => TypeEdits source a₀ r.2) (typeExprWithin source fuel expected a e) := by
  induction fuel generalizing expected a e with
  | zero => exact .error
  | succ fuel ih =>
    refine .read fun x _ => .read fun es _ => .bind (.foldlM (fun o _ b h => ?_) h) fun b h => ?_
    · exact (ih h none o).bind fun r h => .pure h
    · exact (nameEnumValue h expected e).bind fun c h => .read fun type _ =>
        .pure (h.tail (.record e type))

theorem typeExpr (expected : Option Ty) (e : ExprId) :
    Keeps (fun r => TypeEdits source a₀ r.2) (typeExpr source expected a e) :=
  typeExprWithin h _ expected e

theorem typeExpr? (expected : Option Ty) (o : Option ExprId) :
    Keeps (fun r => TypeEdits source a₀ r.2) (typeExpr? source expected a o) := by
  cases o with
  | none => exact .pure h
  | some e => exact (typeExpr h expected e).bind fun r h => .pure h

theorem typeNamed (e : ExprId) :
    Keeps (fun r => TypeEdits source a₀ r.2 ∧ r.2.Names r.1) (a.typeNamed e) := by
  have named : ∀ {b : Analysis} {type : Ty}, TypeEdits source a₀ b → b.Names type →
      Keeps (fun r => TypeEdits source a₀ r.2 ∧ r.2.Names r.1)
        (pure (type, { b with program := b.program.setExprType e type }) :
          Except Fault (Ty × Analysis)) := fun {b type} h hn =>
    have recorded : TypeEdit source b _ := .record e type
    .pure ⟨h.tail recorded, recorded.matured.names hn⟩
  refine .read fun x hx => ?_
  cases hk : x.kind with
  | typeName type => exact named h (.inl ⟨e, x, Table.get_eq_ok.1 hx, hk⟩)
  | _ =>
    refine Keeps.bind (P := fun b => TypeEdits source a₀ b ∧ ¬ b.Clean)
      (fun b hb => ⟨h.raiseAt (by decide) e b hb, not_clean_of_raiseAt hb⟩) fun b h => ?_
    exact named h.1 (.inr h.2)

/-- What stands in the place of a type names the type, if something does. -/
theorem typeNamed? (o : Option ExprId) :
    Keeps (fun r => TypeEdits source a₀ r.2 ∧
      ((o = none ∧ r.1 = none) ∨ ∃ e type, o = some e ∧ r.1 = some type ∧ r.2.Names type))
      (a.typeNamed? o) := by
  cases o with
  | none => exact .pure ⟨h, .inl ⟨rfl, rfl⟩⟩
  | some e => exact (typeNamed h e).bind fun r h => .pure ⟨h.1, .inr ⟨e, r.1, rfl, rfl, h.2⟩⟩

/-! ## Signatures and top-level variables -/

omit h in
theorem typeParameter (a : Analysis) (i : ParameterId) :
    Keeps (TypeEdits source a) (a.typeParameter i) := by
  refine .read fun r₀ hr₀ => (typeNamed? (.refl : TypeEdits source a a) _).bind fun ⟨found, b⟩ ⟨h, hfound⟩ =>
    .read fun parameters written => .pure (h.tail ?_)
  obtain ⟨r, hr⟩ := Table.exists_get?_of_lt ((Table.update_eq_ok_iff _).1 written).1
  obtain ⟨r', hr', htype⟩ := h.matured.parameter hr
  rw [Table.get_eq_ok, hr'] at hr₀
  cases hr₀
  refine .parameter hr (fun e he => ?_) written
  rw [htype] at he
  obtain ⟨hnone, -⟩ | ⟨-, type, -, rfl, named⟩ := hfound
  · rw [hnone] at he
    cases he
  · exact named

theorem typeSignature (f : FunctionId) : Keeps (TypeEdits source a₀) (a.typeSignature f) := by
  refine .read fun r _ => (typeNamed? h _).bind fun ⟨found, b⟩ ⟨h, hfound⟩ => .read fun functions written => ?_
  have result : found.getD .none = .none ∨ b.Names (found.getD .none) := by
    obtain ⟨-, rfl⟩ | ⟨-, type, -, rfl, named⟩ := hfound
    · exact .inl rfl
    · exact .inr named
  exact .read fun l _ => .foldlM (fun i _ b h => (typeParameter b i.1).mono fun _ => h.trans)
    (h.tail (.result result written))

theorem typeSignatures (ss : List StmtId) : Keeps (TypeEdits source a₀) (a.typeSignatures ss) := by
  refine .foldlM (fun s _ b h => .read fun stmt _ => ?_) h
  split
  · exact typeSignature h _
  · exact .pure h

omit h in
theorem declareGlobal (a : Analysis) (s : StmtId) :
    Keeps (fun r => TypeEdits source a r.2 ∧ ∀ g ∈ r.1, g.From r.2.program) (a.declareGlobal s) := by
  refine .read fun stmt hs => ?_
  rw [Table.get_eq_ok] at hs
  obtain ⟨kind, span⟩ := stmt
  split
  · next v typeExpr init hk =>
    obtain rfl : kind = .variable v typeExpr init := hk
    refine (typeNamed? (.refl : TypeEdits source a a) typeExpr).bind fun ⟨found, b⟩ ⟨h, hfound⟩ =>
      .read fun vars written => .pure ⟨h.tail ?_, ?_⟩
    · have hsb := h.matured.stmts ▸ hs
      obtain ⟨rfl, rfl⟩ | ⟨e, type, rfl, rfl, named⟩ := hfound
      · exact .inferred hsb written fun _ => rfl
      · exact .declared hsb named written fun _ => ⟨rfl, rfl⟩
    · intro g hg
      cases hg
      exact ⟨s, typeExpr, span, h.matured.stmts ▸ hs, rfl⟩
  · exact .pure ⟨.refl, fun g hg => by cases hg⟩

omit h in
theorem declareGlobals (a : Analysis) (ss : List StmtId) :
    Keeps (fun r => TypeEdits source a r.2 ∧ ∀ g ∈ r.1, g.From r.2.program) (a.declareGlobals ss) := by
  induction ss generalizing a with
  | nil => exact .pure ⟨.refl, by simp⟩
  | cons s ss ih =>
    refine (declareGlobal a s).bind fun ⟨g, b⟩ ⟨h, hg⟩ => (ih b).bind fun ⟨G, c⟩ ⟨h', hG⟩ =>
      .pure ⟨h.trans h', fun g' hmem => ?_⟩
    rcases List.mem_append.1 hmem with hmem | hmem
    · exact h'.matured.global (hg g' (Option.mem_toList.1 hmem))
    · exact hG g' hmem

/-- A variable that has its type declared keeps it when it is settled. -/
theorem settle {g : Global} (declares : g.From a₀.program) (n : Nat) :
    Keeps (TypeEdits source a₀) (settle source a g n) := by
  obtain ⟨s, typeExpr, span, hs, hdeclared⟩ := declares
  refine .read fun _ _ => (typeExpr? h _ g.init).bind fun ⟨found, b⟩ h => .read fun vars written =>
    .pure (h.tail ?_)
  have hs := h.matured.stmts ▸ hs
  cases typeExpr with
  | none => exact .inferred hs written fun _ => rfl
  | some e =>
    simp only [hdeclared, Option.isSome_some, if_true] at written
    exact .order written

theorem settleRound {G : List Global} (declares : ∀ g ∈ G, g.From a₀.program) :
    Keeps (fun r => TypeEdits source a₀ r.2 ∧ ∀ g ∈ r.1, g.From a₀.program)
      (settleRound source a G) := by
  induction G generalizing a with
  | nil => exact .pure ⟨h, declares⟩
  | cons g G ih =>
    obtain ⟨hg, hG⟩ := List.forall_mem_cons.1 declares
    refine .read fun found _ => ?_
    cases found with
    | none => exact (ih h hG).bind fun r h => .pure ⟨h.1, List.forall_mem_cons.2 ⟨hg, h.2⟩⟩
    | some n => exact (settle h hg (n + 1)).bind fun b h => ih h hG

theorem settleRounds (rounds : Nat) {G : List Global} (declares : ∀ g ∈ G, g.From a₀.program) :
    Keeps (fun r => TypeEdits source a₀ r.2 ∧ ∀ g ∈ r.1, g.From a₀.program)
      (settleRounds source rounds a G) := by
  induction rounds generalizing a G with
  | zero => exact .pure ⟨h, declares⟩
  | succ rounds ih =>
    refine (settleRound h declares).bind fun r h => ?_
    dsimp only
    split
    · exact ih h.1 h.2
    · exact .pure h

theorem reportCycle {g : Global} (declares : g.From a₀.program) :
    Keeps (TypeEdits source a₀) (reportCycle source a g) := by
  obtain ⟨s, typeExpr, span, hs, hdeclared⟩ := declares
  refine .read fun expected _ => (typeExpr? h expected g.init).bind fun r h => ?_
  have last : ∀ b, TypeEdits source a₀ b → Keeps (TypeEdits source a₀) (if g.declared then pure b
      else do return { b with program := ← b.program.setVariableType g.id .error }) := by
    intro b h
    cases typeExpr with
    | some e => exact if_pos hdeclared ▸ .pure h
    | none =>
      rw [hdeclared, Option.isSome_none, if_neg Bool.false_ne_true]
      refine .read fun p hp => .pure ?_
      obtain ⟨vars, written, hp⟩ := bind_eq_ok.1 hp
      cases pure_eq_ok.1 hp
      exact h.tail (.inferred (h.matured.stmts ▸ hs) written fun _ => rfl)
  cases g.init with
  | none => exact last r.2 h
  | some e => exact (h.raiseAt (by decide) e).bind last

omit h in
/-- What is done to the top-level variables once they are declared. -/
theorem settleGlobals {G : List Global} (declares : ∀ g ∈ G, g.From a.program) :
    Keeps (TypeEdits source a) (do
      let (left, a) ← Analysis.settleRounds source G.length a G
      left.foldlM (Analysis.reportCycle source) a) :=
  (settleRounds (.refl : TypeEdits source a a) G.length declares).bind fun _ ⟨h, left⟩ =>
    .foldlM (fun g hg _ h => h.reportCycle (left g hg)) h

omit h in
theorem typeGlobals (a : Analysis) (ss : List StmtId) :
    Keeps (TypeEdits source a) (typeGlobals source a ss) :=
  (declareGlobals a ss).bind fun _ ⟨h, declares⟩ => (settleGlobals declares).mono fun _ => h.trans

/-! ## Statements -/

omit h in
theorem typeLeaf (a : Analysis) (s : StmtId) : Keeps (TypeEdits source a) (typeLeaf source a s) := by
  have value : ∀ {b : Analysis} expected e, TypeEdits source a b → Keeps (TypeEdits source a)
      (do return (← Analysis.typeExpr source expected b e).2) := fun expected e h =>
    (typeExpr h expected e).bind fun r h => .pure h
  refine .read fun stmt hs => ?_
  rw [Table.get_eq_ok] at hs
  obtain ⟨kind, span⟩ := stmt
  split
  · next v typeExpr init hk =>
    obtain rfl : kind = .variable v typeExpr init := hk
    refine (typeNamed? (.refl : TypeEdits source a a) typeExpr).bind fun ⟨found, b⟩ ⟨h, hfound⟩ => ?_
    refine (typeExpr? (.refl : TypeEdits source b b) found init).bind fun ⟨inferred, c⟩ h' => ?_
    have both : TypeEdits source a c := h.trans h'
    refine .read fun p hp => .pure (both.tail ?_)
    obtain ⟨vars, written, hp⟩ := bind_eq_ok.1 hp
    cases pure_eq_ok.1 hp
    have hs := both.matured.stmts ▸ hs
    obtain ⟨rfl, rfl⟩ | ⟨e, type, rfl, rfl, named⟩ := hfound
    · exact .inferred hs written fun _ => rfl
    · exact .declared hs (h'.matured.names named) written fun _ => ⟨rfl, rfl⟩
  · exact (typeExpr .refl none _).bind fun r h => value _ _ h
  · exact value _ _ .refl
  · exact value _ _ .refl
  · exact value _ _ .refl
  · exact .pure .refl

omit h in
theorem typeHead (a : Analysis) (s : StmtId) : Keeps (TypeEdits source a) (typeHead source a s) := by
  have condition : ∀ e, Keeps (TypeEdits source a)
      (do return (← Analysis.typeExpr source (some .bool) a e).2) :=
    fun e => (typeExpr .refl _ e).bind fun r h => .pure h
  refine .read fun stmt hs => ?_
  rw [Table.get_eq_ok] at hs
  obtain ⟨kind, span⟩ := stmt
  split
  · exact condition _
  · exact condition _
  · exact condition _
  · next v e body hk =>
    obtain rfl : kind = .nest (.forEach v e) body := hk
    refine (typeExpr (.refl : TypeEdits source a a) none e).bind fun r h => .read fun x hx =>
      .read fun p hp => .pure (h.tail ?_)
    obtain ⟨vars, written, hp⟩ := bind_eq_ok.1 hp
    cases pure_eq_ok.1 hp
    exact .iterator (h.matured.stmts ▸ hs) (Table.get_eq_ok.1 hx) written
  · exact .pure .refl

theorem enterBlock (topLevel : Bool) (block : Block) (outline : Outline) :
    Leaves (TypeEdits source a₀) (TypeEdits source a₀ ·.reached)
      (enterBlock source topLevel block outline a) := by
  unfold Analysis.enterBlock
  split
  · exact .halt h
  · refine .read fun ss _ => (Leaves.lift (typeSignatures h ss)).bind fun b h => ?_
    split
    · exact .lift ((typeGlobals b ss).mono fun _ h' => h.trans h')
    · exact .pure h

theorem typeOutline (topLevel : Bool) (outline : Outline) :
    Leaves (TypeEdits source a₀) (TypeEdits source a₀ ·.reached) (typeOutline source topLevel outline a) := by
  induction outline generalizing topLevel a with
  | stuck fault => exact .fault fault
  | done => exact .pure h
  | leaf s rest ih =>
    refine .read fun settled _ => ?_
    dsimp only
    split
    · exact ih h topLevel
    · exact (Leaves.lift ((typeLeaf a s).mono fun _ h' => h.trans h')).bind fun b h => ih h topLevel
  | nested s body rest ihbody ihrest =>
    refine (Leaves.lift ((typeHead a s).mono fun _ h' => h.trans h')).bind fun b h =>
      .read fun block _ => ?_
    exact (enterBlock h false _ body).bind fun c h => (ihbody h false).bind fun d h =>
      ihrest h topLevel

theorem resolveTypes :
    Leaves (TypeEdits source a₀) (TypeEdits source a₀ ·.reached) (a.resolveTypes source) :=
  (enterBlock h true _ _).bind fun _ h => typeOutline h true _

/-! ## Checks -/

theorem checkExprWithin (fuel : Nat) (e : ExprId) :
    Keeps (TypeEdits source a₀) (checkExprWithin fuel a e) := by
  induction fuel generalizing a e with
  | zero => exact .error
  | succ fuel ih =>
    refine .read fun x _ => ?_
    split
    · exact h.raiseAt (by decide) e
    · next callee arguments _ =>
      have rest : ∀ b, TypeEdits source a₀ b → Keeps (TypeEdits source a₀) (do
          (← b.program.arguments.slice arguments).foldlM
            (fun a i => Analysis.checkExprWithin fuel a i.2) b) := fun b h =>
        .read fun l _ => .foldlM (fun i _ b h => ih h i.2) h
      refine .read fun y _ => ?_
      split
      · exact rest a h
      · exact (h.raiseAt (by decide) callee).bind rest
      · exact (ih h callee).bind fun b h => (h.raiseAt (by decide) callee).bind rest
    · exact .read fun es _ => .foldlM (fun e _ b h => ih h e) h

theorem checkExpr (e : ExprId) : Keeps (TypeEdits source a₀) (a.checkExpr e) :=
  h.checkExprWithin _ e

theorem checkAssignable (value : ExprId) (expected : Ty) (span : Span) :
    Keeps (TypeEdits source a₀) (a.checkAssignable value expected span) := by
  refine .read fun found _ => ?_
  split
  · exact .pure h
  · exact h.report (by simp)

theorem checkCondition (condition : ExprId) :
    Keeps (TypeEdits source a₀) (a.checkCondition condition) := by
  refine (h.checkExpr condition).bind fun b h => .read fun found _ => ?_
  split
  · exact .pure h
  · exact .read fun x _ => h.report (by simp)

theorem checkIterable (iterable : ExprId) :
    Keeps (TypeEdits source a₀) (a.checkIterable iterable) := by
  refine (h.checkExpr iterable).bind fun b h => .read fun x _ => ?_
  split
  · exact .pure h
  · exact h.raiseAt (by decide) iterable

theorem checkStmt (s : StmtId) : Keeps (TypeEdits source a₀) (a.checkStmt s) := by
  refine .read fun stmt _ => ?_
  split
  · exact (h.checkExpr _).bind fun b h => .read fun v _ => h.checkAssignable _ _ _
  · refine (h.checkExpr _).bind fun b h => (h.checkExpr _).bind fun c h => ?_
    exact .read fun type _ => h.checkAssignable _ _ _
  · exact h.checkCondition _
  · exact h.checkCondition _
  · exact h.checkCondition _
  · exact h.checkIterable _
  · exact h.checkExpr _
  · exact h.checkExpr _
  · exact h.checkExpr _
  · exact .pure h

theorem checkOutline (outline : Outline) : Keeps (TypeEdits source a₀) (checkOutline outline a) := by
  induction outline generalizing a with
  | stuck fault => exact .error
  | done => exact .pure h
  | leaf s rest ih => exact (h.checkStmt s).bind fun b h => ih h
  | nested s body rest ihbody ihrest =>
    exact (h.checkStmt s).bind fun b h => (ihbody h).bind fun c h => ihrest h

theorem check : Keeps (TypeEdits source a₀) a.check := by
  simp only [Analysis.check]
  split
  · exact .error
  · exact (h.checkOutline _).lift

end Analysis.TypeEdits

end FrontEnd
