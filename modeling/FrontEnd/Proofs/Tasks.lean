import FrontEnd.Proofs.TypedExpr
/-!
# FrontEnd — the tasks of the type pass

All that the type pass does to a program is of three kinds: it records
the type that a type expression names, it records the types in a value,
and it gives a declaration the type that has been found for it. A `Task`
is one of these. What a task has done stays done as long as nothing
interferes that it reads or gives (`TaskDone.changes`), so a list of
tasks that are apart leaves all of them done (`tasks_run`).
-/

namespace FrontEnd

/-- Where the type of a declaration comes from, or what is expected of a
value. -/
inductive Origin
  | always (type : Ty)
  /-- The type that is recorded for an expression. -/
  | recorded (e : ExprId)
  /-- The type of what a loop over the expression runs through. -/
  | iterated (e : ExprId)
deriving DecidableEq

/-- The expression that an origin looks at. -/
def Origin.expr? : Origin → Option ExprId
  | always _ => none
  | recorded e | iterated e => some e

/-- Something that the type pass does. -/
inductive Task
  /-- Record the type that a type expression names. -/
  | name (e : ExprId)
  /-- Record the types in a value. -/
  | value (e : ExprId) (expected : Option Origin)
  /-- Give a declaration its type. -/
  | give (t : Target) (origin : Origin)
deriving DecidableEq

/-- The type an expression of the kind names, in the place of a type. -/
def ExprKind.named : ExprKind → Ty
  | .typeName type => type
  | _ => .error

/-- What is wrong with an expression of the kind in the place of a type. -/
def ExprKind.misplaced? : ExprKind → Option Code
  | .typeName _ => none
  | .identifier => some .unknownType
  | _ => some .notAType

namespace Program

/-- The type that is recorded for an expression. -/
def recorded (p : Program) (e : ExprId) : Ty :=
  match p.exprs.get? e with
  | some x => x.type
  | none => .unset

/-- The type at an origin. -/
def typeFrom (p : Program) : Origin → Ty
  | .always type => type
  | .recorded e => p.recorded e
  | .iterated e =>
    match p.exprs.get? e with
    | some x => Analysis.iteratorType x.kind
    | none => .error

theorem recorded_eq (p : Program) (e : ExprId) :
    p.recorded e = ((p.exprs.get? e).map Expr.type).getD .unset := by
  unfold recorded
  cases p.exprs.get? e <;> rfl

theorem typeFrom_iterated (p : Program) (e : ExprId) :
    p.typeFrom (.iterated e) = ((p.exprs.get? e).map Expr.kind).elim .error Analysis.iteratorType := by
  simp only [typeFrom]
  cases p.exprs.get? e <;> rfl

/-- Give a declaration its type; that of a function is what it returns. -/
def setTypeAt (p : Program) (type : Ty) : Target → Except Fault Program
  | .variable v => p.setVariableType v type
  | .function f => do
    let functions ← p.functions.update f ({ · with returnType := type })
    return { p with functions }
  | .parameter i => do
    let parameters ← p.parameters.update i ({ · with type })
    return { p with parameters }
  | .enumType _ | .structType _ => .error .outOfRange

end Program

namespace Analysis

/-- Do a task. -/
def runTask (source : String) (a : Analysis) : Task → Except Fault Analysis
  | .name e => do return (← a.typeNamed e).2
  | .value e expected => do
    return (← typeExpr source (expected.map a.program.typeFrom) a e).2
  | .give t origin => do
    return { a with program := ← a.program.setTypeAt (a.program.typeFrom origin) t }

/-- Report an expression that names no type. -/
def reportMisplaced (a : Analysis) (e : ExprId) (x : Expr) : Except Fault Analysis :=
  match x.kind.misplaced? with
  | none => .ok a
  | some code => a.report e (.ofCode code x.span)

/-! ## What a task comes to -/

/-- The type that the expression names is recorded, and if it names none
that has been reported. -/
def TypeDone (a : Analysis) (e : ExprId) : Prop :=
  ∃ x, a.program.exprs.get? e = some x ∧ x.type = x.kind.named ∧
    ∀ code, x.kind.misplaced? = some code → a.Quiet e (.ofCode code x.span)

/-- If a diagnostic has been kept for the expression, it was that it
names no type. -/
def TypeHeard (a : Analysis) (e : ExprId) : Prop :=
  ∀ x, a.program.exprs.get? e = some x → x.flagged = true →
    ∃ code, x.kind.misplaced? = some code ∧ a.queue.Has code x.span

/-- There is nothing left to do for the task. -/
def TaskDone (source : String) (a : Analysis) : Task → Prop
  | .name e => a.TypeDone e
  | .value e expected =>
    a.ExprDone source e ∧ a.HintDone source (expected.map a.program.typeFrom) e
  | .give t origin => a.program.typeAt t = .ok (a.program.typeFrom origin)

/-- What has been kept for the expressions of the task is about them as
types and values. -/
def TaskHeard (a : Analysis) : Task → Prop
  | .name e => a.TypeHeard e
  | .value e _ => ∀ c, a.program.Under e c → a.NodeHeard c
  | .give _ _ => True

end Analysis

/-! ## What a task reads and writes -/

namespace Task

/-- The expressions that a task records types in. -/
def Region (p : Program) : Task → ExprId → Prop
  | .name e, c => c = e
  | .value e _, c => p.Under e c
  | .give _ _, _ => False

/-- The expressions that a task depends on. -/
def Reads (p : Program) : Task → ExprId → Prop
  | .name e, c => c = e
  | .value e expected, c => p.Under e c ∨ ∃ origin, expected = some origin ∧ origin.expr? = some c
  | .give _ origin, c => origin.expr? = some c

/-- The declaration that a task gives its type. -/
def Writes : Task → Target → Prop
  | .give t' _, t => t = t'
  | _, _ => False

/-- The declarations whose types a task depends on. -/
def Concerns (p : Program) : Task → Target → Prop
  | .name _, _ => False
  | .value e _, t => p.Mentions e t
  | .give t' _, t => t = t'

/-- The second task does not interfere with what the first has done. -/
def Apart (p : Program) (x y : Task) : Prop :=
  (∀ e, x.Reads p e → ¬ y.Region p e) ∧ ∀ t, x.Concerns p t → ¬ y.Writes t

/-- What a task expects is not found in the value that it is expected of. -/
def Proper (p : Program) : Task → Prop
  | .value e expected => ∀ origin, expected = some origin → ∀ c, origin.expr? = some c → ¬ p.Under e c
  | _ => True

/-- No diagnostic has been kept for the expressions of the task. -/
def Fresh (p : Program) (a : Analysis) (x : Task) : Prop := ∀ c, x.Region p c → a.Unflagged c

variable {p p' : Program} {x : Task} {e : ExprId} {t : Target}

theorem reads_of_region (h : x.Region p e) : x.Reads p e := by
  cases x with
  | name e => exact h
  | value e expected => exact .inl h
  | give t origin => exact h.elim

theorem Reads.pruned (h : x.Reads p' e) (hp : Program.Pruned p p') : x.Reads p e := by
  cases x with
  | name e => exact h
  | value e expected => exact h.imp_left hp.under
  | give t origin => exact h

theorem Concerns.pruned (h : x.Concerns p' t) (hp : Program.Pruned p p') : x.Concerns p t := by
  cases x with
  | name e => exact h
  | value e expected => exact hp.mentions h
  | give t origin => exact h

end Task

open Analysis

variable {source : String} {a a' : Analysis} {e r c : ExprId} {type : Ty} {x : Task} {t : Target}
variable {p₀ : Program} {region : ExprId → Prop} {targets : Target → Prop} {origin : Origin}

/-! ## What is done stays done -/

theorem Changes.recorded (h : Changes region targets a a') (hr : ¬ region e) :
    a'.program.recorded e = a.program.recorded e := by
  simp only [Program.recorded, h.exprs e hr]

theorem Changes.typeFrom (h : Changes region targets a a')
    (hr : ∀ c, origin.expr? = some c → ¬ region c) :
    a'.program.typeFrom origin = a.program.typeFrom origin := by
  cases origin with
  | always type => rfl
  | recorded e => exact h.recorded (hr e rfl)
  | iterated e => simp only [Program.typeFrom, h.exprs e (hr e rfl)]

theorem Changes.map_typeFrom {expected : Option Origin} (h : Changes region targets a a')
    (hr : ∀ origin, expected = some origin → ∀ c, origin.expr? = some c → ¬ region c) :
    expected.map a'.program.typeFrom = expected.map a.program.typeFrom := by
  cases expected with
  | none => rfl
  | some origin => exact congrArg some (h.typeFrom (hr origin rfl))

theorem Analysis.TypeDone.changes (done : a.TypeDone e) (h : Changes region targets a a')
    (hr : ¬ region e) : a'.TypeDone e := by
  obtain ⟨y, hy, htype, hquiet⟩ := done
  exact ⟨y, (h.exprs e hr).trans hy, htype, fun code hc => h.quiet (hquiet code hc)⟩

theorem Analysis.TypeHeard.changes (heard : a.TypeHeard e) (h : Changes region targets a a')
    (hr : ¬ region e) : a'.TypeHeard e := by
  intro y hy hf
  rw [h.exprs e hr] at hy
  obtain ⟨code, hcode, hhas⟩ := heard y hy hf
  exact ⟨code, hcode, h.queue.has hhas⟩

/-- **What a task has done stays done** while nothing that it depends on
is changed. -/
theorem Analysis.TaskDone.changes (done : a.TaskDone source x) (h : Changes region targets a a')
    (held : a.program.OperandsHeld) (hr : ∀ c, x.Reads a.program c → ¬ region c)
    (ht : ∀ t, x.Concerns a.program t → ¬ targets t) : a'.TaskDone source x := by
  cases x with
  | name e => exact TypeDone.changes done h (hr e rfl)
  | value e expected =>
    obtain ⟨hdone, hhint⟩ := done
    refine ⟨hdone.changes h held (fun c hc => hr c (.inl hc)) ht, ?_⟩
    rw [h.map_typeFrom fun origin ho c hc => hr c (.inr ⟨origin, ho, hc⟩)]
    exact hhint.changes h (hr e (.inl .refl))
  | give t origin =>
    have htype := h.typeAt (ht t rfl)
    exact htype.trans (done.trans (congrArg Except.ok (h.typeFrom fun c hc => hr c hc).symm))

theorem Analysis.TaskHeard.changes (heard : a.TaskHeard x) (h : Changes region targets a a')
    (held : a.program.OperandsHeld) (hr : ∀ c, x.Reads a.program c → ¬ region c) :
    a'.TaskHeard x := by
  cases x with
  | name e => exact TypeHeard.changes heard h (hr e rfl)
  | value e expected =>
    intro c hc
    have hc' := h.under held hc
    exact (heard c hc').changes h (hr c (.inl hc'))
  | give t origin => trivial

/-! ## Doing a task -/

/-- What a type expression names is recorded, once it has been reported
if that is nothing. -/
theorem typeNamed_eq {y : Expr} (hy : a.program.exprs.get? e = some y) :
    a.typeNamed e = (do
      let b ← a.reportMisplaced e y
      return (y.kind.named, { b with program := b.program.setExprType e y.kind.named })) := by
  simp only [typeNamed, Table.get_eq_ok.2 hy, ok_bind, raiseAt_eq hy, reportMisplaced]
  cases y.kind <;> rfl

theorem typeNamed_done (h : a.typeNamed e = .ok (type, a')) :
    Changes (· = e) (fun _ => False) a a' ∧ a'.TypeDone e ∧ a'.program.recorded e = type ∧
      (a.Unflagged e → a'.TypeHeard e) := by
  obtain ⟨y, hy, -⟩ := bind_eq_ok.1 h
  rw [Table.get_eq_ok] at hy
  rw [typeNamed_eq hy] at h
  obtain ⟨b, hb, h⟩ := bind_eq_ok.1 h
  cases pure_eq_ok.1 h
  -- what the expression is before its type is recorded
  have hbefore : Changes (· = e) (fun _ => False) a b ∧
      ∃ z, b.program.exprs.get? e = some z ∧ z.kind = y.kind ∧ z.span = y.span ∧
        (∀ code, y.kind.misplaced? = some code → b.Quiet e (.ofCode code y.span)) ∧
        (z.flagged = true → y.flagged = true ∨
          ∃ code, y.kind.misplaced? = some code ∧ b.queue.Has code y.span) := by
    unfold reportMisplaced at hb
    cases hcode : y.kind.misplaced? with
    | none =>
      rw [hcode] at hb
      cases hb
      exact ⟨.refl a, y, hy, rfl, rfl, by simp, .inl⟩
    | some code =>
      rw [hcode] at hb
      refine ⟨.report hb, ?_⟩
      obtain ⟨z, hz, hkind, hspan, hquiet, hflagged⟩ := report_done hy hb
      exact ⟨z, hz, hkind, hspan, fun code' hc => Option.some.inj hc ▸ hquiet,
        fun hf => (hflagged hf).imp_right fun hhas => ⟨code, rfl, hhas⟩⟩
  obtain ⟨hchanges, z, hz, hkind, hspan, hquiet, hheard⟩ := hbefore
  have hset : (b.program.setExprType e y.kind.named).exprs.get? e =
      some { z with type := y.kind.named } := by
    simp only [Program.setExprType, Table.get?_modify, if_true, hz, Option.map_some]
  have hlast := Changes.setExprType hz y.kind.named
  refine ⟨hchanges.trans hlast, ⟨_, hset, ?_, ?_⟩, ?_, fun fresh w hw hf => ?_⟩
  · rw [hkind]
  · intro code hcode
    rw [hkind] at hcode
    rw [hspan]
    exact hlast.quiet (hquiet code hcode)
  · simp only [Program.recorded, hset]
  · rw [hset] at hw
    obtain rfl := Option.some.inj hw
    rw [hkind, hspan]
    refine (hheard hf).resolve_left fun hflagged => ?_
    rw [fresh y hy] at hflagged
    cases hflagged

/-- A variable gets another type or another order. -/
theorem Changes.update_var {v : VariableId} {f : Variable → Variable} {vars : Table .variable Variable}
    (h : a.program.vars.update v f = .ok vars) (hf : ∀ r, (f r).frame = r.frame) :
    Changes (fun _ => False) (· = .variable v) a { a with program := { a.program with vars } } ∧
      ∃ r, a.program.vars.get? v = some r ∧ vars.get? v = some (f r) := by
  obtain ⟨hlt, rfl⟩ := (Table.update_eq_ok_iff _).1 h
  obtain ⟨r, hr⟩ := Table.exists_get?_of_lt hlt
  refine ⟨⟨fun _ _ => rfl, fun _ y hy => ⟨y, hy, .refl y⟩, fun _ y _ hy hk => .inl ⟨y, hy, hk⟩, rfl,
    fun w hw => ?_, fun _ _ => rfl, fun _ _ => rfl, fun _ _ h => h, ?_, .refl _⟩, r, hr, ?_⟩
  · exact Table.get?_modify_of_ne fun hwv => hw (by rw [hwv])
  · simp only [Program.untyped, Table.map_modify hf]
  · rw [Table.get?_modify, if_pos rfl, hr]
    rfl

theorem setTypeAt_done {p' : Program} (h : a.program.setTypeAt type t = .ok p') :
    Changes (fun _ => False) (· = t) a { a with program := p' } ∧ p'.typeAt t = .ok type := by
  cases t with
  | «variable» v =>
    obtain ⟨vars, hv, h⟩ := bind_eq_ok.1 h
    cases pure_eq_ok.1 h
    obtain ⟨hchanges, r, -, hr⟩ := Changes.update_var hv fun _ => rfl
    refine ⟨hchanges, ?_⟩
    simp only [Program.typeAt, Table.get_eq_ok.2 hr]
    rfl
  | function f =>
    obtain ⟨functions, hf, h⟩ := bind_eq_ok.1 h
    cases pure_eq_ok.1 h
    obtain ⟨hlt, rfl⟩ := (Table.update_eq_ok_iff _).1 hf
    obtain ⟨r, hr⟩ := Table.exists_get?_of_lt hlt
    refine ⟨⟨fun _ _ => rfl, fun _ y hy => ⟨y, hy, .refl y⟩,
      fun _ y _ hy hk => .inl ⟨y, hy, hk⟩, rfl, fun _ _ => rfl, fun g hg => ?_, fun _ _ => rfl,
      fun _ _ h => h, ?_, .refl _⟩, ?_⟩
    · exact Table.get?_modify_of_ne fun hgf => hg (by rw [hgf])
    · have hfunctions : (a.program.functions.modify f ({ · with returnType := type })).map
          (fun f => { f with returnType := .unset }) =
          a.program.functions.map fun f => { f with returnType := .unset } :=
        Table.map_modify fun _ => rfl
      simp only [Program.untyped, hfunctions]
    · have hget : (a.program.functions.modify f ({ · with returnType := type })).get? f =
          some { r with returnType := type } := by
        rw [Table.get?_modify, if_pos rfl, hr]
        rfl
      simp only [Program.typeAt, Table.get_eq_ok.2 hget]
      rfl
  | parameter i =>
    obtain ⟨parameters, hi, h⟩ := bind_eq_ok.1 h
    cases pure_eq_ok.1 h
    obtain ⟨hlt, rfl⟩ := (Table.update_eq_ok_iff _).1 hi
    obtain ⟨r, hr⟩ := Table.exists_get?_of_lt hlt
    refine ⟨⟨fun _ _ => rfl, fun _ y hy => ⟨y, hy, .refl y⟩,
      fun _ y _ hy hk => .inl ⟨y, hy, hk⟩, rfl, fun _ _ => rfl, fun _ _ => rfl,
      fun j hj => ?_, fun _ _ h => h, ?_, .refl _⟩, ?_⟩
    · exact Table.get?_modify_of_ne fun hji => hj (by rw [hji])
    · have hparameters : (a.program.parameters.modify i ({ · with type })).map Parameter.frame =
          a.program.parameters.map Parameter.frame := Table.map_modify fun _ => rfl
      simp only [Program.untyped, hparameters]
    · have hget : (a.program.parameters.modify i ({ · with type })).get? i =
          some { r with type } := by
        rw [Table.get?_modify, if_pos rfl, hr]
        rfl
      simp only [Program.typeAt, Table.get_eq_ok.2 hget]
      rfl
  | enumType u => cases h
  | structType u => cases h

/-- **A task that has been run is done**, and has changed nothing but
what it is there to change. -/
theorem runTask_done (once : p₀.UsedOnce) (older : p₀.OperandsOlder)
    (hp : Program.Pruned p₀ a.program) (proper : x.Proper p₀)
    (h : runTask source a x = .ok a') :
    Changes (x.Region p₀) x.Writes a a' ∧ a'.TaskDone source x ∧
      (x.Fresh p₀ a → a'.TaskHeard x) := by
  cases x with
  | name e =>
    obtain ⟨⟨type, b⟩, hb, h⟩ := bind_eq_ok.1 h
    cases pure_eq_ok.1 h
    obtain ⟨hchanges, hdone, -, hheard⟩ := typeNamed_done hb
    exact ⟨hchanges, hdone, fun fresh => hheard (fresh e rfl)⟩
  | value e expected =>
    obtain ⟨⟨type, b⟩, hb, h⟩ := bind_eq_ok.1 h
    cases pure_eq_ok.1 h
    have typed := typeExprWithin_typed once older hp hb
    refine ⟨typed.changes, ⟨typed.done, ?_⟩, typed.heard⟩
    rw [typed.changes.map_typeFrom fun origin ho c hc => proper origin ho c hc]
    exact typed.hint
  | give t origin =>
    obtain ⟨p', hp', h⟩ := bind_eq_ok.1 h
    cases pure_eq_ok.1 h
    obtain ⟨hchanges, htype⟩ := setTypeAt_done hp'
    refine ⟨hchanges, htype.trans ?_, fun _ => trivial⟩
    exact congrArg Except.ok (hchanges.typeFrom fun _ _ hf => hf).symm

/-- **Tasks that are apart leave each other done.** -/
theorem tasks_run {tasks : List Task} (once : p₀.UsedOnce) (older : p₀.OperandsOlder)
    (hp : Program.Pruned p₀ a.program) (proper : ∀ x ∈ tasks, x.Proper p₀)
    (apart : tasks.Pairwise (Task.Apart p₀)) (run : tasks.foldlM (runTask source) a = .ok a') :
    Changes (fun e => ∃ x ∈ tasks, x.Region p₀ e) (fun t => ∃ x ∈ tasks, x.Writes t) a a' ∧
      (∀ x ∈ tasks, a'.TaskDone source x) ∧
      ((∀ x ∈ tasks, x.Fresh p₀ a) → ∀ x ∈ tasks, a'.TaskHeard x) := by
  obtain ⟨hchanges, hdone⟩ := Changes.run (Task.Region p₀) Task.Writes (fun _ _ => True)
    (fun x b => b.TaskDone source x) hp
    (fun x hx b b' hpb _ h => by
      obtain ⟨hc, hd, -⟩ := runTask_done once older hpb (proper x hx) h
      exact ⟨hc, hd⟩)
    (apart.imp fun _ _ _ _ _ _ => trivial)
    (apart.imp fun h b b' hpb hc hd => hd.changes hc hpb.held
      (fun c hr => h.1 c (hr.pruned hpb)) fun t ht => h.2 t (ht.pruned hpb))
    (fun _ _ => trivial) run
  refine ⟨hchanges, hdone, fun fresh => ?_⟩
  refine (Changes.run (Task.Region p₀) Task.Writes (fun x b => x.Fresh p₀ b)
    (fun x b => b.TaskHeard x) hp (fun x hx b b' hpb hfresh h => ?_)
    (apart.imp fun h b b' _ hc hfresh c hr y hy => ?_)
    (apart.imp fun h b b' hpb hc hheard =>
      hheard.changes hc hpb.held fun c hr => h.1 c (hr.pruned hpb)) fresh run).2
  · obtain ⟨hc, -, hheard⟩ := runTask_done once older hpb (proper x hx) h
    exact ⟨hc, hheard hfresh⟩
  · rw [hc.exprs c fun hx => h.1 c (Task.reads_of_region hx) hr] at hy
    exact hfresh c hr y hy

end FrontEnd
