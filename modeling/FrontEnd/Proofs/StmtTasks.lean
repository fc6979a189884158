import FrontEnd.Proofs.Tasks
/-!
# FrontEnd — the tasks of a statement

What the type pass does for each statement, as a list of tasks
(`Program.tasks`). The list depends only on what the passes leave alone,
its tasks look at the expressions of the statement and give types to
what it declares, and as long as no expression mentions that, they are
apart (`pairwise_tasks`).
-/

namespace FrontEnd

/-- To give a declaration the type that is written for it, or another
where none is. -/
def declarationTasks (t : Target) (typeExpr : Option ExprId) (other : Ty) : List Task :=
  match typeExpr with
  | some e => [.name e, .give t (.recorded e)]
  | none => [.give t (.always other)]

/-- The tasks of a statement of the kind, those of a signature apart. -/
def StmtKind.tasks : StmtKind → List Task
  | .variable v (some type) (some init) =>
    [.name type, .value init (some (.recorded type)), .give (.variable v) (.recorded type)]
  | .variable v (some type) none => [.name type, .give (.variable v) (.recorded type)]
  | .variable v none (some init) => [.value init none, .give (.variable v) (.recorded init)]
  | .variable v none none => [.give (.variable v) (.always .error)]
  | .assign lhs rhs => [.value lhs none, .value rhs (some (.recorded lhs))]
  | .nest (.ifThen condition) _ | .nest (.elseIf condition) _ | .nest (.whileDo condition) _ =>
    [.value condition (some (.always .bool))]
  | .nest (.forEach iterator iterable) _ =>
    [.value iterable none, .give (.variable iterator) (.iterated iterable)]
  | .output value | .evaluate value | .returnValue (some value) => [.value value none]
  | _ => []

/-- The expressions that a task begins at. -/
def Task.uses : Task → List ExprId
  | .name e => [e]
  | .value e expected => e :: (expected.bind Origin.expr?).toList
  | .give _ origin => origin.expr?.toList

/-- The expression that a task records the types in. -/
def Task.slot? : Task → Option ExprId
  | .name e | .value e _ => some e
  | .give _ _ => none

/-- The expression that a task reads off what it expects of a value. -/
def Task.expects? : Task → Option ExprId
  | .value _ expected => expected.bind Origin.expr?
  | _ => none

/-- What a statement of the kind gives a type to, signatures apart. -/
def StmtKind.gives : StmtKind → List Target
  | .variable v _ _ => [.variable v]
  | .nest (.forEach iterator _) _ => [.variable iterator]
  | _ => []

/-- The tasks of a statement look at its expressions. -/
theorem StmtKind.uses_tasks (kind : StmtKind) :
    ∀ x ∈ kind.tasks, ∀ r ∈ x.uses, r ∈ kind.exprs := by
  cases kind with
  | «variable» v type init =>
    cases type <;> cases init <;> simp [StmtKind.tasks, StmtKind.exprs, Task.uses, Origin.expr?]
  | nest head body =>
    cases head <;> simp [StmtKind.tasks, StmtKind.exprs, Task.uses, Origin.expr?, Head.expr?]
  | returnValue value => cases value <;> simp [StmtKind.tasks, StmtKind.exprs, Task.uses]
  | _ => simp [StmtKind.tasks, StmtKind.exprs, Task.uses, Origin.expr?]

theorem StmtKind.writes_tasks (kind : StmtKind) :
    ∀ x ∈ kind.tasks, ∀ t, x.Writes t → t ∈ kind.gives := by
  cases kind with
  | «variable» v type init =>
    cases type <;> cases init <;> simp [StmtKind.tasks, StmtKind.gives, Task.Writes]
  | nest head body => cases head <;> simp [StmtKind.tasks, StmtKind.gives, Task.Writes]
  | returnValue value => cases value <;> simp [StmtKind.tasks, Task.Writes]
  | _ => simp [StmtKind.tasks, Task.Writes]

/-- A task records types in no expression that one before it looks at,
and what is declared gets its type last. -/
theorem StmtKind.pairwise_tasks {kind : StmtKind} (nodup : kind.exprs.Nodup) :
    kind.tasks.Pairwise fun x y =>
      (∀ r, y.slot? = some r → r ∉ x.uses) ∧ ∀ t origin, x ≠ .give t origin := by
  cases kind with
  | «variable» v type init =>
    cases type <;> cases init <;>
      simp_all [StmtKind.tasks, StmtKind.exprs, Task.uses, Task.slot?, Origin.expr?]
  | nest head body => cases head <;> simp [StmtKind.tasks, Task.uses, Task.slot?]
  | returnValue value => cases value <;> simp [StmtKind.tasks]
  | assign lhs rhs => simp_all [StmtKind.tasks, StmtKind.exprs, Task.uses, Task.slot?, eq_comm]
  | _ => simp [StmtKind.tasks]

/-- What is expected of a value is not read off the value itself. -/
theorem StmtKind.expected_tasks {kind : StmtKind} (nodup : kind.exprs.Nodup) :
    ∀ x ∈ kind.tasks, ∀ c, x.expects? = some c → x.slot? ≠ some c := by
  cases kind with
  | «variable» v type init =>
    cases type <;> cases init <;>
      simp_all [StmtKind.tasks, StmtKind.exprs, Task.expects?, Task.slot?, Origin.expr?]
  | nest head body =>
    cases head <;> simp [StmtKind.tasks, Task.expects?, Task.slot?, Origin.expr?]
  | returnValue value => cases value <;> simp [StmtKind.tasks, Task.expects?]
  | assign lhs rhs =>
    simp_all [StmtKind.tasks, StmtKind.exprs, Task.expects?, Task.slot?, Origin.expr?, eq_comm]
  | _ => simp [StmtKind.tasks, Task.expects?]

namespace Program

/-- The tasks of a signature. A function without a return type returns
nothing, and a parameter without a type has none. -/
def signatureTasks (p : Program) (f : FunctionId) : Except Fault (List Task) := do
  let r ← p.functions.get f
  let parameters ← p.parameters.slice r.parameters
  return declarationTasks (.function f) r.returnTypeExpr .none ++
    parameters.flatMap fun (i, a) => declarationTasks (.parameter i) a.typeExpr .error

/-- The tasks of a statement. -/
def tasks (p : Program) (s : StmtId) : List Task :=
  elements do
    match (← p.stmts.get s).kind with
    | .function f => p.signatureTasks f
    | kind => return kind.tasks

variable {p p' : Program} {s : StmtId} {x y : Task} {e c : ExprId} {t : Target}

/-! ## Reading them off the frame -/

theorem signatureTasks_frame (f : FunctionId) :
    p.frame.signatureTasks f = p.signatureTasks f := by
  simp only [signatureTasks, frame, Table.get_map, Table.slice_map]
  cases p.functions.get f with
  | error fault => rfl
  | ok r =>
    simp only [Except.map, ok_bind, Function.frame]
    cases p.parameters.slice r.parameters with
    | error fault => rfl
    | ok parameters =>
      simp only [ok_bind, List.flatMap_map]
      rfl

theorem tasks_frame (s : StmtId) : p.frame.tasks s = p.tasks s := by
  simp only [tasks, stmts_get_frame, signatureTasks_frame]
  cases p.stmts.get s with
  | error fault => rfl
  | ok stmt =>
    obtain ⟨kind, span⟩ := stmt
    cases kind with
    | nest head body => cases head <;> rfl
    | _ => rfl

theorem tasks_congr (h : p'.frame = p.frame) : p'.tasks s = p.tasks s := by
  rw [← tasks_frame, h, tasks_frame]

/-! ## What the tasks look at -/

theorem exists_under_of_reads (h : x.Reads p c) : ∃ r ∈ x.uses, p.Under r c := by
  cases x with
  | name e => exact ⟨e, by simp [Task.uses], h ▸ .refl⟩
  | value e expected =>
    rcases h with h | ⟨origin, rfl, ho⟩
    · exact ⟨e, by simp [Task.uses], h⟩
    · exact ⟨c, by simp [Task.uses, ho], .refl⟩
  | give t origin =>
    have ho : origin.expr? = some c := h
    exact ⟨c, by simp [Task.uses, ho], .refl⟩

theorem under_slot_of_region (h : x.Region p c) : ∃ r, x.slot? = some r ∧ p.Under r c := by
  cases x with
  | name e => exact ⟨e, rfl, h ▸ .refl⟩
  | value e expected => exact ⟨e, rfl, h⟩
  | give t origin => exact h.elim

/-- Tasks that begin at different slots do not interfere with each
other's expressions. -/
theorem apart_of_slots (s' : StmtId) (once : p.UsedOnce) (hx : ∀ r ∈ x.uses, r ∈ p.slotsAt s)
    (hy : ∀ r, y.slot? = some r → r ∈ p.slotsAt s' ∧ r ∉ x.uses)
    (ht : ∀ t, x.Concerns p t → ¬ y.Writes t) : Task.Apart p x y := by
  refine ⟨fun c hc hc' => ?_, ht⟩
  obtain ⟨r, hr, hu⟩ := exists_under_of_reads hc
  obtain ⟨r', hr', hu'⟩ := under_slot_of_region hc'
  obtain ⟨hslot, hnot⟩ := hy r' hr'
  exact hnot (once.eq_of_under_slots (hx r hr) hslot hu hu' ▸ hr)

section

variable {stmt : Stmt} (hs : p.stmts.get? s = some stmt)

include hs

theorem tasks_eq (hk : ∀ f, stmt.kind ≠ .function f) : p.tasks s = stmt.kind.tasks := by
  obtain ⟨kind, span⟩ := stmt
  simp only [tasks, Table.get_eq_ok.2 hs, ok_bind]
  cases kind with
  | function f => exact absurd rfl (hk f)
  | _ => rfl

theorem slotsAt_eq_exprs (hk : ∀ f, stmt.kind ≠ .function f) : p.slotsAt s = stmt.kind.exprs := by
  obtain ⟨kind, span⟩ := stmt
  simp only [slotsAt, Table.get_eq_ok.2 hs, ok_bind]
  cases kind with
  | function f => exact absurd rfl (hk f)
  | _ => rfl

end

/-- What belongs to a function declaration, listed. -/
theorem function_eqs {f : FunctionId} {span : Span} (hs : p.stmts.get? s = some ⟨.function f, span⟩)
    (hdecl : p.DeclarationHeld (.function f)) :
    ∃ r params, p.functions.get? f = some r ∧ p.parameters.slice r.parameters = .ok params ∧
      p.tasks s = declarationTasks (.function f) r.returnTypeExpr .none ++
        params.flatMap (fun (i, a) => declarationTasks (.parameter i) a.typeExpr .error) ∧
      p.slotsAt s = r.returnTypeExpr.toList ++ params.filterMap (·.2.typeExpr) ∧
      p.owned s = .function f :: params.map (.parameter ·.1) := by
  obtain ⟨r, hr, hrange⟩ := hdecl
  obtain ⟨params, hparams⟩ := slice_ok hrange
  refine ⟨r, params, hr, hparams, ?_, ?_, ?_⟩
  · simp only [tasks, signatureTasks, Table.get_eq_ok.2 hs, ok_bind, Table.get_eq_ok.2 hr, hparams]
    rfl
  · simp only [slotsAt, signature, Table.get_eq_ok.2 hs, ok_bind, Table.get_eq_ok.2 hr, hparams]
    rfl
  · simp only [owned, declaredAhead, declaredInside, Table.get_eq_ok.2 hs, ok_bind,
      Table.get_eq_ok.2 hr, hparams, StmtKind.declares]
    rfl

theorem mem_declarationTasks {typeExpr : Option ExprId} {other : Ty}
    (h : x ∈ declarationTasks t typeExpr other) :
    (∀ r ∈ x.uses, typeExpr = some r) ∧ (∀ t', x.Writes t' → t' = t) ∧
      (∀ t', x.Concerns p t' → t' = t) ∧ x.Proper p := by
  cases typeExpr with
  | none =>
    obtain rfl : x = .give t (.always other) := by simpa [declarationTasks] using h
    exact ⟨by simp [Task.uses, Origin.expr?], fun _ h => h, fun _ h => h, trivial⟩
  | some e =>
    rcases (by simpa [declarationTasks] using h : x = .name e ∨ x = .give t (.recorded e))
      with rfl | rfl
    · exact ⟨by simp [Task.uses], fun _ h => h.elim, fun _ h => h.elim, trivial⟩
    · exact ⟨by simp [Task.uses, Origin.expr?], fun _ h => h, fun _ h => h, trivial⟩

/-- There is no value in a signature. -/
theorem not_value_of_function {f : FunctionId} {span : Span}
    (hs : p.stmts.get? s = some ⟨.function f, span⟩) (hdecl : p.DeclarationHeld (.function f))
    {expected : Option Origin} : .value e expected ∉ p.tasks s := by
  have hnot : ∀ {t typeExpr other}, .value e expected ∉ declarationTasks t typeExpr other := by
    intro t typeExpr other h
    cases typeExpr <;> simp [declarationTasks] at h
  obtain ⟨r, params, -, -, htasks, -, -⟩ := function_eqs hs hdecl
  rw [htasks, List.mem_append, List.mem_flatMap]
  rintro (h | ⟨⟨i, a⟩, -, h⟩)
  · exact hnot h
  · exact hnot h

theorem mem_uses_of_slot {r : ExprId} (h : x.slot? = some r) : r ∈ x.uses := by
  cases x <;> simp_all [Task.slot?, Task.uses]

/-- The ids of a slice are those of the range. -/
theorem map_fst_slice {k : RecordKind} {α : Type} {tbl : Table k α} {r : IdRange k}
    {l : List (RecordId k × α)} (h : tbl.slice r = .ok l) : l.map (·.1) = r.ids := by
  unfold Table.slice at h
  split at h
  · next he =>
    cases h
    simp only [IdRange.isEmpty, beq_iff_eq] at he
    simp [IdRange.ids, he]
  · split at h
    · next hstop =>
      cases h
      refine List.map_fst_zip ?_
      simp only [IdRange.stop, Table.size] at hstop
      simp only [IdRange.ids, IdRange.stop, List.length_map, List.length_range',
        Array.length_toList, Array.size_extract]
      omega
    · cases h

theorem slice_nodup {k : RecordKind} {α : Type} {tbl : Table k α} {r : IdRange k}
    {l : List (RecordId k × α)} (h : tbl.slice r = .ok l) : (l.map (·.1)).Nodup := by
  rw [map_fst_slice h, IdRange.ids]
  exact (List.nodup_range' ..).map fun a b hab => by cases hab; rfl

/-- What a statement gives a type to belongs to it. -/
theorem owned_of_gives {stmt : Stmt} (hs : p.stmts.get? s = some stmt) (h : t ∈ stmt.kind.gives) :
    t ∈ p.owned s := by
  refine mem_owned.2 ⟨stmt, hs, ?_⟩
  obtain ⟨kind, span⟩ := stmt
  cases kind with
  | «variable» v type init =>
    obtain rfl := List.mem_singleton.1 h
    exact .variable v type init
  | nest head body =>
    cases head with
    | forEach v e =>
      obtain rfl := List.mem_singleton.1 h
      exact .iterator v e body
    | _ => cases h
  | _ => cases h

/-- A statement that is not held has no tasks. -/
theorem exists_stmt_of_mem_tasks (h : x ∈ p.tasks s) : ∃ stmt, p.stmts.get? s = some stmt := by
  cases hs : p.stmts.get? s with
  | some stmt => exact ⟨stmt, rfl⟩
  | none =>
    have hnone : p.stmts.get s = .error .outOfRange := by simp only [Table.get, hs]
    simp [tasks, hnone, bind, Except.bind] at h

section

variable (declarations : ∀ s stmt, p.stmts.get? s = some stmt → p.DeclarationHeld stmt.kind)

include declarations

/-- **The tasks of a statement use its slots.** -/
theorem slot_of_uses (h : x ∈ p.tasks s) {r : ExprId} (hr : r ∈ x.uses) : r ∈ p.slotsAt s := by
  obtain ⟨⟨kind, span⟩, hs⟩ := exists_stmt_of_mem_tasks h
  by_cases hk : ∃ f, kind = .function f
  · obtain ⟨f, rfl⟩ := hk
    obtain ⟨r, params, -, -, htasks, hslots, -⟩ := function_eqs hs (declarations s _ hs)
    rw [htasks, List.mem_append, List.mem_flatMap] at h
    rw [hslots]
    rcases h with h | ⟨⟨i, a⟩, hmem, h⟩
    · simp [(mem_declarationTasks (p := p) h).1 _ hr]
    · have htype := (mem_declarationTasks (p := p) h).1 _ hr
      exact List.mem_append_right _ (List.mem_filterMap.2 ⟨(i, a), hmem, htype⟩)
  · have hk' : ∀ f, kind ≠ .function f := fun f hf => hk ⟨f, hf⟩
    rw [tasks_eq hs hk'] at h
    rw [slotsAt_eq_exprs hs hk']
    exact kind.uses_tasks x h r hr

/-- **The tasks of a statement give types to what it declares.** -/
theorem owned_of_writes (h : x ∈ p.tasks s) (ht : x.Writes t) : t ∈ p.owned s := by
  obtain ⟨⟨kind, span⟩, hs⟩ := exists_stmt_of_mem_tasks h
  by_cases hk : ∃ f, kind = .function f
  · obtain ⟨f, rfl⟩ := hk
    obtain ⟨r, params, -, -, htasks, -, howned⟩ := function_eqs hs (declarations s _ hs)
    rw [htasks, List.mem_append, List.mem_flatMap] at h
    rw [howned]
    rcases h with h | ⟨⟨i, a⟩, hmem, h⟩
    · rw [(mem_declarationTasks (p := p) h).2.1 t ht]
      exact List.mem_cons_self
    · rw [(mem_declarationTasks (p := p) h).2.1 t ht]
      exact List.mem_cons_of_mem _ (List.mem_map.2 ⟨(i, a), hmem, rfl⟩)
  · rw [tasks_eq hs fun f hf => hk ⟨f, hf⟩] at h
    exact owned_of_gives hs (kind.writes_tasks x h t ht)

variable (once : p.UsedOnce)

include once

theorem proper_of_mem_tasks (h : x ∈ p.tasks s) : x.Proper p := by
  obtain ⟨⟨kind, span⟩, hs⟩ := exists_stmt_of_mem_tasks h
  by_cases hk : ∃ f, kind = .function f
  · obtain ⟨f, rfl⟩ := hk
    obtain ⟨r, params, -, -, htasks, -, -⟩ := function_eqs hs (declarations s _ hs)
    rw [htasks, List.mem_append, List.mem_flatMap] at h
    rcases h with h | ⟨⟨i, a⟩, -, h⟩
    · exact (mem_declarationTasks h).2.2.2
    · exact (mem_declarationTasks h).2.2.2
  · have hk' : ∀ f, kind ≠ .function f := fun f hf => hk ⟨f, hf⟩
    have hnodup := once.slotsAt_nodup (s := s)
    rw [slotsAt_eq_exprs hs hk'] at hnodup
    cases x with
    | value e expected =>
      rintro origin rfl c hc hu
      have hslot := slot_of_uses declarations h (r := c) (by simp [Task.uses, hc])
      rw [tasks_eq hs hk'] at h
      have hne := kind.expected_tasks hnodup _ h c (by simp [Task.expects?, hc])
      exact hne (by rw [once.eq_of_under_slot hslot hu]; rfl)
    | name e => trivial
    | give t origin => trivial

omit declarations in
/-- Declarations of different things with types of their own are apart. -/
theorem pairwise_declarations {declared : List (Target × Option ExprId × Ty)}
    (slots : ∀ r ∈ declared.filterMap (·.2.1), r ∈ p.slotsAt s)
    (nodup : (declared.filterMap (·.2.1)).Nodup) (targets : (declared.map (·.1)).Nodup) :
    (declared.flatMap fun d => declarationTasks d.1 d.2.1 d.2.2).Pairwise (Task.Apart p) := by
  have hslot : ∀ d ∈ declared, ∀ r, d.2.1 = some r → r ∈ p.slotsAt s :=
    fun d hd r hr => slots r (List.mem_filterMap.2 ⟨d, hd, hr⟩)
  have hpairs := (List.pairwise_filterMap.1 nodup).and (List.pairwise_map.1 targets)
  refine List.pairwise_flatMap.2 ⟨fun ⟨t, typeExpr, other⟩ _ => ?_, hpairs.imp_of_mem ?_⟩
  · cases typeExpr with
    | none => exact List.pairwise_singleton _ _
    | some e => exact List.pairwise_pair.2 ⟨fun _ _ h => h, fun _ h => h.elim⟩
  · intro d d' hd hd' h x hx y hy
    obtain ⟨huses, -, hconcerns, -⟩ := mem_declarationTasks (p := p) hx
    obtain ⟨huses', hwrites', -, -⟩ := mem_declarationTasks (p := p) hy
    refine apart_of_slots s once (fun r hr => hslot d hd r (huses r hr)) (fun r hr => ?_) ?_
    · have hr' := huses' r (mem_uses_of_slot hr)
      exact ⟨hslot d' hd' r hr', fun hmem => h.1 r (huses r hmem) r hr' rfl⟩
    · exact fun t ht hw => h.2 ((hconcerns t ht).symm.trans (hwrites' t hw))

/-- **The tasks of a statement are apart** if its values do not mention
what it declares. -/
theorem pairwise_tasks
    (clear : ∀ e expected, .value e expected ∈ p.tasks s → ∀ t, p.Mentions e t → t ∉ p.owned s) :
    (p.tasks s).Pairwise (Task.Apart p) := by
  cases hs : p.stmts.get? s with
  | none =>
    have hnone : p.stmts.get s = .error .outOfRange := by simp only [Table.get, hs]
    simp [tasks, hnone, bind, Except.bind]
  | some stmt =>
    obtain ⟨kind, span⟩ := stmt
    have hnodup := once.slotsAt_nodup (s := s)
    have huses : ∀ {x}, x ∈ p.tasks s → ∀ r ∈ x.uses, r ∈ p.slotsAt s :=
      fun hx r hr => slot_of_uses declarations hx hr
    -- a function gives types to itself and its parameters, any other statement to one variable at most
    by_cases hk : ∃ f, kind = .function f
    · obtain ⟨f, rfl⟩ := hk
      obtain ⟨r, params, -, hparams, htasks, hslots, -⟩ := function_eqs hs (declarations s _ hs)
      let declared : List (Target × Option ExprId × Ty) :=
        (.function f, r.returnTypeExpr, .none) ::
          params.map fun (i, a) => (.parameter i, a.typeExpr, .error)
      have hlist : p.tasks s = declared.flatMap fun d => declarationTasks d.1 d.2.1 d.2.2 := by
        simp only [htasks, declared, List.flatMap_cons, List.flatMap_map]
      have hexprs : declared.filterMap (·.2.1) = p.slotsAt s := by
        simp only [hslots, declared, List.filterMap_cons, List.filterMap_map]
        cases r.returnTypeExpr <;> rfl
      rw [hlist]
      refine pairwise_declarations once (fun r hr => hexprs ▸ hr) (hexprs ▸ hnodup) ?_
      have hids := slice_nodup hparams
      simp only [declared, List.map_cons, List.map_map, List.nodup_cons]
      refine ⟨by simp, ?_⟩
      have hmap : params.map ((·.1) ∘ fun (i, a) => ((.parameter i : Target), a.typeExpr, Ty.error)) =
          (params.map (·.1)).map .parameter := by
        simp [List.map_map, Function.comp_def]
      rw [hmap]
      exact hids.map fun i j hij => by cases hij; rfl
    · have hk' : ∀ f, kind ≠ .function f := fun f hf => hk ⟨f, hf⟩
      rw [slotsAt_eq_exprs hs hk'] at hnodup
      have hpairs := kind.pairwise_tasks hnodup
      rw [← tasks_eq hs hk'] at hpairs
      refine hpairs.imp_of_mem fun {x y} hx hy h => ?_
      refine apart_of_slots s once (huses hx) (fun r hr => ⟨?_, h.1 r hr⟩) fun t ht hw => ?_
      · exact huses hy r (mem_uses_of_slot hr)
      · cases x with
        | name e => exact ht
        | value e expected =>
          exact clear e expected hx t ht (owned_of_writes declarations hy hw)
        | give t' origin => exact h.2 t' origin rfl

end

/-- **The tasks of different statements are apart** if what the first
mentions is not declared by the second. -/
theorem Regular.apart_tasks {s' : StmtId} (regular : p.Regular) (once : p.UsedOnce) (hne : s ≠ s')
    (hx : x ∈ p.tasks s) (hy : y ∈ p.tasks s')
    (clear : ∀ e expected, .value e expected ∈ p.tasks s → ∀ t, p.Mentions e t → t ∉ p.owned s') :
    Task.Apart p x y := by
  have huses : ∀ r ∈ x.uses, r ∈ p.slotsAt s :=
    fun r hr => slot_of_uses regular.declarations hx hr
  refine apart_of_slots s' once huses (fun r hr => ?_) fun t ht hw => ?_
  · have hslot := slot_of_uses regular.declarations hy (mem_uses_of_slot hr)
    exact ⟨hslot, fun hmem => hne (once.eq_of_slot (huses r hmem) hslot)⟩
  · have howned := owned_of_writes regular.declarations hy hw
    cases x with
    | name e => exact ht
    | value e expected => exact clear e expected hx t ht howned
    | give t' origin => exact hne (regular.owners s s' t (owned_of_writes regular.declarations hx ht) howned)

end Program

end FrontEnd
