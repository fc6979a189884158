import FrontEnd.Proofs.TypePass
/-!
# FrontEnd — resolved programs

What the name pass makes of a fresh program is a program in which every
name stands for something that can be seen from where it is
(`inScope_of_namesBound`). So the type pass does all its tasks there, and
a resolution that succeeds leaves nothing of them to do
(`resolve_done`).
-/

namespace FrontEnd

open Analysis

namespace Program

variable {p p' : Program} {source : String}

/-- What keeps the frame and the operands keeps every expression in one
place. -/
theorem UsedOnce.congr (once : p.UsedOnce) (h : p'.frame = p.frame)
    (hops : ∀ e, p'.operandsAt e = p.operandsAt e) : p'.UsedOnce := by
  have hslots : p'.slotsAt = p.slotsAt := funext fun s => slotsAt_congr h
  simp only [UsedOnce, exprIds, stmtIds, size_exprs_congr h, size_stmts_congr h, funext hops, hslots]
  exact once

theorem target?_exprKind {t t' : Target} (h : t.exprKind.target? = some t') : t = t' := by
  cases t <;> simp_all [Target.exprKind, ExprKind.target?]

theorem isReference_of_target? {kind : ExprKind} {t : Target} (h : kind.target? = some t) :
    kind.isReference = true := by
  cases kind <;> first | rfl | cases h

/-- A name can only come to stand for what can be seen. -/
theorem mem_visible_of_boundKind {visible : List Target} {x : Expr} {t : Target}
    (hx : x.kind.isReference = false) (h : (p.boundKind source visible x).target? = some t) :
    t ∈ visible := by
  by_cases hk : x.kind = .identifier
  · simp only [boundKind, hk, means] at h
    split at h
    · cases h
    · cases hfound : visible.find? fun t => (p.nameAt t).read source == x.span.read source with
      | none =>
        rw [hfound] at h
        cases h
      | some t' =>
        rw [hfound] at h
        exact target?_exprKind h ▸ List.mem_of_find?_eq_some hfound
  · rw [boundKind_of_ne hk] at h
    rw [isReference_of_target? h] at hx
    cases hx

/-- Every name that is left in a statement means nothing there. -/
def NamesSettled (p : Program) (source : String) : Prop :=
  ∀ place ∈ p.places, ∀ r ∈ p.slotsAt place.stmt, ∀ e x, p.Under r e → p.exprs.get? e = some x →
    p.boundKind source place.visible x = x.kind

theorem boundKind_congr (h : p'.frame = p.frame) (visible : List Target) (x : Expr) :
    p'.boundKind source visible x = p.boundKind source visible x := by
  simp only [boundKind, means_congr h]

/-- What a fresh program with one place for each expression becomes by
having its names bound. -/
structure Named (source : String) (p : Program) : Prop where
  regular : p.Regular
  usedOnce : p.UsedOnce
  inScope : p.InScope
  settled : p.NamesSettled source
  isScoped : ∀ s, p.Scoped s
  scopes : p.ScopesHeld
  tables : 0 < p.symbolTables.size
  block : p.block.symbolTable.isSentinel = false
  unflagged : ∀ e x, p.exprs.get? e = some x → x.flagged = false

/-- To have its name bound flags no expression. -/
theorem NamesBound.unflagged (bound : NamesBound p source p')
    (unflagged : ∀ e x, p.exprs.get? e = some x → x.flagged = false) :
    ∀ e x, p'.exprs.get? e = some x → x.flagged = false := by
  intro e y hy
  have hflag := bound.bound e
  rw [hy] at hflag
  obtain ⟨x, hx, hb⟩ := Option.map_eq_some_iff.1 hflag.symm
  obtain ⟨kind, hkind, -⟩ := bindAll_eq p p source (p.places.flatMap p.sitesAt) e x
  rw [← hb, hkind]
  exact unflagged e x hx

/-- **After the name pass only what can be seen is mentioned**, and what
is not bound means nothing. -/
theorem NamesBound.named (bound : NamesBound p source p') (regular : p.Regular) (once : p.UsedOnce)
    (scopes : p.ScopesHeld)
    (unresolved : ∀ e x, p.exprs.get? e = some x → x.kind.isReference = false ∧ x.flagged = false) :
    p'.Named source := by
  have hframe := bound.binding.frame
  -- what has become of an expression of a statement
  have hback : ∀ place ∈ p'.places, ∀ r ∈ p'.slotsAt place.stmt, ∀ e y, p'.Under r e →
      p'.exprs.get? e = some y → ∃ x, p.exprs.get? e = some x ∧
        y = { x with kind := p.boundKind source place.visible x } := by
    intro place hplace r hr e y hu hy
    rw [places_congr hframe] at hplace
    rw [slotsAt_congr hframe] at hr
    obtain ⟨x, hx⟩ := Table.exists_get?_of_lt (bound.binding.size ▸ Table.lt_size_of_get? hy)
    rw [bound.get?_of_under regular once hplace hr (bound.binding.under_iff.1 hu) hx] at hy
    exact ⟨x, hx, (Option.some.inj hy).symm⟩
  refine
    { regular := regular.congr hframe bound.binding.held
      usedOnce := once.congr hframe bound.binding.operandsAt
      inScope := fun place hplace r hr t ⟨c, y, hu, hy, hk⟩ => ?_
      settled := fun place hplace r hr e y hu hy => ?_
      isScoped := bound.bodies
      scopes := bound.links scopes
      tables := bound.tables
      block := bound.block
      unflagged := fun e y hy => ?_ }
  · obtain ⟨x, hx, rfl⟩ := hback place hplace r hr c y hu hy
    exact mem_visible_of_boundKind (unresolved c x hx).1 hk
  · obtain ⟨x, -, rfl⟩ := hback place hplace r hr e y hu hy
    rw [boundKind_congr hframe]
    exact boundKind_idem
  · exact bound.unflagged (fun e x hx => (unresolved e x hx).2) e y hy

end Program

/-! ## Resolution -/

variable {source : String} {p : Program} {a a' : Analysis} {queue : Queue}

theorem Queue.grows_push (q : Queue) (d : Diagnostic) : q.Grows (q.push d).2 := by
  cases hr : q.refuses d with
  | true =>
    obtain ⟨n, hn⟩ := Queue.push_refused hr
    rw [hn]
    exact Queue.grows_dropped q n
  | false =>
    rw [Queue.push_kept hr]
    exact Queue.grows_append q d

/-- To look for `main` changes nothing else. -/
theorem determineMain_eq (a : Analysis) (source : String) :
    ∃ main searched, (a.determineMain source).program =
        { a.program with main, mainSearched := searched } ∧
      a.queue.Grows (a.determineMain source).queue := by
  simp only [determineMain]
  split
  · exact ⟨a.program.main, a.program.mainSearched, rfl, .refl _⟩
  · split
    · next f _ => exact ⟨some f, true, rfl, .refl _⟩
    · exact ⟨a.program.main, true, rfl, Queue.grows_push _ _⟩

/-- **A resolution that succeeds has bound the names, and then resolved
the types.** -/
theorem resolve_eq_ok : a.resolve source = .ok a' ↔
    a.program.validate = .ok () ∧ ∃ p₁, (a.determineMain source).program.bindNames source = .ok p₁ ∧
      Analysis.resolveTypes ⟨p₁, (a.determineMain source).queue⟩ source = .ok a' := by
  simp only [resolve, resolveNames]
  cases hv : a.program.validate with
  | error abort => simp [throw_eq_ok]
  | ok u =>
    cases hb : (a.determineMain source).program.bindNames source with
    | error abort => simp [bind, Except.bind]
    | ok p₁ => simp [bind, Except.bind]

/-- How a resolution of a fresh program goes: its layout is good, its
names are bound, and then its types are resolved. -/
structure Resolution (source : String) (p : Program) (queue : Queue) (p₁ : Program)
    (L : List StmtId) (a' : Analysis) : Prop where
  valid : p.validate = .ok ()
  binds : (Analysis.determineMain ⟨p, queue⟩ source).program.bindNames source = .ok p₁
  bound : Program.NamesBound (Analysis.determineMain ⟨p, queue⟩ source).program source p₁
  slots : p₁.SlotsHeld
  named : p₁.Named source
  types : Analysis.resolveTypes ⟨p₁, (Analysis.determineMain ⟨p, queue⟩ source).queue⟩ source = .ok a'
  changes : Changes (fun _ => True) (fun _ => True)
    ⟨p₁, (Analysis.determineMain ⟨p, queue⟩ source).queue⟩ a'
  done : a'.TypesDone source p₁ L
  heard : a'.TypesHeard p₁ L

theorem determineMain_frame (a : Analysis) (source : String) :
    (a.determineMain source).program.frame = a.program.frame := by
  obtain ⟨main, searched, hprogram, -⟩ := determineMain_eq a source
  rw [hprogram]
  rfl

/-- A fresh program stays so while `main` is looked for. -/
theorem Program.Fresh.determineMain (fresh : p.Fresh) (queue : Queue) (source : String) :
    (Analysis.determineMain ⟨p, queue⟩ source).program.Regular ∧
      (Analysis.determineMain ⟨p, queue⟩ source).program.exprs = p.exprs ∧
      (∀ e, (Analysis.determineMain ⟨p, queue⟩ source).program.operandsAt e = p.operandsAt e) ∧
      (Analysis.determineMain ⟨p, queue⟩ source).program.ScopesHeld ∧
      0 < (Analysis.determineMain ⟨p, queue⟩ source).program.symbolTables.size := by
  have hframe := determineMain_frame ⟨p, queue⟩ source
  obtain ⟨main, searched, hprogram, -⟩ := determineMain_eq ⟨p, queue⟩ source
  rw [hprogram] at hframe ⊢
  exact ⟨fresh.regular.congr hframe fresh.regular.operands, rfl, fun _ => rfl,
    ⟨fresh.scopes.links, fresh.scopes.bodies, fresh.scopes.block⟩, fresh.tables⟩

/-- **What a resolution of a fresh program comes to.** -/
theorem resolve_stages (fresh : p.Fresh) (once : p.UsedOnce)
    (h : Analysis.resolve ⟨p, queue⟩ source = .ok a') :
    ∃ p₁ L, Resolution source p queue p₁ L a' := by
  obtain ⟨hvalid, p₁, hbind, htypes⟩ := resolve_eq_ok.1 h
  have hframe := determineMain_frame ⟨p, queue⟩ source
  obtain ⟨regular, hexprs, hops, hscopes, htables⟩ := fresh.determineMain queue source
  have bound := Program.namesBound_of_bindNames regular htables hbind
  have named := bound.named regular (once.congr hframe hops) hscopes
    (by rw [hexprs]; exact fresh.unresolved)
  have slots : p₁.SlotsHeld := by
    intro s r hr
    rw [Program.slotsAt_congr bound.binding.frame] at hr
    rw [bound.binding.size]
    exact Program.slotsHeld_of_bindNames regular hbind s r hr
  obtain ⟨hchanges, L, hdone, hheard⟩ := resolveTypes_done (a := ⟨p₁, _⟩) named.regular named.usedOnce
    named.inScope (.refl named.regular.operands) named.isScoped named.unflagged htypes
  exact ⟨p₁, L, hvalid, hbind, bound, slots, named, htypes, hchanges, hdone, hheard⟩

theorem Resolution.frame {L : List StmtId} (went : Resolution source p queue p₁ L a') :
    a'.program.frame = p.frame :=
  went.done.pruned.frame.trans (went.bound.binding.frame.trans (determineMain_frame ⟨p, queue⟩ source))

/-- **What a resolution of a fresh program leaves.** -/
theorem resolve_done (fresh : p.Fresh) (once : p.UsedOnce)
    (h : Analysis.resolve ⟨p, queue⟩ source = .ok a') :
    ∃ p₁ q₁ L, p₁.Named source ∧ p₁.frame = p.frame ∧ queue.Grows q₁ ∧
      Changes (fun _ => True) (fun _ => True) ⟨p₁, q₁⟩ a' ∧
      a'.TypesDone source p₁ L ∧ a'.TypesHeard p₁ L := by
  obtain ⟨p₁, L, went⟩ := resolve_stages fresh once h
  obtain ⟨-, -, -, hqueue⟩ := determineMain_eq ⟨p, queue⟩ source
  have hframe := went.bound.binding.frame.trans (determineMain_frame ⟨p, queue⟩ source)
  exact ⟨p₁, _, L, went.named, hframe, hqueue, went.changes, went.done, went.heard⟩

end FrontEnd
