import FrontEnd.Proofs.Resolved
/-!
# FrontEnd — the layout, once more

The layout of a program is found good again after its names and types
have been resolved (`validate_congr`): what the passes write into it are
links to scopes that are there, and references to declarations that can
be seen (`KindsHeld`).
-/

namespace FrontEnd

section

variable {ε α : Type} {f : α → Except ε Unit} {xs : List α}

/-- A check of a list succeeds if that of each element does. -/
theorem forM_eq_ok : xs.forM f = .ok () ↔ ∀ x ∈ xs, f x = .ok () := by
  induction xs with
  | nil => simp [pure, Except.pure]
  | cons x xs ih =>
    rw [List.forall_mem_cons, ← ih]
    simp only [List.forM_eq_forM, List.forM_cons, bind_eq_ok]
    exact ⟨fun ⟨_, hx, hxs⟩ => ⟨hx, hxs⟩, fun ⟨hx, hxs⟩ => ⟨(), hx, hxs⟩⟩

end

namespace Table

variable {k : RecordKind} {α β : Type} {t : Table k α} {x : α}

theorem mem_toList : x ∈ t.toList ↔ ∃ i, t.get? i = some x := by
  simp only [get?_eq_toList, List.mem_iff_getElem?]
  exact ⟨fun ⟨n, h⟩ => ⟨⟨n⟩, h⟩, fun ⟨i, h⟩ => ⟨i.raw, h⟩⟩

theorem checkId_eq_ok {i : RecordId k} : t.checkId i = .ok () ↔ i.raw < t.size := by
  unfold checkId
  split
  · next h => simp [h]
  · next h => simp [h]

@[simp] theorem checkId_map (f : α → β) : (t.map f).checkId = t.checkId := by
  funext i
  simp only [checkId, size_map]

@[simp] theorem checkRange_map (f : α → β) : (t.map f).checkRange = t.checkRange := by
  funext r
  simp only [checkRange, checkId_map]

end Table

namespace Program

variable {p p' p₀ : Program} {source : String} {kind : ExprKind} {visible : List Target} {x : Expr}
variable {sites : List Site} {e : ExprId} {t : Target}

/-! ## What the checks read -/

theorem checkExprKind_frame (kind : ExprKind) : p.frame.checkExprKind kind = p.checkExprKind kind := by
  cases kind <;> simp [checkExprKind, frame]

theorem checkExprKind_congr (h : p'.frame = p.frame) (kind : ExprKind) :
    p'.checkExprKind kind = p.checkExprKind kind := by
  rw [← checkExprKind_frame, h, checkExprKind_frame]

theorem checkDeclarations_frame : p.frame.checkDeclarations = p.checkDeclarations := by
  have hfunctions : (p.functions.map Function.frame).toList.forM p.frame.checkFunction =
      p.functions.toList.forM p.checkFunction := by
    rw [Table.toList_map, List.forM_eq_forM, List.forM_map]
    congr 1
    funext f
    simp [checkFunction, frame, Function.frame]
  have hparameters : (p.parameters.map Parameter.frame).toList.forM
        (fun a => a.typeExpr.forM p.frame.exprs.checkId) =
      p.parameters.toList.forM fun a => a.typeExpr.forM p.exprs.checkId := by
    rw [Table.toList_map, List.forM_eq_forM, List.forM_map]
    congr 1
    funext a
    simp [frame, Parameter.frame]
  simp only [checkDeclarations]
  rw [show p.frame.functions = p.functions.map Function.frame from rfl, hfunctions,
    show p.frame.parameters = p.parameters.map Parameter.frame from rfl, hparameters]
  rfl

theorem checkStmtKind_frame (kind : StmtKind) :
    p.frame.checkStmtKind kind.frame = p.checkStmtKind kind := by
  cases kind with
  | nest head body => cases head <;> simp [checkStmtKind, StmtKind.frame, frame]
  | returnValue value => cases value <;> simp [checkStmtKind, StmtKind.frame, frame]
  | _ => simp [checkStmtKind, StmtKind.frame, frame]

theorem checkStmts_frame : (p.frame.stmts.toList.forM fun s => p.frame.checkStmtKind s.kind) =
    p.stmts.toList.forM fun s => p.checkStmtKind s.kind := by
  rw [show p.frame.stmts = p.stmts.map Stmt.frame from rfl, Table.toList_map, List.forM_eq_forM,
    List.forM_map]
  congr 1
  funext s
  exact checkStmtKind_frame s.kind

/-! ## Blocks -/

/-- The bodies in a block are those in its frame, without their scopes. -/
theorem bodies_frame (b : Block) : p.frame.bodies b.frame =
    (p.bodies b).map (List.map fun (s, body) => (s, body.frame)) := by
  simp only [bodies, children_frame]
  cases p.children b with
  | error fault => rfl
  | ok children =>
    simp only [ok_bind]
    induction children.ids with
    | nil => rfl
    | cons s ids ih =>
      rw [List.filterMapM_cons, List.filterMapM_cons, ih, bodyOf_frame]
      cases p.bodyOf s with
      | error fault => rfl
      | ok body =>
        cases body with
        | none => rfl
        | some body =>
          simp only [Except.map, ok_bind, Option.map_some, pure, Except.pure]
          split
          · next heq => rw [heq]; rfl
          · next heq => rw [heq]; rfl

/-- The bodies in a block are those of its children. -/
theorem mem_bodies {b body : Block} {s : StmtId} {children : Children} {bodies : List (StmtId × Block)}
    (hc : p.children b = .ok children) (h : p.bodies b = .ok bodies) :
    (s, body) ∈ bodies ↔ s ∈ children.ids ∧ p.bodyOf s = .ok (some body) := by
  simp only [Program.bodies, hc, ok_bind] at h
  rw [mem_filterMapM h]
  constructor
  · rintro ⟨s', hs', hfound⟩
    obtain ⟨body', hbody', hfound⟩ := bind_eq_ok.1 hfound
    obtain ⟨body', rfl, heq⟩ := Option.map_eq_some_iff.1 (pure_eq_ok.1 hfound)
    cases heq
    exact ⟨hs', hbody'⟩
  · rintro ⟨hs, hbody⟩
    exact ⟨s, hs, by simp only [hbody, ok_bind]; rfl⟩

/-- A body whose scope has been there has one that is there. -/
def ScopesStay (p p' : Program) : Prop :=
  ∀ s body body', p.bodyOf s = .ok (some body) → p'.bodyOf s = .ok (some body') →
    body.symbolTable.raw < p.symbolTables.size → body'.symbolTable.raw < p'.symbolTables.size

theorem ScopesHeld.stay (held : p'.ScopesHeld) : p.ScopesStay p' :=
  fun s _ body' _ hbody' _ => held.bodies s body' hbody'

/-- **Blocks are well placed whatever scopes they are given**, as long as
the scopes are there. -/
theorem checkBlockWithin_congr {fuel : Nat} {b b' : Block} (hframe : p'.frame = p.frame)
    (stay : p.ScopesStay p') (hb : b'.frame = b.frame)
    (hscope : b.symbolTable.raw < p.symbolTables.size → b'.symbolTable.raw < p'.symbolTables.size)
    (h : p.checkBlockWithin fuel b = .ok ()) : p'.checkBlockWithin fuel b' = .ok () := by
  induction fuel generalizing b b' with
  | zero => cases h
  | succ fuel ih =>
    obtain ⟨⟨⟩, hscoped, h⟩ := bind_eq_ok.1 h
    obtain ⟨bodies, hbodies, h⟩ := bind_eq_ok.1 h
    obtain ⟨⟨⟩, hplaces, hinner⟩ := bind_eq_ok.1 h
    rw [lift_eq_ok] at hbodies
    -- the bodies stand where they stood, each in a scope of its own
    have hsame := bodies_frame (p := p') b'
    rw [hframe, hb, bodies_frame, hbodies] at hsame
    cases hbodies' : p'.bodies b' with
    | error fault =>
      rw [hbodies'] at hsame
      cases hsame
    | ok bodies' =>
      rw [hbodies'] at hsame
      have hmap := Except.ok.inj hsame
      have hback : ∀ c ∈ bodies', ∃ body, (c.1, body) ∈ bodies ∧ c.2.frame = body.frame := by
        intro c hc
        have hmem : (c.1, c.2.frame) ∈ bodies'.map fun c => (c.1, c.2.frame) := List.mem_map_of_mem hc
        rw [← hmap] at hmem
        obtain ⟨d, hd, heq⟩ := List.mem_map.1 hmem
        obtain ⟨h1, h2⟩ := Prod.mk.inj heq
        exact ⟨d.2, h1 ▸ hd, h2.symm⟩
      have hstatements : b'.statements = b.statements := by
        have := congrArg Block.statements hb
        exact this
      simp only [checkBlockWithin, Table.checkId_eq_ok.2 (hscope (Table.checkId_eq_ok.1 hscoped)), hbodies',
        lift_ok, ok_bind]
      refine bind_eq_ok.2 ⟨(), forM_eq_ok.2 fun c hc => ?_, forM_eq_ok.2 fun c hc => ?_⟩
      · obtain ⟨body, hmem, heq⟩ := hback c hc
        have hplace := forM_eq_ok.1 hplaces _ hmem
        have hbody : c.2.statements = body.statements := by
          have := congrArg Block.statements heq
          exact this
        simp only [checkPlace] at hplace ⊢
        rw [hbody, hstatements]
        exact hplace
      · rw [List.mem_reverse] at hc
        obtain ⟨body, hmem, heq⟩ := hback c hc
        have hin := forM_eq_ok.1 hinner _ (List.mem_reverse.2 hmem)
        obtain ⟨children, hchildren, -⟩ := bind_eq_ok.1 hbodies
        obtain ⟨children', hchildren', -⟩ := bind_eq_ok.1 hbodies'
        exact ih heq (stay _ _ _ ((mem_bodies hchildren hbodies).1 hmem).2
          ((mem_bodies hchildren' hbodies').1 hc).2) hin

/-! ## References -/

/-- Whatever an expression refers to is there. -/
def KindsHeld (p : Program) : Prop :=
  ∀ e x, p.exprs.get? e = some x → p.checkExprKind x.kind = .ok ()

/-- **What makes a layout good.** -/
theorem validate_eq_ok : p.validate = .ok () ↔ p.KindsHeld ∧ p.checkDeclarations = .ok () ∧
    (p.stmts.toList.forM fun s => p.checkStmtKind s.kind) = .ok () ∧ p.checkBlocks = .ok () ∧
      ∀ t r, p.symbolTables.get? t = some r → r.next.raw < p.symbolTables.size := by
  have hkinds : (p.exprs.toList.forM fun x => p.checkExprKind x.kind) = .ok () ↔ p.KindsHeld := by
    simp only [forM_eq_ok, Table.mem_toList, KindsHeld]
    exact ⟨fun h e x hx => h x ⟨e, hx⟩, fun h x ⟨e, hx⟩ => h e x hx⟩
  have hlinks : (p.symbolTables.toList.forM fun t => p.symbolTables.checkId t.next) = .ok () ↔
      ∀ t r, p.symbolTables.get? t = some r → r.next.raw < p.symbolTables.size := by
    simp only [forM_eq_ok, Table.mem_toList, Table.checkId_eq_ok]
    exact ⟨fun h t r hr => h r ⟨t, hr⟩, fun h r ⟨t, hr⟩ => h t r hr⟩
  simp only [validate, bind_eq_ok, hkinds, hlinks]
  exact ⟨fun ⟨_, h₁, _, h₂, _, h₃, _, h₄, h₅⟩ => ⟨h₁, h₂, h₃, h₄, h₅⟩,
    fun ⟨h₁, h₂, h₃, h₄, h₅⟩ => ⟨(), h₁, (), h₂, (), h₃, (), h₄, h₅⟩⟩

theorem KindsHeld.congr (held : p.KindsHeld) (h : p'.frame = p.frame) (hexprs : p'.exprs = p.exprs) :
    p'.KindsHeld := by
  intro e x hx
  rw [checkExprKind_congr h]
  exact held e x (hexprs ▸ hx)

/-- **The layout stays good** as long as what is written into the program
refers to something. -/
theorem validate_stays (valid : p.validate = .ok ()) (h : p'.frame = p.frame)
    (kinds : p'.KindsHeld) (stay : p.ScopesStay p')
    (block : p.block.symbolTable.raw < p.symbolTables.size →
      p'.block.symbolTable.raw < p'.symbolTables.size)
    (links : ∀ t r, p'.symbolTables.get? t = some r → r.next.raw < p'.symbolTables.size) :
    p'.validate = .ok () := by
  obtain ⟨-, hdeclarations, hstmts, hblocks, -⟩ := validate_eq_ok.1 valid
  refine validate_eq_ok.2 ⟨kinds, ?_, ?_, ?_, links⟩
  · rw [← checkDeclarations_frame, h, checkDeclarations_frame, hdeclarations]
  · rw [← checkStmts_frame, h, checkStmts_frame, hstmts]
  · have hblock : p'.block.frame = p.block.frame := congrArg Program.block h
    have hstatements : p'.block.statements = p.block.statements := by
      have := congrArg Block.statements hblock
      exact this
    simp only [checkBlocks, Block.len, hstatements, size_stmts_congr h] at hblocks ⊢
    split at hblocks
    · cases hblocks
    · next hfits =>
      rw [if_neg hfits]
      exact checkBlockWithin_congr h stay hblock block hblocks

theorem validate_congr (valid : p.validate = .ok ()) (h : p'.frame = p.frame)
    (kinds : p'.KindsHeld) (scopes : p'.ScopesHeld) : p'.validate = .ok () :=
  validate_stays valid h kinds scopes.stay (fun _ => scopes.block) scopes.links

/-- Only what is declared can be seen. -/
theorem owned_of_visible {topLevel : Bool} {own outer : List Target} {o : Outline} {place : Place}
    (hplace : place ∈ p.placesIn topLevel own outer o) (ht : t ∈ place.visible) :
    t ∈ own ++ outer ∨ ∃ s, t ∈ p.owned s := by
  induction o generalizing topLevel own outer with
  | stuck fault => simp [placesIn] at hplace
  | done => simp [placesIn] at hplace
  | leaf s rest ih =>
    rcases List.mem_cons.1 hplace with rfl | hplace
    · exact .inl ht
    · rcases ih hplace with hmem | howned
      · rcases List.mem_append.1 hmem with hown | houter
        · rcases List.mem_append.1 hown with hown | hbehind
          · exact .inl (List.mem_append_left _ hown)
          · exact .inr ⟨s, owned_of_behind hbehind⟩
        · exact .inl (List.mem_append_right _ houter)
      · exact .inr howned
  | nested s body rest ihBody ihRest =>
    rcases List.mem_cons.1 hplace with rfl | hplace
    · exact .inl ht
    · rcases List.mem_append.1 hplace with hplace | hplace
      · rcases ihBody hplace with hmem | howned
        · rcases List.mem_append.1 hmem with hnew | hmem
          · rcases List.mem_append.1 hnew with hinside | hahead
            · exact .inr ⟨s, owned_of_inside hinside⟩
            · obtain ⟨s', -, hahead⟩ := List.mem_flatMap.1 hahead
              exact .inr ⟨s', owned_of_ahead hahead⟩
          · exact .inl hmem
        · exact .inr howned
      · exact ihRest hplace

theorem owned_of_places {place : Place} (hplace : place ∈ p.places) (ht : t ∈ place.visible) :
    ∃ s, t ∈ p.owned s := by
  rcases owned_of_visible hplace ht with hmem | howned
  · rw [List.append_nil] at hmem
    obtain ⟨s, -, hahead⟩ := List.mem_flatMap.1 hmem
    exact ⟨s, owned_of_ahead hahead⟩
  · exact howned

/-- What has a name is there. -/
theorem checkExprKind_exprKind (h : ∃ name, p.nameOf t = .ok name) :
    p.checkExprKind t.exprKind = .ok () := by
  obtain ⟨name, h⟩ := h
  cases t with
  | enumType u => rfl
  | structType u => rfl
  | _ =>
    obtain ⟨r, hr, -⟩ := bind_eq_ok.1 h
    exact Table.checkId_eq_ok.2 (Table.lt_size_of_get? (Table.get_eq_ok.1 hr))

/-- A name is bound to what has a name. -/
theorem checkExprKind_boundKind (hvisible : ∀ t ∈ visible, ∃ name, p.nameOf t = .ok name)
    (hx : p.checkExprKind x.kind = .ok ()) :
    p.checkExprKind (p.boundKind source visible x) = .ok () := by
  by_cases hk : x.kind = .identifier
  · simp only [boundKind, hk, means]
    split
    · rfl
    · cases hfound : visible.find? fun t => (p.nameAt t).read source == x.span.read source with
      | none => rfl
      | some t => exact checkExprKind_exprKind (hvisible t (List.mem_of_find?_eq_some hfound))
  · rw [boundKind_of_ne hk]
    exact hx

/-- **What names are bound to is there.** -/
theorem NamesBound.kindsHeld (bound : NamesBound p source p') (regular : p.Regular)
    (held : p.KindsHeld) : p'.KindsHeld := by
  have hsites : ∀ sites : List Site, (∀ site ∈ sites, ∀ t ∈ site.2, ∃ s, t ∈ p.owned s) →
      ∀ e x, p.checkExprKind x.kind = .ok () →
        p.checkExprKind (p.bindAll source sites e x).kind = .ok () := by
    intro sites hvisible e x hx
    induction sites generalizing x with
    | nil => exact hx
    | cons site sites ih =>
      obtain ⟨hsite, hrest⟩ := List.forall_mem_cons.1 hvisible
      refine ih hrest (p.bindAt source e x site) ?_
      by_cases hu : p.Under site.1 e
      · rw [bindAt_of_under hu]
        refine checkExprKind_boundKind (fun t ht => ?_) hx
        obtain ⟨s, hs⟩ := hsite t ht
        exact exists_name regular.declarations hs
      · rw [bindAt_of_not_under hu]
        exact hx
  intro e x' hx'
  rw [bound.bound e] at hx'
  obtain ⟨x, hx, rfl⟩ := Option.map_eq_some_iff.1 hx'
  rw [checkExprKind_congr bound.binding.frame]
  refine hsites _ (fun site hsite t ht => ?_) e x (held e x hx)
  obtain ⟨place, hplace, hsite⟩ := List.mem_flatMap.1 hsite
  obtain ⟨r, -, rfl⟩ := List.mem_map.1 hsite
  exact owned_of_places hplace ht

end Program

/-- **The values that names become are there.** -/
theorem Changes.kindsHeld {region : ExprId → Prop} {targets : Target → Prop} {a a' : Analysis}
    (h : Changes region targets a a') (held : a.program.KindsHeld) : a'.program.KindsHeld := by
  intro e x' hx'
  have hlt := Table.lt_size_of_get? hx'
  obtain ⟨x, hx⟩ := Table.exists_get?_of_lt (h.size ▸ hlt)
  obtain ⟨y, hy, hm⟩ := h.matures e x hx
  rw [hx'] at hy
  obtain rfl := Option.some.inj hy
  rw [Program.checkExprKind_congr h.frame]
  rcases hm.kind with hkind | ⟨-, v, hv⟩
  · rw [hkind]
    exact held e x hx
  · rcases h.values e x' v hx' hv with ⟨z, hz, hzk⟩ | hlt
    · rw [hv, ← hzk]
      exact held e z hz
    · rw [hv]
      exact Table.checkId_eq_ok.2 hlt

end FrontEnd
