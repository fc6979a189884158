import FrontEnd.Proofs.Sound
/-!
# FrontEnd — name resolution does not fault

On a sound program with well-placed blocks name resolution succeeds, and
leaves a sound program (`bindNames_succeeds`). Expressions may be shared
and statements need not own what they declare: all the walk needs is
that every symbol it puts into a scope names a declaration that is held
(`Naming`).
-/

namespace FrontEnd

namespace Program

/-- Scopes are open whose symbols name declarations of a sound program. -/
structure Naming (p₀ : Program) (depth : ExprId → Nat) (reached : StmtId → Prop)
    (scopes : List OpenScope) (p : Program) : Prop extends Sound p₀ depth reached p where
  nested : NestedScopes p.symbolTables scopes
  named : ∀ scope ∈ scopes, ∀ symbol ∈ scope.symbols, ∃ name, p₀.nameOf symbol.target = .ok name

/-- The innermost open scope starts at `first`, inside of `outer`. -/
def NamingIn (p₀ : Program) (depth : ExprId → Nat) (reached : StmtId → Prop)
    (first : SymbolTableId) (outer : List OpenScope) (p : Program) : Prop :=
  ∃ ids symbols, Naming p₀ depth reached (⟨first, ids, symbols⟩ :: outer) p

variable {p₀ p : Program} {depth : ExprId → Nat} {reached reached' : StmtId → Prop}
variable {scopes outer : List OpenScope} {first : SymbolTableId} {source : String}
variable {e : ExprId} {s : StmtId} {t : Target} {kind : StmtKind} {topLevel : Bool}

/-! ## Names of declarations -/

/-- No keyword stands for an enum type. -/
theorem enum?_of_ofKeyword? {word : String} {t : Ty} (h : Ty.ofKeyword? word = some t) :
    t.enum? = none := by
  unfold Ty.ofKeyword? at h
  split_ifs at h <;> cases h <;> rfl

/-- What a declared name becomes fits everywhere. -/
theorem Fits.of_target (h : ∃ name, p.nameOf t = .ok name) : p.Fits depth e t.exprKind := by
  refine .leaf (checkExprKind_exprKind h) (fun type htype => ?_) (by cases t <;> rfl)
  obtain ⟨name, hname⟩ := h
  cases t with
  | enumType u =>
    cases htype
    rintro _ ⟨⟩
    obtain ⟨r, hr, -⟩ := bind_eq_ok.1 hname
    exact Table.lt_size_of_get? (Table.get_eq_ok.1 hr)
  | structType u =>
    cases htype
    exact .of_none rfl
  | _ => cases htype

theorem DeclarationHeld.nameOf_function {f : FunctionId} (held : p.DeclarationHeld (.function f)) :
    ∃ name, p.nameOf (.function f) = .ok name := by
  obtain ⟨r, hr, -⟩ := held
  exact exists_nameOf Function.name (Table.lt_size_of_get? hr)

theorem DeclarationHeld.nameOf_value (held : p.DeclarationHeld kind)
    (h : kind.declares = .value t) : ∃ name, p.nameOf t = .ok name := by
  cases kind with
  | enumType u =>
    cases h
    exact exists_nameOf EnumType.name held
  | structType u =>
    cases h
    exact exists_nameOf StructType.name held
  | «variable» v type init =>
    cases h
    exact exists_nameOf Variable.name held
  | _ => cases h

theorem eq_function_of_declares {f : FunctionId} (h : kind.declares = .function f) :
    kind = .function f := by
  cases kind <;> cases h
  rfl

/-! ## Expressions -/

namespace Naming

variable (naming : Naming p₀ depth reached scopes p)

include naming

theorem size_pos {scope : OpenScope} (hscope : scope ∈ scopes) : 0 < p.symbolTables.size := by
  induction naming.nested with
  | nil => simp at hscope
  | cons _ hr _ _ _ _ _ _ => exact Nat.lt_of_le_of_lt (Nat.zero_le _) (Table.lt_size_of_get? hr)

/-- A name can be looked up, and fits wherever it stands. -/
theorem meaning (name : Span) : Succeeds (p.meaning source (innermost scopes) name) fun found =>
    ∀ kind, found = some kind → p₀.Fits depth e kind := by
  unfold Program.meaning
  split
  · next t hkeyword =>
    refine .pure fun kind hkind => ?_
    cases hkind
    refine .leaf rfl (fun t' ht' => .of_none ?_) rfl
    cases ht'
    exact enum?_of_ofKeyword? hkeyword
  · refine .bind (.of_eq (naming.nested.findSymbol _) rfl) ?_
    rintro _ rfl
    refine .pure fun kind hkind => ?_
    obtain ⟨symbol, hfound, rfl⟩ := Option.map_eq_some_iff.1 hkind
    obtain ⟨scope, hscope, hsymbol⟩ := List.mem_flatMap.1 (List.mem_of_find?_eq_some hfound)
    exact .of_target (naming.named scope hscope symbol hsymbol)

theorem setKind {kind : ExprKind} (fits : p₀.Fits depth e kind) :
    Naming p₀ depth reached scopes (p.setKind e kind) :=
  { naming with toSound := naming.toSound.setKind fits }

end Naming

theorem bindExprWithin_succeeds {fuel : Nat} (naming : Naming p₀ depth reached scopes p)
    (he : e.raw < p₀.exprs.size) (hf : depth e < fuel) :
    Succeeds (bindExprWithin source (innermost scopes) fuel p e)
      (Naming p₀ depth reached scopes) := by
  induction fuel generalizing p e with
  | zero => omega
  | succ fuel ih =>
    refine (naming.get_expr he).bind fun x fits => ?_
    have hrest : Succeeds
        (do (← p.operands x.kind).foldlM (bindExprWithin source (innermost scopes) fuel) p)
        (Naming p₀ depth reached scopes) :=
      (naming.operands fits).bind fun es hes => .foldlM (Q := Naming p₀ depth reached scopes)
        (fun c hc q hq => ih hq (hes c hc).1 (by have := (hes c hc).2; omega)) naming
    obtain ⟨kind, span, type, flagged⟩ := x
    cases kind with
    | identifier =>
      refine (naming.meaning (e := e) span).bind fun found hfound => ?_
      cases found with
      | none => exact .pure naming
      | some kind => exact .pure (naming.setKind (hfound kind rfl))
    | _ => exact hrest

section

variable (ground : Grounded p₀ depth) (naming : NamingIn p₀ depth reached first outer p)

include naming

/-- The names in held expressions are resolved. -/
theorem bindExprs_succeeds (source : String) (ground : Grounded p₀ depth) {es : List ExprId}
    (hes : ∀ e ∈ es, e.raw < p₀.exprs.size) :
    Succeeds (bindExprs source first p es) (NamingIn p₀ depth reached first outer) := by
  refine .foldlM (fun e he q hq => ?_) naming
  obtain ⟨ids, symbols, hq⟩ := hq
  exact (bindExprWithin_succeeds hq (hes e he) (hq.depth_lt ground (hes e he))).mono
    fun q' hq' => ⟨ids, symbols, hq'⟩

/-! ## Declarations -/

theorem declareTarget_succeeds (ht : ∃ name, p₀.nameOf t = .ok name) :
    Succeeds (p.declareTarget first t) (NamingIn p₀ depth reached first outer) := by
  obtain ⟨ids, symbols, naming⟩ := naming
  obtain ⟨name, hname⟩ := ht
  have hname' : p.nameOf t = .ok name := by rw [← nameOf_frame, naming.frame, nameOf_frame, hname]
  obtain ⟨tables, ids', hdeclare, -, nested⟩ := naming.nested.declare ⟨name, t⟩
  refine (Succeeds.of_eq hname' rfl).bind ?_
  rintro _ rfl
  refine .of_eq hdeclare ⟨ids', _, { naming with nested, named := ?_ }⟩
  obtain ⟨hinner, houter⟩ := List.forall_mem_cons.1 naming.named
  refine List.forall_mem_cons.2 ⟨fun symbol hsymbol => ?_, houter⟩
  rcases List.mem_append.1 hsymbol with hold | hnew
  · exact hinner symbol hold
  · rw [List.mem_singleton.1 hnew]
    exact ⟨name, hname⟩

include ground

theorem declareAhead_succeeds (topLevel : Bool) (hs : s.raw < p₀.stmts.size) :
    Succeeds (declareAhead topLevel first p s) (NamingIn p₀ depth reached first outer) := by
  obtain ⟨ids, symbols, inner⟩ := naming
  refine (inner.get_stmt ground hs).bind fun stmt ⟨held, _⟩ => ?_
  have naming : NamingIn p₀ depth reached first outer p := ⟨ids, symbols, inner⟩
  cases hk : stmt.kind.declares with
  | nothing => exact .pure naming
  | function f =>
    rw [eq_function_of_declares hk] at held
    exact declareTarget_succeeds naming held.nameOf_function
  | value target =>
    cases topLevel with
    | true => exact declareTarget_succeeds naming (held.nameOf_value hk)
    | false => exact .pure naming

theorem declareAllAhead_succeeds (topLevel : Bool) {outline : Outline} {i j : Nat}
    (lays : Lays p₀ i j outline) :
    Succeeds (declareAllAhead topLevel first p outline)
      (NamingIn p₀ depth reached first outer) := by
  obtain ⟨direct, hdirect, hheld⟩ := lays.direct_held
  refine (Succeeds.of_eq hdirect rfl).bind ?_
  rintro _ rfl
  refine .foldlM (fun s hs q hq => ?_) naming
  obtain ⟨stmt, hstmt⟩ := hheld s hs
  exact declareAhead_succeeds ground hq topLevel (Table.lt_size_of_get? hstmt)

theorem declareInside_succeeds (hs : s.raw < p₀.stmts.size) :
    Succeeds (declareInside first p s) (NamingIn p₀ depth reached first outer) := by
  obtain ⟨ids, symbols, inner⟩ := naming
  refine (inner.get_stmt ground hs).bind fun stmt ⟨held, _⟩ => ?_
  have naming : NamingIn p₀ depth reached first outer p := ⟨ids, symbols, inner⟩
  obtain ⟨kind, span⟩ := stmt
  cases kind with
  | function f =>
    have held' : p.DeclarationHeld (.function f) := by
      rw [show StmtKind.function f = (StmtKind.function f).frame from rfl, ← declarationHeld_frame,
        ← inner.frame] at held
      exact (declarationHeld_frame _).1 held
    obtain ⟨r, hr, hrange⟩ := held'
    obtain ⟨parameters, hslice⟩ := slice_ok hrange
    refine (Succeeds.of_eq (Table.get_eq_ok.2 hr) rfl).bind ?_
    rintro _ rfl
    refine (Succeeds.of_eq hslice rfl).bind ?_
    rintro _ rfl
    refine .foldlM (fun x hx q hq => declareTarget_succeeds hq ?_) naming
    have hlt := Table.lt_size_of_get? (mem_slice hslice hx).1
    rw [size_parameters_congr inner.frame] at hlt
    exact exists_nameOf Parameter.name hlt
  | nest head body =>
    cases head with
    | forEach iterator iterable =>
      exact declareTarget_succeeds naming (exists_nameOf Variable.name held)
    | _ => exact .pure naming
  | _ => exact .pure naming

/-! ## Statements -/

theorem bindLeaf_succeeds (source : String) (topLevel : Bool) (hs : s.raw < p₀.stmts.size) :
    Succeeds (bindLeaf source topLevel first p s) (NamingIn p₀ depth reached first outer) := by
  obtain ⟨ids, symbols, inner⟩ := naming
  refine (inner.get_stmt ground hs).bind fun stmt ⟨held, hexprs, _⟩ => ?_
  have naming : NamingIn p₀ depth reached first outer p := ⟨ids, symbols, inner⟩
  refine (bindExprs_succeeds naming source ground hexprs).bind fun q hq => ?_
  cases hk : stmt.kind.declares with
  | value target =>
    cases topLevel with
    | true => exact .pure hq
    | false => exact declareTarget_succeeds hq (held.nameOf_value hk)
  | _ => exact .pure hq

theorem bindHead_succeeds (source : String) (hs : s.raw < p₀.stmts.size) :
    Succeeds (bindHead source first p s) (NamingIn p₀ depth reached first outer) := by
  obtain ⟨ids, symbols, inner⟩ := naming
  refine (inner.get_stmt ground hs).bind fun stmt ⟨_, hexprs, hsignature⟩ => ?_
  have naming : NamingIn p₀ depth reached first outer p := ⟨ids, symbols, inner⟩
  obtain ⟨kind, span⟩ := stmt
  cases kind with
  | function f =>
    exact (hsignature f rfl).bind fun es hes => bindExprs_succeeds naming source ground hes
  | _ => exact bindExprs_succeeds naming source ground hexprs

end

/-! ## Bodies -/

/-- A body gets a scope of its own. -/
theorem openScope_succeeds (naming : NamingIn p₀ depth reached first outer p)
    (hs : ∃ body, p₀.bodyOf s = .ok (some body)) :
    ∃ scope, scope.first = first ∧ Naming p₀ depth reached (scope :: outer) p ∧
      Succeeds (p.openScope s first) fun (inner, p') =>
        NamingIn p₀ depth (fun s' => reached s' ∨ s' = s) inner (scope :: outer) p' := by
  obtain ⟨ids, symbols, naming⟩ := naming
  obtain ⟨_, hbody⟩ := hs
  obtain ⟨body, hbody⟩ := bodyOf_some_congr naming.frame hbody
  have hpos := naming.size_pos (List.mem_cons_self ..)
  obtain ⟨p', hp', opens⟩ := openScope_ok first hbody
  refine ⟨_, rfl, naming, _, hp', [p.symbolTables.nextId], [], ?_⟩
  have hvars := congrArg Program.vars opens.unscoped
  have hparameters := congrArg Program.parameters opens.unscoped
  simp only [unscoped] at hvars hparameters
  exact
    { frame := (frame_openScope hp').trans naming.frame
      block := opens.block.trans naming.block
      fits := opens.exprs ▸ naming.fits
      vars := hvars ▸ naming.vars
      parameters := hparameters ▸ naming.parameters
      functions := fun f r hr => by
        -- the function may have been given the scope
        have hfunctions := congrArg (fun q : Program => q.functions.get? f) opens.unscoped
        simp only [unscoped, Table.get?_map, hr] at hfunctions
        obtain ⟨r', hr', heq⟩ := Option.map_eq_some_iff.1 hfunctions.symm
        have htype := congrArg Function.returnType heq
        exact htype ▸ naming.functions f r' hr'
      bodies := fun s' hs' => by
        rcases hs' with hold | rfl
        · exact opens.keeps_scoped hpos (naming.bodies s' hold)
        · exact opens.scoped_self hpos hbody
      nested := by
        rw [opens.tables]
        exact naming.nested.open_new hpos
      named := List.forall_mem_cons.2 ⟨by simp, naming.named⟩ }

/-- When a body is left, the scopes around it are open as before. -/
theorem NamingIn.leave (naming : NamingIn p₀ depth reached first scopes p) :
    Naming p₀ depth reached scopes p := by
  obtain ⟨ids, symbols, naming⟩ := naming
  cases naming.nested with
  | cons _ _ _ _ _ _ rest =>
    exact { naming with nested := rest, named := (List.forall_mem_cons.1 naming.named).2 }

/-- A statement without a body need not be given a scope. -/
theorem NamingIn.reach (naming : NamingIn p₀ depth reached first scopes p)
    (h : ∀ s, reached' s → reached s ∨ p₀.bodyOf s = .ok none) :
    NamingIn p₀ depth reached' first scopes p := by
  obtain ⟨ids, symbols, naming⟩ := naming
  refine ⟨ids, symbols, { naming with bodies := fun s hs body hbody => ?_ }⟩
  rcases h s hs with hold | hnone
  · exact naming.bodies s hold body hbody
  · rw [bodyOf_none_congr naming.frame hnone] at hbody
    cases hbody

/-- **The walk of an outline succeeds**, and every body in it has a scope
afterwards. -/
theorem bindOutline_succeeds {i j : Nat} {outline : Outline} (source : String) (topLevel : Bool)
    (ground : Grounded p₀ depth) (lays : Lays p₀ i j outline)
    (naming : NamingIn p₀ depth reached first outer p) :
    Succeeds (bindOutline source topLevel first outline p)
      (NamingIn p₀ depth (fun s => reached s ∨ i ≤ s.raw ∧ s.raw < j) first outer) := by
  induction lays generalizing topLevel reached first outer p with
  | done i => exact .pure (naming.reach fun s hs => .inl (by grind))
  | @leaf i j rest single tail ih =>
    have hs : i < p₀.stmts.size := lt_size_of_bodyOf single
    refine (bindLeaf_succeeds ground naming source topLevel hs).lift.bind fun q hq => ?_
    refine (ih topLevel hq).mono fun p' hp' => hp'.reach fun ⟨k⟩ hk => ?_
    by_cases h : k = i
    · exact .inr (h ▸ single)
    · exact .inl (by grind)
  | @nested i k j block body rest owns place inner tail ihBody ihRest =>
    have hs : i < p₀.stmts.size := lt_size_of_bodyOf owns
    refine (bindHead_succeeds ground naming source hs).lift.bind fun q₁ hq₁ => ?_
    obtain ⟨⟨_, ids, symbols⟩, rfl, -, hopen⟩ := openScope_succeeds hq₁ ⟨block, owns⟩
    refine hopen.bind fun ⟨scope, q₂⟩ hq₂ => ?_
    refine (declareInside_succeeds ground hq₂ hs).lift.bind fun q₃ hq₃ => ?_
    refine (declareAllAhead_succeeds ground hq₃ false inner).lift.bind fun q₄ hq₄ => ?_
    refine (ihBody false hq₄).bind fun q₅ hq₅ => ?_
    refine (ihRest topLevel ⟨ids, symbols, hq₅.leave⟩).mono fun p' hp' => ?_
    exact hp'.reach fun ⟨l⟩ hl => .inl (by grind)

/-! ## The pass -/

/-- **Name resolution succeeds on sound programs** with well-placed
blocks, and leaves a sound program where every block has a scope. -/
theorem bindNames_succeeds {i j : Nat} (source : String) (ground : p.Grounded depth)
    (sound : Sound p depth (fun _ => False) p) (lays : Lays p i j (p.outline p.block))
    (hpos : 0 < p.symbolTables.size) :
    Succeeds (p.bindNames source) fun p' => p'.frame = p.frame ∧
      p'.block.symbolTable.isSentinel = false ∧
      Sound p' depth (fun s => i ≤ s.raw ∧ s.raw < j) p' := by
  let q : Program :=
    { p with
      symbolTables := p.symbolTables.push {}
      block := { p.block with symbolTable := p.symbolTables.nextId } }
  have hframe : q.frame = p.frame := rfl
  have hscope : p.symbolTables.nextId.isSentinel = false := by
    simpa [RecordId.isSentinel, Table.nextId] using Nat.ne_of_gt hpos
  have ground' : q.Grounded depth := ground.congr hframe
  have lays' : Lays q i j (p.outline p.block) := lays.congr fun _ _ _ => bodyPlace_congr hframe
  have naming : NamingIn q depth (fun _ => False) p.symbolTables.nextId [] q :=
    ⟨[p.symbolTables.nextId], [], { sound.start hframe rfl rfl rfl rfl with
      nested := NestedScopes.nil.open_new hpos
      named := by simp }⟩
  refine (declareAllAhead_succeeds ground' naming true lays').lift.bind fun q₁ hq₁ => ?_
  refine (bindOutline_succeeds source true ground' lays' hq₁).mono fun p' hp' => ?_
  have sound' := hp'.leave.toSound
  refine ⟨sound'.frame.trans hframe, ?_, (sound'.mono fun s hs => .inr hs).rebase⟩
  rw [sound'.block]
  exact hscope

end Program

end FrontEnd
