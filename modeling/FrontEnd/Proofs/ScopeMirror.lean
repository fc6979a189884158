import FrontEnd.Proofs.BlockWalks
import FrontEnd.Proofs.GivenTypes
import FrontEnd.Proofs.RenamedTypes
import FrontEnd.Proofs.ScopeWalk
import FrontEnd.Proofs.Unset
import FrontEnd.Proofs.ValidAgain
/-!
# FrontEnd — scopes mirror blocks

After the name pass the scopes form the tree that the blocks form. Each
block that can be reached has a scope of its own, in tables that are new,
linked to the scope of the block around it and with what the block
declares in order (`Program.BlockScope`). This is so whether or not the
program has been resolved before (`resolveNames_mirrors_blocks`): the pass
goes by what no pass changes, and leaves old tables alone.
-/

namespace FrontEnd

open Analysis Program

variable {p₀ p p' : Program} {source : String} {owner owner' : Option StmtId} {around : Option Block}
variable {b block : Block} {ids : List StmtId} {s : StmtId} {o : Outline}
variable {top scope scope' : OpenScope} {hs hs' : List Housing} {t : SymbolTableId}

namespace Program

/-! ## What a block declares -/

theorem declaredIn_congr (h : p'.frame = p.frame) : p'.declaredIn owner ids = p.declaredIn owner ids := by
  have inside : p'.declaredInside = p.declaredInside := funext fun s => by
    rw [← declaredInside_frame, h, declaredInside_frame]
  have ahead : ∀ topLevel, p'.declaredAhead topLevel = p.declaredAhead topLevel := fun topLevel =>
    funext fun s => by rw [← declaredAhead_frame, h, declaredAhead_frame]
  have behind : ∀ topLevel, p'.declaredBehind topLevel = p.declaredBehind topLevel := fun topLevel =>
    funext fun s => by rw [← declaredBehind_frame, h, declaredBehind_frame]
  rw [declaredIn, declaredIn, inside, ahead, behind]

/-- The body of a function knows its parameters, each once. -/
theorem declaredInside_of_function {f : FunctionId} {span : Span}
    (hs : p.stmts.get s = .ok ⟨.function f, span⟩) :
    ∃ parameters : List ParameterId, parameters.Nodup ∧ p.declaredInside s = parameters.map .parameter := by
  simp only [declaredInside, hs, ok_bind]
  cases p.functions.get f with
  | error fault => exact ⟨[], .nil, rfl⟩
  | ok r =>
    simp only [ok_bind]
    cases hslice : p.parameters.slice r.parameters with
    | error fault => exact ⟨[], .nil, rfl⟩
    | ok parameters =>
      refine ⟨parameters.map (·.1), slice_nodup hslice, ?_⟩
      simp [ok_bind, pure, Except.pure, Function.comp_def]

/-- A statement adds nothing twice to the declarations. -/
theorem owned_nodup (p : Program) (s : StmtId) : (p.owned s).Nodup := by
  cases hs : p.stmts.get s with
  | error fault => simp [owned, declaredAhead, declaredInside, hs, bind, Except.bind]
  | ok stmt =>
    obtain ⟨kind, span⟩ := stmt
    cases kind with
    | function f =>
      obtain ⟨parameters, nodup, hinside⟩ := declaredInside_of_function hs
      rw [owned, declaredAhead_eq _ hs, hinside]
      exact List.nodup_cons.2 ⟨by simp, nodup.map fun i j hij => by cases hij; rfl⟩
    | nest head body =>
      cases head <;> simp [owned, declaredAhead, declaredInside, hs, ok_bind, StmtKind.declares, pure,
        Except.pure]
    | _ => simp [owned, declaredAhead, declaredInside, hs, ok_bind, StmtKind.declares, pure, Except.pure]

/-- What is known ahead of statements or behind them is what each of them
declares, in another order. -/
theorem declaredAhead_behind_perm (p : Program) (topLevel : Bool) (ids : List StmtId) :
    (ids.flatMap (p.declaredAhead topLevel) ++ ids.flatMap (p.declaredBehind topLevel)).Perm
      (ids.flatMap (p.declaredAhead true)) := by
  have := List.flatMap_append_perm ids (p.declaredAhead topLevel) (p.declaredBehind topLevel)
  simpa only [declaredAhead_append_behind] using this

/-- **A block declares nothing twice.** -/
theorem declaredIn_nodup (owners : ∀ s s' t, t ∈ p.owned s → t ∈ p.owned s' → s = s')
    (nodup : ids.Nodup) : (p.declaredIn owner ids).Nodup := by
  have parts : ∀ s, (p.declaredAhead true s).Nodup ∧ (p.declaredInside s).Nodup ∧
      ∀ t ∈ p.declaredAhead true s, t ∉ p.declaredInside s := fun s => by
    obtain ⟨ahead, inside, apart⟩ := List.nodup_append.1 (p.owned_nodup s)
    exact ⟨ahead, inside, fun t ht ht' => apart t ht t ht' rfl⟩
  have perm := p.declaredAhead_behind_perm owner.isNone ids
  have once : (ids.flatMap (p.declaredAhead true)).Nodup := by
    refine List.nodup_flatMap.2 ⟨fun s _ => (parts s).1, nodup.imp fun {s s'} hne t ht ht' => hne ?_⟩
    exact owners s s' t (List.mem_append_left _ ht) (List.mem_append_left _ ht')
  rw [declaredIn, List.append_assoc]
  cases owner with
  | none => exact perm.nodup_iff.2 once
  | some s =>
    refine List.nodup_append.2 ⟨(parts s).2.1, perm.nodup_iff.2 once, fun t ht u hu htu => ?_⟩
    subst htu
    -- what the body knows by its owner belongs to the owner, which declares something else
    obtain ⟨s', -, hs'⟩ := List.mem_flatMap.1 (perm.mem_iff.1 hu)
    cases owners s s' t (owned_of_inside ht) (List.mem_append_left _ hs')
    exact (parts s).2.2 t hs' ht

/-- All that a block declares has a name. -/
theorem owned_of_declaredIn {t : Target} (ht : t ∈ p.declaredIn owner ids) : ∃ s, t ∈ p.owned s := by
  simp only [declaredIn, List.mem_append, List.mem_flatMap] at ht
  rcases ht with (ht | ⟨s, -, ht⟩) | ⟨s, -, ht⟩
  · cases owner with
    | none => cases ht
    | some s => exact ⟨s, owned_of_inside ht⟩
  · exact ⟨s, owned_of_ahead ht⟩
  · exact ⟨s, owned_of_behind ht⟩

end Program

/-! ## Blocks and their scopes -/

/-- Which of the scopes a block has, by its owner. -/
inductive ScopeFor (top : OpenScope) (hs : List Housing) : Option StmtId → OpenScope → Prop
  | top : ScopeFor top hs none top
  | body {x : Housing} (h : x ∈ hs) : ScopeFor top hs (some x.owner) x.scope

/-- The scope of a block, by its owner. -/
def scopeOf (top : OpenScope) (hs : List Housing) (owner : Option StmtId) : OpenScope :=
  ((hs.find? fun x => owner == some x.owner).map (·.scope)).getD top

/-- A block has been given the scope, with what the block declares, and so
have the bodies in it. -/
structure BlockHoused (p₀ p : Program) (hs : List Housing) (owner : Option StmtId) (around : SymbolTableId)
    (b : Block) (scope : OpenScope) : Prop where
  first : b.symbolTable = scope.first
  lies : scope.Within p.symbolTables around
  filled : ∃ o ids hs', Lays p b.statements.start b.statements.stop o ∧ o.direct = .ok ids ∧
    scope.symbols = (p₀.declaredIn owner ids).map p₀.symbolAt ∧ Housed p₀ p scope.first o hs' ∧ hs' ⊆ hs

theorem BlockHoused.mono {around : SymbolTableId} (h : BlockHoused p₀ p hs owner around b scope) (sub : hs ⊆ hs') :
    BlockHoused p₀ p hs' owner around b scope where
  first := h.first
  lies := h.lies
  filled := by
    obtain ⟨o, ids, hs₀, lays, direct, symbols, housed, hsub⟩ := h.filled
    exact ⟨o, ids, hs₀, lays, direct, symbols, housed, List.Subset.trans hsub sub⟩

/-- The bodies of the statements in a block have been given scopes. -/
theorem Housed.child {i j : Nat} {around : SymbolTableId} (housed : Housed p₀ p around o hs)
    (lays : Lays p i j o) (direct : o.direct = .ok ids) (child : s ∈ ids)
    (owns : p.bodyOf s = .ok (some block)) :
    ∃ scope, ⟨s, scope⟩ ∈ hs ∧ BlockHoused p₀ p hs (some s) around block scope := by
  induction housed generalizing i ids with
  | done around =>
    cases direct
    cases child
  | leaf tail ih =>
    cases lays with
    | leaf single lays =>
      obtain ⟨rest, hrest, hids⟩ := bind_eq_ok.1 direct
      cases pure_eq_ok.1 hids
      rcases List.mem_cons.1 child with rfl | child
      · cases owns.symm.trans single
      · exact ih lays hrest child
  | @nested around s₀ body rest block₀ ids₀ scope hs₀ hs₁ owns₀ given lies hdirect symbols inner tail _
      ih =>
    cases lays with
    | @nested _ k _ block₁ _ _ owns₁ place laysInner laysTail =>
      cases owns₀.symm.trans owns₁
      obtain ⟨rest, hrest, hids⟩ := bind_eq_ok.1 direct
      cases pure_eq_ok.1 hids
      rcases List.mem_cons.1 child with rfl | child
      · cases owns.symm.trans owns₀
        refine ⟨scope, List.mem_cons_self, given, lies, body, ids₀, hs₀, laysInner.ofPlace place, hdirect,
          symbols, inner, ?_⟩
        exact fun x hx => List.mem_cons_of_mem _ (List.mem_append_left _ hx)
      · have sub : hs₁ ⊆ ⟨⟨i⟩, scope⟩ :: (hs₀ ++ hs₁) := fun x hx =>
          List.mem_cons_of_mem _ (List.mem_append_right _ hx)
        obtain ⟨scope', hmem, housed⟩ := ih laysTail hrest child
        exact ⟨scope', sub hmem, housed.mono sub⟩

namespace Program.ScopesMade

variable (made : p.ScopesMade p' top hs)
include made

/-- **Every block that can be reached has been given a scope.** -/
theorem blockHoused (regular : p'.Regular) (h : p'.BlockIn owner around b) :
    ∃ scope, ScopeFor top hs owner scope ∧
      BlockHoused p p' hs owner (around.elim .sentinel Block.symbolTable) b scope := by
  induction h with
  | top =>
    obtain ⟨outline, lays⟩ := regular.layout
    have houtline : p'.outline p'.block = outline := outline_of_lays lays regular.whole
    rw [outline_congr made.frame] at houtline
    obtain ⟨direct, hdirect, symbols⟩ := made.symbols
    rw [houtline] at hdirect
    refine ⟨top, .top, made.block, made.lies, outline, direct, hs, ?_, hdirect, symbols,
      houtline ▸ made.housed, fun _ => id⟩
    rw [regular.whole, IdRange.stop, Nat.zero_add]
    exact lays
  | @body owner around b children s body outside listed child owns ih =>
    obtain ⟨scope, -, outer⟩ := ih
    obtain ⟨o, ids, hs', lays, direct, -, housed, sub⟩ := outer.filled
    obtain ⟨ids', hids', hlisted⟩ := lays.listed
    cases direct.symm.trans hids'
    cases listed.symm.trans hlisted
    obtain ⟨inner, hmem, hinner⟩ := housed.child lays direct child owns
    refine ⟨inner, .body (sub hmem), ?_⟩
    rw [Option.elim_some, outer.first]
    exact hinner.mono sub

/-- A block has one scope. -/
theorem scopeOf_eq (h : ScopeFor top hs owner scope) : scopeOf top hs owner = scope := by
  cases h with
  | top =>
    rw [scopeOf, List.find?_eq_none.2 (by simp)]
    rfl
  | @body x hx =>
    rw [scopeOf]
    cases hfind : hs.find? fun y => some x.owner == some y.owner with
    | none => exact absurd (List.find?_eq_none.1 hfind x hx) (by simp)
    | some y =>
      have howner : x.owner = y.owner := by simpa using List.find?_some hfind
      have := List.inj_on_of_nodup_map made.once hx (List.mem_of_find?_eq_some hfind) howner
      rw [this]
      rfl

/-- No two blocks share a table. -/
theorem apart (h : ScopeFor top hs owner scope) (h' : ScopeFor top hs owner' scope') (hne : owner ≠ owner')
    (ht : t ∈ scope.tables) : t ∉ scope'.tables := by
  obtain ⟨-, once, hapart⟩ := List.nodup_append.1 made.nodup
  intro ht'
  cases h with
  | top =>
    cases h' with
    | top => exact hne rfl
    | body hy => exact hapart t ht t (mem_housingTables.2 ⟨_, hy, ht'⟩) rfl
  | body hx =>
    cases h' with
    | top => exact hapart t ht' t (mem_housingTables.2 ⟨_, hx, ht⟩) rfl
    | body hy =>
      cases eq_of_nodup_flatMap once hx hy ht ht'
      exact hne rfl

/-- The tables of a scope are new. -/
theorem new_of_scopeFor (h : ScopeFor top hs owner scope) (ht : t ∈ scope.tables) :
    p.symbolTables.size ≤ t.raw := by
  refine made.new t (List.mem_append.2 ?_)
  cases h with
  | top => exact .inl ht
  | body hx => exact .inr (mem_housingTables.2 ⟨_, hx, ht⟩)

end Program.ScopesMade

/-- A block has the scope for its own: it begins with a table that is no
continuation, all its tables are among those from `n` on, and its last
links to the scope of the block around. It holds what the block declares,
once and in order, each under its name, and all tables but the last are
full. -/
structure Program.BlockScope (p : Program) (n : Nat) (owner : Option StmtId) (around : Option Block)
    (b : Block) (scope : OpenScope) : Prop where
  first : b.symbolTable = scope.first
  lies : scope.Within p.symbolTables (around.elim .sentinel Block.symbolTable)
  new : ∀ t ∈ scope.tables, n ≤ t.raw
  full : ∀ t ∈ scope.tables.dropLast, ∃ r, p.symbolTables.get? t = some r ∧
    r.symbols.size = symbolTableCapacity
  declared : ∃ children, p.children b = .ok children ∧
    scope.symbols.map (·.target) = p.declaredIn owner children.ids
  once : (scope.symbols.map (·.target)).Nodup
  named : ∀ d ∈ scope.symbols, p.nameOf d.target = .ok d.name

/-- A block that has been given its scope among packed tables has it in
order. -/
theorem BlockHoused.blockScope {n : Nat}
    (h : BlockHoused p p' hs owner (around.elim .sentinel Block.symbolTable) b scope)
    (frame : p'.frame = p.frame) (regular : p'.Regular) (packed : Packed p'.symbolTables)
    (new : ∀ t ∈ scope.tables, n ≤ t.raw) : p'.BlockScope n owner around b scope := by
  obtain ⟨o, ids, -, lays, direct, symbols, -⟩ := h.filled
  obtain ⟨ids', hids', listed⟩ := lays.listed
  cases direct.symm.trans hids'
  have targets : scope.symbols.map (·.target) = p'.declaredIn owner ids := by
    rw [symbols, List.map_map, declaredIn_congr frame]
    exact List.map_id _
  have nodup : ids.Nodup := by
    have := lays.direct_pairwise.2
    rw [direct] at this
    exact this.imp fun {s s'} hlt heq => by rw [heq] at hlt; exact Nat.lt_irrefl _ hlt
  refine ⟨h.first, h.lies, new, packed.full_of_run h.lies.run, ⟨_, listed, targets⟩, ?_, fun d hd => ?_⟩
  · rw [targets]
    exact declaredIn_nodup regular.owners nodup
  · have hmem : d.target ∈ p'.declaredIn owner ids := targets ▸ List.mem_map_of_mem hd
    obtain ⟨s, hs⟩ := owned_of_declaredIn hmem
    obtain ⟨name, hname⟩ := exists_name regular.declarations hs
    rw [symbols] at hd
    obtain ⟨t, -, rfl⟩ := List.mem_map.1 hd
    have hsame : p'.nameAt t = p.nameAt t := by rw [← nameAt_frame, frame, nameAt_frame]
    simp only [symbolAt] at hname ⊢
    rw [nameAt, hname] at hsame
    rw [hname, ← hsame]

/-! ## Tables stay packed -/

/-- The name pass makes scopes, and leaves tables packed. -/
theorem Program.scopesMade_of_bindNames (regular : p.Regular) (pos : 0 < p.symbolTables.size)
    (h : p.bindNames source = .ok p') : ∃ top hs, p.ScopesMade p' top hs := by
  obtain ⟨q, top, hs, hq, made⟩ := bindNames_walk source regular (slotsHeld_of_bindNames regular h) pos
  cases h.symm.trans hq
  exact ⟨top, hs, made⟩

namespace Analysis

variable {a b : Analysis} {stages : List Stage}

/-- A regular program whose tables are packed. -/
structure Ready (a : Analysis) : Prop where
  regular : a.program.Regular
  pos : 0 < a.program.symbolTables.size
  packed : Packed a.program.symbolTables

namespace Ready

/-- What is filled in keeps an analysis ready, if tables stay packed. -/
theorem filledWell (ready : a.Ready) (filled : a.program.FilledWell b.program)
    (packed : Packed b.program.symbolTables) : b.Ready where
  regular := ready.regular.congr filled.frame (filled.toFilledIn.held ready.regular.operands)
  pos := Nat.lt_of_lt_of_le ready.pos filled.size_le
  packed := packed

theorem typeEdits (ready : a.Ready) (edits : TypeEdits source a b) : b.Ready :=
  ready.filledWell edits.filledWell (edits.matured.symbolTables ▸ ready.packed)

theorem bindNames (ready : a.Ready) (h : a.program.bindNames source = .ok p') (queue : Queue) :
    Ready ⟨p', queue⟩ := by
  obtain ⟨top, hs, made⟩ := scopesMade_of_bindNames ready.regular ready.pos h
  exact ready.filledWell (bindNames_filledWell source _ p' h) (made.packed ready.packed)

theorem determineMain (ready : a.Ready) (source : String) : (a.determineMain source).Ready := by
  obtain ⟨main, searched, hprogram, -⟩ := determineMain_eq a source
  refine ready.filledWell (determineMain_filledWell a source) ?_
  rw [hprogram]
  exact ready.packed

/-- **Passes keep an analysis ready.** -/
theorem runAll (ready : a.Ready) (stages : List Stage) : Keeps Ready (a.runAll stages) :=
  runAll_keeps (fun _ source ready => ready.determineMain source)
    (fun _ _ _ ready hp' => ready.bindNames hp' _) (fun _ _ _ ready edits => ready.typeEdits edits) ready stages

end Ready

/-- A program that has been built is ready. -/
theorem ready_of_build {steps : List Step} {written : String} (built : Program.build steps = .ok (p, written))
    (queue : Queue) : Ready ⟨p, queue⟩ where
  regular := (build_fresh built).regular
  pos := (build_fresh built).tables
  packed := by
    rw [build_scopes built]
    exact empty_packed

/-- **Scopes mirror blocks.** Take whatever program has been built, after
any passes. Resolving its names succeeds where all slots are held. After
it each block that can be reached has a scope of its own, in tables that
are new: linked to that of the block around it, or to none from the top
level, and with what the block declares, once and in order. No two blocks
share a table. -/
theorem resolveNames_mirrors_blocks {steps : List Step} {written : String} {queue : Queue}
    (built : Program.build steps = .ok (p, written)) (ran : Analysis.runAll ⟨p, queue⟩ stages = .ok a)
    (source : String) :
    (a.program.SlotsHeld → ∃ b, a.resolveNames source = .ok b) ∧
      ∀ b, a.resolveNames source = .ok b → ∃ scopeOf : Option StmtId → OpenScope,
        (∀ owner around block, b.program.BlockIn owner around block →
          b.program.BlockScope a.program.symbolTables.size owner around block (scopeOf owner)) ∧
        ∀ owner around block owner' around' block', b.program.BlockIn owner around block →
          b.program.BlockIn owner' around' block' → owner ≠ owner' →
            ∀ t ∈ (scopeOf owner).tables, t ∉ (scopeOf owner').tables := by
  have ready : a.Ready := (ready_of_build built queue).runAll stages a ran
  constructor
  · intro slots
    obtain ⟨p', top, hs, hp', -⟩ := bindNames_walk source ready.regular slots ready.pos
    exact ⟨{ a with program := p' }, by rw [resolveNames, hp']⟩
  · intro b hb
    rw [resolveNames] at hb
    split at hb
    · next p' hp' =>
      cases hb
      have ready' := ready.bindNames hp' a.queue
      obtain ⟨top, hs, made⟩ := scopesMade_of_bindNames ready.regular ready.pos hp'
      have housed : ∀ {owner around block}, p'.BlockIn owner around block →
          ScopeFor top hs owner (scopeOf top hs owner) ∧
          BlockHoused a.program p' hs owner (around.elim .sentinel Block.symbolTable) block
            (scopeOf top hs owner) := fun h => by
        obtain ⟨scope, has, housed⟩ := made.blockHoused ready'.regular h
        rw [made.scopeOf_eq has]
        exact ⟨has, housed⟩
      refine ⟨scopeOf top hs, fun owner around block h => ?_, fun _ _ _ _ _ _ h h' hne t => ?_⟩
      · exact (housed h).2.blockScope made.frame ready'.regular ready'.packed fun t =>
          made.new_of_scopeFor (housed h).1
      · exact made.apart (housed h).1 (housed h').1 hne
    · cases hb

/-- A function whose parameter and sixteen variables fill a table and begin
another, with a loop in it. The program has been resolved before. -/
theorem resolveNames_mirrors_blocks_overflow :
    Succeeds (Program.build ([.openFunction "f" [("a", none)] none] ++
        List.replicate 16 (.variable "v" none none) ++
        [.identifier "a", .openBody (.forEach "i" ⟨0⟩), .variable "w" none none, .close, .close]))
      fun (p, source) => Succeeds ((start .unlimited p).runAll [.resolve source]) fun a =>
        Succeeds (a.resolveNames source) fun b => ∃ scope : OpenScope,
          b.program.BlockScope a.program.symbolTables.size (some ⟨0⟩) (some b.program.block)
            ⟨⟨1, 18⟩, ⟨6⟩⟩ scope ∧
          scope.symbols.map (·.target) = .parameter ⟨0⟩ :: (List.range 16).map (.variable ⟨·⟩) := by
  have facts : Succeeds (Program.build ([.openFunction "f" [("a", none)] none] ++
        List.replicate 16 (.variable "v" none none) ++
        [.identifier "a", .openBody (.forEach "i" ⟨0⟩), .variable "w" none none, .close, .close]))
      fun (p, source) => Succeeds ((start .unlimited p).runAll [.resolve source]) fun a =>
        Succeeds (a.resolveNames source) fun b =>
          Succeeds (b.program.children b.program.block) (fun top => ⟨0⟩ ∈ top.ids) ∧
            b.program.bodyOf ⟨0⟩ = .ok (some ⟨⟨1, 18⟩, ⟨6⟩⟩) ∧
            Succeeds (b.program.children ⟨⟨1, 18⟩, ⟨6⟩⟩) fun body =>
              b.program.declaredIn (some ⟨0⟩) body.ids =
                .parameter ⟨0⟩ :: (List.range 16).map (.variable ⟨·⟩) := by
    decide +kernel
  obtain ⟨⟨p, source⟩, built, a, ran, b, hb, ⟨_, listed, hchild⟩, owns, _, listed', hdeclared⟩ := facts
  obtain ⟨-, mirrors⟩ := resolveNames_mirrors_blocks built ran source
  obtain ⟨scopeOf, scopes, -⟩ := mirrors b hb
  have scope := scopes _ _ _ (.body .top listed hchild owns)
  obtain ⟨children, hchildren, targets⟩ := scope.declared
  cases listed'.symm.trans hchildren
  exact ⟨(p, source), built, a, ran, b, hb, _, scope, targets.trans hdeclared⟩

end Analysis

end FrontEnd
