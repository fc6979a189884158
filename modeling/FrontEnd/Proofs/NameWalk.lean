import FrontEnd.Proofs.NameEdits
import FrontEnd.Proofs.NamePass
/-!
# FrontEnd — the walk of the name pass

The name pass walks an outline with one scope open for each block around
the statement at hand. Every part of the walk succeeds on a regular
program, binds the names at the places it comes by, and gives a scope to
every body (`Advances`); and while it is under way the innermost scope
holds what the block has declared so far (`Within`).
-/

namespace FrontEnd

namespace Program

/-- What a part of the walk does: it binds the names at some sites, gives
scopes, and of the tables there were changes those of one scope only. -/
structure Advances (p₀ : Program) (source : String) (sites : List Site)
    (own own' : List SymbolTableId) (p p' : Program) : Prop where
  binding : Binding p₀ p'
  bound : BoundBy p₀ source sites p.exprs p'.exprs
  grow : TablesGrow p.symbolTables p'.symbolTables own own'
  keeps : ∀ s, p.Scoped s → p'.Scoped s
  links : p.ScopesHeld → p'.ScopesHeld
  block : p'.block = p.block

/-- The innermost scope is that of a block which has declared `own`, and
`outer` can be seen from the block. -/
structure Within (p₀ p : Program) (first : SymbolTableId) (ids : List SymbolTableId)
    (own : List Target) (around : List OpenScope) (outer : List Target) : Prop where
  nested : NestedScopes p.symbolTables (⟨first, ids, own.map p₀.symbolAt⟩ :: around)
  outer : around.flatMap (·.symbols) = outer.map p₀.symbolAt

variable {p₀ p p' p'' : Program} {source : String} {sites sites' : List Site}
variable {own own' own'' : List SymbolTableId} {first : SymbolTableId} {ids : List SymbolTableId}
variable {declared visible : List Target} {around : List OpenScope} {outer : List Target}
variable {s : StmtId} {topLevel : Bool}

theorem Advances.refl (h : Binding p₀ p) (own : List SymbolTableId) :
    Advances p₀ source [] own own p p :=
  ⟨h, .refl, .refl _ _, fun _ hs => hs, fun hl => hl, rfl⟩

theorem Advances.trans (h : Advances p₀ source sites own own' p p')
    (h' : Advances p₀ source sites' own' own'' p' p'') :
    Advances p₀ source (sites ++ sites') own own'' p p'' where
  binding := h'.binding
  bound := h.bound.trans h'.bound
  grow := h.grow.trans h'.grow
  keeps s hs := h'.keeps s (h.keeps s hs)
  links hl := h'.links (h.links hl)
  block := h'.block.trans h.block

namespace Within

theorem sees (w : Within p₀ p first ids declared around outer) :
    Sees p₀ p (⟨first, ids, declared.map p₀.symbolAt⟩ :: around) (declared ++ outer) :=
  ⟨w.nested, by rw [List.flatMap_cons, w.outer, List.map_append]⟩

theorem size_pos (w : Within p₀ p first ids declared around outer) :
    0 < p.symbolTables.size := by
  cases w.nested with
  | cons _ hr _ _ _ _ _ => exact Nat.lt_of_le_of_lt (Nat.zero_le _) (Table.lt_size_of_get? hr)

theorem first_lt (w : Within p₀ p first ids declared around outer) :
    first.raw < p.symbolTables.size := by
  cases w.nested with
  | cons _ hr _ _ _ _ _ => exact Table.lt_size_of_get? hr

end Within

/-! ## Names at a statement -/

/-- The names at a statement are bound to what can be seen. -/
theorem Within.bindExprs (source : String) (s : StmtId) (slots : p₀.SlotsHeld) (h : Binding p₀ p)
    (w : Within p₀ p first ids declared around outer) :
    ∃ p', bindExprs source first p (p₀.slotsAt s) = .ok p' ∧
      Advances p₀ source (p₀.sitesAt ⟨s, declared ++ outer⟩) ids ids p p' ∧
      Within p₀ p' first ids declared around outer := by
  obtain ⟨exprs, hrun, hb⟩ := bindExprs_ok source h w.sees (p₀.slotsAt s) (slots s)
  refine ⟨_, hrun, ?_, ⟨w.nested, w.outer⟩⟩
  exact ⟨h.boundBy hb, hb, .refl _ _, fun _ hs => hs,
    fun hl => hl.congr (fun _ => rfl) rfl (Nat.le_refl _) hl.links, rfl⟩

/-! ## Declarations -/

/-- Declared targets come last in the innermost scope. -/
theorem Within.declareTarget (source : String) (h : Binding p₀ p)
    (w : Within p₀ p first ids declared around outer)
    {t : Target} (ht : ∃ name, p₀.nameOf t = .ok name) :
    ∃ p' ids', p.declareTarget first t = .ok p' ∧ Advances p₀ source [] ids ids' p p' ∧
      Within p₀ p' first ids' (declared ++ [t]) around outer := by
  obtain ⟨name, hname⟩ := ht
  have hname' : p.nameOf t = .ok name := by rw [← nameOf_frame, h.frame, nameOf_frame, hname]
  have hsymbol : p₀.symbolAt t = ⟨name, t⟩ := by simp only [symbolAt, nameAt, hname]
  obtain ⟨tables, ids', hdeclare, grow, nested⟩ := w.nested.declare ⟨name, t⟩
  refine ⟨{ p with symbolTables := tables }, ids', ?_,
    ⟨h.of_unscoped rfl rfl, .refl, grow, fun _ hs => hs, ?_, rfl⟩,
    ⟨?_, w.outer⟩⟩
  · simp only [Program.declareTarget, hname', ok_bind]
    exact hdeclare
  · exact fun hl => hl.declare hdeclare
  · rw [List.map_append, List.map_singleton, hsymbol]
    exact nested

theorem Within.declareTargets (source : String) (h : Binding p₀ p)
    (w : Within p₀ p first ids declared around outer) (ts : List Target)
    (named : ∀ t ∈ ts, ∃ name, p₀.nameOf t = .ok name) :
    ∃ p' ids', ts.foldlM (fun q t => q.declareTarget first t) p = .ok p' ∧
      Advances p₀ source [] ids ids' p p' ∧
      Within p₀ p' first ids' (declared ++ ts) around outer := by
  induction ts generalizing p ids declared with
  | nil => exact ⟨p, ids, rfl, .refl h ids, by simpa using w⟩
  | cons t ts ih =>
    obtain ⟨q, ids₁, hq, ha, hw⟩ := w.declareTarget source h (named t (by simp))
    obtain ⟨p', ids', hrun, ha', hw'⟩ :=
      ih ha.binding hw fun u hu => named u (List.mem_cons_of_mem _ hu)
    refine ⟨p', ids', foldlM_cons_eq_ok.2 ⟨q, hq, hrun⟩, ha.trans ha', ?_⟩
    simpa using hw'

section

variable {stmt : Stmt} (h : Binding p₀ p) (hs : p₀.stmts.get? s = some stmt)

include h hs

theorem Binding.get_stmt : ∃ stmt', p.stmts.get s = .ok stmt' ∧ stmt'.frame = stmt.frame := by
  obtain ⟨stmt', hs', heq⟩ := exists_stmt_congr h.frame hs
  exact ⟨stmt', Table.get_eq_ok.2 hs', heq⟩

theorem declareAhead_eq (scope : SymbolTableId) : declareAhead topLevel scope p s =
    (p₀.declaredAhead topLevel s).foldlM (fun q t => q.declareTarget scope t) p := by
  obtain ⟨stmt', hs', -⟩ := h.get_stmt hs
  rw [← declaredAhead_frame, ← h.frame, declaredAhead_frame]
  simp only [declareAhead, declaredAhead, hs', ok_bind, pure, Except.pure, elements_ok]
  cases stmt'.kind.declares with
  | nothing => rfl
  | function f =>
    simp only [List.foldlM_cons, List.foldlM_nil]
    cases p.declareTarget scope (.function f) <;> rfl
  | value target =>
    cases topLevel with
    | false => rfl
    | true =>
      simp only [if_true, List.foldlM_cons, List.foldlM_nil]
      cases p.declareTarget scope target <;> rfl

theorem declareInside_eq (regular : p₀.Regular) (scope : SymbolTableId) :
    declareInside scope p s =
      (p₀.declaredInside s).foldlM (fun q t => q.declareTarget scope t) p := by
  obtain ⟨stmt', hs', heq⟩ := h.get_stmt hs
  have regular' : p.Regular := regular.congr h.frame h.held
  have hdecl := regular'.declarations s stmt' (Table.get_eq_ok.1 hs')
  rw [← declaredInside_frame, ← h.frame, declaredInside_frame]
  obtain ⟨kind, span⟩ := stmt'
  simp only [declareInside, declaredInside, hs', ok_bind]
  cases kind with
  | function f =>
    obtain ⟨r, hr, hrange⟩ := hdecl
    obtain ⟨parameters, hslice⟩ := slice_ok hrange
    simp only [Table.get_eq_ok.2 hr, ok_bind, hslice, pure, Except.pure, elements_ok,
      List.foldlM_map]
  | nest head body =>
    cases head with
    | forEach iterator iterable =>
      simp only [pure, Except.pure, elements_ok, List.foldlM_cons, List.foldlM_nil]
      cases p.declareTarget scope (.variable iterator) <;> rfl
    | _ => rfl
  | _ => rfl

omit hs in
/-- The names at a statement that is no function declaration. -/
theorem exprs_eq (regular : p₀.Regular) {stmt' : Stmt} (hs' : p.stmts.get s = .ok stmt')
    (hkind : ∀ f, stmt'.kind ≠ .function f) : stmt'.kind.exprs = p₀.slotsAt s := by
  have regular' : p.Regular := regular.congr h.frame h.held
  have := slotsAt_eq (Table.get_eq_ok.1 hs') (regular'.declarations s _ (Table.get_eq_ok.1 hs'))
  rw [slotsAt_congr h.frame] at this
  obtain ⟨kind, span⟩ := stmt'
  cases kind with
  | function f => exact absurd rfl (hkind f)
  | _ => exact Except.ok.inj this

theorem bindHead_eq (regular : p₀.Regular) (scope : SymbolTableId) :
    bindHead source scope p s = bindExprs source scope p (p₀.slotsAt s) := by
  obtain ⟨⟨kind, span⟩, hs', heq⟩ := h.get_stmt hs
  have regular' : p.Regular := regular.congr h.frame h.held
  have hslots := slotsAt_eq (Table.get_eq_ok.1 hs') (regular'.declarations s _ (Table.get_eq_ok.1 hs'))
  rw [slotsAt_congr h.frame] at hslots
  simp only [bindHead, hs', ok_bind]
  cases kind with
  | function f =>
    simp only at hslots
    simp only [hslots, ok_bind]
  | _ => rw [← Except.ok.inj hslots]

end

/-! ## Names of declarations -/

theorem owned_of_ahead {t : Target} (ht : t ∈ p.declaredAhead topLevel s) : t ∈ p.owned s := by
  refine List.mem_append_left _ ?_
  rw [← declaredAhead_append_behind topLevel]
  exact List.mem_append_left _ ht

theorem owned_of_behind {t : Target} (ht : t ∈ p.declaredBehind topLevel s) : t ∈ p.owned s := by
  refine List.mem_append_left _ ?_
  rw [← declaredAhead_append_behind topLevel]
  exact List.mem_append_right _ ht

theorem owned_of_inside {t : Target} (ht : t ∈ p.declaredInside s) : t ∈ p.owned s :=
  List.mem_append_right _ ht

/-! ## Statements -/

section

variable (regular : p₀.Regular) (h : Binding p₀ p)
variable (w : Within p₀ p first ids declared around outer)

include regular h w

/-- What a block knows ahead of its statements comes last in its scope. -/
theorem declareAhead_ok (source : String) (topLevel : Bool) (statements : List StmtId)
    (held : ∀ s ∈ statements, ∃ stmt, p₀.stmts.get? s = some stmt) :
    ∃ p' ids', statements.foldlM (declareAhead topLevel first) p = .ok p' ∧
      Advances p₀ source [] ids ids' p p' ∧
      Within p₀ p' first ids' (declared ++ statements.flatMap (p₀.declaredAhead topLevel)) around
        outer := by
  induction statements generalizing p ids declared with
  | nil => exact ⟨p, ids, rfl, .refl h ids, by simpa using w⟩
  | cons s statements ih =>
    obtain ⟨stmt, hs⟩ := held s (by simp)
    obtain ⟨q, ids₁, hq, ha, hw⟩ := w.declareTargets source h
      (p₀.declaredAhead topLevel s) fun t ht => exists_name regular.declarations (owned_of_ahead ht)
    obtain ⟨p', ids', hrun, ha', hw'⟩ :=
      ih ha.binding hw fun u hu => held u (List.mem_cons_of_mem _ hu)
    refine ⟨p', ids', foldlM_cons_eq_ok.2 ⟨q, ?_, hrun⟩, ha.trans ha', ?_⟩
    · rw [declareAhead_eq h hs, hq]
    · simpa using hw'

/-- A statement without a body: its names are bound, and then the rest of
its block knows what it declares. -/
theorem bindLeaf_ok (source : String) (topLevel : Bool) (slots : p₀.SlotsHeld)
    (single : p.bodyOf s = .ok none) :
    ∃ p' ids', bindLeaf source topLevel first p s = .ok p' ∧
      Advances p₀ source (p₀.sitesAt ⟨s, declared ++ outer⟩) ids ids' p p' ∧
      Within p₀ p' first ids' (declared ++ p₀.declaredBehind topLevel s) around outer := by
  obtain ⟨stmt, hs, hkind⟩ := bind_eq_ok.1 single
  have hnot : ∀ f, stmt.kind ≠ .function f := by
    intro f hf
    rw [hf] at hkind
    obtain ⟨r, -, hr⟩ := bind_eq_ok.1 hkind
    cases hr
  obtain ⟨q, hq, ha, hw⟩ := w.bindExprs source s slots h
  obtain ⟨p', ids', hrun, ha', hw'⟩ := hw.declareTargets source ha.binding
    (p₀.declaredBehind topLevel s) fun t ht => exists_name regular.declarations (owned_of_behind ht)
  have hbehind := declaredBehind_eq topLevel hs
  rw [← declaredBehind_frame, h.frame, declaredBehind_frame] at hbehind
  refine ⟨p', ids', ?_, by simpa using ha.trans ha', hw'⟩
  simp only [bindLeaf, hs, ok_bind, exprs_eq h regular hs hnot, hq]
  rw [hbehind] at hrun
  cases hk : stmt.kind.declares with
  | nothing => simpa [hk] using hrun
  | function f => simpa [hk] using hrun
  | value target =>
    cases topLevel with
    | true => simpa [hk] using hrun
    | false => simpa [hk] using hrun

/-- What stands before a body is bound in the scope around the body. -/
theorem bindHead_ok (source : String) (slots : p₀.SlotsHeld) (hs : ∃ stmt, p₀.stmts.get? s = some stmt) :
    ∃ p', bindHead source first p s = .ok p' ∧
      Advances p₀ source (p₀.sitesAt ⟨s, declared ++ outer⟩) ids ids p p' ∧
      Within p₀ p' first ids declared around outer := by
  obtain ⟨stmt, hs⟩ := hs
  rw [bindHead_eq h hs regular]
  exact w.bindExprs source s slots h

end

/-! ## Bodies -/

/-- A scope that is opened inside another lies in it. -/
theorem Within.opens (w : Within p₀ p first ids declared around outer)
    (opens : OpensScope p p' s first) :
    Within p₀ p' p.symbolTables.nextId [p.symbolTables.nextId] []
      (⟨first, ids, declared.map p₀.symbolAt⟩ :: around) (declared ++ outer) where
  nested := by
    rw [opens.tables]
    exact w.nested.open_new w.size_pos
  outer := w.sees.symbols

/-- What is done inside a body, seen from around it. -/
theorem Advances.of_inside (w : Within p₀ p first ids declared around outer)
    (opens : OpensScope p p' s first)
    (a : Advances p₀ source sites [p.symbolTables.nextId] own p' p'') :
    Advances p₀ source sites ids ids p p'' ∧ Within p₀ p'' first ids declared around outer := by
  have hsize : p'.symbolTables.size = p.symbolTables.size + 1 := by
    rw [opens.tables, Table.size_push]
  -- the tables there were are those of the scopes around, which are left alone
  have hsame : ∀ t : SymbolTableId, t.raw < p.symbolTables.size →
      p''.symbolTables.get? t = p.symbolTables.get? t := by
    intro t ht
    have hne : t ∉ [p.symbolTables.nextId] := by
      rw [List.mem_singleton]
      rintro rfl
      exact Nat.lt_irrefl _ ht
    rw [a.grow.same t (by omega) hne, opens.tables, Table.get?_push_of_lt ht]
  refine ⟨⟨a.binding, opens.exprs ▸ a.bound, ⟨?_, fun t ht => .inl ht, fun t ht _ => hsame t ht⟩,
    fun s hs => a.keeps s (opens.keeps_scoped w.size_pos hs),
    fun hl => a.links (opens.scopesHeld w.first_lt hl), a.block.trans opens.block⟩,
    ⟨?_, w.outer⟩⟩
  · have := a.grow.size_le
    omega
  · exact w.nested.congr fun scope hscope t ht => hsame t (w.nested.held scope hscope t ht)

/-- The walk enters the body of a statement: `head` is the program once
what stands before the body is bound, `opened` once the body has a scope,
and `entered` once that scope holds what the body knows from its start. -/
structure EntersBody (p₀ : Program) (source : String) (first : SymbolTableId)
    (ids : List SymbolTableId) (declared : List Target) (around : List OpenScope)
    (outer : List Target) (s : StmtId) (body : Outline) (p head opened entered : Program)
    (own : List SymbolTableId) (direct : List StmtId) : Prop where
  head_eq : bindHead source first p s = .ok head
  opened_eq : head.openScope s first = .ok (head.symbolTables.nextId, opened)
  entered_eq : declareInside head.symbolTables.nextId opened s >>=
    (declareAllAhead false head.symbolTables.nextId · body) = .ok entered
  direct_eq : body.direct = .ok direct
  before : Advances p₀ source (p₀.sitesAt ⟨s, declared ++ outer⟩) ids ids p head
  within : Within p₀ head first ids declared around outer
  opens : OpensScope head opened s first
  ahead : Advances p₀ source [] [head.symbolTables.nextId] own opened entered
  inside : Within p₀ entered head.symbolTables.nextId own
    (p₀.declaredInside s ++ direct.flatMap (p₀.declaredAhead false))
    (⟨first, ids, declared.map p₀.symbolAt⟩ :: around) (declared ++ outer)

/-- What is left of a statement with a body once that is entered. -/
theorem EntersBody.bindOutline_eq {body rest : Outline} {head opened entered : Program}
    {direct : List StmtId} (topLevel : Bool)
    (h : EntersBody p₀ source first ids declared around outer s body p head opened entered own direct) :
    bindOutline source topLevel first (.nested s body rest) p = (do
      let p ← bindOutline source false head.symbolTables.nextId body entered
      bindOutline source topLevel first rest p) := by
  obtain ⟨q, hinside, hahead⟩ := bind_eq_ok.1 h.entered_eq
  simp only [bindOutline, h.head_eq, lift_ok, ok_bind, h.opened_eq, hinside, hahead]

/-- Every body can be entered. -/
theorem enterBody_ok {block : Block} {body : Outline} {i j : Nat} (source : String)
    (regular : p₀.Regular) (slots : p₀.SlotsHeld) (owns : p₀.bodyOf s = .ok (some block))
    (lays : Lays p₀ i j body) (h : Binding p₀ p)
    (w : Within p₀ p first ids declared around outer) :
    ∃ head opened entered own direct,
      EntersBody p₀ source first ids declared around outer s body p head opened entered own direct := by
  obtain ⟨stmt, hstmt, -⟩ := bind_eq_ok.1 owns
  rw [Table.get_eq_ok] at hstmt
  obtain ⟨head, hhead, before, within⟩ := bindHead_ok regular h w source slots ⟨stmt, hstmt⟩
  obtain ⟨block', howns⟩ := bodyOf_some_congr before.binding.frame owns
  obtain ⟨opened, hopened, opens⟩ := openScope_ok first howns
  have hb : Binding p₀ opened := before.binding.of_unscoped opens.exprs opens.unscoped
  obtain ⟨q, own₁, hq, ha₁, hw₁⟩ := (within.opens opens).declareTargets source hb
    (p₀.declaredInside s) fun t ht => exists_name regular.declarations (owned_of_inside ht)
  obtain ⟨direct, hdirect, held⟩ := lays.direct_held
  obtain ⟨entered, own, hentered, ha₂, hw₂⟩ :=
    declareAhead_ok regular ha₁.binding hw₁ source false direct held
  refine ⟨head, opened, entered, own, direct, hhead, hopened, ?_, hdirect, before, within, opens,
    ha₁.trans ha₂, hw₂⟩
  simp only [declareInside_eq hb hstmt regular, hq, ok_bind, declareAllAhead, hdirect, hentered]

/-- **The walk of an outline succeeds**: it binds the names at every
place in it, and every body in it is given a scope. -/
theorem bindOutline_ok {i j : Nat} {outline : Outline} (source : String) (topLevel : Bool)
    (regular : p₀.Regular)
    (slots : p₀.SlotsHeld) (lays : Lays p₀ i j outline) (h : Binding p₀ p)
    (w : Within p₀ p first ids declared around outer) :
    ∃ p' ids' declared', bindOutline source topLevel first outline p = .ok p' ∧
      Advances p₀ source ((p₀.placesIn topLevel declared outer outline).flatMap p₀.sitesAt)
        ids ids' p p' ∧
      Within p₀ p' first ids' declared' around outer ∧ ∀ k, i ≤ k → k < j → p'.Scoped ⟨k⟩ := by
  induction lays generalizing topLevel p first ids declared around outer with
  | done i => exact ⟨p, ids, declared, rfl, .refl h ids, w, by omega⟩
  | @leaf i j rest single tail ih =>
    have hsingle : ∀ {q}, Binding p₀ q → q.bodyOf ⟨i⟩ = .ok none := fun hq =>
      bodyOf_none_congr hq.frame single
    obtain ⟨q, ids₁, hq, ha, hw⟩ :=
      bindLeaf_ok regular h w source topLevel slots (hsingle h)
    obtain ⟨p', ids', declared', hrun, ha', hw', hscoped⟩ :=
      ih topLevel ha.binding hw
    refine ⟨p', ids', declared', ?_, ha.trans ha', hw', fun k hik hkj => ?_⟩
    · simp only [bindOutline, hq, lift_ok, ok_bind]
      exact hrun
    · rcases Nat.eq_or_lt_of_le hik with rfl | hlt
      · intro body hbody
        rw [hsingle ha'.binding] at hbody
        cases hbody
      · exact hscoped k hlt hkj
  | @nested i k j block body rest owns place inner tail ihBody ihRest =>
    obtain ⟨head, opened, entered, own, direct, enters⟩ :=
      enterBody_ok source regular slots owns inner h w
    obtain ⟨q, own', _, hq, ha, -, hscoped⟩ := ihBody false enters.ahead.binding enters.inside
    -- the scope of the body is left, and the one around it goes on
    obtain ⟨haround, hw⟩ := Advances.of_inside enters.within enters.opens (enters.ahead.trans ha)
    obtain ⟨p', ids', declared', hrun, ha', hw', hscoped'⟩ := ihRest topLevel haround.binding hw
    refine ⟨p', ids', declared', ?_, ?_, hw', fun l hil hlj => ?_⟩
    · rw [enters.bindOutline_eq, hq]
      exact hrun
    · have := (enters.before.trans haround).trans ha'
      simpa [placesIn, blockAhead, enters.direct_eq] using this
    · by_cases hli : l = i
      · subst hli
        obtain ⟨block', howns⟩ := bodyOf_some_congr enters.before.binding.frame owns
        refine ha'.keeps _ ((enters.ahead.trans ha).keeps _ ?_)
        exact enters.opens.scoped_self enters.within.size_pos howns
      · by_cases hlk : l < k
        · exact ha'.keeps _ (hscoped l (by omega) hlk)
        · exact hscoped' l (by omega) hlj

/-! ## The pass -/

/-- What the name pass makes of a program: it binds the names at every
place, and gives every block a scope. -/
structure NamesBound (p : Program) (source : String) (p' : Program) : Prop where
  binding : Binding p p'
  bound : BoundBy p source (p.places.flatMap p.sitesAt) p.exprs p'.exprs
  bodies : ∀ s, p'.Scoped s
  block : p'.block.symbolTable.isSentinel = false
  tables : 0 < p'.symbolTables.size
  links : p.ScopesHeld → p'.ScopesHeld
  grow : TablesGrow p.symbolTables p'.symbolTables [] []

/-- The scope of the top level is opened ahead of all, around nothing, and
holds what the top level knows from its start. -/
theorem enterTop_ok (source : String) (regular : p.Regular) (hpos : 0 < p.symbolTables.size)
    {i j : Nat} {outline : Outline} (lays : Lays p i j outline)
    (houtline : p.outline p.block = outline) :
    ∃ q own direct, p.withTop.declareAllAhead true p.symbolTables.nextId outline = .ok q ∧
      p.bindNames source = bindOutline source true p.symbolTables.nextId outline q ∧
      outline.direct = .ok direct ∧
      Advances p source [] [p.symbolTables.nextId] own p.withTop q ∧
      Within p q p.symbolTables.nextId own (direct.flatMap (p.declaredAhead true)) [] [] := by
  have hb : Binding p p.withTop := (Binding.refl regular.operands).of_unscoped rfl rfl
  have hw : Within p p.withTop p.symbolTables.nextId [p.symbolTables.nextId] [] [] [] :=
    ⟨NestedScopes.nil.open_new hpos, rfl⟩
  obtain ⟨direct, hdirect, held⟩ := lays.direct_held
  obtain ⟨q, own, hq, ha, hw⟩ := declareAhead_ok regular hb hw source true direct held
  have hahead : p.withTop.declareAllAhead true p.symbolTables.nextId outline = .ok q := by
    simp only [declareAllAhead, hdirect, ok_bind, hq]
  refine ⟨q, own, direct, hahead, ?_, hdirect, ha, hw⟩
  simp only [withTop, addSymbolTable] at hahead
  simp only [bindNames, houtline, addSymbolTable, hahead, lift_ok, ok_bind]

/-- **The name pass succeeds on every regular program** that holds the
expressions in its signatures. -/
theorem bindNames_ok (source : String) (regular : p.Regular) (slots : p.SlotsHeld)
    (hpos : 0 < p.symbolTables.size) :
    ∃ p', p.bindNames source = .ok p' ∧ NamesBound p source p' := by
  obtain ⟨outline, lays⟩ := regular.layout
  have houtline : p.outline p.block = outline := outline_of_lays lays regular.whole
  obtain ⟨q, own, direct, -, hnames, hdirect, ha, hw⟩ :=
    enterTop_ok source regular hpos lays houtline
  obtain ⟨p', own', _, hrun, ha', -, hscoped⟩ :=
    bindOutline_ok source true regular slots lays ha.binding hw
  have hall := ha.trans ha'
  have hsize : p.withTop.symbolTables.size = p.symbolTables.size + 1 := by
    simp [withTop, addSymbolTable]
  have hscope : p.symbolTables.nextId.isSentinel = false := by
    simpa [RecordId.isSentinel, Table.nextId] using Nat.ne_of_gt hpos
  refine ⟨p', hnames.trans hrun, ⟨hall.binding, ?_, fun s => ?_, ?_, ?_, fun hl => hall.links ?_,
    ?_, by simp, fun t ht _ => ?_⟩⟩
  · have : BoundBy p source _ p.exprs p'.exprs := hall.bound
    simpa [places, houtline, blockAhead, hdirect] using this
  · by_cases hs : s.raw < p.stmts.size
    · exact hscoped s.raw (Nat.zero_le _) hs
    · intro body hbody
      have := lt_size_of_bodyOf hbody
      rw [size_stmts_congr hall.binding.frame] at this
      exact absurd this hs
  · rw [hall.block]
    exact hscope
  · exact Nat.lt_of_lt_of_le (hsize ▸ Nat.succ_pos _) hall.grow.size_le
  · refine ⟨fun t r hr => ?_, fun s b hs => ?_, ?_⟩
    · rw [hsize]
      simp only [withTop, addSymbolTable, Table.get?_push] at hr
      split at hr
      · obtain rfl := Option.some.inj hr
        exact Nat.succ_pos _
      · exact Nat.lt_succ_of_lt (hl.links t r hr)
    · rw [hsize]
      exact Nat.lt_succ_of_lt (hl.bodies s b hs)
    · rw [hsize]
      exact Nat.lt_succ_self _
  · exact Nat.le_trans (by omega) hall.grow.size_le
  · -- the tables there were come before that of the top level
    have hnew : t ∉ [p.symbolTables.nextId] := by
      rw [List.mem_singleton]
      rintro rfl
      exact Nat.lt_irrefl _ ht
    rw [hall.grow.same t (hsize ▸ Nat.lt_succ_of_lt ht) hnew]
    exact Table.get?_push_of_lt ht

end Program

end FrontEnd
