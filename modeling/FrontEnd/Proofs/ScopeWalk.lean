import FrontEnd.Proofs.NameEdits
import FrontEnd.Proofs.NameWalk
import FrontEnd.Proofs.ScopeTree
/-!
# FrontEnd — the scopes that the name pass makes

While the name pass walks an outline, the scope of a block grows with each
declaration, and the bodies come by that are given scopes of their own. In
the end each body has one in tables that no other has (`Walk`), linked to
the scope around it, with the declarations of the body in a fixed order
(`Housed`). What happens between is put together statement by statement:
a scope that has been left is not touched any more, and tables that come
later are new.
-/

namespace FrontEnd

namespace Program

variable {p₀ p p' p'' : Program} {source : String} {scope : SymbolTableId} {s s' : StmtId}
variable {topLevel : Bool}

/-! ## Steps within open scopes -/

/-- No block has been given a scope, and tables are packed if they were:
what it comes to that names are bound and targets are declared. -/
structure KeepsBlocks (p p' : Program) : Prop where
  bodies : ∀ s, p'.bodyOf s = p.bodyOf s
  packed : Packed p.symbolTables → Packed p'.symbolTables

namespace KeepsBlocks

theorem refl (p : Program) : p.KeepsBlocks p := ⟨fun _ => rfl, id⟩

theorem trans (h : p.KeepsBlocks p') (h' : p'.KeepsBlocks p'') : p.KeepsBlocks p'' :=
  ⟨fun s => (h'.bodies s).trans (h.bodies s), h'.packed ∘ h.packed⟩

theorem bind {ε : Type} {x : Except ε Program} {f : Program → Except ε Program}
    (hx : Keeps p.KeepsBlocks x) (next : ∀ q, Keeps q.KeepsBlocks (f q)) :
    Keeps p.KeepsBlocks (x >>= f) :=
  Keeps.bind hx fun q h => (next q).mono fun _ h' => h.trans h'

theorem foldlM {α ε : Type} {f : Program → α → Except ε Program} {xs : List α}
    (step : ∀ x q, Keeps q.KeepsBlocks (f q x)) : Keeps p.KeepsBlocks (xs.foldlM f p) :=
  Keeps.foldlM (fun x _ q h => (step x q).mono fun _ h' => h.trans h') (refl p)

theorem declareTarget (p : Program) (scope : SymbolTableId) (t : Target) :
    Keeps p.KeepsBlocks (p.declareTarget scope t) := by
  intro p' h
  obtain ⟨tables, rfl, -⟩ := tables_of_declareTarget h
  obtain ⟨name, -, hdeclare⟩ := bind_eq_ok.1 h
  exact ⟨fun s => bodyOf_congr rfl rfl s, fun packed => packed.declare hdeclare⟩

theorem bindExprWithin (source : String) (scope : SymbolTableId) (fuel : Nat) (p : Program)
    (e : ExprId) : Keeps p.KeepsBlocks (bindExprWithin source scope fuel p e) := by
  induction fuel generalizing p e with
  | zero => exact .error
  | succ fuel ih =>
    refine .read fun x _ => ?_
    split
    · refine .read fun found _ => ?_
      cases found with
      | none => exact .pure (refl p)
      | some kind => exact .pure ⟨fun s => bodyOf_congr rfl rfl s, id⟩
    · exact .read fun es _ => foldlM fun e q => ih q e

theorem bindExprs (p : Program) (es : List ExprId) :
    Keeps p.KeepsBlocks (bindExprs source scope p es) :=
  foldlM fun e q => bindExprWithin source scope _ q e

theorem declareAhead (topLevel : Bool) (p : Program) (s : StmtId) :
    Keeps p.KeepsBlocks (declareAhead topLevel scope p s) := by
  refine .read fun stmt _ => ?_
  split
  · exact declareTarget p scope _
  · split
    · exact declareTarget p scope _
    · exact .pure (refl p)
  · exact .pure (refl p)

theorem declareAllAhead (topLevel : Bool) (p : Program) (outline : Outline) :
    Keeps p.KeepsBlocks (declareAllAhead topLevel scope p outline) :=
  .read fun _ _ => foldlM fun s q => declareAhead topLevel q s

theorem declareInside (p : Program) (s : StmtId) :
    Keeps p.KeepsBlocks (declareInside scope p s) := by
  refine .read fun stmt _ => ?_
  split
  · exact .read fun r _ => .read fun l _ => foldlM fun x q => declareTarget q scope _
  · exact declareTarget p scope _
  · exact .pure (refl p)

theorem bindLeaf (p : Program) (s : StmtId) :
    Keeps p.KeepsBlocks (bindLeaf source topLevel scope p s) := by
  refine .read fun stmt _ => bind (bindExprs p _) fun q => ?_
  split
  · split
    · exact .pure (refl q)
    · exact declareTarget q scope _
  · exact .pure (refl q)

theorem bindHead (p : Program) (s : StmtId) :
    Keeps p.KeepsBlocks (bindHead source scope p s) := by
  refine .read fun stmt _ => ?_
  split
  · exact .read fun es _ => bindExprs p es
  · exact bindExprs p _

end KeepsBlocks

/-! ## Opening a scope -/

/-- To open a scope changes the body of one statement only, since no other
has the same body. -/
theorem bodyOf_openScope {around inner : SymbolTableId} (regular : p.Regular)
    (h : p.openScope s around = .ok (inner, p')) (hne : s' ≠ s) : p'.bodyOf s' = p.bodyOf s' := by
  simp only [openScope, addSymbolTable] at h
  obtain ⟨found, hfound, h⟩ := bind_eq_ok.1 h
  rw [lift_eq_ok] at hfound
  cases found with
  | none => cases h
  | some q =>
    cases pure_eq_ok.1 h
    obtain ⟨⟨kind, span⟩, hs, hfound⟩ := bind_eq_ok.1 hfound
    rw [Table.get_eq_ok] at hs
    cases kind with
    | function f =>
      obtain ⟨functions, hupdate, hfound⟩ := bind_eq_ok.1 hfound
      cases pure_eq_ok.1 hfound
      obtain ⟨-, rfl⟩ := (Table.update_eq_ok_iff _).1 hupdate
      simp only [bodyOf]
      cases hs' : p.stmts.get s' with
      | error fault => rfl
      | ok stmt' =>
        obtain ⟨kind', span'⟩ := stmt'
        cases kind' with
        | function f' =>
          -- the other statement declares another function
          have hf : f' ≠ f := fun hf => hne <| regular.owners _ _ (.function f)
            (owned_function (hf ▸ Table.get_eq_ok.1 hs')) (owned_function hs)
          simp only [ok_bind, Table.get, Table.get?_modify_of_ne hf]
        | _ => rfl
    | nest head body =>
      cases pure_eq_ok.1 hfound
      simp only [bodyOf, Table.get, Table.get?_modify_of_ne hne]
    | _ => cases hfound

/-! ## What a block declares -/

/-- What a block declares, in the order of its scope: what it knows by its
owner, then what is known ahead of all its statements, and then what only
the statements behind know. -/
def declaredIn (p : Program) (owner : Option StmtId) (statements : List StmtId) : List Target :=
  owner.elim [] p.declaredInside ++ statements.flatMap (p.declaredAhead owner.isNone) ++
    statements.flatMap (p.declaredBehind owner.isNone)

/-- A statement with a body declares nothing that only those behind know. -/
theorem declaredBehind_of_body {body : Block} (h : p.bodyOf s = .ok (some body)) :
    p.declaredBehind topLevel s = [] := by
  rcases bodyOf_eq_some.1 h with ⟨f, span, r, hs, -, -⟩ | ⟨head, span, hs⟩
  · rw [declaredBehind_eq _ (Table.get_eq_ok.2 hs)]
    rfl
  · rw [declaredBehind_eq _ (Table.get_eq_ok.2 hs)]
    rfl

end Program

/-! ## Bodies and their scopes -/

/-- The owner of a body, and the scope that the body has been given. -/
structure Housing where
  owner : StmtId
  scope : OpenScope

open Program

/-- The bodies in an outline have been given scopes: each its own, linked
to the scope around it, with what the body declares. -/
inductive Housed (p₀ p : Program) : (around : SymbolTableId) → Outline → List Housing → Prop
  | done (around : SymbolTableId) : Housed p₀ p around .done []
  | leaf {around : SymbolTableId} {s : StmtId} {rest : Outline} {hs : List Housing}
      (tail : Housed p₀ p around rest hs) : Housed p₀ p around (.leaf s rest) hs
  | nested {around : SymbolTableId} {s : StmtId} {body rest : Outline} {block : Block}
      {ids : List StmtId} {scope : OpenScope} {hs hs' : List Housing}
      (owns : p.bodyOf s = .ok (some block)) (given : block.symbolTable = scope.first)
      (lies : scope.Within p.symbolTables around) (direct : body.direct = .ok ids)
      (symbols : scope.symbols = (p₀.declaredIn (some s) ids).map p₀.symbolAt)
      (inner : Housed p₀ p scope.first body hs) (tail : Housed p₀ p around rest hs') :
      Housed p₀ p around (.nested s body rest) (⟨s, scope⟩ :: (hs ++ hs'))

/-- The tables of the scopes. -/
def housingTables (hs : List Housing) : List SymbolTableId := hs.flatMap (·.scope.tables)

variable {p₀ p q p' : Program} {around first : SymbolTableId} {o body rest : Outline}
variable {hs hs' : List Housing} {i j k : Nat} {ids : List SymbolTableId}

/-- Scopes that are left alone stay as they are. -/
theorem Housed.congr (h : Housed p₀ p around o hs)
    (bodies : ∀ x ∈ hs, p'.bodyOf x.owner = p.bodyOf x.owner)
    (tables : ∀ t ∈ housingTables hs, p'.symbolTables.get? t = p.symbolTables.get? t) :
    Housed p₀ p' around o hs := by
  induction h with
  | done around => exact .done around
  | leaf _ ih => exact .leaf (ih bodies tables)
  | @nested around s body rest block ids scope hs hs' owns given lies direct symbols inner tail ihInner ihTail =>
    obtain ⟨hself, hbodies⟩ := List.forall_mem_cons.1 bodies
    obtain ⟨hinner, htail⟩ := List.forall_mem_append.1 hbodies
    rw [housingTables, List.flatMap_cons, List.flatMap_append] at tables
    obtain ⟨tself, ttables⟩ := List.forall_mem_append.1 tables
    obtain ⟨tinner, ttail⟩ := List.forall_mem_append.1 ttables
    exact .nested (hself.trans owns) given (lies.congr tself) direct symbols (ihInner hinner tinner)
      (ihTail htail ttail)

theorem Housed.append (h : Housed p₀ p around o hs) (h' : Housed p₀ p around rest hs') :
    Housed p₀ p around (o.append rest) (hs ++ hs') := by
  induction h with
  | done around => exact h'
  | leaf _ ih => exact .leaf (ih h')
  | nested owns given lies direct symbols inner _ _ ih =>
    rw [List.cons_append, List.append_assoc]
    exact .nested owns given lies direct symbols inner (ih h')

theorem mem_housingTables {t : SymbolTableId} :
    t ∈ housingTables hs ↔ ∃ x ∈ hs, t ∈ x.scope.tables := List.mem_flatMap

theorem housingTables_append : housingTables (hs ++ hs') = housingTables hs ++ housingTables hs' :=
  List.flatMap_append

/-- What the walk over the statements from `i` up to `j` leaves: their
bodies have been given scopes in tables that are new, of no other scope
and apart from those of the scope at hand, `ids`. -/
structure Walk (p₀ p p' : Program) (first : SymbolTableId) (ids : List SymbolTableId) (i j : Nat)
    (o : Outline) (hs : List Housing) : Prop where
  housed : Housed p₀ p' first o hs
  owners : ∀ x ∈ hs, i ≤ x.owner.raw ∧ x.owner.raw < j
  once : (hs.map (·.owner)).Nodup
  fresh : ∀ t ∈ housingTables hs, p.symbolTables.size ≤ t.raw ∧ t.raw < p'.symbolTables.size ∧ t ∉ ids
  nodup : (housingTables hs).Nodup
  elsewhere : ∀ s : StmtId, s.raw < i ∨ j ≤ s.raw → p'.bodyOf s = p.bodyOf s
  size_le : p.symbolTables.size ≤ p'.symbolTables.size
  packed : Packed p.symbolTables → Packed p'.symbolTables

namespace Walk

/-- No body comes by. -/
theorem of_keepsBlocks (step : p.KeepsBlocks p') (size_le : p.symbolTables.size ≤ p'.symbolTables.size)
    (bare : Housed p₀ p' first o []) : Walk p₀ p p' first ids i j o [] where
  housed := bare
  owners := by simp
  once := .nil
  fresh := by simp [housingTables]
  nodup := by simp [housingTables]
  elsewhere s _ := step.bodies s
  size_le := size_le
  packed := step.packed

/-- What has been done ahead of a walk within open scopes. -/
theorem after (step : p.KeepsBlocks q) (size_le : p.symbolTables.size ≤ q.symbolTables.size)
    (walk : Walk p₀ q p' first ids i j o hs) : Walk p₀ p p' first ids i j o hs where
  housed := walk.housed
  owners := walk.owners
  once := walk.once
  fresh t ht := by
    obtain ⟨hle, hrest⟩ := walk.fresh t ht
    exact ⟨Nat.le_trans size_le hle, hrest⟩
  nodup := walk.nodup
  elsewhere s hs := (walk.elsewhere s hs).trans (step.bodies s)
  size_le := Nat.le_trans size_le walk.size_le
  packed := walk.packed ∘ step.packed

/-- **One walk after another.** The second leaves alone what the first has
made, and its tables are newer. -/
theorem append {ids' : List SymbolTableId} (walk : Walk p₀ p q first ids i k o hs)
    (next : Walk p₀ q p' first ids' k j rest hs')
    (grow : TablesGrow q.symbolTables p'.symbolTables ids ids') (hik : i ≤ k) (hkj : k ≤ j) :
    Walk p₀ p p' first ids' i j (o.append rest) (hs ++ hs') where
  housed := by
    refine (walk.housed.congr (fun x hx => ?_) fun t ht => ?_).append next.housed
    · exact next.elsewhere _ (.inl (walk.owners x hx).2)
    · obtain ⟨-, hlt, hnot⟩ := walk.fresh t ht
      exact grow.same t hlt hnot
  owners x hx := by
    rcases List.mem_append.1 hx with hx | hx
    · exact ⟨(walk.owners x hx).1, Nat.lt_of_lt_of_le (walk.owners x hx).2 hkj⟩
    · exact ⟨Nat.le_trans hik (next.owners x hx).1, (next.owners x hx).2⟩
  once := by
    rw [List.map_append, List.nodup_append]
    refine ⟨walk.once, next.once, fun s hs s' hs' hss => ?_⟩
    obtain ⟨x, hx, rfl⟩ := List.mem_map.1 hs
    obtain ⟨y, hy, rfl⟩ := List.mem_map.1 hs'
    have hlt := (walk.owners x hx).2
    have hle := (next.owners y hy).1
    rw [hss] at hlt
    omega
  fresh t ht := by
    rw [housingTables_append] at ht
    rcases List.mem_append.1 ht with ht | ht
    · obtain ⟨hle, hlt, hnot⟩ := walk.fresh t ht
      refine ⟨hle, Nat.lt_of_lt_of_le hlt next.size_le, fun hmem => ?_⟩
      rcases grow.own_or_new t hmem with hown | hnew
      · exact hnot hown
      · omega
    · obtain ⟨hle, hrest⟩ := next.fresh t ht
      exact ⟨Nat.le_trans walk.size_le hle, hrest⟩
  nodup := by
    rw [housingTables_append, List.nodup_append]
    refine ⟨walk.nodup, next.nodup, fun t ht u hu htu => ?_⟩
    have hlt := (walk.fresh t ht).2.1
    have hle := (next.fresh u hu).1
    rw [htu] at hlt
    omega
  elsewhere s hs :=
    (next.elsewhere s (hs.imp_left fun h => Nat.lt_of_lt_of_le h hik)).trans
      (walk.elsewhere s (hs.imp_right (Nat.le_trans hkj)))
  size_le := Nat.le_trans walk.size_le next.size_le
  packed := next.packed ∘ walk.packed

/-- **A body and its scope.** The scope is made, the body is walked in it,
and it is left for the scope around. -/
theorem ofBody {block : Block} {direct : List StmtId} {scope : OpenScope}
    (owns : p.bodyOf ⟨i⟩ = .ok (some block)) (opens : OpensScope p q ⟨i⟩ first)
    (others : ∀ s ≠ ⟨i⟩, q.bodyOf s = p.bodyOf s) (stops : Stops p.symbolTables first)
    (inside : Walk p₀ q p' scope.first scope.tables (i + 1) k body hs)
    (hfirst : scope.first = p.symbolTables.nextId)
    (grow : TablesGrow q.symbolTables p'.symbolTables [scope.first] scope.tables)
    (lies : scope.Within p'.symbolTables first) (hdirect : body.direct = .ok direct)
    (symbols : scope.symbols = (p₀.declaredIn (some ⟨i⟩) direct).map p₀.symbolAt)
    (held : ∀ t ∈ ids, t.raw < p.symbolTables.size) (hik : i + 1 ≤ k) :
    Walk p₀ p p' first ids i k (.nested ⟨i⟩ body .done) (⟨⟨i⟩, scope⟩ :: hs) := by
  have hsize : q.symbolTables.size = p.symbolTables.size + 1 := by rw [opens.tables, Table.size_push]
  -- the tables of the scope are its first one and newer ones
  have new : ∀ t ∈ scope.tables, p.symbolTables.size ≤ t.raw := fun t ht => by
    rcases grow.own_or_new t ht with hown | hnew
    · rw [List.mem_singleton.1 hown, hfirst]
      exact Nat.le_refl _
    · omega
  have apart : ∀ t : SymbolTableId, p.symbolTables.size ≤ t.raw → t ∉ ids := fun t hle hmem =>
    Nat.not_le_of_lt (held t hmem) hle
  have tables : housingTables (⟨⟨i⟩, scope⟩ :: hs) = scope.tables ++ housingTables hs := rfl
  refine ⟨?_, fun x hx => ?_, ?_, fun t ht => ?_, ?_, fun s hs => ?_, ?_, fun packed => ?_⟩
  · have given := (inside.elsewhere ⟨i⟩ (.inl (Nat.lt_succ_self i))).trans (opens.body block owns)
    have housed := Housed.nested given hfirst.symm lies hdirect symbols inside.housed (.done first)
    rwa [List.append_nil] at housed
  · rcases List.mem_cons.1 hx with rfl | hx
    · exact ⟨Nat.le_refl _, hik⟩
    · have := inside.owners x hx
      omega
  · refine List.nodup_cons.2 ⟨fun hmem => ?_, inside.once⟩
    obtain ⟨x, hx, hself⟩ := List.mem_map.1 hmem
    have hle := (inside.owners x hx).1
    rw [hself] at hle
    exact Nat.lt_irrefl _ hle
  · rw [tables] at ht
    rcases List.mem_append.1 ht with ht | ht
    · exact ⟨new t ht, lies.run.held t ht, apart t (new t ht)⟩
    · obtain ⟨hle, hlt, -⟩ := inside.fresh t ht
      exact ⟨by omega, hlt, apart t (by omega)⟩
  · rw [tables, List.nodup_append]
    refine ⟨lies.nodup, inside.nodup, fun t ht u hu htu => ?_⟩
    exact (inside.fresh u hu).2.2 (htu ▸ ht)
  · refine (inside.elsewhere s (hs.imp_left Nat.lt_succ_of_lt)).trans (others s ?_)
    rintro rfl
    dsimp only at hs
    omega
  · have := inside.size_le
    omega
  · refine inside.packed ?_
    rw [opens.tables]
    exact packed.push stops

end Walk

namespace Program

variable {own : List SymbolTableId} {declared : List Target} {around : List OpenScope}
variable {outer : List Target}

/-- What a body knows from its start is declared in tables, and gives no
body a scope. -/
theorem EntersBody.keepsBlocks {s : StmtId} {body : Outline} {head opened entered : Program}
    {direct : List StmtId}
    (h : EntersBody p₀ source first own declared around outer s body p head opened entered own' direct) :
    opened.KeepsBlocks entered :=
  KeepsBlocks.bind (KeepsBlocks.declareInside opened s)
    (fun q => KeepsBlocks.declareAllAhead false q body) entered h.entered_eq

/-- **The walk of an outline makes a scope for every body in it**, and in
the scope at hand declares what only the statements behind know. -/
theorem bindOutline_walk (source : String) (topLevel : Bool) (regular : p₀.Regular)
    (slots : p₀.SlotsHeld) (lays : Lays p₀ i j o) (h : Binding p₀ p)
    (w : Within p₀ p first own declared around outer) :
    ∃ p' own' direct hs sites, bindOutline source topLevel first o p = .ok p' ∧
      o.direct = .ok direct ∧ Advances p₀ source sites own own' p p' ∧
      Within p₀ p' first own' (declared ++ direct.flatMap (p₀.declaredBehind topLevel)) around outer ∧
      Walk p₀ p p' first own' i j o hs := by
  induction lays generalizing topLevel p first own declared around outer with
  | done i =>
    refine ⟨p, own, [], [], _, rfl, rfl, .refl h own, by simpa using w, ?_⟩
    exact .of_keepsBlocks (.refl p) (Nat.le_refl _) (.done first)
  | @leaf i j rest single tail ih =>
    obtain ⟨q, own₁, hq, ha, hw⟩ :=
      bindLeaf_ok regular h w source topLevel slots (bodyOf_none_congr h.frame single)
    obtain ⟨p', own', direct, hs, sites, hrun, hdirect, ha', hw', walk⟩ := ih topLevel ha.binding hw
    refine ⟨p', own', ⟨i⟩ :: direct, hs, _, ?_, ?_, ha.trans ha', ?_, ?_⟩
    · simp only [bindOutline, hq, lift_ok, ok_bind]
      exact hrun
    · rw [Outline.direct, hdirect]
      rfl
    · simpa using hw'
    · have step : Walk p₀ p q first own₁ i (i + 1) (.leaf ⟨i⟩ .done) [] :=
        .of_keepsBlocks (KeepsBlocks.bindLeaf p _ q hq) ha.grow.size_le (.leaf (.done first))
      exact step.append walk ha'.grow (Nat.le_succ i) tail.le
  | @nested i k j block body rest owns place inner tail ihBody ihRest =>
    obtain ⟨head, opened, entered, own₁, direct₁, enters⟩ :=
      enterBody_ok source regular slots owns inner h w
    obtain ⟨block', howns⟩ := bodyOf_some_congr enters.before.binding.frame owns
    obtain ⟨q, own₂, direct₂, hs₂, sites₂, hq, hdirect₂, ha, hw, walk₂⟩ :=
      ihBody false enters.ahead.binding enters.inside
    cases enters.direct_eq.symm.trans hdirect₂
    -- the scope of the body is left, and the one around it goes on
    have inside := enters.ahead.trans ha
    obtain ⟨haround, hwaround⟩ := Advances.of_inside enters.within enters.opens inside
    obtain ⟨p', own', direct, hs, sites, hrun, hdirect, ha', hw', walk⟩ :=
      ihRest topLevel haround.binding hwaround
    let scope : OpenScope :=
      ⟨head.symbolTables.nextId, own₂, (p₀.declaredIn (some ⟨i⟩) direct₁).map p₀.symbolAt⟩
    have lies : scope.Within q.symbolTables first := hw.nested.within
    have regularHead := regular.congr enters.before.binding.frame enters.before.binding.held
    have enclosed : Walk p₀ head q first own i k (.nested ⟨i⟩ body .done) (⟨⟨i⟩, scope⟩ :: hs₂) :=
      .ofBody howns enters.opens (fun s hs => bodyOf_openScope regularHead enters.opened_eq hs)
        enters.within.nested.stops (walk₂.after enters.keepsBlocks enters.ahead.grow.size_le) rfl
        inside.grow lies enters.direct_eq rfl (enters.within.nested.held _ List.mem_cons_self) inner.le
    refine ⟨p', own', ⟨i⟩ :: direct, ⟨⟨i⟩, scope⟩ :: hs₂ ++ hs, _, ?_, ?_,
      (enters.before.trans haround).trans ha', ?_, ?_⟩
    · rw [enters.bindOutline_eq, hq]
      exact hrun
    · rw [Outline.direct, hdirect]
      rfl
    · rw [List.flatMap_cons, declaredBehind_of_body owns]
      exact hw'
    · have hik := Nat.le_of_succ_le inner.le
      have first := enclosed.after (KeepsBlocks.bindHead p _ head enters.head_eq)
        enters.before.grow.size_le
      exact first.append walk ha'.grow hik tail.le

/-- The scopes that the name pass makes: `top` is that of the top level,
and `hs` are those of the bodies in it. All of them are new, and no table
is of two of them. -/
structure ScopesMade (p p' : Program) (top : OpenScope) (hs : List Housing) : Prop where
  frame : p'.frame = p.frame
  block : p'.block.symbolTable = top.first
  lies : top.Within p'.symbolTables .sentinel
  symbols : ∃ direct, (p.outline p.block).direct = .ok direct ∧
    top.symbols = (p.declaredIn none direct).map p.symbolAt
  housed : Housed p p' top.first (p.outline p.block) hs
  once : (hs.map (·.owner)).Nodup
  new : ∀ t ∈ top.tables ++ housingTables hs, p.symbolTables.size ≤ t.raw
  nodup : (top.tables ++ housingTables hs).Nodup
  packed : Packed p.symbolTables → Packed p'.symbolTables

/-- **The name pass makes a scope for every block.** -/
theorem bindNames_walk (source : String) (regular : p.Regular) (slots : p.SlotsHeld)
    (hpos : 0 < p.symbolTables.size) :
    ∃ p' top hs, p.bindNames source = .ok p' ∧ p.ScopesMade p' top hs := by
  obtain ⟨outline, lays⟩ := regular.layout
  have houtline : p.outline p.block = outline := outline_of_lays lays regular.whole
  obtain ⟨q, ids, direct, hahead, hnames, hdirect, ha, hw⟩ :=
    enterTop_ok source regular hpos lays houtline
  obtain ⟨p', own, direct', hs, sites, hrun, hdirect', ha', hw', walk⟩ :=
    bindOutline_walk source true regular slots lays ha.binding hw
  cases hdirect.symm.trans hdirect'
  let top : OpenScope :=
    ⟨p.symbolTables.nextId, own, (p.declaredIn none direct).map p.symbolAt⟩
  have lies : top.Within p'.symbolTables .sentinel := hw'.nested.within
  have all := ha.trans ha'
  have hsize : p.withTop.symbolTables.size = p.symbolTables.size + 1 := by
    simp [withTop, addSymbolTable]
  have before : p.withTop.KeepsBlocks q :=
    KeepsBlocks.declareAllAhead true p.withTop outline q hahead
  have walk := walk.after before ha.grow.size_le
  refine ⟨p', top, hs, hnames.trans hrun, all.binding.frame, ?_, lies,
    ⟨direct, houtline ▸ hdirect, rfl⟩, houtline ▸ walk.housed, walk.once, fun t ht => ?_, ?_,
    fun packed => ?_⟩
  · rw [all.block]
    rfl
  · rcases List.mem_append.1 ht with ht | ht
    · rcases all.grow.own_or_new t ht with hown | hnew
      · rw [List.mem_singleton.1 hown]
        exact Nat.le_refl _
      · omega
    · have := (walk.fresh t ht).1
      omega
  · rw [List.nodup_append]
    exact ⟨lies.nodup, walk.nodup, fun t ht u hu htu => (walk.fresh u hu).2.2 (htu ▸ ht)⟩
  · exact walk.packed (packed.push (.inl rfl))

end Program

end FrontEnd
