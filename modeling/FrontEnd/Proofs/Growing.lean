import FrontEnd.Builder.Step
import FrontEnd.Proofs.Extension
/-!
# FrontEnd — programs in the making

What holds of a program at every moment of its building (`Growing`). The
statements made since a body was opened lay out an outline, and so do
those of each body around it (`OpenLayout`); closing a body makes one
statement of its owner and its outline. Nothing a builder makes has been
resolved or given a scope.
-/

namespace FrontEnd

/-- What a loop that is open will own once it is closed. -/
def OpenBody.iterators : OpenBody → List Target
  | .nest _ (.forEach iterator _) _ => [.variable iterator]
  | _ => []

/-- What the owner of an open body is until the body is closed. -/
def OpenBody.pending : OpenBody → StmtKind
  | .function f _ => .function f
  | .nest _ _ _ => .invalid

/-- The body is owned by the statement at `k` and starts right behind it. -/
def OpenBody.OwnedAt (k : Nat) : OpenBody → Prop
  | .function _ start => start = k + 1
  | .nest s _ start => s = ⟨k⟩ ∧ start = k + 1

/-- The statements up to `j`, some of them in bodies that are open, the
innermost first. -/
inductive OpenLayout (p : Program) : Nat → List OpenBody → Prop
  | top {j : Nat} {o : Outline} (lays : Lays p 0 j o) : OpenLayout p j []
  | inside {k j : Nat} {body : OpenBody} {span : Span} {o : Outline} {opened : List OpenBody}
      (outer : OpenLayout p k opened) (owner : p.stmts.get? ⟨k⟩ = some ⟨body.pending, span⟩)
      (place : body.OwnedAt k) (lays : Lays p (k + 1) j o) : OpenLayout p j (body :: opened)

/-- The records of a program in the making, of which no statement owns
the iterators of open loops yet. -/
structure Recorded (p : Program) (iterators : List Target) : Prop where
  operands : p.OperandsHeld
  /-- No name has been resolved, and nothing has been reported. -/
  unresolved : ∀ e x, p.exprs.get? e = some x → x.kind.isReference = false ∧ x.flagged = false
  declarations : ∀ s stmt, p.stmts.get? s = some stmt → p.DeclarationHeld stmt.kind
  owners : ∀ s s' t, t ∈ p.owned s → t ∈ p.owned s' → s = s'
  values : ∀ e r, p.enumTypes.get? e = some r →
    r.values.isEmpty ∨ r.values.stop ≤ p.enumValues.size
  named : ∀ t ∈ iterators, ∃ name, p.nameOf t = .ok name
  waiting : ∀ t ∈ iterators, ∀ s, t ∉ p.owned s
  distinct : iterators.Nodup
  bodies : ∀ s b, p.bodyOf s = .ok (some b) → b.symbolTable = .sentinel
  block : p.block = .empty
  tables : p.symbolTables = Table.empty.push {}
  mainSearched : p.mainSearched = false

/-- A program in the making. -/
structure Growing (p : Program) (opened : List OpenBody) : Prop
    extends Recorded p (opened.flatMap OpenBody.iterators) where
  functions : ∀ f : FunctionId, f.raw < p.functions.size → ∃ s, .function f ∈ p.owned s
  parameters : ∀ a : ParameterId, a.raw < p.parameters.size → ∃ s, .parameter a ∈ p.owned s
  layout : OpenLayout p p.stmts.size opened

variable {p p' : Program} {opened : List OpenBody} {i j k : Nat} {o : Outline}

/-! ## The layout of open bodies -/

namespace OpenLayout

theorem append (h : OpenLayout p i opened) (lays : Lays p i j o) : OpenLayout p j opened := by
  cases h with
  | top lays' => exact .top (lays'.append lays)
  | inside outer owner place lays' => exact .inside outer owner place (lays'.append lays)

theorem congr (h : OpenLayout p j opened)
    (hs : ∀ k stmt, k < j → p.stmts.get? ⟨k⟩ = some stmt → p'.stmts.get? ⟨k⟩ = some stmt)
    (hb : ∀ k, k < j → p'.bodyPlace ⟨k⟩ = p.bodyPlace ⟨k⟩) : OpenLayout p' j opened := by
  induction h with
  | top lays => exact .top (lays.congr fun k _ hkj => hb k hkj)
  | inside outer owner place lays ih =>
    have hle := lays.le
    exact .inside (ih (fun k stmt hk => hs k stmt (by omega)) fun k hk => hb k (by omega))
      (hs _ _ (by omega) owner) place (lays.congr fun k _ hkj => hb k hkj)

end OpenLayout

open Program

/-- Only statements that are held own something. -/
theorem lt_of_owned {s : StmtId} {t : Target} (h : t ∈ p.owned s) : s.raw < p.stmts.size := by
  obtain ⟨stmt, hs, -⟩ := mem_owned.1 h
  exact Table.lt_size_of_get? hs

namespace Recorded

variable {iterators : List Target} {s : StmtId} {t : Target} {stmt : Stmt}

theorem stmts_held (d : Recorded p iterators) (hs : s.raw < p.stmts.size) :
    ∃ stmt, p.stmts.get? s = some stmt ∧ p.DeclarationHeld stmt.kind := by
  obtain ⟨stmt, hs⟩ := Table.exists_get?_of_lt hs
  exact ⟨stmt, hs, d.declarations _ stmt hs⟩

/-- What a statement owns, it owns in a program that has grown. -/
theorem owned_of_extends (d : Recorded p iterators) (ext : p.Extends p')
    (hs : s.raw < p.stmts.size) : p'.owned s = p.owned s := by
  obtain ⟨stmt, hstmt, hd⟩ := d.stmts_held hs
  exact ext.owned hstmt hd

theorem mem_owned_of_extends (d : Recorded p iterators) (ext : p.Extends p') (h : t ∈ p.owned s) :
    t ∈ p'.owned s := by
  rwa [d.owned_of_extends ext (lt_of_owned h)]

/-- A target without a name is owned by no statement and waits for none. -/
theorem new_of_unnamed (d : Recorded p iterators) (h : ∀ name, p.nameOf t ≠ .ok name) :
    (∀ s, t ∉ p.owned s) ∧ t ∉ iterators := by
  refine ⟨fun s hs => ?_, fun ht => ?_⟩
  · obtain ⟨name, hname⟩ := exists_name d.declarations hs
    exact h name hname
  · obtain ⟨name, hname⟩ := d.named t ht
    exact h name hname

/-- An expression is made of operands that are there. -/
theorem addExpr (d : Recorded p iterators) {kind : ExprKind} {span : Span} {es : List ExprId}
    (hkind : kind.isReference = false) (hes : p.operands kind = .ok es)
    (held : ∀ c ∈ es, c.raw < p.exprs.size) :
    Recorded { p with exprs := p.exprs.push { kind, span } } iterators :=
  { d with
    operands := fun e x hx => by
      rw [Table.get?_push] at hx
      split at hx
      · next he =>
        obtain rfl := Option.some.inj hx
        rw [he]
        exact ⟨es, hes, held⟩
      · exact d.operands e x hx
    unresolved := fun e x hx => by
      rw [Table.get?_push] at hx
      split at hx
      · obtain rfl := Option.some.inj hx
        exact ⟨hkind, rfl⟩
      · exact d.unresolved e x hx }

/-- Records are appended that no statement refers to yet. -/
theorem grow (d : Recorded p iterators) (ext : p.Extends p') (hexprs : p'.exprs = p.exprs)
    (hstmts : p'.stmts = p.stmts)
    (hvalues : ∀ e r, p'.enumTypes.get? e = some r →
      r.values.isEmpty ∨ r.values.stop ≤ p'.enumValues.size)
    (hblock : p'.block = p.block) (htables : p'.symbolTables = p.symbolTables)
    (hmain : p'.mainSearched = p.mainSearched) : Recorded p' iterators := by
  have howned : ∀ s, p'.owned s = p.owned s := by
    intro s
    by_cases hs : s.raw < p.stmts.size
    · exact d.owned_of_extends ext hs
    · have hnil : ∀ q : Program, q.stmts = p.stmts → q.owned s = [] := fun q hq =>
        List.eq_nil_iff_forall_not_mem.2 fun t ht => hs (hq ▸ lt_of_owned ht)
      rw [hnil p' hstmts, hnil p rfl]
  refine
    { operands := fun e x hx => ?_
      unresolved := fun e x hx => d.unresolved e x (hexprs ▸ hx)
      declarations := fun s stmt hs => ext.declarationHeld (d.declarations s stmt (hstmts ▸ hs))
      owners := fun s s' t hs hs' => d.owners s s' t (howned s ▸ hs) (howned s' ▸ hs')
      values := hvalues
      named := fun t ht => ?_
      waiting := fun t ht s hs => d.waiting t ht s (howned s ▸ hs)
      distinct := d.distinct
      bodies := fun s b hb => ?_
      block := hblock.trans d.block
      tables := htables.trans d.tables
      mainSearched := hmain.trans d.mainSearched }
  · obtain ⟨es, hes, hlt⟩ := d.operands e x (hexprs ▸ hx)
    exact ⟨es, ext.operands hes, hlt⟩
  · obtain ⟨name, hname⟩ := d.named t ht
    exact ⟨name, ext.nameOf hname⟩
  · by_cases hs : s.raw < p.stmts.size
    · obtain ⟨stmt, hstmt, hd⟩ := d.stmts_held hs
      exact d.bodies s b (ext.bodyOf hstmt hd ▸ hb)
    · exact absurd (hstmts ▸ lt_size_of_bodyOf hb) hs

theorem extends_pushStmt (stmt : Stmt) : p.Extends { p with stmts := p.stmts.push stmt } where
  arguments := .refl _
  stmts := Table.extends_push _ _
  functions := .refl _
  parameters := .refl _
  vars := .refl _
  enumTypes := .refl _
  enumValues := .refl _
  structTypes := .refl _

/-- A statement is made that declares something new, if anything. -/
theorem pushStmt (d : Recorded p iterators) (hp : p' = { p with stmts := p.stmts.push stmt })
    (hd : p.DeclarationHeld stmt.kind)
    (hnew : ∀ t ∈ p'.owned p.stmts.nextId, (∀ s, t ∉ p.owned s) ∧ t ∉ iterators)
    (hbody : ∀ b, p'.bodyOf p.stmts.nextId = .ok (some b) → b.symbolTable = .sentinel) :
    Recorded p' iterators := by
  have ext : p.Extends p' := hp ▸ extends_pushStmt stmt
  have hstmts : p'.stmts = p.stmts.push stmt := by rw [hp]
  have hcases : ∀ s, s.raw < p'.stmts.size → s.raw < p.stmts.size ∨ s = p.stmts.nextId := by
    intro s hs
    rw [hstmts, Table.size_push] at hs
    rcases Nat.lt_succ_iff_lt_or_eq.1 hs with h | h
    · exact .inl h
    · exact .inr (by cases s; simp only [Table.nextId]; exact congrArg _ h)
  -- what a statement owns it owned before, or it is the new one
  have howned : ∀ s t, t ∈ p'.owned s → t ∈ p.owned s ∨
      s = p.stmts.nextId ∧ (∀ s, t ∉ p.owned s) ∧ t ∉ iterators := by
    intro s t ht
    rcases hcases s (lt_of_owned ht) with hs | rfl
    · exact .inl (d.owned_of_extends ext hs ▸ ht)
    · exact .inr ⟨rfl, hnew t ht⟩
  refine
    { operands := fun e x hx => ?_
      unresolved := fun e x hx => d.unresolved e x (by rw [hp] at hx; exact hx)
      declarations := fun s r hs => ext.declarationHeld ?_
      owners := fun s s' t hs hs' => ?_
      values := by rw [hp]; exact d.values
      named := fun t ht => by
        obtain ⟨name, hname⟩ := d.named t ht
        exact ⟨name, ext.nameOf hname⟩
      waiting := fun t ht s hs => ?_
      distinct := d.distinct
      bodies := fun s b hb => ?_
      block := by rw [hp]; exact d.block
      tables := by rw [hp]; exact d.tables
      mainSearched := by rw [hp]; exact d.mainSearched }
  · obtain ⟨es, hes, hlt⟩ := d.operands e x (by rw [hp] at hx; exact hx)
    exact ⟨es, ext.operands hes, hlt⟩
  · rw [hstmts, Table.get?_push] at hs
    split at hs
    · obtain rfl := Option.some.inj hs
      exact hd
    · exact d.declarations s r hs
  · rcases howned s t hs with h | ⟨rfl, h, -⟩
    · rcases howned s' t hs' with h' | ⟨-, h', -⟩
      · exact d.owners s s' t h h'
      · exact absurd h (h' s)
    · rcases howned s' t hs' with h' | ⟨rfl, -, -⟩
      · exact absurd h' (h s')
      · rfl
  · rcases howned s t hs with h | ⟨-, -, h⟩
    · exact d.waiting t ht s h
    · exact h ht
  · rcases hcases s (lt_size_of_bodyOf hb) with hs | rfl
    · obtain ⟨stmt', hstmt', hd'⟩ := d.stmts_held hs
      exact d.bodies s b (ext.bodyOf hstmt' hd' ▸ hb)
    · exact hbody b hb

/-! ## Closing bodies -/

section

variable {f : FunctionId} {block : Block}
variable (hp : p' = { p with functions := p.functions.modify f ({ · with body := block }) })

include hp

theorem functions_get_close (g : FunctionId) : p'.functions.get g =
    (p.functions.get g).map fun r => if g = f then { r with body := block } else r := by
  rw [hp]
  simp only [Table.get, Table.get?_modify]
  cases p.functions.get? g with
  | none => simp [Except.map]
  | some r => by_cases hg : g = f <;> simp [hg, Except.map]

/-- Who owns what does not depend on the bodies of functions. -/
theorem owned_closeFunction (s : StmtId) : p'.owned s = p.owned s := by
  have hstmts : p'.stmts = p.stmts := by rw [hp]
  have hparameters : p'.parameters = p.parameters := by rw [hp]
  simp only [owned, declaredAhead, declaredInside, hstmts, hparameters]
  cases p.stmts.get s with
  | error fault => rfl
  | ok stmt =>
    obtain ⟨kind, span⟩ := stmt
    cases kind with
    | function g =>
      simp only [ok_bind, functions_get_close hp]
      cases p.functions.get g with
      | error fault => rfl
      | ok r =>
        simp only [Except.map, ok_bind]
        by_cases hg : g = f
        · simp only [if_pos hg]
        · simp only [if_neg hg]
    | nest head body => cases head <;> rfl
    | _ => rfl

theorem nameOf_closeFunction (t : Target) : p'.nameOf t = p.nameOf t := by
  cases t with
  | function g =>
    simp only [nameOf, functions_get_close hp]
    cases p.functions.get g with
    | error fault => rfl
    | ok r =>
      simp only [Except.map, ok_bind]
      split <;> rfl
  | _ => rw [hp]; rfl

/-- A function gets its body. -/
theorem closeFunction (d : Recorded p iterators) (hblock : block.symbolTable = .sentinel) :
    Recorded p' iterators := by
  have howned := owned_closeFunction hp
  refine
    { operands := by rw [hp]; exact d.operands
      unresolved := by rw [hp]; exact d.unresolved
      declarations := fun s stmt hs => ?_
      owners := fun s s' t hs hs' => d.owners s s' t (howned s ▸ hs) (howned s' ▸ hs')
      values := by rw [hp]; exact d.values
      named := fun t ht => by rw [nameOf_closeFunction hp]; exact d.named t ht
      waiting := fun t ht s hs => d.waiting t ht s (howned s ▸ hs)
      distinct := d.distinct
      bodies := fun s b hb => ?_
      block := by rw [hp]; exact d.block
      tables := by rw [hp]; exact d.tables
      mainSearched := by rw [hp]; exact d.mainSearched }
  · have hd := d.declarations s stmt (by rw [hp] at hs; exact hs)
    obtain ⟨kind, span⟩ := stmt
    cases kind with
    | function g =>
      obtain ⟨r, hr, hrange⟩ := hd
      have hget := functions_get_close hp g
      rw [Table.get_eq_ok.2 hr] at hget
      refine ⟨_, Table.get_eq_ok.1 hget, ?_⟩
      rw [hp]
      split <;> exact hrange
    | nest head body =>
      rw [hp]
      cases head <;> exact hd
    | _ => rw [hp]; exact hd
  · rcases bodyOf_eq_some.1 hb with ⟨g, span, r, hs, hr, rfl⟩ | ⟨head, span, hs⟩
    · rw [hp] at hs hr
      rw [Table.get?_modify] at hr
      split at hr
      · obtain ⟨_, -, rfl⟩ := Option.map_eq_some_iff.1 hr
        exact hblock
      · exact d.bodies s _ (bodyOf_eq_some.2 (.inl ⟨g, span, r, hs, hr, rfl⟩))
    · rw [hp] at hs
      exact d.bodies s b (bodyOf_eq_some.2 (.inr ⟨head, span, hs⟩))

end

section

variable {owner : StmtId} {head : Head VariableId} {block : Block} {span : Span}
variable (hp : p' = { p with
  stmts := p.stmts.modify owner ({ · with kind := .nest head block }) })
variable (howner : p.stmts.get? owner = some ⟨.invalid, span⟩)

include hp howner

theorem stmts_get?_close (s : StmtId) : p'.stmts.get? s =
    if s = owner then some ⟨.nest head block, span⟩ else p.stmts.get? s := by
  rw [hp]
  simp only [Table.get?_modify]
  split
  · next h => rw [h, howner]; rfl
  · rfl

/-- Closing a loop makes its statement own the iterator. -/
theorem owned_closeNest (start : Nat) (s : StmtId) : p'.owned s =
    if s = owner then OpenBody.iterators (.nest owner head start) else p.owned s := by
  by_cases hs : s = owner
  · rw [if_pos hs]
    simp only [owned, declaredAhead, declaredInside, Table.get, stmts_get?_close hp howner, if_pos hs]
    cases head <;> rfl
  · rw [if_neg hs]
    simp only [owned, declaredAhead, declaredInside, Table.get, stmts_get?_close hp howner,
      if_neg hs]
    rw [hp]

omit hp in
theorem owned_pending : p.owned owner = [] := by
  simp only [owned, declaredAhead, declaredInside, Table.get_eq_ok.2 howner, ok_bind]
  rfl

/-- A statement gets its head and its body, and with them its iterator. -/
theorem closeNest {start : Nat} (d : Recorded p (OpenBody.iterators (.nest owner head start) ++ iterators))
    (hblock : block.symbolTable = .sentinel) : Recorded p' iterators := by
  have hget := stmts_get?_close hp howner
  -- all that is new is that the statement owns its iterator, which waited for that
  have howned : ∀ s t, t ∈ p'.owned s →
      t ∈ p.owned s ∨ s = owner ∧ t ∈ OpenBody.iterators (.nest owner head start) := by
    intro s t ht
    rw [owned_closeNest hp howner start] at ht
    split at ht
    · next h => exact .inr ⟨h, ht⟩
    · exact .inl ht
  have hname : ∀ t, p'.nameOf t = p.nameOf t := by
    intro t
    rw [hp]
    cases t <;> rfl
  have hnot : ∀ s t, t ∈ OpenBody.iterators (.nest owner head start) → t ∉ p.owned s :=
    fun s t ht => d.waiting t (List.mem_append_left _ ht) s
  refine
    { operands := by rw [hp]; exact d.operands
      unresolved := by rw [hp]; exact d.unresolved
      declarations := fun s stmt hs => ?_
      owners := fun s s' t hs hs' => ?_
      values := by rw [hp]; exact d.values
      named := fun t ht => by rw [hname]; exact d.named t (List.mem_append_right _ ht)
      waiting := fun t ht s hs => ?_
      distinct := (List.nodup_append.1 d.distinct).2.1
      bodies := fun s b hb => ?_
      block := by rw [hp]; exact d.block
      tables := by rw [hp]; exact d.tables
      mainSearched := by rw [hp]; exact d.mainSearched }
  · have hheld : p'.DeclarationHeld stmt.kind ↔ p.DeclarationHeld stmt.kind := by rw [hp]; exact .rfl
    rw [hheld]
    rw [hget] at hs
    split at hs
    · obtain rfl := Option.some.inj hs
      cases head with
      | forEach iterator iterable =>
        obtain ⟨name, hname⟩ := d.named (.variable iterator) (by simp [OpenBody.iterators])
        obtain ⟨r, hr, -⟩ := bind_eq_ok.1 hname
        exact Table.lt_size_of_get? (Table.get_eq_ok.1 hr)
      | _ => trivial
    · exact d.declarations s stmt hs
  · rcases howned s t hs with h | ⟨rfl, h⟩
    · rcases howned s' t hs' with h' | ⟨-, h'⟩
      · exact d.owners s s' t h h'
      · exact absurd h (hnot s t h')
    · rcases howned s' t hs' with h' | ⟨rfl, -⟩
      · exact absurd h' (hnot s' t h)
      · rfl
  · rcases howned s t hs with h | ⟨-, h⟩
    · exact d.waiting t (List.mem_append_right _ ht) s h
    · exact (List.nodup_append.1 d.distinct).2.2 t h t ht rfl
  · rcases bodyOf_eq_some.1 hb with ⟨g, span', r, hs, hr, rfl⟩ | ⟨head', span', hs⟩
    · rw [hget] at hs
      split at hs
      · cases hs
      · rw [hp] at hr
        exact d.bodies s _ (bodyOf_eq_some.2 (.inl ⟨g, span', r, hs, hr, rfl⟩))
    · rw [hget] at hs
      split at hs
      · cases hs
        exact hblock
      · exact d.bodies s b (bodyOf_eq_some.2 (.inr ⟨head', span', hs⟩))

end

end Recorded

end FrontEnd
