import FrontEnd.Proofs.Declaring
import FrontEnd.Proofs.Frame
/-!
# FrontEnd — the scopes that blocks are given

Name resolution gives every body a scope of its own (`Scoped`), and
neither it nor anything after it leaves a link to a table that is not
there (`ScopesHeld`).
-/

namespace FrontEnd

namespace Program

/-- A program without its expressions and its scopes. -/
def unscoped (p : Program) : Program :=
  { p with
    exprs := .empty
    stmts := p.stmts.map Stmt.frame
    functions := p.functions.map fun f => { f with body := f.body.frame }
    symbolTables := .empty
    block := p.block.frame }

variable {p p' : Program} {s : StmtId}

/-- The frame looks at no scopes. -/
theorem frame_of_unscoped (h : p'.unscoped = p.unscoped)
    (hexprs : p'.exprs.map Expr.frame = p.exprs.map Expr.frame) : p'.frame = p.frame := by
  have key : ∀ q : Program, q.frame =
      { q.unscoped with
        exprs := q.exprs.map Expr.frame
        functions := q.unscoped.functions.map Function.frame
        parameters := q.unscoped.parameters.map Parameter.frame
        vars := q.unscoped.vars.map Variable.frame
        main := none
        mainSearched := false } := by
    intro q
    simp only [Program.frame, unscoped, Table.map, Array.map_map]
    rfl
  rw [key p', key p, hexprs, h]

theorem arguments_of_unscoped (h : p'.unscoped = p.unscoped) : p'.arguments = p.arguments := by
  have := congrArg Program.arguments h
  exact this

/-! ## Links -/

/-- The body of a statement has been given a scope, if it has a body. -/
def Scoped (p : Program) (s : StmtId) : Prop :=
  ∀ body, p.bodyOf s = .ok (some body) → body.symbolTable.isSentinel = false

/-- Every link between scopes, and from a block to its scope, is held. -/
structure ScopesHeld (p : Program) : Prop where
  links : ∀ t r, p.symbolTables.get? t = some r → r.next.raw < p.symbolTables.size
  bodies : ∀ s body, p.bodyOf s = .ok (some body) →
    body.symbolTable.raw < p.symbolTables.size
  block : p.block.symbolTable.raw < p.symbolTables.size

theorem bodyOf_congr (hs : p'.stmts = p.stmts) (hf : p'.functions = p.functions) (s : StmtId) :
    p'.bodyOf s = p.bodyOf s := by
  simp only [bodyOf, hs, hf]

theorem ScopesHeld.congr (held : p.ScopesHeld) (hb : ∀ s, p'.bodyOf s = p.bodyOf s)
    (hblock : p'.block = p.block) (hsize : p.symbolTables.size ≤ p'.symbolTables.size)
    (links : ∀ t r, p'.symbolTables.get? t = some r → r.next.raw < p'.symbolTables.size) :
    p'.ScopesHeld where
  links := links
  bodies s body h := Nat.lt_of_lt_of_le (held.bodies s body (hb s ▸ h)) hsize
  block := hblock ▸ Nat.lt_of_lt_of_le held.block hsize

theorem ScopesHeld.addSymbol {t : SymbolTableId} {symbol : Symbol} (held : p.ScopesHeld) :
    (p.addSymbol t symbol).ScopesHeld := by
  refine held.congr (fun s => bodyOf_congr rfl rfl s) rfl (by simp) fun u ru hu => ?_
  rw [size_addSymbol]
  rcases get?_addSymbol_cases hu with hold | ⟨r, hr, rfl, rfl⟩
  · exact held.links u ru hold
  · exact held.links u r hr

theorem ScopesHeld.spliced {last : SymbolTableId} {r : SymbolTable} (held : p.ScopesHeld)
    (hr : p.symbolTables.get? last = some r) : (p.spliced last r.next).ScopesHeld := by
  refine held.congr (fun s => bodyOf_congr rfl rfl s) rfl (by simp) fun u ru hu => ?_
  rw [size_spliced]
  rcases get?_spliced_cases hr hu with rfl | ⟨rfl, rfl⟩ | hold
  · exact Nat.lt_succ_of_lt (held.links last r hr)
  · exact Nat.lt_succ_self _
  · exact Nat.lt_succ_of_lt (held.links u ru hold)

/-- A declaration keeps all links held. -/
theorem ScopesHeld.declare {t : SymbolTableId} {symbol : Symbol} (held : p.ScopesHeld)
    (h : p.declare t symbol = .ok p') : p'.ScopesHeld := by
  cases declare_eq_ok.1 h with
  | fits => exact held.addSymbol
  | overflows _ hr => exact (held.spliced hr).addSymbol

/-! ## Opening a scope -/

/-- What opening a scope for the body of a statement does: a new table
comes last, the body gets it, and so does any block that is changed. -/
structure OpensScope (p p' : Program) (s : StmtId) (around : SymbolTableId) : Prop where
  exprs : p'.exprs = p.exprs
  tables : p'.symbolTables = p.symbolTables.push { next := around }
  body : ∀ b, p.bodyOf s = .ok (some b) →
    p'.bodyOf s = .ok (some { b with symbolTable := p.symbolTables.nextId })
  bodies : ∀ s' b', p'.bodyOf s' = .ok (some b') →
    p.bodyOf s' = .ok (some b') ∨ b'.symbolTable = p.symbolTables.nextId
  unscoped : p'.unscoped = p.unscoped
  block : p'.block = p.block

/-- A body is kept with the function it belongs to, or in the statement. -/
theorem bodyOf_eq_some {b : Block} : p.bodyOf s = .ok (some b) ↔
    (∃ f span r, p.stmts.get? s = some ⟨.function f, span⟩ ∧ p.functions.get? f = some r ∧
      r.body = b) ∨
    ∃ head span, p.stmts.get? s = some ⟨.nest head b, span⟩ := by
  constructor
  · intro h
    obtain ⟨⟨kind, span⟩, hs, hkind⟩ := bind_eq_ok.1 h
    rw [Table.get_eq_ok] at hs
    cases kind with
    | function f =>
      obtain ⟨r, hr, hbody⟩ := bind_eq_ok.1 hkind
      exact .inl ⟨f, span, r, hs, Table.get_eq_ok.1 hr, Option.some.inj (pure_eq_ok.1 hbody)⟩
    | nest head body =>
      obtain rfl := Option.some.inj (pure_eq_ok.1 hkind)
      exact .inr ⟨head, span, hs⟩
    | _ => cases hkind
  · rintro (⟨f, span, r, hs, hr, rfl⟩ | ⟨head, span, hs⟩)
    · simp only [bodyOf, Table.get_eq_ok.2 hs, ok_bind, Table.get_eq_ok.2 hr]
      rfl
    · simp only [bodyOf, Table.get_eq_ok.2 hs, ok_bind]
      rfl

/-- What giving a scope to the body of a statement does: the body gets it,
and so does any other body that is changed. -/
structure GivesScope (p q : Program) (s : StmtId) (scope : SymbolTableId) : Prop where
  exprs : q.exprs = p.exprs
  tables : q.symbolTables = p.symbolTables
  body : ∀ b, p.bodyOf s = .ok (some b) →
    q.bodyOf s = .ok (some { b with symbolTable := scope })
  bodies : ∀ s' b', q.bodyOf s' = .ok (some b') →
    p.bodyOf s' = .ok (some b') ∨ b'.symbolTable = scope
  unscoped : q.unscoped = p.unscoped
  block : q.block = p.block

section

variable {head : Head VariableId} {body : Block} {f : FunctionId} {span : Span}
variable {q : Program} {scope : SymbolTableId}

/-- The body of a function is in the record of the function. -/
theorem givesScope_function (hs : p.stmts.get? s = some ⟨.function f, span⟩)
    (hq : q = { p with
      functions := p.functions.modify f fun r =>
        { r with body := { r.body with symbolTable := scope } } }) :
    GivesScope p q s scope := by
  subst hq
  refine ⟨rfl, rfl, fun b hb => ?_, fun s' b' hb' => ?_, ?_, rfl⟩
  · rcases bodyOf_eq_some.1 hb with ⟨f', span', r', hs', hr', rfl⟩ | ⟨head, span', hs'⟩
    · cases hs.symm.trans hs'
      refine bodyOf_eq_some.2 (.inl
        ⟨f, span, { r' with body := { r'.body with symbolTable := scope } }, hs, ?_, rfl⟩)
      rw [Table.get?_modify, if_pos rfl, hr']
      rfl
    · cases hs.symm.trans hs'
  · rcases bodyOf_eq_some.1 hb' with ⟨f', span', r', hs', hr', rfl⟩ | hnest
    · rw [Table.get?_modify] at hr'
      split at hr'
      · obtain ⟨_, -, rfl⟩ := Option.map_eq_some_iff.1 hr'
        exact .inr rfl
      · exact .inl (bodyOf_eq_some.2 (.inl ⟨f', span', r', hs', hr', rfl⟩))
    · exact .inl (bodyOf_eq_some.2 (.inr hnest))
  · simp only [unscoped]
    congr 1
    exact Table.map_modify fun _ => rfl

/-- Any other body is in its statement. -/
theorem givesScope_nest (hs : p.stmts.get? s = some ⟨.nest head body, span⟩)
    (hq : q = { p with
      stmts := p.stmts.modify s ({ · with kind := .nest head { body with symbolTable := scope } }) }) :
    GivesScope p q s scope := by
  have hget : ∀ s', q.stmts.get? s' =
      if s' = s then some ⟨.nest head { body with symbolTable := scope }, span⟩
      else p.stmts.get? s' := by
    intro s'
    rw [hq, Table.get?_modify]
    split
    · next h => rw [h, hs]; rfl
    · rfl
  have hfunctions : q.functions = p.functions := by rw [hq]
  refine ⟨hq ▸ rfl, hq ▸ rfl, fun b hb => ?_, fun s' b' hb' => ?_, ?_, hq ▸ rfl⟩
  · rcases bodyOf_eq_some.1 hb with ⟨f, span', r, hs', -, -⟩ | ⟨head', span', hs'⟩
    · cases hs.symm.trans hs'
    · cases hs.symm.trans hs'
      exact bodyOf_eq_some.2 (.inr ⟨head, span, by rw [hget, if_pos rfl]⟩)
  · have hfound := bodyOf_eq_some.1 hb'
    rw [hfunctions] at hfound
    by_cases h : s' = s
    · simp only [hget, if_pos h] at hfound
      rcases hfound with ⟨f, span', r, hs', -, -⟩ | ⟨head', span', hs'⟩
      · cases hs'
      · cases hs'
        exact .inr rfl
    · simp only [hget, if_neg h] at hfound
      exact .inl (bodyOf_eq_some.2 hfound)
  · rw [hq]
    simp only [unscoped]
    congr 1
    exact Table.map_modify_of_get? hs rfl

end

theorem updateBody_opens (scope : SymbolTableId) {body : Block}
    (hb : p.bodyOf s = .ok (some body)) :
    ∃ q, p.updateBody s ({ · with symbolTable := scope }) = .ok (some q) ∧
      GivesScope p q s scope := by
  rcases bodyOf_eq_some.1 hb with ⟨f, span, r, hs, hr, rfl⟩ | ⟨head, span, hs⟩
  · refine ⟨_, ?_, givesScope_function hs rfl⟩
    simp only [updateBody, Table.get_eq_ok.2 hs, ok_bind, Table.update,
      if_pos (Table.lt_size_of_get? hr)]
    rfl
  · refine ⟨_, ?_, givesScope_nest hs rfl⟩
    simp only [updateBody, Table.get_eq_ok.2 hs, ok_bind]
    rfl

/-- A statement with a body can be given a scope. -/
theorem openScope_ok {body : Block} (around : SymbolTableId)
    (hb : p.bodyOf s = .ok (some body)) :
    ∃ p', p.openScope s around = .ok (p.symbolTables.nextId, p') ∧ OpensScope p p' s around := by
  obtain ⟨q, hq, gives⟩ :=
    updateBody_opens (p := (p.addSymbolTable around).2) p.symbolTables.nextId hb
  refine ⟨q, ?_, gives.exprs, gives.tables, gives.body, gives.bodies, gives.unscoped, gives.block⟩
  have hlift : (liftM ((p.addSymbolTable around).2.updateBody s
      ({ · with symbolTable := p.symbolTables.nextId })) : Except (Abort InternalError) _) =
      .ok (some q) := lift_eq_ok.2 hq
  simp only [openScope, addSymbolTable] at hlift ⊢
  rw [hlift]
  rfl

namespace OpensScope

variable {around : SymbolTableId} {s' : StmtId}

/-- A scope that has been given stays given. -/
theorem keeps_scoped (h : OpensScope p p' s around) (hpos : 0 < p.symbolTables.size)
    (hs : p.Scoped s') : p'.Scoped s' := by
  intro b hb
  rcases h.bodies s' b hb with hold | hnew
  · exact hs b hold
  · rw [hnew]
    simpa [RecordId.isSentinel, Table.nextId] using Nat.ne_of_gt hpos

theorem scoped_self (h : OpensScope p p' s around) (hpos : 0 < p.symbolTables.size) {body : Block}
    (hb : p.bodyOf s = .ok (some body)) : p'.Scoped s := by
  intro b hb'
  rw [h.body body hb] at hb'
  cases hb'
  simpa [RecordId.isSentinel, Table.nextId] using Nat.ne_of_gt hpos

theorem scopesHeld (h : OpensScope p p' s around) (ha : around.raw < p.symbolTables.size)
    (held : p.ScopesHeld) : p'.ScopesHeld where
  links t r hr := by
    rw [h.tables, Table.size_push]
    rw [h.tables, Table.get?_push] at hr
    split at hr
    · obtain rfl := Option.some.inj hr
      exact Nat.lt_succ_of_lt ha
    · exact Nat.lt_succ_of_lt (held.links t r hr)
  bodies s' b hb := by
    rw [h.tables, Table.size_push]
    rcases h.bodies s' b hb with hold | hnew
    · exact Nat.lt_succ_of_lt (held.bodies s' b hold)
    · rw [hnew]
      exact Nat.lt_succ_self _
  block := by
    rw [h.tables, Table.size_push, h.block]
    exact Nat.lt_succ_of_lt held.block

end OpensScope

end Program

end FrontEnd
