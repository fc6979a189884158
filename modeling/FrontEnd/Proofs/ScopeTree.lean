import FrontEnd.Proofs.PackedTables
/-!
# FrontEnd — a tree of scopes in tables of bounded size

Tables may be given out and filled in any order, not only as a stack. A
`ScopeTree` is what such steps mean: scopes inside each other, each of
any size. `ScopeTables` is what they do: tables of sixteen symbols, with
an overflow put in behind a table that others already link to.

`ScopeTree.Laid` relates the two, scope by scope, and is kept by every
step. The scopes that lie around one are `NestedScopes`, so a look-up is
one in the tree (`symbolTables_refine_scopeTree`).
-/

namespace FrontEnd

/-! ## The tree -/

/-- A scope that holds any number of symbols. -/
structure Scope where
  /-- The numbers of the scopes it lies in, the innermost first. -/
  around : List Nat
  /-- The symbols in the order of their declaration. -/
  symbols : List Symbol
deriving DecidableEq

/-- Scopes, numbered in the order in which they came. -/
abbrev ScopeTree := List Scope

/-- What may be done with scopes. -/
inductive ScopeStep
  /-- A scope is made, in another one or in none. -/
  | enter (around : Option Nat)
  | declare (scope : Nat) (symbol : Symbol)

namespace ScopeTree

/-- What a step means, if the scope that it names is there. -/
def take (tree : ScopeTree) : ScopeStep → Option ScopeTree
  | .enter none => some (tree ++ [⟨[], []⟩])
  | .enter (some i) => do
    let outer ← tree[i]?
    return tree ++ [⟨i :: outer.around, []⟩]
  | .declare i symbol => do
    let scope ← tree[i]?
    return tree.set i { scope with symbols := scope.symbols ++ [symbol] }

def takeAll (tree : ScopeTree) (steps : List ScopeStep) : Option ScopeTree :=
  steps.foldlM take tree

/-- What a scope itself declares. -/
def declared (tree : ScopeTree) (i : Nat) : List Symbol := (tree[i]?.map (·.symbols)).getD []

/-- A scope and those that it lies in, the innermost first. -/
def outward (tree : ScopeTree) (i : Nat) : List Nat :=
  (tree[i]?.map fun scope => i :: scope.around).getD []

/-- What a look-up from a scope goes through. -/
def visible (tree : ScopeTree) (i : Nat) : List Symbol :=
  (tree.outward i).flatMap tree.declared

end ScopeTree

/-! ## The tables -/

/-- A program, and the table that each scope was given. -/
structure ScopeTables where
  program : Program
  given : List SymbolTableId

namespace ScopeTables

/-- No scope is there yet. -/
def new : ScopeTables := ⟨.empty, []⟩

/-- The table that a scope was given. -/
def table (s : ScopeTables) (i : Nat) : Except Fault SymbolTableId :=
  match s.given[i]? with
  | some t => .ok t
  | none => .error .outOfRange

/-- What a step does to the tables. -/
def take (s : ScopeTables) : ScopeStep → Except Fault ScopeTables
  | .enter around => do
    let next ← around.elim (.ok .sentinel) s.table
    let (t, p) := s.program.addSymbolTable next
    return ⟨p, s.given ++ [t]⟩
  | .declare i symbol => do
    let t ← s.table i
    let p ← s.program.declare t symbol
    return ⟨p, s.given⟩

def takeAll (s : ScopeTables) (steps : List ScopeStep) : Except Fault ScopeTables :=
  steps.foldlM take s

end ScopeTables

/-! ## Scopes in tables -/

variable {p p' : Program} {tables tables' : Table .symbolTable SymbolTable}
variable {t u last parent : SymbolTableId} {r : SymbolTable}
variable {ids : List SymbolTableId} {symbols : List Symbol}

/-- The scopes of the given numbers. -/
def pick (scopes : List OpenScope) (numbers : List Nat) : List OpenScope :=
  numbers.filterMap (scopes[·]?)

theorem map_set_of_eq {α β : Type} {l : List α} {a b : α} {f : α → β} {i : Nat}
    (h : l[i]? = some a) (hf : f b = f a) : (l.set i b).map f = l.map f := by
  obtain ⟨hi, rfl⟩ := List.getElem?_eq_some_iff.1 h
  rw [List.map_set, hf, ← List.getElem_map f (h := by simpa using hi), List.set_getElem_self]

theorem exists_getElem?_of_map_eq {α β γ : Type} {l : List α} {l' : List β} {a : α} {f : α → γ}
    {g : β → γ} {i : Nat} (h : l.map f = l'.map g) (ha : l[i]? = some a) :
    ∃ b, l'[i]? = some b ∧ g b = f a := by
  have := congrArg (·[i]?) h
  simp only [List.getElem?_map, ha, Option.map_some] at this
  exact Option.map_eq_some_iff.1 this.symm

variable {tree tree' : ScopeTree} {scopes : List OpenScope} {i j : Nat} {scope : Scope}
variable {s : OpenScope}

theorem pick_cons (h : scopes[i]? = some s) (numbers : List Nat) :
    pick scopes (i :: numbers) = s :: pick scopes numbers :=
  List.filterMap_cons_some h

theorem mem_pick {numbers : List Nat} :
    s ∈ pick scopes numbers ↔ ∃ i ∈ numbers, scopes[i]? = some s :=
  List.mem_filterMap

/-- More scopes do not change the ones that are there. -/
theorem pick_append {numbers : List Nat} (h : ∀ i ∈ numbers, i < scopes.length)
    (more : List OpenScope) : pick (scopes ++ more) numbers = pick scopes numbers :=
  List.filterMap_congr fun i hi => List.getElem?_append_left (h i hi)

/-- Where a look-up goes on depends on the first tables alone. -/
theorem innermost_pick_congr {scopes' : List OpenScope}
    (h : scopes'.map (·.first) = scopes.map (·.first)) (numbers : List Nat) :
    innermost (pick scopes' numbers) = innermost (pick scopes numbers) := by
  have hfirst : ∀ l : List OpenScope, innermost l = ((l.map (·.first)).head?).getD .sentinel := by
    intro l
    cases l <;> rfl
  have hpick : ∀ l : List OpenScope,
      (pick l numbers).map (·.first) = numbers.filterMap ((l.map (·.first))[·]?) := by
    intro l
    simp only [pick, List.map_filterMap, List.getElem?_map]
  rw [hfirst, hfirst, hpick, hpick, h]

/-- A scope is in a run of tables of its own, the last of which links to
`parent`. -/
structure OpenScope.Within (tables : Table .symbolTable SymbolTable) (parent : SymbolTableId)
    (s : OpenScope) : Prop where
  real : s.first.isSentinel = false
  head : ∃ r, tables.get? s.first = some r ∧ r.isContinuation = false
  run : ScopeRun tables parent s.first s.tables s.symbols
  nodup : s.tables.Nodup

/-- **A tree is laid in tables**: each of its scopes is in a run of them,
linked to the scope around it, and no two scopes share a table. -/
structure ScopeTree.Laid (tree : ScopeTree) (tables : Table .symbolTable SymbolTable)
    (scopes : List OpenScope) : Prop where
  packed : Packed tables
  pos : 0 < tables.size
  symbols_eq : scopes.map (·.symbols) = tree.map (·.symbols)
  outer : ∀ {i j : Nat} {scope : Scope} {rest : List Nat}, tree[i]? = some scope →
    scope.around = j :: rest → j < i ∧ ∃ o, tree[j]? = some o ∧ o.around = rest
  within : ∀ {i : Nat} {scope : Scope} {s : OpenScope}, tree[i]? = some scope →
    scopes[i]? = some s → s.Within tables (innermost (pick scopes scope.around))
  apart : ∀ {i j : Nat} {s s' : OpenScope}, scopes[i]? = some s → scopes[j]? = some s' → i ≠ j →
    ∀ t ∈ s.tables, t ∉ s'.tables

namespace ScopeTree.Laid

variable (laid : tree.Laid tables scopes)
include laid

theorem length_eq : scopes.length = tree.length := by
  simpa using congrArg List.length laid.symbols_eq

theorem exists_open (h : tree[i]? = some scope) :
    ∃ s, scopes[i]? = some s ∧ s.symbols = scope.symbols :=
  exists_getElem?_of_map_eq laid.symbols_eq.symm h

theorem exists_scope (h : scopes[i]? = some s) : ∃ scope, tree[i]? = some scope :=
  have ⟨scope, hscope, _⟩ := exists_getElem?_of_map_eq laid.symbols_eq h
  ⟨scope, hscope⟩

/-- The tables of a scope are there. -/
theorem held (h : scopes[i]? = some s) : ∀ t ∈ s.tables, t.raw < tables.size := by
  obtain ⟨scope, hscope⟩ := laid.exists_scope h
  exact (laid.within hscope h).run.held

/-- The scopes around one came before it. -/
theorem around_lt (h : tree[i]? = some scope) : ∀ j ∈ scope.around, j < i := by
  induction i using Nat.strong_induction_on generalizing scope with
  | _ i ih =>
    intro j hj
    cases haround : scope.around with
    | nil => simp [haround] at hj
    | cons k rest =>
      obtain ⟨hki, o, ho, rfl⟩ := laid.outer h haround
      rw [haround, List.mem_cons] at hj
      rcases hj with rfl | hj
      · exact hki
      · exact Nat.lt_trans (ih k hki ho j hj) hki

/-- **A scope and those around it are nested.** -/
theorem nested (h : tree[i]? = some scope) :
    NestedScopes tables (pick scopes (i :: scope.around)) := by
  induction i using Nat.strong_induction_on generalizing scope with
  | _ i ih =>
    obtain ⟨s, hs, -⟩ := laid.exists_open h
    have within := laid.within h hs
    obtain ⟨r, hr, hc⟩ := within.head
    rw [pick_cons hs]
    refine .cons within.real hr hc within.run (fun t ht o ho => ?_) within.nodup ?_
    · obtain ⟨j, hj, ho⟩ := mem_pick.1 ho
      exact laid.apart hs ho (laid.around_lt h j hj).ne' t ht
    · cases haround : scope.around with
      | nil => exact .nil
      | cons k rest =>
        obtain ⟨hki, o, ho, rfl⟩ := laid.outer h haround
        exact ih k hki ho

/-- What is declared in a scope and around it is what the tree says. -/
theorem visible_eq (h : tree[i]? = some scope) :
    (pick scopes (i :: scope.around)).flatMap (·.symbols) = tree.visible i := by
  have hall : ∀ numbers : List Nat,
      (pick scopes numbers).flatMap (·.symbols) = numbers.flatMap tree.declared := by
    intro numbers
    induction numbers with
    | nil => rfl
    | cons j rest ih =>
      have hj := congrArg (·[j]?) laid.symbols_eq
      simp only [List.getElem?_map] at hj
      rw [List.flatMap_cons, ← ih, ScopeTree.declared, ← hj]
      cases ho : scopes[j]? with
      | none => simp [pick, ho]
      | some o => simp [pick_cons ho]
  rw [hall, ScopeTree.visible, ScopeTree.outward, h]
  rfl

/-- **A look-up from a scope is one in the tree.** -/
theorem findSymbol {p : Program} (hp : p.symbolTables = tables) (hs : scopes[i]? = some s)
    (wanted : Span → Bool) :
    p.findSymbol s.first wanted = .ok ((tree.visible i).find? fun d => wanted d.name) := by
  obtain ⟨scope, h⟩ := laid.exists_scope hs
  subst hp
  have := (laid.nested h).findSymbol wanted
  rwa [laid.visible_eq h, pick_cons hs] at this

end ScopeTree.Laid

/-! ## Steps -/

/-- The innermost of nested scopes is in a run of its own. -/
theorem NestedScopes.within {outer : List OpenScope} (nested : NestedScopes tables (s :: outer)) :
    s.Within tables (innermost outer) := by
  cases nested with
  | cons hs hr hc run _ nodup _ => exact ⟨hs, ⟨_, hr, hc⟩, run, nodup⟩

theorem OpenScope.Within.congr (within : s.Within tables parent)
    (h : ∀ u ∈ s.tables, tables'.get? u = tables.get? u) : s.Within tables' parent := by
  obtain ⟨r, hr, hc⟩ := within.head
  exact ⟨within.real, ⟨r, by rw [h _ within.run.mem_first, hr], hc⟩, within.run.congr h,
    within.nodup⟩

theorem getElem?_concat_eq_some {α : Type} {l : List α} {a b : α} {i : Nat} :
    (l ++ [a])[i]? = some b ↔ l[i]? = some b ∨ (i = l.length ∧ b = a) := by
  grind

/-- The numbers of a scope that may be made: those of a scope and what is
around it, or none. -/
def ScopeTree.IsPath (tree : ScopeTree) (numbers : List Nat) : Prop :=
  numbers = [] ∨ ∃ i scope, tree[i]? = some scope ∧ numbers = i :: scope.around

namespace ScopeTree.Laid

variable (laid : tree.Laid tables scopes)
include laid

theorem lt_of_path {numbers : List Nat} (path : tree.IsPath numbers) :
    ∀ i ∈ numbers, i < tree.length := by
  rcases path with rfl | ⟨i, scope, h, rfl⟩
  · simp
  · have hi : i < tree.length := (List.getElem?_eq_some_iff.1 h).1
    intro j hj
    rcases List.mem_cons.1 hj with rfl | hj
    · exact hi
    · exact Nat.lt_trans (laid.around_lt h j hj) hi

theorem isPath_around (h : tree[i]? = some scope) : tree.IsPath scope.around := by
  cases haround : scope.around with
  | nil => exact .inl rfl
  | cons j rest =>
    obtain ⟨-, o, ho, rfl⟩ := laid.outer h haround
    exact .inr ⟨j, o, ho, rfl⟩

theorem nested_of_path {numbers : List Nat} (path : tree.IsPath numbers) :
    NestedScopes tables (pick scopes numbers) := by
  rcases path with rfl | ⟨i, scope, h, rfl⟩
  · exact .nil
  · exact laid.nested h

/-- **A new scope gets a table of its own.** -/
theorem enter {numbers : List Nat} (path : tree.IsPath numbers) :
    ScopeTree.Laid (tree ++ [⟨numbers, []⟩])
      (tables.push { next := innermost (pick scopes numbers) })
      (scopes ++ [⟨tables.nextId, [tables.nextId], []⟩]) := by
  have hnested := laid.nested_of_path path
  have hnew := (hnested.open_new laid.pos).within
  have hpick : ∀ {numbers' : List Nat}, tree.IsPath numbers' →
      pick (scopes ++ [⟨tables.nextId, [tables.nextId], []⟩]) numbers' = pick scopes numbers' :=
    fun path' => pick_append (laid.length_eq ▸ laid.lt_of_path path') _
  refine
    { packed := laid.packed.push hnested.stops
      pos := by simp
      symbols_eq := by simp [laid.symbols_eq]
      outer := fun {i j scope rest} h haround => ?_
      within := fun {i scope s} h hs => ?_
      apart := fun {i j s s'} hs hs' hij t ht ht' => ?_ }
  · rcases getElem?_concat_eq_some.1 h with h | ⟨rfl, rfl⟩
    · obtain ⟨hlt, o, ho, hrest⟩ := laid.outer h haround
      exact ⟨hlt, o, getElem?_concat_eq_some.2 (.inl ho), hrest⟩
    · rcases path with hnil | ⟨k, o, ho, hk⟩
      · simp [hnil] at haround
      · obtain ⟨rfl, rfl⟩ := List.cons.inj (hk.symm.trans haround)
        exact ⟨(List.getElem?_eq_some_iff.1 ho).1, o, getElem?_concat_eq_some.2 (.inl ho), rfl⟩
  · rcases getElem?_concat_eq_some.1 h with h | ⟨rfl, rfl⟩
    · obtain ⟨s', hs', -⟩ := laid.exists_open h
      cases hs.symm.trans (getElem?_concat_eq_some.2 (.inl hs'))
      rw [hpick (laid.isPath_around h)]
      exact (laid.within h hs').congr fun t ht => Table.get?_push_of_lt (laid.held hs' t ht)
    · cases hs.symm.trans (getElem?_concat_eq_some.2 (.inr ⟨laid.length_eq.symm, rfl⟩))
      rw [hpick path]
      exact hnew
  · -- the new table is none of those that are there
    rcases getElem?_concat_eq_some.1 hs with hs | ⟨rfl, rfl⟩ <;>
      rcases getElem?_concat_eq_some.1 hs' with hs' | ⟨rfl, rfl⟩
    · exact laid.apart hs hs' hij t ht ht'
    · rw [List.mem_singleton.1 ht'] at ht
      exact Nat.lt_irrefl _ (laid.held hs _ ht)
    · rw [List.mem_singleton.1 ht] at ht'
      exact Nat.lt_irrefl _ (laid.held hs' _ ht')
    · exact hij rfl

/-- A scope may be renewed with its own tables and new ones: no other has
either. -/
theorem apart_set {s' o o' : OpenScope} {k : Nat} (hs : scopes[i]? = some s)
    (hown : ∀ t ∈ s'.tables, t ∈ s.tables ∨ tables.size ≤ t.raw)
    (ho : (scopes.set i s')[j]? = some o) (ho' : (scopes.set i s')[k]? = some o') (hjk : j ≠ k) :
    ∀ t ∈ o.tables, t ∉ o'.tables := by
  have hi := (List.getElem?_eq_some_iff.1 hs).1
  have hnew : ∀ {j : Nat} {o : OpenScope}, j ≠ i → scopes[j]? = some o →
      ∀ t ∈ o.tables, t ∉ s'.tables := fun {j o} hj ho t ht hmem => by
    rcases hown t hmem with hmem | hge
    · exact laid.apart ho hs hj t ht hmem
    · exact Nat.lt_irrefl _ (Nat.lt_of_lt_of_le (laid.held ho t ht) hge)
  intro t ht ht'
  by_cases hj : j = i
  · have hk : k ≠ i := hj ▸ Ne.symm hjk
    rw [hj, List.getElem?_set_self hi] at ho
    rw [List.getElem?_set_ne (Ne.symm hk)] at ho'
    cases ho
    exact hnew hk ho' t ht' ht
  · rw [List.getElem?_set_ne (Ne.symm hj)] at ho
    by_cases hk : k = i
    · rw [hk, List.getElem?_set_self hi] at ho'
      cases ho'
      exact hnew hj ho t ht ht'
    · rw [List.getElem?_set_ne (Ne.symm hk)] at ho'
      exact laid.apart ho ho' hjk t ht ht'

/-- **A declaration appends to one scope** and leaves the tables of all
others as they are. -/
theorem declare {p : Program} (hp : p.symbolTables = tables) (h : tree[i]? = some scope)
    (hs : scopes[i]? = some s) (symbol : Symbol) :
    ∃ tables' ids, p.declare s.first symbol = .ok { p with symbolTables := tables' } ∧
      ScopeTree.Laid (tree.set i { scope with symbols := scope.symbols ++ [symbol] }) tables'
        (scopes.set i ⟨s.first, ids, s.symbols ++ [symbol]⟩) ∧
      tables.size ≤ tables'.size ∧
      ∀ j o, j ≠ i → scopes[j]? = some o → ∀ t ∈ o.tables, tables'.get? t = tables.get? t := by
  subst hp
  have hnested := laid.nested h
  rw [pick_cons hs] at hnested
  obtain ⟨tables', ids, hdeclare, grow, hnested'⟩ := hnested.declare symbol
  have hsame : ∀ j o, j ≠ i → scopes[j]? = some o → ∀ t ∈ o.tables,
      tables'.get? t = p.symbolTables.get? t := fun j o hj ho t ht =>
    grow.same t (laid.held ho t ht) (laid.apart ho hs hj t ht)
  -- what the other scopes read of this one stays as it is
  have hfirsts : (scopes.set i ⟨s.first, ids, s.symbols ++ [symbol]⟩).map (·.first) =
      scopes.map (·.first) := map_set_of_eq hs rfl
  have harounds : (tree.set i { scope with symbols := scope.symbols ++ [symbol] }).map (·.around) =
      tree.map (·.around) := map_set_of_eq h rfl
  have hsymbols : s.symbols = scope.symbols := by
    obtain ⟨s', hs', heq⟩ := laid.exists_open h
    cases hs.symm.trans hs'
    exact heq
  refine ⟨tables', ids, hdeclare,
    { packed := laid.packed.declare hdeclare
      pos := Nat.lt_of_lt_of_le laid.pos grow.size_le
      symbols_eq := by rw [List.map_set, List.map_set, laid.symbols_eq, hsymbols]
      outer := fun {j k scope' rest} h' haround => ?_
      within := fun {j scope' o} h' ho => ?_
      apart := laid.apart_set hs grow.own_or_new }, grow.size_le, hsame⟩
  · obtain ⟨o, ho, hoa⟩ := exists_getElem?_of_map_eq harounds h'
    obtain ⟨hlt, o', ho', hrest⟩ := laid.outer ho (hoa.trans haround)
    obtain ⟨o'', ho'', hoa'⟩ := exists_getElem?_of_map_eq harounds.symm ho'
    exact ⟨hlt, o'', ho'', hoa'.trans hrest⟩
  · obtain ⟨scope₀, h₀, haround⟩ := exists_getElem?_of_map_eq harounds h'
    rw [innermost_pick_congr hfirsts, ← haround]
    by_cases hj : j = i
    · subst hj
      cases h.symm.trans h₀
      rw [List.getElem?_set_self (List.getElem?_eq_some_iff.1 hs).1, Option.some.injEq] at ho
      subst ho
      exact hnested'.within
    · rw [List.getElem?_set_ne (Ne.symm hj)] at ho
      exact (laid.within h₀ ho).congr (hsame j o hj ho)

end ScopeTree.Laid

/-- A step that the tree allows is one that the tables take. -/
theorem ScopeTables.take_laid {step : ScopeStep} {made : ScopeTables}
    (laid : tree.Laid made.program.symbolTables scopes)
    (given : made.given = scopes.map (·.first)) (h : tree.take step = some tree') :
    ∃ made' scopes', made.take step = .ok made' ∧
      tree'.Laid made'.program.symbolTables scopes' ∧ made'.given = scopes'.map (·.first) := by
  have htable : ∀ {i : Nat} {s : OpenScope}, scopes[i]? = some s → made.table i = .ok s.first :=
    fun hs => by simp [ScopeTables.table, given, hs]
  rcases step with (_ | i) | ⟨i, symbol⟩
  · cases h
    refine ⟨_, _, rfl, laid.enter (.inl rfl), ?_⟩
    simp [given]
  · simp only [ScopeTree.take, bind, Option.bind_eq_some_iff, Option.some.injEq, pure] at h
    obtain ⟨scope, hscope, rfl⟩ := h
    obtain ⟨s, hs, -⟩ := laid.exists_open hscope
    have laid' := laid.enter (.inr ⟨i, scope, hscope, rfl⟩)
    rw [pick_cons hs] at laid'
    refine ⟨⟨(made.program.addSymbolTable s.first).2,
      made.given ++ [made.program.symbolTables.nextId]⟩, _, ?_, laid', ?_⟩
    · simp only [ScopeTables.take, Option.elim_some, htable hs, ok_bind]
      rfl
    · simp [given]
  · simp only [ScopeTree.take, bind, Option.bind_eq_some_iff, Option.some.injEq, pure] at h
    obtain ⟨scope, hscope, rfl⟩ := h
    obtain ⟨s, hs, -⟩ := laid.exists_open hscope
    obtain ⟨tables', ids, hdeclare, laid', -, -⟩ := laid.declare rfl hscope hs symbol
    refine ⟨⟨{ made.program with symbolTables := tables' }, made.given⟩, _, ?_, laid', ?_⟩
    · simp only [ScopeTables.take, htable hs, ok_bind, hdeclare]
      rfl
    · exact given.trans (map_set_of_eq (b := ⟨s.first, ids, _⟩) hs rfl).symm

/-- **Every run of steps that the tree allows is one of the tables.** -/
theorem ScopeTables.takeAll_laid {steps : List ScopeStep} {made : ScopeTables}
    (laid : tree.Laid made.program.symbolTables scopes)
    (given : made.given = scopes.map (·.first)) (h : tree.takeAll steps = some tree') :
    ∃ made' scopes', made.takeAll steps = .ok made' ∧
      tree'.Laid made'.program.symbolTables scopes' ∧ made'.given = scopes'.map (·.first) := by
  induction steps generalizing tree made scopes with
  | nil =>
    cases h
    exact ⟨made, scopes, rfl, laid, given⟩
  | cons step steps ih =>
    simp only [ScopeTree.takeAll, List.foldlM_cons, bind, Option.bind_eq_some_iff] at h
    obtain ⟨tree₁, hstep, hrest⟩ := h
    obtain ⟨made₁, scopes₁, hmade, laid₁, given₁⟩ := take_laid laid given hstep
    obtain ⟨made', scopes', hmade', laid', given'⟩ := ih laid₁ given₁ hrest
    refine ⟨made', scopes', ?_, laid', given'⟩
    simp only [ScopeTables.takeAll, List.foldlM_cons, hmade, ok_bind]
    exact hmade'

theorem ScopeTree.laid_nil : ScopeTree.Laid [] Program.empty.symbolTables [] :=
  ⟨Program.empty_packed, by decide, rfl, by simp, by simp, by simp⟩

/-! ## What a declaration does not change -/

/-- Every table along some links has links of its own to follow. -/
theorem LinkedTables.from_mem (linked : LinkedTables tables t ids symbols) (h : u ∈ ids) :
    ∃ ids' symbols', LinkedTables tables u ids' symbols' ∧ ids' <:+ ids := by
  induction linked with
  | stop => simp at h
  | link hs ht rest ih =>
    rcases List.mem_cons.1 h with rfl | h
    · exact ⟨_, _, .link hs ht rest, List.suffix_rfl⟩
    · obtain ⟨ids', symbols', linked', hsuffix⟩ := ih h
      exact ⟨ids', symbols', linked', hsuffix.trans (List.suffix_cons _ _)⟩

theorem LinkedTables.congr (linked : LinkedTables tables t ids symbols)
    (h : ∀ u ∈ ids, tables'.get? u = tables.get? u) : LinkedTables tables' t ids symbols := by
  induction linked with
  | stop ht => exact .stop ht
  | @link t r ids symbols hs ht rest ih =>
    exact .link hs (by rw [h t (by simp), ht]) (ih fun u hu => h u (List.mem_cons_of_mem _ hu))

theorem LinkedTables.findSymbol (linked : LinkedTables p.symbolTables t ids symbols)
    (h : ids.length ≤ p.symbolTables.size) (wanted : Span → Bool) :
    p.findSymbol t wanted = .ok (symbols.find? fun d => wanted d.name) := by
  obtain ⟨l, hl, hfound⟩ :=
    @LinkedTables.lookupWithin _ _ _ p wanted _ linked (Nat.lt_succ_of_le h)
  simp only [Program.findSymbol, Program.lookup, hl, ok_bind, hfound]
  rfl

/-- **A declaration changes no look-up from a table outside of its scope
and of those that lie in it.** -/
theorem ScopeTree.Laid.declare_elsewhere (laid : tree.Laid p.symbolTables scopes) {o : OpenScope}
    (hs : scopes[i]? = some s) (ho : scopes[j]? = some o) (hu : u ∈ o.tables)
    (h : i ∉ tree.outward j) {symbol : Symbol} (hdeclare : p.declare s.first symbol = .ok p')
    (wanted : Span → Bool) : p'.findSymbol u wanted = p.findSymbol u wanted := by
  obtain ⟨scope, hscope⟩ := laid.exists_scope hs
  obtain ⟨scope', hscope'⟩ := laid.exists_scope ho
  obtain ⟨tables', ids', hdeclare', -, hsize, hsame⟩ := laid.declare rfl hscope hs symbol
  cases hdeclare.symm.trans hdeclare'
  have nested := laid.nested hscope'
  obtain ⟨ids, symbols, linked, hsuffix⟩ := nested.linked.from_mem
    (List.mem_flatMap.2 ⟨o, by simp [pick_cons ho], hu⟩)
  have hlength : ids.length ≤ p.symbolTables.size :=
    Nat.le_trans hsuffix.length_le nested.length_le
  have linked' : LinkedTables tables' u ids symbols := by
    refine linked.congr fun t ht => ?_
    obtain ⟨o', ho', ht⟩ := List.mem_flatMap.1 (hsuffix.subset ht)
    obtain ⟨k, hk, ho'⟩ := mem_pick.1 ho'
    refine hsame k o' ?_ ho' t ht
    rintro rfl
    exact h (by simpa [ScopeTree.outward, hscope'] using hk)
  rw [linked.findSymbol hlength]
  exact LinkedTables.findSymbol (p := { p with symbolTables := tables' }) linked'
    (Nat.le_trans hlength hsize) wanted

/-! ## The refinement -/

/-- **Chained tables are a tree of scopes of any size.** Whatever scopes
are made and declared in, in any order: a look-up from a scope finds the
first match among its symbols and then those of the scopes around it,
whenever they were declared; no table holds more than it may and all but
the last of a scope are full; and another declaration changes no look-up
from a table outside of its scope and of those that lie in it. -/
theorem symbolTables_refine_scopeTree {steps : List ScopeStep} {tree : ScopeTree}
    (h : ScopeTree.takeAll [] steps = some tree) :
    ∃ made scopes, ScopeTables.new.takeAll steps = .ok made ∧
      made.given = scopes.map (·.first) ∧
      scopes.map (·.symbols) = tree.map (·.symbols) ∧
      (∀ i t, made.given[i]? = some t → ∀ wanted, made.program.findSymbol t wanted =
        .ok ((tree.visible i).find? fun d => wanted d.name)) ∧
      (∀ t r, made.program.symbolTables.get? t = some r →
        r.symbols.size ≤ symbolTableCapacity) ∧
      (∀ i s, scopes[i]? = some s →
        ScopeRun made.program.symbolTables (innermost (pick scopes (tree.outward i).tail))
          s.first s.tables s.symbols ∧
        ∀ t ∈ s.tables.dropLast, ∃ r, made.program.symbolTables.get? t = some r ∧
          r.symbols.size = symbolTableCapacity) ∧
      ∀ i t symbol, made.given[i]? = some t → ∃ p', made.program.declare t symbol = .ok p' ∧
        ∀ j s, scopes[j]? = some s → i ∉ tree.outward j → ∀ u ∈ s.tables, ∀ wanted,
          p'.findSymbol u wanted = made.program.findSymbol u wanted := by
  have start : ScopeTree.Laid [] ScopeTables.new.program.symbolTables [] := ScopeTree.laid_nil
  obtain ⟨made, scopes, hmade, laid, given⟩ := ScopeTables.takeAll_laid start rfl h
  have hgiven : ∀ {i : Nat} {t : SymbolTableId}, made.given[i]? = some t →
      ∃ s, scopes[i]? = some s ∧ s.first = t := fun ht => by
    rw [given, List.getElem?_map] at ht
    exact Option.map_eq_some_iff.1 ht
  refine ⟨made, scopes, hmade, given, laid.symbols_eq, ?_, ?_, ?_, ?_⟩
  · intro i t ht wanted
    obtain ⟨s, hs, rfl⟩ := hgiven ht
    exact laid.findSymbol rfl hs wanted
  · exact fun t r hr => (laid.packed t r hr).size_le
  · intro i s hs
    obtain ⟨scope, hscope⟩ := laid.exists_scope hs
    have run := (laid.within hscope hs).run
    refine ⟨?_, laid.packed.full_of_run run⟩
    simpa [ScopeTree.outward, hscope] using run
  · intro i t symbol ht
    obtain ⟨s, hs, rfl⟩ := hgiven ht
    obtain ⟨scope, hscope⟩ := laid.exists_scope hs
    obtain ⟨tables', ids', hdeclare, -⟩ := laid.declare rfl hscope hs symbol
    exact ⟨_, hdeclare, fun j o ho hij u hu wanted =>
      laid.declare_elsewhere hs ho hu hij hdeclare wanted⟩

/-- A run in which a scope overflows after another one was made in it. -/
theorem symbolTables_refine_scopeTree_overflow :
    let filled := (List.range 17).map fun n => ScopeStep.declare 0 ⟨⟨n, 1⟩, .variable ⟨n⟩⟩
    let steps := [.enter none, .enter (some 0), .declare 1 ⟨⟨30, 2⟩, .variable ⟨17⟩⟩] ++ filled
    Succeeds (ScopeTables.new.takeAll steps) fun made =>
      made.given = [⟨1⟩, ⟨2⟩] ∧ made.program.symbolTables.size = 4 ∧
        made.program.findSymbol ⟨2⟩ (· = ⟨16, 1⟩) = .ok (some ⟨⟨16, 1⟩, .variable ⟨16⟩⟩) := by
  intro filled steps
  have htree : ScopeTree.takeAll [] steps =
      some [⟨[], (List.range 17).map fun n => ⟨⟨n, 1⟩, .variable ⟨n⟩⟩⟩,
        ⟨[0], [⟨⟨30, 2⟩, .variable ⟨17⟩⟩]⟩] := by decide +kernel
  have hsize : (ScopeTables.new.takeAll steps).map
      (fun made => (made.given, made.program.symbolTables.size)) = .ok ([⟨1⟩, ⟨2⟩], 4) := by
    decide +kernel
  obtain ⟨made, scopes, hmade, -, -, hfind, -⟩ := symbolTables_refine_scopeTree htree
  rw [hmade] at hsize
  obtain ⟨hgiven, hsize⟩ := Prod.mk.inj (Except.ok.inj hsize)
  refine ⟨made, hmade, hgiven, hsize, ?_⟩
  rw [hfind 1 ⟨2⟩ (by rw [hgiven]; rfl)]
  decide +kernel

end FrontEnd
