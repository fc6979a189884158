import FrontEnd.Proofs.Declaring
import FrontEnd.Proofs.Frame
import Mathlib.Data.List.Perm.Subperm
import Mathlib.Data.List.Nodup
import Mathlib.Data.List.TakeDrop
import Mathlib.Data.List.TakeWhile
/-!
# FrontEnd — chained tables as nested scopes

While names are resolved, some scopes are open inside each other. Each
is a run of tables, the first one followed by its overflow, and the last
table of a run links to the first one of the scope around it
(`NestedScopes`). A look-up reads the symbols of all open scopes, the
innermost first (`NestedScopes.lookup`), and a declaration appends to the
symbols of the innermost one and to nothing else
(`NestedScopes.declare`), whether or not a table overflows.
-/

namespace FrontEnd

/-- The tables of a scope from `t` on, the symbols in them, and the table
that the last one links to. -/
inductive ScopeRun (tables : Table .symbolTable SymbolTable) (parent : SymbolTableId) :
    SymbolTableId → List SymbolTableId → List Symbol → Prop
  | last {t : SymbolTableId} {r : SymbolTable} (ht : tables.get? t = some r)
      (hn : r.next = parent) : ScopeRun tables parent t [t] r.symbols.toList
  | step {t : SymbolTableId} {r ru : SymbolTable} {ids : List SymbolTableId}
      {symbols : List Symbol} (ht : tables.get? t = some r) (hs : r.next.isSentinel = false)
      (hu : tables.get? r.next = some ru) (hc : ru.isContinuation = true)
      (rest : ScopeRun tables parent r.next ids symbols) :
      ScopeRun tables parent t (t :: ids) (r.symbols.toList ++ symbols)

/-- A scope that is open: its first table, all of its tables, and what
has been declared in it. -/
structure OpenScope where
  first : SymbolTableId
  tables : List SymbolTableId
  symbols : List Symbol

/-- Where a look-up in the innermost of some scopes starts. -/
def innermost : List OpenScope → SymbolTableId
  | [] => .sentinel
  | s :: _ => s.first

/-- The scopes lie inside each other, the innermost first. -/
inductive NestedScopes (tables : Table .symbolTable SymbolTable) : List OpenScope → Prop
  | nil : NestedScopes tables []
  | cons {s : OpenScope} {r : SymbolTable} {outer : List OpenScope}
      (hs : s.first.isSentinel = false) (hr : tables.get? s.first = some r)
      (hc : r.isContinuation = false)
      (run : ScopeRun tables (innermost outer) s.first s.tables s.symbols)
      (fresh : ∀ t ∈ s.tables, ∀ o ∈ outer, t ∉ o.tables) (nodup : s.tables.Nodup)
      (rest : NestedScopes tables outer) : NestedScopes tables (s :: outer)

/-- What a declaration in a scope does to the tables: those of the scope
may change and new ones may come, and the others stay as they are. -/
structure TablesGrow (before after : Table .symbolTable SymbolTable)
    (own own' : List SymbolTableId) : Prop where
  size_le : before.size ≤ after.size
  own_or_new : ∀ t ∈ own', t ∈ own ∨ before.size ≤ t.raw
  same : ∀ t : SymbolTableId, t.raw < before.size → t ∉ own → after.get? t = before.get? t

variable {tables tables' : Table .symbolTable SymbolTable} {parent t : SymbolTableId}
variable {ids : List SymbolTableId} {symbols : List Symbol} {scopes outer : List OpenScope}
variable {s : OpenScope}

namespace TablesGrow

theorem refl (tables : Table .symbolTable SymbolTable) (own : List SymbolTableId) :
    TablesGrow tables tables own own :=
  ⟨Nat.le_refl _, fun _ ht => .inl ht, fun _ _ _ => rfl⟩

theorem trans {a b c : Table .symbolTable SymbolTable} {own own' own'' : List SymbolTableId}
    (h : TablesGrow a b own own') (h' : TablesGrow b c own' own'') : TablesGrow a c own own'' where
  size_le := Nat.le_trans h.size_le h'.size_le
  own_or_new t ht := by
    rcases h'.own_or_new t ht with hb | hb
    · exact h.own_or_new t hb
    · exact .inr (Nat.le_trans h.size_le hb)
  same t hlt ht := by
    have hnot : t ∉ own' := fun hmem => by
      rcases h.own_or_new t hmem with hown | hge
      · exact ht hown
      · omega
    rw [h'.same t (Nat.lt_of_lt_of_le hlt h.size_le) hnot, h.same t hlt ht]

end TablesGrow

namespace ScopeRun

theorem mem_first (run : ScopeRun tables parent t ids symbols) : t ∈ ids := by
  cases run <;> simp

/-- The tables of a run are held. -/
theorem held (run : ScopeRun tables parent t ids symbols) : ∀ u ∈ ids, u.raw < tables.size := by
  induction run with
  | last ht _ => simpa using Table.lt_size_of_get? ht
  | step ht _ _ _ _ ih =>
    intro u hu
    rcases List.mem_cons.1 hu with rfl | hu
    · exact Table.lt_size_of_get? ht
    · exact ih u hu

/-- A run is one of all tables that agree on the tables in it. -/
theorem congr (run : ScopeRun tables parent t ids symbols)
    (h : ∀ u ∈ ids, tables'.get? u = tables.get? u) : ScopeRun tables' parent t ids symbols := by
  induction run with
  | last ht hn => exact .last (by rw [h _ (by simp), ht]) hn
  | step ht hs hu hc rest ih =>
    refine .step (by rw [h _ (by simp), ht]) hs ?_ hc
      (ih fun u hu => h u (List.mem_cons_of_mem _ hu))
    rw [h _ (List.mem_cons_of_mem _ rest.mem_first), hu]

/-- The run ends in the table `last`, and the end can be put anew: what is
linked in place of the last table follows the tables before it. -/
structure Ends (tables : Table .symbolTable SymbolTable) (parent t : SymbolTableId)
    (symbols : List Symbol) (before : List SymbolTableId) (last : SymbolTableId) (r : SymbolTable)
    (front : List Symbol) : Prop where
  symbols_eq : symbols = front ++ r.symbols.toList
  get : tables.get? last = some r
  next : r.next = parent
  again {tables' : Table .symbolTable SymbolTable} {parent' : SymbolTableId}
    {ids' : List SymbolTableId} {symbols' : List Symbol} {r' : SymbolTable}
    (same : ∀ u ∈ before, tables'.get? u = tables.get? u) (get' : tables'.get? last = some r')
    (isContinuation : r'.isContinuation = r.isContinuation)
    (run : ScopeRun tables' parent' last ids' symbols') :
    ScopeRun tables' parent' t (before ++ ids') (front ++ symbols')

/-- **A run ends in one table.** -/
theorem exists_last (run : ScopeRun tables parent t ids symbols) :
    ∃ before last r front, ids = before ++ [last] ∧ Ends tables parent t symbols before last r front := by
  induction run with
  | @last t r ht hn => exact ⟨[], t, r, [], rfl, rfl, ht, hn, fun _ _ _ run' => run'⟩
  | @step t r ru ids symbols ht hs hu hc rest ih =>
    obtain ⟨before, last, rl, front, rfl, rfl, hl, hn, again⟩ := ih
    refine ⟨t :: before, last, rl, r.symbols.toList ++ front, rfl, by simp, hl, hn, ?_⟩
    intro tables' parent' ids' symbols' r' hsame hlast hcont run'
    have hrest := again (fun u hu => hsame u (List.mem_cons_of_mem _ hu)) hlast hcont run'
    have hnext : ∃ ru', tables'.get? r.next = some ru' ∧ ru'.isContinuation = true := by
      rcases List.mem_append.1 rest.mem_first with hb | hb
      · exact ⟨ru, by rw [hsame _ (List.mem_cons_of_mem _ hb), hu], hc⟩
      · rw [List.mem_singleton] at hb
        rw [hb, hl, Option.some.injEq] at hu
        exact ⟨r', by rw [hb, hlast], by rw [hcont, hu, hc]⟩
    obtain ⟨ru', hu', hc'⟩ := hnext
    have := ScopeRun.step (by rw [hsame t (by simp), ht]) hs hu' hc' hrest
    simpa using this

/-- A run ends in the last of its tables. -/
theorem ends {before : List SymbolTableId} {last : SymbolTableId}
    (run : ScopeRun tables parent t (before ++ [last]) symbols) :
    ∃ r front, Ends tables parent t symbols before last r front := by
  obtain ⟨before', last', r, front, hids, ends⟩ := run.exists_last
  obtain ⟨rfl, rfl⟩ : before = before' ∧ last = last' := by simpa using List.append_inj' hids rfl
  exact ⟨r, front, ends⟩

end ScopeRun

/-! ## Looking a name up -/

/-- The tables along all links from `t` on, and the symbols in them. -/
inductive LinkedTables (tables : Table .symbolTable SymbolTable) :
    SymbolTableId → List SymbolTableId → List Symbol → Prop
  | stop {t : SymbolTableId} (ht : t.isSentinel = true) : LinkedTables tables t [] []
  | link {t : SymbolTableId} {r : SymbolTable} {ids : List SymbolTableId} {symbols : List Symbol}
      (hs : t.isSentinel = false) (ht : tables.get? t = some r)
      (rest : LinkedTables tables r.next ids symbols) :
      LinkedTables tables t (t :: ids) (r.symbols.toList ++ symbols)

theorem ScopeRun.linked {ids' : List SymbolTableId} {symbols' : List Symbol}
    (run : ScopeRun tables parent t ids symbols) (hs : t.isSentinel = false)
    (rest : LinkedTables tables parent ids' symbols') :
    LinkedTables tables t (ids ++ ids') (symbols ++ symbols') := by
  induction run with
  | last ht hn => exact .link hs ht (hn ▸ rest)
  | step ht hs' _ _ _ ih =>
    rw [List.append_assoc]
    exact .link hs ht (ih hs')

theorem Lookup.found_among (wanted : Span → Bool) (symbols : List Symbol) :
    (Lookup.among wanted symbols).found = symbols.find? fun s => wanted s.name := by
  simp only [Lookup.among, List.span_eq_takeWhile_dropWhile, List.find?_eq_head?_dropWhile_not]

/-- A look-up along links finds the first symbol that matches. -/
theorem LinkedTables.lookupWithin {p : Program} {wanted : Span → Bool} {fuel : Nat}
    (linked : LinkedTables p.symbolTables t ids symbols) (hf : ids.length < fuel) :
    ∃ l, p.lookupWithin wanted fuel t = .ok l ∧ l.found = symbols.find? fun s => wanted s.name := by
  induction linked generalizing fuel with
  | stop ht =>
    obtain ⟨fuel, rfl⟩ : ∃ n, fuel = n + 1 := ⟨fuel - 1, by simp at hf; omega⟩
    exact ⟨⟨[], none⟩, by simp [Program.lookupWithin, ht, pure, Except.pure], rfl⟩
  | @link t r ids symbols hs ht rest ih =>
    obtain ⟨fuel, rfl⟩ : ∃ n, fuel = n + 1 := ⟨fuel - 1, by simp at hf; omega⟩
    obtain ⟨there, hthere, hfound⟩ := @ih fuel (by simpa using hf)
    have here := Lookup.found_among wanted r.symbols.toList
    rw [List.find?_append]
    simp only [Program.lookupWithin, hs, Bool.false_eq_true, if_false, Table.get_eq_ok.2 ht, ok_bind]
    cases hl : (Lookup.among wanted r.symbols.toList).found with
    | some symbol =>
      refine ⟨_, rfl, ?_⟩
      rw [hl, ← here, hl]
      rfl
    | none =>
      refine ⟨⟨(Lookup.among wanted r.symbols.toList).passed ++ there.passed, there.found⟩, ?_, ?_⟩
      · simp only [hthere, ok_bind]
        rfl
      · rw [← here, hl, hfound]
        rfl

namespace NestedScopes

theorem linked (nested : NestedScopes tables scopes) :
    LinkedTables tables (innermost scopes) (scopes.flatMap (·.tables))
      (scopes.flatMap (·.symbols)) := by
  induction nested with
  | nil => exact .stop rfl
  | cons hs _ _ run _ _ _ ih => exact run.linked hs ih

theorem held (nested : NestedScopes tables scopes) :
    ∀ s ∈ scopes, ∀ t ∈ s.tables, t.raw < tables.size := by
  induction nested with
  | nil => simp
  | cons _ _ _ run _ _ _ ih =>
    intro o ho
    rcases List.mem_cons.1 ho with rfl | ho
    · exact run.held
    · exact ih o ho

theorem nodup (nested : NestedScopes tables scopes) : (scopes.flatMap (·.tables)).Nodup := by
  induction nested with
  | nil => simp
  | cons _ _ _ _ fresh nodup _ ih =>
    rw [List.flatMap_cons, List.nodup_append]
    refine ⟨nodup, ih, fun t ht u hu htu => ?_⟩
    obtain ⟨o, ho, hu⟩ := List.mem_flatMap.1 hu
    exact fresh t ht o ho (htu ▸ hu)

/-- No more tables are open than there are. -/
theorem length_le (nested : NestedScopes tables scopes) :
    (scopes.flatMap (·.tables)).length ≤ tables.size := by
  have hnodup : ((scopes.flatMap (·.tables)).map RecordId.raw).Nodup :=
    nested.nodup.map fun a b h => by cases a; cases b; exact congrArg RecordId.mk h
  have hsub : (scopes.flatMap (·.tables)).map RecordId.raw ⊆ List.range tables.size := by
    intro i hi
    obtain ⟨t, ht, rfl⟩ := List.mem_map.1 hi
    obtain ⟨s, hs, ht⟩ := List.mem_flatMap.1 ht
    exact List.mem_range.2 (nested.held s hs t ht)
  have := (hnodup.subperm hsub).length_le
  simpa using this

/-- **A look-up finds the first symbol that matches, the innermost scope
first.** -/
theorem findSymbol {p : Program} (nested : NestedScopes p.symbolTables scopes)
    (wanted : Span → Bool) :
    p.findSymbol (innermost scopes) wanted =
      .ok ((scopes.flatMap (·.symbols)).find? fun s => wanted s.name) := by
  obtain ⟨l, hl, hfound⟩ :=
    @LinkedTables.lookupWithin _ _ _ _ wanted _ nested.linked (Nat.lt_succ_of_le nested.length_le)
  simp only [Program.findSymbol, Program.lookup, hl, ok_bind, hfound]
  rfl

/-- Scopes stay open while their tables stay as they are. -/
theorem congr (nested : NestedScopes tables scopes)
    (h : ∀ s ∈ scopes, ∀ t ∈ s.tables, tables'.get? t = tables.get? t) :
    NestedScopes tables' scopes := by
  induction nested with
  | nil => exact .nil
  | @cons s r outer hs hr hc run fresh nodup rest ih =>
    refine .cons hs ?_ hc (run.congr fun u hu => h s (by simp) u hu) fresh nodup
      (ih fun o ho => h o (List.mem_cons_of_mem _ ho))
    rw [h s (by simp) _ run.mem_first, hr]

/-- A new scope is opened inside the innermost one. -/
theorem open_new (nested : NestedScopes tables scopes) (hpos : 0 < tables.size) :
    NestedScopes (tables.push { next := innermost scopes })
      (⟨tables.nextId, [tables.nextId], []⟩ :: scopes) := by
  have hnew : (tables.push { next := innermost scopes }).get? tables.nextId =
      some { next := innermost scopes } := by rw [Table.get?_push, if_pos rfl]
  refine .cons ?_ hnew rfl (.last hnew rfl) ?_ (by simp) (nested.congr fun s hs t ht => ?_)
  · simpa [RecordId.isSentinel, Table.nextId] using hpos.ne'
  · intro t ht o ho hto
    have hlt := nested.held o ho t hto
    rw [List.mem_singleton.1 ht] at hlt
    exact Nat.lt_irrefl _ hlt
  · exact Table.get?_push_of_lt (nested.held s hs t ht)

end NestedScopes

/-! ## Declaring a name -/

/-- A look-up of the last table of a scope stops at the scope around it. -/
def Stops (tables : Table .symbolTable SymbolTable) (parent : SymbolTableId) : Prop :=
  parent.isSentinel = true ∨ ∃ r, tables.get? parent = some r ∧ r.isContinuation = false

theorem NestedScopes.stops (nested : NestedScopes tables scopes) :
    Stops tables (innermost scopes) := by
  cases nested with
  | nil => exact .inl rfl
  | cons _ hr hc _ _ _ _ => exact .inr ⟨_, hr, hc⟩

/-- The last table of a run is where a walk along its overflow ends. -/
theorem ScopeRun.lastTableWithin {p : Program} {last : SymbolTableId} {before : List SymbolTableId}
    {fuel : Nat} (run : ScopeRun p.symbolTables parent t ids symbols)
    (stops : Stops p.symbolTables parent) (hids : ids = before ++ [last]) (hf : ids.length ≤ fuel) :
    p.lastTableWithin fuel t = .ok last := by
  induction run generalizing before fuel with
  | @last t r ht hn =>
    obtain ⟨fuel, rfl⟩ : ∃ n, fuel = n + 1 := ⟨fuel - 1, by simp at hf; omega⟩
    have hlast : t = last := by
      have := congrArg List.getLast? hids
      simpa using this
    simp only [Program.lastTableWithin, Table.get_eq_ok.2 ht, ok_bind, hn]
    rcases stops with hs | ⟨rp, hp, hc⟩
    · simp [hs, hlast, pure, Except.pure]
    · cases hs : parent.isSentinel with
      | true => simp [hlast, pure, Except.pure]
      | false => simp [Table.get_eq_ok.2 hp, ok_bind, hc, hlast, pure, Except.pure]
  | @step t r ru ids symbols ht hs hu hc rest ih =>
    obtain ⟨fuel, rfl⟩ : ∃ n, fuel = n + 1 := ⟨fuel - 1, by simp at hf; omega⟩
    obtain ⟨before', hids'⟩ : ∃ before', ids = before' ++ [last] := by
      cases before with
      | nil =>
        have hnil : ids = [] := by simpa using congrArg List.tail hids
        exact absurd rest.mem_first (by simp [hnil])
      | cons b before => exact ⟨before, by simpa using congrArg List.tail hids⟩
    simp only [Program.lastTableWithin, Table.get_eq_ok.2 ht, ok_bind, hs, Bool.false_eq_true,
      if_false, Table.get_eq_ok.2 hu, hc, if_true]
    exact ih hids' (by simpa using hf)

namespace NestedScopes

/-- The innermost scope may be put anew, from its own tables and new ones. -/
theorem replace {ids' : List SymbolTableId} {symbols' : List Symbol}
    (nested : NestedScopes tables (s :: outer)) (grow : TablesGrow tables tables' s.tables ids')
    (first : ∀ r, tables.get? s.first = some r →
      ∃ r', tables'.get? s.first = some r' ∧ r'.isContinuation = r.isContinuation)
    (run' : ScopeRun tables' (innermost outer) s.first ids' symbols') (nodup' : ids'.Nodup) :
    NestedScopes tables' (⟨s.first, ids', symbols'⟩ :: outer) := by
  cases nested with
  | cons hs hr hc run fresh nodup rest =>
    obtain ⟨r', hr', hc'⟩ := first _ hr
    refine .cons hs hr' (hc'.trans hc) run' ?_ nodup' (rest.congr fun o ho t ht => ?_)
    · intro t ht o ho hto
      rcases grow.own_or_new t ht with hown | hnew
      · exact fresh t hown o ho hto
      · have := rest.held o ho t hto
        omega
    · exact grow.same t (rest.held o ho t ht) fun hown => fresh t hown o ho ht

/-- A symbol is added to the last table of the innermost scope. -/
theorem addSymbol {p : Program} {before : List SymbolTableId} {last : SymbolTableId}
    (nested : NestedScopes p.symbolTables (s :: outer)) (hids : s.tables = before ++ [last])
    (symbol : Symbol) :
    TablesGrow p.symbolTables (p.addSymbol last symbol).symbolTables s.tables s.tables ∧
      NestedScopes (p.addSymbol last symbol).symbolTables
        (⟨s.first, s.tables, s.symbols ++ [symbol]⟩ :: outer) := by
  have hnested := nested
  cases hnested with
  | cons hs hr hc run fresh nodup rest =>
    obtain ⟨r, front, hsymbols, hlast, hnext, again⟩ := (hids ▸ run).ends
    have hnot : last ∉ before := by
      rw [hids, List.nodup_append] at nodup
      exact fun hb => nodup.2.2 last hb last (by simp) rfl
    have hget := Program.get?_addSymbol symbol hlast
    have hsame : ∀ u, u ≠ last →
        (p.addSymbol last symbol).symbolTables.get? u = p.symbolTables.get? u :=
      fun u hu => Program.get?_addSymbol_of_ne hu
    have grow : TablesGrow p.symbolTables (p.addSymbol last symbol).symbolTables s.tables s.tables :=
      { size_le := by simp
        own_or_new := fun _ ht => .inl ht
        same := fun t _ ht => hsame t fun h => ht (by simp [hids, h]) }
    -- only the last table changes: the run up to it is walked again
    refine ⟨grow, nested.replace grow (fun r₀ hr₀ => ?_) ?_ nodup⟩
    · by_cases h : s.first = last
      · rw [h] at hr₀ ⊢
        exact ⟨_, hget, by rw [hlast, Option.some.injEq] at hr₀; rw [← hr₀]⟩
      · exact ⟨r₀, by rw [hsame _ h, hr₀], rfl⟩
    · have hrun := again (fun u hu => hsame u fun h => hnot (h ▸ hu)) hget rfl (.last hget hnext)
      rw [hids, hsymbols]
      simpa using hrun

/-- A table is put in behind the last one of the innermost scope. -/
theorem spliced {p : Program} {before : List SymbolTableId} {last : SymbolTableId}
    {r : SymbolTable} (nested : NestedScopes p.symbolTables (s :: outer))
    (hids : s.tables = before ++ [last]) (hr : p.symbolTables.get? last = some r) :
    TablesGrow p.symbolTables (p.spliced last r.next).symbolTables s.tables
        (s.tables ++ [p.symbolTables.nextId]) ∧
      NestedScopes (p.spliced last r.next).symbolTables
        (⟨s.first, s.tables ++ [p.symbolTables.nextId], s.symbols⟩ :: outer) := by
  have hheld := nested.held s (by simp)
  have hnested := nested
  cases hnested with
  | cons hs hr' hc run fresh nodup rest =>
    obtain ⟨r', front, hsymbols, hlast, hnext, again⟩ := (hids ▸ run).ends
    cases hr.symm.trans hlast
    have hnot : last ∉ before := by
      rw [hids, List.nodup_append] at nodup
      exact fun hb => nodup.2.2 last hb last (by simp) rfl
    have hlt : ∀ u ∈ s.tables, u ≠ p.symbolTables.nextId := by
      rintro u hu rfl
      exact Nat.lt_irrefl _ (hheld _ hu)
    have hmem : last ∈ s.tables := by simp [hids]
    have hnew := Program.get?_spliced_nextId r.next hr
    have hget := Program.get?_spliced_last r.next hr
    have hsame : ∀ u : SymbolTableId, u ≠ last → u.raw < p.symbolTables.size →
        (p.spliced last r.next).symbolTables.get? u = p.symbolTables.get? u :=
      fun u hu hltu => Program.get?_spliced_of_ne hu hltu
    have grow : TablesGrow p.symbolTables (p.spliced last r.next).symbolTables s.tables
        (s.tables ++ [p.symbolTables.nextId]) :=
      { size_le := by simp
        own_or_new := fun t ht => by
          rcases List.mem_append.1 ht with h | h
          · exact .inl h
          · exact .inr (by rw [List.mem_singleton.1 h]; exact Nat.le_refl _)
        same := fun t hltt ht => hsame t (fun h => ht (h ▸ hmem)) hltt }
    -- the last table goes on in the new one, and that goes on where it did
    refine ⟨grow, nested.replace grow (fun r₀ hr₀ => ?_) ?_ ?_⟩
    · by_cases h : s.first = last
      · rw [h] at hr₀ ⊢
        exact ⟨_, hget, by rw [hlast, Option.some.injEq] at hr₀; rw [← hr₀]⟩
      · exact ⟨r₀, by rw [hsame _ h (Table.lt_size_of_get? hr₀), hr₀], rfl⟩
    · have hpos : p.symbolTables.nextId.isSentinel = false := by
        have := hheld _ hmem
        simp only [RecordId.isSentinel, Table.nextId, beq_eq_false_iff_ne]
        omega
      have hrun := again (fun u hu => hsame u (fun h => hnot (h ▸ hu)) (hheld u (by simp [hids, hu])))
        hget rfl (.step hget hpos hnew rfl (.last hnew hnext))
      rw [hids, hsymbols]
      simpa using hrun
    · rw [List.nodup_append]
      exact ⟨nodup, by simp, fun a ha b hb => by rw [List.mem_singleton.1 hb]; exact hlt a ha⟩

/-- **A declaration appends to the innermost scope and to nothing else**,
also when the last table of that is full. -/
theorem declare {p : Program} (nested : NestedScopes p.symbolTables (s :: outer))
    (symbol : Symbol) :
    ∃ tables ids, p.declare s.first symbol = .ok { p with symbolTables := tables } ∧
      TablesGrow p.symbolTables tables s.tables ids ∧
      NestedScopes tables (⟨s.first, ids, s.symbols ++ [symbol]⟩ :: outer) := by
  have hlength := nested.length_le
  have hnested := nested
  cases hnested with
  | cons hs hr hc run fresh nodup rest =>
    obtain ⟨before, last, r, front, hids, -, hlast, -, -⟩ := run.exists_last
    have htable : p.lastTable s.first = .ok last :=
      run.lastTableWithin rest.stops hids (by simp at hlength; omega)
    cases hfull : r.isFull with
    | true =>
      obtain ⟨grow, nested'⟩ := nested.spliced hids hlast
      obtain ⟨grow', nested''⟩ := nested'.addSymbol rfl symbol
      exact ⟨_, _, Program.declare_eq_ok.2 (.overflows htable hlast hfull), grow.trans grow', nested''⟩
    | false =>
      obtain ⟨grow, nested'⟩ := nested.addSymbol hids symbol
      exact ⟨_, _, Program.declare_eq_ok.2 (.fits htable hlast hfull), grow, nested'⟩

end NestedScopes

end FrontEnd
