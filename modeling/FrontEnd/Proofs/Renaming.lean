import FrontEnd.Proofs.Declaring
import FrontEnd.Proofs.Frame
import FrontEnd.Proofs.Regular
import Mathlib.Data.List.TakeDrop
/-!
# FrontEnd — sources that tell names apart alike

Two sources may read quite differently and still give the names of a
program the same structure: the same names are equal in both, the same
are keywords, and the same are `main` (`ReadsAlike`). Name resolution asks
a source nothing else, so it comes to the same over both
(`bindNames_alike`).

The names that a pass reads are those that the program starts with: no
pass makes a span up, and what is declared in a scope is declared under
the name it has (`ReadsOnly`).
-/

namespace FrontEnd

/-! ## Steps that come to the same -/

section

variable {ε α β : Type} {P : α → Prop} {Q : β → Prop}

/-- Both steps come to the same, and what they give is as stated. -/
structure Same (P : α → Prop) (x y : Except ε α) : Prop where
  eq : x = y
  keeps : Keeps P x

namespace Same

variable {x y : Except ε α} {f g : α → Except ε β}

/-- One step that keeps what is stated. -/
theorem of_keeps (h : Keeps P x) : Same P x x := ⟨rfl, h⟩

theorem ok {a : α} (h : P a) : Same P (.ok a : Except ε α) (.ok a) := of_keeps (.ok h)

theorem pure {a : α} (h : P a) : Same P (Pure.pure a : Except ε α) (Pure.pure a) := ok h

theorem error {e : ε} : Same P (.error e : Except ε α) (.error e) := of_keeps .error

/-- **Chains come to the same whose steps do.** -/
theorem bind (h : Same P x y) (next : ∀ a, P a → Same Q (f a) (g a)) :
    Same Q (x >>= f) (y >>= g) := by
  obtain ⟨rfl, hP⟩ := h
  exact ⟨bind_congr_ok fun a ha => (next a (hP a ha)).eq, hP.bind fun a ha => (next a ha).keeps⟩

/-- A step that both take alike. -/
theorem read (next : ∀ a, x = .ok a → Same Q (f a) (g a)) : Same Q (x >>= f) (x >>= g) :=
  bind (of_keeps fun _ h => h) next

/-- Runs over a list come to the same whose steps do. -/
theorem foldlM {f g : β → α → Except ε β} {xs : List α} {b : β}
    (step : ∀ x ∈ xs, ∀ b, Q b → Same Q (f b x) (g b x)) (start : Q b) :
    Same Q (xs.foldlM f b) (xs.foldlM g b) := by
  induction xs generalizing b with
  | nil => exact pure start
  | cons x xs ih =>
    simp only [List.foldlM_cons]
    exact (step x List.mem_cons_self b start).bind fun b hb =>
      ih (fun y hy => step y (List.mem_cons_of_mem _ hy)) hb

/-- Steps that can only fault come to the same also where an error is
possible. -/
theorem lift {x y : Except Fault α} (h : Same P x y) :
    Same P (liftM x : Except (Abort ε) α) (liftM y) := by
  obtain ⟨rfl, hP⟩ := h
  exact of_keeps hP.lift

end Same

end

/-! ## What a source tells of names -/

/-- The words that name a type wherever they stand. -/
def Ty.keywords : List String := ["int", "num", "str", "bool"]

/-- Over both sources the same of the spans read equal, the same read as a
keyword, and the same read as `main`. -/
structure ReadsAlike (names : Span → Prop) (source source' : String) : Prop where
  equal : ∀ a b, names a → names b →
    (a.read source = b.read source ↔ a.read source' = b.read source')
  keyword : ∀ a, names a → ∀ word ∈ Ty.keywords, (a.read source = word ↔ a.read source' = word)
  main : ∀ a, names a → (a.read source = "main" ↔ a.read source' = "main")

instance {names : List Span} {source source' : String} :
    Decidable (ReadsAlike (· ∈ names) source source') :=
  decidable_of_iff
    ((∀ a ∈ names, ∀ b ∈ names, (a.read source = b.read source ↔ a.read source' = b.read source')) ∧
      (∀ a ∈ names, ∀ word ∈ Ty.keywords, (a.read source = word ↔ a.read source' = word)) ∧
      ∀ a ∈ names, (a.read source = "main" ↔ a.read source' = "main"))
    ⟨fun ⟨equal, keyword, main⟩ => ⟨fun a b ha hb => equal a ha b hb, keyword, main⟩,
      fun h => ⟨fun a ha b hb => h.equal a b ha hb, h.keyword, h.main⟩⟩

namespace ReadsAlike

variable {names : Span → Prop} {source source' : String} {a b : Span}

theorem beq (h : ReadsAlike names source source') (ha : names a) (hb : names b) :
    (a.read source == b.read source) = (a.read source' == b.read source') := by
  rw [Bool.eq_iff_iff, beq_iff_eq, beq_iff_eq]
  exact h.equal a b ha hb

theorem ofKeyword? (h : ReadsAlike names source source') (ha : names a) :
    Ty.ofKeyword? (a.read source) = Ty.ofKeyword? (a.read source') := by
  have hint := h.keyword a ha "int" (by decide)
  have hnum := h.keyword a ha "num" (by decide)
  have hstr := h.keyword a ha "str" (by decide)
  have hbool := h.keyword a ha "bool" (by decide)
  simp only [Ty.ofKeyword?, hint, hnum, hstr, hbool]

end ReadsAlike

/-- Conditions that agree on the names of some symbols find the same among
them. -/
theorem Lookup.among_congr {wanted wanted' : Span → Bool} {symbols : List Symbol}
    (h : ∀ s ∈ symbols, wanted s.name = wanted' s.name) :
    Lookup.among wanted symbols = Lookup.among wanted' symbols := by
  have split : symbols.takeWhile (fun s => !wanted s.name) =
        symbols.takeWhile (fun s => !wanted' s.name) ∧
      symbols.dropWhile (fun s => !wanted s.name) =
        symbols.dropWhile (fun s => !wanted' s.name) := by
    induction symbols with
    | nil => exact ⟨rfl, rfl⟩
    | cons s symbols ih =>
      obtain ⟨hs, hsymbols⟩ := List.forall_mem_cons.1 h
      obtain ⟨htake, hdrop⟩ := ih hsymbols
      simp only [List.takeWhile_cons, List.dropWhile_cons, hs, htake, hdrop, and_self]
  simp only [among, List.span_eq_takeWhile_dropWhile, split.1, split.2]

namespace Program

/-! ## The names of a program -/

/-- The spans that the program reads are names in the given sense: those
of its expressions, those that fields select, those under which something
is declared, and those in its scopes. -/
structure ReadsOnly (names : Span → Prop) (p : Program) : Prop where
  exprs : ∀ e x, p.exprs.get? e = some x → names x.span
  fields : ∀ e x subject name, p.exprs.get? e = some x → x.kind = .field subject name → names name
  targets : ∀ t name, p.nameOf t = .ok name → names name
  values : ∀ v r, p.enumValues.get? v = some r → names r.name
  symbols : ∀ t r, p.symbolTables.get? t = some r → ∀ s ∈ r.symbols.toList, names s.name

variable {names : Span → Prop} {p p' : Program} {source source' : String} {e : ExprId} {x : Expr}
variable {scope : SymbolTableId} {s : StmtId} {kind : ExprKind} {t : Target}

namespace ReadsOnly

variable (h : ReadsOnly names p)

include h

/-- A change that neither the frame nor the scopes show. -/
theorem of_frame (hframe : p'.frame = p.frame)
    (hfields : ∀ e x subject name, p'.exprs.get? e = some x → x.kind = .field subject name →
      names name)
    (htables : p'.symbolTables = p.symbolTables) : ReadsOnly names p' where
  exprs e x hx := by
    have hspan := congrArg (fun q : Program => (q.exprs.get? e).map Expr.span) hframe
    simp only [frame, Table.get?_map, hx, Option.map_some, Option.map_map] at hspan
    obtain ⟨y, hy, hys⟩ := Option.map_eq_some_iff.1 hspan.symm
    exact hys ▸ h.exprs e y hy
  fields := hfields
  targets t name ht := by
    rw [← nameOf_frame, hframe, nameOf_frame] at ht
    exact h.targets t name ht
  values v r hr := by
    have hvalues := congrArg Program.enumValues hframe
    exact h.values v r (hvalues ▸ hr)
  symbols t r hr := h.symbols t r (htables ▸ hr)

/-- A change of what is recorded about declarations. -/
theorem congr (hframe : p'.frame = p.frame) (hexprs : p'.exprs = p.exprs)
    (htables : p'.symbolTables = p.symbolTables) : ReadsOnly names p' :=
  h.of_frame hframe (fun e x subject name hx => h.fields e x subject name (hexprs ▸ hx)) htables

/-- A change of expressions, of which none becomes a field. -/
theorem modify_expr {f : Expr → Expr} (hframe : ∀ x, (f x).frame = x.frame)
    (hkind : ∀ x subject name, (f x).kind = .field subject name → x.kind = .field subject name) :
    ReadsOnly names { p with exprs := p.exprs.modify e f } := by
  refine h.of_frame (frame_exprs (Table.map_modify hframe)) (fun c x subject name hx hk => ?_) rfl
  rw [Table.get?_modify] at hx
  split at hx
  · obtain ⟨y, hy, rfl⟩ := Option.map_eq_some_iff.1 hx
    exact h.fields c y subject name hy (hkind y subject name hk)
  · exact h.fields c x subject name hx hk

theorem setKind (e : ExprId) (hkind : ∀ subject name, kind ≠ .field subject name) :
    ReadsOnly names (p.setKind e kind) :=
  h.modify_expr (fun _ => rfl) fun _ subject name hk => absurd hk (hkind subject name)

theorem setExprType (e : ExprId) (type : Ty) : ReadsOnly names (p.setExprType e type) :=
  h.modify_expr (fun _ => rfl) fun _ _ _ => id

/-- A change of the scopes, in which only names are declared. -/
theorem set_symbolTables {symbolTables : Table .symbolTable SymbolTable}
    (hsymbols : ∀ t r, symbolTables.get? t = some r → ∀ s ∈ r.symbols.toList, names s.name) :
    ReadsOnly names { p with symbolTables } :=
  ⟨h.exprs, h.fields, h.targets, h.values, hsymbols⟩

theorem addSymbolTable (next : SymbolTableId) : ReadsOnly names (p.addSymbolTable next).2 := by
  refine h.set_symbolTables fun t r hr => ?_
  rw [Table.get?_push] at hr
  split at hr
  · cases hr
    simp
  · exact h.symbols t r hr

theorem spliced {last : SymbolTableId} {r : SymbolTable} (hr : p.symbolTables.get? last = some r) :
    ReadsOnly names (p.spliced last r.next) := by
  refine h.set_symbolTables fun t r' hr' => ?_
  rcases get?_spliced_cases hr hr' with rfl | ⟨rfl, rfl⟩ | hold
  · simp
  · exact h.symbols t r hr
  · exact h.symbols t r' hold

theorem addSymbol {symbol : Symbol} (hs : names symbol.name) :
    ReadsOnly names (p.addSymbol scope symbol) := by
  refine h.set_symbolTables fun t r hr => ?_
  rcases get?_addSymbol_cases hr with hold | ⟨r', hr', rfl, rfl⟩
  · exact h.symbols t r hold
  · intro s hs'
    rcases List.mem_append.1 (Array.toList_push ▸ hs') with hs' | hs'
    · exact h.symbols t r' hr' s hs'
    · exact List.mem_singleton.1 hs' ▸ hs

theorem declareTarget (hd : p.declareTarget scope t = .ok p') : ReadsOnly names p' := by
  obtain ⟨name, hname, hd⟩ := bind_eq_ok.1 hd
  have hs := h.targets t name hname
  cases declare_eq_ok.1 hd with
  | fits => exact h.addSymbol hs
  | overflows _ hr => exact (h.spliced hr).addSymbol hs

theorem declareAhead {topLevel : Bool} (hd : declareAhead topLevel scope p s = .ok p') :
    ReadsOnly names p' := by
  obtain ⟨stmt, -, hd⟩ := bind_eq_ok.1 hd
  split at hd
  · exact h.declareTarget hd
  · split at hd
    · exact h.declareTarget hd
    · exact pure_eq_ok.1 hd ▸ h
  · exact pure_eq_ok.1 hd ▸ h

theorem declareAllAhead {topLevel : Bool} {outline : Outline}
    (hd : declareAllAhead topLevel scope p outline = .ok p') : ReadsOnly names p' := by
  obtain ⟨ss, -, hd⟩ := bind_eq_ok.1 hd
  exact foldlM_invariant (ReadsOnly names) (fun _ _ _ _ h hd => h.declareAhead hd) h hd

theorem declareInside (hd : declareInside scope p s = .ok p') : ReadsOnly names p' := by
  obtain ⟨stmt, -, hd⟩ := bind_eq_ok.1 hd
  split at hd
  · obtain ⟨r, -, hd⟩ := bind_eq_ok.1 hd
    obtain ⟨parameters, -, hd⟩ := bind_eq_ok.1 hd
    exact foldlM_invariant (ReadsOnly names) (fun _ _ _ _ h hd => h.declareTarget hd) h hd
  · exact h.declareTarget hd
  · exact pure_eq_ok.1 hd ▸ h

theorem updateBody {change : Block → Block} (hc : ∀ b, (change b).frame = b.frame)
    (hu : p.updateBody s change = .ok (some p')) : ReadsOnly names p' := by
  have hframe := frame_updateBody hc hu
  obtain ⟨stmt, -, hu⟩ := bind_eq_ok.1 hu
  split at hu
  · obtain ⟨functions, -, hu⟩ := bind_eq_ok.1 hu
    cases pure_eq_ok.1 hu
    exact h.congr hframe rfl rfl
  · cases pure_eq_ok.1 hu
    exact h.congr hframe rfl rfl
  · cases pure_eq_ok.1 hu

theorem openScope {inner : SymbolTableId} (ho : p.openScope s scope = .ok (inner, p')) :
    ReadsOnly names p' := by
  obtain ⟨opened, hu, ho⟩ := bind_eq_ok.1 ho
  cases opened with
  | none => cases ho
  | some q =>
    cases pure_eq_ok.1 ho
    refine (h.addSymbolTable scope).updateBody ?_ (lift_eq_ok.1 hu)
    exact fun _ => rfl

end ReadsOnly

/-! ## Looking names up -/

/-- Conditions that agree on the names in the scopes look up the same. -/
theorem lookupWithin_congr {wanted wanted' : Span → Bool} (fuel : Nat)
    (h : ∀ t r, p.symbolTables.get? t = some r → ∀ s ∈ r.symbols.toList,
      wanted s.name = wanted' s.name) :
    p.lookupWithin wanted fuel scope = p.lookupWithin wanted' fuel scope := by
  induction fuel generalizing scope with
  | zero => rfl
  | succ fuel ih =>
    simp only [lookupWithin, ih]
    split
    · rfl
    · exact bind_congr_ok fun r hr => by rw [Lookup.among_congr (h scope r (Table.get_eq_ok.1 hr))]

/-- What a name becomes that is looked up is no field. -/
theorem meaning_ne_field {name : Span} (h : p.meaning source scope name = .ok (some kind))
    (subject : ExprId) (field : Span) : kind ≠ .field subject field := by
  unfold meaning at h
  split at h
  · cases pure_eq_ok.1 h
    simp
  · obtain ⟨symbol, -, h⟩ := bind_eq_ok.1 h
    obtain ⟨s, -, rfl⟩ := Option.map_eq_some_iff.1 (pure_eq_ok.1 h)
    cases s.target <;> simp [Target.exprKind]

section

variable (alike : ReadsAlike names source source')

include alike

/-- **A name means the same over both sources.** -/
theorem meaning_alike (h : ReadsOnly names p) {name : Span} (hname : names name) :
    p.meaning source scope name = p.meaning source' scope name := by
  have found : p.findSymbol scope (fun other => other.read source == name.read source) =
      p.findSymbol scope fun other => other.read source' == name.read source' :=
    congrArg (Except.map Lookup.found) (lookupWithin_congr _ fun t r hr s hs =>
      alike.beq (h.symbols t r hr s hs) hname)
  simp only [meaning, alike.ofKeyword? hname, found]

/-! ## Resolving names -/

theorem bindExprWithin_alike (h : ReadsOnly names p) (fuel : Nat) (e : ExprId) :
    Same (ReadsOnly names) (bindExprWithin source scope fuel p e)
      (bindExprWithin source' scope fuel p e) := by
  induction fuel generalizing p e with
  | zero => exact .error
  | succ fuel ih =>
    simp only [bindExprWithin]
    refine .read fun x hx => ?_
    have hspan := h.exprs e x (Table.get_eq_ok.1 hx)
    cases x.kind with
    | identifier =>
      simp only [meaning_alike alike h hspan]
      refine .read fun found hfound => ?_
      cases found with
      | none => exact .pure h
      | some kind => exact .pure (h.setKind e (meaning_ne_field hfound))
    | _ => exact .read fun es _ => .foldlM (fun e _ p h => ih h e) h

theorem bindExprs_alike (h : ReadsOnly names p) (es : List ExprId) :
    Same (ReadsOnly names) (bindExprs source scope p es) (bindExprs source' scope p es) :=
  .foldlM (fun e _ p h => bindExprWithin_alike alike h p.exprDepth e) h

theorem bindLeaf_alike (h : ReadsOnly names p) (topLevel : Bool) (s : StmtId) :
    Same (ReadsOnly names) (bindLeaf source topLevel scope p s) (bindLeaf source' topLevel scope p s) := by
  refine .read fun stmt _ => (bindExprs_alike alike h _).bind fun p h => .of_keeps fun p' hp' => ?_
  split at hp'
  · split at hp'
    · exact pure_eq_ok.1 hp' ▸ h
    · exact h.declareTarget hp'
  · exact pure_eq_ok.1 hp' ▸ h

theorem bindHead_alike (h : ReadsOnly names p) (s : StmtId) :
    Same (ReadsOnly names) (bindHead source scope p s) (bindHead source' scope p s) := by
  refine .read fun stmt _ => ?_
  cases stmt.kind with
  | function f => exact .read fun es _ => bindExprs_alike alike h es
  | _ => exact bindExprs_alike alike h _

theorem bindOutline_alike (h : ReadsOnly names p) (topLevel : Bool) (outline : Outline) :
    Same (ReadsOnly names) (bindOutline source topLevel scope outline p)
      (bindOutline source' topLevel scope outline p) := by
  induction outline generalizing topLevel scope p with
  | stuck fault => exact .error
  | done => exact .pure h
  | leaf s rest ih =>
    exact (bindLeaf_alike alike h topLevel s).lift.bind fun p h => ih h topLevel
  | nested s body rest ihbody ihrest =>
    refine (bindHead_alike alike h s).lift.bind fun p h => .read fun ⟨inner, p₁⟩ ho => ?_
    refine .read fun p₂ hinside => .read fun p₃ hahead => ?_
    have h₁ := (h.openScope ho).declareInside (lift_eq_ok.1 hinside)
    exact (ihbody (h₁.declareAllAhead (lift_eq_ok.1 hahead)) false).bind fun p h => ihrest h topLevel

/-- **Names are resolved alike over both sources.** -/
theorem bindNames_alike (h : ReadsOnly names p) :
    Same (ReadsOnly names) (p.bindNames source) (p.bindNames source') := by
  refine .read fun p₁ hahead => ?_
  have h₁ : ReadsOnly names { (p.addSymbolTable .sentinel).2 with
      block := { p.block with symbolTable := (p.addSymbolTable .sentinel).1 } } :=
    (h.addSymbolTable .sentinel).congr rfl rfl rfl
  exact bindOutline_alike alike (h₁.declareAllAhead (lift_eq_ok.1 hahead)) true _

end

end Program

end FrontEnd
