import FrontEnd.Proofs.NameBinding
import FrontEnd.Proofs.Reports
import FrontEnd.Proofs.TypeDependence
/-!
# FrontEnd — what the type pass changes

A part of the type pass changes expressions of some region and the types
of some declarations, and nothing else (`Changes`). Names may become
values of enums on the way, which have no operands, so what lies under
an expression never grows (`Pruned`). What has been found out about an
expression stays true while neither what lies under it nor what it
mentions is changed (`Changes.typeOf`, `Changes.quiet`).
-/

namespace FrontEnd

/-- The expression may become the value of an enum. -/
def ExprKind.isOpen : ExprKind → Bool
  | .identifier | .field _ _ => true
  | _ => false

/-- What the type pass may make of an expression. -/
structure Expr.Matures (x x' : Expr) : Prop where
  span : x'.span = x.span
  flagged : x.flagged = true → x'.flagged = true
  kind : x'.kind = x.kind ∨ x.kind.isOpen = true ∧ ∃ v, x'.kind = .enumValue v

namespace Expr.Matures

variable {x x' x'' : Expr}

theorem refl (x : Expr) : x.Matures x := ⟨rfl, fun h => h, .inl rfl⟩

theorem trans (h : x.Matures x') (h' : x'.Matures x'') : x.Matures x'' where
  span := h'.span.trans h.span
  flagged hf := h'.flagged (h.flagged hf)
  kind := by
    rcases h'.kind with hk' | ⟨hopen', v, hv⟩
    · rcases h.kind with hk | ⟨hopen, v, hv⟩
      · exact .inl (hk'.trans hk)
      · exact .inr ⟨hopen, v, hk'.trans hv⟩
    · rcases h.kind with hk | ⟨hopen, -⟩
      · exact .inr ⟨hk ▸ hopen', v, hv⟩
      · exact .inr ⟨hopen, v, hv⟩

/-- A node that cannot become a value keeps its kind. -/
theorem kind_eq (h : x.Matures x') (hk : x.kind.isOpen = false) : x'.kind = x.kind := by
  rcases h.kind with h | ⟨hopen, -⟩
  · exact h
  · rw [hk] at hopen
    cases hopen

theorem target? (h : x.Matures x') {t : Target} (ht : x'.kind.target? = some t) :
    x.kind.target? = some t := by
  rcases h.kind with hk | ⟨-, v, hv⟩
  · rwa [← hk]
  · rw [hv] at ht
    cases ht

end Expr.Matures

namespace Program

/-- A program without its expressions and the types of declarations. -/
def untyped (p : Program) : Program :=
  { p with
    exprs := .empty
    functions := p.functions.map fun f => { f with returnType := .unset }
    parameters := p.parameters.map Parameter.frame
    vars := p.vars.map Variable.frame }

/-- The program is `p₀`, but for what passes fill in, and for operands
that are none any more. -/
structure Pruned (p₀ p : Program) : Prop where
  held : p.OperandsHeld
  operandsAt : ∀ e, p.operandsAt e = p₀.operandsAt e ∨ p.operandsAt e = []
  /-- What a node refers to, it has referred to from the start. -/
  targets : ∀ e x t, p.exprs.get? e = some x → x.kind.target? = some t →
    ∃ x₀, p₀.exprs.get? e = some x₀ ∧ x₀.kind.target? = some t
  frame : p.frame = p₀.frame

variable {p₀ p : Program} {e c : ExprId} {t : Target}

theorem Pruned.refl (held : p.OperandsHeld) : Pruned p p :=
  ⟨held, fun _ => .inl rfl, fun _ x _ hx ht => ⟨x, hx, ht⟩, rfl⟩

theorem Pruned.under (h : Pruned p₀ p) (hu : p.Under e c) : p₀.Under e c :=
  hu.mono fun d => by
    rcases h.operandsAt d with hd | hd
    · rw [hd]
      exact List.Subset.refl _
    · rw [hd]
      exact List.nil_subset _

theorem Pruned.mem_operandsAt (h : Pruned p₀ p) (hc : c ∈ p.operandsAt e) :
    c ∈ p₀.operandsAt e := by
  rcases h.operandsAt e with he | he
  · rwa [← he]
  · rw [he] at hc
    cases hc

/-- Nothing comes to be mentioned that has not been from the start. -/
theorem Pruned.mentions (h : Pruned p₀ p) (hm : p.Mentions e t) : p₀.Mentions e t := by
  obtain ⟨c, x, hc, hx, ht⟩ := hm
  obtain ⟨x₀, hx₀, ht₀⟩ := h.targets c x t hx ht
  exact ⟨c, x₀, h.under hc, hx₀, ht₀⟩

end Program

/-- Expressions have matured, the types of declarations may have changed,
and diagnostics may have been added. -/
structure Matured (a a' : Analysis) : Prop where
  exprs : ∀ e x, a.program.exprs.get? e = some x →
    ∃ x', a'.program.exprs.get? e = some x' ∧ x.Matures x'
  size : a'.program.exprs.size = a.program.exprs.size
  rest : a'.program.untyped = a.program.untyped
  queue : a.queue.Grows a'.queue

namespace Matured

variable {a a' a'' : Analysis} {e : ExprId} {x' : Expr}

theorem refl (a : Analysis) : Matured a a := ⟨fun _ x hx => ⟨x, hx, .refl x⟩, rfl, rfl, .refl _⟩

theorem trans (h : Matured a a') (h' : Matured a' a'') : Matured a a'' where
  exprs e x hx := by
    obtain ⟨x', hx', hm⟩ := h.exprs e x hx
    obtain ⟨x'', hx'', hm'⟩ := h'.exprs e x' hx'
    exact ⟨x'', hx'', hm.trans hm'⟩
  size := h'.size.trans h.size
  rest := h'.rest.trans h.rest
  queue := h.queue.trans h'.queue

variable (h : Matured a a')

include h

/-- No expression is new. -/
theorem back (hx' : a'.program.exprs.get? e = some x') :
    ∃ x, a.program.exprs.get? e = some x ∧ x.Matures x' := by
  obtain ⟨x, hx⟩ := Table.exists_get?_of_lt (h.size ▸ Table.lt_size_of_get? hx')
  obtain ⟨x'', hx'', hm⟩ := h.exprs e x hx
  rw [hx'] at hx''
  exact ⟨x, hx, Option.some.inj hx'' ▸ hm⟩

theorem frame : a'.program.frame = a.program.frame := by
  have key : ∀ q : Program, q.frame =
      { q.untyped with
        exprs := q.exprs.map Expr.frame
        stmts := q.untyped.stmts.map Stmt.frame
        functions := q.untyped.functions.map Function.frame
        symbolTables := .empty
        main := none
        mainSearched := false
        block := q.untyped.block.frame } := by
    intro q
    simp only [Program.frame, Program.untyped, Table.map, Array.map_map]
    rfl
  have hexprs : a'.program.exprs.map Expr.frame = a.program.exprs.map Expr.frame := by
    refine Table.ext_get? fun e => ?_
    rw [Table.get?_map, Table.get?_map]
    cases hx : a.program.exprs.get? e with
    | some x =>
      obtain ⟨x', hx', hm⟩ := h.exprs e x hx
      rw [hx', Option.map_some, Option.map_some]
      simp only [Expr.frame, hm.span]
    | none =>
      rw [Table.get?_eq_none_iff] at hx
      rw [Table.get?_eq_none_iff.2 (h.size ▸ hx)]
  rw [key, key a.program, h.rest, hexprs]

theorem stmts : a'.program.stmts = a.program.stmts := by
  have := congrArg Program.stmts h.rest
  exact this

theorem arguments : a'.program.arguments = a.program.arguments := by
  have := congrArg Program.arguments h.rest
  exact this

theorem enumTypes : a'.program.enumTypes = a.program.enumTypes := by
  have := congrArg Program.enumTypes h.rest
  exact this

theorem enumValues : a'.program.enumValues = a.program.enumValues := by
  have := congrArg Program.enumValues h.rest
  exact this

theorem symbolTables : a'.program.symbolTables = a.program.symbolTables := by
  have := congrArg Program.symbolTables h.rest
  exact this

theorem block : a'.program.block = a.program.block := by
  have := congrArg Program.block h.rest
  exact this

/-- Bodies keep their scopes. -/
theorem bodyOf (s : StmtId) : a'.program.bodyOf s = a.program.bodyOf s := by
  have hread : ∀ (p : Program) (f : FunctionId),
      (do return some (← p.functions.get f).body : Except Fault (Option Block)) =
        (p.untyped.functions.get f).map fun r => some r.body := by
    intro p f
    simp only [Program.untyped, Table.get_map]
    cases p.functions.get f <;> rfl
  simp only [Program.bodyOf, h.stmts, hread, h.rest]

end Matured

/-- What a part of the type pass does: it changes expressions of a region
and the types of some declarations. -/
structure Changes (region : ExprId → Prop) (targets : Target → Prop) (a a' : Analysis) : Prop where
  exprs : ∀ e, ¬ region e → a'.program.exprs.get? e = a.program.exprs.get? e
  matures : ∀ e x, a.program.exprs.get? e = some x →
    ∃ x', a'.program.exprs.get? e = some x' ∧ x.Matures x'
  /-- Only values that there are come to be named. -/
  values : ∀ e x' v, a'.program.exprs.get? e = some x' → x'.kind = .enumValue v →
    (∃ x, a.program.exprs.get? e = some x ∧ x.kind = .enumValue v) ∨
      v.raw < a.program.enumValues.size
  size : a'.program.exprs.size = a.program.exprs.size
  vars : ∀ v, ¬ targets (.variable v) → a'.program.vars.get? v = a.program.vars.get? v
  functions : ∀ f, ¬ targets (.function f) →
    a'.program.functions.get? f = a.program.functions.get? f
  parameters : ∀ i, ¬ targets (.parameter i) →
    a'.program.parameters.get? i = a.program.parameters.get? i
  /-- What is pruned mentions nothing. -/
  keeps : ∀ e t, a.program.Mentions e t → a'.program.Mentions e t
  rest : a'.program.untyped = a.program.untyped
  queue : a.queue.Grows a'.queue

namespace Changes

variable {region region' : ExprId → Prop} {targets targets' : Target → Prop}
variable {a a' a'' : Analysis} {p₀ : Program} {e : ExprId} {d : Diagnostic} {t : Target}

theorem refl (a : Analysis) : Changes region targets a a :=
  ⟨fun _ _ => rfl, fun _ x hx => ⟨x, hx, .refl x⟩, fun _ x _ hx hk => .inl ⟨x, hx, hk⟩, rfl,
    fun _ _ => rfl, fun _ _ => rfl, fun _ _ => rfl, fun _ _ h => h, rfl, .refl _⟩

/-- Changes may be taken for changes of more. -/
theorem mono (h : Changes region targets a a') (hr : ∀ e, region e → region' e)
    (ht : ∀ t, targets t → targets' t) : Changes region' targets' a a' :=
  ⟨fun e he => h.exprs e fun hre => he (hr e hre), h.matures, h.values, h.size,
    fun v hv => h.vars v fun htv => hv (ht _ htv),
    fun f hf => h.functions f fun htf => hf (ht _ htf),
    fun i hi => h.parameters i fun hti => hi (ht _ hti), h.keeps, h.rest, h.queue⟩

theorem trans (h : Changes region targets a a') (h' : Changes region targets a' a'') :
    Changes region targets a a'' where
  exprs e he := (h'.exprs e he).trans (h.exprs e he)
  matures e x hx := by
    obtain ⟨x', hx', hm⟩ := h.matures e x hx
    obtain ⟨x'', hx'', hm'⟩ := h'.matures e x' hx'
    exact ⟨x'', hx'', hm.trans hm'⟩
  values e x'' v hx'' hk := by
    rcases h'.values e x'' v hx'' hk with ⟨x', hx', hk'⟩ | hv
    · exact h.values e x' v hx' hk'
    · have hsame := congrArg Program.enumValues h.rest
      exact .inr (hsame ▸ hv)
  size := h'.size.trans h.size
  vars v hv := (h'.vars v hv).trans (h.vars v hv)
  functions f hf := (h'.functions f hf).trans (h.functions f hf)
  parameters i hi := (h'.parameters i hi).trans (h.parameters i hi)
  keeps e t ht := h'.keeps e t (h.keeps e t ht)
  rest := h'.rest.trans h.rest
  queue := h.queue.trans h'.queue

/-! ## What is read off a program that has changed -/

theorem matured (h : Changes region targets a a') : Matured a a' :=
  ⟨h.matures, h.size, h.rest, h.queue⟩

theorem frame (h : Changes region targets a a') : a'.program.frame = a.program.frame :=
  h.matured.frame

theorem stmts (h : Changes region targets a a') : a'.program.stmts = a.program.stmts :=
  h.matured.stmts

theorem arguments (h : Changes region targets a a') :
    a'.program.arguments = a.program.arguments :=
  h.matured.arguments

theorem enumTypes (h : Changes region targets a a') :
    a'.program.enumTypes = a.program.enumTypes :=
  h.matured.enumTypes

theorem enumValues (h : Changes region targets a a') :
    a'.program.enumValues = a.program.enumValues :=
  h.matured.enumValues

/-- A node with the same kind has the same operands, and the value of an
enum has none. -/
theorem operands_of_matures (h : Changes region targets a a') {x x' : Expr}
    (hm : x.Matures x') :
    a'.program.operands x'.kind = a.program.operands x.kind ∨
      a'.program.operands x'.kind = .ok [] := by
  rcases hm.kind with hk | ⟨-, v, hv⟩
  · exact .inl (by rw [hk, Program.operands_congr h.arguments])
  · exact .inr (by rw [hv]; rfl)

/-- Every expression was there before. -/
theorem back (h : Changes region targets a a') {x' : Expr} (hx' : a'.program.exprs.get? e = some x') :
    ∃ x, a.program.exprs.get? e = some x ∧ x.Matures x' := by
  obtain ⟨x, hx⟩ := Table.exists_get?_of_lt (h.size ▸ Table.lt_size_of_get? hx')
  obtain ⟨x'', hx'', hm⟩ := h.matures e x hx
  rw [hx'] at hx''
  exact ⟨x, hx, Option.some.inj hx'' ▸ hm⟩

theorem pruned (h : Changes region targets a a') (hp : Program.Pruned p₀ a.program) :
    Program.Pruned p₀ a'.program where
  held e x' hx' := by
    obtain ⟨x, hx, hm⟩ := h.back hx'
    obtain ⟨es, hes, hlt⟩ := hp.held e x hx
    rcases h.operands_of_matures hm with ho | ho
    · exact ⟨es, ho.trans hes, hlt⟩
    · exact ⟨[], ho, by simp⟩
  operandsAt e := by
    cases hx : a.program.exprs.get? e with
    | none =>
      have hx' : a'.program.exprs.get? e = none := by
        rw [Table.get?_eq_none_iff] at hx ⊢
        rw [h.size]
        exact hx
      refine .inr ?_
      simp [Program.operandsAt, Table.get, hx', bind, Except.bind]
    | some x =>
      obtain ⟨x', hx', hm⟩ := h.matures e x hx
      have hops := hp.held.operands_eq hx
      rcases h.operands_of_matures hm with ho | ho
      · rw [Program.operandsAt_of_get (Table.get_eq_ok.2 hx') (ho.trans hops)]
        exact hp.operandsAt e
      · exact .inr (Program.operandsAt_of_get (Table.get_eq_ok.2 hx') ho)
  targets e x' t hx' ht := by
    obtain ⟨x, hx, hm⟩ := h.back hx'
    exact hp.targets e x t hx (hm.target? ht)
  frame := h.frame.trans hp.frame

theorem typeAt (h : Changes region targets a a') (ht : ¬ targets t) :
    a'.program.typeAt t = a.program.typeAt t := by
  cases t with
  | «variable» v => simp only [Program.typeAt, Table.get, h.vars v ht]
  | function f => simp only [Program.typeAt, Table.get, h.functions f ht]
  | parameter i => simp only [Program.typeAt, Table.get, h.parameters i ht]
  | enumType u => rfl
  | structType u => rfl

/-- Outside of the region, what lies under an expression stays the same. -/
theorem agreeUnder (h : Changes region targets a a')
    (hr : ∀ c, a.program.Under e c → ¬ region c) (ht : ∀ t, a.program.Mentions e t → ¬ targets t) :
    Program.AgreeUnder a.program a'.program e where
  kinds c hc := by rw [h.exprs c (hr c hc)]
  types t hm := h.typeAt (ht t hm)
  enumTypes := h.enumTypes

/-- **The type of an expression stays the same** while neither what lies
under it is changed nor the type of what it mentions. -/
theorem typeOf (h : Changes region targets a a') (held : a.program.OperandsHeld)
    (hr : ∀ c, a.program.Under e c → ¬ region c) (ht : ∀ t, a.program.Mentions e t → ¬ targets t) :
    a'.program.typeOf e = a.program.typeOf e :=
  Program.typeOf_congr held h.size (h.agreeUnder hr ht)

/-- Nothing new comes to lie under an expression. -/
theorem under {c : ExprId} (h : Changes region targets a a') (held : a.program.OperandsHeld)
    (hu : a'.program.Under e c) : a.program.Under e c :=
  (h.pruned (.refl held)).under hu

/-- **What is quiet stays quiet.** -/
theorem quiet (h : Changes region targets a a') (hq : a.Quiet e d) : a'.Quiet e d := by
  rcases hq with ⟨x, hx, hf⟩ | hr
  · obtain ⟨x', hx', hm⟩ := h.matures e x hx
    exact .inl ⟨x', hx', hm.flagged hf⟩
  · exact .inr (h.queue.refuses hr)

/-- Nothing new comes to be mentioned under an expression. -/
theorem mentions (h : Changes region targets a a') (held : a.program.OperandsHeld)
    (hm : a'.program.Mentions e t) : a.program.Mentions e t :=
  (h.pruned (.refl held)).mentions hm

theorem findEnumValue (h : Changes region targets a a') (source : String) (t : EnumTypeId)
    (name : Span) :
    a'.program.findEnumValue source t name = a.program.findEnumValue source t name := by
  simp only [Program.findEnumValue, h.enumTypes, h.enumValues]

/-! ## Runs of changes -/

section

variable {α : Type} {f : Analysis → α → Except Fault Analysis} {xs : List α}
variable {regions : α → ExprId → Prop} {each : α → Target → Prop}

/-- A run that leaves each step's work done, and `K` as it was. -/
theorem run_keeping {before after : α → Analysis → Prop} (K : Analysis → Prop)
    (hp : Program.Pruned p₀ a.program)
    (step : ∀ x ∈ xs, ∀ b b', Program.Pruned p₀ b.program → before x b → f b x = .ok b' →
      Changes (regions x) (each x) b b' ∧ after x b')
    (ready : xs.Pairwise fun x y => ∀ b b', Program.Pruned p₀ b.program →
      Changes (regions x) (each x) b b' → before y b → before y b')
    (keep : xs.Pairwise fun x y => ∀ b b', Program.Pruned p₀ b.program →
      Changes (regions y) (each y) b b' → after x b → after x b')
    (keeps : ∀ x ∈ xs, ∀ b b', Program.Pruned p₀ b.program →
      Changes (regions x) (each x) b b' → K b → K b')
    (start : ∀ x ∈ xs, before x a) (hK : K a) (run : xs.foldlM f a = .ok a') :
    Changes (fun e => ∃ x ∈ xs, regions x e) (fun t => ∃ x ∈ xs, each x t) a a' ∧
      (∀ x ∈ xs, after x a') ∧ K a' := by
  induction xs generalizing a K with
  | nil =>
    obtain rfl := foldlM_nil_eq_ok.1 run
    exact ⟨.refl a, by simp, hK⟩
  | cons x xs ih =>
    obtain ⟨b, hb, hrest⟩ := foldlM_cons_eq_ok.1 run
    obtain ⟨hchanges, hafter⟩ := step x List.mem_cons_self a b hp (start x List.mem_cons_self) hb
    obtain ⟨hready, hreadyRest⟩ := List.pairwise_cons.1 ready
    obtain ⟨hkeep, hkeepRest⟩ := List.pairwise_cons.1 keep
    -- what the first step has done is kept by the rest as `K` is
    obtain ⟨hchangesRest, hafterRest, hKrest, hfirst⟩ := ih (fun b => K b ∧ after x b)
      (hchanges.pruned hp) (fun y hy => step y (List.mem_cons_of_mem _ hy)) hreadyRest hkeepRest
      (fun y hy b b' hpb hc hb => ⟨keeps y (List.mem_cons_of_mem _ hy) b b' hpb hc hb.1,
        hkeep y hy b b' hpb hc hb.2⟩)
      (fun y hy => hready y hy a b hp hchanges (start y (List.mem_cons_of_mem _ hy)))
      ⟨keeps x List.mem_cons_self a b hp hchanges hK, hafter⟩ hrest
    refine ⟨?_, List.forall_mem_cons.2 ⟨hfirst, hafterRest⟩, hKrest⟩
    refine Changes.trans (hchanges.mono (fun e he => ⟨x, List.mem_cons_self, he⟩)
      fun t ht => ⟨x, List.mem_cons_self, ht⟩) (hchangesRest.mono ?_ ?_)
    · rintro e ⟨y, hy, he⟩
      exact ⟨y, List.mem_cons_of_mem _ hy, he⟩
    · rintro t ⟨y, hy, ht⟩
      exact ⟨y, List.mem_cons_of_mem _ hy, ht⟩

/-- **A run whose steps keep out of each other's way leaves the work of
all of them done.** -/
theorem run (regions : α → ExprId → Prop) (each : α → Target → Prop)
    (before after : α → Analysis → Prop) (hp : Program.Pruned p₀ a.program)
    (step : ∀ x ∈ xs, ∀ b b', Program.Pruned p₀ b.program → before x b → f b x = .ok b' →
      Changes (regions x) (each x) b b' ∧ after x b')
    (ready : xs.Pairwise fun x y => ∀ b b', Program.Pruned p₀ b.program →
      Changes (regions x) (each x) b b' → before y b → before y b')
    (keep : xs.Pairwise fun x y => ∀ b b', Program.Pruned p₀ b.program →
      Changes (regions y) (each y) b b' → after x b → after x b')
    (start : ∀ x ∈ xs, before x a) (run : xs.foldlM f a = .ok a') :
    Changes (fun e => ∃ x ∈ xs, regions x e) (fun t => ∃ x ∈ xs, each x t) a a' ∧
      ∀ x ∈ xs, after x a' := by
  obtain ⟨hchanges, hafter, -⟩ := run_keeping (fun _ => True) hp step ready keep
    (fun _ _ _ _ _ _ _ => trivial) start trivial run
  exact ⟨hchanges, hafter⟩

end

end Changes

/-! ## Single changes -/

namespace Changes

variable {a a' : Analysis} {e : ExprId} {x : Expr}

/-- What is mentioned away from an expression stays mentioned when the
expression is changed. -/
theorem mentions_modify {p p' : Program} {r : ExprId} {t : Target}
    (hget : ∀ c, c ≠ e → p'.exprs.get? c = p.exprs.get? c) (harguments : p'.arguments = p.arguments)
    (hself : p.Mentions e t → p'.Mentions e t) (h : p.Mentions r t) : p'.Mentions r t := by
  obtain ⟨c, y, hu, hy, hk⟩ := h
  induction hu using Relation.ReflTransGen.head_induction_on with
  | refl =>
    by_cases hc : c = e
    · exact hc ▸ hself ⟨e, y, .refl, hc ▸ hy, hk⟩
    · exact ⟨c, y, .refl, (hget c hc).trans hy, hk⟩
  | @head r d hrd hdc ih =>
    by_cases hr : r = e
    · exact hr ▸ hself ⟨c, y, .head (hr ▸ hrd) hdc, hy, hk⟩
    · have hops : p'.operandsAt r = p.operandsAt r := by
        simp only [Program.operandsAt, Table.get, hget r hr, Program.operands_congr harguments]
      exact ih.of_operand (hops ▸ hrd)

/-- One expression is changed, but not its kind. -/
theorem modify_expr {f : Expr → Expr} (hx : a.program.exprs.get? e = some x)
    (hm : x.Matures (f x)) (hkind : (f x).kind = x.kind) :
    Changes (· = e) (fun _ => False) a
      { a with program := { a.program with exprs := a.program.exprs.modify e f } } where
  exprs c hc := Table.get?_modify_of_ne hc
  matures c y hy := by
    simp only [Table.get?_modify]
    split
    · next hc =>
      subst hc
      rw [hx] at hy
      obtain rfl := Option.some.inj hy
      exact ⟨f x, by rw [hx]; rfl, hm⟩
    · exact ⟨y, hy, .refl y⟩
  values c y v hy hk := by
    simp only [Table.get?_modify] at hy
    split at hy
    · next hc =>
      rw [hc, hx] at hy
      obtain rfl := Option.some.inj hy
      exact .inl ⟨x, hc ▸ hx, hkind ▸ hk⟩
    · exact .inl ⟨y, hy, hk⟩
  size := by simp
  vars _ _ := rfl
  functions _ _ := rfl
  parameters _ _ := rfl
  keeps r t h := by
    obtain ⟨c, y, hu, hy, hk⟩ := h
    have hget : ∀ d, ((a.program.exprs.modify e f).get? d).map Expr.kind =
        (a.program.exprs.get? d).map Expr.kind := by
      intro d
      rw [Table.get?_modify]
      split
      · next hd => rw [hd, hx, Option.map_some, Option.map_some, Option.map_some, hkind]
      · rfl
    refine Program.mentions_of_kinds hget rfl ⟨c, y, hu, hy, hk⟩
  rest := rfl
  queue := .refl _

theorem setExprType (hx : a.program.exprs.get? e = some x) (type : Ty) :
    Changes (· = e) (fun _ => False) a { a with program := a.program.setExprType e type } :=
  modify_expr hx ⟨rfl, fun h => h, .inl rfl⟩ rfl

/-- A name, or a field, that mentions nothing becomes a value. -/
theorem setKind (hx : a.program.exprs.get? e = some x) (hopen : x.kind.isOpen = true)
    (hnone : ∀ t, ¬ a.program.Mentions e t) {v : EnumValueId}
    (hv : v.raw < a.program.enumValues.size) :
    Changes (· = e) (fun _ => False) a { a with program := a.program.setKind e (.enumValue v) } where
  exprs c hc := Table.get?_modify_of_ne hc
  matures c y hy := by
    simp only [Program.setKind, Table.get?_modify]
    split
    · next hc =>
      subst hc
      rw [hx] at hy
      obtain rfl := Option.some.inj hy
      exact ⟨{ x with kind := .enumValue v }, by rw [hx]; rfl, rfl, fun h => h, .inr ⟨hopen, v, rfl⟩⟩
    · exact ⟨y, hy, .refl y⟩
  values c y w hy hk := by
    simp only [Program.setKind, Table.get?_modify] at hy
    split at hy
    · next hc =>
      rw [hc, hx] at hy
      obtain rfl := Option.some.inj hy
      cases hk
      exact .inr hv
    · exact .inl ⟨y, hy, hk⟩
  size := by simp [Program.setKind]
  vars _ _ := rfl
  functions _ _ := rfl
  parameters _ _ := rfl
  keeps r t := mentions_modify (fun c hc => Table.get?_modify_of_ne hc) rfl
    fun h => absurd h (hnone t)
  rest := rfl
  queue := .refl _

theorem report {d : Diagnostic} (h : a.report e d = .ok a') :
    Changes (· = e) (fun _ => False) a a' := by
  obtain ⟨x, hx, hgrows, -, hprogram⟩ := Analysis.report_eq_ok h
  rcases hprogram with hsame | ⟨-, hflag, -⟩
  · have hrefl : Changes (· = e) (fun _ => False) a ⟨a.program, a.queue⟩ := refl a
    obtain ⟨p', q'⟩ := a'
    simp only at hsame hgrows
    subst hsame
    exact { hrefl with queue := hgrows }
  · obtain ⟨p', q'⟩ := a'
    simp only at hflag hgrows
    subst hflag
    exact
      { modify_expr (f := ({ · with flagged := true })) hx ⟨rfl, fun _ => rfl, .inl rfl⟩ rfl with
        queue := hgrows }

end Changes

end FrontEnd
