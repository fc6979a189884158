import FrontEnd.Proofs.EnumHints
import FrontEnd.Proofs.EnumSlices
import FrontEnd.Proofs.LayoutAgain
import FrontEnd.Proofs.Reported
/-!
# FrontEnd — names of enum values

A value of an enum type is expected of what initializes a variable that
is declared with the type, and of what is assigned where the type is
(`ExpectsEnum`). There a name that nothing declares becomes the value of
that name, and what selects a name from an enum type does so anywhere.
All that are asked for a value and have one become it, and nothing else
does (`resolve_enumValues`).
-/

namespace FrontEnd

namespace Program

/-- The statement that begins with the expression expects a value of the
enum type there. -/
inductive ExpectsEnum (p : Program) (e : ExprId) (t : EnumTypeId) : Prop
  | declared {s : StmtId} {v : VariableId} {type : ExprId} {span : Span}
      (hs : p.stmts.get s = .ok ⟨.variable v (some type) (some e), span⟩)
      (named : p.named type = .enum t) : ExpectsEnum p e t
  | assigned {s : StmtId} {target : ExprId} {span : Span}
      (hs : p.stmts.get s = .ok ⟨.assign target e, span⟩) (recorded : p.recorded target = .enum t) :
      ExpectsEnum p e t

variable {p p' p₀ : Program} {e c : ExprId} {t t' : EnumTypeId} {s : StmtId} {x y : Expr}
variable {name name' : Span} {source : String} {v : EnumValueId}

/-- One type is expected of an expression. -/
theorem ExpectsEnum.unique (once : p.UsedOnce) (h : p.ExpectsEnum e t) (h' : p.ExpectsEnum e t') :
    t = t' := by
  have init : ∀ v type, e ∈ (StmtKind.variable v (some type) (some e)).values := by
    simp [StmtKind.values]
  have rhs : ∀ target, e ∈ (StmtKind.assign target e).values := by simp [StmtKind.values]
  cases h with
  | declared hs named =>
    rw [Table.get_eq_ok] at hs
    cases h' with
    | declared hs' named' =>
      cases once.stmt_eq_of_values hs (Table.get_eq_ok.1 hs') (init _ _) (init _ _)
      exact Ty.enum.inj (named.symm.trans named')
    | assigned hs' =>
      cases once.stmt_eq_of_values hs (Table.get_eq_ok.1 hs') (init _ _) (rhs _)
  | assigned hs recorded =>
    rw [Table.get_eq_ok] at hs
    cases h' with
    | declared hs' =>
      cases once.stmt_eq_of_values hs (Table.get_eq_ok.1 hs') (rhs _) (init _ _)
    | assigned hs' recorded' =>
      cases once.stmt_eq_of_values hs (Table.get_eq_ok.1 hs') (rhs _) (rhs _)
      exact Ty.enum.inj (recorded.symm.trans recorded')

/-- Only names and fields ask for values. -/
theorem Asks.isOpen (h : p.Asks p.ExpectsEnum e x t name) : x.kind.isOpen = true := by
  cases h with
  | field hk | name hk => rw [hk]; rfl

/-- One value is asked for at an expression. -/
theorem Asks.unique (once : p.UsedOnce) (h : p.Asks p.ExpectsEnum e x t name)
    (h' : p.Asks p.ExpectsEnum e x t' name') : t = t' ∧ name = name' := by
  cases h with
  | field hk named =>
    cases h' with
    | field hk' named' =>
      rw [hk] at hk'
      obtain ⟨rfl, rfl⟩ := ExprKind.field.inj hk'
      rw [named] at named'
      exact ⟨Ty.enum.inj named', rfl⟩
    | name hk' =>
      rw [hk] at hk'
      cases hk'
  | name hk expected =>
    cases h' with
    | field hk' =>
      rw [hk] at hk'
      cases hk'
    | name _ expected' => exact ⟨expected.unique once expected', rfl⟩

/-- To resolve a name makes no value of it. -/
theorem boundKind_ne_enumValue {visible : List Target} (hx : x.kind.isReference = false) :
    p.boundKind source visible x ≠ .enumValue v := by
  by_cases hk : x.kind = .identifier
  · simp only [boundKind, hk, means]
    split
    · simp
    · cases visible.find? fun t => (p.nameAt t).read source == x.span.read source with
      | none => simp
      | some target => cases target <;> simp [Target.exprKind]
  · rw [boundKind_of_ne hk]
    intro hv
    rw [hv] at hx
    cases hx

theorem NamesBound.ne_enumValue (bound : NamesBound p source p') (regular : p.Regular)
    (once : p.UsedOnce) (unresolved : ∀ e x, p.exprs.get? e = some x → x.kind.isReference = false)
    (he : p.InValue e) (hy : p'.exprs.get? e = some y) : y.kind ≠ .enumValue v := by
  obtain ⟨s, -, r, hr, hu⟩ := he
  have hslot := mem_slotsAt_iff.2 (.inl hr)
  obtain ⟨place, hplace, rfl⟩ := regular.exists_place hslot
  obtain ⟨x, hx⟩ := Table.exists_get?_of_lt (bound.binding.size ▸ Table.lt_size_of_get? hy)
  rw [bound.get?_of_under regular once hplace hslot hu hx] at hy
  obtain rfl := Option.some.inj hy
  exact boundKind_ne_enumValue (unresolved e x hx)

/-- The type of a value of an enum is the enum type that it belongs to. -/
theorem typeOf_enumValue (hx : p.exprs.get? e = some x) (hk : x.kind = .enumValue v) :
    p.typeOf e = .ok ((p.enumTypeOf v).elim .error .enum) := by
  simp only [typeOf, exprDepth, typeOfWithin, Table.get_eq_ok.2 hx, ok_bind, hk]
  rfl

end Program

open Analysis

/-- What resolving types makes of a node that was `y` when names had been
resolved. -/
structure Analysis.NamesValue (a : Analysis) (source : String) (e : ExprId) (y x : Expr) : Prop where
  /-- It is a value if and only if it asks for one that there is. -/
  named : (∃ v, x.kind = .enumValue v) ↔ ∃ t name,
    a.program.Asks a.program.ExpectsEnum e y t name ∧ a.program.HasValue source t name
  /-- It is the first value that it asks for. -/
  first : ∀ v t name, x.kind = .enumValue v → a.program.Asks a.program.ExpectsEnum e y t name →
    a.program.FirstValue source t name v ∧ (∀ t', a.program.IsValueOf v t' → t' = t) ∧ x.type = .enum t
  /-- A field that its enum type has no value for is left, and flagged
  unless the queue refuses to report it. -/
  left : ∀ subject name t, y.kind = .field subject name → a.program.named subject = .enum t →
    ¬ a.program.HasValue source t name → x.kind = y.kind ∧
      (x.flagged = true ∨ a.queue.refuses (.ofCode .unknownEnumValue x.span) = true)

variable {source : String} {p p₁ : Program} {a : Analysis} {queue : Queue} {L : List StmtId}
variable {s : StmtId} {e c : ExprId} {t : EnumTypeId} {expected : Option Origin} {x y : Expr}
variable {name : Span} {v : EnumValueId}

/-! ## What statements expect -/

section

variable (done : a.TypesDone source p₁ L) (regular : p₁.Regular)

include done regular

/-- What the task of a value expects is what the statement expects. -/
theorem expectsEnum_of_task (hx : .value e expected ∈ p₁.tasks s)
    (heq : expected.map a.program.typeFrom = some (.enum t)) : a.program.ExpectsEnum e t := by
  rw [← Program.tasks_congr done.pruned.frame] at hx
  have declarations := (regular.congr done.pruned.frame done.pruned.held).declarations
  obtain ⟨⟨kind, span⟩, hs⟩ := Program.exists_stmt_of_mem_tasks hx
  by_cases hfunction : ∃ f, kind = .function f
  · obtain ⟨f, rfl⟩ := hfunction
    exact absurd hx (Program.not_value_of_function hs (declarations s _ hs))
  have htasks := Program.tasks_eq hs fun f hf => hfunction ⟨f, hf⟩
  rw [htasks] at hx
  obtain ⟨origin, rfl, hfrom⟩ := Option.map_eq_some_iff.1 heq
  cases kind with
  | «variable» v type init =>
    cases type <;> cases init <;> simp [StmtKind.tasks] at hx
    obtain ⟨rfl, rfl⟩ := hx
    next type =>
      have hname : .name type ∈ a.program.tasks s := by
        rw [htasks]
        simp [StmtKind.tasks]
      exact .declared (Table.get_eq_ok.2 hs) ((done.name hname).named_eq.symm.trans hfrom)
  | assign target rhs =>
    simp [StmtKind.tasks] at hx
    obtain ⟨rfl, rfl⟩ := hx
    exact .assigned (Table.get_eq_ok.2 hs) hfrom
  | nest head body =>
    cases head <;> simp [StmtKind.tasks] at hx <;> (obtain ⟨-, rfl⟩ := hx; cases hfrom)
  | returnValue value => cases value <;> simp [StmtKind.tasks] at hx
  | _ => simp [StmtKind.tasks] at hx

omit regular in
/-- What a statement expects is what the task of the value does. -/
theorem exists_task_of_expectsEnum (h : a.program.ExpectsEnum e t) :
    ∃ s expected, .value e expected ∈ p₁.tasks s ∧
      expected.map a.program.typeFrom = some (.enum t) := by
  obtain ⟨hs, named⟩ | ⟨hs, recorded⟩ := h
  · next s v type span =>
    have htasks := Program.tasks_eq (Table.get_eq_ok.1 hs) (by simp)
    have hname : .name type ∈ a.program.tasks s := by
      rw [htasks]
      simp [StmtKind.tasks]
    refine ⟨s, some (.recorded type), ?_, congrArg some ((done.name hname).named_eq.trans named)⟩
    rw [← Program.tasks_congr done.pruned.frame, htasks]
    simp [StmtKind.tasks]
  · next s target span =>
    refine ⟨s, some (.recorded target), ?_, congrArg some recorded⟩
    rw [← Program.tasks_congr done.pruned.frame, Program.tasks_eq (Table.get_eq_ok.1 hs) (by simp)]
    simp [StmtKind.tasks]

end

/-! ## What has been made of names -/

namespace Resolution

variable (went : Resolution source p queue p₁ L a)
include went

theorem chosen : a.Chosen source p₁ a.program.ExpectsEnum :=
  resolveTypes_chosen went.named.regular went.named.usedOnce went.named.inScope
    went.named.regular.operands went.named.isScoped went.named.unflagged went.types
    fun _ _ _ _ hx heq => expectsEnum_of_task went.done went.named.regular hx heq

/-- What names an enum type has done so when names were resolved. -/
theorem named_iff : p₁.named c = .enum t ↔ a.program.named c = .enum t :=
  ⟨went.changes.matured.named, went.chosen.named⟩

/-- What has been asked for before is asked for in the end. -/
theorem asks (h : p₁.Asks a.program.ExpectsEnum e y t name) :
    a.program.Asks a.program.ExpectsEnum e y t name := by
  cases h with
  | field hk named => exact .field hk (went.named_iff.1 named)
  | name hk expected => exact .name hk expected

theorem picks (hy : p₁.exprs.get? e = some y) (hx : a.program.exprs.get? e = some x) :
    p₁.Picks source a.program.ExpectsEnum e y x := by
  obtain ⟨y', hy', picks⟩ := went.chosen.nodes e x hx
  obtain rfl := Option.some.inj (hy.symm.trans hy')
  exact picks

/-- **What has become a value is the first that was asked for.** -/
theorem kind_cases (hy : p₁.exprs.get? e = some y) (hx : a.program.exprs.get? e = some x) :
    x.kind = y.kind ∨ ∃ t name v, x.kind = .enumValue v ∧
      a.program.Asks a.program.ExpectsEnum e y t name ∧ a.program.FirstValue source t name v := by
  refine (went.picks hy hx).kind.imp_right ?_
  rintro ⟨t, name, v, hv, asks, found⟩
  rw [← Program.findEnumValue_congr went.chosen.frame] at found
  exact ⟨t, name, v, hv, went.asks asks, Program.firstValue_of_findEnumValue found⟩

/-- What is left of a name where a value is expected is none. -/
theorem hint_done (hr : .value e expected ∈ p₁.tasks s) :
    a.HintDone source (expected.map a.program.typeFrom) e := by
  obtain ⟨ss, -, hint⟩ := went.value_done hr
  have hchanges := Changes.of_unsettle a p₁ ss
  intro x t hx hk heq
  rw [← hchanges.findEnumValue]
  exact hint x t hx hk (by rw [hchanges.map_typeFrom fun _ _ _ _ hf => hf]; exact heq)

/-- **What asks for a value that there is does not stay what it is.** -/
theorem kind_ne (he : a.program.InValue e) (hx : a.program.exprs.get? e = some x)
    (hspan : x.span = y.span) (asks : a.program.Asks a.program.ExpectsEnum e y t name)
    (has : a.program.HasValue source t name) : x.kind ≠ y.kind := by
  intro hkind
  cases asks with
  | field hk named =>
    obtain ⟨z, hz, hzk⟩ := Program.named_eq_enum.1 named
    obtain ⟨hnone, -⟩ := went.field_done he hx _ _ z t (hkind.trans hk) hz hzk
    exact Program.not_hasValue_of_findEnumValue hnone has
  | name hk expects =>
    obtain ⟨s, expected, htask, hfrom⟩ := exists_task_of_expectsEnum went.done expects
    have hnone := went.hint_done htask x t hx (hkind.trans hk) hfrom
    rw [hspan] at hnone
    exact Program.not_hasValue_of_findEnumValue hnone has

/-- What the pass takes from under a node names the type that a value has
been selected from there. -/
theorem operand_or_named (hc : c ∈ p₁.operandsAt e) :
    c ∈ a.program.operandsAt e ∨ ∃ t, p₁.named c = .enum t := by
  have hheld := went.named.regular.operands
  obtain ⟨y, hy⟩ := Table.exists_get?_of_lt (Program.lt_size_of_mem_operandsAt hc)
  obtain ⟨x, hx, -⟩ := went.changes.matured.exprs e y hy
  have hops := hheld.operands_eq hy
  rcases went.kind_cases hy hx with hkind | ⟨t, _, _, _, ⟨hk, named⟩ | ⟨hk, _⟩, _⟩
  · rw [← Program.operands_congr went.changes.arguments, ← hkind,
      went.done.pruned.held.operands_eq hx] at hops
    exact .inl (Except.ok.inj hops ▸ hc)
  · rw [Program.operandsAt_field hy hk] at hc
    obtain rfl := List.mem_singleton.1 hc
    exact .inr ⟨t, went.named_iff.2 named⟩
  · rw [Program.operandsAt_leaf hy (by rw [hk]; rfl)] at hc
    cases hc

/-- What has lain under a value does so still, unless it names the type
that a value has been selected from. -/
theorem inValue_or_named (he : p₁.InValue e) :
    a.program.InValue e ∨ ∃ t, p₁.named e = .enum t := by
  have hframe := went.done.pruned.frame
  obtain ⟨s, hs, r, hr, hu⟩ := he
  induction hu with
  | refl =>
    exact .inl ⟨s, Program.reachable_congr hframe ▸ hs, r, Program.valuesAt_congr hframe ▸ hr, .refl⟩
  | tail _ hc ih =>
    rcases ih with hd | ⟨t, named⟩
    · exact (went.operand_or_named hc).imp_left hd.operand
    · -- what names a type has no operands
      obtain ⟨y, hy, hk⟩ := Program.named_eq_enum.1 named
      rw [Program.operandsAt_leaf hy (by rw [hk]; rfl)] at hc
      cases hc

theorem declarations : a.program.checkDeclarations = .ok () := by
  rw [← Program.checkDeclarations_frame, went.frame, Program.checkDeclarations_frame]
  exact (Program.validate_eq_ok.1 went.valid).2.1

/-- **The type recorded for a value is the enum type it belongs to.** -/
theorem enumValue_type (he : a.program.InValue e) (hx : a.program.exprs.get? e = some x)
    (hk : x.kind = .enumValue v) (hv : a.program.IsValueOf v t) : x.type = .enum t := by
  obtain ⟨ss, x', hx', htype, -⟩ := went.node_done he
  obtain rfl := Option.some.inj (hx.symm.trans hx')
  rw [Program.typeOf_enumValue hx' hk] at htype
  have howner : (a.unsettle p₁ ss).program.enumTypeOf v = a.program.enumTypeOf v := rfl
  rw [howner, Program.enumTypeOf_eq went.declarations hv] at htype
  exact (Except.ok.inj htype).symm

/-- A field that its enum type has no value for is left, and flagged unless
the queue refuses to report it. -/
theorem field_left {subject : ExprId} (he : a.program.InValue e) (hy : p₁.exprs.get? e = some y)
    (hx : a.program.exprs.get? e = some x) (hk : y.kind = .field subject name)
    (named : a.program.named subject = .enum t) (none : ¬ a.program.HasValue source t name) :
    x.kind = y.kind ∧
      (x.flagged = true ∨ a.queue.refuses (.ofCode .unknownEnumValue x.span) = true) := by
  have once := went.done.pruned.usedOnce went.named.usedOnce
  have hkind : x.kind = y.kind := (went.kind_cases hy hx).resolve_right
    fun ⟨t', name', v, _, asks, found⟩ => by
      obtain ⟨rfl, rfl⟩ := asks.unique once (.field hk named)
      exact none found.hasValue
  obtain ⟨z, hz, hzk⟩ := Program.named_eq_enum.1 named
  obtain ⟨-, ⟨x', hx', hf⟩ | hrefuses⟩ := went.field_done he hx subject name z t (hkind.trans hk) hz hzk
  · obtain rfl := Option.some.inj (hx.symm.trans hx')
    exact ⟨hkind, .inl hf⟩
  · exact ⟨hkind, .inr hrefuses⟩

theorem exists_get? (he : p₁.InValue e) : ∃ y, p₁.exprs.get? e = some y := by
  obtain ⟨s, -, r, hr, hu⟩ := he
  have hlt := went.slots s r (Program.mem_slotsAt_iff.2 (.inl hr))
  have hle := Program.le_of_under went.named.regular.operands.older hu
  exact Table.exists_get?_of_lt (Nat.lt_of_le_of_lt hle hlt)

/-- **What has been a value before the types were resolved is named where
it asks for it.** -/
theorem namesValue (he : p₁.InValue e) (hy : p₁.exprs.get? e = some y)
    (hx : a.program.exprs.get? e = some x) (hne : ∀ v, y.kind ≠ .enumValue v) :
    a.NamesValue source e y x := by
  have once := went.done.pruned.usedOnce went.named.usedOnce
  rcases went.inValue_or_named he with he | ⟨t, named⟩
  · refine ⟨⟨?_, ?_⟩, fun v t name hv asks => ?_, fun subject name t hk named none =>
      went.field_left he hy hx hk named none⟩
    · rintro ⟨v, hv⟩
      rcases went.kind_cases hy hx with hkind | ⟨t, name, _, _, asks, found⟩
      · exact absurd (hkind.symm.trans hv) (hne v)
      · exact ⟨t, name, asks, found.hasValue⟩
    · rintro ⟨t, name, asks, has⟩
      have hkind := went.kind_ne he hx (went.picks hy hx).span asks has
      obtain ⟨-, -, v, hv, -⟩ := (went.kind_cases hy hx).resolve_left hkind
      exact ⟨v, hv⟩
    · obtain ⟨t', name', v', hv', asks', found⟩ :=
        (went.kind_cases hy hx).resolve_left fun hkind => hne v (hkind.symm.trans hv)
      obtain ⟨rfl, rfl⟩ := asks.unique once asks'
      obtain rfl := ExprKind.enumValue.inj (hv.symm.trans hv')
      exact ⟨found, fun t' => found.isValue.unique went.declarations,
        went.enumValue_type he hx hv found.isValue⟩
  · -- what names a type asks for nothing, and stays as it is
    obtain ⟨x', hx', hkx⟩ := Program.named_eq_enum.1 (went.named_iff.1 named)
    obtain rfl := Option.some.inj (hx.symm.trans hx')
    obtain ⟨y', hy', hky⟩ := Program.named_eq_enum.1 named
    obtain rfl := Option.some.inj (hy.symm.trans hy')
    refine ⟨⟨?_, ?_⟩, fun v t name hv => ?_, fun subject name t hk => ?_⟩
    · rintro ⟨v, hv⟩
      simp [hkx] at hv
    · rintro ⟨t, name, asks, -⟩
      have hopen := asks.isOpen
      rw [hky] at hopen
      cases hopen
    · simp [hkx] at hv
    · simp [hky] at hk

end Resolution

namespace Program

/-- **Enum values are named exactly where they are asked for.** Whatever
has been built with one place for each expression, when its resolution
succeeds it has first bound the names, and made no enum value of them.
Then each node of a value that asked for an enum value has become it, and
no other node has. -/
theorem resolve_enumValues {steps : List Step} {written : String}
    (built : Program.build steps = .ok (p, written)) (once : p.UsedOnce) (queue : Queue)
    (source : String) (h : Analysis.resolve ⟨p, queue⟩ source = .ok a) :
    ∃ b, (Analysis.determineMain ⟨p, queue⟩ source).resolveNames source = .ok b ∧
      b.resolveTypes source = .ok a ∧
      ∀ e, p.InValue e → ∃ y x, b.program.exprs.get e = .ok y ∧ a.program.exprs.get e = .ok x ∧
        (∀ v, y.kind ≠ .enumValue v) ∧ a.NamesValue source e y x := by
  have fresh := build_fresh built
  obtain ⟨p₁, L, went⟩ := resolve_stages fresh once h
  obtain ⟨regular, hexprs, hops, -⟩ := fresh.determineMain queue source
  have hframe := determineMain_frame ⟨p, queue⟩ source
  refine ⟨⟨p₁, (Analysis.determineMain ⟨p, queue⟩ source).queue⟩, ?_, went.types, fun e he => ?_⟩
  · simp only [resolveNames, went.binds]
  rw [← inValue_congr hframe hops] at he
  have he₁ := (inValue_congr went.bound.binding.frame went.bound.binding.operandsAt).2 he
  obtain ⟨y, hy⟩ := went.exists_get? he₁
  obtain ⟨x, hx, -⟩ := went.changes.matured.exprs e y hy
  have hne := fun v => went.bound.ne_enumValue (v := v) regular (once.congr hframe hops)
    (fun e x hx => (fresh.unresolved e x (hexprs ▸ hx)).1) he hy
  exact ⟨y, x, Table.get_eq_ok.2 hy, Table.get_eq_ok.2 hx, hne, went.namesValue he₁ hy hx hne⟩

/-- A name becomes the value that the type of its variable has, behind a
type without values; an operand of what is assigned does not, and neither
does a field that there is no value for. -/
theorem resolve_enumValues_hint :
    Succeeds (Program.build
        [.enumType "Size" [], .enumType "Color" ["Red", "Blue"],
          .identifier "Color", .identifier "Blue", .variable "c" (some ⟨0⟩) (some ⟨1⟩),
          .identifier "c", .identifier "Red", .unary .neg ⟨3⟩, .assign ⟨2⟩ ⟨4⟩,
          .identifier "Color", .field ⟨5⟩ "Green", .output ⟨6⟩])
      fun (p, source) => p.UsedOnce ∧ Succeeds (Analysis.resolve (.start {} p) source) fun a =>
        (∃ y x, a.program.exprs.get ⟨1⟩ = .ok x ∧ a.NamesValue source ⟨1⟩ y x ∧
          x.kind = .enumValue ⟨1⟩ ∧ x.type = .enum ⟨1⟩) ∧
        (∃ y x, a.program.exprs.get ⟨3⟩ = .ok x ∧ a.NamesValue source ⟨3⟩ y x ∧
          x.kind = .identifier) ∧
        ∃ y x, a.program.exprs.get ⟨6⟩ = .ok x ∧ a.NamesValue source ⟨6⟩ y x ∧ x.flagged = true := by
  have facts : Succeeds (Program.build
        [.enumType "Size" [], .enumType "Color" ["Red", "Blue"],
          .identifier "Color", .identifier "Blue", .variable "c" (some ⟨0⟩) (some ⟨1⟩),
          .identifier "c", .identifier "Red", .unary .neg ⟨3⟩, .assign ⟨2⟩ ⟨4⟩,
          .identifier "Color", .field ⟨5⟩ "Green", .output ⟨6⟩])
      fun (p, source) => p.UsedOnce ∧
        (p.reachable = [⟨0⟩, ⟨1⟩, ⟨2⟩, ⟨3⟩, ⟨4⟩] ∧ p.valuesAt ⟨2⟩ = [⟨1⟩] ∧
          p.valuesAt ⟨3⟩ = [⟨2⟩, ⟨4⟩] ∧ p.operandsAt ⟨4⟩ = [⟨3⟩] ∧ p.valuesAt ⟨4⟩ = [⟨6⟩]) ∧
        Succeeds (Analysis.resolve (.start {} p) source) fun a =>
          Succeeds (a.program.exprs.get ⟨1⟩) (fun x => x.kind = .enumValue ⟨1⟩ ∧ x.type = .enum ⟨1⟩) ∧
          Succeeds (a.program.exprs.get ⟨3⟩) (fun x => x.kind = .identifier) ∧
          Succeeds (a.program.exprs.get ⟨6⟩) (fun x => x.flagged = true) := by
    decide +kernel
  obtain ⟨⟨p, source⟩, built, once, ⟨hreach, hfirst, hsecond, hops, hthird⟩, a, h,
    ⟨x₁, hx₁, hvalue⟩, ⟨x₃, hx₃, hname⟩, x₆, hx₆, hflagged⟩ := facts
  obtain ⟨b, -, -, named⟩ := resolve_enumValues built once _ source h
  have node : ∀ e x, p.InValue e → a.program.exprs.get e = .ok x → ∃ y, a.NamesValue source e y x := by
    intro e x he hx
    obtain ⟨y, x', -, hx', -, hnames⟩ := named e he
    rw [hx] at hx'
    exact ⟨y, Except.ok.inj hx' ▸ hnames⟩
  obtain ⟨y₁, h₁⟩ := node ⟨1⟩ x₁ ⟨⟨2⟩, by simp [hreach], ⟨1⟩, by simp [hfirst], .refl⟩ hx₁
  obtain ⟨y₃, h₃⟩ := node ⟨3⟩ x₃
    ⟨⟨3⟩, by simp [hreach], ⟨4⟩, by simp [hsecond], .tail .refl (by simp [hops])⟩ hx₃
  obtain ⟨y₆, h₆⟩ := node ⟨6⟩ x₆ ⟨⟨4⟩, by simp [hreach], ⟨6⟩, by simp [hthird], .refl⟩ hx₆
  exact ⟨(p, source), built, once, a, h, ⟨y₁, x₁, hx₁, h₁, hvalue⟩, ⟨y₃, x₃, hx₃, h₃, hname⟩,
    y₆, x₆, hx₆, h₆, hflagged⟩

end Program

end FrontEnd
