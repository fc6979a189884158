import FrontEnd.Proofs.NameEdits
import FrontEnd.Proofs.Positions
import FrontEnd.Proofs.TypeEdits
import FrontEnd.Proofs.Typing
import FrontEnd.Proofs.VariableOrder
/-!
# FrontEnd — what has no type yet

After resolution every declaration has a type, if only an error, and so
has every expression in the place of a type. Of the values only those
have none that take their type, as it is, from a variable that is part of
a cycle and was still waiting when the value was gone through
(`resolve_unset`).
-/

namespace FrontEnd

open Relation Analysis

/-! ## What nodes name -/

/-- What a node of the kind names, if anything: a valid type, or a value
of some enum type. -/
def Program.KindValid (p : Program) : ExprKind → Prop
  | .typeName type => type.isInvalid = false
  | .enumValue v => ∃ t r, p.enumTypes.get? t = some r ∧ v ∈ r.values.ids
  | _ => True

/-- All nodes name what is valid. -/
def Program.KindsValid (p : Program) : Prop := ∀ e x, p.exprs.get? e = some x → p.KindValid x.kind

theorem valid_of_ofKeyword? {word : String} {t : Ty} (h : Ty.ofKeyword? word = some t) :
    t.isInvalid = false := by
  unfold Ty.ofKeyword? at h
  split_ifs at h <;> cases h <;> rfl

namespace Program

variable {source : String} {n : Nat} {p p' : Program}

theorem KindValid.congr {kind : ExprKind} (valid : p.KindValid kind) (h : p'.frame = p.frame) :
    p'.KindValid kind := by
  have htypes : p'.enumTypes = p.enumTypes := (congrArg Program.enumTypes h :)
  cases kind with
  | typeName type => exact valid
  | enumValue v =>
    obtain ⟨t, r, hr, hv⟩ := valid
    exact ⟨t, r, htypes ▸ hr, hv⟩
  | _ => trivial

/-- What a name stands for is valid. -/
theorem valid_of_meaning {scope : SymbolTableId} {name : Span} {kind : ExprKind}
    (h : p.meaning source scope name = .ok (some kind)) : p.KindValid kind := by
  unfold meaning at h
  split at h
  · next type hkeyword =>
    cases pure_eq_ok.1 h
    exact valid_of_ofKeyword? hkeyword
  · obtain ⟨found, -, h⟩ := bind_eq_ok.1 h
    obtain ⟨symbol, -, rfl⟩ := Option.map_eq_some_iff.1 (pure_eq_ok.1 h)
    cases symbol.target <;> first | rfl | exact trivial

theorem NameEdit.kindsValid (edit : NameEdit source n p p') (valid : p.KindsValid) : p'.KindsValid := by
  have frame := edit.frame
  cases edit with
  | @bind e x scope kind hx name own means =>
    intro c y hy
    simp only [Program.setKind, Table.get?_modify] at hy
    split at hy
    · obtain ⟨z, -, rfl⟩ := Option.map_eq_some_iff.1 hy
      exact (valid_of_meaning means).congr frame
    · exact (valid c y hy).congr frame
  | declare own declared =>
    obtain ⟨tables, rfl, -⟩ := tables_of_declareTarget declared
    exact valid
  | openBody own opens =>
    intro e x hx
    rw [opens.exprs] at hx
    exact (valid e x hx).congr frame
  | openTop => exact valid

theorem NameEdits.kindsValid (edits : NameEdits source n p p') (valid : p.KindsValid) :
    p'.KindsValid := by
  induction edits with
  | refl => exact valid
  | tail _ edit ih => exact edit.kindsValid ih

/-- A value that is found belongs to the enum type. -/
theorem valid_of_findEnumValue {t : EnumTypeId} {name : Span} {v : EnumValueId}
    (h : p.findEnumValue source t name = .ok (some v)) : p.KindValid (.enumValue v) := by
  obtain ⟨r, hr, h⟩ := bind_eq_ok.1 h
  obtain ⟨values, hvalues, h⟩ := bind_eq_ok.1 h
  obtain ⟨⟨w, y⟩, hfound, rfl⟩ := Option.map_eq_some_iff.1 (pure_eq_ok.1 h)
  exact ⟨t, r, Table.get_eq_ok.1 hr, (mem_slice hvalues (List.mem_of_find?_eq_some hfound)).2⟩

end Program

theorem Analysis.TypeEdit.kindsValid {source : String} {a b : Analysis} (edit : TypeEdit source a b)
    (valid : a.program.KindsValid) : b.program.KindsValid := by
  intro e x' hx'
  obtain ⟨x, hx, -⟩ := edit.matured.back hx'
  rcases edit.kind hx hx' with hk | ⟨-, t, name, v, hk, found⟩
  · exact hk ▸ (valid e x hx).congr edit.matured.frame
  · exact hk ▸ (Program.valid_of_findEnumValue found).congr edit.matured.frame

theorem Analysis.TypeEdits.kindsValid {source : String} {a b : Analysis} (edits : TypeEdits source a b)
    (valid : a.program.KindsValid) : b.program.KindsValid := by
  induction edits with
  | refl => exact valid
  | tail _ edit ih => exact edit.kindsValid ih

/-! ## The types of values -/

namespace Program

variable {p p' : Program} {e : ExprId} {v : VariableId} {type : Ty}

/-- The type of the expression is that of the variable, whatever it is. -/
inductive PassesOn (p : Program) : ExprId → VariableId → Prop
  | reference {e : ExprId} {x : Expr} {v : VariableId} (hx : p.exprs.get? e = some x)
      (hk : x.kind = .variable v) : PassesOn p e v
  | unary {e operand : ExprId} {x : Expr} {op : UnaryOp} {v : VariableId}
      (hx : p.exprs.get? e = some x) (hk : x.kind = .unary op operand) (hop : op ≠ .not)
      (h : PassesOn p operand v) : PassesOn p e v

theorem PassesOn.mentions (h : p.PassesOn e v) : p.Mentions e (.variable v) := by
  induction h with
  | @reference e x v hx hk => exact ⟨e, x, .refl, hx, by rw [hk]; rfl⟩
  | @unary e operand x op v hx hk hop h ih =>
    obtain ⟨c, y, hu, hy, ht⟩ := ih
    exact ⟨c, y, .of_operand (operandsAt_unary hx hk ▸ List.mem_singleton_self _) hu, hy, ht⟩

theorem PassesOn.congr (h : p.PassesOn e v) (hexprs : p'.exprs = p.exprs) : p'.PassesOn e v := by
  induction h with
  | reference hx hk => exact .reference (hexprs ▸ hx) hk
  | unary hx hk hop _ ih => exact .unary (hexprs ▸ hx) hk hop ih

/-- An operation gives a type. -/
theorem arithmetic_ne_unset (op : BinaryOp) (lhs rhs : Ty) : Ty.arithmetic op lhs rhs ≠ .unset := by
  unfold Ty.arithmetic
  split_ifs <;> simp

theorem ownType?_ne_unset (kind : ExprKind) : kind.ownType? ≠ some .unset := by
  cases kind <;> simp [ExprKind.ownType?]

/-- The signatures of all functions have their types. -/
structure SignaturesSet (p : Program) : Prop where
  result : ∀ f r, p.functions.get f = .ok r → r.returnType ≠ .unset
  parameter : ∀ i r, p.parameters.get i = .ok r → r.type ≠ .unset

theorem passesOn_iff {x : Expr} (hx : p.exprs.get? e = some x) : p.PassesOn e v ↔
    x.kind = .variable v ∨ ∃ op operand, x.kind = .unary op operand ∧ op ≠ .not ∧ p.PassesOn operand v := by
  constructor
  · intro h
    cases h with
    | reference hx' hk => exact .inl (Option.some.inj (hx.symm.trans hx') ▸ hk)
    | unary hx' hk hop h => exact .inr ⟨_, _, Option.some.inj (hx.symm.trans hx') ▸ hk, hop, h⟩
  · rintro (hk | ⟨op, operand, hk, hop, h⟩)
    · exact .reference hx hk
    · exact .unary hx hk hop h

/-- **A value has no type exactly if it passes one on from a variable
that has none.** -/
theorem typeOf_eq_unset (signatures : p.SignaturesSet) (h : p.typeOf e = .ok type) :
    type = .unset ↔ ∃ v r, p.PassesOn e v ∧ p.vars.get? v = some r ∧ r.type = .unset := by
  have typing := typing_of_typeOfWithin h
  clear h
  induction typing with
  | @own e x type hx htype =>
    refine iff_of_false (fun hunset => ownType?_ne_unset x.kind (hunset ▸ htype)) ?_
    rintro ⟨v, r, passes, -⟩
    rcases (passesOn_iff hx).1 passes with hk | ⟨op, operand, hk, hop, -⟩
    · simp [hk, ExprKind.ownType?] at htype
    · simp [hk, ExprKind.ownType?, hop] at htype
  | @enumValue e x v hx hk =>
    simp only [passesOn_iff hx, hk]
    cases p.enumTypeOf v <;> simp
  | «variable» hx hk hr => simp [passesOn_iff hx, hk, hr]
  | parameter hx hk hr => simp [passesOn_iff hx, hk, signatures.parameter _ _ (Table.get_eq_ok.2 hr)]
  | function hx hk hr => simp [passesOn_iff hx, hk, signatures.result _ _ (Table.get_eq_ok.2 hr)]
  | call hx hk hy hf hr => simp [passesOn_iff hx, hk, signatures.result _ _ (Table.get_eq_ok.2 hr)]
  | noCall hx hk hy hf => simp [passesOn_iff hx, hk]
  | unary hx hk hop h ih => simp [passesOn_iff hx, hk, hop, ih]
  | binary hx hk hop hl hr => simp [passesOn_iff hx, hk, arithmetic_ne_unset]

end Program

/-! ## Declarations -/

/-- The statements of a block stand in order. -/
theorem Lays.direct_pairwise {p : Program} {i j : Nat} {o : Outline} (lays : Lays p i j o) :
    (∀ s ∈ elements o.direct, i ≤ s.raw) ∧ (elements o.direct).Pairwise (·.raw < ·.raw) := by
  induction lays with
  | done i => exact ⟨by simp [Outline.direct], by simp [Outline.direct]⟩
  | @leaf i j rest single tail ih =>
    obtain ⟨ids, hids, -⟩ := tail.direct_held
    simp only [Outline.direct, hids, ok_bind, pure, Except.pure, elements_ok] at ih ⊢
    refine ⟨?_, List.pairwise_cons.2 ⟨fun s hs => ih.1 s hs, ih.2⟩⟩
    exact List.forall_mem_cons.2 ⟨Nat.le_refl _, fun s hs => Nat.le_of_succ_le (ih.1 s hs)⟩
  | @nested i k j block body rest owns starts inner tail _ ih =>
    obtain ⟨ids, hids, -⟩ := tail.direct_held
    have hle := inner.le
    simp only [Outline.direct, hids, ok_bind, pure, Except.pure, elements_ok] at ih ⊢
    refine ⟨?_, List.pairwise_cons.2 ⟨fun s hs => Nat.lt_of_lt_of_le hle (ih.1 s hs), ih.2⟩⟩
    exact List.forall_mem_cons.2 ⟨Nat.le_refl _, fun s hs => Nat.le_trans (Nat.le_of_succ_le hle) (ih.1 s hs)⟩

variable {source : String} {p p₁ : Program} {a : Analysis} {L : List StmtId} {queue : Queue}
variable {s : StmtId} {v : VariableId} {e r : ExprId}

theorem Program.Fresh.kindsValid (fresh : p.Fresh) : p.KindsValid := by
  intro e x hx
  have hnone := (fresh.unresolved e x hx).1
  cases hk : x.kind <;> rw [hk] at hnone <;> first | exact trivial | cases hnone

/-- The value stands in an initializer that reads its way into a cycle,
and its type is that of a variable of a cycle, which is declared without
a type and not before the statement. -/
def Program.TakesWaiting (p : Program) (s : StmtId) (e : ExprId) : Prop :=
  p.Unordered s ∧ ∃ s' v init span, p.PassesOn e v ∧
    p.stmts.get? s' = some ⟨.variable v none init, span⟩ ∧ p.Unordered s' ∧ s.raw ≤ s'.raw

namespace Resolution

variable (fresh : p.Fresh) (went : Resolution source p queue p₁ L a)

include fresh went

theorem kindsValid : a.program.KindsValid := by
  obtain ⟨main, searched, hprogram, -⟩ := determineMain_eq ⟨p, queue⟩ source
  have hstart : (Analysis.determineMain ⟨p, queue⟩ source).program.KindsValid := by
    rw [hprogram]
    exact fresh.kindsValid
  have edits : TypeEdits source _ a := (TypeEdits.resolveTypes .refl).ends a went.types
  exact edits.kindsValid ((Program.bindNames_edits source _ p₁ went.binds).kindsValid hstart)

theorem named_ne_unset (e : ExprId) : a.program.named e ≠ .unset := by
  unfold Program.named
  split
  · next x hx =>
    cases hk : x.kind with
    | typeName t =>
      have hvalid := went.kindsValid fresh e x hx
      rw [hk] at hvalid
      rintro rfl
      cases hvalid
    | _ => exact Ty.noConfusion
  · exact Ty.noConfusion

/-- Every function is declared by a statement. -/
theorem function_owned {f : FunctionId} (hf : f.raw < a.program.functions.size) :
    ∃ s, .function f ∈ a.program.owned s := by
  rw [Program.size_functions_congr went.frame] at hf
  obtain ⟨s, hs⟩ := fresh.functions f hf
  exact ⟨s, Program.owned_congr went.frame ▸ hs⟩

theorem parameter_owned {i : ParameterId} (hi : i.raw < a.program.parameters.size) :
    ∃ s, .parameter i ∈ a.program.owned s := by
  rw [Program.size_parameters_congr went.frame] at hi
  obtain ⟨s, hs⟩ := fresh.parameters i hi
  exact ⟨s, Program.owned_congr went.frame ▸ hs⟩

theorem solved : a.program.Solved :=
  went.done.solved went.named.regular (fun _ hf => went.function_owned fresh hf)
    fun _ hi => went.parameter_owned fresh hi

theorem signaturesSet : a.program.SignaturesSet where
  result f r hf := by
    rw [(went.solved fresh).result f r hf]
    cases r.returnTypeExpr with
    | none => exact Ty.noConfusion
    | some e => exact went.named_ne_unset fresh e
  parameter i r hi := by
    rw [(went.solved fresh).parameter i r hi]
    cases r.typeExpr with
    | none => exact Ty.noConfusion
    | some e => exact went.named_ne_unset fresh e

/-- **Every variable has a type.** -/
theorem variable_ne_unset (hv : .variable v ∈ a.program.owned s) :
    ∃ r, a.program.vars.get? v = some r ∧ r.type ≠ .unset := by
  have solved := went.solved fresh
  have found : ∀ {v r}, a.program.vars.get v = .ok r → r.type ≠ .unset →
      ∃ r, a.program.vars.get? v = some r ∧ r.type ≠ .unset :=
    fun hr hne => ⟨_, Table.get_eq_ok.1 hr, hne⟩
  refine went.variable_induction (P := fun v => ∃ r, a.program.vars.get? v = some r ∧ r.type ≠ .unset)
    (fun s v hv ih => ?_) hv
  obtain ⟨type, init, span, hs⟩ | ⟨e, body, span, hs⟩ := Program.variable_of_owned hv
  · have hstmt := Table.get_eq_ok.2 hs
    cases type with
    | some e =>
      obtain ⟨r, hr, htype⟩ := solved.declared s v e init span hstmt
      exact found hr (htype ▸ went.named_ne_unset fresh e)
    | none =>
      by_cases hcyclic : a.program.Unordered s ∨ init = none
      · obtain ⟨r, hr, herror, -⟩ := solved.inferred s v init span hstmt
        exact found hr (herror hcyclic ▸ Ty.noConfusion)
      · obtain ⟨ordered, hsome⟩ := not_or.1 hcyclic
        obtain ⟨e, rfl⟩ := Option.ne_none_iff_exists'.1 hsome
        obtain ⟨r, hr, htypeOf⟩ := solved.inferred_typeOf hstmt ordered
        refine found hr fun hunset => ?_
        -- it would have got it from a variable that it reads
        obtain ⟨w, q, hpasses, hq, hqunset⟩ :=
          (Program.typeOf_eq_unset (went.signaturesSet fresh) htypeOf).1 hunset
        obtain ⟨q', hq', hne⟩ := ih ordered none e span w hs hpasses.mentions
        rw [hq] at hq'
        cases hq'
        exact hne hqunset
  · obtain ⟨r, x, hr, -, htype⟩ := solved.iterator s v e body span (Table.get_eq_ok.2 hs)
    refine found hr (htype ▸ ?_)
    unfold iteratorType
    split <;> exact Ty.noConfusion

/-- A variable that a value reads has a type. -/
theorem mentioned_ne_unset (hr : r ∈ a.program.valuesAt s) (hu : a.program.Under r e)
    (hm : a.program.Mentions e (.variable v)) :
    ∃ r, a.program.vars.get? v = some r ∧ r.type ≠ .unset := by
  have regular := went.named.regular.congr went.done.pruned.frame went.done.pruned.held
  obtain ⟨c, x, hc, hx, ht⟩ := hm
  obtain ⟨s', howned, -⟩ := Program.global_or_before regular
    (went.done.pruned.inScope went.named.inScope) (Program.mem_slotsAt_iff.2 (.inl hr))
    ⟨c, x, hu.trans hc, hx, ht⟩
  exact went.variable_ne_unset fresh howned

/-- While some variables of cycles are not settled, those of them have no
type that are declared without one. -/
theorem unsettled_unset {ss : List StmtId} (hss : ∀ s ∈ ss, s ∈ L)
    (set : ∃ r, a.program.vars.get? v = some r ∧ r.type ≠ .unset) :
    (∃ r, (a.program.unsettle p₁ ss).vars.get? v = some r ∧ r.type = .unset) ↔
      ∃ s ∈ ss, ∃ init span, a.program.stmts.get? s = some ⟨.variable v none init, span⟩ := by
  have regular := went.named.regular
  have hstmts : a.program.stmts = p₁.stmts := went.changes.stmts
  have hvar : ∀ s ∈ ss, p₁.declaresVariable s = true := fun s hs =>
    declares_of_mem_globals (went.done.globals.sub.subset (hss s hs))
  obtain ⟨r₀, hr₀, hne⟩ := set
  by_cases h : ∃ s ∈ ss, (p₁.globalOf s).id = v
  · obtain ⟨s, hs, rfl⟩ := h
    obtain ⟨w, type, init, span, hstmt⟩ := Program.exists_of_declaresVariable (hvar s hs)
    have hid : (p₁.globalOf s).id = w := by rw [globalOf_eq hstmt]
    rw [get?_unsettle_of_mem regular hvar hs, hr₀, Option.map_some]
    simp only [Option.some.injEq, exists_eq_left', Program.unsettledVar, declaredFrom_eq hstmt]
    cases type with
    | none => exact iff_of_true rfl ⟨s, hs, init, span, by rw [hstmts, hid, hstmt]⟩
    | some c =>
      have hname := ((went.done.globals.cyclic s (hss s hs)).named c
        ((name_mem_tasks hstmt).2 rfl)).named_eq
      refine iff_of_false (fun hunset => ?_) ?_
      · exact went.named_ne_unset fresh c (hname.symm.trans hunset)
      · rintro ⟨s', hs', init', span', hstmt'⟩
        rw [hstmts] at hstmt'
        -- the variable belongs to one statement only
        obtain rfl : s' = s := by
          by_contra hother
          refine globalOf_ne regular (hvar s' hs') (hvar s hs) hother ?_
          rw [globalOf_eq hstmt']
        rw [hstmt] at hstmt'
        cases hstmt'
  · rw [get?_unsettle_of_not_mem fun s hs heq => h ⟨s, hs, heq⟩, hr₀]
    refine iff_of_false ?_ ?_
    · rintro ⟨r, hr, hunset⟩
      cases hr
      exact hne hunset
    · rintro ⟨s, hs, init, span, hstmt⟩
      rw [hstmts] at hstmt
      exact h ⟨s, hs, by rw [globalOf_eq hstmt]⟩

omit fresh in
/-- The cycles are gone through in the order of the statements. -/
theorem cycles_pairwise : L.Pairwise (·.raw < ·.raw) := by
  obtain ⟨o, lays⟩ := went.named.regular.layout
  have ho : p₁.outline p₁.block = o := Program.outline_of_lays lays went.named.regular.whole
  refine List.Pairwise.sublist went.done.globals.sub ?_
  rw [Program.globals, Program.globalsIn, if_pos rfl, ho]
  exact lays.direct_pairwise.2.filter _

/-- **Which values have no type**: those that take it from a variable
that waits. -/
theorem value_unset_iff (hr : r ∈ a.program.valuesAt s) (hu : a.program.Under r e) :
    ∃ x, a.program.exprs.get e = .ok x ∧ (x.type = .unset ↔ a.program.TakesWaiting s e) := by
  by_cases hs : a.program.Unordered s
  · obtain ⟨before, rest, hL, stage⟩ :=
      went.done.globals.stages.exists_split (went.done.unordered_iff.1 hs)
    have hsub : ∀ s' ∈ s :: rest, s' ∈ L := fun s' hs' => hL ▸ List.mem_append_right _ hs'
    -- the types of values are those that there were while `s` and the rest waited
    obtain ⟨expected, htask⟩ := Program.exists_task_of_mem_valuesAt hr
    rw [Program.tasks_congr went.done.pruned.frame] at htask
    obtain ⟨x, hx, htype, -⟩ := (stage r expected htask).1 e hu
    have signatures : (a.program.unsettle p₁ (s :: rest)).SignaturesSet :=
      ⟨(went.signaturesSet fresh).result, (went.signaturesSet fresh).parameter⟩
    refine ⟨x, Table.get_eq_ok.2 hx, (Program.typeOf_eq_unset signatures htype).trans ?_⟩
    have passes : ∀ v, (a.program.unsettle p₁ (s :: rest)).PassesOn e v ↔ a.program.PassesOn e v :=
      fun v => ⟨fun h => h.congr rfl, fun h => h.congr rfl⟩
    have waits : ∀ v, a.program.PassesOn e v → ((∃ r, (a.program.unsettle p₁ (s :: rest)).vars.get? v =
        some r ∧ r.type = .unset) ↔ ∃ s' ∈ s :: rest, ∃ init span,
          a.program.stmts.get? s' = some ⟨.variable v none init, span⟩) := fun v hv =>
      went.unsettled_unset fresh hsub (went.mentioned_ne_unset fresh hr hu hv.mentions)
    have pairwise := went.cycles_pairwise
    rw [hL, List.pairwise_append, List.pairwise_cons] at pairwise
    obtain ⟨-, ⟨hafter, -⟩, hbefore⟩ := pairwise
    constructor
    · rintro ⟨v, r, hv, hvar⟩
      obtain ⟨s', hs', init, span, hstmt⟩ := (waits v ((passes v).1 hv)).1 ⟨r, hvar⟩
      refine ⟨hs, s', v, init, span, (passes v).1 hv, hstmt, went.done.unordered_iff.2 (hsub s' hs'), ?_⟩
      rcases List.mem_cons.1 hs' with rfl | hs'
      · exact Nat.le_refl _
      · exact Nat.le_of_lt (hafter s' hs')
    · rintro ⟨-, s', v, init, span, hv, hstmt, hs', hle⟩
      have hmem := went.done.unordered_iff.1 hs'
      rw [hL] at hmem
      have hwaits : s' ∈ s :: rest := (List.mem_append.1 hmem).resolve_left fun h =>
        Nat.lt_irrefl _ (Nat.lt_of_lt_of_le (hbefore s' h s List.mem_cons_self) hle)
      obtain ⟨r, hr, hunset⟩ := (waits v hv).2 ⟨s', hwaits, init, span, hstmt⟩
      exact ⟨v, r, (passes v).2 hv, hr, hunset⟩
  · obtain ⟨stmt, hstmt, hvalue⟩ := Program.exists_stmt_of_mem_valuesAt hr
    obtain ⟨x, hx, htype⟩ := (went.solved fresh).value s stmt (Table.get_eq_ok.2 hstmt) hs r hvalue e hu
    refine ⟨x, hx, iff_of_false (fun hunset => ?_) fun h => hs h.1⟩
    obtain ⟨v, q, hpasses, hq, hqunset⟩ :=
      (Program.typeOf_eq_unset (went.signaturesSet fresh) htype).1 hunset
    obtain ⟨q', hq', hne⟩ := went.mentioned_ne_unset fresh hr hu hpasses.mentions
    rw [hq] at hq'
    cases hq'
    exact hne hqunset

end Resolution

/-- **What has no type after resolution.** All declarations have one, and
all expressions in the place of types. Of the values, and what is under
them, exactly those have none that take it from a variable of a cycle
while it waits. -/
theorem Program.resolve_unset {steps : List Step} {p : Program} {written source : String}
    {queue : Queue} {a : Analysis} (built : Program.build steps = .ok (p, written))
    (once : p.UsedOnce) (h : Analysis.resolve ⟨p, queue⟩ source = .ok a) :
    (∀ s ∈ a.program.reachable, ∀ t ∈ a.program.owned s,
        ∃ type, a.program.typeAt t = .ok type ∧ type ≠ .unset) ∧
      (∀ e, a.program.InType e → ∃ x, a.program.exprs.get e = .ok x ∧ x.type ≠ .unset) ∧
      ∀ s ∈ a.program.reachable, ∀ r ∈ a.program.valuesAt s, ∀ e, a.program.Under r e →
        ∃ x, a.program.exprs.get e = .ok x ∧ (x.type = .unset ↔ a.program.TakesWaiting s e) := by
  have fresh := Program.build_fresh built
  obtain ⟨p₁, L, went⟩ := resolve_stages fresh once h
  have regular := went.named.regular.congr went.done.pruned.frame went.done.pruned.held
  have signatures := went.signaturesSet fresh
  refine ⟨fun s _ t ht => ?_, fun e he => ?_, fun s _ r hr e hu => went.value_unset_iff fresh hr hu⟩
  · obtain ⟨name, hname⟩ := Program.exists_name regular.declarations ht
    cases t with
    | «variable» v =>
      obtain ⟨r, hr, hne⟩ := went.variable_ne_unset fresh ht
      exact ⟨_, by simp only [Program.typeAt, Table.get_eq_ok.2 hr]; rfl, hne⟩
    | function f =>
      obtain ⟨r, hr, -⟩ := bind_eq_ok.1 hname
      exact ⟨_, by simp only [Program.typeAt, hr]; rfl, signatures.result f r hr⟩
    | parameter i =>
      obtain ⟨r, hr, -⟩ := bind_eq_ok.1 hname
      exact ⟨_, by simp only [Program.typeAt, hr]; rfl, signatures.parameter i r hr⟩
    | enumType _ | structType _ => exact ⟨.none, rfl, Ty.noConfusion⟩
  · obtain ⟨s, -, he⟩ := he
    have hdone := went.done.name ((Program.mem_tasks_name regular.declarations).2 he)
    have hne := went.named_ne_unset fresh e
    obtain ⟨x, hx, -⟩ := id hdone
    rw [← hdone.named_eq, Program.recorded, hx] at hne
    exact ⟨x, Table.get_eq_ok.2 hx, hne⟩

/-- Two variables whose values read each other: while the first value is
gone through, the second variable waits. -/
theorem Program.resolve_unset_cycle :
    Succeeds (Program.build
        [.identifier "b", .variable "a" none (some ⟨0⟩), .identifier "a", .variable "b" none (some ⟨1⟩)])
      fun (p, source) => p.UsedOnce ∧ Succeeds ((Analysis.start {} p).resolve source) fun a =>
        a.program.TakesWaiting ⟨0⟩ ⟨0⟩ ∧ ¬ a.program.TakesWaiting ⟨1⟩ ⟨1⟩ := by
  have facts : Succeeds (Program.build
        [.identifier "b", .variable "a" none (some ⟨0⟩), .identifier "a", .variable "b" none (some ⟨1⟩)])
      fun (p, source) => p.UsedOnce ∧ Succeeds ((Analysis.start {} p).resolve source) fun a =>
        a.program.reachable = [⟨0⟩, ⟨1⟩] ∧ a.program.valuesAt ⟨0⟩ = [⟨0⟩] ∧
          a.program.valuesAt ⟨1⟩ = [⟨1⟩] ∧ (a.program.exprs.get? ⟨0⟩).map (·.type) = some .unset ∧
          (a.program.exprs.get? ⟨1⟩).map (·.type) = some .error := by
    decide +kernel
  obtain ⟨⟨p, source⟩, built, once, a, h, hreach, hfirst, hsecond, hunset, herror⟩ := facts
  obtain ⟨-, -, values⟩ := Program.resolve_unset built once h
  obtain ⟨x, hx, hiff⟩ := values ⟨0⟩ (by simp [hreach]) ⟨0⟩ (by simp [hfirst]) ⟨0⟩ .refl
  obtain ⟨y, hy, hiff'⟩ := values ⟨1⟩ (by simp [hreach]) ⟨1⟩ (by simp [hsecond]) ⟨1⟩ .refl
  rw [Table.get_eq_ok] at hx hy
  rw [hx] at hunset
  rw [hy] at herror
  refine ⟨(p, source), built, once, a, h, hiff.1 (Option.some.inj hunset), fun hwaits => ?_⟩
  rw [Option.map_some, hiff'.2 hwaits] at herror
  cases herror

/-- A value that still has no type when its variable has long been given
an error. -/
theorem Program.resolve_leaves_unset :
    Succeeds (Program.build
        [.identifier "b", .variable "a" none (some ⟨0⟩), .identifier "a", .variable "b" none (some ⟨1⟩)])
      fun (p, source) => p.UsedOnce ∧ Succeeds ((Analysis.start {} p).resolve source) fun a =>
        ⟨0⟩ ∈ a.program.reachable ∧ ⟨0⟩ ∈ a.program.valuesAt ⟨0⟩ ∧
          (a.program.exprs.get? ⟨0⟩).map (·.type) = some .unset ∧
          a.program.vars.records.toList.map (·.type) = [.error, .error] := by
  decide +kernel

end FrontEnd
