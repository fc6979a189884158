import FrontEnd.Proofs.Complaints
import FrontEnd.Proofs.Positions
/-!
# FrontEnd — what there is to complain about

The check walks a program and says what it finds. What it says can be
told without the walk: names among the values that mean nothing, things
called that are no functions, and values, conditions and iterables of the
wrong type (`Objection`). The complaints about a program are exactly
these (`mem_complaints`), so none is raised without cause and no cause is
passed over.
-/

namespace FrontEnd

namespace Program

/-! ## Objections -/

/-- What there is to be said about a node among the values. -/
inductive NodeObjection (p : Program) (e : ExprId) : Complaint → Prop
  | name {x : Expr} (hx : p.exprs.get? e = some x) (hk : x.kind = .identifier)
      (hn : ¬ p.IsCallee e) : NodeObjection p e ⟨e, .ofCode .unknownName x.span⟩
  | function {x : Expr} (hx : p.exprs.get? e = some x) (hk : x.kind = .identifier)
      (hc : p.IsCallee e) : NodeObjection p e ⟨e, .ofCode .unknownFunction x.span⟩
  | callee {x : Expr} (hx : p.exprs.get? e = some x) (hf : ∀ f, x.kind ≠ .function f)
      (hi : x.kind ≠ .identifier) (hc : p.IsCallee e) :
      NodeObjection p e ⟨e, .ofCode .notAFunction x.span⟩

/-- What there is to be said about a statement by its kind. -/
inductive KindObjection (p : Program) : Stmt → Complaint → Prop
  | init {v : VariableId} {type : Option ExprId} {value : ExprId} {span : Span} {r : Variable}
      {found : Ty} (hr : p.vars.get? v = some r) (hf : p.typeOf value = .ok found)
      (h : found.assignable r.type = false) :
      KindObjection p ⟨.variable v type (some value), span⟩
        ⟨value, { code := .typeMismatch, span, message := r.type.mismatch found }⟩
  | assign {lhs value : ExprId} {span : Span} {found expected : Ty}
      (ht : p.typeOf lhs = .ok expected) (hf : p.typeOf value = .ok found)
      (h : found.assignable expected = false) :
      KindObjection p ⟨.assign lhs value, span⟩
        ⟨value, { code := .typeMismatch, span, message := expected.mismatch found }⟩
  | condition {head : Head VariableId} {body : Block} {span : Span} {e : ExprId} {x : Expr}
      {found : Ty} (hhead : head = .ifThen e ∨ head = .elseIf e ∨ head = .whileDo e)
      (hx : p.exprs.get? e = some x) (hf : p.typeOf e = .ok found)
      (hv : found.isInvalid = false) (hb : found ≠ .bool) :
      KindObjection p ⟨.nest head body, span⟩
        ⟨e, { code := .notABoolean, span := x.span, message := Ty.bool.mismatch found }⟩
  | iterable {v : VariableId} {body : Block} {span : Span} {e : ExprId} {x : Expr}
      (hx : p.exprs.get? e = some x) (hk : x.kind.isIterable = false) :
      KindObjection p ⟨.nest (.forEach v e) body, span⟩ ⟨e, .ofCode .notIterable x.span⟩

/-- What there is to be said about a statement, its body apart. -/
def StmtObjection (p : Program) (s : StmtId) (c : Complaint) : Prop :=
  (∃ r ∈ p.valuesAt s, ∃ e, p.Under r e ∧ p.NodeObjection e c) ∨
    ∃ stmt, p.stmts.get? s = some stmt ∧ p.KindObjection stmt c

/-- What there is to be said about a program. -/
def Objection (p : Program) (c : Complaint) : Prop := ∃ s ∈ p.reachable, p.StmtObjection s c

end Program

/-! ## Lists of complaints -/

variable {said said' : Said} {cs : List Complaint} {c : Complaint} {d : Diagnostic}

theorem said_append_eq_ok : said ++ said' = .ok cs ↔
    ∃ xs ys, said = .ok xs ∧ said' = .ok ys ∧ cs = xs ++ ys := by
  change ((do return (← said) ++ (← said')) : Said) = _ ↔ _
  constructor
  · intro h
    obtain ⟨xs, hxs, h⟩ := bind_eq_ok.1 h
    obtain ⟨ys, hys, h⟩ := bind_eq_ok.1 h
    exact ⟨xs, ys, hxs, hys, (pure_eq_ok.1 h).symm⟩
  · rintro ⟨xs, ys, rfl, rfl, rfl⟩
    rfl

/-- What is said of a list is what is said of its elements. -/
theorem mem_flatMapM {α : Type} {f : α → Said} {xs : List α} (h : xs.flatMapM f = .ok cs) :
    (∀ x ∈ xs, ∃ ys, f x = .ok ys) ∧ (c ∈ cs ↔ ∃ x ∈ xs, ∃ ys, f x = .ok ys ∧ c ∈ ys) := by
  induction xs generalizing cs with
  | nil =>
    rw [List.flatMapM_nil] at h
    cases pure_eq_ok.1 h
    simp
  | cons x xs ih =>
    rw [List.flatMapM_cons] at h
    obtain ⟨ys, hys, h⟩ := bind_eq_ok.1 h
    obtain ⟨zs, hzs, h⟩ := bind_eq_ok.1 h
    obtain rfl := pure_eq_ok.1 h
    obtain ⟨hall, hmem⟩ := ih hzs
    refine ⟨List.forall_mem_cons.2 ⟨⟨ys, hys⟩, hall⟩, ?_⟩
    rw [List.mem_append, hmem]
    simp only [List.exists_mem_cons_iff, hys, Except.ok.injEq, exists_eq_left']

namespace Program

variable {p : Program} {e r callee : ExprId} {x : Expr} {s : StmtId}

theorem mem_complaint {code : Code} (hx : p.exprs.get? e = some x)
    (h : p.complaint code e = .ok cs) : c ∈ cs ↔ c = ⟨e, .ofCode code x.span⟩ := by
  simp only [complaint, Table.get_eq_ok.2 hx, ok_bind] at h
  cases pure_eq_ok.1 h
  exact List.mem_singleton

/-! ## Expressions -/

/-- A node that is neither a name nor called is no cause for complaint. -/
theorem not_nodeObjection (hx : p.exprs.get? e = some x) (hi : x.kind ≠ .identifier)
    (hn : ¬ p.IsCallee e) : ¬ p.NodeObjection e c := by
  rintro (⟨hx', hk, -⟩ | ⟨-, -, hc⟩ | ⟨-, -, -, hc⟩)
  · rw [hx] at hx'
    exact hi (Option.some.inj hx' ▸ hk)
  · exact hn hc
  · exact hn hc

/-- **What is said about what is called** is what there is to be said
about the nodes under it, if that is what `within` says of those below. -/
theorem mem_calleeComplaints {within : ExprId → Said} (h : p.calleeComplaints within callee = .ok cs)
    (hcallee : p.IsCallee callee)
    (hwithin : (∀ y, p.exprs.get? callee = some y → y.kind ≠ .identifier) →
      ∀ cs, within callee = .ok cs →
        (c ∈ cs ↔ ∃ d, p.Under callee d ∧ p.NodeObjection d c ∧ ¬ (d = callee ∧ p.IsCallee callee))) :
    c ∈ cs ↔ ∃ d, p.Under callee d ∧ p.NodeObjection d c := by
  obtain ⟨y, hy, h⟩ := bind_eq_ok.1 h
  rw [Table.get_eq_ok] at hy
  have hleaf : p.operands y.kind = .ok [] → ((∃ d, p.Under callee d ∧ p.NodeObjection d c) ↔
      p.NodeObjection callee c) := fun hes => by
    simp only [under_leaf_iff (operandsAt_leaf hy hes), exists_eq_left]
  split at h
  · next f hyk =>
    cases pure_eq_ok.1 h
    rw [hleaf (by rw [hyk]; rfl)]
    simp only [List.not_mem_nil, false_iff]
    rintro (⟨hy', hk', -⟩ | ⟨hy', hk', -⟩ | ⟨hy', hf, -⟩) <;> rw [hy] at hy' <;> cases hy'
    · rw [hyk] at hk'
      cases hk'
    · rw [hyk] at hk'
      cases hk'
    · exact hf f hyk
  · next hyk =>
    rw [hleaf (by rw [hyk]; rfl), mem_complaint hy h]
    constructor
    · rintro rfl
      exact .function hy hyk hcallee
    · rintro (⟨-, -, hn⟩ | ⟨hy', -, -⟩ | ⟨hy', -, hi, -⟩)
      · exact absurd hcallee hn
      · rw [hy] at hy'
        rw [Option.some.inj hy']
      · rw [hy] at hy'
        exact absurd (Option.some.inj hy' ▸ hyk) hi
  · next hf hi =>
    obtain ⟨zs, ws, hzs, hws, rfl⟩ := said_append_eq_ok.1 h
    have hname : ∀ y', p.exprs.get? callee = some y' → y'.kind ≠ .identifier := fun y' hy' => by
      rw [hy] at hy'
      exact Option.some.inj hy' ▸ hi
    rw [List.mem_append, mem_complaint hy hws, hwithin hname zs hzs]
    constructor
    · rintro (⟨d, hd, hobj, -⟩ | rfl)
      · exact ⟨d, hd, hobj⟩
      · exact ⟨callee, .refl, .callee hy hf hi hcallee⟩
    · rintro ⟨d, hd, hobj⟩
      by_cases hdc : d = callee
      · subst hdc
        rcases hobj with ⟨-, -, hn⟩ | ⟨hy', hk', -⟩ | ⟨hy', -, -, -⟩
        · exact absurd hcallee hn
        · exact absurd hk' (hname _ hy')
        · rw [hy] at hy'
          rw [Option.some.inj hy']
          exact .inr rfl
      · exact .inl ⟨d, hd, hobj, fun hand => hdc hand.1⟩

section

variable (held : p.OperandsHeld) (once : p.UsedOnce)
include held once

/-- The arguments of a call are not called themselves. -/
theorem not_isCallee_of_argument {arguments : IdRange .argument} {l : List (ArgumentId × ExprId)}
    (hx : p.exprs.get? e = some x) (hk : x.kind = .call callee arguments)
    (hl : p.arguments.slice arguments = .ok l) :
    p.operandsAt e = callee :: l.map (·.2) ∧ ∀ c ∈ l.map (·.2), ¬ p.IsCallee c := by
  have hops : p.operandsAt e = callee :: l.map (·.2) := by
    refine operandsAt_of_get (Table.get_eq_ok.2 hx) ?_
    rw [hk, operands, hl]
    rfl
  refine ⟨hops, fun c hc hcallee => ?_⟩
  obtain ⟨arguments', hk'⟩ := once.callee_of_operand held hx (hops ▸ List.mem_cons_of_mem _ hc) hcallee
  rw [hk] at hk'
  cases hk'
  have nodup := once.operandsAt_nodup (e := e)
  rw [hops] at nodup
  exact (List.nodup_cons.1 nodup).1 hc

/-- The operands of what is no call are not called. -/
theorem not_isCallee_of_operand (hx : p.exprs.get? e = some x)
    (hk : ∀ callee arguments, x.kind ≠ .call callee arguments) (hc : r ∈ p.operandsAt e) :
    ¬ p.IsCallee r := fun h =>
  have ⟨arguments, hk'⟩ := once.callee_of_operand held hx hc h
  hk r arguments hk'

omit once in
/-- What is no name is a cause for complaint only by its operands. -/
theorem exists_under_iff_operands (hx : p.exprs.get? e = some x) (hi : x.kind ≠ .identifier) :
    (∃ d, p.Under e d ∧ p.NodeObjection d c ∧ ¬ (d = e ∧ p.IsCallee e)) ↔
      ∃ r ∈ p.operandsAt e, ∃ d, p.Under r d ∧ p.NodeObjection d c := by
  constructor
  · rintro ⟨d, hd, hobj, hnot⟩
    rcases under_iff.1 hd with rfl | ⟨r, hr, hd⟩
    · exact absurd hobj (not_nodeObjection hx hi fun hc => hnot ⟨rfl, hc⟩)
    · exact ⟨r, hr, d, hd, hobj⟩
  · rintro ⟨r, hr, d, hd, hobj⟩
    refine ⟨d, hd.of_operand hr, hobj, fun hde => ?_⟩
    obtain rfl := hde.1
    have hle := le_of_under held.older hd
    have hlt := held.older _ _ hr
    omega

omit held once in
/-- A name that means nothing is what there is to be said, unless it is
called. -/
theorem mem_nameComplaint (hx : p.exprs.get? e = some x) (hk : x.kind = .identifier)
    (hn : ¬ p.IsCallee e) (h : p.complaint .unknownName e = .ok cs) :
    c ∈ cs ↔ p.NodeObjection e c := by
  rw [mem_complaint hx h]
  constructor
  · rintro rfl
    exact .name hx hk hn
  · rintro (⟨hx', -, -⟩ | ⟨-, -, hc⟩ | ⟨-, -, -, hc⟩)
    · rw [hx] at hx'
      rw [Option.some.inj hx']
    · exact absurd hc hn
    · exact absurd hc hn

/-- **What is said about an expression** is what there is to be said about
the nodes under it, apart from its being called. -/
theorem mem_complaintsWithin {fuel : Nat} (h : p.complaintsWithin fuel e = .ok cs)
    (he : p.InValue e) (hname : ∀ x, p.exprs.get? e = some x → x.kind = .identifier → ¬ p.IsCallee e) :
    c ∈ cs ↔ ∃ d, p.Under e d ∧ p.NodeObjection d c ∧ ¬ (d = e ∧ p.IsCallee e) := by
  induction fuel generalizing e cs with
  | zero => cases h
  | succ fuel ih =>
    obtain ⟨x, hx, h⟩ := bind_eq_ok.1 h
    rw [Table.get_eq_ok] at hx
    -- an operand that is not called is gone through like a value
    have hoperand : ∀ {r cs}, r ∈ p.operandsAt e → ¬ p.IsCallee r →
        p.complaintsWithin fuel r = .ok cs →
        (c ∈ cs ↔ ∃ d, p.Under r d ∧ p.NodeObjection d c) := by
      intro r cs hr hn hcs
      rw [ih hcs (he.operand hr) fun _ _ _ => hn]
      refine exists_congr fun d => and_congr_right fun _ => ?_
      simp only [hn, and_false, not_false_eq_true, and_true]
    cases hk : x.kind with
    | identifier =>
      rw [hk] at h
      have hn := hname x hx hk
      have hleaf := operandsAt_leaf hx (by rw [hk]; rfl)
      rw [mem_nameComplaint hx hk hn h]
      simp only [under_leaf_iff hleaf, exists_eq_left, hn, and_false, not_false_eq_true, and_true]
    | call callee arguments =>
      rw [hk] at h
      obtain ⟨xs, ys, hxs, hys, rfl⟩ := said_append_eq_ok.1 h
      obtain ⟨l, hl, hys⟩ := bind_eq_ok.1 hys
      obtain ⟨hops, harguments⟩ := not_isCallee_of_argument held once hx hk hl
      have hcallee : p.IsCallee callee := ⟨e, x, arguments, he, hx, hk⟩
      have hr : callee ∈ p.operandsAt e := hops ▸ List.mem_cons_self
      rw [exists_under_iff_operands held hx (by simp [hk]), hops, List.exists_mem_cons_iff,
        List.mem_append]
      refine or_congr ?_ ?_
      · exact mem_calleeComplaints hxs hcallee fun hi zs hzs =>
          ih hzs (he.operand hr) fun y hy hyk => absurd hyk (hi y hy)
      · -- the arguments
        obtain ⟨hall, hmem⟩ := mem_flatMapM hys
        rw [hmem]
        constructor
        · rintro ⟨⟨i, r⟩, hir, zs, hzs, hc⟩
          have hr' : r ∈ l.map (·.2) := List.mem_map_of_mem hir
          exact ⟨r, hr', (hoperand (hops ▸ List.mem_cons_of_mem _ hr') (harguments r hr') hzs).1 hc⟩
        · rintro ⟨r, hr', hd⟩
          obtain ⟨⟨i, r'⟩, hir, rfl⟩ := List.mem_map.1 hr'
          obtain ⟨zs, hzs⟩ := hall _ hir
          exact ⟨⟨i, r'⟩, hir, zs, hzs,
            (hoperand (hops ▸ List.mem_cons_of_mem _ hr') (harguments r' hr') hzs).2 hd⟩
    | _ =>
      rw [hk] at h
      obtain ⟨es, hes, h⟩ := bind_eq_ok.1 h
      rw [← hk] at hes
      obtain rfl := operandsAt_of_get (Table.get_eq_ok.2 hx) hes
      obtain ⟨hall, hmem⟩ := mem_flatMapM h
      rw [exists_under_iff_operands held hx (by simp [hk]), hmem]
      refine exists_congr fun r => and_congr_right fun hr => ?_
      obtain ⟨ys, hys⟩ := hall r hr
      have hn := not_isCallee_of_operand held once hx (by simp [hk]) hr
      rw [← hoperand hr hn hys]
      simp only [hys, Except.ok.injEq, exists_eq_left']

/-- What is said about a value of a statement, its operands included. -/
theorem mem_exprComplaints (hr : r ∈ p.valuesAt s) (hs : s ∈ p.reachable)
    (h : p.exprComplaints r = .ok cs) : c ∈ cs ↔ ∃ d, p.Under r d ∧ p.NodeObjection d c := by
  have hn := once.not_isCallee_of_slot held (mem_slotsAt_iff.2 (.inl hr))
  rw [mem_complaintsWithin held once h ⟨s, hs, r, hr, .refl⟩ fun _ _ _ => hn]
  simp only [hn, and_false, not_false_eq_true, and_true]

end

/-! ## Statements -/

section

variable {v : VariableId} {type : Option ExprId} {lhs : ExprId} {head : Head VariableId}
variable {body : Block} {span : Span} {expected : Ty}

theorem mem_valueComplaints
    (h : p.valueComplaints e expected span = .ok cs) :
    c ∈ cs ↔ ∃ found, p.typeOf e = .ok found ∧ found.assignable expected = false ∧
      c = ⟨e, { code := .typeMismatch, span, message := expected.mismatch found }⟩ := by
  obtain ⟨found, hfound, h⟩ := bind_eq_ok.1 h
  simp only [hfound, Except.ok.injEq, exists_eq_left']
  split at h
  · next hassignable =>
    cases pure_eq_ok.1 h
    simp [hassignable]
  · next hassignable =>
    cases pure_eq_ok.1 h
    simp [hassignable]

theorem mem_conditionComplaints (h : p.conditionComplaints e = .ok cs) :
    c ∈ cs ↔ ∃ found x, p.typeOf e = .ok found ∧ found.isInvalid = false ∧ found ≠ .bool ∧
      p.exprs.get? e = some x ∧
      c = ⟨e, { code := .notABoolean, span := x.span, message := Ty.bool.mismatch found }⟩ := by
  obtain ⟨found, hfound, h⟩ := bind_eq_ok.1 h
  simp only [hfound, Except.ok.injEq, exists_and_left, exists_eq_left']
  split at h
  · next hfits =>
    cases pure_eq_ok.1 h
    simp only [Bool.or_eq_true, beq_iff_eq] at hfits
    simp only [List.not_mem_nil, false_iff]
    rintro ⟨hv, hb, -⟩
    rcases hfits with hinvalid | hbool
    · rw [hv] at hinvalid
      cases hinvalid
    · exact hb hbool
  · next hfits =>
    simp only [Bool.or_eq_true, beq_iff_eq, not_or, Bool.not_eq_true] at hfits
    obtain ⟨x, hx, h⟩ := bind_eq_ok.1 h
    cases pure_eq_ok.1 h
    simp [hfits, Table.get_eq_ok.1 hx]

theorem mem_iterableComplaints (h : p.iterableComplaints e = .ok cs) :
    c ∈ cs ↔ ∃ x, p.exprs.get? e = some x ∧ x.kind.isIterable = false ∧
      c = ⟨e, .ofCode .notIterable x.span⟩ := by
  obtain ⟨x, hx, h⟩ := bind_eq_ok.1 h
  rw [Table.get_eq_ok] at hx
  simp only [hx, Option.some.injEq, exists_eq_left']
  split at h
  · next hk =>
    cases pure_eq_ok.1 h
    simp [hk]
  · next hk =>
    rw [mem_complaint hx h]
    simp [hk]

/-- What is said about an initializer that does not fit. -/
theorem mem_initComplaints {found : Variable} (hr : p.vars.get? v = some found)
    (h : p.valueComplaints e found.type span = .ok cs) :
    c ∈ cs ↔ p.KindObjection ⟨.variable v type (some e), span⟩ c := by
  rw [mem_valueComplaints h]
  constructor
  · rintro ⟨found, hf, hassignable, rfl⟩
    exact .init hr hf hassignable
  · rintro ⟨hr', hf, hassignable⟩
    rw [hr] at hr'
    cases hr'
    exact ⟨_, hf, hassignable, rfl⟩

/-- What is said about an assigned value that does not fit. -/
theorem mem_assignComplaints (ht : p.typeOf lhs = .ok expected)
    (h : p.valueComplaints e expected span = .ok cs) :
    c ∈ cs ↔ p.KindObjection ⟨.assign lhs e, span⟩ c := by
  rw [mem_valueComplaints h]
  constructor
  · rintro ⟨found, hf, hassignable, rfl⟩
    exact .assign ht hf hassignable
  · rintro (- | ⟨ht', hf, hassignable⟩)
    rw [ht] at ht'
    cases ht'
    exact ⟨_, hf, hassignable, rfl⟩

/-- What is said about a condition that is no boolean. -/
theorem mem_headComplaints (hhead : head = .ifThen e ∨ head = .elseIf e ∨ head = .whileDo e)
    (h : p.conditionComplaints e = .ok cs) :
    c ∈ cs ↔ p.KindObjection ⟨.nest head body, span⟩ c := by
  rw [mem_conditionComplaints h]
  constructor
  · rintro ⟨found, x, hf, hv, hb, hx, rfl⟩
    exact .condition hhead hx hf hv hb
  · intro hk
    cases hk with
    | @condition _ _ _ e' x found hhead' hx hf hv hb =>
      obtain rfl : e' = e := by
        rcases hhead with rfl | rfl | rfl <;> rcases hhead' with h | h | h <;> cases h <;> rfl
      exact ⟨found, x, hf, hv, hb, hx, rfl⟩
    | iterable => rcases hhead with h | h | h <;> cases h

/-- What is said about what a loop cannot run over. -/
theorem mem_loopComplaints (h : p.iterableComplaints e = .ok cs) :
    c ∈ cs ↔ p.KindObjection ⟨.nest (.forEach v e) body, span⟩ c := by
  rw [mem_iterableComplaints h]
  constructor
  · rintro ⟨x, hx, hk, rfl⟩
    exact .iterable hx hk
  · rintro (- | - | ⟨hhead, -⟩ | ⟨hx, hk⟩)
    · rcases hhead with h | h | h <;> cases h
    · exact ⟨_, hx, hk, rfl⟩

end

section

variable (held : p.OperandsHeld) (once : p.UsedOnce)
include held once

/-- **What is said about a statement** is what there is to be said about
its values and about what becomes of them. -/
theorem mem_stmtComplaints (hs : s ∈ p.reachable) (h : p.stmtComplaints s = .ok cs) :
    c ∈ cs ↔ p.StmtObjection s c := by
  obtain ⟨⟨kind, span⟩, hstmt, h⟩ := bind_eq_ok.1 h
  rw [Table.get_eq_ok] at hstmt
  have hvalues := valuesAt_eq hstmt
  have hexpr : ∀ {r cs}, r ∈ kind.values → p.exprComplaints r = .ok cs →
      (c ∈ cs ↔ ∃ d, p.Under r d ∧ p.NodeObjection d c) := fun hr hcs =>
    mem_exprComplaints held once (hvalues ▸ hr) hs hcs
  simp only [StmtObjection, hvalues, hstmt, Option.some.injEq, exists_eq_left']
  -- a statement that only computes its values
  have hplain : ∀ {r}, kind.values = [r] → p.exprComplaints r = .ok cs →
      (∀ c, ¬ p.KindObjection ⟨kind, span⟩ c) →
      (c ∈ cs ↔ (∃ r ∈ kind.values, ∃ e, p.Under r e ∧ p.NodeObjection e c) ∨
        p.KindObjection ⟨kind, span⟩ c) := by
    intro r hr hcs hnone
    rw [hexpr (hr ▸ List.mem_singleton_self r) hcs, hr]
    simp only [List.mem_singleton, exists_eq_left, hnone c, or_false]
  have hnothing : kind.values = [] → cs = [] → (∀ c, ¬ p.KindObjection ⟨kind, span⟩ c) →
      (c ∈ cs ↔ (∃ r ∈ kind.values, ∃ e, p.Under r e ∧ p.NodeObjection e c) ∨
        p.KindObjection ⟨kind, span⟩ c) := by
    rintro hr rfl hnone
    simp [hr, hnone c]
  -- a statement that asks for something more of its value
  have hmore : ∀ {r xs ys}, kind.values = [r] → p.exprComplaints r = .ok xs →
      (c ∈ ys ↔ p.KindObjection ⟨kind, span⟩ c) →
      (c ∈ xs ++ ys ↔ (∃ r ∈ kind.values, ∃ e, p.Under r e ∧ p.NodeObjection e c) ∨
        p.KindObjection ⟨kind, span⟩ c) := by
    intro r xs ys hr hxs hys
    rw [List.mem_append, hexpr (hr ▸ List.mem_singleton_self r) hxs, hys, hr]
    simp only [List.mem_singleton, exists_eq_left]
  cases kind with
  | «variable» v type init =>
    cases init with
    | none => exact hnothing rfl (pure_eq_ok.1 h).symm fun _ hk => by cases hk
    | some value =>
      obtain ⟨xs, ys, hxs, hys, rfl⟩ := said_append_eq_ok.1 h
      obtain ⟨r, hr, hys⟩ := bind_eq_ok.1 hys
      rw [Table.get_eq_ok] at hr
      exact hmore rfl hxs (mem_initComplaints hr hys)
  | assign lhs value =>
    obtain ⟨xs, rest, hxs, hrest, rfl⟩ := said_append_eq_ok.1 h
    obtain ⟨ys, zs, hys, hlast, rfl⟩ := said_append_eq_ok.1 hrest
    obtain ⟨expected, hexpected, hzs⟩ := bind_eq_ok.1 hlast
    rw [List.mem_append, List.mem_append, hexpr (by simp [StmtKind.values]) hxs,
      hexpr (by simp [StmtKind.values]) hys, mem_assignComplaints hexpected hzs]
    simp only [StmtKind.values, List.exists_mem_cons_iff, List.not_mem_nil, false_and, exists_false,
      or_false, or_assoc]
  | nest head body =>
    have hcondition : ∀ {e}, (head = .ifThen e ∨ head = .elseIf e ∨ head = .whileDo e) →
        p.exprComplaints e ++ p.conditionComplaints e = .ok cs →
        (c ∈ cs ↔ (∃ r ∈ (StmtKind.nest head body).values, ∃ e, p.Under r e ∧ p.NodeObjection e c) ∨
          p.KindObjection ⟨.nest head body, span⟩ c) := by
      intro e hhead h
      obtain ⟨xs, ys, hxs, hys, rfl⟩ := said_append_eq_ok.1 h
      have hr : (StmtKind.nest head body).values = [e] := by rcases hhead with rfl | rfl | rfl <;> rfl
      exact hmore hr hxs (mem_headComplaints hhead hys)
    cases head with
    | ifThen e => exact hcondition (.inl rfl) h
    | elseIf e => exact hcondition (.inr (.inl rfl)) h
    | whileDo e => exact hcondition (.inr (.inr rfl)) h
    | forEach v e =>
      obtain ⟨xs, ys, hxs, hys, rfl⟩ := said_append_eq_ok.1 h
      exact hmore rfl hxs (mem_loopComplaints hys)
    | _ =>
      refine hnothing rfl (pure_eq_ok.1 h).symm fun _ hk => ?_
      rcases hk with - | - | ⟨hhead, -⟩ | -
      rcases hhead with h | h | h <;> cases h
  | output value | evaluate value => exact hplain rfl h fun _ hk => by cases hk
  | returnValue value =>
    cases value with
    | none => exact hnothing rfl (pure_eq_ok.1 h).symm fun _ hk => by cases hk
    | some value => exact hplain rfl h fun _ hk => by cases hk
  | _ => exact hnothing rfl (pure_eq_ok.1 h).symm fun _ hk => by cases hk

omit held once in
/-- An outline that something is said about can be listed. -/
theorem flatten_of_outlineComplaints {o : Outline} (h : p.outlineComplaints o = .ok cs) :
    ∃ l, o.flatten = .ok l := by
  induction o generalizing cs with
  | stuck fault => cases h
  | done => exact ⟨[], rfl⟩
  | leaf s rest ih =>
    obtain ⟨xs, ys, -, hys, -⟩ := said_append_eq_ok.1 h
    obtain ⟨l, hl⟩ := ih hys
    exact ⟨s :: l, by rw [Outline.flatten, hl]; rfl⟩
  | nested s body rest ihBody ih =>
    obtain ⟨xs, more, -, hmore, -⟩ := said_append_eq_ok.1 h
    obtain ⟨ys, zs, hys, hzs, -⟩ := said_append_eq_ok.1 hmore
    obtain ⟨l, hl⟩ := ihBody hys
    obtain ⟨l', hl'⟩ := ih hzs
    exact ⟨s :: (l ++ l'), by rw [Outline.flatten, hl, hl']; rfl⟩

/-- What is said about an outline is what is said about its statements. -/
theorem mem_outlineComplaints {o : Outline} {l : List StmtId} (hl : o.flatten = .ok l)
    (hreach : ∀ s ∈ l, s ∈ p.reachable) (h : p.outlineComplaints o = .ok cs) :
    c ∈ cs ↔ ∃ s ∈ l, p.StmtObjection s c := by
  induction o generalizing cs l with
  | stuck fault => cases h
  | done =>
    cases pure_eq_ok.1 h
    cases pure_eq_ok.1 hl
    simp
  | leaf s rest ih =>
    obtain ⟨xs, ys, hxs, hys, rfl⟩ := said_append_eq_ok.1 h
    obtain ⟨l', hl', hl⟩ := bind_eq_ok.1 hl
    cases pure_eq_ok.1 hl
    obtain ⟨hs, hrest⟩ := List.forall_mem_cons.1 hreach
    rw [List.mem_append, mem_stmtComplaints held once hs hxs, ih hl' hrest hys,
      List.exists_mem_cons_iff]
  | nested s body rest ihBody ih =>
    obtain ⟨xs, more, hxs, hmore, rfl⟩ := said_append_eq_ok.1 h
    obtain ⟨ys, zs, hys, hzs, rfl⟩ := said_append_eq_ok.1 hmore
    obtain ⟨l₁, hl₁, hl⟩ := bind_eq_ok.1 hl
    obtain ⟨l₂, hl₂, hl⟩ := bind_eq_ok.1 hl
    cases pure_eq_ok.1 hl
    obtain ⟨hs, hrest⟩ := List.forall_mem_cons.1 hreach
    obtain ⟨hbody, hrest⟩ := List.forall_mem_append.1 hrest
    rw [List.mem_append, List.mem_append, mem_stmtComplaints held once hs hxs, ihBody hl₁ hbody hys,
      ih hl₂ hrest hzs, List.exists_mem_cons_iff]
    simp only [List.mem_append, or_and_right, exists_or]

end

/-- **The complaints about a program are what there is to be said about
it.** -/
theorem mem_complaints (held : p.OperandsHeld) (once : p.UsedOnce) (h : p.complaints = .ok cs) :
    c ∈ cs ↔ p.Objection c := by
  obtain ⟨l, hl⟩ := flatten_of_outlineComplaints h
  have hreachable : p.reachable = l := by rw [reachable, hl, elements_ok]
  rw [mem_outlineComplaints held once hl (fun s hs => hreachable ▸ hs) h, Objection, hreachable]

end Program

end FrontEnd
