import FrontEnd.Proofs.Changes
/-!
# FrontEnd — expressions whose types are recorded

After the type pass has been at an expression, everything under it has
its type recorded, and there is nothing left in it that the pass would
change or report (`ExprDone`). This stays true while the pass works on
other expressions, since no expression is used in two places.
-/

namespace FrontEnd

namespace Analysis

/-- If the node is a field of an enum type, then the type has no such
value, and that has been reported. -/
def FieldDone (source : String) (a : Analysis) (e : ExprId) (x : Expr) : Prop :=
  ∀ subject name y t, x.kind = .field subject name → a.program.exprs.get? subject = some y →
    y.kind = .typeName (.enum t) → a.program.findEnumValue source t name = .ok none ∧
      a.Quiet e (.ofCode .unknownEnumValue x.span)

/-- The node's type is recorded, and it is done as a field. -/
def NodeDone (source : String) (a : Analysis) (e : ExprId) : Prop :=
  ∃ x, a.program.exprs.get? e = some x ∧ a.program.typeOf e = .ok x.type ∧ a.FieldDone source e x

/-- No diagnostic has been kept for the node. -/
def Unflagged (a : Analysis) (e : ExprId) : Prop :=
  ∀ x, a.program.exprs.get? e = some x → x.flagged = false

/-- The expression names an enum type. -/
def NamesEnum (a : Analysis) (e : ExprId) : Prop :=
  ∃ x t, a.program.exprs.get? e = some x ∧ x.kind = .typeName (.enum t)

/-- If a diagnostic has been kept for the node, it was that an enum type
has no such value. -/
def NodeHeard (a : Analysis) (e : ExprId) : Prop :=
  ∀ x, a.program.exprs.get? e = some x → x.flagged = true →
    (∃ subject name, x.kind = .field subject name ∧ a.NamesEnum subject) ∧
      a.queue.Has .unknownEnumValue x.span

/-- Every node under the expression is done. -/
def ExprDone (source : String) (a : Analysis) (r : ExprId) : Prop :=
  ∀ e, a.program.Under r e → a.NodeDone source e

/-- A name that is left where an enum is expected is no value of it. -/
def HintDone (source : String) (a : Analysis) (expected : Option Ty) (e : ExprId) : Prop :=
  ∀ x t, a.program.exprs.get? e = some x → x.kind = .identifier → expected = some (.enum t) →
    a.program.findEnumValue source t x.span = .ok none

end Analysis

/-- A node of the kind may become the value of an enum: it is a name, or
selects from an enum type a value that the type has. -/
def Program.MayBeValue (p : Program) (source : String) (kind : ExprKind) : Prop :=
  kind = .identifier ∨ ∃ subject name y t v, kind = .field subject name ∧
    p.exprs.get? subject = some y ∧ y.kind = .typeName (.enum t) ∧
      p.findEnumValue source t name = .ok (some v)

theorem Program.MayBeValue.isOpen {p : Program} {source : String} {kind : ExprKind}
    (h : p.MayBeValue source kind) : kind.isOpen = true := by
  rcases h with h | ⟨subject, name, y, t, v, h, -⟩ <;> rw [h] <;> rfl

open Analysis

variable {source : String} {a a' : Analysis} {e r c : ExprId} {expected : Option Ty} {type : Ty}
variable {p₀ : Program} {region : ExprId → Prop} {targets : Target → Prop} {x : Expr}

/-! ## What is done stays done -/

/-- A field stays done as long as its subject is left alone. -/
theorem Analysis.FieldDone.changes {x' : Expr} (done : a.FieldDone source e x)
    (h : Changes region targets a a') (hx : a.program.exprs.get? e = some x)
    (hr : ∀ c ∈ a.program.operandsAt e, ¬ region c)
    (hkind : x'.kind = x.kind) (hspan : x'.span = x.span) : a'.FieldDone source e x' := by
  intro subject name y t hk hy hyk
  rw [hkind] at hk
  have hmem : subject ∈ a.program.operandsAt e := by
    rw [Program.operandsAt_field hx hk]
    exact List.mem_singleton_self _
  rw [h.exprs subject (hr subject hmem)] at hy
  obtain ⟨hfind, hquiet⟩ := done subject name y t hk hy hyk
  exact ⟨(h.findEnumValue source t name).trans hfind, hspan ▸ h.quiet hquiet⟩

theorem Analysis.NodeDone.changes (done : a.NodeDone source e) (h : Changes region targets a a')
    (held : a.program.OperandsHeld) (hr : ∀ c, a.program.Under e c → ¬ region c)
    (ht : ∀ t, a.program.Mentions e t → ¬ targets t) : a'.NodeDone source e := by
  obtain ⟨x, hx, htype, hfield⟩ := done
  have hx' := (h.exprs e (hr e .refl)).trans hx
  refine ⟨x, hx', (h.typeOf held hr ht).trans htype, ?_⟩
  exact hfield.changes h hx (fun c hc => hr c (Program.Under.refl.of_operand hc)) rfl rfl

/-- **An expression that is done stays so** while neither what lies under
it is changed nor the type of what it mentions. -/
theorem Analysis.ExprDone.changes (done : a.ExprDone source r) (h : Changes region targets a a')
    (held : a.program.OperandsHeld) (hr : ∀ c, a.program.Under r c → ¬ region c)
    (ht : ∀ t, a.program.Mentions r t → ¬ targets t) : a'.ExprDone source r := by
  intro e he
  have hu := h.under held he
  refine (done e hu).changes h held (fun c hc => hr c (hu.trans hc)) fun t hm => ht t ?_
  obtain ⟨c, x, hc, hx, hk⟩ := hm
  exact ⟨c, x, hu.trans hc, hx, hk⟩

theorem Analysis.HintDone.changes (done : a.HintDone source expected r)
    (h : Changes region targets a a') (hr : ¬ region r) : a'.HintDone source expected r := by
  intro x t hx hk he
  rw [h.exprs r hr] at hx
  rw [h.findEnumValue]
  exact done x t hx hk he

/-- What names a type stays as it is. -/
theorem Analysis.NamesEnum.changes (names : a.NamesEnum e) (h : Changes region targets a a') :
    a'.NamesEnum e := by
  obtain ⟨y, t, hy, hyk⟩ := names
  obtain ⟨y', hy', hm⟩ := h.matures e y hy
  exact ⟨y', t, hy', (hm.kind_eq (by rw [hyk]; rfl)).trans hyk⟩

theorem Analysis.NodeHeard.changes (heard : a.NodeHeard e) (h : Changes region targets a a')
    (hr : ¬ region e) : a'.NodeHeard e := by
  intro x hx hf
  rw [h.exprs e hr] at hx
  obtain ⟨⟨subject, name, hk, names⟩, hhas⟩ := heard x hx hf
  exact ⟨⟨subject, name, hk, names.changes h⟩, h.queue.has hhas⟩

/-! ## One node -/

/-- Recording the type of an expression leaves its type as it is. -/
theorem typeOf_setExprType (held : a.program.OperandsHeld) (type : Ty) (c : ExprId) :
    (a.program.setExprType e type).typeOf c = a.program.typeOf c := by
  refine Program.typeOf_congr held (by simp [Program.setExprType]) ⟨fun d _ => ?_, fun _ _ => rfl, rfl⟩
  simp only [Program.setExprType, Table.get?_modify]
  split
  · rw [Option.map_map]
    rfl
  · rfl

theorem recordType_done (held : a.program.OperandsHeld) (h : a.recordType e = .ok (type, a'))
    (hx : a.program.exprs.get? e = some x) :
    a' = { a with program := a.program.setExprType e type } ∧
      a'.program.exprs.get? e = some { x with type } ∧ a'.program.typeOf e = .ok type := by
  obtain ⟨type', htype, h⟩ := bind_eq_ok.1 h
  cases pure_eq_ok.1 h
  refine ⟨rfl, ?_, (typeOf_setExprType held _ e).trans htype⟩
  simp only [Program.setExprType, Table.get?_modify, if_true, hx, Option.map_some]

/-- A value that is found is one that there is. -/
theorem lt_size_of_findEnumValue {p : Program} {t : EnumTypeId} {name : Span} {v : EnumValueId}
    (h : p.findEnumValue source t name = .ok (some v)) : v.raw < p.enumValues.size := by
  obtain ⟨r, -, h⟩ := bind_eq_ok.1 h
  obtain ⟨values, hvalues, h⟩ := bind_eq_ok.1 h
  obtain ⟨⟨w, y⟩, hfound, rfl⟩ := Option.map_eq_some_iff.1 (pure_eq_ok.1 h)
  exact Table.lt_size_of_get? (Program.mem_slice hvalues (List.mem_of_find?_eq_some hfound)).1

/-- How a node may come out that is tried as the value of an enum: it is
left alone, it becomes a value, or it is reported. -/
theorem nameEnumValue_cases (h : nameEnumValue source expected a e = .ok a')
    (hx : a.program.exprs.get? e = some x) :
    (a' = a ∧ a.HintDone source expected e ∧ ∀ subject name y t, x.kind = .field subject name →
        a.program.exprs.get? subject = some y → y.kind ≠ .typeName (.enum t)) ∨
      (a.program.MayBeValue source x.kind ∧ (∀ t, ¬ a.program.Mentions e t) ∧
        ∃ v : EnumValueId, v.raw < a.program.enumValues.size ∧
          a' = { a with program := a.program.setKind e (.enumValue v) }) ∨
      ∃ subject name y t, x.kind = .field subject name ∧ a.program.exprs.get? subject = some y ∧
        y.kind = .typeName (.enum t) ∧ a.program.findEnumValue source t name = .ok none ∧
        a.report e (.ofCode .unknownEnumValue x.span) = .ok a' := by
  simp only [nameEnumValue, Table.get_eq_ok.2 hx, ok_bind] at h
  split at h
  · next t hk =>
    obtain ⟨found, hfound, h⟩ := bind_eq_ok.1 h
    cases found with
    | some v =>
      have hleaf := Program.not_mentions_leaf hx (by rw [hk]; rfl) (by simp) (by rw [hk]; rfl)
      exact .inr (.inl ⟨.inl hk, hleaf, v, lt_size_of_findEnumValue hfound, (pure_eq_ok.1 h).symm⟩)
    | none =>
      refine .inl ⟨(pure_eq_ok.1 h).symm, fun x' t' hx' _ he => ?_, fun _ _ _ _ hk' => ?_⟩
      · cases he
        rw [hx] at hx'
        rw [← Option.some.inj hx', hfound]
      · rw [hk] at hk'
        cases hk'
  · next subject name hk =>
    have hhint : ∀ {wanted}, a.HintDone source wanted e := fun x' t hx' hk' _ => by
      rw [hx] at hx'
      rw [← Option.some.inj hx', hk] at hk'
      cases hk'
    obtain ⟨y, hy, h⟩ := bind_eq_ok.1 h
    rw [Table.get_eq_ok] at hy
    split at h
    · next t hyk =>
      obtain ⟨found, hfound, h⟩ := bind_eq_ok.1 h
      cases found with
      | some v =>
        have hsubject := Program.not_mentions_leaf hy (by rw [hyk]; rfl) (by simp) (by rw [hyk]; rfl)
        have hleaf := Program.not_mentions_leaf hx (by rw [hk]; rfl)
          (by simpa using hsubject) (by rw [hk]; rfl)
        exact .inr (.inl ⟨.inr ⟨subject, name, y, t, v, hk, hy, hyk, hfound⟩, hleaf, v,
          lt_size_of_findEnumValue hfound, (pure_eq_ok.1 h).symm⟩)
      | none => exact .inr (.inr ⟨subject, name, y, t, hk, hy, hyk, hfound, raiseAt_eq hx ▸ h⟩)
    · next hyk =>
      refine .inl ⟨(pure_eq_ok.1 h).symm, hhint, fun subject' name' y' t hk' hy' hyk' => ?_⟩
      rw [hk] at hk'
      cases hk'
      rw [hy] at hy'
      exact hyk t (Option.some.inj hy' ▸ hyk')
  · next hfield hname =>
    refine .inl ⟨(pure_eq_ok.1 h).symm, fun x' t hx' hk' he => ?_, fun subject name y t hk' => ?_⟩
    · rw [hx] at hx'
      obtain rfl := Option.some.inj hx'
      exact absurd he (hname t hk')
    · exact absurd hk' (hfield subject name)

/-- What is kept while a node is tried as the value of an enum. -/
theorem nameEnumValue_heard (h : nameEnumValue source expected a e = .ok a')
    (hx : a.program.exprs.get? e = some x) (fresh : x.flagged = false) : a'.NodeHeard e := by
  intro x' hx' hf
  rcases nameEnumValue_cases h hx with ⟨rfl, -, -⟩ | ⟨-, -, v, -, rfl⟩ |
    ⟨subject, name, y, t, hk, hy, hyk, -, hreport⟩
  · rw [hx] at hx'
    rw [← Option.some.inj hx', fresh] at hf
    cases hf
  · simp only [Program.setKind, Table.get?_modify, if_true, hx, Option.map_some] at hx'
    rw [← Option.some.inj hx', fresh] at hf
    cases hf
  · have names : a.NamesEnum subject := ⟨y, t, hy, hyk⟩
    obtain ⟨x₁, hx₁, hkind, hspan, -, hflagged⟩ := report_done hx hreport
    rw [hx₁] at hx'
    obtain rfl := Option.some.inj hx'
    rcases hflagged hf with hold | hhas
    · rw [fresh] at hold
      cases hold
    · rw [hkind, hspan]
      exact ⟨⟨subject, name, hk, names.changes (.report hreport)⟩, hhas⟩

/-- What is left after a node has been tried as the value of an enum. -/
theorem nameEnumValue_done (held : a.program.OperandsHeld)
    (h : nameEnumValue source expected a e = .ok a') (hx : a.program.exprs.get? e = some x) :
    Changes (· = e) (fun _ => False) a a' ∧ a'.HintDone source expected e ∧
      ∀ x', a'.program.exprs.get? e = some x' → a'.FieldDone source e x' := by
  rcases nameEnumValue_cases h hx with ⟨rfl, hhint, hfield⟩ | ⟨hmay, hnone, v, hv, rfl⟩ |
    ⟨subject, name, y, t, hk, hy, hyk, hfind, hreport⟩
  · refine ⟨.refl a', hhint, fun x' hx' subject name y t hk hy hyk => ?_⟩
    rw [hx] at hx'
    rw [← Option.some.inj hx'] at hk
    exact absurd hyk (hfield subject name y t hk hy)
  · have hset : (a.program.setKind e (.enumValue v)).exprs.get? e =
        some { x with kind := .enumValue v } := by
      simp only [Program.setKind, Table.get?_modify, if_true, hx, Option.map_some]
    refine ⟨.setKind hx hmay.isOpen hnone hv, fun x' t hx' hk => ?_, fun x' hx' subject name y t hk => ?_⟩
    · rw [hset] at hx'
      rw [← Option.some.inj hx'] at hk
      cases hk
    · rw [hset] at hx'
      rw [← Option.some.inj hx'] at hk
      cases hk
  · have hchange := Changes.report hreport
    obtain ⟨x₁, hx₁, hkind, hspan, hquiet, -⟩ := report_done hx hreport
    have hafter : ∀ x', a'.program.exprs.get? e = some x' → x'.kind = x.kind ∧ x'.span = x.span := by
      intro x' hx'
      rw [hx₁] at hx'
      exact Option.some.inj hx' ▸ ⟨hkind, hspan⟩
    refine ⟨hchange, fun x' t' hx' hk' => ?_, fun x' hx' subject' name' y' t' hk' hy' hyk' => ?_⟩
    · rw [(hafter x' hx').1, hk] at hk'
      cases hk'
    · obtain ⟨hkind, hspan⟩ := hafter x' hx'
      rw [hkind, hk] at hk'
      cases hk'
      have hmem : subject ∈ a.program.operandsAt e := by
        rw [Program.operandsAt_field hx hk]
        exact List.mem_singleton_self _
      have hne : subject ≠ e := by
        rintro rfl
        exact Nat.lt_irrefl _ (held.older _ _ hmem)
      rw [hchange.exprs subject hne, hy] at hy'
      rw [← Option.some.inj hy', hyk] at hyk'
      cases hyk'
      exact ⟨(hchange.findEnumValue source t name).trans hfind, hspan ▸ hquiet⟩

/-! ## Whole expressions -/

/-- What recording the types in an expression comes to. -/
structure ExprTyped (p₀ : Program) (source : String) (expected : Option Ty) (e : ExprId)
    (type : Ty) (a a' : Analysis) : Prop where
  changes : Changes (p₀.Under e) (fun _ => False) a a'
  done : a'.ExprDone source e
  hint : a'.HintDone source expected e
  type : ∃ x, a'.program.exprs.get? e = some x ∧ x.type = type
  heard : (∀ c, p₀.Under e c → a.Unflagged c) →
    ∀ c, a'.program.Under e c → a'.NodeHeard c

/-- A run over operands that share nothing leaves all of them done. -/
theorem foldlM_typed {f : Analysis → ExprId → Except Fault Analysis} {es : List ExprId}
    (hp : Program.Pruned p₀ a.program) (nodup : es.Nodup)
    (apart : ∀ c ∈ es, ∀ c' ∈ es, ∀ d, p₀.Under c d → p₀.Under c' d → c = c')
    (step : ∀ c ∈ es, ∀ b b', Program.Pruned p₀ b.program → f b c = .ok b' →
      ∃ type, ExprTyped p₀ source none c type b b')
    (run : es.foldlM f a = .ok a') :
    Changes (fun d => ∃ c ∈ es, p₀.Under c d) (fun _ => False) a a' ∧
      (∀ c ∈ es, a'.ExprDone source c) ∧
      ((∀ c ∈ es, ∀ d, p₀.Under c d → a.Unflagged d) →
        ∀ c ∈ es, ∀ d, a'.program.Under c d → a'.NodeHeard d) := by
  have hout : es.Pairwise fun c c' =>
      (∀ d, p₀.Under c d → ¬ p₀.Under c' d) ∧ ∀ d, p₀.Under c' d → ¬ p₀.Under c d := by
    refine nodup.imp_of_mem fun {c c'} hc hc' hne => ⟨fun d hd hd' => ?_, fun d hd hd' => ?_⟩
    · exact hne (apart c hc c' hc' d hd hd')
    · exact hne (apart c hc c' hc' d hd' hd)
  obtain ⟨hchanges, hdone⟩ := Changes.run p₀.Under (fun _ _ => False) (fun _ _ => True)
    (fun c b => b.ExprDone source c) hp
    (fun c hc b b' hpb _ h => by
      obtain ⟨type, typed⟩ := step c hc b b' hpb h
      exact ⟨typed.changes, typed.done⟩)
    (hout.imp fun _ _ _ _ _ _ => trivial)
    (hout.imp fun h b b' hpb hc hdone =>
      hdone.changes hc hpb.held (fun d hd => h.1 d (hpb.under hd)) fun _ _ ht => ht)
    (fun _ _ => trivial) run
  refine ⟨hchanges.mono (fun _ hd => hd) (fun _ ⟨_, _, ht⟩ => ht), hdone, fun fresh => ?_⟩
  refine (Changes.run p₀.Under (fun _ _ => False) (fun c b => ∀ d, p₀.Under c d → b.Unflagged d)
    (fun c b => ∀ d, b.program.Under c d → b.NodeHeard d) hp (fun c hc b b' hpb hfresh h => ?_)
    (hout.imp fun h b b' _ hc hfresh d hd x hx => ?_)
    (hout.imp fun h b b' hpb hc hheard d hd => ?_) fresh run).2
  · obtain ⟨type, typed⟩ := step c hc b b' hpb h
    exact ⟨typed.changes, typed.heard hfresh⟩
  · rw [hc.exprs d (h.2 d hd)] at hx
    exact hfresh d hd x hx
  · have hd' := hc.under hpb.held hd
    exact (hheard d hd').changes hc (h.1 d (hpb.under hd'))

/-- **After its types have been recorded an expression is done**, and
nothing but what lies under it has been changed. -/
theorem typeExprWithin_typed {fuel : Nat} (once : p₀.UsedOnce) (older : p₀.OperandsOlder)
    (hp : Program.Pruned p₀ a.program)
    (h : typeExprWithin source fuel expected a e = .ok (type, a')) :
    ExprTyped p₀ source expected e type a a' := by
  induction fuel generalizing a a' e expected type with
  | zero => cases h
  | succ fuel ih =>
    obtain ⟨x, hx, h₁⟩ := bind_eq_ok.1 h
    rw [Table.get_eq_ok] at hx
    obtain ⟨es, hes, h₂⟩ := bind_eq_ok.1 h₁
    obtain ⟨a₁, hrun, h₃⟩ := bind_eq_ok.1 h₂
    obtain ⟨a₂, hname, hrecord⟩ := bind_eq_ok.1 h₃
    obtain rfl : es = a.program.operandsAt e :=
      Except.ok.inj (hes.symm.trans (hp.held.operands_eq hx))
    have hsub : ∀ c ∈ a.program.operandsAt e, c ∈ p₀.operandsAt e := fun c hc => hp.mem_operandsAt hc
    have nodup : (a.program.operandsAt e).Nodup := by
      rcases hp.operandsAt e with ho | ho
      · rw [ho]
        exact once.operandsAt_nodup
      · rw [ho]
        exact List.nodup_nil
    obtain ⟨hchanges, hdone, hheard⟩ := foldlM_typed hp nodup
      (fun c hc c' hc' d hd hd' =>
        once.eq_of_under_operands older (hsub c hc) (hsub c' hc') hd hd')
      (fun c _ b b' hb hstep => by
        obtain ⟨⟨found, b''⟩, htyped, hb'⟩ := bind_eq_ok.1 hstep
        cases pure_eq_ok.1 hb'
        exact ⟨found, ih hb htyped⟩) hrun
    have hp₁ := hchanges.pruned hp
    -- the operands are older, so the expression itself is as it was
    have hself : ∀ c ∈ a.program.operandsAt e, ∀ d, p₀.Under c d → d ≠ e := by
      rintro c hc d hd rfl
      have hle := Program.le_of_under older hd
      have hlt := older d c (hsub c hc)
      omega
    have hx₁ : a₁.program.exprs.get? e = some x := by
      rw [hchanges.exprs e fun ⟨c, hc, hd⟩ => hself c hc e hd rfl, hx]
    obtain ⟨hchanges₂, hhint, hfield⟩ := nameEnumValue_done hp₁.held hname hx₁
    have hp₂ := hchanges₂.pruned hp₁
    obtain ⟨x₂, hx₂, -⟩ := hchanges₂.matures e x hx₁
    obtain ⟨rfl, hx₃, htype⟩ := recordType_done hp₂.held hrecord hx₂
    have hchanges₃ := Changes.setExprType hx₂ type
    have hlast := hchanges₂.trans hchanges₃
    have hall : Changes (p₀.Under e) (fun _ => False) a
        { a₂ with program := a₂.program.setExprType e type } := by
      refine Changes.trans (hchanges.mono ?_ fun _ ht => ht) (hlast.mono ?_ fun _ ht => ht)
      · rintro d ⟨c, hc, hd⟩
        exact hd.of_operand (hsub c hc)
      · rintro d rfl
        exact .refl
    -- an operand that is left has been one from the start
    have hstart : Program.Pruned a.program (a₂.program.setExprType e type) :=
      hall.pruned (.refl hp.held)
    refine ⟨hall, fun d hd => ?_, ?_, ⟨_, hx₃, rfl⟩, fun fresh d hd => ?_⟩
    · rcases Program.under_iff.1 hd with rfl | ⟨c, hc, hu⟩
      · refine ⟨_, hx₃, htype, (hfield x₂ hx₂).changes hchanges₃ hx₂ ?_ rfl rfl⟩
        rintro c hc rfl
        exact Nat.lt_irrefl _ (hp₂.held.older _ _ hc)
      · have hc' := hstart.mem_operandsAt hc
        refine (hdone c hc').changes hlast hp₁.held (fun d' hd' => ?_) (fun _ _ ht => ht) d hu
        exact hself c hc' d' (hp₁.under hd')
    · intro x' t hx' hk he
      rw [hx₃] at hx'
      obtain rfl := Option.some.inj hx'
      rw [hchanges₃.findEnumValue]
      exact hhint x₂ t hx₂ hk he
    · rcases Program.under_iff.1 hd with rfl | ⟨c, hc, hu⟩
      · intro x' hx' hf
        rw [hx₃] at hx'
        obtain rfl := Option.some.inj hx'
        obtain ⟨⟨subject, name, hk, names⟩, hhas⟩ :=
          nameEnumValue_heard hname hx₁ (fresh d .refl x hx) x₂ hx₂ hf
        exact ⟨⟨subject, name, hk, names.changes hchanges₃⟩, hhas⟩
      · have hc' := hstart.mem_operandsAt hc
        have hu₁ := hlast.under hp₁.held hu
        have hfresh := hheard (fun c hc d hd => fresh d (hd.of_operand (hsub c hc))) c hc' d hu₁
        exact hfresh.changes hlast (hself c hc' d (hp₁.under hu₁))

end FrontEnd
