import FrontEnd.Proofs.Kin
/-!
# FrontEnd — expressions in two programs

Where the nodes of two programs that are kin differ, there are only enum
values and names that become such without a word (`typeExprWithin_silent`).
Everywhere else the type pass does the same at both. So it says the same
about an expression in both programs (`Kin.typeExprWithin`).
-/

namespace FrontEnd

open Analysis Program

variable {t : Setting} {c c' d d' p p' p₁ : Program} {e o : ExprId} {x x' y : Expr} {source : String}
variable {kind : ExprKind}

/-! ## Recording types -/

theorem Program.recordType_sounding (p : Program) (e : ExprId) (v : Voice) :
    (p.sounding v).recordType e =
      p.typeOf e >>= fun type => .ok (type, (p.setExprType e type).sounding v) := by
  simp only [recordType, sounding, typeOf_voiced, setExprType_voiced]
  rfl

/-- The result is one type, and a program that has been hushed, or one
fault. -/
def Program.Hushes (p : Program) (e : ExprId) (f : Voice → Except Fault (Ty × Analysis)) : Prop :=
  (∃ fault, ∀ v, f v = .error fault) ∨
    ∃ type p', p.Hushed e p' ∧ ∀ v, f v = .ok (type, p'.sounding v)

/-- A name becomes the enum value that is found, if one is. -/
def Program.valued (p : Program) (e : ExprId) (found : Option EnumValueId) : Program :=
  match found with
  | some w => p.setKind e (.enumValue w)
  | none => p

theorem Program.Hushed.valued (hx : p.exprs.get? e = some x) (hopen : x.kind.isOpen = true)
    (found : Option EnumValueId) : p.Hushed e (p.valued e found) := by
  cases found with
  | none => exact .refl p e
  | some w => exact .setKind hx hopen w

theorem nameEnumValue_identifier {u : EnumTypeId} (hx : p.exprs.get? e = some x)
    (hk : x.kind = .identifier) (v : Voice) :
    nameEnumValue source (some (.enum u)) (p.sounding v) e =
      p.findEnumValue source u x.span >>= fun found => .ok ((p.valued e found).sounding v) := by
  simp only [nameEnumValue, get_sounding hx, ok_bind, hk]
  refine bind_congr fun found => ?_
  cases found with
  | none => rfl
  | some w =>
    simp only [Program.valued, sounding, setKind_voiced]
    rfl

/-- A field of an enum type becomes the value that is found, or is
reported. -/
theorem nameEnumValue_field {subject : ExprId} {name : Span} {u : EnumTypeId}
    (hx : p.exprs.get? e = some x) (hk : x.kind = .field subject name)
    (hy : p.exprs.get? subject = some y) (hyk : y.kind = .typeName (.enum u))
    (expected : Option Ty) (v : Voice) :
    nameEnumValue source expected (p.sounding v) e =
      p.findEnumValue source u name >>= fun found =>
        if found.isSome then .ok ((p.valued e found).sounding v)
        else (p.sounding v).raiseAt .unknownEnumValue e := by
  simp only [nameEnumValue, get_sounding hx, ok_bind, hk, get_sounding hy, hyk]
  refine bind_congr fun found => ?_
  cases found with
  | none => rfl
  | some w =>
    simp only [Program.valued, sounding, setKind_voiced]
    rfl

/-- Anything else stays as it is. -/
theorem nameEnumValue_idle {expected : Option Ty} (hx : p.exprs.get? e = some x)
    (hname : x.kind = .identifier → ∀ u, expected ≠ some (.enum u))
    (hfield : ∀ subject name, x.kind = .field subject name →
      ∃ y, p.exprs.get? subject = some y ∧ ∀ u, y.kind ≠ .typeName (.enum u)) (v : Voice) :
    nameEnumValue source expected (p.sounding v) e = .ok (p.sounding v) := by
  simp only [nameEnumValue, get_sounding hx, ok_bind]
  split
  · next u hk => exact absurd rfl (hname hk u)
  · next subject name hk =>
    obtain ⟨y, hy, hyk⟩ := hfield subject name hk
    simp only [get_sounding hy, ok_bind]
    rfl
  · rfl

/-- A silent name may become an enum value, and nothing is said. -/
theorem nameEnumValue_silent (hx : p.exprs.get? e = some x) (hs : p.Silent source x.kind)
    (expected : Option Ty) :
    (∃ fault, ∀ v, nameEnumValue source expected (p.sounding v) e = .error fault) ∨
      ∃ p', p.Hushed e p' ∧ ∀ v, nameEnumValue source expected (p.sounding v) e = .ok (p'.sounding v) := by
  rcases hs with ⟨w, hk⟩ | hk | ⟨subject, name, y, u, w, hk, hy, hyk, hfind⟩
  · refine .inr ⟨p, .refl p e, nameEnumValue_idle hx ?_ ?_⟩ <;> simp [hk]
  · by_cases hexpected : ∃ u, expected = some (.enum u)
    · obtain ⟨u, rfl⟩ := hexpected
      simp only [nameEnumValue_identifier hx hk]
      cases p.findEnumValue source u x.span with
      | error fault => exact .inl ⟨fault, fun v => rfl⟩
      | ok found => exact .inr ⟨_, .valued hx (by rw [hk]; rfl) found, fun v => rfl⟩
    · refine .inr ⟨p, .refl p e, nameEnumValue_idle hx (fun _ u hu => hexpected ⟨u, hu⟩) ?_⟩
      simp [hk]
  · refine .inr ⟨_, .valued hx (by rw [hk]; rfl) (some w), fun v => ?_⟩
    rw [nameEnumValue_field hx hk hy hyk, hfind]
    rfl

/-- To name a silent expression and to record its type. -/
theorem named_hushes (hx : p.exprs.get? e = some x) (hs : p.Silent source x.kind)
    (expected : Option Ty) :
    p.Hushes e fun v => nameEnumValue source expected (p.sounding v) e >>= fun a => a.recordType e := by
  rcases nameEnumValue_silent hx hs expected with ⟨fault, hf⟩ | ⟨p', hp', hf⟩
  · exact .inl ⟨fault, fun v => by simp only [hf]; rfl⟩
  · simp only [hf, ok_bind, recordType_sounding]
    cases p'.typeOf e with
    | error fault => exact .inl ⟨fault, fun v => rfl⟩
    | ok type => exact .inr ⟨type, _, hp'.trans (.setExprType p' e e type), fun v => rfl⟩

/-! ## Expressions -/

theorem typeExprWithin_succ {fuel : Nat} {expected : Option Ty} (hx : p.exprs.get? e = some x)
    (v : Voice) :
    typeExprWithin source (fuel + 1) expected (p.sounding v) e =
      p.operands x.kind >>= fun es =>
        es.foldlM (fun a o => return (← typeExprWithin source fuel none a o).2) (p.sounding v) >>=
          fun a => nameEnumValue source expected a e >>= fun a => a.recordType e := by
  simp only [typeExprWithin, get_sounding hx, ok_bind]
  rw [show (p.sounding v).program.operands x.kind = _ from operands_voiced x.kind]

/-- The name of a type gets the type of a name. -/
theorem typeExprWithin_typeName {type : Ty} (hx : p.exprs.get? e = some x)
    (hk : x.kind = .typeName type) (fuel : Nat) (v : Voice) :
    typeExprWithin source (fuel + 1) none (p.sounding v) e =
      .ok (.error, (p.setExprType e .error).sounding v) := by
  have htype : p.typeOf e = .ok .error := by
    simp only [typeOf, exprDepth, typeOfWithin, Table.get_eq_ok.2 hx, ok_bind, hk]
    rfl
  have hops : p.operands x.kind = .ok [] := by rw [hk]; rfl
  rw [typeExprWithin_succ hx, hops]
  change (nameEnumValue source none (p.sounding v) e >>= fun a => a.recordType e) = _
  rw [nameEnumValue_idle hx (by simp [hk]) (by simp [hk]), ok_bind, recordType_sounding, htype, ok_bind]

/-- **Nothing is said about what is silent.** -/
theorem typeExprWithin_silent (hx : p.exprs.get? e = some x) (hs : p.Silent source x.kind)
    (fuel : Nat) (expected : Option Ty) :
    p.Hushes e fun v => typeExprWithin source fuel expected (p.sounding v) e := by
  cases fuel with
  | zero => exact .inl ⟨.endless, fun v => rfl⟩
  | succ fuel =>
    simp only [typeExprWithin_succ hx]
    have leaf : p.operands x.kind = .ok [] → p.Hushes e fun v => p.operands x.kind >>= fun es =>
        es.foldlM (fun a o => return (← typeExprWithin source fuel none a o).2) (p.sounding v) >>=
          fun a => nameEnumValue source expected a e >>= fun a => a.recordType e := fun h => by
      simp only [h, ok_bind, List.foldlM_nil]
      exact named_hushes hx hs expected
    rcases hs with ⟨w, hk⟩ | hk | ⟨subject, name, y, u, w, hk, hy, hyk, hfind⟩
    · exact leaf (by rw [hk]; rfl)
    · exact leaf (by rw [hk]; rfl)
    · -- the subject of a field names a type
      have hops : p.operands x.kind = .ok [subject] := by rw [hk]; rfl
      simp only [hops, ok_bind, List.foldlM_cons, List.foldlM_nil]
      cases fuel with
      | zero => exact .inl ⟨.endless, fun v => rfl⟩
      | succ fuel =>
        simp only [typeExprWithin_typeName hy hyk, ok_bind]
        have hushed := Hushed.setExprType p e subject .error
        obtain ⟨x', hx', -⟩ := exists_expr_congr hushed.frame hx
        rcases named_hushes hx' (hushed.silent_at hx hx' (.inr (.inr ⟨subject, name, y, u, w, hk, hy, hyk, hfind⟩)))
          expected with ⟨fault, hf⟩ | ⟨type, p', hp', hf⟩
        · exact .inl ⟨fault, hf⟩
        · exact .inr ⟨type, p', hushed.trans hp', hf⟩

/-- To read the name of a type is to complain about what is none, and to
record the type. -/
theorem typeNamed_sounding (hx : p.exprs.get? e = some x) (v : Voice) :
    (p.sounding v).typeNamed e = .ok (x.kind.named, (p.setExprType e x.kind.named).sounding
      (v.hearAll (x.kind.misplaced?.map fun code => ⟨e, .ofCode code x.span⟩).toList)) := by
  have hx' : (p.sounding v).program.exprs.get? e = some { x with flagged := v.flags e } :=
    (get?_voiced ..).trans (by rw [hx]; rfl)
  have record : ∀ w : Voice, (⟨(p.sounding w).program.setExprType e x.kind.named, w.queue⟩ : Analysis) =
      (p.setExprType e x.kind.named).sounding w := fun w => by
    simp only [sounding, setExprType_voiced]
  rw [typeNamed_eq hx']
  simp only [reportMisplaced]
  cases x.kind.misplaced? with
  | none => exact congrArg (fun a => Except.ok (x.kind.named, a)) (record v)
  | some code =>
    simp only [report_sounding hx, ok_bind]
    exact congrArg (fun a => Except.ok (x.kind.named, a)) (record _)

/-! ## Expressions in two programs -/

namespace Kin

/-- Nothing is said in either program about a node that is silent. -/
theorem nameEnumValue_of_silent (k : Kin t c d) (he : ¬ t.types e) {expected expected' : Option Ty}
    (hexpected : t.Same expected expected') (hx : c.exprs.get? e = some x)
    (hs : c.Silent t.source x.kind) :
    Agree t.exact (Kinned t) (fun v => nameEnumValue t.source expected (c.sounding v) e)
      (fun v => nameEnumValue t.source expected' (d.sounding v) e) := by
  rcases nameEnumValue_silent hx hs expected with ⟨fault, hf⟩ | ⟨c', hc', hf⟩
  · exact .error hf
  by_cases hexact : t.exact
  · obtain rfl := k.same hexact
    obtain rfl := hexpected hexact
    exact .ok [] hf hf ⟨k.hush_silent hc' hc' (fun _ => rfl) he hx hs⟩
  · -- what is expected may differ, and so may the values that are found
    obtain ⟨y, hy, -⟩ := k.exists_right hx
    rcases nameEnumValue_silent hy (k.silent_right hx hy hs) expected' with
      ⟨fault, hg⟩ | ⟨d', hd', hg⟩
    · exact .apart hexact fun v => ⟨fault, hg v⟩
    · exact .ok [] hf hg ⟨k.hush_silent hc' hd' (fun h => absurd h hexact) he hx hs⟩

/-- What selects from no enum type stays as it is in both programs. -/
theorem nameEnumValue_of_idle (k : Kin t c d) {expected expected' : Option Ty}
    (hx : c.exprs.get? e = some x) (hy : d.exprs.get? e = some y) (hk : y.kind = x.kind)
    (hname : x.kind ≠ .identifier) (hfield : ∀ subject name, x.kind = .field subject name →
      ∃ z, c.exprs.get? subject = some z ∧ ∀ u, z.kind ≠ .typeName (.enum u)) :
    Agree t.exact (Kinned t) (fun v => nameEnumValue t.source expected (c.sounding v) e)
      (fun v => nameEnumValue t.source expected' (d.sounding v) e) := by
  refine .ok [] (nameEnumValue_idle hx (fun h => absurd h hname) hfield)
    (nameEnumValue_idle hy (fun h => absurd (hk ▸ h) hname) fun subject name h => ?_) ⟨k⟩
  obtain ⟨z, hz, hzk⟩ := hfield subject name (hk ▸ h)
  obtain ⟨z', hz', -⟩ := k.exists_right hz
  exact ⟨z', hz', fun u hu => hzk u ((k.typeName hz hz').2 hu)⟩

/-- **The same values are missed in both programs.** -/
theorem nameEnumValue (k : Kin t c d) (he : ¬ t.types e) {expected expected' : Option Ty}
    (hexpected : t.Same expected expected') :
    Agree t.exact (Kinned t) (fun v => nameEnumValue t.source expected (c.sounding v) e)
      (fun v => nameEnumValue t.source expected' (d.sounding v) e) := by
  cases hx : c.exprs.get? e with
  | none => exact .error fun v => by simp only [Analysis.nameEnumValue, get_sounding_none hx]; rfl
  | some x =>
  by_cases hs : c.Silent t.source x.kind
  · exact k.nameEnumValue_of_silent he hexpected hx hs
  -- what is not silent is the same in both programs
  obtain ⟨y, hy, -⟩ := k.exists_right hx
  have hk : y.kind = x.kind := (k.kinds e x y hx hy).resolve_right fun h => hs h.2.1
  have hname : x.kind ≠ .identifier := fun h => hs (.inr (.inl h))
  by_cases hfield : ∃ subject name, x.kind = .field subject name
  · obtain ⟨subject, name, hxk⟩ := hfield
    cases hz : c.exprs.get? subject with
    | none =>
      refine .error (e := .outOfRange) fun v => ?_
      simp only [Analysis.nameEnumValue, get_sounding hx, ok_bind, hxk, get_sounding_none hz]
      rfl
    | some z =>
    by_cases hzk : ∃ u, z.kind = .typeName (.enum u)
    · obtain ⟨u, hzk⟩ := hzk
      obtain ⟨z', hz', -⟩ := k.exists_right hz
      simp only [nameEnumValue_field hx hxk hz hzk,
        nameEnumValue_field hy (hk.trans hxk) hz' ((k.typeName hz hz').1 hzk), k.findEnumValue]
      cases hfind : c.findEnumValue t.source u name with
      | error fault => exact .error fun v => rfl
      | ok found =>
        cases found with
        | none => exact k.raiseAt .unknownEnumValue e
        | some w => exact absurd (.inr (.inr ⟨subject, name, z, u, w, hxk, hz, hzk, hfind⟩)) hs
    · refine k.nameEnumValue_of_idle hx hy hk hname fun subject' name' h => ⟨z, ?_, fun u hu => hzk ⟨u, hu⟩⟩
      rw [hxk] at h
      cases h
      exact hz
  · exact k.nameEnumValue_of_idle hx hy hk hname fun subject name h => absurd ⟨subject, name, h⟩ hfield

theorem recordType (k : Kin t c d) (e : ExprId) :
    Agree t.exact (KinnedWith t t.Same) (fun v => (c.sounding v).recordType e)
      (fun v => (d.sounding v).recordType e) := by
  simp only [recordType_sounding]
  exact .read (fun h => by rw [k.same h]) fun type type' _ _ hsame =>
    .pure ⟨hsame, k.setExprType hsame e⟩

/-- **The same is said about an expression in both programs.** -/
theorem typeExprWithin {fuel : Nat} (k : Kin t c d) (he : ¬ t.types e) {expected expected' : Option Ty}
    (hexpected : t.Same expected expected') :
    Agree t.exact (KinnedWith t t.Same)
      (fun v => typeExprWithin t.source fuel expected (c.sounding v) e)
      (fun v => typeExprWithin t.source fuel expected' (d.sounding v) e) := by
  induction fuel generalizing c d e expected expected' with
  | zero => exact .error fun v => rfl
  | succ fuel ih =>
  cases hx : c.exprs.get? e with
  | none => exact .error fun v => by simp only [Analysis.typeExprWithin, get_sounding_none hx]; rfl
  | some x =>
  obtain ⟨y, hy, -⟩ := k.exists_right hx
  -- nodes of one kind have the same operands, which are gone through in step
  by_cases hk : y.kind = x.kind
  · simp only [typeExprWithin_succ hx, typeExprWithin_succ hy, hk, operands_congr k.arguments]
    cases hes : c.operands x.kind with
    | error fault => exact .error fun v => rfl
    | ok es =>
      have hoperands : ∀ o ∈ es, ¬ t.types o := fun o ho =>
        k.operands e o (by rwa [operandsAt_of_get (Table.get_eq_ok.2 hx) hes])
      simp only [ok_bind]
      refine (Agree.foldlM (R := Kinned t) ⟨k⟩ fun o ho r r' hr => ?_).bind ?_
      · obtain ⟨k⟩ := hr
        refine (ih k (hoperands o ho) fun _ => rfl).bind ?_
        rintro _ _ ⟨-, k⟩
        exact .pure ⟨k⟩
      · rintro _ _ ⟨k⟩
        refine (k.nameEnumValue he hexpected).bind ?_
        rintro _ _ ⟨k⟩
        exact k.recordType e
  · -- one of the nodes has become an enum value: its operands are gone, but they were silent
    obtain ⟨-, hsc, hsd⟩ := (k.kinds e x y hx hy).resolve_left hk
    have hexact : ¬ t.exact := fun h => hk (k.kind_of_type (.inl h) hx hy)
    rcases typeExprWithin_silent hx hsc (fuel + 1) expected with ⟨fault, hf⟩ | ⟨type, c', hc', hf⟩
    · exact .error hf
    rcases typeExprWithin_silent hy hsd (fuel + 1) expected' with ⟨fault, hg⟩ | ⟨type', d', hd', hg⟩
    · exact .apart hexact fun v => ⟨fault, hg v⟩
    exact .ok [] hf hg ⟨fun h => absurd h hexact,
      k.hush_silent hc' hd' (fun h => absurd h hexact) he hx hsc⟩

theorem exprDepth (k : Kin t c d) : d.exprDepth = c.exprDepth := by
  rw [Program.exprDepth, size_exprs_congr k.frame, Program.exprDepth]

theorem typeExpr (k : Kin t c d) (he : ¬ t.types e) {expected expected' : Option Ty}
    (hexpected : t.Same expected expected') :
    Agree t.exact (KinnedWith t t.Same) (fun v => typeExpr t.source expected (c.sounding v) e)
      (fun v => typeExpr t.source expected' (d.sounding v) e) := by
  have hdepth : ∀ (p : Program) (v : Voice), (p.sounding v).program.exprDepth = p.exprDepth :=
    fun p v => by rw [Program.exprDepth, sounding, size_exprs_voiced, Program.exprDepth]
  simp only [Analysis.typeExpr, hdepth, k.exprDepth]
  exact k.typeExprWithin he hexpected

theorem typeExpr? (k : Kin t c d) {init : Option ExprId} (he : ∀ e, init = some e → ¬ t.types e)
    {expected expected' : Option Ty} (hexpected : t.Same expected expected') :
    Agree t.exact (KinnedWith t t.Same) (fun v => typeExpr? t.source expected (c.sounding v) init)
      (fun v => typeExpr? t.source expected' (d.sounding v) init) := by
  cases init with
  | none => exact .pure ⟨fun _ => rfl, k⟩
  | some e =>
    refine (k.typeExpr (he e rfl) hexpected).bind ?_
    rintro _ _ ⟨hsame, k⟩
    exact .pure ⟨fun h => congrArg some (hsame h), k⟩

/-- The same is said about what stands in the place of a type. -/
theorem typeNamed (k : Kin t c d) (he : t.exact ∨ t.types e) :
    Agree t.exact (KinnedWith t t.Same) (fun v => (c.sounding v).typeNamed e)
      (fun v => (d.sounding v).typeNamed e) := by
  cases hx : c.exprs.get? e with
  | none => exact .error fun v => by rw [Analysis.typeNamed, get_sounding_none hx]; rfl
  | some x =>
    obtain ⟨y, hy, hspan⟩ := k.exists_right hx
    refine .ok _ (typeNamed_sounding hx) (fun v => ?_) ⟨fun _ => rfl, k.setExprType (fun _ => rfl) e⟩
    rw [typeNamed_sounding hy, k.kind_of_type he hx hy, hspan]

theorem typeNamed? (k : Kin t c d) {typeExpr : Option ExprId}
    (he : ∀ e, typeExpr = some e → t.exact ∨ t.types e) :
    Agree t.exact (KinnedWith t t.Same) (fun v => (c.sounding v).typeNamed? typeExpr)
      (fun v => (d.sounding v).typeNamed? typeExpr) := by
  cases typeExpr with
  | none => exact .pure ⟨fun _ => rfl, k⟩
  | some e =>
    refine (k.typeNamed (he e rfl)).bind ?_
    rintro _ _ ⟨hsame, k⟩
    exact .pure ⟨fun h => congrArg some (hsame h), k⟩

end Kin

end FrontEnd
