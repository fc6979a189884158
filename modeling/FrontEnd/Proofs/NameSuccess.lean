import FrontEnd.Proofs.NameWalk
/-!
# FrontEnd — what the name pass needs

The name pass looks every expression of a statement or signature up, so
it succeeds only on programs that hold them all (`slotsHeld_of_bindNames`).
With `bindNames_ok` this says when it succeeds.
-/

namespace FrontEnd

namespace Program

variable {p p' p₀ : Program} {source : String} {scope : SymbolTableId} {e : ExprId} {s : StmtId}
variable {topLevel : Bool}

/-! ## Each step keeps the frame -/

theorem frame_bindExprWithin {fuel : Nat} (h : bindExprWithin source scope fuel p e = .ok p') :
    p'.frame = p.frame := by
  induction fuel generalizing p p' e with
  | zero => cases h
  | succ fuel ih =>
    obtain ⟨x, -, h⟩ := bind_eq_ok.1 h
    have hfold : ∀ {es : List ExprId}, es.foldlM (bindExprWithin source scope fuel) p = .ok p' →
        p'.frame = p.frame := fun h =>
      foldlM_invariant (fun q => q.frame = p.frame) (fun _ _ _ _ hq h => (ih h).trans hq) rfl h
    obtain ⟨kind, span, type, flagged⟩ := x
    cases kind with
    | identifier =>
      obtain ⟨kind, -, h⟩ := bind_eq_ok.1 h
      cases kind with
      | none => rw [pure_eq_ok.1 h]
      | some kind => rw [← pure_eq_ok.1 h, frame_setKind]
    | _ =>
      obtain ⟨es, -, h⟩ := bind_eq_ok.1 h
      exact hfold h

theorem lt_size_of_bindExpr (h : bindExpr source scope p e = .ok p') : e.raw < p.exprs.size := by
  obtain ⟨x, hx, -⟩ := bind_eq_ok.1 h
  exact Table.lt_size_of_get? (Table.get_eq_ok.1 hx)

/-- Binding the names in several expressions shows that they are held. -/
theorem bindExprs_held {rs : List ExprId} (h : bindExprs source scope p rs = .ok p') :
    p'.frame = p.frame ∧ ∀ r ∈ rs, r.raw < p.exprs.size := by
  induction rs generalizing p with
  | nil =>
    obtain rfl := foldlM_nil_eq_ok.1 h
    exact ⟨rfl, by simp⟩
  | cons r rs ih =>
    obtain ⟨q, hq, hrest⟩ := foldlM_cons_eq_ok.1 h
    obtain ⟨hframe, hheld⟩ := ih hrest
    have hq' : q.frame = p.frame := frame_bindExprWithin hq
    refine ⟨hframe.trans hq', List.forall_mem_cons.2 ⟨lt_size_of_bindExpr hq, ?_⟩⟩
    rwa [size_exprs_congr hq'] at hheld

theorem frame_declareTarget {t : Target} (h : p.declareTarget scope t = .ok p') :
    p'.frame = p.frame := by
  obtain ⟨tables, rfl, -⟩ := tables_of_declareTarget h
  rfl

theorem frame_declareAllAhead {outline : Outline}
    (h : declareAllAhead topLevel scope p outline = .ok p') : p'.frame = p.frame := by
  obtain ⟨direct, -, h⟩ := bind_eq_ok.1 h
  refine foldlM_invariant (fun q => q.frame = p.frame) (fun s _ q q' hq h => ?_) rfl h
  obtain ⟨stmt, -, h⟩ := bind_eq_ok.1 h
  cases hk : stmt.kind.declares with
  | nothing =>
    simp only [hk] at h
    exact pure_eq_ok.1 h ▸ hq
  | function f =>
    simp only [hk] at h
    exact (frame_declareTarget h).trans hq
  | value t =>
    simp only [hk] at h
    split at h
    · exact (frame_declareTarget h).trans hq
    · exact pure_eq_ok.1 h ▸ hq

theorem frame_declareInside (h : declareInside scope p s = .ok p') : p'.frame = p.frame := by
  obtain ⟨stmt, -, h⟩ := bind_eq_ok.1 h
  split at h
  · obtain ⟨r, -, h⟩ := bind_eq_ok.1 h
    obtain ⟨parameters, -, h⟩ := bind_eq_ok.1 h
    exact foldlM_invariant (fun q => q.frame = p.frame)
      (fun _ _ _ _ hq h => (frame_declareTarget h).trans hq) rfl h
  · exact frame_declareTarget h
  · rw [pure_eq_ok.1 h]

theorem frame_openScope {inner : SymbolTableId} (h : p.openScope s scope = .ok (inner, p')) :
    p'.frame = p.frame := by
  obtain ⟨q, hq, h⟩ := bind_eq_ok.1 h
  rw [lift_eq_ok] at hq
  cases q with
  | none => cases h
  | some q =>
    cases pure_eq_ok.1 h
    have hchange : ∀ b : Block,
        ({ b with symbolTable := p.symbolTables.nextId } : Block).frame = b.frame := fun _ => rfl
    exact @frame_updateBody (p.addSymbolTable scope).2 p' s _ hchange hq

/-! ## What a successful step shows -/

/-- The names before a body can be bound only if they are held. -/
theorem bindHead_held (h : bindHead source scope p s = .ok p') :
    p'.frame = p.frame ∧ ∀ r ∈ p.slotsAt s, r.raw < p.exprs.size := by
  obtain ⟨⟨kind, span⟩, hs, h⟩ := bind_eq_ok.1 h
  simp only [slotsAt, hs, ok_bind]
  cases kind with
  | function f =>
    obtain ⟨es, hes, h⟩ := bind_eq_ok.1 h
    simp only [hes, elements_ok]
    exact bindExprs_held h
  | _ => exact bindExprs_held h

theorem bindLeaf_held (single : p.bodyOf s = .ok none)
    (h : bindLeaf source topLevel scope p s = .ok p') :
    p'.frame = p.frame ∧ ∀ r ∈ p.slotsAt s, r.raw < p.exprs.size := by
  obtain ⟨⟨kind, span⟩, hs, h⟩ := bind_eq_ok.1 h
  obtain ⟨q, hq, h⟩ := bind_eq_ok.1 h
  have hslots : p.slotsAt s = kind.exprs := by
    simp only [slotsAt, hs, ok_bind]
    simp only [bodyOf, hs, ok_bind] at single
    cases kind with
    | function f =>
      obtain ⟨r, -, hr⟩ := bind_eq_ok.1 single
      cases hr
    | _ => rfl
  obtain ⟨hframe, hheld⟩ := bindExprs_held hq
  refine ⟨Eq.trans ?_ hframe, hslots ▸ hheld⟩
  split at h
  · split at h
    · rw [pure_eq_ok.1 h]
    · exact frame_declareTarget h
  · rw [pure_eq_ok.1 h]

/-- The walk of an outline succeeds only if all that stands in it is held. -/
theorem bindOutline_held {i j : Nat} {outline : Outline} (lays : Lays p₀ i j outline)
    (hframe : p.frame = p₀.frame) (h : bindOutline source topLevel scope outline p = .ok p') :
    p'.frame = p₀.frame ∧
      ∀ k, i ≤ k → k < j → ∀ r ∈ p₀.slotsAt ⟨k⟩, r.raw < p₀.exprs.size := by
  induction lays generalizing topLevel scope p p' with
  | done i =>
    obtain rfl := pure_eq_ok.1 h
    exact ⟨hframe, by omega⟩
  | @leaf i j rest single tail ih =>
    obtain ⟨q, hq, h⟩ := bind_eq_ok.1 h
    obtain ⟨hq', hheld⟩ := bindLeaf_held (bodyOf_none_congr hframe single) (lift_eq_ok.1 hq)
    rw [slotsAt_congr hframe, size_exprs_congr hframe] at hheld
    obtain ⟨hp', hrest⟩ := ih (hq'.trans hframe) h
    refine ⟨hp', fun k hik hkj => ?_⟩
    rcases Nat.eq_or_lt_of_le hik with rfl | hlt
    · exact hheld
    · exact hrest k hlt hkj
  | @nested i k j block body rest owns place inner tail ihBody ihRest =>
    obtain ⟨q₁, hq₁, h⟩ := bind_eq_ok.1 h
    obtain ⟨hframe₁, hheld⟩ := bindHead_held (lift_eq_ok.1 hq₁)
    obtain ⟨⟨scope', q₂⟩, hq₂, h⟩ := bind_eq_ok.1 h
    obtain ⟨q₃, hq₃, h⟩ := bind_eq_ok.1 h
    obtain ⟨q₄, hq₄, h⟩ := bind_eq_ok.1 h
    obtain ⟨q₅, hq₅, h⟩ := bind_eq_ok.1 h
    rw [slotsAt_congr hframe, size_exprs_congr hframe] at hheld
    have hframe₄ : q₄.frame = p₀.frame := by
      rw [frame_declareAllAhead (lift_eq_ok.1 hq₄), frame_declareInside (lift_eq_ok.1 hq₃),
        frame_openScope hq₂, hframe₁, hframe]
    obtain ⟨hframe₅, hbody⟩ := ihBody hframe₄ hq₅
    obtain ⟨hp', hrest⟩ := ihRest hframe₅ h
    refine ⟨hp', fun l hil hlj => ?_⟩
    rcases Nat.eq_or_lt_of_le hil with rfl | hlt
    · exact hheld
    · by_cases hlk : l < k
      · exact hbody l hlt hlk
      · exact hrest l (by omega) hlj

/-- **The name pass succeeds only on programs that hold every expression
in a statement or signature.** -/
theorem slotsHeld_of_bindNames (regular : p.Regular) (h : p.bindNames source = .ok p') :
    p.SlotsHeld := by
  obtain ⟨outline, lays⟩ := regular.layout
  have houtline : p.outline p.block = outline := outline_of_lays lays regular.whole
  obtain ⟨q, hq, h⟩ := bind_eq_ok.1 h
  rw [houtline] at h
  have hframe := frame_declareAllAhead (lift_eq_ok.1 hq)
  obtain ⟨-, hheld⟩ := bindOutline_held lays hframe h
  intro s r hr
  exact hheld s.raw (Nat.zero_le _) (lt_size_of_mem_slotsAt hr) r hr

/-- **What the name pass does, whenever it succeeds.** -/
theorem namesBound_of_bindNames (regular : p.Regular) (hpos : 0 < p.symbolTables.size)
    (h : p.bindNames source = .ok p') : NamesBound p source p' := by
  obtain ⟨q, hq, bound⟩ := bindNames_ok source regular
    (slotsHeld_of_bindNames regular h) hpos
  rw [h] at hq
  exact Except.ok.inj hq ▸ bound

end Program

end FrontEnd
