import FrontEnd.Proofs.LayoutAgain
/-!
# FrontEnd — well-placed blocks

`Program.checkBlocks` looks at every block for itself: where the bodies
of its children start, and whether they end inside it. What it accepts
is laid out flat (`exists_lays`), and what is laid out flat, with every
block in a scope that is there, it accepts (`checkBlockWithin_of_lays`).
-/

namespace FrontEnd

namespace Program

variable {p : Program} {b body : Block} {s : StmtId} {i j : Nat} {o : Outline}

/-! ## What is accepted is laid out flat -/

theorem checkPlace_eq_ok {limit : Nat} : checkPlace limit s body = .ok () ↔
    body.statements.start = s.raw + 1 ∧ body.statements.stop ≤ limit := by
  unfold checkPlace
  split
  · next h => simp [h]
  · next h =>
    rw [not_not] at h
    split
    · next hlt => simp [Nat.not_le_of_lt hlt]
    · next hle => simp [h, Nat.le_of_not_lt hle]

/-- The children from an offset on lay out the rest of the block, if
their bodies are well placed and laid out flat. -/
theorem exists_lays_of_childrenFrom {places offset : Nat} {children : Children}
    (h : p.childrenFrom b places offset = .ok children) (hoffset : offset ≤ b.len)
    (hplaces : b.len ≤ offset + places)
    (inner : ∀ s ∈ children.ids, ∀ body, p.bodyOf s = .ok (some body) →
      (body.statements.start = s.raw + 1 ∧ body.statements.stop ≤ b.statements.stop) ∧
        ∃ o, Lays p body.statements.start body.statements.stop o) :
    ∃ o, Lays p (b.statements.start + offset) b.statements.stop o := by
  have hend : ∃ o, Lays p (b.statements.start + b.len) b.statements.stop o := ⟨.done, .done _⟩
  induction places generalizing offset children with
  | zero => rwa [show offset = b.len by omega]
  | succ places ih =>
    unfold childrenFrom at h
    split at h
    · next hlt =>
      obtain ⟨slots, hslots, h⟩ := bind_eq_ok.1 h
      obtain ⟨rest, hrest, h⟩ := bind_eq_ok.1 h
      obtain rfl := pure_eq_ok.1 h
      obtain ⟨hchild, hinner⟩ := List.forall_mem_cons.1 inner
      obtain ⟨found, hbody, hslots⟩ := bind_eq_ok.1 hslots
      cases found with
      | none =>
        obtain rfl : 1 = slots := pure_eq_ok.1 hslots
        obtain ⟨o, tail⟩ := ih hrest (by omega) (by omega) hinner
        exact ⟨_, .leaf hbody tail⟩
      | some body =>
        obtain rfl : 1 + body.len = slots := pure_eq_ok.1 hslots
        obtain ⟨⟨hstart, hstop⟩, o, lays⟩ := hchild body hbody
        -- the rest of the block follows behind the body
        have hbehind : b.statements.start + (offset + (1 + body.len)) = body.statements.stop := by
          simp only [IdRange.stop, hstart, Block.stmtAt, Block.len]
          omega
        have hle : offset + (1 + body.len) ≤ b.len := by
          simp only [IdRange.stop, Block.len] at hbehind hstop ⊢
          omega
        obtain ⟨rest, tail⟩ := ih hrest hle (by omega) hinner
        rw [hbehind] at tail
        rw [hstart] at lays
        refine ⟨_, .nested hbody ?_ lays tail⟩
        simp only [IdRange.stop, hstart, Block.stmtAt, Nat.add_sub_cancel_left]
        rw [← show body.statements.start = b.statements.start + offset + 1 from hstart]
    · next hge => rwa [show offset = b.len by omega]

theorem exists_lays_of_checkBlockWithin {fuel : Nat} (h : p.checkBlockWithin fuel b = .ok ()) :
    ∃ o, Lays p b.statements.start b.statements.stop o := by
  induction fuel generalizing b with
  | zero => cases h
  | succ fuel ih =>
    obtain ⟨-, -, h⟩ := bind_eq_ok.1 h
    obtain ⟨bodies, hbodies, h⟩ := bind_eq_ok.1 h
    obtain ⟨⟨⟩, hplaces, hinner⟩ := bind_eq_ok.1 h
    rw [lift_eq_ok] at hbodies
    obtain ⟨children, hchildren, -⟩ := bind_eq_ok.1 hbodies
    refine exists_lays_of_childrenFrom hchildren (Nat.zero_le _) (by omega) fun s hs body hbody => ?_
    have hmem := (mem_bodies hchildren hbodies).2 ⟨hs, hbody⟩
    exact ⟨checkPlace_eq_ok.1 (forM_eq_ok.1 hplaces _ hmem),
      ih (forM_eq_ok.1 hinner _ (List.mem_reverse.2 hmem))⟩

/-- **The statements of a program with well-placed blocks lay out its
outline.** -/
theorem exists_lays (h : p.checkBlocks = .ok ()) :
    ∃ o, Lays p p.block.statements.start p.block.statements.stop o ∧ p.outline p.block = o := by
  unfold checkBlocks at h
  split at h
  · cases h
  · next hfits =>
    obtain ⟨o, lays⟩ := exists_lays_of_checkBlockWithin h
    refine ⟨o, lays, ?_⟩
    have hlen : p.block.statements.stop - p.block.statements.start = p.block.statements.len :=
      Nat.add_sub_cancel_left ..
    have hfuel : p.block.statements.stop - p.block.statements.start < p.stmts.size + 1 := by
      simp only [IdRange.stop] at hfits ⊢
      omega
    have houtline := lays.outlineWithin hfuel p.block.symbolTable
    rwa [hlen] at houtline

/-! ## What is laid out flat is accepted -/

end Program

/-- A child of a block has a body that is well placed, if it has one. -/
theorem Lays.child {p : Program} {i j : Nat} {o : Outline} (h : Lays p i j o) {ids : List StmtId}
    (hids : o.direct = .ok ids) {s : StmtId} (hs : s ∈ ids) :
    i ≤ s.raw ∧ s.raw < j ∧ (p.bodyOf s = .ok none ∨
      ∃ body k o', p.bodyOf s = .ok (some body) ∧
        body.statements = ⟨s.raw + 1, k - (s.raw + 1)⟩ ∧ k ≤ j ∧ Lays p (s.raw + 1) k o') := by
  induction h generalizing ids with
  | done i =>
    cases hids
    simp at hs
  | @leaf i j rest single tail ih =>
    have hle := tail.le
    obtain ⟨ids', hids', hids⟩ := bind_eq_ok.1 hids
    cases pure_eq_ok.1 hids
    rcases List.mem_cons.1 hs with rfl | hs
    · exact ⟨Nat.le_refl _, hle, .inl single⟩
    · obtain ⟨hi, hj, hbody⟩ := ih hids' hs
      exact ⟨by omega, hj, hbody⟩
  | @nested i k j block body rest owns place inner tail _ ih =>
    have hle := inner.le
    have hle' := tail.le
    obtain ⟨ids', hids', hids⟩ := bind_eq_ok.1 hids
    cases pure_eq_ok.1 hids
    rcases List.mem_cons.1 hs with rfl | hs
    · exact ⟨Nat.le_refl _, Nat.lt_of_lt_of_le hle hle', .inr ⟨block, k, body, owns, place, hle', inner⟩⟩
    · obtain ⟨hi, hj, hbody⟩ := ih hids' hs
      exact ⟨by omega, hj, hbody⟩

namespace Program

variable {p : Program} {b : Block} {i j : Nat} {o : Outline}

/-- **Blocks that are laid out flat are well placed**, as long as their
scopes are there. -/
theorem checkBlockWithin_of_lays {fuel : Nat} (scopes : p.ScopesHeld) (lays : Lays p i j o)
    (hb : b.statements = ⟨i, j - i⟩) (hscope : b.symbolTable.raw < p.symbolTables.size)
    (hf : j - i < fuel) : p.checkBlockWithin fuel b = .ok () := by
  induction fuel generalizing b i j o with
  | zero => omega
  | succ fuel ih =>
    have hle := lays.le
    obtain ⟨statements, scope⟩ := b
    obtain rfl : statements = ⟨i, j - i⟩ := hb
    obtain ⟨ids, hids, hchildren⟩ := lays.children scope
    obtain ⟨bodies, hbodies⟩ : ∃ bodies, p.bodies ⟨⟨i, j - i⟩, scope⟩ = .ok bodies := by
      simp only [Program.bodies, hchildren, ok_bind]
      refine exists_filterMapM fun s hs => ?_
      obtain ⟨-, -, hbody | ⟨body, -, -, hbody, -⟩⟩ := lays.child hids hs
      · exact ⟨_, by rw [hbody]; rfl⟩
      · exact ⟨_, by rw [hbody]; rfl⟩
    -- each body starts behind its owner and is laid out up to a place in the block
    have hplaced : ∀ c ∈ bodies, p.bodyOf c.1 = .ok (some c.2) ∧ i ≤ c.1.raw ∧
        ∃ k o', c.2.statements = ⟨c.1.raw + 1, k - (c.1.raw + 1)⟩ ∧ k ≤ j ∧
          Lays p (c.1.raw + 1) k o' := by
      intro c hc
      obtain ⟨hs, hbody⟩ := (mem_bodies hchildren hbodies).1 hc
      obtain ⟨hi, -, hnone | ⟨body, k, o', hsome, hplace, hk, inner⟩⟩ := lays.child hids hs
      · rw [hnone] at hbody
        cases hbody
      · rw [hsome] at hbody
        cases hbody
        exact ⟨hsome, hi, k, o', hplace, hk, inner⟩
    simp only [checkBlockWithin, Table.checkId_eq_ok.2 hscope, hbodies, lift_ok, ok_bind]
    refine bind_eq_ok.2 ⟨(), forM_eq_ok.2 fun c hc => ?_, forM_eq_ok.2 fun c hc => ?_⟩
    · obtain ⟨-, -, k, o', hplace, hk, inner⟩ := hplaced c hc
      have := inner.le
      rw [checkPlace_eq_ok, hplace]
      refine ⟨rfl, ?_⟩
      simp only [IdRange.stop]
      omega
    · obtain ⟨hbody, hi, k, o', hplace, hk, inner⟩ := hplaced c (List.mem_reverse.1 hc)
      have := inner.le
      exact ih inner hplace (scopes.bodies _ _ hbody) (by omega)

end Program

end FrontEnd
