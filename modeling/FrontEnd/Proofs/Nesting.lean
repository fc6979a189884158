import FrontEnd.Proofs.Frame
/-!
# FrontEnd — blocks laid out flat

`Lays p i j o` says that the statements from `i` up to `j` are the
outline `o` laid out flat: a statement without a body takes one place,
and one with a body is followed by the whole of it. A block so laid out
unfolds to its outline and to nothing else (`Lays.outlineWithin`), and
the outline holds every statement between the two ends exactly once
(`Lays.flatten`).
-/

namespace FrontEnd

/-- The statements from `i` up to, and without, `j` lay out the outline. -/
inductive Lays (p : Program) : Nat → Nat → Outline → Prop
  | done (i : Nat) : Lays p i i .done
  | leaf {i j : Nat} {rest : Outline} (single : p.bodyOf ⟨i⟩ = .ok none)
      (tail : Lays p (i + 1) j rest) : Lays p i j (.leaf ⟨i⟩ rest)
  | nested {i k j : Nat} {block : Block} {body rest : Outline}
      (owns : p.bodyOf ⟨i⟩ = .ok (some block)) (place : block.statements = ⟨i + 1, k - (i + 1)⟩)
      (inner : Lays p (i + 1) k body) (tail : Lays p k j rest) :
      Lays p i j (.nested ⟨i⟩ body rest)

/-- The outline of statements that follow each other. -/
def Outline.append : Outline → Outline → Outline
  | .stuck fault, _ => .stuck fault
  | .done, o => o
  | .leaf s rest, o => .leaf s (rest.append o)
  | .nested s body rest, o => .nested s body (rest.append o)

/-- What a body says of where its statements are. -/
def Program.bodyPlace (p : Program) (s : StmtId) : Except Fault (Option (IdRange .stmt)) :=
  (p.bodyOf s).map (Option.map Block.statements)

variable {p p' : Program} {i j k : Nat} {o o' : Outline}

/-- Only a statement that is held has a body, or none. -/
theorem Program.lt_size_of_bodyOf {s : StmtId} {body : Option Block} (h : p.bodyOf s = .ok body) :
    s.raw < p.stmts.size := by
  obtain ⟨stmt, hs, -⟩ := bind_eq_ok.1 h
  exact Table.lt_size_of_get? (Table.get_eq_ok.1 hs)

namespace Lays

theorem le (h : Lays p i j o) : i ≤ j := by
  induction h with
  | done i => exact Nat.le_refl i
  | leaf _ _ ih => omega
  | nested _ _ _ _ ihInner ihTail => omega

/-- The layout depends only on where the bodies of the statements are. -/
theorem congr (h : Lays p i j o)
    (hb : ∀ k, i ≤ k → k < j → p'.bodyPlace ⟨k⟩ = p.bodyPlace ⟨k⟩) : Lays p' i j o := by
  induction h with
  | done i => exact .done i
  | @leaf i j rest single tail ih =>
    have hle := tail.le
    refine .leaf ?_ (ih fun k hik hkj => hb k (by omega) hkj)
    have := hb i (Nat.le_refl i) (by omega)
    rw [Program.bodyPlace, Program.bodyPlace, single] at this
    cases hbody : p'.bodyOf ⟨i⟩ with
    | error fault => rw [hbody] at this; cases this
    | ok body =>
      cases body with
      | none => rfl
      | some body => rw [hbody] at this; cases this
  | @nested i k j block body rest owns place inner tail ihInner ihTail =>
    have hle := inner.le
    have hle' := tail.le
    have := hb i (Nat.le_refl i) (by omega)
    rw [Program.bodyPlace, Program.bodyPlace, owns] at this
    cases hbody : p'.bodyOf ⟨i⟩ with
    | error fault => rw [hbody] at this; cases this
    | ok body' =>
      cases body' with
      | none => rw [hbody] at this; cases this
      | some block' =>
        rw [hbody] at this
        have hplace : block'.statements = block.statements := by
          simpa [Except.map] using this
        exact .nested hbody (hplace.trans place)
          (ihInner fun l hil hlk => hb l (by omega) (by omega))
          (ihTail fun l hkl hlj => hb l (by omega) hlj)

theorem append (h : Lays p i k o) (h' : Lays p k j o') : Lays p i j (o.append o') := by
  induction h with
  | done i => exact h'
  | leaf single _ ih => exact .leaf single (ih h')
  | nested owns place inner _ _ ih => exact .nested owns place inner (ih h')

/-! ## Unfolding -/

/-- The children of the block are those of the outline. -/
theorem childrenFrom {b : Block} {places offset : Nat} (h : Lays p i j o)
    (hi : b.statements.start + offset = i) (hj : b.statements.start + b.len = j)
    (hp : j - i ≤ places) :
    ∃ ids, o.direct = .ok ids ∧ p.childrenFrom b places offset = .ok ⟨ids, b.len⟩ := by
  induction h generalizing places offset with
  | done i =>
    refine ⟨[], rfl, ?_⟩
    have hoff : offset = b.len := by omega
    cases places with
    | zero => simp [Program.childrenFrom, hoff, pure, Except.pure]
    | succ places => simp [Program.childrenFrom, hoff, pure, Except.pure]
  | @leaf i j rest single tail ih =>
    have hle := tail.le
    obtain ⟨places, rfl⟩ : ∃ n, places = n + 1 := ⟨places - 1, by omega⟩
    obtain ⟨ids, hids, hrest⟩ := @ih places (offset + 1) (by omega) hj (by omega)
    refine ⟨⟨i⟩ :: ids, by simp [Outline.direct, hids, ok_bind, pure, Except.pure], ?_⟩
    have hs : b.stmtAt offset = ⟨i⟩ := by simp [Block.stmtAt, hi]
    simp only [Program.childrenFrom, if_pos (show offset < b.len by omega), hs, Program.slotCount,
      single, ok_bind, pure, Except.pure, hrest]
  | @nested i k j block body rest owns place inner tail ihInner ihTail =>
    have hle := inner.le
    have hle' := tail.le
    obtain ⟨places, rfl⟩ : ∃ n, places = n + 1 := ⟨places - 1, by omega⟩
    obtain ⟨ids, hids, hrest⟩ := @ihTail places (offset + (k - i)) (by omega) hj (by omega)
    refine ⟨⟨i⟩ :: ids, by simp [Outline.direct, hids, ok_bind, pure, Except.pure], ?_⟩
    have hs : b.stmtAt offset = ⟨i⟩ := by simp [Block.stmtAt, hi]
    have hslots : offset + (1 + block.len) = offset + (k - i) := by
      simp only [Block.len, place]
      omega
    simp only [Program.childrenFrom, if_pos (show offset < b.len by omega), hs, Program.slotCount,
      owns, ok_bind, pure, Except.pure, hslots, hrest]

/-- A block of statements lists the children of its outline. -/
theorem children (h : Lays p i j o) (t : SymbolTableId) :
    ∃ ids, o.direct = .ok ids ∧ p.children ⟨⟨i, j - i⟩, t⟩ = .ok ⟨ids, j - i⟩ := by
  have hle := h.le
  exact @childrenFrom _ _ _ _ ⟨⟨i, j - i⟩, t⟩ _ 0 h rfl (by simp only [Block.len]; omega) (Nat.le_refl _)

/-- The statements of the block itself are held. -/
theorem direct_held (h : Lays p i j o) :
    ∃ ids, o.direct = .ok ids ∧ ∀ s ∈ ids, ∃ stmt, p.stmts.get? s = some stmt := by
  induction h with
  | done i => exact ⟨[], rfl, by simp⟩
  | @leaf i j rest single tail ih =>
    obtain ⟨ids, hids, hall⟩ := ih
    refine ⟨⟨i⟩ :: ids, by simp [Outline.direct, hids, ok_bind, pure, Except.pure], ?_⟩
    exact List.forall_mem_cons.2
      ⟨Table.exists_get?_of_lt (Program.lt_size_of_bodyOf single), hall⟩
  | @nested i k j block body rest owns place inner tail _ ih =>
    obtain ⟨ids, hids, hall⟩ := ih
    refine ⟨⟨i⟩ :: ids, by simp [Outline.direct, hids, ok_bind, pure, Except.pure], ?_⟩
    exact List.forall_mem_cons.2 ⟨Table.exists_get?_of_lt (Program.lt_size_of_bodyOf owns), hall⟩

/-- **A block laid out flat unfolds to its outline.** -/
theorem outlineWithin {fuel : Nat} (h : Lays p i j o) (hf : j - i < fuel) (t : SymbolTableId) :
    p.outlineWithin fuel ⟨⟨i, j - i⟩, t⟩ = o := by
  induction fuel generalizing i j o t with
  | zero => omega
  | succ fuel ih =>
    obtain ⟨ids, hdirect, hchildren⟩ := h.children t
    simp only [Program.outlineWithin, hchildren]
    -- the fold puts the outline together again, a child at a time
    clear hchildren
    induction h generalizing ids with
    | done i =>
      cases hdirect
      rfl
    | @leaf i j rest single tail ihTail =>
      have hle := tail.le
      simp only [Outline.direct, bind_eq_ok, pure_eq_ok] at hdirect
      obtain ⟨ids', hids', rfl⟩ := hdirect
      simp only [List.foldr_cons, single, ihTail (by omega) ids' hids']
    | @nested i k j block body rest owns place inner tail ihInner ihTail =>
      have hle := inner.le
      have hle' := tail.le
      simp only [Outline.direct, bind_eq_ok, pure_eq_ok] at hdirect
      obtain ⟨ids', hids', rfl⟩ := hdirect
      have hbody : p.outlineWithin fuel block = body := by
        have := ih inner (by omega) block.symbolTable
        rwa [← place] at this
      simp only [List.foldr_cons, owns, ihTail (by omega) ids' hids', hbody]

/-- **The outline holds every statement between the ends once**, in order. -/
theorem flatten (h : Lays p i j o) : o.flatten = .ok (IdRange.mk i (j - i)).ids := by
  induction h with
  | done i => simp [Outline.flatten, IdRange.ids]
  | @leaf i j rest single tail ih =>
    have hle := tail.le
    simp only [Outline.flatten, ih, ok_bind, pure, Except.pure, Except.ok.injEq]
    rw [show j - i = (j - (i + 1)) + 1 by omega]
    simp [IdRange.ids, List.range'_succ]
  | @nested i k j block body rest owns place inner tail ihInner ihTail =>
    have hle := inner.le
    have hle' := tail.le
    simp only [Outline.flatten, ihInner, ihTail, ok_bind, pure, Except.pure, Except.ok.injEq]
    rw [show j - i = ((k - (i + 1)) + (j - k)) + 1 by omega]
    simp only [IdRange.ids, List.range'_succ, List.map_cons, ← List.map_append]
    rw [show List.range' k (j - k) = List.range' (i + 1 + (k - (i + 1))) (j - k) by
      rw [show i + 1 + (k - (i + 1)) = k by omega], List.range'_append_1]

end Lays

/-- A program lays out its whole list of statements. -/
theorem Program.outline_of_lays (h : Lays p 0 p.stmts.size o)
    (hb : p.block.statements = ⟨0, p.stmts.size⟩) : p.outline p.block = o := by
  have hf : p.stmts.size - 0 < p.stmts.size + 1 := by omega
  have := h.outlineWithin hf p.block.symbolTable
  rwa [Nat.sub_zero, ← hb] at this

end FrontEnd
