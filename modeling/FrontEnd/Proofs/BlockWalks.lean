import FrontEnd.Proofs.Placement
/-!
# FrontEnd — walking blocks

The blocks of a program form a tree (`Program.BlockIn`). Of a program with
a good layout each of them is laid out flat, and so all ways to walk it
agree (`walks_exact`): the children end where the block does, going on
from child to child finds them as well (`Program.Hops`), a statement takes
as many places as are counted by walking its body, and the walk through
all bodies comes by every statement of the block once.
-/

namespace FrontEnd

namespace Program

/-- The blocks that can be reached from the top level, each with the
statement that owns it and the block around that statement. The top level
has neither. -/
inductive BlockIn (p : Program) : (owner : Option StmtId) → (around : Option Block) → Block → Prop
  | top : BlockIn p none none p.block
  | body {owner : Option StmtId} {around : Option Block} {b : Block} {children : Children}
      {s : StmtId} {body : Block} (outside : BlockIn p owner around b)
      (listed : p.children b = .ok children) (child : s ∈ children.ids)
      (owns : p.bodyOf s = .ok (some body)) : BlockIn p (some s) (some b) body

/-- The offsets that come one after another, up to one after which there
is none. -/
inductive Hops (p : Program) (b : Block) : Nat → List Nat → Prop
  | last {offset : Nat} (stop : p.nextOffset b offset = .ok none) : Hops p b offset [offset]
  | hop {offset next : Nat} {rest : List Nat} (go : p.nextOffset b offset = .ok (some next))
      (tail : Hops p b next rest) : Hops p b offset (offset :: rest)

variable {p : Program} {b body : Block} {s : StmtId} {i j : Nat} {o : Outline}
variable {owner : Option StmtId} {around : Option Block}

/-- Where the walk over the children ends with the block, going on from
child to child comes by the same ones. -/
theorem exists_hops {places offset : Nat} {ids : List StmtId}
    (h : p.childrenFrom b places offset = .ok ⟨ids, b.len⟩) (hlt : offset < b.len) :
    ∃ offsets, p.Hops b offset offsets ∧ ids = offsets.map b.stmtAt ∧ offsets.length ≤ places := by
  induction places generalizing offset ids with
  | zero =>
    cases h
    exact absurd hlt (Nat.lt_irrefl _)
  | succ places ih =>
    rw [childrenFrom, if_pos hlt] at h
    obtain ⟨slots, hslots, h⟩ := bind_eq_ok.1 h
    obtain ⟨⟨ids, stop⟩, hrest, h⟩ := bind_eq_ok.1 h
    cases pure_eq_ok.1 h
    have hnext : p.nextOffset b offset =
        .ok (if offset + slots < b.len then some (offset + slots) else none) := by
      rw [nextOffset, hslots]
      rfl
    by_cases hgo : offset + slots < b.len
    · obtain ⟨offsets, hops, rfl, hlen⟩ := ih hrest hgo
      rw [if_pos hgo] at hnext
      exact ⟨offset :: offsets, .hop hnext hops, rfl, Nat.succ_le_succ hlen⟩
    · rw [if_neg hgo] at hnext
      obtain rfl : [] = ids := by
        cases places with
        | zero => exact congrArg Children.ids (pure_eq_ok.1 hrest)
        | succ places =>
          rw [childrenFrom, if_neg hgo] at hrest
          exact congrArg Children.ids (pure_eq_ok.1 hrest)
      exact ⟨[offset], .last hnext, rfl, Nat.succ_le_succ (Nat.zero_le _)⟩

theorem Hops.offsetsFrom_eq {offset places : Nat} {offsets : List Nat} (hops : p.Hops b offset offsets)
    (hp : offsets.length ≤ places) : p.offsetsFrom b places offset = .ok offsets := by
  induction hops generalizing places with
  | last stop =>
    obtain ⟨places, rfl⟩ := Nat.exists_eq_add_of_le' (show 1 ≤ places from hp)
    rw [offsetsFrom, stop]
    rfl
  | hop go tail ih =>
    obtain ⟨places, rfl⟩ := Nat.exists_eq_add_of_le' (show 1 ≤ places from Nat.le_trans (Nat.succ_pos _) hp)
    rw [offsetsFrom, go, ok_bind]
    simp only [ih (Nat.le_of_succ_le_succ hp)]
    rfl

end Program

open Program

namespace Lays

variable {p : Program} {b : Block} {s : StmtId} {i j : Nat} {o : Outline}

/-- A body that stands right behind its owner lies between its own ends. -/
theorem ofPlace (inner : Lays p (i + 1) j o) (place : b.statements = ⟨i + 1, j - (i + 1)⟩) :
    Lays p b.statements.start b.statements.stop o := by
  rwa [place, IdRange.stop, Nat.add_sub_of_le inner.le]

/-- What lies between two ends is there. -/
theorem stop_le_size (h : Lays p i j o) (hlt : i < j) : j ≤ p.stmts.size := by
  induction h with
  | done i => omega
  | @leaf i j rest single tail ih =>
    have hi : i < p.stmts.size := lt_size_of_bodyOf single
    by_cases htail : i + 1 < j
    · exact ih htail
    · omega
  | @nested i k j block body rest owns place inner tail ihInner ihTail =>
    have hi : i < p.stmts.size := lt_size_of_bodyOf owns
    have hle' := tail.le
    by_cases htail : k < j
    · exact ihTail htail
    · by_cases hinner : i + 1 < k
      · have := ihInner hinner
        omega
      · omega

/-- An outline has as many statements as there are between the ends. -/
theorem size (h : Lays p i j o) : o.size = .ok (j - i) := by
  induction h with
  | done i => simp [Outline.size]
  | leaf single tail ih =>
    have hle := tail.le
    rw [Outline.size, ih, ok_bind, pure_eq_ok]
    omega
  | nested owns place inner tail ihInner ihTail =>
    have hle := inner.le
    have hle' := tail.le
    rw [Outline.size, ihInner, ok_bind, ihTail, ok_bind, pure_eq_ok]
    omega

/-- Every statement between the ends, in whatever body, stands alone or is
followed by the whole of its body. -/
theorem inside (h : Lays p i j o) (hi : i ≤ s.raw) (hj : s.raw < j) : p.bodyOf s = .ok none ∨
    ∃ body o', p.bodyOf s = .ok (some body) ∧
      Lays p body.statements.start body.statements.stop o' := by
  induction h with
  | done i => omega
  | @leaf i j rest single tail ih =>
    rcases Nat.eq_or_lt_of_le hi with rfl | hlt
    · exact .inl single
    · exact ih hlt hj
  | @nested i k j block body rest owns place inner tail ihInner ihTail =>
    rcases Nat.eq_or_lt_of_le hi with rfl | hlt
    · exact .inr ⟨block, body, owns, inner.ofPlace place⟩
    · rcases Nat.lt_or_ge s.raw k with hk | hk
      · exact ihInner hlt hk
      · exact ihTail hk hj

/-! ## Walks of a block -/

/-- A block that is laid out lists its children, and ends behind the last. -/
theorem listed (h : Lays p b.statements.start b.statements.stop o) :
    ∃ ids, o.direct = .ok ids ∧ p.children b = .ok ⟨ids, b.len⟩ :=
  h.childrenFrom rfl rfl (by simp [IdRange.stop, Block.len])

/-- A block that is laid out unfolds to its outline. -/
theorem unfolds (h : Lays p b.statements.start b.statements.stop o) : p.outline b = o := by
  have hlen : b.statements.stop - b.statements.start = b.statements.len := Nat.add_sub_cancel_left ..
  have hfuel : b.statements.stop - b.statements.start < p.stmts.size + 1 := by
    rcases Nat.eq_or_lt_of_le h.le with heq | hlt
    · omega
    · have := h.stop_le_size hlt
      omega
  have houtline := h.outlineWithin hfuel b.symbolTable
  rwa [hlen] at houtline

/-- A statement takes as many places as are counted in its body. -/
theorem slotCount_eq_subtree (h : Lays p i j o) (hi : i ≤ s.raw) (hj : s.raw < j) :
    ∃ n, p.slotCount s = .ok n ∧ p.subtreeSlotCount s = .ok n := by
  rcases h.inside hi hj with hnone | ⟨body, o', hsome, inner⟩
  · exact ⟨1, by rw [slotCount, hnone]; rfl, by rw [subtreeSlotCount, hnone]; rfl⟩
  · refine ⟨1 + body.len, by rw [slotCount, hsome]; rfl, ?_⟩
    rw [subtreeSlotCount, hsome, ok_bind]
    simp only [inner.unfolds, inner.size, IdRange.stop, Nat.add_sub_cancel_left]
    rfl

/-- The places counted for the statements of a block itself, one after the
other, are all of its places. -/
theorem count_slots (h : Lays p i j o) : ∃ ids, o.direct = .ok ids ∧
    ∀ n, ids.foldlM (fun n s => return n + (← p.subtreeSlotCount s)) n = .ok (n + (j - i)) := by
  induction h with
  | done i => exact ⟨[], rfl, fun n => by simp [pure, Except.pure]⟩
  | @leaf i j rest single tail ih =>
    obtain ⟨ids, hids, hcount⟩ := ih
    have hle := tail.le
    have hself : p.subtreeSlotCount ⟨i⟩ = .ok 1 := by
      rw [subtreeSlotCount, single]
      rfl
    refine ⟨⟨i⟩ :: ids, by rw [Outline.direct, hids]; rfl, fun n => ?_⟩
    refine foldlM_cons_eq_ok.2 ⟨n + 1, by rw [hself]; rfl, (hcount _).trans ?_⟩
    exact congrArg Except.ok (by omega)
  | @nested i k j block body rest owns place inner tail _ ih =>
    obtain ⟨ids, hids, hcount⟩ := ih
    have hle := inner.le
    have hle' := tail.le
    have hself : p.subtreeSlotCount ⟨i⟩ = .ok (1 + (k - (i + 1))) := by
      rw [subtreeSlotCount, owns, ok_bind]
      simp only [(inner.ofPlace place).unfolds, inner.size]
      rfl
    refine ⟨⟨i⟩ :: ids, by rw [Outline.direct, hids]; rfl, fun n => ?_⟩
    refine foldlM_cons_eq_ok.2 ⟨n + (1 + (k - (i + 1))), by rw [hself]; rfl, (hcount _).trans ?_⟩
    exact congrArg Except.ok (by omega)

end Lays

namespace Program

variable {p : Program} {b body : Block} {s : StmtId}
variable {owner : Option StmtId} {around : Option Block}

/-- **Every block in the tree is laid out flat**, if the top level is. -/
theorem BlockIn.lays (h : p.BlockIn owner around b)
    (top : ∃ o, Lays p p.block.statements.start p.block.statements.stop o) :
    ∃ o, Lays p b.statements.start b.statements.stop o := by
  induction h with
  | top => exact top
  | @body owner around b children s body outside listed child owns ih =>
    obtain ⟨o, lays⟩ := ih
    obtain ⟨ids, hids, hlisted⟩ := lays.listed
    cases listed.symm.trans hlisted
    obtain ⟨hi, hj, -⟩ := lays.child hids child
    rcases lays.inside hi hj with hnone | ⟨body', o', hsome, inner⟩
    · cases owns.symm.trans hnone
    · cases owns.symm.trans hsome
      exact ⟨o', inner⟩

/-- To count the places of a statement is to count those of the statements
in its body, one after the other. -/
theorem subtreeSlotCount_body (valid : p.validate = .ok ()) (hs : s ∈ p.block.statements.ids)
    (owns : p.bodyOf s = .ok (some body)) : ∃ children, p.children body = .ok children ∧
      p.subtreeSlotCount s =
        children.ids.foldlM (fun n s => return n + (← p.subtreeSlotCount s)) 1 := by
  obtain ⟨o, top, -⟩ := exists_lays (validate_eq_ok.1 valid).2.2.2.1
  obtain ⟨hi, hj⟩ := IdRange.mem_ids.1 hs
  rcases top.inside hi hj with hnone | ⟨body', o', hsome, inner⟩
  · cases owns.symm.trans hnone
  · cases owns.symm.trans hsome
    obtain ⟨ids, hids, hlisted⟩ := inner.listed
    obtain ⟨ids', hids', hcount⟩ := inner.count_slots
    cases hids.symm.trans hids'
    refine ⟨_, hlisted, ?_⟩
    rw [hcount, subtreeSlotCount, owns, ok_bind]
    simp only [inner.unfolds, inner.size]
    rfl

/-- **Walking flattened blocks is exact.** In a program with a good layout,
the children of every block end where the block does, and going on from
child to child in a block that is not empty comes by the same statements
and then to an end. Each statement of the top level, in whatever body,
takes as many places as are counted by walking its body. And the walk of a
block through all bodies comes by each statement in it once, in order. -/
theorem walks_exact (valid : p.validate = .ok ()) :
    (∀ owner around b, p.BlockIn owner around b →
      ∃ ids, p.children b = .ok ⟨ids, b.len⟩ ∧
        (b.isEmpty = false → ∃ offsets, p.Hops b 0 offsets ∧ p.offsets b = .ok offsets ∧
          ids = offsets.map b.stmtAt) ∧
        (p.outline b).flatten = .ok b.statements.ids) ∧
    ∀ s ∈ p.block.statements.ids, ∃ n, p.slotCount s = .ok n ∧ p.subtreeSlotCount s = .ok n := by
  obtain ⟨o, top, -⟩ := exists_lays (validate_eq_ok.1 valid).2.2.2.1
  constructor
  · intro owner around b h
    obtain ⟨o, lays⟩ := h.lays ⟨o, top⟩
    obtain ⟨ids, -, hlisted⟩ := lays.listed
    refine ⟨ids, hlisted, fun hempty => ?_, ?_⟩
    · have hlt : 0 < b.len := by
        simp only [Block.isEmpty, IdRange.isEmpty, beq_eq_false_iff_ne] at hempty
        exact Nat.pos_of_ne_zero hempty
      obtain ⟨offsets, hops, hids, hlen⟩ := exists_hops hlisted hlt
      exact ⟨offsets, hops, hops.offsetsFrom_eq hlen, hids⟩
    · rw [lays.unfolds, lays.flatten, IdRange.stop, Nat.add_sub_cancel_left]
  · intro s hs
    obtain ⟨hi, hj⟩ := IdRange.mem_ids.1 hs
    exact top.slotCount_eq_subtree hi hj

/-- A loop inside of a function, an empty body, and a statement behind. -/
theorem walks_exact_nested :
    Succeeds (Program.build [.openFunction "f" [] none, .openBody .loop, .breakLoop, .close, .close,
        .openBody .bare, .close, .breakLoop])
      fun (p, _) => p.validate = .ok () ∧
        (∃ offsets, p.Hops p.block 0 offsets ∧ p.offsets p.block = .ok offsets ∧ offsets = [0, 3, 4]) ∧
        (p.outline p.block).flatten = .ok [⟨0⟩, ⟨1⟩, ⟨2⟩, ⟨3⟩, ⟨4⟩] ∧
        ∃ n, p.slotCount ⟨0⟩ = .ok n ∧ p.subtreeSlotCount ⟨0⟩ = .ok n ∧ n = 3 := by
  have facts : Succeeds (Program.build [.openFunction "f" [] none, .openBody .loop, .breakLoop, .close,
        .close, .openBody .bare, .close, .breakLoop])
      fun (p, _) => p.validate = .ok () ∧ p.block.statements = ⟨0, 5⟩ ∧
        p.offsets p.block = .ok [0, 3, 4] ∧ p.slotCount ⟨0⟩ = .ok 3 := by decide +kernel
  obtain ⟨⟨p, source⟩, built, valid, hblock, hoffsets, hslots⟩ := facts
  obtain ⟨blocks, statements⟩ := walks_exact valid
  obtain ⟨ids, -, hhops, hflatten⟩ := blocks none none p.block .top
  obtain ⟨offsets, hops, hoffsets', -⟩ := hhops (by rw [Block.isEmpty, hblock]; rfl)
  obtain ⟨n, hn, hn'⟩ := statements ⟨0⟩ (by rw [hblock]; decide)
  cases hoffsets.symm.trans hoffsets'
  cases hslots.symm.trans hn
  rw [hblock] at hflatten
  exact ⟨(p, source), built, valid, ⟨_, hops, hoffsets, rfl⟩, hflatten, 3, hn, hn', rfl⟩

end Program

end FrontEnd
