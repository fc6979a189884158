import FrontEnd.Program.Block
/-!
# FrontEnd — outlines

An `Outline` is a block unfolded to the tree it lays out flat: its
children in order, each with its own body unfolded. The passes recurse
over outlines. A block whose children cannot be listed unfolds to
`stuck`, so that a pass faults when it gets there and not before.
-/

namespace FrontEnd

/-- The statements of a block as a tree. -/
inductive Outline
  /-- The statements of the block cannot be listed. -/
  | stuck (fault : Fault)
  | done
  /-- A statement without a body, and what follows it. -/
  | leaf (s : StmtId) (rest : Outline)
  /-- A statement, its body, and what follows it. -/
  | nested (s : StmtId) (body rest : Outline)
deriving DecidableEq

namespace Outline

/-- The statements of the block itself, without those of bodies. -/
def direct : Outline → Except Fault (List StmtId)
  | .stuck fault => .error fault
  | .done => .ok []
  | .leaf s rest => return s :: (← rest.direct)
  | .nested s _ rest => return s :: (← rest.direct)

/-- Every statement, a body's right after the one that owns it. -/
def flatten : Outline → Except Fault (List StmtId)
  | .stuck fault => .error fault
  | .done => .ok []
  | .leaf s rest => return s :: (← rest.flatten)
  | .nested s body rest => return s :: ((← body.flatten) ++ (← rest.flatten))

/-- The number of statements, bodies included. -/
def size : Outline → Except Fault Nat
  | .stuck fault => .error fault
  | .done => .ok 0
  | .leaf _ rest => return 1 + (← rest.size)
  | .nested _ body rest => return 1 + (← body.size) + (← rest.size)

end Outline

namespace Program

/-- The outline of a block whose bodies nest less than `fuel` deep. -/
def outlineWithin (p : Program) : (fuel : Nat) → (block : Block) → Outline
  | 0, _ => .stuck .endless
  | fuel + 1, block =>
    match p.children block with
    | .error fault => .stuck fault
    | .ok children =>
      children.ids.foldr (fun s rest =>
        match p.bodyOf s with
        | .error fault => .stuck fault
        | .ok none => .leaf s rest
        | .ok (some body) => .nested s (p.outlineWithin fuel body) rest) .done

/-- The outline of a block. Bodies nest no deeper than there are
statements, unless they nest without end. -/
def outline (p : Program) (block : Block) : Outline := p.outlineWithin (p.stmts.size + 1) block

/-- How many places a statement takes, counted by walking its body
instead of reading its length. -/
def subtreeSlotCount (p : Program) (s : StmtId) : Except Fault Nat := do
  match ← p.bodyOf s with
  | some body => return 1 + (← (p.outline body).size)
  | none => return 1

end Program

end FrontEnd
